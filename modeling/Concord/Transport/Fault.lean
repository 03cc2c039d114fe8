import Concord.Message.Envelope

/-!
Why an exchange with another member fails.
-/

namespace Concord.Transport

inductive Fault
  | unreachable (address reason : String)
  | unknownMember (key : PublicKey)
  | frameTooLarge (size : Nat)
  | timedOut (address : String)
  | badMessage (fault : MessageFault)
  | badReply (fault : Wire.Fault)
  | earlyEnd
deriving DecidableEq

def Fault.message : Fault → String
  | .unreachable address reason => s!"connection to {address} failed: {reason}"
  | .unknownMember key => s!"member {key.hex} not found"
  | .frameTooLarge size => s!"frame of {size} bytes exceeds limit"
  | .timedOut address => "timed out talking to " ++ address
  | .badMessage fault => "message error: " ++ fault.message
  | .badReply fault => "codec error: " ++ fault.message
  | .earlyEnd => "IO error: early eof"

def Fault.kind : Fault → String
  | .unreachable _ _ => "ConnectionFailed"
  | .unknownMember _ => "UnknownMember"
  | .frameTooLarge _ => "FrameTooLarge"
  | .timedOut _ => "Timeout"
  | .badMessage fault => "Message." ++ fault.kind
  | .badReply _ => "Codec"
  | .earlyEnd => "Io"

end Concord.Transport
