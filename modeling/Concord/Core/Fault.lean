import Concord.Message.Envelope
import Concord.Settings

/-!
The faults of a core, with the causes for which it refuses a message.
-/

namespace Concord.Core

inductive ApplicationFault
  | build (reason : String)
  | decode (reason : String)
deriving DecidableEq

def ApplicationFault.message : ApplicationFault → String
  | .build reason => "failed to build customer data: " ++ reason
  | .decode reason => "failed to decode customer data: " ++ reason

inductive ProtocolMismatch
  | envelope (fault : MessageFault)
  | otherPhase (kind : MessageKind) (phase : Phase)
  | unhandled (variant : Variant) (kind : MessageKind)
deriving DecidableEq

def ProtocolMismatch.message : ProtocolMismatch → String
  | .envelope fault => fault.message
  | .otherPhase kind phase => s!"{kind.text} message carries {phase.text} phase"
  | .unhandled .basic kind => s!"basic HotStuff does not handle {kind.text} messages"
  | .unhandled .chained kind => s!"chained HotStuff does not handle {kind.text} messages"

inductive BadSignature
  | sender (kind : MessageKind) (signer : PublicKey)
  | newViewJustify (view : View) (signer : PublicKey)
deriving DecidableEq

def BadSignature.message : BadSignature → String
  | .sender kind signer => s!"{kind.text} from {signer.brief}"
  | .newViewJustify view signer => s!"NewView justify for view {view} from {signer.brief}"

inductive SafetyViolation
  | proposer (view : View) (signer leader : PublicKey)
  | justifyAhead (justify view : View)
  | justifyWithoutQuorum (justify : View)
  | dataRefused (view : View)
  | belowLock (view locked : View)
  | phaseSender (kind : MessageKind) (view : View) (signer leader : PublicKey)
  | wrongCertificate (kind : MessageKind) (phase : Phase) (view : View)
      (wantedPhase : Phase) (wantedView : View)
  | otherPayload (kind : MessageKind) (view : View)
  | certificateWithoutQuorum (kind : MessageKind) (view : View)
  | nodeId (view : View)
deriving DecidableEq

def SafetyViolation.message : SafetyViolation → String
  | .proposer view signer leader =>
    s!"proposal for view {view} signed by {signer.brief} but leader is {leader.brief}"
  | .justifyAhead justify view => s!"justify view {justify} is ahead of proposal view {view}"
  | .justifyWithoutQuorum justify => s!"justify QC for view {justify} does not form a quorum"
  | .dataRefused view => s!"customer data rejected at view {view}"
  | .belowLock view locked =>
    s!"proposal at view {view} neither outranks nor extends locked QC at view {locked}"
  | .phaseSender kind view signer leader =>
    s!"{kind.text} for view {view} signed by {signer.brief} but leader is {leader.brief}"
  | .wrongCertificate kind phase view wantedPhase wantedView =>
    s!"{kind.text} carries a {phase.text} QC for view {view}, " ++
      s!"expected {wantedPhase.text} for view {wantedView}"
  | .otherPayload kind view =>
    s!"{kind.text} certifies a different payload than the view {view} proposal"
  | .certificateWithoutQuorum kind view =>
    s!"{kind.text} QC for view {view} does not form a quorum"
  | .nodeId view => s!"node id mismatch at view {view}"

inductive ViewOutOfRange
  | noNext (view : View)
  | newView (view : View) (signer : PublicKey) (current : View)
  | vote (view : View) (signer : PublicKey) (current : View)
  | pastJustify (view : View) (gap : Nat)
  | skipped (gap : Nat) (start stop : View)
deriving DecidableEq

def ViewOutOfRange.message : ViewOutOfRange → String
  | .noNext view => s!"no view follows {view}"
  | .newView view signer current =>
    s!"NewView for view {view} from {signer.brief} while at view {current}"
  | .vote view signer current =>
    s!"vote for view {view} from {signer.brief} while at view {current}"
  | .pastJustify view gap => s!"proposal view {view} is {gap} views past its justify"
  | .skipped gap start stop => s!"{gap} skipped views between {start} and {stop}"

inductive Fault
  | protocolMismatch (cause : ProtocolMismatch)
  | unknownSender (key : PublicKey)
  | badSignature (cause : BadSignature)
  | safetyViolation (cause : SafetyViolation)
  | viewOutOfRange (cause : ViewOutOfRange)
  | settings (cause : SettingsFault)
  | application (cause : ApplicationFault)
  | unusable (cause : MessageFault)
  | notRunning
deriving DecidableEq

def Fault.message : Fault → String
  | .protocolMismatch cause => "protocol mismatch: " ++ cause.message
  | .unknownSender key => s!"sender {key.hex} is not a member"
  | .badSignature cause => "bad signature: " ++ cause.message
  | .safetyViolation cause => "safety violation: " ++ cause.message
  | .viewOutOfRange cause => "view out of range: " ++ cause.message
  | .settings cause => "invalid configuration: " ++ cause.message
  | .application cause => "external processor error: " ++ cause.message
  | .unusable cause => "message error: " ++ cause.message
  | .notRunning => "consensus core is not running"

def ApplicationFault.kind : ApplicationFault → String
  | .build _ => "Build"
  | .decode _ => "Decode"

def Fault.kind : Fault → String
  | .protocolMismatch _ => "ProtocolMismatch"
  | .unknownSender _ => "UnknownSender"
  | .badSignature _ => "BadSignature"
  | .safetyViolation _ => "SafetyViolation"
  | .viewOutOfRange _ => "ViewOutOfRange"
  | .settings _ => "Config"
  | .application cause => "Processor." ++ cause.kind
  | .unusable cause => "Message." ++ cause.kind
  | .notRunning => "NotRunning"

end Concord.Core
