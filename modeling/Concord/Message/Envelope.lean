import Concord.Message.Body

/-!
The envelope in which a signed body travels, tagged with the protocol's name and version.
-/

namespace Concord

open Wire Crypto

structure Envelope where
  family : String
  version : UInt16
  kind : MessageKind
  content : Bytes
deriving DecidableEq, Inhabited

inductive MessageFault
  | foreignProtocol (family : String) (version : UInt16)
  | undecodable (fault : Wire.Fault)
  | key (fault : KeyFault)
deriving DecidableEq

def MessageFault.message : MessageFault → String
  | .foreignProtocol family version =>
    let shown := Text.Quoted.text family
    s!"protocol mismatch: family {shown} version {version.toNat}"
  | .undecodable fault => "decode failed: " ++ fault.message
  | .key fault => "crypto error: " ++ fault.message

def MessageFault.kind : MessageFault → String
  | .foreignProtocol _ _ => "ProtocolMismatch"
  | .undecodable _ => "Decode"
  | .key fault => "Crypto." ++ fault.kind

namespace Envelope

def ownFamily : String := "hotstuff"

def ownVersion : UInt16 := 1

def ofContent (kind : MessageKind) (content : Bytes) : Envelope :=
  ⟨ownFamily, ownVersion, kind, content⟩

def codec : Codec Envelope :=
  (Codec.text.pair (Codec.u16.pair (MessageKind.codec.pair Codec.bytes))).map
    (fun x => ⟨x.1, x.2.1, x.2.2.1, x.2.2.2⟩)
    (fun e => (e.family, e.version, e.kind, e.content))

def ofBytes (b : Bytes) : Except MessageFault Envelope :=
  match codec.read b with
  | .ok e => .ok e
  | .error fault => .error (.undecodable fault)

def toBytes (e : Envelope) : Bytes := codec.encode e

def checkProtocol (e : Envelope) : Except MessageFault Unit :=
  if e.family = ownFamily ∧ e.version = ownVersion then .ok ()
  else .error (.foreignProtocol e.family e.version)

/-- The signed body inside. No signature is checked. -/
def open? (e : Envelope) : Except MessageFault SignedBody :=
  match SignedBody.codec.read e.content with
  | .ok m => .ok m
  | .error fault => .error (.undecodable fault)

end Envelope

structure Letter where
  kind : MessageKind
  signed : SignedBody
deriving DecidableEq, Inhabited

namespace Letter

def body (l : Letter) : Body := l.signed.body

def envelope (l : Letter) : Envelope := .ofContent l.kind (SignedBody.codec.encode l.signed)

def build (scheme : Scheme) (signer : Signer) (kind : MessageKind) (body : Body) :
    Except MessageFault Letter :=
  match SignedBody.sign scheme signer body with
  | .ok m => .ok ⟨kind, m⟩
  | .error fault => .error (.key fault)

end Letter

def Envelope.build (scheme : Scheme) (signer : Signer) (kind : MessageKind) (body : Body) :
    Except MessageFault Envelope :=
  match Letter.build scheme signer kind body with
  | .ok letter => .ok letter.envelope
  | .error fault => .error fault

end Concord
