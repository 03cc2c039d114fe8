import Concord.Crypto.Scheme
import Concord.Message.Certificate

/-!
What a message says, and who says it. The body of a proposal is also the node that the chained
protocol stores; its identity is a digest of all its other fields.
-/

namespace Concord

open Wire Crypto

structure Body where
  view : View
  phase : Phase
  payload : Payload
  justify : Certificate
  id : Digest
  /-- The node before this one. In votes and NewViews of the chained protocol, the node that they
  are for. -/
  parentId : Digest
deriving DecidableEq, Inhabited

namespace Body

def plain (view : View) (phase : Phase) (payload : Payload) (justify : Certificate) : Body :=
  ⟨view, phase, payload, justify, Digest.zero, Digest.zero⟩

def withParent (b : Body) (parentId : Digest) : Body := { b with parentId := parentId }

def codec : Codec Body :=
  (Codec.u64.pair (Phase.codec.pair (Payload.codec.pair (Certificate.codec.pair
    (Digest.codec.pair Digest.codec))))).map
    (fun x => ⟨x.1, x.2.1, x.2.2.1, x.2.2.2.1, x.2.2.2.2.1, x.2.2.2.2.2⟩)
    (fun b => (b.view, b.phase, b.payload, b.justify, b.id, b.parentId))

/-- The digest of the body with its identity set to zero. -/
def computeId (scheme : Scheme) (b : Body) : Digest :=
  scheme.hash (codec.encode { b with id := Digest.zero })

def sealId (scheme : Scheme) (b : Body) : Body := { b with id := b.computeId scheme }

def sealHash (scheme : Scheme) (b : Body) : Digest := scheme.hash (codec.encode b)

end Body

def Payload.hash (scheme : Scheme) (p : Payload) : Digest := scheme.hash (Payload.codec.encode p)

structure SignedBody where
  body : Body
  signer : PublicKey
  voteSignature : Signature
  sealSignature : Signature
deriving DecidableEq, Inhabited

namespace SignedBody

def view (m : SignedBody) : View := m.body.view

def phase (m : SignedBody) : Phase := m.body.phase

def justify (m : SignedBody) : Certificate := m.body.justify

def vote (m : SignedBody) : Vote := ⟨m.signer, m.voteSignature⟩

def codec : Codec SignedBody :=
  (Body.codec.pair (PublicKey.codec.pair (Signature.codec.pair Signature.codec))).map
    (fun x => ⟨x.1, x.2.1, x.2.2.1, x.2.2.2⟩)
    (fun m => (m.body, m.signer, m.voteSignature, m.sealSignature))

def sign (scheme : Scheme) (signer : Signer) (body : Body) : Except KeyFault SignedBody := do
  let voteSignature ← signer.sign (body.payload.hash scheme)
  let sealSignature ← signer.sign (body.sealHash scheme)
  return ⟨body, signer.key, voteSignature, sealSignature⟩

/-- Whether `key` is the signer's and both signatures verify under it. -/
def verify (scheme : Scheme) (key : PublicKey) (m : SignedBody) : Bool :=
  key = m.signer && scheme.verify key (m.body.sealHash scheme) m.sealSignature &&
    scheme.verify key (m.body.payload.hash scheme) m.voteSignature

end SignedBody

end Concord
