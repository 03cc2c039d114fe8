import Concord.Identity
import Concord.Message.Phase

/-!
Payloads, votes and quorum certificates.
-/

namespace Concord

open Wire

/-- The application's data, with the digest of the payload before it. -/
structure Payload where
  parent : Digest
  data : Bytes
deriving DecidableEq, Inhabited

namespace Payload

def genesis : Payload := ⟨Digest.zero, []⟩

def isGenesis (p : Payload) : Bool := p.parent.isZero && p.data.isEmpty

def codec : Codec Payload :=
  (Digest.codec.pair Codec.bytes).map (fun x => ⟨x.1, x.2⟩) (fun p => (p.parent, p.data))

end Payload

/-- What a certificate is for. The five-phase protocol leaves `nodeId` zero. -/
structure Subject where
  phase : Phase
  view : View
  payload : Payload
  nodeId : Digest
deriving DecidableEq, Inhabited

def Subject.codec : Codec Subject :=
  (Phase.codec.pair (Codec.u64.pair (Payload.codec.pair Digest.codec))).map
    (fun x => ⟨x.1, x.2.1, x.2.2.1, x.2.2.2⟩) (fun s => (s.phase, s.view, s.payload, s.nodeId))

structure Vote where
  signer : PublicKey
  signature : Signature
deriving DecidableEq, Inhabited

def Vote.codec : Codec Vote :=
  (PublicKey.codec.pair Signature.codec).map (fun x => ⟨x.1, x.2⟩)
    (fun v => (v.signer, v.signature))

structure Certificate where
  subject : Subject
  votes : List Vote
deriving DecidableEq, Inhabited

namespace Certificate

def genesis : Certificate := ⟨⟨.newView, 0, Payload.genesis, Digest.zero⟩, []⟩

def phase (c : Certificate) : Phase := c.subject.phase

def view (c : Certificate) : View := c.subject.view

def payload (c : Certificate) : Payload := c.subject.payload

def nodeId (c : Certificate) : Digest := c.subject.nodeId

def hasVoteFrom (c : Certificate) (signer : PublicKey) : Bool :=
  c.votes.any fun v => v.signer = signer

/-- Adds a vote, unless the certificate has one of its signer. -/
def addVote (c : Certificate) (vote : Vote) : Certificate :=
  if c.hasVoteFrom vote.signer then c else { c with votes := c.votes ++ [vote] }

def addVotes (c : Certificate) (votes : List Vote) : Certificate := votes.foldl addVote c

def ofVotes (subject : Subject) (votes : List Vote) : Certificate :=
  addVotes ⟨subject, []⟩ votes

def withNode (c : Certificate) (id : Digest) : Certificate :=
  { c with subject := { c.subject with nodeId := id } }

def codec : Codec Certificate :=
  (Subject.codec.pair (Codec.list Vote.codec)).map (fun x => ⟨x.1, x.2⟩)
    (fun c => (c.subject, c.votes))

end Certificate

end Concord
