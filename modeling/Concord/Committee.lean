import Concord.Message.Body
import Concord.Settings

/-!
The members of a group, the rotation of the lead, the quorum, and the verification of certificates.
-/

namespace Concord

open Crypto

/-- The number of votes that a leader needs besides its own, in a group of `n`. -/
def quorumThreshold (n : Nat) : Nat := n - n / 3 - 1

def hasQuorum (votes n : Nat) : Bool := quorumThreshold n ≤ votes

/-- The index of the leader of `view` among `n` members. After the last view the count begins
anew. -/
def leaderIndex (view : View) (n : Nat) : Nat := (view + 1).toNat % n

structure Committee where
  members : List Member
  members_ne_nil : members ≠ []

namespace Committee

def ofMembers (scheme : Scheme) (members : List Member) : Except SettingsFault Committee :=
  if h : members = [] then .error .noMembers
  else match members.find? fun m => !scheme.isKey m.key with
    | some m => .error (.badMemberKey m.key (.invalidPublicKey .notOnCurve))
    | none => .ok ⟨members, h⟩

variable (c : Committee)

def size : Nat := c.members.length

theorem size_pos : 0 < c.size := List.length_pos_iff.2 c.members_ne_nil

def find? (key : PublicKey) : Option Member := c.members.find? fun m => m.key = key

def contains (key : PublicKey) : Bool := c.members.any fun m => m.key = key

def leader (view : View) : Member :=
  c.members.get ⟨leaderIndex view c.size, Nat.mod_lt _ c.size_pos⟩

def isQuorum (votes : Nat) : Bool := hasQuorum votes c.size

def isValidVote (scheme : Scheme) (digest : Digest) (vote : Vote) : Bool :=
  c.contains vote.signer && scheme.verify vote.signer digest vote.signature

def validSigners (scheme : Scheme) (qc : Certificate) : List PublicKey :=
  let digest := qc.payload.hash scheme
  ((qc.votes.filter (c.isValidVote scheme digest)).map Vote.signer).eraseDups

/-- Whether every vote in the certificate is a member's, and it either has a single vote, which is
valid, or valid votes of enough members for a quorum. -/
def verifyCertificate (scheme : Scheme) (qc : Certificate) : Bool :=
  qc.votes.all (fun v => c.contains v.signer) &&
    let valid := (c.validSigners scheme qc).length
    if qc.votes.length = 1 then valid == 1 else 0 < valid && c.isQuorum valid

end Committee

end Concord
