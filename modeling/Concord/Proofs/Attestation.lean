import Concord.Proofs.Intersection
import Mathlib.Data.List.Perm.Subperm

/-!
The verification of a certificate as a function of its valid voters. Beyond the set of these, it
depends only on whether there is a single vote. It does not depend on the order of the votes, nor on
repetitions if there are two votes or more.
-/

namespace Concord

open Crypto

namespace Certificate

variable {scheme : Scheme} {qc : Certificate}

/-- The signers with a valid signature on the payload, members or not. -/
def attesters (scheme : Scheme) (qc : Certificate) : Finset PublicKey :=
  (qc.votes.toFinset.filter fun vote =>
    scheme.verify vote.signer (qc.payload.hash scheme) vote.signature).image Vote.signer

theorem mem_attesters {key : PublicKey} : key ∈ qc.attesters scheme ↔
    ∃ vote ∈ qc.votes, scheme.verify vote.signer (qc.payload.hash scheme) vote.signature ∧
      vote.signer = key := by
  simp [attesters, and_assoc]

theorem attesters_congr {votes : List Vote} (h : ∀ vote, vote ∈ votes ↔ vote ∈ qc.votes) :
    attesters scheme { qc with votes := votes } = qc.attesters scheme := by
  ext key
  rw [mem_attesters, mem_attesters]
  change (∃ vote ∈ votes, scheme.verify vote.signer (qc.payload.hash scheme) vote.signature ∧
    vote.signer = key) ↔ _
  simp only [h]

end Certificate

namespace Committee

section

variable {c : Committee} {scheme : Scheme} {qc : Certificate}

theorem contains_iff {key : PublicKey} : c.contains key ↔ ∃ m ∈ c.members, m.key = key := by
  simp [contains]

theorem voters_eq_attesters (hmembers : ∀ vote ∈ qc.votes, c.contains vote.signer) :
    c.voters scheme qc = qc.attesters scheme := by
  ext key
  rw [mem_voters, Certificate.mem_attesters]
  apply exists_congr
  intro vote
  apply and_congr_right
  intro hvote
  simp [isValidVote, hmembers vote hvote]

theorem verifyCertificate_iff_attesters : c.verifyCertificate scheme qc ↔
    (∀ vote ∈ qc.votes, c.contains vote.signer) ∧ (qc.attesters scheme).Nonempty ∧
      (qc.votes.length = 1 ∨ quorumThreshold c.size ≤ (qc.attesters scheme).card) := by
  rw [verifyCertificate_iff]
  apply and_congr_right
  intro hmembers
  rw [voters_eq_attesters hmembers]

theorem verifyCertificate_congr {votes : List Vote} (hmem : ∀ vote, vote ∈ votes ↔ vote ∈ qc.votes)
    (hsingle : votes.length = 1 ↔ qc.votes.length = 1) :
    c.verifyCertificate scheme { qc with votes := votes } = c.verifyCertificate scheme qc := by
  rw [Bool.eq_iff_iff, verifyCertificate_iff_attesters, verifyCertificate_iff_attesters,
    Certificate.attesters_congr hmem]
  simp only [hmem, hsingle]

/-- A certificate verifies if and only if all its voters are members and its attesters are a quorum,
or its only vote is valid. The verdict does not depend on the order of the votes, nor, for two votes
or more, on repetitions. -/
theorem verdict_iff_attesters (c : Committee) (scheme : Scheme) (qc : Certificate) :
    (c.verifyCertificate scheme qc ↔
      (∀ vote ∈ qc.votes, ∃ m ∈ c.members, m.key = vote.signer) ∧
      (qc.votes.length = 1 ∧ (qc.attesters scheme).Nonempty ∨
        qc.votes.length ≠ 1 ∧ (qc.attesters scheme).Nonempty ∧
          quorumThreshold c.size ≤ (qc.attesters scheme).card)) ∧
    (∀ votes : List Vote, votes.Perm qc.votes →
      c.verifyCertificate scheme { qc with votes := votes } = c.verifyCertificate scheme qc) ∧
    (∀ votes : List Vote, 2 ≤ qc.votes.length → qc.votes.Subperm votes → votes ⊆ qc.votes →
      c.verifyCertificate scheme { qc with votes := votes } = c.verifyCertificate scheme qc) := by
  refine ⟨?_, ?_, ?_⟩
  · rw [verifyCertificate_iff_attesters]
    apply and_congr
    · simp only [contains_iff]
    · by_cases hsingle : qc.votes.length = 1
      · simp [hsingle]
      · simp [hsingle]
  · intro votes hperm
    apply verifyCertificate_congr
    · intro vote
      exact hperm.mem_iff
    · rw [hperm.length_eq]
  · intro votes htwo hmore hold
    have hlength : qc.votes.length ≤ votes.length := hmore.length_le
    apply verifyCertificate_congr
    · intro vote
      exact ⟨fun hvote => hold hvote, fun hvote => hmore.subset hvote⟩
    · omega

end

section Samples

open Core.Legible

theorem votedBy_single_spec :
    four.committee.verifyCertificate scheme (votedBy [0]) ∧
    ¬ four.committee.verifyCertificate scheme (votedBy [0, 0]) ∧
    four.committee.verifyCertificate scheme (votedBy [2, 3]) ∧
    (votedBy [3, 2]).votes.Perm (votedBy [2, 3]).votes ∧
    (votedBy [2, 3]).votes.Subperm (votedBy [3, 2, 2, 3, 2]).votes := by
  decide +kernel

/-- Two votes of four members verify in either order and with repetitions. A single accepted vote is
refused if it is there twice. -/
theorem verdict_of_repeated :
    four.committee.verifyCertificate scheme (votedBy [0]) ∧
    ¬ four.committee.verifyCertificate scheme (votedBy [0, 0]) ∧
    four.committee.verifyCertificate scheme (votedBy [3, 2]) ∧
    four.committee.verifyCertificate scheme (votedBy [3, 2, 2, 3, 2]) := by
  obtain ⟨hsingle, htwice, hpair, hperm, hmore⟩ := votedBy_single_spec
  obtain ⟨-, horder, hrepeat⟩ := verdict_iff_attesters four.committee scheme (votedBy [2, 3])
  have hold : (votedBy [3, 2, 2, 3, 2]).votes ⊆ (votedBy [2, 3]).votes := by
    simp [votedBy]
  refine ⟨hsingle, htwice, ?_, ?_⟩
  · exact (horder _ hperm).trans hpair
  · exact (hrepeat _ (by decide) hmore hold).trans hpair

end Samples

end Committee

end Concord
