import Concord.Proofs.Certificates
import Concord.Proofs.Legible
import Mathlib.Data.Finset.Card

/-!
The intersection of verified certificates. The quorum does not count the member that collects the
votes, and certificates are verified against the same number. Two certificates with one vote more
than that have a loyal member in common, and two with exactly that number may be disjoint.
-/

namespace Concord

open Crypto

theorem nodup_eraseDups {α : Type} [DecidableEq α] (l : List α) : l.eraseDups.Nodup := by
  cases l with
  | nil => exact .nil
  | cons a rest =>
    rw [List.eraseDups_cons, List.nodup_cons]
    exact ⟨by simp, nodup_eraseDups (rest.filter fun b => !b == a)⟩
termination_by l.length
decreasing_by exact Nat.lt_succ_of_le (List.length_filter_le _ _)

namespace Committee

section

variable (c : Committee) (scheme : Scheme)

def keys : Finset PublicKey := (c.members.map Member.key).toFinset

def voters (qc : Certificate) : Finset PublicKey := (c.validSigners scheme qc).toFinset

/-- Any two verified certificates with valid votes of `count` members have more than `(n - 1) / 3`
members in common. -/
def Meet (count : Nat) : Prop :=
  ∀ qc qc', c.verifyCertificate scheme qc → c.verifyCertificate scheme qc' →
    count ≤ (c.voters scheme qc).card → count ≤ (c.voters scheme qc').card →
    (c.size - 1) / 3 < (c.voters scheme qc ∩ c.voters scheme qc').card

def AllCanVote (payload : Payload) : Prop :=
  ∀ key ∈ c.keys, ∃ signature, scheme.verify key (payload.hash scheme) signature

variable {c scheme} {qc : Certificate} {payload : Payload}

theorem mem_keys {key : PublicKey} : key ∈ c.keys ↔ c.contains key := by
  simp [keys, contains]

theorem card_keys (hnodup : (c.members.map Member.key).Nodup) : c.keys.card = c.size := by
  rw [keys, List.toFinset_card_of_nodup hnodup, List.length_map, size]

theorem mem_voters {key : PublicKey} : key ∈ c.voters scheme qc ↔
    ∃ vote ∈ qc.votes, c.isValidVote scheme (qc.payload.hash scheme) vote ∧ vote.signer = key := by
  simp [voters, validSigners, and_assoc]

theorem card_voters (qc : Certificate) :
    (c.voters scheme qc).card = (c.validSigners scheme qc).length :=
  List.toFinset_card_of_nodup (nodup_eraseDups _)

theorem verifyCertificate_iff : c.verifyCertificate scheme qc ↔
    (∀ vote ∈ qc.votes, c.contains vote.signer) ∧ (c.voters scheme qc).Nonempty ∧
      (qc.votes.length = 1 ∨ quorumThreshold c.size ≤ (c.voters scheme qc).card) := by
  have hle : (c.validSigners scheme qc).length ≤ qc.votes.length := by
    have hvotes := List.length_filter_le (c.isValidVote scheme (qc.payload.hash scheme)) qc.votes
    rw [← List.length_map Vote.signer] at hvotes
    exact (List.Nodup.length_le_of_subset (nodup_eraseDups _)
      fun _ => List.mem_eraseDups.1).trans hvotes
  rw [← Finset.card_pos, card_voters]
  unfold verifyCertificate isQuorum hasQuorum
  simp only [Bool.and_eq_true, List.all_eq_true]
  refine and_congr_right fun _ => ?_
  split
  · next hsingle =>
    rw [beq_iff_eq, hsingle]
    omega
  · next hseveral => simp [hseveral]

theorem voters_subset (qc : Certificate) : c.voters scheme qc ⊆ c.keys := fun key hkey => by
  obtain ⟨vote, -, hvalid, rfl⟩ := mem_voters.1 hkey
  exact mem_keys.2 (Bool.and_eq_true_iff.1 hvalid).1

theorem meet_of_lt {count : Nat} (hsize : 4 ≤ c.size) (hnodup : (c.members.map Member.key).Nodup)
    (hcount : quorumThreshold c.size < count) : c.Meet scheme count := by
  intro qc qc' _ _ hvotes hvotes'
  have hunion : (c.voters scheme qc ∪ c.voters scheme qc').card ≤ c.size := by
    rw [← card_keys hnodup]
    exact Finset.card_le_card (Finset.union_subset (voters_subset qc) (voters_subset qc'))
  have hsum := Finset.card_union_add_card_inter (c.voters scheme qc) (c.voters scheme qc')
  unfold quorumThreshold at hcount
  omega

/-- Any set of members that is a quorum makes a verified certificate with exactly their votes. -/
theorem exists_certificate (hcan : c.AllCanVote scheme payload) {keys : Finset PublicKey}
    (hkeys : keys ⊆ c.keys) (hsize : 4 ≤ c.size) (hquorum : c.isQuorum keys.card) :
    ∃ qc, c.verifyCertificate scheme qc ∧ c.voters scheme qc = keys := by
  choose! signature hsignature using hcan
  have hvalid : ∀ key ∈ keys,
      c.isValidVote scheme (payload.hash scheme) ⟨key, signature key⟩ := fun key hkey =>
    Bool.and_eq_true_iff.2 ⟨mem_keys.1 (hkeys hkey), hsignature key (hkeys hkey)⟩
  -- One valid vote of each of the members, and no other.
  let qc : Certificate :=
    ⟨⟨.prepare, 0, payload, Digest.zero⟩, keys.toList.map fun key => ⟨key, signature key⟩⟩
  have hvote : ∀ vote ∈ qc.votes, c.isValidVote scheme (qc.payload.hash scheme) vote := by
    intro vote hvote
    obtain ⟨key, hkey, rfl⟩ := List.mem_map.1 hvote
    exact hvalid key (Finset.mem_toList.1 hkey)
  have hsigners : qc.votes.map Vote.signer = keys.toList := by simp [qc, Function.comp_def]
  refine ⟨qc, ?_, ?_⟩
  · refine verifyCertificate_of_quorum hsize
      (fun vote hmem => (Bool.and_eq_true_iff.1 (hvote vote hmem)).1) (List.Subset.refl _)
      (hsigners ▸ keys.nodup_toList) hvote ?_
    rw [← List.length_map Vote.signer, hsigners, Finset.length_toList]
    exact hquorum
  · ext key
    rw [mem_voters, ← Finset.mem_toList, ← hsigners, List.mem_map]
    constructor
    · rintro ⟨vote, hmem, -, hkey⟩
      exact ⟨vote, hmem, hkey⟩
    · rintro ⟨vote, hmem, hkey⟩
      exact ⟨vote, hmem, hvote vote hmem, hkey⟩

/-- There are two quorums of members with at most `(n - 1) / 3` in common. -/
theorem exists_far_apart (hsize : 4 ≤ c.size) (hnodup : (c.members.map Member.key).Nodup) :
    ∃ a ⊆ c.keys, ∃ b ⊆ c.keys, a.card = quorumThreshold c.size ∧
      b.card = quorumThreshold c.size ∧ (a ∩ b).card ≤ (c.size - 1) / 3 := by
  have hcard := card_keys hnodup
  obtain ⟨a, ha, hacard⟩ : ∃ a ⊆ c.keys, a.card = quorumThreshold c.size :=
    Finset.exists_subset_card_eq (by unfold quorumThreshold; omega)
  have hrest : (c.keys \ a).card = c.size - quorumThreshold c.size := by
    rw [Finset.card_sdiff_of_subset ha, hcard, hacard]
  obtain ⟨b, hrestb, hb, hbcard⟩ : ∃ b, c.keys \ a ⊆ b ∧ b ⊆ c.keys ∧
      b.card = quorumThreshold c.size :=
    Finset.exists_subsuperset_card_eq Finset.sdiff_subset
      (by rw [hrest]; unfold quorumThreshold; omega) (by unfold quorumThreshold; omega)
  refine ⟨a, ha, b, hb, hacard, hbcard, ?_⟩
  have hunion : a ∪ b = c.keys := by
    refine Finset.Subset.antisymm (Finset.union_subset ha hb) fun key hkey => ?_
    by_cases hmem : key ∈ a
    · exact Finset.mem_union_left _ hmem
    · exact Finset.mem_union_right _ (hrestb (Finset.mem_sdiff.2 ⟨hkey, hmem⟩))
  have hsum := Finset.card_union_add_card_inter a b
  rw [hunion, hcard, hacard, hbcard] at hsum
  unfold quorumThreshold at hsum
  omega

/-- Verified certificates with valid votes of `count` members meet in more than `(n - 1) / 3`
members if and only if `count` exceeds the threshold. -/
theorem meet_iff (hsize : 4 ≤ c.size) (hnodup : (c.members.map Member.key).Nodup)
    (hcan : c.AllCanVote scheme payload) (count : Nat) :
    c.Meet scheme count ↔ quorumThreshold c.size < count := by
  refine ⟨fun hmeet => ?_, meet_of_lt hsize hnodup⟩
  obtain ⟨a, ha, b, hb, hacard, hbcard, hfew⟩ := exists_far_apart hsize hnodup
  have hquorum : c.isQuorum (quorumThreshold c.size) := decide_eq_true (Nat.le_refl _)
  obtain ⟨qc, hqc, hvoters⟩ := exists_certificate hcan ha hsize (hacard ▸ hquorum)
  obtain ⟨qc', hqc', hvoters'⟩ := exists_certificate hcan hb hsize (hbcard ▸ hquorum)
  refine Nat.lt_of_not_le fun hcount => ?_
  have hmany := hmeet qc qc' hqc hqc' (by rwa [hvoters, hacard]) (by rwa [hvoters', hbcard])
  rw [hvoters, hvoters'] at hmany
  omega

end

section Samples

open Core.Legible

def votedBy (members : List (Fin 4)) : Certificate where
  subject := ⟨.prepare, 2, payload 1, Digest.zero⟩
  votes := members.map fun i => ⟨key i, stamp (key i) ((payload 1).hash scheme)⟩

theorem votedBy_spec :
    four.committee.verifyCertificate scheme (votedBy [0, 1]) ∧
    four.committee.verifyCertificate scheme (votedBy [2, 3]) ∧
    four.committee.verifyCertificate scheme (votedBy [0]) ∧
    four.committee.voters scheme (votedBy [0, 1]) ∩
      four.committee.voters scheme (votedBy [2, 3]) = ∅ ∧
    (four.committee.members.map Member.key).Nodup := by
  decide +kernel

/-- Of four members, two sign one certificate and two another, and both verify. With three votes
each, certificates meet in two members. -/
theorem meet_of_four :
    four.committee.verifyCertificate scheme (votedBy [0, 1]) ∧
    four.committee.verifyCertificate scheme (votedBy [2, 3]) ∧
    four.committee.verifyCertificate scheme (votedBy [0]) ∧
    four.committee.voters scheme (votedBy [0, 1]) ∩
      four.committee.voters scheme (votedBy [2, 3]) = ∅ ∧
    ¬ four.committee.Meet scheme 0 ∧ ¬ four.committee.Meet scheme 2 ∧
    four.committee.Meet scheme 3 := by
  obtain ⟨hfirst, hsecond, hsingle, hdisjoint, hnodup⟩ := votedBy_spec
  have hcan : four.committee.AllCanVote scheme (payload 1) := fun key _ =>
    ⟨stamp key ((payload 1).hash scheme), decide_eq_true rfl⟩
  have hiff := meet_iff (c := four.committee) (by decide) hnodup hcan
  exact ⟨hfirst, hsecond, hsingle, hdisjoint, fun hmeet => absurd ((hiff 0).1 hmeet) (by decide),
    fun hmeet => absurd ((hiff 2).1 hmeet) (by decide), (hiff 3).2 (by decide)⟩

end Samples

end Committee

end Concord
