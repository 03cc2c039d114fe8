import Concord.Proofs.Aggregation
import Concord.Proofs.Echoes
import Concord.Proofs.Gathering

/-!
The certificate that a leader takes from NewViews. One of a later view than 0 was verified on
receipt and is taken unchanged. One of view 0 was not: its votes are kept unfiltered, and the valid
votes of other NewViews and the leader's own are added. The result may not verify.
-/

namespace Concord

namespace Certificate

/-- `qc'` has the votes of `qc` and one vote of each signer in `offered` that has none in `qc`. -/
structure Gains (qc qc' : Certificate) (offered gained : List Vote) : Prop where
  votes_eq : qc'.votes = qc.votes ++ gained
  sub : gained ⊆ offered
  fresh : ∀ vote ∈ gained, vote.signer ∉ qc.votes.map Vote.signer
  nodup : (gained.map Vote.signer).Nodup
  covers : ∀ vote ∈ offered, vote.signer ∈ qc'.votes.map Vote.signer

theorem gains_nil (qc : Certificate) : Gains qc qc [] [] :=
  ⟨(List.append_nil _).symm, List.Subset.refl _, nofun, .nil, nofun⟩

theorem gains_addVote (qc : Certificate) (vote : Vote) :
    ∃ gained, Gains qc (qc.addVote vote) [vote] gained := by
  refine ⟨_, votes_addVote qc vote, ?_, ?_, ?_, ?_⟩
  · split <;> simp
  · split
    · nofun
    · next hnew => simpa using hnew
  · split <;> simp
  · rw [List.forall_mem_singleton, votes_addVote]
    split
    · next hold => simpa using hold
    · simp

theorem Gains.trans {qc qc' qc'' : Certificate} {offered offered' gained gained' : List Vote}
    (h : Gains qc qc' offered gained) (h' : Gains qc' qc'' offered' gained') :
    Gains qc qc'' (offered ++ offered') (gained ++ gained') := by
  have hsigners : qc'.votes.map Vote.signer =
      qc.votes.map Vote.signer ++ gained.map Vote.signer := by
    rw [h.votes_eq, List.map_append]
  have hfresh : ∀ vote ∈ gained', vote.signer ∉ qc.votes.map Vote.signer ∧
      vote.signer ∉ gained.map Vote.signer := fun vote hvote => by
    have hnew := h'.fresh vote hvote
    rw [hsigners, List.mem_append] at hnew
    exact not_or.1 hnew
  refine ⟨by rw [h'.votes_eq, h.votes_eq, List.append_assoc], ?_, ?_, ?_, ?_⟩
  · exact List.append_subset.2 ⟨List.subset_append_of_subset_left _ h.sub,
      List.subset_append_of_subset_right _ h'.sub⟩
  · exact List.forall_mem_append.2 ⟨h.fresh, fun vote hvote => (hfresh vote hvote).1⟩
  · rw [List.map_append, List.nodup_append]
    refine ⟨h.nodup, h'.nodup, ?_⟩
    rintro signer hsigner _ hsigner' rfl
    obtain ⟨vote, hvote, rfl⟩ := List.mem_map.1 hsigner'
    exact (hfresh vote hvote).2 hsigner
  · refine List.forall_mem_append.2 ⟨fun vote hvote => ?_, h'.covers⟩
    rw [h'.votes_eq, List.map_append]
    exact List.mem_append_left _ (h.covers vote hvote)

theorem gains_addVotes (qc : Certificate) (votes : List Vote) :
    ∃ gained, Gains qc (qc.addVotes votes) votes gained := by
  induction votes generalizing qc with
  | nil => exact ⟨[], gains_nil qc⟩
  | cons vote rest ih =>
    obtain ⟨first, hfirst⟩ := gains_addVote qc vote
    obtain ⟨later, hlater⟩ := ih (qc.addVote vote)
    exact ⟨first ++ later, hfirst.trans hlater⟩

theorem Gains.mem_signers {qc qc' : Certificate} {offered gained : List Vote}
    (h : Gains qc qc' offered gained) {key : PublicKey} : key ∈ gained.map Vote.signer ↔
      key ∈ offered.map Vote.signer ∧ key ∉ qc.votes.map Vote.signer := by
  constructor
  · intro hkey
    obtain ⟨vote, hvote, rfl⟩ := List.mem_map.1 hkey
    exact ⟨List.mem_map_of_mem (h.sub hvote), h.fresh vote hvote⟩
  · rintro ⟨hkey, hnew⟩
    obtain ⟨vote, hvote, rfl⟩ := List.mem_map.1 hkey
    have hcovered := h.covers vote hvote
    rw [h.votes_eq, List.map_append, List.mem_append] at hcovered
    exact hcovered.resolve_left hnew

theorem Gains.nodup_iff {qc qc' : Certificate} {offered gained : List Vote}
    (h : Gains qc qc' offered gained) :
    (qc'.votes.map Vote.signer).Nodup ↔ (qc.votes.map Vote.signer).Nodup := by
  rw [h.votes_eq, List.map_append, List.nodup_append]
  refine ⟨And.left, fun hnodup => ⟨hnodup, h.nodup, ?_⟩⟩
  rintro signer hsigner _ hsigner' rfl
  obtain ⟨vote, hvote, rfl⟩ := List.mem_map.1 hsigner'
  exact h.fresh vote hvote hsigner

end Certificate

namespace Core

open Handler

variable {v : Variant} {σ : Type} {ctx : Context σ}

theorem mem_startingVotes {payload : Payload} {collected : List SignedBody} {vote : Vote}
    (h : vote ∈ startingVotes ctx payload collected) :
    ctx.committee.isValidVote ctx.scheme (payload.hash ctx.scheme) vote := by
  obtain ⟨m, -, hvote⟩ := List.mem_flatMap.1 h
  rcases List.mem_append.1 hvote with hvote | hvote
  · exact (List.mem_filter.1 hvote).2
  · exact (List.mem_filter.1 hvote).2

/-- The members with a valid vote in the certificate of `best`, and those without a vote in it among
the leader and the senders of valid starting votes. -/
def backers (ctx : Context σ) (s : State) (best : SignedBody) : Finset PublicKey :=
  ctx.committee.voters ctx.scheme best.justify ∪
    (insert ctx.me ((startingVotes ctx best.justify.payload
      (s.newViews.forView s.view)).map Vote.signer).toFinset \
        (best.justify.votes.map Vote.signer).toFinset)

section Choosing

variable {s : State} {best : SignedBody} {qc : Certificate}

theorem best_of_exec {t : Turn (Memory v) σ} {leaf : Digest}
    (h : (exec (takeHighCertificate ctx) t).1 = .ok (some (qc, leaf))) :
    ∃ best, best? ctx t.state = some best ∧ taken ctx t.state best = .ok qc := by
  rw [exec_takeHighCertificate] at h
  cases hbest : best? ctx t.state with
  | none => rw [hbest] at h; cases h
  | some best =>
    rw [hbest] at h
    dsimp only at h
    cases hqc : taken ctx t.state best with
    | error fault => rw [hqc] at h; cases h
    | ok made =>
      rw [hqc] at h
      cases h
      exact ⟨best, rfl, hqc⟩

/-- A certificate of a later view is taken unchanged. One of view 0 gains the votes of the other
NewViews and the leader's own. -/
theorem taken_cases (h : taken ctx s best = .ok qc) :
    0 < best.justify.view ∧ qc = best.justify ∨
    best.justify.view = 0 ∧ ∃ own gained, ctx.ownVote best.justify.payload = .ok own ∧
      Certificate.Gains best.justify qc
        (startingVotes ctx best.justify.payload (s.newViews.forView s.view) ++ [own]) gained := by
  unfold taken at h
  dsimp only at h
  split at h
  · next hzero =>
    cases hown : ctx.ownVote best.justify.payload with
    | error fault => rw [hown] at h; cases h
    | ok own =>
      rw [hown] at h
      cases h
      obtain ⟨first, hfirst⟩ := Certificate.gains_addVotes best.justify
        (startingVotes ctx best.justify.payload (s.newViews.forView s.view))
      obtain ⟨last, hlast⟩ := Certificate.gains_addVote (best.justify.addVotes
        (startingVotes ctx best.justify.payload (s.newViews.forView s.view))) own
      exact .inr ⟨hzero, own, first ++ last, rfl, hfirst.trans hlast⟩
  · next hlater =>
    cases h
    exact .inl ⟨UInt64.pos_iff_ne_zero.2 hlater, rfl⟩

section Gaining

variable {own : Vote} {gained : List Vote} (hseated : ctx.Seated)
  (hsound : ctx.signer.Sound ctx.scheme) (hown : ctx.ownVote best.justify.payload = .ok own)
  (hsubject : qc.subject = best.justify.subject)
  (hgains : Certificate.Gains best.justify qc
    (startingVotes ctx best.justify.payload (s.newViews.forView s.view) ++ [own]) gained)

include hseated hsound hown hsubject hgains

theorem isValidVote_of_gains : ∀ vote ∈ gained,
    ctx.committee.isValidVote ctx.scheme (qc.payload.hash ctx.scheme) vote := by
  intro vote hvote
  have hpayload : qc.payload = best.justify.payload := congrArg Subject.payload hsubject
  rw [hpayload]
  rcases List.mem_append.1 (hgains.sub hvote) with hstarting | hmine
  · exact mem_startingVotes hstarting
  · obtain rfl := List.mem_singleton.1 hmine
    exact Context.isValidVote_of_ownVote hseated hsound hown

theorem voters_of_gains : ctx.committee.voters ctx.scheme qc = backers ctx s best := by
  have hpayload : qc.payload = best.justify.payload := congrArg Subject.payload hsubject
  have hvalid := isValidVote_of_gains hseated hsound hown hsubject hgains
  ext key
  have hkey : key ∈ gained.map Vote.signer ↔ _ := hgains.mem_signers
  have hheld : key ∈ ctx.committee.voters ctx.scheme best.justify ↔
      ∃ vote ∈ best.justify.votes, ctx.committee.isValidVote ctx.scheme
        (qc.payload.hash ctx.scheme) vote ∧ vote.signer = key := by
    rw [Committee.mem_voters, hpayload]
  calc key ∈ ctx.committee.voters ctx.scheme qc
      ↔ key ∈ ctx.committee.voters ctx.scheme best.justify ∨ key ∈ gained.map Vote.signer := by
        rw [Committee.mem_voters, hheld, hgains.votes_eq, List.mem_map]
        constructor
        · rintro ⟨vote, hvote, hok, rfl⟩
          rcases List.mem_append.1 hvote with hvote | hvote
          · exact .inl ⟨vote, hvote, hok, rfl⟩
          · exact .inr ⟨vote, hvote, rfl⟩
        · rintro (⟨vote, hvote, hok, rfl⟩ | ⟨vote, hvote, rfl⟩)
          · exact ⟨vote, List.mem_append_left _ hvote, hok, rfl⟩
          · exact ⟨vote, List.mem_append_right _ hvote, hvalid vote hvote, rfl⟩
    _ ↔ key ∈ backers ctx s best := by
        rw [hkey, backers, Finset.mem_union, Finset.mem_sdiff, Finset.mem_insert,
          List.mem_toFinset, List.mem_toFinset, List.map_append, List.mem_append,
          List.map_singleton, List.mem_singleton, Context.signer_of_ownVote hown,
          or_comm (b := key = ctx.me)]

/-- The certificate that results from one of view 0 verifies if and only if all voters of the latter
are members and its backers are a quorum, or it has a single valid vote. -/
theorem verify_of_gains : ctx.verifyCertificate qc ↔
    (∀ vote ∈ best.justify.votes, ctx.committee.contains vote.signer) ∧
      (backers ctx s best).Nonempty ∧ (qc.votes.length = 1 ∨
        quorumThreshold ctx.committee.size ≤ (backers ctx s best).card) := by
  have hmembers : ∀ vote ∈ gained, ctx.committee.contains vote.signer := by
    intro vote hvote
    have hvalid := isValidVote_of_gains hseated hsound hown hsubject hgains vote hvote
    exact (Bool.and_eq_true_iff.1 hvalid).1
  unfold Context.verifyCertificate
  rw [Committee.verifyCertificate_iff, voters_of_gains hseated hsound hown hsubject hgains,
    hgains.votes_eq, List.forall_mem_append, and_iff_left hmembers]

end Gaining

end Choosing

/-- Let `qc` be the certificate that a leader takes, and `best` the NewView that it comes from.
Votes are added only if the view is 0, and the added votes are valid. The votes in `best` are not
filtered: the signers in `qc` are distinct if and only if those in `best` are. Other cores verify
`qc` if and only if its view is later than 0, or all voters in `best` are members and the backers
are a quorum or the only vote is valid. -/
theorem taken_good_iff {l : Life (Memory v) σ} (h : l.Passed ctx) (hseated : ctx.Seated)
    (hsound : ctx.signer.Sound ctx.scheme) {qc : Certificate} {leaf : Digest}
    (htaken : (exec (takeHighCertificate ctx) l.turn).1 = .ok (some (qc, leaf))) :
    ∃ best gained, best? ctx l.state = some best ∧ qc.subject = best.justify.subject ∧
      qc.votes = best.justify.votes ++ gained ∧ (0 < best.justify.view → gained = []) ∧
      (∀ vote ∈ gained,
        ctx.committee.isValidVote ctx.scheme (qc.payload.hash ctx.scheme) vote) ∧
      ((qc.votes.map Vote.signer).Nodup ↔ (best.justify.votes.map Vote.signer).Nodup) ∧
      ∀ {τ : Type} (ctx' : Context τ), ctx'.scheme = ctx.scheme →
        ctx'.committee.members = ctx.committee.members →
        (ctx'.verifyCertificate qc ↔ 0 < best.justify.view ∨
          (∀ vote ∈ best.justify.votes, ctx.committee.contains vote.signer) ∧
          (backers ctx l.state best).Nonempty ∧ (qc.votes.length = 1 ∨
            quorumThreshold ctx.committee.size ≤ (backers ctx l.state best).card)) := by
  obtain ⟨best, hbest, hqc⟩ := best_of_exec htaken
  have hsubject := subject_taken hqc
  refine ⟨best, ?_⟩
  -- Of a later view the certificate was checked when it came in; of view 0 it was not.
  rcases taken_cases hqc with ⟨hlater, rfl⟩ | ⟨hzero, own, gained, hown, hgains⟩
  · refine ⟨[], hbest, rfl, (List.append_nil _).symm, fun _ => rfl, nofun, Iff.rfl, ?_⟩
    intro τ ctx' hscheme hmembers
    rw [Context.verifyCertificate_congr hscheme hmembers]
    have hmem := (MessageLog.mem_forView.1 (best_mem hbest)).1
    exact iff_of_true (h.justify_verified best hmem hlater) (.inl hlater)
  · have hnot : ¬ 0 < best.justify.view := hzero ▸ UInt64.lt_irrefl 0
    refine ⟨gained, hbest, hsubject, hgains.votes_eq, fun hlater => absurd hlater hnot,
      isValidVote_of_gains hseated hsound hown hsubject hgains, hgains.nodup_iff, ?_⟩
    intro τ ctx' hscheme hmembers
    rw [Context.verifyCertificate_congr hscheme hmembers, or_iff_right hnot]
    exact verify_of_gains hseated hsound hown hsubject hgains

section Samples

open Legible

def five : Group 5 Unit := group 5 (by decide) (by decide)

/-- A run of five loyal members up to view 1. Members 3 and 4 hold the certificate of view 0. The
leader of view 1 has the NewViews of member 0, who does not hold it, and of member 3. -/
def dividedRun : World 5 .basic Unit :=
  (Cast.play five .basic () [.begin 0, .begin 1, .begin 2, .begin 3, .begin 4, .deliver 0 1 0,
    .deliver 2 1 0, .deliver 3 1 0, .deliver 1 2 0, .deliver 1 3 0, .deliver 1 4 0, .deliver 2 1 0,
    .deliver 3 1 0, .deliver 4 1 0, .deliver 1 3 0, .deliver 1 4 0, .timeout 0, .timeout 2,
    .timeout 3, .timeout 4, .deliver 0 2 0, .deliver 3 2 0]).world

def thirdReport : SignedBody := ((dividedRun 4).letters.getLastD default).signed

def poisedLeader : Life (Memory .basic) Unit :=
  (dividedRun 2).reading (five.context 2) thirdReport

def chosenReport : SignedBody := (best? (five.context 2) poisedLeader.state).getD default

def takenSigners : Option (List PublicKey) :=
  match (exec (takeHighCertificate (five.context 2)) poisedLeader.turn).1 with
  | .ok (some (qc, _)) => some (qc.votes.map Vote.signer)
  | _ => none

theorem poisedLeader_spec :
    (five.context 2).Genuine ⟨.newView, thirdReport⟩ ∧
    thirdReport.justify.votes.map Vote.signer = [key 2, key 3, key 4, key 1] ∧
    best? (five.context 2) poisedLeader.state = some chosenReport ∧
    chosenReport.justify = Certificate.genesis ∧
    (backers (five.context 2) poisedLeader.state chosenReport).card = 2 ∧
    takenSigners = some [key 0, key 2] := by
  decide +kernel

/-- A leader of five members that knows two certificates of view 0 takes the starting one, and it
does not verify. -/
theorem refused_of_poisedLeader : ∃ qc leaf,
    (exec (takeHighCertificate (five.context 2)) poisedLeader.turn).1 = .ok (some (qc, leaf)) ∧
    qc.votes.map Vote.signer = [key 0, key 2] ∧
    ∀ i, ¬ (five.context i).verifyCertificate qc := by
  obtain ⟨hgenuine, -, hchosen, hgenesis, hcard, hsigners⟩ := poisedLeader_spec
  have hlived : Lived (five.context 2) (dividedRun 2) := (Cast.reachable_play ..).lived 2
  have hpassed : poisedLeader.Passed (five.context 2) := hlived.passed.reading hgenuine
  unfold takenSigners at hsigners
  split at hsigners
  · next qc leaf htaken =>
    have hvotes : qc.votes.map Vote.signer = [key 0, key 2] := Option.some.inj hsigners
    refine ⟨qc, leaf, htaken, hvotes, fun i hverify => ?_⟩
    obtain ⟨best, -, hbest, -, -, -, -, -, hiff⟩ :=
      taken_good_iff hpassed (five.seated_context 2) (sound_signer 2) htaken
    have hsame : best = chosenReport := Option.some.inj (hbest.symm.trans hchosen)
    have hgood := (hiff (five.context i) rfl rfl).1 hverify
    rw [hsame, hgenesis, hcard] at hgood
    have hlength : qc.votes.length = 2 := by
      rw [← List.length_map Vote.signer, hvotes]
      rfl
    rcases hgood with hlater | ⟨-, -, hsingle | hmany⟩
    · exact absurd hlater (by decide)
    · omega
    · exact absurd hmany (by decide)
  · cases hsigners

end Samples

end Core

end Concord
