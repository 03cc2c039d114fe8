import Concord.Proofs.Basic.Order
import Concord.Proofs.Certificates
import Concord.Proofs.Chained.History
import Concord.Proofs.Retention
import Mathlib.Algebra.Group.Action.Defs
import Mathlib.Algebra.Order.BigOperators.Group.Finset

/-!
The NewViews that a leader gathers before it proposes. The log distinguishes messages by signer,
view and phase, and the leader counts messages. Hence a member whose NewViews have several phases is
counted several times.
-/

namespace Concord.Core

open Handler

namespace Basic

variable {σ : Type} {ctx : Context σ} {l l' : Life Unit σ}

theorem Move.newViews (h : Move ctx l l') {m : SignedBody} (hm : m ∈ l'.state.newViews.entries) :
    m ∈ l.state.newViews.entries ∨ (0 < m.justify.view → ctx.verifyCertificate m.justify) := by
  cases h with
  | keep _ _ _ hjustify =>
    rcases MessageLog.mem_insert hm with hm | rfl
    · exact .inl hm
    · exact .inr hjustify
  | begin | enter => exact .inl (MessageLog.mem_retainFrom hm)
  | squander | propose => exact .inl (MessageLog.mem_removeView hm)
  | accept =>
    unfold State.jump at hm
    split at hm
    · exact .inl (MessageLog.mem_retainFrom hm)
    · exact .inl hm
  | followCommit | certifyPreCommit => exact .inl (by simpa using hm)
  | _ => exact .inl hm

end Basic

namespace Chained

variable {σ : Type} {ctx : Context σ} {l l' : Life Chain σ} {known : State × Chain → Prop}

theorem Step.newViews (h : Step ctx known l l') {m : SignedBody}
    (hm : m ∈ l'.state.newViews.entries) :
    m ∈ l.state.newViews.entries ∨ (0 < m.justify.view → ctx.verifyCertificate m.justify) := by
  cases h with
  | accept =>
    unfold State.jump at hm
    split at hm
    · exact .inl (MessageLog.mem_retainFrom hm)
    · exact .inl hm
  | announce _ _ _ _ _ _ hmid => exact .inl (by simpa [hmid] using hm)
  | adopt _ _ _ hadopted => exact .inl (hadopted.steady.newViews ▸ hm)
  | move hmove => exact (hmove.newViews hm).imp_right And.right

theorem Reached.genuine (h : Reached ctx known l) : ∀ x ∈ l.heard, ctx.Genuine x := by
  induction h with
  | born app => exact fun x hx => absurd hx List.not_mem_nil
  | @step l l' _ hstep ih =>
    cases hstep with
    | accept => exact ih
    | announce _ _ _ _ _ _ hmid => exact hmid ▸ ih
    | adopt _ _ _ hadopted => exact hadopted.heard ▸ ih
    | move hmove =>
      cases hmove with
      | hear hgenuine => exact List.forall_mem_append.2 ⟨ih, List.forall_mem_singleton.2 hgenuine⟩
      | gather hgather => cases hgather; exact ih
      | certify hcertify => cases hcertify; exact ih
      | _ => exact ih

end Chained

section Passing

variable {v : Variant} {σ : Type} {ctx : Context σ} {l : Life (Memory v) σ}

/-- The core is reached at the end of a turn or within one. -/
def Life.Passed {v : Variant} {σ : Type} (ctx : Context σ) (l : Life (Memory v) σ) : Prop :=
  match v, l with
  | .basic, l => Basic.Reached ctx l
  | .chained, l => Chained.Reached ctx (fun _ => True) l

def Life.hearing (l : Life (Memory v) σ) (m : SignedBody) : Life (Memory v) σ :=
  { l with heard := l.heard ++ [⟨.newView, m⟩] }

def Life.reading (ctx : Context σ) (l : Life (Memory v) σ) (m : SignedBody) : Life (Memory v) σ :=
  (l.hearing m).after (exec (acceptNewView ctx m) (l.hearing m).turn).2

theorem Lived.passed (h : Lived ctx l) : l.Passed ctx := by
  cases v with
  | basic => exact (Basic.reached_of_lived h).2
  | chained => exact Chained.reached_anyhow h

namespace Life.Passed

theorem hearing (h : l.Passed ctx) {m : SignedBody} (hm : ctx.Genuine ⟨.newView, m⟩) :
    (l.hearing m).Passed ctx := by
  cases v with
  | basic => exact Basic.Reached.move h (.hear hm)
  | chained => exact Chained.Reached.step h (.move (.hear hm))

theorem reading (h : l.Passed ctx) {m : SignedBody} (hm : ctx.Genuine ⟨.newView, m⟩) :
    (l.reading ctx m).Passed ctx := by
  have hhearing := h.hearing hm
  have hmem : ⟨.newView, m⟩ ∈ (l.hearing m).heard :=
    List.mem_append_right _ (List.mem_singleton_self _)
  unfold Life.reading
  rcases exec_acceptNewView ctx m (l.hearing m).turn with hsame | ⟨hview, hwindow, hjustify, hkept⟩
  · rwa [hsame, Life.after_turn]
  · rw [hkept]
    cases v with
    | basic => exact Basic.Reached.move hhearing (.keep hmem hview hwindow hjustify)
    | chained => exact Chained.Reached.step hhearing (.move (.keep hmem hview hwindow hjustify))

theorem newViews (h : l.Passed ctx) : l.state.newViews.Holds .newView l.heard := by
  cases v with
  | basic => exact (Basic.Reached.logged h).newViews
  | chained => exact (Chained.Reached.logged h).newViews

theorem genuine (h : l.Passed ctx) : ∀ x ∈ l.heard, ctx.Genuine x := by
  cases v with
  | basic => exact Basic.Reached.genuine h
  | chained => exact Chained.Reached.genuine h

theorem justify_verified (h : l.Passed ctx) : ∀ m ∈ l.state.newViews.entries,
    0 < m.justify.view → ctx.verifyCertificate m.justify := by
  cases v with
  | basic =>
    have hreached : Basic.Reached ctx l := h
    induction hreached with
    | born app => exact fun m hm => absurd hm List.not_mem_nil
    | move hreached hmove ih => exact fun m hm => (hmove.newViews hm).elim (ih hreached m) id
  | chained =>
    have hreached : Chained.Reached ctx (fun _ => True) l := h
    induction hreached with
    | born app => exact fun m hm => absurd hm List.not_mem_nil
    | step hreached hstep ih => exact fun m hm => (hstep.newViews hm).elim (ih hreached m) id

end Life.Passed

end Passing

section Counting

variable (s : State)

/-- The signers of the NewViews that are logged for the current view. -/
def reporters : Finset PublicKey :=
  ((s.newViews.forView s.view).map SignedBody.signer).toFinset

/-- The phases of the NewViews that `key` signed for the current view. -/
def phasesOf (key : PublicKey) : Finset Phase :=
  (((s.newViews.forView s.view).filter fun m => m.signer = key).map SignedBody.phase).toFinset

variable {s}

theorem mem_phasesOf {key : PublicKey} {phase : Phase} : phase ∈ phasesOf s key ↔
    ∃ m ∈ s.newViews.forView s.view, m.signer = key ∧ m.phase = phase := by
  simp [phasesOf, and_assoc]

theorem mem_reporters {key : PublicKey} :
    key ∈ reporters s ↔ ∃ m ∈ s.newViews.forView s.view, m.signer = key := by
  simp [reporters]

theorem card_phasesOf_le (key : PublicKey) : (phasesOf s key).card ≤ Phase.all.length := by
  refine (Finset.card_le_card fun phase _ => ?_).trans Phase.all.toFinset_card_le
  exact List.mem_toFinset.2 (Phase.mem_all phase)

theorem length_forView (hlog : s.newViews.Indexed) :
    (s.newViews.forView s.view).length = ∑ key ∈ reporters s, (phasesOf s key).card := by
  let place (m : SignedBody) : Σ _ : PublicKey, Phase := ⟨m.signer, m.phase⟩
  have hkeys : ((s.newViews.forView s.view).map LogKey.of).Nodup :=
    hlog.nodup.sublist (List.filter_sublist.map _)
  -- In one view, sender and phase are the key of a NewView.
  have hplaces : ((s.newViews.forView s.view).map place).Nodup := by
    refine List.Nodup.of_map (fun p => (⟨p.1, s.view, p.2⟩ : LogKey)) ?_
    rw [List.map_map]
    refine (List.map_congr_left fun m hm => ?_) ▸ hkeys
    rw [LogKey.of, (MessageLog.mem_forView.1 hm).2]
    rfl
  have hsigma : ((s.newViews.forView s.view).map place).toFinset =
      (reporters s).sigma (phasesOf s) := by
    ext ⟨key, phase⟩
    rw [List.mem_toFinset, List.mem_map, Finset.mem_sigma, mem_reporters, mem_phasesOf]
    constructor
    · rintro ⟨m, hm, hplace⟩
      cases hplace
      exact ⟨⟨m, hm, rfl⟩, m, hm, rfl, rfl⟩
    · rintro ⟨-, m, hm, rfl, rfl⟩
      exact ⟨m, hm, rfl⟩
  rw [← List.length_map place, ← List.toFinset_card_of_nodup hplaces, hsigma, Finset.card_sigma]

end Counting

section Taking

variable {v : Variant} {σ : Type} {ctx : Context σ}

theorem best?_eq_none_iff (hseated : ctx.Seated) {s : State} :
    best? ctx s = none ↔
      (s.newViews.forView s.view).length < quorumThreshold ctx.committee.size := by
  have htwo : 2 ≤ quorumThreshold ctx.committee.size :=
    Committee.two_le_of_isQuorum hseated.four_le (decide_eq_true (Nat.le_refl _))
  unfold best?
  split
  · next hnone =>
    rw [hnone]
    exact iff_of_true rfl (Nat.lt_of_lt_of_le Nat.two_pos htwo)
  · next hsome =>
    rw [hsome]
    split
    · next hquorum =>
      exact iff_of_false nofun (Nat.not_lt.2 (of_decide_eq_true hquorum))
    · next hquorum =>
      exact iff_of_true rfl (Nat.not_le.1 fun hle => hquorum (decide_eq_true hle))

theorem exec_takeHighCertificate_eq_none_iff {t : Turn (Memory v) σ} :
    (exec (takeHighCertificate ctx) t).1 = .ok none ↔ best? ctx t.state = none := by
  rw [exec_takeHighCertificate]
  cases hbest : best? ctx t.state with
  | none => exact iff_of_true rfl rfl
  | some best =>
    dsimp only
    cases taken ctx t.state best <;> exact iff_of_false nofun nofun

/-- A leader takes no certificate if and only if the phases of the NewViews for its view, summed
over their signers, are fewer than a quorum. If it takes one, the signers are a quorum, provided
that none sent NewViews of two phases, and else at least a sixth of a quorum. -/
theorem taken_iff_phases {l : Life (Memory v) σ} (h : l.Passed ctx) (hseated : ctx.Seated) :
    ((exec (takeHighCertificate ctx) l.turn).1 = .ok none ↔
      ∑ key ∈ reporters l.state, (phasesOf l.state key).card <
        quorumThreshold ctx.committee.size) ∧
    (∀ key ∈ reporters l.state, ctx.committee.contains key ∧ ∀ phase, phase ∈ phasesOf l.state key ↔
      ∃ m ∈ l.state.newViews.entries, ⟨.newView, m⟩ ∈ l.heard ∧ m.signer = key ∧
        m.view = l.state.view ∧ m.phase = phase) ∧
    ((exec (takeHighCertificate ctx) l.turn).1 ≠ .ok none →
      quorumThreshold ctx.committee.size ≤ Phase.all.length * (reporters l.state).card ∧
      ((∀ key ∈ reporters l.state, (phasesOf l.state key).card = 1) →
        quorumThreshold ctx.committee.size ≤ (reporters l.state).card)) := by
  have hnone : (exec (takeHighCertificate ctx) l.turn).1 = .ok none ↔
      ∑ key ∈ reporters l.state, (phasesOf l.state key).card <
        quorumThreshold ctx.committee.size := by
    rw [exec_takeHighCertificate_eq_none_iff, ← length_forView h.newViews.indexed]
    exact best?_eq_none_iff hseated
  have hmany (htaken : (exec (takeHighCertificate ctx) l.turn).1 ≠ .ok none) :
      quorumThreshold ctx.committee.size ≤
        ∑ key ∈ reporters l.state, (phasesOf l.state key).card :=
    Nat.not_lt.1 fun hfew => htaken (hnone.2 hfew)
  refine ⟨hnone, fun key hkey => ⟨?_, fun phase => ?_⟩, fun htaken => ⟨?_, fun hsingle => ?_⟩⟩
  · obtain ⟨m, hm, rfl⟩ := mem_reporters.1 hkey
    exact (h.genuine _ (h.newViews.heard m (MessageLog.mem_forView.1 hm).1)).member
  · rw [mem_phasesOf]
    constructor
    · rintro ⟨m, hm, hsigner, hphase⟩
      obtain ⟨hmem, hview⟩ := MessageLog.mem_forView.1 hm
      exact ⟨m, hmem, h.newViews.heard m hmem, hsigner, hview, hphase⟩
    · rintro ⟨m, hmem, -, hsigner, hview, hphase⟩
      exact ⟨m, MessageLog.mem_forView.2 ⟨hmem, hview⟩, hsigner, hphase⟩
  -- A sender is counted at most once for each phase.
  · calc quorumThreshold ctx.committee.size
        ≤ ∑ key ∈ reporters l.state, (phasesOf l.state key).card := hmany htaken
      _ ≤ (reporters l.state).card • Phase.all.length :=
          Finset.sum_le_card_nsmul _ _ _ fun key _ => card_phasesOf_le key
      _ = Phase.all.length * (reporters l.state).card := by
          rw [smul_eq_mul, Nat.mul_comm]
  · calc quorumThreshold ctx.committee.size
        ≤ ∑ key ∈ reporters l.state, (phasesOf l.state key).card := hmany htaken
      _ = (reporters l.state).card := by
          rw [Finset.sum_congr rfl hsingle, ← Finset.card_eq_sum_ones]

section Samples

open Legible Cast

/-- The leader of view 0 with the NewView of member 0. -/
def waitingLeader : Life (Memory .basic) Unit :=
  (play four .basic () [.begin 0, .begin 1, .deliver 0 1 0]).world 1

/-- A second NewView that member 0 signs, of another phase. -/
def secondReport : SignedBody :=
  (((four.context 0).signed .newView (Body.plain 0 .prepare Payload.genesis
    Certificate.genesis)).headD default).signed

def pressedLeader : Life (Memory .basic) Unit :=
  waitingLeader.reading opener secondReport

instance (x : Letter) {σ : Type} (ctx : Context σ) : Decidable (ctx.Genuine x) :=
  decidable_of_iff _ ⟨fun ⟨hsuits, hmember, hsigned⟩ => ⟨hsuits, hmember, hsigned⟩,
    fun h => And.intro h.suits (And.intro h.member h.signed)⟩

theorem pressedLeader_spec :
    opener.Genuine ⟨.newView, secondReport⟩ ∧
    reporters pressedLeader.state = {key 0} ∧
    phasesOf pressedLeader.state (key 0) = {.newView, .prepare} := by
  decide +kernel

/-- The leader of four members takes a certificate from two NewViews of a single member. -/
theorem taken_of_pressedLeader : reporters pressedLeader.state = {key 0} ∧
    quorumThreshold four.committee.size = 2 ∧
    (exec (takeHighCertificate opener) pressedLeader.turn).1 ≠ .ok none := by
  obtain ⟨hgenuine, hreporters, hphases⟩ := pressedLeader_spec
  have hlived : Lived opener waitingLeader := (Cast.reachable_play ..).lived 1
  have hpassed : pressedLeader.Passed opener := hlived.passed.reading hgenuine
  refine ⟨hreporters, rfl, fun hnone => ?_⟩
  have hfew := (taken_iff_phases hpassed (four.seated_context 1)).1.1 hnone
  rw [hreporters, Finset.sum_singleton, hphases] at hfew
  exact absurd hfew (by decide)

end Samples

end Taking

end Concord.Core
