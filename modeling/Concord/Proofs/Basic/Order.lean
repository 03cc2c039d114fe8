import Concord.Proofs.Basic.Moves

/-!
The order in which a core of the five-phase protocol signs and delivers. The place of a core is
given by its view and phase and does not decrease. Messages are signed when a core reaches their
place, except for NewViews, which are signed in a view in which nothing was signed before.
-/

namespace Concord.Core.Basic

open Handler Relation

variable {σ : Type} {ctx : Context σ} {l l' : Life Unit σ}

/-- The position of a phase of a view in the order of all views and phases. -/
def place (view : View) (phase : Phase) : Nat := 5 * view.toNat + rank phase

def here (l : Life Unit σ) : Nat := place l.state.view l.state.phase

theorem rank_le (phase : Phase) : rank phase ≤ 4 := by
  cases phase <;> decide

theorem place_lt_of_view {v w : View} (h : v < w) (phase phase' : Phase) :
    place v phase < place w phase' := by
  have hlt := UInt64.lt_iff_toNat_lt.1 h
  have hrank := rank_le phase
  unfold place
  omega

theorem lt_of_place_lt {v w : View} {phase : Phase} (h : place v phase < place w phase) : v < w := by
  rw [UInt64.lt_iff_toNat_lt]
  unfold place at h
  omega

theorem place_lt_of_rank {v w : View} {phase phase' : Phase} (h : v = w)
    (hrank : rank phase < rank phase') : place v phase < place w phase' := by
  rw [h]
  exact Nat.add_lt_add_left hrank _

theorem Reached.genuine (h : Reached ctx l) : ∀ x ∈ l.heard, ctx.Genuine x := by
  induction h with
  | born app => simp [Life.initial]
  | move _ hmove ih =>
    cases hmove with
    | hear hgenuine =>
      exact List.forall_mem_append.2 ⟨ih, List.forall_mem_singleton.2 hgenuine⟩
    | _ => exact ih

theorem phase_of_genuine {kind : MessageKind} {m : SignedBody} {phase : Phase}
    (h : ctx.Genuine ⟨kind, m⟩) (hkind : kind.isProposal) (hphase : ownPhase? kind = some phase) :
    m.phase = phase := by
  have hown := ownPhase?_of_kind? (h.suits hkind)
  exact Option.some.inj (hown.symm.trans hphase)

/-- A move increases the place, or it signs nothing, or it is the first in its view to sign. -/
theorem Move.climbs (h : Move ctx l l') (hgenuine : ∀ x ∈ l.heard, ctx.Genuine x) :
    here l < here l' ∨ here l = here l' ∧ (l'.written = l.written ∨ l.Blank) := by
  cases h with
  | hear | note | retouch | stop => exact .inr ⟨rfl, .inl rfl⟩
  | begin | keep | squander | log | certifyIdle =>
    exact .inr ⟨rfl, .inl (by simp [List.filterMap_cons])⟩
  | report _ _ hblank => exact .inr ⟨rfl, .inr hblank⟩
  | enter hnext => exact .inl (place_lt_of_view (View.lt_next hnext) _ _)
  | propose _ hphase => exact .inl (place_lt_of_rank rfl (by simp [hphase, rank]))
  | accept hm hview hphase =>
    refine .inl ?_
    unfold here
    rw [Life.after_state, State.jump_view hview]
    -- Either the view is a later one, or the phase is past the first.
    rcases UInt64.lt_or_eq_of_le hview with hlt | heq
    · exact place_lt_of_view hlt _ _
    · exact place_lt_of_rank heq (by simp [hphase heq.symm, rank])
  | followPreCommit hm _ hrank =>
    rw [phase_of_genuine (hgenuine _ hm) rfl rfl] at hrank
    exact .inl (place_lt_of_rank rfl hrank)
  | followCommit hm _ hrank =>
    rw [phase_of_genuine (hgenuine _ hm) rfl rfl] at hrank
    exact .inl (place_lt_of_rank (by simp) hrank)
  | followDecide hm _ hrank =>
    rw [phase_of_genuine (hgenuine _ hm) rfl rfl] at hrank
    exact .inl (place_lt_of_rank rfl hrank)
  | certifyPrepare _ _ _ hphase => exact .inl (place_lt_of_rank rfl (by simp [hphase, rank]))
  | certifyPreCommit _ _ _ hphase =>
    exact .inl (place_lt_of_rank (by simp) (by simp [hphase, rank]))
  | certifyCommit _ _ _ hphase | certifyUnsigned _ _ _ hphase =>
    exact .inl (place_lt_of_rank rfl (by simp [hphase, rank]))

theorem Move.here_le (h : Move ctx l l') (hgenuine : ∀ x ∈ l.heard, ctx.Genuine x) :
    here l ≤ here l' :=
  (h.climbs hgenuine).elim Nat.le_of_lt fun h => Nat.le_of_eq h.1

theorem Move.decisions (h : Move ctx l l') :
    l'.decisions = l.decisions ∧ l'.state.decided = l.state.decided ∨
      l'.decisions = l.decisions ++ [l'.state.view] ∧ l'.state.decided = l.state.decided + 1 ∧
        l'.state.phase = .decide ∧ here l < here l' := by
  cases h with
  | hear | note | retouch | stop => exact .inl ⟨rfl, rfl⟩
  | followDecide _ _ hrank =>
    refine .inr ⟨by simp [List.filterMap_cons], rfl, rfl, place_lt_of_rank rfl ?_⟩
    exact Nat.lt_of_lt_of_le hrank (rank_le _)
  | certifyCommit _ _ _ hphase =>
    refine .inr ⟨by simp [List.filterMap_cons], rfl, rfl, place_lt_of_rank rfl ?_⟩
    simp [hphase, rank]
  | begin | enter | keep | squander | log | propose | certifyUnsigned | certifyIdle =>
    exact .inl ⟨by simp [List.filterMap_cons], rfl⟩
  | report => exact .inl ⟨by simp [decisions_posted], rfl⟩
  | accept | followPreCommit | followCommit =>
    exact .inl ⟨by simp [List.filterMap_cons, ballot, decisions_posted], by simp⟩
  | certifyPrepare | certifyPreCommit =>
    exact .inl ⟨by simp [List.filterMap_cons, decisions_announced], by simp⟩

/-- The places of the signed letters strictly increase, and each letter has the phase of its
kind. -/
structure Written (l : Life Unit σ) : Prop where
  rising : Rising (fun x => place x.body.view x.body.phase) (here l) l.written
  suits : ∀ x ∈ l.written, ∀ phase, ownPhase? x.kind = some phase → x.body.phase = phase

theorem Written.same (h : Written l) (hsame : l'.written = l.written) (hle : here l ≤ here l') :
    Written l' :=
  ⟨hsame ▸ h.rising.mono hle, hsame ▸ h.suits⟩

theorem Written.sign {kind : MessageKind} {body : Body} (h : Written l)
    (hsigns : Signs ctx l l' kind body)
    (hearlier : ∀ x ∈ l.written, place x.body.view x.body.phase < here l')
    (hle : here l ≤ here l') : Written l' := by
  have hplace : ∀ x ∈ ctx.signed kind body, place x.body.view x.body.phase = here l' := by
    intro x hx
    rw [(Context.mem_signed.1 hx).body_eq, hsigns.view, hsigns.phase, here]
  refine ⟨?_, fun x hx phase hphase => ?_⟩
  · rw [hsigns.written]
    refine h.rising.append (Context.pairwise_signed _ _) (fun x hx y hy => ?_) (fun y hy => ?_) hle
    · exact (hplace y hy).symm ▸ hearlier x hx
    · exact Nat.le_of_eq (hplace y hy)
  · rw [hsigns.written, List.mem_append] at hx
    rcases hx with hx | hx
    · exact h.suits x hx phase hphase
    · have hwrote := Context.mem_signed.1 hx
      rw [hwrote.body_eq]
      exact hsigns.suits phase (hwrote.kind_eq ▸ hphase)

theorem Reached.written (h : Reached ctx l) : Written l := by
  induction h with
  | born app =>
    exact ⟨.nil, by simp [Life.initial, Life.written]⟩
  | @move l l' hreached hmove ih =>
    rcases hmove.written with hsame | ⟨kind, body, hsigns⟩
    · exact ih.same hsame (hmove.here_le hreached.genuine)
    -- What is signed is later than all before: the place is a new one, or the view was blank.
    · rcases hmove.climbs hreached.genuine with hlt | ⟨heq, hsame | hblank⟩
      · exact ih.sign hsigns (fun x hx => Nat.lt_of_le_of_lt (ih.rising.le_here x hx) hlt)
          (Nat.le_of_lt hlt)
      · exact ih.same hsame (Nat.le_of_eq heq)
      · exact ih.sign hsigns (fun x hx => heq ▸ place_lt_of_view (hblank x hx) _ _)
          (Nat.le_of_eq heq)

/-- The views of the deliveries strictly increase, and the counter is their number. -/
structure InOrder (l : Life Unit σ) : Prop where
  rising : Rising (fun view => place view .decide) (here l) l.decisions
  decided : l.state.decided = l.decisions.length

theorem Reached.inOrder (h : Reached ctx l) : InOrder l := by
  induction h with
  | born app => exact ⟨.nil, rfl⟩
  | @move l l' hreached hmove ih =>
    have hle := hmove.here_le hreached.genuine
    rcases hmove.decisions with ⟨hsame, hcount⟩ | ⟨hmore, hcount, hphase, hlt⟩
    · exact ⟨hsame ▸ ih.rising.mono hle, by rw [hsame, hcount, ih.decided]⟩
    · have hhere : place l'.state.view .decide = here l' := by rw [here, hphase]
      refine ⟨?_, by rw [hmore, hcount, ih.decided, List.length_append, List.length_singleton]⟩
      rw [hmore]
      refine ih.rising.append_later (List.pairwise_singleton _ _) ?_ ?_ hle
      · simpa [hhere] using hlt
      · simp [hhere]

end Concord.Core.Basic
