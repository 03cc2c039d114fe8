import Concord.Proofs.Basic.Locks
import Concord.Proofs.Staying

/-!
Monotonicity of a core of the five-phase protocol: its place, its lock and its prepared certificate
do not go back.
-/

namespace Concord.Core.Basic

open Handler Relation

variable {σ : Type} {ctx : Context σ} {l l' : Life Unit σ}

theorem le_of_place_le {v w : View} {phase phase' : Phase} (h : place v phase ≤ place w phase') :
    v < w ∨ v = w ∧ rank phase ≤ rank phase' := by
  have hrank := rank_le phase
  have hrank' := rank_le phase'
  unfold place at h
  rcases Nat.lt_trichotomy v.toNat w.toNat with hlt | heq | hgt
  · exact .inl (UInt64.lt_iff_toNat_lt.2 hlt)
  · exact .inr ⟨UInt64.toNat_inj.1 heq, by omega⟩
  · omega

theorem Reached.prepared_le (h : Reached ctx l) :
    ∀ qc, l.state.prepared = some qc → qc.view ≤ l.state.view := by
  induction h with
  | born app => nofun
  | @move l l' _ hmove ih =>
    intro qc hqc
    rcases hmove.prepared_cases with hsame | ⟨qc', hnew, hopens⟩
    · exact UInt64.le_trans (ih qc (hsame ▸ hqc)) hmove.le_view
    · obtain rfl := Option.some.inj (hnew.symm.trans hqc)
      exact hopens.gains.view ▸ hmove.le_view

theorem Move.keeps_locked (h : Move ctx l l') : Keeps l.state.locked l'.state.locked := by
  cases h with
  | @followCommit m => exact l.state.keeps_lock m.justify
  | @certifyPreCommit _ qc =>
    exact State.keeps_lock { l.state with votes := l.state.votes.removeView l.state.view } qc
  | begin | enter => exact .refl _
  | _ => exact .of_eq (by simp)

/-- The place does not decrease, and the lock and the prepared certificate are only replaced by
certificates of the same or a later view. -/
structure Onward (l l' : Life Unit σ) : Prop where
  here_le : here l ≤ here l'
  locked : Keeps l.state.locked l'.state.locked
  prepared : Keeps l.state.prepared l'.state.prepared

theorem Onward.refl (l : Life Unit σ) : Onward l l := ⟨Nat.le_refl _, .refl _, .refl _⟩

theorem Onward.trans {l'' : Life Unit σ} (h : Onward l l') (h' : Onward l' l'') : Onward l l'' :=
  ⟨Nat.le_trans h.here_le h'.here_le, h.locked.trans h'.locked, h.prepared.trans h'.prepared⟩

theorem Reached.onward_move (h : Reached ctx l) (hmove : Move ctx l l') : Onward l l' := by
  refine ⟨hmove.here_le h.genuine, hmove.keeps_locked, ?_⟩
  rcases hmove.prepared_cases with hsame | ⟨qc', hnew, hopens⟩
  · exact .of_eq hsame
  · exact .replace (fun qc hqc => hopens.gains.view ▸ h.prepared_le qc hqc) hnew

theorem Reached.onward (h : Reached ctx l) (hmoves : Moves ctx l l') : Onward l l' := by
  induction hmoves with
  | refl => exact .refl l
  | tail hfirst hmove ih => exact ih.trans ((h.moves hfirst).onward_move hmove)

section Rounds

variable {τ : Type} {part : Turn Unit σ → τ}

theorem leaves_tryLead (h : ∀ t t', t'.state.view = t.state.view →
      t'.state.prepared = t.state.prepared → part t' = part t) : Leaves part (tryLead ctx) := by
  refine leaves_state.bind fun s => ?_
  split
  · exact leaves_pure _
  · refine (leaves_takeHighCertificate fun _ _ => h _ _ rfl rfl).bind fun taken => ?_
    split
    · exact leaves_pure _
    · exact (leaves_produce fun _ _ => h _ _ rfl rfl).bind fun _ =>
        (leaves_write fun _ _ => h _ _ rfl rfl).bind fun _ =>
        .bind (leaves_update fun _ => h _ _ rfl rfl) fun _ =>
        .bind (leaves_ask fun _ => h _ _ rfl rfl) fun _ => leaves_ask fun _ => h _ _ rfl rfl

theorem leaves_openRound (h : ∀ t t', t'.state.view = t.state.view →
      t'.state.prepared = t.state.prepared → part t' = part t) : Leaves part (openRound ctx) := by
  refine leaves_state.bind fun s => ?_
  split
  · exact leaves_tryLead h
  · exact (leaves_write fun _ _ => h _ _ rfl rfl).bind fun _ =>
      leaves_send (fun _ _ => h _ _ rfl rfl) _ _

theorem stays_openRound : Stays (openRound ctx) := leaves_openRound fun _ _ hview _ => hview

end Rounds

end Concord.Core.Basic
