import Concord.Proofs.Chained.Moves
import Concord.Proofs.Staying

/-!
Monotonicity of a core of the chained protocol: its view, its lock and its high certificate do not
go back.
-/

namespace Concord.Core.Chained

open Handler Relation

variable {σ : Type} {ctx : Context σ} {l l' l'' : Life Chain σ} {node : Body}

/-- The view and the view of the high certificate do not decrease, and the lock is only replaced by
one of the same or a later view. -/
structure Onward (l l' : Life Chain σ) : Prop where
  view_le : l.state.view ≤ l'.state.view
  locked : Keeps l.state.locked l'.state.locked
  high_le : l.memory.high.view ≤ l'.memory.high.view

theorem Onward.refl (l : Life Chain σ) : Onward l l :=
  ⟨UInt64.le_refl _, .refl _, UInt64.le_refl _⟩

theorem Onward.trans (h : Onward l l') (h' : Onward l' l'') : Onward l l'' :=
  ⟨UInt64.le_trans h.view_le h'.view_le, h.locked.trans h'.locked,
    UInt64.le_trans h.high_le h'.high_le⟩

theorem Onward.of_view_le (hview : l.state.view ≤ l'.state.view)
    (hlocked : l'.state.locked = l.state.locked) (hhigh : l'.memory.high = l.memory.high) :
    Onward l l' :=
  ⟨hview, .of_eq hlocked, hhigh ▸ UInt64.le_refl _⟩

theorem Move.onward (h : Move ctx l l') : Onward l l' := by
  have hview := h.le_view
  cases h with
  | gather hgather =>
    cases hgather with
    | mk _ _ _ _ hhigh => exact ⟨hview, .refl _, hhigh ▸ held_le_raise _ _⟩
  | certify hcertify =>
    cases hcertify with
    | mk _ _ _ _ _ _ _ hhigh => exact ⟨hview, .refl _, hhigh ▸ held_le_raise _ _⟩
  | begin | enter => exact .of_view_le hview rfl rfl
  | _ => exact .of_view_le hview (by simp [Life.noted]) rfl

theorem onward_raisedBy (node : Body) (l : Life Chain σ) : Onward l (raisedBy node l) := by
  unfold raisedBy
  split
  · next hraise => exact ⟨UInt64.le_refl _, .refl _, view_le_of_supersedes hraise⟩
  · exact .refl l

theorem onward_lockedBy (node : Body) (l : Life Chain σ) : Onward l (lockedBy node l) := by
  refine ⟨?_, l.state.keeps_lock node.justify, UInt64.le_refl _⟩
  simp [lockedBy]

theorem onward_settled (node : Body) (l : Life Chain σ) : Onward l (settled ctx node l) :=
  .of_view_le (UInt64.le_refl _) rfl rfl

theorem Walk.onward (h : Walk ctx node l l') : Onward l l' := by
  cases h with
  | loose => exact .refl l
  | one => exact onward_raisedBy node l
  | two | stale => exact (onward_raisedBy node l).trans (onward_lockedBy _ _)
  | final =>
    exact (onward_raisedBy node l).trans ((onward_lockedBy _ _).trans (onward_settled _ _))

theorem Adopt.onward (h : Adopt ctx node l l') : Onward l l' := by
  have hstored : Onward l (stored node l) := .of_view_le (UInt64.le_refl _) rfl rfl
  cases h with
  | last | unsigned => exact hstored
  | leading _ _ hwalk => exact hstored.trans hwalk.onward
  | voting _ _ _ hwalk =>
    refine hstored.trans (.trans ?_ hwalk.onward)
    exact .of_view_le (UInt64.le_refl _) rfl rfl

theorem Accept.onward (h : Accept ctx l l') : Onward l l' := by
  cases h with
  | mk _ hview _ _ _ hadopt =>
    refine .trans ?_ hadopt.onward
    refine .of_view_le ?_ ?_ rfl
    · simpa [State.jump_view hview] using hview
    · simp

theorem Propose.onward (h : Propose ctx l l') : Onward l l' := by
  cases h with
  | mk _ _ _ _ _ _ hadopt =>
    refine .trans ?_ hadopt.onward
    exact .of_view_le (UInt64.le_refl _) rfl rfl

theorem Course.onward (h : Course ctx l l') : Onward l l' :=
  h.keeps (.refl l) (fun hmove hfirst => hfirst.trans hmove.onward)
    (fun haccept hfirst => hfirst.trans haccept.onward)
    (fun hpropose hfirst => hfirst.trans hpropose.onward)

section Rounds

theorem Gather.view_eq (h : Gather ctx l l') : l'.state.view = l.state.view := by
  cases h
  rfl

theorem Propose.view_eq (h : Propose ctx l l') : l'.state.view = l.state.view := by
  cases h with
  | mk _ _ _ _ _ _ hadopt => exact hadopt.steady.view

theorem stays_takeNewViews : Stays (takeNewViews ctx) := by
  intro t
  rcases exec_takeNewViews ctx (lifeOf t) t with ⟨hsame, -⟩ | ⟨-, hgather⟩
  · rw [hsame]
  · exact hgather.view_eq

theorem stays_propose : Stays (propose ctx) := by
  intro t
  rcases exec_propose ctx (lifeOf t) t with hsame | ⟨_, _, _, -, hexec⟩ | hpropose
  · rw [hsame]
  · rw [hexec]
  · exact hpropose.view_eq

theorem stays_openRound : Stays (openRound ctx) := by
  refine leaves_state.bind fun s => ?_
  split
  · refine stays_takeNewViews.bind fun taken => ?_
    split
    · exact stays_propose
    · exact leaves_pure _
  · exact leaves_memory.bind fun _ => (leaves_write fun _ _ => rfl).bind fun _ => leaves_send (fun _ _ => rfl) _ _

end Rounds

end Concord.Core.Chained
