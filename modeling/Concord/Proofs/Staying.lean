import Concord.Proofs.Outcomes

/-!
Handlers that keep the view, the lock or a certificate. A certificate that is held is replaced only
by one of the same or a later view.
-/

namespace Concord.Core

/-- A certificate that is held is only replaced by one of the same or a later view. -/
def Keeps (held held' : Option Certificate) : Prop :=
  ∀ qc, held = some qc → ∃ qc', held' = some qc' ∧ qc.view ≤ qc'.view

theorem Keeps.refl (held : Option Certificate) : Keeps held held := by
  intro qc hqc
  exact ⟨qc, hqc, UInt64.le_refl _⟩

theorem Keeps.of_eq {held held' : Option Certificate} (h : held' = held) : Keeps held held' :=
  h ▸ .refl held

theorem Keeps.trans {held held' held'' : Option Certificate} (h : Keeps held held')
    (h' : Keeps held' held'') : Keeps held held'' := by
  intro qc hqc
  obtain ⟨qc', hqc', hle⟩ := h qc hqc
  obtain ⟨qc'', hqc'', hle'⟩ := h' qc' hqc'
  exact ⟨qc'', hqc'', UInt64.le_trans hle hle'⟩

theorem Keeps.replace {held held' : Option Certificate} {qc' : Certificate}
    (h : ∀ qc, held = some qc → qc.view ≤ qc'.view) (hnew : held' = some qc') :
    Keeps held held' := by
  intro qc hqc
  exact ⟨qc', hnew, h qc hqc⟩

theorem State.keeps_lock (s : State) (qc : Certificate) : Keeps s.locked (s.lock qc).locked := by
  unfold lock
  by_cases hcan : s.canLock qc
  · rw [if_pos hcan]
    refine .replace (fun held hheld => ?_) rfl
    simpa [canLock, hheld] using hcan
  · rw [if_neg hcan]
    exact .refl _

namespace Handler

variable {γ σ α : Type}

abbrev Stays (h : Handler γ σ α) : Prop := Leaves (fun t => t.state.view) h

theorem view_advanceTo {openRound : Handler γ σ Unit} (h : Stays openRound) (view : View)
    (t : Turn γ σ) : (exec (advanceTo openRound view) t).2.state.view = view := by
  rw [exec_advanceTo]
  exact h _

end Handler

end Concord.Core
