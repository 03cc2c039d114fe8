import Concord.Proofs.Basic.Progress
import Concord.Proofs.Chained.Progress
import Concord.Proofs.Chained.Steps

/-!
Monotonicity of a single step, for both protocols: the view, the lock and the certificates do not go
back, and a timeout leads to the next view.
-/

namespace Concord.Core

variable {v : Variant} {σ : Type} {ctx : Context σ} {l : Life (Memory v) σ}

/-- In the five-phase protocol, the view and phase do not go back, and a prepared certificate is
only replaced by one of the same or a later view. In the chained protocol, the view of the high
certificate does not go back. -/
def Machine.Ascends : {v : Variant} → Machine v σ → Machine v σ → Prop
  | .basic, c, c' =>
    (c.state.view < c'.state.view ∨ c.state.view = c'.state.view ∧
      Basic.rank c.state.phase ≤ Basic.rank c'.state.phase) ∧
    Keeps c.state.prepared c'.state.prepared
  | .chained, c, c' => c.memory.high.view ≤ c'.memory.high.view

/-- The view does not go back, and the lock and the certificates of the protocol are only replaced
by certificates of the same or a later view. -/
structure Machine.Advances (c : Machine v σ) (input : Input) (outcome : Outcome v σ) : Prop where
  view_le : c.state.view ≤ outcome.machine.state.view
  locked : Keeps c.state.locked outcome.machine.state.locked
  ascends : c.Ascends outcome.machine
  /-- A timeout moves a running core to the next view, unless it is in the last one, and otherwise
  does nothing. -/
  timeout : input = .timeout →
    if c.state.status = .running ∧ c.state.view ≠ View.last then
      outcome.machine.state.view.toNat = c.state.view.toNat + 1
    else outcome = c.ignore

theorem stays_openRound : Handler.Stays (protocolOf ctx v).openRound := by
  cases v with
  | basic => exact Basic.stays_openRound
  | chained => exact Chained.stays_openRound

theorem Machine.step_timeout (c : Machine v σ) :
    if c.state.status = .running ∧ c.state.view ≠ View.last then
      (c.step ctx .timeout).machine.state.view.toNat = c.state.view.toNat + 1
    else c.step ctx .timeout = c.ignore := by
  by_cases hrunning : c.state.status = .running
  · simp only [step, hrunning, if_true, nextRound, true_and]
    cases hnext : c.state.view.next? with
    | none =>
      rw [if_neg (not_not_intro (View.eq_last hnext))]
    | some next =>
      have hlast : c.state.view ≠ View.last := by
        intro heq
        rw [heq] at hnext
        cases hnext
      rw [if_pos hlast, ← View.toNat_next hnext]
      exact congrArg UInt64.toNat (Handler.view_advanceTo stays_openRound next _)
  · simp [step, hrunning]

/-- No permitted input moves a core's view, phase, lock or certificates back. A timeout moves a
running core forward by exactly one view. -/
theorem step_advances (h : Lived ctx l) {input : Input} (hpermits : l.Permits input) :
    l.machine.Advances input (l.machine.step ctx input) := by
  cases v with
  | basic =>
    obtain ⟨hreached, hmoves⟩ := Basic.moves_of_lived h hpermits
    obtain ⟨hplace, hlocked, hprepared⟩ := hreached.onward hmoves
    have hlater := Basic.le_of_place_le hplace
    refine ⟨?_, hlocked, ⟨hlater, hprepared⟩, ?_⟩
    · rcases hlater with hlt | ⟨heq, -⟩
      · exact UInt64.le_of_lt hlt
      · exact UInt64.le_of_eq heq
    · rintro rfl
      exact l.machine.step_timeout
  | chained =>
    obtain ⟨hview, hlocked, hhigh⟩ := (Chained.course_of_lived h hpermits).onward
    refine ⟨hview, hlocked, hhigh, ?_⟩
    rintro rfl
    exact l.machine.step_timeout

open Legible in
/-- A core that is locked in its current view advances when its timer fires. -/
theorem locked_member_advances :
    (lockedRun 0).state.locked.map Certificate.view = some (lockedRun 0).state.view ∧
      (lockedRun 0).machine.Advances .timeout
        ((lockedRun 0).machine.step (housed.context 0) .timeout) :=
  ⟨lockedRun_spec, step_advances ((Cast.reachable_play ..).lived 0) trivial⟩

end Concord.Core
