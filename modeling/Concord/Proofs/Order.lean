import Concord.Proofs.Basic.Order
import Concord.Proofs.Chained.Order
import Concord.Proofs.Legible

/-!
The messages and deliveries of a single core in order, for both protocols and any inputs.
-/

namespace Concord.Core

variable {v : Variant} {σ : Type} {ctx : Context σ} {l : Life (Memory v) σ}

/-- A core signs at most one message of each kind and phase for a view, and at most one of each kind
other than votes. -/
theorem signed_once (h : Lived ctx l) (view : View) :
    (∀ kind phase, (l.written.filter fun x =>
      x.kind = kind ∧ x.body.phase = phase ∧ x.body.view = view).length ≤ 1) ∧
    ∀ kind, kind ≠ .vote →
      (l.written.filter fun x => x.kind = kind ∧ x.body.view = view).length ≤ 1 := by
  cases v with
  | basic =>
    obtain ⟨hrising, hsuits⟩ := (Basic.reached_of_lived h).2.written
    refine ⟨fun kind phase => hrising.length_filter_le fun x _ y _ hx hy => ?_,
      fun kind hkind => hrising.length_filter_le fun x hx y hy hpx hpy => ?_⟩
    -- Kind and phase fix the place of a letter in its view, and the places rise.
    · obtain ⟨-, hphase, hview⟩ := of_decide_eq_true hx
      obtain ⟨-, hphase', hview'⟩ := of_decide_eq_true hy
      rw [hphase, hview, hphase', hview']
    -- What is no vote has the phase of its kind.
    · obtain ⟨hkindx, hview⟩ := of_decide_eq_true hpx
      obtain ⟨hkindy, hview'⟩ := of_decide_eq_true hpy
      obtain ⟨phase, hown⟩ := ownPhase?_of_ne_vote hkind
      rw [hsuits x hx phase (hkindx ▸ hown), hsuits y hy phase (hkindy ▸ hown), hview, hview']
  | chained =>
    have hrising : Chained.Written _ := Chained.written_of_lived h
    refine ⟨fun kind phase => hrising.length_filter_le fun x _ y _ hx hy => ?_,
      fun kind _ => hrising.length_filter_le fun x _ y _ hx hy => ?_⟩
    · obtain ⟨hkind, -, hview⟩ := of_decide_eq_true hx
      obtain ⟨hkind', -, hview'⟩ := of_decide_eq_true hy
      rw [hkind, hview, hkind', hview']
    · obtain ⟨hkind, hview⟩ := of_decide_eq_true hx
      obtain ⟨hkind', hview'⟩ := of_decide_eq_true hy
      rw [hkind, hview, hkind', hview']

open Legible in
theorem fivePhaseRun_leader :
    ((fivePhaseRun 3).written.map fun x => (x.kind, x.body.phase, x.body.view)) =
      [(.newView, .newView, 0), (.newView, .newView, 1), (.vote, .prepare, 1),
        (.vote, .preCommit, 1), (.vote, .commit, 1), (.prepare, .prepare, 2),
        (.preCommit, .preCommit, 2), (.commit, .commit, 2), (.decide, .decide, 2),
        (.newView, .newView, 3)] ∧
    (fivePhaseRun 3).decisions = [1, 2] := by
  decide +kernel

open Legible in
/-- A core that votes in view 1 and leads view 2 signs each message once. -/
theorem leader_signs_once :
    ((fivePhaseRun 3).written.map fun x => (x.kind, x.body.phase, x.body.view)) =
      [(.newView, .newView, 0), (.newView, .newView, 1), (.vote, .prepare, 1),
        (.vote, .preCommit, 1), (.vote, .commit, 1), (.prepare, .prepare, 2),
        (.preCommit, .preCommit, 2), (.commit, .commit, 2), (.decide, .decide, 2),
        (.newView, .newView, 3)] ∧
    ∀ view, (∀ kind phase, ((fivePhaseRun 3).written.filter fun x =>
        x.kind = kind ∧ x.body.phase = phase ∧ x.body.view = view).length ≤ 1) ∧
      ∀ kind, kind ≠ .vote →
        ((fivePhaseRun 3).written.filter fun x => x.kind = kind ∧ x.body.view = view).length ≤ 1 :=
  ⟨fivePhaseRun_leader.1, signed_once ((Cast.reachable_play ..).lived 3)⟩

theorem length_lt_size {views : List View} (h : views.Pairwise (· < ·)) {view : View}
    (hview : view ∉ views) : views.length < UInt64.size := by
  have hnodup : (view :: views).Nodup :=
    List.nodup_cons.2 ⟨hview, h.imp fun hlt => UInt64.ne_of_lt hlt⟩
  have hindices : ((view :: views).map UInt64.toFin).Nodup := hnodup.map fun _ _ => UInt64.toFin_inj.1
  simpa [Nat.succ_le_iff] using hindices.length_le_card

/-- The views of a core's deliveries strictly increase, and its counter is their number. The counter
is below `UInt64.size` as long as some view is not delivered. -/
theorem delivered_in_order (h : Lived ctx l) :
    l.decisions.Pairwise (· < ·) ∧ l.machine.state.decided = l.decisions.length ∧
      ∀ view, view ∉ l.decisions → l.machine.state.decided < UInt64.size := by
  obtain ⟨hincreasing, hdecided⟩ : l.decisions.Pairwise (· < ·) ∧
      l.machine.state.decided = l.decisions.length := by
    cases v with
    | basic =>
      obtain ⟨hrising, hdecided⟩ := (Basic.reached_of_lived h).2.inOrder
      exact ⟨hrising.increasing.imp Basic.lt_of_place_lt, hdecided⟩
    | chained =>
      obtain ⟨hrising, hdecided⟩ := Chained.inOrder_of_lived h
      refine ⟨hrising.increasing.imp fun {x y} hlt => ?_, hdecided⟩
      exact UInt64.lt_iff_toNat_lt.2 (Nat.lt_of_succ_lt_succ hlt)
  -- There are `UInt64.size` views in all, and the deliveries are of different ones.
  exact ⟨hincreasing, hdecided, fun view hview => hdecided ▸ length_lt_size hincreasing hview⟩

open Legible in
/-- A core that delivers in views 1 and 2 has the counter 2. -/
theorem leader_delivers_in_order :
    (fivePhaseRun 3).decisions = [1, 2] ∧ (fivePhaseRun 3).decisions.Pairwise (· < ·) ∧
      (fivePhaseRun 3).machine.state.decided = 2 := by
  have hlived : Lived (four.context 3) (fivePhaseRun 3) := (Cast.reachable_play ..).lived 3
  obtain ⟨hincreasing, hdecided, -⟩ := delivered_in_order hlived
  refine ⟨fivePhaseRun_leader.2, hincreasing, hdecided.trans ?_⟩
  rw [fivePhaseRun_leader.2]
  rfl

end Concord.Core
