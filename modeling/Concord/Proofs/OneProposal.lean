import Concord.Proofs.Basic.Cluster
import Concord.Proofs.Chained.Cluster
import Concord.Proofs.Legible

/-!
The proposals, certificates and decisions of a view in both protocols, without traitors.
-/

namespace Concord.Core

variable {n : Nat} {v : Variant} {σ : Type} {g : Group n σ} {w : World n v σ}

/-- There is at most one proposal for `view`, its leader makes it, and every certificate and every
decision of `view` is for it. Certificates of the chained protocol name its node. -/
structure OneProposal (g : Group n σ) (w : World n v σ) (view : View) : Prop where
  atMostOne : (w.proposals view).length ≤ 1
  byLeader : ∀ i, ∀ b ∈ (w i).proposals, b.view = view → g.seat view = i
  certified : ∀ i qc, .certified qc ∈ (w i).done → qc.view = view →
    ∃ b, w.proposals view = [b] ∧ b.payload = qc.payload ∧ (v = .chained → b.id = qc.nodeId)
  delivered : ∀ i payload, .deliver view payload ∈ (w i).done →
    ∃ b, w.proposals view = [b] ∧ b.payload = payload

theorem proposal_of_certified (h : Reachable g ∅ w) {i : Fin n} {qc : Certificate}
    (hqc : .certified qc ∈ (w i).done) :
    ∃ b ∈ w.proposals qc.view, b.payload = qc.payload ∧ (v = .chained → b.id = qc.nodeId) := by
  cases v with
  | basic =>
    obtain ⟨b, hb, hpayload⟩ := Basic.proposal_of_certified h hqc
    exact ⟨b, hb, hpayload, nofun⟩
  | chained =>
    obtain ⟨b, hb, hpayload, hid⟩ := Chained.proposal_of_certified h hqc
    exact ⟨b, hb, hpayload, fun _ => hid⟩

theorem proposal_of_delivered (h : Reachable g ∅ w) (hfree : CollisionFree g w) {i : Fin n}
    {view : View} {payload : Payload} (hdone : .deliver view payload ∈ (w i).done) :
    ∃ b ∈ w.proposals view, b.payload = payload := by
  cases v with
  | basic => exact (Basic.proposal_of_delivered h hdone).1
  | chained =>
    obtain ⟨b, hb, hpayload, -⟩ := Chained.decided_of_delivered h hfree hdone
    exact ⟨b, hb, hpayload⟩

/-- In every run of loyal members without hash collisions, each view has at most one proposal, made
by its leader, and all its certificates and decisions are for that proposal. -/
theorem one_proposal_per_view (h : Reachable g ∅ w) (hfree : CollisionFree g w) (view : View) :
    OneProposal g w view where
  atMostOne := h.length_proposals_le view
  byLeader i b hb hview := hview ▸ h.seat_of_proposal hb
  certified i qc hqc hview := by
    obtain ⟨b, hb, hbody⟩ := proposal_of_certified h hqc
    exact ⟨b, h.proposals_eq_singleton (hview ▸ hb), hbody⟩
  delivered i payload hdone := by
    obtain ⟨b, hb, hpayload⟩ := proposal_of_delivered h hfree hdone
    exact ⟨b, h.proposals_eq_singleton hb, hpayload⟩

open Legible in
/-- In a run of four members that decides view 1, the decision is for the only proposal. -/
theorem one_proposal_in_decided_view :
    .deliver 1 (payload 1) ∈ (fivePhaseRun 2).done ∧ OneProposal four fivePhaseRun 1 :=
  ⟨fivePhaseRun_spec.2.1, one_proposal_per_view (Cast.reachable_play ..)
    (collisionFree_of_parted rfl fivePhaseRun_spec.1) 1⟩

end Concord.Core
