import Concord.Proofs.Basic.Cluster
import Concord.Proofs.Legible

/-!
Decisions of the five-phase protocol without traitors. A certificate of the preCommit phase bounds
the certificates of all later proposals from below, so each decision descends from the earlier ones.
A certificate of view 0 is an exception: it does not supersede the starting one, so a later leader
may propose on the latter.
-/

namespace Concord.Core.Basic

variable {n : Nat} {σ : Type}

section Certificates

variable {g : Group n σ} {w : World n .basic σ}

/-- Without traitors, if a certificate of the preCommit phase was made in a view, every proposal of
a later view is built on a certificate of that view or later. -/
theorem le_justify_of_certified (h : Reachable g ∅ w) {i j : Fin n} {qc : Certificate} {x : Letter}
    (hqc : .certified qc ∈ (w i).done) (hphase : qc.phase = .preCommit)
    (hx : .broadcast x ∈ (w j).done) (hkind : x.kind = .prepare) (hlt : qc.view < x.body.view) :
    qc.view ≤ x.body.justify.view :=
  le_justify_of_backed h ⟨qc, hqc, hphase, rfl⟩ (Life.mem_proposals.2 ⟨x, hx, .inl hkind, rfl⟩) hlt

open Legible in
/-- The proposal of view 2 is built on a certificate of view 1. -/
theorem le_justify_of_second_proposal : ∃ qc x i j, .certified qc ∈ (fivePhaseRun i).done ∧
    qc.phase = .preCommit ∧ qc.view = 1 ∧ .broadcast x ∈ (fivePhaseRun j).done ∧
    x.kind = .prepare ∧ x.body.view = 2 ∧ qc.view ≤ x.body.justify.view := by
  have h : Reachable four ∅ fivePhaseRun := Cast.reachable_play ..
  obtain ⟨-, qc, hqc, hphase, hview⟩ := proposal_of_delivered h fivePhaseRun_spec.2.1
  obtain ⟨⟨b, hb, -⟩, -⟩ := proposal_of_delivered h fivePhaseRun_spec.2.2
  obtain ⟨⟨j, hbj⟩, hbview⟩ := World.mem_proposals.1 hb
  obtain ⟨x, hx, hkind, rfl⟩ := (reached_of_reachable h j).prepare hbj
  have hlt : qc.view < x.body.view := by
    rw [hview, hbview]
    decide
  exact ⟨qc, x, _, j, hqc, hphase, hview, hx, hkind, hbview,
    le_justify_of_certified h hqc hphase hx hkind hlt⟩

end Certificates

def Proposed (w : World n .basic σ) (p : Payload) : Prop :=
  ∃ view, ∃ b ∈ w.proposals view, b.payload = p

/-- `p` is reached from a proposed payload through the parents of proposed payloads. -/
inductive Descends (g : Group n σ) (w : World n .basic σ) (p : Payload) : Payload → Prop
  | refl : Proposed w p → Descends g w p p
  | child {q q' : Payload} :
      Descends g w p q → Proposed w q' → q'.parent = q.hash g.scheme → Descends g w p q'

/-- No payload of a view after 0 from which `p` descends was proposed on the starting
certificate. -/
def Continues (g : Group n σ) (w : World n .basic σ) (p : Payload) : Prop :=
  ∀ view, ∀ b ∈ w.proposals view, 0 < view → Descends g w b.payload p → b.justify.phase ≠ .newView

variable {g : Group n σ} {w : World n .basic σ}

/-- A proposal descends from the proposal of an earlier view in which a certificate of the preCommit
phase was made, if that view is after 0 or the descent is not interrupted by a new start. -/
theorem descends_of_certified (h : Reachable g ∅ w) {i : Fin n} {view : View} {b₀ : Body}
    (hb₀ : b₀ ∈ w.proposals view) (hcertified : Certified (w i) .preCommit view) {b : Body}
    (hb : b ∈ w.proposals b.view) (hle : view ≤ b.view)
    (hstart : 0 < view ∨ Continues g w b.payload) : Descends g w b₀.payload b.payload := by
  -- The induction is on the view of the later proposal, which is built on an earlier one.
  induction hk : b.view.toNat using Nat.strong_induction_on generalizing b with
  | _ k ih =>
    rcases UInt64.lt_or_eq_of_le hle with hlt | rfl
    · obtain ⟨⟨j, hbj⟩, -⟩ := World.mem_proposals.1 hb
      have hback := le_justify_of_backed h hcertified hbj hlt
      have hproposed : Proposed w b.payload := ⟨_, b, hb, rfl⟩
      rcases parent_of_proposal h hbj with hgenesis | ⟨-, hearlier, parent, hparent, hlink⟩
      · have hview : b.justify.view = 0 := congrArg Subject.view hgenesis
        have hphase : b.justify.phase = .newView := congrArg Subject.phase hgenesis
        rcases hstart with hpos | hcontinues
        · exact absurd (hview ▸ hback) (UInt64.not_le.2 hpos)
        · have hpos : 0 < b.view := UInt64.lt_of_le_of_lt (UInt64.le_iff_toNat_le.2 (by simp)) hlt
          exact absurd hphase (hcontinues _ b hb hpos (.refl hproposed))
      · have hpview : parent.view = b.justify.view := (World.mem_proposals.1 hparent).2
        have hsmaller : parent.view.toNat < k := by
          rw [hpview, ← hk]
          exact UInt64.lt_iff_toNat_lt.1 hearlier
        have hchain := ih _ hsmaller (hpview ▸ hparent) (hpview ▸ hback)
          (hstart.imp_right fun hcontinues view c hc hpos hdescends =>
            hcontinues view c hc hpos (.child hdescends hproposed hlink)) rfl
        exact .child hchain hproposed hlink
    · obtain rfl := h.unique_proposal hb₀ hb
      exact .refl ⟨_, b₀, hb₀, rfl⟩

/-- Without traitors, of two decisions the later one descends from the earlier one, if the earlier
one is after view 0 or the descent is not interrupted by a new start. -/
theorem decision_descends (h : Reachable g ∅ w) {i j : Fin n} {view view' : View}
    {p p' : Payload} (hp : .deliver view p ∈ (w i).done) (hp' : .deliver view' p' ∈ (w j).done)
    (hlt : view < view') (hstart : 0 < view ∨ Continues g w p') : Descends g w p p' := by
  obtain ⟨⟨b₀, hb₀, rfl⟩, hcertified⟩ := proposal_of_delivered h hp
  obtain ⟨⟨b, hb, rfl⟩, -⟩ := proposal_of_delivered h hp'
  obtain ⟨-, rfl⟩ := World.mem_proposals.1 hb
  exact descends_of_certified h hb₀ hcertified hb (UInt64.le_of_lt hlt) hstart

open Legible in
/-- The decision of view 2 descends from that of view 1. -/
theorem second_decision_descends : Descends four fivePhaseRun (payload 1) (payload 2) :=
  decision_descends (Cast.reachable_play ..) fivePhaseRun_spec.2.1 fivePhaseRun_spec.2.2
    (by decide) (.inl (by decide))

end Concord.Core.Basic
