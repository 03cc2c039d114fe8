import Concord.Proofs.Basic.Vetting
import Concord.Proofs.Chained.Vetting
import Concord.Proofs.Legible

/-!
The data that a core delivers. In the chained protocol its application has vouched for all of it. In
the five-phase protocol a core without a proposal follows a Decide without consulting the
application.
-/

namespace Concord.Core

variable {v : Variant} {σ : Type} {ctx : Context σ} {l : Life (Memory v) σ}

/-- All nonempty data that a core delivers was vouched for by its application in an earlier turn, or
in the chained protocol earlier in the same turn. The only exception is a core of the five-phase
protocol that receives a Decide for its view without having a proposal in it. In that case it
delivers the decided payload in any case. -/
theorem vetted_or_trusted {vetted : Bytes → Prop} (h : Vetted ctx l vetted) :
    (∀ input view payload, .deliver view payload ∈ (l.machine.step ctx input).effects →
      payload.data ≠ [] →
      vetted payload.data ∨
        v = .chained ∧ (∃ before,
          before ++ [.deliver view payload] <+: (l.machine.step ctx input).effects ∧
            VouchedBy ctx l before input payload.data) ∨
        v = .basic ∧ ∃ envelope m, input = .feed envelope ∧ Basic.Trusts ctx l.state envelope m ∧
          view = l.state.view ∧ payload = m.justify.payload) ∧
    (v = .basic → ∀ envelope m, Basic.Trusts ctx l.state envelope m →
      .deliver l.state.view m.justify.payload ∈
        (l.machine.step ctx (.feed envelope)).effects) := by
  cases v with
  | basic =>
    refine ⟨fun input view payload hdeliver _ => ?_, fun _ _ _ => Basic.delivered_of_trusts⟩
    rcases Basic.delivered_cases hdeliver with ⟨b, hb, rfl⟩ | htrusted
    · exact .inl (Basic.vetted_of_held h hb)
    · exact .inr (.inr ⟨rfl, htrusted⟩)
  | chained =>
    refine ⟨fun input view payload hdeliver hdata => ?_, nofun⟩
    exact (Chained.vetted_of_delivered h hdeliver hdata).imp_right fun hvouched =>
      .inl ⟨rfl, hvouched⟩

section Samples

open Legible Cast

def refusingBegun : Life (Memory .basic) Unit :=
  (Life.initial scheme .basic ()).take refusing .begin

def refusingTold : Life (Memory .basic) Unit :=
  refusingBegun.take refusing (.feed (broadcastOf .prepare).envelope)

def refusingVetted (data : Bytes) : Prop :=
  (False ∨ Vouches refusing (Life.initial scheme .basic ()) .begin data) ∨
    Vouches refusing refusingBegun (.feed (broadcastOf .prepare).envelope) data

theorem refusing_spec :
    ((Life.initial scheme .basic ()).machine.step refusing .begin).effects.filterMap
      Effect.proposal? = [] ∧
    (refusingBegun.machine.step refusing (.feed (broadcastOf .prepare).envelope)).result =
      .error (.safetyViolation (.dataRefused 0)) ∧
    (refusingBegun.machine.step refusing
      (.feed (broadcastOf .prepare).envelope)).effects.filterMap Effect.proposal? = [] ∧
    refusingTold.state.status = .running ∧ refusingTold.state.proposal = none ∧
    (broadcastOf .decide).envelope.kind = .decide ∧
    refusing.receive (broadcastOf .decide).envelope = .ok (broadcastOf .decide).signed ∧
    (broadcastOf .decide).signed.view = refusingTold.state.view ∧
    Basic.rank refusingTold.state.phase < Basic.rank (broadcastOf .decide).signed.phase ∧
    Basic.checkCertified refusing refusingTold.state .decide (broadcastOf .decide).signed = .ok () ∧
    (broadcastOf .decide).signed.justify.payload = (broadcastOf .prepare).body.payload ∧
    (broadcastOf .prepare).body.payload.data ≠ [] := by
  decide +kernel

theorem not_vouches_of_refusing {l : Life (Memory .basic) Unit} {input : Input} {data : Bytes}
    (h : (l.machine.step refusing input).effects.filterMap Effect.proposal? = []) :
    ¬ Vouches refusing l input data := by
  rintro (⟨-, haccepts⟩ | hoffers)
  · cases haccepts
  · obtain ⟨e, he, hproposal⟩ := hoffers.proposed
    have hmem := List.mem_filterMap.2 ⟨e, he, hproposal⟩
    rw [h] at hmem
    cases hmem

/-- A core whose application refuses the proposal and has vouched for nothing delivers it after the
Decide. -/
theorem trusted_of_refusing :
    (refusingBegun.machine.step refusing (.feed (broadcastOf .prepare).envelope)).result =
      .error (.safetyViolation (.dataRefused 0)) ∧
    (broadcastOf .prepare).body.payload.data ≠ [] ∧ (∀ data, ¬ refusingVetted data) ∧
    .deliver refusingTold.state.view (broadcastOf .prepare).body.payload ∈
      (refusingTold.machine.step refusing (.feed (broadcastOf .decide).envelope)).effects := by
  obtain ⟨hbegin, hrefused, hprepare, hrunning, hbare, hkind, hread, hview, hrank, hcheck, hpayload,
    hdata⟩ := refusing_spec
  have hbegun : Vetted refusing refusingBegun fun data =>
      False ∨ Vouches refusing (Life.initial scheme .basic ()) .begin data :=
    (Vetted.born ()).take .begin trivial
  have hvetted : Vetted refusing refusingTold refusingVetted := hbegun.take _ trivial
  have htrusts : Basic.Trusts refusing refusingTold.state (broadcastOf .decide).envelope
      (broadcastOf .decide).signed := ⟨hrunning, hbare, hkind, hread, hview, hrank, hcheck⟩
  refine ⟨hrefused, hdata, ?_, hpayload ▸ (vetted_or_trusted hvetted).2 rfl _ _ htrusts⟩
  rintro data ((hnone | hfirst) | hsecond)
  · exact hnone
  · exact not_vouches_of_refusing hbegin hfirst
  · exact not_vouches_of_refusing hprepare hsecond

end Samples

end Concord.Core
