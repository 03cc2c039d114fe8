import Concord.Proofs.Basic.Locks
import Concord.Proofs.Chained.History
import Concord.Proofs.Retention

/-!
Certificates that a leader makes from its logged votes. The votes are a quorum by distinct members,
each valid for the payload of the certificate, and the leader adds its own. Hence every core with
the same members verifies the certificate.
-/

namespace Concord.Core

variable {σ : Type} {ctx : Context σ}

theorem Basic.Reached.tallied {l : Life Unit σ} (h : Basic.Reached ctx l) {qc : Certificate}
    (hqc : .certified qc ∈ l.done) : ∃ votes, Tallied ctx l.heard qc votes := by
  refine h.forall_asked .certified (P := fun l qc => ∃ votes, Tallied ctx l.heard qc votes)
    (fun hmove hold => ?_) (fun hreached hmove hasked => ?_) qc hqc
  · obtain ⟨votes, htallied⟩ := hold
    exact ⟨votes, htallied.mono hmove.heard_subset⟩
  · cases hasked with
    | certified _ _ hcertificate =>
      exact ⟨_, (Basic.tallied_of_certificate hreached.logged.votes hcertificate).mono
        hmove.heard_subset⟩

theorem Chained.Reached.tallied {l : Life Chain σ} {known : State × Chain → Prop}
    (h : Chained.Reached ctx known l) {qc : Certificate} (hqc : .certified qc ∈ l.done) :
    ∃ votes, Tallied ctx l.heard qc votes := by
  refine h.forall_asked .certified (P := fun l qc => ∃ votes, Tallied ctx l.heard qc votes)
    (fun hstep hold => ?_) (fun {l l' qc} hreached hstep hasked => ?_) qc hqc
  · obtain ⟨votes, htallied⟩ := hold
    exact ⟨votes, htallied.mono hstep.heard_subset⟩
  · cases hasked with
    | certified _ _ _ _ hvotes _ _ hmade _ hown =>
      obtain ⟨messages, rfl, hmessages⟩ :=
        Chained.votes_of_votesFor (l := l) hreached.logged.votes hvotes
      have hsubject : qc.subject = ⟨.generic, qc.view, qc.payload, qc.nodeId⟩ :=
        (congrArg Certificate.subject hmade).trans (by simp)
      refine ⟨messages, hmessages.collected.mono hstep.heard_subset, fun m hm => ?_,
        hmessages.payload, _, hown, hsubject ▸ hmade⟩
      rw [hmessages.phase m hm, Certificate.phase, hsubject]
    | adopted _ _ _ _ _ hconsequent => cases hconsequent

theorem Lived.tallied {v : Variant} {l : Life (Memory v) σ} (h : Lived ctx l) {qc : Certificate}
    (hqc : .certified qc ∈ l.done) : ∃ votes, Tallied ctx l.heard qc votes := by
  cases v with
  | basic => exact (Basic.reached_of_lived h).2.tallied hqc
  | chained => exact (Chained.reached_anyhow h).tallied hqc

theorem Context.verifyCertificate_congr {τ : Type} {ctx' : Context τ}
    (hscheme : ctx'.scheme = ctx.scheme) (hmembers : ctx'.committee.members = ctx.committee.members)
    (qc : Certificate) : ctx'.verifyCertificate qc = ctx.verifyCertificate qc := by
  have hcommittee : ctx'.committee = ctx.committee := by
    cases hc : ctx'.committee
    cases hc' : ctx.committee
    simpa [hc, hc'] using hmembers
  rw [verifyCertificate, verifyCertificate, hscheme, hcommittee]

/-- Every certificate that a seated core makes has votes of distinct signers, the core among them,
and it verifies at every core with the same scheme and members. -/
theorem aggregate_verifies {v : Variant} {l : Life (Memory v) σ} (h : Lived ctx l)
    (hseated : ctx.Seated) {qc : Certificate} (hqc : .certified qc ∈ l.done) :
    (qc.votes.map Vote.signer).Nodup ∧ ctx.me ∈ qc.votes.map Vote.signer ∧
      ∀ {τ : Type} (ctx' : Context τ), ctx'.scheme = ctx.scheme →
        ctx'.committee.members = ctx.committee.members → ctx'.verifyCertificate qc := by
  obtain ⟨votes, htallied⟩ := h.tallied hqc
  refine ⟨htallied.nodup, htallied.me_mem, fun ctx' hscheme hmembers => ?_⟩
  rw [Context.verifyCertificate_congr hscheme hmembers]
  exact htallied.verifyCertificate hseated h.genuine

section Samples

open Legible

theorem certified_spec :
    .certified (broadcastOf .preCommit).body.justify ∈ (decidedRun 1).done ∧
    (broadcastOf .preCommit).body.justify.votes.map Vote.signer = [key 2, key 3, key 1] := by
  decide +kernel

/-- The leader of view 0 makes a certificate with three votes, and it verifies at a core with
another application. -/
theorem aggregate_of_decidedRun :
    .certified (broadcastOf .preCommit).body.justify ∈ (decidedRun 1).done ∧
    (broadcastOf .preCommit).body.justify.votes.map Vote.signer = [key 2, key 3, key 1] ∧
    refusing.verifyCertificate (broadcastOf .preCommit).body.justify := by
  obtain ⟨hqc, hsigners⟩ := certified_spec
  have hlived : Lived (four.context 1) (decidedRun 1) := (Cast.reachable_play ..).lived 1
  obtain ⟨-, -, hverified⟩ := aggregate_verifies hlived (four.seated_context 1) hqc
  exact ⟨hqc, hsigners, hverified refusing rfl rfl⟩

end Samples

end Concord.Core
