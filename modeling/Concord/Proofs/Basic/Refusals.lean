import Concord.Core.Step
import Concord.Proofs.Outcomes

/-!
Failing handlers of the five-phase protocol. All checks of a message come before the first change.
After that a core fails only if it cannot sign or produce a payload, or if it decides in the last
view.
-/

namespace Concord.Core.Basic

open Handler

variable {σ : Type} {ctx : Context σ} {loud : Fault → Prop}
  {trace : Turn Unit σ → Fault → Turn Unit σ → Prop}

theorem discreet_tryLead :
    Discreet (fun app fault => fault.Unsigned ctx ∨ fault.Unproduced ctx app) loud
      (tryLead ctx) := by
  refine quiet_state.bind fun s => ?_
  split
  · exact (quiet_pure _).discreet
  · refine (quiet_takeHighCertificate fun _ _ => .inl).bind fun taken => ?_
    split
    · exact (quiet_pure _).discreet
    · refine produce_bind (fun _ _ => .inr) (fun _ fault => Or.inl) fun data => ?_
      exact (quiet_write (fun _ _ => id) _ _).bind fun _ => (quiet_update _).bind fun _ =>
        (quiet_ask rfl).bind fun _ => discreet_of_never (fails_ask _)

theorem discreet_sendVote (view : View) (phase : Phase) (payload : Payload) :
    Discreet (fun _ => Fault.Unsigned ctx) loud (sendVote ctx view phase payload) :=
  (quiet_write (fun _ _ => id) _ _).bind fun _ => discreet_of_never (fails_send _ _)

/-- The faults of a leader that has a quorum of votes for the current phase of `view`. -/
def Certifying (ctx : Context σ) (view : View) (fault : Fault) : Prop :=
  fault.Unsigned ctx ∨ fault.Ended ∧ ctx.leads View.last ∧ view = View.last

theorem fails_decided {view : View} (hleads : ctx.leads view) (letter : Letter) (payload : Payload) :
    Fails (fun fault => fault.Ended ∧ ctx.leads View.last ∧ view = View.last) (do
      (broadcast letter : Handler Unit σ Unit)
      deliver ctx view payload
      advanceTo (openRound ctx) (← lift (nextView view))) := by
  refine (fails_ask _).bind fun _ => (fails_deliver _ _).bind fun _ =>
    (fails_lift fun fault hnext => ?_).bind fun _ => fails_advanceTo _ _
  obtain ⟨hended, rfl⟩ := ended_of_nextView hnext
  exact ⟨hended, hleads, rfl⟩

theorem discreet_certify {view : View} (hleads : ctx.leads view) (payload : Payload)
    (qc : Certificate) :
    Discreet (fun _ => Certifying ctx view) Fault.Ended (certify ctx view payload qc) := by
  unfold certify
  split
  · exact (quiet_update _).bind fun _ => (quiet_write (fun _ _ => .inl) _ _).bind fun _ =>
      discreet_of_never (fails_ask _)
  · exact (quiet_update _).bind fun _ => (quiet_write (fun _ _ => .inl) _ _).bind fun _ =>
      discreet_of_never (fails_ask _)
  · exact (quiet_update _).bind fun _ => (quiet_write (fun _ _ => .inl) _ _).bind fun letter =>
      (fails_decided hleads letter payload).discreet (fun _ _ => .inr) fun _ => And.left
  · exact (quiet_pure _).discreet

theorem unsigned_of_certificate {s : State} {payload : Payload} {fault : Fault}
    (h : certificate? ctx s payload = .error fault) : fault.Unsigned ctx := by
  unfold certificate? at h
  dsimp only at h
  split at h
  · cases h
  · split at h
    · next hown =>
      cases h
      exact unsigned_of_ownVote hown
    · cases h

theorem discreet_onVote (m : SignedBody) :
    Discreet (fun _ => Certifying ctx m.view) Fault.Ended (onVote ctx m) := by
  refine quiet_state.bind fun s => ?_
  split
  · exact (quiet_pure _).discreet
  · next hcurrent =>
    obtain ⟨⟨hleads, hview⟩, -⟩ : (ctx.leads s.view ∧ m.view = s.view) ∧ m.phase = s.phase := by
      simpa using hcurrent
    rw [hview]
    split
    · exact (quiet_pure _).discreet
    · split
      · exact (quiet_pure _).discreet
      · refine (quiet_update _).bind fun _ => quiet_state.bind fun _ =>
          (quiet_lift fun _ _ h => .inl (unsigned_of_certificate h)).bind fun qc => ?_
        split
        · exact (quiet_pure _).discreet
        · exact (quiet_ask rfl).bind fun _ => (quiet_update _).bind fun _ =>
            (quiet_ask rfl).bind fun _ => discreet_certify hleads _ _

theorem refuses_onPrepare (m : SignedBody) :
    Refuses (fun _ => Fault.Unsigned ctx) loud trace (onPrepare ctx m) := by
  refine leaves_state.bind_refuses fun s => ?_
  split
  · exact (leaves_pure _).refuses
  · split
    · exact (leaves_pure _).refuses
    · refine leaves_get.bind_refuses fun t => (leaves_lift _).bind_refuses fun _ =>
        Discreet.refuses ?_
      dsimp only
      split
      · exact (quiet_update _).bind fun _ => (quiet_update _).bind fun _ => (quiet_ask rfl).bind fun _ =>
          discreet_sendVote _ _ _
      · exact (quiet_update _).bind fun _ => (quiet_ask rfl).bind fun _ => discreet_sendVote _ _ _

theorem refuses_onCertified (kind : MessageKind) (m : SignedBody) :
    Refuses (Fault.Late ctx .basic kind m) loud trace (onCertified ctx kind m) := by
  refine leaves_state.bind_refuses fun s => ?_
  split
  · exact (leaves_pure _).refuses
  · split
    · exact (leaves_pure _).refuses
    · refine (leaves_lift _).bind_refuses fun _ => Discreet.refuses ((quiet_ask rfl).bind fun _ => ?_)
      split
      · exact (quiet_update _).bind fun _ => discreet_sendVote _ _ _
      · exact (quiet_update _).bind fun _ => discreet_sendVote _ _ _
      · exact discreet_of_never ((fails_update _).bind fun _ => (fails_deliver _ _).bind fun _ =>
          fails_postpone _)

theorem refuses_dispatch (kind : MessageKind) (m : SignedBody) :
    Refuses (Fault.Late ctx .basic kind m) (fun fault => fault.Ended ∧ kind ≠ .generic) trace
      (Machine.dispatch (v := .basic) ctx kind m) := by
  cases kind with
  | newView => exact refuses_onNewView discreet_tryLead m
  | vote =>
    exact ((discreet_onVote m).mono (fun _ _ => id) fun _ hended => ⟨hended, nofun⟩).refuses
  | prepare => exact refuses_onPrepare m
  | preCommit => exact refuses_onCertified .preCommit m
  | commit => exact refuses_onCertified .commit m
  | decide => exact refuses_onCertified .decide m
  | generic => exact Leaves.refuses fun _ => rfl

end Concord.Core.Basic
