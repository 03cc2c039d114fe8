import Concord.Proofs.Outcomes

/-!
The safety violations that each handler can report. No fault after the checks of a message and no
fault of a NewView is a safety violation. Violations of the locking rule are distinguished from the
others.
-/

namespace Concord.Core

variable {γ σ α β : Type} {ctx : Context σ} {bad : SafetyViolation → Prop}

namespace Fault

/-- The fault is no violation of safety. -/
def Benign (fault : Fault) : Prop := ∀ cause, fault ≠ .safetyViolation cause

theorem Unsigned.benign {fault : Fault} (h : fault.Unsigned ctx) : fault.Benign := by
  obtain ⟨-, rfl⟩ := h
  nofun

theorem Ended.benign {fault : Fault} (h : fault.Ended) : fault.Benign := by
  obtain rfl := h
  nofun

theorem Unproduced.benign {app : σ} {fault : Fault} (h : fault.Unproduced ctx app) :
    fault.Benign := by
  obtain ⟨cause, -, rfl⟩ := h
  nofun

theorem Proposing.benign {app : σ} {fault : Fault} (h : fault.Proposing ctx app) :
    fault.Benign := by
  rcases h with h | h | ⟨gap, start, stop, rfl, -⟩ | ⟨h, -⟩
  · exact h.benign
  · exact h.benign
  · nofun
  · exact h.benign

end Fault

namespace Handler

/-- `h` does not fail for any of the `bad` violations of safety. -/
def Avoids (bad : SafetyViolation → Prop) (h : Handler γ σ α) : Prop :=
  ∀ t cause, bad cause → (exec h t).1 ≠ .error (.safetyViolation cause)

theorem Fails.avoids {h : Handler γ σ α} (hfails : Fails Fault.Benign h) : Avoids bad h :=
  fun t cause _ heq => hfails t _ heq cause rfl

theorem Discreet.fails_benign {grounds : σ → Fault → Prop} {loud : Fault → Prop}
    {h : Handler γ σ α} (hh : Discreet grounds loud h)
    (hgrounds : ∀ app fault, grounds app fault → fault.Benign) : Fails Fault.Benign h :=
  fun t fault hfail => hgrounds t.app fault (hh.fails t fault hfail)

theorem avoids_pure (a : α) : Avoids bad (pure a : Handler γ σ α) := (fails_pure a).avoids

theorem avoids_state : Avoids bad (state : Handler γ σ State) := fails_state.avoids

theorem Avoids.bind {h : Handler γ σ α} {next : α → Handler γ σ β} (hh : Avoids bad h)
    (hnext : ∀ a, Avoids bad (next a)) : Avoids bad (h >>= next) := fun t cause hbad => by
  rw [exec_bind]
  rcases hexec : exec h t with ⟨fault | a, t'⟩
  · intro heq
    cases heq
    exact hh t cause hbad (congrArg Prod.fst hexec)
  · exact hnext a t' cause hbad

theorem avoids_lift {result : Except Fault α}
    (h : ∀ cause, bad cause → result ≠ .error (.safetyViolation cause)) :
    Avoids bad (lift result : Handler γ σ α) := fun t cause hbad => by
  rw [exec_lift]
  exact h cause hbad

theorem avoids_throw {fault : Fault} (h : ∀ cause, fault ≠ .safetyViolation cause)
    (next : α → Handler γ σ β) : Avoids bad ((throw fault : Handler γ σ α) >>= next) :=
  fun t cause hbad heq => by
    cases heq
    exact h cause rfl

theorem receive_ne (envelope : Envelope) (cause : SafetyViolation) :
    ctx.receive envelope ≠ .error (.safetyViolation cause) := by
  unfold Context.receive
  intro heq
  split at heq
  · cases heq
  · split at heq
    · cases heq
    · split at heq
      · cases heq
      · split at heq
        · cases heq
        · split at heq <;> cases heq

theorem feed_ne {v : Variant} {c : Machine v σ} {cause : SafetyViolation}
    (h : ∀ kind m, (exec (Machine.dispatch ctx kind m) ⟨c.state, c.memory, c.app, []⟩).1 ≠
      .error (.safetyViolation cause)) (envelope : Envelope) :
    (c.step ctx (.feed envelope)).result ≠ .error (.safetyViolation cause) := by
  unfold Machine.step
  dsimp only
  split
  · next hreceive =>
    intro heq
    cases heq
    exact receive_ne envelope cause hreceive
  · split
    · exact h envelope.kind _
    · nofun

theorem avoids_acceptNewView (m : SignedBody) :
    Avoids bad (acceptNewView ctx m : Handler γ σ Bool) := by
  refine .bind avoids_state fun s => ?_
  simp only
  split
  · exact avoids_pure _
  · split
    · exact avoids_throw (by simp) _
    · split
      · exact avoids_throw (by simp) _
      · exact ((fails_update _).bind fun _ => fails_pure _).avoids

def Outranked : SafetyViolation → Prop
  | .belowLock .. => True
  | _ => False

theorem screenProposal_ne {m : SignedBody} {cause : SafetyViolation} (hbad : Outranked cause) :
    ctx.screenProposal m ≠ .error (.safetyViolation cause) := by
  unfold Context.screenProposal
  simp only
  intro heq
  split at heq
  · cases heq
    exact hbad
  · split at heq
    · cases heq
      exact hbad
    · split at heq <;> cases heq

/-- The locking rule refuses a proposal only for a lock of its view or a later one. -/
theorem lock_of_outranked {s : State} {app : σ} {m : SignedBody} {extendsLock : Certificate → Bool}
    {cause : SafetyViolation} (hbad : Outranked cause)
    (h : ctx.checkProposal s app m extendsLock = .error (.safetyViolation cause)) :
    ∃ lock, s.locked = some lock ∧ m.view ≤ lock.view := by
  unfold Context.checkProposal at h
  split at h
  · next hscreen =>
    cases h
    exact absurd hscreen (screenProposal_ne hbad)
  · split at h
    · cases h
      exact hbad.elim
    · split at h
      · cases h
        exact hbad.elim
      · split at h
        · cases h
        · next lock hlock =>
          split at h
          · next hbelow => exact ⟨lock, hlock, (by simpa using hbelow : _ ∧ _).1⟩
          · cases h

end Handler

end Concord.Core
