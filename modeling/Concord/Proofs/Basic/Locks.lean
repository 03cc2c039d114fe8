import Concord.Proofs.Basic.History
import Concord.Proofs.Basic.Order
import Concord.Proofs.Basic.Refusals
import Concord.Proofs.Certificates
import Concord.Proofs.Faults
import Concord.Proofs.Legible

/-!
The prepared certificate and the lock of a core of the five-phase protocol. Both verify, and the
core has reached the phase after theirs. So the lock is of an earlier view than every proposal that
is checked, and the locking rule refuses none.
-/

namespace Concord.Core.Basic

open Handler Relation

variable {σ : Type} {ctx : Context σ} {l l' : Life Unit σ}

theorem certificate_eq {s : State} {payload : Payload} {qc : Certificate}
    (h : certificate? ctx s payload = .ok (some qc)) : ∃ own, ctx.ownVote payload = .ok own ∧
      qc = (Certificate.ofVotes ⟨s.phase, s.view, payload, Digest.zero⟩
        ((s.votes.matching s.view s.phase fun m => m.body.payload = payload).map
          SignedBody.vote)).addVote own := by
  unfold certificate? at h
  simp only at h
  split at h
  · cases h
  · split at h
    · cases h
    · next own hown =>
      cases h
      exact ⟨own, hown, rfl⟩

theorem tallied_of_certificate {payload : Payload} {qc : Certificate}
    (hlog : l.state.votes.Holds .vote l.heard)
    (h : certificate? ctx l.state payload = .ok (some qc)) : Tallied ctx l.heard qc
      (l.state.votes.matching l.state.view l.state.phase fun m => m.body.payload = payload) := by
  have hvotes := votes_of_certificate hlog h
  obtain ⟨own, hown, hmade⟩ := certificate_eq h
  refine ⟨hvotes.collected, hvotes.phase, hvotes.payload, own, ?_, ?_⟩
  · rwa [certificate_payload h]
  · rwa [subject_of_certificate h]

theorem Reached.verify_certificate (h : Reached ctx l) (hseated : ctx.Seated) {payload : Payload}
    {qc : Certificate} (hqc : certificate? ctx l.state payload = .ok (some qc)) :
    ctx.verifyCertificate qc :=
  (tallied_of_certificate h.logged.votes hqc).verifyCertificate hseated h.genuine

theorem verify_of_checkCertified {s : State} {kind : MessageKind} {m : SignedBody}
    (h : checkCertified ctx s kind m = .ok ()) : ctx.verifyCertificate m.justify := by
  unfold checkCertified at h
  simp only at h
  split at h
  · cases h
  · split at h
    · cases h
    · split at h
      · cases h
      · split at h
        · cases h
        · next hverify => simpa using hverify

/-- A certificate of `phase` that verifies, and the core has reached the phase `next` of its
view. -/
structure Held (ctx : Context σ) (l : Life Unit σ) (phase next : Phase) (qc : Certificate) :
    Prop where
  phase : qc.phase = phase
  place_le : place qc.view next ≤ here l
  verified : ctx.verifyCertificate qc

theorem Held.mono {phase next : Phase} {qc : Certificate} (h : Held ctx l phase next qc)
    (hle : here l ≤ here l') : Held ctx l' phase next qc :=
  { h with place_le := Nat.le_trans h.place_le hle }

theorem Held.keep {phase next : Phase} {held held' : Option Certificate}
    (hheld : ∀ qc, held = some qc → Held ctx l phase next qc) (hle : here l ≤ here l')
    (hchange : held' = held ∨ ∃ qc, held' = some qc ∧ Held ctx l' phase next qc) :
    ∀ qc, held' = some qc → Held ctx l' phase next qc := by
  intro qc hqc
  rcases hchange with hsame | ⟨qc', hnew, hheld'⟩
  · exact (hheld qc (hsame ▸ hqc)).mono hle
  · obtain rfl := Option.some.inj (hnew.symm.trans hqc)
    exact hheld'

theorem Held.le_view {phase next : Phase} {qc : Certificate} (h : Held ctx l phase next qc) :
    qc.view ≤ l.state.view := by
  have hplace := h.place_le
  have hrank := rank_le l.state.phase
  unfold place here place at hplace
  rw [UInt64.le_iff_toNat_le]
  omega

theorem Held.rank_le {phase next : Phase} {qc : Certificate} (h : Held ctx l phase next qc)
    (hview : qc.view = l.state.view) : rank next ≤ rank l.state.phase := by
  have hplace := h.place_le
  rw [hview] at hplace
  exact Nat.le_of_add_le_add_left hplace

theorem phase_of_rank {phase : Phase} (h : rank .commit ≤ rank phase) :
    phase = .commit ∨ phase = .decide := by
  cases phase <;> simp [rank] at h ⊢

theorem Reached.held_of_opens (h : Reached ctx l) (hseated : ctx.Seated) {kind : MessageKind}
    {next : Phase} {qc : Certificate} (hopens : Opens ctx l l' kind qc)
    (hnext : ownPhase? kind = some next) : Held ctx l' (certifiedPhase kind) next qc where
  phase := hopens.gains.phase
  place_le := by
    have hphase : next = l'.state.phase := Option.some.inj (hnext.symm.trans hopens.phase)
    rw [here, hopens.view, hopens.gains.view, hphase]
  verified := by
    cases hopens.gains with
    | heard _ _ hcheck => exact verify_of_checkCertified hcheck
    | made _ _ hqc => exact h.verify_certificate hseated hqc

/-- The prepared certificate and the lock verify, are of the phases `prepare` and `preCommit`, and
the core has reached the next phases of their views. -/
structure Secure (ctx : Context σ) (l : Life Unit σ) : Prop where
  prepared : ∀ qc, l.state.prepared = some qc → Held ctx l .prepare .preCommit qc
  locked : ∀ qc, l.state.locked = some qc → Held ctx l .preCommit .commit qc

theorem Reached.secure (h : Reached ctx l) (hseated : ctx.Seated) : Secure ctx l := by
  induction h with
  | born app => exact ⟨nofun, nofun⟩
  | @move l l' hreached hmove ih =>
    have hle := hmove.here_le hreached.genuine
    refine ⟨Held.keep ih.prepared hle ?_, Held.keep ih.locked hle ?_⟩
    · exact hmove.prepared_cases.imp_right fun ⟨qc, hnew, hopens⟩ =>
        ⟨qc, hnew, hreached.held_of_opens hseated hopens rfl⟩
    · exact hmove.locked_cases.imp_right fun ⟨qc, hnew, hopens⟩ =>
        ⟨qc, hnew, hreached.held_of_opens hseated hopens rfl⟩

theorem Secure.lock_lt (h : Secure ctx l) {lock : Certificate} (hlock : l.state.locked = some lock)
    {view : View} (hview : l.state.view ≤ view)
    (hfree : view = l.state.view → l.state.phase = .newView) : lock.view < view := by
  have hheld := h.locked lock hlock
  refine UInt64.lt_of_le_of_ne (UInt64.le_trans hheld.le_view hview) fun heq => ?_
  -- Else lock and proposal are of the current view. There a lock comes with a phase past the first.
  have hsame : view = l.state.view := UInt64.le_antisymm (heq ▸ hheld.le_view) hview
  have hrank := hheld.rank_le (heq.trans hsame)
  rw [hfree hsame] at hrank
  exact absurd hrank (by decide)

section Refusals

variable {bad : SafetyViolation → Prop}

theorem avoids_onNewView (m : SignedBody) : Avoids bad (onNewView ctx m) := by
  refine .bind (avoids_acceptNewView m) fun kept => ?_
  split
  · have hlead : Discreet _ Fault.Ended (tryLead ctx) := discreet_tryLead
    exact (hlead.fails_benign fun _ _ h =>
      h.elim Fault.Unsigned.benign Fault.Unproduced.benign).avoids
  · exact avoids_pure _

theorem fails_sendVote (view : View) (phase : Phase) (payload : Payload) :
    Fails Fault.Benign (sendVote ctx view phase payload) := by
  have hsend : Discreet _ Fault.Ended (sendVote ctx view phase payload) :=
    discreet_sendVote view phase payload
  exact hsend.fails_benign fun _ _ => Fault.Unsigned.benign

theorem checkCertified_ne {s : State} {kind : MessageKind} {m : SignedBody}
    {cause : SafetyViolation} (hbad : Outranked cause) :
    checkCertified ctx s kind m ≠ .error (.safetyViolation cause) := by
  unfold checkCertified
  simp only
  intro heq
  split at heq
  · cases heq
    exact hbad
  · split at heq
    · cases heq
      exact hbad
    · split at heq
      · cases heq
        exact hbad
      · split at heq
        · cases heq
          exact hbad
        · cases heq

theorem avoids_onCertified (kind : MessageKind) (m : SignedBody) :
    Avoids Outranked (onCertified ctx kind m) := by
  refine .bind avoids_state fun s => ?_
  split
  · exact avoids_pure _
  · split
    · exact avoids_pure _
    · refine .bind (avoids_lift fun _ => checkCertified_ne) fun _ =>
        ((fails_ask _).bind fun _ => ?_).avoids
      split
      · exact (fails_update _).bind fun _ => fails_sendVote _ _ _
      · exact (fails_update _).bind fun _ => fails_sendVote _ _ _
      · exact (fails_update _).bind fun _ => (fails_deliver _ _).bind fun _ => fails_postpone _

/-- `onPrepare` fails in the locking rule only for a proposal of a later view, or of the current
view in the phase `newView`. -/
theorem outranked_of_onPrepare {m : SignedBody} {t : Turn Unit σ} {cause : SafetyViolation}
    (hbad : Outranked cause)
    (h : (exec (onPrepare ctx m) t).1 = .error (.safetyViolation cause)) :
    t.state.view ≤ m.view ∧ (m.view = t.state.view → t.state.phase = .newView) ∧
      ctx.checkProposal t.state t.app m (extendsLock ctx m) = .error (.safetyViolation cause) := by
  rw [onPrepare, exec_bind, exec_state] at h
  simp only [exec_ite] at h
  split at h
  · cases h
  · next hview =>
    split at h
    · cases h
    · next hfree =>
      rw [exec_bind, exec_get] at h
      simp only at h
      rw [exec_bind, exec_lift] at h
      cases hcheck : ctx.checkProposal t.state t.app m (extendsLock ctx m) with
      | error fault =>
        rw [hcheck] at h
        cases h
        exact ⟨UInt64.not_lt.1 hview, by simpa using hfree, rfl⟩
      | ok =>
        rw [hcheck] at h
        -- Past the checks there is nothing left that safety could be against.
        refine absurd h ((Fails.avoids ?_ : Avoids Outranked _) t cause hbad)
        split
        · exact (fails_update _).bind fun _ => (fails_update _).bind fun _ =>
            (fails_ask _).bind fun _ => fails_sendVote _ _ _
        · exact (fails_update _).bind fun _ => (fails_ask _).bind fun _ =>
            fails_sendVote _ _ _

theorem Secure.onPrepare_ne (h : Secure ctx l) (m : SignedBody) {cause : SafetyViolation}
    (hbad : Outranked cause) :
    (exec (onPrepare ctx m) l.turn).1 ≠ .error (.safetyViolation cause) := by
  intro heq
  obtain ⟨hview, hfree, hcheck⟩ := outranked_of_onPrepare hbad heq
  obtain ⟨lock, hlock, hle⟩ := lock_of_outranked hbad hcheck
  exact UInt64.not_lt.2 hle (h.lock_lt hlock hview hfree)

theorem Secure.dispatch_ne (h : Secure ctx l) (kind : MessageKind) (m : SignedBody)
    {cause : SafetyViolation} (hbad : Outranked cause) :
    (exec (Machine.dispatch (v := .basic) ctx kind m) l.turn).1 ≠
      .error (.safetyViolation cause) := by
  cases kind with
  | newView => exact avoids_onNewView m _ _ hbad
  | vote =>
    have hbenign : Fails Fault.Benign (onVote ctx m) :=
      (discreet_onVote m).fails_benign fun _ _ h =>
        h.elim Fault.Unsigned.benign fun hended => hended.1.benign
    exact hbenign.avoids _ _ hbad
  | prepare => exact h.onPrepare_ne m hbad
  | preCommit => exact avoids_onCertified .preCommit m _ _ hbad
  | commit => exact avoids_onCertified .commit m _ _ hbad
  | decide => exact avoids_onCertified .decide m _ _ hbad
  | generic => nofun

end Refusals

/-- Let the settings of a core be valid. Its prepared certificate and its lock verify, have the
phases `prepare` and `preCommit` and are of no later view than the core's. If the lock is of the
current view, the phase is `commit` or `decide`. No envelope is refused with `belowLock`. -/
theorem held_of_lived {scheme : Crypto.Scheme} {signer : Crypto.Signer}
    {application : Application σ} {settings : Settings}
    (hctx : Context.ofSettings scheme signer application settings = .ok ctx)
    {l : Life (Memory .basic) σ} (h : Lived ctx l) :
    (∀ qc, l.state.prepared = some qc →
      qc.phase = .prepare ∧ qc.view ≤ l.state.view ∧ ctx.verifyCertificate qc) ∧
    (∀ qc, l.state.locked = some qc →
      qc.phase = .preCommit ∧ qc.view ≤ l.state.view ∧ ctx.verifyCertificate qc ∧
        (qc.view = l.state.view → l.state.phase = .commit ∨ l.state.phase = .decide)) ∧
    ∀ envelope view lock, (l.machine.step ctx (.feed envelope)).result ≠
      .error (.safetyViolation (.belowLock view lock)) := by
  have hsecure := (reached_of_lived h).2.secure (Context.seated_of_ofSettings hctx)
  refine ⟨fun qc hqc => ?_, fun qc hqc => ?_, fun envelope view lock => ?_⟩
  · have hheld := hsecure.prepared qc hqc
    exact ⟨hheld.phase, hheld.le_view, hheld.verified⟩
  · have hheld := hsecure.locked qc hqc
    exact ⟨hheld.phase, hheld.le_view, hheld.verified, fun hview =>
      phase_of_rank (hheld.rank_le hview)⟩
  · refine feed_ne (fun kind m => ?_) envelope
    exact hsecure.dispatch_ne kind m trivial

open Legible in
/-- A member with a prepared certificate and a lock of its current view. -/
theorem held_of_follower : ∃ qc, (lockedRun 0).state.locked = some qc ∧
    qc.view = (lockedRun 0).state.view ∧ (housed.context 0).verifyCertificate qc ∧
    ((lockedRun 0).state.phase = .commit ∨ (lockedRun 0).state.phase = .decide) := by
  obtain ⟨qc, hqc, hview⟩ := Option.map_eq_some_iff.1 lockedRun_spec
  have hlived : Lived (housed.context 0) (lockedRun 0) := (Cast.reachable_play ..).lived 0
  obtain ⟨-, -, hverified, hphase⟩ := (held_of_lived ofSettings_housed hlived).2.1 qc hqc
  exact ⟨qc, hqc, hview, hverified, hphase hview⟩

end Concord.Core.Basic
