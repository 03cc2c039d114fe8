import Concord.Proofs.NewViews

/-!
What a handler leaves unchanged and the faults that it fails with. Both are proved by lemmas for the
operations of a handler and for sequences. The faults that can occur after a core has changed are
defined in the namespace `Fault`.
-/

namespace Concord.Core

namespace Handler

variable {γ σ τ α β : Type} {ctx : Context σ}

/-- `h` does not change `part`, whether it fails or not. -/
def Leaves (part : Turn γ σ → τ) (h : Handler γ σ α) : Prop := ∀ t, part (exec h t).2 = part t

/-- Every fault of `h` satisfies `reason`. -/
def Fails (reason : Fault → Prop) (h : Handler γ σ α) : Prop :=
  ∀ t fault, (exec h t).1 = .error fault → reason fault

section Leaving

variable {part : Turn γ σ → τ}

theorem leaves_pure (a : α) : Leaves part (pure a : Handler γ σ α) := fun _ => rfl

theorem leaves_state : Leaves part (state : Handler γ σ State) := fun _ => rfl

theorem leaves_memory : Leaves part (memory : Handler γ σ γ) := fun _ => rfl

theorem leaves_get : Leaves part (get : Handler γ σ (Turn γ σ)) := fun _ => rfl

theorem leaves_throw (fault : Fault) (next : α → Handler γ σ β) :
    Leaves part ((throw fault : Handler γ σ α) >>= next) := fun _ => rfl

theorem leaves_lift (result : Except Fault α) : Leaves part (lift result : Handler γ σ α) := by
  intro t
  rw [exec_lift]

theorem Leaves.bind {h : Handler γ σ α} {next : α → Handler γ σ β} (hh : Leaves part h)
    (hnext : ∀ a, Leaves part (next a)) : Leaves part (h >>= next) := by
  intro t
  have hfirst := hh t
  rw [exec_bind]
  rcases hexec : exec h t with ⟨fault | a, t'⟩
  · rw [hexec] at hfirst
    exact hfirst
  · rw [hexec] at hfirst
    exact (hnext a t').trans hfirst

theorem leaves_update {f : State → State} (h : ∀ t, part { t with state := f t.state } = part t) :
    Leaves part (update f : Handler γ σ Unit) := h

theorem leaves_setMemory {m : γ} (h : ∀ t, part { t with memory := m } = part t) :
    Leaves part (setMemory m : Handler γ σ Unit) := h

theorem leaves_ask {effect : Effect}
    (h : ∀ t, part { t with effects := t.effects ++ [effect] } = part t) :
    Leaves part (ask effect : Handler γ σ Unit) := h

theorem leaves_write {kind : MessageKind} {body : Body}
    (h : ∀ t letter, part { t with effects := t.effects ++ [.wrote letter] } = part t) :
    Leaves part (write ctx kind body : Handler γ σ Letter) :=
  .bind (leaves_lift _) fun letter => .bind (leaves_ask fun t => h t letter) fun _ => leaves_pure _

theorem leaves_send (h : ∀ t effects, part { t with effects := effects } = part t)
    (receiver : Member) (letter : Letter) :
    Leaves part (send ctx receiver letter : Handler γ σ Unit) := by
  intro t
  rw [exec_send]
  dsimp only
  split
  · rfl
  · exact h t _

theorem leaves_produce (h : ∀ t app, part { t with app := app } = part t) :
    Leaves part (produce ctx : Handler γ σ Bytes) := by
  intro t
  rw [exec_produce]
  exact h t _

theorem leaves_takeHighCertificate
    (h : ∀ t newViews, part { t with state := { t.state with newViews := newViews } } = part t) :
    Leaves part (takeHighCertificate ctx : Handler γ σ (Option (Certificate × Digest))) := by
  intro t
  rw [exec_takeHighCertificate]
  cases best? ctx t.state with
  | none => rfl
  | some best =>
    dsimp only
    cases taken ctx t.state best with
    | error fault => rfl
    | ok qc => exact h t _

end Leaving

section Failing

variable {reason : Fault → Prop}

theorem fails_pure (a : α) : Fails reason (pure a : Handler γ σ α) := fun _ _ => nofun

theorem fails_state : Fails reason (state : Handler γ σ State) := fun _ _ => nofun

theorem fails_memory : Fails reason (memory : Handler γ σ γ) := fun _ _ => nofun

theorem fails_get : Fails reason (get : Handler γ σ (Turn γ σ)) := fun _ _ => nofun

theorem fails_update (f : State → State) : Fails reason (update f : Handler γ σ Unit) :=
  fun _ _ => nofun

theorem fails_setMemory (m : γ) : Fails reason (setMemory m : Handler γ σ Unit) := fun _ _ => nofun

theorem fails_ask (effect : Effect) : Fails reason (ask effect : Handler γ σ Unit) :=
  fun _ _ => nofun

theorem fails_postpone (task : Task) : Fails reason (postpone task : Handler γ σ Unit) :=
  fun _ _ => nofun

theorem fails_deliver (view : View) (payload : Payload) :
    Fails reason (deliver ctx view payload : Handler γ σ Unit) :=
  fun _ _ => nofun

theorem fails_send (receiver : Member) (letter : Letter) :
    Fails reason (send ctx receiver letter : Handler γ σ Unit) := by
  intro t fault h
  rw [exec_send] at h
  cases h

theorem fails_advanceTo (openRound : Handler γ σ Unit) (view : View) :
    Fails reason (advanceTo openRound view) := by
  intro t fault h
  rw [exec_advanceTo] at h
  cases h

theorem Fails.bind {h : Handler γ σ α} {next : α → Handler γ σ β} (hh : Fails reason h)
    (hnext : ∀ a, Fails reason (next a)) : Fails reason (h >>= next) := by
  intro t fault hfail
  rw [exec_bind] at hfail
  rcases hexec : exec h t with ⟨fault' | a, t'⟩
  · rw [hexec] at hfail
    cases hfail
    exact hh t fault (congrArg Prod.fst hexec)
  · rw [hexec] at hfail
    exact hnext a t' fault hfail

theorem fails_lift {result : Except Fault α} (h : ∀ fault, result = .error fault → reason fault) :
    Fails reason (lift result : Handler γ σ α) := by
  intro t fault hfail
  rw [exec_lift] at hfail
  exact h fault hfail

end Failing

end Handler

section Reasons

variable {γ σ : Type} {ctx : Context σ}

namespace Fault

/-- The core has no key to sign with. -/
def Unsigned (ctx : Context σ) (fault : Fault) : Prop :=
  ctx.signer.sign? = none ∧ fault = .unusable (.key (.verifyOnly ctx.signer.key))

/-- The application, in the state `app`, fails to produce data. -/
def Unproduced (ctx : Context σ) (app : σ) (fault : Fault) : Prop :=
  ∃ cause, (ctx.application.produce app).1 = .error cause ∧ fault = .application cause

/-- A node that a leader would propose is more than `maxViewGap` views after the one that it
extends. -/
def Stretched (ctx : Context σ) (fault : Fault) : Prop :=
  ∃ gap start stop, fault = .viewOutOfRange (.skipped gap start stop) ∧ maxViewGap < gap ∧
    ctx.leads stop

/-- There is no view after the last one. -/
def Ended (fault : Fault) : Prop := fault = .viewOutOfRange (.noNext View.last)

/-- The faults of a leader of the chained protocol that proposes. Only the fault `Ended` comes after
its node was sent. -/
def Proposing (ctx : Context σ) (app : σ) (fault : Fault) : Prop :=
  fault.Unsigned ctx ∨ fault.Unproduced ctx app ∨ fault.Stretched ctx ∨
    fault.Ended ∧ ctx.leads View.last

/-- The faults that can occur after the message `m` of the given kind has changed the core. -/
def Late (ctx : Context σ) (v : Variant) (kind : MessageKind) (m : SignedBody) (app : σ)
    (fault : Fault) : Prop :=
  match v, kind with
  | .basic, .newView => fault.Unsigned ctx ∨ fault.Unproduced ctx app
  | .basic, .vote => fault.Unsigned ctx ∨ fault.Ended ∧ ctx.leads View.last ∧ m.view = View.last
  | .basic, .prepare | .basic, .preCommit | .basic, .commit => fault.Unsigned ctx
  | .chained, .newView => fault.Proposing ctx app
  | .chained, .vote => fault.Proposing ctx app ∧ m.view ≠ View.last
  | .chained, .generic => fault.Unsigned ctx ∨ fault.Ended ∧ m.view = View.last
  | _, _ => False

end Fault

theorem ended_of_nextView {view : View} {fault : Fault} (h : nextView view = .error fault) :
    fault.Ended ∧ view = View.last := by
  unfold nextView at h
  cases hnext : view.next? with
  | none =>
    rw [hnext] at h
    cases h
    obtain rfl := View.eq_last hnext
    exact ⟨rfl, rfl⟩
  | some next =>
    rw [hnext] at h
    cases h

theorem ne_last_of_nextView {view next : View} (h : nextView view = .ok next) :
    view ≠ View.last := by
  rintro rfl
  cases h

theorem Context.sign_of_build {kind : MessageKind} {body : Body} {letter : Letter}
    (h : ctx.build kind body = .ok letter) : ctx.signer.sign?.isSome := by
  cases hsign : ctx.signer.sign? with
  | none => simp [build, Letter.build, SignedBody.sign, Crypto.Signer.sign, hsign, bind,
      Except.bind] at h
  | some sign => rfl

theorem Context.build_ne_error (hsign : ctx.signer.sign?.isSome) (kind : MessageKind) (body : Body)
    (fault : Fault) : ctx.build kind body ≠ .error fault := by
  obtain ⟨sign, hsome⟩ := Option.isSome_iff_exists.1 hsign
  simp [build, Letter.build, SignedBody.sign, Crypto.Signer.sign, hsome, bind, Except.bind,
    pure, Except.pure]

theorem unsigned_of_build {kind : MessageKind} {body : Body} {fault : Fault}
    (h : ctx.build kind body = .error fault) : fault.Unsigned ctx := by
  cases hsign : ctx.signer.sign? with
  | none =>
    simp [Context.build, Letter.build, SignedBody.sign, Crypto.Signer.sign, hsign, bind,
      Except.bind] at h
    exact ⟨hsign, h.symm⟩
  | some sign => exact absurd h (Context.build_ne_error (by simp [hsign]) kind body fault)

theorem unsigned_of_ownVote {payload : Payload} {fault : Fault}
    (h : ctx.ownVote payload = .error fault) : fault.Unsigned ctx := by
  cases hsign : ctx.signer.sign? with
  | none =>
    simp [Context.ownVote, Crypto.Signer.sign, hsign] at h
    exact ⟨hsign, h.symm⟩
  | some sign => simp [Context.ownVote, Crypto.Signer.sign, hsign] at h

theorem unsigned_of_taken {s : State} {best : SignedBody} {fault : Fault}
    (h : Handler.taken ctx s best = .error fault) : fault.Unsigned ctx := by
  unfold Handler.taken at h
  dsimp only at h
  split at h
  · cases hown : ctx.ownVote best.justify.payload with
    | error reason =>
      rw [hown] at h
      cases h
      exact unsigned_of_ownVote hown
    | ok own =>
      rw [hown] at h
      cases h
  · cases h

/-- Whether the effect sends, postpones or delivers something. -/
def Effect.outward : Effect → Bool
  | .send .. | .broadcast _ | .postpone .. | .deliver .. => true
  | .resetTimer | .wrote _ | .certified _ => false

/-- The messages sent, tasks postponed and payloads delivered in a turn. -/
def Turn.outgoing (t : Turn γ σ) : List Effect := t.effects.filter Effect.outward

namespace Handler

variable {α β : Type}

/-- `h` sends, postpones and delivers nothing and does not change the application. Its faults
satisfy `grounds` in the initial state of the application. -/
structure Quiet (grounds : σ → Fault → Prop) (h : Handler γ σ α) : Prop where
  fails : ∀ t fault, (exec h t).1 = .error fault → grounds t.app fault
  outgoing : Leaves Turn.outgoing h
  app : Leaves Turn.app h

/-- The faults of `h` satisfy `grounds`. If `h` fails with a fault that is not `loud`, it has sent,
postponed and delivered nothing. -/
structure Discreet (grounds : σ → Fault → Prop) (loud : Fault → Prop) (h : Handler γ σ α) : Prop where
  fails : ∀ t fault, (exec h t).1 = .error fault → grounds t.app fault
  silent : ∀ t fault, (exec h t).1 = .error fault →
    loud fault ∨ (exec h t).2.outgoing = t.outgoing

/-- If `h` fails, the turn is unchanged, or it is related to the initial turn by `trace`, or the
fault satisfies `grounds` and nothing was sent, postponed or delivered unless the fault is
`loud`. -/
def Refuses (grounds : σ → Fault → Prop) (loud : Fault → Prop)
    (trace : Turn γ σ → Fault → Turn γ σ → Prop) (h : Handler γ σ α) : Prop :=
  ∀ t fault, (exec h t).1 = .error fault →
    (exec h t).2 = t ∨ trace t fault (exec h t).2 ∨
      grounds t.app fault ∧ (loud fault ∨ (exec h t).2.outgoing = t.outgoing)

section Combining

variable {grounds : σ → Fault → Prop} {loud : Fault → Prop}
  {trace : Turn γ σ → Fault → Turn γ σ → Prop}

theorem Quiet.bind {h : Handler γ σ α} {next : α → Handler γ σ β} (hh : Quiet grounds h)
    (hnext : ∀ a, Discreet grounds loud (next a)) : Discreet grounds loud (h >>= next) := by
  refine ⟨fun t fault hfail => ?_, fun t fault hfail => ?_⟩
  · have happ := hh.app t
    rw [exec_bind] at hfail
    rcases hexec : exec h t with ⟨fault' | a, t'⟩
    · rw [hexec] at hfail
      cases hfail
      exact hh.fails t fault (congrArg Prod.fst hexec)
    · rw [hexec] at hfail happ
      exact happ ▸ (hnext a).fails t' fault hfail
  · have houtgoing := hh.outgoing t
    rw [exec_bind] at hfail ⊢
    rcases hexec : exec h t with ⟨fault' | a, t'⟩
    · rw [hexec] at houtgoing
      exact .inr houtgoing
    · rw [hexec] at hfail houtgoing
      exact ((hnext a).silent t' fault hfail).imp_right fun hsame => hsame.trans houtgoing

theorem Quiet.bind_quiet {h : Handler γ σ α} {next : α → Handler γ σ β} (hh : Quiet grounds h)
    (hnext : ∀ a, Quiet grounds (next a)) : Quiet grounds (h >>= next) where
  fails := (hh.bind fun a => (⟨(hnext a).fails, fun t _ _ => .inr ((hnext a).outgoing t)⟩ :
    Discreet grounds (fun _ => False) (next a))).fails
  outgoing := hh.outgoing.bind fun a => (hnext a).outgoing
  app := hh.app.bind fun a => (hnext a).app

theorem Quiet.discreet {h : Handler γ σ α} (hh : Quiet grounds h) : Discreet grounds loud h :=
  ⟨hh.fails, fun t _ _ => .inr (hh.outgoing t)⟩

theorem Discreet.mono {grounds' : σ → Fault → Prop} {loud' : Fault → Prop} {h : Handler γ σ α}
    (hh : Discreet grounds loud h) (hgrounds : ∀ app fault, grounds app fault → grounds' app fault)
    (hloud : ∀ fault, loud fault → loud' fault) : Discreet grounds' loud' h :=
  ⟨fun t fault hfail => hgrounds t.app fault (hh.fails t fault hfail),
    fun t fault hfail => (hh.silent t fault hfail).imp_left (hloud fault)⟩

theorem Fails.discreet {reason : Fault → Prop} {h : Handler γ σ α} (hh : Fails reason h)
    (hgrounds : ∀ app fault, reason fault → grounds app fault)
    (hloud : ∀ fault, reason fault → loud fault) : Discreet grounds loud h :=
  ⟨fun t fault hfail => hgrounds t.app fault (hh t fault hfail),
    fun t fault hfail => .inl (hloud fault (hh t fault hfail))⟩

theorem discreet_of_never {h : Handler γ σ α} (hh : Fails (fun _ => False) h) :
    Discreet grounds loud h :=
  hh.discreet (fun _ _ => False.elim) fun _ => False.elim

theorem Discreet.refuses {h : Handler γ σ α} (hh : Discreet grounds loud h) :
    Refuses grounds loud trace h :=
  fun t fault hfail => .inr (.inr ⟨hh.fails t fault hfail, hh.silent t fault hfail⟩)

theorem Leaves.refuses {h : Handler γ σ α} (hh : Leaves id h) : Refuses grounds loud trace h :=
  fun t _ _ => .inl (hh t)

theorem Leaves.bind_refuses {h : Handler γ σ α} {next : α → Handler γ σ β} (hh : Leaves id h)
    (hnext : ∀ a, Refuses grounds loud trace (next a)) : Refuses grounds loud trace (h >>= next) := by
  intro t fault hfail
  have hfirst := hh t
  rw [exec_bind] at hfail ⊢
  rcases hexec : exec h t with ⟨fault' | a, t'⟩
  · rw [hexec] at hfirst
    exact .inl hfirst
  · rw [hexec] at hfail hfirst
    obtain rfl : t' = t := hfirst
    exact hnext a t' fault hfail

theorem lift_bind_refuses {result : Except Fault α} {next : α → Handler γ σ β}
    (hnext : ∀ a, result = .ok a → Refuses grounds loud trace (next a)) :
    Refuses grounds loud trace (lift result >>= next) := by
  cases result with
  | error fault => exact Leaves.refuses fun t => by rw [exec_bind, exec_lift]
  | ok a => exact hnext a rfl

end Combining

section Quietness

variable {grounds : σ → Fault → Prop}

theorem quiet_pure (a : α) : Quiet grounds (pure a : Handler γ σ α) :=
  ⟨fun _ _ => nofun, leaves_pure a, leaves_pure a⟩

theorem quiet_state : Quiet grounds (state : Handler γ σ State) :=
  ⟨fun _ _ => nofun, leaves_state, leaves_state⟩

theorem quiet_memory : Quiet grounds (memory : Handler γ σ γ) :=
  ⟨fun _ _ => nofun, leaves_memory, leaves_memory⟩

theorem quiet_update (f : State → State) : Quiet grounds (update f : Handler γ σ Unit) :=
  ⟨fun _ _ => nofun, leaves_update fun _ => rfl, leaves_update fun _ => rfl⟩

theorem quiet_setMemory (m : γ) : Quiet grounds (setMemory m : Handler γ σ Unit) :=
  ⟨fun _ _ => nofun, leaves_setMemory fun _ => rfl, leaves_setMemory fun _ => rfl⟩

theorem quiet_ask {effect : Effect} (h : effect.outward = false) :
    Quiet grounds (ask effect : Handler γ σ Unit) :=
  ⟨fun _ _ => nofun, leaves_ask fun t => by simp [Turn.outgoing, h], leaves_ask fun _ => rfl⟩

theorem quiet_lift {result : Except Fault α}
    (h : ∀ app fault, result = .error fault → grounds app fault) :
    Quiet grounds (lift result : Handler γ σ α) :=
  ⟨fun t => fails_lift (h t.app) t, leaves_lift result, leaves_lift result⟩

theorem quiet_write (h : ∀ app fault, fault.Unsigned ctx → grounds app fault) (kind : MessageKind)
    (body : Body) : Quiet grounds (write ctx kind body : Handler γ σ Letter) where
  fails t := ((fails_lift fun fault hbuild => h t.app fault (unsigned_of_build hbuild)).bind fun _ =>
    (fails_ask _).bind fun _ => fails_pure _) t
  outgoing := leaves_write fun t letter => by simp [Turn.outgoing, Effect.outward]
  app := leaves_write fun _ _ => rfl

theorem quiet_takeHighCertificate (h : ∀ app fault, fault.Unsigned ctx → grounds app fault) :
    Quiet grounds (takeHighCertificate ctx : Handler γ σ (Option (Certificate × Digest))) := by
  refine ⟨?_, leaves_takeHighCertificate fun _ _ => rfl, leaves_takeHighCertificate fun _ _ => rfl⟩
  intro t fault hfail
  rw [exec_takeHighCertificate] at hfail
  cases hbest : best? ctx t.state with
  | none =>
    rw [hbest] at hfail
    cases hfail
  | some best =>
    rw [hbest] at hfail
    dsimp only at hfail
    cases htaken : taken ctx t.state best with
    | error reason =>
      rw [htaken] at hfail
      cases hfail
      exact h t.app fault (unsigned_of_taken htaken)
    | ok qc =>
      rw [htaken] at hfail
      cases hfail

/-- The faults after `produce` may not depend on the state of the application, since `produce`
changes it. -/
theorem produce_bind {reason loud : Fault → Prop} {next : Bytes → Handler γ σ β}
    (hproduce : ∀ app fault, fault.Unproduced ctx app → grounds app fault)
    (hreason : ∀ app fault, reason fault → grounds app fault)
    (hnext : ∀ data, Discreet (fun _ => reason) loud (next data)) :
    Discreet grounds loud (produce ctx >>= next) := by
  have hexec : ∀ t, exec (produce ctx >>= next) t =
      match produced (ctx.application.produce t.app).1 with
      | .ok data => exec (next data) { t with app := (ctx.application.produce t.app).2 }
      | .error fault => (.error fault, { t with app := (ctx.application.produce t.app).2 }) := by
    intro t
    rw [exec_bind, exec_produce]
    cases produced (ctx.application.produce t.app).1 <;> rfl
  refine ⟨fun t fault hfail => ?_, fun t fault hfail => ?_⟩
  · rw [hexec] at hfail
    cases happ : (ctx.application.produce t.app).1 with
    | error cause =>
      rw [happ] at hfail
      cases hfail
      exact hproduce t.app _ ⟨cause, happ, rfl⟩
    | ok data =>
      rw [happ] at hfail
      exact hreason t.app fault ((hnext data).fails _ fault hfail)
  · rw [hexec] at hfail ⊢
    cases happ : (ctx.application.produce t.app).1 with
    | error cause => exact .inr rfl
    | ok data =>
      rw [happ] at hfail
      exact (hnext data).silent _ fault hfail

theorem exec_acceptNewView_of_error {m : SignedBody} {t : Turn γ σ} {fault : Fault}
    (h : (exec (acceptNewView ctx m) t).1 = .error fault) :
    (exec (acceptNewView ctx m) t).2 = t := by
  rw [acceptNewView, exec_bind, exec_state] at h ⊢
  simp only [exec_ite] at h ⊢
  split
  · rfl
  · next hview =>
    rw [if_neg hview] at h
    split
    · rfl
    · next hwindow =>
      rw [if_neg hwindow] at h
      split
      · rfl
      · next hjustify =>
        rw [if_neg hjustify] at h
        cases h

/-- If a NewView is refused on receipt, nothing changes. If it is logged and the core then fails,
the fault is one of `lead`. -/
theorem refuses_onNewView {loud : Fault → Prop} {trace : Turn γ σ → Fault → Turn γ σ → Prop}
    {lead : Handler γ σ Unit} (hlead : Discreet grounds loud lead) (m : SignedBody) :
    Refuses grounds loud trace (do if ← acceptNewView ctx m then lead) := by
  intro t fault hfail
  have herror := @exec_acceptNewView_of_error _ _ ctx m t
  have hkept := exec_acceptNewView ctx m t
  rw [exec_bind] at hfail ⊢
  rcases hexec : exec (acceptNewView ctx m) t with ⟨fault' | kept, t'⟩
  · rw [hexec] at herror
    exact .inl (herror rfl)
  · rw [hexec] at hfail hkept
    obtain ⟨happ, houtgoing⟩ : t'.app = t.app ∧ t'.outgoing = t.outgoing := by
      rcases hkept with rfl | ⟨-, -, -, rfl⟩
      · exact ⟨rfl, rfl⟩
      · exact ⟨rfl, rfl⟩
    cases kept with
    | false => cases hfail
    | true =>
      exact .inr (.inr ⟨happ ▸ hlead.fails t' fault hfail,
        (hlead.silent t' fault hfail).imp_right fun hsame => hsame.trans houtgoing⟩)

end Quietness

end Handler

end Reasons

end Concord.Core
