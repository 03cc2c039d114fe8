import Concord.Core.Step

/-!
Running a handler as a function of the turn that it starts from. The equations of this module
rewrite the run of a handler along its definition.
-/

namespace Concord.Core

variable {γ σ α β : Type}

def Handler.exec (h : Handler γ σ α) (t : Turn γ σ) : Except Fault α × Turn γ σ :=
  StateT.run (ExceptT.run h) t

namespace Handler

@[simp] theorem exec_pure (a : α) (t : Turn γ σ) : exec (pure a) t = (.ok a, t) := rfl

theorem exec_bind (h : Handler γ σ α) (next : α → Handler γ σ β) (t : Turn γ σ) :
    exec (h >>= next) t =
      match exec h t with
      | (.ok a, t') => exec (next a) t'
      | (.error fault, t') => (.error fault, t') := by
  change StateT.run (ExceptT.run (h >>= next)) t = _
  simp only [exec, ExceptT.run_bind, StateT.run_bind]
  rcases StateT.run (ExceptT.run h) t with ⟨_ | _, _⟩ <;> rfl

theorem exec_ite {c : Prop} [Decidable c] (h k : Handler γ σ α) (t : Turn γ σ) :
    exec (if c then h else k) t = if c then exec h t else exec k t := by
  split <;> rfl

@[simp] theorem exec_state (t : Turn γ σ) : exec state t = (.ok t.state, t) := rfl

@[simp] theorem exec_memory (t : Turn γ σ) : exec memory t = (.ok t.memory, t) := rfl

@[simp] theorem exec_get (t : Turn γ σ) : exec (get : Handler γ σ _) t = (.ok t, t) := rfl

@[simp] theorem exec_update (f : State → State) (t : Turn γ σ) :
    exec (update f) t = (.ok (), { t with state := f t.state }) := rfl

@[simp] theorem exec_setMemory (m : γ) (t : Turn γ σ) :
    exec (setMemory m) t = (.ok (), { t with memory := m }) := rfl

@[simp] theorem exec_ask (effect : Effect) (t : Turn γ σ) :
    exec (ask effect) t = (.ok (), { t with effects := t.effects ++ [effect] }) := rfl

@[simp] theorem exec_resetTimer (t : Turn γ σ) :
    exec resetTimer t = (.ok (), { t with effects := t.effects ++ [.resetTimer] }) := rfl

@[simp] theorem exec_broadcast (letter : Letter) (t : Turn γ σ) :
    exec (broadcast letter) t = (.ok (), { t with effects := t.effects ++ [.broadcast letter] }) :=
  rfl

@[simp] theorem exec_postpone (task : Task) (t : Turn γ σ) :
    exec (postpone task) t =
      (.ok (), { t with effects := t.effects ++ [.postpone t.state.view task] }) := rfl

@[simp] theorem exec_deliver (ctx : Context σ) (view : View) (payload : Payload) (t : Turn γ σ) :
    exec (deliver ctx view payload) t =
      (.ok (), { t with
        state := { t.state with decided := t.state.decided + 1 }
        app := ctx.application.deliver t.app view payload
        effects := t.effects ++ [.deliver view payload] }) := rfl

theorem exec_lift (result : Except Fault α) (t : Turn γ σ) : exec (lift result) t = (result, t) := by
  cases result <;> rfl

theorem exec_write (ctx : Context σ) (kind : MessageKind) (body : Body) (t : Turn γ σ) :
    exec (write ctx kind body) t =
      match ctx.build kind body with
      | .ok letter => (.ok letter, { t with effects := t.effects ++ [.wrote letter] })
      | .error fault => (.error fault, t) := by
  rw [write, exec_bind, exec_lift]
  cases ctx.build kind body <;> rfl

theorem exec_send (ctx : Context σ) (receiver : Member) (letter : Letter) (t : Turn γ σ) :
    exec (send ctx receiver letter) t =
      (.ok (), if receiver.key = ctx.me then t
        else { t with effects := t.effects ++ [.send receiver letter] }) := by
  rw [send, exec_ite]
  split <;> rfl

def produced : Except ApplicationFault Bytes → Except Fault Bytes
  | .ok data => .ok data
  | .error fault => .error (.application fault)

theorem exec_produce (ctx : Context σ) (t : Turn γ σ) :
    exec (produce ctx) t =
      (produced (ctx.application.produce t.app).1,
        { t with app := (ctx.application.produce t.app).2 }) := by
  rw [produce, exec_bind, exec_get]
  rcases hproduce : ctx.application.produce t.app with ⟨fault | data, app⟩
  · simp only [hproduce]
    rfl
  · simp only [hproduce]
    rfl

theorem exec_attempt (h : Handler γ σ Unit) (t : Turn γ σ) :
    exec (attempt h) t = (.ok (), (exec h t).2) := by
  change StateT.run (ExceptT.run (tryCatch h fun _ => pure ())) t = _
  simp only [exec, tryCatch, tryCatchThe, MonadExceptOf.tryCatch, ExceptT.tryCatch, ExceptT.run,
    ExceptT.mk, StateT.run, bind, StateT.bind]
  rcases h t with ⟨_ | _, _⟩ <;> rfl

theorem exec_newRound (openRound : Handler γ σ Unit) (t : Turn γ σ) :
    exec (newRound openRound) t =
      (.ok (), (exec openRound { t with state := t.state.resetRound }).2) := by
  rw [newRound, exec_bind]
  exact exec_attempt openRound _

theorem exec_advanceTo (openRound : Handler γ σ Unit) (view : View) (t : Turn γ σ) :
    exec (advanceTo openRound view) t =
      (.ok (), (exec openRound { t with
        state := State.resetRound { t.state with view := view, phase := .newView }
        effects := t.effects ++ [.resetTimer] }).2) := by
  simp only [advanceTo, exec_bind, exec_update, exec_resetTimer, exec_newRound]

end Handler

namespace Context

/-- The effects of signing a body and sending it to one member. Nothing is sent to oneself. -/
def posted (ctx : Context σ) (receiver : Member) (kind : MessageKind) (body : Body) :
    List Effect :=
  match ctx.build kind body with
  | .ok letter =>
    .wrote letter :: if receiver.key = ctx.me then [] else [.send receiver letter]
  | .error _ => []

def announced (ctx : Context σ) (kind : MessageKind) (body : Body) : List Effect :=
  match ctx.build kind body with
  | .ok letter => [.wrote letter, .broadcast letter]
  | .error _ => []

structure Wrote (ctx : Context σ) (kind : MessageKind) (body : Body) (letter : Letter) : Prop where
  kind_eq : letter.kind = kind
  body_eq : letter.body = body
  signer_eq : letter.signed.signer = ctx.me
  built : ctx.build kind body = .ok letter

theorem wrote_of_build {ctx : Context σ} {kind : MessageKind} {body : Body} {letter : Letter}
    (h : ctx.build kind body = .ok letter) : ctx.Wrote kind body letter := by
  have hbuilt := h
  unfold build Letter.build SignedBody.sign at h
  cases hvote : ctx.signer.sign (body.payload.hash ctx.scheme) with
  | error fault => rw [hvote] at h; cases h
  | ok voteSignature =>
    cases hseal : ctx.signer.sign (body.sealHash ctx.scheme) with
    | error fault => rw [hvote, hseal] at h; cases h
    | ok sealSignature =>
      rw [hvote, hseal] at h
      cases h
      exact ⟨rfl, rfl, rfl, hbuilt⟩

theorem mem_posted {ctx : Context σ} {receiver : Member} {kind : MessageKind} {body : Body}
    {effect : Effect} : effect ∈ ctx.posted receiver kind body ↔
      ∃ letter, ctx.Wrote kind body letter ∧ (effect = .wrote letter ∨
        receiver.key ≠ ctx.me ∧ effect = .send receiver letter) := by
  unfold posted
  constructor
  · intro h
    split at h
    · next letter hbuild =>
      refine ⟨letter, wrote_of_build hbuild, ?_⟩
      rcases List.mem_cons.1 h with rfl | h
      · exact .inl rfl
      · split at h
        · cases h
        · next hne => exact .inr ⟨hne, List.mem_singleton.1 h⟩
    · cases h
  · rintro ⟨letter, hwrote, rfl | ⟨hne, rfl⟩⟩
    · simp [hwrote.built]
    · simp [hwrote.built, hne]

theorem mem_announced {ctx : Context σ} {kind : MessageKind} {body : Body} {effect : Effect} :
    effect ∈ ctx.announced kind body ↔
      ∃ letter, ctx.Wrote kind body letter ∧
        (effect = .wrote letter ∨ effect = .broadcast letter) := by
  unfold announced
  constructor
  · intro h
    split at h
    · next letter hbuild => exact ⟨letter, wrote_of_build hbuild, by simpa using h⟩
    · cases h
  · rintro ⟨letter, hwrote, rfl | rfl⟩
    · simp [hwrote.built]
    · simp [hwrote.built]

section

variable {ctx : Context σ} {receiver : Member} {kind : MessageKind} {body : Body}
  {P : Effect → Prop}

theorem forall_posted (hwrote : ∀ letter, ctx.Wrote kind body letter → P (.wrote letter))
    (hsend : ∀ letter, ctx.Wrote kind body letter → receiver.key ≠ ctx.me →
      P (.send receiver letter)) :
    ∀ e ∈ ctx.posted receiver kind body, P e := by
  intro e he
  obtain ⟨letter, hletter, rfl | ⟨hother, rfl⟩⟩ := mem_posted.1 he
  · exact hwrote letter hletter
  · exact hsend letter hletter hother

theorem forall_announced (hwrote : ∀ letter, ctx.Wrote kind body letter → P (.wrote letter))
    (hbroadcast : ∀ letter, ctx.Wrote kind body letter → P (.broadcast letter)) :
    ∀ e ∈ ctx.announced kind body, P e := by
  intro e he
  obtain ⟨letter, hletter, rfl | rfl⟩ := mem_announced.1 he
  · exact hwrote letter hletter
  · exact hbroadcast letter hletter

end

end Context

namespace Handler

theorem exec_post (ctx : Context σ) (receiver : Member) (kind : MessageKind) (body : Body)
    (t : Turn γ σ) :
    (exec (write ctx kind body >>= fun letter => send ctx receiver letter) t).2 =
      { t with effects := t.effects ++ ctx.posted receiver kind body } := by
  rw [exec_bind, exec_write]
  unfold Context.posted
  cases ctx.build kind body with
  | error fault => simp
  | ok letter =>
    simp only [exec_send]
    split <;> simp

theorem exec_announce (ctx : Context σ) (kind : MessageKind) (body : Body) (t : Turn γ σ) :
    (exec (write ctx kind body >>= fun letter => broadcast letter) t).2 =
      { t with effects := t.effects ++ ctx.announced kind body } := by
  rw [exec_bind, exec_write]
  unfold Context.announced
  cases ctx.build kind body with
  | error fault => simp
  | ok letter => simp

end Handler

end Concord.Core
