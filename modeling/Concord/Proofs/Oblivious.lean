import Concord.Core.Step
import Concord.Proofs.Outcomes

/-!
Handlers that do not depend on earlier effects. Opening a round and receiving a NewView are of this
kind, so several inputs can be run as one turn.
-/

namespace Concord.Core

open Crypto

variable {γ σ α β : Type} {ctx : Context σ}

def Turn.preceded (earlier : List Effect) (t : Turn γ σ) : Turn γ σ :=
  { t with effects := earlier ++ t.effects }

namespace Handler

/-- Earlier effects do not change what the handler does, and the handler leaves the status alone. -/
structure Oblivious (h : Handler γ σ α) : Prop where
  exec_preceded : ∀ earlier t,
    exec h (t.preceded earlier) = ((exec h t).1, (exec h t).2.preceded earlier)
  status : Leaves (fun t => t.state.status) h

theorem oblivious_pure (a : α) : Oblivious (pure a : Handler γ σ α) :=
  ⟨fun _ _ => rfl, leaves_pure a⟩

theorem oblivious_throw (fault : Fault) (next : α → Handler γ σ β) :
    Oblivious ((throw fault : Handler γ σ α) >>= next) :=
  ⟨fun _ _ => rfl, leaves_throw fault next⟩

theorem oblivious_state : Oblivious (state : Handler γ σ State) := ⟨fun _ _ => rfl, leaves_state⟩

theorem oblivious_memory : Oblivious (memory : Handler γ σ γ) := ⟨fun _ _ => rfl, leaves_memory⟩

theorem oblivious_lift (result : Except Fault α) : Oblivious (lift result : Handler γ σ α) := by
  refine ⟨fun earlier t => ?_, leaves_lift result⟩
  rw [exec_lift, exec_lift]

theorem oblivious_update {f : State → State} (h : ∀ s, (f s).status = s.status) :
    Oblivious (update f : Handler γ σ Unit) :=
  ⟨fun _ _ => rfl, leaves_update fun t => h t.state⟩

theorem oblivious_setMemory (m : γ) : Oblivious (setMemory m : Handler γ σ Unit) :=
  ⟨fun _ _ => rfl, leaves_setMemory fun _ => rfl⟩

theorem oblivious_ask (effect : Effect) : Oblivious (ask effect : Handler γ σ Unit) := by
  refine ⟨fun earlier t => ?_, leaves_ask fun _ => rfl⟩
  rw [exec_ask, exec_ask]
  simp [Turn.preceded]

theorem Oblivious.bind {h : Handler γ σ α} {next : α → Handler γ σ β} (hh : Oblivious h)
    (hnext : ∀ a, Oblivious (next a)) : Oblivious (h >>= next) := by
  refine ⟨fun earlier t => ?_, hh.status.bind fun a => (hnext a).status⟩
  rw [exec_bind, exec_bind, hh.exec_preceded]
  rcases exec h t with ⟨fault | a, t'⟩
  · rfl
  · exact (hnext a).exec_preceded earlier t'

theorem oblivious_write (kind : MessageKind) (body : Body) :
    Oblivious (write ctx kind body : Handler γ σ Letter) :=
  (oblivious_lift _).bind fun _ => (oblivious_ask _).bind fun _ => oblivious_pure _

theorem oblivious_send (receiver : Member) (letter : Letter) :
    Oblivious (send ctx receiver letter : Handler γ σ Unit) := by
  unfold send
  split
  · exact oblivious_pure _
  · exact oblivious_ask _

theorem oblivious_postpone (task : Task) : Oblivious (postpone task : Handler γ σ Unit) :=
  oblivious_state.bind fun _ => oblivious_ask _

theorem oblivious_produce : Oblivious (produce ctx : Handler γ σ Bytes) := by
  refine ⟨fun earlier t => ?_, leaves_produce fun _ _ => rfl⟩
  rw [exec_produce, exec_produce]
  rfl

theorem oblivious_deliver (view : View) (payload : Payload) :
    Oblivious (deliver ctx view payload : Handler γ σ Unit) := by
  refine ⟨fun earlier t => ?_, fun _ => rfl⟩
  rw [exec_deliver, exec_deliver]
  simp [Turn.preceded]

theorem oblivious_takeHighCertificate :
    Oblivious (takeHighCertificate ctx : Handler γ σ (Option (Certificate × Digest))) := by
  refine ⟨fun earlier t => ?_, leaves_takeHighCertificate fun _ _ => rfl⟩
  have hstate : (t.preceded earlier).state = t.state := rfl
  rw [exec_takeHighCertificate, exec_takeHighCertificate, hstate]
  cases best? ctx t.state with
  | none => rfl
  | some best =>
    dsimp only
    cases taken ctx t.state best <;> rfl

theorem oblivious_acceptNewView (m : SignedBody) :
    Oblivious (acceptNewView ctx m : Handler γ σ Bool) := by
  refine oblivious_state.bind fun s => ?_
  split
  · exact oblivious_pure _
  · dsimp only
    split
    · exact oblivious_throw _ _
    · split
      · exact oblivious_throw _ _
      · exact .bind (oblivious_update fun _ => rfl) fun _ => oblivious_pure _

theorem oblivious_advanceTo {openRound : Handler γ σ Unit} (h : Oblivious openRound) (view : View) :
    Oblivious (advanceTo openRound view) := by
  constructor
  · intro earlier t
    rw [exec_advanceTo, exec_advanceTo]
    have hround := h.exec_preceded earlier { t with
      state := State.resetRound { t.state with view := view, phase := .newView }
      effects := t.effects ++ [.resetTimer] }
    simpa [Turn.preceded] using congrArg Prod.snd hround
  · intro t
    rw [exec_advanceTo]
    exact h.status _

end Handler

open Handler

namespace Basic

theorem oblivious_tryLead : Oblivious (tryLead ctx) := by
  refine oblivious_state.bind fun s => ?_
  split
  · exact oblivious_pure _
  · refine oblivious_takeHighCertificate.bind fun taken => ?_
    split
    · exact oblivious_pure _
    · exact oblivious_produce.bind fun _ => (oblivious_write _ _).bind fun _ =>
        .bind (oblivious_update fun _ => rfl) fun _ => (oblivious_ask _).bind fun _ =>
        oblivious_ask _

theorem oblivious_openRound : Oblivious (openRound ctx) := by
  refine oblivious_state.bind fun s => ?_
  split
  · exact oblivious_tryLead
  · exact (oblivious_write _ _).bind fun _ => oblivious_send _ _

end Basic

namespace Chained

theorem oblivious_commit (node : Body) : Oblivious (commit ctx node) := by
  refine oblivious_memory.bind fun chain => ?_
  split
  · exact oblivious_pure _
  · split
    · exact oblivious_pure _
    · exact (oblivious_setMemory _).bind fun _ => oblivious_deliver _ _

theorem oblivious_walk (node : Body) : Oblivious (walk ctx node) := by
  refine oblivious_memory.bind fun chain => ?_
  split
  · exact oblivious_pure _
  · next b1 _ =>
    -- What follows is the same whether or not the certificate becomes the high one.
    have hraise : ∀ rest : Handler Chain σ Unit, Oblivious rest →
        Oblivious (if supersedes chain.high node.justify then do
          setMemory { chain with high := node.justify }
          update fun s => { s with prepared := some node.justify }
          rest
        else rest) := by
      intro rest hrest
      split
      · exact (oblivious_setMemory _).bind fun _ => .bind (oblivious_update fun _ => rfl) fun _ => hrest
      · exact hrest
    refine hraise _ ?_
    split
    · exact oblivious_pure _
    · refine .bind (oblivious_update fun s => s.lock_status _) fun _ => ?_
      split
      · exact oblivious_pure _
      · exact oblivious_commit _

theorem oblivious_adopt (node : Body) : Oblivious (adopt ctx node) := by
  refine oblivious_memory.bind fun chain => (oblivious_setMemory _).bind fun _ =>
    (oblivious_lift _).bind fun next => ?_
  dsimp only
  split
  · exact (oblivious_write _ _).bind fun _ => (oblivious_postpone _).bind fun _ => oblivious_walk node
  · exact oblivious_walk node

theorem oblivious_propose : Oblivious (propose ctx) := by
  refine oblivious_state.bind fun s => ?_
  split
  · exact oblivious_pure _
  · exact oblivious_memory.bind fun chain => (oblivious_lift _).bind fun _ =>
      (oblivious_setMemory _).bind fun _ => oblivious_produce.bind fun _ =>
      (oblivious_write _ _).bind fun _ => .bind (oblivious_update fun _ => rfl) fun _ =>
      (oblivious_ask _).bind fun _ => (oblivious_ask _).bind fun _ => oblivious_adopt _

theorem oblivious_takeNewViews : Oblivious (takeNewViews ctx) := by
  refine oblivious_state.bind fun s => ?_
  split
  · exact oblivious_pure _
  · refine oblivious_takeHighCertificate.bind fun taken => ?_
    split
    · exact oblivious_pure _
    · exact oblivious_memory.bind fun _ => (oblivious_setMemory _).bind fun _ =>
        .bind (oblivious_update fun _ => rfl) fun _ => oblivious_pure _

/-- Proposes if the core leads its view, has no proposal in it and has a quorum of NewViews. -/
def tryLead (ctx : Context σ) : Handler Chain σ Unit := do
  if ← takeNewViews ctx then
    propose ctx

theorem oblivious_tryLead : Oblivious (tryLead ctx) := by
  refine oblivious_takeNewViews.bind fun taken => ?_
  split
  · exact oblivious_propose
  · exact oblivious_pure _

theorem oblivious_openRound : Oblivious (openRound ctx) := by
  refine oblivious_state.bind fun s => ?_
  split
  · exact oblivious_tryLead
  · exact oblivious_memory.bind fun _ => (oblivious_write _ _).bind fun _ => oblivious_send _ _

end Chained

end Concord.Core
