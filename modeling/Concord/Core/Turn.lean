import Concord.Committee
import Concord.Core.NodeTree
import Concord.Core.State

/-!
The monad of handlers, with the context that a handler reads, the turn that it changes and the
effects that it requests. A handler that fails keeps the changes and effects that it made before.
-/

namespace Concord.Core

open Crypto

/-- The application, over states `σ` of its own. -/
structure Application (σ : Type) where
  produce : σ → Except ApplicationFault Bytes × σ
  accepts : σ → Bytes → Bool
  deliver : σ → View → Payload → σ

structure Context (σ : Type) where
  scheme : Scheme
  signer : Signer
  committee : Committee
  application : Application σ

/-- Work put off until the pause between views is over, and dropped if the view has changed. -/
inductive Task
  | send (receiver : Member) (letter : Letter)
  | nextRound
deriving DecidableEq

/-- The effects that a core requests. `wrote` and `certified` are notes and request nothing. -/
inductive Effect
  | send (receiver : Member) (letter : Letter)
  | broadcast (letter : Letter)
  | resetTimer
  /-- The task is dropped if the core has left `view` when it is due. -/
  | postpone (view : View) (task : Task)
  | wrote (letter : Letter)
  | certified (qc : Certificate)
  | deliver (view : View) (payload : Payload)
deriving DecidableEq

/-- The state that a handler reads and changes. `γ` is the memory of the protocol. -/
structure Turn (γ σ : Type) where
  state : State
  memory : γ
  app : σ
  effects : List Effect

abbrev Handler (γ σ α : Type) := ExceptT Fault (StateM (Turn γ σ)) α

namespace Context

variable {σ : Type} (ctx : Context σ)

def me : PublicKey := ctx.signer.key

def leader (view : View) : Member := ctx.committee.leader view

def leads (view : View) : Bool := (ctx.leader view).key = ctx.me

def verifyCertificate (qc : Certificate) : Bool := ctx.committee.verifyCertificate ctx.scheme qc

def build (kind : MessageKind) (body : Body) : Except Fault Letter :=
  match Letter.build ctx.scheme ctx.signer kind body with
  | .ok letter => .ok letter
  | .error fault => .error (.unusable fault)

def ownVote (payload : Payload) : Except Fault Vote :=
  match ctx.signer.sign (payload.hash ctx.scheme) with
  | .ok signature => .ok ⟨ctx.me, signature⟩
  | .error fault => .error (.unusable (.key fault))

/-- The checks that need no signatures: the proposal is signed by the leader of its view, and its
certificate is neither of a later view nor of one too long past. -/
def screenProposal (m : SignedBody) : Except Fault Unit :=
  let leader := ctx.leader m.view
  let justify := m.justify.view
  if leader.key ≠ m.signer then .error (.safetyViolation (.proposer m.view m.signer leader.key))
  else if m.view < justify then .error (.safetyViolation (.justifyAhead justify m.view))
  else if maxViewGap < m.view.gap justify then
    .error (.viewOutOfRange (.pastJustify m.view (m.view.gap justify)))
  else .ok ()

/-- All checks of a proposal that both protocols make. `extendsLock` matters only if the proposal is
of no later view than the lock. -/
def checkProposal (state : State) (app : σ) (m : SignedBody) (extendsLock : Certificate → Bool) :
    Except Fault Unit :=
  match ctx.screenProposal m with
  | .error fault => .error fault
  | .ok () =>
    if !ctx.verifyCertificate m.justify then
      .error (.safetyViolation (.justifyWithoutQuorum m.justify.view))
    else if !ctx.application.accepts app m.body.payload.data then
      .error (.safetyViolation (.dataRefused m.view))
    else match state.locked with
      | none => .ok ()
      | some lock =>
        if m.view ≤ lock.view && !extendsLock lock then
          .error (.safetyViolation (.belowLock m.view lock.view))
        else .ok ()

end Context

namespace Handler

variable {γ σ : Type}

def state : Handler γ σ State := return (← get).state

def memory : Handler γ σ γ := return (← get).memory

def update (f : State → State) : Handler γ σ Unit := modify fun t => { t with state := f t.state }

def setMemory (memory : γ) : Handler γ σ Unit := modify fun t => { t with memory := memory }

def ask (effect : Effect) : Handler γ σ Unit :=
  modify fun t => { t with effects := t.effects ++ [effect] }

def lift {α : Type} (result : Except Fault α) : Handler γ σ α :=
  match result with
  | .ok a => pure a
  | .error fault => throw fault

def attempt (action : Handler γ σ Unit) : Handler γ σ Unit :=
  tryCatch action fun _ => pure ()

def resetTimer : Handler γ σ Unit := ask .resetTimer

def write (ctx : Context σ) (kind : MessageKind) (body : Body) : Handler γ σ Letter := do
  let letter ← lift (ctx.build kind body)
  ask (.wrote letter)
  return letter

def send (ctx : Context σ) (receiver : Member) (letter : Letter) : Handler γ σ Unit :=
  if receiver.key = ctx.me then pure () else ask (.send receiver letter)

def broadcast (letter : Letter) : Handler γ σ Unit := ask (.broadcast letter)

def postpone (task : Task) : Handler γ σ Unit := do
  ask (.postpone (← state).view task)

def deliver (ctx : Context σ) (view : View) (payload : Payload) : Handler γ σ Unit := do
  modify fun t =>
    { t with
      state := { t.state with decided := t.state.decided + 1 }
      app := ctx.application.deliver t.app view payload }
  ask (.deliver view payload)

def produce (ctx : Context σ) : Handler γ σ Bytes := do
  let (result, app) := ctx.application.produce (← get).app
  modify fun t => { t with app := app }
  match result with
  | .ok data => pure data
  | .error fault => throw (.application fault)

/-- Logs a NewView for the current view or one within the window. Returns whether it was logged
now. -/
def acceptNewView (ctx : Context σ) (m : SignedBody) : Handler γ σ Bool := do
  let s ← state
  if m.view < s.view then
    return false
  if !s.inWindow m.view then
    throw (.viewOutOfRange (.newView m.view m.signer s.view))
  if 0 < m.justify.view && !ctx.verifyCertificate m.justify then
    throw (.badSignature (.newViewJustify m.justify.view m.signer))
  update fun s => { s with newViews := s.newViews.insert m }
  return s.newViews.accepts m

/-- The first of the messages whose certificate has the highest view. -/
def highest (best : SignedBody) (rest : List SignedBody) : SignedBody :=
  rest.foldl (fun best m => if best.justify.view < m.justify.view then m else best) best

def startingVotes (ctx : Context σ) (payload : Payload) (collected : List SignedBody) : List Vote :=
  let isValid := ctx.committee.isValidVote ctx.scheme (payload.hash ctx.scheme)
  collected.flatMap fun m => m.justify.votes.filter isValid ++ [m.vote].filter isValid

/-- Takes the highest certificate from a quorum of NewViews for the current view and drops these. A
certificate of view 0 gains the valid votes of all senders and the core's own. -/
def takeHighCertificate (ctx : Context σ) : Handler γ σ (Option (Certificate × Digest)) := do
  let s ← state
  let collected := s.newViews.forView s.view
  match collected with
  | [] => return none
  | first :: rest =>
    if !ctx.committee.isQuorum collected.length then
      return none
    let best := highest first rest
    let held := best.justify
    let qc ←
      if held.view = 0 then do
        let voted := held.addVotes (startingVotes ctx held.payload collected)
        let own ← lift (ctx.ownVote held.payload)
        pure (voted.addVote own)
      else pure held
    update fun s => { s with newViews := s.newViews.removeView s.view }
    return some (qc, best.body.parentId)

def newRound (openRound : Handler γ σ Unit) : Handler γ σ Unit := do
  update State.resetRound
  attempt openRound

def advanceTo (openRound : Handler γ σ Unit) (view : View) : Handler γ σ Unit := do
  update fun s => { s with view := view, phase := .newView }
  resetTimer
  newRound openRound

end Handler

structure Protocol (γ σ : Type) where
  openRound : Handler γ σ Unit
  onNewView : SignedBody → Handler γ σ Unit
  onVote : SignedBody → Handler γ σ Unit
  onProposal : MessageKind → SignedBody → Handler γ σ Unit

end Concord.Core
