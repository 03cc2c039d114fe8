import Concord.Core.Basic
import Concord.Core.Chained

/-!
A core as a machine that takes one input at a time and returns a new core, a result and its effects.
Time is not modelled: that the timer fires and that a postponed task is due are inputs.
-/

namespace Concord.Core

open Crypto

def Memory : Variant → Type
  | .basic => Unit
  | .chained => Chain

def Memory.initial (scheme : Scheme) : (v : Variant) → Memory v
  | .basic => ()
  | .chained => Chain.initial scheme

def protocolOf {σ : Type} (ctx : Context σ) : (v : Variant) → Protocol (Memory v) σ
  | .basic => Basic.protocol ctx
  | .chained => Chained.protocol ctx

inductive Input
  | begin
  | feed (envelope : Envelope)
  /-- The current view has lasted for the whole timeout. -/
  | timeout
  /-- A task that was put off in `view` is due. -/
  | due (view : View) (task : Task)
  | shutdown
deriving DecidableEq

structure Machine (v : Variant) (σ : Type) where
  state : State
  memory : Memory v
  app : σ

structure Outcome (v : Variant) (σ : Type) where
  machine : Machine v σ
  result : Except Fault Unit
  effects : List Effect

/-- The checks that need no state: the envelope is of this protocol and readable, its kind suits its
phase, and a member has signed it. -/
def Context.receive {σ : Type} (ctx : Context σ) (envelope : Envelope) : Except Fault SignedBody :=
  match envelope.checkProtocol with
  | .error fault => .error (.protocolMismatch (.envelope fault))
  | .ok () =>
    match envelope.open? with
    | .error fault => .error (.unusable fault)
    | .ok m =>
      if envelope.kind.isProposal && m.phase.kind? ≠ some envelope.kind then
        .error (.protocolMismatch (.otherPhase envelope.kind m.phase))
      else if !ctx.committee.contains m.signer then .error (.unknownSender m.signer)
      else if !m.verify ctx.scheme m.signer then
        .error (.badSignature (.sender envelope.kind m.signer))
      else .ok m

namespace Machine

variable {v : Variant} {σ : Type}

def initial (scheme : Scheme) (v : Variant) (app : σ) : Machine v σ :=
  ⟨State.initial, Memory.initial scheme v, app⟩

def run (c : Machine v σ) (handler : Handler (Memory v) σ Unit) : Outcome v σ :=
  let (result, turn) := StateT.run (ExceptT.run handler) ⟨c.state, c.memory, c.app, []⟩
  ⟨⟨turn.state, turn.memory, turn.app⟩, result, turn.effects⟩

def ignore (c : Machine v σ) : Outcome v σ := ⟨c, .ok (), []⟩

def refuse (c : Machine v σ) (fault : Fault) : Outcome v σ := ⟨c, .error fault, []⟩

def withStatus (c : Machine v σ) (status : Status) : Machine v σ :=
  { c with state := { c.state with status := status } }

def nextRound (ctx : Context σ) (c : Machine v σ) : Outcome v σ :=
  match c.state.view.next? with
  | some next => c.run (Handler.advanceTo (protocolOf ctx v).openRound next)
  | none => c.ignore

def dispatch (ctx : Context σ) (kind : MessageKind) (m : SignedBody) : Handler (Memory v) σ Unit :=
  match kind with
  | .newView => (protocolOf ctx v).onNewView m
  | .vote => (protocolOf ctx v).onVote m
  | kind => (protocolOf ctx v).onProposal kind m

def step (ctx : Context σ) (c : Machine v σ) : Input → Outcome v σ
  | .begin =>
    match c.state.status with
    | .running => c.ignore
    | .stopped => c.refuse .notRunning
    | .init =>
      (c.withStatus .running).run do
        Handler.resetTimer
        Handler.newRound (protocolOf ctx v).openRound
  | .feed envelope =>
    match ctx.receive envelope with
    | .error fault => c.refuse fault
    | .ok m =>
      if c.state.status = .running then c.run (dispatch ctx envelope.kind m)
      else c.refuse .notRunning
  | .timeout => if c.state.status = .running then c.nextRound ctx else c.ignore
  | .due view task =>
    if c.state.status = .running ∧ c.state.view = view then
      match task with
      | .send receiver letter => c.run (Handler.send ctx receiver letter)
      | .nextRound => c.nextRound ctx
    else c.ignore
  | .shutdown => (c.withStatus .stopped).ignore

end Machine

def Context.ofSettings {σ : Type} (scheme : Scheme) (signer : Signer) (application : Application σ)
    (settings : Settings) : Except SettingsFault (Context σ) :=
  match settings.check signer.key with
  | .error fault => .error fault
  | .ok () =>
    match Committee.ofMembers scheme settings.members with
    | .error fault => .error fault
    | .ok committee => .ok ⟨scheme, signer, committee, application⟩

end Concord.Core
