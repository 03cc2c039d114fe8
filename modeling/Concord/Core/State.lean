import Concord.Core.MessageLog
import Concord.Core.Fault

/-!
The state of a core that both protocols share.
-/

namespace Concord.Core

inductive Status
  | init
  | running
  | stopped
deriving DecidableEq, Repr, Inhabited

def Status.name : Status → String
  | init => "Init"
  | running => "Running"
  | stopped => "Stopped"

/-- How many views ahead of the core a NewView or a vote may be. -/
def viewWindow : Nat := 64

def nextView (view : View) : Except Fault View :=
  match view.next? with
  | some next => .ok next
  | none => .error (.viewOutOfRange (.noNext view))

structure State where
  view : View
  phase : Phase
  status : Status
  newViews : MessageLog
  votes : MessageLog
  prepared : Option Certificate
  locked : Option Certificate
  proposal : Option Body
  /-- The number of deliveries. Their views strictly increase, so it fits into 64 bits unless every
  view has a delivery. -/
  decided : Nat
deriving DecidableEq

namespace State

def initial : State := ⟨0, .newView, .init, .empty, .empty, none, none, none, 0⟩

def highCertificate (s : State) : Certificate := s.prepared.getD Certificate.genesis

/-- Whether the view of `qc` is no lower than that of the lock. -/
def canLock (s : State) (qc : Certificate) : Bool :=
  match s.locked with
  | some held => held.view ≤ qc.view
  | none => true

def lock (s : State) (qc : Certificate) : State :=
  if s.canLock qc then { s with locked := some qc } else s

@[simp] theorem lock_view (s : State) (qc : Certificate) : (s.lock qc).view = s.view := by
  unfold lock
  split <;> rfl

@[simp] theorem lock_phase (s : State) (qc : Certificate) : (s.lock qc).phase = s.phase := by
  unfold lock
  split <;> rfl

@[simp] theorem lock_status (s : State) (qc : Certificate) : (s.lock qc).status = s.status := by
  unfold lock
  split <;> rfl

@[simp] theorem lock_newViews (s : State) (qc : Certificate) : (s.lock qc).newViews = s.newViews := by
  unfold lock
  split <;> rfl

@[simp] theorem lock_votes (s : State) (qc : Certificate) : (s.lock qc).votes = s.votes := by
  unfold lock
  split <;> rfl

@[simp] theorem lock_prepared (s : State) (qc : Certificate) : (s.lock qc).prepared = s.prepared := by
  unfold lock
  split <;> rfl

@[simp] theorem lock_proposal (s : State) (qc : Certificate) : (s.lock qc).proposal = s.proposal := by
  unfold lock
  split <;> rfl

@[simp] theorem lock_decided (s : State) (qc : Certificate) : (s.lock qc).decided = s.decided := by
  unfold lock
  split <;> rfl

/-- Drops the messages of earlier views, and the proposal. -/
def resetRound (s : State) : State :=
  { s with
    newViews := s.newViews.retainFrom s.view
    votes := s.votes.retainFrom s.view
    proposal := none }

def inWindow (s : State) (view : View) : Bool := view ≤ s.view.plus viewWindow

end State

end Concord.Core
