import Concord.Transport.Fault

/-!
A network that records the messages that it is asked to send. Which members count as online, and
whether sending fails, can be set.
-/

namespace Concord.Simulation

structure Outbox where
  members : List Member
  sent : List (Member × Envelope)
  offline : List PublicKey
  failing : Bool
deriving DecidableEq

namespace Outbox

def initial (members : List Member) : Outbox := ⟨members, [], [], false⟩

def setOnline (o : Outbox) (key : PublicKey) (online : Bool) : Outbox :=
  let others := o.offline.filter (· ≠ key)
  { o with offline := if online then others else key :: others }

def isOnline (o : Outbox) (key : PublicKey) : Bool := !o.offline.contains key

def linked (o : Outbox) : List Member := o.members.filter fun m => o.isOnline m.key

def send (o : Outbox) (receiver : Member) (envelope : Envelope) :
    Except Transport.Fault (Option Envelope) × Outbox :=
  if o.failing then
    (.error (.unreachable receiver.address "null network configured to fail"), o)
  else (.ok none, { o with sent := o.sent ++ [(receiver, envelope)] })

def sentOfKind (o : Outbox) (kind : MessageKind) : List (Member × Envelope) :=
  o.sent.filter fun m => m.2.kind = kind

def take (o : Outbox) : List (Member × Envelope) × Outbox := (o.sent, { o with sent := [] })

def reset (o : Outbox) : Outbox := initial o.members

/-- Messages with their receivers. A message that is sent several times in a row comes once. -/
def grouped : List (Member × Envelope) → List (List Member × Envelope)
  | [] => []
  | (receiver, envelope) :: rest =>
    match grouped rest with
    | (others, next) :: more =>
      if envelope = next then (receiver :: others, next) :: more
      else ([receiver], envelope) :: (others, next) :: more
    | [] => [([receiver], envelope)]

end Outbox

end Concord.Simulation
