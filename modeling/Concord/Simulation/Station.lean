import Concord.Batch
import Concord.Core.Step
import Concord.Simulation.Outbox
import Concord.Simulation.Scripted

/-!
A core with a clock of its own, a network that records, and an application. The clock counts whole
milliseconds and stands still unless it is moved; whatever falls due on the way happens at its
time, the earliest first.
-/

namespace Concord.Simulation

open Concord.Core Crypto

inductive Workload
  | scripted (s : Scripted)
  | batches (q : BatchQueue)

structure Bench where
  workload : Workload
  failBuild : Bool

def Bench.application : Application Bench where
  produce b :=
    if b.failBuild then (.error (.build "scripted failure"), b)
    else match b.workload with
      | .scripted s =>
        let (result, s) := Scripted.application.produce s
        (result, { b with workload := .scripted s })
      | .batches q =>
        let (result, q) := BatchQueue.application.produce q
        (result, { b with workload := .batches q })
  accepts b data :=
    match b.workload with
    | .scripted s => Scripted.application.accepts s data
    | .batches q => BatchQueue.application.accepts q data
  deliver b view payload :=
    match b.workload with
    | .scripted s => { b with workload := .scripted (Scripted.application.deliver s view payload) }
    | .batches q => { b with workload := .batches (BatchQueue.application.deliver q view payload) }

structure Appointment where
  due : Nat
  view : View
  task : Task

structure Station where
  settings : Settings
  context : Context Bench
  machine : Machine settings.variant Bench
  now : Nat
  deadline : Option Nat
  appointments : List Appointment
  nextPoll : Option Nat
  outbox : Outbox
  delivered : List (View × Payload)

namespace Station

def perform (s : Station) : Effect → Station
  | .send receiver letter => { s with outbox := (s.outbox.send receiver letter.envelope).2 }
  | .broadcast letter =>
    let others := s.settings.members.filter fun m => m.key ≠ s.context.me
    { s with outbox := others.foldl (fun o m => (o.send m letter.envelope).2) s.outbox }
  | .resetTimer => { s with deadline := some (s.now + s.settings.timeout) }
  | .postpone view task =>
    { s with appointments := s.appointments ++ [⟨s.now + s.settings.interval, view, task⟩] }
  | .wrote _ | .certified _ => s
  | .deliver view payload => { s with delivered := s.delivered ++ [(view, payload)] }

def input (s : Station) (i : Input) : Except Fault Unit × Station :=
  let outcome := s.machine.step s.context i
  (outcome.result, outcome.effects.foldl perform { s with machine := outcome.machine })

def shutdown (s : Station) : Station :=
  { (s.input .shutdown).2 with deadline := none, appointments := [], nextPoll := none }

/-- Begins if all other members are online, and polls again later if not. -/
def poll (s : Station) : Station :=
  let missing := s.settings.members.any fun m =>
    m.key ≠ s.context.me && !s.outbox.isOnline m.key
  if missing then { s with nextPoll := some (s.now + s.settings.checkInterval) }
  else ({ s with nextPoll := none }.input .begin).2

/-- The appointment due first; of several, the one made first. -/
def firstAppointment : List Appointment → Option Appointment
  | [] => none
  | a :: rest =>
    match firstAppointment rest with
    | some b => some (if b.due < a.due then b else a)
    | none => some a

inductive Event
  | deadline
  | poll
  | appointment (a : Appointment)

def nextEvent (s : Station) : Option (Nat × Event) :=
  let earlier : Option (Nat × Event) → Option (Nat × Event) → Option (Nat × Event)
    | some a, some b => some (if b.1 < a.1 then b else a)
    | some a, none => some a
    | none, b => b
  let appointment := (firstAppointment s.appointments).map fun a => (a.due, Event.appointment a)
  earlier (s.deadline.map fun t => (t, .deadline))
    (earlier appointment (s.nextPoll.map fun t => (t, .poll)))

def drop (due : Nat) : List Appointment → List Appointment
  | [] => []
  | a :: rest => if a.due = due then rest else a :: drop due rest

def happen (s : Station) : Event → Station
  | .deadline => ({ s with deadline := none }.input .timeout).2
  | .poll => s.poll
  | .appointment a =>
    ({ s with appointments := drop a.due s.appointments }.input (.due a.view a.task)).2

def settle (s : Station) (stop : Nat) : (count : Nat) → Station
  | 0 => s
  | count + 1 =>
    match s.nextEvent with
    | some (time, event) =>
      if time ≤ stop then settle ({ s with now := time }.happen event) stop count else s
    | none => s

/-- Moves the clock. In each millisecond there is at most one timeout or poll, with at most two
appointments, so the bound on the number of events is never reached. -/
def advance (s : Station) (milliseconds : Nat) : Station :=
  let stop := s.now + milliseconds
  { s.settle stop (8 * (milliseconds + s.appointments.length + 4)) with now := stop }

def act (s : Station) (i : Input) : Except Fault Unit × Station :=
  let (result, s) := s.input i
  (result, s.advance 0)

/-- A station at time 0. With `start` it polls the members until it can begin. -/
def create (signer : Signer) (settings : Settings) (workload : Workload)
    (offline : List PublicKey) (start : Bool) : Except SettingsFault Station :=
  match Context.ofSettings Scheme.standard signer Bench.application settings with
  | .error fault => .error fault
  | .ok context =>
    let s : Station :=
      { settings := settings
        context := context
        machine := Machine.initial Scheme.standard settings.variant ⟨workload, false⟩
        now := 0
        deadline := none
        appointments := []
        nextPoll := if start then some 0 else none
        outbox := offline.foldl (fun o key => o.setOnline key false)
          (Outbox.initial settings.members)
        delivered := [] }
    .ok (s.advance 0)

def onBench (s : Station) (f : Bench → Bench) : Station :=
  { s with machine := { s.machine with app := f s.machine.app } }

def onScript (s : Station) (f : Scripted → Scripted) : Station :=
  s.onBench fun b => match b.workload with
    | .scripted script => { b with workload := .scripted (f script) }
    | .batches _ => b

def onQueue (s : Station) (f : BatchQueue → BatchQueue) : Station :=
  s.onBench fun b => match b.workload with
    | .scripted _ => b
    | .batches q => { b with workload := .batches (f q) }

def onOutbox (s : Station) (f : Outbox → Outbox) : Station := { s with outbox := f s.outbox }

def collect (s : Station) : List (Member × Envelope) × List (View × Payload) × Station :=
  let (sent, outbox) := s.outbox.take
  (sent, s.delivered, { s with outbox := outbox, delivered := [] })

end Station

end Concord.Simulation
