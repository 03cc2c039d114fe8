import Concord.Simulation.Station

/-!
Several stations and one queue of messages on their way between them. Messages can be dropped by
rule, lost at members that are down, turned about and doubled.
-/

namespace Concord.Simulation

open Concord.Core

structure Mail where
  sender : Nat
  receiver : Nat
  envelope : Envelope

/-- Drops the messages that match. A field that is left open matches any. -/
structure DropRule where
  sender : Option Nat
  receiver : Option Nat
  kind : Option MessageKind

def DropRule.applies (r : DropRule) (m : Mail) : Bool :=
  r.sender.all (· = m.sender) && r.receiver.all (· = m.receiver) &&
    r.kind.all (· = m.envelope.kind)

inductive Arrival
  | dropped
  | accepted
  | refused (fault : Fault)

def Mail.report (m : Mail) (arrival : Arrival) : String :=
  let route := s!"{m.sender}>{m.receiver} {m.envelope.kind.text} "
  let subject := match m.envelope.open? with
    | .ok b => s!"{b.view} {b.phase.text}"
    | .error _ => ""
  match arrival with
  | .dropped => route ++ "dropped"
  | .accepted => route ++ subject
  | .refused fault => route ++ subject ++ " " ++ fault.kind

structure Cluster where
  stations : List Station
  queue : List Mail
  down : List Nat
  rules : List DropRule
  unreported : List (List (View × Payload))

namespace Cluster

def ofStations (stations : List Station) : Cluster :=
  ⟨stations, [], [], [], stations.map fun _ => []⟩

def mailOf (stations : List Station) (sender : Nat) (sent : List (Member × Envelope)) : List Mail :=
  sent.filterMap fun (member, envelope) =>
    (stations.findIdx? fun s => s.context.me = member.key).map fun receiver =>
      ⟨sender, receiver, envelope⟩

def collect (c : Cluster) : Cluster :=
  let collected := c.stations.map Station.collect
  { c with
    stations := collected.map fun x => x.2.2
    queue := c.queue ++ (collected.zipIdx.flatMap fun (x, i) => mailOf c.stations i x.1)
    unreported := List.zipWith (fun old x => old ++ x.2.1) c.unreported collected }

def change (c : Cluster) (i : Nat) (f : Station → Station) : Cluster :=
  { c with stations := c.stations.modify i f }

def isDown (c : Cluster) (i : Nat) : Bool := c.down.contains i

def setDown (c : Cluster) (i : Nat) (down : Bool) : Cluster :=
  let others := c.down.filter (· ≠ i)
  { c with down := if down then i :: others else others }

def beginAll (c : Cluster) : Cluster :=
  let stations := c.stations.zipIdx.map fun (s, i) => if c.isDown i then s else (s.act .begin).2
  { c with stations := stations }.collect

def deliverOne (c : Cluster) (m : Mail) : Arrival × Cluster :=
  if c.isDown m.sender || c.isDown m.receiver || c.rules.any (·.applies m) then (.dropped, c)
  else match c.stations[m.receiver]? with
    | none => (.dropped, c)
    | some s =>
      let (result, s) := s.act (.feed m.envelope)
      let c := { c with stations := c.stations.set m.receiver s }.collect
      match result with
      | .ok _ => (.accepted, c)
      | .error fault => (.refused fault, c)

def deliver (c : Cluster) : (count : Nat) → List (Mail × Arrival) × Cluster
  | 0 => ([], c)
  | count + 1 =>
    match c.queue with
    | [] => ([], c)
    | m :: rest =>
      let (arrival, c) := { c with queue := rest }.deliverOne m
      let (others, c) := deliver c count
      ((m, arrival) :: others, c)

def advance (c : Cluster) (milliseconds : Nat) : Cluster :=
  let stations := c.stations.map fun s => s.advance milliseconds
  { c with stations := stations }.collect

/-- Delivers up to a thousand messages and lets time pass, round by round. -/
def run (c : Cluster) (milliseconds : Nat) : (rounds : Nat) → List (Mail × Arrival) × Cluster
  | 0 => ([], c)
  | rounds + 1 =>
    let (arrivals, c) := c.deliver 1000
    let (others, c) := run (c.advance milliseconds) milliseconds rounds
    (arrivals ++ others, c)

end Cluster

end Concord.Simulation
