import Concord.Core.Turn

/-!
A scripted application. It proposes the data that was queued for it, or else a text with a running
number, and records what becomes final.
-/

namespace Concord.Simulation

open Concord.Core

structure Scripted where
  queued : List Bytes
  produced : Nat
  refusesAll : Bool
  delivered : List (View × Payload)
deriving DecidableEq

namespace Scripted

def initial : Scripted := ⟨[], 0, false, []⟩

def enqueue (s : Scripted) (data : Bytes) : Scripted := { s with queued := s.queued ++ [data] }

def propose (s : Scripted) : Bytes × Scripted :=
  let s' := { s with produced := s.produced + 1 }
  match s.queued with
  | data :: rest => (data, { s' with queued := rest })
  | [] => (Text.Utf8.encode s!"batch-{s.produced}", s')

def application : Application Scripted where
  produce s := (.ok s.propose.1, s.propose.2)
  accepts s _ := !s.refusesAll
  deliver s view payload := { s with delivered := s.delivered ++ [(view, payload)] }

end Scripted

end Concord.Simulation
