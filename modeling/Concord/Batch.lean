import Concord.Core.Turn
import Concord.Metrics

/-!
An application that orders opaque items in batches. A proposal carries the front of the queue of
waiting items, and an item leaves the queue only when a batch with it is final.
-/

namespace Concord

open Wire Concord.Core

structure Batch where
  items : List Bytes
deriving DecidableEq, Inhabited

namespace Batch

def codec : Codec Batch := (Codec.list Codec.bytes).map Batch.mk Batch.items

def encode (b : Batch) : Bytes := codec.encode b

/-- A payload without data is read as an empty batch. -/
def decode? (b : Bytes) : Option Batch :=
  if b = [] then some ⟨[]⟩ else (codec.read b).toOption

end Batch

structure CommittedBatch where
  view : View
  parent : Digest
  batch : Batch
deriving DecidableEq, Inhabited

structure BatchQueue where
  pending : List Bytes
  recent : List CommittedBatch
  maxItems : Nat
  capacity : Nat
  metrics : Option Metrics

namespace BatchQueue

def initial (maxItems capacity : Nat) (metrics : Option Metrics) : BatchQueue :=
  ⟨[], [], maxItems, capacity, metrics⟩

def count (q : BatchQueue) (f : Metrics → Metrics) : BatchQueue :=
  { q with metrics := q.metrics.map f }

def gaugeOf (pending : List Bytes) : Int64 := Int64.ofNat pending.length

def submit (q : BatchQueue) (item : Bytes) : BatchQueue :=
  let pending := q.pending ++ [item]
  { q with pending := pending }.count fun m =>
    { m with submitted := m.submitted + 1, pendingItems := gaugeOf pending }

def propose (q : BatchQueue) : Bytes := Batch.encode ⟨q.pending.take q.maxItems⟩

/-- Drops the first waiting copy of each item. -/
def retire (pending items : List Bytes) : List Bytes := items.foldl List.erase pending

def remember (capacity : Nat) (recent : List CommittedBatch) (entry : CommittedBatch) :
    List CommittedBatch :=
  if capacity = 0 then recent
  else if capacity ≤ recent.length then recent.tail ++ [entry]
  else recent ++ [entry]

def decide (q : BatchQueue) (view : View) (payload : Payload) : BatchQueue :=
  match Batch.decode? payload.data with
  | none => q
  | some batch =>
    let pending := retire q.pending batch.items
    { q with
      pending := pending
      recent := remember q.capacity q.recent ⟨view, payload.parent, batch⟩ }.count fun m =>
      { m with
        decided := m.decided + 1
        batchItems := m.batchItems.observe batch.items.length
        pendingItems := gaugeOf pending }

def application : Application BatchQueue where
  produce q := (.ok q.propose, q)
  accepts _ data := (Batch.decode? data).isSome
  deliver := decide

end BatchQueue

end Concord
