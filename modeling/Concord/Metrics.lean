import Concord.Decimal.Shortest

/-!
What a node counts, and the text in which it reports its counts to a collector.
-/

namespace Concord

/-- The number of observations up to each bound, and the sum of all as a binary64 number. -/
structure Histogram where
  bounds : List Nat
  /-- For each bound, the observations above the bound before it. -/
  counts : List UInt64
  count : UInt64
  sum : Nat

namespace Histogram

def doubling (n : Nat) : Histogram :=
  let bounds := (List.range n).map fun i => Nat.shiftLeft 1 i
  ⟨bounds, bounds.map fun _ => 0, 0, 0⟩

def place (value : Nat) : List Nat → List UInt64 → List UInt64
  | bound :: bounds, count :: counts =>
    if value ≤ bound then (count + 1) :: counts else count :: place value bounds counts
  | _, counts => counts

def observe (h : Histogram) (value : Nat) : Histogram :=
  let value := Decimal.Binary64.nearest value
  { h with
    counts := place value h.bounds h.counts
    count := h.count + 1
    sum := Decimal.Binary64.add h.sum value }

def runningTotals (total : UInt64) : List UInt64 → List UInt64
  | [] => []
  | count :: counts => (total + count) :: runningTotals (total + count) counts

end Histogram

structure Metrics where
  received : UInt64
  rejected : UInt64
  decided : UInt64
  submitted : UInt64
  currentView : Int64
  peersOnline : Int64
  pendingItems : Int64
  batchItems : Histogram

namespace Metrics

def initial : Metrics := ⟨0, 0, 0, 0, 0, 0, 0, Histogram.doubling 10⟩

def sample (name labels : String) (value : Int) : String :=
  name ++ labels ++ " " ++ Decimal.Shortest.text value ++ "\n"

def header (name help kind : String) : String :=
  "# HELP " ++ name ++ " " ++ help ++ "\n# TYPE " ++ name ++ " " ++ kind ++ "\n"

def counter (name help : String) (value : UInt64) : String :=
  header name help "counter" ++ sample name "" value.toNat

def gauge (name help : String) (value : Int64) : String :=
  header name help "gauge" ++ sample name "" value.toInt

def bucketLabel (bound : String) : String := "\x7ble=\"" ++ bound ++ "\"\x7d"

def histogram (name help : String) (h : Histogram) : String :=
  let buckets := (h.bounds.zip (Histogram.runningTotals 0 h.counts)).map fun (bound, count) =>
    sample (name ++ "_bucket") (bucketLabel (toString bound)) count.toNat
  header name help "histogram" ++ String.join buckets ++
    sample (name ++ "_bucket") (bucketLabel "+Inf") h.count.toNat ++
    sample (name ++ "_sum") "" h.sum ++ sample (name ++ "_count") "" h.count.toNat

def text (m : Metrics) : String :=
  String.join [
    histogram "hotstuff_batch_items" "Items per decided batch" m.batchItems,
    gauge "hotstuff_current_view" "Current consensus view" m.currentView,
    counter "hotstuff_items_submitted_total" "Items submitted to the local batch queue" m.submitted,
    counter "hotstuff_messages_received_total" "Consensus messages received from other members"
      m.received,
    counter "hotstuff_messages_rejected_total" "Consensus messages rejected by the core" m.rejected,
    counter "hotstuff_payloads_decided_total" "Payloads finalized by this member" m.decided,
    gauge "hotstuff_peers_online" "Members that answered the last probe" m.peersOnline,
    gauge "hotstuff_pending_items" "Items waiting to be proposed" m.pendingItems]

end Metrics

end Concord
