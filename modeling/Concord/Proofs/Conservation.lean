import Concord.Batch
import Concord.Proofs.Codec
import Mathlib.Data.List.DropRight

/-!
The items of the batch queue. A ledger records the calls alone: an item that is submitted waits at
the end, and each item of a final batch removes its earliest waiting copy. Every submitted item
waits, in the order of submission, or is retired.
-/

namespace Concord

open Wire Concord.Core

namespace Batch

def Fits (b : Batch) : Prop :=
  b.items.length < Codec.countable ∧ ∀ item ∈ b.items, item.length < Codec.countable

theorem exact_codec : Batch.codec.Exact Fits :=
  Codec.exact_bytes.list.map (fun _ => rfl) fun _ => rfl

theorem decode?_encode {b : Batch} (h : b.Fits) : decode? b.encode = some b := by
  have hread : codec.read b.encode = .ok b := exact_codec.read h
  have hne : b.encode ≠ [] := by
    intro hnil
    rw [hnil] at hread
    cases hread
  rw [decode?, if_neg hne, hread]
  rfl

end Batch

namespace BatchQueue

/-- What is asked of a queue. -/
inductive Call
  | submit (item : Bytes)
  | propose
  | verify (data : Bytes)
  | decide (view : View) (payload : Payload)

def call (q : BatchQueue) : Call → BatchQueue
  | .submit item => q.submit item
  | .propose => (application.produce q).2
  | .verify _ => q
  | .decide view payload => application.deliver q view payload

def run (q : BatchQueue) (calls : List Call) : BatchQueue := calls.foldl call q

def Call.item? : Call → Option Bytes
  | .submit item => some item
  | _ => none

def Call.batch? : Call → Option CommittedBatch
  | .decide view payload =>
    (Batch.decode? payload.data).map fun batch => ⟨view, payload.parent, batch⟩
  | _ => none

def submitted (calls : List Call) : List Bytes := calls.filterMap Call.item?

def committed (calls : List Call) : List CommittedBatch := calls.filterMap Call.batch?

/-- `after` is `before` without the earliest copy of `item`, and `out` is that copy, if there is
one. -/
inductive Taken (item : Bytes) : (before after out : List Bytes) → Prop
  | absent {items : List Bytes} : item ∉ items → Taken item items items []
  | earliest {front back : List Bytes} : item ∉ front →
      Taken item (front ++ item :: back) (front ++ back) [item]

inductive Cleared : (items before after out : List Bytes) → Prop
  | nil {waiting : List Bytes} : Cleared [] waiting waiting []
  | cons {item : Bytes} {rest before between after out out' : List Bytes} :
      Taken item before between out → Cleared rest between after out' →
      Cleared (item :: rest) before after (out ++ out')

/-- The items submitted, and those of them that wait and that a final batch has retired. -/
structure Ledger where
  submitted : List Bytes
  waiting : List Bytes
  retired : List Bytes

namespace Ledger

def blank : Ledger := ⟨[], [], []⟩

/-- How a call changes the ledger. -/
inductive Entry : Ledger → Call → Ledger → Prop
  | submit {b : Ledger} {item : Bytes} :
      Entry b (.submit item) ⟨b.submitted ++ [item], b.waiting ++ [item], b.retired⟩
  | propose {b : Ledger} : Entry b .propose b
  | verify {b : Ledger} {data : Bytes} : Entry b (.verify data) b
  | pass {b : Ledger} {view : View} {payload : Payload} :
      Batch.decode? payload.data = none → Entry b (.decide view payload) b
  | retire {b : Ledger} {view : View} {payload : Payload} {batch : Batch}
      {waiting out : List Bytes} : Batch.decode? payload.data = some batch →
      Cleared batch.items b.waiting waiting out →
      Entry b (.decide view payload) ⟨b.submitted, waiting, b.retired ++ out⟩

inductive Kept : Ledger → List Call → Ledger → Prop
  | nil {b : Ledger} : Kept b [] b
  | cons {b b' b'' : Ledger} {c : Call} {rest : List Call} :
      Entry b c b' → Kept b' rest b'' → Kept b (c :: rest) b''

/-- The waiting items are in the order of submission, and together with the retired ones they are
all that were submitted. -/
structure Balanced (b : Ledger) : Prop where
  sublist : b.waiting.Sublist b.submitted
  perm : (b.waiting ++ b.retired).Perm b.submitted

end Ledger

section Taking

theorem perm_append_swap (a b c : List Bytes) : (a ++ b ++ c).Perm (a ++ c ++ b) := by
  rw [List.append_assoc, List.append_assoc]
  exact List.perm_append_comm.append_left a

variable {item : Bytes} {items before after out : List Bytes}

theorem Taken.eq_erase (h : Taken item before after out) : after = before.erase item := by
  cases h with
  | absent hnone => exact (List.erase_of_not_mem hnone).symm
  | earliest hfront => rw [List.erase_append_right _ hfront, List.erase_cons_head]

theorem exists_taken (item : Bytes) (before : List Bytes) :
    ∃ out, Taken item before (before.erase item) out := by
  by_cases hmem : item ∈ before
  · obtain ⟨front, back, hfront, hbefore, hafter⟩ := List.exists_erase_eq hmem
    rw [hafter, hbefore]
    exact ⟨[item], .earliest hfront⟩
  · rw [List.erase_of_not_mem hmem]
    exact ⟨[], .absent hmem⟩

theorem Taken.sublist (h : Taken item before after out) : after.Sublist before := by
  rw [h.eq_erase]
  exact List.erase_sublist

theorem Taken.perm (h : Taken item before after out) : (after ++ out).Perm before := by
  cases h with
  | absent _ => rw [List.append_nil]
  | earliest _ =>
    rw [List.append_assoc]
    exact List.perm_append_singleton _ _ |>.append_left _

theorem Cleared.eq_retire (h : Cleared items before after out) : after = retire before items := by
  induction h with
  | nil => rfl
  | cons htaken _ ih => rw [ih, htaken.eq_erase]; rfl

theorem exists_cleared (items before : List Bytes) :
    ∃ out, Cleared items before (retire before items) out := by
  induction items generalizing before with
  | nil => exact ⟨[], .nil⟩
  | cons item rest ih =>
    obtain ⟨out, htaken⟩ := exists_taken item before
    obtain ⟨out', hcleared⟩ := ih (before.erase item)
    exact ⟨out ++ out', .cons htaken hcleared⟩

theorem Cleared.sublist (h : Cleared items before after out) : after.Sublist before := by
  induction h with
  | nil => exact List.Sublist.refl _
  | cons htaken _ ih => exact ih.trans htaken.sublist

theorem Cleared.perm (h : Cleared items before after out) : (after ++ out).Perm before := by
  induction h with
  | nil => rw [List.append_nil]
  | @cons item rest before between after out out' htaken _ ih =>
    rw [← List.append_assoc]
    have hrest : (after ++ out' ++ out).Perm (between ++ out) := ih.append_right out
    exact (perm_append_swap after out out').trans (hrest.trans htaken.perm)

end Taking

def commit (q : BatchQueue) (entry : CommittedBatch) : BatchQueue :=
  let pending := retire q.pending entry.batch.items
  { q with pending := pending, recent := remember q.capacity q.recent entry }.count fun m =>
    { m with
      decided := m.decided + 1
      batchItems := m.batchItems.observe entry.batch.items.length
      pendingItems := gaugeOf pending }

inductive Does (q : BatchQueue) (c : Call) : BatchQueue → Prop
  | nothing : c.item? = none → c.batch? = none → Does q c q
  | submit (item : Bytes) : c.item? = some item → c.batch? = none → Does q c (q.submit item)
  | commit (entry : CommittedBatch) : c.item? = none → c.batch? = some entry →
      Does q c (q.commit entry)

section Calling

variable {q : BatchQueue} {view : View} {payload : Payload}

theorem decide_of_none (h : Batch.decode? payload.data = none) : q.decide view payload = q := by
  simp only [decide, h]

theorem decide_of_some {batch : Batch} (h : Batch.decode? payload.data = some batch) :
    q.decide view payload = q.commit ⟨view, payload.parent, batch⟩ := by
  simp only [decide, h]
  rfl

theorem does_call (q : BatchQueue) (c : Call) : Does q c (q.call c) := by
  cases c with
  | submit item => exact .submit item rfl rfl
  | propose | verify _ => exact .nothing rfl rfl
  | decide view payload =>
    change Does q _ (q.decide view payload)
    cases hbatch : Batch.decode? payload.data with
    | none =>
      rw [decide_of_none hbatch]
      exact .nothing rfl (by simp [Call.batch?, hbatch])
    | some batch =>
      rw [decide_of_some hbatch]
      exact .commit _ rfl (by simp [Call.batch?, hbatch])

end Calling

namespace Ledger

variable {b b' : Ledger} {c : Call} {calls : List Call} {q : BatchQueue}

theorem Entry.waiting_eq (h : Entry b c b') (hq : b.waiting = q.pending) :
    b'.waiting = (q.call c).pending := by
  cases h with
  | submit => rw [hq]; rfl
  | propose | verify => exact hq
  | @pass view payload hnone =>
    change b.waiting = (q.decide view payload).pending
    rw [decide_of_none hnone, hq]
  | @retire view payload batch waiting out hsome hcleared =>
    -- the books do not say how copies are looked for, so they have to leave the same items
    change waiting = (q.decide view payload).pending
    rw [decide_of_some hsome, hcleared.eq_retire, hq]
    rfl

theorem exists_entry (b : Ledger) (c : Call) : ∃ b', Entry b c b' := by
  cases c with
  | submit item => exact ⟨_, .submit⟩
  | propose => exact ⟨b, .propose⟩
  | verify data => exact ⟨b, .verify⟩
  | decide view payload =>
    cases hbatch : Batch.decode? payload.data with
    | none => exact ⟨b, .pass hbatch⟩
    | some batch =>
      obtain ⟨out, hcleared⟩ := exists_cleared batch.items b.waiting
      exact ⟨_, .retire hbatch hcleared⟩

theorem Entry.submitted_eq (h : Entry b c b') :
    b'.submitted = b.submitted ++ BatchQueue.submitted [c] := by
  cases h with
  | submit => rfl
  | propose | verify | pass _ | retire _ _ => exact (List.append_nil _).symm

theorem Entry.balanced (h : Entry b c b') (hb : b.Balanced) : b'.Balanced := by
  cases h with
  | @submit item =>
    constructor
    · exact hb.sublist.append (List.Sublist.refl _)
    · exact (perm_append_swap b.waiting [item] b.retired).trans (hb.perm.append_right [item])
  | propose | verify | pass _ => exact hb
  | @retire view payload batch waiting out _ hcleared =>
    constructor
    · exact hcleared.sublist.trans hb.sublist
    · change (waiting ++ (b.retired ++ out)).Perm b.submitted
      rw [← List.append_assoc]
      have hwaiting : (waiting ++ out ++ b.retired).Perm (b.waiting ++ b.retired) :=
        hcleared.perm.append_right b.retired
      exact (perm_append_swap waiting b.retired out).trans (hwaiting.trans hb.perm)

theorem Kept.waiting_eq (h : Kept b calls b') (hq : b.waiting = q.pending) :
    b'.waiting = (q.run calls).pending := by
  induction h generalizing q with
  | nil => exact hq
  | cons hentry _ ih => exact ih (hentry.waiting_eq hq)

theorem exists_kept (b : Ledger) (calls : List Call) : ∃ b', Kept b calls b' := by
  induction calls generalizing b with
  | nil => exact ⟨b, .nil⟩
  | cons c rest ih =>
    obtain ⟨between, hentry⟩ := exists_entry b c
    obtain ⟨b', hkept⟩ := ih between
    exact ⟨b', .cons hentry hkept⟩

theorem Kept.submitted_eq (h : Kept b calls b') :
    b'.submitted = b.submitted ++ BatchQueue.submitted calls := by
  induction h with
  | nil => exact (List.append_nil _).symm
  | @cons b between b' c rest hentry _ ih =>
    rw [ih, hentry.submitted_eq, List.append_assoc, BatchQueue.submitted, BatchQueue.submitted,
      ← List.filterMap_append]
    rfl

theorem Kept.balanced (h : Kept b calls b') (hb : b.Balanced) : b'.Balanced := by
  induction h with
  | nil => exact hb
  | cons hentry _ ih => exact ih (hentry.balanced hb)

theorem balanced_blank : blank.Balanced :=
  ⟨List.Sublist.refl _, List.Perm.refl _⟩

end Ledger

section Running

theorem run_append (q : BatchQueue) (calls : List Call) (c : Call) :
    q.run (calls ++ [c]) = (q.run calls).call c := by
  rw [run, List.foldl_append]
  rfl

theorem submitted_append (calls : List Call) (c : Call) :
    submitted (calls ++ [c]) = submitted calls ++ c.item?.toList := by
  cases hitem : c.item? with
  | none => simp [submitted, hitem]
  | some item => simp [submitted, hitem]

theorem committed_append (calls : List Call) (c : Call) :
    committed (calls ++ [c]) = committed calls ++ c.batch?.toList := by
  cases hbatch : c.batch? with
  | none => simp [committed, hbatch]
  | some entry => simp [committed, hbatch]

theorem remember_rtake (capacity : Nat) (past : List CommittedBatch) (entry : CommittedBatch) :
    remember capacity (past.rtake capacity) entry = (past ++ [entry]).rtake capacity := by
  cases capacity with
  | zero => simp [remember]
  | succ n =>
    have hlength : (past.rtake (n + 1)).length = min (n + 1) past.length := by
      rw [List.rtake, List.length_drop]
      omega
    rw [List.rtake_concat_succ, remember, if_neg (Nat.succ_ne_zero n), hlength]
    by_cases hfull : n + 1 ≤ past.length
    · have htail : (past.rtake (n + 1)).tail = past.rtake n := by
        rw [List.rtake, List.tail_drop, List.rtake]
        congr 1
        omega
      have hnone : n + 1 ≤ min (n + 1) past.length := by omega
      rw [if_pos hnone, htail]
    · have hall : past.rtake (n + 1) = past.rtake n := by
        rw [List.rtake, List.rtake]
        congr 1
        omega
      have hroom : ¬ n + 1 ≤ min (n + 1) past.length := by omega
      rw [if_neg hroom, hall]

/-- The metrics of a queue that had `m` before `calls`. -/
structure Tallied (calls : List Call) (q : BatchQueue) (m m' : Metrics) : Prop where
  submitted : m'.submitted = m.submitted + UInt64.ofNat (BatchQueue.submitted calls).length
  decided : m'.decided = m.decided + UInt64.ofNat (BatchQueue.committed calls).length
  pendingItems : BatchQueue.submitted calls ≠ [] ∨ BatchQueue.committed calls ≠ [] →
    m'.pendingItems = gaugeOf q.pending

variable {q q' : BatchQueue} {c : Call} {calls : List Call} {m : Metrics}

theorem Does.sizes (h : Does q c q') : q'.maxItems = q.maxItems ∧ q'.capacity = q.capacity := by
  cases h with
  | nothing _ _ | submit _ _ _ | commit _ _ _ => exact ⟨rfl, rfl⟩

theorem Does.recent (h : Does q c q') (hq : q.recent = (committed calls).rtake q.capacity) :
    q'.recent = (committed (calls ++ [c])).rtake q.capacity := by
  rw [committed_append]
  cases h with
  | nothing _ hbatch | submit _ _ hbatch =>
    rw [hbatch, Option.toList_none, List.append_nil]
    exact hq
  | commit entry _ hbatch =>
    rw [hbatch, Option.toList_some, ← remember_rtake, ← hq]
    rfl

theorem Does.tallied (h : Does q c q') {m' : Metrics} (hm' : q.metrics = some m')
    (htallied : Tallied calls q m m') :
    ∃ m'', q'.metrics = some m'' ∧ Tallied (calls ++ [c]) q' m m'' := by
  cases h with
  | nothing hitem hbatch =>
    refine ⟨m', hm', ?_, ?_, ?_⟩
    · simpa [submitted_append, hitem] using htallied.submitted
    · simpa [committed_append, hbatch] using htallied.decided
    · simpa [submitted_append, committed_append, hitem, hbatch] using htallied.pendingItems
  | submit item hitem hbatch =>
    refine ⟨_, congrArg (Option.map _) hm', ?_, ?_, ?_⟩
    · simp [submitted_append, hitem, htallied.submitted, UInt64.ofNat_add, UInt64.add_assoc]
    · simpa [committed_append, hbatch] using htallied.decided
    · intro _
      rfl
  | commit entry hitem hbatch =>
    refine ⟨_, congrArg (Option.map _) hm', ?_, ?_, ?_⟩
    · simpa [submitted_append, hitem] using htallied.submitted
    · simp [committed_append, hbatch, htallied.decided, UInt64.ofNat_add, UInt64.add_assoc]
    · intro _
      rfl

theorem sizes_run (q : BatchQueue) (calls : List Call) :
    (q.run calls).maxItems = q.maxItems ∧ (q.run calls).capacity = q.capacity := by
  induction calls generalizing q with
  | nil => exact ⟨rfl, rfl⟩
  | cons c rest ih =>
    have hcall := (does_call q c).sizes
    have hrest := ih (q.call c)
    exact ⟨hrest.1.trans hcall.1, hrest.2.trans hcall.2⟩

theorem recent_run (hq : q.recent = []) (calls : List Call) :
    (q.run calls).recent = (committed calls).rtake q.capacity := by
  -- from the end, since what a call remembers goes behind what is remembered already
  induction calls using List.reverseRecOn with
  | nil => exact hq.trans (List.rtake_nil _).symm
  | append_singleton calls c ih =>
    rw [run_append, ← (sizes_run q calls).2]
    rw [← (sizes_run q calls).2] at ih
    exact (does_call _ c).recent ih

theorem tallied_run (hq : q.metrics = some m) (calls : List Call) :
    ∃ m', (q.run calls).metrics = some m' ∧ Tallied calls (q.run calls) m m' := by
  induction calls using List.reverseRecOn with
  | nil => exact ⟨m, hq, by simp [submitted], by simp [committed], by simp [submitted, committed]⟩
  | append_singleton calls c ih =>
    obtain ⟨m', hm', htallied⟩ := ih
    rw [run_append]
    exact (does_call _ c).tallied hm' htallied

theorem toInt_gaugeOf {pending : List Bytes} (h : pending.length < 0x8000000000000000) :
    (gaugeOf pending).toInt = pending.length :=
  Int64.toInt_ofNat_of_lt h

theorem produce_run (q : BatchQueue) (calls : List Call) :
    application.produce (q.run calls) =
      (.ok (Batch.encode ⟨(q.run calls).pending.take q.maxItems⟩), q.run calls) := by
  rw [← (sizes_run q calls).1]
  rfl

theorem accepts_encode (q : BatchQueue) {b : Batch} (h : b.Fits) :
    application.accepts q b.encode := by
  simp only [application, Batch.decode?_encode h, Option.isSome_some]

theorem kept_initial {maxItems capacity : Nat} {metrics : Option Metrics} {calls : List Call}
    {b : Ledger} (h : Ledger.Kept .blank calls b) :
    ((initial maxItems capacity metrics).run calls).pending = b.waiting ∧
      b.waiting.Sublist (submitted calls) ∧
      ∀ item, b.waiting.count item + b.retired.count item = (submitted calls).count item := by
  have hwaiting := h.waiting_eq (q := initial maxItems capacity metrics) rfl
  have hbalanced := h.balanced Ledger.balanced_blank
  have hsubmitted : b.submitted = submitted calls := h.submitted_eq
  rw [← hsubmitted]
  refine ⟨hwaiting.symm, hbalanced.sublist, ?_⟩
  intro item
  rw [← List.count_append]
  exact hbalanced.perm.count_eq item

/-- After any calls, the pending items are those that the ledger has as waiting. They are in the
order of submission, and every item submitted waits or is retired. A proposal is the front of the
queue and is accepted. The batches remembered are the last that became final, and the metrics count
submissions, final batches and pending items. -/
theorem run_accounted (maxItems capacity : Nat) (metrics : Option Metrics) (calls : List Call) :
    let q := (initial maxItems capacity metrics).run calls
    let proposal : Batch := ⟨q.pending.take maxItems⟩
    (∃ b, Ledger.Kept .blank calls b) ∧
    (∀ b, Ledger.Kept .blank calls b → q.pending = b.waiting ∧
      b.waiting.Sublist (submitted calls) ∧
      ∀ item, b.waiting.count item + b.retired.count item = (submitted calls).count item) ∧
    application.produce q = (.ok proposal.encode, q) ∧
    (proposal.Fits → application.accepts q proposal.encode ∧
      Batch.decode? proposal.encode = some proposal) ∧
    q.recent = (committed calls).rtake capacity ∧
    (∀ m, metrics = some m → ∃ m', q.metrics = some m' ∧
      m'.submitted = m.submitted + UInt64.ofNat (submitted calls).length ∧
      m'.decided = m.decided + UInt64.ofNat (committed calls).length ∧
      (submitted calls ≠ [] ∨ committed calls ≠ [] →
        m'.pendingItems = gaugeOf q.pending ∧
        (q.pending.length < 0x8000000000000000 → m'.pendingItems.toInt = q.pending.length))) := by
  have hrecent := recent_run (q := initial maxItems capacity metrics) rfl calls
  have hproduce := produce_run (initial maxItems capacity metrics) calls
  refine ⟨Ledger.exists_kept .blank calls, fun b => kept_initial, hproduce, ?_, hrecent, ?_⟩
  · intro hfits
    exact ⟨accepts_encode _ hfits, Batch.decode?_encode hfits⟩
  · intro m hm
    obtain ⟨m', hm', htallied⟩ := tallied_run (q := initial maxItems capacity metrics) hm calls
    refine ⟨m', hm', htallied.submitted, htallied.decided, ?_⟩
    intro hchanged
    -- Only a submission or a final batch sets the gauge.
    have hgauge := htallied.pendingItems hchanged
    refine ⟨hgauge, ?_⟩
    intro hlength
    rw [hgauge]
    exact toInt_gaugeOf hlength

end Running

section Samples

def sampleBatch : Batch := ⟨[[1], [9]]⟩

/-- Three submissions, of which a final batch takes the first, with an item that nobody submitted;
then a final payload that holds no batch. -/
def sampleCalls : List Call :=
  [.submit [1], .submit [2], .submit [1], .decide 2 ⟨Digest.zero, sampleBatch.encode⟩, .propose,
    .decide 3 ⟨Digest.zero, [7]⟩]

theorem sampleCalls_spec :
    ((initial 1 1 (some Metrics.initial)).run sampleCalls).pending = [[2], [1]] ∧
    submitted sampleCalls = [[1], [2], [1]] ∧
    committed sampleCalls = [⟨2, Digest.zero, sampleBatch⟩] := by
  decide +kernel

theorem run_accounted_of_sampleCalls :
    let q := (initial 1 1 (some Metrics.initial)).run sampleCalls
    (∃ b, Ledger.Kept .blank sampleCalls b ∧ b.waiting = [[2], [1]] ∧ b.retired.count [1] = 1) ∧
    application.produce q = (.ok (Batch.encode ⟨[[2]]⟩), q) ∧
    application.accepts q (Batch.encode ⟨[[2]]⟩) ∧
    q.recent = [⟨2, Digest.zero, sampleBatch⟩] ∧
    ∃ m, q.metrics = some m ∧ m.submitted = 3 ∧ m.decided = 1 ∧ m.pendingItems.toInt = 2 := by
  obtain ⟨hpending, hsubmitted, hcommitted⟩ := sampleCalls_spec
  obtain ⟨⟨b, hkept⟩, hbooks, hproduce, haccepts, hrecent, hmetrics⟩ :=
    run_accounted 1 1 (some Metrics.initial) sampleCalls
  obtain ⟨hwaiting, -, hcount⟩ := hbooks b hkept
  obtain ⟨m, hm, hmsubmitted, hmdecided, hgauge⟩ := hmetrics _ rfl
  have hfits : (Batch.mk [[2]]).Fits := by
    constructor
    · decide
    · decide
  rw [hpending] at hwaiting hproduce haccepts hgauge
  rw [hsubmitted] at hcount hmsubmitted hgauge
  rw [hcommitted] at hrecent hmdecided
  refine ⟨⟨b, hkept, hwaiting.symm, ?_⟩, hproduce, (haccepts hfits).1, hrecent, m, hm, hmsubmitted,
    hmdecided, ?_⟩
  · have hone := hcount [1]
    rw [← hwaiting] at hone
    change 1 + b.retired.count [1] = 2 at hone
    omega
  · exact (hgauge (.inl (List.cons_ne_nil _ _))).2 (by decide)

end Samples

end BatchQueue

end Concord
