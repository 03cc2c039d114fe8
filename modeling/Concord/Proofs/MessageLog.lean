import Concord.Proofs.NewViews

/-!
A message log under any sequence of operations. The index has exactly the keys of the entries, a
message is refused if and only if an entry has its key, and the entries are the messages added and
not removed since.
-/

namespace Concord.Core.MessageLog

inductive Op
  | insert (m : SignedBody)
  | retainFrom (view : View)
  | removeView (view : View)
  | clear

def apply (log : MessageLog) : Op → MessageLog
  | .insert m => log.insert m
  | .retainFrom view => log.retainFrom view
  | .removeView view => log.removeView view
  | .clear => empty

def run (log : MessageLog) (ops : List Op) : MessageLog := ops.foldl apply log

/-- Whether the operation removes the messages of `view`. -/
def Op.drops (view : View) : Op → Bool
  | .insert _ => false
  | .retainFrom first => view < first
  | .removeView gone => view = gone
  | .clear => true

/-- The message that the operation adds to the log. -/
def taken (log : MessageLog) : Op → List SignedBody
  | .insert m => if log.accepts m then [m] else []
  | _ => []

/-- The messages that were added and not removed by a later operation, in order of insertion. -/
def survivors : MessageLog → List Op → List SignedBody
  | _, [] => []
  | log, op :: rest =>
    (log.taken op).filter (fun m => !rest.any (Op.drops m.view)) ++ survivors (log.apply op) rest

variable {log : MessageLog} {m x : SignedBody} {op : Op}

theorem entries_apply (log : MessageLog) (op : Op) : (log.apply op).entries =
    (log.entries.filter fun m => !op.drops m.view) ++ log.taken op := by
  cases op with
  | insert m =>
    by_cases hm : log.accepts m
    · simp [apply, insert, taken, Op.drops, hm]
    · simp [apply, insert, taken, Op.drops, hm]
  | retainFrom first => simp [apply, retainFrom, taken, Op.drops, ← UInt64.not_lt]
  | removeView gone => simp [apply, removeView, taken, Op.drops]
  | clear => simp [apply, empty, taken, Op.drops]

theorem entries_run (log : MessageLog) (ops : List Op) : (log.run ops).entries =
    (log.entries.filter fun m => !ops.any (Op.drops m.view)) ++ survivors log ops := by
  induction ops generalizing log with
  | nil => simp [run, survivors]
  | cons op rest ih =>
    change ((log.apply op).run rest).entries = _
    rw [ih, entries_apply, List.filter_append, List.filter_filter, survivors, List.append_assoc]
    simp only [List.any_cons, Bool.not_or, Bool.and_comm]

theorem Indexed.apply (h : log.Indexed) (op : Op) : (log.apply op).Indexed := by
  cases op with
  | insert m => exact h.insert m
  | retainFrom first => exact h.retainFrom first
  | removeView gone => exact h.removeView gone
  | clear => exact indexed_empty

theorem Indexed.run (h : log.Indexed) (ops : List Op) : (log.run ops).Indexed := by
  induction ops generalizing log with
  | nil => exact h
  | cons op rest ih => exact ih (h.apply op)

theorem Indexed.accepts_iff (h : log.Indexed) :
    log.accepts m ↔ ∀ x ∈ log.entries, LogKey.of x ≠ LogKey.of m := by
  have hseen : log.accepts m ↔ LogKey.of m ∉ log.entries.map LogKey.of := by
    rw [← h.seen_iff]
    simp [accepts]
  rw [hseen, List.mem_map]
  constructor
  · intro hnew x hx hkey
    exact hnew ⟨x, hx, hkey⟩
  · intro hnew hold
    obtain ⟨x, hx, hkey⟩ := hold
    exact hnew x hx hkey

theorem Indexed.insert_of_held (h : log.Indexed) (hx : x ∈ log.entries)
    (hkey : LogKey.of m = LogKey.of x) : log.insert m = log := by
  have hrefused : ¬ log.accepts m := by
    intro haccepts
    exact h.accepts_iff.1 haccepts x hx hkey.symm
  simp [MessageLog.insert, hrefused]

theorem Indexed.accepts_of_drops (h : log.Indexed) (hdrops : op.drops m.view) :
    (log.apply op).accepts m := by
  rw [(h.apply op).accepts_iff, entries_apply]
  intro x hx hkey
  have hview : x.view = m.view := congrArg LogKey.view hkey
  cases List.mem_append.1 hx with
  | inl hleft =>
    have hstays := (List.mem_filter.1 hleft).2
    rw [hview, hdrops] at hstays
    cases hstays
  | inr hadded =>
    cases op with
    | insert _ => cases hdrops
    | retainFrom _ | removeView _ | clear => cases hadded

/-- After any operations on an empty log, the index consists of the keys of the entries, the keys
are distinct, and the entries are the messages that were added and not removed since. A message is
accepted if and only if no entry has its key. Otherwise inserting it changes nothing. Once its view
is dropped it is accepted. -/
theorem index_in_step (ops : List Op) :
    (∀ k, k ∈ (empty.run ops).seen ↔ k ∈ (empty.run ops).entries.map LogKey.of) ∧
    ((empty.run ops).entries.map LogKey.of).Nodup ∧
    (empty.run ops).entries = survivors empty ops ∧
    (∀ m, (empty.run ops).accepts m ↔
      ∀ x ∈ (empty.run ops).entries, LogKey.of x ≠ LogKey.of m) ∧
    (∀ m, ∀ x ∈ (empty.run ops).entries, LogKey.of m = LogKey.of x →
      (empty.run ops).insert m = empty.run ops) ∧
    (∀ m op, op.drops m.view → ((empty.run ops).apply op).accepts m) := by
  have hindexed : (empty.run ops).Indexed := indexed_empty.run ops
  refine ⟨hindexed.seen_iff, hindexed.nodup, ?_, ?_, ?_, ?_⟩
  · rw [entries_run]
    rfl
  · intro m
    exact hindexed.accepts_iff
  · intro m x hx hkey
    exact hindexed.insert_of_held hx hkey
  · intro m op hdrops
    exact hindexed.accepts_of_drops hdrops

def report (data : Bytes) : SignedBody :=
  ⟨Body.plain 2 .newView ⟨Digest.zero, data⟩ Certificate.genesis, default, default, default⟩

theorem index_in_step_of_reports :
    (empty.run [.insert (report [1])]).insert (report [2]) =
      empty.run [.insert (report [1])] ∧
    ((empty.run [.insert (report [1])]).apply (.removeView 2)).accepts (report [2]) ∧
    (empty.run [.insert (report [1]), .insert (report [2]), .removeView 2,
      .insert (report [2])]).entries = [report [2]] := by
  obtain ⟨-, -, -, -, hfirst, hfree⟩ := index_in_step [.insert (report [1])]
  obtain ⟨-, -, hentries, -⟩ := index_in_step [.insert (report [1]), .insert (report [2]),
    .removeView 2, .insert (report [2])]
  refine ⟨hfirst _ (report [1]) ?_ rfl, hfree _ _ rfl, ?_⟩
  · decide +kernel
  · rw [hentries]
    decide +kernel

end Concord.Core.MessageLog
