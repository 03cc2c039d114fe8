import Concord.Proofs.Handler
import Mathlib.Data.List.Nodup

/-!
The log of NewViews of a leader: which NewView it chooses, and which certificate it takes from it.
-/

namespace Concord

namespace Certificate

@[simp] theorem subject_addVote (qc : Certificate) (vote : Vote) :
    (qc.addVote vote).subject = qc.subject := by
  unfold addVote
  split <;> rfl

@[simp] theorem subject_addVotes (qc : Certificate) (votes : List Vote) :
    (qc.addVotes votes).subject = qc.subject := by
  unfold addVotes
  induction votes generalizing qc with
  | nil => rfl
  | cons vote rest ih => rw [List.foldl_cons, ih, subject_addVote]

@[simp] theorem subject_ofVotes (subject : Subject) (votes : List Vote) :
    (ofVotes subject votes).subject = subject :=
  subject_addVotes _ votes

end Certificate

namespace Core

variable {γ σ : Type}

namespace MessageLog

theorem mem_insert {log : MessageLog} {m x : SignedBody} (h : x ∈ (log.insert m).entries) :
    x ∈ log.entries ∨ x = m := by
  unfold insert at h
  split at h
  · simpa using h
  · exact .inl h

theorem mem_retainFrom {log : MessageLog} {view : View} {x : SignedBody}
    (h : x ∈ (log.retainFrom view).entries) : x ∈ log.entries :=
  (List.mem_filter.1 h).1

theorem mem_removeView {log : MessageLog} {view : View} {x : SignedBody}
    (h : x ∈ (log.removeView view).entries) : x ∈ log.entries :=
  (List.mem_filter.1 h).1

theorem mem_forView {log : MessageLog} {view : View} {x : SignedBody} :
    x ∈ log.forView view ↔ x ∈ log.entries ∧ x.view = view := by
  simp [forView]

theorem mem_matching {log : MessageLog} {view : View} {phase : Phase} {accept : SignedBody → Bool}
    {x : SignedBody} : x ∈ log.matching view phase accept ↔
      x ∈ log.entries ∧ x.view = view ∧ x.phase = phase ∧ accept x := by
  simp [matching, and_assoc]

/-- The index consists of the keys of the entries, and the keys are distinct. -/
structure Indexed (log : MessageLog) : Prop where
  seen_iff : ∀ k, k ∈ log.seen ↔ k ∈ log.entries.map LogKey.of
  nodup : (log.entries.map LogKey.of).Nodup

theorem indexed_empty : empty.Indexed := ⟨by simp [empty], by simp [empty]⟩

theorem Indexed.insert {log : MessageLog} (h : log.Indexed) (m : SignedBody) :
    (log.insert m).Indexed := by
  unfold MessageLog.insert
  split
  · next hm =>
    have hseen : LogKey.of m ∉ log.entries.map LogKey.of := by
      rw [← h.seen_iff]
      simpa [accepts] using hm
    refine ⟨fun k => ?_, ?_⟩
    · simp only [List.map_append, List.mem_append, List.mem_cons, h.seen_iff k, List.map_cons,
        List.map_nil, List.not_mem_nil, or_false]
      exact or_comm
    · rw [List.map_append, List.nodup_append]
      refine ⟨h.nodup, by simp, ?_⟩
      rintro a ha b hb rfl
      simp only [List.map_cons, List.map_nil, List.mem_singleton] at hb
      exact hseen (hb ▸ ha)
  · exact h

theorem Indexed.filter {log : MessageLog} (h : log.Indexed) (keep : View → Bool) :
    Indexed ⟨log.entries.filter fun m => keep m.view, log.seen.filter fun k => keep k.view⟩ := by
  refine ⟨fun k => ?_, h.nodup.sublist (List.filter_sublist.map _)⟩
  simp only [List.mem_filter, h.seen_iff, List.mem_map]
  constructor
  · rintro ⟨⟨m, hm, rfl⟩, hk⟩
    exact ⟨m, ⟨hm, hk⟩, rfl⟩
  · rintro ⟨m, ⟨hm, hk⟩, rfl⟩
    exact ⟨⟨m, hm, rfl⟩, hk⟩

theorem Indexed.retainFrom {log : MessageLog} (h : log.Indexed) (view : View) :
    (log.retainFrom view).Indexed :=
  h.filter fun v => view ≤ v

theorem Indexed.removeView {log : MessageLog} (h : log.Indexed) (view : View) :
    (log.removeView view).Indexed :=
  h.filter fun v => v ≠ view

/-- The log is indexed, and all entries were heard as messages of one kind. -/
structure Holds (log : MessageLog) (kind : MessageKind) (heard : List Letter) : Prop where
  indexed : log.Indexed
  heard : ∀ m ∈ log.entries, ⟨kind, m⟩ ∈ heard

section

variable {log : MessageLog} {kind : MessageKind} {heard : List Letter}

theorem holds_empty : empty.Holds kind heard := ⟨indexed_empty, by simp [empty]⟩

theorem Holds.mono {heard' : List Letter} (h : log.Holds kind heard) (hsub : heard ⊆ heard') :
    log.Holds kind heard' :=
  ⟨h.indexed, fun m hm => hsub (h.heard m hm)⟩

theorem Holds.insert (h : log.Holds kind heard) {m : SignedBody} (hm : ⟨kind, m⟩ ∈ heard) :
    (log.insert m).Holds kind heard := by
  refine ⟨h.indexed.insert m, fun x hx => ?_⟩
  rcases mem_insert hx with hx | rfl
  · exact h.heard x hx
  · exact hm

theorem Holds.retainFrom (h : log.Holds kind heard) (view : View) :
    (log.retainFrom view).Holds kind heard :=
  ⟨h.indexed.retainFrom view, fun x hx => h.heard x (mem_retainFrom hx)⟩

theorem Holds.removeView (h : log.Holds kind heard) (view : View) :
    (log.removeView view).Holds kind heard :=
  ⟨h.indexed.removeView view, fun x hx => h.heard x (mem_removeView hx)⟩

end

end MessageLog

/-- A quorum of messages of one kind and view that were heard and have distinct keys. -/
structure Collected (ctx : Context σ) (heard : List Letter) (kind : MessageKind) (view : View)
    (messages : List SignedBody) : Prop where
  heard : ∀ m ∈ messages, ⟨kind, m⟩ ∈ heard
  view : ∀ m ∈ messages, m.view = view
  nodup : (messages.map LogKey.of).Nodup
  quorum : ctx.committee.isQuorum messages.length

theorem Collected.mono {ctx : Context σ} {heard heard' : List Letter} {kind : MessageKind}
    {view : View} {messages : List SignedBody} (h : Collected ctx heard kind view messages)
    (hsub : heard ⊆ heard') : Collected ctx heard' kind view messages :=
  { h with heard := fun m hm => hsub (h.heard m hm) }

theorem Collected.nodup_signers {ctx : Context σ} {heard : List Letter} {kind : MessageKind}
    {view : View} {phase : Phase} {messages : List SignedBody}
    (h : Collected ctx heard kind view messages) (hphase : ∀ m ∈ messages, m.phase = phase) :
    (messages.map SignedBody.signer).Nodup := by
  have hkeys := h.nodup
  have hkey : ∀ m ∈ messages, LogKey.of m = ⟨m.signer, view, phase⟩ := fun m hm => by
    rw [LogKey.of, h.view m hm, hphase m hm]
  rw [List.map_congr_left hkey] at hkeys
  refine List.Nodup.of_map (fun signer => (⟨signer, view, phase⟩ : LogKey)) ?_
  simpa [Function.comp_def] using hkeys

namespace Handler

/-- The NewView with the highest certificate among those for the current view, if they are a
quorum. -/
def best? (ctx : Context σ) (s : State) : Option SignedBody :=
  match s.newViews.forView s.view with
  | [] => none
  | first :: rest =>
    if ctx.committee.isQuorum (first :: rest).length then some (highest first rest) else none

/-- The certificate that a leader takes from the NewView `best`. -/
def taken (ctx : Context σ) (s : State) (best : SignedBody) : Except Fault Certificate :=
  let held := best.justify
  if held.view = 0 then
    (ctx.ownVote held.payload).map fun own =>
      (held.addVotes (startingVotes ctx held.payload (s.newViews.forView s.view))).addVote own
  else .ok held

theorem exec_takeHighCertificate (ctx : Context σ) (t : Turn γ σ) :
    exec (takeHighCertificate ctx) t =
      match best? ctx t.state with
      | none => (.ok none, t)
      | some best =>
        match taken ctx t.state best with
        | .error fault => (.error fault, t)
        | .ok qc =>
          (.ok (some (qc, best.body.parentId)), { t with
            state := { t.state with newViews := t.state.newViews.removeView t.state.view } }) := by
  rw [takeHighCertificate, exec_bind, exec_state]
  unfold best? taken
  simp only
  cases hc : t.state.newViews.forView t.state.view with
  | nil => rfl
  | cons first rest =>
    simp only
    by_cases hq : ctx.committee.isQuorum (first :: rest).length
    · by_cases h0 : (highest first rest).justify.view = 0
      · simp only [hq, h0, Bool.not_true, Bool.false_eq_true, if_false, if_true, exec_bind,
          exec_lift]
        cases ctx.ownVote (highest first rest).justify.payload <;> rfl
      · simp only [hq, h0, Bool.not_true, Bool.false_eq_true, if_false, if_true, exec_bind]
        rfl
    · simp only [hq]
      rfl

/-- A NewView is not kept and the turn is unchanged, or it is logged. In the second case it is of
the current view or a later one within the window, and its certificate verifies or is of view 0. -/
theorem exec_acceptNewView (ctx : Context σ) (m : SignedBody) (t : Turn γ σ) :
    (exec (acceptNewView ctx m) t).2 = t ∨
      t.state.view ≤ m.view ∧ t.state.inWindow m.view ∧
        (0 < m.justify.view → ctx.verifyCertificate m.justify) ∧
        (exec (acceptNewView ctx m) t).2 =
          { t with state := { t.state with newViews := t.state.newViews.insert m } } := by
  rw [acceptNewView, exec_bind, exec_state]
  simp only [exec_ite]
  split
  · exact .inl rfl
  · next hview =>
    split
    · exact .inl rfl
    · next hwindow =>
      split
      · exact .inl rfl
      · next hjustify =>
        refine .inr ⟨UInt64.not_lt.1 hview, by simpa using hwindow, fun h => ?_, rfl⟩
        simpa [h] using hjustify

theorem highest_mem (best : SignedBody) (rest : List SignedBody) :
    highest best rest ∈ best :: rest := by
  unfold highest
  induction rest generalizing best with
  | nil => simp
  | cons m rest ih =>
    rw [List.foldl_cons]
    split
    · exact List.mem_cons_of_mem _ (ih m)
    · rcases List.mem_cons.1 (ih best) with h | h
      · rw [h]
        exact List.mem_cons_self
      · exact List.mem_cons_of_mem _ (List.mem_cons_of_mem _ h)

theorem view_le_highest (best : SignedBody) (rest : List SignedBody) :
    ∀ m ∈ best :: rest, m.justify.view ≤ (highest best rest).justify.view := by
  unfold highest
  induction rest generalizing best with
  | nil => simp
  | cons m rest ih =>
    have hbest : best.justify.view ≤
        (if best.justify.view < m.justify.view then m else best).justify.view := by
      split
      · next h => exact UInt64.le_of_lt h
      · exact UInt64.le_refl _
    have hm : m.justify.view ≤
        (if best.justify.view < m.justify.view then m else best).justify.view := by
      split
      · exact UInt64.le_refl _
      · next h => exact UInt64.not_lt.1 h
    intro x hx
    rw [List.foldl_cons]
    have hnext := ih (if best.justify.view < m.justify.view then m else best)
    rcases List.mem_cons.1 hx with rfl | hx
    · exact UInt64.le_trans hbest (hnext _ List.mem_cons_self)
    · rcases List.mem_cons.1 hx with rfl | hx
      · exact UInt64.le_trans hm (hnext _ List.mem_cons_self)
      · exact hnext x (List.mem_cons_of_mem _ hx)

theorem quorum_of_best {ctx : Context σ} {s : State} {best : SignedBody}
    (h : best? ctx s = some best) :
    ctx.committee.isQuorum (s.newViews.forView s.view).length := by
  unfold best? at h
  split at h
  · cases h
  · next hc =>
    split at h
    · next hq => rwa [hc]
    · cases h

theorem best_mem {ctx : Context σ} {s : State} {best : SignedBody} (h : best? ctx s = some best) :
    best ∈ s.newViews.forView s.view := by
  unfold best? at h
  split at h
  · cases h
  · next hc =>
    split at h
    · cases h
      rw [hc]
      exact highest_mem _ _
    · cases h

theorem view_le_best {ctx : Context σ} {s : State} {best : SignedBody}
    (h : best? ctx s = some best) :
    ∀ m ∈ s.newViews.forView s.view, m.justify.view ≤ best.justify.view := by
  unfold best? at h
  split at h
  · cases h
  · next hc =>
    split at h
    · cases h
      rw [hc]
      exact view_le_highest _ _
    · cases h

/-- The NewViews among which a leader chooses are a quorum for its view. -/
theorem collected_of_best {ctx : Context σ} {s : State} {best : SignedBody} {heard : List Letter}
    (hlog : s.newViews.Holds .newView heard) (h : best? ctx s = some best) :
    Collected ctx heard .newView s.view (s.newViews.forView s.view) where
  heard m hm := hlog.heard m (MessageLog.mem_forView.1 hm).1
  view _ hm := (MessageLog.mem_forView.1 hm).2
  nodup := hlog.indexed.nodup.sublist (List.filter_sublist.map _)
  quorum := quorum_of_best h

/-- The certificate taken has the subject of the one in the chosen NewView. -/
theorem subject_taken {ctx : Context σ} {s : State} {best : SignedBody} {qc : Certificate}
    (h : taken ctx s best = .ok qc) : qc.subject = best.justify.subject := by
  unfold taken at h
  simp only at h
  split at h
  · cases hown : ctx.ownVote best.justify.payload with
    | error fault => rw [hown] at h; cases h
    | ok own =>
      rw [hown] at h
      cases h
      simp
  · cases h
    rfl

end Handler

end Core

end Concord
