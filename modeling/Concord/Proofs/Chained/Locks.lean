import Concord.Proofs.Chained.Order
import Concord.Proofs.Chained.Refusals
import Concord.Proofs.Faults
import Concord.Proofs.Legible
import Concord.Proofs.Loyal

/-!
The views of the certificates that a core of the chained protocol holds. A proposal with a
certificate of a later view than its own is refused, but a NewView with one is not. If no such
NewView was heard, the high certificate and the lock are never ahead of the core, and the locking
rule refuses no node.
-/

namespace Concord.Core.Chained

open Handler

variable {σ : Type} {ctx : Context σ} {l l' : Life Chain σ} {node : Body}

theorem raise_view_le {held offered : Certificate} {view : View} (hheld : held.view ≤ view)
    (hoffered : offered.view ≤ view) : (raise held offered).view ≤ view := by
  rcases raise_cases held offered with hsame | hsame
  · rwa [hsame]
  · rwa [hsame]

/-- The certificate is of an earlier view, or of the current view if that has a proposal. -/
def Behind (s : State) (qc : Certificate) : Prop :=
  qc.view < s.view ∨ qc.view = s.view ∧ s.proposal.isSome

theorem Behind.le_view {s : State} {qc : Certificate} (h : Behind s qc) : qc.view ≤ s.view := by
  rcases h with hlt | ⟨heq, -⟩
  · exact UInt64.le_of_lt hlt
  · exact UInt64.le_of_eq heq

theorem Behind.mono {s s' : State} {qc : Certificate} (h : Behind s qc)
    (hascends : s.view < s'.view ∨
      s.view = s'.view ∧ (s.proposal.isSome → s'.proposal.isSome)) : Behind s' qc := by
  rcases hascends with hlt | ⟨heq, hproposal⟩
  · exact .inl (UInt64.lt_of_le_of_lt h.le_view hlt)
  · rw [Behind, ← heq]
    exact h.imp_right fun ⟨hview, hsome⟩ => ⟨hview, hproposal hsome⟩

@[simp] def borne? : Effect → Option Letter
  | .wrote letter | .send _ letter | .broadcast letter | .postpone _ (.send _ letter) => some letter
  | _ => none

/-- The message in the effect, if any, has no certificate of a later view than its own. -/
def Sober (e : Effect) : Prop := ∀ x, borne? e = some x → x.body.justify.view ≤ x.body.view

theorem sober_of_none {e : Effect} (h : borne? e = none) : Sober e := fun x hx => by
  rw [h] at hx
  cases hx

theorem sober_of_some {e : Effect} {x : Letter} (h : borne? e = some x)
    (hx : x.body.justify.view ≤ x.body.view) : Sober e := fun y hy => by
  obtain rfl : x = y := Option.some.inj (h.symm.trans hy)
  exact hx

/-- No certificate that the core holds, logged or sent is of a later view than the core's or the
message's. -/
structure Current (l : Life Chain σ) : Prop where
  high : l.memory.high.view ≤ l.state.view
  locked : ∀ lock, l.state.locked = some lock → Behind l.state lock
  nodes : ∀ b ∈ l.memory.tree.nodes, b.justify.view ≤ l.state.view
  newViews : ∀ m ∈ l.state.newViews.entries, m.justify.view ≤ m.view
  done : ∀ e ∈ l.done, Sober e

/-- No NewView that was heard has a certificate of a later view than its own. -/
def Punctual (heard : List Letter) : Prop :=
  ∀ x ∈ heard, x.kind = .newView → x.body.justify.view ≤ x.body.view

theorem Current.more {es : List Effect} (h : Current l) (hes : ∀ e ∈ es, Sober e) :
    ∀ e ∈ l.done ++ es, Sober e :=
  fun e he => (List.mem_append.1 he).elim (h.done e) (hes e)

theorem Current.letters (h : Current l) :
    ∀ x ∈ l.letters, x.body.justify.view ≤ x.body.view := by
  intro x hx
  rcases Life.mem_letters.1 hx with ⟨receiver, hsend⟩ | hbroadcast
  · exact h.done _ hsend x rfl
  · exact h.done _ hbroadcast x rfl

section Adopting

theorem Current.stored (h : Current l) (hnode : node.justify.view ≤ l.state.view) :
    Current (stored node l) where
  high := h.high
  locked := h.locked
  nodes b hb := by
    rcases NodeTree.mem_insert hb with rfl | hb
    · exact hnode
    · exact h.nodes b hb
  newViews := h.newViews
  done := h.done

theorem Current.raisedBy (h : Current l) (hnode : node.justify.view ≤ l.state.view) :
    Current (raisedBy node l) := by
  unfold Chained.raisedBy
  split
  · exact ⟨hnode, h.locked, h.nodes, h.newViews, h.done⟩
  · exact h

theorem Current.lockedBy (h : Current l) (hnode : node.justify.view ≤ l.state.view)
    (hproposal : l.state.proposal.isSome) : Current (lockedBy node l) := by
  unfold Chained.lockedBy State.lock
  split
  · refine ⟨h.high, fun lock hlock => ?_, h.nodes, h.newViews, h.done⟩
    obtain rfl : node.justify = lock := Option.some.inj hlock
    rcases UInt64.lt_or_eq_of_le hnode with hlt | heq
    · exact .inl hlt
    · exact .inr ⟨heq, hproposal⟩
  · exact h

theorem Current.settled (h : Current l) : Current (settled ctx node l) where
  high := h.high
  locked := h.locked
  nodes b hb := h.nodes b (NodeTree.mem_pruneBelow hb)
  newViews := h.newViews
  done := h.more (by simpa using sober_of_none rfl)

theorem Walk.current (h : Walk ctx node l l') (hcurrent : Current l)
    (hnode : node.justify.view ≤ l.state.view) (hproposal : l.state.proposal.isSome) :
    Current l' := by
  have hraised := hcurrent.raisedBy hnode
  have hlocked : ∀ {b1}, directParent? l.memory.tree node = some b1 →
      Current (lockedBy b1 (raisedBy node l)) := by
    intro b1 h2
    have hsteady := steady_raisedBy node l
    refine hraised.lockedBy ?_ (hsteady.proposal ▸ hproposal)
    rw [hsteady.view]
    exact hcurrent.nodes b1 (directParent?_spec h2).1
  cases h with
  | loose => exact hcurrent
  | one => exact hraised
  | two h2 | stale h2 => exact hlocked h2
  | final h2 => exact (hlocked h2).settled

theorem Adopt.current (h : Adopt ctx node l l') (hcurrent : Current l)
    (hnode : node.justify.view ≤ l.state.view) (hproposal : l.state.proposal.isSome) :
    Current l' := by
  have hstored := hcurrent.stored hnode
  cases h with
  | last | unsigned => exact hstored
  | leading _ _ hwalk => exact hwalk.current hstored hnode hproposal
  | @voting next letter _ _ _ hwrote hwalk =>
    have hvote : letter.body.justify.view ≤ letter.body.view := by
      rw [hwrote.body_eq]
      exact UInt64.zero_le
    refine hwalk.current ⟨hstored.high, hstored.locked, hstored.nodes, hstored.newViews,
      hstored.more fun e he => ?_⟩ hnode hproposal
    simp only [List.mem_cons, List.not_mem_nil, or_false] at he
    rcases he with rfl | rfl
    · exact sober_of_some rfl hvote
    · exact sober_of_some rfl hvote

end Adopting

section Moving

theorem Move.locked_eq (h : Move ctx l l') : l'.state.locked = l.state.locked := by
  cases h with
  | gather hgather => cases hgather; rfl
  | certify hcertify => cases hcertify; rfl
  | _ => rfl

theorem Gather.high_le (h : Gather ctx l l') (hcurrent : Current l) :
    l'.memory.high.view ≤ l'.state.view := by
  cases h with
  | @mk best qc high _ _ hbest htaken hhigh =>
    obtain ⟨hmem, hview⟩ := MessageLog.mem_forView.1 (best_mem hbest)
    have hqc : qc.view = best.justify.view := congrArg Subject.view (subject_taken htaken)
    rw [Life.after_memory, hhigh]
    refine raise_view_le hcurrent.high ?_
    rw [view_named, hqc]
    exact hview ▸ hcurrent.newViews best hmem

theorem Certify.high_le (h : Certify ctx l l') (hcurrent : Current l) :
    l'.memory.high.view ≤ l'.state.view := by
  cases h with
  | @mk view next nodeId payload votes own qc high hview hnext _ _ _ _ hqc hhigh =>
    have hle : view ≤ next := UInt64.le_of_lt (View.lt_next hnext)
    have hsame : qc.view = view := by simp [hqc, Certificate.view]
    rw [Life.after_memory, hhigh]
    exact raise_view_le (UInt64.le_trans hcurrent.high (UInt64.le_trans hview hle)) (hsame ▸ hle)

theorem Move.high_le (h : Move ctx l l') (hcurrent : Current l) :
    l'.memory.high.view ≤ l'.state.view := by
  have hview := h.le_view
  cases h with
  | gather hgather => exact hgather.high_le hcurrent
  | certify hcertify => exact hcertify.high_le hcurrent
  | _ => exact UInt64.le_trans hcurrent.high hview

theorem Move.sober (h : Move ctx l l') (hcurrent : Current l) : ∀ e ∈ l'.done, Sober e := by
  cases h with
  | hear | note | retouch | stop => exact hcurrent.done
  | begin | enter => exact hcurrent.more (by simpa using sober_of_none rfl)
  | keep | log | regenerate | bridge => exact hcurrent.more (by simp)
  | gather hgather => cases hgather; exact hcurrent.more (by simp)
  | certify hcertify =>
    cases hcertify
    refine hcurrent.more fun e he => ?_
    simp only [List.mem_cons, List.not_mem_nil, or_false] at he
    rcases he with rfl | rfl
    · exact sober_of_none rfl
    · exact sober_of_none rfl
  | @errand receiver letter hdone =>
    refine hcurrent.more fun e he => ?_
    dsimp only at he
    split at he
    · cases he
    · obtain rfl := List.mem_singleton.1 he
      exact sober_of_some rfl (hcurrent.done _ hdone letter rfl)
  | report =>
    have hletter : ∀ letter, ctx.Wrote .newView (newViewBody l.state l.memory) letter →
        letter.body.justify.view ≤ letter.body.view := by
      intro letter hwrote
      rw [hwrote.body_eq]
      exact hcurrent.high
    exact hcurrent.more (Context.forall_posted
      (fun letter hwrote => sober_of_some rfl (hletter letter hwrote))
      fun letter hwrote _ => sober_of_some rfl (hletter letter hwrote))

theorem Move.current (h : Move ctx l l') (hcurrent : Current l) (hheard : Punctual l.heard) :
    Current l' where
  high := h.high_le hcurrent
  locked lock hlock := (hcurrent.locked lock (h.locked_eq ▸ hlock)).mono h.ascends
  nodes b hb := by
    rcases h.tree.2 b hb with hb | ⟨-, hgenesis⟩
    · exact UInt64.le_trans (hcurrent.nodes b hb) h.le_view
    · rw [hgenesis]
      exact UInt64.zero_le
  newViews m hm := by
    rcases h.newViews hm with hm | ⟨hm, -⟩
    · exact hcurrent.newViews m hm
    · exact hheard _ hm rfl
  done := h.sober hcurrent

end Moving

section Taking

theorem justify_le_of_checkProposal {s : State} {app : σ} {m : SignedBody}
    {extendsLock : Certificate → Bool} (h : ctx.checkProposal s app m extendsLock = .ok ()) :
    m.justify.view ≤ m.view := by
  refine UInt64.not_lt.1 fun hahead => ?_
  unfold Context.checkProposal Context.screenProposal at h
  simp only [hahead, if_true] at h
  split at h
  · cases h
  · next hscreen =>
    split at hscreen
    · cases hscreen
    · cases hscreen

theorem entries_jump {s : State} {view : View} {m : SignedBody}
    (h : m ∈ (s.jump view).newViews.entries) : m ∈ s.newViews.entries := by
  unfold State.jump at h
  split at h
  · exact MessageLog.mem_retainFrom h
  · exact h

theorem Accept.current (h : Accept ctx l l') (hcurrent : Current l) : Current l' := by
  cases h with
  | @mk m hm hview hfree _ hcheck hadopt =>
    have hstep : Step ctx (fun _ => True) l _ := .accept hm hview hfree
    have hle := hstep.le_view
    -- A node that a core takes over from its leader was screened.
    have hjustify : m.body.justify.view ≤ (l.state.jump m.view).view := by
      rw [State.jump_view hview]
      exact justify_le_of_checkProposal hcheck
    refine hadopt.current ⟨UInt64.le_trans hcurrent.high hle, fun lock hlock => ?_,
      fun b hb => UInt64.le_trans (hcurrent.nodes b hb) hle,
      fun x hx => hcurrent.newViews x (entries_jump hx),
      hcurrent.more (by simpa using sober_of_none rfl)⟩ hjustify rfl
    exact (hcurrent.locked lock (by simpa using hlock)).mono hstep.ascends

theorem Propose.current (h : Propose ctx l l') (hcurrent : Current l) : Current l' := by
  cases h with
  | @mk tree parentId data app node letter _ _ _ hbackfill _ hnode hwrote hadopt =>
    -- A node that a core proposes has the high certificate.
    have hjustify : node.justify.view ≤ l.state.view := hnode ▸ hcurrent.high
    have hletter : letter.body.justify.view ≤ letter.body.view := by
      rw [hwrote.body_eq, hnode]
      exact hcurrent.high
    have hmove : Move ctx l _ := @Move.regenerate _ _ _ _ _ app hbackfill
    refine hadopt.current ⟨hcurrent.high, fun lock hlock => ?_, fun b hb => ?_, hcurrent.newViews,
      hcurrent.more fun e he => ?_⟩ hjustify rfl
    · exact (hcurrent.locked lock hlock).mono (.inr ⟨rfl, fun _ => rfl⟩)
    · rcases hmove.tree.2 b hb with hb | ⟨-, hgenesis⟩
      · exact hcurrent.nodes b hb
      · rw [hgenesis]
        exact UInt64.zero_le
    · simp only [List.mem_cons, List.not_mem_nil, or_false] at he
      rcases he with rfl | rfl | rfl
      · exact sober_of_some rfl hletter
      · exact sober_of_none rfl
      · exact sober_of_some rfl hletter

end Taking

theorem Move.heard_subset (h : Move ctx l l') : l.heard ⊆ l'.heard := by
  have hstep : Step ctx (fun _ => True) l l' := .move h
  exact hstep.heard_subset

theorem Accept.heard_eq (h : Accept ctx l l') : l'.heard = l.heard := by
  cases h with
  | mk _ _ _ _ _ hadopt => exact hadopt.spec.heard

theorem Propose.heard_eq (h : Propose ctx l l') : l'.heard = l.heard := by
  cases h with
  | mk _ _ _ _ _ _ hadopt => exact hadopt.spec.heard

/-- If every NewView that a core heard is punctual, the core is current. -/
theorem current_of_lived {l : Life (Memory .chained) σ} (h : Lived ctx l)
    (hheard : Punctual l.heard) : Current l := by
  refine kept_of_lived (P := fun l => Punctual l.heard → Current l) h (fun app _ => ?_)
    (fun hmove hold hheard => ?_) (fun haccept hold hheard => ?_)
    (fun hpropose hold hheard => ?_) hheard
  · refine ⟨UInt64.le_refl _, nofun, fun b hb => ?_, nofun, by simp [Life.initial]⟩
    obtain rfl : b = genesisNode ctx.scheme := List.mem_singleton.1 hb
    exact UInt64.le_refl _
  · have hfirst : Punctual _ := fun x hx => hheard x (hmove.heard_subset hx)
    exact hmove.current (hold hfirst) hfirst
  · exact haccept.current (hold (haccept.heard_eq ▸ hheard))
  · exact hpropose.current (hold (hpropose.heard_eq ▸ hheard))

section Refusals

theorem avoids_onNewView {bad : SafetyViolation → Prop} (m : SignedBody) :
    Avoids bad (onNewView ctx m) := by
  refine .bind (avoids_acceptNewView m) fun kept => ?_
  split
  · exact (discreet_lead.fails_benign fun _ _ => Fault.Proposing.benign).avoids
  · exact avoids_pure _

theorem avoids_onVote {bad : SafetyViolation → Prop} (m : SignedBody) :
    Avoids bad (onVote ctx m) := by
  refine .bind avoids_state fun s => ?_
  dsimp only
  split
  · exact avoids_pure _
  · split
    · exact avoids_throw (by simp) _
    · refine .bind (fails_lift fun _ h => (ended_of_nextView h).1.benign).avoids fun next => ?_
      split
      · exact avoids_pure _
      · exact ((discreet_kept m next).fails_benign fun _ _ => Fault.Proposing.benign).avoids

theorem checkNodeId_ne {cause : SafetyViolation} (hbad : Outranked cause) :
    checkNodeId ctx node ≠ .error (.safetyViolation cause) := by
  unfold checkNodeId
  split
  · nofun
  · intro heq
    cases heq
    exact hbad

theorem fails_bridge (node : Body) : Fails Fault.Benign (bridge ctx node) := by
  refine fails_memory.bind fun chain => ?_
  split
  · exact fails_pure _
  · refine (fails_lift fun fault hfar => ?_).bind fun dummies => ?_
    · obtain ⟨gap, below, rfl, -⟩ := skipped_of_dummyChain hfar
      nofun
    · split
      · exact fails_setMemory _
      · exact fails_pure _

theorem fails_accepted (s : State) (m : SignedBody) : Fails Fault.Benign (do
    if s.view < m.view then
      update fun s => State.resetRound { s with view := m.view }
    update fun s => { s with phase := .generic, proposal := some m.body }
    resetTimer
    adopt ctx m.body) := by
  have hadopt : Discreet _ Fault.Ended (adopt ctx m.body) := discreet_adopt m.body
  have hbenign : Fails Fault.Benign (adopt ctx m.body) :=
    hadopt.fails_benign fun _ _ h => h.elim Fault.Unsigned.benign fun hended => hended.1.benign
  dsimp only
  split
  · exact (fails_update _).bind fun _ => (fails_update _).bind fun _ => (fails_ask _).bind fun _ =>
      hbenign
  · exact (fails_update _).bind fun _ => (fails_ask _).bind fun _ => hbenign

theorem Current.onGeneric_ne (h : Current l) (m : SignedBody) {cause : SafetyViolation}
    (hbad : Outranked cause) :
    (exec (onGeneric ctx m) l.turn).1 ≠ .error (.safetyViolation cause) := by
  rw [onGeneric, exec_bind, exec_state]
  refine (?_ : Avoids Outranked _) l.turn cause hbad
  dsimp only
  split
  · exact avoids_pure _
  · next hview =>
    split
    · exact avoids_pure _
    · next hproposal =>
      refine .bind (avoids_lift fun _ => screenProposal_ne) fun _ =>
        .bind (avoids_lift fun _ => checkNodeId_ne) fun _ => .bind (fails_bridge _).avoids fun _ =>
        .bind fails_memory.avoids fun chain => .bind fails_get.avoids fun t =>
        .bind (avoids_lift fun cause hbad hcheck => ?_) fun _ => (fails_accepted _ m).avoids
      obtain ⟨lock, hlock, hle⟩ := lock_of_outranked hbad hcheck
      rcases h.locked lock hlock with hlt | ⟨heq, hsome⟩
      · exact hview (UInt64.lt_of_le_of_lt hle hlt)
      · -- Lock and node are of the current view, but then that has a node already.
        have hsame : m.view = l.state.view :=
          UInt64.le_antisymm (heq ▸ hle) (UInt64.not_lt.1 hview)
        exact hproposal (by simp [hsame, hsome])

theorem Current.dispatch_ne (h : Current l) (kind : MessageKind) (m : SignedBody)
    {cause : SafetyViolation} (hbad : Outranked cause) :
    (exec (Machine.dispatch (v := .chained) ctx kind m) l.turn).1 ≠
      .error (.safetyViolation cause) := by
  cases kind with
  | newView => exact avoids_onNewView m _ _ hbad
  | vote => exact avoids_onVote m _ _ hbad
  | generic => exact h.onGeneric_ne m hbad
  | prepare | preCommit | commit | decide => nofun

end Refusals

/-- If no NewView that a core heard has a certificate of a later view than its own, the high
certificate and the lock are of no later view than the core's, no proposal or message of the core
has a certificate of a later view than its own, and no envelope is refused with `belowLock`. -/
theorem none_ahead_of_lived {l : Life (Memory .chained) σ} (h : Lived ctx l)
    (hheard : ∀ x ∈ l.heard, x.kind = .newView → x.body.justify.view ≤ x.body.view) :
    l.memory.high.view ≤ l.state.view ∧
    (∀ lock, l.state.locked = some lock → lock.view ≤ l.state.view) ∧
    (∀ b ∈ l.proposals, b.justify.view ≤ b.view) ∧
    (∀ x ∈ l.letters, x.body.justify.view ≤ x.body.view) ∧
    ∀ envelope view lock, (l.machine.step ctx (.feed envelope)).result ≠
      .error (.safetyViolation (.belowLock view lock)) := by
  have hcurrent := current_of_lived h hheard
  refine ⟨hcurrent.high, fun lock hlock => (hcurrent.locked lock hlock).le_view, fun b hb => ?_,
    hcurrent.letters, fun envelope view lock => ?_⟩
  · obtain ⟨x, hx, -, rfl⟩ := Life.mem_proposals.1 hb
    exact hcurrent.letters x (Life.mem_letters.2 (.inr hx))
  · refine feed_ne (fun kind m => ?_) envelope
    exact hcurrent.dispatch_ne kind m trivial

open Legible in
/-- A locked leader that took NewViews and proposed. -/
theorem none_ahead_of_leader :
    (∀ x ∈ (chainedRun 1).heard, x.kind = .newView → x.body.justify.view ≤ x.body.view) ∧
      (∃ x ∈ (chainedRun 1).heard, x.kind = .newView) ∧ (chainedRun 1).proposals ≠ [] ∧
      ∃ lock, (chainedRun 1).state.locked = some lock ∧
        lock.view ≤ (chainedRun 1).state.view ∧
        (chainedRun 1).memory.high.view ≤ (chainedRun 1).state.view ∧
        ∀ b ∈ (chainedRun 1).proposals, b.justify.view ≤ b.view := by
  have hrun : (∀ x ∈ (chainedRun 1).heard, x.kind = .newView →
      x.body.justify.view ≤ x.body.view) ∧ (∃ x ∈ (chainedRun 1).heard, x.kind = .newView) ∧
      (chainedRun 1).proposals ≠ [] ∧ (chainedRun 1).state.locked.isSome := by
    decide +kernel
  obtain ⟨hheard, hnewView, hproposals, hlocked⟩ := hrun
  obtain ⟨lock, hlock⟩ := Option.isSome_iff_exists.1 hlocked
  have hlived : Lived (four.context 1) (chainedRun 1) := (Cast.reachable_play ..).lived 1
  obtain ⟨hhigh, hbound, hjustify, -⟩ := none_ahead_of_lived hlived hheard
  exact ⟨hheard, hnewView, hproposals, lock, hlock, hbound lock hlock, hhigh, hjustify⟩

section Clusters

variable {n : Nat} {g : Group n σ} {w : World n .chained σ}

theorem punctual_of_reachable (h : Reachable g ∅ w) (i : Fin n) : Punctual (w i).heard := by
  induction h generalizing i with
  | init app => exact fun x hx => by simp [Life.initial] at hx
  | @take w k input hreachable hmem hadmits ih =>
    intro x hx hkind
    rcases heard_take hadmits hx with hx | ⟨j, hsent⟩
    · exact ih i x hx hkind
    · -- Its sender was current, by what it had heard itself.
      have hcurrent := current_of_lived (hreachable.lived j) (ih j)
      exact hcurrent.letters x (hreachable.signer_of_sent hsent).2.2
  | retouch _ ih => exact fun x hx => ih i x (heard_retouch hx)

/-- Without traitors, every core is current. -/
theorem current_of_reachable (h : Reachable g ∅ w) (i : Fin n) : Current (w i) :=
  current_of_lived (h.lived i) (punctual_of_reachable h i)

end Clusters

end Concord.Core.Chained
