import Concord.Proofs.Chained.Turns
import Concord.Proofs.Outcomes

/-!
Failing handlers of the chained protocol. All checks of a NewView or a vote come before the first
change. A node with an unknown parent is checked in full only after the bridge to the parent was
stored. After all checks a core fails only if it cannot sign, produce a payload, bridge the views
below its own proposal, or enter a view after the last.
-/

namespace Concord.Core.Chained

open Handler

variable {σ : Type} {ctx : Context σ} {loud : Fault → Prop} {reason : Fault → Prop}

theorem discreet_write {β : Type} (hreason : ∀ fault, fault.Unsigned ctx → reason fault)
    {kind : MessageKind} {body : Body} {next : Letter → Handler Chain σ β}
    (hnext : ctx.signer.sign?.isSome → ∀ letter, Discreet (fun _ => reason) loud (next letter)) :
    Discreet (fun _ => reason) loud (write ctx kind body >>= next) := by
  cases hbuild : ctx.build kind body with
  | ok letter =>
    exact (quiet_write (fun _ => hreason) _ _).bind (hnext (Context.sign_of_build hbuild))
  | error fault =>
    have hexec : ∀ t, exec (write ctx kind body >>= next) t = (.error fault, t) := by
      intro t
      rw [exec_bind, exec_write, hbuild]
    refine ⟨fun t fault' hfail => ?_, fun t fault' _ => .inr ?_⟩
    · rw [hexec] at hfail
      cases hfail
      exact hreason _ (unsigned_of_build hbuild)
    · rw [hexec]

theorem fails_commit (node : Body) : Fails reason (commit ctx node) := by
  refine fails_memory.bind fun chain => ?_
  split
  · exact fails_pure _
  · split
    · exact fails_pure _
    · exact (fails_setMemory _).bind fun _ => fails_deliver _ _

theorem fails_raised (chain : Chain) (node : Body) {rest : Handler Chain σ Unit}
    (hrest : Fails reason rest) : Fails reason (do
      if supersedes chain.high node.justify then
        setMemory { chain with high := node.justify }
        update fun s => { s with prepared := some node.justify }
      rest) := by
  dsimp only
  split
  · exact (fails_setMemory _).bind fun _ => (fails_update _).bind fun _ => hrest
  · exact hrest

theorem fails_walk (node : Body) : Fails reason (walk ctx node) := by
  refine fails_memory.bind fun chain => ?_
  cases directParent? chain.tree node with
  | none => exact fails_pure _
  | some b1 =>
    refine fails_raised chain node ?_
    cases directParent? chain.tree b1 with
    | none => exact fails_pure _
    | some b0 =>
      refine (fails_update _).bind fun _ => ?_
      cases directParent? chain.tree b0 with
      | none => exact fails_pure _
      | some b => exact fails_commit b

/-- The faults of a core that takes over a node of `view`. -/
def Adopting (ctx : Context σ) (view : View) (fault : Fault) : Prop :=
  fault.Unsigned ctx ∨ fault.Ended ∧ view = View.last

theorem discreet_adopt (node : Body) :
    Discreet (fun _ => Adopting ctx node.view) loud (adopt ctx node) := by
  refine quiet_memory.bind fun chain => (quiet_setMemory _).bind fun _ =>
    (quiet_lift fun _ _ h => .inr (ended_of_nextView h)).bind fun next => ?_
  dsimp only
  split
  · exact (quiet_write (fun _ _ => .inl) _ _).bind fun _ => discreet_of_never
      ((fails_postpone _).bind fun _ => fails_walk _)
  · exact discreet_of_never (fails_walk _)

theorem fails_adopt (hsign : ctx.signer.sign?.isSome) (node : Body) :
    Fails (fun fault => fault.Ended ∧ node.view = View.last) (adopt ctx node) := by
  refine fails_memory.bind fun chain => (fails_setMemory _).bind fun _ =>
    (fails_lift fun _ => ended_of_nextView).bind fun next => ?_
  have hwrite : Fails (fun fault => fault.Ended ∧ node.view = View.last)
      (write ctx .vote (voteBody node) : Handler Chain σ Letter) :=
    (fails_lift fun fault h => absurd h (Context.build_ne_error hsign _ _ fault)).bind fun _ =>
      (fails_ask _).bind fun _ => fails_pure _
  dsimp only
  split
  · exact hwrite.bind fun _ => (fails_postpone _).bind fun _ => fails_walk _
  · exact fails_walk _

theorem skipped_of_dummyChain {tree : NodeTree} {scheme : Crypto.Scheme} {start : Digest}
    {view : View} {fault : Fault} (h : tree.dummyChain scheme start view = .error fault) :
    ∃ gap below, fault = .viewOutOfRange (.skipped gap below view) ∧ maxViewGap < gap := by
  unfold NodeTree.dummyChain at h
  split at h
  · cases h
  · dsimp only at h
    split at h
    · next hfar =>
      cases h
      exact ⟨_, _, rfl, hfar⟩
    · cases h

theorem stretched_of_backfill {tree : NodeTree} {scheme : Crypto.Scheme} {start : Digest}
    {view : View} {fault : Fault} (hleads : ctx.leads view)
    (h : tree.backfill scheme start view = .error fault) : fault.Stretched ctx := by
  unfold NodeTree.backfill at h
  split at h
  · next hchain =>
    cases h
    obtain ⟨gap, below, hfault, hfar⟩ := skipped_of_dummyChain hchain
    exact ⟨gap, below, view, hfault, hfar, hleads⟩
  · cases h

theorem discreet_propose : Discreet (Fault.Proposing ctx) Fault.Ended (propose ctx) := by
  refine quiet_state.bind fun s => ?_
  split
  · exact (quiet_pure _).discreet
  · next hfree =>
    obtain ⟨hleads, -⟩ : ctx.leads s.view ∧ s.proposal = none := by simpa using hfree
    have hstretched : ∀ (app : σ) (fault : Fault), fault.Stretched ctx → fault.Proposing ctx app :=
      fun _ _ h => .inr (.inr (.inl h))
    refine quiet_memory.bind fun chain =>
      (quiet_lift fun app fault h => hstretched app fault (stretched_of_backfill hleads h)).bind
        fun bridged => (quiet_setMemory _).bind fun _ => ?_
    -- Once the payload is there, all that can fail is to sign the node or to take it over.
    have hlater : ∀ (app : σ) (fault : Fault),
        fault.Unsigned ctx ∨ fault.Ended ∧ ctx.leads View.last → fault.Proposing ctx app :=
      fun _ _ h => h.imp_right fun hlast => .inr (.inr hlast)
    refine produce_bind (fun _ _ h => .inr (.inl h)) hlater fun data => ?_
    refine discreet_write (fun _ => .inl) fun hsign letter => ?_
    refine (quiet_update _).bind fun _ => (quiet_ask rfl).bind fun _ =>
      ((fails_ask _).bind fun _ => fails_adopt hsign _).discreet (fun _ fault hended => ?_)
        fun _ => And.left
    obtain ⟨hended, hlast⟩ : fault.Ended ∧ s.view = View.last := hended
    exact .inr ⟨hended, hlast ▸ hleads⟩

theorem quiet_takeNewViews : Quiet (Fault.Proposing ctx) (takeNewViews ctx) := by
  refine quiet_state.bind_quiet fun s => ?_
  split
  · exact quiet_pure _
  · refine (quiet_takeHighCertificate fun _ _ => .inl).bind_quiet fun taken => ?_
    split
    · exact quiet_pure _
    · exact quiet_memory.bind_quiet fun _ => (quiet_setMemory _).bind_quiet fun _ =>
        (quiet_update _).bind_quiet fun _ => quiet_pure _

theorem discreet_lead : Discreet (Fault.Proposing ctx) Fault.Ended
    (do if ← takeNewViews ctx then propose ctx) := by
  refine quiet_takeNewViews.bind fun taken => ?_
  split
  · exact discreet_propose
  · exact (quiet_pure _).discreet

theorem quiet_enterView {grounds : σ → Fault → Prop} (view : View) :
    Quiet grounds (enterView view : Handler Chain σ Unit) := by
  refine quiet_state.bind_quiet fun s => ?_
  split
  · exact quiet_pure _
  · exact (quiet_update _).bind_quiet fun _ => quiet_ask rfl

theorem discreet_kept (m : SignedBody) (next : View) :
    Discreet (Fault.Proposing ctx) Fault.Ended (do
      update fun s => { s with votes := s.votes.insert m }
      match votesFor ctx (← (state : Handler Chain σ State)) m.view m.body.parentId
          m.body.payload with
      | none => return
      | some votes =>
        let chain ← memory
        if !chain.tree.contains m.body.parentId then
          return
        let own ← lift (ctx.ownVote m.body.payload)
        let qc := (Certificate.ofVotes ⟨.generic, m.view, m.body.payload, m.body.parentId⟩
          votes).addVote own
        ask (.certified qc)
        let high := raise chain.high qc
        setMemory { chain with high := high }
        update fun s => { s with prepared := some high }
        enterView next
        propose ctx) := by
  refine (quiet_update _).bind fun _ => quiet_state.bind fun s => ?_
  split
  · exact (quiet_pure _).discreet
  · refine quiet_memory.bind fun chain => ?_
    split
    · exact (quiet_pure _).discreet
    · exact (quiet_lift fun _ _ h => .inl (unsigned_of_ownVote h)).bind fun _ =>
        (quiet_ask rfl).bind fun _ => (quiet_setMemory _).bind fun _ =>
        (quiet_update _).bind fun _ => (quiet_enterView _).bind fun _ => discreet_propose

section Receiving

variable {trace : Turn Chain σ → Fault → Turn Chain σ → Prop}

theorem refuses_onVote (hloud : ∀ fault : Fault, fault.Ended → loud fault) (m : SignedBody) :
    Refuses (Fault.Late ctx .chained .vote m) loud trace (onVote ctx m) := by
  refine leaves_state.bind_refuses fun s => ?_
  dsimp only
  split
  · exact (leaves_pure _).refuses
  · split
    · exact (leaves_throw _ _).refuses
    · refine lift_bind_refuses fun next hnext => ?_
      split
      · exact (leaves_pure _).refuses
      · exact ((discreet_kept m next).mono
          (fun _ _ hproposing => ⟨hproposing, ne_last_of_nextView hnext⟩) hloud).refuses

/-- The parent of `m`'s node is unknown, the tree is bridged up to it, and then the node fails one
of the checks that remain. -/
structure Bridged (ctx : Context σ) (m : SignedBody) (t : Turn Chain σ) (fault : Fault)
    (tree : NodeTree) : Prop where
  unknown : t.memory.tree.contains m.body.parentId = false
  bridge : ∃ dummies,
    t.memory.tree.dummyChain ctx.scheme m.justify.nodeId m.view = .ok dummies ∧
    dummies.getLast?.any (fun last => last.id = m.body.parentId) ∧
    tree = t.memory.tree.insertAll dummies
  refused : ctx.checkProposal t.state t.app m
    (fun lock => tree.extends? m.body.parentId lock.nodeId) = .error fault

/-- The turn after a refused node differs only by the bridge to its parent. -/
def Extended (ctx : Context σ) (kind : MessageKind) (m : SignedBody) (t : Turn Chain σ)
    (fault : Fault) (t' : Turn Chain σ) : Prop :=
  kind = .generic ∧ ∃ tree, Bridged ctx m t fault tree ∧ t' = replanted tree t

/-- A node that is refused leaves the turn unchanged or only bridged. If a core fails after it
accepted a node, it cannot sign, or the node is of the last view. -/
theorem refuses_onGeneric (m : SignedBody) :
    Refuses (Fault.Late ctx .chained .generic m) loud (Extended ctx .generic m)
      (onGeneric ctx m) := by
  intro t fault hfail
  rcases exec_onGeneric ctx m t with ⟨tree, hacceptable⟩ | ⟨result, tree, hdeclined, hexec⟩
  · rw [hacceptable.exec_eq] at hfail ⊢
    have hadopt : Discreet (fun _ => Adopting ctx m.view) loud (adopt ctx m.body) :=
      discreet_adopt m.body
    have houtgoing : (nominated m tree t).outgoing = t.outgoing := by
      simp [nominated, Turn.outgoing, Effect.outward]
    exact .inr (.inr ⟨hadopt.fails _ fault hfail,
      (hadopt.silent _ fault hfail).imp_right fun hsame => hsame.trans houtgoing⟩)
  · rw [hexec] at hfail ⊢
    obtain rfl : result = .error fault := hfail
    -- The tree is unchanged, or the bridge was stored before the last check failed.
    rcases hdeclined.tree with rfl | ⟨hbridged, fault', hfault, hcheck⟩
    · exact .inl rfl
    · cases hfault
      rcases bridged_cases hbridged with rfl | ⟨hunknown, dummies, hchain, hlast, rfl⟩
      · exact .inl rfl
      · exact .inr (.inl ⟨rfl, _, ⟨hunknown, ⟨dummies, hchain, hlast, rfl⟩, hcheck⟩, rfl⟩)

end Receiving

theorem refuses_dispatch (kind : MessageKind) (m : SignedBody) :
    Refuses (Fault.Late ctx .chained kind m) (fun fault => fault.Ended ∧ kind ≠ .generic)
      (Extended ctx kind m) (Machine.dispatch (v := .chained) ctx kind m) := by
  cases kind with
  | newView =>
    exact refuses_onNewView (discreet_lead.mono (fun _ _ => id) fun _ hended => ⟨hended, nofun⟩) m
  | vote => exact refuses_onVote (fun _ hended => ⟨hended, nofun⟩) m
  | generic => exact refuses_onGeneric m
  | prepare | preCommit | commit | decide => exact Leaves.refuses fun _ => rfl

end Concord.Core.Chained
