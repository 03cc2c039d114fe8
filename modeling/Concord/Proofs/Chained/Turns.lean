import Concord.Proofs.Life

/-!
The handlers of the chained protocol as equations. A node that is heard is accepted, or the tree
changes at most by the bridge to its parent. This does not depend on the logged votes.
-/

namespace Concord.Core.Chained

open Handler Crypto

variable {σ : Type} {ctx : Context σ} {t : Turn Chain σ} {m : SignedBody} {tree : NodeTree}

section Adopting

def holding (node : Body) (t : Turn Chain σ) : Turn Chain σ :=
  { t with memory := { t.memory with tree := t.memory.tree.insert node, leaf := node.id } }

/-- The node is stored first and the walk comes last. If there is no next view, or the vote cannot
be signed, the walk is left out. -/
theorem exec_adopt (ctx : Context σ) (node : Body) (t : Turn Chain σ) :
    exec (adopt ctx node) t =
      match nextView node.view with
      | .error fault => (.error fault, holding node t)
      | .ok next =>
        if (ctx.leader next).key = ctx.me then exec (walk ctx node) (holding node t)
        else match ctx.build .vote (voteBody node) with
          | .error fault => (.error fault, holding node t)
          | .ok letter => exec (walk ctx node) { holding node t with
              effects := t.effects ++
                [.wrote letter, .postpone t.state.view (.send (ctx.leader next) letter)] } := by
  rw [adopt, exec_bind, exec_memory]
  dsimp only
  rw [exec_bind, exec_setMemory]
  dsimp only
  rw [exec_bind, exec_lift]
  cases nextView node.view with
  | error fault => rfl
  | ok next =>
    simp only [exec_ite]
    by_cases hself : (ctx.leader next).key = ctx.me
    · rw [if_neg (not_not_intro hself), if_pos hself]
      rfl
    · rw [if_pos hself, if_neg hself, exec_bind, exec_write]
      cases ctx.build .vote (voteBody node) with
      | error fault => rfl
      | ok letter =>
        dsimp only
        rw [exec_bind, exec_postpone]
        simp [holding]

theorem exec_adopt_of_ok {node : Body} (h : (exec (adopt ctx node) t).1 = .ok ()) :
    ∃ effects, exec (adopt ctx node) t =
      exec (walk ctx node) { holding node t with effects := effects } := by
  rw [exec_adopt] at h ⊢
  cases hnext : nextView node.view with
  | error fault =>
    rw [hnext] at h
    cases h
  | ok next =>
    rw [hnext] at h
    dsimp only at h ⊢
    split
    · exact ⟨_, rfl⟩
    · next hother =>
      rw [if_neg hother] at h
      cases hbuild : ctx.build .vote (voteBody node) with
      | error fault =>
        rw [hbuild] at h
        cases h
      | ok letter => exact ⟨_, rfl⟩

end Adopting

section Accepting

/-- The tree after the bridge to the parent of `node`, if the parent is unknown and the bridge leads
to it. -/
def bridged (scheme : Scheme) (tree : NodeTree) (node : Body) : Except Fault NodeTree :=
  if tree.contains node.parentId then .ok tree
  else match tree.dummyChain scheme node.justify.nodeId node.view with
    | .error fault => .error fault
    | .ok dummies =>
      .ok (if dummies.getLast?.any fun last => last.id = node.parentId then tree.insertAll dummies
        else tree)

theorem bridged_cases {scheme : Scheme} {node : Body} {tree' : NodeTree}
    (h : bridged scheme tree node = .ok tree') : tree' = tree ∨
      tree.contains node.parentId = false ∧ ∃ dummies,
        tree.dummyChain scheme node.justify.nodeId node.view = .ok dummies ∧
        dummies.getLast?.any (fun last => last.id = node.parentId) ∧
        tree' = tree.insertAll dummies := by
  unfold bridged at h
  split at h
  · exact .inl (Except.ok.inj h).symm
  · next hunknown =>
    split at h
    · cases h
    · next dummies hchain =>
      have htree := (Except.ok.inj h).symm
      split at htree
      · next hlast => exact .inr ⟨by simpa using hunknown, dummies, hchain, hlast, htree⟩
      · exact .inl htree

def replanted (tree : NodeTree) (t : Turn Chain σ) : Turn Chain σ :=
  { t with memory := { t.memory with tree := tree } }

theorem exec_bridge_eq (ctx : Context σ) (node : Body) (t : Turn Chain σ) :
    exec (bridge ctx node) t =
      match bridged ctx.scheme t.memory.tree node with
      | .error fault => (.error fault, t)
      | .ok tree => (.ok (), replanted tree t) := by
  rw [bridge, exec_bind, exec_memory]
  simp only [exec_ite, bridged]
  split
  · rfl
  · rw [exec_bind, exec_lift]
    cases t.memory.tree.dummyChain ctx.scheme node.justify.nodeId node.view with
    | error fault => rfl
    | ok dummies =>
      simp only [exec_ite]
      split <;> rfl

/-- The node passes all checks, with its parent looked up in `tree`. -/
structure Acceptable (ctx : Context σ) (m : SignedBody) (t : Turn Chain σ) (tree : NodeTree) :
    Prop where
  view_le : t.state.view ≤ m.view
  free : m.view = t.state.view → t.state.proposal = none
  sealed : m.body.computeId ctx.scheme = m.body.id
  bridged : bridged ctx.scheme t.memory.tree m.body = .ok tree
  checked : ctx.checkProposal t.state t.app m
    (fun lock => tree.extends? m.body.parentId lock.nodeId) = .ok ()

def nominated (m : SignedBody) (tree : NodeTree) (t : Turn Chain σ) : Turn Chain σ :=
  { replanted tree t with
    state := { t.state.jump m.view with phase := .generic, proposal := some m.body }
    effects := t.effects ++ [.resetTimer] }

theorem exec_accepted (ctx : Context σ) (m : SignedBody) (t : Turn Chain σ) :
    exec (do
      if t.state.view < m.view then
        update fun s => State.resetRound { s with view := m.view }
      update fun s => { s with phase := .generic, proposal := some m.body }
      resetTimer
      adopt ctx m.body) t = exec (adopt ctx m.body) { t with
        state := { t.state.jump m.view with phase := .generic, proposal := some m.body }
        effects := t.effects ++ [.resetTimer] } := by
  simp only [exec_ite]
  split
  · next hlater => simp only [exec_bind, exec_update, exec_resetTimer, State.jump, if_pos hlater]
  · next hlater => simp only [exec_bind, exec_update, exec_resetTimer, State.jump, if_neg hlater]

theorem screen_of_checkProposal {s : State} {app : σ} {extendsLock : Certificate → Bool}
    (h : ctx.checkProposal s app m extendsLock = .ok ()) : ctx.screenProposal m = .ok () := by
  unfold Context.checkProposal at h
  split at h
  · cases h
  · next hscreen => exact hscreen

theorem Acceptable.exec_eq (h : Acceptable ctx m t tree) :
    exec (onGeneric ctx m) t = exec (adopt ctx m.body) (nominated m tree t) := by
  have hbusy : ¬ (m.view = t.state.view && t.state.proposal.isSome) = true := by
    simpa using h.free
  rw [onGeneric, exec_bind, exec_state]
  dsimp only
  rw [if_neg (UInt64.not_lt.2 h.view_le), if_neg hbusy, screen_of_checkProposal h.checked, exec_bind,
    exec_lift]
  dsimp only
  rw [checkNodeId, if_pos h.sealed, exec_bind, exec_lift]
  dsimp only
  rw [exec_bind, exec_bridge_eq, h.bridged]
  dsimp only
  rw [exec_bind, exec_memory]
  dsimp only
  rw [exec_bind, exec_get]
  dsimp only
  rw [exec_bind, exec_lift]
  have hchecked : ctx.checkProposal t.state (replanted tree t).app m
      (fun lock => (replanted tree t).memory.tree.extends? m.body.parentId lock.nodeId) = .ok () :=
    h.checked
  rw [hchecked]
  exact exec_accepted ctx m (replanted tree t)

/-- A node that is not accepted is ignored because of its view, or refused. The tree is unchanged,
or it is bridged and the node fails the last check. -/
structure Declined (ctx : Context σ) (m : SignedBody) (t : Turn Chain σ) (result : Except Fault Unit)
    (tree : NodeTree) : Prop where
  late : result = .ok () → m.view < t.state.view ∨ m.view = t.state.view ∧ t.state.proposal.isSome
  tree : tree = t.memory.tree ∨ bridged ctx.scheme t.memory.tree m.body = .ok tree ∧
    ∃ fault, result = .error fault ∧ ctx.checkProposal t.state t.app m
      (fun lock => tree.extends? m.body.parentId lock.nodeId) = .error fault

theorem exec_onGeneric (ctx : Context σ) (m : SignedBody) (t : Turn Chain σ) :
    (∃ tree, Acceptable ctx m t tree) ∨
      ∃ result tree, Declined ctx m t result tree ∧
        exec (onGeneric ctx m) t = (result, replanted tree t) := by
  rw [onGeneric, exec_bind, exec_state]
  simp only [exec_ite]
  split
  · next hpast => exact .inr ⟨_, _, ⟨fun _ => .inl hpast, .inl rfl⟩, rfl⟩
  · next hview =>
    split
    · next hbusy => exact .inr ⟨_, _, ⟨fun _ => .inr (by simpa using hbusy), .inl rfl⟩, rfl⟩
    · next hfree =>
      rw [exec_bind, exec_lift]
      cases ctx.screenProposal m with
      | error fault => exact .inr ⟨.error fault, _, ⟨nofun, .inl rfl⟩, rfl⟩
      | ok _ =>
        dsimp only
        rw [exec_bind, exec_lift]
        unfold checkNodeId
        by_cases hid : m.body.computeId ctx.scheme = m.body.id
        · rw [if_pos hid]
          dsimp only
          rw [exec_bind, exec_bridge_eq]
          cases hbridged : bridged ctx.scheme t.memory.tree m.body with
          | error fault => exact .inr ⟨.error fault, _, ⟨nofun, .inl rfl⟩, rfl⟩
          | ok tree =>
            dsimp only
            rw [exec_bind, exec_memory]
            dsimp only
            rw [exec_bind, exec_get]
            dsimp only
            rw [exec_bind, exec_lift]
            cases hcheck : ctx.checkProposal t.state (replanted tree t).app m
                (fun lock => (replanted tree t).memory.tree.extends? m.body.parentId lock.nodeId) with
            | error fault =>
              exact .inr ⟨.error fault, _, ⟨nofun, .inr ⟨hbridged, fault, rfl, hcheck⟩⟩, rfl⟩
            | ok _ =>
              refine .inl ⟨tree, UInt64.not_lt.1 hview, fun h => ?_, hid, hbridged, hcheck⟩
              simpa [h] using hfree
        · rw [if_neg hid]
          exact .inr ⟨.error _, _, ⟨nofun, .inl rfl⟩, rfl⟩

theorem Acceptable.of_votes {votes : MessageLog} (h : Acceptable ctx m t tree) :
    Acceptable ctx m { t with state := { t.state with votes := votes } } tree :=
  ⟨h.view_le, h.free, h.sealed, h.bridged, h.checked⟩

end Accepting

section Voting

/-- A new vote for a view that the core has not passed, and the core leads the next view. -/
structure Countable (ctx : Context σ) (m : SignedBody) (t : Turn Chain σ) (next : View) : Prop where
  phase : m.phase = .generic
  view_le : t.state.view ≤ m.view
  inWindow : t.state.inWindow m.view
  next_eq : m.view.next? = some next
  leads : ctx.leads next
  fresh : t.state.votes.accepts m

def logged (m : SignedBody) (t : Turn Chain σ) : Turn Chain σ :=
  { t with state := { t.state with votes := t.state.votes.insert m } }

def certified (qc : Certificate) (next : View) (t : Turn Chain σ) : Turn Chain σ :=
  { t with
    state := State.resetRound
      { t.state with prepared := some (raise t.memory.high qc), view := next }
    memory := { t.memory with high := raise t.memory.high qc }
    effects := t.effects ++ [.certified qc, .resetTimer] }

def completed (view : View) (payload : Payload) (nodeId : Digest) (votes : List Vote) (own : Vote) :
    Certificate :=
  (Certificate.ofVotes ⟨.generic, view, payload, nodeId⟩ votes).addVote own

/-- The turn after the logged votes were counted for the node and payload of `m`. -/
def tally (ctx : Context σ) (m : SignedBody) (next : View) (t : Turn Chain σ) :
    Except Fault Unit × Turn Chain σ :=
  match votesFor ctx t.state m.view m.body.parentId m.body.payload with
  | none => (.ok (), t)
  | some votes =>
    if t.memory.tree.contains m.body.parentId then
      match ctx.ownVote m.body.payload with
      | .error fault => (.error fault, t)
      | .ok own => exec (propose ctx)
        (certified (completed m.view m.body.payload m.body.parentId votes own) next t)
    else (.ok (), t)

theorem exec_enterView {view : View} (h : t.state.view < view) :
    exec (enterView view) t = (.ok (), { t with
      state := State.resetRound { t.state with view := view }
      effects := t.effects ++ [.resetTimer] }) := by
  have hlater : ¬ view ≤ t.state.view := UInt64.not_le.2 h
  rw [enterView, exec_bind, exec_state]
  simp only [hlater, if_false]
  rw [exec_bind, exec_update]
  rfl

theorem Countable.exec_eq {next : View} (h : Countable ctx m t next) :
    exec (onVote ctx m) t = tally ctx m next (logged m t) := by
  have hlater : t.state.view < next := UInt64.lt_of_le_of_lt h.view_le (View.lt_next h.next_eq)
  have hscreen : ¬ (m.phase ≠ .generic || m.view < t.state.view) = true := by
    simp [h.phase, h.view_le]
  have hkeep : ¬ (!ctx.leads next || !t.state.votes.accepts m) = true := by
    simp [h.leads, h.fresh]
  rw [onVote, exec_bind, exec_state]
  dsimp only
  rw [if_neg hscreen, if_neg (by simp [h.inWindow]), exec_bind, exec_lift, nextView, h.next_eq]
  dsimp only
  rw [if_neg hkeep, exec_bind, exec_update]
  dsimp only
  rw [exec_bind, exec_state]
  dsimp only
  unfold tally logged
  dsimp only
  cases votesFor ctx { t.state with votes := t.state.votes.insert m } m.view m.body.parentId
      m.body.payload with
  | none => rfl
  | some votes =>
    dsimp only
    rw [exec_bind, exec_memory]
    dsimp only
    by_cases hknown : t.memory.tree.contains m.body.parentId
    · rw [if_neg (by simp [hknown]), if_pos hknown, exec_bind, exec_lift]
      cases ctx.ownVote m.body.payload with
      | error fault => rfl
      | ok own =>
        dsimp only
        rw [exec_bind, exec_ask]
        dsimp only
        rw [exec_bind, exec_setMemory]
        dsimp only
        rw [exec_bind, exec_update]
        dsimp only
        rw [exec_bind, exec_enterView]
        · simp [certified, completed]
        · exact hlater
    · rw [if_pos (by simpa using hknown), if_neg hknown]
      rfl

theorem exec_onVote (ctx : Context σ) (m : SignedBody) (t : Turn Chain σ) :
    (∃ next, Countable ctx m t next) ∨ ∃ result, exec (onVote ctx m) t = (result, t) := by
  rw [onVote, exec_bind, exec_state]
  simp only [exec_ite]
  split
  · exact .inr ⟨_, rfl⟩
  · next hscreen =>
    obtain ⟨hphase, hview⟩ : m.phase = .generic ∧ t.state.view ≤ m.view := by
      simpa using hscreen
    split
    · exact .inr ⟨.error _, rfl⟩
    · next hwindow =>
      rw [exec_bind, exec_lift]
      unfold nextView
      cases hnext : m.view.next? with
      | none => exact .inr ⟨.error _, rfl⟩
      | some next =>
        simp only [exec_ite]
        split
        · exact .inr ⟨_, rfl⟩
        · next hkeep =>
          obtain ⟨hleads, hfresh⟩ : ctx.leads next ∧ t.state.votes.accepts m := by simpa using hkeep
          exact .inl ⟨next, hphase, hview, by simpa using hwindow, hnext, hleads, hfresh⟩

end Voting

section Reading

variable {l : Life (Memory .chained) σ} {envelope : Envelope}

/-- A running turn accepts the node of `m`, and the core had no proposal in its view. -/
structure TakesOver (ctx : Context σ) (c : Machine .chained σ) (envelope : Envelope)
    (m : SignedBody) : Prop where
  generic : envelope.kind = .generic
  read : ctx.receive envelope = .ok m
  view_le : c.state.view ≤ m.view
  free : m.view = c.state.view → c.state.proposal = none
  accepted : (c.step ctx (.feed envelope)).result = .ok ()

theorem TakesOver.running (h : TakesOver ctx l.machine envelope m) : l.state.status = .running := by
  have hresult := h.accepted
  refine Decidable.byContradiction fun hstopped => ?_
  have hstatus : l.machine.state.status ≠ .running := hstopped
  simp [Machine.step, h.read, hstatus, Machine.refuse] at hresult

theorem TakesOver.acceptable (h : TakesOver ctx l.machine envelope m) :
    ∃ tree, Acceptable ctx m l.turn tree ∧
      l.machine.step ctx (.feed envelope) = l.machine.run (v := .chained) (onGeneric ctx m) ∧
      (exec (onGeneric ctx m) l.turn).1 = .ok () := by
  have hresult := h.accepted
  have hstep : l.machine.step ctx (.feed envelope) =
      l.machine.run (v := .chained) (onGeneric ctx m) := by
    rw [Life.step_feed h.running h.read, h.generic]
    rfl
  have hok : (exec (onGeneric ctx m) l.turn).1 = .ok () := by
    rw [hstep] at hresult
    exact hresult
  rcases exec_onGeneric ctx m l.turn with ⟨tree, hacceptable⟩ | ⟨result, tree, hdeclined, hsame⟩
  · exact ⟨tree, hacceptable, hstep, hok⟩
  · rw [hsame] at hok
    rcases hdeclined.late hok with hpast | ⟨hview, hbusy⟩
    · exact absurd hpast (UInt64.not_lt.2 h.view_le)
    · have hfree : l.state.proposal = none := h.free hview
      simp [hfree] at hbusy

end Reading

end Concord.Core.Chained
