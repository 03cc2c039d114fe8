import Concord.Proofs.Chained.Turns
import Concord.Proofs.NewViews
import Mathlib.Logic.Relation

/-!
The moves of the chained protocol. Taking over a node is one move with several parts, which ends the
turn. An input corresponds to a sequence of other moves and at most one adoption.
-/

namespace Concord.Core.Chained

open Handler Relation

variable {σ : Type}

def lifeOf (t : Turn Chain σ) : Life Chain σ := ⟨t.state, t.memory, t.app, [], [], []⟩

section Adopting

def stored (node : Body) (l : Life Chain σ) : Life Chain σ :=
  { l with memory := { l.memory with tree := l.memory.tree.insert node, leaf := node.id } }

def raisedBy (node : Body) (l : Life Chain σ) : Life Chain σ :=
  if supersedes l.memory.high node.justify then
    { l with
      memory := { l.memory with high := node.justify }
      state := { l.state with prepared := some node.justify } }
  else l

def lockedBy (node : Body) (l : Life Chain σ) : Life Chain σ :=
  { l with state := l.state.lock node.justify }

def settled (ctx : Context σ) (node : Body) (l : Life Chain σ) : Life Chain σ :=
  l.after
    { state := { l.state with decided := l.state.decided + 1 }
      memory := { l.memory with
        lastDecided := some node.view
        tree := l.memory.tree.pruneBelow node.view }
      app := ctx.application.deliver l.app node.view node.payload
      effects := [.deliver node.view node.payload] }

/-- The results of `walk` from `b2`, by the number of direct parents that are found. -/
inductive Walk (ctx : Context σ) (b2 : Body) (l : Life Chain σ) : Life Chain σ → Prop
  | loose : directParent? l.memory.tree b2 = none → Walk ctx b2 l l
  | one {b1 : Body} :
      directParent? l.memory.tree b2 = some b1 → directParent? l.memory.tree b1 = none →
      Walk ctx b2 l (raisedBy b2 l)
  | two {b1 b0 : Body} :
      directParent? l.memory.tree b2 = some b1 → directParent? l.memory.tree b1 = some b0 →
      directParent? l.memory.tree b0 = none →
      Walk ctx b2 l (lockedBy b1 (raisedBy b2 l))
  /-- The third node is the root, or of no later view than the last delivery. -/
  | stale {b1 b0 b : Body} :
      directParent? l.memory.tree b2 = some b1 → directParent? l.memory.tree b1 = some b0 →
      directParent? l.memory.tree b0 = some b →
      b.id = l.memory.tree.genesisId ∨ (∃ decided, l.memory.lastDecided = some decided ∧
        b.view ≤ decided) →
      Walk ctx b2 l (lockedBy b1 (raisedBy b2 l))
  | final {b1 b0 b : Body} :
      directParent? l.memory.tree b2 = some b1 → directParent? l.memory.tree b1 = some b0 →
      directParent? l.memory.tree b0 = some b → b.id ≠ l.memory.tree.genesisId →
      (∀ decided, l.memory.lastDecided = some decided → decided < b.view) →
      Walk ctx b2 l (settled ctx b (lockedBy b1 (raisedBy b2 l)))

/-- The results of `adopt`. If there is no next view or the vote cannot be signed, the core stores
the node and does not walk. -/
inductive Adopt (ctx : Context σ) (node : Body) (l : Life Chain σ) : Life Chain σ → Prop
  | last : node.view.next? = none → Adopt ctx node l (stored node l)
  | unsigned {fault : Fault} :
      ctx.build .vote (voteBody node) = .error fault → Adopt ctx node l (stored node l)
  | leading {next : View} {l' : Life Chain σ} :
      node.view.next? = some next → (ctx.leader next).key = ctx.me →
      Walk ctx node (stored node l) l' → Adopt ctx node l l'
  | voting {next : View} {letter : Letter} {l' : Life Chain σ} :
      node.view.next? = some next → (ctx.leader next).key ≠ ctx.me →
      ctx.Wrote .vote (voteBody node) letter →
      Walk ctx node ((stored node l).after { (stored node l).turn with
        effects := [.wrote letter, .postpone l.state.view (.send (ctx.leader next) letter)] }) l' →
      Adopt ctx node l l'

variable (ctx : Context σ) (node : Body) (l : Life Chain σ) (t : Turn Chain σ)

theorem exec_raise : ∃ u : Turn Chain σ, l.after u = raisedBy node (l.after t) ∧
    u.memory.tree = t.memory.tree ∧ u.memory.lastDecided = t.memory.lastDecided ∧
    ∀ rest : Handler Chain σ Unit, exec (if supersedes t.memory.high node.justify then do
      setMemory { t.memory with high := node.justify }
      update fun s => { s with prepared := some node.justify }
      rest
    else rest) t = exec rest u := by
  by_cases hraise : supersedes t.memory.high node.justify
  · refine ⟨{ t with
      state := { t.state with prepared := some node.justify }
      memory := { t.memory with high := node.justify } }, ?_, rfl, rfl, fun rest => ?_⟩
    · simp [raisedBy, Life.after, hraise]
    · simp [hraise, exec_bind]
  · refine ⟨t, ?_, rfl, rfl, fun rest => ?_⟩
    · simp [raisedBy, Life.after, hraise]
    · simp [hraise]

theorem walk_exec : Walk ctx node (l.after t) (l.after (exec (walk ctx node) t).2) := by
  rw [walk, exec_bind, exec_memory]
  dsimp only
  -- One case for each link that may be missing, from the node down.
  cases h2 : directParent? t.memory.tree node with
  | none => exact .loose h2
  | some b1 =>
    obtain ⟨u, hu, htree, hdecided, hexec⟩ := exec_raise node l t
    have hlocked : l.after { u with state := u.state.lock b1.justify } =
        lockedBy b1 (raisedBy node (l.after t)) := by
      rw [← hu]
      rfl
    dsimp only
    rw [hexec]
    cases h1 : directParent? t.memory.tree b1 with
    | none => exact hu ▸ .one h2 h1
    | some b0 =>
      dsimp only
      rw [exec_bind, exec_update]
      cases h0 : directParent? t.memory.tree b0 with
      | none => exact hlocked ▸ .two h2 h1 h0
      | some b =>
        dsimp only
        rw [commit, exec_bind, exec_memory]
        simp only [exec_ite]
        split
        · next hroot => exact hlocked ▸ .stale h2 h1 h0 (.inl (htree ▸ hroot))
        · next hroot =>
          split
          · next hstale =>
            rw [hdecided, Option.any_eq_true] at hstale
            obtain ⟨decided, hlast, hle⟩ := hstale
            exact hlocked ▸ .stale h2 h1 h0 (.inr ⟨decided, hlast, by simpa using hle⟩)
          · next hstale =>
            have hlater : ∀ decided, t.memory.lastDecided = some decided → decided < b.view := by
              intro decided hlast
              simpa [hdecided, hlast] using hstale
            have hfinal : Walk ctx node (l.after t) _ := .final h2 h1 h0 (htree ▸ hroot) hlater
            rw [← hlocked] at hfinal
            simpa [settled, exec_bind, Life.after] using hfinal

theorem adopt_exec : Adopt ctx node (l.after t) (l.after (exec (adopt ctx node) t).2) := by
  rw [exec_adopt]
  unfold nextView
  cases hnext : node.view.next? with
  | none => exact .last hnext
  | some next =>
    dsimp only
    split
    · next hself => exact .leading hnext hself (walk_exec ctx node l (holding node t))
    · next hother =>
      cases hbuild : ctx.build .vote (voteBody node) with
      | error fault => exact .unsigned hbuild
      | ok letter =>
        refine .voting hnext hother (Context.wrote_of_build hbuild) ?_
        have hwalk := walk_exec ctx node l { holding node t with
          effects := t.effects ++
            [.wrote letter, .postpone t.state.view (.send (ctx.leader next) letter)] }
        simpa [stored, holding, Life.after, Life.turn] using hwalk

end Adopting

def named (qc : Certificate) (leaf : Digest) : Certificate :=
  if qc.nodeId.isZero && !leaf.isZero then qc.withNode leaf else qc

/-- The node that a leader extends: the certified node if it is stored, and otherwise the leaf. -/
def seat (chain : Chain) : Digest :=
  if chain.tree.contains chain.high.nodeId then chain.high.nodeId else chain.leaf

def proposal (ctx : Context σ) (s : State) (chain : Chain) (parentId : Digest) (data : Bytes) :
    Body :=
  ((Body.plain s.view .generic ⟨chain.high.payload.hash ctx.scheme, data⟩ chain.high).withParent
    parentId).sealId ctx.scheme

/-- A leader takes the highest certificate from a quorum of NewViews. -/
inductive Gather (ctx : Context σ) : Life Chain σ → Life Chain σ → Prop
  | mk {l : Life Chain σ} {best : SignedBody} {qc high : Certificate} :
      ctx.leads l.state.view → l.state.proposal = none → best? ctx l.state = some best →
      taken ctx l.state best = .ok qc → high = raise l.memory.high (named qc best.body.parentId) →
      Gather ctx l (l.after { l.turn with
        state := { l.state with
          newViews := l.state.newViews.removeView l.state.view
          prepared := some high }
        memory := { l.memory with high := high } })

/-- The leader of the next view makes a certificate from its logged votes and enters that view. -/
inductive Certify (ctx : Context σ) : Life Chain σ → Life Chain σ → Prop
  | mk {l : Life Chain σ} {view next : View} {nodeId : Digest} {payload : Payload}
      {votes : List Vote} {own : Vote} {qc high : Certificate} :
      l.state.view ≤ view → view.next? = some next → ctx.leads next →
      votesFor ctx l.state view nodeId payload = some votes → l.memory.tree.contains nodeId →
      ctx.ownVote payload = .ok own →
      qc = (Certificate.ofVotes ⟨.generic, view, payload, nodeId⟩ votes).addVote own →
      high = raise l.memory.high qc →
      Certify ctx l (l.after { l.turn with
        state := State.resetRound { l.state with prepared := some high, view := next }
        memory := { l.memory with high := high }
        effects := [.certified qc, .resetTimer] })

/-- A leader proposes a node for its view and takes it over. -/
inductive Propose (ctx : Context σ) : Life Chain σ → Life Chain σ → Prop
  | mk {l : Life Chain σ} {tree : NodeTree} {parentId : Digest} {data : Bytes} {app : σ}
      {node : Body} {letter : Letter} {l' : Life Chain σ} :
      ctx.leads l.state.view → l.state.proposal = none →
      l.memory.tree.backfill ctx.scheme (seat l.memory) l.state.view = .ok (tree, parentId) →
      ctx.application.produce l.app = (.ok data, app) →
      node = proposal ctx l.state l.memory parentId data → ctx.Wrote .generic node letter →
      Adopt ctx node (l.after
        { state := { l.state with proposal := some node, phase := .generic }
          memory := { l.memory with tree := tree }
          app := app
          effects := [.wrote letter, .resetTimer, .broadcast letter] }) l' →
      Propose ctx l l'

/-- The moves other than taking over a node. -/
inductive Move (ctx : Context σ) : Life Chain σ → Life Chain σ → Prop
  | hear {l : Life Chain σ} {letter : Letter} :
      ctx.Genuine letter →
      Move ctx l { l with heard := l.heard ++ [letter] }
  | note {l : Life Chain σ} : Move ctx l l.noted
  | retouch {l : Life Chain σ} {app : σ} : Move ctx l { l with app := app }
  | begin {l : Life Chain σ} :
      l.state.status = .init → l.state.proposal = none →
      Move ctx l (l.after { l.turn with
        state := State.resetRound { l.state with status := .running }
        effects := [.resetTimer] })
  | stop {l : Life Chain σ} :
      Move ctx l { l with state := { l.state with status := .stopped } }
  | enter {l : Life Chain σ} {view : View} :
      l.state.view.next? = some view →
      Move ctx l (l.after { l.turn with
        state := State.resetRound { l.state with view := view, phase := .newView }
        effects := [.resetTimer] })
  /-- A postponed vote is sent. -/
  | errand {l : Life Chain σ} {receiver : Member} {letter : Letter} :
      .postpone l.state.view (.send receiver letter) ∈ l.done →
      Move ctx l (l.after { l.turn with
        effects := if receiver.key = ctx.me then [] else [.send receiver letter] })
  | report {l : Life Chain σ} :
      ctx.leads l.state.view = false → l.Blank →
      Move ctx l (l.after { l.turn with
        effects := ctx.posted (ctx.leader l.state.view) .newView
          (newViewBody l.state l.memory) })
  | keep {l : Life Chain σ} {m : SignedBody} :
      ⟨.newView, m⟩ ∈ l.heard → l.state.view ≤ m.view → l.state.inWindow m.view →
      (0 < m.justify.view → ctx.verifyCertificate m.justify) →
      Move ctx l (l.after { l.turn with
        state := { l.state with newViews := l.state.newViews.insert m } })
  | gather {l l' : Life Chain σ} : Gather ctx l l' → Move ctx l l'
  | log {l : Life Chain σ} {m : SignedBody} {next : View} :
      ⟨.vote, m⟩ ∈ l.heard → m.phase = .generic → l.state.view ≤ m.view →
      l.state.inWindow m.view → m.view.next? = some next → ctx.leads next →
      Move ctx l (l.after { l.turn with
        state := { l.state with votes := l.state.votes.insert m } })
  | certify {l l' : Life Chain σ} : Certify ctx l l' → Move ctx l l'
  /-- The application or the signer fails after the bridge was stored. -/
  | regenerate {l : Life Chain σ} {tree : NodeTree} {parentId : Digest} {app : σ} :
      l.memory.tree.backfill ctx.scheme (seat l.memory) l.state.view = .ok (tree, parentId) →
      Move ctx l (l.after { l.turn with memory := { l.memory with tree := tree }, app := app })
  | bridge {l : Life Chain σ} {m : SignedBody} {dummies : List Body} :
      ⟨.generic, m⟩ ∈ l.heard →
      l.memory.tree.dummyChain ctx.scheme m.justify.nodeId m.view = .ok dummies →
      dummies.getLast?.any (fun last => last.id = m.body.parentId) →
      Move ctx l (l.after { l.turn with
        memory := { l.memory with tree := l.memory.tree.insertAll dummies } })

/-- A member takes over a node that it heard. -/
inductive Accept (ctx : Context σ) : Life Chain σ → Life Chain σ → Prop
  | mk {l l' : Life Chain σ} {m : SignedBody} :
      ⟨.generic, m⟩ ∈ l.heard → l.state.view ≤ m.view →
      (m.view = l.state.view → l.state.proposal = none) →
      checkNodeId ctx m.body = .ok () →
      ctx.checkProposal l.state l.app m
        (fun lock => l.memory.tree.extends? m.body.parentId lock.nodeId) = .ok () →
      Adopt ctx m.body (l.after { l.turn with
        state := { l.state.jump m.view with phase := .generic, proposal := some m.body }
        effects := [.resetTimer] }) l' →
      Accept ctx l l'

/-- A core takes over a node that it heard, or that it proposes on NewViews or on votes. -/
inductive Adoption (ctx : Context σ) : Life Chain σ → Life Chain σ → Prop
  | accept {l l' : Life Chain σ} : Accept ctx l l' → Adoption ctx l l'
  | gathered {l l' l'' : Life Chain σ} :
      Gather ctx l l' → Propose ctx l' l'' → Adoption ctx l l''
  | certified {l l' l'' : Life Chain σ} :
      Certify ctx l l' → Propose ctx l' l'' → Adoption ctx l l''

/-- Any number of moves, and then at most one adoption. -/
def Course (ctx : Context σ) (l l' : Life Chain σ) : Prop :=
  ∃ l₁, ReflTransGen (Move ctx) l l₁ ∧ (l' = l₁ ∨ Adoption ctx l₁ l')

section Handlers

variable {ctx : Context σ} {l l' : Life Chain σ} {t : Turn Chain σ}

theorem Course.refl (l : Life Chain σ) : Course ctx l l := ⟨l, .refl, .inl rfl⟩

theorem Course.of_start {l₁ : Life Chain σ} (hcourse : Course ctx l₁ l') (h : l₁ = l) :
    Course ctx l l' :=
  h ▸ hcourse

theorem Course.of_move (h : Move ctx l l') : Course ctx l l' := ⟨l', .single h, .inl rfl⟩

theorem Course.of_adoption (h : Adoption ctx l l') : Course ctx l l' := ⟨l, .refl, .inr h⟩

theorem Course.head {l₁ : Life Chain σ} (h : Move ctx l l₁) (hcourse : Course ctx l₁ l') :
    Course ctx l l' := by
  obtain ⟨l₂, hmoves, hlast⟩ := hcourse
  exact ⟨l₂, .head h hmoves, hlast⟩

def announcing (tree : NodeTree) (app : σ) (node : Body) (letter : Letter) (t : Turn Chain σ) :
    Turn Chain σ where
  state := { t.state with proposal := some node, phase := .generic }
  memory := { t.memory with tree := tree }
  app := app
  effects := t.effects ++ [.wrote letter, .resetTimer, .broadcast letter]

/-- A leader without a proposal can bridge the skipped views, produce data and sign a node. -/
structure Proposable (ctx : Context σ) (t : Turn Chain σ) (tree : NodeTree) (parentId : Digest)
    (data : Bytes) (app : σ) (letter : Letter) : Prop where
  leads : ctx.leads t.state.view
  free : t.state.proposal = none
  backfill : t.memory.tree.backfill ctx.scheme (seat t.memory) t.state.view = .ok (tree, parentId)
  produced : ctx.application.produce t.app = (.ok data, app)
  built : ctx.build .generic (proposal ctx t.state t.memory parentId data) = .ok letter

theorem Proposable.exec_eq {tree : NodeTree} {parentId : Digest} {data : Bytes} {app : σ}
    {letter : Letter} (h : Proposable ctx t tree parentId data app letter) :
    exec (propose ctx) t = exec (adopt ctx (proposal ctx t.state t.memory parentId data))
      (announcing tree app (proposal ctx t.state t.memory parentId data) letter t) := by
  have hlead : ¬ (!ctx.leads t.state.view || t.state.proposal.isSome) = true := by
    simp [h.leads, h.free]
  have hseat : (if t.memory.tree.contains t.memory.high.nodeId then t.memory.high.nodeId
    else t.memory.leaf) = seat t.memory := rfl
  have hbody : ((Body.plain t.state.view .generic
      ⟨t.memory.high.payload.hash ctx.scheme, data⟩ t.memory.high).withParent
      parentId).sealId ctx.scheme = proposal ctx t.state t.memory parentId data := rfl
  rw [propose, exec_bind, exec_state]
  dsimp only
  rw [if_neg hlead, exec_bind, exec_memory]
  dsimp only
  rw [hseat, h.backfill, exec_bind, exec_lift]
  dsimp only
  rw [exec_bind, exec_setMemory]
  dsimp only
  rw [exec_bind, exec_produce, h.produced]
  dsimp only [Handler.produced]
  rw [hbody, exec_bind, exec_write, h.built]
  dsimp only
  rw [exec_bind, exec_update]
  dsimp only
  rw [exec_bind, exec_resetTimer]
  dsimp only
  rw [exec_bind, exec_broadcast]
  simp [announcing]

theorem exec_propose_cases (ctx : Context σ) (t : Turn Chain σ) :
    (exec (propose ctx) t).2 = t ∨
      (∃ tree parentId app,
        t.memory.tree.backfill ctx.scheme (seat t.memory) t.state.view = .ok (tree, parentId) ∧
        (exec (propose ctx) t).2 = { replanted tree t with app := app }) ∨
      ∃ tree parentId data app letter, Proposable ctx t tree parentId data app letter := by
  rw [propose, exec_bind, exec_state]
  simp only [exec_ite]
  split
  · exact .inl rfl
  · next hlead =>
    obtain ⟨hleads, hfree⟩ : ctx.leads t.state.view ∧ t.state.proposal = none := by
      simpa using hlead
    rw [exec_bind, exec_memory]
    have hseat : (if t.memory.tree.contains t.memory.high.nodeId then t.memory.high.nodeId
      else t.memory.leaf) = seat t.memory := rfl
    simp only [hseat]
    rw [exec_bind, exec_lift]
    rcases hbackfill : t.memory.tree.backfill ctx.scheme (seat t.memory) t.state.view with
      fault | ⟨tree, parentId⟩
    · exact .inl rfl
    · dsimp only
      rw [exec_bind, exec_setMemory]
      dsimp only
      rw [exec_bind, exec_produce]
      rcases hproduce : ctx.application.produce t.app with ⟨fault | data, app⟩
      · exact .inr (.inl ⟨tree, parentId, app, rfl, rfl⟩)
      · cases hbuild : ctx.build .generic (proposal ctx t.state t.memory parentId data) with
        | error fault =>
          refine .inr (.inl ⟨tree, parentId, app, rfl, ?_⟩)
          have hbody : ((Body.plain t.state.view .generic
              ⟨t.memory.high.payload.hash ctx.scheme, data⟩ t.memory.high).withParent
              parentId).sealId ctx.scheme = proposal ctx t.state t.memory parentId data := rfl
          simp only [produced]
          rw [hbody, exec_bind, exec_write, hbuild]
          rfl
        | ok letter =>
          exact .inr (.inr ⟨tree, parentId, data, app, letter, hleads, hfree, hbackfill, hproduce,
            hbuild⟩)

theorem exec_propose (ctx : Context σ) (l : Life Chain σ) (t : Turn Chain σ) :
    (exec (propose ctx) t).2 = t ∨
      (∃ tree parentId app,
        t.memory.tree.backfill ctx.scheme (seat t.memory) t.state.view = .ok (tree, parentId) ∧
        (exec (propose ctx) t).2 = { t with memory := { t.memory with tree := tree }, app := app }) ∨
      Propose ctx (l.after t) (l.after (exec (propose ctx) t).2) := by
  refine (exec_propose_cases ctx t).imp_right (Or.imp_right ?_)
  rintro ⟨tree, parentId, data, app, letter, h⟩
  refine .mk h.leads h.free h.backfill h.produced rfl (Context.wrote_of_build h.built) ?_
  have hadopt := adopt_exec ctx (proposal ctx t.state t.memory parentId data) l
    (announcing tree app (proposal ctx t.state t.memory parentId data) letter t)
  rw [h.exec_eq]
  simpa [Life.after, Life.turn, announcing] using hadopt

theorem course_propose (hmove : Move ctx l (l'.after t))
    (hlead : ∀ {l''}, Propose ctx (l'.after t) l'' → Adoption ctx l l'') :
    Course ctx l (l'.after (exec (propose ctx) t).2) := by
  rcases exec_propose ctx l' t with hsame | ⟨tree, parentId, app, hbackfill, hregenerate⟩ | hpropose
  · rw [hsame]
    exact .of_move hmove
  · rw [hregenerate]
    refine .head hmove (.of_move ?_)
    have hbridged : Move ctx (l'.after t) _ := @Move.regenerate _ _ _ _ _ app hbackfill
    simpa [Life.after, Life.turn] using hbridged
  · exact .of_adoption (hlead hpropose)

theorem exec_takeNewViews_idle (h : ctx.leads t.state.view = false ∨ best? ctx t.state = none) :
    exec (takeNewViews ctx) t = (.ok false, t) := by
  rw [takeNewViews, exec_bind, exec_state]
  simp only [exec_ite]
  split
  · rfl
  · next hlead =>
    have hleads : ctx.leads t.state.view := by
      by_contra hnot
      simp [hnot] at hlead
    have hnone : best? ctx t.state = none := h.resolve_left (by simp [hleads])
    rw [exec_bind, exec_takeHighCertificate, hnone]
    rfl

theorem exec_takeNewViews (ctx : Context σ) (l : Life Chain σ) (t : Turn Chain σ) :
    ((exec (takeNewViews ctx) t).2 = t ∧ (exec (takeNewViews ctx) t).1 ≠ .ok true) ∨
      ((exec (takeNewViews ctx) t).1 = .ok true ∧
        Gather ctx (l.after t) (l.after (exec (takeNewViews ctx) t).2)) := by
  rw [takeNewViews, exec_bind, exec_state]
  simp only [exec_ite]
  split
  · exact .inl ⟨rfl, by simp⟩
  · next hlead =>
    obtain ⟨hleads, hproposal⟩ : ctx.leads t.state.view ∧ t.state.proposal = none := by
      simpa using hlead
    rw [exec_bind, exec_takeHighCertificate]
    cases hbest : best? ctx t.state with
    | none => exact .inl ⟨rfl, by simp⟩
    | some best =>
      dsimp only
      cases htaken : taken ctx t.state best with
      | error fault => exact .inl ⟨rfl, by simp⟩
      | ok qc =>
        refine .inr ⟨rfl, ?_⟩
        have hgather : Gather ctx (l.after t) _ := .mk hleads hproposal hbest htaken rfl
        dsimp only
        rw [exec_bind, exec_memory]
        dsimp only
        rw [exec_bind, exec_setMemory]
        dsimp only
        rw [exec_bind, exec_update]
        simpa [Life.after, Life.turn, named] using hgather

theorem course_lead :
    Course ctx (l.after t) (l.after (exec (do if ← takeNewViews ctx then propose ctx) t).2) := by
  rw [exec_bind]
  have htake := exec_takeNewViews ctx l t
  rcases hexec : exec (takeNewViews ctx) t with ⟨result, t'⟩
  rw [hexec] at htake
  rcases htake with ⟨rfl, hfalse⟩ | ⟨rfl, hgather⟩
  · rcases result with fault | _ | _
    · exact .refl _
    · exact .refl _
    · exact absurd rfl hfalse
  · exact course_propose (.gather hgather) (.gathered hgather)

theorem course_openRound (hblank : (l.after t).Blank) :
    Course ctx (l.after t) (l.after (exec (openRound ctx) t).2) := by
  rw [openRound, exec_bind, exec_state]
  simp only [exec_ite]
  split
  · exact course_lead
  · next hlead =>
    have hleads : ctx.leads t.state.view = false := by simpa using hlead
    rw [exec_bind, exec_memory]
    dsimp only
    rw [exec_post]
    have hmove : Move ctx (l.after t) _ := .report hleads hblank
    refine .of_move ?_
    simpa [Life.after, Life.turn] using hmove

theorem course_advanceTo {view : View} (h : t.state.view.next? = some view)
    (htimely : (l.after t).Timely) :
    Course ctx (l.after t) (l.after (exec (advanceTo (openRound ctx) view) t).2) := by
  rw [exec_advanceTo]
  refine .head (.enter h) ?_
  have hopen : Course ctx (l.after { t with
    state := State.resetRound { t.state with view := view, phase := .newView }
    effects := t.effects ++ [.resetTimer] }) _ :=
    course_openRound (Life.blank_entered h htimely)
  simpa [Life.after, Life.turn] using hopen

theorem course_onNewView {m : SignedBody} (hm : ⟨.newView, m⟩ ∈ l.heard) :
    Course ctx (l.after t) (l.after (exec (onNewView ctx m) t).2) := by
  rw [onNewView, exec_bind]
  have hkeep := exec_acceptNewView ctx m t
  rcases hexec : exec (acceptNewView ctx m) t with ⟨result, t'⟩
  rw [hexec] at hkeep
  have hfirst : ∀ l', Course ctx (l.after t') l' → Course ctx (l.after t) l' := by
    intro l' hcourse
    rcases hkeep with hsame | ⟨hview, hwindow, hjustify, hsame⟩
    · exact hsame ▸ hcourse
    · refine .head (.keep (l := l.after t) hm hview hwindow hjustify) ?_
      dsimp only at hsame
      rw [hsame] at hcourse
      simpa [Life.after, Life.turn] using hcourse
  rcases result with fault | _ | _
  · exact hfirst _ (.refl _)
  · exact hfirst _ (.refl _)
  · exact hfirst _ course_lead

theorem course_onVote {m : SignedBody} (hm : ⟨.vote, m⟩ ∈ l.heard) :
    Course ctx (l.after t) (l.after (exec (onVote ctx m) t).2) := by
  rcases exec_onVote ctx m t with ⟨next, h⟩ | ⟨result, hsame⟩
  · have hlog : Move ctx (l.after t) (l.after (logged m t)) := by
      have hmove : Move ctx (l.after t) _ :=
        .log hm h.phase h.view_le h.inWindow h.next_eq h.leads
      simpa [Life.after, Life.turn, logged] using hmove
    refine .head hlog ?_
    rw [h.exec_eq, tally]
    split
    · exact .refl _
    · next votes hvotes =>
      split
      · next hknown =>
        split
        · exact .refl _
        · next own hown =>
          have hcertify : Certify ctx (l.after (logged m t)) (l.after (certified
              (completed m.view m.body.payload m.body.parentId votes own) next (logged m t))) := by
            have hmade : Certify ctx (l.after (logged m t)) _ :=
              .mk h.view_le h.next_eq h.leads hvotes hknown hown rfl rfl
            simpa [Life.after, Life.turn, certified, completed] using hmade
          exact course_propose (.certify hcertify) (.certified hcertify)
      · exact .refl _
  · rw [hsame]
    exact .refl _

theorem course_replanted {m : SignedBody} {tree : NodeTree} (hm : ⟨.generic, m⟩ ∈ l.heard)
    (h : bridged ctx.scheme t.memory.tree m.body = .ok tree) :
    l.after (replanted tree t) = l.after t ∨ Move ctx (l.after t) (l.after (replanted tree t)) := by
  rcases bridged_cases h with rfl | ⟨-, dummies, hchain, hlast, rfl⟩
  · exact .inl rfl
  · refine .inr ?_
    have hmove : Move ctx (l.after t) _ := .bridge hm hchain hlast
    simpa [Life.after, Life.turn, replanted] using hmove

theorem course_onGeneric {m : SignedBody} (hm : ⟨.generic, m⟩ ∈ l.heard) :
    Course ctx (l.after t) (l.after (exec (onGeneric ctx m) t).2) := by
  have hfirst : ∀ {tree l'}, bridged ctx.scheme t.memory.tree m.body = .ok tree →
      Course ctx (l.after (replanted tree t)) l' → Course ctx (l.after t) l' := by
    intro tree l' hbridged hcourse
    rcases course_replanted hm hbridged with hsame | hmove
    · exact hsame ▸ hcourse
    · exact .head hmove hcourse
  rcases exec_onGeneric ctx m t with ⟨tree, hacceptable⟩ | ⟨result, tree, ⟨-, htree⟩, hexec⟩
  · refine hfirst hacceptable.bridged (.of_adoption (.accept (.mk (l := l.after (replanted tree t))
      hm hacceptable.view_le hacceptable.free ?_ hacceptable.checked ?_)))
    · rw [checkNodeId, if_pos hacceptable.sealed]
    · rw [hacceptable.exec_eq]
      have hadopt := adopt_exec ctx m.body l (nominated m tree t)
      simpa [Life.after, Life.turn, nominated, replanted] using hadopt
  · rw [hexec]
    rcases htree with rfl | ⟨hbridged, -⟩
    · exact .refl _
    · exact hfirst hbridged (.refl _)

theorem exec_onGeneric_of_known {m : SignedBody} (hview : t.state.view ≤ m.view)
    (hfree : m.view = t.state.view → t.state.proposal = none)
    (hid : m.body.computeId ctx.scheme = m.body.id)
    (hknown : t.memory.tree.contains m.body.parentId)
    (hcheck : ctx.checkProposal t.state t.app m
      (fun lock => t.memory.tree.extends? m.body.parentId lock.nodeId) = .ok ()) :
    exec (onGeneric ctx m) t = exec (adopt ctx m.body) { t with
      state := { t.state.jump m.view with phase := .generic, proposal := some m.body }
      effects := t.effects ++ [.resetTimer] } := by
  have hacceptable : Acceptable ctx m t t.memory.tree :=
    ⟨hview, hfree, hid, by rw [bridged, if_pos hknown], hcheck⟩
  exact hacceptable.exec_eq

end Handlers

section Runs

variable {ctx : Context σ} {l l' : Life Chain σ}

/-- The parts of the state that taking over a node does not change. -/
structure Steady (s s' : State) : Prop where
  view : s'.view = s.view
  phase : s'.phase = s.phase
  status : s'.status = s.status
  newViews : s'.newViews = s.newViews
  votes : s'.votes = s.votes
  proposal : s'.proposal = s.proposal

theorem Steady.refl (s : State) : Steady s s := ⟨rfl, rfl, rfl, rfl, rfl, rfl⟩

theorem steady_raisedBy (node : Body) (l : Life Chain σ) :
    Steady l.state (raisedBy node l).state := by
  unfold raisedBy
  split
  · exact ⟨rfl, rfl, rfl, rfl, rfl, rfl⟩
  · exact .refl _

theorem steady_lockedBy {s : State} {node : Body} {l : Life Chain σ} (h : Steady s l.state) :
    Steady s (lockedBy node l).state := by
  obtain ⟨hview, hphase, hstatus, hnewViews, hvotes, hproposal⟩ := h
  constructor <;> simpa [lockedBy]

theorem Walk.steady {node : Body} (h : Walk ctx node l l') : Steady l.state l'.state := by
  cases h with
  | loose => exact .refl _
  | one => exact steady_raisedBy node l
  | two | stale => exact steady_lockedBy (steady_raisedBy node l)
  | final =>
    obtain ⟨hview, hphase, hstatus, hnewViews, hvotes, hproposal⟩ :=
      steady_lockedBy (steady_raisedBy node l)
    exact ⟨hview, hphase, hstatus, hnewViews, hvotes, hproposal⟩

theorem Adopt.steady {node : Body} (h : Adopt ctx node l l') : Steady l.state l'.state := by
  cases h with
  | last | unsigned => exact .refl _
  | leading _ _ hwalk => exact hwalk.steady
  | voting _ _ _ hwalk => exact hwalk.steady

theorem Move.ascends (h : Move ctx l l') : l.state.view < l'.state.view ∨
    l.state.view = l'.state.view ∧ (l.state.proposal.isSome → l'.state.proposal.isSome) := by
  cases h with
  | begin hinit hproposal => exact .inr (by simp [State.resetRound, hproposal])
  | enter hnext => exact .inl (View.lt_next hnext)
  | gather hgather => cases hgather; exact .inr (by simp)
  | certify hcertify =>
    cases hcertify with
    | mk hview hnext => exact .inl (UInt64.lt_of_le_of_lt hview (View.lt_next hnext))
  | _ => exact .inr (by simp [Life.noted])

theorem Move.le_view (h : Move ctx l l') : l.state.view ≤ l'.state.view := by
  rcases h.ascends with hlt | ⟨heq, -⟩
  · exact UInt64.le_of_lt hlt
  · exact heq ▸ UInt64.le_refl _

theorem Move.written (h : Move ctx l l') : l'.written = l.written ∨
    l.Blank ∧ l'.state = l.state ∧
      l'.written = l.written ++ ctx.signed .newView (newViewBody l.state l.memory) := by
  cases h with
  | hear | note | retouch | stop => exact .inl rfl
  | report hleads hblank => exact .inr ⟨hblank, rfl, by simp [written_posted]⟩
  | gather hgather => cases hgather; exact .inl (by simp)
  | certify hcertify => cases hcertify; exact .inl (by simp [List.filterMap_cons])
  | errand =>
    refine .inl ?_
    rw [Life.written_after]
    dsimp only
    split <;> simp [List.filterMap_cons]
  | _ => exact .inl (by simp [List.filterMap_cons])

theorem Walk.written {node : Body} (h : Walk ctx node l l') : l'.written = l.written := by
  have hraised : (raisedBy node l).written = l.written := by
    unfold raisedBy
    split <;> rfl
  cases h with
  | loose => rfl
  | one | two | stale => exact hraised
  | final =>
    rw [settled, Life.written_after]
    simpa [lockedBy, Life.written, List.filterMap_cons] using hraised

theorem Adopt.written {node : Body} (h : Adopt ctx node l l') : ∃ xs,
    l'.written = l.written ++ xs ∧ xs.Sublist (ctx.signed .vote (voteBody node)) := by
  cases h with
  | last | unsigned => exact ⟨[], (List.append_nil _).symm, List.nil_sublist _⟩
  | leading _ _ hwalk =>
    exact ⟨[], hwalk.written.trans (List.append_nil _).symm, List.nil_sublist _⟩
  | voting _ _ hwrote hwalk =>
    refine ⟨_, ?_, List.Sublist.refl _⟩
    rw [hwalk.written, Life.written_after, hwrote.signed]
    rfl

/-- The core gets a proposal in a view in which it had none, and signs at most the node and the vote
for it. -/
structure Nominates (ctx : Context σ) (l l' : Life Chain σ) (node : Body) : Prop where
  free : l.state.view = l'.state.view → l.state.proposal = none
  le_view : l.state.view ≤ l'.state.view
  proposal : l'.state.proposal = some node
  view : node.view = l'.state.view
  written : ∃ xs, l'.written = l.written ++ xs ∧
    xs.Sublist (ctx.signed .generic node ++ ctx.signed .vote (voteBody node))

theorem Accept.nominates (h : Accept ctx l l') : ∃ node, Nominates ctx l l' node := by
  cases h with
  | @mk m hm hview hfree hid hcheck hadopt =>
    have hsteady := hadopt.steady
    have hview' : l'.state.view = m.view := hsteady.view.trans (State.jump_view hview)
    obtain ⟨xs, hwritten, hxs⟩ := hadopt.written
    refine ⟨m.body, fun heq => hfree (hview' ▸ heq.symm), hview' ▸ hview, hsteady.proposal,
      hview'.symm, xs, ?_, hxs.trans (List.sublist_append_right _ _)⟩
    simpa [List.filterMap_cons] using hwritten

theorem Propose.nominates (h : Propose ctx l l') : ∃ node, Nominates ctx l l' node := by
  cases h with
  | @mk tree parentId data app node letter _ hleads hproposal hbackfill hproduce hnode hwrote
      hadopt =>
    have hsteady := hadopt.steady
    have hview : l'.state.view = l.state.view := hsteady.view
    obtain ⟨xs, hwritten, hxs⟩ := hadopt.written
    refine ⟨node, fun _ => hproposal, hview ▸ UInt64.le_refl _, hsteady.proposal, ?_,
      ctx.signed .generic node ++ xs, ?_, hxs.append_left _⟩
    · rw [hview, hnode]
      rfl
    · simpa [List.filterMap_cons, hwrote.signed] using hwritten

theorem Nominates.timely {node : Body} (h : Nominates ctx l l' node) (htimely : l.Timely) :
    l'.Timely := by
  obtain ⟨xs, hwritten, hxs⟩ := h.written
  refine htimely.append hwritten h.le_view fun x hx => ?_
  rcases List.mem_append.1 (hxs.subset hx) with hx | hx
  · rw [(Context.mem_signed.1 hx).body_eq, h.view]
  · rw [(Context.mem_signed.1 hx).body_eq]
    exact h.view

theorem Move.timely (h : Move ctx l l') (htimely : l.Timely) : l'.Timely := by
  rcases h.written with hsame | ⟨-, hstate, hmore⟩
  · exact htimely.same hsame h.le_view
  · refine htimely.append hmore h.le_view fun x hx => ?_
    rw [(Context.mem_signed.1 hx).body_eq, hstate]
    rfl

theorem Course.keeps {P : Life Chain σ → Prop} (h : Course ctx l l') (hl : P l)
    (move : ∀ {l l'}, Move ctx l l' → P l → P l') (accept : ∀ {l l'}, Accept ctx l l' → P l → P l')
    (propose : ∀ {l l'}, Propose ctx l l' → P l → P l') : P l' := by
  obtain ⟨l₁, hmoves, hlast⟩ := h
  have hfirst : P l₁ := by
    clear hlast
    induction hmoves with
    | refl => exact hl
    | tail _ hmove ih => exact move hmove ih
  rcases hlast with rfl | haccept | ⟨hgather, hpropose⟩ | ⟨hcertify, hpropose⟩
  · exact hfirst
  · exact accept haccept hfirst
  · exact propose hpropose (move (.gather hgather) hfirst)
  · exact propose hpropose (move (.certify hcertify) hfirst)

theorem Course.timely (h : Course ctx l l') (htimely : l.Timely) : l'.Timely :=
  h.keeps htimely Move.timely
    (fun haccept htimely => haccept.nominates.elim fun _ hnominates => hnominates.timely htimely)
    (fun hpropose htimely => hpropose.nominates.elim fun _ hnominates => hnominates.timely htimely)

theorem Move.begun (h : Move ctx l l') (hbegun : l.state.status ≠ .init) :
    l'.state.status ≠ .init := by
  cases h with
  | gather h => cases h; simpa using hbegun
  | certify h => cases h; simpa [State.resetRound] using hbegun
  | begin | stop => simp [State.resetRound]
  | enter => simpa [State.resetRound] using hbegun
  | _ => simpa [Life.noted] using hbegun

theorem Propose.begun (h : Propose ctx l l') (hbegun : l.state.status ≠ .init) :
    l'.state.status ≠ .init := by
  cases h with
  | mk _ _ _ _ _ _ hadopt =>
    rw [hadopt.steady.status]
    exact hbegun

theorem Accept.begun (h : Accept ctx l l') (hbegun : l.state.status ≠ .init) :
    l'.state.status ≠ .init := by
  cases h with
  | mk _ _ _ _ _ hadopt =>
    rw [hadopt.steady.status]
    simpa using hbegun

theorem Course.begun (h : Course ctx l l') (hbegun : l.state.status ≠ .init) :
    l'.state.status ≠ .init :=
  h.keeps hbegun Move.begun Accept.begun Propose.begun

theorem course_dispatch {t : Turn Chain σ} {kind : MessageKind} {m : SignedBody}
    (hm : ⟨kind, m⟩ ∈ l.heard) :
    Course ctx (l.after t) (l.after (exec (Machine.dispatch (v := .chained) ctx kind m) t).2) := by
  cases kind with
  | newView => exact course_onNewView hm
  | vote => exact course_onVote hm
  | generic => exact course_onGeneric hm
  | prepare | preCommit | commit | decide => exact .refl _

theorem course_told (input : Input) {l₁ : Life Chain σ}
    (h : Course ctx (Life.told (v := .chained) ctx l input) l₁) : Course ctx l l₁ := by
  rcases Life.told_cases (v := .chained) ctx l input with htold | ⟨letter, hgenuine, htold⟩
  · exact htold ▸ h
  · exact .head (.hear hgenuine) (htold ▸ h)

theorem course_began (hblank : l.Blank) : Course ctx (l.after { l.turn with
      state := State.resetRound { l.state with status := .running }
      effects := [.resetTimer] })
    (l.after (exec (openRound ctx) { l.turn with
      state := State.resetRound { l.state with status := .running }
      effects := [.resetTimer] }).2) :=
  course_openRound fun x hx => hblank x (by simpa [List.filterMap_cons] using hx)

/-- Before it begins, the core has no proposal and has signed nothing in its view. It has signed
nothing for a later view. -/
structure Tidy (l : Life Chain σ) : Prop where
  fresh : l.state.status = .init → l.state.proposal = none ∧ l.Blank
  timely : l.Timely

/-- Every turn is a course. -/
theorem course_of_reaction {l l' : Life (Memory .chained) σ} {input : Input} (htidy : Tidy l)
    (hpermits : l.Permits input) (h : l.Reaction ctx input l') : Course ctx l l' := by
  cases h with
  | ignored => exact course_told input (.refl _)
  | stopped => exact .of_move .stop
  | began hinit =>
    obtain ⟨hproposal, hblank⟩ := htidy.fresh hinit
    exact .head (.begin hinit hproposal) (course_began hblank)
  | @read envelope m hrunning hreceive =>
    have hm : ⟨envelope.kind, m⟩ ∈ (l.told ctx (.feed envelope)).heard := by
      simp [Life.told, Context.heard, hreceive]
    have hdispatch : Course ctx ((l.told ctx (.feed envelope)).after l.turn) _ := course_dispatch hm
    have hsame : (l.told ctx (.feed envelope)).after l.turn = l.told ctx (.feed envelope) :=
      Life.after_turn _
    exact course_told _ (hsame ▸ hdispatch)
  | advanced hrunning hnext =>
    have hadvance : Course ctx (Life.after l l.turn) _ :=
      course_advanceTo hnext htidy.timely.after_turn
    exact hadvance.of_start (Life.after_turn _)
  | @sent view receiver letter hrunning hview =>
    subst hview
    refine .of_move ?_
    have herrand : Move ctx _ _ := .errand hpermits
    rw [exec_send]
    split
    · next hself =>
      rw [if_pos hself] at herrand
      exact herrand
    · next hother =>
      rw [if_neg hother] at herrand
      exact herrand

theorem tidy_initial (scheme : Crypto.Scheme) (app : σ) :
    Tidy (Life.initial scheme .chained app) := by
  have hblank : ∀ x ∈ (Life.initial scheme .chained app).written, False := by simp
  exact ⟨fun _ => ⟨rfl, fun x hx => (hblank x hx).elim⟩, fun x hx => (hblank x hx).elim⟩

theorem Tidy.reaction {l l' : Life (Memory .chained) σ} {input : Input} (htidy : Tidy l)
    (hpermits : l.Permits input) (h : l.Reaction ctx input l') : Tidy l' := by
  have hcourse := course_of_reaction htidy hpermits h
  refine ⟨fun hinit => ?_, hcourse.timely htidy.timely⟩
  cases h with
  | ignored => exact htidy.fresh hinit
  | stopped => cases hinit
  | began hbegin =>
    have hopen : Course ctx (Life.after l _) _ := course_began (htidy.fresh hbegin).2
    exact absurd hinit (hopen.begun nofun)
  | read hrunning => exact absurd hinit (hcourse.begun (by simp [hrunning]))
  | advanced hrunning => exact absurd hinit (hcourse.begun (by simp [hrunning]))
  | sent hrunning => exact absurd hinit (hcourse.begun (by simp [hrunning]))

end Runs

end Concord.Core.Chained
