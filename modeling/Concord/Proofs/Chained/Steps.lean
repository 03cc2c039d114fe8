import Concord.Proofs.Chained.Moves
import Concord.Proofs.Chained.Tree

/-!
The steps of the chained protocol. They are the moves, with the adoption of a node divided in two:
it becomes the proposal of its view, and then it is stored, voted for and followed up the chain. A
property that holds initially and is preserved by each step holds of every life.
-/

namespace Concord.Core.Chained

open Handler Relation

variable {σ : Type} {ctx : Context σ} {l l' : Life Chain σ} {known : State × Chain → Prop}

/-- A leader proposes on a quorum of NewViews with no higher certificates, or after it made the
certificate of the view before. -/
inductive Opened (ctx : Context σ) (heard : List Letter) (done : List Effect) (view : View)
    (high : Certificate) : Prop
  | gathered {newViews : List SignedBody} :
      Collected ctx heard .newView view newViews →
      (∀ m ∈ newViews, m.justify.view ≤ high.view) → Opened ctx heard done view high
  | certified {qc : Certificate} :
      .certified qc ∈ done → qc.view.next? = some view → qc.view ≤ high.view →
      Opened ctx heard done view high

section Adopting

variable {node : Body}

/-- The node `above` certifies `below` and has it as its parent. -/
structure Direct (above below : Body) : Prop where
  certifies : above.justify.nodeId = below.id
  follows : above.parentId = below.id

theorem directParent?_spec {tree : NodeTree} {above below : Body}
    (h : directParent? tree above = some below) : below ∈ tree.nodes ∧ Direct above below := by
  unfold directParent? at h
  split at h
  · next parent hget =>
    split at h
    · next hparent =>
      obtain rfl := Option.some.inj h
      obtain ⟨hmem, hid⟩ := NodeTree.mem_of_get? hget
      exact ⟨hmem, hid.symm, hparent⟩
    · cases h
  · cases h

theorem directParent?_ne_none {tree : NodeTree} {above : Body}
    (hdirect : above.parentId = above.justify.nodeId)
    (hknown : tree.contains above.justify.nodeId) : directParent? tree above ≠ none := by
  obtain ⟨below, hget⟩ := NodeTree.exists_of_contains hknown
  have hid := (NodeTree.mem_of_get? hget).2
  simp [directParent?, hget, hid, hdirect]

/-- Three direct links from `top` down to `final`. -/
structure Finality (nodes : Body → Prop) (top final : Body) : Prop where
  links : ∃ b1 b0, nodes b1 ∧ nodes b0 ∧ Direct top b1 ∧ Direct b1 b0 ∧ Direct b0 final
  mem : nodes final

/-- The effects of `walk` on a core. -/
structure Walked (node : Body) (l l' : Life Chain σ) : Prop where
  steady : Steady l.state l'.state
  heard : l'.heard = l.heard
  nodes : ∀ x ∈ l'.memory.tree.nodes, x ∈ l.memory.tree.nodes
  genesisId : l'.memory.tree.genesisId = l.memory.tree.genesisId
  high : l'.memory.high = l.memory.high ∨ l'.memory.high = node.justify
  le_high : l.memory.high.view ≤ l'.memory.high.view
  raised : node.parentId = node.justify.nodeId → l'.memory.tree.contains node.justify.nodeId →
    node.justify.view ≤ l'.memory.high.view
  done : l'.done = l.done ∨ ∃ b, Finality (· ∈ l.memory.tree.nodes) node b ∧
    b.id ≠ l.memory.tree.genesisId ∧ l'.done = l.done ++ [.deliver b.view b.payload]

@[simp] theorem raisedBy_tree (node : Body) (l : Life Chain σ) :
    (raisedBy node l).memory.tree = l.memory.tree := by
  unfold raisedBy
  split <;> rfl

@[simp] theorem raisedBy_lastDecided (node : Body) (l : Life Chain σ) :
    (raisedBy node l).memory.lastDecided = l.memory.lastDecided := by
  unfold raisedBy
  split <;> rfl

@[simp] theorem raisedBy_heard (node : Body) (l : Life Chain σ) :
    (raisedBy node l).heard = l.heard := by
  unfold raisedBy
  split <;> rfl

@[simp] theorem raisedBy_done (node : Body) (l : Life Chain σ) :
    (raisedBy node l).done = l.done := by
  unfold raisedBy
  split <;> rfl

@[simp] theorem raisedBy_high (node : Body) (l : Life Chain σ) :
    (raisedBy node l).memory.high = raise l.memory.high node.justify := by
  unfold raisedBy raise
  split <;> rfl

theorem walked_raisedBy (node : Body) (l : Life Chain σ) : Walked node l (raisedBy node l) where
  steady := steady_raisedBy node l
  heard := by simp
  nodes := by simp
  genesisId := by simp
  high := by simpa using raise_cases _ _
  le_high := by simpa using held_le_raise _ _
  raised _ _ := by simpa using offered_le_raise _ _
  done := by simp

theorem Walked.lockedBy {l₁ : Life Chain σ} (h : Walked node l l₁) (b1 : Body) :
    Walked node l (lockedBy b1 l₁) :=
  { h with steady := steady_lockedBy h.steady }

theorem Walk.spec (h : Walk ctx node l l') : Walked node l l' := by
  have hraised := walked_raisedBy node l
  have hsteady := h.steady
  cases h with
  | loose hloose =>
    exact ⟨.refl _, rfl, fun _ hx => hx, rfl, .inl rfl, UInt64.le_refl _,
      fun hdirect hknown => absurd hloose (directParent?_ne_none hdirect hknown), .inl rfl⟩
  | one => exact hraised
  | two | stale => exact hraised.lockedBy _
  | @final b1 b0 b h2 h1 h0 hroot hlater =>
    obtain ⟨hmem1, hdirect2⟩ := directParent?_spec h2
    obtain ⟨hmem0, hdirect1⟩ := directParent?_spec h1
    obtain ⟨hmem, hdirect0⟩ := directParent?_spec h0
    have hlocked := hraised.lockedBy b1
    exact {
      steady := hsteady
      heard := hlocked.heard
      nodes := fun x hx => hlocked.nodes x (NodeTree.mem_pruneBelow hx)
      genesisId := hlocked.genesisId
      high := hlocked.high
      le_high := hlocked.le_high
      raised := fun _ _ => by
        simpa [settled, Chained.lockedBy] using offered_le_raise l.memory.high node.justify
      done := .inr ⟨b, ⟨⟨b1, b0, hmem1, hmem0, hdirect2, hdirect1, hdirect0⟩, hmem⟩, hroot, by
        simp [settled, Chained.lockedBy]⟩ }

/-- The effects of taking over a node. When a vote is postponed for a node that directly follows its
certified node, the high certificate is no older than the one in the node. -/
inductive Consequent (ctx : Context σ) (node : Body) (l l' : Life Chain σ) : Effect → Prop
  | wrote {letter : Letter} :
      ctx.Wrote .vote (voteBody node) letter → Consequent ctx node l l' (.wrote letter)
  | vote {next : View} {letter : Letter} :
      node.view.next? = some next → (ctx.leader next).key ≠ ctx.me →
      ctx.Wrote .vote (voteBody node) letter →
      (node.parentId = node.justify.nodeId → l'.memory.tree.contains node.justify.nodeId →
        node.justify.view ≤ l'.memory.high.view) →
      Consequent ctx node l l' (.postpone l.state.view (.send (ctx.leader next) letter))
  | deliver {b : Body} :
      Finality (fun x => x = node ∨ x ∈ l.memory.tree.nodes) node b →
      b.id ≠ l.memory.tree.genesisId → Consequent ctx node l l' (.deliver b.view b.payload)

/-- The changes that taking over a node makes to a core. -/
structure Adopted (ctx : Context σ) (node : Body) (l l' : Life Chain σ) : Prop where
  steady : Steady l.state l'.state
  heard : l'.heard = l.heard
  nodes : ∀ x ∈ l'.memory.tree.nodes, x = node ∨ x ∈ l.memory.tree.nodes
  genesisId : l'.memory.tree.genesisId = l.memory.tree.genesisId
  high : l'.memory.high = l.memory.high ∨ l'.memory.high = node.justify
  le_high : l.memory.high.view ≤ l'.memory.high.view
  asked : ∃ es, l'.done = l.done ++ es ∧ ∀ e ∈ es, Consequent ctx node l l' e

theorem nodes_stored {x : Body} (h : x ∈ (stored node l).memory.tree.nodes) :
    x = node ∨ x ∈ l.memory.tree.nodes :=
  NodeTree.mem_insert h

theorem Adopt.spec (h : Adopt ctx node l l') : Adopted ctx node l l' := by
  -- The part that going up the chain plays is the same with and without a vote.
  have walked : ∀ {l₁ : Life Chain σ} {es : List Effect},
      l₁ = (stored node l).after { (stored node l).turn with effects := es } →
      Walked node l₁ l' → (∀ e ∈ es, Consequent ctx node l l' e) → Adopted ctx node l l' := by
    rintro l₁ es rfl hwalk hes
    refine ⟨hwalk.steady, hwalk.heard, fun x hx => nodes_stored (hwalk.nodes x hx), ?_,
      hwalk.high, hwalk.le_high, ?_⟩
    · rw [hwalk.genesisId]
      simp [stored]
    · rcases hwalk.done with hdone | ⟨b, ⟨⟨b1, b0, h1, h0, hlinks⟩, hb⟩, hroot, hdone⟩
      · exact ⟨es, hdone, hes⟩
      · refine ⟨es ++ [.deliver b.view b.payload], by simp [hdone, stored], fun e he => ?_⟩
        rcases List.mem_append.1 he with he | he
        · exact hes e he
        · obtain rfl := List.mem_singleton.1 he
          refine .deliver ⟨⟨b1, b0, ?_, ?_, hlinks⟩, ?_⟩ (by simpa [stored] using hroot)
          · exact nodes_stored h1
          · exact nodes_stored h0
          · exact nodes_stored hb
  have alone : l' = stored node l → Adopted ctx node l l' := by
    rintro rfl
    exact ⟨.refl _, rfl, fun _ hx => nodes_stored hx, by simp [stored], .inl rfl,
      UInt64.le_refl _, [], by simp [stored], by simp⟩
  cases h with
  | last | unsigned => exact alone rfl
  | leading _ _ hwalk =>
    have hsame : stored node l = (stored node l).after
        { (stored node l).turn with effects := [] } := (Life.after_turn _).symm
    exact walked hsame hwalk.spec (by simp)
  | @voting next letter _ hnext hother hwrote hwalk =>
    refine walked rfl hwalk.spec fun e he => ?_
    simp only [List.mem_cons, List.not_mem_nil, or_false] at he
    rcases he with rfl | rfl
    · exact .wrote hwrote
    · exact .vote hnext hother hwrote hwalk.spec.raised

end Adopting

/-- A node that the core proposed, or heard from the leader of its view. -/
inductive Taken (ctx : Context σ) (l : Life Chain σ) : Body → Prop
  | own {letter : Letter} :
      .broadcast letter ∈ l.done → letter.kind = .generic → Taken ctx l letter.body
  | heard {m : SignedBody} :
      ⟨.generic, m⟩ ∈ l.heard → m.signer = (ctx.leader m.view).key →
      m.body.computeId ctx.scheme = m.body.id → Taken ctx l m.body

theorem Taken.mono {node : Body} (h : Taken ctx l node) (hheard : l.heard ⊆ l'.heard)
    (hdone : l.done ⊆ l'.done) : Taken ctx l' node := by
  cases h with
  | own hx hkind => exact .own (hdone hx) hkind
  | heard hm hsigner hid => exact .heard (hheard hm) hsigner hid

/-- The steps of a core. A node is taken over in two steps: it becomes the proposal, and then it is
stored. The predicate `known` holds of the state and memory at the end of the turn. -/
inductive Step (ctx : Context σ) (known : State × Chain → Prop) :
    Life Chain σ → Life Chain σ → Prop
  | move {l l' : Life Chain σ} : Move ctx l l' → Step ctx known l l'
  | accept {l : Life Chain σ} {m : SignedBody} :
      ⟨.generic, m⟩ ∈ l.heard → l.state.view ≤ m.view →
      (m.view = l.state.view → l.state.proposal = none) →
      Step ctx known l (l.after { l.turn with
        state := { l.state.jump m.view with phase := .generic, proposal := some m.body }
        effects := [.resetTimer] })
  | announce {l lm l' : Life Chain σ} {tree : NodeTree} {parentId : Digest} {data : Bytes}
      {app : σ} {node : Body} {letter : Letter} :
      Opened ctx l.heard l.done l.state.view l.memory.high →
      ctx.leads l.state.view → l.state.proposal = none →
      l.memory.tree.backfill ctx.scheme (seat l.memory) l.state.view = .ok (tree, parentId) →
      node = proposal ctx l.state l.memory parentId data → ctx.Wrote .generic node letter →
      lm = l.after
        { state := { l.state with proposal := some node, phase := .generic }
          memory := { l.memory with tree := tree }
          app := app
          effects := [.wrote letter, .resetTimer, .broadcast letter] } →
      Adopted ctx node lm l' → known (l'.state, l'.memory) →
      Step ctx known l lm
  | adopt {l l' : Life Chain σ} {node : Body} :
      l.state.proposal = some node → node.view = l.state.view → Taken ctx l node →
      Adopted ctx node l l' → known (l'.state, l'.memory) → Step ctx known l l'

inductive Reached (ctx : Context σ) (known : State × Chain → Prop) : Life Chain σ → Prop
  | born (app : σ) : Reached ctx known (Life.initial (v := .chained) ctx.scheme app)
  | step {l l' : Life Chain σ} :
      Reached ctx known l → Step ctx known l l' → Reached ctx known l'

/-- The effects of a step, with what is known when each of them is made. -/
inductive Asked (ctx : Context σ) (known : State × Chain → Prop) (l l' : Life Chain σ) :
    Effect → Prop
  | resetTimer : Asked ctx known l l' .resetTimer
  | wrote {kind : MessageKind} {body : Body} {letter : Letter} :
      ctx.Wrote kind body letter → Asked ctx known l l' (.wrote letter)
  | report {letter : Letter} :
      ctx.Wrote .newView (newViewBody l.state l.memory) letter →
      (ctx.leader l.state.view).key ≠ ctx.me →
      Asked ctx known l l' (.send (ctx.leader l.state.view) letter)
  | errand {receiver : Member} {letter : Letter} :
      .postpone l.state.view (.send receiver letter) ∈ l.done → receiver.key ≠ ctx.me →
      Asked ctx known l l' (.send receiver letter)
  | certified {next : View} {node : Body} {votes : List Vote} {own : Vote} {qc : Certificate} :
      l.state.view ≤ qc.view → l'.state.view = next → qc.view.next? = some next →
      ctx.leads next → votesFor ctx l.state qc.view qc.nodeId qc.payload = some votes →
      node ∈ l.memory.tree.nodes → node.id = qc.nodeId →
      qc = (Certificate.ofVotes ⟨.generic, qc.view, qc.payload, qc.nodeId⟩ votes).addVote own →
      l'.memory.high = raise l.memory.high qc → ctx.ownVote qc.payload = .ok own →
      Asked ctx known l l' (.certified qc)
  | propose {letter : Letter} {tree : NodeTree} {parentId : Digest} {data : Bytes}
      {l'' : Life Chain σ} :
      Opened ctx l.heard l.done l.state.view l.memory.high →
      l.memory.tree.backfill ctx.scheme (seat l.memory) l.state.view = .ok (tree, parentId) →
      ctx.Wrote .generic (proposal ctx l.state l.memory parentId data) letter →
      l'.state.proposal = some (proposal ctx l.state l.memory parentId data) →
      l'.memory.tree = tree →
      Adopted ctx (proposal ctx l.state l.memory parentId data) l' l'' →
      known (l''.state, l''.memory) →
      Asked ctx known l l' (.broadcast letter)
  | adopted {node : Body} {e : Effect} :
      l.state.proposal = some node → node.view = l.state.view → Taken ctx l node →
      Adopted ctx node l l' → known (l'.state, l'.memory) → Consequent ctx node l l' e →
      Asked ctx known l l' e

/-- Each effect that a step adds is one of `Asked`. -/
theorem Step.asked (h : Step ctx known l l') :
    ∃ es, l'.done = l.done ++ es ∧ ∀ e ∈ es, Asked ctx known l l' e := by
  cases h with
  | accept => exact ⟨[.resetTimer], rfl, by simpa using .resetTimer⟩
  | announce hopened hleads hproposal hbackfill hnode hwrote hmid hadopted hknown =>
    subst hnode hmid
    refine ⟨_, rfl, ?_⟩
    simp only [List.forall_mem_cons]
    exact ⟨.wrote hwrote, .resetTimer, .propose hopened hbackfill hwrote rfl rfl hadopted hknown,
      List.forall_mem_nil _⟩
  | adopt hproposal hview htaken hadopted hknown =>
    obtain ⟨es, hdone, hes⟩ := hadopted.asked
    exact ⟨es, hdone, fun e he => .adopted hproposal hview htaken hadopted hknown (hes e he)⟩
  | move hmove =>
    cases hmove with
    | hear | note | retouch | stop => exact ⟨[], by simp [Life.noted], by simp⟩
    | begin | enter => exact ⟨[.resetTimer], rfl, by simpa using .resetTimer⟩
    | keep | log | regenerate | bridge => exact ⟨[], by simp, by simp⟩
    | gather hgather =>
      cases hgather
      exact ⟨[], by simp, by simp⟩
    | report hleads =>
      exact ⟨_, rfl, Context.forall_posted (fun _ hwrote => .wrote hwrote)
        fun _ hwrote hother => .report hwrote hother⟩
    | @errand receiver letter hdone =>
      refine ⟨_, rfl, fun e he => ?_⟩
      dsimp only at he
      split at he
      · cases he
      · next hother =>
        obtain rfl := List.mem_singleton.1 he
        exact .errand hdone hother
    | certify hcertify =>
      cases hcertify with
      | @mk view next nodeId payload votes own qc high hview hnext hleads hvotes hcontains hown
          hqc hhigh =>
        subst hhigh
        refine ⟨_, rfl, fun e he => ?_⟩
        rcases List.mem_cons.1 he with rfl | he
        · have hsubject : qc.subject = ⟨.generic, view, payload, nodeId⟩ := by simp [hqc]
          obtain ⟨rfl, rfl, rfl⟩ : view = qc.view ∧ nodeId = qc.nodeId ∧ payload = qc.payload := by
            simp [Certificate.view, Certificate.nodeId, Certificate.payload, hsubject]
          obtain ⟨node, hget⟩ := NodeTree.exists_of_contains hcontains
          obtain ⟨hmem, hid⟩ := NodeTree.mem_of_get? hget
          exact .certified hview rfl hnext hleads hvotes hmem hid hqc rfl hown
        · obtain rfl := List.mem_singleton.1 he
          exact .resetTimer

theorem Step.heard_subset (h : Step ctx known l l') : l.heard ⊆ l'.heard := by
  cases h with
  | accept => exact List.Subset.refl _
  | announce _ _ _ _ _ _ hmid => exact hmid ▸ List.Subset.refl _
  | adopt _ _ _ hadopted => exact hadopted.heard ▸ List.Subset.refl _
  | move hmove =>
    cases hmove with
    | hear => exact List.subset_append_left _ _
    | gather hgather => cases hgather; exact List.Subset.refl _
    | certify hcertify => cases hcertify; exact List.Subset.refl _
    | _ => exact List.Subset.refl _

theorem Step.done_subset (h : Step ctx known l l') : l.done ⊆ l'.done := by
  obtain ⟨es, hdone, -⟩ := h.asked
  rw [hdone]
  exact List.subset_append_left _ _

theorem Step.taken {node : Body} (h : Step ctx known l l') (htaken : Taken ctx l node) :
    Taken ctx l' node :=
  htaken.mono h.heard_subset h.done_subset

/-- A dummy above the stored nodes. -/
def Bridging (ctx : Context σ) (l : Life Chain σ) (x : Body) : Prop :=
  Grown ctx.scheme (· ∈ l.memory.tree.nodes) x ∧ x.justify = Certificate.genesis

theorem bridging_of_backfill {start parentId : Digest} {view : View} {tree : NodeTree}
    (h : l.memory.tree.backfill ctx.scheme start view = .ok (tree, parentId)) :
    tree.genesisId = l.memory.tree.genesisId ∧
      ∀ x ∈ tree.nodes, x ∈ l.memory.tree.nodes ∨ Bridging ctx l x := by
  obtain ⟨hgenesis, hnodes, -⟩ := NodeTree.backfill_spec (fun _ => .root) h
  exact ⟨hgenesis, hnodes⟩

theorem Move.tree (h : Move ctx l l') : l'.memory.tree.genesisId = l.memory.tree.genesisId ∧
    ∀ x ∈ l'.memory.tree.nodes, x ∈ l.memory.tree.nodes ∨ Bridging ctx l x := by
  cases h with
  | gather hgather => cases hgather; exact ⟨rfl, fun _ => .inl⟩
  | certify hcertify => cases hcertify; exact ⟨rfl, fun _ => .inl⟩
  | regenerate hbackfill => exact bridging_of_backfill hbackfill
  | bridge _ hchain =>
    refine ⟨NodeTree.genesisId_insertAll _ _, fun x hx => ?_⟩
    rcases NodeTree.mem_insertAll hx with hx | hx
    · exact .inr ((NodeTree.dummyChain_spec (fun _ => .root) hchain).1 x hx)
    · exact .inl hx
  | _ => exact ⟨rfl, fun _ => .inl⟩

/-- A node is added to the tree as a dummy or as the proposal of the view. -/
inductive Enters (ctx : Context σ) (known : State × Chain → Prop) (l l' : Life Chain σ) (x : Body) :
    Prop
  | bridging : Bridging ctx l x → Enters ctx known l l' x
  | adopted :
      l'.state.proposal = some x → x.view = l'.state.view → Taken ctx l x →
      known (l'.state, l'.memory) → Enters ctx known l l' x

theorem Step.tree (h : Step ctx known l l') : l'.memory.tree.genesisId = l.memory.tree.genesisId ∧
    ∀ x ∈ l'.memory.tree.nodes, x ∈ l.memory.tree.nodes ∨ Enters ctx known l l' x := by
  cases h with
  | move hmove =>
    exact ⟨hmove.tree.1, fun x hx => (hmove.tree.2 x hx).imp_right .bridging⟩
  | accept => exact ⟨rfl, fun _ => .inl⟩
  | announce _ _ _ hbackfill _ _ hmid =>
    subst hmid
    obtain ⟨hgenesis, hnodes⟩ := bridging_of_backfill hbackfill
    exact ⟨hgenesis, fun x hx => (hnodes x hx).imp_right .bridging⟩
  | adopt hproposal hview htaken hadopted hknown =>
    refine ⟨hadopted.genesisId, fun x hx => ?_⟩
    rcases hadopted.nodes x hx with rfl | hx
    · exact .inr (.adopted (hadopted.steady.proposal.trans hproposal)
        (hview.trans hadopted.steady.view.symm) htaken hknown)
    · exact .inl hx

theorem Reached.forall_done {P : Life Chain σ → Effect → Prop} (h : Reached ctx known l)
    (old : ∀ {l l' e}, Step ctx known l l' → P l e → P l' e)
    (new : ∀ {l l' e}, Reached ctx known l → Step ctx known l l' → Asked ctx known l l' e → P l' e) :
    ∀ e ∈ l.done, P l e := by
  induction h with
  | born app => simp [Life.initial]
  | step hreached hstep ih =>
    obtain ⟨es, hdone, hasked⟩ := hstep.asked
    intro e he
    rw [hdone, List.mem_append] at he
    rcases he with he | he
    · exact old hstep (ih e he)
    · exact new hreached hstep (hasked e he)

theorem Reached.forall_asked {α : Type} (make : α → Effect) {P : Life Chain σ → α → Prop}
    (h : Reached ctx known l) (old : ∀ {l l' a}, Step ctx known l l' → P l a → P l' a)
    (new : ∀ {l l' a}, Reached ctx known l → Step ctx known l l' →
      Asked ctx known l l' (make a) → P l' a) :
    ∀ a, make a ∈ l.done → P l a := by
  intro a ha
  exact h.forall_done (P := fun l e => ∀ a, e = make a → P l a)
    (fun hstep hold a he => old hstep (hold a he))
    (fun hreached hstep hasked a he => new hreached hstep (he ▸ hasked)) _ ha a rfl

theorem Move.newViews (h : Move ctx l l') {m : SignedBody} (hm : m ∈ l'.state.newViews.entries) :
    m ∈ l.state.newViews.entries ∨
      ⟨.newView, m⟩ ∈ l.heard ∧ (0 < m.justify.view → ctx.verifyCertificate m.justify) := by
  cases h with
  | begin | enter => exact .inl (MessageLog.mem_retainFrom hm)
  | keep hheard _ _ hjustify =>
    rcases MessageLog.mem_insert hm with hm | rfl
    · exact .inl hm
    · exact .inr ⟨hheard, hjustify⟩
  | gather hgather =>
    cases hgather
    exact .inl (MessageLog.mem_removeView hm)
  | certify hcertify =>
    cases hcertify
    exact .inl (MessageLog.mem_retainFrom hm)
  | _ => exact .inl hm

structure Logged (l : Life Chain σ) : Prop where
  newViews : l.state.newViews.Holds .newView l.heard
  votes : l.state.votes.Holds .vote l.heard

theorem Reached.logged (h : Reached ctx known l) : Logged l := by
  induction h with
  | born app => exact ⟨MessageLog.holds_empty, MessageLog.holds_empty⟩
  | @step l l' hreached hstep ih =>
    obtain ⟨hnewViews, hvotes⟩ := ih
    cases hstep with
    | accept =>
      unfold State.jump
      split
      · exact ⟨hnewViews.retainFrom _, hvotes.retainFrom _⟩
      · exact ⟨hnewViews, hvotes⟩
    | announce _ _ _ _ _ _ hmid => exact hmid ▸ ⟨hnewViews, hvotes⟩
    | adopt _ _ _ hadopted =>
      obtain ⟨hsteady, hheard, -⟩ := hadopted
      exact ⟨by rwa [hsteady.newViews, hheard], by rwa [hsteady.votes, hheard]⟩
    | move hmove =>
      cases hmove with
      | hear => exact ⟨hnewViews.mono (by simp), hvotes.mono (by simp)⟩
      | begin | enter => exact ⟨hnewViews.retainFrom _, hvotes.retainFrom _⟩
      | keep hm => exact ⟨hnewViews.insert hm, hvotes⟩
      | log hm => exact ⟨hnewViews, hvotes.insert hm⟩
      | gather hgather =>
        cases hgather
        exact ⟨hnewViews.removeView _, hvotes⟩
      | certify hcertify =>
        cases hcertify
        exact ⟨hnewViews.retainFrom _, hvotes.retainFrom _⟩
      | _ => exact ⟨hnewViews, hvotes⟩

@[simp] theorem view_named (qc : Certificate) (leaf : Digest) : (named qc leaf).view = qc.view := by
  unfold named
  split <;> rfl

section Runs

theorem Reached.opened_gathered (h : Reached ctx known l) (hgather : Gather ctx l l') :
    Opened ctx l'.heard l'.done l'.state.view l'.memory.high := by
  cases hgather with
  | @mk best qc high hleads hproposal hbest htaken hhigh =>
    have hcollected := collected_of_best h.logged.newViews hbest
    refine Opened.gathered hcollected fun m hm => ?_
    have hview : qc.view = best.justify.view := congrArg Subject.view (subject_taken htaken)
    have hle := view_le_best hbest m hm
    rw [← hview, ← view_named qc best.body.parentId] at hle
    simp only [Life.after_memory, hhigh]
    exact UInt64.le_trans hle (offered_le_raise _ _)

theorem opened_certified (hcertify : Certify ctx l l') :
    Opened ctx l'.heard l'.done l'.state.view l'.memory.high := by
  cases hcertify with
  | @mk view next nodeId payload votes own qc high hview hnext _ _ _ _ hqc hhigh =>
    have hdone : .certified qc ∈ l.done ++ [.certified qc, .resetTimer] := by simp
    refine .certified hdone ?_ (hhigh ▸ offered_le_raise _ _)
    have hsubject : qc.subject = ⟨.generic, view, payload, nodeId⟩ := by simp [hqc]
    rw [Certificate.view, hsubject]
    exact hnext

theorem Reached.steps (h : Reached ctx known l) (hsteps : ReflTransGen (Step ctx known) l l') :
    Reached ctx known l' := by
  induction hsteps with
  | refl => exact h
  | tail _ hstep ih => exact ih.step hstep

theorem steps_of_accept (haccept : Accept ctx l l') (hknown : known (l'.state, l'.memory)) :
    ReflTransGen (Step ctx known) l l' := by
  cases haccept with
  | mk hm hview hfree hid hcheck hadopt =>
    have hsigner := Context.leader_of_checkProposal hcheck
    refine .tail (.single (.accept hm hview hfree)) (.adopt rfl ?_ ?_ hadopt.spec hknown)
    · exact (State.jump_view hview).symm
    · refine .heard hm hsigner.symm ?_
      unfold checkNodeId at hid
      split at hid
      · next hcompute => exact hcompute
      · cases hid

theorem steps_of_propose (hopened : Opened ctx l.heard l.done l.state.view l.memory.high)
    (hpropose : Propose ctx l l') (hknown : known (l'.state, l'.memory)) :
    ReflTransGen (Step ctx known) l l' := by
  cases hpropose with
  | mk hleads hproposal hbackfill hproduce hnode hwrote hadopt =>
    refine .tail (.single (.announce hopened hleads hproposal hbackfill hnode hwrote rfl hadopt.spec
      hknown)) (.adopt rfl ?_ ?_ hadopt.spec hknown)
    · rw [hnode]
      rfl
    · rw [← hwrote.body_eq]
      exact .own (by simp) hwrote.kind_eq

theorem Reached.steps_of_course (h : Reached ctx known l) (hcourse : Course ctx l l')
    (hknown : known (l'.state, l'.memory)) : ReflTransGen (Step ctx known) l l' := by
  obtain ⟨l₁, hmoves, hlast⟩ := hcourse
  have hfirst : ReflTransGen (Step ctx known) l l₁ := ReflTransGen.mono (fun _ _ => .move) _ _ hmoves
  rcases hlast with rfl | haccept | ⟨hgather, hpropose⟩ | ⟨hcertify, hpropose⟩
  · exact hfirst
  · exact hfirst.trans (steps_of_accept haccept hknown)
  · have hopened := (h.steps hfirst).opened_gathered hgather
    exact (hfirst.tail (.move (.gather hgather))).trans (steps_of_propose hopened hpropose hknown)
  · have hopened := opened_certified hcertify
    exact (hfirst.tail (.move (.certify hcertify))).trans (steps_of_propose hopened hpropose hknown)

/-- Every life of a core is reached by steps. -/
theorem reached_of_lived {l : Life (Memory .chained) σ} (h : Lived ctx l)
    (hpast : ∀ p ∈ l.past, known p) : Tidy l ∧ Reached ctx known l := by
  induction h with
  | born app => exact ⟨tidy_initial _ app, .born app⟩
  | retouch app _ ih =>
    obtain ⟨htidy, hreached⟩ := ih hpast
    exact ⟨⟨htidy.fresh, htidy.timely⟩, hreached.step (.move .retouch)⟩
  | @take l input hlived hpermits ih =>
    obtain ⟨htidy, hreached⟩ := ih fun p hp => hpast p (List.mem_append_left _ hp)
    have hreaction : l.Reaction ctx input _ := Life.reaction_step input
    have hcourse := course_of_reaction htidy hpermits hreaction
    have hknown := hpast _ (List.mem_append_right _ List.mem_cons_self)
    have htidy' := htidy.reaction hpermits hreaction
    have hreached' := hreached.steps (hreached.steps_of_course hcourse hknown)
    exact ⟨⟨htidy'.fresh, htidy'.timely⟩, hreached'.step (.move .note)⟩

theorem reached_anyhow {l : Life (Memory .chained) σ} (h : Lived ctx l) :
    Reached ctx (fun _ => True) l :=
  (reached_of_lived h fun _ _ => trivial).2

theorem course_of_lived {l : Life (Memory .chained) σ} (h : Lived ctx l) {input : Input}
    (hpermits : l.Permits input) :
    Course ctx l ((l.told ctx input).changed (l.machine.step ctx input)) := by
  have hreached : Tidy l ∧ Reached ctx (fun _ => True) l := reached_of_lived h fun _ _ => trivial
  exact course_of_reaction hreached.1 hpermits (Life.reaction_step _)

end Runs

end Concord.Core.Chained
