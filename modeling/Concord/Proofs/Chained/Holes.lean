import Concord.Proofs.Chained.Order
import Concord.Proofs.Legible
import Concord.Proofs.Outcomes

/-!
The nodes that deliveries of the chained protocol pass over. A delivery is of the node that three
direct links make final, and the nodes below it are not delivered. A node with three direct links
above it is delivered unless a later one was, since the links are found when the last of the three
nodes is taken over.
-/

namespace Concord.Core

open Crypto

/-- The node is the dummy of its view and parent. -/
def IsDummy (scheme : Scheme) (node : Body) : Prop :=
  node = dummyNode scheme node.view node.parentId

instance (scheme : Scheme) (node : Body) : Decidable (IsDummy scheme node) :=
  inferInstanceAs (Decidable (_ = _))

namespace NodeTree

variable {scheme : Scheme} {tree tree' : NodeTree} {node x : Body}

/-- The node is stored and not a dummy. -/
structure Proposed (scheme : Scheme) (tree : NodeTree) (node : Body) : Prop where
  mem : node ∈ tree.nodes
  notDummy : ¬ IsDummy scheme node

theorem isDummy_of_mem_dummiesFrom {count : Nat} {view : View} {tip : Digest}
    (h : x ∈ dummiesFrom scheme count view tip) : IsDummy scheme x := by
  induction count generalizing view tip with
  | zero => cases h
  | succ count ih =>
    rcases List.mem_cons.1 h with rfl | h
    · rfl
    · exact ih h

theorem isDummy_of_dummyChain {start : Digest} {view : View} {dummies : List Body}
    (h : tree.dummyChain scheme start view = .ok dummies) : ∀ x ∈ dummies, IsDummy scheme x := by
  intro x hx
  unfold dummyChain at h
  split at h
  · cases h
    cases hx
  · dsimp only at h
    split at h
    · cases h
    · cases h
      exact isDummy_of_mem_dummiesFrom hx

structure Grows (scheme : Scheme) (tree tree' : NodeTree) : Prop where
  old : ∀ x ∈ tree.nodes, x ∈ tree'.nodes
  proposed : ∀ x, tree'.Proposed scheme x → tree.Proposed scheme x
  genesisId : tree'.genesisId = tree.genesisId

theorem Grows.refl (scheme : Scheme) (tree : NodeTree) : Grows scheme tree tree :=
  ⟨fun _ hx => hx, fun _ hx => hx, rfl⟩

theorem Grows.trans {tree'' : NodeTree} (h : Grows scheme tree tree')
    (h' : Grows scheme tree' tree'') : Grows scheme tree tree'' :=
  ⟨fun x hx => h'.old x (h.old x hx), fun x hx => h.proposed x (h'.proposed x hx),
    h'.genesisId.trans h.genesisId⟩

theorem grows_insertAll {dummies : List Body} (h : ∀ x ∈ dummies, IsDummy scheme x) :
    Grows scheme tree (tree.insertAll dummies) where
  old _ hx := mem_insertAll_of_mem dummies hx
  proposed x hx := by
    rcases mem_insertAll hx.mem with hdummy | hold
    · exact absurd (h x hdummy) hx.notDummy
    · exact ⟨hold, hx.notDummy⟩
  genesisId := genesisId_insertAll _ _

theorem grows_backfill {start parentId : Digest} {view : View}
    (h : tree.backfill scheme start view = .ok (tree', parentId)) : Grows scheme tree tree' := by
  unfold backfill at h
  split at h
  · cases h
  · next hchain =>
    cases h
    exact grows_insertAll (isDummy_of_dummyChain hchain)

end NodeTree

namespace Chained

open Handler Relation

variable {σ : Type} {ctx : Context σ} {scheme : Scheme} {l l' lm : Life Chain σ} {node : Body}

/-- Three nodes above `x`. Each directly follows and certifies the one below, and their views
increase. -/
structure Ascent (nodes : Body → Prop) (x b0 b1 b2 : Body) : Prop where
  mem0 : nodes b0
  mem1 : nodes b1
  mem2 : nodes b2
  direct0 : Direct b0 x
  direct1 : Direct b1 b0
  direct2 : Direct b2 b1
  lt0 : x.view < b0.view
  lt1 : b0.view < b1.view
  lt2 : b1.view < b2.view

theorem Ascent.mono {nodes nodes' : Body → Prop} {x b0 b1 b2 : Body} (h : Ascent nodes x b0 b1 b2)
    (hsub : ∀ y, nodes y → nodes' y) : Ascent nodes' x b0 b1 b2 :=
  { h with mem0 := hsub _ h.mem0, mem1 := hsub _ h.mem1, mem2 := hsub _ h.mem2 }

/-- Every proposed node with an ascent above it was delivered, or a node of the same or a later view
was. The genesis node and ascents that end in the last view are excluded. -/
def Complete (scheme : Scheme) (chain : Chain) : Prop :=
  ∀ x b0 b1 b2 next, chain.tree.Proposed scheme x →
    Ascent (chain.tree.Proposed scheme) x b0 b1 b2 → x.id ≠ chain.tree.genesisId →
    b2.view.next? = some next → ∃ decided, chain.lastDecided = some decided ∧ x.view ≤ decided

/-- All proposed nodes are of earlier views, or of the current view if the core has a proposal in
it. -/
def Recent (scheme : Scheme) (l : Life Chain σ) : Prop :=
  ∀ x, l.memory.tree.Proposed scheme x →
    x.view < l.state.view ∨ x.view = l.state.view ∧ l.state.proposal.isSome

theorem Complete.grow {chain chain' : Chain} (h : Complete scheme chain)
    (hgrows : chain.tree.Grows scheme chain'.tree) (hlast : chain'.lastDecided = chain.lastDecided) :
    Complete scheme chain' := by
  intro x b0 b1 b2 next hx hascent hroot hnext
  rw [hlast]
  rw [hgrows.genesisId] at hroot
  exact h x b0 b1 b2 next (hgrows.proposed x hx) (hascent.mono hgrows.proposed) hroot hnext

section Moving

structure Idles (scheme : Scheme) (l l' : Life Chain σ) : Prop where
  grows : l.memory.tree.Grows scheme l'.memory.tree
  lastDecided : l'.memory.lastDecided = l.memory.lastDecided
  done : ∃ es, l'.done = l.done ++ es ∧ ∀ view payload, Effect.deliver view payload ∉ es

theorem Idles.refl (scheme : Scheme) (l : Life Chain σ) : Idles scheme l l :=
  ⟨.refl _ _, rfl, [], (List.append_nil _).symm, by simp⟩

theorem Idles.trans {l'' : Life Chain σ} (h : Idles scheme l l') (h' : Idles scheme l' l'') :
    Idles scheme l l'' := by
  obtain ⟨es, hdone, hes⟩ := h.done
  obtain ⟨es', hdone', hes'⟩ := h'.done
  refine ⟨h.grows.trans h'.grows, h'.lastDecided.trans h.lastDecided, es ++ es', ?_, ?_⟩
  · rw [hdone', hdone, List.append_assoc]
  · intro view payload hmem
    rcases List.mem_append.1 hmem with hmem | hmem
    · exact hes view payload hmem
    · exact hes' view payload hmem

theorem idles_after {t : Turn Chain σ} (hgrows : l.memory.tree.Grows scheme t.memory.tree)
    (hlast : t.memory.lastDecided = l.memory.lastDecided)
    (heffects : ∀ view payload, Effect.deliver view payload ∉ t.effects) :
    Idles scheme l (l.after t) :=
  ⟨hgrows, hlast, t.effects, rfl, heffects⟩

theorem Move.idles (h : Move ctx l l') : Idles ctx.scheme l l' := by
  have hsame : l.memory.tree.Grows ctx.scheme l.memory.tree := .refl _ _
  cases h with
  | hear | note | retouch | stop => exact ⟨hsame, rfl, [], by simp [Life.noted], by simp⟩
  | gather hgather =>
    cases hgather
    exact idles_after hsame rfl (by simp)
  | certify hcertify =>
    cases hcertify
    exact idles_after hsame rfl (by simp)
  | regenerate htree => exact idles_after (NodeTree.grows_backfill htree) rfl (by simp)
  | bridge hm hchain =>
    exact idles_after (NodeTree.grows_insertAll (NodeTree.isDummy_of_dummyChain hchain)) rfl (by simp)
  | report => exact idles_after hsame rfl (by simp [Context.mem_posted])
  | errand =>
    refine idles_after hsame rfl fun view payload => ?_
    dsimp only
    split <;> simp
  | _ => exact idles_after hsame rfl (by simp)

theorem Recent.move (h : Recent ctx.scheme l) (hmove : Move ctx l l') : Recent ctx.scheme l' := by
  intro x hx
  have hold := h x (hmove.idles.grows.proposed x hx)
  rcases hmove.ascends with hlt | ⟨heq, hsome⟩
  · refine .inl (UInt64.lt_of_le_of_lt ?_ hlt)
    rcases hold with hearlier | ⟨hview, -⟩
    · exact UInt64.le_of_lt hearlier
    · exact UInt64.le_of_eq hview
  · rw [← heq]
    exact hold.imp_right fun ⟨hview, hproposal⟩ => ⟨hview, hsome hproposal⟩

end Moving

section Taking

structure Readies (ctx : Context σ) (l lm : Life Chain σ) (node : Body) : Prop where
  idles : Idles ctx.scheme l lm
  view : node.view = lm.state.view
  proposal : lm.state.proposal = some node
  fresh : l.state.view < node.view ∨ l.state.view = node.view ∧ l.state.proposal = none

theorem Accept.readies (h : Accept ctx l l') :
    ∃ node lm, Readies ctx l lm node ∧ Adopt ctx node lm l' := by
  cases h with
  | @mk m hm hview hfree hid hcheck hadopt =>
    refine ⟨_, _, ⟨idles_after (.refl _ _) rfl (by simp), (State.jump_view hview).symm, rfl, ?_⟩, hadopt⟩
    rcases UInt64.lt_or_eq_of_le hview with hlt | heq
    · exact .inl hlt
    · exact .inr ⟨heq, hfree heq.symm⟩

theorem Propose.readies (h : Propose ctx l l') :
    ∃ node lm, Readies ctx l lm node ∧ Adopt ctx node lm l' := by
  cases h with
  | mk hleads hproposal hbackfill hproduce hnode hwrote hadopt =>
    refine ⟨_, _, ⟨idles_after (NodeTree.grows_backfill hbackfill) rfl (by simp), ?_, rfl, ?_⟩, hadopt⟩
    · rw [hnode]
      rfl
    · rw [hnode]
      exact .inr ⟨rfl, hproposal⟩

theorem Readies.later (h : Readies ctx l lm node) (hrecent : Recent ctx.scheme l) :
    ∀ x, lm.memory.tree.Proposed ctx.scheme x → x.view < node.view := by
  intro x hx
  rcases hrecent x (h.idles.grows.proposed x hx) with hearlier | ⟨hview, hproposal⟩
  · refine UInt64.lt_of_lt_of_le hearlier ?_
    rcases h.fresh with hlt | ⟨heq, -⟩
    · exact UInt64.le_of_lt hlt
    · exact UInt64.le_of_eq heq
  · rcases h.fresh with hlt | ⟨-, hnone⟩
    · exact hview ▸ hlt
    · simp [hnone] at hproposal

structure Arrives (tree : NodeTree) (b2 b1 b0 b : Body) : Prop where
  first : directParent? tree b2 = some b1
  second : directParent? tree b1 = some b0
  third : directParent? tree b0 = some b

theorem directParent?_of_mem {tree : NodeTree} {above below : Body} (hmem : below ∈ tree.nodes)
    (h : Direct above below) : directParent? tree above = some below := by
  unfold directParent?
  rw [h.certifies, NodeTree.get?_of_mem hmem]
  exact if_pos h.follows

theorem Ascent.arrives {tree : NodeTree} {x b0 b1 b2 : Body} (hx : tree.Proposed scheme x)
    (h : Ascent (tree.Proposed scheme) x b0 b1 b2) : Arrives tree b2 b1 b0 x :=
  ⟨directParent?_of_mem h.mem1.mem h.direct2, directParent?_of_mem h.mem0.mem h.direct1,
    directParent?_of_mem hx.mem h.direct0⟩

theorem Ascent.top {tree : NodeTree} {x b0 b1 b2 : Body}
    (h : Ascent ((tree.insert node).Proposed scheme) x b0 b1 b2)
    (hx : (tree.insert node).Proposed scheme x)
    (hlater : ∀ y, tree.Proposed scheme y → y.view < node.view) :
    b2 = node ∨ tree.Proposed scheme x ∧ Ascent (tree.Proposed scheme) x b0 b1 b2 := by
  have hcases : ∀ y, (tree.insert node).Proposed scheme y → y = node ∨ tree.Proposed scheme y := by
    intro y hy
    exact (NodeTree.mem_insert hy.mem).imp_right fun hmem => ⟨hmem, hy.notDummy⟩
  have hbound : ∀ y, (tree.insert node).Proposed scheme y → y.view ≤ node.view := by
    intro y hy
    rcases hcases y hy with rfl | hy
    · exact UInt64.le_refl _
    · exact UInt64.le_of_lt (hlater y hy)
  have hbelow : ∀ y z, (tree.insert node).Proposed scheme y →
      (tree.insert node).Proposed scheme z → y.view < z.view → tree.Proposed scheme y := by
    intro y z hy hz hlt
    rcases hcases y hy with rfl | hy
    · exact absurd (UInt64.lt_of_lt_of_le hlt (hbound z hz)) (UInt64.lt_irrefl _)
    · exact hy
  -- Views rise along the links, so only the last of the three can be the new node.
  refine (hcases b2 h.mem2).imp_right fun h2 => ⟨hbelow x b0 hx h.mem0 h.lt0, ?_⟩
  exact { h with
    mem0 := hbelow b0 b1 h.mem0 h.mem1 h.lt1
    mem1 := hbelow b1 b2 h.mem1 h.mem2 h.lt2
    mem2 := h2 }

theorem proposed_of_pruneBelow {tree : NodeTree} {view : View} {x : Body}
    (h : (tree.pruneBelow view).Proposed scheme x) : tree.Proposed scheme x :=
  ⟨NodeTree.mem_pruneBelow h.mem, h.notDummy⟩

structure Concludes (scheme : Scheme) (node : Body) (l l' : Life Chain σ) : Prop where
  proposed : ∀ x, l'.memory.tree.Proposed scheme x → l.memory.tree.Proposed scheme x
  genesisId : l'.memory.tree.genesisId = l.memory.tree.genesisId
  done : ∃ es, l'.done = l.done ++ es ∧ ∀ view payload, .deliver view payload ∈ es →
    ∃ b1 b0 b, Arrives l.memory.tree node b1 b0 b ∧ b.view = view ∧ b.payload = payload ∧
      l'.memory.tree = l.memory.tree.pruneBelow view

theorem Walk.concludes (h : Walk ctx node l l') : Concludes ctx.scheme node l l' := by
  have hraised : Concludes ctx.scheme node l (raisedBy node l) :=
    ⟨fun x hx => by simpa using hx, by simp, [], by simp, by simp⟩
  cases h with
  | loose => exact ⟨fun _ hx => hx, rfl, [], by simp, by simp⟩
  | one => exact hraised
  | two | stale => exact ⟨hraised.proposed, hraised.genesisId, hraised.done⟩
  | @final b1 b0 b h2 h1 h0 =>
    have htree : (settled ctx b (lockedBy b1 (raisedBy node l))).memory.tree =
        l.memory.tree.pruneBelow b.view := by simp [settled, lockedBy]
    refine ⟨fun x hx => proposed_of_pruneBelow (htree ▸ hx), ?_, [.deliver b.view b.payload], ?_, ?_⟩
    · rw [htree]
      rfl
    · simp [settled, lockedBy]
    · intro view payload hmem
      obtain ⟨rfl, rfl⟩ : view = b.view ∧ payload = b.payload := by simpa using hmem
      exact ⟨b1, b0, b, ⟨h2, h1, h0⟩, rfl, rfl, htree⟩

theorem Adopt.concludes (h : Adopt ctx node l l') :
    Concludes ctx.scheme node (stored node l) l' := by
  have hstored : Concludes ctx.scheme node (stored node l) (stored node l) :=
    ⟨fun _ hx => hx, rfl, [], by simp, by simp⟩
  cases h with
  | last | unsigned => exact hstored
  | leading _ _ hwalk => exact hwalk.concludes
  | @voting next letter _ _ _ _ hwalk =>
    obtain ⟨hproposed, hgenesis, es, hdone, hes⟩ := hwalk.concludes
    refine ⟨hproposed, hgenesis,
      [.wrote letter, .postpone l.state.view (.send (ctx.leader next) letter)] ++ es, ?_, ?_⟩
    · rw [hdone, Life.after_done, List.append_assoc]
    · intro view payload hmem
      exact hes view payload (by simpa using hmem)

theorem Walk.reaches {b1 b0 b : Body} (h : Walk ctx node l l')
    (harrives : Arrives l.memory.tree node b1 b0 b) (hroot : b.id ≠ l.memory.tree.genesisId) :
    ∃ decided, l'.memory.lastDecided = some decided ∧ b.view ≤ decided := by
  obtain ⟨hfirst, hsecond, hthird⟩ := harrives
  cases h with
  | loose h2 => simp [hfirst] at h2
  | one h2 h1 =>
    obtain rfl := Option.some.inj (hfirst.symm.trans h2)
    simp [hsecond] at h1
  | two h2 h1 h0 =>
    obtain rfl := Option.some.inj (hfirst.symm.trans h2)
    obtain rfl := Option.some.inj (hsecond.symm.trans h1)
    simp [hthird] at h0
  | stale h2 h1 h0 hstale =>
    obtain rfl := Option.some.inj (hfirst.symm.trans h2)
    obtain rfl := Option.some.inj (hsecond.symm.trans h1)
    obtain rfl := Option.some.inj (hthird.symm.trans h0)
    rcases hstale with hgenesis | ⟨decided, hlast, hle⟩
    · exact absurd hgenesis hroot
    · refine ⟨decided, ?_, hle⟩
      simpa [lockedBy] using hlast
  | final h2 h1 h0 =>
    obtain rfl := Option.some.inj (hfirst.symm.trans h2)
    obtain rfl := Option.some.inj (hsecond.symm.trans h1)
    obtain rfl := Option.some.inj (hthird.symm.trans h0)
    exact ⟨b.view, rfl, UInt64.le_refl _⟩

theorem Adopt.reaches {next : View} {b1 b0 b : Body} (h : Adopt ctx node l l')
    (hsign : ctx.signer.sign?.isSome) (hnext : node.view.next? = some next)
    (harrives : Arrives (l.memory.tree.insert node) node b1 b0 b)
    (hroot : b.id ≠ l.memory.tree.genesisId) :
    ∃ decided, l'.memory.lastDecided = some decided ∧ b.view ≤ decided := by
  have hroot : b.id ≠ (stored node l).memory.tree.genesisId := by simpa [stored] using hroot
  cases h with
  | last hlast => simp [hlast] at hnext
  | unsigned hbuild => exact absurd hbuild (Context.build_ne_error hsign _ _ _)
  | leading _ _ hwalk => exact hwalk.reaches harrives hroot
  | voting _ _ _ hwalk => exact hwalk.reaches harrives hroot

theorem Decides.later (h : Decides l l') {decided : View}
    (hlast : l.memory.lastDecided = some decided) :
    ∃ decided', l'.memory.lastDecided = some decided' ∧ decided ≤ decided' := by
  cases h with
  | none _ _ hsame => exact ⟨decided, hsame.trans hlast, UInt64.le_refl _⟩
  | @one view hlater _ _ hone =>
    refine ⟨view, hone, UInt64.le_iff_toNat_le.2 ?_⟩
    have hlater : decided.toNat + 1 < view.toNat + 1 := by simpa [hlast, bound] using hlater
    omega

end Taking

/-- The tree is recent and complete. -/
structure Thorough (scheme : Scheme) (l : Life Chain σ) : Prop where
  recent : Recent scheme l
  complete : Complete scheme l.memory

theorem Thorough.move (h : Thorough ctx.scheme l) (hmove : Move ctx l l') :
    Thorough ctx.scheme l' :=
  ⟨h.recent.move hmove, h.complete.grow hmove.idles.grows hmove.idles.lastDecided⟩

theorem Thorough.adopt (h : Thorough ctx.scheme l) (hsign : ctx.signer.sign?.isSome)
    (hready : Readies ctx l lm node) (hadopt : Adopt ctx node lm l') : Thorough ctx.scheme l' := by
  have hlater := hready.later h.recent
  have hold : Complete ctx.scheme lm.memory :=
    h.complete.grow hready.idles.grows hready.idles.lastDecided
  obtain ⟨hproposed, hgenesis, -⟩ := hadopt.concludes
  refine ⟨fun x hx => ?_, fun x b0 b1 b2 next hx hascent hroot hnext => ?_⟩
  · rw [hadopt.steady.view, hadopt.steady.proposal, hready.proposal, ← hready.view]
    have hx := hproposed x hx
    rcases NodeTree.mem_insert hx.mem with rfl | hmem
    · exact .inr ⟨rfl, rfl⟩
    · exact .inl (hlater x ⟨hmem, hx.notDummy⟩)
  · have hx := hproposed x hx
    have hascent := hascent.mono hproposed
    have hroot : x.id ≠ lm.memory.tree.genesisId := by
      rw [hgenesis] at hroot
      simpa [stored] using hroot
    -- The three links are those up to the node, or they were there before.
    rcases hascent.top hx hlater with rfl | ⟨hx, hascent⟩
    · exact hadopt.reaches hsign hnext (hascent.arrives hx) hroot
    · obtain ⟨decided, hlast, hle⟩ := hold x b0 b1 b2 next hx hascent hroot hnext
      obtain ⟨decided', hlast', hle'⟩ := hadopt.decides.later hlast
      exact ⟨decided', hlast', UInt64.le_trans hle hle'⟩

theorem isDummy_genesisNode (scheme : Scheme) : IsDummy scheme (genesisNode scheme) := rfl

theorem thorough_of_lived {l : Life (Memory .chained) σ} (h : Lived ctx l)
    (hsign : ctx.signer.sign?.isSome) : Thorough ctx.scheme l := by
  refine kept_of_lived h (fun app => ?_) (fun hmove hold => hold.move hmove) (fun haccept hold => ?_)
    (fun hpropose hold => ?_)
  · have hnone : ∀ x, ¬ (NodeTree.initial ctx.scheme).Proposed ctx.scheme x := by
      intro x hx
      obtain rfl : x = genesisNode ctx.scheme := List.mem_singleton.1 hx.mem
      exact hx.notDummy (isDummy_genesisNode _)
    exact ⟨fun x hx => absurd hx (hnone x), fun x _ _ _ _ hx => absurd hx (hnone x)⟩
  · obtain ⟨node, lm, hready, hadopt⟩ := haccept.readies
    exact hold.adopt hsign hready hadopt
  · obtain ⟨node, lm, hready, hadopt⟩ := hpropose.readies
    exact hold.adopt hsign hready hadopt

section Deciding

theorem idles_of_moves (h : ReflTransGen (Move ctx) l l') : Idles ctx.scheme l l' := by
  induction h with
  | refl => exact .refl _ l
  | tail _ hmove ih => exact ih.trans hmove.idles

theorem Course.split (h : Course ctx l l') : ∃ l₁, ReflTransGen (Move ctx) l l₁ ∧
    (l' = l₁ ∨ ∃ node lm, Readies ctx l₁ lm node ∧ Adopt ctx node lm l') := by
  obtain ⟨l₁, hmoves, hlast⟩ := h
  rcases hlast with rfl | haccept | ⟨hgather, hpropose⟩ | ⟨hcertify, hpropose⟩
  · exact ⟨_, hmoves, .inl rfl⟩
  · exact ⟨l₁, hmoves, .inr haccept.readies⟩
  · exact ⟨_, hmoves.tail (.gather hgather), .inr hpropose.readies⟩
  · exact ⟨_, hmoves.tail (.certify hcertify), .inr hpropose.readies⟩

theorem Course.delivers (h : Course ctx l l') {es : List Effect} (hdone : l'.done = l.done ++ es)
    {view : View} {payload : Payload} (hdeliver : .deliver view payload ∈ es) :
    ∃ l₁ lm node b1 b0 b, ReflTransGen (Move ctx) l l₁ ∧ Readies ctx l₁ lm node ∧
      Adopt ctx node lm l' ∧ Arrives (lm.memory.tree.insert node) node b1 b0 b ∧ b.view = view ∧
      b.payload = payload ∧ l'.memory.tree = (lm.memory.tree.insert node).pruneBelow view := by
  obtain ⟨l₁, hmoves, hlast⟩ := h.split
  obtain ⟨es₁, hdone₁, hes₁⟩ := (idles_of_moves hmoves).done
  rcases hlast with rfl | ⟨node, lm, hready, hadopt⟩
  · obtain rfl := List.append_cancel_left (hdone₁.symm.trans hdone)
    exact absurd hdeliver (hes₁ view payload)
  · obtain ⟨es₂, hdone₂, hes₂⟩ := hready.idles.done
    obtain ⟨-, -, es₃, hdone₃, hes₃⟩ := hadopt.concludes
    have hsum : l'.done = l.done ++ (es₁ ++ (es₂ ++ es₃)) := by
      rw [hdone₃]
      simp [stored, hdone₂, hdone₁]
    obtain rfl := List.append_cancel_left (hsum.symm.trans hdone)
    have hlast : .deliver view payload ∈ es₃ := by
      simpa [hes₁ view payload, hes₂ view payload] using hdeliver
    obtain ⟨b1, b0, b, harrives, hview, hpayload, htree⟩ := hes₃ view payload hlast
    exact ⟨l₁, lm, node, b1, b0, b, hmoves, hready, hadopt, harrives, hview, hpayload, htree⟩

theorem Arrives.unique {tree : NodeTree} {b2 b1 b0 b b1' b0' b' : Body}
    (h : Arrives tree b2 b1 b0 b) (h' : Arrives tree b2 b1' b0' b') : b = b' := by
  obtain rfl := Option.some.inj (h.first.symm.trans h'.first)
  obtain rfl := Option.some.inj (h.second.symm.trans h'.second)
  exact Option.some.inj (h.third.symm.trans h'.third)

/-- When the node `b` is delivered, no other proposed node of a later view than the last delivery
has an ascent above it. -/
theorem Thorough.broken {b1 b0 b : Body} (h : Thorough ctx.scheme l) (hready : Readies ctx l lm node)
    (harrives : Arrives (lm.memory.tree.insert node) node b1 b0 b) {x : Body}
    (hx : (lm.memory.tree.insert node).Proposed ctx.scheme x) (hother : x ≠ b)
    (hroot : x.id ≠ lm.memory.tree.genesisId)
    (hlater : ∀ decided, lm.memory.lastDecided = some decided → decided < x.view) (c0 c1 c2 : Body) :
    ¬ Ascent ((lm.memory.tree.insert node).Proposed ctx.scheme) x c0 c1 c2 := by
  intro hascent
  have hbelow := hready.later h.recent
  rcases hascent.top hx hbelow with rfl | ⟨hx, hascent⟩
  · exact hother ((hascent.arrives hx).unique harrives)
  · obtain ⟨next, hnext⟩ := View.exists_next_of_lt (hbelow c2 hascent.mem2)
    have hold : Complete ctx.scheme lm.memory :=
      h.complete.grow hready.idles.grows hready.idles.lastDecided
    obtain ⟨decided, hlast, hle⟩ := hold x c0 c1 c2 next hx hascent hroot hnext
    exact UInt64.not_le.2 (hlater decided hlast) hle

theorem Arrives.finality {tree : NodeTree} {b2 b1 b0 b : Body} (h : Arrives tree b2 b1 b0 b) :
    Finality (· ∈ tree.nodes) b2 b := by
  obtain ⟨hmem1, hdirect2⟩ := directParent?_spec h.first
  obtain ⟨hmem0, hdirect1⟩ := directParent?_spec h.second
  obtain ⟨hmem, hdirect0⟩ := directParent?_spec h.third
  exact ⟨⟨b1, b0, hmem1, hmem0, hdirect2, hdirect1, hdirect0⟩, hmem⟩

/-- `tree` is the tree at the delivery of `final`: it has all nodes from before the turn and the new
proposal, three links lead from a node down to `final`, and all earlier views are pruned
afterwards. -/
structure Settles (ctx : Context σ) (l : Life (Memory .chained) σ) (outcome : Outcome .chained σ)
    (tree : NodeTree) (final : Body) : Prop where
  old : ∀ x ∈ (Chain.tree l.memory).nodes, x ∈ tree.nodes
  proposed : ∀ x, tree.Proposed ctx.scheme x →
    x ∈ (Chain.tree l.memory).nodes ∨ outcome.machine.state.proposal = some x
  links : ∃ top, Finality (· ∈ tree.nodes) top final
  pruned : Chain.tree outcome.machine.memory = tree.pruneBelow final.view

/-- When a core with a key delivers a payload, let `x` be another proposed node in the tree that is
of a later view than the last delivery. There are no three proposed nodes above `x` in an unbroken
chain of direct links. -/
theorem broken_of_passed_over {l : Life (Memory .chained) σ} (h : Lived ctx l)
    (hsign : ctx.signer.sign?.isSome) {input : Input} (hpermits : l.Permits input) {view : View}
    {payload : Payload} (hdone : .deliver view payload ∈ (l.machine.step ctx input).effects) :
    ∃ tree final, Settles ctx l (l.machine.step ctx input) tree final ∧ final.view = view ∧
      final.payload = payload ∧
      ∀ x, tree.Proposed ctx.scheme x → x ≠ final → x.id ≠ tree.genesisId →
        (∀ decided, Chain.lastDecided l.memory = some decided → decided < x.view) →
        ∀ b0 b1 b2, ¬ Ascent (tree.Proposed ctx.scheme) x b0 b1 b2 := by
  have hcourse := course_of_lived h hpermits
  obtain ⟨l₁, lm, node, b1, b0, b, hmoves, hready, hadopt, harrives, rfl, rfl, htree⟩ :=
    hcourse.delivers rfl hdone
  have hthorough : Thorough ctx.scheme l := thorough_of_lived h hsign
  have hthorough₁ : Thorough ctx.scheme l₁ := by
    clear hready
    induction hmoves with
    | refl => exact hthorough
    | tail _ hmove ih => exact ih.move hmove
  -- Up to the node taken over, the tree has only grown, and nothing was delivered.
  have hidles := (idles_of_moves hmoves).trans hready.idles
  refine ⟨lm.memory.tree.insert node, b, ⟨?_, ?_, ⟨node, harrives.finality⟩, htree⟩, rfl, rfl, ?_⟩
  · intro x hx
    exact NodeTree.mem_insert_of_mem (hidles.grows.old x hx) node
  · intro x hx
    rcases NodeTree.mem_insert hx.mem with rfl | hmem
    · exact .inr (hadopt.steady.proposal.trans hready.proposal)
    · exact .inl (hidles.grows.proposed x ⟨hmem, hx.notDummy⟩).mem
  · intro x hx hother hroot hlater
    refine hthorough₁.broken hready harrives hx hother ?_ ?_
    · simpa using hroot
    · intro decided hlast
      exact hlater decided (hidles.lastDecided ▸ hlast)

end Deciding

section Gap

open Legible

/-- The outcome of the proposal of view 6 for member 0. -/
def gapOutcome : Outcome .chained Unit := (gappedRun 0).machine.step (four.context 0) gapInput

theorem lived_gappedRun : Lived (four.context 0) (gappedRun 0) :=
  (Cast.reachable_play ..).lived 0

theorem permits_gapInput : (gappedRun 0).Permits gapInput := trivial

theorem gappedRun_spec : Chain.lastDecided (gappedRun 0).memory = none ∧
    .deliver 3 (payload 3) ∈ gapOutcome.effects ∧
    .deliver 1 (payload 2) ∉ (gappedRun 0).done ++ gapOutcome.effects ∧
    ∃ x ∈ (Chain.tree (gappedRun 0).memory).nodes,
    ∃ dummy ∈ (Chain.tree (gappedRun 0).memory).nodes,
    ∃ final ∈ (Chain.tree (gappedRun 0).memory).nodes,
      dummy.parentId = x.id ∧ final.parentId = dummy.id ∧ final.view = 3 ∧
      final.payload = payload 3 ∧ x.view = 1 ∧ x.payload = payload 2 ∧
      x.id ≠ (Chain.tree (gappedRun 0).memory).genesisId ∧ ¬ IsDummy four.scheme x := by
  decide +kernel

/-- Member 0 delivers the node of view 3 first, and never the proposed node of view 1 on the same
branch. -/
theorem branch_passed_over :
    Lived (four.context 0) (gappedRun 0) ∧ (gappedRun 0).Permits gapInput ∧
      Chain.lastDecided (gappedRun 0).memory = none ∧
      ∃ x final, final.view = 3 ∧ final.payload = payload 3 ∧
        .deliver final.view final.payload ∈ gapOutcome.effects ∧
        TransGen (Link (· ∈ (Chain.tree (gappedRun 0).memory).nodes)) x final ∧
        x.id ≠ (Chain.tree (gappedRun 0).memory).genesisId ∧ ¬ IsDummy four.scheme x ∧
        .deliver x.view x.payload ∉ (gappedRun 0).done ++ gapOutcome.effects := by
  obtain ⟨hfirst, hdone, hnone, x, hx, dummy, hdummy, final, hfinal, hbelow, habove, hview, hpayload,
    hxview, hxpayload, hroot, hproposed⟩ := gappedRun_spec
  have hpath : TransGen (Link (· ∈ (Chain.tree (gappedRun 0).memory).nodes)) x final :=
    .tail (.single ⟨hx, hdummy, hbelow⟩) ⟨hdummy, hfinal, habove⟩
  refine ⟨lived_gappedRun, permits_gapInput, hfirst, x, final, hview, hpayload, ?_, hpath, hroot,
    hproposed, ?_⟩
  · rw [hview, hpayload]
    exact hdone
  · rw [hxview, hxpayload]
    exact hnone

/-- The same delivery of member 0, in which no passed over node has an unbroken chain above it. -/
theorem broken_of_passed_over_in_gappedRun :
    Lived (four.context 0) (gappedRun 0) ∧ (four.context 0).signer.sign?.isSome ∧
      (gappedRun 0).Permits gapInput ∧ .deliver 3 (payload 3) ∈ gapOutcome.effects ∧
      ∃ tree final, Settles (four.context 0) (gappedRun 0) gapOutcome tree final ∧
        final.view = 3 ∧ final.payload = payload 3 ∧
        ∀ x, tree.Proposed four.scheme x → x ≠ final → x.id ≠ tree.genesisId →
          (∀ decided, Chain.lastDecided (gappedRun 0).memory = some decided → decided < x.view) →
          ∀ b0 b1 b2, ¬ Ascent (tree.Proposed four.scheme) x b0 b1 b2 :=
  ⟨lived_gappedRun, rfl, permits_gapInput, gappedRun_spec.2.1,
    broken_of_passed_over lived_gappedRun rfl permits_gapInput gappedRun_spec.2.1⟩

end Gap

end Chained

end Concord.Core
