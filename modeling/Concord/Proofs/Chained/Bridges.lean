import Concord.Proofs.Chained.Ancestry
import Concord.Proofs.Chained.Holes
import Concord.Proofs.Chained.Identities
import Concord.Proofs.Chained.ThreeChain

/-!
Bridges over skipped views. The dummies of a bridge depend only on the node that it starts from and
on the view that it leads to, so all members compute the same ones.
-/

namespace Concord.Core

open Crypto Relation

/-- The dummies for the views strictly between `below` and `view`. -/
def bridgeOver (scheme : Scheme) (below : Body) (view : View) : List Body :=
  let first := below.view.plus 1
  NodeTree.dummiesFrom scheme (view.gap first) first below.id

/-- One dummy for each view strictly between `below` and `view`, in order, each with the one before
as its parent. -/
structure Bridge (scheme : Scheme) (below : Body) (view : View) (dummies : List Body) : Prop where
  dummy : ∀ d ∈ dummies, IsDummy scheme d
  views : dummies.map (fun d => d.view.toNat) =
    List.range' (below.view.toNat + 1) (view.toNat - (below.view.toNat + 1))
  linked : (below :: dummies).IsChain fun lower upper => upper.parentId = lower.id

theorem Bridge.later {scheme : Scheme} {below d : Body} {view : View} {dummies : List Body}
    (h : Bridge scheme below view dummies) (hd : d ∈ dummies) : below.view ≤ d.view := by
  have hmem : d.view.toNat ∈ dummies.map fun d => d.view.toNat := List.mem_map_of_mem hd
  rw [h.views, List.mem_range'_1] at hmem
  apply UInt64.le_iff_toNat_le.2
  omega

/-- The nodes have the digests of their contents as identities, different contents have different
digests, and none of these is zero. -/
structure Addressable (scheme : Scheme) (nodes : List Body) : Prop where
  fits : ∀ b ∈ nodes, b.Fits
  sealed : ∀ b ∈ nodes, b.computeId scheme = b.id
  apart : ∀ b ∈ nodes, ∀ c ∈ nodes, scheme.hash b.content = scheme.hash c.content →
    b.content = c.content
  nonzero : ∀ b ∈ nodes, scheme.hash b.content ≠ Digest.zero

instance (scheme : Scheme) (nodes : List Body) : Decidable (Addressable scheme nodes) :=
  decidable_of_iff ((∀ b ∈ nodes, b.Fits) ∧ (∀ b ∈ nodes, b.computeId scheme = b.id) ∧
      (∀ b ∈ nodes, ∀ c ∈ nodes, scheme.hash b.content = scheme.hash c.content →
        b.content = c.content) ∧
      ∀ b ∈ nodes, scheme.hash b.content ≠ Digest.zero)
    ⟨fun h => ⟨h.1, h.2.1, h.2.2.1, h.2.2.2⟩, fun h => ⟨h.fits, h.sealed, h.apart, h.nonzero⟩⟩

namespace Addressable

variable {scheme : Scheme} {nodes : List Body} {b c : Body}

theorem eq_of_id (h : Addressable scheme nodes) (hb : b ∈ nodes) (hc : c ∈ nodes)
    (hid : b.id = c.id) : b = c := by
  have hdigest : b.computeId scheme = c.computeId scheme :=
    (h.sealed b hb).trans (hid.trans (h.sealed c hc).symm)
  exact Body.eq_of_content (h.fits b hb) (h.fits c hc) hid (h.apart b hb c hc hdigest)

theorem id_ne_zero (h : Addressable scheme nodes) (hb : b ∈ nodes) : b.id ≠ Digest.zero := by
  intro hzero
  exact h.nonzero b hb ((h.sealed b hb).trans hzero)

end Addressable

namespace NodeTree

variable {scheme : Scheme} {tree : NodeTree} {below x : Body} {nodes : List Body}
  {id start : Digest} {view floor : View}

section Bridging

theorem views_dummiesFrom (count : Nat) {tip : Digest} (hcount : view.toNat + count ≤ UInt64.size) :
    (dummiesFrom scheme count view tip).map (fun d => d.view.toNat) =
      List.range' view.toNat count := by
  induction count generalizing view tip with
  | zero => rfl
  | succ count ih =>
    have hsize : UInt64.size = 18446744073709551616 := rfl
    have hsucc : (view + 1).toNat = (view.toNat + 1) % 18446744073709551616 := by
      rw [UInt64.toNat_add]
      rfl
    rw [dummiesFrom, List.map_cons, List.range'_succ, dummyNode_view, ih (by omega)]
    -- The views may end with this dummy, and then the next one is not looked at.
    cases count with
    | zero => rfl
    | succ count => rw [hsucc, Nat.mod_eq_of_lt (by omega)]

theorem linked_dummiesFrom (count : Nat) (view : View) (below : Body) :
    (below :: dummiesFrom scheme count view below.id).IsChain
      fun lower upper => upper.parentId = lower.id := by
  induction count generalizing view below with
  | zero => exact .singleton _
  | succ count ih => exact .cons_cons rfl (ih _ (dummyNode scheme view below.id))

theorem bridge_bridgeOver (scheme : Scheme) (below : Body) (view : View) :
    Bridge scheme below view (bridgeOver scheme below view) where
  dummy _ hd := isDummy_of_mem_dummiesFrom hd
  linked := linked_dummiesFrom _ _ below
  views := by
    have hsize : UInt64.size = 18446744073709551616 := rfl
    have hview := view.toNat_lt
    have hbound : (below.view.plus 1).toNat + view.gap (below.view.plus 1) ≤ UInt64.size := by
      have hfirst := (below.view.plus 1).toNat_lt
      unfold View.gap
      omega
    rw [bridgeOver, views_dummiesFrom _ hbound, View.gap]
    cases hnext : below.view.next? with
    | some first => rw [View.plus_one hnext, View.toNat_next hnext]
    | none =>
      -- No view follows the last, and there is nothing to bridge after it.
      have hlast : below.view.toNat = 18446744073709551615 := View.eq_last hnext ▸ View.toNat_last
      have hnone : view.toNat - View.last.toNat = 0 := by
        rw [View.toNat_last]
        omega
      have hnone' : view.toNat - (below.view.toNat + 1) = 0 := by omega
      rw [hnone', View.eq_last hnext, View.plus_one_last, hnone, List.range'_zero, List.range'_zero]

theorem dummyChain_of_unknown (hget : tree.get? start = none) :
    tree.dummyChain scheme start view = .ok [] := by
  rw [dummyChain, hget]

theorem dummyChain_of_far (hget : tree.get? start = some below)
    (hfar : maxViewGap < view.gap below.view) :
    tree.dummyChain scheme start view =
      .error (.viewOutOfRange (.skipped (view.gap below.view) below.view view)) := by
  rw [dummyChain, hget]
  exact if_pos hfar

theorem dummyChain_of_near (hget : tree.get? start = some below)
    (hnear : view.gap below.view ≤ maxViewGap) :
    tree.dummyChain scheme start view = .ok (bridgeOver scheme below view) := by
  obtain ⟨-, rfl⟩ := mem_of_get? hget
  rw [dummyChain, hget]
  exact if_neg (Nat.not_lt.2 hnear)

theorem backfill_of_near (hget : tree.get? start = some below)
    (hnear : view.gap below.view ≤ maxViewGap) :
    tree.backfill scheme start view =
      .ok (tree.insertAll (bridgeOver scheme below view), bridgeEnd scheme below view) := by
  rw [backfill, dummyChain_of_near hget hnear]
  obtain ⟨-, rfl⟩ := mem_of_get? hget
  rfl

end Bridging

section Storing

theorem contains_insertAll_of_contains (nodes : List Body) (h : tree.contains id) :
    (tree.insertAll nodes).contains id := by
  obtain ⟨x, hget⟩ := exists_of_contains h
  obtain ⟨hmem, rfl⟩ := mem_of_get? hget
  exact contains_of_mem (mem_insertAll_of_mem nodes hmem)

theorem insert_of_contains (h : tree.contains x.id) : tree.insert x = tree := by
  rw [insert, dif_neg]
  simp [h]

theorem contains_insert (tree : NodeTree) (x : Body) : (tree.insert x).contains x.id := by
  by_cases h : tree.contains x.id
  · rwa [insert_of_contains h]
  · apply contains_of_mem
    rw [insert, dif_pos (Bool.eq_false_iff.2 h)]
    exact List.mem_cons_self

theorem contains_insertAll (tree : NodeTree) (hx : x ∈ nodes) :
    (tree.insertAll nodes).contains x.id := by
  induction nodes generalizing tree with
  | nil => cases hx
  | cons node rest ih =>
    have hlater : (tree.insertAll (node :: rest)) = (tree.insert node).insertAll rest := rfl
    rw [hlater]
    cases List.mem_cons.1 hx with
    | inl heq =>
      subst heq
      exact contains_insertAll_of_contains rest (contains_insert tree x)
    | inr hrest => exact ih (tree.insert node) hrest

theorem insertAll_of_contains (h : ∀ x ∈ nodes, tree.contains x.id) :
    tree.insertAll nodes = tree := by
  induction nodes with
  | nil => rfl
  | cons node rest ih =>
    have hfirst : tree.insert node = tree := insert_of_contains (h node List.mem_cons_self)
    rw [insertAll, List.foldl_cons, hfirst]
    exact ih fun x hx => h x (List.mem_cons_of_mem _ hx)

theorem get?_insertAll_of_get? (nodes : List Body) (h : tree.get? id = some x) :
    (tree.insertAll nodes).get? id = some x := by
  obtain ⟨hmem, rfl⟩ := mem_of_get? h
  exact get?_of_mem (mem_insertAll_of_mem nodes hmem)

theorem get?_insertAll (h : Addressable scheme (tree.nodes ++ nodes)) (hx : x ∈ nodes) :
    (tree.insertAll nodes).get? x.id = some x := by
  obtain ⟨y, hget⟩ := exists_of_contains (contains_insertAll tree hx)
  obtain ⟨hmem, hid⟩ := mem_of_get? hget
  have hy : y ∈ tree.nodes ++ nodes := by
    rw [List.mem_append]
    exact (mem_insertAll hmem).symm
  rwa [h.eq_of_id hy (List.mem_append_right _ hx) hid] at hget

theorem path_of_linked {dummies : List Body}
    (hlinked : (below :: dummies).IsChain fun lower upper => upper.parentId = lower.id)
    (hstored : ∀ d ∈ dummies, tree.get? d.id = some d ∧ floor ≤ d.view)
    (hnonzero : ∀ d ∈ below :: dummies, d.id ≠ Digest.zero) :
    ReflTransGen (tree.Ascends floor) ((dummies.getLast?.map Body.id).getD below.id) below.id := by
  induction dummies generalizing below with
  | nil => exact .refl
  | cons d rest ih =>
    obtain ⟨hparent, hrest⟩ := List.isChain_cons_cons.1 hlinked
    obtain ⟨hget, hfloor⟩ := hstored d List.mem_cons_self
    have hlast : ((d :: rest).getLast?.map Body.id).getD below.id =
        (rest.getLast?.map Body.id).getD d.id := by
      rw [List.getLast?_cons]
      cases rest.getLast? <;> rfl
    have hlink : tree.Ascends floor d.id below.id :=
      ⟨⟨d, hget, hfloor, hparent⟩, hnonzero below List.mem_cons_self⟩
    rw [hlast]
    refine .tail (ih hrest ?_ ?_) hlink
    · exact fun x hx => hstored x (List.mem_cons_of_mem _ hx)
    · exact fun x hx => hnonzero x (List.mem_cons_of_mem _ hx)

/-- The result of `backfill` from `start` up to `view`. -/
structure Backfilled (scheme : Scheme) (tree : NodeTree) (start : Digest) (view : View)
    (dummies : List Body) (tree' : NodeTree) (tip : Digest) : Prop where
  returned : tree.backfill scheme start view = .ok (tree', tip)
  tip_eq : tip = (dummies.getLast?.map Body.id).getD start
  stored : ∀ d ∈ dummies, tree'.contains d.id
  kept : ∀ x ∈ tree.nodes, x ∈ tree'.nodes
  only : ∀ x ∈ tree'.nodes, x ∈ tree.nodes ∨ x ∈ dummies
  /-- Bridging the same views again changes nothing. -/
  again : tree'.backfill scheme start view = .ok (tree', tip)

theorem backfilled_insertAll (hget : tree.get? below.id = some below)
    (hnear : view.gap below.view ≤ maxViewGap) :
    Backfilled scheme tree below.id view (bridgeOver scheme below view)
      (tree.insertAll (bridgeOver scheme below view)) (bridgeEnd scheme below view) where
  returned := backfill_of_near hget hnear
  tip_eq := rfl
  stored _ hd := contains_insertAll tree hd
  kept _ hx := mem_insertAll_of_mem _ hx
  only _ hx := (mem_insertAll hx).symm
  again := by
    rw [backfill_of_near (get?_insertAll_of_get? _ hget) hnear,
      insertAll_of_contains fun _ hd => contains_insertAll tree hd]

theorem extends_bridgeEnd (hget : tree.get? below.id = some below)
    (h : Addressable scheme (tree.nodes ++ bridgeOver scheme below view)) :
    (tree.insertAll (bridgeOver scheme below view)).extends? (bridgeEnd scheme below view)
      below.id := by
  have hbridge : Bridge scheme below view _ := bridge_bridgeOver scheme below view
  apply extends_of_path (get?_insertAll_of_get? _ hget)
  apply path_of_linked hbridge.linked
  · intro d hd
    exact ⟨get?_insertAll h hd, hbridge.later hd⟩
  · intro d hd
    apply h.id_ne_zero
    cases List.mem_cons.1 hd with
    | inl heq => exact List.mem_append_left _ (heq ▸ (mem_of_get? hget).1)
    | inr hd => exact List.mem_append_right _ hd

end Storing

end NodeTree

theorem bridgeEnd_cases (scheme : Scheme) (below : Body) (view : View) :
    bridgeEnd scheme below view = below.id ∨
      ∃ d ∈ bridgeOver scheme below view, (bridgeOver scheme below view).getLast? = some d ∧
        bridgeEnd scheme below view = d.id := by
  have hend : bridgeEnd scheme below view =
      ((bridgeOver scheme below view).getLast?.map Body.id).getD below.id := rfl
  cases hlast : (bridgeOver scheme below view).getLast? with
  | none =>
    rw [hlast] at hend
    exact .inl hend
  | some d =>
    rw [hlast] at hend
    exact .inr ⟨d, List.mem_of_getLast? hlast, rfl, hend⟩

theorem NodeTree.contains_bridgeEnd (scheme : Scheme) (view : View) {tree : NodeTree} {below : Body}
    (hget : tree.get? below.id = some below) :
    (tree.insertAll (bridgeOver scheme below view)).contains (bridgeEnd scheme below view) := by
  cases bridgeEnd_cases scheme below view with
  | inl hstart =>
    rw [hstart]
    exact contains_insertAll_of_contains _ (Option.isSome_iff_exists.2 ⟨below, hget⟩)
  | inr hlast =>
    obtain ⟨d, hd, -, hend⟩ := hlast
    rw [hend]
    exact contains_insertAll tree hd

theorem NodeTree.same_end {scheme : Scheme} {tree tree' : NodeTree} {below : Body} {view : View}
    (hget : tree.get? below.id = some below) (hget' : tree'.get? below.id = some below)
    (h : Addressable scheme (tree.nodes ++ tree'.nodes ++ bridgeOver scheme below view)) :
    ∃ tip, (tree.insertAll (bridgeOver scheme below view)).get? (bridgeEnd scheme below view) =
        some tip ∧
      (if tree'.contains (bridgeEnd scheme below view) then tree'
        else tree'.insertAll (bridgeOver scheme below view)).get? (bridgeEnd scheme below view) =
        some tip := by
  obtain ⟨tip, htip⟩ := exists_of_contains (contains_bridgeEnd scheme view hget)
  obtain ⟨tip', htip', hmem'⟩ : ∃ tip', (if tree'.contains (bridgeEnd scheme below view) then tree'
        else tree'.insertAll (bridgeOver scheme below view)).get? (bridgeEnd scheme below view) =
        some tip' ∧ (tip' ∈ bridgeOver scheme below view ∨ tip' ∈ tree'.nodes) := by
    by_cases hknown : tree'.contains (bridgeEnd scheme below view)
    · rw [if_pos hknown]
      obtain ⟨tip', htip'⟩ := exists_of_contains hknown
      exact ⟨tip', htip', .inr (mem_of_get? htip').1⟩
    · rw [if_neg hknown]
      obtain ⟨tip', htip'⟩ := exists_of_contains (contains_bridgeEnd scheme view hget')
      exact ⟨tip', htip', mem_insertAll (mem_of_get? htip').1⟩
  -- One identity is not that of two nodes, and both ends have the same.
  have hsame : tip' = tip := by
    apply h.eq_of_id _ _ ((mem_of_get? htip').2.trans (mem_of_get? htip).2.symm)
    · rw [List.mem_append, List.mem_append]
      exact hmem'.symm.imp_left .inr
    · rw [List.mem_append, List.mem_append]
      exact (mem_insertAll (mem_of_get? htip).1).symm.imp_left .inl
  exact ⟨tip, htip, hsame ▸ htip'⟩

namespace Chained

open Handler NodeTree

variable {σ τ : Type} {ctx : Context σ} {ctx' : Context τ} {t : Turn Chain σ} {t' : Turn Chain τ}
  {node below : Body} {tree : NodeTree}

theorem exec_propose_of_fault {fault : Fault}
    (h : t.memory.tree.backfill ctx.scheme (seat t.memory) t.state.view = .error fault) :
    (exec (propose ctx) t).2 = t := by
  rcases exec_propose_cases ctx t with hsame | ⟨_, _, _, hbackfill, -⟩ | ⟨_, _, _, _, _, hpropose⟩
  · exact hsame
  · exact nomatch h.symm.trans hbackfill
  · exact nomatch h.symm.trans hpropose.backfill

theorem exec_bridge_of_fault {fault : Fault} (h : (exec (bridge ctx node) t).1 = .error fault) :
    (exec (bridge ctx node) t).2 = t := by
  rw [exec_bridge_eq] at h ⊢
  cases hbridged : bridged ctx.scheme t.memory.tree node with
  | error fault => rfl
  | ok tree =>
    rw [hbridged] at h
    cases h

theorem proposable_of_proposal (hfree : t.state.proposal = none)
    (h : (exec (propose ctx) t).2.state.proposal = some node) :
    ∃ tree parentId data app letter, Proposable ctx t tree parentId data app letter ∧
      node = proposal ctx t.state t.memory parentId data := by
  rcases exec_propose_cases ctx t with hsame | ⟨_, _, _, -, hexec⟩ | hpropose
  · rw [hsame, hfree] at h
    cases h
  · rw [hexec] at h
    exact nomatch hfree.symm.trans h
  · obtain ⟨tree, parentId, data, app, letter, hpropose⟩ := hpropose
    refine ⟨tree, parentId, data, app, letter, hpropose, ?_⟩
    have hsteady := (adopt_exec ctx (proposal ctx t.state t.memory parentId data) (lifeOf t)
      (announcing tree app (proposal ctx t.state t.memory parentId data) letter t)).steady
    rw [hpropose.exec_eq] at h
    exact Option.some.inj (h.symm.trans hsteady.proposal)

theorem bridged_of_stored {scheme : Scheme} (hget : tree.get? node.justify.nodeId = some below)
    (hnear : node.view.gap below.view ≤ maxViewGap)
    (hparent : node.parentId = bridgeEnd scheme below node.view) :
    bridged scheme tree node = .ok (if tree.contains node.parentId then tree
      else tree.insertAll (bridgeOver scheme below node.view)) := by
  obtain ⟨hmem, hid⟩ := mem_of_get? hget
  unfold bridged
  by_cases hknown : tree.contains node.parentId
  · rw [if_pos hknown, if_pos hknown]
  · rw [if_neg hknown, if_neg hknown, dummyChain_of_near hget hnear]
    dsimp only
    cases bridgeEnd_cases scheme below node.view with
    | inl hstart => exact absurd (hparent.trans hstart ▸ contains_of_mem hmem) hknown
    | inr hlast =>
      obtain ⟨d, -, hlast, hend⟩ := hlast
      rw [hlast, if_pos]
      exact decide_eq_true (hend.symm.trans hparent.symm)

/-- If a leader and a member with the same scheme both store the node that the leader's proposal
certifies, and all identities are reliable, both find the same parent of the proposal. -/
theorem same_parent (hscheme : ctx'.scheme = ctx.scheme) (hfree : t.state.proposal = none)
    (hproposal : (exec (propose ctx) t).2.state.proposal = some node)
    (hleader : t.memory.tree.get? t.memory.high.nodeId = some below)
    (hfollower : t'.memory.tree.contains node.justify.nodeId)
    (h : Addressable ctx.scheme
      (t.memory.tree.nodes ++ t'.memory.tree.nodes ++ bridgeOver ctx.scheme below node.view)) :
    ∃ tree tree' parent,
      t.memory.tree.backfill ctx.scheme below.id node.view = .ok (tree, node.parentId) ∧
      exec (bridge ctx' node) t' = (.ok (), replanted tree' t') ∧
      tree' = (if t'.memory.tree.contains node.parentId then t'.memory.tree
        else t'.memory.tree.insertAll (bridgeOver ctx.scheme below node.view)) ∧
      tree.get? node.parentId = some parent ∧ tree'.get? node.parentId = some parent := by
  obtain ⟨tree, parentId, data, app, letter, hpropose, rfl⟩ := proposable_of_proposal hfree hproposal
  obtain ⟨hmem, hid⟩ := mem_of_get? hleader
  have hstored : t.memory.tree.get? below.id = some below := hid ▸ hleader
  have hseat : seat t.memory = below.id := (if_pos (hid ▸ contains_of_mem hmem)).trans hid.symm
  have hbackfill := hpropose.backfill
  rw [hseat] at hbackfill
  have hnear : t.state.view.gap below.view ≤ maxViewGap := by
    apply Nat.not_lt.1
    intro hfar
    rw [backfill, dummyChain_of_far hstored hfar] at hbackfill
    cases hbackfill
  obtain rfl : parentId = bridgeEnd ctx.scheme below t.state.view :=
    parentId_of_backfill hstored hbackfill
  rw [backfill_of_near hstored hnear] at hbackfill
  obtain ⟨rfl, -⟩ := Prod.mk.inj (Except.ok.inj hbackfill)
  -- What the follower stores under the identity is the leader's node.
  obtain ⟨other, hother⟩ := exists_of_contains hfollower
  obtain ⟨hmem', hid'⟩ := mem_of_get? hother
  obtain rfl : other = below := by
    apply h.eq_of_id _ _ (hid'.trans hid.symm)
    · simp [hmem']
    · simp [hmem]
  obtain ⟨tip, htip, htip'⟩ := same_end hstored (get?_of_mem hmem') h
  refine ⟨_, _, tip, backfill_of_near hstored hnear, ?_, rfl, htip, htip'⟩
  rw [exec_bridge_eq, hscheme, bridged_of_stored hother hnear rfl]

/-- From a stored node, all trees make the same dummies, one for each view between, and a second
backfill changes nothing. If more than `maxViewGap` views lie between, or the node is unknown, the
tree is unchanged. A member that stores the node that a proposal certifies bridges to the same
parent as the leader. -/
theorem backfill_agrees (hscheme : ctx'.scheme = ctx.scheme) :
    (∀ (below : Body) (view : View), view.gap below.view ≤ maxViewGap →
      ∃ dummies tip, Bridge ctx.scheme below view dummies ∧
        ∀ tree : NodeTree, tree.get? below.id = some below →
          tree.dummyChain ctx.scheme below.id view = .ok dummies ∧
          ∃ tree', Backfilled ctx.scheme tree below.id view dummies tree' tip ∧
            (Addressable ctx.scheme (tree.nodes ++ dummies) →
              (∀ d ∈ dummies, tree'.get? d.id = some d) ∧ tree'.extends? tip below.id)) ∧
    (∀ (tree : NodeTree) (below : Body) (view : View), tree.get? below.id = some below →
      maxViewGap < view.gap below.view → ∃ fault,
        tree.dummyChain ctx.scheme below.id view = .error fault ∧
        tree.backfill ctx.scheme below.id view = .error fault) ∧
    (∀ (tree : NodeTree) (start : Digest) (view : View), tree.get? start = none →
      tree.dummyChain ctx.scheme start view = .ok [] ∧
      tree.backfill ctx.scheme start view = .ok (tree, start)) ∧
    (∀ (t : Turn Chain σ) fault,
      t.memory.tree.backfill ctx.scheme (seat t.memory) t.state.view = .error fault →
        (exec (propose ctx) t).2 = t) ∧
    (∀ (t : Turn Chain σ) node fault, (exec (bridge ctx node) t).1 = .error fault →
      (exec (bridge ctx node) t).2 = t) ∧
    ∀ (t : Turn Chain σ) (t' : Turn Chain τ) (node below : Body),
      t.state.proposal = none → (exec (propose ctx) t).2.state.proposal = some node →
      t.memory.tree.get? t.memory.high.nodeId = some below →
      t'.memory.tree.contains node.justify.nodeId →
      Addressable ctx.scheme
        (t.memory.tree.nodes ++ t'.memory.tree.nodes ++ bridgeOver ctx.scheme below node.view) →
      ∃ tree tree' parent,
        t.memory.tree.backfill ctx.scheme below.id node.view = .ok (tree, node.parentId) ∧
        exec (bridge ctx' node) t' = (.ok (), replanted tree' t') ∧
        tree' = (if t'.memory.tree.contains node.parentId then t'.memory.tree
          else t'.memory.tree.insertAll (bridgeOver ctx.scheme below node.view)) ∧
        tree.get? node.parentId = some parent ∧ tree'.get? node.parentId = some parent := by
  refine ⟨?near, ?far, ?unknown, fun t _ h => exec_propose_of_fault h,
    fun t _ _ h => exec_bridge_of_fault h,
    fun t t' _ _ hfree hnode hleader hfollower h =>
      same_parent hscheme hfree hnode hleader hfollower h⟩
  case near =>
    intro below view hnear
    refine ⟨bridgeOver ctx.scheme below view, bridgeEnd ctx.scheme below view,
      bridge_bridgeOver ctx.scheme below view, fun tree hget => ?_⟩
    refine ⟨dummyChain_of_near hget hnear, _, backfilled_insertAll hget hnear, fun h => ?_⟩
    exact ⟨fun d hd => get?_insertAll h hd, extends_bridgeEnd hget h⟩
  case far =>
    intro tree below view hget hfar
    have hchain : tree.dummyChain ctx.scheme below.id view = _ := dummyChain_of_far hget hfar
    refine ⟨_, hchain, ?_⟩
    rw [backfill, hchain]
  case unknown =>
    intro tree start view hget
    have hchain : tree.dummyChain ctx.scheme start view = _ := dummyChain_of_unknown hget
    refine ⟨hchain, ?_⟩
    rw [backfill, hchain]
    rfl

section Samples

open Legible

/-- The leader of view 3 when it enters that view. The node that it extends is of view 1. -/
def skipper : Turn Chain Unit :=
  { (earlyRun 0).turn with state := { (earlyRun 0).state with view := 3, proposal := none } }

def neighbour : Turn Chain Unit := (earlyRun 1).turn

def skipperNode : Body := ((exec (propose (four.context 0)) skipper).2.state.proposal).getD default

def skipperBelow : Body := (skipper.memory.tree.get? skipper.memory.high.nodeId).getD default

theorem skipper_spec :
    (exec (propose (four.context 0)) skipper).2.state.proposal = some skipperNode ∧
    skipper.memory.tree.get? skipper.memory.high.nodeId = some skipperBelow ∧
    neighbour.memory.tree.contains skipperNode.justify.nodeId ∧
    neighbour.memory.tree.contains skipperNode.parentId = false ∧
    Addressable scheme (skipper.memory.tree.nodes ++ neighbour.memory.tree.nodes ++
      bridgeOver scheme skipperBelow skipperNode.view) := by
  decide +kernel

/-- The leader of view 3 and member 1 make the same dummy for view 2. -/
theorem backfill_agrees_skipped :
    neighbour.memory.tree.contains skipperNode.parentId = false ∧
    ∃ tree tree' parent,
      skipper.memory.tree.backfill scheme skipperBelow.id skipperNode.view =
        .ok (tree, skipperNode.parentId) ∧
      exec (bridge (four.context 1) skipperNode) neighbour = (.ok (), replanted tree' neighbour) ∧
      tree.get? skipperNode.parentId = some parent ∧
      tree'.get? skipperNode.parentId = some parent := by
  obtain ⟨hproposal, hleader, hfollower, hunknown, haddressable⟩ := skipper_spec
  have hscheme : (four.context 1).scheme = (four.context 0).scheme := rfl
  have hfree : skipper.state.proposal = none := rfl
  obtain ⟨-, -, -, -, -, hagree⟩ := backfill_agrees hscheme
  obtain ⟨tree, tree', parent, hbackfill, hbridge, -, hget, hget'⟩ :=
    hagree skipper neighbour skipperNode skipperBelow hfree hproposal hleader hfollower haddressable
  exact ⟨hunknown, tree, tree', parent, hbackfill, hbridge, hget, hget'⟩

end Samples

end Chained

end Concord.Core
