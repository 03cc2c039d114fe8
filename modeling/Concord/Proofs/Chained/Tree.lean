import Concord.Proofs.NewViews
import Mathlib.Data.List.Nodup
import Mathlib.Logic.Relation

/-!
The nodes that a tree can hold, and the structure of the bridges over skipped views.
-/

namespace Concord.Core

open Crypto Relation

/-- The nodes that satisfy `root`, and the dummies on top of them. -/
inductive Grown (scheme : Scheme) (root : Body → Prop) : Body → Prop
  | root {b : Body} : root b → Grown scheme root b
  | dummy {b : Body} {view : View} :
      Grown scheme root b → b.view.next? = some view →
      Grown scheme root (dummyNode scheme view b.id)

theorem Grown.mono {scheme : Scheme} {root root' : Body → Prop} {b : Body}
    (h : Grown scheme root b) (hsub : ∀ b, root b → root' b) : Grown scheme root' b := by
  induction h with
  | root hb => exact .root (hsub _ hb)
  | dummy _ hnext ih => exact .dummy ih hnext

theorem Grown.join {scheme : Scheme} {root : Body → Prop} {b : Body}
    (h : Grown scheme (Grown scheme root) b) : Grown scheme root b := by
  induction h with
  | root hb => exact hb
  | dummy _ hnext ih => exact .dummy ih hnext

/-- Both are nodes, and `below` is the parent of `above`. -/
structure Link (nodes : Body → Prop) (below above : Body) : Prop where
  mem_below : nodes below
  mem_above : nodes above
  parentId : above.parentId = below.id

theorem Link.mono {nodes nodes' : Body → Prop} {a b : Body} (h : Link nodes a b)
    (hsub : ∀ b, nodes b → nodes' b) : Link nodes' a b :=
  ⟨hsub _ h.mem_below, hsub _ h.mem_above, h.parentId⟩

@[simp] theorem dummyNode_view (scheme : Scheme) (view : View) (tip : Digest) :
    (dummyNode scheme view tip).view = view := rfl

/-- A node on a path up from `start`: a dummy, or `start` itself if no view is skipped. -/
structure Tip (nodes : Body → Prop) (start : Body) (view : View) (tip : Body) : Prop where
  path : ReflTransGen (Link nodes) start tip
  mem : nodes tip
  near : tip = start ∧ view.toNat ≤ start.view.toNat + 1 ∨ tip.justify = Certificate.genesis

theorem Tip.mono {nodes nodes' : Body → Prop} {start tip : Body} {view : View}
    (h : Tip nodes start view tip) (hsub : ∀ b, nodes b → nodes' b) :
    Tip nodes' start view tip :=
  ⟨ReflTransGen.mono (fun _ _ hlink => Link.mono hlink hsub) _ _ h.path, hsub _ h.mem, h.near⟩

namespace NodeTree

variable {scheme : Scheme} {root : Body → Prop} {tree : NodeTree} {node x : Body} {id : Digest}

theorem mem_insert (h : x ∈ (tree.insert node).nodes) : x = node ∨ x ∈ tree.nodes := by
  unfold insert at h
  split at h
  · exact List.mem_cons.1 h
  · exact .inr h

theorem mem_insertAll {nodes : List Body} (h : x ∈ (tree.insertAll nodes).nodes) :
    x ∈ nodes ∨ x ∈ tree.nodes := by
  unfold insertAll at h
  induction nodes generalizing tree with
  | nil => exact .inr h
  | cons node rest ih =>
    rcases ih h with hx | hx
    · exact .inl (List.mem_cons_of_mem _ hx)
    · rcases mem_insert hx with rfl | hx
      · exact .inl List.mem_cons_self
      · exact .inr hx

theorem mem_insert_of_mem (h : x ∈ tree.nodes) (node : Body) : x ∈ (tree.insert node).nodes := by
  unfold insert
  split
  · exact List.mem_cons_of_mem _ h
  · exact h

theorem mem_insertAll_of_mem (nodes : List Body) (h : x ∈ tree.nodes) :
    x ∈ (tree.insertAll nodes).nodes := by
  unfold insertAll
  induction nodes generalizing tree with
  | nil => exact h
  | cons node rest ih => exact ih (mem_insert_of_mem h node)

theorem mem_pruneBelow {view : View} (h : x ∈ (tree.pruneBelow view).nodes) : x ∈ tree.nodes :=
  (List.mem_filter.1 h).1

@[simp] theorem genesisId_insert (tree : NodeTree) (node : Body) :
    (tree.insert node).genesisId = tree.genesisId := by
  unfold insert
  split <;> rfl

@[simp] theorem genesisId_insertAll (tree : NodeTree) (nodes : List Body) :
    (tree.insertAll nodes).genesisId = tree.genesisId := by
  unfold insertAll
  induction nodes generalizing tree with
  | nil => rfl
  | cons node rest ih => rw [List.foldl_cons, ih, genesisId_insert]

theorem mem_of_get? (h : tree.get? id = some x) : x ∈ tree.nodes ∧ x.id = id :=
  ⟨List.mem_of_find?_eq_some h, by simpa using List.find?_some h⟩

theorem get?_of_mem (h : x ∈ tree.nodes) : tree.get? x.id = some x := by
  cases hget : tree.get? x.id with
  | none => simpa using List.find?_eq_none.1 hget x h
  | some y =>
    obtain ⟨hy, hid⟩ := mem_of_get? hget
    exact congrArg some (List.inj_on_of_nodup_map tree.nodup_ids hy h hid)

theorem mem_insert_iff (h : ∀ y ∈ tree.nodes, y.id = node.id → y = node) :
    x ∈ (tree.insert node).nodes ↔ x = node ∨ x ∈ tree.nodes := by
  refine ⟨mem_insert, fun hx => ?_⟩
  unfold insert
  split
  · exact List.mem_cons.2 hx
  · next hcontains =>
    rcases hx with rfl | hx
    · obtain ⟨y, hget⟩ := Option.isSome_iff_exists.1 (Bool.not_eq_false _ ▸ hcontains)
      obtain ⟨hy, hid⟩ := mem_of_get? hget
      exact h y hy hid ▸ hy
    · exact hx

theorem exists_of_contains (h : tree.contains id) : ∃ x, tree.get? id = some x :=
  Option.isSome_iff_exists.1 h

theorem contains_of_mem (h : x ∈ tree.nodes) : tree.contains x.id := by
  refine Decidable.byContradiction fun hnot => ?_
  rw [Bool.not_eq_true, contains_eq_false_iff] at hnot
  exact hnot (List.mem_map_of_mem h)

theorem exists_tip_dummiesFrom (count : Nat) {view : View} {b : Body} (hb : Grown scheme root b)
    (hnext : count ≠ 0 → b.view.next? = some view) (hcount : view.toNat + count ≤ UInt64.size) :
    (∀ d ∈ dummiesFrom scheme count view b.id, Grown scheme root d) ∧
      ∃ tip, tip.id = ((dummiesFrom scheme count view b.id).getLast?.map Body.id).getD b.id ∧
        ReflTransGen (Link (Grown scheme root)) b tip ∧ Grown scheme root tip ∧
        (count = 0 ∧ tip = b ∨ tip.justify = Certificate.genesis) := by
  -- On the number of dummies, each the node from which the others go on.
  induction count generalizing view b with
  | zero => exact ⟨by simp [dummiesFrom], b, rfl, .refl, hb, .inl ⟨rfl, rfl⟩⟩
  | succ count ih =>
    have hfirst : Grown scheme root (dummyNode scheme view b.id) := .dummy hb (hnext (by simp))
    have hlink : Link (Grown scheme root) b (dummyNode scheme view b.id) := ⟨hb, hfirst, rfl⟩
    have hrest : count ≠ 0 → (dummyNode scheme view b.id).view.next? = some (view + 1) := by
      intro hcount0
      have hlast : view ≠ View.last := by
        rintro rfl
        have : View.last.toNat = 18446744073709551615 := rfl
        have : UInt64.size = 18446744073709551616 := rfl
        omega
      simp [View.next?, hlast]
    have hbound : (view + 1).toNat + count ≤ UInt64.size := by
      have hle : (view + 1).toNat ≤ view.toNat + 1 := by
        rw [UInt64.toNat_add]
        exact Nat.mod_le _ _
      omega
    obtain ⟨hgrown, tip, hid, hpath, htip, hnear⟩ := ih hfirst hrest hbound
    refine ⟨?_, tip, ?_, .head hlink hpath, htip, .inr ?_⟩
    · intro d hd
      rcases List.mem_cons.1 hd with rfl | hd
      · exact hfirst
      · exact hgrown d hd
    · rw [hid, dummiesFrom, List.getLast?_cons, Option.map_some, Option.getD_some]
      cases (dummiesFrom scheme count (view + 1) (dummyNode scheme view b.id).id).getLast? <;> rfl
    · rcases hnear with ⟨-, rfl⟩ | hjustify
      · rfl
      · exact hjustify

theorem exists_of_mem_dummiesFrom {count : Nat} {view : View} {tip : Digest} {d : Body}
    (h : d ∈ dummiesFrom scheme count view tip) : ∃ view tip, d = dummyNode scheme view tip := by
  induction count generalizing view tip with
  | zero => cases h
  | succ count ih =>
    rcases List.mem_cons.1 h with rfl | h
    · exact ⟨_, _, rfl⟩
    · exact ih h

theorem exists_of_mem_dummyChain {start : Digest} {view : View} {dummies : List Body} {d : Body}
    (h : tree.dummyChain scheme start view = .ok dummies) (hd : d ∈ dummies) :
    ∃ view tip, d = dummyNode scheme view tip := by
  unfold dummyChain at h
  split at h
  · cases h
    cases hd
  · dsimp only at h
    split at h
    · cases h
    · cases h
      exact exists_of_mem_dummiesFrom hd

/-- The dummies of a bridge are grown from the tree, and the last one is a tip. -/
theorem dummyChain_spec {start : Digest} {view : View} {dummies : List Body}
    (hroot : ∀ n ∈ tree.nodes, Grown scheme root n)
    (h : tree.dummyChain scheme start view = .ok dummies) :
    (∀ d ∈ dummies, Grown scheme root d ∧ d.justify = Certificate.genesis) ∧
      ∀ n, tree.get? start = some n →
        ∃ tip, tip.id = (dummies.getLast?.map Body.id).getD start ∧
          Tip (Grown scheme root) n view tip := by
  unfold dummyChain at h
  cases hget : tree.get? start with
  | none =>
    rw [hget] at h
    cases h
    exact ⟨by simp, nofun⟩
  | some n =>
    rw [hget] at h
    dsimp only at h
    split at h
    · cases h
    · cases h
      obtain ⟨hn, rfl⟩ := mem_of_get? hget
      have hview := view.toNat_lt
      have hbound : (n.view.plus 1).toNat + view.gap (n.view.plus 1) ≤ UInt64.size := by
        have := (n.view.plus 1).toNat_lt
        have : UInt64.size = 18446744073709551616 := rfl
        unfold View.gap
        omega
      -- There is a view to skip only if there is one after that of the node.
      have hnext : view.gap (n.view.plus 1) ≠ 0 → n.view.next? = some (n.view.plus 1) := by
        cases hnext : n.view.next? with
        | some next => exact fun _ => congrArg some (View.plus_one hnext).symm
        | none =>
          rw [View.eq_last hnext, View.plus_one_last, View.gap, View.toNat_last]
          omega
      obtain ⟨hgrown, tip, hid, hpath, htip, hnear⟩ :=
        exists_tip_dummiesFrom _ (hroot n hn) hnext hbound
      refine ⟨fun d hd => ⟨hgrown d hd, ?_⟩, fun n' hn' => ?_⟩
      · obtain ⟨_, _, rfl⟩ := exists_of_mem_dummiesFrom hd
        rfl
      obtain rfl := Option.some.inj hn'
      refine ⟨tip, hid, hpath, htip, hnear.imp_left fun ⟨hzero, htip⟩ => ⟨htip, ?_⟩⟩
      have hplus : (n.view.plus 1).toNat ≤ n.view.toNat + 1 := View.toNat_plus_le _ _
      unfold View.gap at hzero
      omega

theorem backfill_spec {start parentId : Digest} {view : View} {tree' : NodeTree}
    (hroot : ∀ n ∈ tree.nodes, Grown scheme root n)
    (h : tree.backfill scheme start view = .ok (tree', parentId)) :
    tree'.genesisId = tree.genesisId ∧
      (∀ x ∈ tree'.nodes, x ∈ tree.nodes ∨
        Grown scheme root x ∧ x.justify = Certificate.genesis) ∧
      ∀ n, tree.get? start = some n →
        ∃ tip, tip.id = parentId ∧ Tip (Grown scheme root) n view tip := by
  unfold backfill at h
  cases hchain : tree.dummyChain scheme start view with
  | error fault =>
    rw [hchain] at h
    cases h
  | ok dummies =>
    rw [hchain] at h
    cases h
    obtain ⟨hgrown, htip⟩ := dummyChain_spec hroot hchain
    refine ⟨genesisId_insertAll _ _, fun x hx => ?_, htip⟩
    rcases mem_insertAll hx with hx | hx
    · exact .inr (hgrown x hx)
    · exact .inl hx

end NodeTree

end Concord.Core
