import Concord.Proofs.Chained.Tree
import Mathlib.Data.Finset.Card
import Mathlib.Order.Monotone.Basic

/-!
The search for ancestors in a tree. Parent links may be cyclic, lead out of the tree or lead to
nodes of earlier views. The search is bounded by the number of nodes, which is enough to find every
ancestor.
-/

namespace Concord.Core.NodeTree

open Relation

variable {tree : NodeTree} {ancestor x y : Digest} {floor : View} {steps : Nat}

/-- The node stored under `x` is of view `floor` or later, and its parent is `y`. -/
structure Ascends (tree : NodeTree) (floor : View) (x y : Digest) : Prop where
  parent : ∃ node, tree.get? x = some node ∧ floor ≤ node.view ∧ node.parentId = y
  nonzero : y ≠ Digest.zero

theorem climb_succ_iff : tree.climb ancestor floor (steps + 1) x ↔
    x = ancestor ∨ ∃ y, tree.Ascends floor x y ∧ tree.climb ancestor floor steps y := by
  rw [climb]
  by_cases hx : x = ancestor
  · simp [hx]
  · simp only [hx, if_false, false_or]
    constructor
    · intro h
      split at h
      · next node hget =>
        split at h
        · next hlink => exact ⟨node.parentId, ⟨⟨node, hget, hlink.1, rfl⟩, hlink.2⟩, h⟩
        · cases h
      · cases h
    · intro h
      obtain ⟨y, ⟨⟨node, hget, hfloor, rfl⟩, hnonzero⟩, hclimb⟩ := h
      rw [hget]
      dsimp only
      rwa [if_pos ⟨hfloor, hnonzero⟩]

theorem climb_succ (h : tree.climb ancestor floor steps x) :
    tree.climb ancestor floor (steps + 1) x := by
  induction steps generalizing x with
  | zero => cases h
  | succ steps ih =>
    apply climb_succ_iff.2
    cases climb_succ_iff.1 h with
    | inl heq => exact .inl heq
    | inr hstep =>
      obtain ⟨y, hlink, hclimb⟩ := hstep
      exact .inr ⟨y, hlink, ih hclimb⟩

theorem climb_mono {steps' : Nat} (hle : steps ≤ steps') (h : tree.climb ancestor floor steps x) :
    tree.climb ancestor floor steps' x := by
  induction hle with
  | refl => exact h
  | step _ ih => exact climb_succ ih

theorem path_of_climb (h : tree.climb ancestor floor steps x) :
    ReflTransGen (tree.Ascends floor) x ancestor := by
  induction steps generalizing x with
  | zero => cases h
  | succ steps ih =>
    cases climb_succ_iff.1 h with
    | inl heq => exact heq ▸ .refl
    | inr hstep =>
      obtain ⟨y, hlink, hclimb⟩ := hstep
      exact .head hlink (ih hclimb)

theorem exists_climb_of_path (h : ReflTransGen (tree.Ascends floor) x ancestor) :
    ∃ steps, tree.climb ancestor floor steps x := by
  induction h using ReflTransGen.head_induction_on with
  | refl => exact ⟨1, climb_succ_iff.2 (.inl rfl)⟩
  | head hlink _ ih =>
    obtain ⟨steps, hclimb⟩ := ih
    exact ⟨steps + 1, climb_succ_iff.2 (.inr ⟨_, hlink, hclimb⟩)⟩

/-- The stored nodes from which `climb` finds the ancestor in at most `steps` steps. -/
def descendants (tree : NodeTree) (ancestor : Digest) (floor : View) (steps : Nat) :
    Finset Digest :=
  (tree.nodes.map Body.id).toFinset.filter fun x => tree.climb ancestor floor steps x

theorem card_descendants_le : (tree.descendants ancestor floor steps).card ≤ tree.size := by
  calc (tree.descendants ancestor floor steps).card
      ≤ (tree.nodes.map Body.id).toFinset.card := Finset.card_filter_le _ _
    _ ≤ (tree.nodes.map Body.id).length := List.toFinset_card_le _
    _ = tree.size := List.length_map _

theorem descendants_mono {steps' : Nat} (hle : steps ≤ steps') :
    tree.descendants ancestor floor steps ⊆ tree.descendants ancestor floor steps' := by
  intro x hx
  rw [descendants, Finset.mem_filter] at hx ⊢
  exact ⟨hx.1, climb_mono hle hx.2⟩

section

variable (hstored : tree.contains ancestor)

include hstored

theorem mem_descendants :
    x ∈ tree.descendants ancestor floor steps ↔ tree.climb ancestor floor steps x := by
  have hid : ∀ {id node}, tree.get? id = some node → id ∈ tree.nodes.map Body.id := by
    intro id node hget
    obtain ⟨hmem, rfl⟩ := mem_of_get? hget
    exact List.mem_map_of_mem hmem
  rw [descendants, Finset.mem_filter, List.mem_toFinset, and_iff_right_iff_imp]
  intro h
  cases ReflTransGen.cases_head (path_of_climb h) with
  | inl heq =>
    obtain ⟨node, hget⟩ := exists_of_contains hstored
    exact heq ▸ hid hget
  | inr hstep =>
    obtain ⟨y, hlink, -⟩ := hstep
    obtain ⟨node, hget, -⟩ := hlink.parent
    exact hid hget

theorem descendants_stable
    (h : tree.descendants ancestor floor steps = tree.descendants ancestor floor (steps + 1)) :
    tree.descendants ancestor floor (steps + 1) = tree.descendants ancestor floor (steps + 2) := by
  ext x
  rw [mem_descendants hstored, mem_descendants hstored, climb_succ_iff, climb_succ_iff]
  apply or_congr_right
  apply exists_congr
  intro y
  apply and_congr_right
  intro _
  rw [← mem_descendants hstored, ← mem_descendants hstored, h]

/-- Every ancestor that is found at all is found in as many steps as the tree has nodes. -/
theorem climb_size (hsteps : tree.size ≤ steps) (h : tree.climb ancestor floor steps x) :
    tree.climb ancestor floor tree.size x := by
  have hmono : Monotone fun n => (tree.descendants ancestor floor n).card :=
    fun _ _ hle => Finset.card_le_card (descendants_mono hle)
  have hstable : ∀ n, (tree.descendants ancestor floor n).card =
      (tree.descendants ancestor floor (n + 1)).card →
      (tree.descendants ancestor floor (n + 1)).card =
        (tree.descendants ancestor floor (n + 2)).card := by
    intro n hcard
    have hsame := Finset.eq_of_subset_of_card_le (descendants_mono (Nat.le_succ n)) hcard.ge
    rw [descendants_stable hstored hsame]
  have hcard : (tree.descendants ancestor floor steps).card =
      (tree.descendants ancestor floor tree.size).card :=
    Nat.stabilises_of_monotone hmono (fun _ => card_descendants_le) hstable hsteps
  have hsame := Finset.eq_of_subset_of_card_le (descendants_mono hsteps) hcard.le
  rw [← mem_descendants hstored] at h ⊢
  exact hsame ▸ h

theorem climb_iff_path (hsteps : tree.size ≤ steps) :
    tree.climb ancestor floor steps x ↔ ReflTransGen (tree.Ascends floor) x ancestor := by
  constructor
  · exact path_of_climb
  · intro h
    obtain ⟨enough, hclimb⟩ := exists_climb_of_path h
    have hmax : tree.climb ancestor floor (max tree.size enough) x :=
      climb_mono (Nat.le_max_right _ _) hclimb
    exact climb_mono hsteps (climb_size hstored (Nat.le_max_left _ _) hmax)

end

theorem extends_of_path {node : Body} (hget : tree.get? ancestor = some node)
    (h : ReflTransGen (tree.Ascends node.view) x ancestor) : tree.extends? x ancestor := by
  have hstored : tree.contains ancestor := Option.isSome_iff_exists.2 ⟨node, hget⟩
  unfold extends?
  rw [hget]
  exact (climb_iff_path hstored (Nat.le_succ _)).2 h

/-- In any tree, `extends?` holds if and only if the ancestor is stored and a path of parent links
leads to it through stored nodes of no earlier view. -/
theorem extends_iff {descendant : Digest} :
    tree.extends? descendant ancestor ↔
      ∃ node, tree.get? ancestor = some node ∧
        ReflTransGen (tree.Ascends node.view) descendant ancestor := by
  constructor
  · intro h
    unfold extends? at h
    split at h
    · next node hget => exact ⟨node, hget, path_of_climb h⟩
    · cases h
  · intro h
    obtain ⟨node, hget, hpath⟩ := h
    exact extends_of_path hget hpath

end Concord.Core.NodeTree
