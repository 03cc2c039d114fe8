import Concord.Core.Fault

/-!
The nodes of the chained protocol, stored by identity and linked by `parentId`. A view in which
nothing was proposed is bridged by a dummy node that everyone can compute, so the branch between
two proposals has one node for each view.
-/

namespace Concord.Core

open Crypto

/-- The most views that may lie between a proposal and what it certifies. -/
def maxViewGap : Nat := 4096

/-- The node that stands for a view without a proposal. -/
def dummyNode (scheme : Scheme) (view : View) (parentId : Digest) : Body :=
  ((Body.plain view .generic Payload.genesis Certificate.genesis).withParent parentId).sealId scheme

def genesisNode (scheme : Scheme) : Body :=
  (Body.plain 0 .generic Payload.genesis Certificate.genesis).sealId scheme

structure NodeTree where
  nodes : List Body
  genesisId : Digest
  nodup_ids : (nodes.map Body.id).Nodup
deriving DecidableEq

namespace NodeTree

def initial (scheme : Scheme) : NodeTree :=
  ⟨[genesisNode scheme], (genesisNode scheme).id, by simp⟩

def get? (tree : NodeTree) (id : Digest) : Option Body := tree.nodes.find? fun n => n.id = id

def contains (tree : NodeTree) (id : Digest) : Bool := (tree.get? id).isSome

def size (tree : NodeTree) : Nat := tree.nodes.length

theorem contains_eq_false_iff {tree : NodeTree} {id : Digest} :
    tree.contains id = false ↔ id ∉ tree.nodes.map Body.id := by
  simp [contains, get?]

/-- Stores a node, unless a node of the same identity is stored. -/
def insert (tree : NodeTree) (node : Body) : NodeTree :=
  if h : tree.contains node.id = false then
    { tree with
      nodes := node :: tree.nodes
      nodup_ids := List.nodup_cons.2 ⟨contains_eq_false_iff.1 h, tree.nodup_ids⟩ }
  else tree

def insertAll (tree : NodeTree) (nodes : List Body) : NodeTree := nodes.foldl insert tree

def pruneBelow (tree : NodeTree) (view : View) : NodeTree :=
  { tree with
    nodes := tree.nodes.filter fun n => view ≤ n.view
    nodup_ids := tree.nodup_ids.sublist (List.filter_sublist.map _) }

/-- Follows at most `steps` links from `current` up to `ancestor`, through stored nodes of view
`floor` or later that have a parent. -/
def climb (tree : NodeTree) (ancestor : Digest) (floor : View) : (steps : Nat) → Digest → Bool
  | 0, _ => false
  | steps + 1, current =>
    if current = ancestor then true
    else match tree.get? current with
      | some node =>
        if floor ≤ node.view ∧ node.parentId ≠ Digest.zero then
          climb tree ancestor floor steps node.parentId
        else false
      | none => false

def extends? (tree : NodeTree) (descendant ancestor : Digest) : Bool :=
  match tree.get? ancestor with
  | some node => climb tree ancestor node.view (tree.size + 1) descendant
  | none => false

def dummiesFrom (scheme : Scheme) : (count : Nat) → (view : View) → (tip : Digest) → List Body
  | 0, _, _ => []
  | count + 1, view, tip =>
    let node := dummyNode scheme view tip
    node :: dummiesFrom scheme count (view + 1) node.id

/-- The dummies for the views strictly between the stored node `start` and `view`. There are none if
`start` is unknown. -/
def dummyChain (tree : NodeTree) (scheme : Scheme) (start : Digest) (view : View) :
    Except Fault (List Body) :=
  match tree.get? start with
  | none => .ok []
  | some node =>
    let gap := view.gap node.view
    if maxViewGap < gap then .error (.viewOutOfRange (.skipped gap node.view view))
    else
      let first := node.view.plus 1
      .ok (dummiesFrom scheme (view.gap first) first start)

/-- Stores the dummies between `start` and `view`. Returns the tree and the last dummy, or `start`
if there is none. -/
def backfill (tree : NodeTree) (scheme : Scheme) (start : Digest) (view : View) :
    Except Fault (NodeTree × Digest) :=
  match tree.dummyChain scheme start view with
  | .error fault => .error fault
  | .ok chain => .ok (tree.insertAll chain, (chain.getLast?.map Body.id).getD start)

end NodeTree

end Concord.Core
