import Concord.Proofs.Chained.History
import Concord.Proofs.Legible

/-!
Nodes and their identities. The root, dummies and own proposals are sealed, and the identity of a
node that was heard is checked. Since the encoding of a node is exact, an identity determines the
node if the digests are free of collisions.
-/

namespace Concord

open Crypto

theorem Body.computeId_sealId (scheme : Scheme) (b : Body) :
    (b.sealId scheme).computeId scheme = (b.sealId scheme).id := rfl

namespace Core

theorem Lived.fits_of_heard {v : Variant} {σ : Type} {ctx : Context σ} {l : Life (Memory v) σ}
    (h : Lived ctx l) : ∀ x ∈ l.heard, x.body.Fits := by
  induction h with
  | born app => simp [Life.initial]
  | retouch app _ ih => exact ih
  | @take l input _ _ ih =>
    intro x hx
    rcases List.mem_append.1 hx with hx | hx
    · exact ih x hx
    · cases input with
      | begin | timeout | due | shutdown => cases hx
      | feed envelope =>
        cases hreceive : ctx.receive envelope with
        | error fault => simp [Context.heard, hreceive] at hx
        | ok m =>
          obtain rfl : x = ⟨envelope.kind, m⟩ := by simpa [Context.heard, hreceive] using hx
          exact Envelope.fits_of_open? (Context.open?_of_receive hreceive)

/-- Every node is stored under its own identity, which is the digest of its content. -/
structure Addressed (scheme : Scheme) (tree : NodeTree) : Prop where
  found : ∀ x ∈ tree.nodes, tree.get? x.id = some x
  sealed : ∀ {id x}, tree.get? id = some x → x.id = id ∧ x.computeId scheme = id

/-- Nodes of the two trees with the same digest have the same content. -/
def Apart (scheme : Scheme) (tree tree' : NodeTree) : Prop :=
  ∀ x ∈ tree.nodes, ∀ y ∈ tree'.nodes, scheme.hash x.content = scheme.hash y.content →
    x.content = y.content

instance (scheme : Scheme) (tree tree' : NodeTree) : Decidable (Apart scheme tree tree') :=
  inferInstanceAs (Decidable (∀ _ ∈ _, ∀ _ ∈ _, _))

/-- The proposals of the core can be encoded. -/
def Writable {γ σ : Type} (l : Life γ σ) : Prop := ∀ b ∈ l.proposals, b.Fits

instance {γ σ : Type} (l : Life γ σ) : Decidable (Writable l) :=
  inferInstanceAs (Decidable (∀ _ ∈ _, _))

namespace Chained

variable {σ τ : Type} {ctx : Context σ} {l : Life Chain σ} {known : State × Chain → Prop}

theorem Reached.sealed_broadcast (h : Reached ctx known l) {x : Letter}
    (hx : .broadcast x ∈ l.done) : x.body.computeId ctx.scheme = x.body.id := by
  refine h.forall_asked .broadcast (P := fun _ x => x.body.computeId ctx.scheme = x.body.id)
    (fun _ hold => hold) (fun _ _ hasked => ?_) x hx
  cases hasked with
  | propose _ _ hwrote =>
    rw [hwrote.body_eq]
    exact Body.computeId_sealId _ _
  | adopted _ _ _ _ _ hconsequent => cases hconsequent

theorem Reached.sealed_node (h : Reached ctx known l) {b : Body} (hb : Node ctx l b) :
    b.computeId ctx.scheme = b.id := by
  cases hb with
  | dummy => exact Body.computeId_sealId _ _
  | root hroot =>
    cases hroot with
    | genesis => exact Body.computeId_sealId _ _
    | taken htaken =>
      cases htaken with
      | own hx => exact h.sealed_broadcast hx
      | heard _ _ hid => exact hid

theorem fits_of_genesis {b : Body} (hpayload : b.payload = Payload.genesis)
    (hjustify : b.justify = Certificate.genesis) : b.Fits := by
  refine ⟨?_, ?_⟩
  · rw [hpayload]
    decide
  · rw [hjustify]
    decide

theorem fits_of_node (hheard : ∀ x ∈ l.heard, x.body.Fits) (hwritable : Writable l) {b : Body}
    (hb : Node ctx l b) : b.Fits := by
  cases hb with
  | dummy => exact fits_of_genesis rfl rfl
  | root hroot =>
    cases hroot with
    | genesis => exact fits_of_genesis rfl rfl
    | taken htaken =>
      cases htaken with
      | own hx hkind => exact hwritable _ (Life.mem_proposals.2 ⟨_, hx, .inr hkind, rfl⟩)
      | heard hm => exact hheard _ hm

theorem addressed_of_lived {l : Life (Memory .chained) σ} (h : Lived ctx l) :
    Addressed ctx.scheme l.memory.tree := by
  have hreached := reached_anyhow h
  refine ⟨fun x => NodeTree.get?_of_mem, fun {id x} hget => ?_⟩
  obtain ⟨hmem, rfl⟩ := NodeTree.mem_of_get? hget
  exact ⟨rfl, hreached.sealed_node (hreached.planted.nodes x hmem)⟩

theorem eq_of_apart {ctx' : Context τ} {l : Life (Memory .chained) σ}
    {l' : Life (Memory .chained) τ} (hscheme : ctx'.scheme = ctx.scheme) (h : Lived ctx l)
    (h' : Lived ctx' l') (hwritable : Writable l) (hwritable' : Writable l')
    (hapart : Apart ctx.scheme l.memory.tree l'.memory.tree) {id : Digest} {x y : Body}
    (hx : l.memory.tree.get? id = some x) (hy : l'.memory.tree.get? id = some y) : x = y := by
  obtain ⟨hxmem, hxid⟩ := NodeTree.mem_of_get? hx
  obtain ⟨hymem, hyid⟩ := NodeTree.mem_of_get? hy
  have hxfits : x.Fits :=
    fits_of_node h.fits_of_heard hwritable ((reached_anyhow h).planted.nodes x hxmem)
  have hyfits : y.Fits :=
    fits_of_node h'.fits_of_heard hwritable' ((reached_anyhow h').planted.nodes y hymem)
  have hxsealed := ((addressed_of_lived h).sealed hx).2
  have hysealed := ((addressed_of_lived h').sealed hy).2
  rw [hscheme] at hysealed
  exact Body.eq_of_content hxfits hyfits (hxid.trans hyid.symm)
    (hapart x hxmem y hymem (hxsealed.trans hysealed.symm))

/-- Every node is stored under the digest of its content. If the proposals can be encoded and the
digests are free of collisions, an identity is that of one node only, in the tree of a core at two
times and in the trees of two cores. -/
theorem one_node_per_identity {ctx' : Context τ} {l : Life (Memory .chained) σ}
    {l' : Life (Memory .chained) τ} (hscheme : ctx'.scheme = ctx.scheme) (h : Lived ctx l)
    (h' : Lived ctx' l') :
    Addressed ctx.scheme l.memory.tree ∧
    (∀ later, l.Becomes ctx later → Writable later →
      Apart ctx.scheme l.memory.tree later.memory.tree →
      ∀ id x y, l.memory.tree.get? id = some x → later.memory.tree.get? id = some y → x = y) ∧
    (Writable l → Writable l' → Apart ctx.scheme l.memory.tree l'.memory.tree →
      ∀ id x y, l.memory.tree.get? id = some x → l'.memory.tree.get? id = some y → x = y) := by
  refine ⟨addressed_of_lived h, fun later hlater hwritable hapart id x y hx hy => ?_,
    fun hwritable hwritable' hapart id x y hx hy => ?_⟩
  · have hearlier : Writable l := fun b hb =>
      hwritable b (List.filterMap_subset _ hlater.done_subset hb)
    exact eq_of_apart rfl h (hlater.lived h) hearlier hwritable hapart hx hy
  · exact eq_of_apart hscheme h h' hwritable hwritable' hapart hx hy

section Samples

open Legible

/-- Member 0 after its delivery of view 3, with the nodes of the earlier views pruned. -/
def prunedLife : Life (Memory .chained) Unit := (gappedRun 0).take (four.context 0) gapInput

theorem prunedLife_spec : Writable prunedLife ∧ Writable (gappedRun 0) ∧ Writable (gappedRun 1) ∧
    Apart scheme (Chain.tree (gappedRun 0).memory) (Chain.tree prunedLife.memory) ∧
    Apart scheme (Chain.tree (gappedRun 0).memory) (Chain.tree (gappedRun 1).memory) ∧
    (Chain.tree prunedLife.memory).contains (Chain.leaf (gappedRun 0).memory) ∧
    (Chain.tree (gappedRun 1).memory).contains (Chain.leaf (gappedRun 0).memory) := by
  decide +kernel

/-- The trees of member 0 before and after pruning, and of another member. -/
theorem one_node_per_identity_of_pruned :
    (gappedRun 0).Becomes (four.context 0) prunedLife ∧
    (Chain.tree prunedLife.memory).contains (Chain.leaf (gappedRun 0).memory) ∧
    (Chain.tree (gappedRun 1).memory).contains (Chain.leaf (gappedRun 0).memory) ∧
    Addressed scheme (Chain.tree (gappedRun 0).memory) ∧
    (∀ id x y, (Chain.tree (gappedRun 0).memory).get? id = some x →
      (Chain.tree prunedLife.memory).get? id = some y → x = y) ∧
    (∀ id x y, (Chain.tree (gappedRun 0).memory).get? id = some x →
      (Chain.tree (gappedRun 1).memory).get? id = some y → x = y) := by
  obtain ⟨hpruned, hown, hother, hapart, hapart', hkept, hshared⟩ := prunedLife_spec
  have hbecomes : (gappedRun 0).Becomes (four.context 0) prunedLife := .take _ .same trivial
  have hlived : ∀ i, Lived (four.context i) (gappedRun i) := (Cast.reachable_play ..).lived
  have hscheme : (four.context 1).scheme = (four.context 0).scheme := rfl
  obtain ⟨haddressed, hlater, hacross⟩ := one_node_per_identity hscheme (hlived 0) (hlived 1)
  exact ⟨hbecomes, hkept, hshared, haddressed, hlater _ hbecomes hpruned hapart,
    hacross hown hother hapart'⟩

end Samples

end Chained

end Core

end Concord
