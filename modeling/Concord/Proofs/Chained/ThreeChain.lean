import Concord.Proofs.Chained.Cluster
import Concord.Proofs.Legible

/-!
The three nodes above a delivered node, for arbitrary inputs. Each certifies the one right below it.
Their views are not compared before a delivery. Two of them are of consecutive views if and only if
the upper one is on the bridge from the node that it certifies.
-/

namespace Concord.Core

open Crypto

/-- The last dummy strictly between `below` and `view`, or `below` itself if there is none. -/
def bridgeEnd (scheme : Scheme) (below : Body) (view : View) : Digest :=
  let first := below.view.plus 1
  ((NodeTree.dummiesFrom scheme (view.gap first) first below.id).getLast?.map Body.id).getD below.id

namespace NodeTree

variable {scheme : Scheme} {root : Body → Prop}

theorem parentId_of_backfill {tree tree' : NodeTree} {start parentId : Digest} {view : View}
    {below : Body} (hget : tree.get? start = some below)
    (h : tree.backfill scheme start view = .ok (tree', parentId)) :
    parentId = bridgeEnd scheme below view := by
  obtain ⟨-, rfl⟩ := mem_of_get? hget
  unfold backfill dummyChain at h
  rw [hget] at h
  dsimp only at h
  split at h
  · next hchain =>
    split at hchain
    · cases h
    · cases hchain
  · next hchain =>
    split at hchain
    · cases hchain
    · cases hchain
      cases h
      rfl

end NodeTree

namespace Chained

open Handler

variable {σ : Type} {ctx : Context σ} {l l' : Life Chain σ} {known : State × Chain → Prop}

theorem Reached.origin (h : Reached ctx known l) : ∀ x ∈ l.memory.tree.nodes,
    x.justify = Certificate.genesis ∨ ∃ p, known p ∧ p.1.proposal = some x := by
  induction h with
  | born app =>
    intro x hx
    obtain rfl : x = genesisNode ctx.scheme := List.mem_singleton.1 hx
    exact .inl rfl
  | step _ hstep ih =>
    intro x hx
    rcases hstep.tree.2 x hx with hx | ⟨⟨-, hjustify⟩⟩ | ⟨hproposal, -, -, hknown⟩
    · exact ih x hx
    · exact .inl hjustify
    · exact .inr ⟨_, hknown, hproposal⟩

/-- Three direct links, and `known` held when each of the upper nodes was taken over. -/
structure Links (ctx : Context σ) (known : State × Chain → Prop) (l : Life Chain σ)
    (b b0 b1 b2 : Body) : Prop where
  nodes : ∀ x ∈ [b, b0, b1], Node ctx l x
  direct0 : Direct b0 b
  direct1 : Direct b1 b0
  direct2 : Direct b2 b1
  origin0 : b0.justify = Certificate.genesis ∨ ∃ p, known p ∧ p.1.proposal = some b0
  origin1 : b1.justify = Certificate.genesis ∨ ∃ p, known p ∧ p.1.proposal = some b1
  origin2 : ∃ p, known p ∧ p.1.proposal = some b2

theorem Reached.links (h : Reached ctx known l) {view : View} {payload : Payload}
    (hdone : .deliver view payload ∈ l.done) :
    ∃ b b0 b1 b2, b.view = view ∧ b.payload = payload ∧ Links ctx known l b b0 b1 b2 := by
  refine h.forall_done (P := fun l e => ∀ view payload, e = .deliver view payload →
      ∃ b b0 b1 b2, b.view = view ∧ b.payload = payload ∧ Links ctx known l b b0 b1 b2)
    (fun hstep hold view payload he => ?_)
    (fun {l l' e} hreached hstep hasked view payload he => ?_) _ hdone _ _ rfl
  · obtain ⟨b, b0, b1, b2, hview, hpayload, hlinks⟩ := hold view payload he
    exact ⟨b, b0, b1, b2, hview, hpayload,
      { hlinks with nodes := fun x hx => hstep.node (hlinks.nodes x hx) }⟩
  · subst he
    cases hasked with
    | @adopted node _ hproposal hview htaken hadopted hknown hconsequent =>
      cases hconsequent with
      | @deliver b hfinal =>
        obtain ⟨⟨b1, b0, h1, h0, hdirect2, hdirect1, hdirect0⟩, hb⟩ := hfinal
        have hnode : ∀ {x}, x = node ∨ x ∈ l.memory.tree.nodes → Node ctx l' x := by
          rintro x (rfl | hx)
          · exact hstep.node (.root (.taken htaken))
          · exact hstep.node (hreached.planted.nodes x hx)
        have hself : ∃ p, known p ∧ p.1.proposal = some node :=
          ⟨_, hknown, hadopted.steady.proposal.trans hproposal⟩
        have horigin : ∀ {x}, x = node ∨ x ∈ l.memory.tree.nodes →
            x.justify = Certificate.genesis ∨ ∃ p, known p ∧ p.1.proposal = some x := by
          rintro x (rfl | hx)
          · exact .inr hself
          · exact hreached.origin x hx
        refine ⟨b, b0, b1, node, rfl, rfl, ?_, hdirect0, hdirect1, hdirect2, horigin h0, horigin h1,
          hself⟩
        simpa using ⟨hnode hb, hnode h0, hnode h1⟩

end Chained

end Concord.Core
