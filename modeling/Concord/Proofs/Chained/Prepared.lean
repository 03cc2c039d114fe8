import Concord.Proofs.Chained.Order
import Concord.Proofs.Legible

/-!
The high certificate of the chained protocol and its copy in the shared state. The copy is unset
until the high certificate first changes, and is updated with every change.
-/

namespace Concord.Core.Chained

variable {σ : Type} {ctx : Context σ} {l l' : Life Chain σ} {node : Body} {genesisId : Digest}

/-- The high certificate is the prepared one if there is one, and the starting certificate
otherwise. -/
def Shows (genesisId : Digest) (l : Life Chain σ) : Prop :=
  l.memory.high = l.state.prepared.getD (initialHigh genesisId)

theorem Move.shows (h : Move ctx l l') (hl : Shows genesisId l) : Shows genesisId l' := by
  cases h with
  | gather hgather =>
    cases hgather
    rfl
  | certify hcertify =>
    cases hcertify
    rfl
  | _ => exact hl

theorem shows_raisedBy (node : Body) (hl : Shows genesisId l) :
    Shows genesisId (raisedBy node l) := by
  unfold raisedBy
  split
  · rfl
  · exact hl

theorem shows_lockedBy (node : Body) (hl : Shows genesisId l) :
    Shows genesisId (lockedBy node l) := by
  simpa [Shows, lockedBy] using hl

theorem Walk.shows (h : Walk ctx node l l') (hl : Shows genesisId l) : Shows genesisId l' := by
  have hraised := shows_raisedBy node hl
  cases h with
  | loose => exact hl
  | one => exact hraised
  | two | stale => exact shows_lockedBy _ hraised
  | final => exact shows_lockedBy _ hraised

theorem Adopt.shows (h : Adopt ctx node l l') (hl : Shows genesisId l) : Shows genesisId l' := by
  cases h with
  | last | unsigned => exact hl
  | leading _ _ hwalk => exact hwalk.shows hl
  | voting _ _ _ hwalk => exact hwalk.shows hl

theorem Accept.shows (h : Accept ctx l l') (hl : Shows genesisId l) : Shows genesisId l' := by
  cases h with
  | mk _ _ _ _ _ hadopt =>
    apply hadopt.shows
    simpa [Shows] using hl

theorem Propose.shows (h : Propose ctx l l') (hl : Shows genesisId l) : Shows genesisId l' := by
  cases h with
  | mk _ _ _ _ _ _ hadopt => exact hadopt.shows hl

/-- A core either has no prepared certificate and the starting certificate as its high one, or its
prepared certificate is its high certificate. -/
theorem prepared_eq_high {l : Life (Memory .chained) σ} (h : Lived ctx l) :
    l.state.prepared = none ∧ Chain.high l.memory = initialHigh (genesisNode ctx.scheme).id ∨
      l.state.prepared = some (Chain.high l.memory) := by
  have hshows : Shows (genesisNode ctx.scheme).id l :=
    kept_of_lived h (fun _ => rfl) Move.shows Accept.shows Propose.shows
  unfold Shows at hshows
  cases hprepared : l.state.prepared with
  | none =>
    rw [hprepared] at hshows
    exact .inl ⟨rfl, hshows⟩
  | some qc =>
    rw [hprepared] at hshows
    exact .inr (congrArg some hshows.symm)

section Samples

open Legible

theorem shownRuns_spec :
    (laggingRun 2).state.prepared = none ∧ (polledRun 1).state.prepared ≠ none := by
  decide +kernel

/-- A member with the starting certificate, and a leader with a prepared one. -/
theorem prepared_eq_high_of_runs :
    (Lived (four.context 2) (laggingRun 2) ∧
      Chain.high (laggingRun 2).memory = initialHigh (genesisNode four.scheme).id) ∧
    Lived (four.context 1) (polledRun 1) ∧
      (polledRun 1).state.prepared = some (Chain.high (polledRun 1).memory) := by
  obtain ⟨hunset, hset⟩ := shownRuns_spec
  have hlagging : Lived (four.context 2) (laggingRun 2) := (Cast.reachable_play ..).lived 2
  have hleading : Lived (four.context 1) (polledRun 1) := (Cast.reachable_play ..).lived 1
  refine ⟨⟨hlagging, ?_⟩, hleading, ?_⟩
  · cases prepared_eq_high hlagging with
    | inl hstart => exact hstart.2
    | inr hshown =>
      rw [hunset] at hshown
      cases hshown
  · cases prepared_eq_high hleading with
    | inl hstart => exact absurd hstart.1 hset
    | inr hshown => exact hshown

end Samples

end Concord.Core.Chained
