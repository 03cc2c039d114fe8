import Concord.Message.Certificate

/-!
The highest certificate that a core of the chained protocol knows, by view; at equal views a
certificate with votes replaces the one without, and one for a node replaces one for a start.
-/

namespace Concord.Core

def initialHigh (genesisId : Digest) : Certificate := Certificate.genesis.withNode genesisId

/-- Whether `offered` takes the place of `held`. -/
def supersedes (held offered : Certificate) : Bool :=
  held.view < offered.view ||
    (offered.view = held.view && offered ≠ held &&
      (held.votes.isEmpty || (held.phase = .newView && offered.phase = .generic)))

def raise (held offered : Certificate) : Certificate :=
  if supersedes held offered then offered else held

theorem view_le_of_supersedes {held offered : Certificate} (h : supersedes held offered) :
    held.view ≤ offered.view := by
  simp only [supersedes, Bool.or_eq_true, Bool.and_eq_true, decide_eq_true_eq] at h
  rcases h with h | ⟨⟨h, -⟩, -⟩
  · exact UInt64.le_of_lt h
  · exact h ▸ UInt64.le_refl _

theorem view_le_of_not_supersedes {held offered : Certificate} (h : ¬ supersedes held offered) :
    offered.view ≤ held.view := by
  simp only [supersedes, Bool.or_eq_true, decide_eq_true_eq, not_or] at h
  exact UInt64.not_lt.1 h.1

theorem raise_cases (held offered : Certificate) :
    raise held offered = held ∨ raise held offered = offered := by
  unfold raise
  split
  · exact .inr rfl
  · exact .inl rfl

theorem held_le_raise (held offered : Certificate) : held.view ≤ (raise held offered).view := by
  unfold raise
  split
  · next h => exact view_le_of_supersedes h
  · exact UInt64.le_refl _

theorem offered_le_raise (held offered : Certificate) :
    offered.view ≤ (raise held offered).view := by
  unfold raise
  split
  · exact UInt64.le_refl _
  · next h => exact view_le_of_not_supersedes h

end Concord.Core
