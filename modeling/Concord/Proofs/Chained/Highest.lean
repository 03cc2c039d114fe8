import Concord.Core.HighCertificate
import Mathlib.Data.Finset.Lattice.Lemmas

/-!
The high certificate as a maximum. On certificates with votes of which no two are of the same view
and phase, `supersedes` is a strict order, so the result of offering them does not depend on their
order.
-/

namespace Concord

namespace Certificate

/-- `c` is of an earlier view, or of the same view and `d` alone is for a node. -/
def Below (c d : Certificate) : Prop :=
  c.view < d.view ∨ c.view = d.view ∧ c.phase = .newView ∧ d.phase = .generic

theorem Below.trans {c d e : Certificate} (h : c.Below d) (h' : d.Below e) : c.Below e := by
  cases h with
  | inl hlt =>
    cases h' with
    | inl hlt' => exact .inl (UInt64.lt_trans hlt hlt')
    | inr heq' => exact .inl (heq'.1 ▸ hlt)
  | inr heq =>
    cases h' with
    | inl hlt' => exact .inl (heq.1 ▸ hlt')
    | inr heq' => exact absurd (heq.2.2.symm.trans heq'.2.1) (by decide)

theorem Below.asymm {c d : Certificate} (h : c.Below d) : ¬ d.Below c := by
  intro h'
  cases h.trans h' with
  | inl hlt => exact UInt64.lt_irrefl _ hlt
  | inr heq => exact absurd (heq.2.1.symm.trans heq.2.2) (by decide)

end Certificate

namespace Core

open Certificate

variable {genesisId : Digest} {held c d top : Certificate} {offered : Finset Certificate}

/-- The certificates have votes, are of the phases `newView` or `generic`, and no two are of the
same view and phase. -/
structure Ranked (offered : Finset Certificate) : Prop where
  voted : ∀ c ∈ offered, c.votes ≠ []
  phase : ∀ c ∈ offered, c.phase = .newView ∨ c.phase = .generic
  single : ∀ c ∈ offered, ∀ d ∈ offered, c.view = d.view → c.phase = d.phase → c = d

theorem Ranked.mono {offered' : Finset Certificate} (h : Ranked offered') (hsub : offered ⊆ offered') :
    Ranked offered where
  voted c hc := h.voted c (hsub hc)
  phase c hc := h.phase c (hsub hc)
  single c hc d hd := h.single c (hsub hc) d (hsub hd)

theorem Ranked.trichotomy (h : Ranked offered) (hc : c ∈ offered) (hd : d ∈ offered) :
    c.Below d ∨ c = d ∨ d.Below c := by
  by_cases hlt : c.view < d.view
  · exact .inl (.inl hlt)
  by_cases hgt : d.view < c.view
  · exact .inr (.inr (.inl hgt))
  have hview : c.view = d.view := UInt64.le_antisymm (UInt64.not_lt.1 hgt) (UInt64.not_lt.1 hlt)
  cases h.phase c hc with
  | inl hstart =>
    cases h.phase d hd with
    | inl hstart' => exact .inr (.inl (h.single c hc d hd hview (hstart.trans hstart'.symm)))
    | inr hnode' => exact .inl (.inr ⟨hview, hstart, hnode'⟩)
  | inr hnode =>
    cases h.phase d hd with
    | inl hstart' => exact .inr (.inr (.inr ⟨hview.symm, hstart', hnode⟩))
    | inr hnode' => exact .inr (.inl (h.single c hc d hd hview (hnode.trans hnode'.symm)))

theorem raise_initialHigh (hc : c.votes ≠ []) : raise (initialHigh genesisId) c = c := by
  have hne : c ≠ initialHigh genesisId := fun h => hc (congrArg Certificate.votes h)
  have hview : (0 : View) < c.view ∨ c.view = 0 := by
    rcases UInt64.lt_or_eq_of_le (UInt64.zero_le (a := c.view)) with h | h
    · exact .inl h
    · exact .inr h.symm
  have hsupersedes : supersedes (initialHigh genesisId) c := by
    have hzero : (initialHigh genesisId).view = 0 := rfl
    have hunsigned : (initialHigh genesisId).votes = [] := rfl
    simpa [supersedes, hzero, hunsigned, hne] using hview
  exact if_pos hsupersedes

theorem supersedes_iff_below (hheld : held.votes ≠ []) : supersedes held c ↔ held.Below c := by
  have hsigned : held.votes.isEmpty = false := by simpa using hheld
  simp only [supersedes, hsigned, Below, Bool.or_eq_true, Bool.and_eq_true, decide_eq_true_eq,
    Bool.false_eq_true, false_or]
  apply or_congr_right
  constructor
  · intro h
    exact ⟨h.1.1.symm, h.2⟩
  · intro h
    have hne : c ≠ held := fun heq => absurd (h.2.1.symm.trans (heq ▸ h.2.2)) (by decide)
    exact ⟨⟨h.1.symm, hne⟩, h.2⟩

theorem raise_of_below (hheld : held.votes ≠ []) (h : held.Below c) : raise held c = c :=
  if_pos ((supersedes_iff_below hheld).2 h)

theorem raise_of_not_below (hheld : held.votes ≠ []) (h : ¬ held.Below c) : raise held c = held :=
  if_neg fun hsupersedes => h ((supersedes_iff_below hheld).1 hsupersedes)

/-- `top` is the greatest of the certificates offered, or the starting one if there are none. -/
inductive Highest (genesisId : Digest) (offered : Finset Certificate) (top : Certificate) : Prop
  | start : offered = ∅ → top = initialHigh genesisId → Highest genesisId offered top
  | greatest : top ∈ offered → (∀ c ∈ offered, c ≠ top → c.Below top) →
      Highest genesisId offered top

theorem Highest.unique {top' : Certificate} (h : Highest genesisId offered top)
    (h' : Highest genesisId offered top') : top = top' := by
  cases h with
  | start hempty hstart =>
    cases h' with
    | start _ hstart' => exact hstart.trans hstart'.symm
    | greatest hmem' _ => simp [hempty] at hmem'
  | greatest hmem hbelow =>
    cases h' with
    | start hempty' _ => simp [hempty'] at hmem
    | greatest hmem' hbelow' =>
      apply Decidable.byContradiction
      intro hne
      exact (hbelow top' hmem' (Ne.symm hne)).asymm (hbelow' top hmem hne)

theorem Highest.raise (h : Highest genesisId offered held) (hranked : Ranked (insert c offered)) :
    Highest genesisId (insert c offered) (raise held c) := by
  have hc : c ∈ insert c offered := Finset.mem_insert_self _ _
  cases h with
  | start hempty hstart =>
    rw [hstart, raise_initialHigh (hranked.voted c hc)]
    apply Highest.greatest hc
    intro d hd hne
    simp [hempty, hne] at hd
  | greatest hmem hbelow =>
    have hheld : held ∈ insert c offered := Finset.mem_insert_of_mem hmem
    have hsigned : held.votes ≠ [] := hranked.voted held hheld
    by_cases habove : held.Below c
    · rw [raise_of_below hsigned habove]
      apply Highest.greatest hc
      intro d hd hne
      have hd : d ∈ offered := (Finset.mem_insert.1 hd).resolve_left hne
      by_cases heq : d = held
      · exact heq ▸ habove
      · exact (hbelow d hd heq).trans habove
    · rw [raise_of_not_below hsigned habove]
      apply Highest.greatest hheld
      intro d hd hne
      cases Finset.mem_insert.1 hd with
      | inl heq =>
        subst heq
        exact ((hranked.trichotomy hd hheld).resolve_right
          (not_or.2 ⟨hne, habove⟩))
      | inr hd => exact hbelow d hd hne

theorem Highest.foldl_raise {order : List Certificate} (h : Highest genesisId offered held)
    (hranked : Ranked (offered ∪ order.toFinset)) :
    Highest genesisId (offered ∪ order.toFinset) (order.foldl Core.raise held) := by
  induction order generalizing offered held with
  | nil => simpa using h
  | cons c rest ih =>
    have hsplit : offered ∪ (c :: rest).toFinset = insert c offered ∪ rest.toFinset := by
      rw [List.toFinset_cons, Finset.union_insert, Finset.insert_union]
    rw [hsplit] at hranked ⊢
    exact ih (h.raise (hranked.mono Finset.subset_union_left)) hranked

/-- Whatever the order and the number of repetitions, the high certificate after a set of ranked
certificates is the greatest of them, or the starting one if there are none. -/
theorem highest_of_every_order (genesisId : Digest) (h : Ranked offered) :
    ∃ top, Highest genesisId offered top ∧
      ∀ order : List Certificate, order.toFinset = offered →
        order.foldl raise (initialHigh genesisId) = top := by
  have hall : ∀ order : List Certificate, order.toFinset = offered →
      Highest genesisId offered (order.foldl raise (initialHigh genesisId)) := by
    intro order horder
    have hnone : Highest genesisId ∅ (initialHigh genesisId) := .start rfl rfl
    have hranked : Ranked (∅ ∪ order.toFinset) := by rwa [horder, Finset.empty_union]
    have hend := hnone.foldl_raise hranked
    rwa [horder, Finset.empty_union] at hend
  have hsome := hall offered.toList offered.toList_toFinset
  exact ⟨_, hsome, fun order horder => (hall order horder).unique hsome⟩

def lone (phase : Phase) (view : View) : Certificate :=
  ⟨⟨phase, view, Payload.genesis, Digest.zero⟩, [⟨default, default⟩]⟩

theorem highest_of_every_order_lone :
    Ranked {lone .newView 0, lone .generic 0, lone .newView 1} ∧
      ∀ order : List Certificate,
        order.toFinset = {lone .newView 0, lone .generic 0, lone .newView 1} →
          order.foldl raise (initialHigh Digest.zero) = lone .newView 1 := by
  have hranked : Ranked {lone .newView 0, lone .generic 0, lone .newView 1} :=
    ⟨by decide, by decide, by decide⟩
  obtain ⟨top, -, horders⟩ := highest_of_every_order Digest.zero hranked
  refine ⟨hranked, fun order horder => ?_⟩
  rw [horders order horder, ← horders [lone .newView 1, lone .newView 0, lone .generic 0] (by decide)]
  decide

end Core

end Concord
