import Concord.Committee
import Mathlib.Order.Interval.Finset.Nat

/-!
The rotation of the lead. The index of the leader is the view plus one modulo the number of members,
with the sum computed modulo 2^64. Hence it is not the next index at the last view, unless the
number of members divides 2^64.
-/

namespace Concord

variable {n i : Nat} {view start : View}

/-- `view` is one of the `n` views from `start` on. -/
def View.Within (view start : View) (n : Nat) : Prop :=
  start ≤ view ∧ view.toNat < start.toNat + n

/-- Each of `n` members leads exactly one of the `n` views from `start` on. -/
def Fair (n : Nat) (start : View) : Prop :=
  ∀ i < n, ∃! view : View, view.Within start n ∧ leaderIndex view n = i

section Places

theorem leaderIndex_of_ne_last (h : view ≠ View.last) (n : Nat) :
    leaderIndex view n = (view.toNat + 1) % n := by
  have hnext : view.next? = some (view + 1) := if_neg h
  rw [leaderIndex, View.toNat_next hnext]

theorem leaderIndex_last (n : Nat) : leaderIndex View.last n = 0 := Nat.zero_mod n

theorem toNat_last_succ : View.last.toNat + 1 = UInt64.size := rfl

theorem leaderIndex_of_dvd (h : n ∣ UInt64.size) (view : View) :
    leaderIndex view n = (view.toNat + 1) % n := by
  by_cases hlast : view = View.last
  · rw [hlast, leaderIndex_last, toNat_last_succ, Nat.mod_eq_zero_of_dvd h]
  · exact leaderIndex_of_ne_last hlast n

theorem existsUnique_mod (hi : i < n) (first : Nat) :
    ∃! k, k ∈ Finset.Ico first (first + n) ∧ k % n = i := by
  have hmem : i ∈ (Finset.Ico first (first + n)).image fun k => k % n := by
    rw [Nat.image_Ico_mod]
    exact Finset.mem_range.2 hi
  obtain ⟨k, hk, hmod⟩ := Finset.mem_image.1 hmem
  refine ⟨k, ⟨hk, hmod⟩, ?_⟩
  intro k' hk'
  exact Nat.mod_injOn_Ico first n hk'.1 hk (hk'.2.trans hmod.symm)

end Places

section Windows

theorem View.within_iff : view.Within start n ↔
    view.toNat + 1 ∈ Finset.Ico (start.toNat + 1) (start.toNat + 1 + n) := by
  rw [Within, UInt64.le_iff_toNat_le, Finset.mem_Ico]
  omega

theorem fair_of_counted (hfits : start.toNat + n ≤ UInt64.size)
    (hcounted : ∀ view : View, view.Within start n →
      leaderIndex view n = (view.toNat + 1) % n) : Fair n start := by
  intro i hi
  obtain ⟨k, ⟨hk, hmod⟩, hunique⟩ := existsUnique_mod hi (start.toNat + 1)
  obtain ⟨view, rfl⟩ : ∃ view : View, view.toNat + 1 = k := by
    obtain ⟨hfirst, hlast⟩ := Finset.mem_Ico.1 hk
    refine ⟨UInt64.ofNat (k - 1), ?_⟩
    rw [UInt64.toNat_ofNat_of_lt' (by omega)]
    omega
  have hwithin := View.within_iff.2 hk
  refine ⟨view, ⟨hwithin, (hcounted view hwithin).trans hmod⟩, ?_⟩
  intro view' hled
  have hsame : view'.toNat + 1 = view.toNat + 1 :=
    hunique _ ⟨View.within_iff.1 hled.1, (hcounted view' hled.1).symm.trans hled.2⟩
  exact UInt64.toNat_inj.1 (Nat.succ.inj hsame)

theorem pos_of_end (hend : start.toNat + n = UInt64.size) : 0 < n := by
  have hstart := start.toNat_lt_size
  omega

/-- If the `n` views end with the last one and `n` does not divide the number of views, one index
does not lead. -/
theorem passed_over (hend : start.toNat + n = UInt64.size) (hdvd : ¬ n ∣ UInt64.size)
    (hwithin : view.Within start n) : leaderIndex view n ≠ UInt64.size % n := by
  intro hindex
  have hne : view ≠ View.last := by
    intro hlast
    rw [hlast, leaderIndex_last] at hindex
    exact hdvd (Nat.dvd_of_mod_eq_zero hindex.symm)
  rw [leaderIndex_of_ne_last hne] at hindex
  have hsize : UInt64.size ∈ Finset.Ico (start.toNat + 1) (start.toNat + 1 + n) := by
    have hpos := pos_of_end hend
    rw [Finset.mem_Ico]
    omega
  have hsame := Nat.mod_injOn_Ico _ n (View.within_iff.1 hwithin) hsize hindex
  exact hne (UInt64.toNat_inj.1 (Nat.succ.inj (hsame.trans toNat_last_succ.symm)))

theorem Fair.existsUnique_leader {c : Committee} (h : Fair c.size start)
    (hnodup : c.members.Nodup) {member : Member} (hmember : member ∈ c.members) :
    ∃! view : View, view.Within start c.size ∧ c.leader view = member := by
  obtain ⟨i, hi, rfl⟩ := List.mem_iff_getElem.1 hmember
  have hplace : ∀ view, c.leader view = c.members[i] ↔ leaderIndex view c.size = i := by
    intro view
    exact hnodup.getElem_inj_iff
  simpa only [hplace] using h i hi

/-- Each of `n` members leads exactly one of `n` consecutive views if and only if the last view is
not among them or `n` divides the number of views. -/
theorem rotation_fair_iff (hfits : start.toNat + n ≤ UInt64.size) :
    Fair n start ↔ start.toNat + n < UInt64.size ∨ n ∣ UInt64.size := by
  constructor
  · intro hfair
    by_cases hdvd : n ∣ UInt64.size
    · exact .inr hdvd
    · apply Or.inl
      apply Nat.lt_of_le_of_ne hfits
      intro hend
      have hplace := Nat.mod_lt UInt64.size (pos_of_end hend)
      obtain ⟨view, ⟨hwithin, hindex⟩, -⟩ := hfair _ hplace
      exact passed_over hend hdvd hwithin hindex
  · intro h
    apply fair_of_counted hfits
    intro view hwithin
    cases h with
    | inl hbefore =>
      apply leaderIndex_of_ne_last
      rintro rfl
      have hlt := hwithin.2
      have hlast := toNat_last_succ
      omega
    | inr hdvd => exact leaderIndex_of_dvd hdvd view

/-- Five members take turns in the five views up to the one before the last, but not in the five
views up to the last. -/
theorem rotation_fair_iff_five :
    ((0xfffffffffffffffa : View).toNat + 5 ≤ UInt64.size ∧ Fair 5 0xfffffffffffffffa) ∧
    ((0xfffffffffffffffb : View).toNat + 5 ≤ UInt64.size ∧ ¬ Fair 5 0xfffffffffffffffb) := by
  refine ⟨⟨by decide, ?_⟩, by decide, ?_⟩
  · exact (rotation_fair_iff (by decide)).2 (.inl (by decide))
  · intro hfair
    cases (rotation_fair_iff (by decide)).1 hfair with
    | inl hbefore => exact absurd hbefore (by decide)
    | inr hdvd => exact absurd hdvd (by decide)

end Windows

end Concord
