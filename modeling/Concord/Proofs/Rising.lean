import Mathlib.Data.List.Pairwise

/-!
Lists with strictly increasing places, the last of which is no later than a given place.
-/

namespace Concord.Core

variable {α : Type} {place : α → Nat} {here here' : Nat} {xs ys : List α}

theorem length_filter_le_one {r : α → α → Prop} {p : α → Bool} (h : xs.Pairwise r)
    (hp : ∀ x ∈ xs, ∀ y ∈ xs, p x → p y → ¬ r x y) : (xs.filter p).length ≤ 1 := by
  have hfiltered := h.filter p
  have hmem : ∀ x ∈ xs.filter p, x ∈ xs ∧ p x := fun x hx => List.mem_filter.1 hx
  match hlist : xs.filter p with
  | [] | [_] => simp
  | x :: y :: rest =>
    rw [hlist] at hfiltered hmem
    obtain ⟨hx, hpx⟩ := hmem x (by simp)
    obtain ⟨hy, hpy⟩ := hmem y (by simp)
    exact absurd (List.rel_of_pairwise_cons hfiltered (by simp)) (hp x hx y hy hpx hpy)

structure Rising (place : α → Nat) (here : Nat) (xs : List α) : Prop where
  increasing : xs.Pairwise fun x y => place x < place y
  le_here : ∀ x ∈ xs, place x ≤ here

namespace Rising

theorem nil : Rising place here [] := ⟨.nil, nofun⟩

theorem mono (h : Rising place here xs) (hle : here ≤ here') : Rising place here' xs :=
  ⟨h.increasing, fun x hx => Nat.le_trans (h.le_here x hx) hle⟩

theorem append (h : Rising place here xs) (hys : ys.Pairwise fun x y => place x < place y)
    (hlater : ∀ x ∈ xs, ∀ y ∈ ys, place x < place y) (hle : ∀ y ∈ ys, place y ≤ here')
    (hhere : here ≤ here') : Rising place here' (xs ++ ys) := by
  refine ⟨List.pairwise_append.2 ⟨h.increasing, hys, hlater⟩, fun x hx => ?_⟩
  rcases List.mem_append.1 hx with hx | hx
  · exact Nat.le_trans (h.le_here x hx) hhere
  · exact hle x hx

theorem append_later (h : Rising place here xs) (hys : ys.Pairwise fun x y => place x < place y)
    (hlater : ∀ y ∈ ys, here < place y) (hle : ∀ y ∈ ys, place y ≤ here')
    (hhere : here ≤ here') : Rising place here' (xs ++ ys) :=
  h.append hys (fun x hx y hy => Nat.lt_of_le_of_lt (h.le_here x hx) (hlater y hy)) hle hhere

theorem eq_of_place (h : Rising place here xs) {x y : α} (hx : x ∈ xs) (hy : y ∈ xs)
    (heq : place x = place y) : x = y := by
  have hne : xs.Pairwise fun x y => place x ≠ place y := h.increasing.imp Nat.ne_of_lt
  have : Std.Symm fun x y => place x ≠ place y := ⟨fun _ _ => Ne.symm⟩
  exact Classical.byContradiction fun hdistinct => hne.forall hx hy hdistinct heq

theorem length_filter_le (h : Rising place here xs) {p : α → Bool}
    (hp : ∀ x ∈ xs, ∀ y ∈ xs, p x → p y → place x = place y) : (xs.filter p).length ≤ 1 :=
  length_filter_le_one h.increasing fun x hx y hy hpx hpy hlt =>
    Nat.lt_irrefl _ (hp x hx y hy hpx hpy ▸ hlt)

end Rising

end Concord.Core
