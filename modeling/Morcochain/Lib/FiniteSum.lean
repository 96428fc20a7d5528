import Mathlib

/-!
# Sums of functions that are zero almost everywhere

How the sum of such a function changes with the function, and how the sum over a list changes with an element.

* `finsum_change` : **a change at one point** changes the sum by the difference there.
* `sum_filter_set` : an element that the filter lets through is replaced by one that it does not.
-/

set_option autoImplicit false

namespace FiniteSum

universe u v

variable {α : Type u} {β : Type v} [AddCommGroup β]

/-- **A change at one point.** -/
theorem finsum_change {f g : α → β} {a : α} (hf : (Function.support f).Finite) (hg : ∀ x, x ≠ a → g x = f x) :
    finsum g = finsum f - f a + g a := by
  classical
  have hsubf : Function.support f ⊆ ↑(insert a hf.toFinset) := fun x hx => by simpa using Or.inr hx
  have hsubg : Function.support g ⊆ ↑(insert a hf.toFinset) := by
    intro x hx
    by_cases hxa : x = a
    · simp [hxa]
    · rw [Function.mem_support, hg x hxa] at hx
      exact hsubf hx
  have hrest : ∑ x ∈ (insert a hf.toFinset).erase a, g x = ∑ x ∈ (insert a hf.toFinset).erase a, f x :=
    Finset.sum_congr rfl fun x hx => hg x (Finset.ne_of_mem_erase hx)
  rw [finsum_eq_sum_of_support_subset f hsubf, finsum_eq_sum_of_support_subset g hsubg,
    ← Finset.add_sum_erase _ f (Finset.mem_insert_self a _), ← Finset.add_sum_erase _ g (Finset.mem_insert_self a _),
    hrest]
  abel

/-- **An element that the filter drops takes the place of one that it keeps.** -/
theorem sum_filter_set {p : α → Bool} {f : α → β} {b x : α} (hb : p b = false) (hx : p x = true) :
    ∀ {l : List α} {n : Nat}, l[n]? = some x →
      (((l.set n b).filter p).map f).sum = ((l.filter p).map f).sum - f x
  | [], n, h => by simp at h
  | a :: l, 0, h => by
    rw [List.getElem?_cons_zero, Option.some.injEq] at h
    subst h
    rw [List.set_cons_zero, List.filter_cons_of_neg (by simp [hb]), List.filter_cons_of_pos hx, List.map_cons,
      List.sum_cons]
    abel
  | a :: l, n + 1, h => by
    rw [List.getElem?_cons_succ] at h
    have ih := sum_filter_set (f := f) hb hx h
    rw [List.set_cons_succ, List.filter_cons, List.filter_cons]
    split
    · rw [List.map_cons, List.map_cons, List.sum_cons, List.sum_cons, ih]
      abel
    · exact ih

end FiniteSum
