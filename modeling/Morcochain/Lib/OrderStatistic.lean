import Mathlib

/-!
# Order statistics

The `k`-th smallest value of a list is the one that stands at place `k` when the list is sorted. It can be told from
counts alone: fewer than `k` values are smaller, and at least `k` values are not greater.

* `isKthSmallest_iff` : **the sorted list, and the counts.**
* `IsKthSmallest.mono` : **raising values does not lower** an order statistic.
-/

set_option autoImplicit false

namespace OrderStatistic

variable {α : Type} [LinearOrder α]

/-- The value stands at place `k` of the sorted list, where the first place is 1. -/
def IsKthSmallest (k : Nat) (l : List α) (v : α) : Prop := (l.insertionSort (· ≤ ·))[k - 1]? = some v

variable {k : Nat} {l l' : List α} {v v' : α}

/-- The counts of a sorted list, around one of its places. -/
theorem counts_of_sorted : ∀ {l : List α} {i : Nat}, l.Pairwise (· ≤ ·) → l[i]? = some v →
    l.countP (· < v) ≤ i ∧ i < l.countP (· ≤ v)
  | [], _, _, h => nomatch h
  | a :: l, i, hl, h => by
    obtain ⟨ha, hl⟩ := List.pairwise_cons.mp hl
    cases i with
    | zero =>
      cases h
      have hnone : l.countP (· < v) = 0 := List.countP_eq_zero.mpr fun x hx => by simpa using ha x hx
      rw [List.countP_cons_of_neg (by simp), List.countP_cons_of_pos (by simp), hnone]
      omega
    | succ i =>
      have hv : l[i]? = some v := h
      obtain ⟨hlt, hle⟩ := counts_of_sorted hl hv
      have hav : a ≤ v := ha v (List.mem_of_getElem? hv)
      rw [List.countP_cons, List.countP_cons_of_pos (by simpa using hav)]
      split <;> omega

/-- Values with fewer than `k` smaller ones, and at least `k` that are not greater, are the same. -/
theorem eq_of_counts (hlt : l.countP (· < v) < k) (hle : k ≤ l.countP (· ≤ v)) (hlt' : l.countP (· < v') < k)
    (hle' : k ≤ l.countP (· ≤ v')) : v = v' := by
  rcases lt_trichotomy v v' with h | h | h
  · have hmono : l.countP (· ≤ v) ≤ l.countP (· < v') := List.countP_mono_left fun x _ hx => by
      simpa using lt_of_le_of_lt (of_decide_eq_true hx) h
    omega
  · exact h
  · have hmono : l.countP (· ≤ v') ≤ l.countP (· < v) := List.countP_mono_left fun x _ hx => by
      simpa using lt_of_le_of_lt (of_decide_eq_true hx) h
    omega

/-- **The sorted list, and the counts.** -/
theorem isKthSmallest_iff (hk : 0 < k) :
    IsKthSmallest k l v ↔ l.countP (· < v) < k ∧ k ≤ l.countP (· ≤ v) := by
  have hperm : (l.insertionSort (· ≤ ·)).Perm l := List.perm_insertionSort ..
  have hsorted : (l.insertionSort (· ≤ ·)).Pairwise (· ≤ ·) := List.pairwise_insertionSort ..
  have hcounts : ∀ {w : α}, IsKthSmallest k l w → l.countP (· < w) < k ∧ k ≤ l.countP (· ≤ w) := fun h => by
    obtain ⟨hlt, hle⟩ := counts_of_sorted hsorted h
    rw [hperm.countP_eq] at hlt hle
    omega
  refine ⟨hcounts, fun ⟨hlt, hle⟩ => ?_⟩
  have hlength : k - 1 < (l.insertionSort (· ≤ ·)).length := by
    have := List.countP_le_length (p := fun x => decide (x ≤ v)) (l := l)
    rw [hperm.length_eq]
    omega
  have hw : IsKthSmallest k l ((l.insertionSort (· ≤ ·))[k - 1]) := List.getElem?_eq_getElem hlength
  obtain ⟨hlt', hle'⟩ := hcounts hw
  rwa [← eq_of_counts hlt hle hlt' hle'] at hw

/-- The order of the values makes no difference. -/
theorem IsKthSmallest.unique_of_perm (hk : 0 < k) (hperm : l.Perm l') (h : IsKthSmallest k l v)
    (h' : IsKthSmallest k l' v') : v = v' := by
  obtain ⟨hlt, hle⟩ := (isKthSmallest_iff hk).mp h
  obtain ⟨hlt', hle'⟩ := (isKthSmallest_iff hk).mp h'
  rw [← hperm.countP_eq] at hlt' hle'
  exact eq_of_counts hlt hle hlt' hle'

/-- Raised values are counted below a bound at most as often. -/
theorem countP_le_of_forall₂ (hraised : List.Forall₂ (· ≤ ·) l l') : l'.countP (· ≤ v) ≤ l.countP (· ≤ v) := by
  induction hraised with
  | nil => exact le_rfl
  | @cons a b l l' hle _ ih =>
    rw [List.countP_cons, List.countP_cons]
    by_cases hb : b ≤ v
    · rw [if_pos (by simpa using hb), if_pos (by simpa using hle.trans hb)]
      omega
    · rw [if_neg (by simpa using hb)]
      split <;> omega

/-- **Raising values does not lower** an order statistic. -/
theorem IsKthSmallest.mono (hk : 0 < k) (hraised : List.Forall₂ (· ≤ ·) l l') (h : IsKthSmallest k l v)
    (h' : IsKthSmallest k l' v') : v ≤ v' := by
  obtain ⟨hlt, -⟩ := (isKthSmallest_iff hk).mp h
  obtain ⟨-, hle'⟩ := (isKthSmallest_iff hk).mp h'
  by_contra hgt
  have hmono : l.countP (· ≤ v') ≤ l.countP (· < v) := List.countP_mono_left fun x _ hx => by
    simpa using lt_of_le_of_lt (of_decide_eq_true hx) (not_le.mp hgt)
  have hcount : l'.countP (· ≤ v') ≤ l.countP (· ≤ v') := countP_le_of_forall₂ hraised
  omega

end OrderStatistic
