import Mathlib

/-!
# Partial shuffles

The first few places of a list get members that are drawn from the rest of it, each in exchange for the member that was
at the place. What is drawn stays where it is put.

* `getElem?_shuffled` : **what is drawn for a place is at that place afterwards.**
* `shuffled_perm` : the members stay the same.
* `FirstLeast.concat` : the first member of least weight, among one member more.
* `least_at_iff` : **when the place that a member was drawn from holds one of least weight.**
-/

set_option autoImplicit false

namespace Shuffle

universe u

variable {α : Type u}

/-! ## Draws -/

/-- Two places exchange their members. -/
def exchange (xs : List α) (i j : Nat) : List α :=
  match xs[j]?, xs[i]? with
  | some x, some y => (xs.set j y).set i x
  | _, _ => xs

theorem exchange_perm (xs : List α) (i j : Nat) : (exchange xs i j).Perm xs := by
  unfold exchange
  split
  · rename_i x y hx hy
    obtain ⟨hj, rfl⟩ := List.getElem?_eq_some_iff.mp hx
    obtain ⟨hi, rfl⟩ := List.getElem?_eq_some_iff.mp hy
    exact List.set_set_perm hj hi
  · exact List.Perm.refl xs

theorem length_exchange (xs : List α) (i j : Nat) : (exchange xs i j).length = xs.length :=
    (exchange_perm xs i j).length_eq

theorem getElem?_exchange {xs : List α} {i j : Nat} (hi : i < xs.length) (hj : j < xs.length) (k : Nat) :
    (exchange xs i j)[k]? = if k = i then xs[j]? else if k = j then xs[i]? else xs[k]? := by
  unfold exchange
  rw [List.getElem?_eq_getElem hj, List.getElem?_eq_getElem hi]
  dsimp only
  rw [List.getElem?_set, List.length_set, List.getElem?_set]
  by_cases hki : k = i
  · rw [if_pos hki.symm, if_pos hki, if_pos hi]
  · rw [if_neg (Ne.symm hki), if_neg hki]
    by_cases hkj : k = j
    · rw [if_pos hkj.symm, if_pos hkj, if_pos hj]
    · rw [if_neg (Ne.symm hkj), if_neg hkj]

variable (draw : Nat → Nat) (xs : List α)

/-- The list after some draws. -/
def shuffled : Nat → List α
  | 0 => xs
  | n + 1 => exchange (shuffled n) n (draw n)

/-- What is drawn for a place. -/
def drawn (i : Nat) : Option α := (shuffled draw xs i)[draw i]?

/-- The draws are from the rest of the list. -/
def Draws (n : Nat) : Prop := ∀ i < n, i ≤ draw i ∧ draw i < xs.length

variable {draw xs}

/-- **The members stay the same.** -/
theorem shuffled_perm : ∀ n : Nat, (shuffled draw xs n).Perm xs
  | 0 => List.Perm.refl xs
  | n + 1 => (exchange_perm _ n (draw n)).trans (shuffled_perm n)

theorem length_shuffled (n : Nat) : (shuffled draw xs n).length = xs.length := (shuffled_perm n).length_eq

theorem Draws.of_le {n n' : Nat} (h : Draws draw xs n) (hle : n' ≤ n) : Draws draw xs n' :=
    fun i hi => h i (hi.trans_le hle)

/-- **What is drawn for a place is at that place afterwards.** -/
theorem getElem?_shuffled :
    ∀ {n : Nat}, Draws draw xs n → ∀ {i : Nat}, i < n → (shuffled draw xs n)[i]? = drawn draw xs i
  | 0, _, i, hi => absurd hi (Nat.not_lt_zero i)
  | n + 1, h, i, hi => by
    obtain ⟨hle, hlt⟩ := h n (Nat.lt_succ_self n)
    have hj : draw n < (shuffled draw xs n).length := hlt.trans_eq (length_shuffled n).symm
    rw [shuffled, getElem?_exchange (hle.trans_lt hj) hj]
    rcases Nat.lt_succ_iff_lt_or_eq.mp hi with hin | rfl
    · -- a later draw leaves the place alone
      rw [if_neg (Nat.ne_of_lt hin), if_neg (Nat.ne_of_lt (hin.trans_le hle)),
        getElem?_shuffled (h.of_le (Nat.le_succ n)) hin]
    · rw [if_pos rfl]
      rfl

/-- One draw more puts what it draws behind what was drawn before. -/
theorem take_shuffled_succ {n : Nat} (h : Draws draw xs (n + 1)) :
    ∃ x, drawn draw xs n = some x ∧ (shuffled draw xs (n + 1)).take (n + 1) = (shuffled draw xs n).take n ++ [x] := by
  obtain ⟨hle, hlt⟩ := h n (Nat.lt_succ_self n)
  have hj : draw n < (shuffled draw xs n).length := hlt.trans_eq (length_shuffled n).symm
  have hdrawn : drawn draw xs n = some ((shuffled draw xs n)[draw n]) := List.getElem?_eq_getElem hj
  have hlen : ((shuffled draw xs n).take n).length = n := List.length_take_of_le (hle.trans hj.le)
  refine ⟨_, hdrawn, List.ext_getElem? fun i => ?_⟩
  rw [List.getElem?_take]
  rcases Nat.lt_trichotomy i n with hi | rfl | hi
  · rw [if_pos (hi.trans (Nat.lt_succ_self n)), getElem?_shuffled h (hi.trans (Nat.lt_succ_self n)),
      List.getElem?_append_left (hi.trans_eq hlen.symm), List.getElem?_take, if_pos hi,
      getElem?_shuffled (h.of_le (Nat.le_succ n)) hi]
  · rw [if_pos (Nat.lt_succ_self i), getElem?_shuffled h (Nat.lt_succ_self i), hdrawn,
      List.getElem?_append_right hlen.le, hlen, Nat.sub_self]
    rfl
  · rw [if_neg (Nat.not_lt.mpr hi), eq_comm, List.getElem?_eq_none]
    rw [List.length_append, hlen]
    exact hi

/-- **The first places hold what was drawn.** -/
theorem take_shuffled : ∀ {n : Nat}, Draws draw xs n →
    (shuffled draw xs n).take n = (List.range n).filterMap (drawn draw xs)
  | 0, _ => rfl
  | n + 1, h => by
    obtain ⟨x, hx, htake⟩ := take_shuffled_succ h
    rw [htake, take_shuffled (h.of_le (Nat.le_succ n)), List.range_succ, List.filterMap_append,
      List.filterMap_cons_some hx]
    rfl

/-! ## Replacing -/

/-- A member that is replaced is the only one that is gone, when all are different and the new one is none of them. -/
theorem notMem_set_iff {j : Nat} {a y z : α} (hnodup : xs.Nodup) (hat : xs[j]? = some y) (ha : a ∉ xs) (hz : z ∈ xs) :
    z ∉ xs.set j a ↔ z = y := by
  obtain ⟨hj, rfl⟩ := List.getElem?_eq_some_iff.mp hat
  obtain ⟨i, hi, rfl⟩ := List.mem_iff_getElem.mp hz
  rw [hnodup.getElem_inj_iff]
  constructor
  · intro hgone
    by_contra hij
    refine hgone (List.mem_iff_getElem.mpr ⟨i, by rw [List.length_set]; exact hi, ?_⟩)
    rw [List.getElem_set_of_ne (Ne.symm hij)]
  · rintro rfl hmem
    obtain ⟨k, hk, hget⟩ := List.mem_iff_getElem.mp hmem
    rw [List.getElem_set] at hget
    split at hget
    · exact ha (hget ▸ hz)
    · rename_i hne
      exact hne (hnodup.getElem_inj_iff.mp hget).symm

/-! ## The first of least weight -/

variable {w : α → Int} {l : List α} {k : Nat} {x y : α}

/-- The first member of least weight, and its place. -/
structure FirstLeast (w : α → Int) (l : List α) (k : Nat) (x : α) : Prop where
  at_place : l[k]? = some x
  least : ∀ y ∈ l, w x ≤ w y
  first : ∀ j < k, ∀ y, l[j]? = some y → w x < w y

theorem firstLeast_singleton (w : α → Int) (x : α) : FirstLeast w [x] 0 x where
  at_place := rfl
  least y hy := by rw [List.mem_singleton.mp hy]
  first j hj := absurd hj (Nat.not_lt_zero j)

/-- **One member more**: it is the first of least weight when it weighs less than the one before. -/
theorem FirstLeast.concat (h : FirstLeast w l k x) (y : α) :
    if w y < w x then FirstLeast w (l ++ [y]) l.length y else FirstLeast w (l ++ [y]) k x := by
  split
  · rename_i hlt
    refine ⟨List.getElem?_concat_length, fun z hz => ?_, fun j hj z hz => ?_⟩
    · rcases List.mem_append.mp hz with hz | hz
      · exact hlt.le.trans (h.least z hz)
      · rw [List.mem_singleton.mp hz]
    · rw [List.getElem?_append_left hj] at hz
      exact hlt.trans_le (h.least z (List.mem_of_getElem? hz))
  · rename_i hle
    have hk : k < l.length := (List.getElem?_eq_some_iff.mp h.at_place).1
    refine ⟨by rw [List.getElem?_append_left hk, h.at_place], fun z hz => ?_, fun j hj z hz => ?_⟩
    · rcases List.mem_append.mp hz with hz | hz
      · exact h.least z hz
      · rw [List.mem_singleton.mp hz]
        exact Int.not_lt.mp hle
    · rw [List.getElem?_append_left (hj.trans hk)] at hz
      exact h.first j hj z hz

/-- There is only one first member of least weight. -/
theorem FirstLeast.unique {k' : Nat} {x' : α} (h : FirstLeast w l k x) (h' : FirstLeast w l k' x') :
    k = k' ∧ x = x' := by
  have hplace : k = k' := by
    rcases Nat.lt_trichotomy k k' with hlt | heq | hlt
    · exact absurd (h'.first k hlt x h.at_place) (Int.not_lt.mpr (h.least x' (List.mem_of_getElem? h'.at_place)))
    · exact heq
    · exact absurd (h.first k' hlt x' h'.at_place) (Int.not_lt.mpr (h'.least x (List.mem_of_getElem? h.at_place)))
  have hx := h.at_place
  rw [hplace, h'.at_place] at hx
  exact ⟨hplace, (Option.some.inj hx).symm⟩

/-- **A place holds one of least weight**, of a list whose members are all different, exactly when it is one of the
first places and its member weighs as much as the first of least weight there. -/
theorem least_at_iff {n j : Nat} (hnodup : xs.Nodup) (h : FirstLeast w (xs.take n) k x) :
    (∃ y, xs[j]? = some y ∧ y ∈ xs.take n ∧ ∀ z ∈ xs.take n, w y ≤ w z) ↔ ∃ y, (xs.take n)[j]? = some y ∧
      w y = w x := by
  constructor
  · rintro ⟨y, hy, hmem, hleast⟩
    obtain ⟨i, hi, heq⟩ := List.mem_iff_getElem.mp hmem
    have hat : (xs.take n)[i]? = some y := by rw [List.getElem?_eq_getElem hi, heq]
    obtain ⟨hin, hiy⟩ : i < n ∧ xs[i]? = some y := by
      rw [List.getElem?_take] at hat
      split at hat
      · rename_i hin
        exact ⟨hin, hat⟩
      · cases hat
    have hplace : i = j := by
      obtain ⟨hilt, hi'⟩ := List.getElem?_eq_some_iff.mp hiy
      obtain ⟨hjlt, hj'⟩ := List.getElem?_eq_some_iff.mp hy
      exact (hnodup.getElem_inj_iff).mp (hi'.trans hj'.symm)
    rw [← hplace]
    exact ⟨y, hat, Int.le_antisymm (hleast x (List.mem_of_getElem? h.at_place)) (h.least y hmem)⟩
  · rintro ⟨y, hy, hw⟩
    have hmem := List.mem_of_getElem? hy
    refine ⟨y, ?_, hmem, fun z hz => hw.trans_le (h.least z hz)⟩
    rw [List.getElem?_take] at hy
    split at hy
    · exact hy
    · cases hy

end Shuffle
