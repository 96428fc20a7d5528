import Mathlib

/-!
# Dealing

The members of a list are dealt out to a number of hands, one after the other, from the first hand again after the last
one.

* `flatten_deal` : **every member is dealt once.**
* `length_deal_get` : **the size of a hand.**
* `deal_ne_nil`, `length_le_of_mem_deal` : no hand is empty when there are members enough, and none is larger than it
  must be.
-/

set_option autoImplicit false

namespace Dealing

universe u

variable {α : Type u}

/-- One member goes to the next hand. -/
def dealStep (nHands : Nat) (st : List (List α) × Nat) (x : α) : List (List α) × Nat :=
  (st.1.modify st.2 (· ++ [x]), (st.2 + 1) % nHands)

/-- The hands, and the next of them. -/
def dealing (nHands : Nat) (xs : List α) : List (List α) × Nat :=
  xs.foldl (dealStep nHands) (List.replicate nHands [], 0)

/-- The hands. -/
def deal (nHands : Nat) (xs : List α) : List (List α) := (dealing nHands xs).1

theorem dealing_append (nHands : Nat) (xs : List α) (x : α) :
    dealing nHands (xs ++ [x]) = dealStep nHands (dealing nHands xs) x := by
  unfold dealing
  rw [List.foldl_append]
  rfl

theorem length_deal (nHands : Nat) (xs : List α) : (deal nHands xs).length = nHands := by
  unfold deal
  induction xs using List.reverseRecOn with
  | nil => exact List.length_replicate
  | append_singleton xs x ih => rw [dealing_append, dealStep, List.length_modify, ih]

/-- The next hand. -/
theorem dealing_next (nHands : Nat) (xs : List α) : (dealing nHands xs).2 = xs.length % nHands := by
  induction xs using List.reverseRecOn with
  | nil => exact (Nat.zero_mod nHands).symm
  | append_singleton xs x ih =>
    rw [dealing_append, dealStep, ih, Nat.mod_add_mod, List.length_append, List.length_singleton]

/-! ## What the hands hold -/

theorem flatten_modify (x : α) : ∀ {l : List (List α)} {i : Nat}, i < l.length →
    (l.modify i (· ++ [x])).flatten.Perm (l.flatten ++ [x])
  | [], _, h => absurd h (Nat.not_lt_zero _)
  | hand :: l, 0, _ => by
    rw [List.modify_zero_cons, List.flatten_cons, List.flatten_cons, List.append_assoc, List.append_assoc]
    exact List.perm_append_comm.append_left hand
  | hand :: l, i + 1, h => by
    rw [List.modify_succ_cons, List.flatten_cons, List.flatten_cons, List.append_assoc]
    exact (flatten_modify x (Nat.lt_of_succ_lt_succ h)).append_left hand

/-- **Every member is dealt once.** -/
theorem flatten_deal {nHands : Nat} (h : 0 < nHands) (xs : List α) : (deal nHands xs).flatten.Perm xs := by
  induction xs using List.reverseRecOn with
  | nil =>
    have hnil : (deal nHands ([] : List α)).flatten = [] := List.flatten_replicate_nil
    rw [hnil]
  | append_singleton xs x ih =>
    unfold deal at ih ⊢
    rw [dealing_append, dealStep]
    have hnext : (dealing nHands xs).2 < (dealing nHands xs).1.length := by
      rw [dealing_next]
      exact (Nat.mod_lt _ h).trans_eq (length_deal nHands xs).symm
    exact (flatten_modify x hnext).trans (ih.append_right [x])

/-! ## The sizes of the hands -/

/-- The hand that one member more goes to. -/
theorem dvd_iff_next {nHands m i : Nat} (h : i < nHands) : nHands ∣ m + (nHands - 1 - i) + 1 ↔ m % nHands = i := by
  have hm := Nat.div_add_mod m nHands
  have hlt := Nat.mod_lt m (Nat.zero_lt_of_lt h)
  have hsplit : m + (nHands - 1 - i) + 1 = nHands * (m / nHands) + (m % nHands + nHands - i) := by omega
  rw [hsplit, Nat.dvd_add_right (Nat.dvd_mul_right nHands _)]
  constructor
  · intro hdvd
    have := Nat.eq_of_dvd_of_lt_two_mul (by omega) hdvd (by omega)
    omega
  · intro heq
    rw [heq, Nat.add_sub_cancel_left]

/-- **The size of a hand.** -/
theorem length_deal_get {nHands : Nat} (xs : List α) {i : Nat} (h : i < (deal nHands xs).length) :
    ((deal nHands xs)[i]).length = (xs.length + (nHands - 1 - i)) / nHands := by
  have hi : i < nHands := h.trans_eq (length_deal nHands xs)
  induction xs using List.reverseRecOn with
  | nil =>
    have hzero : (nHands - 1 - i) / nHands = 0 := Nat.div_eq_of_lt (by omega)
    rw [List.length_nil, Nat.zero_add, hzero]
    simp [deal, dealing]
  | append_singleton xs x ih =>
    have hi' : i < (deal nHands xs).length := hi.trans_eq (length_deal nHands xs).symm
    have hstep : deal nHands (xs ++ [x]) = (deal nHands xs).modify (xs.length % nHands) (· ++ [x]) := by
      unfold deal
      rw [dealing_append, dealStep, dealing_next]
    have hlen : (xs ++ [x]).length + (nHands - 1 - i) = xs.length + (nHands - 1 - i) + 1 := by
      rw [List.length_append, List.length_singleton]
      omega
    simp only [hstep]
    rw [List.getElem_modify, hlen, Nat.succ_div]
    by_cases hnext : xs.length % nHands = i
    · rw [if_pos hnext, if_pos ((dvd_iff_next hi).mpr hnext), List.length_append, ih hi', List.length_singleton]
    · rw [if_neg hnext, if_neg fun hdvd => hnext ((dvd_iff_next hi).mp hdvd), ih hi']
      rfl

/-- No hand is empty when there are as many members as hands. -/
theorem deal_ne_nil {nHands : Nat} {xs : List α} (h : nHands ≤ xs.length) : ∀ hand ∈ deal nHands xs, hand ≠ [] := by
  intro hand hmem
  obtain ⟨i, hi, rfl⟩ := List.mem_iff_getElem.mp hmem
  have hlt : i < nHands := hi.trans_eq (length_deal nHands xs)
  refine List.ne_nil_of_length_pos ?_
  rw [length_deal_get xs hi]
  exact Nat.div_pos (by omega) (by omega)

/-- No hand is larger than it must be. -/
theorem length_le_of_mem_deal {nHands nMax : Nat} {xs : List α} (h : xs.length ≤ nHands * nMax) :
    ∀ hand ∈ deal nHands xs, hand.length ≤ nMax := by
  intro hand hmem
  obtain ⟨i, hi, rfl⟩ := List.mem_iff_getElem.mp hmem
  have hlt : i < nHands := hi.trans_eq (length_deal nHands xs)
  rw [length_deal_get xs hi, ← Nat.lt_succ_iff, Nat.div_lt_iff_lt_mul (by omega), Nat.mul_comm, Nat.mul_succ]
  omega

end Dealing
