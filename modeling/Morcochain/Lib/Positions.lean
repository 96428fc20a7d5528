import Mathlib

/-!
# Lists with recorded positions

A list whose elements know their places in it: an element is found in the list from its position, so that it can be
moved or taken away without a search (`Indexes`).

* `Indexes.push`, `Indexes.swap`, `Indexes.pop` : the positions are kept right when an element is put at the end, when
  two elements change places, and when the last one is taken away.
-/

set_option autoImplicit false

namespace Positions

universe u

variable {α : Type u} {l : List α} {pos pos' : α → Option Nat} {a b : α} {i j : Nat}

/-- Each element with a position stands there, and nowhere else. -/
def Indexes (l : List α) (pos : α → Option Nat) : Prop := ∀ a i, l[i]? = some a ↔ pos a = some i

theorem indexes_nil (h : ∀ a, pos a = none) : Indexes [] pos := fun a i => by
  rw [h]
  exact iff_of_false (fun heq => by cases heq) fun heq => by cases heq

theorem Indexes.congr (h : Indexes l pos) (heq : ∀ a, pos' a = pos a) : Indexes l pos' := fun a i => by
  rw [heq]
  exact h a i

/-- No element stands at two places. -/
theorem Indexes.nodup (h : Indexes l pos) : l.Nodup := by
  refine List.nodup_iff_getElem?_ne_getElem?.mpr fun i j hij hj heq => ?_
  have hplace := List.getElem?_eq_getElem hj
  have hi := (h _ _).mp (heq.trans hplace)
  rw [(h _ _).mp hplace] at hi
  exact absurd (Option.some.inj hi) (Nat.ne_of_gt hij)

theorem Indexes.mem_iff (h : Indexes l pos) : a ∈ l ↔ (pos a).isSome = true := by
  rw [List.mem_iff_getElem?, Option.isSome_iff_exists]
  exact exists_congr fun i => h a i

/-- A position is a place in the list. -/
theorem Indexes.lt (h : Indexes l pos) (hpos : pos a = some i) : i < l.length :=
  (List.getElem?_eq_some_iff.mp ((h a i).mpr hpos)).1

variable [DecidableEq α]

/-- **An element is put at the end.** -/
theorem Indexes.push (h : Indexes l pos) (hnew : pos a = none) :
    Indexes (l ++ [a]) (Function.update pos a (some l.length)) := by
  intro x k
  rw [Function.update_apply]
  by_cases hk : k < l.length
  · rw [List.getElem?_append_left hk, h]
    split
    · rename_i hx
      rw [hx, hnew]
      exact iff_of_false (fun heq => by cases heq) fun heq => absurd (Option.some.inj heq) (Nat.ne_of_gt hk)
    · rfl
  · have hlast : (l ++ [a])[k]? = if k = l.length then some a else none := by
      rw [List.getElem?_append_right (Nat.not_lt.mp hk)]
      split
      · rename_i heq
        rw [heq, Nat.sub_self]
        rfl
      · exact List.getElem?_eq_none (by rw [List.length_singleton]; omega)
    rw [hlast]
    by_cases hx : x = a
    · rw [if_pos hx, hx]
      split
      · rename_i heq
        exact iff_of_true rfl (congrArg some heq.symm)
      · rename_i hne
        exact iff_of_false (fun heq => by cases heq) fun heq => hne (Option.some.inj heq).symm
    · rw [if_neg hx]
      refine iff_of_false (fun heq => ?_) fun heq => hk (h.lt heq)
      split at heq
      · exact hx (Option.some.inj heq).symm
      · cases heq

/-- **Two elements change places.** -/
theorem Indexes.swap (h : Indexes l pos) (hi : l[i]? = some a) (hj : l[j]? = some b) (hij : i ≠ j) :
    Indexes ((l.set i b).set j a) (Function.update (Function.update pos a (some j)) b (some i)) := by
  have hilt := (List.getElem?_eq_some_iff.mp hi).1
  have hjlt := (List.getElem?_eq_some_iff.mp hj).1
  have hab : a ≠ b := fun heq => by
    have hpos := (h a i).mp hi
    rw [heq, (h b j).mp hj] at hpos
    exact hij (Option.some.inj hpos).symm
  intro x k
  rw [Function.update_apply, Function.update_apply, List.getElem?_set, List.length_set, List.getElem?_set]
  have hother : l[k]? = some x ↔ pos x = some k := h x k
  by_cases hkj : j = k
  · subst hkj
    rw [if_pos rfl, if_pos hjlt]
    by_cases hxb : x = b
    · subst hxb
      rw [if_pos rfl]
      exact iff_of_false (fun heq => hab (Option.some.inj heq)) fun heq => hij (Option.some.inj heq)
    · rw [if_neg hxb]
      by_cases hxa : x = a
      · rw [if_pos hxa, hxa]
        exact iff_of_true rfl rfl
      · rw [if_neg hxa, ← hother, hj]
        exact iff_of_false (fun heq => hxa (Option.some.inj heq).symm) fun heq => hxb (Option.some.inj heq).symm
  · rw [if_neg hkj]
    by_cases hki : i = k
    · subst hki
      rw [if_pos rfl, if_pos hilt]
      by_cases hxb : x = b
      · rw [if_pos hxb, hxb]
        exact iff_of_true rfl rfl
      · rw [if_neg hxb]
        by_cases hxa : x = a
        · rw [if_pos hxa, hxa]
          exact iff_of_false (fun heq => hab (Option.some.inj heq).symm) fun heq => hkj (Option.some.inj heq)
        · rw [if_neg hxa, ← hother, hi]
          exact iff_of_false (fun heq => hxb (Option.some.inj heq).symm) fun heq => hxa (Option.some.inj heq).symm
    · rw [if_neg hki]
      by_cases hxb : x = b
      · rw [if_pos hxb, hother, hxb, (h b j).mp hj]
        exact iff_of_false (fun heq => hkj (Option.some.inj heq)) fun heq => hki (Option.some.inj heq)
      · rw [if_neg hxb]
        by_cases hxa : x = a
        · rw [if_pos hxa, hother, hxa, (h a i).mp hi]
          exact iff_of_false (fun heq => hki (Option.some.inj heq)) fun heq => hkj (Option.some.inj heq)
        · rw [if_neg hxa]
          exact hother

/-- **The last element is taken away.** -/
theorem Indexes.pop (h : Indexes l pos) (hlast : l[l.length - 1]? = some a) :
    Indexes l.dropLast (Function.update pos a none) := by
  intro x k
  rw [Function.update_apply, List.getElem?_dropLast]
  by_cases hk : k < l.length - 1
  · rw [if_pos hk, h]
    split
    · rename_i hx
      rw [hx, (h a _).mp hlast]
      exact iff_of_false (fun heq => absurd (Option.some.inj heq) (Nat.ne_of_gt hk)) fun heq => by cases heq
    · rfl
  · rw [if_neg hk]
    refine iff_of_false (fun heq => by cases heq) fun heq => ?_
    split at heq
    · cases heq
    · rename_i hx
      have hplace := (h x k).mpr heq
      have hk' : k = l.length - 1 := by
        have := h.lt heq
        omega
      rw [hk', hlast] at hplace
      exact hx (Option.some.inj hplace).symm

end Positions
