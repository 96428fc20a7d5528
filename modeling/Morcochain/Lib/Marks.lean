import Mathlib

/-!
# Marked elements of a list

A list of marks selects elements of a list. Marking one more element adds it to the sum of the marked ones.

* `marked_sublist` : the marked elements are elements of the list, in their order.
* `sum_marked_set` : **the sum after one more mark**.
-/

set_option autoImplicit false

namespace Marks

universe u v

variable {α : Type u} {β : Type v}

/-- The elements that are marked. -/
def marked : List Bool → List α → List α
  | true :: marks, x :: xs => x :: marked marks xs
  | false :: marks, _ :: xs => marked marks xs
  | _, _ => []

theorem marked_sublist : ∀ (marks : List Bool) (xs : List α), (marked marks xs).Sublist xs
  | [], xs => List.nil_sublist xs
  | true :: _, [] => List.nil_sublist []
  | false :: _, [] => List.nil_sublist []
  | true :: marks, x :: xs => (marked_sublist marks xs).cons_cons x
  | false :: marks, x :: xs => (marked_sublist marks xs).cons x

@[simp] theorem marked_replicate_true : ∀ xs : List α, marked (List.replicate xs.length true) xs = xs
  | [] => rfl
  | x :: xs => congrArg (x :: ·) (marked_replicate_true xs)

@[simp] theorem marked_replicate_false : ∀ xs : List α, marked (List.replicate xs.length false) xs = []
  | [] => rfl
  | _ :: xs => marked_replicate_false xs

/-- **The sum after one more mark.** -/
theorem sum_marked_set [AddCommMonoid β] (f : α → β) :
    ∀ {marks : List Bool} {xs : List α} {i : Nat} {x : α},
    marks[i]? = some false → xs[i]? = some x →
    ((marked (marks.set i true) xs).map f).sum = ((marked marks xs).map f).sum + f x
  | [], _, i, _, hmark, _ => by simp at hmark
  | _ :: _, [], i, _, _, hx => by simp at hx
  | mark :: marks, y :: xs, 0, x, hmark, hx => by
    cases hmark
    cases hx
    exact add_comm ..
  | mark :: marks, y :: xs, i + 1, x, hmark, hx => by
    have ih := @sum_marked_set _ f marks xs i x (by simpa using hmark) (by simpa using hx)
    cases mark with
    | false => exact ih
    | true =>
      rw [List.set_cons_succ, marked, marked, List.map_cons, List.map_cons, List.sum_cons, List.sum_cons, ih, add_assoc]

end Marks
