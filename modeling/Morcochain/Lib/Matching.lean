import Mathlib

/-!
# Matching in order

The members of one list are assigned to members of another one, in the same order, so that each pair is related. A scan
that gives each member of the second list to the next one of the first finds such an assignment when there is one.

* `inOrder_cons_of_rel`, `inOrder_cons_of_not_rel` : **what one step of the scan decides.**
* `InOrder.reverse` : the order may be turned around.
* `inOrder_filterMap` : the values of a partial function are matched with its arguments.
-/

set_option autoImplicit false

namespace Matching

universe u v

variable {α : Type u} {β : Type v} {r : α → β → Prop}

/-- There is a strictly increasing assignment of the places of one list to places of another one, under which the
members are related. -/
def InOrder (r : α → β → Prop) (xs : List α) (ys : List β) : Prop :=
  ∃ f : Fin xs.length → Fin ys.length, StrictMono f ∧ ∀ i, r (xs.get i) (ys.get (f i))

/-- The members are related to those of a part of the other list. -/
theorem inOrder_iff {xs : List α} {ys : List β} : InOrder r xs ys ↔ List.SublistForall₂ r xs ys := by
  rw [List.sublistForall₂_iff]
  constructor
  · rintro ⟨f, hmono, hr⟩
    refine ⟨List.ofFn fun i => ys.get (f i), ?_, ?_⟩
    · rw [List.forall₂_iff_get]
      refine ⟨(List.length_ofFn).symm, fun i hi hi' => ?_⟩
      rw [List.get_ofFn]
      exact hr ⟨i, hi⟩
    · rw [List.sublist_iff_exists_fin_orderEmbedding_get_eq]
      have hlen : (List.ofFn fun i => ys.get (f i)).length = xs.length := List.length_ofFn
      refine ⟨OrderEmbedding.ofStrictMono (fun i => f (i.cast hlen)) fun i j hij => hmono hij, fun i => ?_⟩
      rw [List.get_ofFn]
      rfl
  · rintro ⟨l, hrel, hsub⟩
    obtain ⟨f, hf⟩ := List.sublist_iff_exists_fin_orderEmbedding_get_eq.mp hsub
    have hlen := hrel.length_eq
    refine ⟨fun i => f (i.cast hlen), fun i j hij => f.strictMono hij, fun i => ?_⟩
    rw [← hf]
    exact (List.forall₂_iff_get.mp hrel).2 i i.2 (i.cast hlen).2

theorem inOrder_nil (ys : List β) : InOrder r [] ys := inOrder_iff.mpr .nil

theorem not_inOrder_cons_nil (x : α) (xs : List α) : ¬ InOrder r (x :: xs) [] := fun h => nomatch inOrder_iff.mp h

theorem InOrder.length_le {xs : List α} {ys : List β} (h : InOrder r xs ys) : xs.length ≤ ys.length := by
  obtain ⟨l, hrel, hsub⟩ := List.sublistForall₂_iff.mp (inOrder_iff.mp h)
  exact hrel.length_eq.trans_le hsub.length_le

/-- **Related members are matched**: whatever the first member is matched with, it may be matched with this one. -/
theorem inOrder_cons_of_rel {x : α} {y : β} {xs : List α} {ys : List β} (h : r x y) :
    InOrder r (x :: xs) (y :: ys) ↔ InOrder r xs ys := by
  rw [inOrder_iff, inOrder_iff]
  constructor
  · rintro (_ | ⟨-, hrest⟩ | hrest)
    · exact hrest
    · obtain ⟨l, hrel, hsub⟩ := List.sublistForall₂_iff.mp hrest
      obtain ⟨y', l', -, hrest', rfl⟩ := List.forall₂_cons_left_iff.mp hrel
      exact List.sublistForall₂_iff.mpr ⟨l', hrest', (List.sublist_cons_self y' l').trans hsub⟩
  · exact fun hrest => .cons h hrest

/-- **Members that are not related** are not matched. -/
theorem inOrder_cons_of_not_rel {x : α} {y : β} {xs : List α} {ys : List β} (h : ¬ r x y) :
    InOrder r (x :: xs) (y :: ys) ↔ InOrder r (x :: xs) ys := by
  rw [inOrder_iff, inOrder_iff]
  constructor
  · rintro (_ | ⟨hr, -⟩ | hrest)
    · exact absurd hr h
    · exact hrest
  · exact .cons_right

/-- The order of both lists may be turned around. -/
theorem InOrder.reverse {xs : List α} {ys : List β} (h : InOrder r xs ys) : InOrder r xs.reverse ys.reverse := by
  rw [inOrder_iff, List.sublistForall₂_iff] at h ⊢
  obtain ⟨l, hrel, hsub⟩ := h
  exact ⟨l.reverse, List.forall₂_reverse_iff.mpr hrel, hsub.reverse⟩

/-- A relation that holds wherever another one does, of these members. -/
theorem InOrder.imp {r' : α → β → Prop} {xs : List α} {ys : List β} (h : InOrder r xs ys)
    (himp : ∀ x ∈ xs, ∀ y ∈ ys, r x y → r' x y) : InOrder r' xs ys := by
  obtain ⟨f, hmono, hr⟩ := h
  exact ⟨f, hmono, fun i => himp _ (List.get_mem xs i) _ (List.get_mem ys (f i)) (hr i)⟩

/-- The values of a partial function are matched with its arguments, or some of them. -/
theorem inOrder_filterMap {g : β → Option α} (n : Nat) : ∀ {ys : List β}, (∀ y ∈ ys, ∀ x, g y = some x → r x y) →
    InOrder r ((ys.filterMap g).take n) ys
  | [], _ => by
    rw [List.filterMap_nil, List.take_nil]
    exact inOrder_nil []
  | y :: ys, h => by
    have ih := fun n => inOrder_filterMap n fun y' hy' => h y' (List.mem_cons_of_mem y hy')
    rw [inOrder_iff]
    cases hg : g y with
    | none =>
      rw [List.filterMap_cons_none hg]
      exact .cons_right (inOrder_iff.mp (ih n))
    | some x =>
      rw [List.filterMap_cons_some hg]
      cases n with
      | zero => exact .nil
      | succ n => exact .cons (h y List.mem_cons_self x hg) (inOrder_iff.mp (ih n))

end Matching
