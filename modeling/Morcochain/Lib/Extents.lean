import Mathlib

/-!
# Texts in files

A file holds symbols at positions. Texts are placed in files, each file with a bound up to which it is in use.

* `holds_writeAt`, `Holds.writeAt` : a text that is written is held, and one that is clear of it is still held.
* `Stored.append` : **a text written from the bound on** overwrites none of those stored.
* `Stored.adopt` : **a text that a file holds beyond the bound** may be placed where it is.
-/

set_option autoImplicit false

namespace Extents

universe u v w

variable {β : Type u} {φ : Type v} {κ : Type w}

/-- The symbols of a file, none where nothing was written. -/
abbrev Content (β : Type u) := Nat → Option β

/-- Write a text at a position. -/
def writeAt (c : Content β) (n : Nat) (l : List β) : Content β :=
  fun i => if n ≤ i ∧ i < n + l.length then l[i - n]? else c i

/-- Cut a file off at a length. -/
def truncate (c : Content β) (size : Nat) : Content β := fun i => if i < size then c i else none

/-- Give a file a length, with a symbol where it has none. -/
def extend (z : β) (c : Content β) (size : Nat) : Content β := fun i => (c i).or (if i < size then some z else none)

/-- The file holds the text at the position. -/
def Holds (c : Content β) (n : Nat) (l : List β) : Prop := ∀ i, i < l.length → c (n + i) = l[i]?

instance decidableHolds [DecidableEq β] (c : Content β) (n : Nat) (l : List β) : Decidable (Holds c n l) :=
  inferInstanceAs (Decidable (∀ i, i < l.length → c (n + i) = l[i]?))

/-- The ranges have no position in common. -/
def Clear (n size n' size' : Nat) : Prop := n + size ≤ n' ∨ n' + size' ≤ n

theorem Clear.symm {n size n' size' : Nat} (h : Clear n size n' size') : Clear n' size' n size := h.elim .inr .inl

section Content

variable {c : Content β} {n m : Nat} {l l' : List β}

theorem holds_writeAt (c : Content β) (n : Nat) (l : List β) : Holds (writeAt c n l) n l := by
  intro i hi
  rw [writeAt, if_pos ⟨Nat.le_add_right n i, Nat.add_lt_add_left hi n⟩, Nat.add_sub_cancel_left]

/-- A part of a text that is held is held. -/
theorem Holds.drop (h : Holds c n (l ++ l')) : Holds c (n + l.length) l' := by
  intro i hi
  have hsum : l.length + i < (l ++ l').length := by
    rw [List.length_append]
    omega
  rw [Nat.add_assoc, h (l.length + i) hsum, List.getElem?_append_right (Nat.le_add_right _ _), Nat.add_sub_cancel_left]

theorem Holds.writeAt (h : Holds c n l) (hclear : Clear n l.length m l'.length) : Holds (writeAt c m l') n l := by
  intro i hi
  rw [Extents.writeAt, if_neg, h i hi]
  rcases hclear with hclear | hclear <;> omega

theorem Holds.truncate {size : Nat} (h : Holds c n l) (hsize : n + l.length ≤ size) : Holds (truncate c size) n l := by
  intro i hi
  rw [Extents.truncate, if_pos (by omega), h i hi]

theorem Holds.extend {z : β} {size : Nat} (h : Holds c n l) : Holds (extend z c size) n l := by
  intro i hi
  rw [Extents.extend, h i hi, List.getElem?_eq_getElem hi, Option.some_or]

end Content

/-! ## Texts that are stored -/

/-- The texts are where they were placed, below the bounds of their files, and clear of each other. -/
structure Stored (content : φ → Content β) (bound : φ → Nat) (place : κ → Option (φ × Nat)) (text : κ → List β) :
    Prop where
  holds : ∀ {k f n}, place k = some (f, n) → Holds (content f) n (text k)
  below : ∀ {k f n}, place k = some (f, n) → n + (text k).length ≤ bound f
  clear : ∀ {k k' f n n'}, k ≠ k' → place k = some (f, n) → place k' = some (f, n') →
    Clear n (text k).length n' (text k').length

section Stored

variable {content content' : φ → Content β} {bound bound' : φ → Nat} {place : κ → Option (φ × Nat)} {text : κ → List β}

/-- The files may change where they keep what they hold below their bounds, and the bounds may grow. -/
theorem Stored.mono (h : Stored content bound place text) (hbound : ∀ f, bound f ≤ bound' f)
    (hholds : ∀ f n l, n + l.length ≤ bound f → Holds (content f) n l → Holds (content' f) n l) :
    Stored content' bound' place text where
  holds hp := hholds _ _ _ (h.below hp) (h.holds hp)
  below hp := Nat.le_trans (h.below hp) (hbound _)
  clear := h.clear

variable [DecidableEq κ]

/-- A text that its file holds, beyond the bound that the file had, is stored where it is. -/
theorem Stored.adopt (h : Stored content bound place text) {k : κ} {f : φ} {n : Nat} {l : List β}
    (hnew : place k = none) (hholds : Holds (content f) n l) (hlow : bound f ≤ n) (hbound : ∀ g, bound g ≤ bound' g)
    (hhigh : n + l.length ≤ bound' f) :
    Stored content bound' (Function.update place k (some (f, n))) (Function.update text k l) where
  holds := by
    intro j g m hp
    by_cases hj : j = k
    · subst hj
      rw [Function.update_self] at hp ⊢
      cases hp
      exact hholds
    · rw [Function.update_of_ne hj] at hp ⊢
      exact h.holds hp
  below := by
    intro j g m hp
    by_cases hj : j = k
    · subst hj
      rw [Function.update_self] at hp ⊢
      cases hp
      exact hhigh
    · rw [Function.update_of_ne hj] at hp ⊢
      exact Nat.le_trans (h.below hp) (hbound g)
  clear := by
    intro j j' g m m' hne hp hp'
    by_cases hj : j = k
    · subst hj
      have hj' : j' ≠ j := hne.symm
      rw [Function.update_self] at hp ⊢
      rw [Function.update_of_ne hj'] at hp' ⊢
      cases hp
      exact .inr (Nat.le_trans (h.below hp') hlow)
    · rw [Function.update_of_ne hj] at hp ⊢
      by_cases hj' : j' = k
      · subst hj'
        rw [Function.update_self] at hp' ⊢
        cases hp'
        exact .inl (Nat.le_trans (h.below hp) hlow)
      · rw [Function.update_of_ne hj'] at hp' ⊢
        exact h.clear hne hp hp'

variable [DecidableEq φ]

/-- A text that is written from the bound of a file on, behind a header, is stored there. -/
theorem Stored.append (h : Stored content bound place text) {k : κ} (f : φ) (header l : List β) (hnew : place k = none)
    (hbound : ∀ g, bound g ≤ bound' g) (hhigh : bound f + header.length + l.length ≤ bound' f) :
    Stored (Function.update content f (writeAt (content f) (bound f) (header ++ l))) bound'
      (Function.update place k (some (f, bound f + header.length))) (Function.update text k l) := by
  have hkept : Stored (Function.update content f (writeAt (content f) (bound f) (header ++ l))) bound place text := by
    refine h.mono (fun _ => Nat.le_refl _) fun g n l' hbelow hholds => ?_
    by_cases hg : g = f
    · subst hg
      rw [Function.update_self]
      exact hholds.writeAt (.inl hbelow)
    · rw [Function.update_of_ne hg]
      exact hholds
  refine hkept.adopt hnew ?_ (Nat.le_add_right _ _) hbound hhigh
  rw [Function.update_self]
  exact (holds_writeAt _ _ _).drop

end Stored

end Extents
