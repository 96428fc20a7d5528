import Mathlib

/-!
# Filters of marks

A set of keys is kept as marks: each key has places, and putting a key into the filter marks them. A key is taken to be
in the filter when all of its places are marked.

* `has_mark_self`, `Has.mark` : **no false negatives**: the key is in the filter afterwards, and so are those that were.
-/

set_option autoImplicit false

namespace BitFilter

universe u v

variable {κ : Type u} {ι : Type v} (places : κ → List ι)

/-- The places of the key are marked. -/
def Has (marks : Set ι) (k : κ) : Prop := ∀ i ∈ places k, i ∈ marks

/-- Mark the places of a key. -/
def mark (marks : Set ι) (k : κ) : Set ι := {i | i ∈ marks ∨ i ∈ places k}

variable {places} {marks marks' : Set ι} {k k' : κ}

/-- More marks do no harm. -/
theorem Has.mono (h : Has places marks k) (hsub : marks ⊆ marks') : Has places marks' k :=
  fun i hi => hsub (h i hi)

theorem subset_mark (marks : Set ι) (k : κ) : marks ⊆ mark places marks k := fun _ hi => .inl hi

theorem has_mark_self (marks : Set ι) (k : κ) : Has places (mark places marks k) k := fun _ hi => .inr hi

theorem Has.mark (h : Has places marks k) (k' : κ) : Has places (mark places marks k') k :=
    h.mono (subset_mark marks k')

end BitFilter
