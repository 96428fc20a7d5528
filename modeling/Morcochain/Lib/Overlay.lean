import Mathlib

/-!
# Overlaid maps

A layer over a base map answers where it has an entry, and the base elsewhere. Some of the values may stand for no value
at all (`kept p`), so that a layer can hide an entry of its base.

* `overlay_fill` : a layer that takes over what the base answers changes no answer.
* `overlay_update`, `overlay_update_base` : a write to the layer is a write to the overlaid map, and so is a write to
  the base where the layer has no entry.
* `overlay_empty` : an emptied layer leaves the answers to its base.
-/

set_option autoImplicit false

namespace Overlay

universe u v

variable {κ : Type u} {ν : Type v}

/-- The map read through a layer. -/
def overlay (layer base : κ → Option ν) : κ → Option ν := fun k => (layer k).or (base k)

/-- The map without the values that stand for no value. -/
def kept (p : ν → Bool) (m : κ → Option ν) : κ → Option ν := fun k => (m k).filter p

variable {p : ν → Bool} {layer base base' : κ → Option ν} {k : κ}

theorem overlay_of_some {a : ν} (h : layer k = some a) : overlay layer base k = some a := by
  rw [overlay, h, Option.some_or]

theorem overlay_of_none (h : layer k = none) : overlay layer base k = base k := by
  rw [overlay, h, Option.none_or]

/-- An empty layer leaves the answers to the base. -/
theorem overlay_empty (h : ∀ k, layer k = none) : overlay layer base = base :=
  funext fun k => overlay_of_none (h k)

/-- An entry of the overlaid map is one of the layer or one of the base. -/
theorem overlay_eq_some {a : ν} (h : overlay layer base k = some a) : layer k = some a ∨ base k = some a := by
  cases hl : layer k with
  | none => exact .inr ((overlay_of_none hl).symm.trans h)
  | some b => exact .inl ((overlay_of_some hl).symm.trans h)

/-! ## What is kept -/

/-- Bases that keep the same values keep the same values below a layer. -/
theorem kept_overlay_congr (h : kept p base = kept p base') :
    kept p (overlay layer base) = kept p (overlay layer base') := by
  funext k
  cases hl : layer k with
  | none =>
    simp only [kept, overlay_of_none hl]
    exact congrFun h k
  | some a => simp only [kept, overlay_of_some hl]

variable [DecidableEq κ]

/-- Maps that keep the same values do so after a write of one value. -/
theorem kept_update_congr {m m' : κ → Option ν} (h : kept p m = kept p m') (k : κ) (a : Option ν) :
    kept p (Function.update m k a) = kept p (Function.update m' k a) := by
  funext j
  by_cases hj : j = k
  · subst hj
    simp only [kept, Function.update_self]
  · simp only [kept, Function.update_of_ne hj]
    exact congrFun h j

/-! ## Writes -/

/-- A layer may take over what the base answers. -/
theorem overlay_fill {a : ν} (hl : layer k = none) (hb : base k = some a) :
    overlay (Function.update layer k (some a)) base = overlay layer base := by
  funext j
  by_cases hj : j = k
  · subst hj
    rw [overlay_of_some (Function.update_self j _ layer), overlay_of_none hl, hb]
  · simp only [overlay, Function.update_of_ne hj]

/-- A write to the layer. -/
theorem overlay_update (k : κ) (a : ν) :
    overlay (Function.update layer k (some a)) base = Function.update (overlay layer base) k (some a) := by
  funext j
  by_cases hj : j = k
  · subst hj
    rw [overlay_of_some (Function.update_self j _ layer), Function.update_self]
  · simp only [overlay, Function.update_of_ne hj]

/-- A write to the base, below a layer without an entry there. -/
theorem overlay_update_base (hl : layer k = none) (a : Option ν) :
    overlay layer (Function.update base k a) = Function.update (overlay layer base) k a := by
  funext j
  by_cases hj : j = k
  · subst hj
    rw [overlay_of_none hl, Function.update_self, Function.update_self]
  · simp only [overlay, Function.update_of_ne hj]

end Overlay
