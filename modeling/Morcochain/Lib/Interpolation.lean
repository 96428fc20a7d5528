import Mathlib

/-!
# Piecewise linear curves over the integers

A curve through points, with the division between two points truncated towards the value of the first one.

* `lerp_between`, `lerp_mono` : a segment stays between its ends, and rises where they do.
* `curve_of_mem`, `curve_of_neighbours`, `curve_outside` : the curve at its points, between two of them, and outside.
* `curve_mono` : **the curve through rising points rises.**
-/

set_option autoImplicit false

namespace Interpolation

/-! ## One segment -/

/-- The line from `(x₀, y₀)` to `(x₁, y₁)`, at `x`. -/
def lerp (p₀ p₁ : Int × Int) (x : Int) : Int := p₀.2 + Int.tdiv ((x - p₀.1) * (p₁.2 - p₀.2)) (p₁.1 - p₀.1)

section Segment

variable {p₀ p₁ : Int × Int} {x x' : Int}

/-- A segment ends at its second point. -/
theorem lerp_right (hx : p₀.1 < p₁.1) : lerp p₀ p₁ p₁.1 = p₁.2 := by
  rw [lerp, Int.mul_tdiv_cancel_left _ (by omega)]
  omega

/-- A segment starts at its first point. -/
theorem lerp_left : lerp p₀ p₁ p₀.1 = p₀.2 := by
  rw [lerp, Int.sub_self, Int.zero_mul, Int.zero_tdiv, Int.add_zero]

/-- A rising segment rises. -/
theorem lerp_mono (hx : p₀.1 < p₁.1) (hy : p₀.2 ≤ p₁.2) (h : x ≤ x') : lerp p₀ p₁ x ≤ lerp p₀ p₁ x' := by
  refine Int.add_le_add_left (Int.tdiv_le_tdiv (by omega) ?_) _
  exact Int.mul_le_mul_of_nonneg_right (by omega) (by omega)

/-- A falling segment falls. -/
theorem lerp_anti (hx : p₀.1 < p₁.1) (hy : p₁.2 ≤ p₀.2) (h : x ≤ x') : lerp p₀ p₁ x' ≤ lerp p₀ p₁ x := by
  refine Int.add_le_add_left (Int.tdiv_le_tdiv (by omega) ?_) _
  exact Int.mul_le_mul_of_nonpos_right (by omega) (by omega)

/-- A segment stays between its ends. -/
theorem lerp_between (hlt : p₀.1 < p₁.1) (h₀ : p₀.1 ≤ x) (h₁ : x ≤ p₁.1) :
    min p₀.2 p₁.2 ≤ lerp p₀ p₁ x ∧ lerp p₀ p₁ x ≤ max p₀.2 p₁.2 := by
  have hleft : lerp p₀ p₁ p₀.1 = p₀.2 := lerp_left
  have hright := lerp_right hlt
  rcases Int.le_total p₀.2 p₁.2 with hy | hy
  · have h₀ := lerp_mono hlt hy h₀
    have h₁ := lerp_mono hlt hy h₁
    omega
  · have h₀ := lerp_anti hlt hy h₀
    have h₁ := lerp_anti hlt hy h₁
    omega

end Segment

/-! ## The curve -/

/-- The curve through points, in the order of their places, with the point before. -/
def curve (x : Int) : Option (Int × Int) → List (Int × Int) → Option Int
  | _, [] => none
  | prev, p :: rest =>
    if x = p.1 then some p.2
    else if x < p.1 then prev.map fun p₀ => lerp p₀ p x
    else curve x (some p) rest

section Curve

variable {x x' y y' : Int} {prev : Option (Int × Int)} {p p₀ p₁ : Int × Int} {points : List (Int × Int)}

/-- The points stand in the order of their places. -/
def Ordered (points : List (Int × Int)) : Prop := points.Pairwise (·.1 < ·.1)

/-- The points that lie before a place are passed. -/
theorem curve_append {before : List (Int × Int)} (h : ∀ p ∈ before, p.1 < x) :
    curve x prev (before ++ p :: points) = curve x (before.getLast?.or prev) (p :: points) := by
  induction before generalizing prev with
  | nil => rfl
  | cons a before ih =>
    obtain ⟨ha, hbefore⟩ := List.forall_mem_cons.mp h
    rw [List.cons_append, curve, if_neg (by omega), if_neg (by omega), ih hbefore, List.getLast?_cons]
    cases before.getLast? <;> rfl

/-- The curve goes through its points. -/
theorem curve_of_mem (hordered : Ordered points) (hp : p ∈ points) : curve p.1 prev points = some p.2 := by
  obtain ⟨before, after, rfl⟩ := List.append_of_mem hp
  have hbefore := (List.pairwise_append.mp hordered).2.2
  rw [curve_append fun a ha => hbefore a ha p List.mem_cons_self, curve, if_pos rfl]

/-- Two points with no other one between them stand next to each other. -/
theorem split_of_neighbours (hordered : Ordered points) (h₀ : p₀ ∈ points) (h₁ : p₁ ∈ points) (hlt : p₀.1 < p₁.1)
    (hnone : ∀ p ∈ points, ¬ (p₀.1 < p.1 ∧ p.1 < p₁.1)) :
    ∃ before after, points = before ++ p₀ :: p₁ :: after := by
  obtain ⟨before, rest, rfl⟩ := List.append_of_mem h₀
  obtain ⟨-, hrest, hbefore⟩ := List.pairwise_append.mp hordered
  obtain ⟨hafter, hrest⟩ := List.pairwise_cons.mp hrest
  have hmem : p₁ ∈ rest := by
    rcases List.mem_append.mp h₁ with h₁ | h₁
    · have := hbefore p₁ h₁ p₀ List.mem_cons_self
      omega
    · rcases List.mem_cons.mp h₁ with rfl | h₁
      · omega
      · exact h₁
  cases rest with
  | nil => cases hmem
  | cons q after =>
    rcases List.mem_cons.mp hmem with rfl | hmem
    · exact ⟨before, after, rfl⟩
    · have hq := hafter q List.mem_cons_self
      have hq' := (List.pairwise_cons.mp hrest).1 p₁ hmem
      exact absurd ⟨hq, hq'⟩ (hnone q (by simp))

/-- Between two neighbouring points the curve is their segment. -/
theorem curve_of_neighbours (hordered : Ordered points) (h₀ : p₀ ∈ points) (h₁ : p₁ ∈ points)
    (hnone : ∀ p ∈ points, ¬ (p₀.1 < p.1 ∧ p.1 < p₁.1)) (hx₀ : p₀.1 < x) (hx₁ : x < p₁.1) :
    curve x prev points = some (lerp p₀ p₁ x) := by
  obtain ⟨before, after, rfl⟩ := split_of_neighbours hordered h₀ h₁ (by omega) hnone
  have hbefore := (List.pairwise_append.mp hordered).2.2
  have hpassed : ∀ p ∈ before ++ [p₀], p.1 < x := by
    intro p hp
    rcases List.mem_append.mp hp with hp | hp
    · have := hbefore p hp p₀ List.mem_cons_self
      omega
    · rwa [List.mem_singleton.mp hp]
  rw [List.append_cons, curve_append hpassed, List.getLast?_concat, curve, if_neg (by omega), if_pos hx₁]
  rfl

/-- Before the first point and behind the last one there is no curve. -/
theorem curve_outside (h : (∀ p ∈ points, x < p.1) ∨ ∀ p ∈ points, p.1 < x) : curve x none points = none := by
  rcases h with h | h
  · cases points with
    | nil => rfl
    | cons p rest =>
      have hp := h p List.mem_cons_self
      rw [curve, if_neg (by omega), if_pos hp]
      rfl
  · generalize (none : Option (Int × Int)) = prev
    induction points generalizing prev with
    | nil => rfl
    | cons p rest ih =>
      obtain ⟨hp, hrest⟩ := List.forall_mem_cons.mp h
      rw [curve, if_neg (by omega), if_neg (by omega)]
      exact ih hrest _

/-- Behind a point, the curve goes on up to the last one. -/
theorem isSome_curve_behind (hlast : ∃ q ∈ points, x ≤ q.1) : (curve x (some p) points).isSome := by
  induction points generalizing p with
  | nil =>
    obtain ⟨q, hq, -⟩ := hlast
    cases hq
  | cons a rest ih =>
    rw [curve]
    split
    · rfl
    · split
      · rfl
      · refine ih ?_
        obtain ⟨q, hq, hle⟩ := hlast
        rcases List.mem_cons.mp hq with rfl | hq
        · omega
        · exact ⟨q, hq, hle⟩

/-- The curve has no gaps. -/
theorem isSome_curve (hle : x ≤ x') (hlast : ∃ q ∈ points, x' ≤ q.1) (h : curve x prev points = some y) :
    (curve x' prev points).isSome := by
  cases prev with
  | some p => exact isSome_curve_behind hlast
  | none =>
    cases points with
    | nil => cases h
    | cons p rest =>
      have hp : p.1 ≤ x := by
        rw [curve] at h
        split at h
        · omega
        · split at h
          · cases h
          · omega
      rw [curve]
      split
      · rfl
      · rw [if_neg (by omega)]
        refine isSome_curve_behind ?_
        obtain ⟨q, hq, hq'⟩ := hlast
        rcases List.mem_cons.mp hq with rfl | hq
        · omega
        · exact ⟨q, hq, hq'⟩

/-- The points rise. -/
def Rising (points : List (Int × Int)) : Prop := points.Pairwise (·.2 ≤ ·.2)

/-- Behind a point, the curve through rising points is not below it. -/
theorem le_curve (hordered : Ordered (p₀ :: points)) (hrising : Rising (p₀ :: points)) (hx : p₀.1 ≤ x)
    (h : curve x (some p₀) points = some y) : p₀.2 ≤ y := by
  induction points generalizing p₀ with
  | nil => cases h
  | cons p rest ih =>
    have hlt := (List.pairwise_cons.mp hordered).1 p List.mem_cons_self
    have hle := (List.pairwise_cons.mp hrising).1 p List.mem_cons_self
    rw [curve] at h
    split at h
    · cases h
      exact hle
    · split at h
      · obtain rfl : lerp p₀ p x = y := Option.some.inj h
        have := (lerp_between hlt hx (by omega)).1
        omega
      · exact hle.trans (ih hordered.of_cons hrising.of_cons (by omega) h)

/-- **The curve through rising points rises.** -/
theorem curve_mono (hordered : Ordered (prev.toList ++ points)) (hrising : Rising (prev.toList ++ points))
    (hprev : ∀ p ∈ prev, p.1 ≤ x) (hle : x ≤ x') (h : curve x prev points = some y)
    (h' : curve x' prev points = some y') : y ≤ y' := by
  induction points generalizing prev with
  | nil => cases h
  | cons p rest ih =>
    have hordered' : Ordered (p :: rest) := (List.pairwise_append.mp hordered).2.1
    have hrising' : Rising (p :: rest) := (List.pairwise_append.mp hrising).2.1
    -- the point is a bound for the curve on either side of it
    have hupto : x ≤ p.1 → y ≤ p.2 := by
      intro hx
      rw [curve] at h
      split at h
      · cases h
        exact le_rfl
      · rw [if_pos (by omega)] at h
        obtain ⟨p₀, rfl, rfl⟩ := Option.map_eq_some_iff.mp h
        have hlt := (List.pairwise_cons.mp hordered).1 p List.mem_cons_self
        have hpp := (List.pairwise_cons.mp hrising).1 p List.mem_cons_self
        have := (lerp_between hlt (hprev p₀ rfl) hx).2
        omega
    have hfrom : p.1 < x' → p.2 ≤ y' := by
      intro hx
      rw [curve, if_neg (by omega), if_neg (by omega)] at h'
      exact le_curve hordered' hrising' hx.le h'
    rcases lt_trichotomy x' p.1 with hx' | rfl | hx'
    · rw [curve, if_neg (by omega), if_pos (by omega)] at h h'
      obtain ⟨p₀, rfl, rfl⟩ := Option.map_eq_some_iff.mp h
      cases h'
      have hlt := (List.pairwise_cons.mp hordered).1 p List.mem_cons_self
      have hpp := (List.pairwise_cons.mp hrising).1 p List.mem_cons_self
      exact lerp_mono hlt hpp hle
    · rw [curve, if_pos rfl] at h'
      cases h'
      exact hupto hle
    · rcases Int.lt_or_le p.1 x with hx | hx
      · rw [curve, if_neg (by omega), if_neg (by omega)] at h h'
        have hpassed : ∀ q ∈ some p, q.1 ≤ x := fun q hq => by
          cases hq
          exact hx.le
        have hordered'' : Ordered ((some p).toList ++ rest) := hordered'
        exact ih hordered'' hrising' hpassed h h'
      · exact (hupto hx).trans (hfrom hx')

end Curve

end Interpolation
