import Mathlib

/-!
# Bounded growth

A value that is observed at some times grows at most exponentially at a rate `r`: from one time to a later one it is
multiplied with at most `exp (r * d)`, where `d` is the time between.

* `Grows.trans` : growth along several observations is growth from the first to the last.
* `Grows.of_linear` : a factor of `1 + r * d` is such a growth.
* `Grows.le_two_pow` : **a growth that is slower than doubling** in each period.
-/

set_option autoImplicit false

namespace Growth

/-- From the time and value of `a` to those of `b`, the value grows at most at the rate `r`. -/
def Grows (r : ℝ) (a b : ℝ × ℝ) : Prop := b.2 ≤ a.2 * Real.exp (r * (b.1 - a.1))

variable {r : ℝ} {a b c : ℝ × ℝ}

theorem Grows.refl (r : ℝ) (a : ℝ × ℝ) : Grows r a a := by
  unfold Grows
  rw [sub_self, mul_zero, Real.exp_zero, mul_one]

theorem Grows.trans (hab : Grows r a b) (hbc : Grows r b c) : Grows r a c := by
  unfold Grows at *
  calc c.2 ≤ b.2 * Real.exp (r * (c.1 - b.1)) := hbc
    _ ≤ a.2 * Real.exp (r * (b.1 - a.1)) * Real.exp (r * (c.1 - b.1)) :=
      mul_le_mul_of_nonneg_right hab (Real.exp_pos _).le
    _ = a.2 * Real.exp (r * (c.1 - a.1)) := by
      rw [mul_assoc, ← Real.exp_add]
      congr 2
      ring

/-- Growth from a value is growth from a greater one at the same time. -/
theorem Grows.mono {t x y : ℝ} (h : Grows r (t, x) b) (hxy : x ≤ y) : Grows r (t, y) b :=
  le_trans h (mul_le_mul_of_nonneg_right hxy (Real.exp_pos _).le)

/-- A factor that is linear in the time is at most an exponential one. -/
theorem Grows.of_linear (ha : 0 ≤ a.2) (h : b.2 ≤ a.2 * (1 + r * (b.1 - a.1))) : Grows r a b := by
  refine h.trans (mul_le_mul_of_nonneg_left ?_ ha)
  have hexp := Real.add_one_le_exp (r * (b.1 - a.1))
  linarith

/-- The factor of a time that is short against the rate. -/
theorem exp_le_of_short {x y : ℝ} (hx : 0 ≤ x) (hx' : x < 1) (hy : 1 / (1 - x) ≤ y) : Real.exp x ≤ y :=
  (Real.exp_bound_div_one_sub_of_interval hx hx').trans hy

/-- **Growth that is slower than doubling** in a period: within `d` periods and a short time `s` more, the value is at
most multiplied with `2 ^ d` and with the factor of the short time. -/
theorem Grows.le_two_pow {period s y : ℝ} {d : ℕ} (h : Grows r a b) (ha : 0 ≤ a.2) (hr : 0 ≤ r)
    (hperiod : Real.exp (r * period) ≤ 2) (hs : Real.exp (r * s) ≤ y) (htime : b.1 - a.1 ≤ period * d + s) :
    b.2 ≤ a.2 * (2 ^ d * y) := by
  refine le_trans h (mul_le_mul_of_nonneg_left ?_ ha)
  calc Real.exp (r * (b.1 - a.1)) ≤ Real.exp (d * (r * period) + r * s) := by
        refine Real.exp_le_exp.mpr ?_
        have hmul := mul_le_mul_of_nonneg_left htime hr
        linarith
    _ = Real.exp (r * period) ^ d * Real.exp (r * s) := by rw [Real.exp_add, Real.exp_nat_mul]
    _ ≤ 2 ^ d * y :=
      mul_le_mul (pow_le_pow_left₀ (Real.exp_pos _).le hperiod d) hs (Real.exp_pos _).le (by positivity)

end Growth
