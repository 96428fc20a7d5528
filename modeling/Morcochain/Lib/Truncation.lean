import Mathlib

/-!
# Numbers with a short mantissa

A number is written with digits of `w` bits, and only the first `k + 1` of them are kept, the topmost bit staying free:
the rest is cut off.

* `truncate_mono` : **cutting off is monotone**.
* `log2_truncate` : cutting off keeps the topmost bit.
* `truncate_mul_pow` : a number with a short mantissa is kept as it is.
-/

set_option autoImplicit false

namespace Truncation

/-- The number of digits that are cut off. The topmost bit of the digits that stay is free. -/
def dropped (w k x : Nat) : Nat := (Nat.log2 x + 1) / w - k

/-- The number with its last digits cut off. -/
def truncate (w k x : Nat) : Nat := x / 2 ^ (w * dropped w k x) * 2 ^ (w * dropped w k x)

variable {w k x y : Nat}

theorem truncate_le (w k x : Nat) : truncate w k x ≤ x := Nat.div_mul_le_self ..

/-- A number that ends in zeros is kept as it is. -/
theorem truncate_of_dvd (h : 2 ^ (w * dropped w k x) ∣ x) : truncate w k x = x := Nat.div_mul_cancel h

theorem log2_mono (h : x ≤ y) : Nat.log2 x ≤ Nat.log2 y := by
  rw [Nat.log2_eq_log_two, Nat.log2_eq_log_two]
  exact Nat.log_mono_right h

theorem dropped_mono (h : x ≤ y) : dropped w k x ≤ dropped w k y :=
  Nat.sub_le_sub_right (Nat.div_le_div_right (Nat.succ_le_succ (log2_mono h))) k

/-- When more digits are cut off a number, it is at least a power of two that is kept and that the other one does not
reach. -/
theorem exists_between (hw : 0 < w) (hk : 0 < k) (hxy : dropped w k x < dropped w k y) :
    ∃ b, x < 2 ^ b ∧ 2 ^ b ≤ y ∧ w * dropped w k y ≤ b := by
  unfold dropped at hxy ⊢
  have hqy : w * ((Nat.log2 y + 1) / w) ≤ Nat.log2 y + 1 := Nat.mul_div_le ..
  have hqx : Nat.log2 x + 1 < w * ((Nat.log2 x + 1) / w + 1) := Nat.lt_mul_div_succ _ hw
  generalize (Nat.log2 x + 1) / w = qx at hxy hqx
  generalize (Nat.log2 y + 1) / w = qy at hxy hqy ⊢
  have hq : w * (qx + 1) ≤ w * qy := Nat.mul_le_mul_left w (by omega)
  have hsub : w * (qy - k) + w * k = w * qy := by rw [← Nat.mul_add, Nat.sub_add_cancel (by omega)]
  have hwk : 0 < w * k := Nat.mul_pos hw hk
  have hy : y ≠ 0 := by
    rintro rfl
    have hlog : Nat.log2 0 = 0 := by decide
    rw [hlog] at hqy
    omega
  refine ⟨w * qy - 1, ?_, ?_, by omega⟩
  · exact Nat.lt_log2_self.trans_le (Nat.pow_le_pow_right (by omega) (by omega))
  · exact (Nat.pow_le_pow_right (by omega) (by omega)).trans (Nat.log2_self_le hy)

/-- **Cutting off is monotone.** -/
theorem truncate_mono (hw : 0 < w) (hk : 0 < k) (h : x ≤ y) : truncate w k x ≤ truncate w k y := by
  rcases Nat.eq_or_lt_of_le (@dropped_mono w k x y h) with heq | hlt
  · unfold truncate
    rw [heq]
    exact Nat.mul_le_mul_right _ (Nat.div_le_div_right h)
  · obtain ⟨b, hx, hy, hb⟩ := exists_between hw hk hlt
    have hdvd : 2 ^ (w * dropped w k y) ∣ 2 ^ b := Nat.pow_dvd_pow 2 hb
    calc truncate w k x ≤ x := truncate_le ..
      _ ≤ 2 ^ b := hx.le
      _ = 2 ^ b / 2 ^ (w * dropped w k y) * 2 ^ (w * dropped w k y) := (Nat.div_mul_cancel hdvd).symm
      _ ≤ truncate w k y := Nat.mul_le_mul_right _ (Nat.div_le_div_right hy)

/-- A number with a short mantissa is kept as it is. -/
theorem truncate_mul_pow (hw : 0 < w) {m j : Nat} (hm : m < 2 ^ (w * (k + 1) - 1)) :
    truncate w k (m * 2 ^ (w * j)) = m * 2 ^ (w * j) := by
  by_cases hz : m * 2 ^ (w * j) = 0
  · rw [hz]
    exact Nat.le_zero.mp (truncate_le w k 0)
  refine truncate_of_dvd (Nat.dvd_mul_left_of_dvd (Nat.pow_dvd_pow 2 (Nat.mul_le_mul_left w ?_)) m)
  have hpos : 0 < w * (k + 1) := Nat.mul_pos hw (by omega)
  have hadd : w * (k + 1 + j) = w * (k + 1) + w * j := Nat.mul_add ..
  have hlt : m * 2 ^ (w * j) < 2 ^ (w * (k + 1 + j) - 1) := by
    rw [show w * (k + 1 + j) - 1 = (w * (k + 1) - 1) + w * j by omega, Nat.pow_add]
    exact Nat.mul_lt_mul_of_pos_right hm (Nat.two_pow_pos _)
  have hlog : Nat.log2 (m * 2 ^ (w * j)) + 1 < w * (k + 1 + j) := by
    have hlog := (Nat.log2_lt hz).mpr hlt
    omega
  have hdiv : (Nat.log2 (m * 2 ^ (w * j)) + 1) / w < k + 1 + j := Nat.div_lt_of_lt_mul hlog
  unfold dropped
  omega

/-- Something is kept of a positive number. -/
theorem truncate_pos (hw : 0 < w) (hk : 0 < k) (hx : 0 < x) : 0 < truncate w k x := by
  have hone : truncate w k 1 = 1 := by
    refine truncate_of_dvd ?_
    have hlog : dropped w k 1 = 0 := by
      unfold dropped
      have hdiv : (Nat.log2 1 + 1) / w ≤ 1 := (Nat.div_le_self ..).trans (by decide)
      omega
    rw [hlog]
    exact ⟨1, by rw [Nat.mul_zero, Nat.pow_zero]⟩
  have hle := @truncate_mono w k 1 x hw hk hx
  omega

/-- Cutting off keeps the topmost bit. -/
theorem log2_truncate (hw : 0 < w) (hk : 0 < k) (hx : x ≠ 0) : Nat.log2 (truncate w k x) = Nat.log2 x := by
  have hdigits : w * ((Nat.log2 x + 1) / w) ≤ Nat.log2 x + 1 := Nat.mul_div_le ..
  have hdropped : w * dropped w k x ≤ Nat.log2 x := by
    unfold dropped
    rcases Nat.eq_zero_or_pos ((Nat.log2 x + 1) / w) with hz | hpos
    · rw [hz, Nat.zero_sub, Nat.mul_zero]
      exact Nat.zero_le _
    · have hlt : w * ((Nat.log2 x + 1) / w - k) < w * ((Nat.log2 x + 1) / w) :=
        Nat.mul_lt_mul_of_pos_left (by omega) hw
      omega
  have hdvd : 2 ^ (w * dropped w k x) ∣ 2 ^ Nat.log2 x := Nat.pow_dvd_pow 2 hdropped
  have hle : 2 ^ Nat.log2 x ≤ truncate w k x :=
    calc 2 ^ Nat.log2 x = 2 ^ Nat.log2 x / 2 ^ (w * dropped w k x) * 2 ^ (w * dropped w k x) :=
          (Nat.div_mul_cancel hdvd).symm
      _ ≤ truncate w k x := Nat.mul_le_mul_right _ (Nat.div_le_div_right (Nat.log2_self_le hx))
  have hpos : truncate w k x ≠ 0 := Nat.ne_of_gt (Nat.lt_of_lt_of_le (Nat.two_pow_pos _) hle)
  exact (Nat.log2_eq_iff hpos).mpr ⟨hle, Nat.lt_of_le_of_lt (truncate_le ..) Nat.lt_log2_self⟩

/-- A number that was cut off has as many digits cut off again, and keeps the others. -/
theorem truncate_div (hw : 0 < w) (hk : 0 < k) (hx : x ≠ 0) :
    truncate w k x / 2 ^ (w * dropped w k (truncate w k x)) = x / 2 ^ (w * dropped w k x) := by
  have hsame : dropped w k (truncate w k x) = dropped w k x := by
    unfold dropped
    rw [log2_truncate hw hk hx]
  rw [hsame, truncate, Nat.mul_div_cancel _ (Nat.two_pow_pos _)]

end Truncation
