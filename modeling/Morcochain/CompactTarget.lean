import Morcochain.BlockIndex
import Morcochain.Lib.Truncation

/-!
# Compact targets

What `CBigNum::GetCompact` and `CBigNum::SetCompact` (`bignum.h`) make of a target: a size of one byte and a mantissa of
23 bits are kept of it.

* `getCompact_spec` : **what is kept of a target.**
* `le_compact_iff` : **which targets are at most** what is kept of another one.
-/

set_option autoImplicit false

namespace Morcochain

open Truncation

/-- The magnitude of a compact target, from its mantissa and size. -/
def expand (nWord nSize : Nat) : Nat :=
  if nSize ≤ 3 then nWord >>> (8 * (3 - nSize)) else nWord <<< (8 * (nSize - 3))

/-- The bits of the targets whose size fits in a byte. -/
def compactBits : Nat := 2039

/-- A target that can be written down and read again without a loss. -/
structure IsCompact (t : Nat) : Prop where
  short : truncate 8 2 t = t
  small : t < 2 ^ compactBits

/-! ## Mantissa and size -/

section Expand

variable {nWord nSize : Nat}

@[simp] theorem expand_zero (nSize : Nat) : expand 0 nSize = 0 := by
  unfold expand
  split
  · exact Nat.zero_shiftRight _
  · exact Nat.zero_shiftLeft _

/-- A greater size makes a greater number. -/
theorem expand_mono {nSize' : Nat} (h : nSize ≤ nSize') : expand nWord nSize ≤ expand nWord nSize' := by
  unfold expand
  simp only [Nat.shiftRight_eq_div_pow, Nat.shiftLeft_eq]
  split
  · split
    · exact Nat.div_le_div_left (Nat.pow_le_pow_right (by omega) (by omega)) (Nat.two_pow_pos _)
    · exact (Nat.div_le_self ..).trans (Nat.le_mul_of_pos_right _ (Nat.two_pow_pos _))
  · rw [if_neg (by omega)]
    exact Nat.mul_le_mul_left _ (Nat.pow_le_pow_right (by omega) (by omega))

/-- A number with a mantissa of 23 bits is not cut off. -/
theorem truncate_expand (hm : nWord < 2 ^ 23) : truncate 8 2 (expand nWord nSize) = expand nWord nSize := by
  unfold expand
  split
  · have h := @truncate_mul_pow 8 2 (by decide) (nWord >>> (8 * (3 - nSize))) 0 ((Nat.shiftRight_le ..).trans_lt hm)
    rwa [Nat.mul_zero, Nat.pow_zero, Nat.mul_one] at h
  · rw [Nat.shiftLeft_eq]
    exact truncate_mul_pow (by decide) hm

theorem expand_lt (hm : nWord < 2 ^ 23) (hs : nSize < 256) : expand nWord nSize < 2 ^ compactBits := by
  unfold expand
  split
  · exact ((Nat.shiftRight_le ..).trans_lt hm).trans_le (Nat.pow_le_pow_right (by decide) (by decide))
  · rw [Nat.shiftLeft_eq]
    calc nWord * 2 ^ (8 * (nSize - 3)) < 2 ^ 23 * 2 ^ (8 * (nSize - 3)) :=
          Nat.mul_lt_mul_of_pos_right hm (Nat.two_pow_pos _)
      _ = 2 ^ (23 + 8 * (nSize - 3)) := (Nat.pow_add ..).symm
      _ ≤ 2 ^ compactBits := Nat.pow_le_pow_right (by decide) (by unfold compactBits; omega)

/-- What is read of a mantissa and a size that were written down. -/
theorem setCompact_or (hm : nWord < 2 ^ 23) :
    setCompact ((nWord ||| nSize <<< 24 ||| 0) % 2 ^ 32) = (expand nWord (nSize % 256) : Nat) := by
  have hn : (nWord ||| nSize <<< 24 ||| 0) % 2 ^ 32 = nSize % 256 * 2 ^ 24 + nWord := by
    rw [Nat.or_zero, Nat.or_comm, ← Nat.shiftLeft_add_eq_or_of_lt (by omega), Nat.shiftLeft_eq]
    omega
  have hsize : (nSize % 256 * 2 ^ 24 + nWord) >>> 24 = nSize % 256 := by
    rw [Nat.shiftRight_eq_div_pow]
    omega
  have hword : (nSize % 256 * 2 ^ 24 + nWord) &&& 0x007fffff = nWord := by
    rw [show 0x007fffff = 2 ^ 23 - 1 from rfl, Nat.and_two_pow_sub_one_eq_mod]
    omega
  have hsign : (nSize % 256 * 2 ^ 24 + nWord) &&& 0x00800000 = 0 := by
    rw [show 0x00800000 = 2 ^ 23 from rfl, Nat.and_two_pow, Nat.testBit_eq_decide_div_mod_eq,
      decide_eq_false (by omega)]
    rfl
  rw [hn]
  unfold setCompact
  rw [hsize, hword, hsign]
  rfl

end Expand

/-! ## Writing down and reading -/

section Compact

variable {x y t : Nat}

/-- The leading three bytes of a number. -/
def leading (x nSize : Nat) : Nat := if nSize ≤ 3 then x <<< (8 * (3 - nSize)) else x >>> (8 * (nSize - 3))

/-- The leading bytes have as many bits as the topmost byte has, and 16 more. -/
theorem leading_bounds (hx : x ≠ 0) : 2 ^ (16 + Nat.log2 x % 8) ≤ leading x (Nat.log2 x / 8 + 1) ∧
    leading x (Nat.log2 x / 8 + 1) < 2 ^ (17 + Nat.log2 x % 8) := by
  have hle := Nat.log2_self_le hx
  have hlt := @Nat.lt_log2_self x
  generalize Nat.log2 x = l at hle hlt
  unfold leading
  split
  · rename_i hs
    rw [Nat.shiftLeft_eq]
    constructor
    · rw [show 16 + l % 8 = l + 8 * (3 - (l / 8 + 1)) by omega, Nat.pow_add]
      exact Nat.mul_le_mul_right _ hle
    · rw [show 17 + l % 8 = (l + 1) + 8 * (3 - (l / 8 + 1)) by omega, Nat.pow_add]
      exact Nat.mul_lt_mul_of_pos_right hlt (Nat.two_pow_pos _)
  · rename_i hs
    rw [Nat.shiftRight_eq_div_pow]
    constructor
    · rw [Nat.le_div_iff_mul_le (Nat.two_pow_pos _), ← Nat.pow_add,
        show 16 + l % 8 + 8 * (l / 8 + 1 - 3) = l by omega]
      exact hle
    · rw [Nat.div_lt_iff_lt_mul (Nat.two_pow_pos _), ← Nat.pow_add,
        show 17 + l % 8 + 8 * (l / 8 + 1 - 3) = l + 1 by omega]
      exact hlt

/-- The leading bytes at their place, without the topmost bit of the first. -/
theorem expand_leading (hfree : Nat.log2 x % 8 < 7) :
    expand (leading x (Nat.log2 x / 8 + 1)) (Nat.log2 x / 8 + 1) = truncate 8 2 x := by
  unfold expand leading truncate dropped
  rw [show (Nat.log2 x + 1) / 8 - 2 = Nat.log2 x / 8 + 1 - 3 by omega]
  split
  · rename_i hs
    rw [show Nat.log2 x / 8 + 1 - 3 = 0 by omega, Nat.shiftLeft_shiftRight, Nat.mul_zero, Nat.pow_zero, Nat.div_one,
      Nat.mul_one]
  · rw [Nat.shiftLeft_eq, Nat.shiftRight_eq_div_pow]

/-- The leading bytes without the last of them, when the topmost bit of the first is taken. -/
theorem expand_leading_shift (htaken : Nat.log2 x % 8 = 7) :
    expand (leading x (Nat.log2 x / 8 + 1) >>> 8) (Nat.log2 x / 8 + 1 + 1) = truncate 8 2 x := by
  unfold expand leading truncate dropped
  rw [show (Nat.log2 x + 1) / 8 - 2 = Nat.log2 x / 8 + 1 + 1 - 3 by omega]
  by_cases hs : Nat.log2 x / 8 + 1 + 1 ≤ 3
  · rw [if_pos hs, if_pos (by omega), ← Nat.shiftRight_add,
      show 8 + 8 * (3 - (Nat.log2 x / 8 + 1 + 1)) = 8 * (3 - (Nat.log2 x / 8 + 1)) by omega,
      Nat.shiftLeft_shiftRight, show Nat.log2 x / 8 + 1 + 1 - 3 = 0 by omega, Nat.mul_zero, Nat.pow_zero, Nat.div_one,
      Nat.mul_one]
  · rw [if_neg hs, Nat.shiftLeft_eq]
    congr 1
    rw [← Nat.shiftRight_eq_div_pow]
    by_cases hs' : Nat.log2 x / 8 + 1 ≤ 3
    · rw [if_pos hs', show 3 - (Nat.log2 x / 8 + 1) = 0 by omega,
        show Nat.log2 x / 8 + 1 + 1 - 3 = 1 by omega, Nat.mul_zero, Nat.shiftLeft_zero]
    · rw [if_neg hs', ← Nat.shiftRight_add]
      congr 1
      omega

/-- The mantissa of a number that is written down: its leading three bytes, the last of them being left out when the
topmost bit of the first is taken. -/
def mantissa (x : Nat) : Nat :=
  if Nat.log2 x % 8 = 7 then leading x (Nat.log2 x / 8 + 1) >>> 8 else leading x (Nat.log2 x / 8 + 1)

theorem mantissa_lt (hx : x ≠ 0) : mantissa x < 2 ^ 23 := by
  have hlt := (leading_bounds hx).2
  unfold mantissa
  split
  · rename_i htaken
    rw [htaken] at hlt
    rw [Nat.shiftRight_eq_div_pow]
    omega
  · exact hlt.trans_le (Nat.pow_le_pow_right (by decide) (by omega))

theorem expand_mantissa (x : Nat) : expand (mantissa x) ((Nat.log2 x + 1) / 8 + 1) = truncate 8 2 x := by
  unfold mantissa
  split
  · rename_i htaken
    rw [show (Nat.log2 x + 1) / 8 + 1 = Nat.log2 x / 8 + 1 + 1 by omega]
    exact expand_leading_shift htaken
  · rw [show (Nat.log2 x + 1) / 8 + 1 = Nat.log2 x / 8 + 1 by omega]
    exact expand_leading (by omega)

/-- The mantissa in terms of the digits that are kept. -/
theorem mantissa_eq (x : Nat) :
    mantissa x = x / 2 ^ (8 * dropped 8 2 x) * 2 ^ (8 * (2 - (Nat.log2 x + 1) / 8)) := by
  unfold mantissa leading dropped
  split
  · rename_i htaken
    rw [show (Nat.log2 x + 1) / 8 = Nat.log2 x / 8 + 1 by omega]
    split
    · rename_i hs
      rw [Nat.shiftLeft_eq, Nat.shiftRight_eq_div_pow]
      by_cases hfull : Nat.log2 x / 8 = 2
      · rw [hfull, Nat.sub_self, Nat.mul_zero, Nat.pow_zero, Nat.mul_one]
        exact (Nat.mul_one _).symm
      · rw [show Nat.log2 x / 8 + 1 - 2 = 0 by omega, Nat.mul_zero, Nat.pow_zero, Nat.div_one,
          show 8 * (3 - (Nat.log2 x / 8 + 1)) = 8 * (2 - (Nat.log2 x / 8 + 1)) + 8 by omega, Nat.pow_add,
          ← Nat.mul_assoc, Nat.mul_div_cancel _ (Nat.two_pow_pos 8)]
    · rename_i hs
      rw [← Nat.shiftRight_add, Nat.shiftRight_eq_div_pow, show 2 - (Nat.log2 x / 8 + 1) = 0 by omega,
        Nat.mul_zero, Nat.pow_zero, Nat.mul_one,
        show 8 * (Nat.log2 x / 8 + 1 - 3) + 8 = 8 * (Nat.log2 x / 8 + 1 - 2) by omega]
  · rename_i hfree
    rw [show (Nat.log2 x + 1) / 8 = Nat.log2 x / 8 by omega]
    split
    · rename_i hs
      rw [Nat.shiftLeft_eq, show Nat.log2 x / 8 - 2 = 0 by omega, Nat.mul_zero, Nat.pow_zero, Nat.div_one,
        show 3 - (Nat.log2 x / 8 + 1) = 2 - Nat.log2 x / 8 by omega]
    · rename_i hs
      rw [Nat.shiftRight_eq_div_pow, show 2 - Nat.log2 x / 8 = 0 by omega, Nat.mul_zero, Nat.pow_zero, Nat.mul_one,
        show Nat.log2 x / 8 + 1 - 3 = Nat.log2 x / 8 - 2 by omega]

/-- How a number is written down. -/
theorem getCompact_eq (hx : x ≠ 0) :
    getCompact x = (mantissa x ||| ((Nat.log2 x + 1) / 8 + 1) <<< 24 ||| 0) % 2 ^ 32 := by
  have hbytes : numBytes x = Nat.log2 x / 8 + 1 := by
    unfold numBytes
    rw [if_neg (Int.natCast_ne_zero.mpr hx), Int.natAbs_natCast]
  have hcompact : getCompact x =
      ((if leading x (Nat.log2 x / 8 + 1) &&& 0x00800000 ≠ 0
        then (leading x (Nat.log2 x / 8 + 1) >>> 8, Nat.log2 x / 8 + 1 + 1)
        else (leading x (Nat.log2 x / 8 + 1), Nat.log2 x / 8 + 1)).1 |||
      (if leading x (Nat.log2 x / 8 + 1) &&& 0x00800000 ≠ 0
        then (leading x (Nat.log2 x / 8 + 1) >>> 8, Nat.log2 x / 8 + 1 + 1)
        else (leading x (Nat.log2 x / 8 + 1), Nat.log2 x / 8 + 1)).2 <<< 24 ||| 0) % 2 ^ 32 := by
    unfold getCompact leading
    rw [hbytes, if_neg (show ¬ (x : Int) < 0 by omega), Int.natAbs_natCast]
  obtain ⟨hle, hlt⟩ := leading_bounds hx
  have hsign : leading x (Nat.log2 x / 8 + 1) &&& 0x00800000 ≠ 0 ↔ Nat.log2 x % 8 = 7 := by
    rw [show 0x00800000 = 2 ^ 23 from rfl, Nat.and_two_pow, Nat.testBit_eq_decide_div_mod_eq]
    by_cases htaken : Nat.log2 x % 8 = 7
    · rw [htaken] at hle hlt
      rw [decide_eq_true (by omega)]
      exact ⟨fun _ => htaken, fun _ => by decide⟩
    · have hsmall : leading x (Nat.log2 x / 8 + 1) < 2 ^ 23 :=
        hlt.trans_le (Nat.pow_le_pow_right (by decide) (by omega))
      rw [decide_eq_false (by omega)]
      exact ⟨fun h => absurd rfl h, fun h => absurd h htaken⟩
  rw [hcompact]
  unfold mantissa
  by_cases htaken : Nat.log2 x % 8 = 7
  · rw [if_pos (hsign.mpr htaken), if_pos htaken, show (Nat.log2 x + 1) / 8 + 1 = Nat.log2 x / 8 + 1 + 1 by omega]
  · rw [if_neg (mt hsign.mp htaken), if_neg htaken, show (Nat.log2 x + 1) / 8 + 1 = Nat.log2 x / 8 + 1 by omega]

/-- Mantissa and size of a number that is written down. -/
theorem exists_mantissa (x : Nat) : ∃ nWord nSize, nWord < 2 ^ 23 ∧
    getCompact x = (nWord ||| nSize <<< 24 ||| 0) % 2 ^ 32 ∧ expand nWord nSize = truncate 8 2 x ∧
    (x ≠ 0 → nSize = (Nat.log2 x + 1) / 8 + 1) := by
  by_cases hx : x = 0
  · subst hx
    exact ⟨0, 0, by decide, by decide, by decide, fun h => absurd rfl h⟩
  · exact ⟨_, _, mantissa_lt hx, getCompact_eq hx, expand_mantissa x, fun _ => rfl⟩

/-- **What is kept of a target.** It does not become greater, and can be kept again. -/
theorem getCompact_spec (x : Nat) : ∃ t : Nat, setCompact (getCompact x) = t ∧ t ≤ x ∧ IsCompact t := by
  obtain ⟨nWord, nSize, hword, hcompact, hexpand, -⟩ := exists_mantissa x
  refine ⟨expand nWord (nSize % 256), ?_, ?_, truncate_expand hword, expand_lt hword (Nat.mod_lt _ (by decide))⟩
  · rw [hcompact, setCompact_or hword]
  · exact (expand_mono (Nat.mod_le ..)).trans (hexpand ▸ truncate_le 8 2 x)

/-- A size that fits is kept. -/
theorem setCompact_getCompact (hx : x < 2 ^ compactBits) : setCompact (getCompact x) = (truncate 8 2 x : Nat) := by
  obtain ⟨nWord, nSize, hword, hcompact, hexpand, hsize⟩ := exists_mantissa x
  rw [hcompact, setCompact_or hword, ← hexpand]
  by_cases hx0 : x = 0
  · rw [hx0] at hexpand
    have hzero : expand nWord nSize = 0 := hexpand.trans (Nat.le_zero.mp (truncate_le 8 2 0))
    have hlost : expand nWord (nSize % 256) ≤ 0 := hzero ▸ expand_mono (Nat.mod_le nSize 256)
    rw [hzero, Nat.le_zero.mp hlost]
  · have hlog := (Nat.log2_lt hx0).mpr hx
    have hfits : nSize < 256 := by
      rw [hsize hx0]
      unfold compactBits at hlog
      omega
    rw [Nat.mod_eq_of_lt hfits]

/-- What is kept of a number is written down as the number is. -/
theorem getCompact_truncate (x : Nat) : getCompact (truncate 8 2 x : Nat) = getCompact x := by
  by_cases hx : x = 0
  · rw [hx, Nat.le_zero.mp (truncate_le 8 2 0)]
  · have hlog := @log2_truncate 8 2 x (by decide) (by decide) hx
    have hpos : truncate 8 2 x ≠ 0 := Nat.ne_of_gt (truncate_pos (by decide) (by decide) (Nat.pos_of_ne_zero hx))
    rw [getCompact_eq hpos, getCompact_eq hx, mantissa_eq, mantissa_eq, truncate_div (by decide) (by decide) hx, hlog]

/-! ## Bytes -/

/-- The most significant byte. -/
def topByte (t : Nat) : Nat := t / 256 ^ (numBytes t - 1)

/-- The number of bytes that are kept: three, and two when the most significant one has its topmost bit set. -/
def keptBytes (t : Nat) : Nat := if 0x80 ≤ topByte t then 2 else 3

/-- A number with all but its most significant `k` bytes set to zero. -/
def zeroBelow (k t : Nat) : Nat := t / 256 ^ (numBytes t - k) * 256 ^ (numBytes t - k)

theorem numBytes_natCast {t : Nat} (ht : t ≠ 0) : numBytes t = Nat.log2 t / 8 + 1 := by
  unfold numBytes
  rw [if_neg (Int.natCast_ne_zero.mpr ht), Int.natAbs_natCast]

/-- The bytes of a number bound its bits. -/
theorem lt_of_numBytes_le {t k b : Nat} (h : numBytes t ≤ k) (hb : 8 * k ≤ b) : t < 2 ^ b := by
  by_cases ht : t = 0
  · rw [ht]
    exact Nat.two_pow_pos _
  · rw [numBytes_natCast ht] at h
    exact Nat.lt_log2_self.trans_le (Nat.pow_le_pow_right (by decide) (by omega))

/-- The topmost bit of the most significant byte is set when the number of bits is one of full bytes. -/
theorem topByte_ge_iff (ht : t ≠ 0) : 0x80 ≤ topByte t ↔ Nat.log2 t % 8 = 7 := by
  have hpow : 256 ^ (Nat.log2 t / 8) = 2 ^ (8 * (Nat.log2 t / 8)) := by rw [Nat.pow_mul]
  rw [topByte, numBytes_natCast ht, Nat.add_sub_cancel, hpow, Nat.le_div_iff_mul_le (Nat.two_pow_pos _),
    show 0x80 = 2 ^ 7 from rfl, ← Nat.pow_add, ← Nat.le_log2 ht]
  omega

/-- **What is kept**, in terms of bytes. -/
theorem truncate_eq_zeroBelow (t : Nat) : truncate 8 2 t = zeroBelow (keptBytes t) t := by
  by_cases ht : t = 0
  · rw [ht, Nat.le_zero.mp (truncate_le 8 2 0), zeroBelow, Nat.zero_div, Nat.zero_mul]
  · have hdropped : dropped 8 2 t = numBytes t - keptBytes t := by
      rw [dropped, keptBytes, numBytes_natCast ht]
      by_cases htaken : Nat.log2 t % 8 = 7
      · rw [if_pos ((topByte_ge_iff ht).mpr htaken)]
        omega
      · rw [if_neg (mt (topByte_ge_iff ht).mp htaken)]
        omega
    rw [truncate, zeroBelow, hdropped, Nat.pow_mul]

/-- Numbers of at most 254 bytes keep their size. -/
theorem setCompact_getCompact_bytes (ht : numBytes t ≤ 254) :
    setCompact (getCompact t) = (zeroBelow (keptBytes t) t : Nat) ∧
    getCompact (setCompact (getCompact t)) = getCompact t := by
  rw [setCompact_getCompact (lt_of_numBytes_le ht (by decide))]
  exact ⟨by rw [truncate_eq_zeroBelow], getCompact_truncate t⟩

/-- A size of 256 is lost, and the target with it. -/
theorem setCompact_getCompact_large (hx : 2 ^ compactBits ≤ x) (hx' : x < 2 ^ (compactBits + 1)) :
    setCompact (getCompact x) = 0 := by
  obtain ⟨nWord, nSize, hword, hcompact, -, hsize⟩ := exists_mantissa x
  have hx0 : x ≠ 0 := by
    rintro rfl
    exact Nat.lt_irrefl 0 (lt_of_lt_of_le (Nat.two_pow_pos compactBits) hx)
  have hlog : Nat.log2 x = compactBits := (Nat.log2_eq_iff hx0).mpr ⟨hx, hx'⟩
  have hlost : nSize % 256 = 0 := by rw [hsize hx0, hlog, compactBits]
  rw [hcompact, setCompact_or hword, hlost]
  unfold expand
  rw [if_pos (by omega), Nat.shiftRight_eq_div_pow, Nat.div_eq_of_lt (hword.trans_le (by decide))]
  rfl

/-- A target that can be kept is at most what is kept of another one when it is at most that one, unless the size of the
other one is lost. -/
theorem le_compact_iff (ht : IsCompact t) (hy : y < 2 ^ (compactBits + 1)) :
    (t : Int) ≤ setCompact (getCompact y) ↔ t ≤ y ∧ (2 ^ compactBits ≤ y → t = 0) := by
  by_cases hlarge : 2 ^ compactBits ≤ y
  · rw [setCompact_getCompact_large hlarge hy]
    constructor
    · intro h
      have hzero : t = 0 := by omega
      exact ⟨hzero ▸ Nat.zero_le y, fun _ => hzero⟩
    · rintro ⟨-, hzero⟩
      rw [hzero hlarge]
      rfl
  · rw [setCompact_getCompact (Nat.not_le.mp hlarge), Int.ofNat_le]
    constructor
    · exact fun h => ⟨h.trans (truncate_le 8 2 y), fun h => absurd h hlarge⟩
    · rintro ⟨hle, -⟩
      rw [← ht.short]
      exact truncate_mono (by decide) (by decide) hle

end Compact

end Morcochain
