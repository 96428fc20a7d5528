import Morcochain.Script

/-!
# Numbers of scripts

The vectors that stand for numbers on the stack: a magnitude, least significant byte first, with the sign in the top bit
of the last byte.

* `bigNumOfVch_bigNumVch` : **a number is read back from its vector.**
* `length_bigNumVch_le` : the size of the vector.
* `castToBigNum_bigNumVch` : a number of less than four bytes and a sign is an operand.
-/

set_option autoImplicit false

namespace Morcochain

/-! ## Magnitudes -/

theorem leNat_natBytes (n : Nat) : leNat (natBytes n) = n := by
  induction n using natBytes.induct with
  | case1 => rw [natBytes, if_pos rfl, leNat]
  | case2 n hn ih =>
    rw [natBytes, if_neg hn, leNat, ih, UInt8.toNat_ofNat']
    exact Nat.mod_add_div n 256

theorem natBytes_eq_nil_iff {n : Nat} : natBytes n = [] ↔ n = 0 := by
  rw [natBytes]
  by_cases hn : n = 0
  · rw [if_pos hn]
    exact iff_of_true rfl hn
  · rw [if_neg hn]
    exact iff_of_false nofun hn

/-- A byte above the bytes of a number. -/
theorem leNat_append (l : Bytes) (b : UInt8) : leNat (l ++ [b]) = leNat l + 256 ^ l.length * b.toNat := by
  induction l with
  | nil => simp [leNat]
  | cons a l ih =>
    rw [List.cons_append, leNat, ih, leNat, List.length_cons, Nat.pow_succ', Nat.mul_add, Nat.mul_assoc, Nat.add_assoc]

/-! ## Signs -/

/-- The sign bit of a byte that leaves it free. -/
theorem toNat_or_sign {b : UInt8} (h : b.toNat < 0x80) : (b ||| 0x80).toNat = b.toNat + 0x80 := by
  have hor := Nat.two_pow_add_eq_or_of_lt (i := 7) h 1
  have htoNat : (b ||| 0x80).toNat = b.toNat ||| 128 := UInt8.toNat_or b 0x80
  rw [htoNat, Nat.or_comm, ← hor, Nat.add_comm]

/-- A byte without its sign bit. -/
theorem toNat_and_magnitude (b : UInt8) : (b &&& 0x7f).toNat = b.toNat % 0x80 := by
  rw [UInt8.toNat_and]
  exact Nat.and_two_pow_sub_one_eq_mod b.toNat 7

/-- **A sign that is put on bytes** is found in the last of them, and the rest of them are the magnitude. -/
theorem signBytes_spec (fNegative : Bool) : ∀ {l : Bytes}, l ≠ [] → ∃ (v : Bytes) (top : UInt8),
    signBytes fNegative l = v ++ [top] ∧ (0x80 ≤ top.toNat ↔ fNegative = true) ∧ leNat (v ++ [top &&& 0x7f]) = leNat l := by
  intro l
  induction l with
  | nil => exact absurd rfl
  | cons b l ih =>
    intro _
    cases l with
    | nil =>
      have hbyte := b.toNat_lt
      rw [signBytes]
      by_cases hfree : b.toNat < 0x80
      · rw [if_pos hfree]
        refine ⟨[], if fNegative then b ||| 0x80 else b, rfl, ?_, ?_⟩
        · cases fNegative with
          | false => exact iff_of_false (Nat.not_le.mpr hfree) Bool.false_ne_true
          | true => exact iff_of_true (by rw [if_pos rfl, toNat_or_sign hfree]; omega) rfl
        · rw [List.nil_append, leNat, leNat, toNat_and_magnitude]
          congr 1
          cases fNegative with
          | false => exact Nat.mod_eq_of_lt hfree
          | true =>
            rw [if_pos rfl, toNat_or_sign hfree]
            omega
      · rw [if_neg hfree]
        refine ⟨[b], if fNegative then 0x80 else 0x00, rfl, ?_, ?_⟩
        · cases fNegative with
          | false => exact iff_of_false (by decide) Bool.false_ne_true
          | true => exact iff_of_true (by decide) rfl
        · rw [leNat_append, toNat_and_magnitude]
          cases fNegative <;> simp [leNat]
    | cons c l =>
      obtain ⟨v, top, heq, hsign, hnat⟩ := ih (List.cons_ne_nil c l)
      refine ⟨b :: v, top, ?_, hsign, ?_⟩
      · rw [signBytes, heq]
        · rfl
        · exact List.cons_ne_nil c l
      · rw [List.cons_append, leNat, hnat]
        rfl

/-- Reading bytes with a sign. -/
theorem bigNumOfVch_signBytes (fNegative : Bool) {l : Bytes} (h : l ≠ []) :
    bigNumOfVch (signBytes fNegative l) = if fNegative then -(leNat l : Int) else leNat l := by
  obtain ⟨v, top, heq, hsign, hnat⟩ := signBytes_spec fNegative h
  unfold bigNumOfVch
  rw [heq, List.getLast?_concat]
  dsimp only
  rw [List.dropLast_concat]
  by_cases hfree : top.toNat < 0x80
  · have hf : fNegative = false := Bool.eq_false_iff.mpr fun ht => absurd (hsign.mpr ht) (Nat.not_le.mpr hfree)
    have htop : top &&& 0x7f = top := UInt8.toNat_inj.mp ((toNat_and_magnitude top).trans (Nat.mod_eq_of_lt hfree))
    rw [htop] at hnat
    rw [if_pos hfree, hf, hnat]
    rfl
  · rw [if_neg hfree, if_pos (hsign.mp (Nat.not_lt.mp hfree)), hnat]

/-- **A number is read back** from its vector. -/
theorem bigNumOfVch_bigNumVch (n : Int) : bigNumOfVch (bigNumVch n) = n := by
  unfold bigNumVch
  by_cases hn : n = 0
  · rw [hn, Int.natAbs_zero, natBytes, if_pos rfl]
    rfl
  · have hne : natBytes n.natAbs ≠ [] := fun hnil => hn (Int.natAbs_eq_zero.mp (natBytes_eq_nil_iff.mp hnil))
    rw [bigNumOfVch_signBytes _ hne, leNat_natBytes]
    by_cases hneg : n < 0
    · rw [if_pos (decide_eq_true hneg)]
      omega
    · rw [if_neg (by rw [decide_eq_true_eq]; exact hneg)]
      omega

/-! ## Sizes -/

theorem signBytes_ne_nil (fNegative : Bool) {l : Bytes} (h : l ≠ []) : signBytes fNegative l ≠ [] := by
  obtain ⟨v, top, heq, -, -⟩ := signBytes_spec fNegative h
  rw [heq]
  exact List.append_ne_nil_of_right_ne_nil v (List.cons_ne_nil top [])

theorem bigNumVch_ne_nil {n : Int} (h : n ≠ 0) : bigNumVch n ≠ [] :=
  signBytes_ne_nil _ fun hnil => h (Int.natAbs_eq_zero.mp (natBytes_eq_nil_iff.mp hnil))

/-- The size of a magnitude with its sign. -/
theorem length_signBytes_le (fNegative : Bool) : ∀ (k : Nat) {n : Nat}, n < 0x80 * 256 ^ k →
    (signBytes fNegative (natBytes n)).length ≤ k + 1
  | k, n, h => by
    by_cases hn : n = 0
    · rw [hn, natBytes, if_pos rfl, signBytes]
      exact Nat.zero_le _
    rw [natBytes, if_neg hn]
    cases hrest : natBytes (n / 256) with
    | nil =>
      have hsmall : n / 256 = 0 := natBytes_eq_nil_iff.mp hrest
      rw [signBytes]
      split
      · exact Nat.succ_le_succ (Nat.zero_le k)
      · rename_i hfree
        cases k with
        | zero =>
          rw [UInt8.toNat_ofNat'] at hfree
          omega
        | succ k => exact Nat.succ_le_succ (Nat.succ_le_succ (Nat.zero_le k))
    | cons c l =>
      have hne : n / 256 ≠ 0 := fun hzero => by
        rw [natBytes_eq_nil_iff.mpr hzero] at hrest
        cases hrest
      cases k with
      | zero => omega
      | succ k =>
        have ih := length_signBytes_le fNegative k (n := n / 256) (by rw [Nat.pow_succ] at h; omega)
        rw [hrest] at ih
        rw [signBytes, List.length_cons]
        · exact Nat.succ_le_succ ih
        · exact nofun

/-- The size of the vector of a number. -/
theorem length_bigNumVch_le {n : Int} {k : Nat} (h : n.natAbs < 0x80 * 256 ^ k) : (bigNumVch n).length ≤ k + 1 :=
  length_signBytes_le _ k h

/-- **A number of 31 bits and a sign** is an operand. -/
theorem castToBigNum_bigNumVch {n : Int} (h : n.natAbs < 2 ^ 31) : castToBigNum (bigNumVch n) = some n := by
  have hsize : (bigNumVch n).length ≤ 3 + 1 := length_bigNumVch_le (Nat.lt_of_lt_of_eq h (by decide))
  rw [castToBigNum, if_neg (Nat.not_lt.mpr hsize), bigNumOfVch_bigNumVch, bigNumOfVch_bigNumVch]

theorem bigNumGetint_of_lt {n : Int} (h : n.natAbs < 2 ^ 31) : bigNumGetint n = n := by
  unfold bigNumGetint
  split_ifs <;> omega

end Morcochain
