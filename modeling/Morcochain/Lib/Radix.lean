import Mathlib

/-!
# Numbers with leading zeros

A list of digits, most significant digit first, is told by the number of its leading zeros and by the number it stands
for. So it can be written in another base, the leading zeros being kept, and back.

* `spell_value` : **a list of digits is spelled by its leading zeros and its value.**
* `changeBase_changeBase` : **changing the base and back.**
-/

set_option autoImplicit false

namespace Radix

/-- The number of leading zeros. -/
def leadingZeros (l : List Nat) : Nat := (l.takeWhile (· = 0)).length

/-- The number that digits stand for, most significant digit first. -/
def value (b : Nat) (l : List Nat) : Nat := Nat.ofDigits b l.reverse

/-- The digits of a number, after some zeros. -/
def spell (b z n : Nat) : List Nat := List.replicate z 0 ++ (Nat.digits b n).reverse

/-- The digits in another base. -/
def changeBase (b c : Nat) (l : List Nat) : List Nat := spell c (leadingZeros l) (value b l)

variable {b c z n : Nat} {l : List Nat}

theorem takeWhile_zero (l : List Nat) : l.takeWhile (· = 0) = List.replicate (leadingZeros l) 0 :=
  List.eq_replicate_iff.mpr ⟨rfl, fun _ hd => of_decide_eq_true (List.mem_takeWhile_imp (p := (· = 0)) hd)⟩

/-- Leading zeros and the digits after them. -/
theorem split_zeros (l : List Nat) : List.replicate (leadingZeros l) 0 ++ l.dropWhile (· = 0) = l := by
  rw [← takeWhile_zero]
  exact List.takeWhile_append_dropWhile

/-- A value is found digit by digit from the front. -/
theorem value_eq_foldl (b : Nat) (l : List Nat) : value b l = l.foldl (fun n d => n * b + d) 0 := by
  rw [value, Nat.ofDigits_eq_foldr, List.foldr_reverse]
  congr 1
  funext n d
  rw [Nat.cast_id, Nat.add_comm, Nat.mul_comm]

/-- Leading zeros do not count. -/
theorem value_zeros (b z : Nat) (l : List Nat) : value b (List.replicate z 0 ++ l) = value b l := by
  rw [value, List.reverse_append, List.reverse_replicate, Nat.ofDigits_append_replicate_zero]
  rfl

/-- **A list of digits is spelled** by its leading zeros and its value. -/
theorem spell_value (hb : 1 < b) (hl : ∀ d ∈ l, d < b) : spell b (leadingZeros l) (value b l) = l := by
  have hvalue : value b l = Nat.ofDigits b (l.dropWhile (· = 0)).reverse := by
    conv_lhs => rw [← split_zeros l]
    exact value_zeros ..
  have hdigits : ∀ d ∈ (l.dropWhile (· = 0)).reverse, d < b := fun d hd =>
    hl d ((List.dropWhile_suffix _).subset (List.mem_reverse.mp hd))
  have hlast : ∀ h : (l.dropWhile (· = 0)).reverse ≠ [], (l.dropWhile (· = 0)).reverse.getLast h ≠ 0 := by
    intro h
    rw [List.getLast_reverse]
    exact of_decide_eq_false (List.head_dropWhile_not (· = 0) (fun hnil => h (List.reverse_eq_nil_iff.mpr hnil)))
  rw [spell, hvalue, Nat.digits_ofDigits b hb _ hdigits hlast, List.reverse_reverse, split_zeros]

theorem value_spell (b z n : Nat) : value b (spell b z n) = n := by
  rw [spell, value_zeros, value, List.reverse_reverse, Nat.ofDigits_digits]

/-- The digits of a number do not start with a zero. -/
theorem leadingZeros_spell (b z n : Nat) : leadingZeros (spell b z n) = z := by
  have hdigits : (Nat.digits b n).reverse.takeWhile (· = 0) = [] := by
    cases h : (Nat.digits b n).reverse with
    | nil => rfl
    | cons d rest =>
      have hn : n ≠ 0 := by
        rintro rfl
        rw [Nat.digits_zero] at h
        cases h
      have hne : Nat.digits b n ≠ [] := Nat.digits_ne_nil_iff_ne_zero.mpr hn
      have hlast : (Nat.digits b n).getLast hne = d := by
        rw [← List.head_reverse (by rwa [ne_eq, List.reverse_eq_nil_iff])]
        simp only [h, List.head_cons]
      rw [List.takeWhile_cons, decide_eq_false (hlast ▸ Nat.getLast_digit_ne_zero b hn)]
      rfl
  rw [leadingZeros, spell, List.takeWhile_append_of_pos (fun d hd => decide_eq_true (List.eq_of_mem_replicate hd)),
    hdigits, List.append_nil, List.length_replicate]

theorem spell_lt (hb : 1 < b) : ∀ d ∈ spell b z n, d < b := by
  intro d hd
  rcases List.mem_append.mp hd with hd | hd
  · rw [List.eq_of_mem_replicate hd]
    exact Nat.lt_of_succ_lt hb
  · exact Nat.digits_lt_base hb (List.mem_reverse.mp hd)

theorem changeBase_lt (hc : 1 < c) : ∀ d ∈ changeBase b c l, d < c := spell_lt hc

/-- **Changing the base and back.** -/
theorem changeBase_changeBase (hb : 1 < b) (hl : ∀ d ∈ l, d < b) : changeBase c b (changeBase b c l) = l := by
  unfold changeBase
  rw [leadingZeros_spell, value_spell, spell_value hb hl]

end Radix
