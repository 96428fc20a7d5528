import Morcochain.MoneyText
import Morcochain.ScriptNumbers
import Morcochain.Lib.Radix

/-!
# Base58

`EncodeBase58` and `DecodeBase58` (`base58.h`): the bytes of an address as text, and back. The big numbers between them
are those of the scripts, with a sign byte.

* `encodeBase58_eq`, `decodeBase58_eq` : both change the base of a number and keep its leading zeros.
* `decodeBase58_iff` : **which texts are decoded to given bytes.**
-/

set_option autoImplicit false

namespace Morcochain

open Scan Radix

/-! ## The alphabet -/

def pszBase58 : List Char := "123456789ABCDEFGHJKLMNPQRSTUVWXYZabcdefghijkmnopqrstuvwxyz".toList

/-- `strchr` in the alphabet: the position of a character. -/
def base58Position (c : Char) : Option Nat := pszBase58.idxOf? c

/-- The character of a digit. -/
def base58Char (d : Nat) : Char := pszBase58.getD d '\x00'

/-! ## Encoding -/

/-- The loop of `EncodeBase58`: the digits of a number, least significant digit first. -/
def base58Digits (bn : Int) : List Char :=
  if h : bn > 0 then base58Char (bn % 58).toNat :: base58Digits (bn / 58) else []
termination_by bn.toNat
decreasing_by omega

/-- `EncodeBase58`. -/
def encodeBase58 (vch : Bytes) : List Char :=
  -- a zero at the end makes the number a positive one
  let vchTmp := vch.reverse ++ [0]
  let str := base58Digits (bigNumOfVch vchTmp)
  let str := str ++ (vch.takeWhile (· = 0)).map fun _ => base58Char 0
  str.reverse

/-! ## Decoding -/

/-- The loop of `DecodeBase58`. A character that is not in the alphabet must be followed by spaces up to the end, and be
one itself. -/
def decodeBase58Loop (bn : Int) : List Char → Option Int
  | [] => some bn
  | c :: p =>
    match base58Position c with
    | none => if (c :: p).dropWhile isspace = [] then some bn else none
    | some i => decodeBase58Loop (bn * 58 + i) p

/-- Trim off the sign byte if present. -/
def trimSign (vchTmp : Bytes) : Bytes :=
  if vchTmp.length ≥ 2 ∧ vchTmp.getD (vchTmp.length - 1) 0 = 0 ∧ vchTmp.getD (vchTmp.length - 2) 0 ≥ 0x80 then
    vchTmp.dropLast
  else vchTmp

/-- `DecodeBase58`. -/
def decodeBase58 (psz : List Char) : Option Bytes :=
  let psz := psz.dropWhile isspace
  (decodeBase58Loop 0 psz).map fun bn =>
    let vchTmp := trimSign (bigNumVch bn)
    let nLeadingZeros := (psz.takeWhile (· = base58Char 0)).length
    List.replicate nLeadingZeros 0 ++ vchTmp.reverse

/-! ## Characters and digits -/

section Alphabet

variable {c : Char} {d i : Nat}

theorem base58Position_char (h : d < 58) : base58Position (base58Char d) = some d := by
  have hall : ∀ d : Fin 58, base58Position (base58Char d) = some d.val := by decide +kernel
  exact hall ⟨d, h⟩

theorem isspace_base58Char (h : d < 58) : isspace (base58Char d) = false := by
  have hall : ∀ d : Fin 58, isspace (base58Char d) = false := by decide +kernel
  exact hall ⟨d, h⟩

theorem base58Char_position (h : base58Position c = some i) : i < 58 ∧ base58Char i = c := by
  obtain ⟨hi, hc⟩ := List.findIdx?_eq_some_iff_getElem.mp h
  have hlen : pszBase58.length = 58 := by decide
  refine ⟨by omega, ?_⟩
  rw [base58Char, List.getD_eq_getElem _ _ hi]
  exact eq_of_beq hc.1

/-- A space is not in the alphabet. -/
theorem base58Position_space (h : isspace c = true) : base58Position c = none := by
  cases hp : base58Position c with
  | none => rfl
  | some i =>
    obtain ⟨hi, rfl⟩ := base58Char_position hp
    rw [isspace_base58Char hi] at h
    exact nomatch h

/-- Only the first digit is written as the first character. -/
theorem base58Char_eq_zero (h : d < 58) : base58Char d = base58Char 0 ↔ d = 0 := by
  refine ⟨fun heq => ?_, fun heq => by rw [heq]⟩
  have hpos := base58Position_char h
  rw [heq, base58Position_char (by decide)] at hpos
  exact (Option.some.inj hpos).symm

end Alphabet

/-! ## Bytes and numbers -/

section Numbers

variable {n : Nat} {l vch : Bytes}

theorem leNat_eq_ofDigits : ∀ l : Bytes, leNat l = Nat.ofDigits 256 (l.map UInt8.toNat)
  | [] => rfl
  | b :: l => by
    rw [leNat, leNat_eq_ofDigits l, List.map_cons, Nat.ofDigits_cons]

theorem natBytes_eq_digits (n : Nat) : natBytes n = (Nat.digits 256 n).map UInt8.ofNat := by
  induction n using natBytes.induct with
  | case1 => rw [natBytes, if_pos rfl, Nat.digits_zero, List.map_nil]
  | case2 n hn ih =>
    rw [natBytes, if_neg hn, ih, Nat.digits_def' (by decide) (Nat.pos_of_ne_zero hn), List.map_cons]
    congr 1
    rw [← UInt8.toNat_inj, UInt8.toNat_ofNat', UInt8.toNat_ofNat', Nat.mod_mod]

/-- The most significant byte of a number is not zero. -/
theorem natBytes_last {top : UInt8} (h : natBytes n = l ++ [top]) : top ≠ 0 := by
  have hn : n ≠ 0 := by
    rintro rfl
    rw [natBytes, if_pos rfl] at h
    exact List.append_ne_nil_of_right_ne_nil l (List.cons_ne_nil top []) h.symm
  have hne : Nat.digits 256 n ≠ [] := Nat.digits_ne_nil_iff_ne_zero.mpr hn
  have hlast := Nat.getLast_digit_ne_zero 256 hn
  have hlt := Nat.digits_lt_base (by decide : 1 < 256) (List.getLast_mem hne)
  have hmap : top = UInt8.ofNat ((Nat.digits 256 n).getLast hne) := by
    have hget : (natBytes n).getLast? = some (UInt8.ofNat ((Nat.digits 256 n).getLast hne)) := by
      rw [natBytes_eq_digits, List.getLast?_map, List.getLast?_eq_some_getLast hne, Option.map_some]
    rw [h, List.getLast?_concat] at hget
    exact Option.some.inj hget
  rintro rfl
  have hzero := congrArg UInt8.toNat hmap
  rw [UInt8.toNat_ofNat', Nat.mod_eq_of_lt hlt] at hzero
  exact hlast hzero.symm

/-- The sign byte of a positive number stands behind a byte whose topmost bit is set. -/
theorem signBytes_false : ∀ {l : Bytes}, (signBytes false l = l) ∨
    ∃ v top, l = v ++ [top] ∧ 0x80 ≤ top ∧ signBytes false l = l ++ [0] := by
  intro l
  induction l with
  | nil => exact .inl rfl
  | cons b l ih =>
    cases l with
    | nil =>
      rw [signBytes]
      by_cases hfree : b.toNat < 0x80
      · rw [if_pos hfree]
        exact .inl rfl
      · rw [if_neg hfree]
        exact .inr ⟨[], b, rfl, UInt8.le_iff_toNat_le.mpr (Nat.not_lt.mp hfree), rfl⟩
    | cons c l =>
      rw [signBytes]
      · rcases ih with h | ⟨v, top, hl, htop, h⟩
        · exact .inl (by rw [h])
        · exact .inr ⟨b :: v, top, by rw [hl]; rfl, htop, by rw [h]; rfl⟩
      · exact List.cons_ne_nil c l

/-- What is left of a number's vector without its sign byte. -/
theorem trimSign_bigNumVch (n : Nat) : trimSign (bigNumVch n) = natBytes n := by
  have hneg : decide ((n : Int) < 0) = false := decide_eq_false (by omega)
  rw [bigNumVch, hneg, Int.natAbs_natCast]
  rcases signBytes_false (l := natBytes n) with h | ⟨v, top, hl, htop, h⟩
  · rw [h, trimSign, if_neg]
    rintro ⟨hlen, hlast, -⟩
    have hne : natBytes n ≠ [] := List.ne_nil_of_length_pos (by omega)
    obtain ⟨v, top, hl⟩ : ∃ v top, natBytes n = v ++ [top] := ⟨_, _, (List.dropLast_concat_getLast hne).symm⟩
    rw [hl, List.length_append, List.length_singleton, Nat.add_sub_cancel,
      List.getD_append_right _ _ _ _ (Nat.le_refl _), Nat.sub_self] at hlast
    exact natBytes_last hl hlast
  · rw [h, trimSign, if_pos, List.dropLast_concat]
    rw [hl]
    simp only [List.append_assoc, List.length_append, List.length_cons, List.length_nil]
    refine ⟨by omega, ?_, ?_⟩
    · rw [List.getD_append_right _ _ _ _ (by omega), show v.length + (1 + 1) - 1 - v.length = 1 by omega]
      rfl
    · rw [List.getD_append_right _ _ _ _ (by omega), show v.length + (1 + 1) - 2 - v.length = 0 by omega]
      exact htop

/-- The number that is made of bytes and a zero. -/
theorem bigNumOfVch_zero (vch : Bytes) :
    bigNumOfVch (vch.reverse ++ [0]) = (value 256 (vch.map UInt8.toNat) : Nat) := by
  unfold bigNumOfVch
  rw [List.getLast?_concat]
  dsimp only
  rw [if_pos (by decide), leNat_append, leNat_eq_ofDigits, List.map_reverse, value]
  rfl

theorem base58Digits_eq (n : Nat) : base58Digits n = (Nat.digits 58 n).map base58Char := by
  induction n using Nat.strong_induction_on with
  | _ n ih =>
    rw [base58Digits]
    by_cases hn : n = 0
    · rw [dif_neg (by omega), hn, Nat.digits_zero, List.map_nil]
    · have hdiv : (n : Int) / 58 = ((n / 58 : Nat) : Int) := by omega
      have hmod : ((n : Int) % 58).toNat = n % 58 := by omega
      rw [dif_pos (by omega), hdiv, hmod, ih (n / 58) (by omega), Nat.digits_def' (by decide) (Nat.pos_of_ne_zero hn),
        List.map_cons]

end Numbers

/-! ## Both as a change of base -/

section Translation

variable {before after s : List Char} {ds : List Nat} {vch : Bytes} {bn : Int}

theorem leadingZeros_bytes : ∀ vch : Bytes, leadingZeros (vch.map UInt8.toNat) = (vch.takeWhile (· = 0)).length
  | [] => rfl
  | b :: vch => by
    have ih := leadingZeros_bytes vch
    unfold leadingZeros at ih ⊢
    rw [List.map_cons, List.takeWhile_cons, List.takeWhile_cons]
    by_cases hb : b = 0
    · rw [hb, if_pos (by decide), if_pos (by decide), List.length_cons, List.length_cons, ih]
    · have hb' : b.toNat ≠ 0 := fun h => hb (UInt8.toNat_inj.mp h)
      rw [if_neg (by simpa using hb'), if_neg (by simpa using hb)]
      rfl

/-- **Encoding changes the base.** -/
theorem encodeBase58_eq (vch : Bytes) :
    encodeBase58 vch = (changeBase 256 58 (vch.map UInt8.toNat)).map base58Char := by
  unfold encodeBase58 changeBase spell
  dsimp only
  rw [bigNumOfVch_zero, base58Digits_eq, List.reverse_append, List.map_append, List.map_replicate, leadingZeros_bytes,
    List.map_reverse, List.map_const', List.reverse_replicate]

theorem bytes_lt : ∀ d ∈ vch.map UInt8.toNat, d < 256 := by
  intro d hd
  obtain ⟨b, -, rfl⟩ := List.mem_map.mp hd
  exact b.toNat_lt

theorem decodeBase58Loop_digits (s : List Char) : ∀ {ds : List Nat} {n : Nat}, (∀ d ∈ ds, d < 58) →
    decodeBase58Loop n (ds.map base58Char ++ s) = decodeBase58Loop (ds.foldl (fun n d => n * 58 + d) n : Nat) s
  | [], n, _ => rfl
  | d :: ds, n, h => by
    rw [List.map_cons, List.cons_append, decodeBase58Loop, base58Position_char (h d List.mem_cons_self)]
    exact decodeBase58Loop_digits s (n := n * 58 + d) fun e he => h e (List.mem_cons_of_mem _ he)

theorem decodeBase58Loop_spaces (h : ∀ c ∈ after, isspace c = true) : decodeBase58Loop bn after = some bn := by
  cases after with
  | nil => rfl
  | cons c after =>
    rw [decodeBase58Loop, base58Position_space (h c List.mem_cons_self)]
    exact if_pos (List.dropWhile_eq_nil_iff.mpr h)

theorem leadingZeros_chars (hafter : ∀ c ∈ after, isspace c = true) : ∀ {ds : List Nat}, (∀ d ∈ ds, d < 58) →
    ((ds.map base58Char ++ after).takeWhile (· = base58Char 0)).length = leadingZeros ds
  | [], _ => by
    cases after with
    | nil => rfl
    | cons c after =>
      have hc : c ≠ base58Char 0 := by
        rintro rfl
        exact absurd (hafter _ List.mem_cons_self) (by decide)
      rw [List.map_nil, List.nil_append, List.takeWhile_cons, if_neg (by simpa using hc)]
      rfl
  | d :: ds, h => by
    have ih := leadingZeros_chars hafter fun e he => h e (List.mem_cons_of_mem _ he)
    unfold leadingZeros at ih ⊢
    rw [List.map_cons, List.cons_append, List.takeWhile_cons, List.takeWhile_cons]
    by_cases hd : d = 0
    · rw [if_pos (by simp [hd]), if_pos (by simp [hd]), List.length_cons, List.length_cons, ih]
    · rw [if_neg (by simpa [base58Char_eq_zero (h d List.mem_cons_self)] using hd), if_neg (by simpa using hd)]
      rfl

/-- Spaces and digits: what is left of a text once the spaces in front are skipped. -/
theorem dropWhile_digits (hbefore : ∀ c ∈ before, isspace c = true) (hds : ∀ d ∈ ds, d < 58)
    (hafter : ∀ c ∈ after, isspace c = true) :
    (before ++ (ds.map base58Char ++ after)).dropWhile isspace =
      ds.map base58Char ++ (if ds = [] then [] else after) := by
  cases ds with
  | nil =>
    rw [if_pos rfl, List.map_nil, List.nil_append, List.nil_append]
    exact List.dropWhile_eq_nil_iff.mpr fun c hc => (List.mem_append.mp hc).elim (hbefore c) (hafter c)
  | cons d ds =>
    rw [if_neg (List.cons_ne_nil _ _), dropWhile_append_stop hbefore]
    exact stops_cons (isspace_base58Char (hds d List.mem_cons_self))

/-- **Decoding changes the base back**, and spaces around the text do not count. -/
theorem decodeBase58_eq (hbefore : ∀ c ∈ before, isspace c = true) (hds : ∀ d ∈ ds, d < 58)
    (hafter : ∀ c ∈ after, isspace c = true) :
    decodeBase58 (before ++ (ds.map base58Char ++ after)) = some ((changeBase 58 256 ds).map UInt8.ofNat) := by
  have hrest : ∀ c ∈ (if ds = [] then [] else after), isspace c = true := by
    split
    · exact List.forall_mem_nil _
    · exact hafter
  unfold decodeBase58 changeBase spell
  dsimp only
  rw [dropWhile_digits hbefore hds hafter, show (0 : Int) = (0 : Nat) from rfl, decodeBase58Loop_digits _ hds,
    decodeBase58Loop_spaces hrest, Option.map_some, leadingZeros_chars hrest hds, trimSign_bigNumVch,
    natBytes_eq_digits, ← value_eq_foldl, List.map_append, List.map_replicate, List.map_reverse]
  rfl

/-- What is decoded are digits, and then spaces. -/
theorem decodeBase58Loop_some {m : Int} : ∀ {s : List Char} {bn : Int}, decodeBase58Loop bn s = some m →
    ∃ (ds : List Nat) (after : List Char), s = ds.map base58Char ++ after ∧ (∀ d ∈ ds, d < 58) ∧ ∀ c ∈ after,
      isspace c = true
  | [], _, _ => ⟨[], [], rfl, List.forall_mem_nil _, List.forall_mem_nil _⟩
  | c :: s, bn, h => by
    rw [decodeBase58Loop] at h
    cases hp : base58Position c with
    | none =>
      rw [hp] at h
      dsimp only at h
      split at h
      · rename_i hspaces
        exact ⟨[], c :: s, rfl, List.forall_mem_nil _, List.dropWhile_eq_nil_iff.mp hspaces⟩
      · exact nomatch h
    | some i =>
      rw [hp] at h
      obtain ⟨hi, rfl⟩ := base58Char_position hp
      obtain ⟨ds, after, rfl, hds, hafter⟩ := decodeBase58Loop_some h
      exact ⟨i :: ds, after, rfl, List.forall_mem_cons.mpr ⟨hi, hds⟩, hafter⟩

/-- **Which texts are decoded to given bytes**: what is encoded of them, with spaces around it. -/
theorem decodeBase58_iff {v : Bytes} : decodeBase58 s = some v ↔ ∃ before after, (∀ c ∈ before, isspace c = true) ∧
    (∀ c ∈ after, isspace c = true) ∧ s = before ++ (encodeBase58 v ++ after) := by
  constructor
  · intro h
    obtain ⟨m, hloop, -⟩ := Option.map_eq_some_iff.mp h
    obtain ⟨ds, after, hs, hds, hafter⟩ := decodeBase58Loop_some hloop
    have hsplit : s = s.takeWhile isspace ++ (ds.map base58Char ++ after) := by
      rw [← hs, List.takeWhile_append_dropWhile]
    have hbefore : ∀ c ∈ s.takeWhile isspace, isspace c = true := fun _ => List.mem_takeWhile_imp
    rw [hsplit, decodeBase58_eq hbefore hds hafter] at h
    have hback : ((changeBase 58 256 ds).map UInt8.ofNat).map UInt8.toNat = changeBase 58 256 ds := by
      rw [List.map_map]
      conv_rhs => rw [← List.map_id (changeBase 58 256 ds)]
      refine List.map_congr_left fun d hd => ?_
      rw [Function.comp_apply, UInt8.toNat_ofNat', Nat.mod_eq_of_lt (changeBase_lt (by decide) d hd)]
      rfl
    refine ⟨s.takeWhile isspace, after, hbefore, hafter, ?_⟩
    rw [← Option.some.inj h, encodeBase58_eq, hback, changeBase_changeBase (by decide) hds]
    exact hsplit
  · rintro ⟨before, after, hbefore, hafter, rfl⟩
    have hback : ((v.map UInt8.toNat).map UInt8.ofNat) = v := by
      rw [List.map_map]
      conv_rhs => rw [← List.map_id v]
      exact List.map_congr_left fun b _ => UInt8.ofNat_toNat
    rw [encodeBase58_eq, decodeBase58_eq hbefore (changeBase_lt (by decide)) hafter,
      changeBase_changeBase (by decide) bytes_lt, hback]

end Translation

/-- **Base58**: what is encoded is decoded, what is decoded of a text without spaces is encoded to it, and in general
bytes have exactly one spelling up to spaces around it. -/
theorem base58_law :
    (∀ vch : Bytes, decodeBase58 (encodeBase58 vch) = some vch) ∧
    (∀ (s : List Char) (vch : Bytes), (∀ c ∈ s, isspace c = false) → decodeBase58 s = some vch →
      encodeBase58 vch = s) ∧
    ∀ (s : List Char) (vch : Bytes), decodeBase58 s = some vch ↔ ∃ before after, (∀ c ∈ before, isspace c = true) ∧
      (∀ c ∈ after, isspace c = true) ∧ s = before ++ (encodeBase58 vch ++ after) := by
  refine ⟨fun vch => ?_, fun s vch hs h => ?_, fun s vch => decodeBase58_iff⟩
  · exact decodeBase58_iff.mpr ⟨[], [], List.forall_mem_nil _, List.forall_mem_nil _, by simp⟩
  · obtain ⟨before, after, hbefore, hafter, rfl⟩ := decodeBase58_iff.mp h
    have hnil : ∀ {l : List Char}, (∀ c ∈ l, isspace c = true) → (∀ c ∈ l, isspace c = false) → l = [] := by
      intro l htrue hfalse
      cases l with
      | nil => rfl
      | cons c l =>
        have hc := htrue c List.mem_cons_self
        rw [hfalse c List.mem_cons_self] at hc
        exact nomatch hc
    have hb := hnil hbefore fun c hc => hs c (List.mem_append_left _ hc)
    have ha := hnil hafter fun c hc => hs c (List.mem_append_right _ (List.mem_append_right _ hc))
    rw [hb, ha, List.nil_append, List.append_nil]

theorem base58_law_sample : encodeBase58 [0, 0, 1, 2, 200] = ['1', '1', 'L', 'h', 'D'] := by
  have hspace : ['1', '1', 'L', 'h', 'D'].all (fun c => !isspace c) = true := by decide +kernel
  refine base58_law.2.1 ['1', '1', 'L', 'h', 'D'] [0, 0, 1, 2, 200] (fun c hc => ?_) ?_
  · simpa using List.all_eq_true.mp hspace c hc
  · rw [decodeBase58_iff]
    refine ⟨[], [], List.forall_mem_nil _, List.forall_mem_nil _, ?_⟩
    rw [encodeBase58_eq]
    decide +kernel

end Morcochain
