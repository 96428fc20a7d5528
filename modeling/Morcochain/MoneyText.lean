import Morcochain.Vote
import Morcochain.Lib.Scan

/-!
# Amounts as text

`FormatMoney` and `ParseMoney` (`util.cpp`). A text is a list of characters; a C string ends where the list does, and
the text of a `std::string` is cut at its first null character when it is taken as one.

* `parseMoneyPsz_eq` : what is read of any text, and that no operation overflows.
* `parseMoneyPsz_iff` : **which texts are accepted**, with the value they denote.
* `formatMoney_spec` : **what is printed** of an amount.
-/

set_option autoImplicit false

namespace Morcochain

open Scan

/-! ## Characters -/

/-- `isspace`, in the C locale. -/
def isspace (c : Char) : Bool := c = ' ' ∨ 9 ≤ c.toNat ∧ c.toNat ≤ 13

/-- The C string of a `std::string` (`c_str`). -/
def cStr (str : List Char) : List Char := str.takeWhile (· ≠ '\x00')

/-- The digits of a text as a number. -/
abbrev numberOf (digits : List Char) : Nat := Nat.ofDigitChars 10 digits 0

/-! ## Printing -/

/-- A number printed with `%lld`, or with `%04lld` where the width is 4. -/
def printInt (width : Nat) (n : Int) : List Char :=
  let sign := if n < 0 then ['-'] else []
  let digits := Nat.toDigits 10 n.natAbs
  sign ++ List.replicate (width - sign.length - digits.length) '0' ++ digits

/-- The trimming loop of `FormatMoney` from index `i` on, which reads two places before its index. It fails where it
reads before the text. -/
def trimCount (str : List Char) : Nat → Option Nat
  | i + 2 =>
    if str[i + 2]? = some '0' then
      if (str[i]?).any Char.isDigit then (trimCount str (i + 1)).map (· + 1) else some 0
    else some 0
  | i => if str[i]? = some '0' then none else some 0

/-- `FormatMoney`. -/
def formatMoney (n : Int) (fPlus : Bool) : Option (List Char) := do
  -- the negation of the least number wraps
  let nAbs := if n > 0 then n else toInt64 (-n)
  let quotient := Int.tdiv nAbs coin
  let remainder := Int.tmod nAbs coin
  let str := printInt 0 quotient ++ '.' :: printInt 4 remainder
  let nTrim ← trimCount str (str.length - 1)
  let str := str.take (str.length - nTrim)
  return if n < 0 then '-' :: str else if fPlus ∧ n > 0 then '+' :: str else str

/-! ## Parsing -/

/-- The result of an operation on `int64` values, unless it overflows. -/
def int64Op (x : Int) : Option Int := if -2 ^ 63 ≤ x ∧ x < 2 ^ 63 then some x else none

/-- `atoi64`, of a text that starts with a digit or is empty. -/
def atoi64 (str : List Char) : Int := min (numberOf (str.takeWhile Char.isDigit)) (2 ^ 63 - 1)

/-- The loop of `ParseMoney` behind the point. -/
def parseUnits (nMult nUnits : Int) : List Char → Option (Int × List Char)
  | [] => some (nUnits, [])
  | c :: p =>
    if c.isDigit ∧ nMult > 0 then
      (int64Op (nMult * (c.toNat - '0'.toNat : Nat))).bind fun product =>
        (int64Op (nUnits + product)).bind fun nUnits => parseUnits (Int.tdiv nMult 10) nUnits p
    else some (nUnits, c :: p)

/-- The first loop of `ParseMoney`: the digits before the point, the units behind it, and what follows; `some none`
where it returns false. -/
def parseWhole (strWhole : List Char) : List Char → Option (Option (List Char × Int × List Char))
  | [] => some (some (strWhole, 0, []))
  | c :: p =>
    if c = '.' then (parseUnits (cent * 10) 0 p).map fun (nUnits, p) => some (strWhole, nUnits, p)
    else if isspace c then some (some (strWhole, 0, c :: p))
    else if !c.isDigit then some none
    else parseWhole (strWhole ++ [c]) p

/-- What `ParseMoney` does after its loops. -/
def finishMoney (strWhole : List Char) (nUnits : Int) (p : List Char) : Option (Option Int) :=
  if !p.all isspace then some none
  else if strWhole.length > 10 then some none
  else if nUnits < 0 ∨ nUnits > coin then some none
  else (int64Op (atoi64 strWhole * coin)).bind fun product => (int64Op (product + nUnits)).map some

/-- `ParseMoney`, of a C string: `none` where an operation overflows, and `some none` where it returns false. -/
def parseMoneyPsz (pszIn : List Char) : Option (Option Int) :=
  (parseWhole [] (pszIn.dropWhile isspace)).bind fun
    | none => some none
    | some (strWhole, nUnits, p) => finishMoney strWhole nUnits p

/-- `ParseMoney`, of a `std::string`. -/
def parseMoney (str : List Char) : Option (Option Int) := parseMoneyPsz (cStr str)

/-! ## Texts of amounts -/

/-- The text of an amount: spaces, at most ten digits, maybe a point with at most four decimals, and spaces. -/
structure MoneyText where
  before : List Char
  whole : List Char
  decimals : Option (List Char)
  after : List Char
  before_space : ∀ c ∈ before, isspace c = true
  whole_digit : ∀ c ∈ whole, c.isDigit = true
  whole_length : whole.length ≤ 10
  decimals_digit : ∀ d ∈ decimals, (∀ c ∈ d, c.isDigit = true) ∧ d.length ≤ 4
  after_space : ∀ c ∈ after, isspace c = true

/-- The decimals with their point. -/
def pointText : Option (List Char) → List Char
  | none => []
  | some d => '.' :: d

/-- The value of decimals, in units. -/
def unitsOf : Option (List Char) → Int
  | none => 0
  | some d => numberOf d * 10 ^ (4 - d.length)

namespace MoneyText

/-- The characters of the text. -/
def text (m : MoneyText) : List Char := m.before ++ (m.whole ++ (pointText m.decimals ++ m.after))

/-- The amount that the text denotes. -/
def value (m : MoneyText) : Int := numberOf m.whole * coin + unitsOf m.decimals

end MoneyText

/-! ## What is read -/

section Read

variable {c : Char} {p q rest whole : List Char}

theorem not_isspace_of_isDigit (h : c.isDigit = true) : isspace c = false := by
  simp only [Char.isDigit, Bool.and_eq_true, decide_eq_true_eq] at h
  have h48 : 48 ≤ c.toNat := UInt32.le_iff_toNat_le.mp h.1
  have hspace : c ≠ ' ' := by
    rintro rfl
    exact absurd h48 (by decide)
  unfold isspace
  rw [decide_eq_false]
  rintro (hc | hc)
  · exact hspace hc
  · omega

theorem ne_point_of_isDigit (h : c.isDigit = true) : c ≠ '.' := by
  rintro rfl
  exact absurd h (by decide)

/-- A digit is at most 9. -/
theorem digit_le (h : c.isDigit = true) : c.toNat - '0'.toNat ≤ 9 := by
  simp only [Char.isDigit, Bool.and_eq_true, decide_eq_true_eq] at h
  have h57 : c.toNat ≤ 57 := UInt32.le_iff_toNat_le.mp h.2
  have hzero : '0'.toNat = 48 := rfl
  omega

theorem numberOf_cons (c : Char) (d : List Char) :
    numberOf (c :: d) = (c.toNat - '0'.toNat) * 10 ^ d.length + numberOf d := by
  rw [numberOf, Nat.ofDigitChars_cons, Nat.mul_zero, Nat.zero_add, Nat.ofDigitChars_eq_ofDigitChars_zero, Nat.mul_comm]

/-- A number of `k` digits. -/
theorem numberOf_lt : ∀ {d : List Char}, (∀ c ∈ d, c.isDigit = true) → numberOf d < 10 ^ d.length
  | [], _ => Nat.one_pos
  | c :: d, h => by
    have hc := digit_le (h c List.mem_cons_self)
    have hd := numberOf_lt fun e he => h e (List.mem_cons_of_mem _ he)
    have hmul : (c.toNat - '0'.toNat) * 10 ^ d.length ≤ 9 * 10 ^ d.length := Nat.mul_le_mul_right _ hc
    rw [numberOf_cons, List.length_cons, Nat.pow_succ]
    omega

/-- The factor of a digit when `k` of them can still be read. -/
def multOf : Nat → Int
  | 0 => 0
  | k + 1 => 10 ^ k

theorem multOf_div (k : Nat) : Int.tdiv (multOf (k + 1)) 10 = multOf k := by
  cases k with
  | zero => rfl
  | succ k =>
    rw [multOf, multOf, Int.pow_succ]
    exact Int.mul_tdiv_cancel _ (by decide)

/-- The decimals that are read of a text: at most `k` digits at its front. -/
def decimalsOf (k : Nat) (p : List Char) : List Char := (p.takeWhile Char.isDigit).take k

theorem decimalsOf_digit (k : Nat) : ∀ c ∈ decimalsOf k p, c.isDigit = true :=
  fun _ hc => List.mem_takeWhile_imp (List.mem_of_mem_take hc)

theorem length_decimalsOf_le (k : Nat) (p : List Char) : (decimalsOf k p).length ≤ k := List.length_take_le _ _

theorem int64Op_of_bounds {x : Int} (h : -2 ^ 63 ≤ x) (h' : x < 2 ^ 63) : int64Op x = some x := if_pos ⟨h, h'⟩

/-- The loop behind the point: it reads as many digits as it has factors for, and nothing overflows. -/
theorem parseUnits_eq : ∀ {p : List Char} {k : Nat} {nUnits : Int}, 0 ≤ nUnits → nUnits + 10 ^ k ≤ 10 ^ 18 →
    parseUnits (multOf k) nUnits p =
      some (nUnits + numberOf (decimalsOf k p) * 10 ^ (k - (decimalsOf k p).length), p.drop (decimalsOf k p).length)
  | [], k, nUnits, _, _ => by
    have hnil : decimalsOf k [] = [] := List.take_nil
    rw [hnil, parseUnits]
    simp [numberOf]
  | c :: p, 0, nUnits, _, _ => by
    have hnil : decimalsOf 0 (c :: p) = [] := List.take_zero
    rw [hnil, parseUnits, if_neg fun h => absurd h.2 (by decide)]
    simp [numberOf]
  | c :: p, k + 1, nUnits, hpos, hbound => by
    by_cases hc : c.isDigit = true
    · have hdec : decimalsOf (k + 1) (c :: p) = c :: decimalsOf k p := by
        rw [decimalsOf, List.takeWhile_cons, hc]
        rfl
      have hdigit := digit_le hc
      have hlen := length_decimalsOf_le k p
      have hk : (0 : Int) < 10 ^ k := Int.pow_pos (by decide)
      have hproduct : (10 : Int) ^ k * (c.toNat - '0'.toNat : Nat) ≤ 10 ^ k * 9 :=
        Int.mul_le_mul_of_nonneg_left (by exact_mod_cast hdigit) (Int.le_of_lt hk)
      have hproduct0 : (0 : Int) ≤ 10 ^ k * (c.toNat - '0'.toNat : Nat) :=
        Int.mul_nonneg (Int.le_of_lt hk) (Int.natCast_nonneg _)
      have hsplit : (10 : Int) ^ k = 10 ^ (decimalsOf k p).length * 10 ^ (k - (decimalsOf k p).length) := by
        rw [← Int.pow_add, Nat.add_sub_cancel' hlen]
      rw [Int.pow_succ] at hbound
      rw [parseUnits, if_pos ⟨hc, hk⟩, multOf, int64Op_of_bounds (by omega) (by omega), Option.bind_some,
        int64Op_of_bounds (by omega) (by omega), Option.bind_some, show (10 : Int) ^ k = multOf (k + 1) from rfl,
        multOf_div, parseUnits_eq (by rw [multOf]; omega) (by rw [multOf]; omega), hdec, numberOf_cons,
        List.length_cons, List.drop_succ_cons, Nat.add_sub_add_right, multOf]
      congr 2
      push_cast
      rw [Int.add_mul, Int.mul_assoc, ← hsplit, Int.mul_comm, Int.add_assoc]
    · have hnil : decimalsOf (k + 1) (c :: p) = [] := by
        rw [decimalsOf, List.takeWhile_cons, if_neg hc]
        rfl
      rw [hnil, parseUnits, if_neg fun h => hc h.1]
      simp [numberOf]

/-- The first loop on digits. -/
theorem parseWhole_digits : ∀ {whole strWhole : List Char}, (∀ c ∈ whole, c.isDigit = true) →
    parseWhole strWhole (whole ++ rest) = parseWhole (strWhole ++ whole) rest
  | [], strWhole, _ => by rw [List.nil_append, List.append_nil]
  | c :: whole, strWhole, h => by
    have hc := h c List.mem_cons_self
    rw [List.cons_append, parseWhole, if_neg (ne_point_of_isDigit hc),
      if_neg (by rw [not_isspace_of_isDigit hc]; decide),
      if_neg (by rw [hc]; decide), parseWhole_digits fun d hd => h d (List.mem_cons_of_mem _ hd), List.append_assoc]
    rfl

/-- What follows the digits before the point, as the parser reads it: the units, and what must be spaces. -/
def readPoint : List Char → Int × List Char
  | '.' :: q => (numberOf (decimalsOf 4 q) * 10 ^ (4 - (decimalsOf 4 q).length), q.drop (decimalsOf 4 q).length)
  | rest => (0, rest)

/-- The units are below a coin. -/
theorem readPoint_bounds (rest : List Char) : 0 ≤ (readPoint rest).1 ∧ (readPoint rest).1 < coin := by
  unfold readPoint
  split
  · rename_i q
    have hlen := length_decimalsOf_le 4 q
    have hlt := numberOf_lt (@decimalsOf_digit q 4)
    have hpow : 10 ^ (decimalsOf 4 q).length * 10 ^ (4 - (decimalsOf 4 q).length) = 10 ^ 4 := by
      rw [← Nat.pow_add, Nat.add_sub_cancel' hlen]
    have hmul := Nat.mul_lt_mul_of_pos_right hlt (Nat.pow_pos (n := 4 - (decimalsOf 4 q).length) (by decide : 0 < 10))
    rw [hpow] at hmul
    have hcast := Int.ofNat_lt.mpr hmul
    rw [Int.natCast_mul, Int.natCast_pow] at hcast
    exact ⟨Int.mul_nonneg (Int.natCast_nonneg _) (Int.pow_nonneg (by decide)), hcast⟩
  · exact ⟨Int.le_refl 0, (by decide : (0 : Int) < coin)⟩

/-- The end of the parser, when the units are below a coin: nothing overflows. -/
theorem finishMoney_eq {nUnits : Int} (hw : ∀ c ∈ whole, c.isDigit = true) (hpos : 0 ≤ nUnits) (hlt : nUnits < coin) :
    finishMoney whole nUnits p =
      some (if p.all isspace ∧ whole.length ≤ 10 then some (numberOf whole * coin + nUnits) else none) := by
  unfold finishMoney
  by_cases hp : p.all isspace = true
  · by_cases hlen : whole.length ≤ 10
    · have hnumber := numberOf_lt hw
      have hten : 10 ^ whole.length ≤ 10 ^ 10 := Nat.pow_le_pow_right (by decide) hlen
      have hall : whole.takeWhile Char.isDigit = whole := by
        simpa using takeWhile_append_stop (m := []) hw stops_nil
      have hatoi : atoi64 whole = numberOf whole := by
        rw [atoi64, hall]
        omega
      unfold coin at hlt ⊢
      rw [if_neg (by rw [hp]; decide), if_neg (by omega), if_neg (by omega), hatoi,
        int64Op_of_bounds (by omega) (by omega), Option.bind_some, int64Op_of_bounds (by omega) (by omega),
        if_pos ⟨hp, hlen⟩]
      rfl
    · rw [if_neg (by rw [hp]; decide), if_pos (by omega), if_neg fun h => hlen h.2]
  · rw [if_pos (by simpa using hp), if_neg fun h => hp h.1]

/-- **What is read** of spaces, digits and what follows: no operation overflows. -/
theorem parseMoneyPsz_eq {before : List Char} (hb : ∀ c ∈ before, isspace c = true)
    (hw : ∀ c ∈ whole, c.isDigit = true) (hstop : Stops isspace (whole ++ rest)) (hrest : Stops Char.isDigit rest) :
    parseMoneyPsz (before ++ (whole ++ rest)) =
      some (if (readPoint rest).2.all isspace ∧ whole.length ≤ 10 then
        some (numberOf whole * coin + (readPoint rest).1) else none) := by
  obtain ⟨hpos, hlt⟩ := readPoint_bounds rest
  have hfinish := fun p => @finishMoney_eq p whole (readPoint rest).1 hw hpos hlt
  rw [parseMoneyPsz, dropWhile_append_stop hb hstop, parseWhole_digits hw, List.nil_append]
  cases rest with
  | nil => exact hfinish []
  | cons c rest =>
    have hc : c.isDigit = false := hrest c rfl
    by_cases hpoint : c = '.'
    · subst hpoint
      rw [parseWhole, if_pos rfl, show cent * 10 = multOf 4 from rfl, parseUnits_eq (Int.le_refl 0) (by decide),
        Int.zero_add]
      exact hfinish _
    · have hread : readPoint (c :: rest) = (0, c :: rest) := by
        unfold readPoint
        split
        · rename_i heq
          exact absurd (List.cons.inj heq).1 hpoint
        · rfl
      rw [parseWhole, if_neg hpoint]
      rw [hread] at hfinish ⊢
      by_cases hspace : isspace c = true
      · rw [if_pos hspace]
        exact hfinish _
      · have hall : ¬ (List.all (c :: rest) isspace = true ∧ whole.length ≤ 10) := by
          rintro ⟨h, -⟩
          exact hspace (List.all_eq_true.mp h c List.mem_cons_self)
        rw [if_neg hspace, if_pos (by rw [hc]; rfl), if_neg hall]
        rfl

end Read

/-! ## The accepted texts -/

section Accepted

/-- How the parser takes a text apart. -/
theorem exists_split (s : List Char) : ∃ before whole rest, s = before ++ (whole ++ rest) ∧
    (∀ c ∈ before, isspace c = true) ∧ (∀ c ∈ whole, c.isDigit = true) ∧ Stops isspace (whole ++ rest) ∧
    Stops Char.isDigit rest := by
  have hp : (s.dropWhile isspace).takeWhile Char.isDigit ++ (s.dropWhile isspace).dropWhile Char.isDigit =
      s.dropWhile isspace := List.takeWhile_append_dropWhile
  refine ⟨s.takeWhile isspace, (s.dropWhile isspace).takeWhile Char.isDigit,
    (s.dropWhile isspace).dropWhile Char.isDigit, ?_, fun _ => List.mem_takeWhile_imp, fun _ => List.mem_takeWhile_imp,
    ?_, stops_dropWhile⟩
  · rw [hp, List.takeWhile_append_dropWhile]
  · rw [hp]
    exact stops_dropWhile

/-- No operation of `ParseMoney` overflows. -/
theorem parseMoneyPsz_ne_none (s : List Char) : parseMoneyPsz s ≠ none := by
  obtain ⟨before, whole, rest, rfl, hb, hw, hstop, hrest⟩ := exists_split s
  rw [parseMoneyPsz_eq hb hw hstop hrest]
  exact Option.some_ne_none _

theorem decimalsOf_append_drop (q : List Char) : decimalsOf 4 q ++ q.drop (decimalsOf 4 q).length = q := by
  have hprefix : decimalsOf 4 q <+: q := (List.take_prefix 4 _).trans (List.takeWhile_prefix _)
  exact List.prefix_iff_eq_append.mp hprefix

variable {m : MoneyText}

theorem not_isDigit_of_isspace {c : Char} (h : isspace c = true) : c.isDigit = false := by
  cases hc : c.isDigit with
  | false => rfl
  | true =>
    rw [not_isspace_of_isDigit hc] at h
    exact nomatch h

/-- Spaces are not read as a point. -/
theorem readPoint_spaces {after : List Char} (h : ∀ c ∈ after, isspace c = true) : readPoint after = (0, after) := by
  unfold readPoint
  split
  · exact absurd (h '.' List.mem_cons_self) (by decide)
  · rfl

/-- What the parser reads behind the digits of a text. -/
theorem MoneyText.readPoint_eq (m : MoneyText) :
    readPoint (pointText m.decimals ++ m.after) = (unitsOf m.decimals, m.after) := by
  have hdecimals := m.decimals_digit
  cases hd : m.decimals with
  | none => exact readPoint_spaces m.after_space
  | some d =>
    obtain ⟨hdigit, hlen⟩ := hdecimals d hd
    have hstop : Stops Char.isDigit m.after := fun c hc =>
      not_isDigit_of_isspace (m.after_space c (List.mem_of_mem_head? hc))
    have hread : decimalsOf 4 (d ++ m.after) = d := by
      rw [decimalsOf, takeWhile_append_stop hdigit hstop, List.take_of_length_le hlen]
    rw [pointText, List.cons_append, readPoint, hread, List.drop_left]
    rfl

/-- **A text of an amount is accepted**, with its value. -/
theorem MoneyText.parse (m : MoneyText) : parseMoneyPsz m.text = some (some m.value) := by
  have hafter : m.after.all isspace = true := List.all_eq_true.mpr m.after_space
  by_cases hempty : m.whole = [] ∧ m.decimals = none
  · have htext : m.text = (m.before ++ m.after) ++ ([] ++ []) := by
      rw [MoneyText.text, hempty.1, hempty.2, pointText, List.nil_append, List.nil_append, List.nil_append,
        List.append_nil]
    have hspaces : ∀ c ∈ m.before ++ m.after, isspace c = true := fun c hc =>
      (List.mem_append.mp hc).elim (m.before_space c) (m.after_space c)
    rw [htext, parseMoneyPsz_eq hspaces (List.forall_mem_nil _) stops_nil stops_nil, if_pos ⟨rfl, Nat.zero_le _⟩,
      MoneyText.value, hempty.1, hempty.2]
    rfl
  · have hrest : Stops Char.isDigit (pointText m.decimals ++ m.after) := by
      cases hd : m.decimals with
      | none => exact fun c hc => not_isDigit_of_isspace (m.after_space c (List.mem_of_mem_head? hc))
      | some d => exact stops_cons (by decide)
    have hstop : Stops isspace (m.whole ++ (pointText m.decimals ++ m.after)) := by
      cases hw : m.whole with
      | cons c whole =>
        exact stops_cons (not_isspace_of_isDigit (m.whole_digit c (by rw [hw]; exact List.mem_cons_self)))
      | nil =>
        cases hd : m.decimals with
        | none => exact absurd ⟨hw, hd⟩ hempty
        | some d => exact stops_cons (by decide)
    rw [MoneyText.text, parseMoneyPsz_eq m.before_space m.whole_digit hstop hrest, m.readPoint_eq,
      if_pos ⟨hafter, m.whole_length⟩]
    rfl

/-- **Which texts are accepted**, with the value they denote. -/
theorem parseMoneyPsz_iff {s : List Char} {v : Int} :
    parseMoneyPsz s = some (some v) ↔ ∃ m : MoneyText, m.text = s ∧ m.value = v := by
  constructor
  · intro h
    obtain ⟨before, whole, rest, rfl, hb, hw, hstop, hrest⟩ := exists_split s
    rw [parseMoneyPsz_eq hb hw hstop hrest] at h
    split at h
    · rename_i hc
      have hv := Option.some.inj (Option.some.inj h)
      have hspaces := List.all_eq_true.mp hc.1
      cases rest with
      | nil =>
        exact ⟨⟨before, whole, none, [], hb, hw, hc.2, (fun _ hd => nomatch hd), List.forall_mem_nil _⟩, rfl, hv⟩
      | cons c q =>
        by_cases hpoint : c = '.'
        · subst hpoint
          refine ⟨⟨before, whole, some (decimalsOf 4 q), q.drop (decimalsOf 4 q).length, hb, hw, hc.2, ?_, hspaces⟩,
            ?_, hv⟩
          · intro d hd
            cases hd
            exact ⟨decimalsOf_digit 4, length_decimalsOf_le 4 q⟩
          · rw [MoneyText.text, pointText, List.cons_append, decimalsOf_append_drop]
        · have hread : readPoint (c :: q) = (0, c :: q) := by
            unfold readPoint
            split
            · rename_i heq
              exact absurd (List.cons.inj heq).1 hpoint
            · rfl
          rw [hread] at hspaces hv
          exact ⟨⟨before, whole, none, c :: q, hb, hw, hc.2, (fun _ hd => nomatch hd), hspaces⟩, rfl, hv⟩
    · exact nomatch Option.some.inj h
  · rintro ⟨m, rfl, rfl⟩
    exact m.parse

/-- The text of an amount has no null character. -/
theorem MoneyText.cStr_text (m : MoneyText) : cStr m.text = m.text := by
  have hspace : ∀ {c : Char}, isspace c = true → c ≠ '\x00' := by
    rintro c hc rfl
    exact absurd hc (by decide)
  have hdigit : ∀ {c : Char}, c.isDigit = true → c ≠ '\x00' := by
    rintro c hc rfl
    exact absurd hc (by decide)
  have hpoint : ∀ c ∈ pointText m.decimals, c ≠ '\x00' := by
    have hdecimals := m.decimals_digit
    cases hd : m.decimals with
    | none => exact List.forall_mem_nil _
    | some d => exact List.forall_mem_cons.mpr ⟨by decide, fun c hc => hdigit ((hdecimals d hd).1 c hc)⟩
  have hall : ∀ c ∈ m.text, decide (c ≠ '\x00') = true := by
    intro c hc
    rw [decide_eq_true_eq]
    rcases List.mem_append.mp hc with hc | hc
    · exact hspace (m.before_space c hc)
    rcases List.mem_append.mp hc with hc | hc
    · exact hdigit (m.whole_digit c hc)
    rcases List.mem_append.mp hc with hc | hc
    · exact hpoint c hc
    · exact hspace (m.after_space c hc)
  have htake := takeWhile_append_stop (m := []) hall stops_nil
  rwa [List.append_nil] at htake

end Accepted

/-! ## What is printed -/

section Printed

variable {n : Int} {fPlus : Bool}

/-- The four digits behind the point. -/
theorem printInt_four {r : Int} (h : 0 ≤ r) (hlt : r < 10000) : ∃ a b c d, printInt 4 r = [a, b, c, d] ∧
    (∀ x ∈ [a, b, c, d], x.isDigit = true) ∧ (numberOf [a, b, c, d] : Int) = r := by
  have hlen : (Nat.toDigits 10 r.natAbs).length ≤ 4 :=
    (Nat.length_toDigits_le_iff (by decide) (by decide)).mpr (by omega)
  have hprint : printInt 4 r =
      List.replicate (4 - (Nat.toDigits 10 r.natAbs).length) '0' ++ Nat.toDigits 10 r.natAbs := by
    unfold printInt
    dsimp only
    rw [if_neg (by omega), List.nil_append, List.length_nil, Nat.sub_zero]
  have hdigits : ∀ x ∈ printInt 4 r, x.isDigit = true := by
    intro x hx
    rw [hprint] at hx
    rcases List.mem_append.mp hx with hx | hx
    · rw [List.eq_of_mem_replicate hx]
      decide
    · exact Nat.isDigit_of_mem_toDigits (by decide) (by decide) hx
  have hnumber : numberOf (printInt 4 r) = r.natAbs := by
    rw [hprint, numberOf, Nat.ofDigitChars_append, Nat.ofDigitChars_replicate_zero, Nat.mul_zero,
      Nat.ofDigitChars_ten_toDigits]
  have hfour : (printInt 4 r).length = 4 := by
    rw [hprint, List.length_append, List.length_replicate]
    omega
  obtain ⟨a, b, c, d, habcd⟩ := List.length_eq_four.mp hfour
  rw [habcd] at hdigits hnumber
  refine ⟨a, b, c, d, habcd, hdigits, ?_⟩
  rw [hnumber]
  omega

/-- The trimming loop takes at most two zeros off, and never reads before the text. -/
theorem trimCount_eq {w : List Char} {a b c d : Char} (hdigit : ∀ x ∈ [a, b, c, d], x.isDigit = true) :
    trimCount (w ++ '.' :: [a, b, c, d]) (w.length + 4) =
      some (if d = '0' then if c = '0' then 2 else 1 else 0) := by
  have hget : ∀ i, (w ++ '.' :: [a, b, c, d])[w.length + i]? = ['.', a, b, c, d][i]? := by
    intro i
    rw [List.getElem?_append_right (Nat.le_add_right ..), Nat.add_sub_cancel_left]
  have h₀ := hget 0
  have h₁ := hget 1
  have h₂ := hget 2
  have h₃ := hget 3
  have h₄ := hget 4
  have ha : (some a).any Char.isDigit = true := hdigit a (by simp)
  have hb : (some b).any Char.isDigit = true := hdigit b (by simp)
  rw [trimCount, h₄]
  by_cases hd : d = '0'
  · rw [if_pos (by simp [hd]), h₂, if_pos (by simpa using hb), trimCount, h₃, if_pos hd]
    by_cases hc : c = '0'
    · rw [if_pos (by simp [hc]), h₁, if_pos (by simpa using ha), trimCount, h₂, if_pos hc]
      by_cases hb' : b = '0'
      · rw [if_pos (by simp [hb']), show w.length = w.length + 0 from rfl, h₀,
          if_neg (by simp)]
        rfl
      · rw [if_neg (by simpa using hb')]
        rfl
    · rw [if_neg (by simpa using hc), if_neg hc]
      rfl
  · rw [if_neg (by simpa using hd), if_neg hd]

/-- The decimals that are left stand for the same units. -/
theorem exists_decimals {a b c d : Char} (hdigit : ∀ x ∈ [a, b, c, d], x.isDigit = true) (w : List Char) :
    ∃ nTrim decimals, trimCount (w ++ '.' :: [a, b, c, d]) (w.length + 4) = some nTrim ∧
      (w ++ '.' :: [a, b, c, d]).take (w.length + 5 - nTrim) = w ++ '.' :: decimals ∧
      (∀ x ∈ decimals, x.isDigit = true) ∧ 2 ≤ decimals.length ∧ decimals.length ≤ 4 ∧
      unitsOf (some decimals) = numberOf [a, b, c, d] := by
  have htake : ∀ k ≤ 4, (w ++ '.' :: [a, b, c, d]).take (w.length + 5 - (4 - k)) = w ++ '.' :: [a, b, c, d].take k := by
    intro k hk
    rw [show w.length + 5 - (4 - k) = w.length + (k + 1) by omega, List.take_length_add_append, List.take_succ_cons]
  have hsub : ∀ k, ∀ x ∈ [a, b, c, d].take k, x.isDigit = true := fun k x hx => hdigit x (List.mem_of_mem_take hx)
  rw [trimCount_eq hdigit]
  by_cases hd : d = '0'
  · by_cases hc : c = '0'
    · refine ⟨2, [a, b], by rw [if_pos hd, if_pos hc], htake 2 (by omega), hsub 2, Nat.le_refl 2, (by simp), ?_⟩
      have hnumber : numberOf [a, b, '0', '0'] = 10 ^ 2 * numberOf [a, b] := by
        rw [show [a, b, '0', '0'] = [a, b] ++ List.replicate 2 '0' from rfl, numberOf, Nat.ofDigitChars_append,
          Nat.ofDigitChars_replicate_zero]
      rw [hc, hd, hnumber, Int.natCast_mul, Int.mul_comm]
      rfl
    · refine ⟨1, [a, b, c], by rw [if_pos hd, if_neg hc], htake 3 (by omega), hsub 3, (by simp), (by simp), ?_⟩
      have hnumber : numberOf [a, b, c, '0'] = 10 ^ 1 * numberOf [a, b, c] := by
        rw [show [a, b, c, '0'] = [a, b, c] ++ List.replicate 1 '0' from rfl, numberOf, Nat.ofDigitChars_append,
          Nat.ofDigitChars_replicate_zero]
      rw [hd, hnumber, Int.natCast_mul, Int.mul_comm]
      rfl
  · refine ⟨0, [a, b, c, d], by rw [if_neg hd], htake 4 (by omega), hsub 4, (by simp), (by simp), ?_⟩
    exact Int.mul_one _

/-- The sign that is printed. -/
def signText (n : Int) (fPlus : Bool) : List Char :=
  if n < 0 then ['-'] else if fPlus ∧ n > 0 then ['+'] else []

/-- **What is printed** of an amount: its sign, the digits before the point, and two to four decimals. -/
theorem formatMoney_spec (fPlus : Bool) (hmin : -2 ^ 63 < n) (hmax : n < 2 ^ 63) : ∃ decimals,
    formatMoney n fPlus = some (signText n fPlus ++ (Nat.toDigits 10 (n.natAbs / 10000) ++ '.' :: decimals)) ∧
    (∀ x ∈ decimals, x.isDigit = true) ∧ 2 ≤ decimals.length ∧ decimals.length ≤ 4 ∧
    unitsOf (some decimals) = (n.natAbs % 10000 : Nat) := by
  have habs : (if n > 0 then n else toInt64 (-n)) = n.natAbs := by
    split
    · omega
    · rw [toInt64_eq (by omega) (by omega)]
      omega
  obtain ⟨a, b, c, d, hfour, hdigit, hnumber⟩ :=
    printInt_four (r := ((n.natAbs % 10000 : Nat) : Int)) (by omega) (by omega)
  obtain ⟨nTrim, decimals, htrim, htake, hdec, htwo, hle, hunits⟩ :=
    exists_decimals hdigit (Nat.toDigits 10 (n.natAbs / 10000))
  have hquotient : printInt 0 (Int.tdiv n.natAbs coin) = Nat.toDigits 10 (n.natAbs / 10000) := by
    have hdiv : Int.tdiv n.natAbs coin = ((n.natAbs / 10000 : Nat) : Int) := rfl
    rw [hdiv]
    unfold printInt
    dsimp only
    rw [if_neg (by omega), Int.natAbs_natCast, Nat.zero_sub, Nat.zero_sub]
    rfl
  have hremainder : printInt 4 (Int.tmod n.natAbs coin) = [a, b, c, d] := hfour
  refine ⟨decimals, ?_, hdec, htwo, hle, by rw [hunits, hnumber]⟩
  unfold formatMoney
  dsimp only
  rw [habs, hquotient, hremainder]
  have hlength : (Nat.toDigits 10 (n.natAbs / 10000) ++ '.' :: [a, b, c, d]).length =
      (Nat.toDigits 10 (n.natAbs / 10000)).length + 5 := by simp
  rw [hlength, Nat.add_succ_sub_one, htrim]
  simp only [Option.bind_eq_bind, Option.bind_some, Option.pure_def]
  rw [htake]
  unfold signText
  split
  · rfl
  · split <;> rfl

end Printed

/-- **Amounts as text**: what is printed of an amount is read as that amount, at least two decimals are printed, no
operation of the parser overflows, and it accepts exactly the texts of amounts, with their values. -/
theorem moneyText_law :
    (∀ n : Int, 0 ≤ n → n / coin < 10 ^ 10 → ∃ str, formatMoney n false = some str ∧
      parseMoney str = some (some n)) ∧
    (∀ (n : Int) (fPlus : Bool), -2 ^ 63 ≤ n → n < 2 ^ 63 → ∃ front decimals,
      formatMoney n fPlus = some (front ++ '.' :: decimals) ∧ 2 ≤ (decimals.filter Char.isDigit).length ∧
      (n ≠ -2 ^ 63 → (∀ x ∈ decimals, x.isDigit = true) ∧ '.' ∉ front)) ∧
    (∀ s, parseMoneyPsz s ≠ none ∧ parseMoney s ≠ none) ∧
    (∀ s v, parseMoneyPsz s = some (some v) ↔ ∃ m : MoneyText, m.text = s ∧ m.value = v) ∧
    ∀ s v, parseMoney s = some (some v) ↔ ∃ m : MoneyText, m.text = cStr s ∧ m.value = v := by
  refine ⟨fun n hn hlt => ?_, fun n fPlus hmin hmax => ?_,
    fun s => ⟨parseMoneyPsz_ne_none s, parseMoneyPsz_ne_none _⟩, fun s v => parseMoneyPsz_iff,
    fun s v => parseMoneyPsz_iff⟩
  · unfold coin at hlt
    obtain ⟨decimals, hformat, hdigit, -, hle, hunits⟩ :=
      formatMoney_spec (n := n) false (by omega) (by omega)
    have hsign : signText n false = [] := by
      rw [signText, if_neg (by omega), if_neg fun h => nomatch h.1]
    let m : MoneyText :=
      { before := [], whole := Nat.toDigits 10 (n.natAbs / 10000), decimals := some decimals, after := []
        before_space := List.forall_mem_nil _
        whole_digit := fun c hc => Nat.isDigit_of_mem_toDigits (by decide) (by decide) hc
        whole_length := (Nat.length_toDigits_le_iff (by decide) (by decide)).mpr (by omega)
        decimals_digit := fun d hd => by cases hd; exact ⟨hdigit, hle⟩
        after_space := List.forall_mem_nil _ }
    have hvalue : m.value = n := by
      change (numberOf (Nat.toDigits 10 (n.natAbs / 10000)) : Int) * coin + unitsOf (some decimals) = n
      rw [hunits, numberOf, Nat.ofDigitChars_ten_toDigits, coin]
      omega
    have htext : m.text = Nat.toDigits 10 (n.natAbs / 10000) ++ '.' :: decimals := by
      change [] ++ (Nat.toDigits 10 (n.natAbs / 10000) ++ ('.' :: decimals ++ [])) = _
      rw [List.append_nil, List.nil_append]
    refine ⟨_, hformat, ?_⟩
    rw [hsign, List.nil_append, ← htext, parseMoney, m.cStr_text, m.parse, hvalue]
  · by_cases hleast : n = -2 ^ 63
    · subst hleast
      refine ⟨"--922337203685477".toList, "-5808".toList, ?_, by decide, fun h => absurd rfl h⟩
      cases fPlus <;> decide +kernel
    · obtain ⟨decimals, hformat, hdigit, htwo, -, -⟩ := formatMoney_spec (n := n) fPlus (by omega) hmax
      refine ⟨signText n fPlus ++ Nat.toDigits 10 (n.natAbs / 10000), decimals, by rw [hformat, List.append_assoc], ?_,
        fun _ => ⟨hdigit, ?_⟩⟩
      · rwa [List.filter_eq_self.mpr hdigit]
      · intro hpoint
        rcases List.mem_append.mp hpoint with hpoint | hpoint
        · unfold signText at hpoint
          split at hpoint
          · exact absurd hpoint (by decide)
          · split at hpoint
            · exact absurd hpoint (by decide)
            · cases hpoint
        · exact absurd (Nat.isDigit_of_mem_toDigits (by decide) (by decide) hpoint) (by decide)

theorem moneyText_law_sample :
    (∃ str, formatMoney 12345600 false = some str ∧ parseMoney str = some (some 12345600)) ∧
    ∃ front decimals, formatMoney (-5) true = some (front ++ '.' :: decimals) ∧
      2 ≤ (decimals.filter Char.isDigit).length := by
  obtain ⟨front, decimals, hformat, htwo, -⟩ := moneyText_law.2.1 (-5) true (by decide) (by decide)
  exact ⟨moneyText_law.1 12345600 (by decide) (by decide), front, decimals, hformat, htwo⟩

end Morcochain
