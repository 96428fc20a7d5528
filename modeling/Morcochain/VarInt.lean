import Morcochain.Basic

/-!
# Variable-length integers

`WriteVarInt`, `ReadVarInt` and `GetSizeOfVarInt` of `serialize.h`, on values of any integer type.

* `size_writeVarInt` : an encoding has `getSizeOfVarInt` bytes.
* `readVarInt_writeVarInt` : reading gives back what was written.
* `eq_writeVarInt` : **every number has one encoding** within range.
* `writeVarInt_lt_iff` : **the bytewise order of encodings**, in terms of the numbers.
* `writeVarInt_mono_iff` : the numbers of an interval are encoded in order exactly when the interval stays within one
  length, or within the first two.
-/

set_option autoImplicit false

namespace Morcochain

/-! ## The encoding -/

/-- `GetSizeOfVarInt`. -/
def getSizeOfVarInt (n : Int) : Nat :=
  if n ≤ 0x7F then 1 else getSizeOfVarInt (n / 128 - 1) + 1
termination_by n.toNat
decreasing_by omega

/-- One byte of `tmp`: seven bits of `n`, with the high bit when another byte follows it in the output. -/
def varIntByte (len : Nat) (n : Int) : UInt8 :=
  UInt8.ofNat (n % 128).toNat ||| (if len = 0 then 0x00 else 0x80)

/-- The array `tmp` of `WriteVarInt`, from index `len` on. -/
def varIntTmp (len : Nat) (n : Int) : Bytes :=
  varIntByte len n :: if n ≤ 0x7F then [] else varIntTmp (len + 1) (n / 128 - 1)
termination_by n.toNat
decreasing_by omega

/-- `WriteVarInt`. A negative number is written as a single byte, as the comparison with `0x7F` is signed. -/
def writeVarInt (n : Int) : Bytes := (varIntTmp 0 n).reverse

/-- The loop of `ReadVarInt` for a type of `w` bits, with the value read so far. -/
def readVarIntLoop (w : Nat) (n : Nat) : Bytes → Option (Nat × Bytes)
  | [] => none
  | chData :: is =>
    let n := (n * 128 + chData.toNat % 128) % 2 ^ w
    if chData &&& 0x80 = 0 then some (n, is) else readVarIntLoop w ((n + 1) % 2 ^ w) is

/-- `ReadVarInt` for a type of `w` bits. -/
def readVarInt (w : Nat) (is : Bytes) : Option (Nat × Bytes) := readVarIntLoop w 0 is

/-! ## Bytes and lengths -/

/-- The number left for the bytes before the last one. -/
def varIntParent (n : Int) : Int := n / 128 - 1

theorem varIntParent_nonneg {n : Int} (h : ¬ n ≤ 0x7F) : 0 ≤ varIntParent n := by
  unfold varIntParent
  omega

theorem varIntParent_lt {n : Int} (h : 0 ≤ n) : varIntParent n < n := by
  unfold varIntParent
  omega

theorem varIntParent_mono {a b : Int} (h : a ≤ b) : varIntParent a ≤ varIntParent b := by
  unfold varIntParent
  omega

theorem varIntByte_zero (n : Int) : (varIntByte 0 n).toNat = (n % 128).toNat := by
  have h : (n % 128).toNat < 128 := by omega
  simp only [varIntByte, if_pos]
  rw [show (UInt8.ofNat (n % 128).toNat ||| 0x00) = UInt8.ofNat (n % 128).toNat by simp]
  rw [UInt8.toNat_ofNat']
  omega

theorem or_high (x : Fin 128) : (UInt8.ofNat x.val ||| 0x80).toNat = x.val + 128 := by
  revert x
  decide

theorem varIntByte_succ (len : Nat) (n : Int) : (varIntByte (len + 1) n).toNat = (n % 128).toNat + 128 := by
  have h : (n % 128).toNat < 128 := by omega
  rw [varIntByte, if_neg (Nat.succ_ne_zero len)]
  exact or_high ⟨_, h⟩

/-- The encoding without the last byte's stop mark: what stands in front of more bytes. -/
def varIntFront (n : Int) : Bytes := (varIntTmp 1 n).reverse

theorem varIntTmp_succ (len : Nat) (n : Int) : varIntTmp (len + 1) n = varIntTmp 1 n := by
  have hb : ∀ len, varIntByte (len + 1) n = varIntByte 1 n := by
    intro len
    simp [varIntByte]
  by_cases h : n ≤ 0x7F
  · rw [varIntTmp.eq_def (len + 1), varIntTmp.eq_def 1, if_pos h, if_pos h, hb]
  · rw [varIntTmp.eq_def (len + 1), varIntTmp.eq_def 1, if_neg h, if_neg h, hb, varIntTmp_succ (len + 1),
      varIntTmp_succ 1]
termination_by n.toNat
decreasing_by all_goals omega

theorem varIntFront_small {n : Int} (h : n ≤ 0x7F) : varIntFront n = [varIntByte 1 n] := by
  rw [varIntFront, varIntTmp, if_pos h]
  rfl

theorem varIntFront_large {n : Int} (h : ¬ n ≤ 0x7F) :
    varIntFront n = varIntFront (varIntParent n) ++ [varIntByte 1 n] := by
  rw [varIntFront, varIntTmp, if_neg h, List.reverse_cons, varIntTmp_succ]
  rfl

theorem writeVarInt_small {n : Int} (h : n ≤ 0x7F) : writeVarInt n = [varIntByte 0 n] := by
  rw [writeVarInt, varIntTmp, if_pos h]
  rfl

theorem writeVarInt_large {n : Int} (h : ¬ n ≤ 0x7F) :
    writeVarInt n = varIntFront (varIntParent n) ++ [varIntByte 0 n] := by
  rw [writeVarInt, varIntTmp, if_neg h, List.reverse_cons]
  rfl

theorem getSizeOfVarInt_small {n : Int} (h : n ≤ 0x7F) : getSizeOfVarInt n = 1 := by
  rw [getSizeOfVarInt, if_pos h]

theorem getSizeOfVarInt_large {n : Int} (h : ¬ n ≤ 0x7F) :
    getSizeOfVarInt n = getSizeOfVarInt (varIntParent n) + 1 := by
  rw [getSizeOfVarInt, if_neg h]
  rfl

theorem getSizeOfVarInt_pos (n : Int) : 0 < getSizeOfVarInt n := by
  rw [getSizeOfVarInt]
  split <;> omega

theorem size_varIntFront (n : Int) : (varIntFront n).length = getSizeOfVarInt n := by
  by_cases h : n ≤ 0x7F
  · rw [varIntFront_small h, getSizeOfVarInt_small h]
    rfl
  · rw [varIntFront_large h, getSizeOfVarInt_large h, List.length_append, size_varIntFront (varIntParent n)]
    rfl
termination_by n.toNat
decreasing_by
  have := varIntParent_lt (n := n) (by omega)
  omega

/-- An encoding has `getSizeOfVarInt` bytes. -/
theorem size_writeVarInt (n : Int) : (writeVarInt n).length = getSizeOfVarInt n := by
  by_cases h : n ≤ 0x7F
  · rw [writeVarInt_small h, getSizeOfVarInt_small h]
    rfl
  · rw [writeVarInt_large h, getSizeOfVarInt_large h, List.length_append, size_varIntFront]
    rfl

/-- A longer encoding is that of a greater number. -/
theorem getSizeOfVarInt_mono {a b : Int} (h : a ≤ b) : getSizeOfVarInt a ≤ getSizeOfVarInt b := by
  by_cases ha : a ≤ 0x7F
  · rw [getSizeOfVarInt_small ha]
    exact getSizeOfVarInt_pos b
  · have hb : ¬ b ≤ 0x7F := by omega
    rw [getSizeOfVarInt_large ha, getSizeOfVarInt_large hb]
    exact Nat.succ_le_succ (getSizeOfVarInt_mono (varIntParent_mono h))
termination_by a.toNat
decreasing_by
  have := varIntParent_lt (n := a) (by omega)
  omega

/-! ## Reading what was written -/

theorem and_high_eq_zero (b : UInt8) : b &&& 0x80 = 0 ↔ b.toNat < 128 := by
  have h : ∀ x : Fin 256, UInt8.ofNat x.val &&& 0x80 = 0 ↔ x.val < 128 := by decide +kernel
  have hb := h ⟨b.toNat, b.toNat_lt⟩
  rwa [UInt8.ofNat_toNat] at hb

/-- Reading the last byte of an encoding. -/
theorem readVarIntLoop_last {w n : Nat} {m : Int} (is : Bytes) (h : n * 128 + (m % 128).toNat < 2 ^ w) :
    readVarIntLoop w n (varIntByte 0 m :: is) = some (n * 128 + (m % 128).toNat, is) := by
  have hb := varIntByte_zero m
  have hz : varIntByte 0 m &&& 0x80 = 0 := by
    rw [and_high_eq_zero, hb]
    omega
  rw [readVarIntLoop, if_pos hz, hb]
  rw [Nat.mod_eq_of_lt (by omega : (m % 128).toNat < 128), Nat.mod_eq_of_lt h]

/-- Reading a byte that is not the last one of an encoding. -/
theorem readVarIntLoop_more {w n : Nat} {m : Int} (is : Bytes) (h : n * 128 + (m % 128).toNat + 1 < 2 ^ w) :
    readVarIntLoop w n (varIntByte 1 m :: is) = readVarIntLoop w (n * 128 + (m % 128).toNat + 1) is := by
  have hb := varIntByte_succ 0 m
  have hz : ¬ varIntByte 1 m &&& 0x80 = 0 := by
    rw [and_high_eq_zero, hb]
    omega
  have hlow : (varIntByte 1 m).toNat % 128 = (m % 128).toNat := by
    rw [hb]
    omega
  rw [readVarIntLoop, if_neg hz]
  simp only [hlow]
  rw [Nat.mod_eq_of_lt (by omega : n * 128 + (m % 128).toNat < 2 ^ w), Nat.mod_eq_of_lt h]

/-- Reading the front of an encoding leaves one more than the number it encodes. -/
theorem readVarIntLoop_front {w : Nat} {n : Int} (is : Bytes) (hn : 0 ≤ n) (h : n.toNat + 1 < 2 ^ w) :
    readVarIntLoop w 0 (varIntFront n ++ is) = readVarIntLoop w (n + 1).toNat is := by
  by_cases hs : n ≤ 0x7F
  · rw [varIntFront_small hs, List.singleton_append, readVarIntLoop_more]
    · congr 1
      omega
    · omega
  · have hp := varIntParent_nonneg hs
    rw [varIntFront_large hs, List.append_assoc, readVarIntLoop_front _ hp (by unfold varIntParent; omega),
      List.singleton_append, readVarIntLoop_more]
    · congr 1
      unfold varIntParent
      omega
    · unfold varIntParent
      omega
termination_by n.toNat
decreasing_by
  have := varIntParent_lt hn
  omega

/-- **Reading gives back what was written**, and consumes exactly the encoding. -/
theorem readVarInt_writeVarInt {w : Nat} {n : Int} (is : Bytes) (hn : 0 ≤ n) (h : n.toNat < 2 ^ w) :
    readVarInt w (writeVarInt n ++ is) = some (n.toNat, is) := by
  rw [readVarInt]
  by_cases hs : n ≤ 0x7F
  · rw [writeVarInt_small hs, List.singleton_append, readVarIntLoop_last]
    · congr 2
      omega
    · omega
  · have hp := varIntParent_nonneg hs
    rw [writeVarInt_large hs, List.append_assoc, readVarIntLoop_front _ hp (by unfold varIntParent; omega),
      List.singleton_append, readVarIntLoop_last]
    · congr 2
      unfold varIntParent
      omega
    · unfold varIntParent
      omega

/-- Different numbers have different encodings. -/
theorem writeVarInt_inj {a b : Int} (ha : 0 ≤ a) (hb : 0 ≤ b) (h : writeVarInt a = writeVarInt b) : a = b := by
  have hw : (a + b).toNat < 2 ^ (a + b).toNat := Nat.lt_two_pow_self
  have h₁ := readVarInt_writeVarInt (w := (a + b).toNat) [] ha (by omega)
  have h₂ := readVarInt_writeVarInt (w := (a + b).toNat) [] hb (by omega)
  rw [h, h₂] at h₁
  have : b.toNat = a.toNat := congrArg (·.1) (Option.some.inj h₁)
  omega

/-! ## One encoding for each number -/

/-- The number that a sequence of bytes stands for when `n` has been read before it: seven bits of each byte, and one
more for every byte but the last. -/
def encodedFrom (n : Nat) : Bytes → Nat
  | [] => n
  | [chData] => n * 128 + chData.toNat % 128
  | chData :: is => encodedFrom (n * 128 + chData.toNat % 128 + 1) is

/-- The number that a sequence of bytes encodes, as a number without bounds. -/
def encodedNumber (a : Bytes) : Nat := encodedFrom 0 a

/-- What has been read with a byte that another one follows. -/
def readMore (n : Nat) (chData : UInt8) : Nat := n * 128 + chData.toNat % 128 + 1

theorem encodedFrom_cons_cons (n : Nat) (c d : UInt8) (a : Bytes) :
    encodedFrom n (c :: d :: a) = encodedFrom (n * 128 + c.toNat % 128 + 1) (d :: a) := rfl

theorem le_encodedFrom : ∀ {a : Bytes} {n : Nat}, n ≤ encodedFrom n a
  | [], n => Nat.le_refl n
  | [c], n => by
    rw [encodedFrom]
    omega
  | c :: d :: a, n => by
    have := le_encodedFrom (a := d :: a) (n := n * 128 + c.toNat % 128 + 1)
    rw [encodedFrom_cons_cons]
    omega

theorem encodedFrom_append (last : UInt8) : ∀ (front : Bytes) (n : Nat),
    encodedFrom n (front ++ [last]) = front.foldl readMore n * 128 + last.toNat % 128
  | [], n => rfl
  | [c], n => rfl
  | c :: d :: front, n => by
    rw [List.foldl_cons, ← encodedFrom_append last (d :: front) (readMore n c)]
    rfl

/-- What is read of a sequence that stands for a number within range: that number, and every byte but the last is
marked. -/
theorem readVarIntLoop_inRange {w m : Nat} : ∀ {a : Bytes} {n : Nat}, readVarIntLoop w n a = some (m, []) →
    encodedFrom n a < 2 ^ w → m = encodedFrom n a ∧
      ∃ front last, a = front ++ [last] ∧ (∀ c ∈ front, 128 ≤ c.toNat) ∧ last.toNat < 128
  | [], _, h, _ => nomatch h
  | c :: is, n, h, hlt => by
    rw [readVarIntLoop] at h
    split at h
    · rename_i hlast
      obtain ⟨hm, rfl⟩ := Prod.mk.inj (Option.some.inj h)
      rw [encodedFrom] at hlt ⊢
      rw [Nat.mod_eq_of_lt hlt] at hm
      exact ⟨hm.symm, [], c, rfl, List.forall_mem_nil _, (and_high_eq_zero c).mp hlast⟩
    · rename_i hmore
      cases is with
      | nil => cases h
      | cons d is =>
        have hle := le_encodedFrom (a := d :: is) (n := n * 128 + c.toNat % 128 + 1)
        rw [encodedFrom_cons_cons] at hlt ⊢
        rw [Nat.mod_eq_of_lt (by omega : n * 128 + c.toNat % 128 < 2 ^ w), Nat.mod_eq_of_lt (by omega)] at h
        obtain ⟨hm, front, last, hsplit, hfront, hlast⟩ := readVarIntLoop_inRange h hlt
        refine ⟨hm, c :: front, last, by rw [hsplit]; rfl, ?_, hlast⟩
        exact List.forall_mem_cons.mpr ⟨by rw [and_high_eq_zero] at hmore; omega, hfront⟩

/-- A byte that another one follows is written again. -/
theorem varIntByte_one_eq {c : UInt8} {n : Int} (hc : 128 ≤ c.toNat) (hn : n % 128 = (c.toNat % 128 : Nat)) :
    varIntByte 1 n = c := by
  have hlt := c.toNat_lt
  rw [← UInt8.toNat_inj, varIntByte_succ, hn]
  omega

/-- Marked bytes are the front of the number before the one that they stand for. -/
theorem varIntFront_foldl {front : Bytes} (hfront : ∀ c ∈ front, 128 ≤ c.toNat) (hne : front ≠ []) :
    0 < front.foldl readMore 0 ∧ varIntFront ((front.foldl readMore 0 : Nat) - 1) = front := by
  induction front using List.reverseRecOn with
  | nil => exact absurd rfl hne
  | append_singleton front c ih =>
    have hc := hfront c (by simp)
    rw [List.foldl_append, List.foldl_cons, List.foldl_nil]
    refine ⟨Nat.succ_pos _, ?_⟩
    by_cases hnil : front = []
    · subst hnil
      rw [List.foldl_nil, varIntFront_small (by unfold readMore; omega),
        varIntByte_one_eq hc (by unfold readMore; omega)]
      rfl
    · obtain ⟨hpos, hback⟩ := ih (fun d hd => hfront d (List.mem_append_left _ hd)) hnil
      generalize front.foldl readMore 0 = f at hpos hback ⊢
      have hparent : varIntParent ((readMore f c : Nat) - 1) = (f : Nat) - 1 := by
        unfold varIntParent readMore
        omega
      rw [varIntFront_large (by unfold readMore; omega), hparent, hback,
        varIntByte_one_eq hc (by unfold readMore; omega)]

/-- A sequence that is marked up to its last byte is what is written for the number that it stands for. -/
theorem writeVarInt_encodedNumber {front : Bytes} {last : UInt8} (hfront : ∀ c ∈ front, 128 ≤ c.toNat)
    (hlast : last.toNat < 128) : writeVarInt (encodedNumber (front ++ [last])) = front ++ [last] := by
  have hbyte : ∀ {n : Int}, n % 128 = (last.toNat : Nat) → varIntByte 0 n = last := by
    intro n hn
    rw [← UInt8.toNat_inj, varIntByte_zero, hn, Int.toNat_natCast]
  rw [encodedNumber, encodedFrom_append]
  by_cases hnil : front = []
  · subst hnil
    rw [List.foldl_nil, writeVarInt_small (by omega), hbyte (by omega)]
    rfl
  · obtain ⟨hpos, hback⟩ := varIntFront_foldl hfront hnil
    have hparent : varIntParent ((front.foldl readMore 0 * 128 + last.toNat % 128 : Nat) : Int) =
        (front.foldl readMore 0 : Nat) - 1 := by
      unfold varIntParent
      omega
    rw [writeVarInt_large (by omega), hparent, hback, hbyte (by omega)]

/-- **A sequence of bytes that is read within range** is the one that is written for what was read. -/
theorem eq_writeVarInt {w n : Nat} {a : Bytes} (h : readVarInt w a = some (n, [])) (hlt : encodedNumber a < 2 ^ w) :
    n = encodedNumber a ∧ a = writeVarInt n := by
  obtain ⟨hn, front, last, rfl, hfront, hlast⟩ := readVarIntLoop_inRange h hlt
  refine ⟨hn, ?_⟩
  rw [hn]
  exact (writeVarInt_encodedNumber hfront hlast).symm

/-- A written number is the one that its bytes stand for. -/
theorem encodedNumber_writeVarInt (n : Nat) : encodedNumber (writeVarInt n) = n := by
  have hw : max n (encodedNumber (writeVarInt n)) < 2 ^ max n (encodedNumber (writeVarInt n)) := Nat.lt_two_pow_self
  have hread := readVarInt_writeVarInt (w := max n (encodedNumber (writeVarInt n))) [] (Int.natCast_nonneg n)
    (by omega)
  rw [List.append_nil, Int.toNat_natCast] at hread
  exact (eq_writeVarInt hread (by omega)).1.symm

/-- The array `tmp` of `WriteVarInt` is long enough for a number of `w` bits. -/
theorem size_le_tmp : ∀ {w n : Nat}, 0 < w → n < 2 ^ w → getSizeOfVarInt n ≤ (w + 6) / 7 := by
  intro w
  induction w using Nat.strong_induction_on with
  | _ w ih =>
    intro n hw hn
    by_cases hs : (n : Int) ≤ 0x7F
    · rw [getSizeOfVarInt_small hs]
      omega
    · obtain ⟨k, hk⟩ : ∃ k, varIntParent n = (k : Nat) := ⟨n / 128 - 1, by unfold varIntParent; omega⟩
      have hlarge : 7 < w := by
        by_contra hle
        have : 2 ^ w ≤ 2 ^ 7 := Nat.pow_le_pow_right (by decide) (by omega)
        omega
      have hlt : k < 2 ^ (w - 7) := by
        have hpow : 2 ^ w = 128 * 2 ^ (w - 7) := by
          rw [show 128 = 2 ^ 7 from rfl, ← Nat.pow_add, show 7 + (w - 7) = w by omega]
        unfold varIntParent at hk
        omega
      have := ih (w - 7) (by omega) (by omega) hlt
      rw [getSizeOfVarInt_large hs, hk]
      omega

/-- **Variable-length integers** of a type of `w` bits: what is written is read back with exactly its size and fits the
buffer, and each number has one encoding within range. -/
theorem varInt_law (w : Nat) :
    (∀ n : Nat, n < 2 ^ w → ∀ is : Bytes, readVarInt w (writeVarInt n ++ is) = some (n, is) ∧
      (writeVarInt n).length = getSizeOfVarInt n ∧ encodedNumber (writeVarInt n) = n) ∧
    (∀ (n : Nat) (a : Bytes), readVarInt w a = some (n, []) → encodedNumber a < 2 ^ w → a = writeVarInt n) ∧
    ∀ (n : Nat) (a b : Bytes), readVarInt w a = some (n, []) → encodedNumber a < 2 ^ w →
      readVarInt w b = some (n, []) → encodedNumber b < 2 ^ w → a = b := by
  refine ⟨fun n hn is => ⟨?_, size_writeVarInt n, encodedNumber_writeVarInt n⟩,
    fun n a ha hlt => (eq_writeVarInt ha hlt).2,
    fun n a b ha hlta hb hltb => ?_⟩
  · exact readVarInt_writeVarInt is (Int.natCast_nonneg n) (by omega)
  · rw [(eq_writeVarInt ha hlta).2, (eq_writeVarInt hb hltb).2]

theorem varInt_law_sample :
    readVarInt 16 (writeVarInt (65535 : Nat) ++ [0x05]) = some (65535, [0x05]) ∧
    [0x82, 0xFE, 0x7F] = writeVarInt (65535 : Nat) ∧ ([0x82, 0xFE, 0x7F] : Bytes) = [0x82, 0xFE, 0x7F] :=
  ⟨((varInt_law 16).1 65535 (by decide) [0x05]).1,
    (varInt_law 16).2.1 65535 [0x82, 0xFE, 0x7F] (by decide) (by decide),
    (varInt_law 16).2.2 65535 [0x82, 0xFE, 0x7F] [0x82, 0xFE, 0x7F] (by decide) (by decide) (by decide) (by decide)⟩

/-! ## The order of encodings -/

/-- Lists with fronts of one length compare by their fronts first. -/
theorem append_lt_append_iff {l₁ l₂ a b : Bytes} (h : l₁.length = l₂.length) :
    l₁ ++ a < l₂ ++ b ↔ l₁ < l₂ ∨ l₁ = l₂ ∧ a < b := by
  induction l₁ generalizing l₂ with
  | nil =>
    cases l₂ with
    | nil => simp
    | cons y l₂ => cases h
  | cons x l₁ ih =>
    cases l₂ with
    | nil => cases h
    | cons y l₂ =>
      rw [List.cons_append, List.cons_append, List.cons_lt_cons_iff, List.cons_lt_cons_iff, ih (Nat.succ.inj h),
        List.cons.injEq]
      tauto

theorem singleton_lt_cons_iff {x y : UInt8} {l : Bytes} : [x] < y :: l ↔ x < y ∨ x = y ∧ l ≠ [] := by
  rw [List.cons_lt_cons_iff]
  cases l <;> simp

/-- Numbers of one length are both encoded in one byte, or both in more. -/
theorem small_iff_small {a b : Int} (h : getSizeOfVarInt a = getSizeOfVarInt b) : a ≤ 0x7F ↔ b ≤ 0x7F := by
  have hone : ∀ {n : Int}, n ≤ 0x7F ↔ getSizeOfVarInt n = 1 := by
    intro n
    refine ⟨getSizeOfVarInt_small, fun h₁ => ?_⟩
    by_contra hl
    have := getSizeOfVarInt_pos (varIntParent n)
    rw [getSizeOfVarInt_large hl] at h₁
    omega
  rw [hone, hone, h]

/-- Fronts of one length are ordered as the numbers. -/
theorem varIntFront_lt {a b : Int} (ha : 0 ≤ a) (h : getSizeOfVarInt a = getSizeOfVarInt b) (hab : a < b) :
    varIntFront a < varIntFront b := by
  have hba := varIntByte_succ 0 a
  have hbb := varIntByte_succ 0 b
  by_cases hs : a ≤ 0x7F
  · have hs' := (small_iff_small h).mp hs
    rw [varIntFront_small hs, varIntFront_small hs', singleton_lt_cons_iff, UInt8.lt_iff_toNat_lt, hba, hbb]
    omega
  · have hl := mt (small_iff_small h).mpr hs
    rw [getSizeOfVarInt_large hs, getSizeOfVarInt_large hl] at h
    have hsz := Nat.succ.inj h
    rw [varIntFront_large hs, varIntFront_large hl, append_lt_append_iff (by simp only [size_varIntFront, hsz]),
      singleton_lt_cons_iff, UInt8.lt_iff_toNat_lt, hba, hbb]
    rcases Int.lt_or_eq_of_le (varIntParent_mono (Int.le_of_lt hab)) with hlt | heq
    · exact .inl (varIntFront_lt (varIntParent_nonneg hs) hsz hlt)
    · refine .inr ⟨congrArg varIntFront heq, .inl ?_⟩
      unfold varIntParent at heq
      omega
termination_by a.toNat
decreasing_by
  have := varIntParent_lt ha
  omega

theorem varIntFront_lt_iff {a b : Int} (ha : 0 ≤ a) (hb : 0 ≤ b) (h : getSizeOfVarInt a = getSizeOfVarInt b) :
    varIntFront a < varIntFront b ↔ a < b := by
  refine ⟨fun hlt => ?_, varIntFront_lt ha h⟩
  rcases Int.lt_trichotomy a b with hab | rfl | hab
  · exact hab
  · exact absurd hlt (List.lt_irrefl _)
  · exact absurd (varIntFront_lt hb h.symm hab) (List.lt_asymm hlt)

theorem varIntFront_inj {a b : Int} (ha : 0 ≤ a) (hb : 0 ≤ b) (h : getSizeOfVarInt a = getSizeOfVarInt b) :
    varIntFront a = varIntFront b ↔ a = b := by
  refine ⟨fun he => ?_, fun he => by rw [he]⟩
  rcases Int.lt_trichotomy a b with hab | rfl | hab
  · exact absurd (he ▸ varIntFront_lt ha h hab) (List.lt_irrefl _)
  · rfl
  · exact absurd (he ▸ varIntFront_lt hb h.symm hab) (List.lt_irrefl _)

/-- Every byte of a front is marked. -/
theorem marked_of_mem_varIntFront {n : Int} {c : UInt8} (h : c ∈ varIntFront n) : 128 ≤ c.toNat := by
  by_cases hs : n ≤ 0x7F
  · rw [varIntFront_small hs, List.mem_singleton] at h
    rw [h, varIntByte_succ]
    omega
  · rw [varIntFront_large hs] at h
    rcases List.mem_append.mp h with h | h
    · exact marked_of_mem_varIntFront h
    · rw [List.mem_singleton] at h
      rw [h, varIntByte_succ]
      omega
termination_by n.toNat
decreasing_by
  have := varIntParent_lt (n := n) (by omega)
  omega

/-- The front of a number starts with the front of each number that is left from it. -/
theorem varIntFront_iterate {n : Int} (hn : 0 ≤ n) :
    ∀ {j : Nat}, j < getSizeOfVarInt n → ∃ rest : Bytes,
      varIntFront n = varIntFront (varIntParent^[j] n) ++ rest ∧ rest.length = j ∧
      0 ≤ varIntParent^[j] n ∧ getSizeOfVarInt (varIntParent^[j] n) + j = getSizeOfVarInt n
  | 0, _ => ⟨[], by simp, rfl, hn, rfl⟩
  | j + 1, h => by
    obtain ⟨rest, hrest, hlen, hpos, hsize⟩ := varIntFront_iterate hn (j := j) (by omega)
    have hlarge : ¬ varIntParent^[j] n ≤ 0x7F := by
      intro hs
      rw [getSizeOfVarInt_small hs] at hsize
      omega
    rw [Function.iterate_succ_apply']
    refine ⟨varIntByte 1 (varIntParent^[j] n) :: rest, ?_, by rw [List.length_cons, hlen],
      varIntParent_nonneg hlarge, ?_⟩
    · rw [hrest, varIntFront_large hlarge, List.append_assoc, List.singleton_append]
    · rw [getSizeOfVarInt_large hlarge] at hsize
      omega

/-- Encodings of one length are ordered as the numbers. -/
theorem writeVarInt_lt_of_size_eq {a b : Int} (ha : 0 ≤ a) (hb : 0 ≤ b)
    (h : getSizeOfVarInt a = getSizeOfVarInt b) : writeVarInt a < writeVarInt b ↔ a < b := by
  have hba := varIntByte_zero a
  have hbb := varIntByte_zero b
  by_cases hs : a ≤ 0x7F
  · have hs' := (small_iff_small h).mp hs
    rw [writeVarInt_small hs, writeVarInt_small hs', singleton_lt_cons_iff, UInt8.lt_iff_toNat_lt, hba, hbb]
    simp only [ne_eq, not_true_eq_false, and_false, or_false]
    omega
  · have hl := mt (small_iff_small h).mpr hs
    rw [getSizeOfVarInt_large hs, getSizeOfVarInt_large hl] at h
    have hsz := Nat.succ.inj h
    rw [writeVarInt_large hs, writeVarInt_large hl, append_lt_append_iff (by simp only [size_varIntFront, hsz]),
      varIntFront_lt_iff (varIntParent_nonneg hs) (varIntParent_nonneg hl) hsz,
      varIntFront_inj (varIntParent_nonneg hs) (varIntParent_nonneg hl) hsz, singleton_lt_cons_iff,
      UInt8.lt_iff_toNat_lt, hba, hbb]
    simp only [ne_eq, not_true_eq_false, and_false, or_false]
    unfold varIntParent
    omega

/-- A shorter encoding comes before a longer one when it has a single byte, or when the number left for its front is
not above the one that the longer encoding's front of the same length stands for. -/
theorem writeVarInt_lt_of_size_lt {a b : Int} (h : getSizeOfVarInt a < getSizeOfVarInt b) :
    writeVarInt a < writeVarInt b ↔ getSizeOfVarInt a = 1 ∨
      varIntParent a ≤ varIntParent^[getSizeOfVarInt b - getSizeOfVarInt a + 1] b := by
  have hl : ¬ b ≤ 0x7F := by
    intro hs
    rw [getSizeOfVarInt_small hs] at h
    have := getSizeOfVarInt_pos a
    omega
  have hsb := getSizeOfVarInt_large hl
  have hbyte := varIntByte_zero a
  by_cases hs : a ≤ 0x7F
  · have hsa := getSizeOfVarInt_small hs
    refine ⟨fun _ => .inl hsa, fun _ => ?_⟩
    obtain ⟨c, rest, hc⟩ := List.exists_cons_of_length_pos (size_varIntFront (varIntParent b) ▸ getSizeOfVarInt_pos _)
    have hmark := marked_of_mem_varIntFront (hc ▸ List.mem_cons_self : c ∈ varIntFront (varIntParent b))
    rw [writeVarInt_small hs, writeVarInt_large hl, hc, List.cons_append, singleton_lt_cons_iff,
      UInt8.lt_iff_toNat_lt, hbyte]
    omega
  · have hsa := getSizeOfVarInt_large hs
    have hne : getSizeOfVarInt a ≠ 1 := by
      have := getSizeOfVarInt_pos (varIntParent a)
      omega
    obtain ⟨rest, hrest, hlen, hpos, hsize⟩ := varIntFront_iterate (varIntParent_nonneg hl)
      (j := getSizeOfVarInt b - getSizeOfVarInt a) (by have := getSizeOfVarInt_pos (varIntParent a); omega)
    obtain ⟨c, rest, rfl⟩ := List.exists_cons_of_length_pos (by omega : 0 < rest.length)
    have hc : 128 ≤ c.toNat := marked_of_mem_varIntFront (n := varIntParent b) (by rw [hrest]; simp)
    rw [← Function.iterate_succ_apply, Nat.succ_eq_add_one] at hrest hpos hsize
    have hsz : getSizeOfVarInt (varIntParent a) =
        getSizeOfVarInt (varIntParent^[getSizeOfVarInt b - getSizeOfVarInt a + 1] b) := by omega
    rw [writeVarInt_large hs, writeVarInt_large hl, hrest, List.append_assoc, List.cons_append, append_lt_append_iff,
      varIntFront_lt_iff (varIntParent_nonneg hs) hpos hsz, varIntFront_inj (varIntParent_nonneg hs) hpos hsz,
      singleton_lt_cons_iff, UInt8.lt_iff_toNat_lt, hbyte]
    · have hlast : (a % 128).toNat < c.toNat := by omega
      simp only [hlast, true_or, and_true, hne, false_or]
      exact Int.le_iff_lt_or_eq.symm
    · rw [size_varIntFront, size_varIntFront]
      exact hsz

/-- The encoding of `a` comes before that of `b`, in terms of the numbers. -/
def varIntBefore (a b : Int) : Prop :=
  if getSizeOfVarInt a = getSizeOfVarInt b then a < b
  else if getSizeOfVarInt a < getSizeOfVarInt b then
    getSizeOfVarInt a = 1 ∨ varIntParent a ≤ varIntParent^[getSizeOfVarInt b - getSizeOfVarInt a + 1] b
  else
    getSizeOfVarInt b ≠ 1 ∧ varIntParent^[getSizeOfVarInt a - getSizeOfVarInt b + 1] a < varIntParent b

instance (a b : Int) : Decidable (varIntBefore a b) := by
  unfold varIntBefore
  infer_instance

/-- **The bytewise order of encodings.** -/
theorem writeVarInt_lt_iff {a b : Int} (ha : 0 ≤ a) (hb : 0 ≤ b) :
    writeVarInt a < writeVarInt b ↔ varIntBefore a b := by
  unfold varIntBefore
  rcases Nat.lt_trichotomy (getSizeOfVarInt a) (getSizeOfVarInt b) with h | h | h
  · rw [if_neg (Nat.ne_of_lt h), if_pos h]
    exact writeVarInt_lt_of_size_lt h
  · rw [if_pos h]
    exact writeVarInt_lt_of_size_eq ha hb h
  · rw [if_neg (Nat.ne_of_gt h), if_neg (Nat.lt_asymm h)]
    have hne : writeVarInt a ≠ writeVarInt b := by
      intro he
      rw [writeVarInt_inj ha hb he] at h
      exact Nat.lt_irrefl _ h
    have hflip : writeVarInt a < writeVarInt b ↔ ¬ writeVarInt b < writeVarInt a := by
      refine ⟨List.lt_asymm, fun hn => Std.lt_of_le_of_ne (Std.not_lt.mp hn) hne⟩
    rw [hflip, writeVarInt_lt_of_size_lt h, not_or, Int.not_le]

/-! ## Where the encoding keeps the order -/

/-- The greatest number with an encoding of `k + 1` bytes. -/
def varIntMax : Nat → Int
  | 0 => 0x7F
  | k + 1 => (varIntMax k + 1) * 128 + 0x7F

theorem varIntMax_ge (k : Nat) : 0x7F ≤ varIntMax k := by
  induction k with
  | zero => exact Int.le_refl _
  | succ k ih =>
    rw [varIntMax]
    omega

theorem size_varIntMax (k : Nat) : getSizeOfVarInt (varIntMax k) = k + 1 := by
  induction k with
  | zero => exact getSizeOfVarInt_small (Int.le_refl _)
  | succ k ih =>
    have hge := varIntMax_ge k
    have hpar : varIntParent (varIntMax (k + 1)) = varIntMax k := by
      rw [varIntMax, varIntParent]
      omega
    rw [getSizeOfVarInt_large (by rw [varIntMax]; omega), hpar, ih]

theorem size_varIntMax_succ (k : Nat) : getSizeOfVarInt (varIntMax k + 1) = k + 2 := by
  induction k with
  | zero =>
    rw [getSizeOfVarInt_large (by decide), getSizeOfVarInt_small (by decide)]
  | succ k ih =>
    have hge := varIntMax_ge k
    have hpar : varIntParent (varIntMax (k + 1) + 1) = varIntMax k + 1 := by
      rw [varIntMax, varIntParent]
      omega
    rw [getSizeOfVarInt_large (by rw [varIntMax]; omega), hpar, ih]

/-- The step from the last encoding of a length of at least two bytes to the first one of the next length goes back
in the bytewise order. -/
theorem varIntMax_misplaced (k : Nat) : ¬ varIntBefore (varIntMax (k + 1)) (varIntMax (k + 1) + 1) := by
  have hge := varIntMax_ge k
  have hsize := size_varIntMax (k + 1)
  have hsize' := size_varIntMax_succ (k + 1)
  unfold varIntBefore
  rw [hsize, hsize', if_neg (by omega), if_pos (by omega), show k + 1 + 2 - (k + 1 + 1) + 1 = 2 by omega]
  simp only [Function.iterate_succ, Function.iterate_zero, Function.comp_apply, id_eq]
  rw [varIntMax]
  unfold varIntParent
  omega

/-- **Where the order is kept**: the numbers from `a` to `b` are encoded in order exactly when `a` and `b` have
encodings of one length, or none of more than two bytes. -/
theorem writeVarInt_mono_iff {a b : Int} (ha : 0 ≤ a) (hab : a ≤ b) :
    (∀ x y, a ≤ x → x < y → y ≤ b → writeVarInt x < writeVarInt y) ↔
      getSizeOfVarInt a = getSizeOfVarInt b ∨ getSizeOfVarInt b ≤ 2 := by
  constructor
  · intro h
    by_contra hsize
    have hle := getSizeOfVarInt_mono hab
    have hpos := getSizeOfVarInt_pos a
    obtain ⟨k, hk⟩ : ∃ k, max (getSizeOfVarInt a) 2 = k + 2 := ⟨max (getSizeOfVarInt a) 2 - 2, by omega⟩
    have hmax := size_varIntMax (k + 1)
    have hmax' := size_varIntMax_succ (k + 1)
    have hbelow : a ≤ varIntMax (k + 1) := by
      by_contra hlt
      have := getSizeOfVarInt_mono (a := varIntMax (k + 1) + 1) (b := a) (by omega)
      omega
    have habove : varIntMax (k + 1) + 1 ≤ b := by
      by_contra hlt
      have := getSizeOfVarInt_mono (a := b) (b := varIntMax (k + 1)) (by omega)
      omega
    have hlt := h _ _ hbelow (by omega) habove
    exact varIntMax_misplaced k ((writeVarInt_lt_iff (by omega) (by omega)).mp hlt)
  · intro hsize x y hax hxy hyb
    have h₁ := getSizeOfVarInt_mono hax
    have h₂ := getSizeOfVarInt_mono (Int.le_of_lt hxy)
    have h₃ := getSizeOfVarInt_mono hyb
    have h₄ := getSizeOfVarInt_pos x
    by_cases heq : getSizeOfVarInt x = getSizeOfVarInt y
    · exact (writeVarInt_lt_of_size_eq (by omega) (by omega) heq).mpr hxy
    · exact (writeVarInt_lt_of_size_lt (by omega)).mpr (.inl (by omega))

end Morcochain
