import Morcochain.CoinsRecord
import Morcochain.Serialize

/-!
# Reading back coins and undo data

What the compact formats of `CoinsRecord` give back: amounts, scripts, outputs, coins, and the undo data of a block.

* `compressAmount_law` : amounts of money and their compressed forms stand for each other.
* `reads_script`, `reads_txOut` : an output is read back from its compressed form.
* `reads_mask` : the mask of the outputs that are not spent ends where the reader stops.
* `reads_coins` : **coins are read back, but for the spent outputs at their end.**
-/

set_option autoImplicit false

namespace Morcochain

open Codec

/-! ## Amounts -/

/-- What the loop of `CompressAmount` leaves. -/
theorem stripZeros_spec : ∀ {k n : Nat}, n = (stripZeros k n).1 * 10 ^ (stripZeros k n).2 ∧ (stripZeros k n).2 ≤ k ∧
    ((stripZeros k n).2 < k → (stripZeros k n).1 % 10 ≠ 0)
  | 0, n => ⟨(Nat.mul_one n).symm, Nat.le_refl 0, fun h => absurd h (Nat.lt_irrefl 0)⟩
  | k + 1, n => by
    rw [stripZeros]
    split
    · rename_i hmod
      obtain ⟨heq, hle, hlast⟩ := stripZeros_spec (k := k) (n := n / 10)
      refine ⟨?_, Nat.succ_le_succ hle, fun h => hlast (Nat.lt_of_succ_lt_succ h)⟩
      simp only [Nat.pow_succ, ← Nat.mul_assoc]
      rw [← heq]
      omega
    · rename_i hmod
      exact ⟨(Nat.mul_one n).symm, Nat.zero_le _, fun _ => hmod⟩

theorem toUInt64_of_lt {n : Nat} (h : n < 2 ^ 64) : toUInt64 n = n := by
  unfold toUInt64
  omega

/-- **An amount of money is decompressed to itself**, and its compressed form is a `uint64`. -/
theorem decompressAmount_compressAmount {n : Nat} (h : n ≤ 10 ^ 17) :
    decompressAmount (compressAmount n) = n ∧ compressAmount n < 2 ^ 64 := by
  by_cases hzero : n = 0
  · have hcompr : compressAmount n = 0 := by rw [compressAmount, if_pos hzero]
    rw [hcompr, decompressAmount, if_pos rfl, hzero]
    exact ⟨rfl, Nat.two_pow_pos 64⟩
  · obtain ⟨heq, hle, hlast⟩ := stripZeros_spec (k := 9) (n := n)
    rw [compressAmount, if_neg hzero]
    generalize stripZeros 9 n = p at heq hle hlast
    obtain ⟨m, e⟩ := p
    simp only at heq hle hlast ⊢
    have hmn : m ≤ n := by
      rw [heq]
      exact Nat.le_mul_of_pos_right m (Nat.pow_pos (by decide))
    have hm : 0 < m := by
      rcases Nat.eq_zero_or_pos m with rfl | hm
      · rw [Nat.zero_mul] at heq; exact absurd heq hzero
      · exact hm
    have hback : toUInt64 ((m : Int) * 10 ^ e) = n := by
      have hcast : (m : Int) * 10 ^ e = (n : Nat) := by rw [heq]; push_cast; rfl
      rw [hcast, toUInt64_of_lt (Nat.lt_of_le_of_lt h (by decide))]
    split
    · rename_i he
      have hd := hlast he
      have hval : 1 + ((m : Int) / 10 * 9 + m % 10 - 1) * 10 + e =
          ((1 + (m / 10 * 9 + m % 10 - 1) * 10 + e : Nat) : Int) := by omega
      have hlt : 1 + (m / 10 * 9 + m % 10 - 1) * 10 + e < 2 ^ 64 := by omega
      rw [hval, toUInt64_of_lt hlt]
      refine ⟨?_, hlt⟩
      rw [decompressAmount, if_neg (by omega)]
      have hmod : (1 + (m / 10 * 9 + m % 10 - 1) * 10 + e - 1) % 10 = e := by omega
      have hdiv : (1 + (m / 10 * 9 + m % 10 - 1) * 10 + e - 1) / 10 = m / 10 * 9 + m % 10 - 1 := by omega
      have hm' : (m / 10 * 9 + m % 10 - 1) / 9 * 10 + ((m / 10 * 9 + m % 10 - 1) % 9 + 1) = m := by omega
      simp only [hmod, hdiv, if_pos he, hm']
      exact hback
    · rename_i he
      obtain rfl : e = 9 := Nat.le_antisymm hle (Nat.not_lt.mp he)
      obtain ⟨k, rfl⟩ : ∃ k, m = k + 1 := ⟨m - 1, by omega⟩
      have hval : 1 + (((k + 1 : Nat) : Int) - 1) * 10 + 9 = ((1 + k * 10 + 9 : Nat) : Int) := by omega
      have hlt : 1 + k * 10 + 9 < 2 ^ 64 := by omega
      rw [hval, toUInt64_of_lt hlt]
      refine ⟨?_, hlt⟩
      rw [decompressAmount, if_neg (by omega)]
      have hmod : (1 + k * 10 + 9 - 1) % 10 = 9 := by omega
      have hdiv : (1 + k * 10 + 9 - 1) / 10 = k := by omega
      simp only [hmod, hdiv, if_neg (Nat.lt_irrefl 9)]
      exact hback

/-- The exact value of each operation with which `CompressAmount` puts its result together, after the loop. -/
def compressSteps (n : Nat) : List Int :=
  if n = 0 then []
  else
    let (m, e) := stripZeros 9 n
    let n : Int := m / 10
    let d : Int := m % 10
    if e < 9 then [n * 9, n * 9 + d, n * 9 + d - 1, (n * 9 + d - 1) * 10, 1 + (n * 9 + d - 1) * 10,
      1 + (n * 9 + d - 1) * 10 + e]
    else [(m : Int) - 1, ((m : Int) - 1) * 10, 1 + ((m : Int) - 1) * 10, 1 + ((m : Int) - 1) * 10 + 9]

/-- Values that are not above a number of 64 bits, and not below 0, are numbers of 64 bits. -/
theorem forall_fits {l : List Int} {n : Int} (hn : n < 2 ^ 64) (h : ∀ x ∈ l, 0 ≤ x ∧ x ≤ n) :
    ∀ x ∈ l, 0 ≤ x ∧ x < 2 ^ 64 := fun x hx => ⟨(h x hx).1, lt_of_le_of_lt (h x hx).2 hn⟩

/-- No operation of `CompressAmount` leaves the 64 bits, the digit that it asserts on is not 0, and the last operation
gives the result. -/
theorem compressSteps_spec {n : Nat} (hn : n ≠ 0) (h : n ≤ 10 ^ 17) :
    (∀ x ∈ compressSteps n, 0 ≤ x ∧ x < 2 ^ 64) ∧ (compressSteps n).getLast? = some (compressAmount n : Int) ∧
    ((stripZeros 9 n).2 < 9 → 1 ≤ (stripZeros 9 n).1 % 10) := by
  obtain ⟨heq, hle, hlast⟩ := stripZeros_spec (k := 9) (n := n)
  have hsmall : (stripZeros 9 n).1 ≤ n := by
    conv_rhs => rw [heq]
    exact Nat.le_mul_of_pos_right _ (Nat.pow_pos (by decide))
  have hpos : (stripZeros 9 n).1 ≠ 0 := by
    intro hz
    rw [hz, Nat.zero_mul] at heq
    exact hn heq
  rw [compressSteps, compressAmount, if_neg hn, if_neg hn]
  generalize stripZeros 9 n = p at hle hlast hsmall hpos ⊢
  obtain ⟨m, e⟩ := p
  dsimp only at hle hlast hsmall hpos ⊢
  clear heq
  by_cases he : e < 9
  · obtain ⟨q, d, rfl, hd, hd'⟩ : ∃ q d, m = q * 10 + d ∧ 1 ≤ d ∧ d < 10 :=
      ⟨m / 10, m % 10, by omega, Nat.one_le_iff_ne_zero.mpr (hlast he), Nat.mod_lt m (by decide)⟩
    have hq : q ≤ 10 ^ 16 := by omega
    have hdiv : ((q * 10 + d : Nat) : Int) / 10 = q := by omega
    have hmod : ((q * 10 + d : Nat) : Int) % 10 = d := by omega
    have hexact : 1 + ((q : Int) * 9 + d - 1) * 10 + e = ((1 + (q * 9 + d - 1) * 10 + e : Nat) : Int) := by omega
    have hlt : 1 + (q * 9 + d - 1) * 10 + e < 2 ^ 64 := by omega
    rw [if_pos he, if_pos he, hdiv, hmod, hexact, toUInt64_of_lt hlt]
    refine ⟨forall_fits (Int.ofNat_lt.mpr hlt) ?_, rfl, fun _ => by omega⟩
    rw [← hexact]
    clear hdiv hmod hexact hlt hlast hsmall h
    simp only [List.forall_mem_cons]
    exact ⟨⟨by omega, by omega⟩, ⟨by omega, by omega⟩, ⟨by omega, by omega⟩, ⟨by omega, by omega⟩,
      ⟨by omega, by omega⟩, ⟨by omega, by omega⟩, List.forall_mem_nil _⟩
  · obtain ⟨k, rfl⟩ : ∃ k, m = k + 1 := ⟨m - 1, by omega⟩
    have hexact : 1 + (((k + 1 : Nat) : Int) - 1) * 10 + 9 = ((1 + k * 10 + 9 : Nat) : Int) := by omega
    have hlt : 1 + k * 10 + 9 < 2 ^ 64 := by omega
    rw [if_neg he, if_neg he, hexact, toUInt64_of_lt hlt]
    refine ⟨forall_fits (Int.ofNat_lt.mpr hlt) ?_, rfl, fun h => absurd h he⟩
    rw [← hexact]
    clear hexact hlt hlast hsmall h
    simp only [List.forall_mem_cons]
    exact ⟨⟨by omega, by omega⟩, ⟨by omega, by omega⟩, ⟨by omega, by omega⟩, ⟨by omega, by omega⟩,
      List.forall_mem_nil _⟩

/-- **Amounts of money and their compressed forms** stand for each other, and no operation overflows. -/
theorem compressAmount_law :
    (∀ n : Nat, moneyRange n = true → decompressAmount (compressAmount n) = n) ∧
    (∀ m n : Nat, moneyRange m = true → moneyRange n = true → compressAmount m = compressAmount n → m = n) ∧
    (∀ n : Nat, moneyRange n = true → (∀ x ∈ compressSteps n, 0 ≤ x ∧ x < 2 ^ 64) ∧
      compressAmount n = (compressSteps n).getLastD 0) ∧
    ∀ x n : Nat, moneyRange n = true → x = compressAmount n → compressAmount (decompressAmount x) = x := by
  have hmoney : ∀ {n : Nat}, moneyRange n = true → n ≤ 10 ^ 17 := by
    intro n hn
    have hle := (of_decide_eq_true hn).2
    unfold maxMoney coin at hle
    omega
  refine ⟨fun n hn => (decompressAmount_compressAmount (hmoney hn)).1, fun m n hm hn heq => ?_, fun n hn => ?_,
    fun x n hn hx => ?_⟩
  · rw [← (decompressAmount_compressAmount (hmoney hm)).1, heq, (decompressAmount_compressAmount (hmoney hn)).1]
  · by_cases hzero : n = 0
    · subst hzero
      exact ⟨List.forall_mem_nil _, rfl⟩
    · obtain ⟨hsteps, hlast, -⟩ := compressSteps_spec hzero (hmoney hn)
      refine ⟨hsteps, ?_⟩
      rw [List.getLastD_eq_getLast?, hlast]
      rfl
  · rw [hx, (decompressAmount_compressAmount (hmoney hn)).1]

theorem compressAmount_law_sample :
    decompressAmount (compressAmount 123450000) = 123450000 ∧ compressAmount (decompressAmount 11116) = 11116 ∧
    (compressAmount 5 = compressAmount 5 → 5 = 5) ∧ compressAmount 123450000 = (compressSteps 123450000).getLastD 0 :=
  ⟨compressAmount_law.1 123450000 (by decide),
    compressAmount_law.2.2.2 11116 123500000 (by decide) (by decide),
    compressAmount_law.2.1 5 5 (by decide) (by decide), (compressAmount_law.2.2.1 123450000 (by decide)).2⟩

/-! ## Scripts -/

/-- A list that ends after a position is what stands before it, and the element there. -/
theorem take_append_last {α : Type} {l : List α} {n : Nat} {a : α} (hlen : l.length = n + 1) (h : l[n]? = some a) :
    l = l.take n ++ [a] := by
  obtain ⟨hn, ha⟩ := List.getElem?_eq_some_iff.mp h
  conv_lhs => rw [← List.take_append_drop n l]
  rw [List.drop_eq_getElem_cons hn, ha, List.drop_eq_nil_of_le (by omega)]

/-- The scripts that pay to the hash of a key. -/
theorem isToKeyID_eq_some {script : CScript} {keyID : Bytes} (h : isToKeyID script = some keyID) :
    script = opDup :: opHash160 :: 20 :: keyID ++ [opEqualverify, opChecksig] ∧ keyID.length = 20 := by
  unfold isToKeyID at h
  split at h
  · rename_i hc
    obtain ⟨hlen, h₀, h₁, h₂, h₂₃, h₂₄⟩ := hc
    obtain rfl := Option.some.inj h
    match script, hlen with
    | a :: b :: c :: t, hlen =>
      simp only [List.getElem?_cons_zero, List.getElem?_cons_succ, Option.some.injEq] at h₀ h₁ h₂ h₂₃ h₂₄
      have hlen' : t.length = 22 := by simpa using hlen
      have ht : t = t.take 20 ++ [opEqualverify, opChecksig] := by
        have hlast := take_append_last hlen' h₂₄
        have hprev : t.take 21 = (t.take 21).take 20 ++ [opEqualverify] :=
          take_append_last (by rw [List.length_take]; omega) (by rw [List.getElem?_take, if_pos (by decide)]; exact h₂₃)
        rw [hprev, List.take_take] at hlast
        simpa using hlast
      subst h₀ h₁ h₂
      refine ⟨?_, by simp [hlen']⟩
      conv_lhs => rw [ht]
      rfl
  · cases h

/-- The scripts that pay to the hash of a script. -/
theorem isToScriptID_eq_some {script : CScript} {scriptID : Bytes} (h : isToScriptID script = some scriptID) :
    script = opHash160 :: 20 :: scriptID ++ [opEqual] ∧ scriptID.length = 20 := by
  unfold isToScriptID at h
  split at h
  · rename_i hc
    obtain ⟨hlen, h₀, h₁, h₂₂⟩ := hc
    obtain rfl := Option.some.inj h
    match script, hlen with
    | a :: b :: t, hlen =>
      simp only [List.getElem?_cons_zero, List.getElem?_cons_succ, Option.some.injEq] at h₀ h₁ h₂₂
      have hlen' : t.length = 21 := by simpa using hlen
      have ht := take_append_last hlen' h₂₂
      subst h₀ h₁
      refine ⟨?_, by simp [hlen']⟩
      conv_lhs => rw [ht]
      rfl
  · cases h

section Keys

variable {cr : Crypto} {uncompressed : Bytes → Bytes}

/-- The scripts that pay to a public key: in the short form, or in the long form with a valid key. -/
theorem isToPubKey_eq_some {script pubkey : Bytes} (h : isToPubKey cr script = some pubkey) :
    (∃ b x, pubkey = b :: x ∧ (b = 0x02 ∨ b = 0x03) ∧ x.length = 32 ∧ script = 33 :: pubkey ++ [opChecksig]) ∨
      ∃ x, pubkey = 0x04 :: x ∧ x.length = 64 ∧ cr.setPubKey pubkey = true ∧ script = 65 :: pubkey ++ [opChecksig] := by
  unfold isToPubKey at h
  split at h
  · rename_i hc
    obtain ⟨hlen, h₀, h₃₄, h₁⟩ := hc
    obtain rfl := Option.some.inj h
    left
    match script, hlen with
    | a :: b :: t, hlen =>
      simp only [List.getElem?_cons_zero, List.getElem?_cons_succ, Option.some.injEq] at h₀ h₁ h₃₄
      have hlen' : t.length = 33 := by simpa using hlen
      have ht := take_append_last hlen' h₃₄
      subst h₀
      refine ⟨b, t.take 32, rfl, h₁, by simp [hlen'], ?_⟩
      conv_lhs => rw [ht]
      rfl
  · split at h
    · rename_i hc
      obtain ⟨hlen, h₀, h₆₆, h₁, hset⟩ := hc
      obtain rfl := Option.some.inj h
      right
      match script, hlen with
      | a :: b :: t, hlen =>
        simp only [List.getElem?_cons_zero, List.getElem?_cons_succ, Option.some.injEq] at h₀ h₁ h₆₆
        have hlen' : t.length = 65 := by simpa using hlen
        have ht := take_append_last hlen' h₆₆
        subst h₀ h₁
        refine ⟨t.take 64, rfl, by simp [hlen'], hset, ?_⟩
        conv_lhs => rw [ht]
        rfl
    · cases h

/-- Public key compression and decompression of the key library are inverse on valid keys: the first coordinate, after a
byte that tells the parity of the second one, is a valid key, whose long form is the key itself. -/
def KeyRoundTrip (cr : Crypto) (uncompressed : Bytes → Bytes) : Prop :=
  ∀ pubkey : Bytes, pubkey.length = 65 → pubkey[0]? = some 0x04 → cr.setPubKey pubkey = true →
    cr.setPubKey ((0x02 ||| (pubkey.getD 64 0 &&& 0x01)) :: (pubkey.drop 1).take 32) = true ∧
      uncompressed ((0x02 ||| (pubkey.getD 64 0 &&& 0x01)) :: (pubkey.drop 1).take 32) = pubkey

/-- Reading a number of a type of `w` bits. -/
theorem reads_varInt {w : Nat} {n : Int} (hn : 0 ≤ n) (h : n.toNat < 2 ^ w) :
    Reads (readVarInt w) (writeVarInt n) n.toNat := fun rest => readVarInt_writeVarInt rest hn h

/-- A byte below 128 is the encoding of its value. -/
theorem writeVarInt_byte {b : UInt8} (h : b.toNat < 128) : writeVarInt b.toNat = [b] := by
  rw [writeVarInt_small (by omega)]
  congr 1
  apply UInt8.toNat_inj.mp
  rw [varIntByte_zero]
  omega

/-- Reading one of the special scripts. -/
theorem reads_special {b : UInt8} {payload : Bytes} (hb : b.toNat < nSpecialScripts)
    (hlen : payload.length = getSpecialSize b.toNat) :
    Reads (unserializeScript cr uncompressed) (b :: payload) (decompressScript cr uncompressed b.toNat payload) := by
  have hb' : b.toNat < 6 := hb
  unfold unserializeScript
  rw [← List.singleton_append, ← writeVarInt_byte (by omega)]
  refine (reads_varInt (Int.natCast_nonneg _) (by simp only [Int.toNat_natCast]; omega)).bind ?_
  rw [Int.toNat_natCast, if_pos hb]
  exact (reads_bytes hlen).map _

/-- The parity bit of a byte. -/
theorem and_one (x : UInt8) : x &&& 0x01 = 0 ∨ x &&& 0x01 = 1 := by
  have h : (x &&& 0x01).toNat = x.toNat % 2 := by
    rw [UInt8.toNat_and]
    exact Nat.and_one_is_mod x.toNat
  rcases Nat.mod_two_eq_zero_or_one x.toNat with hmod | hmod
  · exact .inl (UInt8.toNat_inj.mp (h.trans hmod))
  · exact .inr (UInt8.toNat_inj.mp (h.trans hmod))

/-- A key in the short form. -/
theorem reads_shortKey {script x : Bytes} {b : UInt8} (hb : b = 0x02 ∨ b = 0x03) (hx : x.length = 32)
    (hscript : script = 33 :: (b :: x) ++ [opChecksig]) :
    Reads (unserializeScript cr uncompressed)
      (match (some (b :: x)).bind compressKey with
      | some compr => compr
      | none => writeVarInt (script.length + nSpecialScripts) ++ script) script := by
  have hcompr : compressKey (b :: x) = some (b :: x) := by
    have htake : (b :: x).take 33 = b :: x := List.take_of_length_le (by rw [List.length_cons, hx])
    unfold compressKey
    rw [if_pos (by simpa using hb), htake]
  rw [Option.bind_some, hcompr]
  rcases hb with rfl | rfl
  · have hread := @reads_special cr uncompressed 0x02 x (by decide) hx
    rwa [show decompressScript cr uncompressed (0x02 : UInt8).toNat x = script from hscript.symm] at hread
  · have hread := @reads_special cr uncompressed 0x03 x (by decide) hx
    rwa [show decompressScript cr uncompressed (0x03 : UInt8).toNat x = script from hscript.symm] at hread

/-- A key in the long form: the record has its first coordinate and the parity of the second one. -/
theorem reads_longKey (hkeys : KeyRoundTrip cr uncompressed) {script x : Bytes} (hx : x.length = 64)
    (hset : cr.setPubKey (0x04 :: x) = true) (hscript : script = 65 :: (0x04 :: x) ++ [opChecksig]) :
    Reads (unserializeScript cr uncompressed)
      (match (some ((0x04 : UInt8) :: x)).bind compressKey with
      | some compr => compr
      | none => writeVarInt (script.length + nSpecialScripts) ++ script) script := by
  obtain ⟨hshort, hlong⟩ := hkeys (0x04 :: x) (by rw [List.length_cons, hx]) rfl hset
  have hcompr : compressKey ((0x04 : UInt8) :: x) =
      some ((0x04 ||| (((0x04 : UInt8) :: x).getD 64 0 &&& 0x01)) :: x.take 32) := rfl
  have hlen : (x.take 32).length = 32 := by rw [List.length_take, hx]; rfl
  rw [Option.bind_some, hcompr]
  rw [List.drop_succ_cons, List.drop_zero] at hshort hlong
  rcases and_one (((0x04 : UInt8) :: x).getD 64 0) with hbit | hbit <;> rw [hbit] at hshort hlong ⊢
  · have hread := @reads_special cr uncompressed 0x04 (x.take 32) (by decide) hlen
    have hback : decompressScript cr uncompressed (0x04 : UInt8).toNat (x.take 32) = script := by
      show (if cr.setPubKey (((0x02 : UInt8) ||| 0) :: x.take 32) then
        65 :: uncompressed (((0x02 : UInt8) ||| 0) :: x.take 32) ++ [opChecksig] else []) = script
      rw [if_pos hshort, hlong, hscript]
    rwa [hback] at hread
  · have hread := @reads_special cr uncompressed 0x05 (x.take 32) (by decide) hlen
    have hback : decompressScript cr uncompressed (0x05 : UInt8).toNat (x.take 32) = script := by
      show (if cr.setPubKey (((0x02 : UInt8) ||| 1) :: x.take 32) then
        65 :: uncompressed (((0x02 : UInt8) ||| 1) :: x.take 32) ++ [opChecksig] else []) = script
      rw [if_pos hshort, hlong, hscript]
    rwa [hback] at hread

/-- **A script is read back from its compressed form.** -/
theorem reads_script (hkeys : KeyRoundTrip cr uncompressed) {script : CScript}
    (hlen : script.length + nSpecialScripts < 2 ^ 32) :
    Reads (unserializeScript cr uncompressed) (serializeScript cr script) script := by
  unfold serializeScript compressScript
  cases hkey : isToKeyID script with
  | some keyID =>
    obtain ⟨hscript, hlen⟩ := isToKeyID_eq_some hkey
    have hread := @reads_special cr uncompressed 0x00 keyID (by decide) hlen
    rwa [show decompressScript cr uncompressed (0x00 : UInt8).toNat keyID = script from hscript.symm] at hread
  | none =>
    cases hid : isToScriptID script with
    | some scriptID =>
      obtain ⟨hscript, hlen⟩ := isToScriptID_eq_some hid
      have hread := @reads_special cr uncompressed 0x01 scriptID (by decide) hlen
      rwa [show decompressScript cr uncompressed (0x01 : UInt8).toNat scriptID = script from hscript.symm] at hread
    | none =>
      cases hpub : isToPubKey cr script with
      | some pubkey =>
        rcases isToPubKey_eq_some hpub with ⟨b, x, rfl, hb, hx, hscript⟩ | ⟨x, rfl, hx, hset, hscript⟩
        · exact reads_shortKey hb hx hscript
        · exact reads_longKey hkeys hx hset hscript
      | none =>
        simp only [Option.bind_none]
        have hn : ((script.length + nSpecialScripts : Nat) : Int).toNat < 2 ^ 32 := by
          rw [Int.toNat_natCast]
          exact hlen
        unfold unserializeScript
        refine (reads_varInt (Int.natCast_nonneg _) hn).bind ?_
        rw [Int.toNat_natCast, if_neg (by omega), Nat.add_sub_cancel]
        exact reads_bytes rfl

/-! ## Outputs -/

/-- An output that coins hold: spent, or with an amount of money and a script whose size an `unsigned int` counts. -/
def CTxOut.Storable (txout : CTxOut) : Prop :=
  txout = CTxOut.null ∨ moneyRange txout.nValue = true ∧ txout.scriptPubKey.length + nSpecialScripts < 2 ^ 32

/-- **An output is read back from its compressed form.** -/
theorem reads_txOut (hkeys : KeyRoundTrip cr uncompressed) {txout : CTxOut} (hvalue : moneyRange txout.nValue = true)
    (hlen : txout.scriptPubKey.length + nSpecialScripts < 2 ^ 32) :
    Reads (unserializeTxOut cr uncompressed) (serializeTxOut cr txout) txout := by
  obtain ⟨hnonneg, hmax⟩ := moneyRange_iff.mp hvalue
  have hmoney : maxMoney = 20000000000000 := by decide
  have huint : toUInt64 txout.nValue = txout.nValue.toNat := by
    unfold toUInt64
    omega
  obtain ⟨hback, hfits⟩ := decompressAmount_compressAmount (n := txout.nValue.toNat) (by omega)
  unfold unserializeTxOut serializeTxOut
  rw [huint]
  refine (reads_varInt (Int.natCast_nonneg _) (by rwa [Int.toNat_natCast])).bind ?_
  have hscript := (reads_script hkeys hlen).map fun script =>
    ({ nValue := toInt64 (decompressAmount (compressAmount txout.nValue.toNat)), scriptPubKey := script } : CTxOut)
  have hvalue : toInt64 (decompressAmount (compressAmount txout.nValue.toNat)) = txout.nValue := by
    rw [hback]
    unfold toInt64
    rw [Int.bmod_eq_of_le] <;> omega
  rw [Int.toNat_natCast]
  rw [hvalue] at hscript ⊢
  exact hscript

/-- Reading the outputs that are not spent. -/
theorem reads_txOuts (hkeys : KeyRoundTrip cr uncompressed) : ∀ {vout : List CTxOut}, (∀ o ∈ vout, o.Storable) →
    Reads (CCoins.readTxOuts cr uncompressed (vout.map (! ·.isNull)))
      ((vout.filter (! ·.isNull)).flatMap (serializeTxOut cr)) vout
  | [], _ => .pure _
  | o :: vout, h => by
    have ih := reads_txOuts hkeys fun o' ho' => h o' (List.mem_cons_of_mem _ ho')
    rw [List.map_cons, CCoins.readTxOuts]
    rcases h o List.mem_cons_self with rfl | ⟨hvalue, hlen⟩
    · rw [List.filter_cons, if_neg (by decide)]
      exact ih.map (CTxOut.null :: ·)
    · have hunspent : (! o.isNull) = true := by
        have := (moneyRange_iff.mp hvalue).1
        unfold CTxOut.isNull
        simp only [Bool.not_eq_true', decide_eq_false_iff_not]
        omega
      rw [List.filter_cons, hunspent, if_pos rfl, if_pos rfl, List.flatMap_cons]
      exact (reads_txOut hkeys hvalue hlen).bind (ih.map (o :: ·))

end Keys

/-! ## The mask -/

namespace CCoins

/-- The bits of a group of outputs, of which there are eight in a byte. -/
def maskBits (bits : List Bool) : UInt8 :=
  bits.zipIdx.foldl (fun chAvail b => if b.1 then chAvail ||| (1 <<< UInt8.ofNat b.2) else chAvail) 0

/-- The bit at a position. -/
def maskBit (chAvail : UInt8) (p : Nat) : Bool := chAvail &&& (1 <<< UInt8.ofNat p) ≠ 0

theorem availByte_eq (group : List CTxOut) : availByte group = maskBits (group.map (! ·.isNull)) := by
  unfold availByte maskBits
  rw [List.zipIdx_map, List.foldl_map]
  congr 1
  funext chAvail o
  cases h : o.1.isNull <;> simp [h]

/-- Eight bits are read back from their byte, which is zero only if they all are. -/
theorem maskBits_eight : ∀ a b c d e f g h : Bool,
    (List.range 8).map (maskBit (maskBits [a, b, c, d, e, f, g, h])) = [a, b, c, d, e, f, g, h] ∧
      (maskBits [a, b, c, d, e, f, g, h] = 0 ↔ [a, b, c, d, e, f, g, h].all (! ·) = true) := by
  decide +kernel

/-- Bits that are not set at the end do not matter. -/
theorem maskBits_append (bits : List Bool) (k : Nat) : maskBits (bits ++ List.replicate k false) = maskBits bits := by
  induction k with
  | zero => rw [List.replicate_zero, List.append_nil]
  | succ k ih =>
    rw [List.replicate_succ', ← List.append_assoc]
    unfold maskBits at ih ⊢
    rw [List.zipIdx_append, List.foldl_append, ih]
    rfl

/-- The outputs of a group, filled up to eight with spent ones. -/
def fill (group : List CTxOut) : List CTxOut := group ++ List.replicate (8 - group.length) CTxOut.null

/-- The byte of a group of at most eight outputs is read back as the outputs that are not spent. -/
theorem availByte_spec {group : List CTxOut} (h : group.length ≤ 8) :
    (List.range 8).map (maskBit (availByte group)) = (fill group).map (! ·.isNull) ∧
      (availByte group = 0 ↔ group.all (·.isNull) = true) := by
  have hbits : availByte group = maskBits ((fill group).map (! ·.isNull)) := by
    rw [availByte_eq, fill, List.map_append, List.map_replicate]
    exact (maskBits_append _ _).symm
  have hlen : ((fill group).map (! ·.isNull)).length = 8 := by
    rw [fill, List.length_map, List.length_append, List.length_replicate]
    omega
  have hall : group.all (·.isNull) = ((fill group).map (! ·.isNull)).all (! ·) := by
    rw [fill, List.all_map, List.all_append, List.all_replicate]
    simp [Function.comp_def, CTxOut.null, CTxOut.isNull]
  rw [hbits, hall]
  generalize (fill group).map (! ·.isNull) = bits at hlen
  match bits, hlen with
  | [a, b, c, d, e, f, g, h], _ => exact maskBits_eight a b c d e f g h

/-- Reading bytes of which the last one is not zero, as many of them as are counted. -/
theorem reads_mask : ∀ {mask : Bytes}, (∀ b ∈ mask.getLast?, b ≠ 0) →
    Reads (readMask (mask.countP (· ≠ 0))) mask (mask.flatMap fun chAvail => (List.range 8).map (maskBit chAvail))
  | [], _ => fun _ => by rw [List.countP_nil, readMask]; rfl
  | chAvail :: mask, h => by
    intro rest
    have hrest : ∀ b ∈ mask.getLast?, b ≠ 0 := by
      intro b hb
      cases mask with
      | nil => cases hb
      | cons c mask => exact h b (by rwa [List.getLast?_cons_cons])
    have hcount : 0 < (chAvail :: mask).countP (· ≠ 0) := by
      refine List.countP_pos_iff.mpr ⟨_, List.getLast_mem (List.cons_ne_nil chAvail mask), decide_eq_true ?_⟩
      exact h _ (List.getLast?_eq_getLast_of_ne_nil _)
    obtain ⟨k, hk⟩ : ∃ k, (chAvail :: mask).countP (· ≠ 0) = k + 1 := ⟨_, (Nat.succ_pred_eq_of_pos hcount).symm⟩
    have hnext : (if chAvail ≠ 0 then k else k + 1) = mask.countP (· ≠ 0) := by
      rw [List.countP_cons] at hk
      by_cases hz : chAvail = 0 <;> simp [hz] at hk ⊢ <;> omega
    rw [hk, List.cons_append, readMask, hnext, reads_mask hrest]
    rfl

/-! ## The groups of the mask -/

/-- All outputs of the group are spent. -/
def allNull (group : List CTxOut) : Bool := group.all (·.isNull)

theorem maskGroups_cons (o : CTxOut) (vout : List CTxOut) :
    maskGroups (o :: vout) = (o :: vout.take 7) :: maskGroups (vout.drop 7) := by rw [maskGroups]

theorem length_of_mem_maskGroups : ∀ {vout : List CTxOut}, ∀ group ∈ maskGroups vout, group.length ≤ 8
  | [], _, h => by rw [maskGroups] at h; cases h
  | o :: vout, group, h => by
    rw [maskGroups_cons] at h
    rcases List.mem_cons.mp h with rfl | h
    · rw [List.length_cons, List.length_take]
      omega
    · exact length_of_mem_maskGroups group h
termination_by vout => vout.length
decreasing_by
  rw [List.length_drop, List.length_cons]
  omega

/-- `CalcMaskSize` counts the groups up to the last one with an output, and those with an output. -/
theorem calcMaskSize_eq (coins : CCoins) :
    coins.calcMaskSize = (((maskGroups (coins.vout.drop 2)).rdropWhile allNull).length,
      (maskGroups (coins.vout.drop 2)).countP (! allNull ·)) := by
  unfold calcMaskSize
  induction maskGroups (coins.vout.drop 2) using List.reverseRecOn with
  | nil => rfl
  | append_singleton groups group ih =>
    rw [List.zipIdx_append, List.foldl_append, ih, List.rdropWhile_concat, List.countP_append]
    show (if allNull group then _ else _) = _
    cases h : allNull group
    · simp [h]
    · simp [h]

/-- The groups of which the mask has a byte. -/
def usedGroups (vout : List CTxOut) : List (List CTxOut) := (maskGroups (vout.drop 2)).rdropWhile allNull

/-- The bytes of the mask. -/
theorem mask_eq (coins : CCoins) : ((maskGroups (coins.vout.drop 2)).take coins.calcMaskSize.1).map availByte =
    (usedGroups coins.vout).map availByte := by
  rw [calcMaskSize_eq]
  exact congrArg (List.map availByte) (List.prefix_iff_eq_take.mp (List.rdropWhile_prefix _ _)).symm

/-- The groups that are left out have no output. -/
theorem countP_usedGroups (coins : CCoins) :
    ((usedGroups coins.vout).map availByte).countP (· ≠ 0) = coins.calcMaskSize.2 := by
  have hlen : ∀ group ∈ usedGroups coins.vout, group.length ≤ 8 := fun group hg =>
    length_of_mem_maskGroups group ((List.rdropWhile_prefix _ _).subset hg)
  rw [calcMaskSize_eq, List.countP_map]
  have hbyte : (usedGroups coins.vout).countP ((fun b => decide (b ≠ 0)) ∘ availByte) =
      (usedGroups coins.vout).countP (! allNull ·) := by
    refine List.countP_congr fun group hg => ?_
    simp only [Function.comp, decide_eq_true_eq, Bool.not_eq_true', ne_eq, (availByte_spec (hlen group hg)).2]
    unfold allNull
    rw [Bool.not_eq_true]
  rw [hbyte]
  unfold usedGroups
  induction maskGroups (coins.vout.drop 2) using List.reverseRecOn with
  | nil => rfl
  | append_singleton groups group ih =>
    rw [List.rdropWhile_concat]
    cases h : allNull group
    · rfl
    · simp [h, ih]

/-- The last byte of the mask is not zero. -/
theorem mask_last (vout : List CTxOut) : ∀ b ∈ ((usedGroups vout).map availByte).getLast?, b ≠ 0 := by
  intro b hb hzero
  rw [List.getLast?_map] at hb
  obtain ⟨group, hgroup, rfl⟩ := Option.map_eq_some_iff.mp hb
  have hne : usedGroups vout ≠ [] := fun hnil => by rw [hnil] at hgroup; cases hgroup
  have hlast : (usedGroups vout).getLast hne = group := by
    rw [List.getLast?_eq_getLast_of_ne_nil hne] at hgroup
    exact Option.some.inj hgroup
  have hmem : group ∈ maskGroups (vout.drop 2) :=
    (List.rdropWhile_prefix _ _).subset (hlast ▸ List.getLast_mem hne)
  have hall := (availByte_spec (length_of_mem_maskGroups group hmem)).2.mp hzero
  exact List.rdropWhile_last_not allNull _ hne (hlast ▸ hall)

/-- Spent outputs are those that the null output stands for. -/
def SpentAreNull (vout : List CTxOut) : Prop := ∀ o ∈ vout, o.isNull = true → o = CTxOut.null

theorem allNull_eq_replicate {vout : List CTxOut} (h : SpentAreNull vout) (hall : allNull vout = true) :
    vout = List.replicate vout.length CTxOut.null :=
  List.eq_replicate_of_mem fun o ho => h o ho (List.all_eq_true.mp hall o ho)

/-- What is dropped at the end of a list reaches its first element when everything behind it is dropped. -/
theorem rdropWhile_cons {α : Type} (p : α → Bool) (a : α) (l : List α) : (a :: l).rdropWhile p =
    if l.rdropWhile p = [] ∧ p a = true then [] else a :: l.rdropWhile p := by
  unfold List.rdropWhile
  rw [List.reverse_cons, List.dropWhile_append]
  simp only [List.reverse_eq_nil_iff, List.isEmpty_iff]
  by_cases hnil : l.reverse.dropWhile p = []
  · by_cases ha : p a = true <;> simp [hnil, ha]
  · simp [hnil]

/-- A group that is full, unless nothing stands behind it. -/
theorem fill_append {group rest used : List CTxOut} {a b : Nat} (hfull : rest ≠ [] → 8 ≤ group.length)
    (h : used ++ List.replicate a CTxOut.null = rest ++ List.replicate b CTxOut.null) :
    ∃ a b, fill group ++ used ++ List.replicate a CTxOut.null = group ++ rest ++ List.replicate b CTxOut.null := by
  unfold fill
  by_cases hrest : rest = []
  · refine ⟨a, 8 - group.length + b, ?_⟩
    rw [List.append_assoc, h, hrest, List.nil_append, List.append_nil, List.append_assoc,
      List.replicate_append_replicate]
  · refine ⟨a, b, ?_⟩
    rw [Nat.sub_eq_zero_of_le (hfull hrest), List.replicate_zero, List.append_nil, List.append_assoc, h,
      List.append_assoc]

/-- **The groups of the mask stand for the outputs**, up to spent ones at the end. -/
theorem usedGroups_fill : ∀ {vout : List CTxOut}, SpentAreNull vout → ∃ a b,
    ((maskGroups vout).rdropWhile allNull).flatMap fill ++ List.replicate a CTxOut.null =
      vout ++ List.replicate b CTxOut.null
  | [], _ => ⟨0, 0, by rw [maskGroups]; rfl⟩
  | o :: vout, h => by
    obtain ⟨a, b, hrest⟩ := @usedGroups_fill (vout.drop 7) fun x hx =>
      h x (List.mem_cons_of_mem _ (List.mem_of_mem_drop hx))
    have hsplit : o :: vout = (o :: vout.take 7) ++ vout.drop 7 := by
      rw [List.cons_append, List.take_append_drop]
    rw [maskGroups_cons, rdropWhile_cons]
    split
    · -- nothing is left of this group and of those after it
      rename_i hall
      have hnull := allNull_eq_replicate (fun x hx => h x (hsplit ▸ List.mem_append_left _ hx)) hall.2
      rw [hall.1, List.flatMap_nil, List.nil_append] at hrest
      refine ⟨(o :: vout.take 7).length + a, b, ?_⟩
      rw [List.flatMap_nil, List.nil_append, ← List.replicate_append_replicate, ← hnull, hrest, ← List.append_assoc,
        ← hsplit]
    · rw [List.flatMap_cons, hsplit]
      refine fill_append (fun hne => ?_) hrest
      have hlen : 7 < vout.length := by
        by_contra hle
        exact hne (List.drop_eq_nil_of_le (Nat.not_lt.mp hle))
      rw [List.length_cons, List.length_take]
      omega
termination_by vout => vout.length
decreasing_by
  rw [List.length_drop, List.length_cons]
  omega

/-- The outputs that are read: the first two, and those of the mask. -/
def readOutputs (vout : List CTxOut) : List CTxOut :=
  vout.getD 0 CTxOut.null :: vout.getD 1 CTxOut.null :: (usedGroups vout).flatMap fill

/-- They are the outputs, up to spent ones at the end. -/
theorem readOutputs_spec {vout : List CTxOut} (h : SpentAreNull vout) : ∃ a b,
    readOutputs vout ++ List.replicate a CTxOut.null = vout ++ List.replicate b CTxOut.null := by
  have hgroups := @usedGroups_fill (vout.drop 2) fun o ho => h o (List.mem_of_mem_drop ho)
  obtain ⟨a, b, heq⟩ := hgroups
  unfold readOutputs usedGroups
  match vout, heq with
  | [], heq =>
    exact ⟨a, 2 + b, by rw [List.cons_append, List.cons_append, heq, Nat.add_comm 2 b]; rfl⟩
  | [o], heq =>
    exact ⟨a, 1 + b, by rw [List.cons_append, List.cons_append, heq, Nat.add_comm 1 b]; rfl⟩
  | o :: o' :: vout, heq => exact ⟨a, b, by rw [List.cons_append, List.cons_append, heq]; rfl⟩

/-- Spent outputs at the end do not count. -/
theorem filter_append_null (vout : List CTxOut) (k : Nat) :
    (vout ++ List.replicate k CTxOut.null).filter (! ·.isNull) = vout.filter (! ·.isNull) := by
  rw [List.filter_append, List.filter_replicate, if_neg (by decide), List.append_nil]

theorem rdropWhile_append_null (vout : List CTxOut) (k : Nat) :
    (vout ++ List.replicate k CTxOut.null).rdropWhile (·.isNull) = vout.rdropWhile (·.isNull) := by
  induction k with
  | zero => rw [List.replicate_zero, List.append_nil]
  | succ k ih => rw [List.replicate_succ', ← List.append_assoc, List.rdropWhile_concat_pos _ _ _ rfl, ih]

/-! ## The header -/

theorem length_maskGroups_le : ∀ vout : List CTxOut, 8 * (maskGroups vout).length ≤ vout.length + 7
  | [] => by rw [maskGroups]; exact Nat.zero_le 7
  | o :: vout => by
    have ih := length_maskGroups_le (vout.drop 7)
    rw [List.length_drop] at ih
    rw [maskGroups_cons, List.length_cons, List.length_cons]
    omega
termination_by vout => vout.length
decreasing_by
  rw [List.length_drop, List.length_cons]
  omega

theorem calcMaskSize_le (coins : CCoins) : 8 * coins.calcMaskSize.2 ≤ coins.vout.length + 7 := by
  have hlen := length_maskGroups_le (coins.vout.drop 2)
  have hcount := List.countP_le_length (p := fun g => ! allNull g) (l := maskGroups (coins.vout.drop 2))
  rw [List.length_drop] at hlen
  rw [calcMaskSize_eq]
  exact Nat.le_trans (Nat.mul_le_mul_left 8 hcount) (by omega)

theorem hasOutput_eq (coins : CCoins) (n : Nat) :
    coins.hasOutput n = ! (coins.vout.getD n CTxOut.null).isNull := by
  unfold hasOutput
  rw [List.getD_eq_getElem?_getD]
  cases coins.vout[n]? <;> rfl

/-- Coins with an output that is not spent have it among the first two, or in the mask. -/
theorem header_nonempty {coins : CCoins} (hspent : SpentAreNull coins.vout) (h : coins.isPruned = false) :
    coins.hasOutput 0 = true ∨ coins.hasOutput 1 = true ∨ 0 < coins.calcMaskSize.2 := by
  by_contra hnone
  obtain ⟨h₀, hnone⟩ := not_or.mp hnone
  obtain ⟨h₁, hmask⟩ := not_or.mp hnone
  have hused : usedGroups coins.vout = [] := by
    by_contra hne
    refine hmask ?_
    rw [← countP_usedGroups]
    refine List.countP_pos_iff.mpr ⟨_, List.getLast_mem (List.map_eq_nil_iff.not.mpr hne), decide_eq_true ?_⟩
    exact mask_last _ _ (List.getLast?_eq_getLast_of_ne_nil _)
  obtain ⟨a, b, heq⟩ := readOutputs_spec hspent
  have hfilter : coins.vout.filter (! ·.isNull) = [] := by
    rw [← filter_append_null _ b, ← heq, filter_append_null]
    rw [hasOutput_eq] at h₀ h₁
    unfold readOutputs
    rw [hused, List.flatMap_nil, List.filter_cons, if_neg h₀, List.filter_cons, if_neg h₁]
    rfl
  have hall : coins.isPruned = true := by
    unfold isPruned
    rw [List.all_eq_true]
    intro o ho
    simpa using List.filter_eq_nil_iff.mp hfilter o ho
  rw [h] at hall
  cases hall

/-- The low bits of a number do not see what is eight times another. -/
theorem and_low {k r m : Nat} (hm : m < 8) : (8 * k + r) &&& m = r &&& m := by
  have hlt : ∀ n, n &&& m < 2 ^ 3 := fun n => Nat.lt_of_le_of_lt Nat.and_le_right hm
  rw [← Nat.mod_eq_of_lt (hlt (8 * k + r)), ← Nat.mod_eq_of_lt (hlt r), Nat.and_mod_two_pow,
    Nat.and_mod_two_pow (a := r)]
  congr 1
  omega

/-- **The header code** gives back its flags and the number of bytes of the mask that are not zero. -/
theorem headerCode_spec {coins : CCoins}
    (h : coins.hasOutput 0 = true ∨ coins.hasOutput 1 = true ∨ 0 < coins.calcMaskSize.2)
    (hlen : coins.vout.length + 14 < 2 ^ 32) :
    0 ≤ coins.headerCode ∧ coins.headerCode.toNat < 2 ^ 32 ∧
      decide (coins.headerCode.toNat &&& 1 ≠ 0) = coins.fCoinBase ∧
      decide (coins.headerCode.toNat &&& 2 ≠ 0) = coins.hasOutput 0 ∧
      decide (coins.headerCode.toNat &&& 4 ≠ 0) = coins.hasOutput 1 ∧
      coins.headerCode.toNat / 8 + (if coins.headerCode.toNat &&& 6 ≠ 0 then 0 else 1) = coins.calcMaskSize.2 := by
  have hle := calcMaskSize_le coins
  obtain ⟨k, hk⟩ : ∃ k, k + (if coins.hasOutput 0 || coins.hasOutput 1 then 0 else 1) = coins.calcMaskSize.2 := by
    refine ⟨coins.calcMaskSize.2 - (if coins.hasOutput 0 || coins.hasOutput 1 then 0 else 1), Nat.sub_add_cancel ?_⟩
    rcases h with h | h | h
    · rw [h]; exact Nat.zero_le _
    · rw [h, Bool.or_true]; exact Nat.zero_le _
    · split
      · exact Nat.zero_le _
      · exact h
  obtain ⟨r, hr⟩ : ∃ r : Nat, r = (if coins.fCoinBase then 1 else 0) + (if coins.hasOutput 0 then 2 else 0) +
    (if coins.hasOutput 1 then 4 else 0) := ⟨_, rfl⟩
  have hcode : coins.headerCode = ((8 * k + r : Nat) : Int) := by
    unfold headerCode
    rw [← hk, hr]
    cases coins.hasOutput 0 <;> cases coins.hasOutput 1 <;> cases coins.fCoinBase <;> simp <;> omega
  rw [hcode, Int.toNat_natCast, and_low (by decide), and_low (by decide), and_low (by decide), and_low (by decide)]
  cases h₀ : coins.hasOutput 0 <;> cases h₁ : coins.hasOutput 1 <;> cases hb : coins.fCoinBase <;>
    simp only [h₀, h₁, hb, Bool.or_self, Bool.or_true, Bool.true_or, Bool.false_eq_true, if_true, if_false] at hr hk <;>
    subst hr <;> rw [← hk] <;>
    exact ⟨Int.natCast_nonneg _, by omega, rfl, rfl, rfl, congrArg₂ (· + ·) (by omega) rfl⟩

/-! ## Coins -/

/-- Coins whose fields a record carries. -/
structure Storable (coins : CCoins) : Prop where
  vout : ∀ o ∈ coins.vout, o.Storable
  outputs : coins.vout.length + 14 < 2 ^ 32
  nVersion : 0 ≤ coins.nVersion ∧ coins.nVersion < 2 ^ 31
  nHeight : 0 ≤ coins.nHeight ∧ coins.nHeight < 2 ^ 31
  nTime : coins.nTime < 2 ^ 32

/-- Reading a number of the type `int`. -/
theorem reads_varInt32 {n : Int} (h : 0 ≤ n ∧ n < 2 ^ 31) : Reads readVarInt32 (writeVarInt n) n := by
  have hread := (reads_varInt (w := 32) h.1 (by omega)).map fun m : Nat => Int.bmod m (2 ^ 32)
  have hback : Int.bmod (n.toNat : Int) (2 ^ 32) = n := by
    rw [Int.bmod_eq_of_le] <;> omega
  rwa [hback] at hread

/-- Reading a number of an unsigned type. -/
theorem reads_varUInt {w n : Nat} (h : n < 2 ^ w) : Reads (readVarInt w) (writeVarInt n) n :=
  reads_varInt (Int.natCast_nonneg n) h

theorem Storable.spentAreNull {coins : CCoins} (h : coins.Storable) : SpentAreNull coins.vout := by
  intro o ho hnull
  refine (h.vout o ho).resolve_right fun hvalue => ?_
  have hnonneg := (moneyRange_iff.mp hvalue.1).1
  unfold CTxOut.isNull at hnull
  have := of_decide_eq_true hnull
  omega

section Keys

variable {cr : Crypto} {uncompressed : Bytes → Bytes}

/-- **Coins are read back**, but for the spent outputs at their end. -/
theorem reads_coins (hkeys : KeyRoundTrip cr uncompressed) {coins : CCoins} (h : coins.Storable)
    (hunspent : coins.isPruned = false) :
    Reads (unserialize cr uncompressed) (coins.serialize cr) coins.cleanup := by
  have hnull := h.spentAreNull
  obtain ⟨hcode, hfits, hcoinbase, hfirst, hsecond, hmaskCode⟩ :=
    headerCode_spec (header_nonempty hnull hunspent) h.outputs
  obtain ⟨a, b, hread⟩ := readOutputs_spec hnull
  unfold serialize unserialize
  simp only [List.append_assoc]
  refine (reads_varInt32 h.nVersion).bind ((reads_varInt hcode hfits).bind ?_)
  rw [hcoinbase, hfirst, hsecond, hmaskCode, mask_eq, ← countP_usedGroups]
  refine (reads_mask (mask_last coins.vout)).bind ?_
  have hflags : coins.hasOutput 0 :: coins.hasOutput 1 ::
      ((usedGroups coins.vout).map availByte).flatMap (fun chAvail => (List.range 8).map (maskBit chAvail)) =
        (readOutputs coins.vout).map (! ·.isNull) := by
    have hgroups : ((usedGroups coins.vout).map availByte).flatMap (fun chAvail => (List.range 8).map (maskBit chAvail)) =
        ((usedGroups coins.vout).flatMap fill).map (! ·.isNull) := by
      rw [List.flatMap_map, List.map_flatMap]
      refine List.flatMap_congr fun group hg => (availByte_spec ?_).1
      exact length_of_mem_maskGroups group ((List.rdropWhile_prefix _ _).subset hg)
    rw [hgroups, hasOutput_eq, hasOutput_eq]
    rfl
  have houtputs : ∀ o ∈ readOutputs coins.vout, o.Storable := by
    intro o ho
    have hmem : o ∈ coins.vout ++ List.replicate b CTxOut.null := hread ▸ List.mem_append_left _ ho
    rcases List.mem_append.mp hmem with ho | ho
    · exact h.vout o ho
    · exact .inl (List.mem_replicate.mp ho).2
  have hfilter : (readOutputs coins.vout).filter (! ·.isNull) = coins.vout.filter (! ·.isNull) := by
    rw [← filter_append_null _ a, hread, filter_append_null]
  rw [hflags, ← hfilter]
  refine (reads_txOuts hkeys houtputs).bind ?_
  refine (reads_varInt32 h.nHeight).bind ?_
  have hflag : Reads (readVarInt 32) (writeVarInt (if coins.fCoinStake then 1 else 0)) (if coins.fCoinStake then 1 else 0) := by
    cases coins.fCoinStake
    · exact reads_varUInt (Nat.two_pow_pos 32)
    · exact reads_varUInt (Nat.one_lt_two_pow (by decide))
  refine hflag.bind ((reads_varUInt h.nTime).bind ?_)
  have hunit := (reads_varUInt (w := 8) coins.cUnit.toNat_lt).map fun cUnit => cleanup
    { fCoinBase := coins.fCoinBase, vout := readOutputs coins.vout, nHeight := coins.nHeight, nVersion := coins.nVersion
      fCoinStake := decide ((if coins.fCoinStake then 1 else 0) &&& 1 ≠ 0), nTime := coins.nTime
      cUnit := UInt8.ofNat cUnit }
  have hback : cleanup
      { fCoinBase := coins.fCoinBase, vout := readOutputs coins.vout, nHeight := coins.nHeight, nVersion := coins.nVersion
        fCoinStake := decide ((if coins.fCoinStake then 1 else 0) &&& 1 ≠ 0), nTime := coins.nTime
        cUnit := UInt8.ofNat coins.cUnit.toNat } = coins.cleanup := by
    have hvout : (readOutputs coins.vout).rdropWhile (·.isNull) = coins.vout.rdropWhile (·.isNull) := by
      rw [← rdropWhile_append_null _ a, hread, rdropWhile_append_null]
    have hstake : decide ((if coins.fCoinStake then 1 else 0) &&& 1 ≠ 0) = coins.fCoinStake := by
      cases coins.fCoinStake <;> rfl
    rw [hstake, UInt8.ofNat_toNat]
    unfold cleanup
    simp only [CCoins.mk.injEq, true_and, and_true]
    exact hvout
  rwa [hback] at hunit

end Keys

end CCoins

end Morcochain
