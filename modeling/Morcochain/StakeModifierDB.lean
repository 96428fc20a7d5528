import Morcochain.VarInt
import Morcochain.Lib.OrderedStore

/-!
# Stake modifier records in the block tree database

`WriteStakeModifier`, `EraseStakeModifier` and `FindStakeModifierAt` of `txdb.cpp`, over a database that iterates its
keys in bytewise lexicographic order. The records of the modifiers represent a table from times to modifiers
(`Represents`), which is kept by writes (`represents_write`) and erasures (`represents_erase`).

* `findStakeModifierAt_eq_seek_iff` : **exactly when** the lookup in the database gives the first record at or after a
  time, in terms of the encoded keys.
* `findsFirst_iff_inPlace` : the same for the records of any list of writes, in terms of their times.
* `findsFirstWithin_iff` : **the windows of time in which every lookup is right**.
-/

set_option autoImplicit false

namespace Morcochain

open OrderedStore

/-- The database behind `CBlockTreeDB`. -/
abbrev BlockTreeDB := Store Bytes Bytes

def stakeModifierMinTime : Int := 1388534400

/-! ## Records -/

/-- The key of the record for a modifier generated at `nTime`: `make_pair('m', VARINT(nTime -
STAKE_MODIFIER_MIN_TIME))`. -/
def keyStakeModifier (nTime : Int) : Bytes := 0x6d :: writeVarInt (nTime - stakeModifierMinTime)

/-- The first `k` bytes of a number, least significant byte first. -/
def writeLE : Nat → Nat → Bytes
  | 0, _ => []
  | k + 1, n => UInt8.ofNat n :: writeLE k (n / 256)

/-- The number that bytes hold, least significant byte first. -/
def readLE : Bytes → Nat
  | [] => 0
  | b :: l => b.toNat + 256 * readLE l

/-- The value of a record: a `uint64`. -/
def writeModifier (nModifier : UInt64) : Bytes := writeLE 8 nModifier.toNat

/-- Read a `uint64`. -/
def readModifier (slValue : Bytes) : Option UInt64 :=
  if slValue.length < 8 then none else some (UInt64.ofNat (readLE (slValue.take 8)))

/-- `CBlockTreeDB::WriteStakeModifier`. -/
def writeStakeModifier (db : BlockTreeDB) (nIntervalStart : Int) (nModifier : UInt64) : BlockTreeDB :=
  db.insert (keyStakeModifier nIntervalStart) (writeModifier nModifier)

/-- `CBlockTreeDB::EraseStakeModifier`. -/
def eraseStakeModifier (db : BlockTreeDB) (nIntervalStart : Int) : BlockTreeDB :=
  db.erase (keyStakeModifier nIntervalStart)

/-- What `FindStakeModifierAt` reads from the record under the cursor. A key or a value that is too short makes the
deserialization throw. -/
def readStakeModifierRecord : Bytes × Bytes → Option (Int × UInt64)
  | ([], _) => none
  | (chType :: ssKey, slValue) =>
    if chType = 0x6d then do
      let (n, _) ← readVarInt 64 ssKey
      let nModifierRet ← readModifier slValue
      return ((UInt64.ofNat n).toInt64.toInt + stakeModifierMinTime, nModifierRet)
    else none

/-- `CBlockTreeDB::FindStakeModifierAt`: the time and the modifier it returns, `none` when it returns false. -/
def findStakeModifierAt (db : BlockTreeDB) (nEnd : Int) : Option (Int × UInt64) :=
  (db.seek (keyStakeModifier nEnd)).bind readStakeModifierRecord

/-! ## Reading records -/

theorem readLE_writeLE : ∀ (k n : Nat), readLE (writeLE k n) = n % 256 ^ k
  | 0, n => by simp [writeLE, readLE, Nat.mod_one]
  | k + 1, n => by
    rw [writeLE, readLE, readLE_writeLE k, UInt8.toNat_ofNat', show 256 ^ (k + 1) = 256 * 256 ^ k from Nat.pow_succ',
      Nat.mod_mul]

theorem length_writeLE : ∀ (k n : Nat), (writeLE k n).length = k
  | 0, _ => rfl
  | k + 1, n => by rw [writeLE, List.length_cons, length_writeLE k]

theorem readModifier_writeModifier (m : UInt64) : readModifier (writeModifier m) = some m := by
  have hlen := length_writeLE 8 m.toNat
  have hlt := m.toNat_lt
  rw [readModifier, writeModifier, if_neg (by omega), List.take_of_length_le (by omega), readLE_writeLE,
    Nat.mod_eq_of_lt (by omega), UInt64.ofNat_toNat]

/-- A time whose record can be written and read: from `STAKE_MODIFIER_MIN_TIME` on, in an `int64`. -/
def IsRecordTime (t : Int) : Prop := stakeModifierMinTime ≤ t ∧ t < 2 ^ 63

instance (t : Int) : Decidable (IsRecordTime t) := by
  unfold IsRecordTime
  infer_instance

theorem keyStakeModifier_inj {a b : Int} (ha : IsRecordTime a) (hb : IsRecordTime b)
    (h : keyStakeModifier a = keyStakeModifier b) : a = b := by
  have hw := writeVarInt_inj (Int.sub_nonneg.mpr ha.1) (Int.sub_nonneg.mpr hb.1) (List.cons.inj h).2
  omega

theorem toInt_toInt64_ofNat {n : Nat} (h : n < 2 ^ 63) : (UInt64.ofNat n).toInt64.toInt = n := by
  have hlt : n < 2 ^ 64 := by omega
  show (UInt64.ofNat n).toBitVec.toInt = n
  rw [BitVec.toInt_eq_toNat_of_lt]
  · rw [UInt64.toNat_toBitVec, UInt64.toNat_ofNat_of_lt' hlt]
  · rw [UInt64.toNat_toBitVec, UInt64.toNat_ofNat_of_lt' hlt]
    omega

/-- Reading the record that was written for a time gives back the time and the modifier. -/
theorem readStakeModifierRecord_written {t : Int} (h : IsRecordTime t) (m : UInt64) :
    readStakeModifierRecord (keyStakeModifier t, writeModifier m) = some (t, m) := by
  obtain ⟨hmin, hmax⟩ := h
  have hm : stakeModifierMinTime = 1388534400 := rfl
  have hread := readVarInt_writeVarInt (w := 64) (n := t - stakeModifierMinTime) [] (by omega) (by omega)
  rw [List.append_nil] at hread
  simp only [keyStakeModifier, readStakeModifierRecord, if_true, hread, readModifier_writeModifier,
    Option.bind_eq_bind, Option.bind_some, Option.pure_def, Option.some.injEq, Prod.mk.injEq, and_true]
  rw [toInt_toInt64_ofNat (by omega)]
  omega

/-! ## The table that the records represent -/

/-- A table from times to modifiers. -/
abbrev StakeModifierTable := Store Int UInt64

/-- A key of the modifier records: its first byte is `'m'`. -/
def IsModifierKey (k : Bytes) : Prop := k.head? = some 0x6d

instance : DecidablePred IsModifierKey := fun k => by
  unfold IsModifierKey
  infer_instance

/-- The modifier records of the database are those of a table. -/
abbrev Represents (table : StakeModifierTable) (db : BlockTreeDB) : Prop :=
  Image keyStakeModifier writeModifier IsRecordTime IsModifierKey table db

/-- A write keeps the database in step with the table. -/
theorem represents_write {table : StakeModifierTable} {db : BlockTreeDB} (h : Represents table db) {t : Int}
    (ht : IsRecordTime t) (m : UInt64) : Represents (table.insert t m) (writeStakeModifier db t m) :=
  h.insert ht m

/-- An erasure keeps the database in step with the table. -/
theorem represents_erase {table : StakeModifierTable} {db : BlockTreeDB} (h : Represents table db) {t : Int}
    (ht : IsRecordTime t) : Represents (table.erase t) (eraseStakeModifier db t) :=
  h.erase ht

/-- A database without modifier records represents the empty table. -/
theorem represents_empty {db : BlockTreeDB} (h : ∀ k, IsModifierKey k → db.find? k = none) :
    Represents Store.empty db where
  inj _ _ := keyStakeModifier_inj
  dom t _ hk := absurd ((Store.find?_empty t).symm.trans hk) nofun
  fwd t _ hk := absurd ((Store.find?_empty t).symm.trans hk) nofun
  bwd e _ he hw := absurd ((h e he).symm.trans hw) nofun

/-- The modifier keys have no other key between them. -/
theorem isModifierKey_between {a b c : Bytes} (ha : IsModifierKey a) (hc : IsModifierKey c) (hab : a ≤ b)
    (hbc : b ≤ c) : IsModifierKey b := by
  obtain ⟨a', rfl⟩ : ∃ a', a = 0x6d :: a' := List.head?_eq_some_iff.mp ha
  obtain ⟨c', rfl⟩ : ∃ c', c = 0x6d :: c' := List.head?_eq_some_iff.mp hc
  cases b with
  | nil => exact absurd (List.nil_lt_cons _ _) (Std.not_lt.mpr hab)
  | cons y b =>
    have h₁ := mt List.cons_lt_cons_iff.mpr (Std.not_lt.mpr hab)
    have h₂ := mt List.cons_lt_cons_iff.mpr (Std.not_lt.mpr hbc)
    rw [not_or] at h₁ h₂
    have hy : y = 0x6d := Std.le_antisymm (Std.not_lt.mp h₂.1) (Std.not_lt.mp h₁.1)
    rw [hy]
    rfl

theorem isModifierKey_key (t : Int) : IsModifierKey (keyStakeModifier t) := rfl

/-- The lookup reads the record that the cursor shows, if it is one of the modifiers. -/
theorem findStakeModifierAt_eq (db : BlockTreeDB) (nEnd : Int) :
    findStakeModifierAt db nEnd =
      (db.seekIn IsModifierKey (keyStakeModifier nEnd)).bind readStakeModifierRecord := by
  unfold findStakeModifierAt Store.seekIn
  cases db.seek (keyStakeModifier nEnd) with
  | none => rfl
  | some e =>
    obtain ⟨k, v⟩ := e
    by_cases hk : IsModifierKey k
    · simp [Option.filter, hk]
    · cases k with
      | nil => simp [Option.filter, hk, readStakeModifierRecord]
      | cons chType k =>
        have hne : chType ≠ 0x6d := fun h => hk (congrArg some h)
        simp [Option.filter, hk, readStakeModifierRecord, hne]

/-- **Exactly when** the lookup in the database is the lookup in the table: the encoded keys are in place. -/
theorem findStakeModifierAt_eq_seek_iff {table : StakeModifierTable} {db : BlockTreeDB} (h : Represents table db)
    (nEnd : Int) :
    findStakeModifierAt db nEnd = table.seek nEnd ↔
      InPlace keyStakeModifier table nEnd (keyStakeModifier nEnd) := by
  rw [← h.seek_iff (fun _ _ _ => isModifierKey_between) (fun k _ => isModifierKey_key k) (isModifierKey_key nEnd),
    findStakeModifierAt_eq]
  constructor
  · intro hfind
    cases hs : db.seekIn IsModifierKey (keyStakeModifier nEnd) with
    | none =>
      rw [hs, Option.bind_none] at hfind
      rw [← hfind, Option.map_none]
    | some e =>
      obtain ⟨he, hD, -⟩ := (Store.seekIn_eq_some (fun _ _ _ => isModifierKey_between) (isModifierKey_key nEnd)).mp hs
      obtain ⟨t, m, htm, hk, hv⟩ := h.bwd e.1 e.2 hD he
      have hread : readStakeModifierRecord e = some (t, m) := by
        rw [← readStakeModifierRecord_written (h.dom t m htm) m, ← hk, ← hv]
      rw [hs, Option.bind_some, hread] at hfind
      rw [← hfind, Option.map_some, ← hk, ← hv]
  · intro hseek
    rw [hseek]
    cases ht : table.seek nEnd with
    | none => rfl
    | some e =>
      obtain ⟨t, m⟩ := e
      have hdom := h.dom t m (Store.seek_eq_some.mp ht).1
      exact readStakeModifierRecord_written hdom m

/-! ## The lookup in terms of times -/

/-- The offset whose encoding the cursor is placed at: for a time before `STAKE_MODIFIER_MIN_TIME` a single byte is
written. -/
def seekOffset (nEnd : Int) : Int :=
  if nEnd < stakeModifierMinTime then (nEnd - stakeModifierMinTime) % 128 else nEnd - stakeModifierMinTime

theorem seekOffset_nonneg (nEnd : Int) : 0 ≤ seekOffset nEnd := by
  unfold seekOffset
  split <;> omega

theorem keyStakeModifier_eq (nEnd : Int) : keyStakeModifier nEnd = 0x6d :: writeVarInt (seekOffset nEnd) := by
  unfold keyStakeModifier seekOffset
  split
  · rename_i h
    congr 1
    rw [writeVarInt_small (by omega), writeVarInt_small (by omega)]
    simp only [varIntByte, Int.emod_emod_of_dvd, Int.dvd_refl]
  · rfl

/-- The record of time `t` comes before the position sought for `nEnd`. -/
def BeforeSeek (t nEnd : Int) : Prop := varIntBefore (t - stakeModifierMinTime) (seekOffset nEnd)

/-- The record of time `t` comes before the record of time `t'`. -/
def BeforeRecord (t t' : Int) : Prop := varIntBefore (t - stakeModifierMinTime) (t' - stakeModifierMinTime)

theorem keyStakeModifier_lt_seek {t nEnd : Int} (ht : IsRecordTime t) :
    keyStakeModifier t < keyStakeModifier nEnd ↔ BeforeSeek t nEnd := by
  rw [keyStakeModifier_eq nEnd, keyStakeModifier, List.cons_lt_cons_iff, BeforeSeek,
    ← writeVarInt_lt_iff (Int.sub_nonneg.mpr ht.1) (seekOffset_nonneg nEnd)]
  simp [Std.lt_irrefl]

theorem keyStakeModifier_lt_key {t t' : Int} (ht : IsRecordTime t) (ht' : IsRecordTime t') :
    keyStakeModifier t < keyStakeModifier t' ↔ BeforeRecord t t' := by
  rw [keyStakeModifier, keyStakeModifier, List.cons_lt_cons_iff, BeforeRecord,
    ← writeVarInt_lt_iff (Int.sub_nonneg.mpr ht.1) (Int.sub_nonneg.mpr ht'.1)]
  simp [Std.lt_irrefl]

/-- The records of `times` are in place for a lookup at `nEnd`: the first time from `nEnd` on is not before the
position sought, every other record is before that position or after the first one, and when no time is from `nEnd` on
every record is before the position sought. -/
def RecordsInPlace (times : List Int) (nEnd : Int) : Prop :=
  (∀ t ∈ times, nEnd ≤ t → (∀ t' ∈ times, nEnd ≤ t' → t ≤ t') →
    ¬ BeforeSeek t nEnd ∧ ∀ t' ∈ times, t' ≠ t → BeforeSeek t' nEnd ∨ BeforeRecord t t') ∧
  ((∀ t ∈ times, t < nEnd) → ∀ t ∈ times, BeforeSeek t nEnd)

/-- The database after a list of writes. -/
def writeStakeModifiers (db : BlockTreeDB) (writes : List (Int × UInt64)) : BlockTreeDB :=
  writes.foldl (fun db w => writeStakeModifier db w.1 w.2) db

/-- The modifier written last for a time. -/
def lastWritten (writes : List (Int × UInt64)) (t : Int) : Option UInt64 :=
  (writes.reverse.find? (fun w => w.1 = t)).map (·.2)

/-- `t` is the least time at or after `nEnd` that was written, and `m` its modifier. -/
def IsFirstAtOrAfter (writes : List (Int × UInt64)) (nEnd t : Int) (m : UInt64) : Prop :=
  lastWritten writes t = some m ∧ nEnd ≤ t ∧ ∀ t' m', lastWritten writes t' = some m' → nEnd ≤ t' → t ≤ t'

/-- The lookup returns the pair with the least time at or after `nEnd`, and fails exactly when there is none. -/
def FindsFirst (db : BlockTreeDB) (writes : List (Int × UInt64)) (nEnd : Int) : Prop :=
  ∀ t m, findStakeModifierAt (writeStakeModifiers db writes) nEnd = some (t, m) ↔ IsFirstAtOrAfter writes nEnd t m

/-- The table of a list of writes. -/
def tableOf (writes : List (Int × UInt64)) : StakeModifierTable :=
  writes.foldl (fun s w => s.insert w.1 w.2) Store.empty

theorem find?_tableOf (writes : List (Int × UInt64)) (t : Int) : (tableOf writes).find? t = lastWritten writes t := by
  unfold tableOf lastWritten
  induction writes using List.reverseRecOn with
  | nil => rfl
  | append_singleton l w ih =>
    rw [List.foldl_concat, List.reverse_concat, Store.find?_insert, ih]
    by_cases h : w.1 = t
    · rw [List.find?_cons_of_pos (by simpa using h), if_pos h.symm]
      rfl
    · rw [List.find?_cons_of_neg (by simpa using h), if_neg (Ne.symm h)]

theorem lastWritten_isSome {writes : List (Int × UInt64)} {t : Int} :
    (∃ m, lastWritten writes t = some m) ↔ t ∈ writes.map (·.1) := by
  unfold lastWritten
  rw [← Option.isSome_iff_exists, Option.isSome_map, List.find?_isSome]
  simp

/-- The records of a list of writes represent its table. -/
theorem represents_tableOf {db : BlockTreeDB} (hdb : ∀ k, IsModifierKey k → db.find? k = none) :
    ∀ {writes : List (Int × UInt64)}, (∀ w ∈ writes, IsRecordTime w.1) →
      Represents (tableOf writes) (writeStakeModifiers db writes) := by
  intro writes
  unfold tableOf writeStakeModifiers
  induction writes using List.reverseRecOn with
  | nil => exact fun _ => represents_empty hdb
  | append_singleton l w ih =>
    intro h
    rw [List.foldl_concat, List.foldl_concat]
    exact represents_write (ih fun w hw => h w (List.mem_append_left _ hw)) (h w (by simp)) w.2

theorem seek_tableOf {writes : List (Int × UInt64)} {nEnd t : Int} {m : UInt64} :
    (tableOf writes).seek nEnd = some (t, m) ↔ IsFirstAtOrAfter writes nEnd t m := by
  simp only [Store.seek_eq_some, find?_tableOf, IsFirstAtOrAfter]

/-- The encoded keys of a list of writes are in place exactly when the records are. -/
theorem inPlace_tableOf {writes : List (Int × UInt64)} (h : ∀ w ∈ writes, IsRecordTime w.1) (nEnd : Int) :
    InPlace keyStakeModifier (tableOf writes) nEnd (keyStakeModifier nEnd) ↔
      RecordsInPlace (writes.map (·.1)) nEnd := by
  have hrec : ∀ t ∈ writes.map (·.1), IsRecordTime t := by
    intro t ht
    obtain ⟨w, hw, rfl⟩ := List.mem_map.mp ht
    exact h w hw
  have hmem : ∀ t, (∃ m, (tableOf writes).find? t = some m) ↔ t ∈ writes.map (·.1) := by
    intro t
    rw [← lastWritten_isSome]
    simp only [find?_tableOf]
  unfold InPlace RecordsInPlace
  refine and_congr ⟨fun hin t ht hle hmin => ?_, fun hin t m hs => ?_⟩ ⟨fun hin hall t ht => ?_,
    fun hin hs t m ht => ?_⟩
  · obtain ⟨m, hm⟩ := (hmem t).mpr ht
    obtain ⟨hk, hothers⟩ := hin t m (Store.seek_eq_some.mpr
      ⟨hm, hle, fun t' m' hm' => hmin t' ((hmem t').mp ⟨m', hm'⟩)⟩)
    refine ⟨fun hb => Std.not_lt.mpr hk ((keyStakeModifier_lt_seek (hrec t ht)).mpr hb), fun t' ht' hne => ?_⟩
    obtain ⟨m', hm'⟩ := (hmem t').mpr ht'
    rw [← keyStakeModifier_lt_seek (hrec t' ht'), ← keyStakeModifier_lt_key (hrec t ht) (hrec t' ht')]
    exact hothers t' m' hm' hne
  · obtain ⟨hm, hle, hmin⟩ := Store.seek_eq_some.mp hs
    have ht := (hmem t).mp ⟨m, hm⟩
    obtain ⟨hk, hothers⟩ := hin t ht hle (fun t' ht' => by
      obtain ⟨m', hm'⟩ := (hmem t').mpr ht'
      exact hmin t' m' hm')
    refine ⟨Std.not_lt.mp (mt (keyStakeModifier_lt_seek (hrec t ht)).mp hk), fun t' m' hm' hne => ?_⟩
    have ht' := (hmem t').mp ⟨m', hm'⟩
    rw [keyStakeModifier_lt_seek (hrec t' ht'), keyStakeModifier_lt_key (hrec t ht) (hrec t' ht')]
    exact hothers t' ht' hne
  · obtain ⟨m, hm⟩ := (hmem t).mpr ht
    rw [← keyStakeModifier_lt_seek (hrec t ht)]
    exact hin (Store.seek_eq_none.mpr fun t' m' hm' => hall t' ((hmem t').mp ⟨m', hm'⟩)) t m hm
  · have ht := (hmem t).mp ⟨m, ht⟩
    rw [keyStakeModifier_lt_seek (hrec t ht)]
    refine hin (fun t' ht' => ?_) t ht
    obtain ⟨m', hm'⟩ := (hmem t').mpr ht'
    exact Store.seek_eq_none.mp hs t' m' hm'

/-- The lookup finds the first record exactly when the records are in place. -/
theorem findsFirst_iff_inPlace {db : BlockTreeDB} (hdb : ∀ k, IsModifierKey k → db.find? k = none)
    {writes : List (Int × UInt64)} (h : ∀ w ∈ writes, IsRecordTime w.1) (nEnd : Int) :
    FindsFirst db writes nEnd ↔ RecordsInPlace (writes.map (·.1)) nEnd := by
  rw [← inPlace_tableOf h, ← findStakeModifierAt_eq_seek_iff (represents_tableOf hdb h)]
  unfold FindsFirst
  simp only [← seek_tableOf]
  constructor
  · intro hall
    apply Option.ext
    rintro ⟨t, m⟩
    exact hall t m
  · intro heq t m
    rw [heq]

/-! ## Windows of time -/

/-- Every lookup at a time of a window, over records with times of the window, finds the first record. -/
def FindsFirstWithin (a b : Int) : Prop :=
  ∀ (db : BlockTreeDB) (writes : List (Int × UInt64)) (nEnd : Int), (∀ k, IsModifierKey k → db.find? k = none) →
    (∀ w ∈ writes, a ≤ w.1 ∧ w.1 ≤ b) → a ≤ nEnd → nEnd ≤ b → FindsFirst db writes nEnd

theorem beforeRecord_iff {t t' : Int} (ht : stakeModifierMinTime ≤ t) (ht' : stakeModifierMinTime ≤ t') :
    BeforeRecord t t' ↔ writeVarInt (t - stakeModifierMinTime) < writeVarInt (t' - stakeModifierMinTime) :=
  (writeVarInt_lt_iff (Int.sub_nonneg.mpr ht) (Int.sub_nonneg.mpr ht')).symm

theorem beforeSeek_iff_record {t nEnd : Int} (h : stakeModifierMinTime ≤ nEnd) :
    BeforeSeek t nEnd ↔ BeforeRecord t nEnd := by
  unfold BeforeSeek BeforeRecord seekOffset
  rw [if_neg (Int.not_lt.mpr h)]

/-- **The windows in which every lookup is right**: those whose offsets are encoded in one length, or in no more than
two bytes. -/
theorem findsFirstWithin_iff {a b : Int} (ha : stakeModifierMinTime ≤ a) (hab : a ≤ b) (hb : b < 2 ^ 63) :
    FindsFirstWithin a b ↔
      getSizeOfVarInt (a - stakeModifierMinTime) = getSizeOfVarInt (b - stakeModifierMinTime) ∨
        getSizeOfVarInt (b - stakeModifierMinTime) ≤ 2 := by
  rw [← writeVarInt_mono_iff (Int.sub_nonneg.mpr ha) (by omega)]
  constructor
  · intro h x y hax hxy hyb
    -- a single record at `y`, looked up from `x` on
    have hrec : ∀ w ∈ [(y + stakeModifierMinTime, (0 : UInt64))], IsRecordTime w.1 := by
      intro w hw
      rw [List.mem_singleton.mp hw]
      exact ⟨by omega, by omega⟩
    have hfind := h Store.empty [(y + stakeModifierMinTime, 0)] (x + stakeModifierMinTime) (fun k _ => Store.find?_empty k)
      (fun w hw => by rw [List.mem_singleton.mp hw]; exact ⟨by omega, by omega⟩) (by omega) (by omega)
    have hplace := (findsFirst_iff_inPlace (fun k _ => Store.find?_empty k) hrec _).mp hfind
    have hnot := (hplace.1 (y + stakeModifierMinTime) (by simp) (by omega)
      (fun t' ht' _ => Int.le_of_eq (List.mem_singleton.mp ht').symm)).1
    rw [beforeSeek_iff_record (by omega), beforeRecord_iff (by omega) (by omega), Int.add_sub_cancel,
      Int.add_sub_cancel] at hnot
    refine Std.lt_of_le_of_ne (Std.not_lt.mp hnot) fun he => ?_
    have := writeVarInt_inj (by omega) (by omega) he
    omega
  · intro hmono db writes nEnd hdb hwin hle hge
    have hrec : ∀ w ∈ writes, IsRecordTime w.1 := fun w hw => ⟨by have := hwin w hw; omega, by have := hwin w hw; omega⟩
    have hin : ∀ t ∈ writes.map (·.1), a ≤ t ∧ t ≤ b := by
      intro t ht
      obtain ⟨w, hw, rfl⟩ := List.mem_map.mp ht
      exact hwin w hw
    have hbefore : ∀ t t', a ≤ t → t < t' → t' ≤ b → BeforeRecord t t' := by
      intro t t' h₁ h₂ h₃
      rw [beforeRecord_iff (by omega) (by omega)]
      exact hmono _ _ (by omega) (by omega) (by omega)
    refine (findsFirst_iff_inPlace hdb hrec nEnd).mpr ⟨fun t ht hnt hmin => ⟨fun hb' => ?_, fun t' ht' hne => ?_⟩,
      fun hall t ht => ?_⟩
    · rw [beforeSeek_iff_record (by omega), beforeRecord_iff (by omega) (by omega)] at hb'
      rcases Int.lt_or_eq_of_le hnt with hlt | heq
      · exact List.lt_asymm hb' ((beforeRecord_iff (by omega) (by omega)).mp (hbefore nEnd t hle hlt (hin t ht).2))
      · rw [heq] at hb'
        exact List.lt_irrefl _ hb'
    · by_cases hlt : t' < nEnd
      · rw [beforeSeek_iff_record (by omega)]
        exact .inl (hbefore t' nEnd (hin t' ht').1 hlt hge)
      · have := hmin t' ht' (by omega)
        exact .inr (hbefore t t' (hin t ht).1 (by omega) (hin t' ht').2)
    · rw [beforeSeek_iff_record (by omega)]
      exact hbefore t nEnd (hin t ht).1 (hall t ht) hge

/-! ## The lookup against a scan of the records -/

/-- **The lookup agrees with the records exactly when they are in place.** A window of time in which that is always so
is one whose offsets are encoded in one length, or in no more than two bytes. -/
theorem findStakeModifierAt_first_iff {db : BlockTreeDB} {writes : List (Int × UInt64)}
    (hdb : ∀ k, IsModifierKey k → db.find? k = none) (hw : ∀ w ∈ writes, IsRecordTime w.1) (nEnd : Int) :
    (FindsFirst db writes nEnd ↔ RecordsInPlace (writes.map (·.1)) nEnd) ∧
    (∀ a b : Int, stakeModifierMinTime ≤ a → a ≤ b → b < 2 ^ 63 →
      (FindsFirstWithin a b ↔
        getSizeOfVarInt (a - stakeModifierMinTime) = getSizeOfVarInt (b - stakeModifierMinTime) ∨
          getSizeOfVarInt (b - stakeModifierMinTime) ≤ 2)) :=
  ⟨findsFirst_iff_inPlace hdb hw nEnd, fun _ _ ha hab hb => findsFirstWithin_iff ha hab hb⟩

/-- Two records one second apart, over the change from four bytes to five: the lookup in between skips the later one,
as its key comes first. -/
theorem findStakeModifierAt_length_change :
    findStakeModifierAt (writeStakeModifiers Store.empty [(1659083000, 11), (1659083520, 22)]) 1659083519 = none ∧
      ¬ FindsFirst Store.empty [(1659083000, 11), (1659083520, 22)] 1659083519 := by
  have hnone : findStakeModifierAt (writeStakeModifiers Store.empty [(1659083000, 11), (1659083520, 22)]) 1659083519
      = none := by decide +kernel
  refine ⟨hnone, fun h => ?_⟩
  have hfirst : IsFirstAtOrAfter [(1659083000, 11), (1659083520, 22)] 1659083519 1659083520 22 := by
    refine ⟨by decide, by decide, fun t' m' ht' hle => ?_⟩
    have hmem := lastWritten_isSome.mp ⟨m', ht'⟩
    simp only [List.map_cons, List.map_nil, List.mem_cons, List.not_mem_nil, or_false] at hmem
    omega
  exact absurd (hnone.symm.trans ((h _ _).mpr hfirst)) nofun

/-- An offset of four bytes, a record in each half of the year before the change of length. -/
theorem findStakeModifierAt_first_iff_witness :
    (FindsFirst Store.empty [(1640000000, 11), (1650000000, 22)] 1645000000 ↔
      RecordsInPlace [1640000000, 1650000000] 1645000000) ∧
    (FindsFirstWithin 1640000000 1650000000 ↔
      getSizeOfVarInt (1640000000 - stakeModifierMinTime) = getSizeOfVarInt (1650000000 - stakeModifierMinTime) ∨
        getSizeOfVarInt (1650000000 - stakeModifierMinTime) ≤ 2) :=
  have h := @findStakeModifierAt_first_iff Store.empty [(1640000000, 11), (1650000000, 22)]
    (fun k _ => Store.find?_empty k) (by decide) 1645000000
  ⟨h.1, h.2 1640000000 1650000000 (by decide) (by decide) (by decide)⟩

end Morcochain
