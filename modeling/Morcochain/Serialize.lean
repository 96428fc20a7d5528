import Morcochain.StakeModifierDB
import Morcochain.Vote
import Morcochain.Lib.Codec

/-!
# Serialization

How numbers, vectors, maps and votes are written (`serialize.h`, `vote.h`, `unitmap.h`), next to the readers of `Vote`.

* `reads_vector`, `reads_unitMap` : reading a vector or a map of units gives back what was written.
* `reads_vote` : **a vote whose values fit their types is read back**, but for what its version does not carry.
* `length_writeVote` : the number of bytes of a written vote.
-/

set_option autoImplicit false

namespace Morcochain

open Codec

/-! ## Numbers -/

/-- Write a signed integer of `k` bytes. -/
def writeInt (k : Nat) (n : Int) : Bytes := writeLE k (n % 256 ^ k).toNat

/-- Write a `bool`. -/
def writeBool (b : Bool) : Bytes := [if b then 1 else 0]

/-- `MAX_SIZE`. -/
def maxSize : Nat := 0x02000000

/-- `WriteCompactSize`. -/
def writeCompactSize (nSize : Nat) : Bytes :=
  if nSize < 253 then writeLE 1 nSize
  else if nSize ≤ 0xffff then writeLE 1 253 ++ writeLE 2 nSize
  else if nSize ≤ 0xffffffff then writeLE 1 254 ++ writeLE 4 nSize
  else writeLE 1 255 ++ writeLE 8 nSize

/-- The values of a signed integer of `k` bytes. -/
def IntFits (k : Nat) (n : Int) : Prop := -(256 ^ k : Int) ≤ 2 * n ∧ 2 * n < 256 ^ k

section Numbers

theorem leNat_lt : ∀ b : Bytes, leNat b < 256 ^ b.length
  | [] => Nat.one_pos
  | x :: b => by
    have hx := x.toNat_lt
    have ih := leNat_lt b
    rw [leNat, List.length_cons, Nat.pow_succ']
    omega

theorem leNat_writeLE : ∀ k n : Nat, leNat (writeLE k n) = n % 256 ^ k
  | 0, n => by simp [writeLE, leNat, Nat.mod_one]
  | k + 1, n => by
    rw [writeLE, leNat, leNat_writeLE k, UInt8.toNat_ofNat', show 256 ^ (k + 1) = 256 * 256 ^ k from Nat.pow_succ',
      Nat.mod_mul]

theorem reads_bytes {b : Bytes} {k : Nat} (h : b.length = k) : Reads (readBytes k) b b := by
  intro rest
  rw [readBytes, if_neg (by rw [List.length_append]; omega), List.take_left' h, List.drop_left' h]

theorem yields_bytes (k : Nat) : Yields (readBytes k) fun b => b.length = k := by
  intro s b s' h
  unfold readBytes at h
  split at h
  · cases h
  · cases h
    rw [List.length_take]
    omega

/-- Reading an unsigned integer. -/
theorem reads_uint {k n : Nat} (h : n < 256 ^ k) : Reads (readUInt k) (writeLE k n) n := by
  have hbytes := (reads_bytes (length_writeLE k n)).map leNat
  rwa [leNat_writeLE, Nat.mod_eq_of_lt h] at hbytes

theorem yields_uint (k : Nat) : Yields (readUInt k) fun n => n < 256 ^ k :=
  (yields_bytes k).bind fun b hb => .pure (hb ▸ leNat_lt b)

/-- Reading a signed integer. -/
theorem reads_int {k : Nat} {n : Int} (h : IntFits k n) : Reads (readInt k) (writeInt k n) n := by
  obtain ⟨hlow, hhigh⟩ := h
  have hpos : (0 : Int) < 256 ^ k := Int.pow_pos (by decide)
  have hmod := Int.emod_nonneg n (Int.ne_of_gt hpos)
  have hcast : ((256 ^ k : Nat) : Int) = 256 ^ k := Int.natCast_pow 256 k
  have hlt : (n % 256 ^ k).toNat < 256 ^ k := by
    have hmod' := Int.emod_lt_of_pos n hpos
    rw [← hcast] at hmod hmod' ⊢
    omega
  have hint := (reads_uint hlt).map fun m : Nat => Int.bmod m (256 ^ k)
  have hvalue : Int.bmod ((n % 256 ^ k).toNat : Int) (256 ^ k) = n := by
    rw [Int.toNat_of_nonneg hmod, ← hcast, Int.emod_bmod]
    exact Int.bmod_eq_of_le_mul_two (by rw [hcast]; omega) (by rw [hcast]; omega)
  rwa [hvalue] at hint

theorem yields_int {k : Nat} : Yields (readInt k) (IntFits k) := by
  refine (yields_uint k).bind fun n hn => .pure ?_
  have hpos : 0 < 256 ^ k := Nat.pow_pos (by decide)
  have hlow := Int.le_bmod (x := n) hpos
  have hhigh := Int.bmod_lt (x := n) hpos
  have hcast : ((256 ^ k : Nat) : Int) = 256 ^ k := Int.natCast_pow 256 k
  rw [hcast] at hlow hhigh
  constructor <;> omega

theorem reads_bool (b : Bool) : Reads readBool (writeBool b) b := by
  have hn : (if b then 1 else 0 : Nat) < 256 ^ 1 := by cases b <;> decide
  have hbool := (reads_uint hn).map fun n : Nat => decide (n ≠ 0)
  cases b
  · exact hbool
  · exact hbool

theorem reads_uint160 (h : Uint160) : Reads readUint160 h.bytes h := by
  have hbytes := (reads_bytes h.size_eq).map Uint160.ofBytes
  rwa [Uint160.ofBytes_bytes] at hbytes

theorem reads_compactSize {n : Nat} (h : n ≤ maxSize) : Reads readCompactSize (writeCompactSize n) n := by
  have hn : ¬ n > 0x02000000 := Nat.not_lt.mpr h
  have hlast : Reads (if n > 0x02000000 then fun _ => none else pure n : Reader Nat) [] n := by
    rw [if_neg hn]
    exact .pure n
  unfold readCompactSize writeCompactSize
  by_cases h₁ : n < 253
  · rw [if_pos h₁, ← List.append_nil (writeLE 1 n)]
    refine (reads_uint (by omega)).bind ?_
    rw [if_pos h₁, ← List.append_nil []]
    exact (Reads.pure n).bind hlast
  · rw [if_neg h₁]
    by_cases h₂ : n ≤ 0xffff
    · rw [if_pos h₂, ← List.append_nil (writeLE 2 n)]
      refine (reads_uint (by decide)).bind ?_
      exact (reads_uint (by omega)).bind hlast
    · have h₃ : n ≤ 0xffffffff := by unfold maxSize at h; omega
      rw [if_neg h₂, if_pos h₃, ← List.append_nil (writeLE 4 n)]
      refine (reads_uint (by decide)).bind ?_
      exact (reads_uint (by omega)).bind hlast

theorem yields_compactSize : Yields readCompactSize fun n => n ≤ maxSize := by
  have hlast : ∀ n : Nat,
    Yields (if n > 0x02000000 then fun _ => none else pure n : Reader Nat) fun n => n ≤ maxSize := by
    intro n
    split
    · exact .stop
    · exact .pure (Nat.not_lt.mp ‹_›)
  refine (Yields.true _).bind fun c _ => ?_
  split
  · exact (Yields.true _).bind fun n _ => hlast n
  · split
    · exact (Yields.true _).bind fun n _ => hlast n
    · split
      · exact (Yields.true _).bind fun n _ => hlast n
      · exact (Yields.true _).bind fun n _ => hlast n

end Numbers

/-! ## Vectors and maps -/

/-- Serialize a byte vector. -/
def writeBytes (b : Bytes) : Bytes := writeCompactSize b.length ++ b

/-- Write a vector. -/
def writeVector {α : Type} (write : α → Bytes) (l : List α) : Bytes := writeCompactSize l.length ++ l.flatMap write

/-- `CUnitMap::GetMap`, in the order of the units. -/
def CUnitMap.pairs {α : Type} (m : CUnitMap α) : List (CUnit × α) :=
  (m.currency.map (unitCurrency, ·)).toList ++ (m.share.map (unitShare, ·)).toList

/-- Serialize a `CUnitMap`. -/
def writeUnitMap {α : Type} (write : α → Bytes) (m : CUnitMap α) : Bytes :=
  writeVector (fun p => writeLE 1 p.1.toNat ++ write p.2) m.pairs

/-- Unserialize a `CUnitMap`: the first pair of a unit stays, and an unavailable unit throws. -/
def readUnitMap {α : Type} (read : Reader α) : Reader (CUnitMap α) := do
  let pairs ← readVector (do
    let cUnit ← readUInt 1
    let x ← read
    return (UInt8.ofNat cUnit, x))
  if pairs.all (fun p => isValidUnit p.1) then
    return pairs.foldr (fun p m => m.set p.1 p.2) {}
  else fun _ => none

theorem readFeeVotes_eq : readFeeVotes = readUnitMap (readUInt 4) := rfl

theorem reads_byteString {b : Bytes} (h : b.length ≤ maxSize) : Reads readByteString (writeBytes b) b :=
  (reads_compactSize h).bind (reads_bytes rfl)

section Vectors

variable {α : Type} {read : Reader α} {write : α → Bytes}

/-- The elements of a vector may be read as others than were written. -/
theorem reads_vector_map {g : α → α} {l : List α} (hlen : l.length ≤ maxSize)
    (h : ∀ a ∈ l, Reads read (write a) (g a)) :
    Reads (readVector read) (writeVector write l) (l.map g) :=
  (reads_compactSize hlen).bind (reads_readMany rfl (fun _ => rfl) h)

theorem reads_vector {l : List α} (hlen : l.length ≤ maxSize) (h : ∀ a ∈ l, Reads read (write a) a) :
    Reads (readVector read) (writeVector write l) l := by
  have hmap := reads_vector_map (g := id) hlen h
  rwa [List.map_id] at hmap

theorem yields_vector {P : α → Prop} (h : Yields read P) :
    Yields (readVector read) fun l => l.length ≤ maxSize ∧ ∀ a ∈ l, P a :=
  yields_compactSize.bind fun n hn =>
    (yields_readMany rfl (fun _ => rfl) h n).mono fun _ hl => ⟨hl.1 ▸ hn, hl.2⟩

/-- Every value of a map has the property. -/
def CUnitMap.Each (P : α → Prop) (m : CUnitMap α) : Prop := (∀ x ∈ m.share, P x) ∧ ∀ x ∈ m.currency, P x

theorem reads_unitMap {m : CUnitMap α} (h : m.Each fun x => Reads read (write x) x) :
    Reads (readUnitMap read) (writeUnitMap write m) m := by
  have hlen : m.pairs.length ≤ maxSize := by
    unfold CUnitMap.pairs maxSize
    cases m.share <;> cases m.currency <;> exact of_decide_eq_true rfl
  have hpairs : ∀ p ∈ m.pairs, Reads read (write p.2) p.2 := by
    intro p hp
    rcases List.mem_append.mp hp with hp | hp
    · obtain ⟨x, hx, rfl⟩ := Option.map_eq_some_iff.mp (Option.mem_toList.mp hp)
      exact h.2 x hx
    · obtain ⟨x, hx, rfl⟩ := Option.map_eq_some_iff.mp (Option.mem_toList.mp hp)
      exact h.1 x hx
  have hvalid : m.pairs.all (fun p => isValidUnit p.1) = true := by
    unfold CUnitMap.pairs
    cases m.share <;> cases m.currency <;> rfl
  have hmap : m.pairs.foldr (fun p m => m.set p.1 p.2) {} = m := by
    unfold CUnitMap.pairs
    cases m with
    | mk share currency => cases share <;> cases currency <;> rfl
  unfold readUnitMap writeUnitMap
  rw [← List.append_nil (writeVector _ m.pairs)]
  refine (reads_vector hlen fun p hp => ?_).bind ?_
  · have hp' := (reads_uint (show p.1.toNat < 256 ^ 1 from p.1.toNat_lt)).bind
      (f := fun cUnit => read >>= fun x => pure (UInt8.ofNat cUnit, x)) ((hpairs p hp).map fun x => (UInt8.ofNat p.1.toNat, x))
    rwa [UInt8.ofNat_toNat] at hp'
  · rw [if_pos hvalid, hmap]
    exact .pure m

theorem CUnitMap.Each.set {P : α → Prop} {m : CUnitMap α} (h : m.Each P) {cUnit : CUnit} {x : α} (hx : P x) :
    (m.set cUnit x).Each P := by
  unfold CUnitMap.set
  split
  · exact ⟨fun y hy => Option.some.inj hy ▸ hx, h.2⟩
  · split
    · exact ⟨h.1, fun y hy => Option.some.inj hy ▸ hx⟩
    · exact h

theorem yields_unitMap {P : α → Prop} (h : Yields read P) : Yields (readUnitMap read) (CUnitMap.Each P) := by
  refine (yields_vector (P := fun p : CUnit × α => P p.2)
    ((Yields.true _).bind fun cUnit _ => h.bind fun x hx => .pure hx)).bind fun pairs hpairs => ?_
  split
  · refine .pure ?_
    have hfold : ∀ l : List (CUnit × α), (∀ p ∈ l, P p.2) →
      (l.foldr (fun p (m : CUnitMap α) => m.set p.1 p.2) {}).Each P := by
      intro l
      induction l with
      | nil => exact fun _ => ⟨fun _ hx => (nomatch hx), fun _ hx => (nomatch hx)⟩
      | cons p l ih =>
        intro hl
        rw [List.foldr_cons]
        exact (ih fun q hq => hl q (List.mem_cons_of_mem _ hq)).set (hl p List.mem_cons_self)
    exact hfold pairs hpairs.2
  · exact .stop

end Vectors

/-! ## Votes -/

/-- The size of a vector whose elements have given sizes. -/
def vectorSize (sizes : List Nat) : Nat := getSizeOfCompactSize sizes.length + sizes.sum

/-- Serialize a `CCustodianVote` at a version. -/
def writeCustodianVote (nVersion : Int) (v : CCustodianVote) : Bytes :=
  writeLE 1 v.cUnit.toNat ++
    ((if nVersion ≥ 20200 then writeBool v.fScript else []) ++ (v.hashAddress.bytes ++ writeInt 8 v.nAmount))

/-- Serialize a `CParkRate`. -/
def writeParkRate (r : CParkRate) : Bytes := writeLE 1 r.nCompactDuration ++ writeInt 8 r.nRate

/-- Serialize a `CParkRateVote`. -/
def writeParkRateVote (v : CParkRateVote) : Bytes := writeLE 1 v.cUnit.toNat ++ writeVector writeParkRate v.vParkRate

/-- `CVote::ReadWriteSingleMotion`, writing: the first motion, or a null hash. -/
def writeSingleMotion (vMotion : List Uint160) : Bytes := (vMotion.head?.getD default).bytes

/-- The version at which a vote is serialized on a stream of version `nVersion`. -/
def CVote.serializedVersion (vote : CVote) (nVersion : Int) : Int :=
  if vote.nVersionVote < protocolV2_0 then vote.nVersionVote else nVersion

/-- Serialize a `CVote` on a stream of version `nVersion`. -/
def writeVote (nVersion : Int) (vote : CVote) : Bytes :=
  let v := vote.serializedVersion nVersion
  writeInt 4 vote.nVersionVote ++
    (writeVector (writeCustodianVote v) vote.vCustodianVote ++
      (writeVector writeParkRateVote vote.vParkRateVote ++
        ((if v ≥ protocolV0_5 then writeVector Uint160.bytes vote.vMotion else writeSingleMotion vote.vMotion) ++
          (if v ≥ protocolV2_0 then writeUnitMap (writeLE 4) vote.mapFeeVote else []))))

/-- What a version carries of a custodian vote. -/
def CCustodianVote.carried (nVersion : Int) (v : CCustodianVote) : CCustodianVote :=
  { v with fScript := if nVersion ≥ 20200 then v.fScript else false }

/-- What a stream of version `nVersion` carries of a vote: `fScript` from 0.2.2 on, the first motion that is not null
before 0.5, and fee votes from 2.0 on. The coin age is not serialized. -/
def CVote.carried (vote : CVote) (nVersion : Int) : CVote :=
  let v := vote.serializedVersion nVersion
  { nVersionVote := vote.nVersionVote
    vCustodianVote := vote.vCustodianVote.map (·.carried v)
    vParkRateVote := vote.vParkRateVote
    vMotion := if v ≥ protocolV0_5 then vote.vMotion else vote.vMotion.head?.toList.filter (· ≠ default)
    mapFeeVote := if v ≥ protocolV2_0 then vote.mapFeeVote else {}
    nCoinAgeDestroyed := 0 }

/-- `GetSerializeSize` of a `CCustodianVote` at a version. -/
def CCustodianVote.serializeSize (nVersion : Int) : Nat := if nVersion ≥ 20200 then 30 else 29

/-- `GetSerializeSize` of a `CParkRateVote`. -/
def CParkRateVote.serializeSize (v : CParkRateVote) : Nat := 1 + vectorSize (v.vParkRate.map fun _ => 9)

/-- `GetSerializeSize` of a `CVote` on a stream of version `nVersion`. -/
def CVote.serializeSize (vote : CVote) (nVersion : Int) : Nat :=
  let v := vote.serializedVersion nVersion
  4 + (vectorSize (vote.vCustodianVote.map fun _ => CCustodianVote.serializeSize v) +
    (vectorSize (vote.vParkRateVote.map (·.serializeSize)) +
      ((if v ≥ protocolV0_5 then vectorSize (vote.vMotion.map fun _ => 20) else 20) +
        (if v ≥ protocolV2_0 then vectorSize (vote.mapFeeVote.pairs.map fun _ => 5) else 0))))

/-- The values fit the types of the fields, and the vectors that are written can be read. -/
structure CVote.Fits (vote : CVote) (nVersion : Int) : Prop where
  version : IntFits 4 vote.nVersionVote
  custodians : vote.vCustodianVote.length ≤ maxSize ∧ ∀ v ∈ vote.vCustodianVote, IntFits 8 v.nAmount
  parkRates : vote.vParkRateVote.length ≤ maxSize ∧ ∀ v ∈ vote.vParkRateVote,
    v.vParkRate.length ≤ maxSize ∧ ∀ r ∈ v.vParkRate, r.nCompactDuration < 256 ∧ IntFits 8 r.nRate
  motions : vote.serializedVersion nVersion ≥ protocolV0_5 → vote.vMotion.length ≤ maxSize
  fees : vote.mapFeeVote.Each (· < 256 ^ 4)

section Votes

variable {nVersion : Int}

theorem reads_unit (cUnit : CUnit) : Reads (readUInt 1) (writeLE 1 cUnit.toNat) cUnit.toNat :=
  reads_uint (show cUnit.toNat < 256 ^ 1 from cUnit.toNat_lt)

/-- Reading what a condition decides to write, and going on. -/
theorem reads_ite {α β : Type} {c : Prop} [Decidable c] {read read' : Reader α} {f : α → Reader β}
    {text text' rest : Bytes} {a a' : α} {b : β} (h : c → Reads read text a) (h' : ¬ c → Reads read' text' a')
    (hf : Reads (f (if c then a else a')) rest b) :
    Reads (if c then read >>= f else read' >>= f) ((if c then text else text') ++ rest) b := by
  by_cases hc : c
  · simp only [if_pos hc] at hf ⊢
    exact (h hc).bind hf
  · simp only [if_neg hc] at hf ⊢
    exact (h' hc).bind hf

theorem reads_custodianVote {v : CCustodianVote} (h : IntFits 8 v.nAmount) :
    Reads (readCustodianVote nVersion) (writeCustodianVote nVersion v) (v.carried nVersion) := by
  have hmain : Reads (readCustodianVote nVersion) (writeCustodianVote nVersion v)
      { v.carried nVersion with cUnit := UInt8.ofNat v.cUnit.toNat } := by
    unfold readCustodianVote writeCustodianVote
    refine (reads_unit v.cUnit).bind ?_
    refine reads_ite (c := nVersion ≥ 20200) (fun _ => reads_bool v.fScript) (fun _ => .pure false) ?_
    refine (reads_uint160 v.hashAddress).bind ?_
    exact (reads_int h).map _
  rwa [UInt8.ofNat_toNat] at hmain

theorem reads_parkRate {r : CParkRate} (h : r.nCompactDuration < 256 ∧ IntFits 8 r.nRate) :
    Reads readParkRate (writeParkRate r) r :=
  (reads_uint h.1).bind ((reads_int h.2).map fun nRate => ({ nCompactDuration := r.nCompactDuration, nRate := nRate } : CParkRate))

theorem reads_parkRateVote {v : CParkRateVote} (hlen : v.vParkRate.length ≤ maxSize)
    (h : ∀ r ∈ v.vParkRate, r.nCompactDuration < 256 ∧ IntFits 8 r.nRate) :
    Reads readParkRateVote (writeParkRateVote v) v := by
  have hmain : Reads readParkRateVote (writeParkRateVote v) { v with cUnit := UInt8.ofNat v.cUnit.toNat } := by
    unfold readParkRateVote writeParkRateVote
    refine (reads_unit v.cUnit).bind ?_
    exact (reads_vector hlen fun r hr => reads_parkRate (h r hr)).map _
  rwa [UInt8.ofNat_toNat] at hmain

/-- A null hash stands for no motion. -/
theorem reads_singleMotion (vMotion : List Uint160) :
    Reads readSingleMotion (writeSingleMotion vMotion) (vMotion.head?.toList.filter (· ≠ default)) := by
  have hmain := (reads_uint160 (vMotion.head?.getD default)).map fun hashMotion =>
    (if hashMotion = default then [] else [hashMotion] : List Uint160)
  have hvalue : vMotion.head?.toList.filter (· ≠ default) =
      if vMotion.head?.getD default = default then [] else [vMotion.head?.getD default] := by
    cases vMotion with
    | nil => rfl
    | cons a l =>
      simp only [List.head?_cons, Option.toList_some, Option.getD_some, List.filter_cons, List.filter_nil, decide_not]
      by_cases ha : a = default <;> simp [ha]
  rw [hvalue]
  exact hmain

/-- **Reading a vote** gives what its version carries. -/
theorem reads_vote {vote : CVote} (h : vote.Fits nVersion) :
    Reads (readVote nVersion) (writeVote nVersion vote) (vote.carried nVersion) := by
  unfold readVote writeVote CVote.carried
  refine (reads_int h.version).bind ?_
  refine (reads_vector_map h.custodians.1 fun v hv => reads_custodianVote (h.custodians.2 v hv)).bind ?_
  refine (reads_vector h.parkRates.1 fun v hv => reads_parkRateVote (h.parkRates.2 v hv).1 (h.parkRates.2 v hv).2).bind ?_
  refine reads_ite (c := vote.serializedVersion nVersion ≥ protocolV0_5)
    (fun hv => reads_vector (h.motions hv) fun v _ => reads_uint160 v) (fun _ => reads_singleMotion _) ?_
  rw [← List.append_nil (if vote.serializedVersion nVersion ≥ protocolV2_0 then writeUnitMap (writeLE 4) vote.mapFeeVote
    else [])]
  exact reads_ite (c := vote.serializedVersion nVersion ≥ protocolV2_0)
    (fun _ => reads_unitMap ⟨fun x hx => reads_uint (h.fees.1 x hx), fun x hx => reads_uint (h.fees.2 x hx)⟩)
    (fun _ => .pure ({} : CUnitMap Nat)) (.pure _)

/-! ### Sizes -/

theorem length_writeCompactSize (n : Nat) : (writeCompactSize n).length = getSizeOfCompactSize n := by
  unfold writeCompactSize getSizeOfCompactSize
  split_ifs <;> simp only [List.length_append, length_writeLE]

theorem length_writeVector {α : Type} {write : α → Bytes} {size : α → Nat} {l : List α}
    (h : ∀ a ∈ l, (write a).length = size a) : (writeVector write l).length = vectorSize (l.map size) := by
  rw [writeVector, List.length_append, length_writeCompactSize, List.length_flatMap, vectorSize, List.length_map]
  exact congrArg _ (congrArg List.sum (List.map_congr_left h))

/-- A vector has as many bytes as elements, at least. -/
theorem length_le_vectorSize {l : List Nat} (h : ∀ a ∈ l, 1 ≤ a) : l.length ≤ vectorSize l := by
  have hsum := List.length_le_sum_of_one_le l h
  rw [vectorSize]
  omega

/-- An element of a vector has no more bytes than the vector. -/
theorem le_vectorSize {l : List Nat} {a : Nat} (h : a ∈ l) : a ≤ vectorSize l :=
  Nat.le_trans (List.le_sum_of_mem h) (Nat.le_add_left _ _)

theorem length_writeParkRateVote (v : CParkRateVote) : (writeParkRateVote v).length = v.serializeSize := by
  have hrates : (writeVector writeParkRate v.vParkRate).length = vectorSize (v.vParkRate.map fun _ => 9) := by
    refine length_writeVector fun r _ => ?_
    rw [writeParkRate, List.length_append, length_writeLE, writeInt, length_writeLE]
  rw [writeParkRateVote, List.length_append, length_writeLE, hrates]
  rfl

theorem length_writeCustodianVote (v : CCustodianVote) :
    (writeCustodianVote nVersion v).length = CCustodianVote.serializeSize nVersion := by
  unfold writeCustodianVote CCustodianVote.serializeSize writeBool writeInt
  by_cases h : nVersion ≥ 20200
  · simp only [if_pos h, List.length_append, length_writeLE, v.hashAddress.size_eq, List.length_singleton]
  · simp only [if_neg h, List.length_append, length_writeLE, v.hashAddress.size_eq, List.length_nil]

/-- A written vote has the size of its serialization. -/
theorem length_writeVote (vote : CVote) : (writeVote nVersion vote).length = vote.serializeSize nVersion := by
  have hmotions : (if vote.serializedVersion nVersion ≥ protocolV0_5 then writeVector Uint160.bytes vote.vMotion
      else writeSingleMotion vote.vMotion).length =
      if vote.serializedVersion nVersion ≥ protocolV0_5 then vectorSize (vote.vMotion.map fun _ => 20) else 20 := by
    split
    · exact length_writeVector fun h _ => h.size_eq
    · exact Uint160.size_eq _
  have hfees : (if vote.serializedVersion nVersion ≥ protocolV2_0 then writeUnitMap (writeLE 4) vote.mapFeeVote
      else []).length =
      if vote.serializedVersion nVersion ≥ protocolV2_0 then vectorSize (vote.mapFeeVote.pairs.map fun _ => 5) else 0 := by
    split
    · exact length_writeVector fun p _ => by rw [List.length_append, length_writeLE, length_writeLE]
    · rfl
  simp only [writeVote, CVote.serializeSize, List.length_append, hmotions, hfees, writeInt, length_writeLE]
  rw [length_writeVector fun v _ => length_writeCustodianVote v,
    length_writeVector fun v _ => length_writeParkRateVote v]

end Votes

end Morcochain
