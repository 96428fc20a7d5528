import Morcochain.Lib.BitFilter
import Morcochain.Solver
import Morcochain.StakeModifierDB
import Morcochain.VoteScript

/-!
# Bloom filters

`CBloomFilter` (`bloom.h`, `bloom.cpp`) and the messages that change a peer's filter (`main.cpp`). A filter without data
would reduce its hashes modulo zero, and reads that are not in the data have no value here: both are `none`.

* `setBit_spec` : **setting a bit marks one place**.
* `insert_spec`, `contains_spec` : the filter is one of marks.
* `Sound` : what the filter promises for the elements that were inserted, with the flags for a full or empty filter.
* `visitOutputs_spec` : looking for a transaction keeps it, with the outpoints that are inserted on the way.
* `bloom_law` : **no failure and no false negatives**, for every run of a peer's messages and of transactions.
-/

set_option autoImplicit false

namespace Morcochain

/-! ## MurmurHash3 -/

def rotl32 (x r : UInt32) : UInt32 := x <<< r ||| x >>> (32 - r)

/-- The steps that each block of four bytes goes through. -/
def murmurMix (k1 : UInt32) : UInt32 := rotl32 (k1 * 0xcc9e2d51) 15 * 0x1b873593

/-- The body, and the bytes that are left for the tail. -/
def murmurBody (h1 : UInt32) : Bytes → UInt32 × Bytes
  | b0 :: b1 :: b2 :: b3 :: blocks =>
    let k1 := murmurMix (UInt32.ofNat (readLE [b0, b1, b2, b3]))
    murmurBody (rotl32 (h1 ^^^ k1) 13 * 5 + 0xe6546b64) blocks
  | tail => (h1, tail)

/-- The tail. The cases of the `switch` fall through. -/
def murmurTail (h1 : UInt32) : Bytes → UInt32
  | [t0] => h1 ^^^ murmurMix t0.toUInt32
  | [t0, t1] => h1 ^^^ murmurMix (t1.toUInt32 <<< 8 ^^^ t0.toUInt32)
  | [t0, t1, t2] => h1 ^^^ murmurMix (t2.toUInt32 <<< 16 ^^^ t1.toUInt32 <<< 8 ^^^ t0.toUInt32)
  | _ => h1

/-- `MurmurHash3`. -/
def murmurHash3 (nHashSeed : UInt32) (vDataToHash : Bytes) : UInt32 :=
  let (h1, tail) := murmurBody nHashSeed vDataToHash
  let h1 := murmurTail h1 tail
  let h1 := h1 ^^^ UInt32.ofNat vDataToHash.length
  let h1 := (h1 ^^^ h1 >>> 16) * 0x85ebca6b
  let h1 := (h1 ^^^ h1 >>> 13) * 0xc2b2ae35
  h1 ^^^ h1 >>> 16

/-! ## Bits -/

def bitMask : List UInt8 := [0x01, 0x02, 0x04, 0x08, 0x10, 0x20, 0x40, 0x80]

/-- `vData[nIndex >> 3] |= bit_mask[7 & nIndex]`. -/
def setBit (vData : Bytes) (nIndex : Nat) : Option Bytes := do
  let b ← vData[nIndex >>> 3]?
  let mask ← bitMask[7 &&& nIndex]?
  return vData.set (nIndex >>> 3) (b ||| mask)

/-- `vData[nIndex >> 3] & bit_mask[7 & nIndex]`, as a test. -/
def testBit (vData : Bytes) (nIndex : Nat) : Option Bool := do
  let b ← vData[nIndex >>> 3]?
  let mask ← bitMask[7 &&& nIndex]?
  return b &&& mask != 0

/-! ## The filter -/

def maxBloomFilterSize : Nat := 36000
def maxHashFuncs : UInt32 := 50

def bloomUpdateAll : UInt8 := 1
def bloomUpdateP2pubkeyOnly : UInt8 := 2
def bloomUpdateMask : UInt8 := 3

/-- `CBloomFilter`. -/
structure CBloomFilter where
  vData : Bytes := []
  isFull : Bool
  isEmpty : Bool
  nHashFuncs : UInt32
  nTweak : UInt32
  nFlags : UInt8
deriving DecidableEq, Repr

/-- The bytes of a hash. -/
def hashKey (hash : Uint256) : Bytes := writeLE 32 hash

/-- The bytes of an outpoint. -/
def COutPoint.key (outpoint : COutPoint) : Bytes := writeLE 32 outpoint.hash ++ writeLE 4 outpoint.n

namespace CBloomFilter

variable (f : CBloomFilter)

/-- `CBloomFilter::Hash`. -/
def hash (nHashNum : UInt32) (vDataToHash : Bytes) : Option Nat :=
  if f.vData.length * 8 = 0 then none
  else some ((murmurHash3 (nHashNum * 0xFBA4C795 + f.nTweak) vDataToHash).toNat % (f.vData.length * 8))

/-- One bit of `insert`. -/
def insertBit (vKey : Bytes) (f : CBloomFilter) (i : Nat) : Option CBloomFilter := do
  let nIndex ← f.hash (UInt32.ofNat i) vKey
  let vData ← setBit f.vData nIndex
  return { f with vData := vData }

/-- `CBloomFilter::insert`. -/
def insert (vKey : Bytes) : Option CBloomFilter :=
  if f.isFull then some f
  else do
    let f ← (List.range f.nHashFuncs.toNat).foldlM (insertBit vKey) f
    return { f with isEmpty := false }

/-- The loop of `contains`. -/
def containsLoop (vKey : Bytes) : List Nat → Option Bool
  | [] => some true
  | i :: rest => do
    let nIndex ← f.hash (UInt32.ofNat i) vKey
    if ← testBit f.vData nIndex then containsLoop vKey rest else return false

/-- `CBloomFilter::contains`. -/
def contains (vKey : Bytes) : Option Bool :=
  if f.isFull then some true
  else if f.isEmpty then some false
  else f.containsLoop vKey (List.range f.nHashFuncs.toNat)

/-- `CBloomFilter::IsWithinSizeConstraints`. -/
def isWithinSizeConstraints : Bool := f.vData.length ≤ maxBloomFilterSize && f.nHashFuncs ≤ maxHashFuncs

/-- `CBloomFilter::UpdateEmptyFull`. -/
def updateEmptyFull : CBloomFilter :=
  { f with
    isFull := f.vData.foldl (fun full b => full && b == 0xff) true
    isEmpty := f.vData.foldl (fun empty b => empty && b == 0) true }

/-- Whether one of the data elements is not empty and in the filter; the search ends at the first that is. -/
def containsAny : List Bytes → Option Bool
  | [] => some false
  | data :: rest =>
    if data.length ≠ 0 then do
      if ← f.contains data then return true else containsAny rest
    else containsAny rest

/-- The elements that `GetOp` reads from a script, until it fails. -/
def scriptData (script : CScript) : List Bytes := (parseOps script).1.map (·.vch)

/-- The flags ask for the outpoint of an output that matches. -/
def updatesFor (scriptPubKey : CScript) : Bool :=
  if f.nFlags &&& bloomUpdateMask = bloomUpdateAll then true
  else if f.nFlags &&& bloomUpdateMask = bloomUpdateP2pubkeyOnly then
    match solver scriptPubKey with
    | some (type, _) => type == .pubkey || type == .multisig
    | none => false
  else false

/-- One output: whether it matches. -/
def visitOutput (hash : Uint256) (i : Nat) (txout : CTxOut) : Option (CBloomFilter × Bool) := do
  let fMatch ← f.containsAny (scriptData txout.scriptPubKey)
  if fMatch && f.updatesFor txout.scriptPubKey then do
    let f ← f.insert (COutPoint.key { hash := hash, n := i })
    return (f, true)
  else return (f, fMatch)

/-- The loop over the outputs, from output `i` on. -/
def visitOutputs (hash : Uint256) : CBloomFilter → Bool → Nat → List CTxOut → Option (CBloomFilter × Bool)
  | f, fFound, _, [] => some (f, fFound)
  | f, fFound, i, txout :: rest => do
    let (f, fMatch) ← f.visitOutput hash i txout
    visitOutputs hash f (fFound || fMatch) (i + 1) rest

/-- The loop over the inputs. -/
def containsInput : List CTxIn → Option Bool
  | [] => some false
  | txin :: rest => do
    if ← f.contains txin.prevout.key then return true
    else if ← f.containsAny (scriptData txin.scriptSig) then return true
    else containsInput rest

/-- `CBloomFilter::IsRelevantAndUpdate`. -/
def isRelevantAndUpdate (tx : CTransaction) (hash : Uint256) : Option (CBloomFilter × Bool) :=
  if f.isFull then some (f, true)
  else if f.isEmpty then some (f, false)
  else do
    let fFound ← f.contains (hashKey hash)
    let (f, fFound) ← visitOutputs hash f fFound 0 tx.vout
    if fFound then return (f, true)
    else do
      let fInput ← f.containsInput tx.vin
      return (f, fInput)

end CBloomFilter

/-! ## The marks of a filter -/

/-- The places that are marked in the data. -/
def marks (vData : Bytes) : Set Nat := {i | testBit vData i = some true}

theorem lt_of_mask {i : Nat} : 7 &&& i < 8 := Nat.lt_succ_of_le Nat.and_le_left

/-- The masks have different bits. -/
theorem bitMask_and : ∀ a < 8, ∀ b < 8, ((bitMask.getD a 0 &&& bitMask.getD b 0) != 0) = decide (a = b) := by
  decide

theorem bitMask_getElem? (i : Nat) : bitMask[7 &&& i]? = some (bitMask.getD (7 &&& i) 0) := by
  have hlt : 7 &&& i < bitMask.length := lt_of_mask
  rw [List.getD_eq_getElem?_getD, List.getElem?_eq_getElem hlt, Option.getD_some]

theorem or_and_ne_zero (b x y : UInt8) : ((b ||| x) &&& y != 0) = ((b &&& y != 0) || (x &&& y != 0)) := by
  have hdistrib : (b ||| x) &&& y = (b &&& y) ||| (x &&& y) := UInt8.toBitVec_inj.1 BitVec.and_or_distrib_right
  rw [hdistrib, Bool.eq_iff_iff, Bool.or_eq_true, bne_iff_ne, bne_iff_ne, bne_iff_ne, Ne, UInt8.or_eq_zero_iff,
    not_and_or]

/-- A place is the bit of a byte. -/
theorem place_eq_iff {i j : Nat} : i = j ↔ i >>> 3 = j >>> 3 ∧ 7 &&& i = 7 &&& j := by
  have hmod : ∀ n, 7 &&& n = n % 8 := fun n => by
    rw [Nat.and_comm]
    exact Nat.and_two_pow_sub_one_eq_mod n 3
  rw [hmod, hmod, Nat.shiftRight_eq_div_pow, Nat.shiftRight_eq_div_pow]
  omega

theorem mem_marks {vData : Bytes} {i : Nat} : i ∈ marks vData ↔ ∃ b, vData[i >>> 3]? = some b ∧
    (b &&& bitMask.getD (7 &&& i) 0 != 0) = true := by
  show testBit vData i = some true ↔ _
  simp only [testBit, bitMask_getElem?]
  cases vData[i >>> 3]? with
  | none => exact iff_of_false nofun (by rintro ⟨b, h, -⟩; cases h)
  | some b =>
    constructor
    · exact fun h => ⟨b, rfl, Option.some.inj h⟩
    · rintro ⟨b', hb, h⟩
      obtain rfl : b = b' := Option.some.inj hb
      exact congrArg some h

/-- A place in the data can be tested. -/
theorem testBit_of_lt {vData : Bytes} {i : Nat} (h : i < vData.length * 8) : ∃ fBit, testBit vData i = some fBit ∧
    (fBit = true ↔ i ∈ marks vData) := by
  have hlt : i >>> 3 < vData.length := by
    rw [Nat.shiftRight_eq_div_pow]
    omega
  have htest : testBit vData i = some (vData[i >>> 3] &&& bitMask.getD (7 &&& i) 0 != 0) := by
    simp only [testBit, bitMask_getElem?, List.getElem?_eq_getElem hlt]
    rfl
  refine ⟨_, htest, ?_⟩
  show _ ↔ testBit vData i = some true
  rw [htest, Option.some.injEq]

/-- **Setting a bit** marks its place and no other. -/
theorem setBit_spec {vData : Bytes} {i : Nat} (h : i < vData.length * 8) : ∃ vData', setBit vData i = some vData' ∧
    vData'.length = vData.length ∧ marks vData' = {j | j ∈ marks vData ∨ j = i} := by
  have hlt : i >>> 3 < vData.length := by
    rw [Nat.shiftRight_eq_div_pow]
    omega
  refine ⟨vData.set (i >>> 3) (vData[i >>> 3] ||| bitMask.getD (7 &&& i) 0), ?_, List.length_set, ?_⟩
  · simp only [setBit, bitMask_getElem?, List.getElem?_eq_getElem hlt]
    rfl
  ext j
  rw [Set.mem_ofPred_eq, mem_marks, mem_marks]
  by_cases hbyte : i >>> 3 = j >>> 3
  · rw [← hbyte, List.getElem?_set_self hlt, List.getElem?_eq_getElem hlt]
    simp only [Option.some.injEq, exists_eq_left', or_and_ne_zero, Bool.or_eq_true]
    refine or_congr_right ?_
    rw [bitMask_and _ lt_of_mask _ lt_of_mask, decide_eq_true_iff, place_eq_iff (i := j), hbyte]
    exact ⟨fun h => ⟨rfl, h.symm⟩, fun h => h.2.symm⟩
  · rw [List.getElem?_set_ne hbyte]
    refine (or_iff_left ?_).symm
    rintro rfl
    exact hbyte rfl

namespace CBloomFilter

/-- The place that a hash function gives a key. -/
def place (f : CBloomFilter) (vKey : Bytes) (i : Nat) : Nat :=
  (murmurHash3 (UInt32.ofNat i * 0xFBA4C795 + f.nTweak) vKey).toNat % (f.vData.length * 8)

/-- The places of a key. -/
def places (f : CBloomFilter) (vKey : Bytes) : List Nat := (List.range f.nHashFuncs.toNat).map (f.place vKey)

/-- A filter with the same parameters and data of the same size. -/
structure SameShape (f g : CBloomFilter) : Prop where
  length : g.vData.length = f.vData.length
  full : g.isFull = f.isFull
  funcs : g.nHashFuncs = f.nHashFuncs
  tweak : g.nTweak = f.nTweak
  flags : g.nFlags = f.nFlags

section Filter

variable {f g g' : CBloomFilter} {vKey : Bytes}

theorem SameShape.refl (f : CBloomFilter) : f.SameShape f := ⟨rfl, rfl, rfl, rfl, rfl⟩

theorem SameShape.trans (h : f.SameShape g) (h' : g.SameShape g') : f.SameShape g' :=
  ⟨h'.length.trans h.length, h'.full.trans h.full, h'.funcs.trans h.funcs, h'.tweak.trans h.tweak,
    h'.flags.trans h.flags⟩

theorem SameShape.place_eq (h : f.SameShape g) (vKey : Bytes) (i : Nat) : g.place vKey i = f.place vKey i := by
  rw [place, place, h.length, h.tweak]

theorem SameShape.places_eq (h : f.SameShape g) : g.places = f.places := by
  funext vKey
  unfold places
  rw [h.funcs]
  exact List.map_congr_left fun i _ => h.place_eq vKey i

theorem SameShape.vData_ne_nil (h : f.SameShape g) (hne : f.vData ≠ []) : g.vData ≠ [] := by
  rw [← List.length_pos_iff_ne_nil] at hne ⊢
  rw [h.length]
  exact hne

/-- **A filter with data reduces no hash modulo zero.** -/
theorem hash_of_ne_nil (hne : f.vData ≠ []) (vKey : Bytes) (i : Nat) :
    f.hash (UInt32.ofNat i) vKey = some (f.place vKey i) ∧ f.place vKey i < f.vData.length * 8 := by
  have hpos := List.length_pos_iff_ne_nil.mpr hne
  exact ⟨if_neg (by omega), Nat.mod_lt _ (by omega)⟩

/-- The loop of `insert` marks the places that it comes by. -/
theorem insertBits_spec (vKey : Bytes) : ∀ (l : List Nat) {f : CBloomFilter}, f.vData ≠ [] → ∃ g,
    l.foldlM (insertBit vKey) f = some g ∧ f.SameShape g ∧
      marks g.vData = {j | j ∈ marks f.vData ∨ j ∈ l.map (f.place vKey)}
  | [], f, _ => by
    refine ⟨f, rfl, .refl f, ?_⟩
    ext j
    simp
  | i :: l, f, hne => by
    obtain ⟨hhash, hlt⟩ := hash_of_ne_nil hne vKey i
    obtain ⟨vData, hset, hlen, hmarks⟩ := setBit_spec hlt
    have hbit : insertBit vKey f i = some { f with vData := vData } := by
      simp only [insertBit, hhash, Option.bind_eq_bind, Option.bind_some, hset]
      rfl
    have hshape : f.SameShape { f with vData := vData } := ⟨hlen, rfl, rfl, rfl, rfl⟩
    obtain ⟨g, hfold, hg, hmarks'⟩ := insertBits_spec vKey l (hshape.vData_ne_nil hne)
    refine ⟨g, ?_, hshape.trans hg, ?_⟩
    · rw [List.foldlM_cons, hbit]
      exact hfold
    · rw [hmarks', hmarks]
      ext j
      have hplaces : l.map (CBloomFilter.place { f with vData := vData } vKey) = l.map (f.place vKey) :=
        List.map_congr_left fun x _ => hshape.place_eq vKey x
      rw [hplaces, List.map_cons]
      simp only [Set.mem_ofPred_eq, List.mem_cons, or_assoc]

/-- **`insert` marks the places of the key.** -/
theorem insert_spec (hfull : f.isFull = false) (hne : f.vData ≠ []) (vKey : Bytes) : ∃ g, f.insert vKey = some g ∧
    f.SameShape g ∧ g.isEmpty = false ∧ marks g.vData = BitFilter.mark f.places (marks f.vData) vKey := by
  obtain ⟨g, hfold, hshape, hmarks⟩ := insertBits_spec vKey (List.range f.nHashFuncs.toNat) hne
  refine ⟨{ g with isEmpty := false }, ?_, ⟨hshape.length, hshape.full, hshape.funcs, hshape.tweak, hshape.flags⟩, rfl,
    hmarks⟩
  rw [insert, hfull, if_neg Bool.false_ne_true, hfold]
  rfl

theorem containsLoop_spec (hne : f.vData ≠ []) (vKey : Bytes) :
    ∀ l : List Nat, ∃ fHas, f.containsLoop vKey l = some fHas ∧
    (fHas = true ↔ ∀ j ∈ l.map (f.place vKey), j ∈ marks f.vData)
  | [] => ⟨true, rfl, iff_of_true rfl (List.forall_mem_nil _)⟩
  | i :: l => by
    obtain ⟨hhash, hlt⟩ := hash_of_ne_nil hne vKey i
    obtain ⟨fBit, htest, hbit⟩ := testBit_of_lt hlt
    obtain ⟨fHas, hloop, hhas⟩ := containsLoop_spec hne vKey l
    rw [List.map_cons]
    cases fBit with
    | true =>
      refine ⟨fHas, ?_, ?_⟩
      · simp only [containsLoop, hhash, htest, Option.bind_eq_bind, Option.bind_some, if_true, hloop]
      · rw [List.forall_mem_cons, hhas]
        exact (and_iff_right (hbit.mp rfl)).symm
    | false =>
      refine ⟨false, ?_, iff_of_false Bool.false_ne_true fun hall => ?_⟩
      · simp only [containsLoop, hhash, htest, Option.bind_eq_bind, Option.bind_some, Bool.false_eq_true, if_false]
        rfl
      · exact absurd (hbit.mpr (hall _ List.mem_cons_self)) Bool.false_ne_true

/-- **`contains` tests the marks of the key.** -/
theorem contains_spec (hfull : f.isFull = false) (hempty : f.isEmpty = false) (hne : f.vData ≠ []) (vKey : Bytes) :
    ∃ fHas, f.contains vKey = some fHas ∧ (fHas = true ↔ BitFilter.Has f.places (marks f.vData) vKey) := by
  rw [contains, hfull, if_neg Bool.false_ne_true, hempty, if_neg Bool.false_ne_true]
  exact containsLoop_spec hne vKey _

end Filter

/-! ## What was inserted -/

/-- The filter is full, or it has data, in which the inserted elements are marked, and is not flagged as empty once
there is one. -/
def Sound (f : CBloomFilter) (inserted : List Bytes) : Prop :=
  f.isFull = true ∨ f.vData ≠ [] ∧ (∀ vKey ∈ inserted, BitFilter.Has f.places (marks f.vData) vKey) ∧
    (f.isEmpty = true → inserted = [])

section Sound

variable {f : CBloomFilter} {inserted inserted' : List Bytes}

theorem Sound.mono (h : f.Sound inserted) (hsub : inserted' ⊆ inserted) : f.Sound inserted' := by
  refine h.imp_right fun ⟨hne, hhas, hempty⟩ => ⟨hne, fun vKey hk => hhas vKey (hsub hk), fun he => ?_⟩
  rw [hempty he] at hsub
  exact List.eq_nil_of_subset_nil hsub

/-- **No failure and no false negative of `contains`.** -/
theorem Sound.contains (h : f.Sound inserted) (vKey : Bytes) :
    ∃ fHas, f.contains vKey = some fHas ∧ (vKey ∈ inserted → fHas = true) := by
  cases hfull : f.isFull with
  | true => exact ⟨true, by rw [CBloomFilter.contains, hfull, if_pos rfl], fun _ => rfl⟩
  | false =>
    obtain ⟨hne, hhas, hempty⟩ := h.resolve_left (by rw [hfull]; exact Bool.false_ne_true)
    cases he : f.isEmpty with
    | true =>
      refine ⟨false, ?_, fun hk => ?_⟩
      · rw [CBloomFilter.contains, hfull, if_neg Bool.false_ne_true, he, if_pos rfl]
      · rw [hempty he] at hk
        cases hk
    | false =>
      obtain ⟨fHas, hcontains, hiff⟩ := contains_spec hfull he hne vKey
      exact ⟨fHas, hcontains, fun hk => hiff.mpr (hhas vKey hk)⟩

/-- **`insert` keeps the promise**, with one more element. -/
theorem Sound.insert (h : f.Sound inserted) (vKey : Bytes) :
    ∃ g, f.insert vKey = some g ∧ g.Sound (vKey :: inserted) ∧ f.SameShape g := by
  cases hfull : f.isFull with
  | true => exact ⟨f, by rw [CBloomFilter.insert, hfull, if_pos rfl], .inl hfull, .refl f⟩
  | false =>
    obtain ⟨hne, hhas, -⟩ := h.resolve_left (by rw [hfull]; exact Bool.false_ne_true)
    obtain ⟨g, hinsert, hshape, hempty, hmarks⟩ := insert_spec hfull hne vKey
    refine ⟨g, hinsert, .inr ⟨hshape.vData_ne_nil hne, fun k hk => ?_, fun he => ?_⟩, hshape⟩
    · rw [hshape.places_eq, hmarks]
      rcases List.mem_cons.mp hk with rfl | hk
      · exact BitFilter.has_mark_self _ _
      · exact (hhas k hk).mark vKey
    · rw [hempty] at he
      cases he

end Sound

/-! ## Transactions -/

/-- A script pushes an element that was inserted, which is not empty. -/
def PushesOne (inserted : List Bytes) (script : CScript) : Prop :=
    ∃ data ∈ scriptData script, data ≠ [] ∧ data ∈ inserted

/-- The transaction has something that was inserted: its hash, an element that an output or an input pushes, or an
outpoint that it spends. -/
def Touches (inserted : List Bytes) (tx : CTransaction) (hash : Uint256) : Prop :=
  hashKey hash ∈ inserted ∨ (∃ txout ∈ tx.vout, PushesOne inserted txout.scriptPubKey) ∨
    ∃ txin ∈ tx.vin, txin.prevout.key ∈ inserted ∨ PushesOne inserted txin.scriptSig

/-- The outpoints that the loop over the outputs inserts. -/
def updatedOutPoints (hash : Uint256) : CBloomFilter → Nat → List CTxOut → List COutPoint
  | _, _, [] => []
  | f, i, txout :: rest =>
    match f.visitOutput hash i txout with
    | none => []
    | some (g, fMatch) =>
      if fMatch && f.updatesFor txout.scriptPubKey then { hash := hash, n := i } :: updatedOutPoints hash g (i + 1) rest
      else updatedOutPoints hash g (i + 1) rest

/-- The outpoints that `IsRelevantAndUpdate` inserts. -/
def autoInserted (f : CBloomFilter) (tx : CTransaction) (hash : Uint256) : List COutPoint :=
  if f.isFull || f.isEmpty then [] else updatedOutPoints hash f 0 tx.vout

section Relevant

variable {f g : CBloomFilter} {inserted : List Bytes} {hash : Uint256}

theorem PushesOne.mono {inserted' : List Bytes} {script : CScript} (h : PushesOne inserted script)
    (hsub : inserted ⊆ inserted') : PushesOne inserted' script := by
  obtain ⟨data, hdata, hne, hin⟩ := h
  exact ⟨data, hdata, hne, hsub hin⟩

theorem SameShape.updatesFor_eq (h : f.SameShape g) (scriptPubKey : CScript) :
    g.updatesFor scriptPubKey = f.updatesFor scriptPubKey := by
  rw [updatesFor, updatesFor, h.flags]

/-- The search through a script finds what was inserted. -/
theorem Sound.containsAny (h : f.Sound inserted) : ∀ l : List Bytes, ∃ fHas, f.containsAny l = some fHas ∧
    ((∃ data ∈ l, data ≠ [] ∧ data ∈ inserted) → fHas = true)
  | [] => ⟨false, rfl, by rintro ⟨data, hdata, -⟩; cases hdata⟩
  | data :: rest => by
    obtain ⟨fRest, hrest, himp⟩ := h.containsAny rest
    rw [CBloomFilter.containsAny]
    by_cases hlen : data.length ≠ 0
    · obtain ⟨fHas, hcontains, hhas⟩ := h.contains data
      rw [if_pos hlen, hcontains]
      cases fHas with
      | true => exact ⟨true, rfl, fun _ => rfl⟩
      | false =>
        refine ⟨fRest, hrest, ?_⟩
        rintro ⟨x, hx, hne, hin⟩
        rcases List.mem_cons.mp hx with rfl | hx
        · exact absurd (hhas hin) Bool.false_ne_true
        · exact himp ⟨x, hx, hne, hin⟩
    · rw [if_neg hlen]
      refine ⟨fRest, hrest, ?_⟩
      rintro ⟨x, hx, hne, hin⟩
      rcases List.mem_cons.mp hx with rfl | hx
      · exact absurd (List.length_eq_zero_iff.mp (not_not.mp hlen)) hne
      · exact himp ⟨x, hx, hne, hin⟩

/-- **One output**: the filter keeps its promise, also for the outpoint when it is inserted. -/
theorem Sound.visitOutput (h : f.Sound inserted) (hash : Uint256) (i : Nat) (txout : CTxOut) : ∃ g fMatch,
    f.visitOutput hash i txout = some (g, fMatch) ∧ f.SameShape g ∧
      g.Sound ((if fMatch && f.updatesFor txout.scriptPubKey then [COutPoint.key { hash := hash, n := i }] else []) ++
        inserted) ∧ (PushesOne inserted txout.scriptPubKey → fMatch = true) := by
  obtain ⟨fMatch, hany, hmatch⟩ := h.containsAny (scriptData txout.scriptPubKey)
  unfold CBloomFilter.visitOutput
  rw [hany, Option.bind_eq_bind, Option.bind_some]
  by_cases hupdate : (fMatch && f.updatesFor txout.scriptPubKey) = true
  · obtain ⟨g, hinsert, hg, hshape⟩ := h.insert (COutPoint.key { hash := hash, n := i })
    obtain rfl : fMatch = true := (Bool.and_eq_true_iff.mp hupdate).1
    refine ⟨g, true, ?_, hshape, ?_, fun _ => rfl⟩
    · rw [if_pos hupdate, hinsert]
      rfl
    · rw [if_pos hupdate]
      exact hg
  · refine ⟨f, fMatch, ?_, .refl f, ?_, hmatch⟩
    · rw [if_neg hupdate]
      rfl
    · rw [if_neg hupdate]
      exact h

/-- **The outputs**: the filter keeps its promise, with the outpoints that are inserted on the way, and a match is
found where there is one. -/
theorem visitOutputs_spec (hash : Uint256) : ∀ (vout : List CTxOut) {f : CBloomFilter} {inserted : List Bytes}
    (fFound : Bool) (i : Nat), f.Sound inserted → ∃ g fMatch, visitOutputs hash f fFound i vout = some (g, fMatch) ∧
      g.Sound ((updatedOutPoints hash f i vout).map COutPoint.key ++ inserted) ∧
      (fFound = true ∨ (∃ txout ∈ vout, PushesOne inserted txout.scriptPubKey) → fMatch = true)
  | [], f, inserted, fFound, i, h => by
    refine ⟨f, fFound, rfl, h, ?_⟩
    rintro (hfound | ⟨txout, htxout, -⟩)
    · exact hfound
    · cases htxout
  | txout :: rest, f, inserted, fFound, i, h => by
    obtain ⟨g, fMatch, hvisit, -, hg, hmatch⟩ := h.visitOutput hash i txout
    obtain ⟨g', fMatch', hrest, hg', hmatch'⟩ := visitOutputs_spec hash rest (fFound || fMatch) (i + 1) hg
    refine ⟨g', fMatch', ?_, hg'.mono fun k hk => ?_, fun hany => hmatch' ?_⟩
    · rw [visitOutputs, hvisit]
      exact hrest
    · rw [updatedOutPoints, hvisit] at hk
      simp only at hk
      split at hk
      · rename_i hupdate
        rw [if_pos hupdate]
        simp only [List.map_cons, List.cons_append, List.mem_cons, List.mem_append] at hk ⊢
        grind
      · rename_i hupdate
        rw [if_neg hupdate]
        exact hk
    · rcases hany with hfound | ⟨x, hx, hpush⟩
      · exact .inl (by rw [hfound, Bool.true_or])
      · rcases List.mem_cons.mp hx with rfl | hx
        · exact .inl (by rw [hmatch hpush, Bool.or_true])
        · exact .inr ⟨x, hx, hpush.mono (List.subset_append_right _ _)⟩

/-- **The inputs**: a match is found where there is one. -/
theorem Sound.containsInput (h : f.Sound inserted) : ∀ vin : List CTxIn, ∃ fHas, f.containsInput vin = some fHas ∧
    ((∃ txin ∈ vin, txin.prevout.key ∈ inserted ∨ PushesOne inserted txin.scriptSig) → fHas = true)
  | [] => ⟨false, rfl, by rintro ⟨txin, htxin, -⟩; cases htxin⟩
  | txin :: rest => by
    obtain ⟨fOut, hout, himpOut⟩ := h.contains txin.prevout.key
    obtain ⟨fPush, hpush, himpPush⟩ := h.containsAny (scriptData txin.scriptSig)
    obtain ⟨fRest, hrest, himpRest⟩ := h.containsInput rest
    rw [CBloomFilter.containsInput, hout, Option.bind_eq_bind, Option.bind_some]
    cases fOut with
    | true => exact ⟨true, rfl, fun _ => rfl⟩
    | false =>
      rw [if_neg Bool.false_ne_true, hpush, Option.bind_some]
      cases fPush with
      | true => exact ⟨true, rfl, fun _ => rfl⟩
      | false =>
        refine ⟨fRest, hrest, ?_⟩
        rintro ⟨x, hx, hin⟩
        rcases List.mem_cons.mp hx with rfl | hx
        · rcases hin with hin | hin
          · exact absurd (himpOut hin) Bool.false_ne_true
          · exact absurd (himpPush hin) Bool.false_ne_true
        · exact himpRest ⟨x, hx, hin⟩

/-- **What `IsRelevantAndUpdate` does**: it does not fail, it finds what was inserted, and it keeps the promise for that
and for the outpoints that it inserts. -/
theorem Sound.isRelevantAndUpdate (h : f.Sound inserted) (tx : CTransaction) (hash : Uint256) : ∃ g fFound,
    f.isRelevantAndUpdate tx hash = some (g, fFound) ∧
      g.Sound ((f.autoInserted tx hash).map COutPoint.key ++ inserted) ∧
        (Touches inserted tx hash → fFound = true) := by
  unfold CBloomFilter.isRelevantAndUpdate autoInserted
  cases hfull : f.isFull with
  | true => exact ⟨f, true, rfl, .inl hfull, fun _ => rfl⟩
  | false =>
    obtain ⟨-, -, hempty⟩ := h.resolve_left (by rw [hfull]; exact Bool.false_ne_true)
    cases he : f.isEmpty with
    | true =>
      refine ⟨f, false, rfl, h, ?_⟩
      rw [hempty he]
      rintro (hin | ⟨txout, -, data, -, -, hin⟩ | ⟨txin, -, hin | ⟨data, -, -, hin⟩⟩) <;> cases hin
    | false =>
      obtain ⟨fHash, hhash, himpHash⟩ := h.contains (hashKey hash)
      obtain ⟨g, fFound, hvisit, hg, himpOut⟩ := visitOutputs_spec hash tx.vout fHash 0 h
      obtain ⟨fInput, hinput, himpIn⟩ := hg.containsInput tx.vin
      simp only [Bool.false_eq_true, if_false, Bool.or_false, hhash, hvisit, Option.bind_eq_bind, Option.bind_some]
      cases fFound with
      | true => exact ⟨g, true, rfl, hg, fun _ => rfl⟩
      | false =>
        refine ⟨g, fInput, ?_, hg, ?_⟩
        · simp only [Bool.false_eq_true, if_false, hinput, Option.bind_some]
          rfl
        · rintro (hin | hout | ⟨txin, htxin, hin⟩)
          · exact absurd (himpOut (.inl (himpHash hin))) Bool.false_ne_true
          · exact absurd (himpOut (.inr hout)) Bool.false_ne_true
          · refine himpIn ⟨txin, htxin, hin.imp (fun hin => ?_) fun hin => hin.mono (List.subset_append_right _ _)⟩
            exact List.mem_append_right _ hin

/-- The outpoint of an output that pushes an inserted element is inserted, when the flags ask for it. -/
theorem mem_updatedOutPoints (hash : Uint256) : ∀ (vout : List CTxOut) {f : CBloomFilter} {inserted : List Bytes}
    {i j : Nat} {txout : CTxOut}, f.Sound inserted → vout[j]? = some txout → f.updatesFor txout.scriptPubKey = true →
      PushesOne inserted txout.scriptPubKey → { hash := hash, n := i + j } ∈ updatedOutPoints hash f i vout
  | [], f, inserted, i, j, txout, _, hj, _, _ => by
    rw [List.getElem?_nil] at hj
    cases hj
  | first :: rest, f, inserted, i, j, txout, h, hj, hupdate, hpush => by
    obtain ⟨g, fMatch, hvisit, hshape, hg, hmatch⟩ := h.visitOutput hash i first
    rw [updatedOutPoints, hvisit]
    simp only
    cases j with
    | zero =>
      obtain rfl : first = txout := Option.some.inj hj
      rw [hmatch hpush, hupdate]
      exact List.mem_cons_self
    | succ j =>
      have hrest := mem_updatedOutPoints hash rest (i := i + 1) hg hj ((hshape.updatesFor_eq _).trans hupdate)
        (hpush.mono (List.subset_append_right _ _))
      rw [show i + 1 + j = i + (j + 1) by omega] at hrest
      split
      · exact List.mem_cons_of_mem _ hrest
      · exact hrest

theorem Sound.mem_autoInserted (h : f.Sound inserted) {tx : CTransaction} {j : Nat} {txout : CTxOut}
    (hfull : f.isFull = false) (hj : tx.vout[j]? = some txout) (hupdate : f.updatesFor txout.scriptPubKey = true)
    (hpush : PushesOne inserted txout.scriptPubKey) : { hash := hash, n := j } ∈ f.autoInserted tx hash := by
  obtain ⟨-, -, hempty⟩ := h.resolve_left (by rw [hfull]; exact Bool.false_ne_true)
  have he : f.isEmpty = false := by
    rw [← Bool.not_eq_true]
    intro he
    obtain ⟨data, -, -, hin⟩ := hpush
    rw [hempty he] at hin
    cases hin
  have hmem := mem_updatedOutPoints hash tx.vout (i := 0) h hj hupdate hpush
  rw [Nat.zero_add] at hmem
  rwa [autoInserted, hfull, he, Bool.or_false, if_neg Bool.false_ne_true]

end Relevant

/-- `CBloomFilter()`. The other members are not initialised. -/
def full (isEmpty : Bool) (nHashFuncs nTweak : UInt32) (nFlags : UInt8) : CBloomFilter where
  isFull := true
  isEmpty := isEmpty
  nHashFuncs := nHashFuncs
  nTweak := nTweak
  nFlags := nFlags

theorem sound_full (isEmpty : Bool) (nHashFuncs nTweak : UInt32) (nFlags : UInt8) (inserted : List Bytes) :
    (full isEmpty nHashFuncs nTweak nFlags).Sound inserted := .inl rfl

/-- **A filter that was loaded** is full when it has no data. -/
theorem sound_updateEmptyFull (f : CBloomFilter) : f.updateEmptyFull.Sound [] := by
  by_cases hnil : f.vData = []
  · refine .inl ?_
    show f.vData.foldl (fun full b => full && b == 0xff) true = true
    rw [hnil]
    rfl
  · exact .inr ⟨hnil, List.forall_mem_nil _, fun _ => rfl⟩

end CBloomFilter

/-! ## The filter of a peer -/

/-- The filter of a peer, and the elements that were inserted since it was loaded. -/
structure PeerFilter where
  pfilter : CBloomFilter
  inserted : List Bytes := []
deriving DecidableEq, Repr

/-- The messages of a peer, and the transactions that are looked for. -/
inductive FilterEvent where
  | filterload (filter : CBloomFilter)
  | filteradd (vData : Bytes)
  /-- with what the new filter has in the members that are not initialised -/
  | filterclear (isEmpty : Bool) (nHashFuncs nTweak : UInt32) (nFlags : UInt8)
  | isRelevantAndUpdate (tx : CTransaction) (hash : Uint256)

namespace PeerFilter

/-- One message or transaction; `none` when a hash is reduced modulo zero or a read is not in the data. -/
def step (s : PeerFilter) : FilterEvent → Option PeerFilter
  | .filterload filter =>
    if !filter.isWithinSizeConstraints then some s else some { pfilter := filter.updateEmptyFull }
  | .filteradd vData =>
    if vData.length > maxScriptElementSize then some s
    else do
      let filter ← s.pfilter.insert vData
      return { pfilter := filter, inserted := vData :: s.inserted }
  | .filterclear isEmpty nHashFuncs nTweak nFlags =>
    some { s with pfilter := CBloomFilter.full isEmpty nHashFuncs nTweak nFlags }
  | .isRelevantAndUpdate tx hash => do
    let (filter, _) ← s.pfilter.isRelevantAndUpdate tx hash
    return { pfilter := filter, inserted := (s.pfilter.autoInserted tx hash).map COutPoint.key ++ s.inserted }

/-- **Every step keeps the promise.** -/
theorem step_sound {s : PeerFilter} (h : s.pfilter.Sound s.inserted) (e : FilterEvent) :
    ∃ s', s.step e = some s' ∧ s'.pfilter.Sound s'.inserted := by
  cases e with
  | filterload filter =>
    rw [step]
    split
    · exact ⟨s, rfl, h⟩
    · exact ⟨_, rfl, CBloomFilter.sound_updateEmptyFull filter⟩
  | filteradd vData =>
    rw [step]
    split
    · exact ⟨s, rfl, h⟩
    · obtain ⟨g, hinsert, hg, -⟩ := h.insert vData
      exact ⟨{ pfilter := g, inserted := vData :: s.inserted }, by rw [hinsert]; rfl, hg⟩
  | filterclear isEmpty nHashFuncs nTweak nFlags => exact ⟨_, rfl, CBloomFilter.sound_full _ _ _ _ _⟩
  | isRelevantAndUpdate tx hash =>
    obtain ⟨g, fFound, hrelevant, hg, -⟩ := h.isRelevantAndUpdate tx hash
    refine ⟨{ pfilter := g, inserted := (s.pfilter.autoInserted tx hash).map COutPoint.key ++ s.inserted }, ?_, hg⟩
    rw [step, hrelevant]
    rfl

/-- Every run keeps the promise. -/
theorem run_sound : ∀ (es : List FilterEvent) {s : PeerFilter}, s.pfilter.Sound s.inserted →
    ∃ s', es.foldlM step s = some s' ∧ s'.pfilter.Sound s'.inserted
  | [], s, h => ⟨s, rfl, h⟩
  | e :: es, s, h => by
    obtain ⟨s₁, hstep, h₁⟩ := step_sound h e
    obtain ⟨s₂, hrun, h₂⟩ := run_sound es h₁
    refine ⟨s₂, ?_, h₂⟩
    rw [List.foldlM_cons, hstep]
    exact hrun

/-- **Bloom filters**: a peer starts with the full filter. Whatever it loads, adds and clears, and whatever transactions
are looked for, no hash is reduced modulo zero and no read is out of the data; every element that was inserted since
the filter was loaded is reported as contained; and a transaction is found when its hash, an element that one of its
outputs or inputs pushes, or an outpoint that it spends was inserted. The outpoints that the filter's flags ask for are
inserted automatically, as long as the filter is not full. -/
theorem bloom_law (isEmpty : Bool) (nHashFuncs nTweak : UInt32) (nFlags : UInt8) (es : List FilterEvent) : ∃ s,
    es.foldlM step { pfilter := CBloomFilter.full isEmpty nHashFuncs nTweak nFlags } = some s ∧
    (∀ vKey, ∃ fHas, s.pfilter.contains vKey = some fHas ∧ (vKey ∈ s.inserted → fHas = true)) ∧
    ∀ tx hash, ∃ s' fFound, s.step (.isRelevantAndUpdate tx hash) = some s' ∧
      s.pfilter.isRelevantAndUpdate tx hash = some (s'.pfilter, fFound) ∧
      (CBloomFilter.Touches s.inserted tx hash → fFound = true) ∧
      ∀ i txout, tx.vout[i]? = some txout → s.pfilter.isFull = false → s.pfilter.updatesFor txout.scriptPubKey = true →
        CBloomFilter.PushesOne s.inserted txout.scriptPubKey →
          COutPoint.key { hash := hash, n := i } ∈ s'.inserted := by
  obtain ⟨s, hrun, h⟩ := run_sound es (s := { pfilter := CBloomFilter.full isEmpty nHashFuncs nTweak nFlags })
    (CBloomFilter.sound_full _ _ _ _ _)
  refine ⟨s, hrun, h.contains, fun tx hash => ?_⟩
  obtain ⟨g, fFound, hrelevant, -, hfound⟩ := h.isRelevantAndUpdate tx hash
  refine ⟨{ pfilter := g, inserted := (s.pfilter.autoInserted tx hash).map COutPoint.key ++ s.inserted }, fFound, ?_,
    hrelevant, hfound, fun i txout hi hfull hupdate hpush => ?_⟩
  · rw [step, hrelevant]
    rfl
  · exact List.mem_append_left _ (List.mem_map_of_mem (h.mem_autoInserted hfull hi hupdate hpush))

/-! ## A coin that is paid and spent -/

/-- A filter of three bytes that asks for all outpoints. -/
def smallFilter : CBloomFilter where
  vData := [0, 0, 0]
  isFull := true
  isEmpty := true
  nHashFuncs := 5
  nTweak := 0
  nFlags := bloomUpdateAll

/-- An output that pushes an element. -/
def paidOut : CTxOut := { nValue := 1, scriptPubKey := pushData [1, 2, 3] }

/-- The filter is loaded, the element is added, and a transaction with the output is looked for. -/
def paidEvents : List FilterEvent :=
  [.filterload smallFilter, .filteradd [1, 2, 3], .isRelevantAndUpdate { vout := [paidOut] } 7]

/-- The transaction that spends the output is found. -/
theorem bloom_law_sample : ∃ s,
    paidEvents.foldlM step { pfilter := CBloomFilter.full true 0 0 0 } = some s ∧
    s.pfilter.contains [1, 2, 3] = some true ∧
    ∃ filter, s.pfilter.isRelevantAndUpdate { vin := [{ prevout := { hash := 7, n := 0 } }] } 9 =
      some (filter, true) := by
  obtain ⟨s, hrun, hcontains, hrelevant⟩ := bloom_law true 0 0 0 paidEvents
  have hinserted : s.inserted = [COutPoint.key { hash := 7, n := 0 }, [1, 2, 3]] := by
    have hmap : (paidEvents.foldlM step { pfilter := CBloomFilter.full true 0 0 0 }).map (·.inserted) =
        some [COutPoint.key { hash := 7, n := 0 }, [1, 2, 3]] := by
      decide +kernel
    rw [hrun] at hmap
    exact Option.some.inj hmap
  obtain ⟨fHas, hhas, himp⟩ := hcontains [1, 2, 3]
  obtain ⟨s', fFound, -, hfind, hfound, -⟩ := hrelevant { vin := [{ prevout := { hash := 7, n := 0 } }] } 9
  refine ⟨s, hrun, ?_, s'.pfilter, ?_⟩
  · rw [hhas, himp (by rw [hinserted]; exact List.mem_cons_of_mem _ List.mem_cons_self)]
  · rw [hfind, hfound (.inr (.inr ⟨_, List.mem_cons_self, .inl ?_⟩))]
    rw [hinserted]
    exact List.mem_cons_self

end PeerFilter

end Morcochain
