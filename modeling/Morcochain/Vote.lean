import Morcochain.Address
import Morcochain.Interpreter

/-!
# Votes

The votes that a coinstake carries (`vote.h`, `vote.cpp`): their data, when they are valid, and how they are read from
the outputs of a block. A `uint64` coin age is a natural number; the `int64` sums of the tallies wrap (`toInt64`).
-/

set_option autoImplicit false

namespace Morcochain

open OrderedStore

/-- An `int64` after an operation whose exact result is `x`. -/
def toInt64 (x : Int) : Int := Int.bmod x (2 ^ 64)

/-- A sum that fits is exact. -/
theorem toInt64_eq {x : Int} (h₀ : 0 ≤ x) (h : x < 2 ^ 63) : toInt64 x = x := by
  unfold toInt64
  rw [Int.bmod_eq_of_le] <;> omega

def protocolV0_4_5 : Int := 40500
def protocolV0_5 : Int := 50000
def protocolV2_0 : Int := 2000000
def protocolVersion : Int := protocolV2_0

def coinParkRate : Int := 100000 * coin
def maxParkRate : Int := 1000000 * coinParkRate
def maxCompactDuration : Nat := 30

/-! ## Data -/

/-- `CUnitMap`: a value for each of the available units. -/
structure CUnitMap (α : Type) where
  share : Option α := none
  currency : Option α := none
deriving DecidableEq, Repr

/-- The value for a unit; the outer `none` is the exception that `GetUnitIndex` throws. -/
def CUnitMap.get? {α : Type} (m : CUnitMap α) (cUnit : CUnit) : Option (Option α) :=
  if cUnit = unitShare then some m.share
  else if cUnit = unitCurrency then some m.currency
  else none

/-- `CUnitMap::operator[]` with an assignment, for an available unit. -/
def CUnitMap.set {α : Type} (m : CUnitMap α) (cUnit : CUnit) (x : α) : CUnitMap α :=
  if cUnit = unitShare then { m with share := some x }
  else if cUnit = unitCurrency then { m with currency := some x }
  else m

/-- `CCustodianVote`. -/
structure CCustodianVote where
  cUnit : CUnit := unitUnknown
  fScript : Bool := false
  hashAddress : Uint160 := default
  nAmount : Int := 0
deriving DecidableEq, Repr

/-- `CParkRate`. -/
structure CParkRate where
  nCompactDuration : Nat := 0
  nRate : Int := 0
deriving DecidableEq, Repr

/-- `CParkRateVote`. -/
structure CParkRateVote where
  cUnit : CUnit := unitUnknown
  vParkRate : List CParkRate := []
deriving DecidableEq, Repr

/-- `CVote`. -/
structure CVote where
  nVersionVote : Int := protocolVersion
  vCustodianVote : List CCustodianVote := []
  vParkRateVote : List CParkRateVote := []
  vMotion : List Uint160 := []
  mapFeeVote : CUnitMap Nat := {}
  nCoinAgeDestroyed : Nat := 0
deriving DecidableEq, Repr

/-- `CVote::SetNull`. -/
def CVote.null : CVote := { nVersionVote := 0 }

/-- `CCustodianVote::GetAddress`; `none` where the unit has no address version. -/
def CCustodianVote.getAddress (fTestNet : Bool) (v : CCustodianVote) : Option CBitcoinAddress :=
  if v.fScript then CBitcoinAddress.ofDestination fTestNet (.scriptID v.hashAddress) v.cUnit
  else CBitcoinAddress.ofDestination fTestNet (.keyID v.hashAddress) v.cUnit

/-- The destination of a custodian vote. -/
def CCustodianVote.destination (v : CCustodianVote) : CTxDestination :=
  if v.fScript then .scriptID v.hashAddress else .keyID v.hashAddress

theorem CCustodianVote.destination_ne_none (v : CCustodianVote) : v.destination ≠ .none := by
  unfold destination
  split <;> exact fun h => nomatch h

/-- The address of a custodian vote is that of its destination. -/
theorem CCustodianVote.getAddress_eq (fTestNet : Bool) (v : CCustodianVote) :
    v.getAddress fTestNet = CBitcoinAddress.ofDestination fTestNet v.destination v.cUnit := by
  unfold getAddress destination
  split <;> rfl

/-- The two votes are for one address. -/
def SameAddress (v v' : CCustodianVote) : Prop :=
  v.cUnit = v'.cUnit ∧ v.fScript = v'.fScript ∧ v.hashAddress = v'.hashAddress

instance (v v' : CCustodianVote) : Decidable (SameAddress v v') := by
  unfold SameAddress
  infer_instance

theorem isValidUnit_iff {cUnit : CUnit} : isValidUnit cUnit = true ↔ cUnit = unitShare ∨ cUnit = unitCurrency := by
  simp [isValidUnit, sAvailableUnits]

/-- What the address of a custodian vote for an available unit gives back. -/
theorem CCustodianVote.getAddress_of_valid (fTestNet : Bool) {v : CCustodianVote} (h : isValidUnit v.cUnit = true) :
    ∃ a, v.getAddress fTestNet = some a ∧ a.getUnit fTestNet = v.cUnit ∧ a.get fTestNet = v.destination ∧
      a.vchData = v.hashAddress.bytes := by
  obtain ⟨u, s, x, n⟩ := v
  have hx := x.size_eq
  have hb := Uint160.ofBytes_bytes x
  rcases isValidUnit_iff.mp h with hu | hu <;> simp only at hu <;> subst hu <;> cases s <;> cases fTestNet <;>
    exact ⟨_, rfl, rfl, by
      simp [CBitcoinAddress.get, CBitcoinAddress.isValid, CBitcoinAddress.isValidFor, CBitcoinAddress.getUnit,
        pubKeyVersion, scriptVersion, destination, unitShare, unitCurrency, unitUnknown, hx, hb], rfl⟩

/-- Votes for available units have one address exactly when they name the same one. -/
theorem CCustodianVote.getAddress_eq_iff {fTestNet : Bool} {v v' : CCustodianVote} {a : CBitcoinAddress}
    (h : isValidUnit v.cUnit = true) (h' : isValidUnit v'.cUnit = true) (hv : v.getAddress fTestNet = some a) :
    v'.getAddress fTestNet = some a ↔ SameAddress v' v := by
  obtain ⟨b, hb, hbu, hbd, hbx⟩ := getAddress_of_valid fTestNet h
  obtain ⟨c, hc, hcu, hcd, hcx⟩ := getAddress_of_valid fTestNet h'
  rw [hb] at hv
  cases hv
  rw [hc]
  constructor
  · intro hcb
    cases hcb
    rw [hbu] at hcu
    rw [hbd] at hcd
    unfold destination at hcd
    refine ⟨hcu.symm, ?_⟩
    cases hs : v.fScript <;> cases hs' : v'.fScript <;> simp_all
  · rintro ⟨hu, hs, hx⟩
    rw [← hb, ← hc, getAddress, getAddress, hu, hs, hx]

/-! ## The order of custodian votes -/

/-- The fields by which custodian votes compare, in order. -/
def CCustodianVote.key (v : CCustodianVote) : List Int :=
  [v.cUnit.toNat, v.nAmount, if v.fScript then 1 else 0, v.hashAddress.toNat]

theorem leNat_inj : ∀ {a b : Bytes}, a.length = b.length → leNat a = leNat b → a = b
  | [], [], _, _ => rfl
  | [], _ :: _, hl, _ => nomatch hl
  | _ :: _, [], hl, _ => nomatch hl
  | x :: a, y :: b, hl, h => by
    rw [leNat, leNat] at h
    have hx := x.toNat_lt
    have hy := y.toNat_lt
    have hxy : x = y := UInt8.toNat_inj.mp (by omega)
    rw [hxy, leNat_inj (Nat.succ.inj hl) (by omega)]

theorem Uint160.toNat_inj {a b : Uint160} (h : a.toNat = b.toNat) : a = b := by
  cases a with
  | mk a ha =>
    cases b with
    | mk b hb =>
      have := leNat_inj (ha.trans hb.symm) h
      subst this
      rfl

theorem CCustodianVote.key_inj {a b : CCustodianVote} (h : a.key = b.key) : a = b := by
  cases a with
  | mk u s x n =>
    cases b with
    | mk u' s' x' n' =>
      simp only [key, List.cons.injEq, and_true] at h
      obtain ⟨hu, hn, hs, hx⟩ := h
      have hu : u = u' := UInt8.toNat_inj.mp (by omega)
      have hs : s = s' := by
        cases s <;> cases s' <;> simp_all
      have hx : x = x' := Uint160.toNat_inj (by omega)
      rw [hu, hn, hs, hx]

instance : LE CCustodianVote := ⟨fun a b => a.key ≤ b.key⟩

/-- `CCustodianVote::operator<`. -/
instance : LT CCustodianVote := ⟨fun a b => a.key < b.key⟩

instance : DecidableLE CCustodianVote := fun a b => inferInstanceAs (Decidable (a.key ≤ b.key))
instance : DecidableLT CCustodianVote := fun a b => inferInstanceAs (Decidable (a.key < b.key))

theorem CCustodianVote.orderedBy : OrderedBy CCustodianVote (List Int) CCustodianVote.key where
  inj _ _ h := key_inj h
  le_iff _ _ := Iff.rfl
  lt_iff _ _ := Iff.rfl

instance : Std.IsLinearOrder CCustodianVote := CCustodianVote.orderedBy.isLinearOrder
instance : Std.LawfulOrderLT CCustodianVote := CCustodianVote.orderedBy.lawfulOrderLT

/-- Votes for one address are ordered by their amounts. -/
theorem SameAddress.order {v v' : CCustodianVote} (h : SameAddress v' v) :
    v' = v ∨ v < v' ↔ v.nAmount ≤ v'.nAmount := by
  obtain ⟨hu, hs, hx⟩ := h
  have hlt : v < v' ↔ v.nAmount < v'.nAmount := by
    show v.key < v'.key ↔ _
    simp [CCustodianVote.key, hu, hs, hx, List.cons_lt_cons_iff]
  have heq : v' = v ↔ v.nAmount = v'.nAmount := by
    cases v
    cases v'
    simp only at hu hs hx
    simp only [CCustodianVote.mk.injEq, hu, hs, hx, true_and]
    exact eq_comm
  rw [hlt, heq]
  omega

/-! ## Validity -/

/-- `CParkRate::IsValid`. -/
def CParkRate.isValid (r : CParkRate) : Bool :=
  r.nCompactDuration < maxCompactDuration ∧ 0 ≤ r.nRate ∧ r.nRate ≤ maxParkRate

/-- `CParkRateVote::IsValid`: a currency, valid rates, and no duration twice. -/
def CParkRateVote.isValid (v : CParkRateVote) : Bool :=
  isValidCurrency v.cUnit ∧ v.vParkRate.all (·.isValid) ∧ (v.vParkRate.map (·.nCompactDuration)).Nodup

/-- `CCustodianVote::IsValid`. After v2.0 any unit is valid as a custodian grant. -/
def CCustodianVote.isValid (v : CCustodianVote) (nProtocolVersion : Int) : Bool :=
  isValidUnit v.cUnit ∧ ¬ (nProtocolVersion < protocolV2_0 ∧ ¬ isValidCurrency v.cUnit) ∧ moneyRange v.nAmount

/-- `CVote::IsValid`. -/
def CVote.isValid (vote : CVote) (nProtocolVersion : Int) : Bool :=
  vote.vParkRateVote.all (·.isValid) ∧ (vote.vParkRateVote.map (·.cUnit)).Nodup ∧
    vote.vCustodianVote.all (·.isValid nProtocolVersion) ∧ vote.vCustodianVote.Nodup

/-! ## Reading a vote from a script -/

/-- A reader of a stream; `none` is the exception at the end of the data. -/
abbrev Reader := StateT Bytes Option

/-- Read `k` bytes. -/
def readBytes (k : Nat) : Reader Bytes := fun s => if s.length < k then none else some (s.take k, s.drop k)

/-- Read an unsigned integer of `k` bytes. -/
def readUInt (k : Nat) : Reader Nat := do return leNat (← readBytes k)

/-- Read a signed integer of `k` bytes. -/
def readInt (k : Nat) : Reader Int := do return Int.bmod (← readUInt k) (256 ^ k)

/-- Read a `bool`. -/
def readBool : Reader Bool := do return (← readUInt 1) ≠ 0

/-- Read a `uint160`. -/
def readUint160 : Reader Uint160 := do return Uint160.ofBytes (← readBytes 20)

/-- `ReadCompactSize`, which throws above `MAX_SIZE`. -/
def readCompactSize : Reader Nat := do
  let chSize ← readUInt 1
  let nSizeRet ←
    if chSize < 253 then pure chSize
    else if chSize = 253 then readUInt 2
    else if chSize = 254 then readUInt 4
    else readUInt 8
  if nSizeRet > 0x02000000 then fun _ => none else return nSizeRet

/-- Read `k` elements. -/
def readMany {α : Type} (read : Reader α) : Nat → Reader (List α)
  | 0 => return []
  | k + 1 => do
    let x ← read
    return x :: (← readMany read k)

/-- Read a vector. -/
def readVector {α : Type} (read : Reader α) : Reader (List α) := do readMany read (← readCompactSize)

/-- Unserialize a string or a vector of bytes. -/
def readByteString : Reader Bytes := do readBytes (← readCompactSize)

/-- Unserialize a `CCustodianVote` at a version. -/
def readCustodianVote (nVersion : Int) : Reader CCustodianVote := do
  let cUnit ← readUInt 1
  let fScript ← if nVersion ≥ 20200 then readBool else pure false
  let hashAddress ← readUint160
  let nAmount ← readInt 8
  return { cUnit := UInt8.ofNat cUnit, fScript := fScript, hashAddress := hashAddress, nAmount := nAmount }

/-- Unserialize a `CParkRate`. -/
def readParkRate : Reader CParkRate := do
  let nCompactDuration ← readUInt 1
  let nRate ← readInt 8
  return { nCompactDuration := nCompactDuration, nRate := nRate }

/-- Unserialize a `CParkRateVote`. -/
def readParkRateVote : Reader CParkRateVote := do
  let cUnit ← readUInt 1
  let vParkRate ← readVector readParkRate
  return { cUnit := UInt8.ofNat cUnit, vParkRate := vParkRate }

/-- Unserialize a `CUnitMap<uint32_t>`: the pairs go through a `std::map`, in which the first pair of a key stays;
an unavailable unit throws. -/
def readFeeVotes : Reader (CUnitMap Nat) := do
  let pairs ← readVector (do
    let cUnit ← readUInt 1
    let nFee ← readUInt 4
    return (UInt8.ofNat cUnit, nFee))
  if pairs.all (fun p => isValidUnit p.1) then
    return pairs.foldr (fun p m => m.set p.1 p.2) {}
  else fun _ => none

/-- `CVote::ReadWriteSingleMotion`, reading: a null hash is no motion. -/
def readSingleMotion : Reader (List Uint160) := do
  let hashMotion ← readUint160
  return if hashMotion = default then [] else [hashMotion]

/-- Unserialize a `CVote` with a stream of version `nVersion`. -/
def readVote (nVersion : Int) : Reader CVote := do
  let nVersionVote ← readInt 4
  let nVersion := if nVersionVote < protocolV2_0 then nVersionVote else nVersion
  let vCustodianVote ← readVector (readCustodianVote nVersion)
  let vParkRateVote ← readVector readParkRateVote
  let vMotion ←
    if nVersion ≥ protocolV0_5 then readVector readUint160
    else readSingleMotion
  let mapFeeVote ← if nVersion ≥ protocolV2_0 then readFeeVotes else pure {}
  return { nVersionVote := nVersionVote, vCustodianVote := vCustodianVote, vParkRateVote := vParkRateVote,
           vMotion := vMotion, mapFeeVote := mapFeeVote }

/-- The single entry that the script after the marker of a vote or a park rate result pushes. -/
def pushedData (script : CScript) : Option Bytes :=
  if isPushOnly script ∧ script.length ≤ 10000 then
    -- `EvalScript` of a script that only pushes: what it pushed before it stopped stays on the stack
    match evalPushes [] (parseOps script).1 with
    | [vch] => some vch
    | _ => none
  else none
where
  /-- The stack after the pushes of a push-only script, up to the operation at which `EvalScript` returns false. -/
  evalPushes (stack : Stack) : List Op → Stack
    | [] => stack
    | o :: ops =>
      if o.vch.length > 520 ∨ o.opcode = opReserved then stack
      else
        let pushed := if o.opcode ≤ opPushdata4 then o.vch else bigNumVch ((o.opcode.toNat : Int) - 0x50)
        if (pushed :: stack).length > 1000 then pushed :: stack else evalPushes (pushed :: stack) ops

/-- `ExtractVote` of a script. -/
def extractVoteScript (scriptPubKey : CScript) (nProtocolVersion : Int) : Option CVote := do
  if !isVoteScript scriptPubKey then none
  let vch ← pushedData (scriptPubKey.drop 2)
  let (vote, _) ← readVote nProtocolVersion vch
  return vote

/-- `ExtractVote` of a block: the first vote among the outputs of the coinstake. -/
def extractVote (block : CBlock) (nProtocolVersion : Int) : Option CVote :=
  if block.isProofOfStake then
    (block.vtx[1]?.map (·.vout)).getD [] |>.findSome? (fun txo => extractVoteScript txo.scriptPubKey nProtocolVersion)
  else none

/-- `ExtractParkRateResult` of a script. -/
def extractParkRateResult (scriptPubKey : CScript) : Option CParkRateVote := do
  if !isParkRateResultScript scriptPubKey then none
  let vch ← pushedData (scriptPubKey.drop 2)
  let (parkRateResult, _) ← readParkRateVote vch
  return parkRateResult

/-- `ExtractParkRateResults` of a block: no unit may have two results. -/
def extractParkRateResults (block : CBlock) : Option (List CParkRateVote) :=
  if block.isProofOfStake then
    let results := ((block.vtx[1]?.map (·.vout)).getD []).filterMap (fun txo => extractParkRateResult txo.scriptPubKey)
    if (results.map (·.cUnit)).Nodup then some results else none
  else none

end Morcochain
