import Morcochain.NetAddr
import Morcochain.Lib.OrderedSet

/-!
# The address manager

`CAddrMan` (`addrman.h`, `addrman.cpp`): the addresses of other nodes that are known, in buckets of those that were
tried and of those that are new. Times and what the random source gives are arguments of the calls. A failed assertion
is a failure; where the code reads the entry of an id without asserting that there is one, the model fails as well.
-/

set_option autoImplicit false

namespace Morcochain

open OrderedStore Guard

/-! ## Entries -/

def triedBucketCount : Nat := 64
def triedBucketSize : Nat := 64
def newBucketCount : Nat := 256
def newBucketSize : Nat := 64
def triedBucketsPerGroup : Nat := 4
def newBucketsPerSourceGroup : Nat := 32
def newBucketsPerAddress : Int := 4
def triedEntriesInspectOnEvict : Nat := 4
def horizonDays : Int := 30
def addrmanRetries : Int := 3
def addrmanMaxFailures : Int := 10
def minFailDays : Int := 7
def getaddrMaxPct : Nat := 23
def getaddrMax : Nat := 2500

/-- `CAddrInfo`. The last three fields are kept in memory only. -/
structure CAddrInfo extends CAddress where
  source : CNetAddr := default
  nLastSuccess : Int := 0
  nAttempts : Int := 0
  nRefCount : Int := 0
  fInTried : Bool := false
  /-- There is no position before `vRandom` has the entry. -/
  nRandomPos : Option Nat := none
deriving DecidableEq, Repr, Inhabited

/-- The entry of an address, at a position. -/
def CAddrInfo.ofAddress (addr : CAddress) (addrSource : CNetAddr) (nRandomPos : Nat) : CAddrInfo where
  toCService := addr.toCService
  nServices := addr.nServices
  nTime := addr.nTime
  source := addrSource
  nRandomPos := some nRandomPos

/-- `uint256::Get64`. -/
def get64 (hash : Uint256) : Nat := hash % 2 ^ 64

namespace CAddrInfo

variable (cr : Crypto) (nKey : Bytes) (info : CAddrInfo)

/-- `GetTriedBucket`. -/
def getTriedBucket : Fin triedBucketCount :=
  let hash1 := get64 (cr.hash (writeBytes nKey ++ writeBytes info.getKey))
  let hash2 := get64 (cr.hash (writeBytes nKey ++ writeBytes info.getGroup ++ writeLE 8 (hash1 % triedBucketsPerGroup)))
  ⟨hash2 % triedBucketCount, Nat.mod_lt _ (by decide)⟩

/-- `GetNewBucket`. -/
def getNewBucket (src : CNetAddr) : Fin newBucketCount :=
  let hash1 := get64 (cr.hash (writeBytes nKey ++ writeBytes info.getGroup ++ writeBytes src.getGroup))
  let hash2 :=
    get64 (cr.hash (writeBytes nKey ++ writeBytes src.getGroup ++ writeLE 8 (hash1 % newBucketsPerSourceGroup)))
  ⟨hash2 % newBucketCount, Nat.mod_lt _ (by decide)⟩

/-- `IsTerrible`: the entry may be deleted. -/
def isTerrible (nNow : Int) : Bool :=
  if info.nLastTry ≠ 0 ∧ info.nLastTry ≥ nNow - 60 then false
  else if info.nTime > nNow + 10 * 60 then true
  else if info.nTime = 0 ∨ nNow - info.nTime > horizonDays * 86400 then true
  else if info.nLastSuccess = 0 ∧ info.nAttempts ≥ addrmanRetries then true
  else nNow - info.nLastSuccess > minFailDays * 86400 ∧ info.nAttempts ≥ addrmanMaxFailures

end CAddrInfo

/-! ## The manager -/

/-- `CAddrMan`. -/
structure CAddrMan where
  nKey : Bytes
  nIdCount : Int := 0
  mapInfo : Store Int CAddrInfo := .empty
  mapAddr : Store CNetAddr Int := .empty
  vRandom : List Int := []
  nTried : Int := 0
  vvTried : Fin triedBucketCount → List Int := fun _ => []
  nNew : Int := 0
  vvNew : Fin newBucketCount → OrderedSet Int := fun _ => .empty

namespace CAddrMan

variable (cr : Crypto) (m : CAddrMan)

/-- The entry of an id. -/
def entry (nId : Int) : Check CAddrInfo :=
  match m.mapInfo.find? nId with
  | none => .error (.assertion "mapInfo.count(nId) == 1")
  | some info => .ok info

/-- Change the entry of an id. -/
def modify (nId : Int) (f : CAddrInfo → CAddrInfo) : CAddrMan := { m with mapInfo := m.mapInfo.modify nId f }

/-- The number of new buckets that hold an id. -/
def newCount (nId : Int) : Nat := (Finset.univ.filter fun nUBucket => (m.vvNew nUBucket).contains nId = true).card

/-- Put an id into a new bucket. -/
def insertNew (nUBucket : Fin newBucketCount) (nId : Int) : CAddrMan :=
  { m with vvNew := Function.update m.vvNew nUBucket ((m.vvNew nUBucket).insert nId ()) }

/-- Take an id out of a new bucket. -/
def eraseNew (nUBucket : Fin newBucketCount) (nId : Int) : CAddrMan :=
  { m with vvNew := Function.update m.vvNew nUBucket ((m.vvNew nUBucket).erase nId) }

/-- `Find`. -/
def find (addr : CNetAddr) : Option (Int × CAddrInfo) :=
  (m.mapAddr.find? addr).bind fun nId => (m.mapInfo.find? nId).map fun info => (nId, info)

/-- `Create`, whose id is the next one. -/
def create (addr : CAddress) (addrSource : CNetAddr) : CAddrMan :=
  { m with
    nIdCount := m.nIdCount + 1
    mapInfo := m.mapInfo.insert m.nIdCount (.ofAddress addr addrSource m.vRandom.length)
    mapAddr := m.mapAddr.insert addr.toCNetAddr m.nIdCount
    vRandom := m.vRandom ++ [m.nIdCount] }

/-- `SwapRandom`. -/
def swapRandom (nRndPos1 nRndPos2 : Nat) : Check CAddrMan :=
  if nRndPos1 = nRndPos2 then .ok m
  else
    match m.vRandom[nRndPos1]?, m.vRandom[nRndPos2]? with
    | some nId1, some nId2 => do
      let _ ← m.entry nId1
      let _ ← m.entry nId2
      let m := m.modify nId1 fun info => { info with nRandomPos := some nRndPos2 }
      let m := m.modify nId2 fun info => { info with nRandomPos := some nRndPos1 }
      return { m with vRandom := (m.vRandom.set nRndPos1 nId2).set nRndPos2 nId1 }
    | _, _ => .error (.assertion "nRndPos1 < vRandom.size() && nRndPos2 < vRandom.size()")

/-! ## Selection -/

/-- A turn of the loop of `SelectTried`: an entry at random is put to place `i`. The second component is the oldest
entry so far, with the position that is noted for it. -/
def inspectTried (rand : Nat → Nat) (s : List Int × Option (Int × Nat)) (i : Nat) :
    Check (List Int × Option (Int × Nat)) :=
  let (vTried, oldest) := s
  let nPos := getRandInt (vTried.length - i) (rand i) + i
  match vTried[nPos]?, vTried[i]? with
  | some nTemp, some nFront => do
    let vTried := (vTried.set nPos nFront).set i nTemp
    match oldest with
    | none => return (vTried, some (nTemp, nPos))
    | some (nOldest, nOldestPos) => do
      let info ← m.entry nTemp
      let infoOldest ← m.entry nOldest
      return (vTried, some (if info.nLastSuccess < infoOldest.nLastSuccess then (nTemp, nPos) else (nOldest, nOldestPos)))
  | _, _ => .error (.assertion "nPos < vTried.size()")

/-- `SelectTried`: the bucket after the call, and the position that is returned. -/
def selectTried (rand : Nat → Nat) (nKBucket : Fin triedBucketCount) : Check (List Int × Option Nat) := do
  let vTried := m.vvTried nKBucket
  let (vTried, oldest) ←
    (List.range (min triedEntriesInspectOnEvict vTried.length)).foldlM (m.inspectTried rand) (vTried, none)
  return (vTried, oldest.map (·.2))

/-- The first entry that may be deleted. -/
def firstTerrible (nNow : Int) : List Int → Check (Option Int)
  | [] => .ok none
  | nId :: vNew => do
    let info ← m.entry nId
    if info.isTerrible nNow then return some nId else firstTerrible nNow vNew

/-- The oldest of the entries at these places. -/
def oldestOf (n : List Nat) (vNew : List Int) : Check (Option Int) :=
  vNew.zipIdx.foldlM (fun nOldest (nId, nI) =>
    if nI ∈ n then
      match nOldest with
      | none => .ok (some nId)
      | some nOld => do
        let info ← m.entry nId
        let infoOld ← m.entry nOld
        return some (if info.nTime < infoOld.nTime then nId else nOld)
    else .ok nOldest) none

/-! ## Removal -/

/-- Take an entry out of a new bucket, and delete it when this was the last one that held it. -/
def removeNew (nUBucket : Fin newBucketCount) (nId : Int) : Check CAddrMan := do
  let info ← m.entry nId
  let m := m.modify nId fun info => { info with nRefCount := info.nRefCount - 1 }
  let m ←
    if info.nRefCount - 1 = 0 then
      match info.nRandomPos with
      | none => throw (.assertion "nRndPos1 < vRandom.size() && nRndPos2 < vRandom.size()")
      | some nRandomPos => do
        let m ← m.swapRandom nRandomPos (m.vRandom.length - 1)
        pure { m with
          vRandom := m.vRandom.dropLast
          mapAddr := m.mapAddr.erase info.toCNetAddr
          mapInfo := m.mapInfo.erase nId
          nNew := m.nNew - 1 }
    else pure m
  return m.eraseNew nUBucket nId

/-- `ShrinkNew`: remove an entry that may be deleted, or the oldest of four. -/
def shrinkNew (nNow : Int) (rand : Nat → Nat) (nUBucket : Fin newBucketCount) : Check CAddrMan := do
  let vNew := (m.vvNew nUBucket).elems
  match ← m.firstTerrible nNow vNew with
  | some nId => m.removeNew nUBucket nId
  | none =>
    match ← m.oldestOf ((List.range 4).map fun i => getRandInt vNew.length (rand i)) vNew with
    | none => throw (.assertion "mapInfo.count(nOldest) == 1")
    | some nOldest => m.removeNew nUBucket nOldest

/-- Take an entry out of all new buckets. -/
def clearNew (nId : Int) : CAddrMan :=
  let nErased := m.newCount nId
  let m := m.modify nId fun info => { info with nRefCount := info.nRefCount - nErased }
  { m with
    vvNew := fun nUBucket => (m.vvNew nUBucket).erase nId
    nNew := m.nNew - 1 }

/-- Put an entry at the end of a tried bucket. -/
def appendTried (nKBucket : Fin triedBucketCount) (nId : Int) : CAddrMan :=
  let m := m.modify nId fun info => { info with fInTried := true }
  { m with
    vvTried := Function.update m.vvTried nKBucket (m.vvTried nKBucket ++ [nId])
    nTried := m.nTried + 1 }

/-- Put an entry into a tried bucket in the place of another one, which moves back to a new bucket. -/
def replaceTried (nKBucket : Fin triedBucketCount) (vTried : List Int) (nPos : Nat) (nIdOld nId : Int)
    (nUBucket : Fin newBucketCount) : CAddrMan :=
  let m := m.modify nIdOld fun info => { info with fInTried := false, nRefCount := 1 }
  let m := m.insertNew nUBucket nIdOld
  let m := m.modify nId fun info => { info with fInTried := true }
  { m with
    nNew := m.nNew + 1
    vvTried := Function.update m.vvTried nKBucket (vTried.set nPos nId) }

/-- `MakeTried`. -/
def makeTried (rand : Nat → Nat) (nId : Int) (nOrigin : Fin newBucketCount) : Check CAddrMan := do
  rejectIf ((m.vvNew nOrigin).contains nId = false) (.assertion "vvNew[nOrigin].count(nId) == 1")
  let m := m.clearNew nId
  let info ← m.entry nId
  rejectIf (info.nRefCount ≠ 0) (.assertion "info.nRefCount == 0")
  let nKBucket := info.getTriedBucket cr m.nKey
  if (m.vvTried nKBucket).length < triedBucketSize then return m.appendTried nKBucket nId
  else
    -- evict an entry
    let (vTried, nPos) ← m.selectTried rand nKBucket
    match nPos.bind fun nPos => vTried[nPos]?.map fun nIdOld => (nPos, nIdOld) with
    | none => throw (.assertion "mapInfo.count(vTried[nPos]) == 1")
    | some (nPos, nIdOld) =>
      let infoOld ← m.entry nIdOld
      let nUBucket := infoOld.getNewBucket cr m.nKey infoOld.source
      return m.replaceTried nKBucket vTried nPos nIdOld nId
        (if (m.vvNew nUBucket).size < newBucketSize then nUBucket else nOrigin)

/-! ## Calls -/

/-- A time as an `unsigned int`. -/
def toUInt32 (nTime : Int) : Nat := (nTime % 2 ^ 32).toNat

/-- `Good_`. -/
def good (rand : Nat → Nat) (addr : CService) (nTime : Int) : Check CAddrMan :=
  match m.find addr.toCNetAddr with
  | none => .ok m
  | some (nId, info) =>
    if info.toCService ≠ addr then .ok m
    else
      let m := m.modify nId fun info =>
        { info with nLastSuccess := nTime, nLastTry := nTime, nTime := toUInt32 nTime, nAttempts := 0 }
      if info.fInTried then .ok m
      else
        let nRnd := getRandInt newBucketCount (rand 0)
        let vBuckets := (List.range newBucketCount).map fun n =>
          (⟨(n + nRnd) % newBucketCount, Nat.mod_lt _ (by decide)⟩ : Fin newBucketCount)
        match vBuckets.find? fun nB => (m.vvNew nB).contains nId with
        | none => .ok m
        | some nUBucket => m.makeTried cr (fun i => rand (i + 1)) nId nUBucket

/-- The end of `Add_`: the entry is put into the new bucket for the source. -/
def addToBucket (nNow : Int) (rand : Nat → Nat) (nId : Int) (source : CNetAddr) : Check CAddrMan := do
  let info ← m.entry nId
  let nUBucket := info.getNewBucket cr m.nKey source
  if (m.vvNew nUBucket).contains nId then return m
  else
    let m := m.modify nId fun info => { info with nRefCount := info.nRefCount + 1 }
    let m ← if (m.vvNew nUBucket).size = newBucketSize then m.shrinkNew nNow rand nUBucket else pure m
    return m.insertNew nUBucket nId

/-- `Add_`. -/
def add (nNow : Int) (rand : Nat → Nat) (addr : CAddress) (source : CNetAddr) (nTimePenalty : Int) :
    Check (CAddrMan × Bool) :=
  if !addr.isRoutable then .ok (m, false)
  else
    match m.find addr.toCNetAddr with
    | some (nId, info) =>
      -- periodically update nTime, and add services
      let nUpdateInterval : Int := if nNow - addr.nTime < 24 * 60 * 60 then 60 * 60 else 24 * 60 * 60
      let nTime :=
        if addr.nTime ≠ 0 ∧ (info.nTime = 0 ∨ (info.nTime : Int) < addr.nTime - nUpdateInterval - nTimePenalty) then
          toUInt32 (max 0 (addr.nTime - nTimePenalty))
        else info.nTime
      let m := m.modify nId fun info => { info with nTime := nTime, nServices := info.nServices ||| addr.nServices }
      let nFactor := 2 ^ info.nRefCount.toNat
      if addr.nTime = 0 ∨ (nTime ≠ 0 ∧ addr.nTime ≤ nTime) then .ok (m, false)
      else if info.fInTried then .ok (m, false)
      else if info.nRefCount = newBucketsPerAddress then .ok (m, false)
      else if nFactor > 1 ∧ getRandInt nFactor (rand 0) ≠ 0 then .ok (m, false)
      else do return (← m.addToBucket cr nNow (fun i => rand (i + 1)) nId source, false)
    | none => do
      let nId := m.nIdCount
      let m := m.create addr source
      let m := m.modify nId fun info => { info with nTime := toUInt32 (max 0 (info.nTime - nTimePenalty)) }
      let m := { m with nNew := m.nNew + 1 }
      return (← m.addToBucket cr nNow (fun i => rand (i + 1)) nId source, true)

/-- `Attempt_`. -/
def attempt (addr : CService) (nTime : Int) : CAddrMan :=
  match m.find addr.toCNetAddr with
  | none => m
  | some (nId, info) =>
    if info.toCService ≠ addr then m
    else m.modify nId fun info => { info with nLastTry := nTime, nAttempts := info.nAttempts + 1 }

/-- `Connected_`. -/
def connected (addr : CService) (nTime : Int) : CAddrMan :=
  match m.find addr.toCNetAddr with
  | none => m
  | some (nId, info) =>
    if info.toCService ≠ addr then m
    else m.modify nId fun info => if nTime - info.nTime > 20 * 60 then { info with nTime := toUInt32 nTime } else info

/-- A turn of the loop of `GetAddr_`. -/
def shuffleAddr (rand : Nat → Nat) (s : CAddrMan × List CAddress) (n : Nat) : Check (CAddrMan × List CAddress) := do
  let (m, vAddr) := s
  let nRndPos := getRandInt (m.vRandom.length - n) (rand n) + n
  let m ← m.swapRandom n nRndPos
  match m.vRandom[n]? with
  | none => throw (.assertion "n < vRandom.size()")
  | some nId => do return (m, vAddr ++ [(← m.entry nId).toCAddress])

/-- `GetAddr_`. -/
def getAddr (rand : Nat → Nat) : Check (CAddrMan × List CAddress) :=
  let nNodes := min (getaddrMaxPct * m.vRandom.length / 100) getaddrMax
  (List.range nNodes).foldlM (shuffleAddr rand) (m, [])

/-! ## The check -/

/-- What `Check_` collects: the ids of the tried entries, and the reference counts of the new ones. -/
structure Collected where
  setTried : OrderedSet Int := .empty
  mapNew : Store Int Int := .empty

/-- `Check_` of an entry. -/
def checkEntry (c : Collected) (e : Int × CAddrInfo) : Except Int Collected := do
  let (n, info) := e
  let c ←
    if info.fInTried then do
      rejectIf (info.nLastSuccess = 0) (-1)
      rejectIf (info.nRefCount ≠ 0) (-2)
      pure { c with setTried := c.setTried.insert n () }
    else do
      rejectIf (info.nRefCount < 0 ∨ info.nRefCount > newBucketsPerAddress) (-3)
      rejectIf (info.nRefCount = 0) (-4)
      pure { c with mapNew := c.mapNew.insert n info.nRefCount }
  rejectIf ((m.mapAddr.find? info.toCNetAddr).getD 0 ≠ n) (-5)
  rejectIf ((info.nRandomPos.bind fun nRandomPos => m.vRandom[nRandomPos]?) ≠ some n) (-14)
  rejectIf (info.nLastTry < 0) (-6)
  rejectIf (info.nLastSuccess < 0) (-8)
  return c

/-- An id of a tried bucket. -/
def checkTried (setTried : OrderedSet Int) (nId : Int) : Except Int (OrderedSet Int) := do
  rejectIf (setTried.contains nId = false) (-11)
  return setTried.erase nId

/-- An id of a new bucket. -/
def checkNew (mapNew : Store Int Int) (nId : Int) : Except Int (Store Int Int) :=
  match mapNew.find? nId with
  | none => .error (-12)
  | some nRefCount => .ok (if nRefCount - 1 = 0 then mapNew.erase nId else mapNew.insert nId (nRefCount - 1))

/-- `Check_`, which returns the number of the condition that fails. -/
def check : Except Int Unit := do
  rejectIf ((m.vRandom.length : Int) ≠ m.nTried + m.nNew) (-7)
  let c ← m.mapInfo.entries.foldlM m.checkEntry {}
  rejectIf ((c.setTried.size : Int) ≠ m.nTried) (-9)
  rejectIf ((c.mapNew.entries.length : Int) ≠ m.nNew) (-10)
  let setTried ← ((List.finRange triedBucketCount).flatMap m.vvTried).foldlM checkTried c.setTried
  let mapNew ← ((List.finRange newBucketCount).flatMap fun nUBucket => (m.vvNew nUBucket).elems).foldlM checkNew c.mapNew
  rejectIf (setTried.size ≠ 0) (-13)
  rejectIf (mapNew.entries.length ≠ 0) (-15)

end CAddrMan

end Morcochain
