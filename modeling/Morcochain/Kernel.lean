import Morcochain.BlockIndex
import Morcochain.StakeModifierDB
import Morcochain.Lib.Run

/-!
# Stake modifiers and the kernel

`kernel.cpp`: how the modifier of a new block is computed, which modifier a coin's kernel is hashed with, and the cache
of these modifiers. A `KernelState` is what the lookup depends on: the block index, the records in the database and the
cache.

* `seek_modifierChanges_iff` : **exactly when** a change of the best chain leaves the record that a lookup finds.
* `transparent_step` : each step keeps the cache in agreement with the lookup, when the change of the best chain leaves
  the records behind the cached modifiers.
* `stakeModifierCache_transparent` : **the same for every state of a run**, and for the outcome of the kernel check.
-/

set_option autoImplicit false

namespace Morcochain

open OrderedStore Guard

/-! ## Protocol switches -/

def nProtocolV03SwitchTime : Nat := 1405987200
def nProtocolV03TestSwitchTime : Nat := 1405728000
def nProtocolV04SwitchTime : Nat := 1406030400
def nWeightFixSwitchTime : Nat := 1408924800
def modifierIntervalRatio : Nat := 3

/-- `IsProtocolV03`. -/
def isProtocolV03 (cfg : Settings) (nTimeCoinStake : Nat) : Bool :=
  (if cfg.fTestNet then nProtocolV03TestSwitchTime else nProtocolV03SwitchTime) ≤ nTimeCoinStake

/-- `IsProtocolV04`: one time for both networks. -/
def isProtocolV04 (nTimeBlock : Nat) : Bool := nProtocolV04SwitchTime ≤ nTimeBlock

/-- `CheckCoinStakeTimestamp`. -/
def checkCoinStakeTimestamp (cfg : Settings) (nTimeBlock nTimeTx : Nat) : Bool :=
  if isProtocolV03 cfg nTimeTx then nTimeBlock = nTimeTx
  else nTimeTx ≤ nTimeBlock ∧ (nTimeBlock : Int) ≤ nTimeTx + nMaxClockDrift

/-! ## The modifier of a new block -/

/-- `GetStakeModifierSelectionIntervalSection`. -/
def selectionIntervalSection (cfg : Settings) (nSection : Nat) : Nat :=
  cfg.nModifierInterval * 63 / (63 + (63 - nSection) * (modifierIntervalRatio - 1))

/-- `GetStakeModifierSelectionInterval`. -/
def getStakeModifierSelectionInterval (cfg : Settings) : Nat :=
  ((List.range 64).map (selectionIntervalSection cfg)).sum

/-- `GetLastStakeModifier`, over the chain that ends at the block. -/
def getLastStakeModifier (chain : List CBlockIndex) : Check (UInt64 × Int) :=
  match chain.find? (fun pindex => pindex.pprev.isNone || pindex.generatedStakeModifier) with
  | none => .error (.error "GetLastStakeModifier: null pindex")
  | some pindex =>
    if pindex.generatedStakeModifier then .ok (pindex.nStakeModifier, pindex.getBlockTime)
    else .error (.error "GetLastStakeModifier: no generation at genesis block")

/-- The selection hash of a candidate. -/
def hashSelection (cr : Crypto) (nStakeModifierPrev : UInt64) (pindex : CBlockIndex) : Uint256 :=
  let hashProof := if pindex.isProofOfStake then pindex.hashProofOfStake else pindex.phashBlock
  let h := cr.hash (writeLE 32 hashProof ++ writeModifier nStakeModifierPrev)
  if pindex.isProofOfStake then h >>> 32 else h

/-- `SelectBlockFromCandidates`, with the block selected so far. -/
def selectBlockFromCandidates (cr : Crypto) (m : BlockMap) (mapSelectedBlocks : List Uint256)
    (nSelectionIntervalStop : Int) (nStakeModifierPrev : UInt64) :
    Option CBlockIndex → List (Int × Uint256) → Check (Option CBlockIndex)
  | selected, [] => .ok selected
  | selected, item :: rest =>
    match m.find item.2 with
    | none => .error (.error "SelectBlockFromCandidates: failed to find block index for candidate block")
    | some pindex =>
      if selected.isSome ∧ pindex.getBlockTime > nSelectionIntervalStop then .ok selected
      else if mapSelectedBlocks.contains pindex.phashBlock then
        selectBlockFromCandidates cr m mapSelectedBlocks nSelectionIntervalStop nStakeModifierPrev selected rest
      else
        let better := match selected with
          | none => true
          | some best => hashSelection cr nStakeModifierPrev pindex < hashSelection cr nStakeModifierPrev best
        selectBlockFromCandidates cr m mapSelectedBlocks nSelectionIntervalStop nStakeModifierPrev
          (if better then some pindex else selected) rest

/-- The order of the candidates: by time, then by hash. -/
def candidateLe (a b : Int × Uint256) : Bool := a.1 < b.1 || (a.1 = b.1 && a.2 ≤ b.2)

/-- The rounds of `ComputeNextStakeModifier`. -/
def selectionRounds (cfg : Settings) (cr : Crypto) (m : BlockMap) (vSortedByTimestamp : List (Int × Uint256))
    (nStakeModifierPrev : UInt64) :
    List Nat → Int → List Uint256 → UInt64 → Check UInt64
  | [], _, _, nStakeModifierNew => .ok nStakeModifierNew
  | nRound :: rounds, stop, mapSelectedBlocks, nStakeModifierNew => do
    let stop := stop + selectionIntervalSection cfg nRound
    match ← selectBlockFromCandidates cr m mapSelectedBlocks stop nStakeModifierPrev none vSortedByTimestamp with
    | none => .error (.error "ComputeNextStakeModifier: unable to select block")
    | some pindex =>
      let bit : UInt64 := if pindex.fStakeEntropy then 1 else 0
      selectionRounds cfg cr m vSortedByTimestamp nStakeModifierPrev rounds stop
        (pindex.phashBlock :: mapSelectedBlocks) (nStakeModifierNew ||| bit <<< UInt64.ofNat nRound)

/-- `ComputeNextStakeModifier`: the modifier, and whether it is a new one. -/
def computeNextStakeModifier (cfg : Settings) (cr : Crypto) (m : BlockMap) (pindexCurrent : CBlockIndex) :
    Check (UInt64 × Bool) := do
  match m.prevChain pindexCurrent with
  | [] => return (0, true)
  | pindexPrev :: chain =>
    let (nStakeModifier, nModifierTime) ← getLastStakeModifier (pindexPrev :: chain)
    let nModifierInterval : Int := cfg.nModifierInterval
    if nModifierTime / nModifierInterval ≥ pindexPrev.getBlockTime / nModifierInterval then
      return (nStakeModifier, false)
    if nModifierTime / nModifierInterval ≥ pindexCurrent.getBlockTime / nModifierInterval ∧
        isProtocolV04 pindexCurrent.nTime then
      return (nStakeModifier, false)
    let nSelectionIntervalStart := pindexPrev.getBlockTime / nModifierInterval * nModifierInterval -
      getStakeModifierSelectionInterval cfg
    let candidates := (pindexPrev :: chain).takeWhile (fun p => nSelectionIntervalStart ≤ p.getBlockTime)
    let vSortedByTimestamp := (candidates.map (fun p => (p.getBlockTime, p.phashBlock))).mergeSort candidateLe
    let nStakeModifierNew ← selectionRounds cfg cr m vSortedByTimestamp nStakeModifier
      (List.range (min 64 vSortedByTimestamp.length)) nSelectionIntervalStart [] 0
    return (nStakeModifierNew, true)

/-- `nFlags`. -/
def CBlockIndex.nFlags (pindex : CBlockIndex) : Nat :=
  (if pindex.fProofOfStake then 1 else 0) + (if pindex.fStakeEntropy then 2 else 0) +
    (if pindex.fStakeModifier then 4 else 0)

/-- `GetStakeModifierChecksum`, given the checksum of the predecessor. -/
def getStakeModifierChecksum (cr : Crypto) (prevChecksum : Option Nat) (pindex : CBlockIndex) : Nat :=
  let ss := (prevChecksum.map (writeLE 4)).getD [] ++ writeLE 4 pindex.nFlags ++
    writeLE 32 pindex.hashProofOfStake ++ writeModifier pindex.nStakeModifier
  cr.hash ss >>> (256 - 32) % 2 ^ 32

/-- `mapStakeModifierCheckpoints`. -/
def mapStakeModifierCheckpoints : List (Nat × Nat) := [(0, 0x0e00670b)]

/-- `CheckStakeModifierCheckpoints`. -/
def checkStakeModifierCheckpoints (cfg : Settings) (nHeight nStakeModifierChecksum : Nat) : Bool :=
  cfg.fTestNet || (mapStakeModifierCheckpoints.lookup nHeight).all (· = nStakeModifierChecksum)

/-! ## The modifier of a kernel -/

/-- `mapStakeModifierCache` and `mapStakeModifierLastUse`. -/
structure StakeModifierCache where
  mapStakeModifierCache : Store Uint256 UInt64 := Store.empty
  mapStakeModifierLastUse : Store Uint256 Int := Store.empty

/-- What the modifier of a kernel depends on. -/
structure KernelState where
  mapBlockIndex : BlockMap
  pindexBest : Option Uint256
  pblocktree : BlockTreeDB
  cache : StakeModifierCache := {}

section Lookup

variable (cfg : Settings) (st : KernelState)

/-- `GetKernelStakeModifier`. -/
def getKernelStakeModifier (hashBlockFrom : Uint256) : Check UInt64 :=
  match st.mapBlockIndex.find hashBlockFrom with
  | none => .error (.error "GetKernelStakeModifier() : block not indexed")
  | some pindexFrom =>
    -- initial blocks do not use modifiers in the future because there may not be enough blocks at network start
    if (pindexFrom.nHeight : Int) ≤ proofOfWorkBlocks then .ok pindexFrom.nStakeModifier
    else
      match findStakeModifierAt st.pblocktree (pindexFrom.getBlockTime + getStakeModifierSelectionInterval cfg) with
      | none => .error (.error "GetKernelStakeModifier() : reached best block")
      | some (_, nStakeModifier) => .ok nStakeModifier

/-- The modifier that `CheckStakeKernelHash` hashes with: the cached one, else the one it looks up. -/
def kernelStakeModifier (hashBlockFrom : Uint256) : Check UInt64 :=
  match st.cache.mapStakeModifierCache.find? hashBlockFrom with
  | some nStakeModifier => .ok nStakeModifier
  | none => getKernelStakeModifier cfg st hashBlockFrom

/-- The cache after a lookup at `nTime`: a modifier that was looked up is added. -/
def touchCache (hashBlockFrom : Uint256) (nTime : Int) : StakeModifierCache :=
  match kernelStakeModifier cfg st hashBlockFrom with
  | .error _ => st.cache
  | .ok nStakeModifier =>
    { mapStakeModifierCache :=
        if (st.cache.mapStakeModifierCache.find? hashBlockFrom).isSome then st.cache.mapStakeModifierCache
        else st.cache.mapStakeModifierCache.insert hashBlockFrom nStakeModifier
      mapStakeModifierLastUse := st.cache.mapStakeModifierLastUse.insert hashBlockFrom nTime }

end Lookup

/-- `CleanStakeModifierCache`. -/
def cleanStakeModifierCache (nNow : Int) (c : StakeModifierCache) : StakeModifierCache :=
  let old := c.mapStakeModifierLastUse.entries.filter (fun e => nNow > e.2 + 24 * 60 * 60)
  { mapStakeModifierCache := old.foldl (fun s e => s.erase e.1) c.mapStakeModifierCache
    mapStakeModifierLastUse := old.foldl (fun s e => s.erase e.1) c.mapStakeModifierLastUse }

/-! ## The kernel check -/

/-- What `CheckStakeKernelHash` is called with. -/
structure KernelQuery where
  nBits : Nat
  blockFrom : CBlockHeader
  nTxPrevOffset : Nat
  txPrev : CTransaction
  prevout : COutPoint
  nTimeTx : Nat

namespace KernelQuery

variable (cfg : Settings) (cr : Crypto) (q : KernelQuery)

/-- The tests before the modifier is needed. -/
def checkTimes : Check Unit := do
  errorIf (q.nTimeTx < q.txPrev.nTime) "CheckStakeKernelHash() : nTime violation"
  errorIf ((q.blockFrom.nTime + cfg.nStakeMinAge) % 2 ^ 32 > q.nTimeTx) "CheckStakeKernelHash() : min age violation"

/-- `bnCoinDayWeight`. -/
def bnCoinDayWeight (nValueIn : Int) : Int :=
  let nTimeWeight := min ((q.nTimeTx : Int) - q.txPrev.nTime) stakeMaxAge -
    (if isProtocolV03 cfg q.nTimeTx then (cfg.nStakeMinAge : Int) else 0)
  if nWeightFixSwitchTime ≤ q.nTimeTx then Int.tdiv (nValueIn * nTimeWeight) minCoinstakeValue
  else Int.tdiv (Int.tdiv (nValueIn * nTimeWeight) coin) (24 * 60 * 60)

/-- The proof hash, given how the stream starts. -/
def hashProofOfStake (start : Bytes) : Uint256 :=
  cr.hash (start ++ writeLE 4 q.blockFrom.nTime ++ writeLE 4 q.nTxPrevOffset ++ writeLE 4 q.txPrev.nTime ++
    writeLE 4 q.prevout.n ++ writeLE 4 q.nTimeTx)

/-- The tests once the modifier is known: the proof hash meets the target. -/
def checkHash (start : Bytes) : Check Uint256 :=
  match q.txPrev.vout[q.prevout.n]? with
  | none => .error (.exception "CheckStakeKernelHash() : no such output")
  | some txout =>
    if (q.hashProofOfStake cr start : Int) > q.bnCoinDayWeight cfg txout.nValue * setCompact q.nBits then
      .error (.error "Hash did not match difficulty")
    else .ok (q.hashProofOfStake cr start)

/-- `CheckStakeKernelHash`: the proof hash. -/
def checkStakeKernelHash (st : KernelState) : Check Uint256 := do
  q.checkTimes cfg
  if isProtocolV03 cfg q.nTimeTx then
    let nStakeModifier ← kernelStakeModifier cfg st (cr.hashHeader q.blockFrom)
    q.checkHash cfg cr (writeModifier nStakeModifier)
  else
    q.checkHash cfg cr (writeLE 4 q.nBits)

/-- The cache after `CheckStakeKernelHash`, called at `nTime`. -/
def cacheAfter (st : KernelState) (nTime : Int) : StakeModifierCache :=
  match q.checkTimes cfg with
  | .error _ => st.cache
  | .ok () =>
    if isProtocolV03 cfg q.nTimeTx then touchCache cfg st (cr.hashHeader q.blockFrom) nTime else st.cache

end KernelQuery

/-! ## Runs -/

/-- The changes that `SetBestChain` makes to the modifier records: erasures for the blocks it disconnects, then writes
for those it connects. -/
def modifierChanges (vDisconnect vConnect : List CBlockIndex) : List (Bytes × Option Bytes) :=
  (vDisconnect.filter (fun p => p.pprev.isSome ∧ p.generatedStakeModifier)).map
      (fun p => (keyStakeModifier p.getBlockTime, none)) ++
    (vConnect.filter (fun p => p.pprev.isSome ∧ p.generatedStakeModifier)).map
      (fun p => (keyStakeModifier p.getBlockTime, some (writeModifier p.nStakeModifier)))

namespace KernelState

/-- The chain of the best block. -/
def bestChain (st : KernelState) : List CBlockIndex := (st.pindexBest.map st.mapBlockIndex.chain).getD []

/-- The changes of the modifier records when a block becomes the best block. -/
def changesTo (st : KernelState) (hashNew : Uint256) : List (Bytes × Option Bytes) :=
  let new := st.mapBlockIndex.chain hashNew
  modifierChanges (disconnected st.bestChain new) (connected st.bestChain new)

/-- What `SetBestChain` updates once the blocks are connected. -/
def setBest (st : KernelState) (hashNew : Uint256) : KernelState :=
  let new := st.mapBlockIndex.chain hashNew
  { st with
    mapBlockIndex := st.mapBlockIndex.relink (disconnected st.bestChain new) (connected st.bestChain new)
    pindexBest := some hashNew
    pblocktree := st.pblocktree.applyChanges (st.changesTo hashNew) }

end KernelState

/-- The steps of a run. -/
inductive KernelEvent where
  /-- A new entry of the block index. -/
  | addToBlockIndex (hash hashPrevBlock : Uint256) (pindex : CBlockIndex)
  /-- A block becomes the best block. -/
  | setBestChain (hashNew : Uint256)
  /-- A kernel is checked at some time. -/
  | checkStakeKernelHash (q : KernelQuery) (nTime : Int)
  | cleanStakeModifierCache (nNow : Int)

/-- One step. -/
def kernelStep (cfg : Settings) (cr : Crypto) (st : KernelState) : KernelEvent → KernelState
  | .addToBlockIndex hash hashPrevBlock pindex =>
    { st with mapBlockIndex := st.mapBlockIndex.insert hash hashPrevBlock pindex }
  | .setBestChain hashNew => st.setBest hashNew
  | .checkStakeKernelHash q nTime => { st with cache := q.cacheAfter cfg cr st nTime }
  | .cleanStakeModifierCache nNow => { st with cache := cleanStakeModifierCache nNow st.cache }

/-! ## The cache agrees with the lookup -/

section Transparent

variable {cfg : Settings} {cr : Crypto} {st : KernelState}

/-- Every cached modifier is the one that the lookup returns. -/
def Transparent (cfg : Settings) (st : KernelState) : Prop :=
  ∀ hashBlockFrom nStakeModifier, st.cache.mapStakeModifierCache.find? hashBlockFrom = some nStakeModifier →
    getKernelStakeModifier cfg st hashBlockFrom = .ok nStakeModifier

/-- In such a state the modifier of a kernel is the one that the lookup returns. -/
theorem Transparent.kernelStakeModifier_eq (h : Transparent cfg st) (hashBlockFrom : Uint256) :
    kernelStakeModifier cfg st hashBlockFrom = getKernelStakeModifier cfg st hashBlockFrom := by
  unfold kernelStakeModifier
  cases hc : st.cache.mapStakeModifierCache.find? hashBlockFrom with
  | none => rfl
  | some m => exact (h hashBlockFrom m hc).symm

/-- The lookup only depends on the entry of the block, but for its successor, and on the records. -/
theorem getKernelStakeModifier_congr {st' : KernelState} {hashBlockFrom : Uint256}
    (hindex : (st'.mapBlockIndex.find hashBlockFrom).map (fun p => { p with pnext := none }) =
      (st.mapBlockIndex.find hashBlockFrom).map (fun p => { p with pnext := none }))
    (hdb : ∀ pindexFrom, st.mapBlockIndex.find hashBlockFrom = some pindexFrom →
      proofOfWorkBlocks < pindexFrom.nHeight →
      findStakeModifierAt st'.pblocktree (pindexFrom.getBlockTime + getStakeModifierSelectionInterval cfg) =
        findStakeModifierAt st.pblocktree (pindexFrom.getBlockTime + getStakeModifierSelectionInterval cfg)) :
    getKernelStakeModifier cfg st' hashBlockFrom = getKernelStakeModifier cfg st hashBlockFrom := by
  unfold getKernelStakeModifier
  cases hp : st.mapBlockIndex.find hashBlockFrom with
  | none =>
    rw [hp, Option.map_none, Option.map_eq_none_iff] at hindex
    rw [hindex]
  | some p =>
    rw [hp, Option.map_some, Option.map_eq_some_iff] at hindex
    obtain ⟨p', hp', he⟩ := hindex
    have hheight : p'.nHeight = p.nHeight := congrArg (·.nHeight) he
    have htime : p'.getBlockTime = p.getBlockTime := congrArg (·.getBlockTime) he
    have hmod : p'.nStakeModifier = p.nStakeModifier := congrArg (·.nStakeModifier) he
    rw [hp']
    simp only [hheight, htime, hmod]
    split
    · rfl
    · rw [hdb p hp (by omega)]

/-- **Exactly when** a change of the best chain leaves the record that a lookup finds. -/
theorem seek_modifierChanges_iff {nEnd : Int} {k v : Bytes}
    (h : st.pblocktree.seek (keyStakeModifier nEnd) = some (k, v))
    (hashNew : Uint256) : (st.setBest hashNew).pblocktree.seek (keyStakeModifier nEnd) = some (k, v) ↔
      Store.KeepsFirst (st.changesTo hashNew) (keyStakeModifier nEnd) k v :=
  Store.seek_applyChanges_iff h

/-- The step leaves the records behind the cached modifiers: a change of the best chain neither erases for good the
record that the lookup for a cached block finds, nor writes one before it. -/
def KeepsCached (cfg : Settings) (st : KernelState) : KernelEvent → Prop
  | .setBestChain hashNew =>
    ∀ hashBlockFrom pindexFrom k v, (st.cache.mapStakeModifierCache.find? hashBlockFrom).isSome = true →
      st.mapBlockIndex.find hashBlockFrom = some pindexFrom → proofOfWorkBlocks < pindexFrom.nHeight →
      st.pblocktree.seek (keyStakeModifier (pindexFrom.getBlockTime + getStakeModifierSelectionInterval cfg)) =
        some (k, v) →
      Store.KeepsFirst (st.changesTo hashNew)
        (keyStakeModifier (pindexFrom.getBlockTime + getStakeModifierSelectionInterval cfg)) k v
  | _ => True

theorem find?_foldl_erase {α : Type} : ∀ {l : List (Uint256 × α)} {s : Store Uint256 UInt64} {h : Uint256} {m : UInt64},
    (l.foldl (fun s e => s.erase e.1) s).find? h = some m → s.find? h = some m
  | [], _, _, _, hm => hm
  | e :: l, s, h, m, hm => by
    have hm' := find?_foldl_erase (l := l) hm
    rw [Store.find?_erase] at hm'
    split at hm'
    · cases hm'
    · exact hm'

/-- A cached block is indexed, and its lookup found a record when the block is not an initial one. -/
theorem Transparent.found (h : Transparent cfg st) {hashBlockFrom : Uint256} {m : UInt64}
    (hc : st.cache.mapStakeModifierCache.find? hashBlockFrom = some m) :
    ∃ pindexFrom, st.mapBlockIndex.find hashBlockFrom = some pindexFrom ∧
      (proofOfWorkBlocks < pindexFrom.nHeight → ∃ k v, st.pblocktree.seek (keyStakeModifier
        (pindexFrom.getBlockTime + getStakeModifierSelectionInterval cfg)) = some (k, v)) := by
  have hget := h hashBlockFrom m hc
  unfold getKernelStakeModifier at hget
  cases hp : st.mapBlockIndex.find hashBlockFrom with
  | none =>
    rw [hp] at hget
    cases hget
  | some p =>
    refine ⟨p, rfl, fun hheight => ?_⟩
    rw [hp] at hget
    simp only [if_neg (Int.not_le.mpr hheight)] at hget
    cases hs : st.pblocktree.seek (keyStakeModifier (p.getBlockTime + getStakeModifierSelectionInterval cfg)) with
    | none =>
      rw [findStakeModifierAt, hs] at hget
      cases hget
    | some e => exact ⟨e.1, e.2, rfl⟩

variable (cr) in
/-- **One step** keeps the cache in agreement with the lookup. -/
theorem transparent_step {e : KernelEvent} (h : Transparent cfg st) (he : KeepsCached cfg st e) :
    Transparent cfg (kernelStep cfg cr st e) := by
  cases e with
  | addToBlockIndex hash hashPrevBlock pindex =>
    intro hashBlockFrom m hc
    rw [← h hashBlockFrom m hc]
    obtain ⟨p, hp, -⟩ := h.found hc
    refine getKernelStakeModifier_congr ?_ fun _ _ _ => rfl
    rw [kernelStep, BlockMap.find_insert_of_some hp, hp]
  | setBestChain hashNew =>
    intro hashBlockFrom m hc
    rw [← h hashBlockFrom m hc]
    refine getKernelStakeModifier_congr (sameButNext_relink _ _ _ hashBlockFrom) fun p hp hheight => ?_
    obtain ⟨p', hp', hseek⟩ := h.found hc
    cases hp.symm.trans hp'
    obtain ⟨k, v, hkv⟩ := hseek hheight
    have hcached : (st.cache.mapStakeModifierCache.find? hashBlockFrom).isSome = true :=
      Option.isSome_iff_exists.mpr ⟨m, hc⟩
    have hkeep := (seek_modifierChanges_iff hkv hashNew).mpr (he hashBlockFrom p k v hcached hp hheight hkv)
    rw [findStakeModifierAt, findStakeModifierAt, hkv]
    exact congrArg (·.bind readStakeModifierRecord) hkeep
  | checkStakeKernelHash q nTime =>
    intro hashBlockFrom m hc
    show getKernelStakeModifier cfg st hashBlockFrom = .ok m
    simp only [kernelStep, KernelQuery.cacheAfter] at hc
    -- the cache is as before, or has the modifier that the lookup returned
    split at hc
    · exact h hashBlockFrom m hc
    · split at hc
      · unfold touchCache at hc
        cases hk : kernelStakeModifier cfg st (cr.hashHeader q.blockFrom) with
        | error e =>
          rw [hk] at hc
          exact h hashBlockFrom m hc
        | ok m' =>
          simp only [hk] at hc
          split at hc
          · exact h hashBlockFrom m hc
          · rw [Store.find?_insert] at hc
            split at hc
            · rename_i heq
              cases hc
              rw [heq, ← h.kernelStakeModifier_eq, hk]
            · exact h hashBlockFrom m hc
      · exact h hashBlockFrom m hc
  | cleanStakeModifierCache nNow =>
    intro hashBlockFrom m hc
    exact h hashBlockFrom m (find?_foldl_erase hc)

/-- The kernel check does not depend on the cache. -/
theorem Transparent.checkStakeKernelHash_eq (h : Transparent cfg st) (q : KernelQuery) :
    q.checkStakeKernelHash cfg cr st = q.checkStakeKernelHash cfg cr { st with cache := {} } := by
  unfold KernelQuery.checkStakeKernelHash
  rw [h.kernelStakeModifier_eq]
  rfl

end Transparent

/-- **The cache is transparent** in every state of a run that starts with an empty cache and whose changes of the best
chain leave the records behind the cached modifiers: the modifier of a kernel is the one that the lookup returns, and
the kernel check gives what it gives without the cache. -/
theorem stakeModifierCache_transparent (cfg : Settings) (cr : Crypto) (st : KernelState) (es : List KernelEvent)
    (hcache : st.cache = {}) (hkeep : Run.Meets (kernelStep cfg cr) (KeepsCached cfg) st es) :
    Run.Always (kernelStep cfg cr) (fun st' =>
      (∀ hashBlockFrom, kernelStakeModifier cfg st' hashBlockFrom = getKernelStakeModifier cfg st' hashBlockFrom) ∧
      ∀ q : KernelQuery,
        q.checkStakeKernelHash cfg cr st' = q.checkStakeKernelHash cfg cr { st' with cache := {} }) st es := by
  have hstart : Transparent cfg st := by
    intro hashBlockFrom m hc
    rw [hcache] at hc
    exact absurd ((Store.find?_empty hashBlockFrom).symm.trans hc) nofun
  intro es' hp
  have h := Run.always_of_inv (fun st e hst he => transparent_step cr hst he) hstart hkeep es' hp
  exact ⟨h.kernelStakeModifier_eq, h.checkStakeKernelHash_eq⟩

/-! ## A reorganisation that the cache does not follow -/

/-- A node on the test network with 402 blocks. -/
def kernelStart : KernelState where
  mapBlockIndex := BlockMap.line 401 (fun n => { nTime := 1450000000 + 60 * n })
  pindexBest := some 402
  pblocktree := Store.empty

/-- A block whose time is a selection interval after that of the block `402`, with a new modifier. -/
def modifierBlock (nTime : Nat) (nStakeModifier : UInt64) : CBlockIndex :=
  { nTime := nTime, fStakeModifier := true, nStakeModifier := nStakeModifier }

/-- A kernel from the block `402`. -/
def sampleQuery : KernelQuery where
  nBits := 0x01010000
  blockFrom := { nTime := 1450024060, nNonce := 402 }
  nTxPrevOffset := 81
  txPrev := { nTime := 1450066000, vout := [{ nValue := minCoinstakeValue }] }
  prevout := { n := 0 }
  nTimeTx := 1450066301

/-- The steps of a node that sees one of two branches first. -/
def reorgEvents : List KernelEvent :=
  [.addToBlockIndex 1001 402 (modifierBlock 1450066371 1), .setBestChain 1001,
    .checkStakeKernelHash sampleQuery 1450066400,
    .addToBlockIndex 1002 402 (modifierBlock 1450066381 2), .setBestChain 1002]

theorem stakeModifierCache_transparent_sample :
    (kernelStart.cache = {} ∧
      Run.Meets (kernelStep { fTestNet := true } Crypto.sample) (KeepsCached { fTestNet := true }) kernelStart
        (reorgEvents.take 4)) ∧
    kernelStakeModifier { fTestNet := true }
        (Run.exec (kernelStep { fTestNet := true } Crypto.sample) kernelStart (reorgEvents.take 4)) 402 =
      getKernelStakeModifier { fTestNet := true }
        (Run.exec (kernelStep { fTestNet := true } Crypto.sample) kernelStart (reorgEvents.take 4)) 402 := by
  have hkeep : Run.Meets (kernelStep { fTestNet := true } Crypto.sample) (KeepsCached { fTestNet := true }) kernelStart
      (reorgEvents.take 4) := by
    refine ⟨trivial, fun hashBlockFrom pindexFrom k v hc => ?_, trivial, trivial, trivial⟩
    cases hc
  exact ⟨⟨rfl, hkeep⟩, (stakeModifierCache_transparent { fTestNet := true } Crypto.sample kernelStart
    (reorgEvents.take 4) rfl hkeep (reorgEvents.take 4) (List.prefix_refl _)).1 402⟩

/-- A node that checked a kernel from the block `402` on one branch hashes with the modifier of that branch after it
moved to the other one, and accepts a kernel that the lookup on the best chain rejects. -/
theorem stakeModifierCache_stale :
    kernelStakeModifier { fTestNet := true }
        (Run.exec (kernelStep { fTestNet := true } Crypto.sample) kernelStart reorgEvents) 402 = .ok 1 ∧
      getKernelStakeModifier { fTestNet := true }
        (Run.exec (kernelStep { fTestNet := true } Crypto.sample) kernelStart reorgEvents) 402 = .ok 2 ∧
      sampleQuery.checkStakeKernelHash { fTestNet := true } Crypto.sample
        (Run.exec (kernelStep { fTestNet := true } Crypto.sample) kernelStart reorgEvents) = .ok 1 ∧
      sampleQuery.checkStakeKernelHash { fTestNet := true } Crypto.sample
        { Run.exec (kernelStep { fTestNet := true } Crypto.sample) kernelStart reorgEvents with cache := {} } =
          .error (.error "Hash did not match difficulty") := by
  decide +kernel

end Morcochain
