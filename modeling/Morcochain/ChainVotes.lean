import Morcochain.Fees

/-!
# What the votes of a chain decide

`vote.cpp`: the protocol version of the next block, the voted fees, and the park rates: the weighted median of the voted
rates, within the limits on how fast a rate changes. A chain is given as the list of its entries, from the last block
down.

* `getProtocolForNextBlock_ge` : the version never falls below that of the block before.
* `calculateParkRateResults_congr` : **the park rates depend on the votes and rates of the chain only**.
-/

set_option autoImplicit false

namespace Morcochain

open OrderedStore Guard

/-! ## The protocol version -/

def protocolV2_0VoteTime : Nat := 1440511200
def protocolV2_0TestVoteTime : Nat := 1433858400
def protocolSwitchRequireVotes : Nat := 1800
def protocolSwitchCountVotes : Nat := 2000

/-- `IsProtocolActiveForNextBlock`. -/
def isProtocolActiveForNextBlock (chainPrev : List CBlockIndex) (nSwitchTime : Nat) (nProtocolVersion : Int)
    (nRequired nToCheck : Nat) : Bool :=
  match chainPrev with
  | [] => false
  | pPrevIndex :: _ =>
    if nSwitchTime ≤ pPrevIndex.nTime ∧ pPrevIndex.nProtocolVersion < nProtocolVersion then
      -- votes with a higher version number than the target count as well
      nRequired ≤ ((chainPrev.take nToCheck).filter (fun p => nProtocolVersion ≤ p.vote.nVersionVote)).length
    else nProtocolVersion ≤ pPrevIndex.nProtocolVersion

/-- `IsNuProtocolV20NextBlock`. -/
def isNuProtocolV20NextBlock (cfg : Settings) (chainPrev : List CBlockIndex) : Bool :=
  isProtocolActiveForNextBlock chainPrev (if cfg.fTestNet then protocolV2_0TestVoteTime else protocolV2_0VoteTime)
    protocolV2_0 protocolSwitchRequireVotes protocolSwitchCountVotes

/-- `GetProtocolForNextBlock`. -/
def getProtocolForNextBlock (cfg : Settings) (chainPrev : List CBlockIndex) : Int :=
  let nProtocol := (chainPrev.head?.map (·.nProtocolVersion)).getD 0
  let nProtocol := if nProtocol < protocolV2_0 ∧ isNuProtocolV20NextBlock cfg chainPrev then protocolV2_0 else nProtocol
  if nProtocol < protocolV0_5 then protocolV0_5 else nProtocol

/-- The version is that of the block before, or a later one. -/
theorem getProtocolForNextBlock_ge (cfg : Settings) (chainPrev : List CBlockIndex) :
    protocolV0_5 ≤ getProtocolForNextBlock cfg chainPrev ∧
      ∀ p ∈ chainPrev.head?, p.nProtocolVersion ≤ getProtocolForNextBlock cfg chainPrev := by
  unfold getProtocolForNextBlock
  constructor
  · simp only
    split <;> omega
  · intro p hp
    rw [Option.mem_def.mp hp]
    simp only [Option.map_some, Option.getD_some]
    split <;> split <;> omega

/-! ## The voted fees -/

/-- The smallest vote up to which the counts reach half of the votes. -/
def medianVote (half : Nat) : Nat → List (Nat × Nat) → Option Nat
  | _, [] => none
  | total, (vote, count) :: rest => if half ≤ total + count then some vote else medianVote half (total + count) rest

/-- The fee votes of a unit: those of the last blocks, the default fee where there is none. -/
def feeVotesOf (chain : List CBlockIndex) (cUnit : CUnit) : List Nat :=
  (List.range feeVotes).map fun i =>
    ((chain[i]?.bind fun p => (p.vote.mapFeeVote.get? cUnit).getD none)).getD (getDefaultFee cUnit).toNat

/-- `mapFeeVoteCount` of a unit. -/
def feeVoteCount (votes : List Nat) : Store Nat Nat :=
  votes.foldl (fun m vote => m.insert vote ((m.find? vote).getD 0 + 1)) Store.empty

/-- `CalculateVotedFees`, for the chain that ends at the block itself. -/
def calculateVotedFees (chain : List CBlockIndex) : CUnitMap Nat :=
  sAvailableUnits.foldl (fun m cUnit =>
    match medianVote (feeVotes / 2) 0 (feeVoteCount (feeVotesOf chain cUnit)).entries with
    | some vote => m.set cUnit vote
    | none => m) {}

/-! ## The park rate vote -/

/-- The weights of the rates that are voted for a duration. -/
abbrev RateWeightMap := Store Int Int

/-- `durationRateWeights` and `totalVoteWeight`. -/
structure ParkTally where
  durationRateWeights : Store Nat RateWeightMap := Store.empty
  totalVoteWeight : Int := 0

/-- One rate of a vote. -/
def countParkRate (nCoinAgeDestroyed : Nat) (m : Store Nat RateWeightMap) (parkRate : CParkRate) :
    Store Nat RateWeightMap :=
  let rateWeights := (m.find? parkRate.nCompactDuration).getD Store.empty
  m.insert parkRate.nCompactDuration
    (rateWeights.insert parkRate.nRate (toInt64 ((rateWeights.find? parkRate.nRate).getD 0 + nCoinAgeDestroyed)))

/-- One vote. -/
def countParkRates (t : ParkTally) (vote : CVote) : Check ParkTally := do
  errorIf (vote.nCoinAgeDestroyed = 0) "vote with 0 coin age destroyed"
  return {
    durationRateWeights :=
      (vote.vParkRateVote.flatMap (·.vParkRate)).foldl (countParkRate vote.nCoinAgeDestroyed) t.durationRateWeights
    totalVoteWeight := toInt64 (t.totalVoteWeight + vote.nCoinAgeDestroyed) }

/-- The rate up to which the weight of the rates above it exceeds the half, with the weight left and the rate so far. -/
def medianRate (halfWeight : Int) : Int → Int → List (Int × Int) → Int
  | _, median, [] => median
  | sum, median, (nRate, nWeight) :: rest =>
    if sum ≤ halfWeight then median else medianRate halfWeight (toInt64 (sum - nWeight)) nRate rest

/-- The median rate of a duration, unless it is zero. -/
def medianParkRate (halfWeight : Int) (d : Nat × RateWeightMap) : Option CParkRate :=
  let totalWeight := d.2.entries.foldl (fun total e => toInt64 (total + e.2)) 0
  let median := medianRate halfWeight totalWeight 0 d.2.entries
  if median ≠ 0 then some { nCompactDuration := d.1, nRate := median } else none

/-- `CalculateParkRateVote`. -/
def calculateParkRateVote (vVote : List CVote) : Check (List CParkRateVote) := do
  if vVote = [] then return []
  let tally ← vVote.foldlM countParkRates {}
  return [{ cUnit := unitCurrency
            vParkRate := tally.durationRateWeights.entries.filterMap
              (medianParkRate (Int.tdiv tally.totalVoteWeight 2)) }]

/-! ## The limits on the change of a rate -/

def blocksInYear : Int := 60 * 60 * 24 * 36525 / 100 / stakeTargetSpacing
def parkRateEncodedPercentage : Int := Int.tdiv coinParkRate cent

/-- A rate as an `unsigned int`. -/
def toUInt32 (x : Int) : Nat := (x % 2 ^ 32).toNat

/-- Change the rates of the first result of the currency. -/
def onCurrency (f : List CParkRate → Check (List CParkRate)) : List CParkRateVote → Check (List CParkRateVote)
  | [] => .ok []
  | r :: rest =>
    if r.cUnit = unitCurrency then do return { r with vParkRate := ← f r.vParkRate } :: rest
    else do return r :: (← onCurrency f rest)

/-- `minPreviousRates`: the least rate of each duration, as an `unsigned int`. -/
def minPreviousRates (previous : List CParkRate) : Store Nat Nat :=
  previous.foldl (fun m r =>
    if (m.find? r.nCompactDuration).all (fun x => r.nRate < (x : Int)) then
      m.insert r.nCompactDuration (toUInt32 r.nRate) else m) Store.empty

/-- `LimitParkRateChangeV0_5` for one rate: the maximum increase is 1% of the annual interest rate. -/
def limitRateV0_5 (m : Store Nat Nat) (parkRate : CParkRate) : Check CParkRate := do
  let previousMin : Int := (m.find? parkRate.nCompactDuration).getD 0
  let duration ← parkRate.getDuration
  let maxIncrease := Int.tdiv (parkRateEncodedPercentage * duration) blocksInYear
  return if parkRate.nRate > previousMin + maxIncrease then { parkRate with nRate := previousMin + maxIncrease }
    else parkRate

/-- `LimitParkRateChangeV0_5`, given the previous rates of the currency. -/
def limitParkRateChangeV0_5 (results : List CParkRateVote) (previous : List CParkRate) : Check (List CParkRateVote) :=
  onCurrency (·.mapM (limitRateV0_5 (minPreviousRates previous))) results

/-- Set the last rate of a duration. -/
def setLastRate (nCompactDuration : Nat) (nRate : Int) : List CParkRate → List CParkRate
  | [] => []
  | r :: rest =>
    if rest.any (·.nCompactDuration = nCompactDuration) then r :: setLastRate nCompactDuration nRate rest
    else if r.nCompactDuration = nCompactDuration then { r with nRate := nRate } :: rest
    else r :: rest

/-- The rates by their durations, the last one of each. -/
def rateMap (rates : List CParkRate) : Store Nat Int :=
  rates.foldl (fun m r => m.insert r.nCompactDuration r.nRate) Store.empty

/-- One turn of the loop of `LimitParkRateChangeV2_0`, for a duration: the maximum increase is 0.002% of the annual
interest rate, the maximum decrease 0.004%. The rates of the result, and the new ones. -/
def limitRateV2_0 (mapPreviousRate : Store Nat Nat) (mapParkRate : Store Nat Int)
    (st : List CParkRate × List CParkRate) (nCompactDuration : Nat) : List CParkRate × List CParkRate :=
  let votedRate := (mapParkRate.find? nCompactDuration).getD 0
  let previous : Int := (mapPreviousRate.find? nCompactDuration).getD 0
  let duration : Int := 2 ^ nCompactDuration
  let maxIncrease := Int.tdiv (Int.tdiv (parkRateEncodedPercentage * 2) 1000 * duration) blocksInYear
  let maxDecrease := Int.tdiv (Int.tdiv (parkRateEncodedPercentage * 4) 1000 * duration) blocksInYear
  if votedRate > previous + maxIncrease then (setLastRate nCompactDuration (previous + maxIncrease) st.1, st.2)
  else if votedRate < previous - maxDecrease then
    if (mapParkRate.find? nCompactDuration).isSome then
      (setLastRate nCompactDuration (previous - maxDecrease) st.1, st.2)
    else (st.1, st.2 ++ [{ nCompactDuration := nCompactDuration, nRate := previous - maxDecrease }])
  else st

/-- Insert a rate before the first one of its duration or of a longer one. -/
def insertRate (result : List CParkRate) (parkRate : CParkRate) : List CParkRate :=
  result.takeWhile (·.nCompactDuration < parkRate.nCompactDuration) ++ parkRate ::
    result.dropWhile (·.nCompactDuration < parkRate.nCompactDuration)

/-- `LimitParkRateChangeV2_0`, given the previous rates of the currency. -/
def limitParkRateChangeV2_0 (results : List CParkRateVote) (previous : List CParkRate) : Check (List CParkRateVote) :=
  onCurrency (fun result => do
    let mapPreviousRate : Store Nat Nat :=
      previous.foldl (fun m r => m.insert r.nCompactDuration (toUInt32 r.nRate)) Store.empty
    let setCompactDuration := (rateMap (previous ++ result)).entries.map (·.1)
    let (limited, vNewParkRate) :=
      setCompactDuration.foldl (limitRateV2_0 mapPreviousRate (rateMap result)) (result, [])
    return vNewParkRate.foldl insertRate limited) results

/-! ## The park rate results of a block -/

/-- The rates of the currency in park rate results. -/
def currencyRates (vParkRateResult : List CParkRateVote) : List CParkRate :=
  (vParkRateResult.filter (·.cUnit = unitCurrency)).flatMap (·.vParkRate)

/-- The votes that count for a block: its own and those of the proof-of-stake blocks before it. -/
def votesBefore (nCount : Nat) (vote : CVote) (chainPrev : List CBlockIndex) : List CVote :=
  vote :: ((chainPrev.take (nCount - 1)).filter (·.isProofOfStake)).map (·.vote)

/-- `CalculateParkRateResults`. -/
def calculateParkRateResults (vote : CVote) (chainPrev : List CBlockIndex) (nProtocolVersion : Int) :
    Check (List CParkRateVote) := do
  let results ← calculateParkRateVote (votesBefore parkRateVotes vote chainPrev)
  if nProtocolVersion ≥ protocolV2_0 then
    match chainPrev with
    | [] => .error (.assertion "pindexprev")
    -- the last result of the currency is the one that counts
    | pindexprev :: _ =>
      limitParkRateChangeV2_0 results
        (((pindexprev.vParkRateResult.filter (·.cUnit = unitCurrency)).getLast?.map (·.vParkRate)).getD [])
  else
    limitParkRateChangeV0_5 results
      ((chainPrev.take parkRatePreviousVotes).flatMap fun p => currencyRates p.vParkRateResult)

/-- What the park rates of the next block depend on, in an entry. -/
def CBlockIndex.parkData (p : CBlockIndex) : Bool × CVote × List CParkRateVote :=
  (p.isProofOfStake, p.vote, p.vParkRateResult)

/-- **The park rates depend on the votes and rates of the chain only.** -/
theorem calculateParkRateResults_congr (vote : CVote) {chain chain' : List CBlockIndex} (nProtocolVersion : Int)
    (h : chain.map (·.parkData) = chain'.map (·.parkData)) :
    calculateParkRateResults vote chain nProtocolVersion = calculateParkRateResults vote chain' nProtocolVersion := by
  have hvotes : ∀ n, ((chain.take n).filter (·.isProofOfStake)).map (·.vote) =
      ((chain'.take n).filter (·.isProofOfStake)).map (·.vote) := by
    intro n
    have hform : ∀ l : List CBlockIndex, ((l.take n).filter (·.isProofOfStake)).map (·.vote) =
        (((l.map (·.parkData)).take n).filter (·.1)).map (·.2.1) := by
      intro l
      rw [← List.map_take, List.filter_map, List.map_map]
      rfl
    rw [hform, hform, h]
  have hrates : ∀ n, (chain.take n).flatMap (fun p => currencyRates p.vParkRateResult) =
      (chain'.take n).flatMap fun p => currencyRates p.vParkRateResult := by
    intro n
    have hform : ∀ l : List CBlockIndex, (l.take n).flatMap (fun p => currencyRates p.vParkRateResult) =
        ((l.map (·.parkData)).take n).flatMap fun d => currencyRates d.2.2 := by
      intro l
      rw [← List.map_take, List.flatMap_map]
      rfl
    rw [hform, hform, h]
  unfold calculateParkRateResults votesBefore
  rw [hvotes, hrates]
  cases chain with
  | nil => rw [List.map_nil] at h; rw [List.map_eq_nil_iff.mp h.symm]
  | cons p l =>
    cases chain' with
    | nil => cases h
    | cons p' l' =>
      have hp := (List.cons.inj h).1
      have hresult : p.vParkRateResult = p'.vParkRateResult := congrArg (fun d => d.2.2) hp
      simp only [hresult]

end Morcochain
