import Morcochain.BlockIndex

/-!
# Fees and premiums

What a transaction owes and what an unpark transaction is paid, read from the chain that ends at the previous block:
`GetPremium` of `vote.cpp`, the fee functions of `main.cpp`, and `CheckParkWithResult`.
-/

set_option autoImplicit false

namespace Morcochain

open Guard

/-! ## Premiums -/

/-- `CParkRate::GetDuration`. -/
def CParkRate.getDuration (r : CParkRate) : Check Int :=
  if r.nCompactDuration < maxCompactDuration then .ok (2 ^ r.nCompactDuration)
  else .error (.exception "Park rate compact duration out of range")

/-- The order of park rates. -/
def CParkRate.le (a b : CParkRate) : Bool :=
  a.nCompactDuration < b.nCompactDuration || (a.nCompactDuration = b.nCompactDuration && a.nRate ≤ b.nRate)

/-- The premium for a rate, zero when it is not an amount. -/
def premiumAt (nValue rate : Int) : Int :=
  let bnResult := Int.tdiv (rate * nValue) coinParkRate
  if bnResult < 0 ∨ bnResult > maxMoney then 0 else bnResult

/-- `CBigNum::operator/`, which truncates and throws when the divisor is zero. -/
def bnDiv (a b : Int) : Check Int :=
  if b = 0 then .error (.exception "CBigNum::operator/ : BN_div failed") else .ok (Int.tdiv a b)

/-- The loop over the sorted rates of a unit, with the rate before: `none` when no rate covers the duration. -/
def premiumFromRates (nValue nDuration : Int) : Option CParkRate → List CParkRate → Check (Option Int)
  | _, [] => .ok none
  | prevParkRate, parkRate :: rest => do
    let duration ← parkRate.getDuration
    if nDuration = duration then return some (premiumAt nValue parkRate.nRate)
    if nDuration < duration then
      match prevParkRate with
      | none => return some 0
      | some prev =>
        let prevDuration ← prev.getDuration
        let interpolated ← bnDiv ((nDuration - prevDuration) * (parkRate.nRate - prev.nRate)) (duration - prevDuration)
        return some (premiumAt nValue (prev.nRate + interpolated))
    premiumFromRates nValue nDuration (some parkRate) rest

/-- The loop of `GetPremium` over the park rate votes. -/
def premiumFromVotes (nValue nDuration : Int) (cUnit : CUnit) : List CParkRateVote → Check Int
  | [] => .ok 0
  | parkRateVote :: rest => do
    if parkRateVote.cUnit ≠ cUnit then premiumFromVotes nValue nDuration cUnit rest
    else
      match ← premiumFromRates nValue nDuration none (parkRateVote.vParkRate.mergeSort CParkRate.le) with
      | some nPremium => return nPremium
      | none => premiumFromVotes nValue nDuration cUnit rest

/-- `GetPremium`. -/
def getPremium (nValue nDuration : Int) (cUnit : CUnit) (vParkRateResult : List CParkRateVote) : Check Int :=
  if !moneyRange nValue then .ok 0
  else if !parkDurationRange nDuration then .ok 0
  else premiumFromVotes nValue nDuration cUnit vParkRateResult

/-- `CBlockIndex::GetPremium` with its `GetIndexWithEffectiveParkRates`, for the first block of a chain. -/
def chainPremium (chain : List CBlockIndex) (nValue nDuration : Int) (cUnit : CUnit) : Check Int :=
  match chain with
  | [] => .ok 0
  | pindex :: _ =>
    let effectiveIndex :=
      if pindex.nProtocolVersion ≥ protocolV2_0 then chain[parkRateVoteDelay.toNat]? else some pindex
    match effectiveIndex with
    | none => .ok 0
    | some effectiveIndex => getPremium nValue nDuration cUnit effectiveIndex.vParkRateResult

/-- The check of one output in `CTransaction::CheckParkWithResult`. -/
def checkParkOutWithResult (cUnit : CUnit) (vParkRateResult : List CParkRateVote) (txout : CTxOut) : Check Bool :=
  match extractPark txout.scriptPubKey with
  | none => .ok true
  | some (nDuration, _) => do
    let nPremium ← getPremium txout.nValue nDuration cUnit vParkRateResult
    return moneyRange txout.nValue && moneyRange nPremium && moneyRange (txout.nValue + nPremium)

/-- `CTransaction::CheckParkWithResult`. -/
def CTransaction.checkParkWithResult (tx : CTransaction) (vParkRateResult : List CParkRateVote) : Check Bool :=
  tx.vout.foldlM (fun f txout => if f then checkParkOutWithResult tx.cUnit vParkRateResult txout else .ok false) true

/-! ## Fees -/

/-- `CBlockIndex::GetVotedMinFee`. -/
def CBlockIndex.getVotedMinFee (pindex : CBlockIndex) (cUnit : CUnit) : Check Int :=
  match pindex.mapVotedFee.get? cUnit with
  | none => .error (.exception "Invalid unit")
  | some none => .ok (getDefaultFee cUnit)
  | some (some fee) => .ok fee

/-- `CBlockIndex::GetMinFee` with its `GetEffectiveFeeIndex`, for the first block of a chain. -/
def chainMinFee (chain : List CBlockIndex) (cUnit : CUnit) : Check Int :=
  match chain[min feeVoteDelayBlocks (chain.length - 1)]? with
  | none => .error (.assertion "no block")
  | some pindex => pindex.getVotedMinFee cUnit

/-- `CTransaction::GetMinFee` from a base fee. -/
def minFeeFor (nBaseFee : Int) (nBytes : Nat) : Int :=
  let nMinFee := (1 + (nBytes : Int) / 1000) * nBaseFee
  if moneyRange nMinFee then nMinFee else maxMoney

namespace CTransaction

/-- `CTransaction::GetMinFee`, for the first block of a chain. -/
def getMinFee (tx : CTransaction) (chain : List CBlockIndex) (nBytes : Nat) : Check Int := do
  return minFeeFor (← chainMinFee chain tx.cUnit) nBytes

/-- `CTransaction::GetUnitMinFeeFromPrevBlock`. -/
def getUnitMinFeeFromPrevBlock (tx : CTransaction) (chainPrev : List CBlockIndex) : Check Int :=
  chainMinFee ({} :: chainPrev) tx.cUnit

/-- `CTransaction::GetMinFeeFromPrevBlock`. -/
def getMinFeeFromPrevBlock (tx : CTransaction) (chainPrev : List CBlockIndex) : Check Int :=
  tx.getMinFee ({} :: chainPrev) 0

end CTransaction

end Morcochain
