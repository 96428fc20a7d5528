import Morcochain.Coins
import Morcochain.Fees
import Morcochain.Interpreter

/-!
# The checks of inputs

`CTransaction::CheckInputs` (`main.cpp`). The chain that ends at the best block of the view is given as a list, the
best block first.

* `checkInputs_unpark` : **what the checks of an unpark transaction establish**.
* `silent_checkInputs` : **where the checks fail without telling the state**: at the rules of an unpark transaction,
  and nowhere else.
-/

set_option autoImplicit false

namespace Morcochain

open Guard

/-- `GetMaturity`. -/
def Settings.getMaturity (cfg : Settings) (fProofOfStake : Bool) : Int :=
  if fProofOfStake then cfg.nCoinstakeMaturity else cfg.nCoinbaseMaturity

/-- `CScriptCheck`. -/
structure CScriptCheck where
  scriptPubKey : CScript
  txTo : CTransaction
  nIn : Nat
  flags : ScriptFlags
  nHashType : Nat

/-- `CScriptCheck::operator()`. -/
def CScriptCheck.run (cr : Crypto) (check : CScriptCheck) : Bool :=
  match check.txTo.vin[check.nIn]? with
  | none => false
  | some txin => verifyScript cr txin.scriptSig check.scriptPubKey check.txTo check.nIn check.flags check.nHashType

/-- What `CheckInputs` leaves when it succeeds: whether the transaction is a valid unpark transaction, and the script
checks that are left to other threads. -/
structure InputsChecked where
  fValidUnpark : Bool
  vChecks : List CScriptCheck

section CheckInputs

variable (cfg : Settings) (cr : Crypto) (tx : CTransaction) (view : CCoinsView) (chainPrev : List CBlockIndex)

/-- The checks of one input: maturity, timestamp and amounts, with the sum of the inputs before it. -/
def checkTxIn (nSpendHeight nValueIn : Int) (txin : CTxIn) : Check Int := do
  let (coins, prevout) ← CTransaction.getOutputFor txin view
  dosIf ((coins.fCoinBase ∨ coins.fCoinStake) ∧ nSpendHeight - coins.nHeight < cfg.getMaturity coins.fCoinStake) 0
    "CheckInputs() : tried to spend coinbase"
  dosIf (coins.nTime > tx.nTime) 100 "CheckInputs() : transaction timestamp earlier than input transaction"
  dosIf (!moneyRange prevout.nValue ∨ !moneyRange (nValueIn + prevout.nValue)) 100
    "CheckInputs() : txin values out of range"
  return nValueIn + prevout.nValue

/-- The address of a destination; the constructor throws where the unit has no address version. -/
def addressOf (dest : CTxDestination) (cUnit : CUnit) : Check CBitcoinAddress :=
  match CBitcoinAddress.ofDestination cfg.fTestNet dest cUnit with
  | none => .error (.exception "No address version defined for unit")
  | some address => .ok address

/-- The checks of the input of an unpark transaction. -/
def checkUnpark (nSpendHeight : Int) (txin : CTxIn) : Check Unit := do
  errorIf (tx.vin.length ≠ 1) "ConnectInputs() : unpark transaction with too many inputs"
  errorIf (tx.vout.length ≠ 1) "ConnectInputs() : unpark transaction with too many outputs"
  match view.prevout txin.prevout, tx.vout.head? with
  | some (coins, txo), some txout =>
    errorIf (!txo.isPark) "ConnectInputs() : prevout is not parked"
    match extractPark txo.scriptPubKey with
    | none => .error (.error "ConnectInputs() : ExtractPark failed")
    | some (nDuration, unparkDestination) =>
      let unparkAddress ← addressOf cfg unparkDestination coins.cUnit
      errorIf (nSpendHeight - coins.nHeight < nDuration) "ConnectInputs() : parking duration has not passed"
      let chainPark := chainPrev.dropWhile (fun pindex => (pindex.nHeight : Int) ≠ coins.nHeight)
      errorIf (chainPark = []) "ConnectInputs() : parked transaction not in chain"
      let nPremium ← chainPremium chainPark txo.nValue nDuration tx.cUnit
      errorIf (!moneyRange nPremium) "ConnectInputs() : premium out of range"
      errorIf (!moneyRange (txo.nValue + nPremium)) "ConnectInputs() : expected output out of range"
      let nValueOut ← tx.getValueOut
      errorIf (nValueOut ≠ txo.nValue + nPremium) "ConnectInputs() : unpark value doesn't match the expected value"
      match extractDestination cr txout.scriptPubKey with
      | none => .error (.error "ConnectInputs() : ExtractAddress failed")
      | some outDestination =>
        let outAddress ← addressOf cfg outDestination tx.cUnit
        errorIf (unparkAddress ≠ outAddress) "ConnectInputs() : invalid unpark address"
  | _, _ => .error (.error "ConnectInputs() : prevout is spent")

/-- The loop that finds out whether the transaction is a valid unpark transaction. -/
def checkUnparks (nSpendHeight : Int) : Check Bool :=
  tx.vin.foldlM (fun fValidUnpark txin => do
    if tx.isUnpark then
      checkUnpark cfg cr tx view chainPrev nSpendHeight txin
      return true
    else return fValidUnpark) false

/-- The checks of the amounts: the reward of a coinstake, the fee of another transaction. -/
def checkAmounts (nValueIn : Int) (fValidUnpark : Bool) : Check Unit := do
  if tx.isCoinStake then
    let nStakeReward := (← tx.getValueOut) - nValueIn
    let nMinFee ← tx.getMinFeeFromPrevBlock chainPrev
    let nUnitMinFee ← tx.getUnitMinFeeFromPrevBlock chainPrev
    dosIf (nStakeReward > proofOfStakeReward - nMinFee + nUnitMinFee) 100 "CheckInputs() : stake reward exceeded"
  else if !fValidUnpark then
    let nValueOut ← tx.getValueOut
    dosIf (nValueIn < nValueOut) 100 "CheckInputs() : value in < value out"
    let nTxFee := nValueIn - nValueOut
    dosIf (nTxFee < 0) 100 "CheckInputs() : nTxFee < 0"
    dosIf (nTxFee < (← tx.getMinFeeFromPrevBlock chainPrev)) 100 "CheckInputs() : not paying required fee"
    dosIf (!moneyRange nTxFee) 100 "CheckInputs() : nFees out of range"

/-- The script checks of the inputs. -/
def scriptChecks (flags : ScriptFlags) : Check (List CScriptCheck) :=
  (List.range tx.vin.length).mapM fun i =>
    match tx.vin[i]? with
    | none => .error (.assertion "vin")
    | some txin => do
      let (_, prevout) ← CTransaction.getOutputFor txin view
      return { scriptPubKey := prevout.scriptPubKey, txTo := tx, nIn := i, flags := flags, nHashType := 0 }

/-- A script check that is made at once. -/
def runScriptCheck (_ : Unit) (check : CScriptCheck) : Check Unit :=
  if check.run cr then .ok ()
  else if check.flags.strictenc ∧ { check with flags := { check.flags with strictenc := false } }.run cr then
    .error (.dos 0 false "")
  else .error (.dos 100 false "")

/-- The script checks: all of them made at once, or left to the threads. -/
def checkScripts (fScriptChecks : Bool) (flags : ScriptFlags) (fThreads fValidUnpark : Bool) :
    Check (List CScriptCheck) := do
  if fScriptChecks ∧ !fValidUnpark then
    let checks ← scriptChecks tx view flags
    if fThreads then return checks
    checks.foldlM (runScriptCheck cr) ()
  return []

/-- `CTransaction::CheckInputs`; `fThreads` tells that there are threads for the script checks. -/
def checkInputs (fScriptChecks : Bool) (flags : ScriptFlags) (fThreads : Bool) : Check InputsChecked := do
  if tx.hasNoInputs then return { fValidUnpark := false, vChecks := [] }
  dosIf (!tx.haveInputs view) 0 "CheckInputs() : inputs unavailable"
  match chainPrev with
  | [] => .error (.assertion "pindexPrev")
  | pindexPrev :: _ =>
    let nSpendHeight : Int := pindexPrev.nHeight + 1
    let nValueIn ← tx.vin.foldlM (checkTxIn cfg tx view nSpendHeight) 0
    let fValidUnpark ← checkUnparks cfg cr tx view chainPrev nSpendHeight
    checkAmounts tx chainPrev nValueIn fValidUnpark
    let vChecks ← checkScripts cr tx view fScriptChecks flags fThreads fValidUnpark
    return { fValidUnpark := fValidUnpark, vChecks := vChecks }

end CheckInputs

/-! ## What the checks establish -/

section Establish

variable {cfg : Settings} {cr : Crypto} {tx : CTransaction} {view : CCoinsView} {chainPrev : List CBlockIndex}

/-- A park output that can be read is one. -/
theorem isPark_of_extractPark {scriptPubKey : CScript} {r : Int × CTxDestination}
    (h : extractPark scriptPubKey = some r) : isPark scriptPubKey = true := by
  unfold extractPark at h
  split at h
  · rename_i hsolver
    rw [isPark, hsolver]
    rfl
  · cases h

/-- What the checks of an unpark transaction establish. -/
structure UnparkChecked (cfg : Settings) (cr : Crypto) (tx : CTransaction) (view : CCoinsView)
    (chainPrev : List CBlockIndex) (nSpendHeight : Int) (txin : CTxIn) (coins : CCoins) (txo txout : CTxOut)
    (nDuration nPremium : Int) (unparkDestination outDestination : CTxDestination) : Prop where
  vout : tx.vout = [txout]
  prevout : view.prevout txin.prevout = some (coins, txo)
  park : extractPark txo.scriptPubKey = some (nDuration, unparkDestination)
  duration : nDuration ≤ nSpendHeight - coins.nHeight
  inChain : chainPrev.dropWhile (fun pindex => (pindex.nHeight : Int) ≠ coins.nHeight) ≠ []
  premium : chainPremium (chainPrev.dropWhile (fun pindex => (pindex.nHeight : Int) ≠ coins.nHeight)) txo.nValue
    nDuration tx.cUnit = .ok nPremium
  value : tx.getValueOut = .ok (txo.nValue + nPremium)
  dest : extractDestination cr txout.scriptPubKey = some outDestination
  address : ∃ a, addressOf cfg unparkDestination coins.cUnit = .ok a ∧ addressOf cfg outDestination tx.cUnit = .ok a

theorem checkUnpark_ok {nSpendHeight : Int} {txin : CTxIn}
    (h : checkUnpark cfg cr tx view chainPrev nSpendHeight txin = .ok ()) :
    ∃ coins txo txout nDuration nPremium unparkDestination outDestination,
      UnparkChecked cfg cr tx view chainPrev nSpendHeight txin coins txo txout nDuration nPremium unparkDestination
        outDestination := by
  unfold checkUnpark at h
  simp only [bind_eq_ok, rejectIf_eq_ok, exists_const] at h
  obtain ⟨-, hvout, h⟩ := h
  split at h
  · rename_i coins txo txout hprevout hhead
    obtain ⟨txout', hsingle⟩ := List.length_eq_one_iff.mp (not_not.mp hvout)
    rw [hsingle, List.head?_cons, Option.some.injEq] at hhead
    subst hhead
    simp only [bind_eq_ok, rejectIf_eq_ok, exists_const] at h
    obtain ⟨-, h⟩ := h
    cases hpark : extractPark txo.scriptPubKey with
    | none =>
      rw [hpark] at h
      cases h
    | some p =>
      simp only [hpark, bind_eq_ok, rejectIf_eq_ok, exists_const] at h
      obtain ⟨unparkAddress, haddr, hdur, hchain, nPremium, hprem, -, -, nValueOut, hval, hvalue, h⟩ := h
      cases hdest : extractDestination cr txout'.scriptPubKey with
      | none =>
        rw [hdest] at h
        cases h
      | some outDestination =>
        simp only [hdest, bind_eq_ok, rejectIf_eq_ok] at h
        obtain ⟨outAddress, hout, heq⟩ := h
        refine ⟨coins, txo, txout', p.1, nPremium, p.2, outDestination, hsingle, hprevout, hpark,
          Int.not_lt.mp hdur, hchain, hprem, ?_, hdest, unparkAddress, haddr, ?_⟩
        · rw [hval, not_not.mp hvalue]
        · rw [hout, not_not.mp heq]
  · cases h

/-- The loop leaves other transactions alone. -/
theorem checkUnparks_of_not_unpark {nSpendHeight : Int} (hu : ¬ tx.isUnpark = true) :
    checkUnparks cfg cr tx view chainPrev nSpendHeight = .ok false := by
  unfold checkUnparks
  induction tx.vin with
  | nil => rfl
  | cons txin l ih =>
    rw [List.foldlM_cons]
    simp only [hu, Bool.false_eq_true, if_false, pure_eq_ok, ok_bind]
    simpa only [hu, Bool.false_eq_true, if_false, pure_eq_ok] using ih

/-- The loop finds an unpark transaction valid only after the checks of its input. -/
theorem checkUnparks_true {nSpendHeight : Int} (h : checkUnparks cfg cr tx view chainPrev nSpendHeight = .ok true) :
    tx.isUnpark = true ∧ ∃ txin, tx.vin = [txin] ∧ checkUnpark cfg cr tx view chainPrev nSpendHeight txin = .ok () := by
  by_cases hu : tx.isUnpark = true
  · have hlen : tx.vin.length = 1 := by
      simp only [CTransaction.isUnpark, decide_eq_true_eq] at hu
      exact hu.1
    obtain ⟨txin, hvin⟩ := List.length_eq_one_iff.mp hlen
    refine ⟨hu, txin, hvin, ?_⟩
    unfold checkUnparks at h
    rw [hvin, foldlM_cons_ok] at h
    obtain ⟨f, hf, -⟩ := h
    simp only [hu, if_true, bind_eq_ok] at hf
    obtain ⟨_, hcheck, -⟩ := hf
    exact hcheck
  · rw [checkUnparks_of_not_unpark hu] at h
    cases h

/-- **What `CheckInputs` establishes of a valid unpark transaction.** -/
theorem checkInputs_unpark {fScriptChecks fThreads : Bool} {flags : ScriptFlags} {r : InputsChecked}
    (h : checkInputs cfg cr tx view chainPrev fScriptChecks flags fThreads = .ok r) (hr : r.fValidUnpark = true) :
    ∃ pindexPrev rest txin coins txo txout nDuration nPremium unparkDestination outDestination,
      chainPrev = pindexPrev :: rest ∧ tx.vin = [txin] ∧
      UnparkChecked cfg cr tx view chainPrev (pindexPrev.nHeight + 1) txin coins txo txout nDuration nPremium
        unparkDestination outDestination := by
  unfold checkInputs at h
  by_cases hin : tx.hasNoInputs = true
  · rw [if_pos hin] at h
    cases h
    cases hr
  rw [if_neg hin] at h
  simp only [bind_eq_ok, rejectIf_eq_ok, exists_const] at h
  obtain ⟨-, h⟩ := h
  cases hchain : chainPrev with
  | nil =>
    rw [hchain] at h
    cases h
  | cons pindexPrev rest =>
    subst hchain
    simp only [bind_eq_ok] at h
    obtain ⟨nValueIn, -, fValidUnpark, hunpark, _, -, vChecks, -, h⟩ := h
    cases h
    rw [show fValidUnpark = true from hr] at hunpark
    obtain ⟨-, txin, hvin, hcheck⟩ := checkUnparks_true hunpark
    obtain ⟨coins, txo, txout, nDuration, nPremium, d, d', hchecked⟩ := checkUnpark_ok hcheck
    exact ⟨pindexPrev, rest, txin, coins, txo, txout, nDuration, nPremium, d, d', rfl, hvin, hchecked⟩

/-- An unpark transaction that is accepted is a valid one. -/
theorem checkInputs_isUnpark {fScriptChecks fThreads : Bool} {flags : ScriptFlags} {r : InputsChecked}
    (h : checkInputs cfg cr tx view chainPrev fScriptChecks flags fThreads = .ok r) (hin : tx.hasNoInputs = false)
    (hu : tx.isUnpark = true) : r.fValidUnpark = true := by
  unfold checkInputs at h
  rw [if_neg (by simp [hin])] at h
  obtain ⟨_, -, h⟩ := bind_eq_ok.mp h
  split at h
  · cases h
  · simp only [bind_eq_ok] at h
    obtain ⟨nValueIn, -, fValidUnpark, hunpark, _, -, vChecks, -, h⟩ := h
    cases h
    have hlen : tx.vin.length = 1 := by
      simp only [CTransaction.isUnpark, decide_eq_true_eq] at hu
      exact hu.1
    obtain ⟨txin, hvin⟩ := List.length_eq_one_iff.mp hlen
    unfold checkUnparks at hunpark
    rw [hvin, foldlM_cons_ok] at hunpark
    obtain ⟨f, hf, hnil⟩ := hunpark
    rw [if_pos hu] at hf
    obtain ⟨_, -, hf⟩ := bind_eq_ok.mp hf
    cases hf
    cases hnil
    rfl

/-! ## Where the checks fail without telling the state -/

theorem not_silent_getOutputFor (txin : CTxIn) : ¬ Silent (CTransaction.getOutputFor txin view) := by
  unfold CTransaction.getOutputFor
  split <;> simp [Failure.isSilent]

theorem not_silent_checkTxIn (nSpendHeight nValueIn : Int) (txin : CTxIn) :
    ¬ Silent (checkTxIn cfg tx view nSpendHeight nValueIn txin) := by
  unfold checkTxIn
  simp only [stops_bind, not_silent_getOutputFor, not_silent_dosIf, pure_eq_ok, stops_ok, and_false, exists_false,
    or_self, not_false_eq_true]

theorem not_silent_addressOf (dest : CTxDestination) (cUnit : CUnit) : ¬ Silent (addressOf cfg dest cUnit) := by
  unfold addressOf
  split <;> simp [Failure.isSilent]

theorem not_silent_chainMinFee (chain : List CBlockIndex) (cUnit : CUnit) : ¬ Silent (chainMinFee chain cUnit) := by
  unfold chainMinFee
  split
  · simp [Failure.isSilent]
  · unfold CBlockIndex.getVotedMinFee
    split <;> simp [Failure.isSilent]

theorem not_silent_getDuration (r : CParkRate) : ¬ Silent r.getDuration := by
  unfold CParkRate.getDuration
  split <;> simp [Failure.isSilent]

theorem not_silent_bnDiv (a b : Int) : ¬ Silent (bnDiv a b) := by
  unfold bnDiv
  split <;> simp [Failure.isSilent]

theorem not_silent_premiumFromRates {nValue nDuration : Int} : ∀ {rates : List CParkRate} {prev : Option CParkRate},
    ¬ Silent (premiumFromRates nValue nDuration prev rates)
  | [], prev => by simp [premiumFromRates]
  | r :: rates, prev => by
    rw [premiumFromRates]
    simp only [stops_bind, not_silent_getDuration, false_or, not_exists, not_and]
    intro duration _
    split
    · simp
    · split
      · split
        · simp
        · simp only [stops_bind, not_silent_getDuration, not_silent_bnDiv, pure_eq_ok, stops_ok, and_false,
            exists_false,
            or_self, not_false_eq_true]
      · exact not_silent_premiumFromRates

theorem not_silent_premiumFromVotes {nValue nDuration : Int} {cUnit : CUnit} : ∀ {votes : List CParkRateVote},
    ¬ Silent (premiumFromVotes nValue nDuration cUnit votes)
  | [] => by simp [premiumFromVotes]
  | v :: votes => by
    rw [premiumFromVotes]
    split
    · exact not_silent_premiumFromVotes
    · simp only [stops_bind, not_silent_premiumFromRates, false_or, not_exists, not_and]
      intro r _
      split
      · simp
      · exact not_silent_premiumFromVotes

theorem not_silent_chainPremium (chain : List CBlockIndex) (nValue nDuration : Int) (cUnit : CUnit) :
    ¬ Silent (chainPremium chain nValue nDuration cUnit) := by
  unfold chainPremium
  split
  · simp
  · simp only
    split
    · simp
    · unfold getPremium
      split
      · simp
      · split
        · simp
        · exact not_silent_premiumFromVotes

theorem not_silent_getMinFee (chain : List CBlockIndex) (n : Nat) : ¬ Silent (tx.getMinFee chain n) := by
  unfold CTransaction.getMinFee
  simp only [stops_bind, not_silent_chainMinFee, pure_eq_ok, stops_ok, and_false, exists_false, or_self,
    not_false_eq_true]

theorem not_silent_checkAmounts (nValueIn : Int) (f : Bool) : ¬ Silent (checkAmounts tx chainPrev nValueIn f) := by
  have hvalue := tx.not_silent_getValueOut
  have hfee : ¬ Silent (tx.getMinFeeFromPrevBlock chainPrev) := not_silent_getMinFee _ _
  have hunit : ¬ Silent (tx.getUnitMinFeeFromPrevBlock chainPrev) := not_silent_chainMinFee _ _
  unfold checkAmounts
  split
  · simp only [stops_bind, hvalue, hfee, hunit, not_silent_dosIf, and_false, exists_false, or_self, not_false_eq_true]
  · split
    · simp only [stops_bind, hvalue, hfee, not_silent_dosIf, and_false, exists_false, or_self, not_false_eq_true]
    · simp

theorem not_silent_runScriptCheck (u : Unit) (check : CScriptCheck) : ¬ Silent (runScriptCheck cr u check) := by
  unfold runScriptCheck
  split
  · simp
  · split <;> simp [Failure.isSilent]

/-- An unpark transaction that spends parked coins breaks one of the rules for what it pays, to the owner with an
address. -/
def BreaksPayoutRule (cfg : Settings) (cr : Crypto) (tx : CTransaction) (txo txout : CTxOut) (nPremium : Int)
    (unparkAddress : CBitcoinAddress) : Prop :=
  moneyRange nPremium = false ∨ moneyRange (txo.nValue + nPremium) = false ∨
    ∃ nValueOut, tx.getValueOut = .ok nValueOut ∧ (nValueOut ≠ txo.nValue + nPremium ∨
      extractDestination cr txout.scriptPubKey = none ∨
      ∃ outDestination outAddress, extractDestination cr txout.scriptPubKey = some outDestination ∧
        addressOf cfg outDestination tx.cUnit = .ok outAddress ∧ unparkAddress ≠ outAddress)

/-- An unpark transaction breaks one of its rules: what it spends is not parked, was not parked long enough or not in
this chain, or what it pays is wrong. -/
def BreaksUnparkRule (cfg : Settings) (cr : Crypto) (tx : CTransaction) (view : CCoinsView)
    (chainPrev : List CBlockIndex) (nSpendHeight : Int) : Prop :=
  ∃ txin txout coins txo, tx.vin = [txin] ∧ tx.vout = [txout] ∧ view.prevout txin.prevout = some (coins, txo) ∧
    (txo.isPark = false ∨ extractPark txo.scriptPubKey = none ∨
      ∃ nDuration unparkDestination unparkAddress,
        extractPark txo.scriptPubKey = some (nDuration, unparkDestination) ∧
        addressOf cfg unparkDestination coins.cUnit = .ok unparkAddress ∧
        (nSpendHeight - coins.nHeight < nDuration ∨
          chainPrev.dropWhile (fun pindex => (pindex.nHeight : Int) ≠ coins.nHeight) = [] ∨
          ∃ nPremium, chainPremium (chainPrev.dropWhile (fun pindex => (pindex.nHeight : Int) ≠ coins.nHeight))
              txo.nValue nDuration tx.cUnit = .ok nPremium ∧
            BreaksPayoutRule cfg cr tx txo txout nPremium unparkAddress))

theorem silent_checkUnpark {nSpendHeight : Int} {txin : CTxIn} {txout : CTxOut} {c : CCoins × CTxOut}
    (hvin : tx.vin = [txin]) (hvout : tx.vout = [txout]) (hprev : view.prevout txin.prevout = some c) :
    Silent (checkUnpark cfg cr tx view chainPrev nSpendHeight txin) ↔
      BreaksUnparkRule cfg cr tx view chainPrev nSpendHeight := by
  obtain ⟨coins, txo⟩ := c
  have hrule : BreaksUnparkRule cfg cr tx view chainPrev nSpendHeight ↔
      (txo.isPark = false ∨ extractPark txo.scriptPubKey = none ∨
      ∃ nDuration unparkDestination unparkAddress,
        extractPark txo.scriptPubKey = some (nDuration, unparkDestination) ∧
        addressOf cfg unparkDestination coins.cUnit = .ok unparkAddress ∧
        (nSpendHeight - coins.nHeight < nDuration ∨
          chainPrev.dropWhile (fun pindex => (pindex.nHeight : Int) ≠ coins.nHeight) = [] ∨
          ∃ nPremium, chainPremium (chainPrev.dropWhile (fun pindex => (pindex.nHeight : Int) ≠ coins.nHeight))
              txo.nValue nDuration tx.cUnit = .ok nPremium ∧
            BreaksPayoutRule cfg cr tx txo txout nPremium unparkAddress)) := by
    constructor
    · rintro ⟨i, o, c', t, hi, ho, hp, h⟩
      cases hvin.symm.trans hi
      cases hvout.symm.trans ho
      cases hprev.symm.trans hp
      exact h
    · exact fun h => ⟨txin, txout, coins, txo, hvin, hvout, hprev, h⟩
  rw [hrule]
  unfold checkUnpark BreaksPayoutRule
  have hlen : tx.vin.length = 1 ∧ tx.vout.length = 1 := by simp [hvin, hvout]
  have hout : tx.vout.head? = some txout := by rw [hvout]; rfl
  rw [silent_errorIf_bind, silent_errorIf_bind, hlen.1, hlen.2, hprev, hout]
  simp only [ne_eq, not_true_eq_false, false_or, silent_errorIf_bind, Bool.not_eq_true']
  refine or_congr_right ?_
  cases hpark : extractPark txo.scriptPubKey with
  | none => simp
  | some p =>
    obtain ⟨nDuration, unparkDestination⟩ := p
    simp only [silent_bind, silent_errorIf_bind, not_silent_addressOf, not_silent_chainPremium,
      CTransaction.not_silent_getValueOut, not_false_eq_true, reduceCtorEq, Option.some.injEq, Prod.mk.injEq, false_or]
    cases hdest : extractDestination cr txout.scriptPubKey with
    | none => simp
    | some outDestination => simp [silent_bind, not_silent_addressOf]

/-- The loop over the inputs fails silently only where it checks an unpark transaction. -/
theorem silent_checkUnparks {nSpendHeight : Int} (hin : ∀ txin ∈ tx.vin, ∃ c, view.prevout txin.prevout = some c) :
    Silent (checkUnparks cfg cr tx view chainPrev nSpendHeight) ↔
      tx.isUnpark = true ∧ BreaksUnparkRule cfg cr tx view chainPrev nSpendHeight := by
  unfold checkUnparks
  by_cases hu : tx.isUnpark = true
  · obtain ⟨hvin, -, -, hvout⟩ : tx.vin.length = 1 ∧ _ ∧ _ ∧ tx.vout.length = 1 := by
      simpa only [CTransaction.isUnpark, decide_eq_true_eq] using hu
    obtain ⟨txin, hvin⟩ := List.length_eq_one_iff.mp hvin
    obtain ⟨txout, hvout⟩ := List.length_eq_one_iff.mp hvout
    obtain ⟨c, hc⟩ := hin txin (by rw [hvin]; exact List.mem_cons_self)
    rw [← silent_checkUnpark hvin hvout hc, hvin]
    simp only [hu, if_true, true_and, List.foldlM_cons, List.foldlM_nil, stops_bind, pure_eq_ok, stops_ok, and_false,
      exists_false, or_false]
  · have hstep : ∀ (f : Bool) (txin : CTxIn), ¬ Silent (if tx.isUnpark = true then do
        checkUnpark cfg cr tx view chainPrev nSpendHeight txin
        return true
      else return f) := by
      intro f txin
      rw [if_neg hu]
      exact stops_ok
    refine iff_of_false ?_ fun h => hu h.1
    intro h
    obtain ⟨_, txin, _, f, -, -, h⟩ := stops_foldlM.mp h
    exact hstep f txin h

theorem not_silent_scriptChecks (flags : ScriptFlags) : ¬ Silent (scriptChecks tx view flags) := by
  refine not_stops_mapM fun i _ => ?_
  split
  · simp
  · simp [stops_bind, not_silent_getOutputFor]

theorem not_silent_checkScripts (fScriptChecks fThreads f : Bool) (flags : ScriptFlags) :
    ¬ Silent (checkScripts cr tx view fScriptChecks flags fThreads f) := by
  have hrun : ∀ checks : List CScriptCheck, ¬ Silent (checks.foldlM (runScriptCheck cr) ()) := by
    intro checks h
    obtain ⟨_, check, _, u, -, -, h⟩ := stops_foldlM.mp h
    exact not_silent_runScriptCheck u check h
  unfold checkScripts
  split
  · rw [silent_bind (not_silent_scriptChecks flags)]
    rintro ⟨checks, -, h⟩
    split at h
    · exact stops_ok h
    · simp [silent_bind (hrun checks)] at h
  · exact stops_ok

/-- **Where the checks of inputs fail without telling the state**: at the rules of an unpark transaction. -/
theorem silent_checkInputs {fScriptChecks fThreads : Bool} {flags : ScriptFlags} :
    Silent (checkInputs cfg cr tx view chainPrev fScriptChecks flags fThreads) ↔
      tx.hasNoInputs = false ∧ tx.haveInputs view = true ∧ tx.isUnpark = true ∧
        ∃ pindexPrev rest nValueIn, chainPrev = pindexPrev :: rest ∧
          tx.vin.foldlM (checkTxIn cfg tx view (pindexPrev.nHeight + 1)) 0 = .ok nValueIn ∧
          BreaksUnparkRule cfg cr tx view chainPrev (pindexPrev.nHeight + 1) := by
  unfold checkInputs
  by_cases hno : tx.hasNoInputs = true
  · simp [hno]
  by_cases hhave : tx.haveInputs view = true
  · have hin := (haveInputs_iff.mp hhave).resolve_left hno
    cases hchain : chainPrev with
    | nil => simp [hno, hhave]
    | cons pindexPrev rest =>
      have htxins : ¬ Silent (tx.vin.foldlM (checkTxIn cfg tx view (pindexPrev.nHeight + 1)) 0) := by
        intro h
        obtain ⟨_, txin, _, n, -, -, h⟩ := stops_foldlM.mp h
        exact not_silent_checkTxIn _ n txin h
      subst hchain
      rw [if_neg hno]
      refine silent_dosIf_bind.trans ?_
      simp only [silent_bind htxins, stops_bind, silent_checkUnparks hin, not_silent_checkAmounts,
        not_silent_checkScripts, pure_eq_ok, stops_ok, and_false, exists_false, or_false]
      constructor
      · rintro ⟨-, nValueIn, hvalue, hu, hrule⟩
        exact ⟨Bool.eq_false_iff.mpr hno, hhave, hu, pindexPrev, rest, nValueIn, rfl, hvalue, hrule⟩
      · rintro ⟨-, -, hu, _, _, nValueIn, heq, hvalue, hrule⟩
        cases heq
        exact ⟨by simp [hhave], nValueIn, hvalue, hu, hrule⟩
  · simp [hno, hhave]

end Establish

end Morcochain
