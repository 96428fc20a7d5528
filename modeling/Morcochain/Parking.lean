import Morcochain.Unpark
import Morcochain.CheckTransaction
import Morcochain.ChainVotes

/-!
# Whether parked coins can be unparked

The wallet makes an unpark transaction for every parked output whose duration has passed (`SendUnparkTransactions`,
`wallet.cpp`), and `CheckInputs` checks it. Both compute the premium from the rates in effect for the block of the park,
which since protocol 2.0 are those of an earlier block. `CheckParkWithResult` checked the amounts with the rates of the
block itself.

* `chainPremium_eq`, `moneyRange_getPremium` : the premium, and that it is always an amount.
* `dropWhile_chain` : the block of the park is found by its height.
* `unparkable_iff` : **exactly when the transaction of the wallet passes the unpark checks**.
* `unparkable_of_own` : the check of the block was enough before protocol 2.0.
-/

set_option autoImplicit false

namespace Morcochain

open Guard

/-! ## The transaction of the wallet -/

/-- `CWallet::CreateUnparkTransaction`. -/
def createUnparkTransaction (fTestNet : Bool) (cUnit : CUnit) (nTime : Nat) (hashPark : Uint256) (nOut : Nat)
    (unparkAddress : CBitcoinAddress) (nAmount : Int) : CTransaction where
  nTime := nTime
  vin := [{ prevout := ⟨hashPark, nOut⟩, scriptSig := setUnpark }]
  vout := [{ nValue := nAmount, scriptPubKey := setDestination (unparkAddress.get fTestNet) }]
  cUnit := cUnit

/-- The turn of `CWallet::SendUnparkTransactions` for one output of a transaction in a block, given the chain from that
block down and the depth of the block: the transaction, if the output is parked and the duration has passed. -/
def sendUnparkTransaction (cfg : Settings) (nTime : Nat) (chainPark : List CBlockIndex) (nDepth : Int)
    (wtx : CTransaction) (hashPark : Uint256) (i : Nat) : Check (Option CTransaction) :=
  match wtx.vout[i]? with
  | none => .ok none
  | some txo =>
    match extractPark txo.scriptPubKey with
    | none => .ok none
    | some (nDuration, unparkDestination) => do
      let unparkAddress ← addressOf cfg unparkDestination wtx.cUnit
      if nDepth < nDuration then return none
      let nPremium ← chainPremium chainPark txo.nValue nDuration wtx.cUnit
      let nAmount := txo.nValue + nPremium
      return some (createUnparkTransaction cfg.fTestNet wtx.cUnit nTime hashPark i unparkAddress nAmount)

/-! ## The premium -/

/-- The park rate results of `GetIndexWithEffectiveParkRates`, for the first block of a chain. -/
def effectiveParkRates : List CBlockIndex → List CParkRateVote
  | [] => []
  | pindex :: rest =>
    if pindex.nProtocolVersion ≥ protocolV2_0 then
      (((pindex :: rest)[parkRateVoteDelay.toNat]?).map (·.vParkRateResult)).getD []
    else pindex.vParkRateResult

section Premium

variable {nValue nDuration nPremium : Int} {cUnit : CUnit}

theorem getPremium_nil : getPremium nValue nDuration cUnit [] = .ok 0 := by
  unfold getPremium
  split
  · rfl
  · split <;> rfl

/-- The premium of a block is the one for the rates in effect. -/
theorem chainPremium_eq (chain : List CBlockIndex) (nValue nDuration : Int) (cUnit : CUnit) :
    chainPremium chain nValue nDuration cUnit = getPremium nValue nDuration cUnit (effectiveParkRates chain) := by
  cases chain with
  | nil => exact getPremium_nil.symm
  | cons pindex rest =>
    unfold chainPremium effectiveParkRates
    by_cases hversion : pindex.nProtocolVersion ≥ protocolV2_0
    · simp only [if_pos hversion]
      cases (pindex :: rest)[parkRateVoteDelay.toNat]? with
      | none => exact getPremium_nil.symm
      | some effectiveIndex => rfl
    · simp only [if_neg hversion]

theorem moneyRange_premiumAt (nValue rate : Int) : moneyRange (premiumAt nValue rate) = true := by
  unfold premiumAt
  simp only
  split
  · decide
  · rename_i h
    rw [not_or, Int.not_lt, Int.not_lt] at h
    exact moneyRange_iff.mpr h

theorem moneyRange_premiumFromRates : ∀ {rates : List CParkRate} {prev : Option CParkRate},
    premiumFromRates nValue nDuration prev rates = .ok (some nPremium) → moneyRange nPremium = true
  | [], _, h => by cases h
  | parkRate :: rest, prev, h => by
    rw [premiumFromRates] at h
    obtain ⟨duration, -, h⟩ := bind_eq_ok.mp h
    split at h
    · cases h
      exact moneyRange_premiumAt _ _
    · split at h
      · cases prev with
        | none =>
          cases h
          decide
        | some prev =>
          obtain ⟨prevDuration, -, h⟩ := bind_eq_ok.mp h
          obtain ⟨interpolated, -, h⟩ := bind_eq_ok.mp h
          cases h
          exact moneyRange_premiumAt _ _
      · exact moneyRange_premiumFromRates h

theorem moneyRange_premiumFromVotes : ∀ {votes : List CParkRateVote},
    premiumFromVotes nValue nDuration cUnit votes = .ok nPremium → moneyRange nPremium = true
  | [], h => by
    cases h
    decide
  | parkRateVote :: rest, h => by
    rw [premiumFromVotes] at h
    split at h
    · exact moneyRange_premiumFromVotes h
    · obtain ⟨premium, hpremium, h⟩ := bind_eq_ok.mp h
      cases premium with
      | none => exact moneyRange_premiumFromVotes h
      | some p =>
        cases h
        exact moneyRange_premiumFromRates hpremium

/-- **A premium is always an amount.** -/
theorem moneyRange_getPremium {votes : List CParkRateVote}
    (h : getPremium nValue nDuration cUnit votes = .ok nPremium) :
    moneyRange nPremium = true := by
  unfold getPremium at h
  split at h
  · cases h
    decide
  · split at h
    · cases h
      decide
    · exact moneyRange_premiumFromVotes h

end Premium

/-! ## The block of the park -/

/-- **The block of a height is found** on a chain on which the heights fall. -/
theorem dropWhile_chain {m : BlockMap} {h : Uint256} {pindex : CBlockIndex} (hmem : pindex ∈ m.chain h) :
    (m.chain h).dropWhile (fun p => (p.nHeight : Int) ≠ pindex.nHeight) = m.chain pindex.phashBlock := by
  obtain ⟨above, hsplit, habove⟩ := BlockMap.chain_split hmem
  rw [hsplit, List.dropWhile_append_of_pos]
  · rw [BlockMap.chain_of_find (BlockMap.find_of_mem_chain hmem), List.dropWhile_cons_of_neg (by simp)]
  · intro p hp
    have hlt := habove p hp
    simp only [decide_eq_true_eq]
    omega

/-- An output that was parked in a block of the chain below the next block, with what `CheckTransaction` has checked of
its transaction and what connecting the block has put into the view. -/
structure ParkedOutput (m : BlockMap) (view : CCoinsView) (pindexPrev pindexPark : CBlockIndex) (parkTx : CTransaction)
    (hashPark : Uint256) (n : Nat) (txo : CTxOut) (nDuration : Int) (unparkDestination : CTxDestination) : Prop where
  best : m.find pindexPrev.phashBlock = some pindexPrev
  inChain : pindexPark ∈ m.chain pindexPrev.phashBlock
  checked : parkTx.checkTransaction = .ok ()
  output : parkTx.vout[n]? = some txo
  park : extractPark txo.scriptPubKey = some (nDuration, unparkDestination)
  coins : ∃ coins, view.prevout ⟨hashPark, n⟩ = some (coins, txo) ∧ coins.nHeight = pindexPark.nHeight ∧
    coins.cUnit = parkTx.cUnit

/-- The wallet makes an unpark transaction for the output, and it passes all the unpark checks of `CheckInputs` for the
next block. -/
def Unparkable (cfg : Settings) (cr : Crypto) (m : BlockMap) (view : CCoinsView) (nTime : Nat)
    (pindexPrev pindexPark : CBlockIndex) (parkTx : CTransaction) (hashPark : Uint256) (n : Nat) : Prop :=
  ∃ tx, sendUnparkTransaction cfg nTime (m.chain pindexPark.phashBlock)
      ((pindexPrev.nHeight : Int) - pindexPark.nHeight + 1) parkTx hashPark n = .ok (some tx) ∧
    checkUnparks cfg cr tx view (m.chain pindexPrev.phashBlock) (pindexPrev.nHeight + 1) = .ok true

section Unparkable

variable {cfg : Settings} {cr : Crypto} {m : BlockMap} {view : CCoinsView} {pindexPrev pindexPark : CBlockIndex}
  {parkTx : CTransaction} {hashPark : Uint256} {n : Nat} {txo : CTxOut} {nDuration : Int}
  {unparkDestination : CTxDestination} {nTime : Nat}

/-- What the wallet makes of a parked output whose duration has passed. -/
theorem sendUnparkTransaction_eq (h : ParkedOutput m view pindexPrev pindexPark parkTx hashPark n txo nDuration
    unparkDestination) {a : CBitcoinAddress} (ha : addressOf cfg unparkDestination parkTx.cUnit = .ok a)
    (hpassed : nDuration ≤ (pindexPrev.nHeight : Int) - pindexPark.nHeight + 1) {r : Option CTransaction} :
    sendUnparkTransaction cfg nTime (m.chain pindexPark.phashBlock)
        ((pindexPrev.nHeight : Int) - pindexPark.nHeight + 1) parkTx hashPark n = .ok r ↔
      ∃ nPremium, getPremium txo.nValue nDuration parkTx.cUnit (effectiveParkRates (m.chain pindexPark.phashBlock)) =
          .ok nPremium ∧
        r = some (createUnparkTransaction cfg.fTestNet parkTx.cUnit nTime hashPark n a (txo.nValue + nPremium)) := by
  unfold sendUnparkTransaction
  simp only [h.output, h.park, ha, ok_bind, if_neg (Int.not_lt.mpr hpassed), bind_eq_ok, chainPremium_eq, pure_eq_ok,
    Except.ok.injEq]
  exact exists_congr fun _ => and_congr_right fun _ => eq_comm

/-- The output of a transaction in a block has an index below the null index. -/
theorem ParkedOutput.isUnpark (h : ParkedOutput m view pindexPrev pindexPark parkTx hashPark n txo nDuration
    unparkDestination) (fTestNet : Bool) (a : CBitcoinAddress) (nAmount : Int) :
    (createUnparkTransaction fTestNet parkTx.cUnit nTime hashPark n a nAmount).isUnpark = true := by
  have hn : n < parkTx.vout.length := by
    obtain ⟨hlt, -⟩ := List.getElem?_eq_some_iff.mp h.output
    exact hlt
  have hlen : parkTx.vout.length ≤ parkTx.serializeSize := by
    unfold CTransaction.serializeSize
    have hsum := List.card_nsmul_le_sum (parkTx.vout.map (·.serializeSize)) 1 fun k hk => by
      obtain ⟨txout, -, rfl⟩ := List.mem_map.mp hk
      unfold CTxOut.serializeSize
      omega
    rw [List.length_map, nsmul_one, Nat.cast_id] at hsum
    omega
  have hsize := (CTransaction.checkTransaction_unit h.checked).2
  have hnull : (⟨hashPark, n⟩ : COutPoint).isNull = false := by
    rw [COutPoint.isNull, decide_eq_false_iff_not]
    rintro ⟨-, hn'⟩
    simp only at hn'
    unfold uintMax at hn'
    unfold maxBlockSize at hsize
    omega
  simp [CTransaction.isUnpark, CTransaction.prevout0, createUnparkTransaction, hnull, setUnpark, isUnparkScript]

/-- A transaction with one output of an amount in range has that amount. -/
theorem getValueOut_single {tx : CTransaction} {txout : CTxOut} (hvout : tx.vout = [txout]) :
    tx.getValueOut = if moneyRange txout.nValue then .ok txout.nValue
      else .error (.exception "CTransaction::GetValueOut() : value out of range") := by
  rw [CTransaction.getValueOut, hvout, CTransaction.sumOut, CTransaction.sumOut, Int.zero_add, Bool.or_self]
  cases moneyRange txout.nValue <;> rfl

theorem checkUnparks_single {tx : CTransaction} {chainPrev : List CBlockIndex} {nSpendHeight : Int} {txin : CTxIn}
    (hunpark : tx.isUnpark = true) (hvin : tx.vin = [txin]) :
    checkUnparks cfg cr tx view chainPrev nSpendHeight = .ok true ↔
      checkUnpark cfg cr tx view chainPrev nSpendHeight txin = .ok () := by
  constructor
  · intro h
    obtain ⟨-, txin', hvin', hcheck⟩ := checkUnparks_true h
    rw [hvin, List.cons.injEq] at hvin'
    rwa [hvin'.1]
  · intro h
    unfold checkUnparks
    rw [hvin]
    exact foldlM_cons_ok.mpr ⟨true, by rw [if_pos hunpark, h]; rfl, rfl⟩

/-- The address of a parked output. -/
theorem ParkedOutput.address (h : ParkedOutput m view pindexPrev pindexPark parkTx hashPark n txo nDuration
    unparkDestination) (cfg : Settings) : unparkDestination ≠ .none ∧
      ∃ a, addressOf cfg unparkDestination parkTx.cUnit = .ok a ∧ a.get cfg.fTestNet = unparkDestination := by
  obtain ⟨-, id, rfl⟩ := extractPark_some h.park
  have hne := CTxDestination.keyID_ne_none id
  refine ⟨hne, ?_⟩
  have ha : ∃ a, CBitcoinAddress.ofDestination cfg.fTestNet (.keyID id) parkTx.cUnit = some a := by
    rcases isValidUnit_iff.mp (CTransaction.checkTransaction_unit h.checked).1 with hu | hu <;> rw [hu] <;>
      exact ⟨_, rfl⟩
  obtain ⟨a, ha⟩ := ha
  exact ⟨a, addressOf_eq_ok.mpr ha, (CBitcoinAddress.get_ofDestination hne ha).2⟩

/-- The transaction of the wallet passes exactly when the value with the premium is an amount. -/
theorem checkUnpark_wallet (h : ParkedOutput m view pindexPrev pindexPark parkTx hashPark n txo nDuration
    unparkDestination) {a : CBitcoinAddress} (ha : addressOf cfg unparkDestination parkTx.cUnit = .ok a)
    (hget : a.get cfg.fTestNet = unparkDestination)
    (hpassed : nDuration ≤ (pindexPrev.nHeight : Int) - pindexPark.nHeight + 1) {nPremium : Int}
    (hpremium : getPremium txo.nValue nDuration parkTx.cUnit (effectiveParkRates (m.chain pindexPark.phashBlock)) =
      .ok nPremium) :
    checkUnpark cfg cr (createUnparkTransaction cfg.fTestNet parkTx.cUnit nTime hashPark n a (txo.nValue + nPremium)) view
        (m.chain pindexPrev.phashBlock) (pindexPrev.nHeight + 1) { prevout := ⟨hashPark, n⟩, scriptSig := setUnpark } =
          .ok () ↔
      moneyRange (txo.nValue + nPremium) = true := by
  set tx := createUnparkTransaction cfg.fTestNet parkTx.cUnit nTime hashPark n a (txo.nValue + nPremium) with htx
  have hvalue := getValueOut_single (show tx.vout = _ from rfl)
  obtain ⟨coins, hprevout, hheight, hunit⟩ := h.coins
  constructor
  · intro hcheck
    obtain ⟨_, _, _, _, _, _, _, hchecked⟩ := checkUnpark_ok hcheck
    by_contra hrange
    rw [hchecked.value, if_neg hrange] at hvalue
    cases hvalue
  · intro hrange
    rw [if_pos hrange] at hvalue
    have hscript : extractDestination cr (setDestination (a.get cfg.fTestNet)) = some unparkDestination := by
      rw [hget]
      exact extractDestination_setDestination (h.address cfg).1
    have hchain : (m.chain pindexPrev.phashBlock).dropWhile (fun p => (p.nHeight : Int) ≠ coins.nHeight) =
        m.chain pindexPark.phashBlock := by
      rw [hheight]
      exact dropWhile_chain h.inChain
    have hne : m.chain pindexPark.phashBlock ≠ [] := by
      rw [BlockMap.chain_of_find (BlockMap.find_of_mem_chain h.inChain)]
      exact List.cons_ne_nil _ _
    have hduration : ¬ (pindexPrev.nHeight : Int) + 1 - coins.nHeight < nDuration := by
      rw [hheight]
      omega
    have hunitTx : tx.cUnit = parkTx.cUnit := rfl
    have hpark : txo.isPark = true := isPark_of_extractPark h.park
    unfold checkUnpark
    simp only [hprevout, show tx.vout.head? = some _ from rfl, h.park, hpark, hunit, hunitTx, ha, hchain, hscript,
      chainPremium_eq, hpremium, hvalue, ok_bind, bind_eq_ok, rejectIf_eq_ok, exists_const,
        moneyRange_getPremium hpremium,
      hrange]
    simp only [show tx.vin.length = 1 from rfl, show tx.vout.length = 1 from rfl, not_true_eq_false, ne_eq,
      not_false_iff,
      Bool.not_true, Bool.false_eq_true, true_and, hne, hduration]

/-- A parked output can be unparked when there is a premium that leaves the amount in range. -/
theorem unparkable_iff_premium
    (h : ParkedOutput m view pindexPrev pindexPark parkTx hashPark n txo nDuration unparkDestination)
    (hpassed : nDuration ≤ (pindexPrev.nHeight : Int) - pindexPark.nHeight + 1) :
    Unparkable cfg cr m view nTime pindexPrev pindexPark parkTx hashPark n ↔
      ∃ nPremium, getPremium txo.nValue nDuration parkTx.cUnit (effectiveParkRates (m.chain pindexPark.phashBlock)) =
        .ok nPremium ∧ moneyRange (txo.nValue + nPremium) = true := by
  obtain ⟨-, a, ha, hget⟩ := h.address cfg
  constructor
  · rintro ⟨tx, hsend, hcheck⟩
    obtain ⟨nPremium, hpremium, htx⟩ := (sendUnparkTransaction_eq h ha hpassed).mp hsend
    cases htx
    exact ⟨nPremium, hpremium, (checkUnpark_wallet h ha hget hpassed hpremium).mp
      ((checkUnparks_single (h.isUnpark _ _ _) rfl).mp hcheck)⟩
  · rintro ⟨nPremium, hpremium, htotal⟩
    refine ⟨_, (sendUnparkTransaction_eq h ha hpassed).mpr ⟨nPremium, hpremium, rfl⟩, ?_⟩
    exact (checkUnparks_single (h.isUnpark _ _ _) rfl).mpr ((checkUnpark_wallet h ha hget hpassed hpremium).mpr htotal)

/-- What the check of `CheckParkWithResult` says of a parked output. -/
theorem ParkedOutput.checkParkOut_iff
    (h : ParkedOutput m view pindexPrev pindexPark parkTx hashPark n txo nDuration unparkDestination)
    (vParkRateResult : List CParkRateVote) :
    checkParkOutWithResult parkTx.cUnit vParkRateResult txo = .ok true ↔
      ∃ nPremium, getPremium txo.nValue nDuration parkTx.cUnit vParkRateResult = .ok nPremium ∧
        moneyRange (txo.nValue + nPremium) = true := by
  have hrange := CTransaction.checkTransaction_moneyRange h.checked (List.mem_of_getElem? h.output)
  unfold checkParkOutWithResult
  simp only [h.park, bind_eq_ok, hrange, Bool.true_and, pure_eq_ok, Except.ok.injEq, Bool.and_eq_true]
  exact exists_congr fun _ => and_congr_right fun hpremium => and_iff_right (moneyRange_getPremium hpremium)

/-- **Exactly when a parked output can be unparked**: when it passes the check of `CheckParkWithResult` with the rates
in effect for its block. -/
theorem unparkable_iff (h : ParkedOutput m view pindexPrev pindexPark parkTx hashPark n txo nDuration unparkDestination)
    (hpassed : nDuration ≤ (pindexPrev.nHeight : Int) - pindexPark.nHeight + 1) :
    Unparkable cfg cr m view nTime pindexPrev pindexPark parkTx hashPark n ↔
      checkParkOutWithResult parkTx.cUnit (effectiveParkRates (m.chain pindexPark.phashBlock)) txo = .ok true := by
  rw [unparkable_iff_premium h hpassed, h.checkParkOut_iff]

/-- The check of a transaction is made for each output. -/
theorem checkParkWithResult_ok {tx : CTransaction} {vParkRateResult : List CParkRateVote}
    (h : tx.checkParkWithResult vParkRateResult = .ok true) :
    ∀ txout ∈ tx.vout, checkParkOutWithResult tx.cUnit vParkRateResult txout = .ok true := by
  unfold CTransaction.checkParkWithResult at h
  generalize tx.vout = l at h ⊢
  have hfalse : ∀ l : List CTxOut, l.foldlM (fun f txout =>
      if f then checkParkOutWithResult tx.cUnit vParkRateResult txout else .ok false) false ≠ (.ok true : Check Bool) := by
    intro l
    induction l with
    | nil => exact fun h => nomatch h
    | cons txout l ih =>
      intro h
      obtain ⟨f, hf, h⟩ := foldlM_cons_ok.mp h
      cases hf
      exact ih h
  induction l with
  | nil => exact List.forall_mem_nil _
  | cons txout l ih =>
    obtain ⟨f, hf, h⟩ := foldlM_cons_ok.mp h
    cases f with
    | false => exact absurd h (hfalse l)
    | true => exact List.forall_mem_cons.mpr ⟨by simpa using hf, ih h⟩

/-- **The check of the block is enough before protocol 2.0**, where the rates in effect are its own. -/
theorem unparkable_of_own
    (h : ParkedOutput m view pindexPrev pindexPark parkTx hashPark n txo nDuration unparkDestination)
    (hpassed : nDuration ≤ (pindexPrev.nHeight : Int) - pindexPark.nHeight + 1)
    (hversion : pindexPark.nProtocolVersion < protocolV2_0)
    (hown : parkTx.checkParkWithResult pindexPark.vParkRateResult = .ok true) :
    Unparkable cfg cr m view nTime pindexPrev pindexPark parkTx hashPark n := by
  have hrates : effectiveParkRates (m.chain pindexPark.phashBlock) = pindexPark.vParkRateResult := by
    rw [BlockMap.chain_of_find (BlockMap.find_of_mem_chain h.inChain), effectiveParkRates, if_neg (by omega)]
  rw [unparkable_iff_premium h hpassed, ← h.checkParkOut_iff, hrates]
  exact checkParkWithResult_ok hown txo (List.mem_of_getElem? h.output)

end Unparkable

/-! ## Coins that are parked for ever -/

/-- The premium for rates that are sorted. -/
theorem getPremium_of_sorted {nValue nDuration nPremium : Int} {cUnit : CUnit} {rates : List CParkRate}
    (hrates : rates.Pairwise fun a b => CParkRate.le a b = true) (hvalue : moneyRange nValue = true)
    (hduration : parkDurationRange nDuration = true)
    (hpremium : premiumFromRates nValue nDuration none rates = .ok (some nPremium)) :
    getPremium nValue nDuration cUnit [{ cUnit := cUnit, vParkRate := rates }] = .ok nPremium := by
  unfold getPremium
  rw [if_neg (by simp [hvalue]), if_neg (by simp [hduration]), premiumFromVotes, if_neg (by simp),
    List.mergeSort_of_pairwise hrates, hpremium]
  rfl

/-- The park rate results at a height: the rate for a million blocks falls as fast as it may. -/
def fallingRates (n : Nat) : List CParkRateVote :=
  [{ cUnit := unitCurrency, vParkRate := [⟨0, 1⟩, ⟨20, 1048576 + 79745 * (462 - n)⟩] }]

/-- A chain whose votes are for a rate of one block only. -/
def fallingMap : BlockMap :=
  BlockMap.line 463 fun n =>
    { fProofOfStake := true, nProtocolVersion := protocolV2_0, vParkRateResult := fallingRates n
      vote := { nCoinAgeDestroyed := 1, vParkRateVote := [{ cUnit := unitCurrency, vParkRate := [⟨0, 1⟩] }] } }

/-- An amount is parked for two blocks. -/
def parkAmount (nValue : Int) : CTransaction where
  vin := [{ prevout := ⟨1, 0⟩ }]
  vout := [{ nValue := nValue, scriptPubKey := setPark 2 unparkKey }]
  cUnit := unitCurrency

/-- The view after the transaction was in the block at height 462. -/
def parkAmountView (nValue : Int) : CCoinsView where
  getCoins txid := if txid = 7 then some (CCoins.ofTx (parkAmount nValue) 462) else none
  bestBlock := some 464

/-- The entry of a hash. -/
def fallingIndex (h : Uint256) : CBlockIndex := (fallingMap.find h).getD {}

theorem parkAmount_parked {nValue : Int} (hvalue : (parkAmount nValue).checkTransaction = .ok ())
    (hnull : nValue ≠ -1) :
    ParkedOutput fallingMap (parkAmountView nValue) (fallingIndex 464) (fallingIndex 463) (parkAmount nValue) 7 0
      { nValue := nValue, scriptPubKey := setPark 2 unparkKey } 2 (.keyID unparkKey) where
  best := rfl
  inChain := by
    have hchain : fallingMap.chain 464 = fallingIndex 464 :: fallingMap.chain 463 := BlockMap.chain_of_find rfl
    have hprev : fallingMap.chain 463 = fallingIndex 463 :: fallingMap.prevChain (fallingIndex 463) :=
      BlockMap.chain_of_find rfl
    show fallingIndex 463 ∈ fallingMap.chain 464
    rw [hchain, hprev]
    exact List.mem_cons_of_mem _ List.mem_cons_self
  checked := hvalue
  output := rfl
  park := by
    show extractPark (setPark 2 unparkKey) = _
    decide +kernel
  coins := by
    refine ⟨CCoins.ofTx (parkAmount nValue) 462, ?_, rfl, rfl⟩
    have hsome : ({ nValue := nValue, scriptPubKey := setPark 2 unparkKey } : CTxOut).isNull = false :=
      decide_eq_false hnull
    show Option.map _ (Option.filter _ (some _)) = _
    rw [Option.filter_some, if_pos (by simp [hsome])]
    rfl

/-- A thousand units can be unparked. -/
theorem unparkable_sample :
    Unparkable {} Crypto.sample fallingMap (parkAmountView 10000000) 0 (fallingIndex 464) (fallingIndex 463)
        (parkAmount 10000000) 7 0 ↔
      checkParkOutWithResult unitCurrency (effectiveParkRates (fallingMap.chain 463))
        { nValue := 10000000, scriptPubKey := setPark 2 unparkKey } = .ok true :=
  unparkable_iff (parkAmount_parked (toOption_eq_some.mp (by decide +kernel)) (by decide)) (by decide)

/-- **Coins that are parked for ever**: the block passes the check with its own rates, but the rates in effect give a
premium that takes the amount out of range. -/
theorem parked_for_ever :
    ParkedOutput fallingMap (parkAmountView 19999999900000) (fallingIndex 464) (fallingIndex 463)
      (parkAmount 19999999900000) 7 0 { nValue := 19999999900000, scriptPubKey := setPark 2 unparkKey } 2
      (.keyID unparkKey) ∧
    calculateParkRateResults (fallingIndex 463).vote (fallingMap.prevChain (fallingIndex 463))
      (fallingIndex 463).nProtocolVersion = .ok (fallingIndex 463).vParkRateResult ∧
    (parkAmount 19999999900000).checkParkWithResult (fallingIndex 463).vParkRateResult = .ok true ∧
    ¬ Unparkable {} Crypto.sample fallingMap (parkAmountView 19999999900000) 0 (fallingIndex 464) (fallingIndex 463)
      (parkAmount 19999999900000) 7 0 := by
  have hparked : ParkedOutput fallingMap (parkAmountView 19999999900000) (fallingIndex 464) (fallingIndex 463)
      (parkAmount 19999999900000) 7 0 { nValue := 19999999900000, scriptPubKey := setPark 2 unparkKey } 2
      (.keyID unparkKey) := parkAmount_parked (toOption_eq_some.mp (by decide +kernel)) (by decide)
  have hrates : effectiveParkRates (fallingMap.chain 463) = fallingRates 402 := by decide +kernel
  have hpremium : getPremium 19999999900000 2 unitCurrency (fallingRates 402) = .ok 119999 :=
    getPremium_of_sorted (by decide) (by decide) (by decide) (toOption_eq_some.mp (by decide +kernel))
  have hown : getPremium 19999999900000 2 unitCurrency (fallingRates 462) = .ok 39999 :=
    getPremium_of_sorted (by decide) (by decide) (by decide) (toOption_eq_some.mp (by decide +kernel))
  refine ⟨hparked, toOption_eq_some.mp (by decide +kernel), ?_, fun hunpark => ?_⟩
  · have hout := (hparked.checkParkOut_iff (fallingRates 462)).mpr ⟨39999, hown, by decide⟩
    exact foldlM_cons_ok.mpr ⟨true, hout, rfl⟩
  obtain ⟨nPremium, hp, hrange⟩ := (unparkable_iff_premium hparked (by decide)).mp hunpark
  change getPremium 19999999900000 2 unitCurrency (effectiveParkRates (fallingMap.chain 463)) = _ at hp
  rw [hrates, hpremium] at hp
  cases hp
  revert hrange
  decide

end Morcochain
