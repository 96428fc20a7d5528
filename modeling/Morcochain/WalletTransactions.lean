import Morcochain.CoinSelection
import Morcochain.SafeFee
import Morcochain.Lib.Retry

/-!
# Transactions of the wallet

`CWallet::CreateTransaction` and `CWallet::CreateBurnTransaction` (`wallet.cpp`), with `CTransaction::AddOutput` and
`CTransaction::AddChange` (`main.cpp`). Both build a transaction again until its fee is enough for its size, which
depends on the coins that are selected for the fee.

* `sum_splitAmount` : splitting an amount of shares keeps its sum.
* `createRound_spec`, `burnRound_spec` : what one round does.
* `walletTransactions_law` : **the loops end, and what they build is balanced**.
-/

set_option autoImplicit false

namespace Morcochain

open Guard Retry

/-! ## Outputs -/

def nSplitShareOutputs : Int := minCoinstakeValue

/-- `CTxOut::IsDust`: no output is dust. -/
def CTxOut.isDust (_ : CTxOut) : Bool := false

/-- The amounts of `n` outputs of split shares, and of the last one. -/
def splitLoop : Nat → Int → List Int
  | 0, nRemaining => [nRemaining]
  | n + 1, nRemaining => nSplitShareOutputs :: splitLoop n (nRemaining - nSplitShareOutputs)

/-- The amounts that an amount is split into: shares are split from twice `nSplitShareOutputs` on. -/
def splitAmount (cUnit : CUnit) (nAmount : Int) : List Int :=
  if cUnit = unitShare ∧ nSplitShareOutputs > 0 ∧ nAmount ≥ nSplitShareOutputs * 2 then
    splitLoop (Int.tdiv nAmount nSplitShareOutputs - 1).toNat nAmount
  else [nAmount]

/-- `CTransaction::AddOutput`. -/
def CTransaction.addOutput (tx : CTransaction) (script : CScript) (nAmount : Int) : CTransaction :=
  { tx with vout := tx.vout ++ (splitAmount tx.cUnit nAmount).map fun n => { nValue := n, scriptPubKey := script } }

/-- Insert outputs with these amounts at random positions. -/
def insertOutputs (script : CScript) (rand : Nat → Nat) : Nat → List Int → List CTxOut → List CTxOut
  | _, [], vout => vout
  | i, n :: amounts, vout =>
    insertOutputs script rand (i + 1) amounts
      (vout.insertIdx (getRandInt vout.length (rand i)) { nValue := n, scriptPubKey := script })

/-! ## The wallet -/

/-- What the creation of a transaction reads of the wallet and of the node. -/
structure WalletContext where
  cUnit : CUnit
  mapBlockIndex : BlockMap
  /-- The chain of `pindexBest`. -/
  bestChain : List CBlockIndex
  /-- What `SelectCoins` returns in a round of the loop, for a target. -/
  selectCoins : Nat → Int → Option Selection
  /-- The script that `SignSignature` puts into an input, for the script that it spends. -/
  signSignature : CTransaction → Nat → CScript → Option CScript
  /-- `coinControl->destChange`, `CNoDestination` without coin control. -/
  destChange : CTxDestination := .none
  /-- `-avatar` -/
  avatar : Option Bool := none
  /-- The key that `reservekey` reserves. -/
  reservedKey : Option Uint160 := none
  /-- What the random source gives in a round of the loop. -/
  rand : Nat → Nat → Nat

namespace WalletContext

variable (env : WalletContext)

/-- `CWallet::GetSafeMinTxFee` of the best block. The unit of the transaction is that of the wallet, so this is also its
`GetSafeUnitMinFee`. -/
def getSafeMinTxFee : Check Int := chainSafeMinFee env.mapBlockIndex env.bestChain env.cUnit

/-- The script that `AddChange` pays to, from that of the last coin. -/
def changeScript (scriptChange : CScript) : Check CScript :=
  if env.destChange ≠ .none then .ok (setDestination env.destChange)
  else if !env.avatar.getD (env.cUnit = unitShare) then
    match env.reservedKey with
    | none => .error (.assertion "reservekey.GetReservedKey(vchPubKey)")
    | some keyID => .ok (setDestination (.keyID keyID))
  else .ok scriptChange

/-- `CTransaction::AddChange`, in a round of the loop. -/
def addChange (k : Nat) (tx : CTransaction) (nChange : Int) (scriptChange : CScript) : Check CTransaction := do
  let scriptChange ← env.changeScript scriptChange
  return { tx with vout := insertOutputs scriptChange (env.rand k) 0 (splitAmount tx.cUnit nChange) tx.vout }

/-- The script of the last coin. -/
def lastScript (setCoins : List WalletCoin) : CScript :=
  setCoins.foldl (fun _ coin => (coin.1.vout[coin.2]?.map (·.scriptPubKey)).getD []) []

/-- Sign the inputs from `nIn` on. -/
def signInputs : List WalletCoin → Nat → CTransaction → Check CTransaction
  | [], _, tx => .ok tx
  | coin :: setCoins, nIn, tx =>
    match coin.1.vout[coin.2]? with
    | none => .error (.assertion "txin.prevout.n < txFrom.vout.size()")
    | some txout =>
      match env.signSignature tx nIn txout.scriptPubKey with
      | none => .error (.error "Signing transaction failed")
      | some scriptSig =>
        signInputs setCoins (nIn + 1)
          { tx with vin := tx.vin.modify nIn fun txin => { txin with scriptSig := scriptSig } }

/-- The end of a round: the inputs are filled in and signed, and the fee is computed that the size asks for. -/
def finish (setCoins : List WalletCoin) (wtxNew : CTransaction) : Check (CTransaction × Int) := do
  let wtxNew ← env.signInputs setCoins 0
    { wtxNew with vin := setCoins.map fun coin => { prevout := ⟨coin.1.hash, coin.2⟩, scriptSig := [] } }
  let nBytes := wtxNew.serializeSize
  rejectIf (nBytes ≥ maxStandardTxSize) (.error "Transaction too large")
  let nUnitFee ← chainSafeMinFee env.mapBlockIndex env.bestChain wtxNew.cUnit
  let nMinFee ← wtxNew.getSafeMinFee env.mapBlockIndex env.bestChain nBytes
  return (wtxNew, max (nUnitFee * (1 + (nBytes : Int) / 1000)) nMinFee)

end WalletContext

/-! ## Creation -/

/-- The transaction that was created, and its fee. -/
structure Created where
  wtxNew : CTransaction
  nFeeRet : Int
deriving DecidableEq, Repr

/-- The change and the fee, after what is too small was moved to the fee. -/
def moveToFee (nUnitFee nMinTxOut nChange nFeeRet : Int) : Int × Int :=
  let (nChange, nFeeRet) :=
    if nFeeRet < nUnitFee ∧ nChange > 0 ∧ nChange < cent then
      (nChange - min nChange (nUnitFee - nFeeRet), nFeeRet + min nChange (nUnitFee - nFeeRet))
    else (nChange, nFeeRet)
  if nChange > 0 ∧ nChange < nMinTxOut then (0, nFeeRet + nChange) else (nChange, nFeeRet)

/-- The sum of the payments. -/
def sumPayments : Int → List (CScript × Int) → Check Int
  | nValue, [] => .ok nValue
  | nValue, s :: vecSend => do
    rejectIf (nValue < 0) (.error "Transaction amounts must be positive")
    sumPayments (toInt64 (nValue + s.2)) vecSend

namespace WalletContext

variable (env : WalletContext)

/-- The outputs to the payees. -/
def addPayees (wtxNew : CTransaction) (vecSend : List (CScript × Int)) : Check CTransaction :=
  vecSend.foldlM (fun tx s => do
    rejectIf (CTxOut.isDust { nValue := s.2, scriptPubKey := s.1 }) (.error "Transaction amount too small")
    return tx.addOutput s.1 s.2) { wtxNew with vin := [], vout := [], cUnit := env.cUnit }

/-- The change output, if there is change. -/
def addAnyChange (k : Nat) (tx : CTransaction) (nChange : Int) (scriptChange : CScript) : Check CTransaction :=
  if nChange > 0 then env.addChange k tx nChange scriptChange else .ok tx

/-- A round of the loop of `CreateTransaction`, with the fee that it starts with. -/
def createRound (wtxNew : CTransaction) (vecSend : List (CScript × Int)) (nValue : Int) (k : Nat) (nFeeRet : Int) :
    Check (Turn Int Created) := do
  let nTotalValue := toInt64 (nValue + nFeeRet)
  let wtxNew ← env.addPayees wtxNew vecSend
  match env.selectCoins k nTotalValue with
  | none => throw (.error "Insufficient funds")
  | some s => do
    let nUnitFee ← chainSafeMinFee env.mapBlockIndex env.bestChain wtxNew.cUnit
    let (nChange, nFeeRet) :=
      moveToFee nUnitFee wtxNew.getMinTxOutAmount (toInt64 (s.nValueRet - nValue - nFeeRet)) nFeeRet
    let wtxNew ← env.addAnyChange k wtxNew nChange (lastScript s.setCoinsRet)
    let (wtxNew, nMaxFee) ← env.finish s.setCoinsRet wtxNew
    return if nFeeRet < nMaxFee then .again nMaxFee else .done ⟨wtxNew, nFeeRet⟩

/-- `CWallet::CreateTransaction`. -/
def createTransaction (wtxNew : CTransaction) (vecSend : List (CScript × Int)) (fuel : Nat) : Option (Check Created) :=
  match sumPayments 0 vecSend with
  | .error e => some (.error e)
  | .ok nValue =>
    if vecSend = [] ∨ nValue < 0 then some (.error (.error "Transaction amounts must be positive"))
    else
      match env.getSafeMinTxFee with
      | .error e => some (.error e)
      | .ok nFeeRet => retry (env.createRound wtxNew vecSend nValue) fuel 0 nFeeRet

/-! ## Burning -/

/-- A round of the loop of `CreateBurnTransaction`, with the fee that it starts with. -/
def burnRound (wtxNew : CTransaction) (nBurnValue : Int) (k : Nat) (nFeeRet : Int) : Check (Turn Int Created) := do
  let wtxNew : CTransaction := { wtxNew with vin := [], vout := [], cUnit := env.cUnit }
  let nMinChange := wtxNew.getMinTxOutAmount
  let nBurnOrFee := max nBurnValue nFeeRet
  let nTotalValue := toInt64 (nBurnOrFee + nMinChange)
  match env.selectCoins k nTotalValue with
  | none => throw (.error "Insufficient funds")
  | some s => do
    let nChange := toInt64 (s.nValueRet - nBurnOrFee)
    rejectIf (¬ nChange ≥ nMinChange) (.assertion "nChange >= nMinChange")
    let wtxNew ← env.addChange k wtxNew nChange (lastScript s.setCoinsRet)
    let (wtxNew, nMaxFee) ← env.finish s.setCoinsRet wtxNew
    return if nBurnOrFee < nMaxFee then .again nMaxFee else .done ⟨wtxNew, nFeeRet⟩

/-- `CWallet::CreateBurnTransaction`. -/
def createBurnTransaction (wtxNew : CTransaction) (nBurnValue : Int) (fuel : Nat) : Option (Check Created) :=
  if nBurnValue < 0 then some (.error (.error "Invalid burn amount"))
  else
    match env.getSafeMinTxFee with
    | .error e => some (.error e)
    | .ok nFeeRet => retry (env.burnRound wtxNew nBurnValue) fuel 0 nFeeRet

end WalletContext

/-! ## What outputs pay -/

/-- The sum of outputs, with a weight for each script. -/
def weightedSum (w : CScript → Int) (vout : List CTxOut) : Int :=
    (vout.map fun txout => w txout.scriptPubKey * txout.nValue).sum

/-- The sum of payments, with a weight for each script. -/
def weightedPayments (w : CScript → Int) (vecSend : List (CScript × Int)) : Int :=
    (vecSend.map fun s => w s.1 * s.2).sum

section Outputs

variable {w : CScript → Int} {script : CScript} {vout : List CTxOut} {tx : CTransaction}

theorem sum_splitLoop : ∀ (n : Nat) (nRemaining : Int), (splitLoop n nRemaining).sum = nRemaining
  | 0, _ => List.sum_singleton
  | n + 1, nRemaining => by
    rw [splitLoop, List.sum_cons, sum_splitLoop n]
    omega

/-- **Splitting keeps the sum.** -/
theorem sum_splitAmount (cUnit : CUnit) (nAmount : Int) : (splitAmount cUnit nAmount).sum = nAmount := by
  unfold splitAmount
  split
  · exact sum_splitLoop _ _
  · exact List.sum_singleton

/-- No part is less than a bound that the amount and the size of the parts keep. -/
theorem le_splitLoop {nMin : Int} (hmin : nMin ≤ nSplitShareOutputs) : ∀ {n : Nat} {nRemaining : Int},
    nSplitShareOutputs * (n + 1) ≤ nRemaining → ∀ x ∈ splitLoop n nRemaining, nMin ≤ x
  | 0, nRemaining, h, x, hx => by
    rw [splitLoop, List.mem_singleton] at hx
    rw [hx]
    push_cast at h
    omega
  | n + 1, nRemaining, h, x, hx => by
    have hrest : nSplitShareOutputs * (n + 1) ≤ nRemaining - nSplitShareOutputs := by
      push_cast at h
      rw [Int.mul_add, Int.mul_one] at h
      omega
    rcases List.mem_cons.mp hx with rfl | hx
    · exact hmin
    · exact le_splitLoop hmin hrest x hx

/-- **No part is too small** when the amount is not. -/
theorem le_splitAmount {cUnit : CUnit} {nAmount nMin : Int} (hmin : nMin ≤ nSplitShareOutputs)
    (hamount : nMin ≤ nAmount) :
    ∀ x ∈ splitAmount cUnit nAmount, nMin ≤ x := by
  unfold splitAmount
  split
  · rename_i hsplit
    have hpos := hsplit.2.1
    have hquot : 1 ≤ Int.tdiv nAmount nSplitShareOutputs := by
      have hle : nSplitShareOutputs ≤ nAmount := by omega
      rw [Int.tdiv_eq_ediv_of_nonneg (by omega)]
      exact (Int.le_ediv_iff_mul_le hpos).mpr (by omega)
    refine le_splitLoop hmin ?_
    have hback : nSplitShareOutputs * Int.tdiv nAmount nSplitShareOutputs ≤ nAmount := by
      rw [Int.tdiv_eq_ediv_of_nonneg (by omega), Int.mul_comm]
      exact Int.ediv_mul_le _ (by omega)
    have hcast : (((Int.tdiv nAmount nSplitShareOutputs - 1).toNat : Int) + 1) =
      Int.tdiv nAmount nSplitShareOutputs := by
      omega
    rwa [hcast]
  · exact List.forall_mem_singleton.mpr hamount

theorem weightedSum_append (vout' : List CTxOut) :
    weightedSum w (vout ++ vout') = weightedSum w vout + weightedSum w vout' := by
  unfold weightedSum
  rw [List.map_append, List.sum_append]

/-- Outputs with one script. -/
theorem weightedSum_script (w : CScript → Int) (script : CScript) : ∀ amounts : List Int,
    weightedSum w (amounts.map fun n => { nValue := n, scriptPubKey := script }) = w script * amounts.sum
  | [] => by rw [List.sum_nil, Int.mul_zero]; rfl
  | n :: amounts => by
    have ih := weightedSum_script w script amounts
    unfold weightedSum at ih ⊢
    rw [List.map_cons, List.map_cons, List.sum_cons, List.sum_cons, ih, Int.mul_add]

/-- **`AddOutput` pays the amount** to the script, and nothing else. -/
theorem weightedSum_addOutput (nAmount : Int) :
    weightedSum w (tx.addOutput script nAmount).vout = weightedSum w tx.vout + w script * nAmount := by
  unfold CTransaction.addOutput
  rw [weightedSum_append, weightedSum_script, sum_splitAmount]

/-- Outputs that are inserted at random positions are the new ones and the old ones. -/
theorem insertOutputs_perm (script : CScript) (rand : Nat → Nat) :
    ∀ (amounts : List Int) (i : Nat) (vout : List CTxOut),
    (insertOutputs script rand i amounts vout).Perm
      ((amounts.map fun n => { nValue := n, scriptPubKey := script }) ++ vout)
  | [], _, vout => List.Perm.refl vout
  | n :: amounts, i, vout => by
    have hinsert : (vout.insertIdx (getRandInt vout.length (rand i)) { nValue := n, scriptPubKey := script }).Perm
        ({ nValue := n, scriptPubKey := script } :: vout) := List.perm_insertIdx _ _ (getRandInt_le _ _)
    refine (insertOutputs_perm script rand amounts (i + 1) _).trans ((hinsert.append_left _).trans ?_)
    exact List.perm_middle

theorem weightedSum_perm {vout' : List CTxOut} (h : vout.Perm vout') : weightedSum w vout = weightedSum w vout' :=
  List.Perm.sum_eq (h.map fun txout => w txout.scriptPubKey * txout.nValue)

end Outputs

/-! ## The parts of a round -/

/-- The fee for a transaction of `q` full kilobytes. -/
def feeLevel (nUnitFee : Int) (q : Nat) : Int := nUnitFee * (1 + q)

/-- The fees of the transactions that are small enough. -/
def feeLevels (nUnitFee : Int) : List Int := (List.range (maxStandardTxSize / 1000)).map (feeLevel nUnitFee)

/-- The fee of a transaction covers what is safe for its size. -/
def CTransaction.PaysSafeFee (env : WalletContext) (tx : CTransaction) (nFee : Int) : Prop :=
  ∃ nMinFee, tx.getSafeMinFee env.mapBlockIndex env.bestChain tx.serializeSize = .ok nMinFee ∧ nMinFee ≤ nFee

/-- The transaction spends coins, each of them once. -/
structure CTransaction.SpendsCoins (tx : CTransaction) (coins : List WalletCoin) : Prop where
  inputs : tx.vin.map (·.prevout) = coins.map fun coin => ⟨coin.1.hash, coin.2⟩
  once : coins.Nodup

/-- For every target that fits, the coins that are selected are distinct and reach it. -/
def WalletContext.SelectsCoins (env : WalletContext) : Prop :=
  ∀ k nTargetValue s, 0 ≤ nTargetValue → nTargetValue + cent ≤ int64Max → env.selectCoins k nTargetValue = some s →
    CoinsSelected nTargetValue s

section Parts

variable {env : WalletContext} {tx tx' : CTransaction} {script : CScript} {nUnitFee nChange nFeeRet nMinTxOut : Int} {k : Nat}
  {setCoins : List WalletCoin} {vecSend : List (CScript × Int)} {w : CScript → Int}

/-- The safe fee is not negative. -/
theorem chainSafeMinFee_nonneg {m : BlockMap} {chain : List CBlockIndex} {cUnit : CUnit}
    (h : chainSafeMinFee m chain cUnit = .ok nUnitFee) : 0 ≤ nUnitFee := by
  unfold chainSafeMinFee at h
  split at h
  · cases h
  · refine foldlM_inv (I := fun n => 0 ≤ n) (fun pindex _ n n' hn hstep => ?_) le_rfl h
    obtain ⟨fee, -, hstep⟩ := bind_eq_ok.mp hstep
    cases hstep
    split <;> omega

/-- **What is moved to the fee** is taken from the change. -/
theorem moveToFee_spec (h : 0 ≤ nChange) :
    (moveToFee nUnitFee nMinTxOut nChange nFeeRet).1 + (moveToFee nUnitFee nMinTxOut nChange nFeeRet).2 =
        nChange + nFeeRet ∧
      nFeeRet ≤ (moveToFee nUnitFee nMinTxOut nChange nFeeRet).2 ∧
      ((moveToFee nUnitFee nMinTxOut nChange nFeeRet).1 = 0 ∨
        0 < (moveToFee nUnitFee nMinTxOut nChange nFeeRet).1 ∧
          nMinTxOut ≤ (moveToFee nUnitFee nMinTxOut nChange nFeeRet).1) := by
  unfold moveToFee
  dsimp only
  split <;> dsimp only <;> split <;> dsimp only <;> omega

/-- **`AddChange` pays the change** to one script, in parts that are not too small. -/
theorem addChange_ok (h : env.addChange k tx nChange script = .ok tx') : tx'.vin = tx.vin ∧ tx'.cUnit = tx.cUnit ∧
    ∃ scriptChange, (∀ w, weightedSum w tx'.vout = weightedSum w tx.vout + w scriptChange * nChange) ∧
      ∀ txout ∈ tx'.vout, txout ∈ tx.vout ∨
        txout.scriptPubKey = scriptChange ∧ txout.nValue ∈ splitAmount tx.cUnit nChange := by
  unfold WalletContext.addChange at h
  obtain ⟨scriptChange, -, h⟩ := bind_eq_ok.mp h
  cases h
  have hperm := insertOutputs_perm scriptChange (env.rand k) (splitAmount tx.cUnit nChange) 0 tx.vout
  refine ⟨rfl, rfl, scriptChange, fun w => ?_, fun txout htxout => ?_⟩
  · rw [weightedSum_perm hperm, weightedSum_append, weightedSum_script, sum_splitAmount, Int.add_comm]
  · rcases List.mem_append.mp (hperm.mem_iff.mp htxout) with hnew | hold
    · obtain ⟨n, hn, rfl⟩ := List.mem_map.mp hnew
      exact .inr ⟨rfl, hn⟩
    · exact .inl hold

/-- **The outputs to the payees** pay what is to be paid. -/
theorem addPayees_ok (h : env.addPayees tx vecSend = .ok tx') : tx'.cUnit = env.cUnit ∧
    ∀ w, weightedSum w tx'.vout = weightedPayments w vecSend := by
  have hfold : ∀ {vecSend : List (CScript × Int)} {tx tx' : CTransaction}, vecSend.foldlM (fun tx s => do
        rejectIf (CTxOut.isDust { nValue := s.2, scriptPubKey := s.1 }) (Failure.error "Transaction amount too small")
        return tx.addOutput s.1 s.2) tx = .ok tx' →
      tx'.cUnit = tx.cUnit ∧ ∀ w, weightedSum w tx'.vout = weightedSum w tx.vout + weightedPayments w vecSend := by
    intro vecSend
    induction vecSend with
    | nil =>
      intro tx tx' h
      cases h
      exact ⟨rfl, fun w => (Int.add_zero _).symm⟩
    | cons s vecSend ih =>
      intro tx tx' h
      obtain ⟨tx₁, h₁, h⟩ := foldlM_cons_ok.mp h
      obtain ⟨_, -, h₁⟩ := bind_eq_ok.mp h₁
      cases h₁
      obtain ⟨hunit, hsum⟩ := ih h
      refine ⟨hunit, fun w => ?_⟩
      rw [hsum w, weightedSum_addOutput]
      unfold weightedPayments
      rw [List.map_cons, List.sum_cons, Int.add_assoc]
  obtain ⟨hunit, hsum⟩ := hfold h
  refine ⟨hunit, fun w => ?_⟩
  rw [hsum w]
  exact Int.zero_add _

/-- Signing fills in scripts, and leaves the rest. -/
theorem signInputs_ok : ∀ {setCoins : List WalletCoin} {nIn : Nat} {tx tx' : CTransaction},
    env.signInputs setCoins nIn tx = .ok tx' → tx'.vout = tx.vout ∧ tx'.cUnit = tx.cUnit ∧
      tx'.vin.map (·.prevout) = tx.vin.map (·.prevout)
  | [], _, _, _, h => by
    cases h
    exact ⟨rfl, rfl, rfl⟩
  | coin :: setCoins, nIn, tx, tx', h => by
    unfold WalletContext.signInputs at h
    split at h
    · cases h
    · split at h
      · cases h
      · obtain ⟨hout, hunit, hin⟩ := signInputs_ok h
        exact ⟨hout, hunit, hin.trans (prevouts_modify ..)⟩

/-- The fee for a size is the unit fee for each kilobyte, or less when that is not an amount. -/
theorem max_minFeeFor (hpos : 0 ≤ nUnitFee) (nBytes : Nat) :
    max (nUnitFee * (1 + (nBytes : Int) / 1000)) (minFeeFor nUnitFee nBytes) = feeLevel nUnitFee (nBytes / 1000) := by
  have hprod : 0 ≤ (1 + (nBytes : Int) / 1000) * nUnitFee := Int.mul_nonneg (by omega) hpos
  have hle : minFeeFor nUnitFee nBytes ≤ (1 + (nBytes : Int) / 1000) * nUnitFee := by
    unfold minFeeFor
    dsimp only
    split
    · exact le_rfl
    · rename_i hrange
      rw [moneyRange_iff, not_and] at hrange
      exact (not_le.mp (hrange hprod)).le
  rw [Int.mul_comm] at hle
  rw [max_eq_left hle]
  unfold feeLevel
  push_cast
  rfl

/-- A fee of the levels is the one of the largest transaction at most. -/
theorem le_of_mem_feeLevels (hpos : 0 ≤ nUnitFee) {nFee : Int} (h : nFee ∈ feeLevels nUnitFee) :
    0 ≤ nFee ∧ nFee ≤ nUnitFee * (maxStandardTxSize / 1000 : Nat) := by
  obtain ⟨q, hq, rfl⟩ := List.mem_map.mp h
  have hq := List.mem_range.mp hq
  unfold feeLevel
  exact ⟨Int.mul_nonneg hpos (by omega), Int.mul_le_mul_of_nonneg_left (by omega) hpos⟩

/-- **The end of a round**: the inputs are filled in, and the fee is one of the levels and enough for the size. -/
theorem finish_ok {nMaxFee : Int} (hunit : env.getSafeMinTxFee = .ok nUnitFee) (hcUnit : tx.cUnit = env.cUnit)
    (honce : setCoins.Nodup) (h : env.finish setCoins tx = .ok (tx', nMaxFee)) :
    tx'.vout = tx.vout ∧ tx'.cUnit = tx.cUnit ∧ tx'.SpendsCoins setCoins ∧ nMaxFee ∈ feeLevels nUnitFee ∧
      ∀ nFee, nMaxFee ≤ nFee → tx'.PaysSafeFee env nFee := by
  unfold WalletContext.finish at h
  obtain ⟨signed, hsign, h⟩ := bind_eq_ok.mp h
  obtain ⟨_, hsize, h⟩ := bind_eq_ok.mp h
  have hsize := rejectIf_eq_ok.mp hsize
  obtain ⟨hout, hcUnit', hin⟩ := signInputs_ok hsign
  have hfee : chainSafeMinFee env.mapBlockIndex env.bestChain signed.cUnit = .ok nUnitFee := by
    rw [hcUnit', hcUnit]
    exact hunit
  have hpos := chainSafeMinFee_nonneg hfee
  have hmin : signed.getSafeMinFee env.mapBlockIndex env.bestChain signed.serializeSize =
      .ok (minFeeFor nUnitFee signed.serializeSize) := by
    unfold CTransaction.getSafeMinFee
    rw [hfee, ok_bind, pure_eq_ok]
  rw [hfee, ok_bind, hmin, ok_bind, max_minFeeFor hpos] at h
  cases h
  refine ⟨hout, hcUnit', ⟨?_, honce⟩, List.mem_map.mpr ⟨_, List.mem_range.mpr ?_, rfl⟩, fun nFee hle => ⟨_, hmin, ?_⟩⟩
  · rw [hin, List.map_map]
    rfl
  · have hmax : maxStandardTxSize = 250000 := rfl
    omega
  · rw [← max_minFeeFor hpos] at hle
    exact (le_max_right _ _).trans hle

end Parts

/-! ## Rounds -/

/-- **A created transaction is balanced.** -/
structure Balanced (env : WalletContext) (vecSend : List (CScript × Int)) (created : Created) (coins : List WalletCoin)
    (nChange : Int) (scriptChange : CScript) : Prop where
  spends : created.wtxNew.SpendsCoins coins
  /-- The inputs are the payments, the change and the fee. -/
  balance : (coins.map (·.nValue)).sum = (vecSend.map (·.2)).sum + nChange + created.nFeeRet
  /-- The outputs pay the payments and the change, script by script. -/
  destinations : ∀ script, weightedSum (fun s => if s = script then 1 else 0) created.wtxNew.vout =
    weightedPayments (fun s => if s = script then 1 else 0) vecSend + if scriptChange = script then nChange else 0
  outputs : (created.wtxNew.vout.map (·.nValue)).sum = (vecSend.map (·.2)).sum + nChange
  fee : created.wtxNew.PaysSafeFee env created.nFeeRet
  change : nChange = 0 ∨ minTxOutAmount env.cUnit ≤ nChange

/-- **A burning transaction** destroys an amount, and gives back change that is not too small. -/
structure Burns (env : WalletContext) (nBurned : Int) (created : Created) (coins : List WalletCoin) : Prop where
  spends : created.wtxNew.SpendsCoins coins
  destroyed : (coins.map (·.nValue)).sum - (created.wtxNew.vout.map (·.nValue)).sum = nBurned
  /-- There is a change output, to one script. -/
  change : ∃ scriptChange, created.wtxNew.vout ≠ [] ∧ ∀ txout ∈ created.wtxNew.vout,
    txout.scriptPubKey = scriptChange ∧ minTxOutAmount env.cUnit ≤ txout.nValue
  fee : created.wtxNew.PaysSafeFee env nBurned

section Rounds

variable {env : WalletContext} {wtxNew : CTransaction} {vecSend : List (CScript × Int)} {nUnitFee nFeeRet nBurnValue : Int}
  {k : Nat}

/-- The sum of all outputs. -/
theorem sum_eq_weightedSum (vout : List CTxOut) : (vout.map (·.nValue)).sum = weightedSum (fun _ => 1) vout := by
  unfold weightedSum
  simp only [Int.one_mul]

theorem sum_eq_weightedPayments (vecSend : List (CScript × Int)) :
    (vecSend.map (·.2)).sum = weightedPayments (fun _ => 1) vecSend := by
  unfold weightedPayments
  simp only [Int.one_mul]

/-- The outputs of a transaction with change pay the payments and the change. -/
theorem addAnyChange_ok {tx tx' : CTransaction} {nChange : Int} {script : CScript} (hpos : 0 ≤ nChange)
    (h : env.addAnyChange k tx nChange script = .ok tx') : tx'.cUnit = tx.cUnit ∧
      ∃ scriptChange, ∀ w, weightedSum w tx'.vout = weightedSum w tx.vout + w scriptChange * nChange := by
  unfold WalletContext.addAnyChange at h
  split at h
  · obtain ⟨-, hcUnit, scriptChange, hsum, -⟩ := addChange_ok h
    exact ⟨hcUnit, scriptChange, hsum⟩
  · cases h
    have hzero : nChange = 0 := by omega
    exact ⟨rfl, [], fun w => by rw [hzero, Int.mul_zero, Int.add_zero]⟩

/-- **A round of `CreateTransaction`**: it ends with a balanced transaction, or with the fee for a larger one. -/
theorem createRound_spec {nValue : Int} (hunit : env.getSafeMinTxFee = .ok nUnitFee)
    (hselect : env.SelectsCoins) (hvalue : nValue = (vecSend.map (·.2)).sum) (hpos : 0 ≤ nValue) (hfee : 0 ≤ nFeeRet)
    (hfits : nValue + nFeeRet + cent ≤ int64Max) {turn : Turn Int Created}
    (h : env.createRound wtxNew vecSend nValue k nFeeRet = .ok turn) :
    (∀ nFee, turn = .again nFee → nFeeRet < nFee ∧ nFee ∈ feeLevels nUnitFee) ∧
    ∀ created, turn = .done created → ∃ coins nChange scriptChange,
      Balanced env vecSend created coins nChange scriptChange := by
  have htotal : toInt64 (nValue + nFeeRet) = nValue + nFeeRet := by
    unfold int64Max cent at hfits
    exact toInt64_eq (by omega) (by omega)
  unfold WalletContext.createRound at h
  dsimp only at h
  rw [htotal] at h
  obtain ⟨paid, hpaid, h⟩ := bind_eq_ok.mp h
  obtain ⟨hpaidUnit, hpaidSum⟩ := addPayees_ok hpaid
  cases hcoins : env.selectCoins k (nValue + nFeeRet) with
  | none =>
    rw [hcoins] at h
    cases h
  | some s =>
    have hs := hselect k _ s (by omega) hfits hcoins
    have hreaches := hs.reaches
    have hchange : toInt64 (s.nValueRet - nValue - nFeeRet) = s.nValueRet - nValue - nFeeRet := by
      have hmax := hs.fits
      unfold int64Max at hmax
      exact toInt64_eq (by omega) (by omega)
    rw [hcoins] at h
    dsimp only at h
    rw [hpaidUnit, show chainSafeMinFee env.mapBlockIndex env.bestChain env.cUnit = .ok nUnitFee from hunit, ok_bind,
      hchange] at h
    obtain ⟨hsum, hmore, hsmall⟩ :=
      @moveToFee_spec nUnitFee (s.nValueRet - nValue - nFeeRet) nFeeRet paid.getMinTxOutAmount
      (by omega)
    generalize moveToFee nUnitFee paid.getMinTxOutAmount (s.nValueRet - nValue - nFeeRet) nFeeRet =
      moved at h hsum hmore hsmall
    obtain ⟨nChange, nFee⟩ := moved
    dsimp only at h hsum hmore hsmall
    obtain ⟨changed, hchanged, h⟩ := bind_eq_ok.mp h
    obtain ⟨⟨final, nMaxFee⟩, hfinish, h⟩ := bind_eq_ok.mp h
    cases h
    obtain ⟨hchangedUnit, scriptChange, hchangedSum⟩ := addAnyChange_ok (by omega) hchanged
    obtain ⟨hout, -, hspends, hlevel, hpays⟩ := finish_ok hunit (hchangedUnit.trans hpaidUnit) hs.once hfinish
    refine ⟨fun nFee' hturn => ?_, fun created hturn => ⟨s.setCoinsRet, nChange, scriptChange, ?_⟩⟩
    · split at hturn
      · cases hturn
        exact ⟨by omega, hlevel⟩
      · cases hturn
    · split at hturn
      · cases hturn
      · rename_i henough
        cases hturn
        have hweights : ∀ w, weightedSum w final.vout = weightedPayments w vecSend + w scriptChange * nChange :=
          fun w => by
          rw [hout, hchangedSum, hpaidSum]
        refine ⟨hspends, ?_, fun script => ?_, ?_, hpays nFee (not_lt.mp henough), ?_⟩
        · rw [← hs.value, ← hvalue]
          dsimp only
          omega
        · rw [hweights]
          split <;> omega
        · rw [sum_eq_weightedSum, hweights, sum_eq_weightedPayments, Int.one_mul]
        · have hmin : paid.getMinTxOutAmount = minTxOutAmount env.cUnit := congrArg minTxOutAmount hpaidUnit
          rw [hmin] at hsmall
          exact hsmall.imp_right And.right

/-- The least amount of an output. -/
theorem minTxOutAmount_bounds (cUnit : CUnit) :
    0 < minTxOutAmount cUnit ∧ minTxOutAmount cUnit ≤ nSplitShareOutputs := by
  unfold minTxOutAmount
  split <;> decide

/-- **A round of `CreateBurnTransaction`**: it ends with a transaction that destroys the amount or the fee, or with the
fee for a larger one. -/
theorem burnRound_spec (hunit : env.getSafeMinTxFee = .ok nUnitFee)
    (hselect : env.SelectsCoins) (hpos : 0 ≤ nBurnValue)
    (hfits : max nBurnValue nFeeRet + minTxOutAmount env.cUnit + cent ≤ int64Max) {turn : Turn Int Created}
    (h : env.burnRound wtxNew nBurnValue k nFeeRet = .ok turn) :
    (∀ nFee, turn = .again nFee → nFeeRet < nFee ∧ nFee ∈ feeLevels nUnitFee) ∧
    ∀ created, turn = .done created → ∃ coins, Burns env (max nBurnValue created.nFeeRet) created coins := by
  obtain ⟨hmin, hsplit⟩ := minTxOutAmount_bounds env.cUnit
  have hburn : nBurnValue ≤ max nBurnValue nFeeRet := le_max_left _ _
  have hfeeLe : nFeeRet ≤ max nBurnValue nFeeRet := le_max_right _ _
  have htotal : toInt64 (max nBurnValue nFeeRet + minTxOutAmount env.cUnit) =
      max nBurnValue nFeeRet + minTxOutAmount env.cUnit := by
    unfold int64Max cent at hfits
    exact toInt64_eq (by omega) (by omega)
  unfold WalletContext.burnRound at h
  dsimp only at h
  rw [CTransaction.getMinTxOutAmount] at h
  dsimp only at h
  rw [htotal] at h
  cases hcoins : env.selectCoins k (max nBurnValue nFeeRet + minTxOutAmount env.cUnit) with
  | none =>
    rw [hcoins] at h
    cases h
  | some s =>
    have hs := hselect k _ s (by omega) hfits hcoins
    have hreaches := hs.reaches
    have hchange : toInt64 (s.nValueRet - max nBurnValue nFeeRet) = s.nValueRet - max nBurnValue nFeeRet := by
      have hmax := hs.fits
      unfold int64Max at hmax
      exact toInt64_eq (by omega) (by omega)
    rw [hcoins] at h
    dsimp only at h
    rw [hchange] at h
    obtain ⟨_, -, h⟩ := bind_eq_ok.mp h
    obtain ⟨changed, hchanged, h⟩ := bind_eq_ok.mp h
    obtain ⟨⟨final, nMaxFee⟩, hfinish, h⟩ := bind_eq_ok.mp h
    cases h
    obtain ⟨-, hcUnit, scriptChange, hsum, hparts⟩ := addChange_ok hchanged
    obtain ⟨hout, -, hspends, hlevel, hpays⟩ := finish_ok hunit hcUnit hs.once hfinish
    have hpaid : (final.vout.map (·.nValue)).sum = s.nValueRet - max nBurnValue nFeeRet := by
      rw [hout, sum_eq_weightedSum, hsum, Int.one_mul]
      exact Int.zero_add _
    refine ⟨fun nFee hturn => ?_, fun created hturn => ⟨s.setCoinsRet, ?_⟩⟩
    · split at hturn
      · cases hturn
        exact ⟨by omega, hlevel⟩
      · cases hturn
    · split at hturn
      · cases hturn
      · rename_i henough
        cases hturn
        refine ⟨hspends, ?_, ⟨scriptChange, fun hnil => ?_, fun txout htxout => ?_⟩, hpays _ (not_lt.mp henough)⟩
        · rw [hpaid, ← hs.value]
          dsimp only
          omega
        · rw [hnil] at hpaid
          rw [List.map_nil, List.sum_nil] at hpaid
          omega
        · rcases hparts txout (hout ▸ htxout) with hold | ⟨hscript, hpart⟩
          · exact nomatch hold
          · exact ⟨hscript, le_splitAmount hsplit (by omega) _ hpart⟩

end Rounds

/-! ## The loops -/

/-- The loop of `CreateTransaction` ends, and what it builds is balanced. -/
structure CreationLaw (env : WalletContext) (wtxNew : CTransaction) (vecSend : List (CScript × Int)) : Prop where
  terminates : ∃ r, ∀ fuel, maxStandardTxSize / 1000 < fuel → env.createTransaction wtxNew vecSend fuel = some r
  balanced : ∀ fuel created, env.createTransaction wtxNew vecSend fuel = some (.ok created) →
    ∃ coins nChange scriptChange, Balanced env vecSend created coins nChange scriptChange

/-- The loop of `CreateBurnTransaction` ends, and what it builds destroys the amount or the fee. -/
structure BurnLaw (env : WalletContext) (wtxNew : CTransaction) (nBurnValue : Int) : Prop where
  terminates : ∃ r, ∀ fuel, maxStandardTxSize / 1000 < fuel → env.createBurnTransaction wtxNew nBurnValue fuel = some r
  burns : ∀ fuel created, env.createBurnTransaction wtxNew nBurnValue fuel = some (.ok created) →
    ∃ coins, Burns env (max nBurnValue created.nFeeRet) created coins

section Loops

variable {env : WalletContext} {wtxNew : CTransaction} {vecSend : List (CScript × Int)} {nUnitFee nBurnValue : Int}

/-- The payments have a sum that fits. -/
theorem sumPayments_eq : ∀ {vecSend : List (CScript × Int)} {nValue : Int}, 0 ≤ nValue → (∀ s ∈ vecSend, 0 ≤ s.2) →
    nValue + (vecSend.map (·.2)).sum ≤ int64Max → sumPayments nValue vecSend = .ok (nValue + (vecSend.map (·.2)).sum)
  | [], nValue, _, _, _ => congrArg Except.ok (Int.add_zero nValue).symm
  | s :: vecSend, nValue, hpos, hpay, hfits => by
    obtain ⟨hs, hpay⟩ := List.forall_mem_cons.mp hpay
    rw [List.map_cons, List.sum_cons] at hfits ⊢
    have hrest : 0 ≤ (vecSend.map (·.2)).sum := List.sum_nonneg fun x hx => by
      obtain ⟨s', hs', rfl⟩ := List.mem_map.mp hx
      exact hpay s' hs'
    have hnow : toInt64 (nValue + s.2) = nValue + s.2 := by
      unfold int64Max at hfits
      exact toInt64_eq (by omega) (by omega)
    unfold sumPayments
    rw [rejectIf_neg (by omega), ok_bind, hnow, sumPayments_eq (by omega) hpay (by omega), Int.add_assoc]

/-- The fees that a round can start with. -/
def InLevels (nUnitFee nFee : Int) : Prop := 0 ≤ nFee ∧ nFee ≤ nUnitFee * (maxStandardTxSize / 1000 : Nat)

theorem inLevels_unit (hpos : 0 ≤ nUnitFee) : InLevels nUnitFee nUnitFee := by
  refine ⟨hpos, ?_⟩
  have hmax : ((maxStandardTxSize / 1000 : Nat) : Int) = 250 := rfl
  rw [hmax]
  omega

/-- **A loop that raises the fee** from level to level ends in time. -/
theorem retry_levels {step : Nat → Int → Check (Turn Int Created)} (hpos : 0 ≤ nUnitFee)
    (hstep : ∀ k nFee nFee', InLevels nUnitFee nFee → step k nFee = .ok (.again nFee') →
      nFee < nFee' ∧ nFee' ∈ feeLevels nUnitFee) :
    ∃ r, ∀ fuel, maxStandardTxSize / 1000 < fuel → retry step fuel 0 nUnitFee = some r := by
  have hrank : above (feeLevels nUnitFee) nUnitFee < maxStandardTxSize / 1000 + 1 := by
    have hle := above_le_length (feeLevels nUnitFee) nUnitFee
    unfold feeLevels at hle
    rw [List.length_map, List.length_range] at hle
    exact Nat.lt_succ_of_le hle
  obtain ⟨r, hr⟩ := @retry_isSome Int Created Failure step (InLevels nUnitFee) (above (feeLevels nUnitFee))
    (fun k nFee nFee' hfee hagain => by
      obtain ⟨hlt, hmem⟩ := hstep k nFee nFee' hfee hagain
      exact ⟨le_of_mem_feeLevels hpos hmem, above_lt hmem hlt⟩)
    (maxStandardTxSize / 1000 + 1) 0 nUnitFee (inLevels_unit hpos) hrank
  exact ⟨r, fun fuel hfuel => retry_mono hr hfuel⟩

/-- Either the call fails before the loop, or it is the loop. -/
theorem createTransaction_cases (env : WalletContext) (wtxNew : CTransaction) (vecSend : List (CScript × Int)) :
    (∃ e, ∀ fuel, env.createTransaction wtxNew vecSend fuel = some (.error e)) ∨
    ∃ nValue nUnitFee, sumPayments 0 vecSend = .ok nValue ∧ env.getSafeMinTxFee = .ok nUnitFee ∧
      ∀ fuel, env.createTransaction wtxNew vecSend fuel =
        retry (env.createRound wtxNew vecSend nValue) fuel 0 nUnitFee := by
  unfold WalletContext.createTransaction
  cases sumPayments 0 vecSend with
  | error e => exact .inl ⟨e, fun _ => rfl⟩
  | ok nValue =>
    dsimp only
    by_cases hbad : vecSend = [] ∨ nValue < 0
    · exact .inl ⟨_, fun _ => if_pos hbad⟩
    · cases env.getSafeMinTxFee with
      | error e => exact .inl ⟨e, fun _ => if_neg hbad⟩
      | ok nUnitFee => exact .inr ⟨nValue, nUnitFee, rfl, rfl, fun _ => if_neg hbad⟩

theorem createBurnTransaction_cases (env : WalletContext) (wtxNew : CTransaction) (nBurnValue : Int) :
    (∃ e, ∀ fuel, env.createBurnTransaction wtxNew nBurnValue fuel = some (.error e)) ∨
    ∃ nUnitFee, 0 ≤ nBurnValue ∧ env.getSafeMinTxFee = .ok nUnitFee ∧
      ∀ fuel, env.createBurnTransaction wtxNew nBurnValue fuel =
        retry (env.burnRound wtxNew nBurnValue) fuel 0 nUnitFee := by
  unfold WalletContext.createBurnTransaction
  by_cases hbad : nBurnValue < 0
  · exact .inl ⟨_, fun _ => if_pos hbad⟩
  · cases env.getSafeMinTxFee with
    | error e => exact .inl ⟨e, fun _ => if_neg hbad⟩
    | ok nUnitFee => exact .inr ⟨nUnitFee, not_lt.mp hbad, rfl, fun _ => if_neg hbad⟩

/-- **`CreateTransaction`** ends with a balanced transaction. -/
theorem creationLaw (hselect : env.SelectsCoins) (hpay : ∀ s ∈ vecSend, 0 ≤ s.2)
    (hfits : ∀ nUnitFee, env.getSafeMinTxFee = .ok nUnitFee →
      (vecSend.map (·.2)).sum + nUnitFee * (maxStandardTxSize / 1000 : Nat) + cent ≤ int64Max) :
    CreationLaw env wtxNew vecSend := by
  rcases createTransaction_cases env wtxNew vecSend with ⟨e, he⟩ | ⟨nValue, nUnitFee, hvalue, hunit, hloop⟩
  · exact ⟨⟨_, fun fuel _ => he fuel⟩, fun fuel created h => by rw [he] at h; cases h⟩
  · have hpos := chainSafeMinFee_nonneg hunit
    have hfits := hfits nUnitFee hunit
    have hsum : 0 ≤ (vecSend.map (·.2)).sum := List.sum_nonneg fun x hx => by
      obtain ⟨s, hs, rfl⟩ := List.mem_map.mp hx
      exact hpay s hs
    have hmax : 0 ≤ nUnitFee * (maxStandardTxSize / 1000 : Nat) := Int.mul_nonneg hpos (by omega)
    rw [sumPayments_eq le_rfl hpay (by unfold cent at hfits; omega), Int.zero_add] at hvalue
    have hvalue := (Except.ok.inj hvalue).symm
    have hround : ∀ k nFee turn, InLevels nUnitFee nFee → env.createRound wtxNew vecSend nValue k nFee = .ok turn → _ :=
      fun k nFee turn hfee => createRound_spec hunit hselect hvalue (hvalue ▸ hsum) hfee.1
        (by have := hfee.2; omega)
    refine ⟨?_, fun fuel created h => ?_⟩
    · obtain ⟨r, hr⟩ := retry_levels hpos fun k nFee nFee' hfee hagain => (hround k nFee _ hfee hagain).1 nFee' rfl
      exact ⟨r, fun fuel hfuel => (hloop fuel).trans (hr fuel hfuel)⟩
    · rw [hloop] at h
      obtain ⟨k, nFee, hfee, hdone⟩ := retry_ok (InLevels nUnitFee) (fun k nFee nFee' hfee hagain =>
        le_of_mem_feeLevels hpos ((hround k nFee _ hfee hagain).1 nFee' rfl).2) (inLevels_unit hpos) h
      exact (hround k nFee _ hfee hdone).2 created rfl

/-- **`CreateBurnTransaction`** ends with a transaction that destroys the amount or the fee. -/
theorem burnLaw (hselect : env.SelectsCoins) (hfits : ∀ nUnitFee, env.getSafeMinTxFee = .ok nUnitFee →
      max nBurnValue (nUnitFee * (maxStandardTxSize / 1000 : Nat)) + minTxOutAmount env.cUnit + cent ≤ int64Max) :
    BurnLaw env wtxNew nBurnValue := by
  rcases createBurnTransaction_cases env wtxNew nBurnValue with ⟨e, he⟩ | ⟨nUnitFee, hburn, hunit, hloop⟩
  · exact ⟨⟨_, fun fuel _ => he fuel⟩, fun fuel created h => by rw [he] at h; cases h⟩
  · have hpos := chainSafeMinFee_nonneg hunit
    have hfits := hfits nUnitFee hunit
    have hround : ∀ k nFee turn, InLevels nUnitFee nFee → env.burnRound wtxNew nBurnValue k nFee = .ok turn → _ :=
      fun k nFee turn hfee => burnRound_spec hunit hselect hburn
        ((Int.add_le_add_right (Int.add_le_add_right (max_le_max le_rfl hfee.2) _) _).trans hfits)
    refine ⟨?_, fun fuel created h => ?_⟩
    · obtain ⟨r, hr⟩ := retry_levels hpos fun k nFee nFee' hfee hagain => (hround k nFee _ hfee hagain).1 nFee' rfl
      exact ⟨r, fun fuel hfuel => (hloop fuel).trans (hr fuel hfuel)⟩
    · rw [hloop] at h
      obtain ⟨k, nFee, hfee, hdone⟩ := retry_ok (InLevels nUnitFee) (fun k nFee nFee' hfee hagain =>
        le_of_mem_feeLevels hpos ((hround k nFee _ hfee hagain).1 nFee' rfl).2) (inLevels_unit hpos) h
      exact (hround k nFee _ hfee hdone).2 created rfl

end Loops

/-! ## Samples -/

/-- A wallet of NuBits with these outputs, and a fee of a cent. -/
def walletOf (vCoins : List COutput) : WalletContext where
  cUnit := unitCurrency
  mapBlockIndex := fallingFees 3
  bestChain := (fallingFees 3).chain 4
  selectCoins _ nTargetValue := Morcochain.selectCoins (fun _ => Choices.sample) false vCoins nTargetValue
  signSignature _ _ _ := some []
  reservedKey := some default
  rand _ _ := 0

theorem walletOf_selectsCoins {vCoins : List COutput} (hdistinct : (vCoins.map (·.coin)).Nodup)
    (hnonneg : ∀ output ∈ vCoins, 0 ≤ output.coin.nValue) (hfits : (vCoins.map (·.coin.nValue)).sum ≤ int64Max)
    (hbelow : ∀ output ∈ vCoins, output.coin.nValue < int64Max) : (walletOf vCoins).SelectsCoins :=
  fun _ nTargetValue s htarget hmax (hs : Morcochain.selectCoins (fun _ => Choices.sample) false vCoins nTargetValue = some s) =>
    selectCoins_selected ⟨htarget, hmax, hdistinct, hnonneg, hfits⟩ hbelow hs

/-- A payment to a key. -/
def samplePayment (nValue : Int) : CScript × Int := (setDestination (.keyID default), nValue)

example : (((walletOf sampleOutputs).createTransaction {} [samplePayment 20000] 2).bind (·.toOption)).map
    (fun created => (created.wtxNew.vout.map (·.nValue), created.nFeeRet)) = some ([29900, 20000], 100) := by
  decide +kernel

end Morcochain
