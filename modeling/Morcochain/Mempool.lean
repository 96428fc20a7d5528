import Morcochain.CheckInputs
import Morcochain.CheckTransaction

/-!
# The memory pool

`CTxMemPool` and the acceptance of loose transactions (`main.cpp`). A transaction that is not accepted fails for one of
two reasons, which the callers treat differently: the transactions that its inputs name are not there, or anything else.

* `accept_of_contains` : a transaction that is in the pool is refused, and never for missing inputs.
* `accept_missingInputs` : a transaction is refused for missing inputs only when they are missing.
* `accept_eq_ok` : what an accepted transaction does to the pool.
-/

set_option autoImplicit false

namespace Morcochain

open Guard

/-! ## Standard transactions -/

/-- The checks of one input in `CTransaction::IsStandard`. -/
def checkStandardTxIn (_ : Unit) (txin : CTxIn) : Except String Unit := do
  rejectIf (txin.scriptSig.length > 500) "scriptsig-size"
  rejectIf (!isPushOnly txin.scriptSig) "scriptsig-not-pushonly"

/-- The checks of one output in `CTransaction::IsStandard`, with the number of data outputs before it. -/
def checkStandardTxOut (nDataOut : Nat) (txout : CTxOut) : Except String Nat :=
  match isStandardScript txout.scriptPubKey with
  | none => .error "scriptpubkey"
  | some whichType => .ok (if whichType = .nullData then nDataOut + 1 else nDataOut)

/-- `CTransaction::IsStandard`, with the reason when it returns false. -/
def CTransaction.isStandard (tx : CTransaction) (nBestHeight nAdjustedTime : Int) : Except String Unit := do
  rejectIf (tx.nVersion > 1 ∨ tx.nVersion < 1) "version"
  rejectIf (!tx.isFinal nBestHeight nAdjustedTime) "not-final"
  rejectIf (tx.serializeSize ≥ maxStandardTxSize) "tx-size"
  tx.vin.foldlM checkStandardTxIn ()
  let nDataOut ← tx.vout.foldlM checkStandardTxOut 0
  rejectIf (nDataOut > 1) "multi-op-return"

/-- The number of arguments that an input of a standard transaction leaves on the stack, given the stack after its
script; `none` where the input is not standard. -/
def expectedArgs (prevScript : CScript) (stack : Stack) : Option Int := do
  let (whichType, vSolutions) ← solver prevScript
  let nArgsExpected := scriptSigArgsExpected whichType vSolutions
  if nArgsExpected < 0 then none
  if whichType = .scripthash then
    let subscript ← stack.head?
    let (whichType2, vSolutions2) ← solver subscript
    if whichType2 = .scripthash then none
    let tmpExpected := scriptSigArgsExpected whichType2 vSolutions2
    if tmpExpected < 0 then none
    return nArgsExpected + tmpExpected
  return nArgsExpected

/-- The check of one input in `CTransaction::AreInputsStandard`. -/
def CTransaction.isInputStandard (tx : CTransaction) (cr : Crypto) (view : CCoinsView) (nIn : Nat) (txin : CTxIn) :
    Check Bool := do
  let (_, prev) ← getOutputFor txin view
  let fStandard : Option Bool := do
    let stack ← evalScript ⟨cr, tx, nIn, {}, 0⟩ [] txin.scriptSig
    let nArgsExpected ← expectedArgs prev.scriptPubKey stack
    return decide ((stack.length : Int) = nArgsExpected)
  return fStandard.getD false

/-- `CTransaction::AreInputsStandard`. -/
def CTransaction.areInputsStandard (tx : CTransaction) (cr : Crypto) (view : CCoinsView) : Check Bool :=
  if tx.hasNoInputs then .ok true
  else tx.vin.zipIdx.foldlM (fun f i => if f then tx.isInputStandard cr view i.2 i.1 else .ok false) true

/-! ## The pool -/

/-- `CInPoint`, with the hash of the transaction. -/
structure CInPoint where
  ptx : Uint256
  n : Nat
deriving DecidableEq, Repr

/-- `CTxMemPool`. -/
structure CTxMemPool where
  mapTx : Uint256 → Option CTransaction
  mapNextTx : COutPoint → Option CInPoint

namespace CTxMemPool

/-- The pool without transactions. -/
def empty : CTxMemPool := ⟨fun _ => none, fun _ => none⟩

/-- `CTxMemPool::exists`. -/
def contains (pool : CTxMemPool) (hash : Uint256) : Bool := (pool.mapTx hash).isSome

/-- One step of the loop of `CTxMemPool::addUnchecked` over the inputs. -/
def setNextTx (hash : Uint256) (mapNextTx : COutPoint → Option CInPoint) (txin : CTxIn × Nat) :
    COutPoint → Option CInPoint :=
  fun p => if p = txin.1.prevout then some ⟨hash, txin.2⟩ else mapNextTx p

/-- `CTxMemPool::addUnchecked`. -/
def addUnchecked (pool : CTxMemPool) (hash : Uint256) (tx : CTransaction) : CTxMemPool where
  mapTx h := if h = hash then some tx else pool.mapTx h
  mapNextTx := tx.vin.zipIdx.foldl (setNextTx hash) pool.mapNextTx

end CTxMemPool

/-- What the acceptance of loose transactions reads of the node. -/
structure ChainTip where
  cfg : Settings
  cr : Crypto
  pcoinsTip : CCoinsView
  mapBlockIndex : BlockMap
  pindexBest : Option Uint256
  nBestHeight : Int
  nAdjustedTime : Int

namespace ChainTip

variable (tip : ChainTip)

/-- The chain that ends at `pindexBest`. -/
def bestChain : List CBlockIndex := (tip.pindexBest.map tip.mapBlockIndex.chain).getD []

/-- The chain that ends at the best block of the view. -/
def viewChain : List CBlockIndex := (tip.pcoinsTip.bestBlock.map tip.mapBlockIndex.chain).getD []

/-- `CCoinsViewMemPool`: the coins of the chain and, behind them, the transactions of the pool. -/
def viewMemPool (pool : CTxMemPool) : CCoinsView where
  getCoins txid :=
    match tip.pcoinsTip.getCoins txid with
    | some coins => some coins
    | none => (pool.mapTx txid).map (CCoins.ofTx · mempoolHeight)
  bestBlock := tip.pcoinsTip.bestBlock

/-- The transactions that the inputs name are there. -/
def InputsPresent (pool : CTxMemPool) (tx : CTransaction) : Prop :=
  ∀ txin ∈ tx.vin, (tip.viewMemPool pool).haveCoins txin.prevout.hash = true

instance (pool : CTxMemPool) (tx : CTransaction) : Decidable (tip.InputsPresent pool tx) :=
  inferInstanceAs (Decidable (∀ txin ∈ tx.vin, _))

end ChainTip

/-- Why a transaction is not accepted; `missingInputs` is the flag `*pfMissingInputs`. -/
inductive AcceptFailure where
  | missingInputs
  | failed (e : Failure)
deriving DecidableEq, Repr

/-- A routine whose failures are other than missing inputs. -/
def checked {α : Type} (x : Check α) : Except AcceptFailure α := x.mapError .failed

/-- `return false` when `c` holds, with neither a message nor the state. -/
abbrev refuseIf (c : Prop) [Decidable c] : Check Unit := errorIf c ""

section Accept

variable (tip : ChainTip) (pool : CTxMemPool) (tx : CTransaction)

/-- Nonstandard transactions are refused, unless the node is on the test network. -/
def checkStandard : Check Unit :=
  if tip.cfg.fTestNet then .ok ()
  else
    match tx.isStandard tip.nBestHeight tip.nAdjustedTime with
    | .error strNonStd => .error (.error s!"CTxMemPool::accept() : nonstandard transaction ({strNonStd})")
    | .ok () => .ok ()

/-- The checks of `CTxMemPool::accept` before it looks for coins. -/
def acceptLoose : Check Unit := do
  tx.checkTransaction
  dosIf tx.isCoinBase 100 "CTxMemPool::accept() : coinbase as individual tx"
  dosIf tx.isCoinStake 100 "CTxMemPool::accept() : coinstake as individual tx"
  dosIf tx.isCustodianGrant 100 "CTxMemPool::accept() : currency coinbase as individual tx"
  errorIf (tx.nLockTime > 2147483647) "CTxMemPool::accept() : not accepting nLockTime beyond 2038 yet"
  checkStandard tip tx
  refuseIf (pool.contains (tx.getHash tip.cr))
  refuseIf (∃ txin ∈ tx.vin, (pool.mapNextTx txin.prevout).isSome)

/-- The checks of `CTxMemPool::accept` on coins that are there. -/
def acceptCoins : Check Unit := do
  let view := tip.viewMemPool pool
  dosIf (!tx.haveInputs view) 0 "CTxMemPool::accept() : inputs already spent"
  errorIf (!(← tx.areInputsSameUnit view)) "CTxMemPool::accept() : cross unit transaction"
  errorIf (!(← tx.areInputsStandard tip.cr view)) "CTxMemPool::accept() : nonstandard transaction input"
  let nFees := (← tx.getValueIn view) - (← tx.getValueOut)
  let txMinFee ← tx.getMinFee tip.bestChain tx.serializeSize
  errorIf (nFees < txMinFee ∧ !tx.isUnpark) "CTxMemPool::accept() : not enough fees"
  let _ ← checkInputs tip.cfg tip.cr tx view tip.viewChain true { p2sh := true, strictenc := true } false

/-- `CTxMemPool::accept`: the pool after an accepted transaction. -/
def accept (fCheckInputs : Bool) : Except AcceptFailure CTxMemPool := do
  let hash := tx.getHash tip.cr
  checked (acceptLoose tip pool tx)
  if fCheckInputs then
    checked (refuseIf ((tip.viewMemPool pool).haveCoins hash))
    rejectIf (¬ tip.InputsPresent pool tx) .missingInputs
    checked (acceptCoins tip pool tx)
  return pool.addUnchecked hash tx

/-- A `std::runtime_error` is made an abort. -/
def AcceptFailure.caught : AcceptFailure → AcceptFailure
  | .failed (.exception what) => .failed (.abort s!"System error: {what}")
  | e => e

/-- `CTransaction::AcceptToMemoryPool`. -/
def acceptToMemoryPool (fCheckInputs : Bool) : Except AcceptFailure CTxMemPool :=
  (accept tip pool tx fCheckInputs).mapError AcceptFailure.caught

end Accept

/-! ## What acceptance means -/

section Meaning

variable {tip : ChainTip} {pool : CTxMemPool} {tx : CTransaction} {f : Bool}

theorem checked_eq_ok {α : Type} {x : Check α} {a : α} : checked x = .ok a ↔ x = .ok a := by
  cases x <;> simp [checked, Except.mapError]

theorem checked_ne_missingInputs {α : Type} (x : Check α) : checked x ≠ .error .missingInputs := by
  cases x <;> simp [checked, Except.mapError]

theorem acceptToMemoryPool_eq_ok {pool' : CTxMemPool} :
    acceptToMemoryPool tip pool tx f = .ok pool' ↔ accept tip pool tx f = .ok pool' := by
  unfold acceptToMemoryPool
  cases accept tip pool tx f <;> simp [Except.mapError]

/-- An accepted transaction passed all the checks before it looked for coins, and is added to the pool. -/
theorem accept_eq_ok {pool' : CTxMemPool} (h : accept tip pool tx f = .ok pool') :
    acceptLoose tip pool tx = .ok () ∧ pool' = pool.addUnchecked (tx.getHash tip.cr) tx := by
  unfold accept at h
  simp only [bind_eq_ok] at h
  obtain ⟨_, hloose, h⟩ := h
  refine ⟨checked_eq_ok.mp hloose, ?_⟩
  split at h
  · simp only [bind_eq_ok] at h
    obtain ⟨_, -, _, -, _, -, h⟩ := h
    exact (Except.ok.inj h).symm
  · exact (Except.ok.inj h).symm

/-- The checks before the look for coins refuse a transaction that is in the pool. -/
theorem acceptLoose_of_contains (h : pool.contains (tx.getHash tip.cr) = true) : acceptLoose tip pool tx ≠ .ok () := by
  intro hok
  unfold acceptLoose at hok
  simp only [bind_eq_ok] at hok
  obtain ⟨_, -, _, -, _, -, _, -, _, -, _, -, _, hin, -⟩ := hok
  exact rejectIf_eq_ok.mp hin h

/-- **A transaction that is in the pool is refused**, and not for missing inputs. -/
theorem accept_of_contains (h : pool.contains (tx.getHash tip.cr) = true) :
    ∃ e, accept tip pool tx f = .error (.failed e) := by
  unfold accept
  cases hl : acceptLoose tip pool tx with
  | error e => exact ⟨e, rfl⟩
  | ok u => exact absurd hl (acceptLoose_of_contains h)

/-- A transaction is refused for missing inputs only when they are missing. -/
theorem accept_missingInputs (h : accept tip pool tx f = .error .missingInputs) : ¬ tip.InputsPresent pool tx := by
  unfold accept at h
  rcases bind_eq_error.mp h with h | ⟨_, -, h⟩
  · exact absurd h (checked_ne_missingInputs _)
  · split at h
    · rcases bind_eq_error.mp h with h | ⟨_, -, h⟩
      · exact absurd h (checked_ne_missingInputs _)
      · rcases bind_eq_error.mp h with h | ⟨_, -, h⟩
        · exact (rejectIf_eq_error.mp h).1
        · rcases bind_eq_error.mp h with h | ⟨_, -, h⟩
          · exact absurd h (checked_ne_missingInputs _)
          · cases h
    · cases h

theorem contains_addUnchecked (hash h : Uint256) :
    (pool.addUnchecked hash tx).contains h = (decide (h = hash) || pool.contains h) := by
  unfold CTxMemPool.contains CTxMemPool.addUnchecked
  by_cases hh : h = hash <;> simp [hh]

end Meaning

end Morcochain
