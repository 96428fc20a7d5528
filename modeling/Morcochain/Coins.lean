import Morcochain.BlockIndex

/-!
# Coins

`CCoins`, the views of the unspent outputs and the operations of a transaction on a view (`main.h`, `main.cpp`). A view
is a map from transactions to coins with the block it stands at.

* `haveInputs_iff` : what `HaveInputs` means for each input.
-/

set_option autoImplicit false

namespace Morcochain

open Guard

/-! ## Coins of one transaction -/

/-- `CCoins`. -/
structure CCoins where
  fCoinBase : Bool := false
  vout : List CTxOut := []
  nHeight : Int := 0
  nVersion : Int := 0
  fCoinStake : Bool := false
  nTime : Nat := 0
  cUnit : CUnit := unitUnknown
deriving DecidableEq, Repr

/-- `CTxInUndo`. -/
structure CTxInUndo where
  txout : CTxOut := {}
  fCoinBase : Bool := false
  nHeight : Int := 0
  nVersion : Int := 0
  fCoinStake : Bool := false
  nTime : Nat := 0
  cUnit : CUnit := unitUnknown
deriving DecidableEq, Repr

namespace CCoins

/-- `CCoins(const CTransaction&, int)`. -/
def ofTx (tx : CTransaction) (nHeight : Int) : CCoins :=
  { fCoinBase := tx.isCoinBase, vout := tx.vout, nHeight := nHeight, nVersion := tx.nVersion
    fCoinStake := tx.isCoinStake, nTime := tx.nTime, cUnit := tx.cUnit }

/-- The available output at a position. -/
def output? (coins : CCoins) (n : Nat) : Option CTxOut := coins.vout[n]?.filter (! ·.isNull)

/-- `CCoins::IsAvailable`. -/
def isAvailable (coins : CCoins) (n : Nat) : Bool := (coins.output? n).isSome

/-- `CCoins::IsPruned`. -/
def isPruned (coins : CCoins) : Bool := coins.vout.all (·.isNull)

/-- `CCoins::Cleanup`. -/
def cleanup (coins : CCoins) : CCoins := { coins with vout := (coins.vout.reverse.dropWhile (·.isNull)).reverse }

/-- The outputs without the one at a position. -/
def spent (coins : CCoins) (n : Nat) : CCoins := cleanup { coins with vout := coins.vout.set n CTxOut.null }

/-- `CCoins::Spend`: the coins left and the undo information. -/
def spend (coins : CCoins) (n : Nat) : Option (CCoins × CTxInUndo) :=
  (coins.output? n).map fun txout =>
    let left := coins.spent n
    (left,
      if left.vout = [] then
        { txout := txout, nHeight := coins.nHeight, fCoinBase := coins.fCoinBase, nVersion := coins.nVersion
          fCoinStake := coins.fCoinStake, nTime := coins.nTime, cUnit := coins.cUnit }
      else { txout := txout })

end CCoins

/-! ## Views -/

/-- A `CCoinsView`. -/
structure CCoinsView where
  getCoins : Uint256 → Option CCoins
  bestBlock : Option Uint256

namespace CCoinsView

/-- `CCoinsView::HaveCoins`. -/
def haveCoins (view : CCoinsView) (txid : Uint256) : Bool := (view.getCoins txid).isSome

/-- `CCoinsView::SetCoins`. -/
def setCoins (view : CCoinsView) (txid : Uint256) (coins : CCoins) : CCoinsView :=
  { view with getCoins := fun h => if h = txid then some coins else view.getCoins h }

/-- `CCoinsView::SetBestBlock`. -/
def setBestBlock (view : CCoinsView) (pindex : Option Uint256) : CCoinsView := { view with bestBlock := pindex }

/-- The coins and the available output that an outpoint names. -/
def prevout (view : CCoinsView) (out : COutPoint) : Option (CCoins × CTxOut) :=
  (view.getCoins out.hash).bind (fun coins => (coins.output? out.n).map (coins, ·))

theorem getCoins_setCoins (view : CCoinsView) (txid h : Uint256) (coins : CCoins) :
    (view.setCoins txid coins).getCoins h = if h = txid then some coins else view.getCoins h := rfl

end CCoinsView

/-! ## Transactions on a view -/

namespace CTransaction

/-- The transaction spends no outputs of other transactions. -/
def hasNoInputs (tx : CTransaction) : Bool := tx.isCoinBase || tx.isCustodianGrant

/-- `CTransaction::GetOutputFor`, with the coins it is taken from. -/
def getOutputFor (txin : CTxIn) (view : CCoinsView) : Check (CCoins × CTxOut) :=
  match view.prevout txin.prevout with
  | none => .error (.assertion "GetOutputFor")
  | some c => .ok c

/-- `CTransaction::HaveInputs`. -/
def haveInputs (tx : CTransaction) (view : CCoinsView) : Bool :=
  tx.hasNoInputs ||
    (tx.vin.all (fun txin => view.haveCoins txin.prevout.hash) &&
      tx.vin.all (fun txin => (view.getCoins txin.prevout.hash).any (·.isAvailable txin.prevout.n)))

/-- The sum of the values of inputs. -/
def sumIn (view : CCoinsView) (nResult : Int) (txin : CTxIn) : Check Int := do
  return nResult + (← getOutputFor txin view).2.nValue

/-- `CTransaction::GetValueIn`. -/
def getValueIn (tx : CTransaction) (view : CCoinsView) : Check Int :=
  if tx.hasNoInputs then .ok 0 else tx.vin.foldlM (sumIn view) 0

/-- The signature operations of one input, if it spends a script hash. -/
def sumP2SHSigOps (view : CCoinsView) (nSigOps : Nat) (txin : CTxIn) : Check Nat := do
  let (_, prevout) ← getOutputFor txin view
  return nSigOps + if isPayToScriptHash prevout.scriptPubKey then getP2SHScriptSigOpCount prevout.scriptPubKey txin.scriptSig else 0

/-- `CTransaction::GetP2SHSigOpCount`. -/
def getP2SHSigOpCount (tx : CTransaction) (view : CCoinsView) : Check Nat :=
  if tx.hasNoInputs then .ok 0 else tx.vin.foldlM (sumP2SHSigOps view) 0

/-- The check of one input in `CTransaction::AreInputsSameUnit`: the answer so far, and the input. -/
def inputSameUnit (tx : CTransaction) (view : CCoinsView) (f : Bool) (txin : CTxIn) : Check Bool :=
  if f then
    match view.getCoins txin.prevout.hash with
    | none => .error (.assertion "GetCoins")
    | some coins =>
      if !coins.isAvailable txin.prevout.n then
        .error (.exception "CTransaction::AreInputsSameUnit() : prevout not found")
      else .ok (coins.cUnit = tx.cUnit)
  else .ok false

/-- `CTransaction::AreInputsSameUnit`. -/
def areInputsSameUnit (tx : CTransaction) (view : CCoinsView) : Check Bool := tx.vin.foldlM (tx.inputSameUnit view) true

/-- Spend one input. -/
def spendInput (s : CCoinsView × List CTxInUndo) (txin : CTxIn) : Check (CCoinsView × List CTxInUndo) :=
  match (s.1.getCoins txin.prevout.hash).bind (·.spend txin.prevout.n) with
  | none => .error (.assertion "coins.Spend")
  | some (coins, undo) => .ok (s.1.setCoins txin.prevout.hash coins, s.2 ++ [undo])

/-- Spend the inputs one after the other. -/
def spendInputs (tx : CTransaction) (view : CCoinsView) : Check (CCoinsView × List CTxInUndo) :=
  if tx.hasNoInputs then .ok (view, []) else tx.vin.foldlM spendInput (view, [])

/-- `CTransaction::UpdateCoins`: the view after the transaction, and the undo information. -/
def updateCoins (tx : CTransaction) (view : CCoinsView) (nHeight : Int) (txhash : Uint256) :
    Check (CCoinsView × List CTxInUndo) := do
  let (view, txundo) ← tx.spendInputs view
  return (view.setCoins txhash (CCoins.ofTx tx nHeight), txundo)

end CTransaction

/-! ## What the operations mean -/

section Meaning

variable {tx : CTransaction} {view : CCoinsView}

theorem isAvailable_iff {coins : CCoins} {n : Nat} :
    coins.isAvailable n = true ↔ ∃ txout, coins.output? n = some txout :=
  Option.isSome_iff_exists

theorem prevout_eq_some {out : COutPoint} {c : CCoins × CTxOut} :
    view.prevout out = some c ↔ view.getCoins out.hash = some c.1 ∧ c.1.output? out.n = some c.2 := by
  unfold CCoinsView.prevout
  cases view.getCoins out.hash with
  | none => simp
  | some coins =>
    rw [Option.bind_some, Option.map_eq_some_iff, Option.some.injEq]
    constructor
    · rintro ⟨txout, h, rfl⟩
      exact ⟨rfl, h⟩
    · rintro ⟨rfl, h⟩
      exact ⟨c.2, h, rfl⟩

theorem getOutputFor_eq_ok {txin : CTxIn} {c : CCoins × CTxOut} :
    CTransaction.getOutputFor txin view = .ok c ↔ view.prevout txin.prevout = some c := by
  unfold CTransaction.getOutputFor
  cases view.prevout txin.prevout <;> simp

/-- The inputs are there when each of them names an available output. -/
theorem haveInputs_iff : tx.haveInputs view = true ↔
    tx.hasNoInputs = true ∨ ∀ txin ∈ tx.vin, ∃ c, view.prevout txin.prevout = some c := by
  unfold CTransaction.haveInputs
  rw [Bool.or_eq_true, Bool.and_eq_true, List.all_eq_true, List.all_eq_true]
  refine or_congr_right ⟨fun h txin htxin => ?_, fun h => ⟨fun txin htxin => ?_, fun txin htxin => ?_⟩⟩
  · obtain ⟨coins, hcoins, hav⟩ : ∃ coins, view.getCoins txin.prevout.hash = some coins ∧
        coins.isAvailable txin.prevout.n = true := by
      have hany := h.2 txin htxin
      cases hc : view.getCoins txin.prevout.hash with
      | none =>
        rw [hc] at hany
        cases hany
      | some coins =>
        rw [hc] at hany
        exact ⟨coins, rfl, hany⟩
    obtain ⟨txout, htxout⟩ := isAvailable_iff.mp hav
    exact ⟨(coins, txout), prevout_eq_some.mpr ⟨hcoins, htxout⟩⟩
  · obtain ⟨c, hc⟩ := h txin htxin
    exact Option.isSome_iff_exists.mpr ⟨c.1, (prevout_eq_some.mp hc).1⟩
  · obtain ⟨c, hc⟩ := h txin htxin
    obtain ⟨hcoins, hout⟩ := prevout_eq_some.mp hc
    rw [hcoins]
    exact isAvailable_iff.mpr ⟨c.2, hout⟩

end Meaning

end Morcochain
