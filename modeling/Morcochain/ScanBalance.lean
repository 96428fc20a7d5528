import Morcochain.Lib.Stock
import Morcochain.Address
import Morcochain.SafeFee
import Morcochain.Unspent

/-!
# Dividend balances

`GetAddressBalances` (`scanbalance.cpp`): the balances of the addresses of shares at a time in the past, from a scan
over the blocks of the main chain. The outputs of transactions are a stock, and the balances its tally.

* `scanTransaction_eq` : **scanning a transaction is a tally of its moves**.
* `Backed.spent` : what the transactions of a block need is in the stock.
-/

set_option autoImplicit false

namespace Morcochain

open Guard Stock

/-! ## The scan -/

/-- `BalanceMap`. -/
abbrev BalanceMap := CBitcoinAddress → Option Int

/-- `CBitcoinAddress(dest, 'S')` of the destination of a script; without one, `dest` stays `CNoDestination`. -/
def shareAddress (env : NodeContext) (scriptPubKey : CScript) : CBitcoinAddress :=
  (CBitcoinAddress.ofDestination env.cfg.fTestNet ((extractDestination env.cr scriptPubKey).getD .none) unitShare).getD {}

namespace ChainState

variable (s : ChainState) (env : NodeContext)

/-- The output that an input spends, read with the tx index. -/
def readPrevOut (prevout : COutPoint) : Check (CUnit × CTxOut) :=
  match s.txIndex prevout.hash with
  | none => .error (.exception "tx missing in tx index in ScanTransactionInputs")
  | some record =>
    if record.tx.getHash env.cr ≠ prevout.hash then .error (.exception "txid mismatch in ScanTransactionInputs")
    else
      match record.tx.vout[prevout.n]? with
      | none => .error (.exception "no such output")
      | some prevOut => .ok (record.tx.cUnit, prevOut)

/-- One input of `ScanTransactionInputs`. -/
def scanInput (mapBalance : BalanceMap) (txi : CTxIn) : Check BalanceMap := do
  let output ← s.readPrevOut env txi.prevout
  let prevOut := output.2
  let addr := shareAddress env prevOut.scriptPubKey
  if prevOut.nValue > 0 then
    match mapBalance addr with
    | none => .error (.exception "Missing input address")
    | some balance =>
      if prevOut.nValue > balance then .error (.exception "Input address would have negative balance")
      else if balance - prevOut.nValue = 0 then return Function.update mapBalance addr none
      else return Function.update mapBalance addr (some (balance - prevOut.nValue))
  else return mapBalance

/-- `ScanTransactionInputs`. -/
def scanTransactionInputs (tx : CTransaction) (mapBalance : BalanceMap) : Check BalanceMap :=
  if tx.isCoinBase || tx.isCustodianGrant then .ok mapBalance else tx.vin.foldlM (s.scanInput env) mapBalance

/-- `ScanTransactionOutputs`. -/
def scanTransactionOutputs (tx : CTransaction) (mapBalance : BalanceMap) : BalanceMap :=
  tx.vout.foldl (fun mapBalance txo =>
    if txo.nValue > 0 ∧ !txo.scriptPubKey.isEmpty then
      let addr := shareAddress env txo.scriptPubKey
      Function.update mapBalance addr (some ((mapBalance addr).getD 0 + txo.nValue))
    else mapBalance) mapBalance

/-- A transaction of the scan. -/
def scanTransaction (mapBalance : BalanceMap) (tx : CTransaction) : Check BalanceMap := do
  return scanTransactionOutputs env tx (← s.scanTransactionInputs env tx mapBalance)

/-- `GetAddressBalances`. The walk follows the successors, and the block of an entry that cannot be read is an empty
block. -/
def getAddressBalances (fTxIndex : Bool) (cutoffTime : Nat) (mapBalance : BalanceMap) : Check BalanceMap := do
  rejectIf (fTxIndex = false) (.exception "Transaction index is required to get balance at a particular time")
  match s.mapBlockIndex.find env.cfg.hashGenesisBlock, s.bestIndex with
  | none, _ => .error (.exception "No genesis block.")
  | some _, none => .error (.exception "No best block chain.")
  | some pblk0, some pblk1 =>
    rejectIf (cutoffTime > pblk1.nTime) (.exception "Cutoff date later than most recent block.")
    let scanned := (s.mapBlockIndex.walkNext (pblk1.nHeight + 1) (some pblk0.phashBlock)).takeWhile fun pblk =>
      pblk.phashBlock ≠ pblk1.phashBlock ∧ pblk.nTime < cutoffTime
    scanned.foldlM (fun mapBalance pblk =>
      ((s.readFromDisk env pblk).getD {}).vtx.foldlM (s.scanTransaction env) mapBalance) mapBalance

end ChainState

/-! ## Outputs as a stock -/

/-- The outputs of a transaction with their outpoints, and the unit of the transaction. -/
def CTransaction.outputs (cr : Crypto) (tx : CTransaction) : List (COutPoint × CUnit × CTxOut) :=
  tx.vout.mapIdx fun n txout => (⟨tx.getHash cr, n⟩, tx.cUnit, txout)

/-- What a transaction takes from the unspent outputs, and what it adds to them. -/
def CTransaction.moves (cr : Crypto) (tx : CTransaction) : List (Move COutPoint (CUnit × CTxOut)) :=
  (if tx.hasNoInputs then [] else tx.vin.map fun txin => .leave txin.prevout) ++
    (tx.outputs cr).map fun e => .enter e.1 e.2

/-- The moves of transactions, one after the other. -/
def movesOf (cr : Crypto) (txs : List CTransaction) : List (Move COutPoint (CUnit × CTxOut)) :=
  txs.flatMap (CTransaction.moves cr)

/-- The outputs that are created and not spent by transactions. -/
def unspentOutputs (cr : Crypto) (txs : List CTransaction) : List (COutPoint × CUnit × CTxOut) := stock (movesOf cr txs)

/-- The value of an output of shares to a destination. -/
def shareValue (cr : Crypto) (dest : CTxDestination) (output : CUnit × CTxOut) : Int :=
  if output.1 = unitShare ∧ extractDestination cr output.2.scriptPubKey = some dest then output.2.nValue else 0

/-- The shares at a destination after some transactions. -/
def shareBalance (cr : Crypto) (txs : List CTransaction) (dest : CTxDestination) : Int :=
  total (shareValue cr dest) (unspentOutputs cr txs)

/-- The unspent outputs that are worth something and have a destination are all shares. -/
def OnlyShares (cr : Crypto) (txs : List CTransaction) : Prop :=
  ∀ e ∈ unspentOutputs cr txs, 0 < e.2.2.nValue → (extractDestination cr e.2.2.scriptPubKey).isSome = true →
    e.2.1 = unitShare

/-- The value of an output whose script is empty. -/
def emptyScriptValue (output : CUnit × CTxOut) : Int := if output.2.scriptPubKey = [] then output.2.nValue else 0

/-- The value of an output without a destination. -/
def undirectedValue (cr : Crypto) (output : CUnit × CTxOut) : Int :=
  if extractDestination cr output.2.scriptPubKey = none then output.2.nValue else 0

/-- At every moment, the outputs with an empty script that were created so far are worth no more than what is unspent
and has no destination. -/
def EmptyScriptsCovered (cr : Crypto) (txs : List CTransaction) : Prop :=
  ∀ before, before <+: movesOf cr txs →
    total emptyScriptValue (entered before) ≤ total (undirectedValue cr) (stock before)

section Scan

variable {s : ChainState} {env : NodeContext}

/-- The amount of an output that the scan looks at. -/
def scannedAmount (output : CUnit × CTxOut) : Int := if 0 < output.2.nValue then output.2.nValue else 0

/-- The tally of the scan. -/
def ChainState.scanMove (s : ChainState) (env : NodeContext) :
    BalanceMap → Move COutPoint (CUnit × CTxOut) → Check BalanceMap :=
  tallyMove (fun output => shareAddress env output.2.scriptPubKey) scannedAmount
    (fun output => !output.2.scriptPubKey.isEmpty) (s.readPrevOut env)
    (fun _ => .exception "Missing input address") fun _ => .exception "Input address would have negative balance"

theorem scanInput_eq (mapBalance : BalanceMap) (txi : CTxIn) :
    s.scanInput env mapBalance txi = s.scanMove env mapBalance (.leave txi.prevout) := by
  unfold ChainState.scanInput
  show (s.readPrevOut env txi.prevout >>= _) = (s.readPrevOut env txi.prevout >>= _)
  congr 1
  funext output
  unfold scannedAmount debit
  by_cases hpos : 0 < output.2.nValue
  · rw [if_pos hpos, if_pos hpos, if_pos hpos]
    cases mapBalance (shareAddress env output.2.scriptPubKey) with
    | none => rfl
    | some balance =>
      dsimp only
      split
      · rfl
      · split <;> rfl
  · rw [if_neg hpos, if_neg hpos, if_neg (lt_irrefl 0)]

theorem scanTransactionOutputs_eq (cr : Crypto) (tx : CTransaction) (mapBalance : BalanceMap) :
    ((tx.outputs cr).map fun e => Move.enter e.1 e.2).foldlM (s.scanMove env) mapBalance =
      .ok (ChainState.scanTransactionOutputs env tx mapBalance) := by
  have hmoves : ∀ (vout : List CTxOut) (o : Nat → COutPoint) (mapBalance : BalanceMap),
      ((vout.mapIdx fun n txout => (o n, (tx.cUnit, txout))).map fun e => Move.enter e.1 e.2).foldlM
        (s.scanMove env) mapBalance =
        .ok (ChainState.scanTransactionOutputs env { tx with vout := vout } mapBalance) := by
    intro vout
    induction vout with
    | nil => exact fun _ _ => rfl
    | cons txo vout ih =>
      intro o mapBalance
      rw [List.mapIdx_cons, List.map_cons, List.foldlM_cons, ChainState.scanTransactionOutputs, List.foldl_cons]
      refine (ih (fun n => o (n + 1)) _).trans ?_
      unfold ChainState.scanTransactionOutputs
      congr 2
      by_cases hpos : 0 < txo.nValue
      · simp [scannedAmount, hpos, credit]
      · simp [scannedAmount, hpos]
  exact hmoves tx.vout _ mapBalance

/-- **Scanning a transaction is a tally of its moves.** -/
theorem scanTransaction_eq (cr : Crypto) (mapBalance : BalanceMap) (tx : CTransaction) :
    s.scanTransaction env mapBalance tx = (tx.moves cr).foldlM (s.scanMove env) mapBalance := by
  have hinputs : s.scanTransactionInputs env tx mapBalance =
      (if tx.hasNoInputs then [] else tx.vin.map fun txin => Move.leave (α := CUnit × CTxOut) txin.prevout).foldlM
        (s.scanMove env) mapBalance := by
    unfold ChainState.scanTransactionInputs
    rw [show (tx.isCoinBase || tx.isCustodianGrant) = tx.hasNoInputs from rfl]
    split
    · rfl
    · rw [List.foldlM_map]
      congr 1
      funext m txin
      exact scanInput_eq m txin
  unfold ChainState.scanTransaction CTransaction.moves
  rw [List.foldlM_append, hinputs]
  congr 1
  funext m
  rw [scanTransactionOutputs_eq]
  rfl

theorem scanTransactions_eq (cr : Crypto) : ∀ (txs : List CTransaction) (mapBalance : BalanceMap),
    txs.foldlM (s.scanTransaction env) mapBalance = (movesOf cr txs).foldlM (s.scanMove env) mapBalance
  | [], _ => rfl
  | tx :: txs, mapBalance => by
    rw [List.foldlM_cons, movesOf, List.flatMap_cons, List.foldlM_append, scanTransaction_eq cr]
    congr 1
    funext m
    exact scanTransactions_eq cr txs m

end Scan

/-! ## What transactions need is in the stock -/

section Backing

variable {cr : Crypto} {known : Uint256 → Prop} {view view' : CCoinsView} {tx : CTransaction}
  {moves : List (Move COutPoint (CUnit × CTxOut))} {nHeight : Int}

/-- The unspent outputs of a view are in the stock, and so was everything that has left it. -/
structure Backed (known : Uint256 → Prop) (view : CCoinsView) (moves : List (Move COutPoint (CUnit × CTxOut))) :
    Prop where
  unspent : ∀ o, view.Unspent o → known o.hash ∧ ∃ a, (o, a) ∈ stock moves
  leaves : ∀ before i after, moves = before ++ .leave i :: after → known i.hash ∧ ∃ a, (i, a) ∈ stock before

theorem Backed.mono {known' : Uint256 → Prop} (h : Backed known view moves)
    (hknown : ∀ txid, known txid → known' txid) :
    Backed known' view moves :=
  ⟨fun o ho => (h.unspent o ho).imp_left (hknown _), fun before i after heq => (h.leaves before i after heq).imp_left (hknown _)⟩

theorem mem_stock_leave {o i : COutPoint} {a : CUnit × CTxOut} (h : (o, a) ∈ stock moves) (hne : o ≠ i) :
    (o, a) ∈ stock (moves ++ [.leave i]) := by
  rw [stock_concat]
  exact (List.mem_eraseP_of_neg (by simpa using hne)).mpr h

/-- An output that is spent leaves the stock. -/
theorem Backed.spendInput (h : Backed known view moves) {l l' : List CTxInUndo} {txin : CTxIn}
    (hspend : CTransaction.spendInput (view, l) txin = .ok (view', l')) :
    Backed known view' (moves ++ [.leave txin.prevout]) := by
  have hhad : view.Unspent txin.prevout := by
    obtain ⟨coins, left, undo, hcoins, hleft, -, -⟩ := spendInput_ok hspend
    obtain ⟨-, txout, hout⟩ := spend_left hleft
    exact unspent_iff.mpr ⟨coins, hcoins, isAvailable_iff.mpr ⟨txout, hout⟩⟩
  refine ⟨fun o ho => ?_, fun before i after heq => ?_⟩
  · obtain ⟨ho, hne⟩ := (unspent_spendInput hspend).mp ho
    obtain ⟨hknown, a, ha⟩ := h.unspent o ho
    exact ⟨hknown, a, mem_stock_leave ha hne⟩
  · rcases List.eq_nil_or_concat after with rfl | ⟨after, m, rfl⟩
    · obtain ⟨rfl, hlast⟩ := List.append_inj' heq rfl
      cases hlast
      exact h.unspent _ hhad
    · rw [List.concat_eq_append, ← List.cons_append, ← List.append_assoc] at heq
      exact h.leaves before i after (List.append_inj' heq rfl).1

theorem Backed.spendInputs : ∀ {vin : List CTxIn} {view : CCoinsView} {l l' : List CTxInUndo}
    {moves : List (Move COutPoint (CUnit × CTxOut))}, Backed known view moves →
    vin.foldlM CTransaction.spendInput (view, l) = .ok (view', l') →
      Backed known view' (moves ++ vin.map fun txin => .leave txin.prevout)
  | [], view, l, l', moves, h, hspend => by
    rw [List.foldlM_nil] at hspend
    cases hspend
    rwa [List.map_nil, List.append_nil]
  | txin :: vin, view, l, l', moves, h, hspend => by
    obtain ⟨⟨view₁, l₁⟩, h₁, h₂⟩ := foldlM_cons_ok.mp hspend
    have hrest := Backed.spendInputs (h.spendInput h₁) h₂
    rwa [List.append_assoc] at hrest

/-- The stock after outputs were added. -/
theorem stock_enter (items : List (COutPoint × CUnit × CTxOut)) :
    stock (moves ++ items.map fun e => .enter e.1 e.2) = stock moves ++ items := by
  induction items using List.reverseRecOn with
  | nil => rw [List.map_nil, List.append_nil, List.append_nil]
  | append_singleton items e ih =>
    rw [List.map_append, ← List.append_assoc, List.map_singleton, stock_concat, ih, move, List.append_assoc]

/-- **A transaction that is connected** takes what it needs from the stock. -/
theorem Backed.updateCoins (h : Backed known view moves) (hplain : tx.Plain) (hknown : known (tx.getHash cr))
    {txundo : List CTxInUndo} (hupdate : tx.updateCoins view nHeight (tx.getHash cr) = .ok (view', txundo)) :
    Backed known view' (moves ++ tx.moves cr) := by
  obtain ⟨v₁, hspend, rfl⟩ := updateCoins_ok hupdate
  have hinputs : Backed known v₁ (moves ++ if tx.hasNoInputs then [] else tx.vin.map fun txin => .leave txin.prevout) := by
    unfold CTransaction.spendInputs at hspend
    by_cases hno : tx.hasNoInputs = true
    · rw [if_pos hno] at hspend ⊢
      cases hspend
      rwa [List.append_nil]
    · rw [if_neg hno] at hspend ⊢
      exact h.spendInputs hspend
  unfold CTransaction.moves
  rw [← List.append_assoc]
  refine ⟨fun o ho => ?_, fun before i after heq => ?_⟩
  · rw [stock_enter]
    rw [unspent_setCoins] at ho
    by_cases hh : o.hash = tx.getHash cr
    · rw [if_pos hh, isAvailable_ofTx hplain] at ho
      refine ⟨hh ▸ hknown, (tx.cUnit, tx.vout[o.n]), List.mem_append_right _ ?_⟩
      exact List.mem_mapIdx.mpr ⟨o.n, ho, by rw [← hh]⟩
    · rw [if_neg hh] at ho
      obtain ⟨hk, a, ha⟩ := hinputs.unspent o ho
      exact ⟨hk, a, List.mem_append_left _ ha⟩
  · -- outputs only enter the stock
    have hnot : Move.leave i ∉ (tx.outputs cr).map fun e => Move.enter e.1 e.2 := by
      intro hmem
      obtain ⟨e, -, he⟩ := List.mem_map.mp hmem
      cases he
    rcases List.append_eq_append_iff.mp heq with ⟨as, -, has⟩ | ⟨bs, hbefore, hafter⟩
    · exact absurd (has ▸ List.mem_append_right _ List.mem_cons_self) hnot
    · cases bs with
      | nil => exact absurd (hafter.trans (List.nil_append _) ▸ List.mem_cons_self) hnot
      | cons b bs =>
        rw [List.cons_append, List.cons.injEq] at hafter
        obtain ⟨rfl, -⟩ := hafter
        exact hinputs.leaves before i bs hbefore

/-- **The transactions of a block** take what they need from the stock. -/
theorem Backed.spent {txs : List (CTransaction × List CTxInUndo)} (h : Backed known view moves)
    (hspent : Spent cr nHeight view txs view') (hplain : ∀ p ∈ txs, p.1.Plain)
    (hknown : ∀ p ∈ txs, known (p.1.getHash cr)) : Backed known view' (moves ++ movesOf cr (txs.map (·.1))) := by
  induction hspent generalizing moves with
  | nil v => rwa [List.map_nil, movesOf, List.flatMap_nil, List.append_nil]
  | @cons v v' w tx txundo rest hupdate hrest ih =>
    have htx := h.updateCoins (hplain _ List.mem_cons_self) (hknown _ List.mem_cons_self) hupdate
    have hih := ih htx (fun p hp => hplain p (List.mem_cons_of_mem _ hp)) fun p hp => hknown p (List.mem_cons_of_mem _ hp)
    rwa [List.append_assoc] at hih

end Backing

end Morcochain
