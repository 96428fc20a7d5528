import Morcochain.ConnectBlock
import Morcochain.MempoolIndex
import Morcochain.Lib.Dependers

/-!
# The transactions of a new block

`CreateNewBlock` (`main.cpp`) fills a block with transactions of the memory pool. A transaction that spends outputs of
others waits for them (`COrphan`, `mapDependers`); the others stand in a queue, by priority or by fee.

* `collect_spec` : what stands in the queue at first, and what waits.
* `checkInputs_agree`, `connectTx_agree` : **the checks of a transaction read nothing but the coins it spends**.
* `Selecting` : what holds whenever a transaction is taken off the queue. `selecting_selectTx` : it is kept.
* `newBlock_selects` : **the chosen transactions connect, stay within the limits, and nothing that could be tried is
  left out**.
-/

set_option autoImplicit false

namespace Morcochain

open Guard Dependers

/-- What the collection of the transactions of a new block reads. -/
structure NewBlockContext where
  cfg : Settings
  cr : Crypto
  pool : CTxMemPool
  pcoinsTip : CCoinsView
  /-- The chain that ends at `pindexPrev`. -/
  chainPrev : List CBlockIndex
  nBestHeight : Int
  nAdjustedTime : Int
  /-- The time of the coinstake, in a block with proof of stake. -/
  nCoinStakeTime : Option Int := none
  vParkRateResult : List CParkRateVote := []
  nBlockMaxSize : Nat
  nBlockPrioritySize : Nat
  /-- The priority of the transaction is too low for a place that does not depend on the fee. -/
  fLowPriority : Uint256 → Bool
  fDebug : Bool := false

/-- The variables of the loop over the queue, and the transactions that were taken off it. -/
structure NewBlock where
  board : Board Uint256
  view : CCoinsView
  fSortedByFee : Bool
  vtx : List CTransaction := []
  vTxFees : List Int := []
  vTxSigOps : List Nat := []
  nBlockSize : Nat := 1000
  nBlockSigOps : Nat := 100
  nFees : Int := 0
  taken : List Uint256 := []

namespace NewBlockContext

variable (c : NewBlockContext)

/-- The transaction is of a kind that may stand in the block. -/
def isCandidate (tx : CTransaction) : Check Bool :=
  if tx.isCoinBase || tx.isCoinStake || tx.isCustodianGrant || !tx.isFinal c.nBestHeight c.nAdjustedTime then .ok false
  else if c.nCoinStakeTime.isSome then tx.checkParkWithResult c.vParkRateResult
  else .ok true

/-- The loop over the inputs: the transactions of the pool that are waited for, up to an input that is missing. -/
def poolInputs : List CTxIn → Check (List Uint256 × Bool)
  | [] => .ok ([], false)
  | txin :: vin =>
    match c.pcoinsTip.getCoins txin.prevout.hash with
    | none =>
      match c.pool.mapTx txin.prevout.hash with
      | none => do
        rejectIf (c.fDebug = true) (.assertion "mempool transaction missing input")
        return ([], true)
      | some txPrev => do
        rejectIf (txPrev.vout.length ≤ txin.prevout.n) (.assertion "vout")
        let (needs, fMissingInputs) ← poolInputs vin
        return (txin.prevout.hash :: needs, fMissingInputs)
    | some coins => do
      rejectIf (coins.vout.length ≤ txin.prevout.n) (.assertion "coins.vout")
      poolInputs vin

/-- One entry of the pool is put on the board. Where an input is missing, its `COrphan` is gone and `mapDependers` still
leads to it. -/
def collectTx (board : Board Uint256) (entry : Uint256 × CTransaction) : Check (Board Uint256) := do
  if !(← c.isCandidate entry.2) then return board
  let (needs, fMissingInputs) ← c.poolInputs entry.2.vin
  if fMissingInputs then return needs.foldl (Board.wait entry.1) board
  return board.add entry.1 needs

/-- The size, the signature operations and the time of the transaction allow it. -/
def fits (s : NewBlock) (tx : CTransaction) : Bool :=
  s.nBlockSize + tx.serializeSize < c.nBlockMaxSize ∧ s.nBlockSigOps + tx.getLegacySigOpCount < maxBlockSigops ∧
    (tx.nTime : Int) ≤ c.nAdjustedTime ∧ c.nCoinStakeTime.all (fun nTime => (tx.nTime : Int) ≤ nTime)

/-- Past the priority size, or out of transactions of high priority, the queue goes by fee. -/
def sortByFee (s : NewBlock) (hash : Uint256) (tx : CTransaction) : NewBlock :=
  if !s.fSortedByFee ∧ (c.nBlockPrioritySize ≤ s.nBlockSize + tx.serializeSize ∨ c.fLowPriority hash) then
    { s with fSortedByFee := true }
  else s

/-- The checks against the view: the fees and the signature operations, and nothing when it is left out. -/
def checkTx (s : NewBlock) (tx : CTransaction) : Check (Option (Int × Nat)) := do
  if !tx.haveInputs s.view then return none
  let nTxFees := (← tx.getValueIn s.view) - (← tx.getValueOut)
  let nMinFee ← tx.getMinFeeFromPrevBlock c.chainPrev
  if nTxFees < nMinFee ∧ !tx.isUnpark then return none
  let nTxSigOps := tx.getLegacySigOpCount + (← tx.getP2SHSigOpCount s.view)
  if maxBlockSigops ≤ s.nBlockSigOps + nTxSigOps then return none
  match checkInputs c.cfg c.cr tx s.view c.chainPrev true { p2sh := true } false with
  | .ok _ => return some (nTxFees, nTxSigOps)
  | .error e => if e.isRejection then return none else .error e

/-- The transaction is added, and those that waited for it are told; nothing comes of it when one of them is gone. -/
def addTx (s : NewBlock) (tx : CTransaction) (nTxFees : Int) (nTxSigOps : Nat) : Check (Option NewBlock) :=
  match c.chainPrev with
  | [] => .error (.assertion "pindexPrev")
  | pindexPrev :: _ => do
    let hash := tx.getHash c.cr
    let (view, _) ← tx.updateCoins s.view (pindexPrev.nHeight + 1) hash
    return (s.board.release hash).map fun board => { s with
      board := board
      view := view
      vtx := s.vtx ++ [tx]
      vTxFees := s.vTxFees ++ [nTxFees]
      vTxSigOps := s.vTxSigOps ++ [nTxSigOps]
      nBlockSize := s.nBlockSize + tx.serializeSize
      nBlockSigOps := s.nBlockSigOps + nTxSigOps
      nFees := s.nFees + nTxFees }

/-- A transaction has been taken off the queue. -/
def tryTx (s : NewBlock) (hash : Uint256) (tx : CTransaction) : Check (Option NewBlock) :=
  if c.fits s tx then do
    match ← c.checkTx (c.sortByFee s hash tx) tx with
    | none => return some (c.sortByFee s hash tx)
    | some (nTxFees, nTxSigOps) => c.addTx (c.sortByFee s hash tx) tx nTxFees nTxSigOps
  else .ok (some s)

/-- The state after a transaction is taken off the queue. -/
def pop (s : NewBlock) (hash : Uint256) : NewBlock :=
  { s with board := s.board.take hash, taken := s.taken ++ [hash] }

/-- One turn of the loop, with the transaction at the front of the queue. -/
def selectTx (s : NewBlock) (hash : Uint256) : Check (Option NewBlock) :=
  match c.pool.mapTx hash with
  | none => .ok none
  | some tx => c.tryTx (pop s hash) hash tx

/-- The loop over the queue: `front` is what the heap gives. -/
def selectTxs (front : NewBlock → Uint256) : Nat → NewBlock → Check (Option NewBlock)
  | 0, s => .ok (if s.board.ready = [] then some s else none)
  | fuel + 1, s =>
    if s.board.ready = [] then .ok (some s)
    else do
      match ← c.selectTx s (front s) with
      | none => return none
      | some s => selectTxs front fuel s

/-- `CreateNewBlock`, from the entries of the pool to the transactions of the block. -/
def newBlockTxs (front : NewBlock → Uint256) (entries : List (Uint256 × CTransaction)) : Check (Option NewBlock) := do
  let board ← entries.foldlM c.collectTx Board.empty
  c.selectTxs front entries.length { board := board, view := c.pcoinsTip, fSortedByFee := c.nBlockPrioritySize = 0 }

end NewBlockContext

/-! ## The checks read the coins that are spent -/

/-- Two views agree on the coins that a transaction spends. -/
def CCoinsView.Agree (view view' : CCoinsView) (vin : List CTxIn) : Prop :=
  ∀ txin ∈ vin, view.getCoins txin.prevout.hash = view'.getCoins txin.prevout.hash

section Agree

variable {cfg : Settings} {cr : Crypto} {tx : CTransaction} {view view' : CCoinsView} {chainPrev : List CBlockIndex}

theorem prevout_agree {o : COutPoint} (h : view.getCoins o.hash = view'.getCoins o.hash) :
    view.prevout o = view'.prevout o := by
  unfold CCoinsView.prevout
  rw [h]

theorem getOutputFor_agree {txin : CTxIn} (h : view.getCoins txin.prevout.hash = view'.getCoins txin.prevout.hash) :
    CTransaction.getOutputFor txin view = CTransaction.getOutputFor txin view' := by
  unfold CTransaction.getOutputFor
  rw [prevout_agree h]

theorem haveInputs_agree (h : view.Agree view' tx.vin) : tx.haveInputs view = tx.haveInputs view' := by
  rw [Bool.eq_iff_iff, haveInputs_iff, haveInputs_iff]
  refine or_congr_right (forall₂_congr fun txin htxin => ?_)
  rw [prevout_agree (h txin htxin)]

theorem getValueIn_agree (h : view.Agree view' tx.vin) : tx.getValueIn view = tx.getValueIn view' := by
  unfold CTransaction.getValueIn
  rw [foldlM_congr fun s txin htxin => ?_]
  unfold CTransaction.sumIn
  rw [getOutputFor_agree (h txin htxin)]

theorem getP2SHSigOpCount_agree (h : view.Agree view' tx.vin) :
    tx.getP2SHSigOpCount view = tx.getP2SHSigOpCount view' := by
  unfold CTransaction.getP2SHSigOpCount
  rw [foldlM_congr fun s txin htxin => ?_]
  unfold CTransaction.sumP2SHSigOps
  rw [getOutputFor_agree (h txin htxin)]

theorem checkTxIns_agree (h : view.Agree view' tx.vin) (nSpendHeight nValueIn : Int) :
    tx.vin.foldlM (checkTxIn cfg tx view nSpendHeight) nValueIn =
      tx.vin.foldlM (checkTxIn cfg tx view' nSpendHeight) nValueIn := by
  refine foldlM_congr fun s txin htxin => ?_
  unfold checkTxIn
  rw [getOutputFor_agree (h txin htxin)]

theorem checkUnparks_agree (h : view.Agree view' tx.vin) (nSpendHeight : Int) :
    checkUnparks cfg cr tx view chainPrev nSpendHeight = checkUnparks cfg cr tx view' chainPrev nSpendHeight := by
  unfold checkUnparks
  refine foldlM_congr fun s txin htxin => ?_
  unfold checkUnpark
  rw [prevout_agree (h txin htxin)]

theorem scriptChecks_agree (h : view.Agree view' tx.vin) (flags : ScriptFlags) :
    scriptChecks tx view flags = scriptChecks tx view' flags := by
  unfold scriptChecks
  refine congrArg (fun f => (List.range tx.vin.length).mapM f) (funext fun i => ?_)
  cases hi : tx.vin[i]? with
  | none => rfl
  | some txin =>
    dsimp only
    rw [getOutputFor_agree (h txin (List.mem_of_getElem? hi))]

/-- The script checks that are made at once all succeed. -/
theorem runs_of_foldlM : ∀ {checks : List CScriptCheck} {u : Unit}, checks.foldlM (runScriptCheck cr) u = .ok () →
    ∀ check ∈ checks, check.run cr = true
  | [], _, _ => List.forall_mem_nil _
  | check :: checks, u, h => by
    rw [List.foldlM_cons] at h
    obtain ⟨u', hrun, h⟩ := bind_eq_ok.mp h
    refine List.forall_mem_cons.mpr ⟨?_, runs_of_foldlM h⟩
    unfold runScriptCheck at hrun
    split at hrun
    · assumption
    · split at hrun <;> cases hrun

/-- **The checks of the inputs read nothing but the coins that are spent.** -/
theorem checkInputs_agree (h : view.Agree view' tx.vin) (fScriptChecks fThreads : Bool) (flags : ScriptFlags) :
    checkInputs cfg cr tx view chainPrev fScriptChecks flags fThreads =
      checkInputs cfg cr tx view' chainPrev fScriptChecks flags fThreads := by
  unfold checkInputs checkScripts
  simp only [haveInputs_agree h, checkTxIns_agree h, checkUnparks_agree h, scriptChecks_agree h]

/-- The inputs are spent alike, and the rest of the view is left as it is. -/
theorem spendInputs_agree : ∀ {vin : List CTxIn} {view view' : CCoinsView} {undo : List CTxInUndo}
    {r : CCoinsView × List CTxInUndo}, view.Agree view' vin → vin.foldlM CTransaction.spendInput (view, undo) = .ok r →
      ∃ w, vin.foldlM CTransaction.spendInput (view', undo) = .ok (w, r.2) ∧
        ∀ h, view.getCoins h = view'.getCoins h → r.1.getCoins h = w.getCoins h
  | [], view, view', undo, r, _, h => by
    obtain rfl : (view, undo) = r := Except.ok.inj h
    exact ⟨view', rfl, fun _ h => h⟩
  | txin :: vin, view, view', undo, r, hagree, h => by
    obtain ⟨hhead, htail⟩ := List.forall_mem_cons.mp hagree
    rw [List.foldlM_cons] at h
    obtain ⟨s, hs, h⟩ := bind_eq_ok.mp h
    unfold CTransaction.spendInput at hs
    split at hs
    · cases hs
    · rename_i coins txundo hcoins
      obtain rfl := Except.ok.inj hs
      have hset : ∀ x, view.getCoins x = view'.getCoins x →
          (view.setCoins txin.prevout.hash coins).getCoins x = (view'.setCoins txin.prevout.hash coins).getCoins x := by
        intro x hx
        rw [CCoinsView.getCoins_setCoins, CCoinsView.getCoins_setCoins, hx]
      obtain ⟨w, hw, hrest⟩ := spendInputs_agree (fun txin htxin => hset _ (htail txin htxin)) h
      refine ⟨w, ?_, fun x hx => hrest x (hset x hx)⟩
      rw [List.foldlM_cons]
      unfold CTransaction.spendInput
      dsimp only at hcoins ⊢
      rw [hhead] at hcoins
      rw [hcoins]
      exact hw

theorem updateCoins_agree (h : view.Agree view' tx.vin) {nHeight : Int} {txhash : Uint256}
    {r : CCoinsView × List CTxInUndo} (hr : tx.updateCoins view nHeight txhash = .ok r) :
    ∃ w, tx.updateCoins view' nHeight txhash = .ok (w, r.2) ∧
      ∀ x, view.getCoins x = view'.getCoins x → r.1.getCoins x = w.getCoins x := by
  unfold CTransaction.updateCoins CTransaction.spendInputs at hr ⊢
  obtain ⟨s, hs, hr⟩ := bind_eq_ok.mp hr
  obtain rfl := Except.ok.inj hr
  have hspent : ∃ w, (if tx.hasNoInputs then .ok (view', []) else tx.vin.foldlM CTransaction.spendInput (view', [])) =
      (.ok (w, s.2) : Check _) ∧ ∀ x, view.getCoins x = view'.getCoins x → s.1.getCoins x = w.getCoins x := by
    split at hs
    · obtain rfl := Except.ok.inj hs
      exact ⟨view', if_pos ‹_›, fun _ hx => hx⟩
    · rw [if_neg ‹_›]
      exact spendInputs_agree h hs
  obtain ⟨w, hw, hrest⟩ := hspent
  refine ⟨w.setCoins txhash (CCoins.ofTx tx nHeight), ?_, fun x hx => ?_⟩
  · rw [hw]
    rfl
  · show (s.1.setCoins txhash (CCoins.ofTx tx nHeight)).getCoins x = _
    rw [CCoinsView.getCoins_setCoins, CCoinsView.getCoins_setCoins, hrest x hx]

/-- What passes with the scripts checked at once passes when they are not checked, or are left to other threads. -/
theorem checkInputs_threads {flags : ScriptFlags} {r : InputsChecked} (fScriptChecks fThreads : Bool)
    (h : checkInputs cfg cr tx view chainPrev true flags false = .ok r) :
    ∃ r', checkInputs cfg cr tx view chainPrev fScriptChecks flags fThreads = .ok r' ∧
      ∀ check ∈ r'.vChecks, check.run cr = true := by
  unfold checkInputs at h ⊢
  split at h
  · exact ⟨_, if_pos ‹_›, List.forall_mem_nil _⟩
  · rw [if_neg ‹_›]
    obtain ⟨_, hhave, h⟩ := bind_eq_ok.mp h
    rw [hhave, ok_bind]
    cases chainPrev with
    | nil => cases h
    | cons pindexPrev rest =>
      dsimp only at h ⊢
      obtain ⟨nValueIn, hin, h⟩ := bind_eq_ok.mp h
      obtain ⟨fValidUnpark, hunpark, h⟩ := bind_eq_ok.mp h
      obtain ⟨_, hamounts, h⟩ := bind_eq_ok.mp h
      obtain ⟨vChecks, hscripts, -⟩ := bind_eq_ok.mp h
      have hscripts' : ∃ vChecks', checkScripts cr tx view fScriptChecks flags fThreads fValidUnpark = .ok vChecks' ∧
          ∀ check ∈ vChecks', check.run cr = true := by
        unfold checkScripts at hscripts ⊢
        split
        · rename_i hboth
          rw [if_pos ⟨rfl, hboth.2⟩] at hscripts
          obtain ⟨checks, hchecks, hscripts⟩ := bind_eq_ok.mp hscripts
          rw [if_neg Bool.false_ne_true] at hscripts
          obtain ⟨_, hruns, -⟩ := bind_eq_ok.mp hscripts
          rw [hchecks, ok_bind]
          split
          · exact ⟨checks, rfl, runs_of_foldlM hruns⟩
          · rw [hruns]
            exact ⟨[], rfl, List.forall_mem_nil _⟩
        · exact ⟨[], rfl, List.forall_mem_nil _⟩
      obtain ⟨vChecks', hvChecks, hrun⟩ := hscripts'
      rw [hin, ok_bind, hunpark, ok_bind, hamounts, ok_bind, hvChecks, ok_bind]
      exact ⟨_, rfl, hrun⟩

end Agree

/-! ## What is put on the board -/

namespace NewBlockContext

/-- The transactions of the pool that a transaction of the pool waits for. -/
def needs (c : NewBlockContext) (hash : Uint256) : Finset Uint256 :=
  match c.pool.mapTx hash with
  | none => ∅
  | some tx => ((tx.vin.map (·.prevout.hash)).filter fun h => (c.pcoinsTip.getCoins h).isNone).toFinset

/-- The transactions of the pool stand under their hashes, and spend outputs of the chain and of the pool. -/
structure PoolClosed (c : NewBlockContext) : Prop where
  entry : ∀ h tx, c.pool.mapTx h = some tx → tx.getHash c.cr = h
  inputs : ∀ tx ∈ c.pool.txs, ∀ txin ∈ tx.vin, c.pcoinsTip.Unspent txin.prevout ∨
    ∃ tx' ∈ c.pool.txs, txin.prevout ∈ tx'.gives c.cr

end NewBlockContext

section Collect

open NewBlockContext

variable {c : NewBlockContext} {hash : Uint256} {tx : CTransaction}

theorem mem_needs (htx : c.pool.mapTx hash = some tx) {h : Uint256} : h ∈ c.needs hash ↔
    ∃ txin ∈ tx.vin, txin.prevout.hash = h ∧ c.pcoinsTip.getCoins h = none := by
  unfold NewBlockContext.needs
  rw [htx]
  simp only [List.mem_toFinset, List.mem_filter, List.mem_map, Option.isNone_iff_eq_none]
  constructor
  · rintro ⟨⟨txin, htxin, rfl⟩, hnone⟩
    exact ⟨txin, htxin, rfl, hnone⟩
  · rintro ⟨txin, htxin, rfl, hnone⟩
    exact ⟨⟨txin, htxin, rfl⟩, hnone⟩

/-- What is not among the coins of the chain is in the pool. -/
theorem contains_of_closed (hc : c.PoolClosed) (htx : c.pool.mapTx hash = some tx) {txin : CTxIn}
    (htxin : txin ∈ tx.vin) (hnone : c.pcoinsTip.getCoins txin.prevout.hash = none) :
    ∃ txPrev, c.pool.mapTx txin.prevout.hash = some txPrev := by
  rcases hc.inputs tx ⟨hash, htx⟩ txin htxin with ⟨_, hprev⟩ | ⟨tx', ⟨h', htx'⟩, hgives⟩
  · have hcoins := (prevout_eq_some.mp hprev).1
    rw [hnone] at hcoins
    cases hcoins
  · have heq : txin.prevout.hash = h' := hgives.1.trans (hc.entry h' tx' htx')
    exact ⟨tx', heq ▸ htx'⟩

/-- The loop over inputs none of which is missing. -/
theorem poolInputs_spec : ∀ {vin : List CTxIn} {r : List Uint256 × Bool},
    (∀ txin ∈ vin, c.pcoinsTip.getCoins txin.prevout.hash = none → ∃ txPrev,
        c.pool.mapTx txin.prevout.hash = some txPrev) →
      c.poolInputs vin = .ok r →
        r = ((vin.map (·.prevout.hash)).filter (fun h => (c.pcoinsTip.getCoins h).isNone), false)
  | [], r, _, h => (Except.ok.inj h).symm
  | txin :: vin, r, hin, h => by
    obtain ⟨hhead, htail⟩ := List.forall_mem_cons.mp hin
    rw [NewBlockContext.poolInputs] at h
    cases hcoins : c.pcoinsTip.getCoins txin.prevout.hash with
    | none =>
      obtain ⟨txPrev, hprev⟩ := hhead hcoins
      rw [hcoins, hprev] at h
      dsimp only at h
      obtain ⟨_, -, h⟩ := bind_eq_ok.mp h
      obtain ⟨r', hr', h⟩ := bind_eq_ok.mp h
      obtain rfl := poolInputs_spec htail hr'
      rw [List.map_cons, List.filter_cons_of_pos (by rw [hcoins]; rfl)]
      exact (Except.ok.inj h).symm
    | some coins =>
      rw [hcoins] at h
      dsimp only at h
      obtain ⟨_, -, h⟩ := bind_eq_ok.mp h
      rw [List.map_cons, List.filter_cons_of_neg (by rw [hcoins]; exact Bool.false_ne_true)]
      exact poolInputs_spec htail h

/-- **One entry.** -/
theorem collectTx_spec (hc : c.PoolClosed) (htx : c.pool.mapTx hash = some tx) {items : List Uint256}
    {board board' : Board Uint256} (hs : Sound items c.needs [] [] board) (hnew : hash ∉ items)
    (h : c.collectTx board (hash, tx) = .ok board') :
    (c.isCandidate tx = .ok true ∧ Sound (items ++ [hash]) c.needs [] [] board') ∨
      (c.isCandidate tx = .ok false ∧ board' = board) := by
  unfold NewBlockContext.collectTx at h
  obtain ⟨f, hf, h⟩ := bind_eq_ok.mp h
  cases f with
  | false => exact .inr ⟨hf, (Except.ok.inj h).symm⟩
  | true =>
    rw [Bool.not_true, if_neg Bool.false_ne_true] at h
    obtain ⟨r, hr, h⟩ := bind_eq_ok.mp h
    obtain rfl := poolInputs_spec (fun txin htxin => contains_of_closed hc htx htxin) hr
    dsimp only at h
    rw [if_neg Bool.false_ne_true] at h
    obtain rfl := Except.ok.inj h
    refine .inl ⟨hf, sound_add hs hnew _ ?_⟩
    unfold NewBlockContext.needs
    rw [htx]

/-- **The entries of the pool**: the candidates are on the board, each with what it waits for. -/
theorem collect_spec (hc : c.PoolClosed) : ∀ {entries : List (Uint256 × CTransaction)} {items : List Uint256}
    {board board' : Board Uint256}, Sound items c.needs [] [] board →
      (∀ e ∈ entries, c.pool.mapTx e.1 = some e.2) → (items ++ entries.map (·.1)).Nodup →
        entries.foldlM c.collectTx board = .ok board' →
          ∃ items', Sound items' c.needs [] [] board' ∧ items'.length ≤ items.length + entries.length ∧
            ∀ h, h ∈ items' ↔ h ∈ items ∨ ∃ tx, (h, tx) ∈ entries ∧ c.isCandidate tx = .ok true
  | [], items, board, board', hs, _, _, h => by
    obtain rfl := Except.ok.inj h
    refine ⟨items, hs, Nat.le_refl _, fun h => ⟨.inl, ?_⟩⟩
    rintro (h | ⟨_, h, -⟩)
    · exact h
    · exact absurd h List.not_mem_nil
  | (hash, tx) :: entries, items, board, board', hs, hpool, hnodup, h => by
    rw [List.foldlM_cons] at h
    obtain ⟨board₁, h₁, hrest⟩ := bind_eq_ok.mp h
    obtain ⟨htx, hpool⟩ := List.forall_mem_cons.mp hpool
    rw [List.map_cons] at hnodup
    have hnew : hash ∉ items := fun hmem =>
      (List.disjoint_of_nodup_append hnodup) hmem List.mem_cons_self
    rcases collectTx_spec hc htx hs hnew h₁ with ⟨hcand, hs₁⟩ | ⟨hcand, rfl⟩
    · obtain ⟨items', hs', hlen, hmem⟩ := collect_spec hc hs₁ hpool (by rwa [List.append_assoc]) hrest
      rw [List.length_append, List.length_singleton] at hlen
      refine ⟨items', hs', by rw [List.length_cons]; omega, fun x => ?_⟩
      rw [hmem, List.mem_append, List.mem_singleton]
      constructor
      · rintro ((hx | rfl) | ⟨tx', hx, htx'⟩)
        · exact .inl hx
        · exact .inr ⟨tx, List.mem_cons_self, hcand⟩
        · exact .inr ⟨tx', List.mem_cons_of_mem _ hx, htx'⟩
      · rintro (hx | ⟨tx', hx, htx'⟩)
        · exact .inl (.inl hx)
        · rcases List.mem_cons.mp hx with heq | hx
          · exact .inl (.inr (Prod.mk.inj heq).1)
          · exact .inr ⟨tx', hx, htx'⟩
    · have hsub : (items ++ entries.map (·.1)).Nodup :=
        hnodup.sublist ((List.sublist_cons_self _ _).append_left items)
      obtain ⟨items', hs', hlen, hmem⟩ := collect_spec hc hs hpool hsub hrest
      refine ⟨items', hs', by rw [List.length_cons]; omega, fun x => ?_⟩
      rw [hmem]
      refine or_congr_right ⟨fun ⟨tx', hx, htx'⟩ => ⟨tx', List.mem_cons_of_mem _ hx, htx'⟩, ?_⟩
      rintro ⟨tx', hx, htx'⟩
      rcases List.mem_cons.mp hx with heq | hx
      · obtain ⟨rfl, rfl⟩ := Prod.mk.inj heq
        rw [hcand] at htx'
        cases htx'
      · exact ⟨tx', hx, htx'⟩

end Collect

/-! ## What is chosen -/

/-- A block is checked that follows the same chain, under the same rules. -/
structure Follows (b : ConnectContext) (c : NewBlockContext) : Prop where
  cfg : b.cfg = c.cfg
  cr : b.cr = c.cr
  chainPrev : b.chainPrev = c.chainPrev
  height : ∀ pindexPrev ∈ c.chainPrev.head?, (b.pindex.nHeight : Int) = pindexPrev.nHeight + 1
  p2sh : b.fStrictPayToScriptHash = true

/-- The fees of the transactions of a unit. -/
def feesOf (cUnit : CUnit) (vtx : List CTransaction) (vTxFees : List Int) : Int :=
  (((vtx.zip vTxFees).filter (·.1.cUnit = cUnit)).map (·.2)).sum

namespace NewBlockContext

variable (c : NewBlockContext)

/-- The transaction is in the pool and of a kind and a time that may stand in the block. -/
structure Allowed (tx : CTransaction) : Prop where
  pool : c.pool.mapTx (tx.getHash c.cr) = some tx
  candidate : c.isCandidate tx = .ok true
  time : (tx.nTime : Int) ≤ c.nAdjustedTime
  coinStakeTime : ∀ nTime ∈ c.nCoinStakeTime, (tx.nTime : Int) ≤ nTime

/-- The counts are those of the chosen transactions, and within the limits. -/
structure Counted (s : NewBlock) : Prop where
  fees : s.nFees = s.vTxFees.sum
  feesLength : s.vTxFees.length = s.vtx.length
  sigOps : s.nBlockSigOps = 100 + s.vTxSigOps.sum
  sigOpsLength : s.vTxSigOps.length = s.vtx.length
  sigOpsLimit : s.nBlockSigOps < maxBlockSigops
  size : s.nBlockSize = 1000 + (s.vtx.map (·.serializeSize)).sum
  sizeLimit : s.vtx = [] ∨ s.nBlockSize < c.nBlockMaxSize

/-- Whatever block after the same chain the transactions are put in, from a state that has the coins they spend: they
connect, with the signature operations and fees that were counted, and the checks left to other threads succeed. -/
def Connects (s : NewBlock) : Prop :=
  ∀ b s₀, Follows b c → s₀.nSigOps ≤ 100 → (∀ tx ∈ s.vtx, c.pcoinsTip.Agree s₀.view tx.vin) →
    ∃ s', s.vtx.foldlM b.connectTx s₀ = .ok s' ∧ s'.nSigOps + 100 = s₀.nSigOps + s.nBlockSigOps ∧
      (∀ cUnit, s'.mapFees cUnit = s₀.mapFees cUnit + feesOf cUnit s.vtx s.vTxFees) ∧
      (∀ h, c.pcoinsTip.getCoins h = s₀.view.getCoins h → s.view.getCoins h = s'.view.getCoins h) ∧
      ∀ check ∈ s'.vChecks, check ∈ s₀.vChecks ∨ check.run c.cr = true

/-- What holds whenever a transaction is taken off the queue. -/
structure Selecting (items : List Uint256) (s : NewBlock) : Prop where
  board : Sound items c.needs s.taken (s.vtx.map (·.getHash c.cr)) s.board
  nodup : (s.vtx.map (·.getHash c.cr)).Nodup
  allowed : ∀ tx ∈ s.vtx, c.Allowed tx
  counted : c.Counted s
  connects : c.Connects s

end NewBlockContext

section Select

open NewBlockContext

variable {c : NewBlockContext} {s : NewBlock} {hash : Uint256} {tx : CTransaction} {items : List Uint256}

theorem feesOf_append {vtx : List CTransaction} {vTxFees : List Int} (hlen : vTxFees.length = vtx.length)
    (cUnit : CUnit) (tx : CTransaction) (nTxFees : Int) : feesOf cUnit (vtx ++ [tx]) (vTxFees ++ [nTxFees]) =
      feesOf cUnit vtx vTxFees + if cUnit = tx.cUnit then nTxFees else 0 := by
  unfold feesOf
  rw [List.zip_append hlen.symm, List.filter_append, List.map_append, List.sum_append]
  congr 1
  by_cases h : cUnit = tx.cUnit
  · simp [h]
  · simp [h, Ne.symm h]

theorem candidate_kind (h : c.isCandidate tx = .ok true) : tx.hasNoInputs = false ∧ tx.isCoinStake = false := by
  unfold NewBlockContext.isCandidate at h
  split at h
  · cases h
  · rename_i hkind
    simp only [Bool.or_eq_true, not_or, Bool.not_eq_true] at hkind
    obtain ⟨⟨⟨hbase, hstake⟩, hgrant⟩, -⟩ := hkind
    exact ⟨by unfold CTransaction.hasNoInputs; rw [hbase, hgrant]; rfl, hstake⟩

/-- What the order of the queue is does not concern the rest. -/
theorem sortByFee_eq (s : NewBlock) (hash : Uint256) (tx : CTransaction) :
    ∃ f, c.sortByFee s hash tx = { s with fSortedByFee := f } := by
  unfold NewBlockContext.sortByFee
  split
  · exact ⟨true, rfl⟩
  · exact ⟨s.fSortedByFee, rfl⟩

/-- A transaction that passes the checks against the view. -/
theorem checkTx_some {nTxFees : Int} {nTxSigOps : Nat} (h : c.checkTx s tx = .ok (some (nTxFees, nTxSigOps))) :
    tx.haveInputs s.view = true ∧ s.nBlockSigOps + nTxSigOps < maxBlockSigops ∧
      (∃ nValueIn nValueOut, tx.getValueIn s.view = .ok nValueIn ∧ tx.getValueOut = .ok nValueOut ∧
        nTxFees = nValueIn - nValueOut) ∧
      (∃ n, tx.getP2SHSigOpCount s.view = .ok n ∧ nTxSigOps = tx.getLegacySigOpCount + n) ∧
      ∃ r, checkInputs c.cfg c.cr tx s.view c.chainPrev true { p2sh := true } false = .ok r := by
  unfold NewBlockContext.checkTx at h
  split at h
  · cases h
  · rename_i hhave
    rw [Bool.not_eq_true', Bool.not_eq_false] at hhave
    obtain ⟨nValueIn, hin, h⟩ := bind_eq_ok.mp h
    obtain ⟨nValueOut, hout, h⟩ := bind_eq_ok.mp h
    obtain ⟨nMinFee, -, h⟩ := bind_eq_ok.mp h
    dsimp only at h
    split at h
    · cases h
    · obtain ⟨n, hn, h⟩ := bind_eq_ok.mp h
      split at h
      · cases h
      · rename_i hsig
        split at h
        · rename_i r hr
          cases h
          exact ⟨hhave, not_le.mp hsig, ⟨_, _, hin, hout, rfl⟩, ⟨n, hn, rfl⟩, r, hr⟩
        · split at h <;> cases h

/-- **One turn of the loop**: the transaction is left out, or it passes the checks and is added. -/
theorem selectTx_cases {r : Option NewBlock} (htx : c.pool.mapTx hash = some tx) (h : c.selectTx s hash = .ok r) :
    (∃ f, r = some { pop s hash with fSortedByFee := f }) ∨
      ∃ f nTxFees nTxSigOps pindexPrev rest view undo, c.fits s tx = true ∧
        c.checkTx { pop s hash with fSortedByFee := f } tx = .ok (some (nTxFees, nTxSigOps)) ∧
        c.chainPrev = pindexPrev :: rest ∧
        tx.updateCoins s.view (pindexPrev.nHeight + 1) (tx.getHash c.cr) = .ok (view, undo) ∧
        r = ((s.board.take hash).release (tx.getHash c.cr)).map fun board =>
          { pop s hash with
            fSortedByFee := f
            board := board
            view := view
            vtx := s.vtx ++ [tx]
            vTxFees := s.vTxFees ++ [nTxFees]
            vTxSigOps := s.vTxSigOps ++ [nTxSigOps]
            nBlockSize := s.nBlockSize + tx.serializeSize
            nBlockSigOps := s.nBlockSigOps + nTxSigOps
            nFees := s.nFees + nTxFees } := by
  unfold NewBlockContext.selectTx at h
  rw [htx] at h
  dsimp only at h
  unfold NewBlockContext.tryTx at h
  split at h
  · rename_i hfits
    obtain ⟨f, hf⟩ := sortByFee_eq (c := c) (pop s hash) hash tx
    rw [hf] at h
    obtain ⟨checked, hchecked, h⟩ := bind_eq_ok.mp h
    cases checked with
    | none => exact .inl ⟨f, (Except.ok.inj h).symm⟩
    | some p =>
      obtain ⟨nTxFees, nTxSigOps⟩ := p
      dsimp only at h
      unfold NewBlockContext.addTx at h
      split at h
      · cases h
      · rename_i pindexPrev rest hchain
        obtain ⟨⟨view, undo⟩, hupdate, h⟩ := bind_eq_ok.mp h
        exact .inr ⟨f, nTxFees, nTxSigOps, pindexPrev, rest, view, undo, hfits, hchecked, hchain, hupdate,
          (Except.ok.inj h).symm⟩
  · exact .inl ⟨s.fSortedByFee, (Except.ok.inj h).symm⟩

/-- **A transaction that passes the checks on one view connects on another one** that has the coins it spends. -/
theorem connectTx_agree {b : ConnectContext} {s₀ : ConnectState} {view w : CCoinsView} {undo : List CTxInUndo}
    {pindexPrev : CBlockIndex} {rest : List CBlockIndex} {nValueIn nValueOut : Int} {n : Nat} {r : InputsChecked}
    (hb : Follows b c) (hno : tx.hasNoInputs = false) (hstake : tx.isCoinStake = false)
    (hagree : view.Agree s₀.view tx.vin) (hhave : tx.haveInputs view = true)
    (hsigOps : s₀.nSigOps + tx.getLegacySigOpCount + n ≤ maxBlockSigops)
    (hin : tx.getValueIn view = .ok nValueIn) (hout : tx.getValueOut = .ok nValueOut)
    (hn : tx.getP2SHSigOpCount view = .ok n)
    (hr : checkInputs c.cfg c.cr tx view c.chainPrev true { p2sh := true } false = .ok r)
    (hchain : c.chainPrev = pindexPrev :: rest)
    (hupdate : tx.updateCoins view (pindexPrev.nHeight + 1) (tx.getHash c.cr) = .ok (w, undo)) :
    ∃ s', b.connectTx s₀ tx = .ok s' ∧ s'.nSigOps = s₀.nSigOps + tx.getLegacySigOpCount + n ∧
      s'.mapFees = addAmount s₀.mapFees tx.cUnit (nValueIn - nValueOut) ∧
      (∀ h, view.getCoins h = s₀.view.getCoins h → w.getCoins h = s'.view.getCoins h) ∧
      ∀ check ∈ s'.vChecks, check ∈ s₀.vChecks ∨ check.run c.cr = true := by
  obtain ⟨r', hr', hrun⟩ := checkInputs_threads b.fScriptChecks b.fThreads hr
  obtain ⟨w', hw', hsame⟩ := updateCoins_agree hagree hupdate
  have hheight : (b.pindex.nHeight : Int) = pindexPrev.nHeight + 1 := hb.height pindexPrev (by rw [hchain]; rfl)
  have hflags : b.flags = { p2sh := true } := by
    unfold ConnectContext.flags
    rw [hb.p2sh]
  rw [checkInputs_agree hagree] at hr'
  rw [haveInputs_agree hagree] at hhave
  rw [getP2SHSigOpCount_agree hagree] at hn
  rw [getValueIn_agree hagree] at hin
  unfold ConnectContext.connectTx ConnectContext.checkTx ConnectContext.connectInputs ConnectContext.p2shSigOps
  rw [hb.p2sh, hflags, hb.cfg, hb.cr, hb.chainPrev, hheight, hno, hstake]
  simp only [hhave, hn, hin, hout, hr', hw', ok_bind, pure_eq_ok, if_true, Bool.false_eq_true, if_false, Bool.not_true,
    rejectIf_neg (show ¬ False from id),
    rejectIf_neg (show ¬ s₀.nSigOps + tx.getLegacySigOpCount > maxBlockSigops by omega),
    rejectIf_neg (show ¬ s₀.nSigOps + tx.getLegacySigOpCount + n > maxBlockSigops by omega)]
  refine ⟨_, rfl, rfl, rfl, hsame, fun check hcheck => ?_⟩
  rcases List.mem_append.mp hcheck with hcheck | hcheck
  · exact .inl hcheck
  · exact .inr (hrun check hcheck)

/-- The chosen transactions connect, with one more of them. -/
theorem connects_add {view w : CCoinsView} {undo : List CTxInUndo} {pindexPrev : CBlockIndex} {rest : List CBlockIndex}
    {nTxFees : Int} {nTxSigOps : Nat} {s' : NewBlock} (hs : c.Connects s) (hcount : c.Counted s)
    (htx : c.isCandidate tx = .ok true) (hview : s.view = view)
    (hchecked : ∃ f, c.checkTx { pop s hash with fSortedByFee := f } tx = .ok (some (nTxFees, nTxSigOps)))
    (hchain : c.chainPrev = pindexPrev :: rest)
    (hupdate : tx.updateCoins view (pindexPrev.nHeight + 1) (tx.getHash c.cr) = .ok (w, undo))
    (hvtx : s'.vtx = s.vtx ++ [tx]) (hfees : s'.vTxFees = s.vTxFees ++ [nTxFees])
    (hsigOps : s'.nBlockSigOps = s.nBlockSigOps + nTxSigOps) (hw : s'.view = w) : c.Connects s' := by
  subst hview
  obtain ⟨f, hchecked⟩ := hchecked
  obtain ⟨hhave, hlimit, ⟨nValueIn, nValueOut, hin, hout, rfl⟩, ⟨n, hn, rfl⟩, r, hr⟩ := checkTx_some hchecked
  obtain ⟨hno, hstake⟩ := candidate_kind htx
  intro b s₀ hb hsig hagree
  rw [hvtx] at hagree ⊢
  obtain ⟨s₁, hrun, hsig₁, hfees₁, hview₁, hchecks₁⟩ :=
    hs b s₀ hb hsig fun tx' htx' => hagree tx' (List.mem_append_left _ htx')
  have hagree₁ : s.view.Agree s₁.view tx.vin := fun txin htxin =>
    hview₁ _ (hagree tx (List.mem_append_right _ List.mem_cons_self) txin htxin)
  have hsum : s₁.nSigOps + tx.getLegacySigOpCount + n ≤ maxBlockSigops := by
    have hlimit' : s.nBlockSigOps + (tx.getLegacySigOpCount + n) < maxBlockSigops := hlimit
    omega
  obtain ⟨s₂, hstep, hsig₂, hfees₂, hview₂, hchecks₂⟩ :=
    connectTx_agree hb hno hstake hagree₁ hhave hsum hin hout hn hr hchain hupdate
  refine ⟨s₂, ?_, ?_, fun cUnit => ?_, fun h hh => ?_, fun check hcheck => ?_⟩
  · rw [List.foldlM_append, hrun]
    show [tx].foldlM b.connectTx s₁ = _
    rw [List.foldlM_cons, hstep]
    rfl
  · rw [hsig₂, hsigOps]
    omega
  · rw [hfees₂, hfees, feesOf_append hcount.feesLength, ← add_assoc, ← hfees₁]
    unfold addAmount
    split <;> simp
  · rw [hw]
    exact hview₂ h (hview₁ h hh)
  · rcases hchecks₂ check hcheck with hcheck | hcheck
    · exact hchecks₁ check hcheck
    · exact .inr hcheck

/-- **One turn of the loop keeps what holds**, and takes one transaction off the queue. -/
theorem selecting_selectTx (hc : c.PoolClosed)
    (hitems : ∀ h ∈ items, ∃ tx, c.pool.mapTx h = some tx ∧ c.isCandidate tx = .ok true)
    (hs : c.Selecting items s) (hash_ready : hash ∈ s.board.ready) {r : Option NewBlock}
    (h : c.selectTx s hash = .ok r) : ∃ s', r = some s' ∧ c.Selecting items s' ∧ s'.taken = s.taken ++ [hash] := by
  obtain ⟨tx, htx, hcand⟩ := hitems hash (hs.board.known hash (List.mem_append_right _ hash_ready))
  have hkey := hc.entry hash tx htx
  have hboard := sound_take hs.board hash_ready
  rcases selectTx_cases htx h with ⟨f, rfl⟩ | ⟨f, nTxFees, nTxSigOps, pindexPrev, rest, view, undo, hfits, hchecked,
    hchain, hupdate, rfl⟩
  · exact ⟨_, rfl, ⟨hboard, hs.nodup, hs.allowed, ⟨hs.counted.fees, hs.counted.feesLength, hs.counted.sigOps,
      hs.counted.sigOpsLength, hs.counted.sigOpsLimit, hs.counted.size, hs.counted.sizeLimit⟩, hs.connects⟩, rfl⟩
  · obtain ⟨board, hrelease, hboard'⟩ := sound_release hboard (List.mem_append_right s.taken List.mem_cons_self)
    rw [hkey, hrelease, Option.map_some]
    have hfresh : hash ∉ s.vtx.map (·.getHash c.cr) := fun hmem =>
      (List.disjoint_of_nodup_append hs.board.nodup) (hs.board.accepted hmem) hash_ready
    unfold NewBlockContext.fits at hfits
    obtain ⟨hsize, -, htime, hstakeTime⟩ := of_decide_eq_true hfits
    have hlimit : s.nBlockSigOps + nTxSigOps < maxBlockSigops := (checkTx_some hchecked).2.1
    have hcount := hs.counted
    refine ⟨_, rfl, ⟨?_, ?_, ?_, ⟨?_, ?_, ?_, ?_, hlimit, ?_, .inr hsize⟩, ?_⟩, rfl⟩
    · show Sound items c.needs (s.taken ++ [hash]) ((s.vtx ++ [tx]).map (·.getHash c.cr)) board
      rw [List.map_append, List.map_singleton, hkey]
      exact hboard'
    · show ((s.vtx ++ [tx]).map (·.getHash c.cr)).Nodup
      rw [List.map_append, List.map_singleton, hkey]
      exact nodup_append_one hs.nodup hfresh
    · refine List.forall_mem_append.mpr ⟨hs.allowed, List.forall_mem_singleton.mpr ⟨?_, hcand, htime, ?_⟩⟩
      · rw [hkey]
        exact htx
      · intro nTime hnTime
        rw [Option.mem_def] at hnTime
        rw [hnTime] at hstakeTime
        exact of_decide_eq_true hstakeTime
    · rw [List.sum_append, List.sum_singleton, ← hcount.fees]
    · rw [List.length_append, List.length_append, hcount.feesLength]
      rfl
    · rw [List.sum_append, List.sum_singleton, ← add_assoc, ← hcount.sigOps]
    · rw [List.length_append, List.length_append, hcount.sigOpsLength]
      rfl
    · rw [List.map_append, List.sum_append, List.map_singleton, List.sum_singleton, ← add_assoc, ← hcount.size]
    · exact connects_add hs.connects hcount hcand rfl ⟨f, hchecked⟩ hchain hupdate rfl rfl rfl rfl

/-- **The loop**: it ends with an empty queue, and what holds is kept. -/
theorem selecting_selectTxs (hc : c.PoolClosed)
    (hitems : ∀ h ∈ items, ∃ tx, c.pool.mapTx h = some tx ∧ c.isCandidate tx = .ok true) {front : NewBlock → Uint256}
    (hfront : ∀ s, s.board.ready ≠ [] → front s ∈ s.board.ready) : ∀ {fuel : Nat} {s : NewBlock} {r : Option NewBlock},
      c.Selecting items s → items.length ≤ fuel + s.taken.length → c.selectTxs front fuel s = .ok r →
        ∃ s', r = some s' ∧ c.Selecting items s' ∧ s'.board.ready = []
  | 0, s, r, hs, hfuel, h => by
    have hlen := hs.board.length_le
    have hready : s.board.ready = [] := List.eq_nil_of_length_eq_zero (by omega)
    rw [NewBlockContext.selectTxs, if_pos hready] at h
    exact ⟨s, (Except.ok.inj h).symm, hs, hready⟩
  | fuel + 1, s, r, hs, hfuel, h => by
    rw [NewBlockContext.selectTxs] at h
    by_cases hready : s.board.ready = []
    · rw [if_pos hready] at h
      exact ⟨s, (Except.ok.inj h).symm, hs, hready⟩
    · rw [if_neg hready] at h
      obtain ⟨r₁, h₁, h⟩ := bind_eq_ok.mp h
      obtain ⟨s₁, rfl, hs₁, htaken⟩ := selecting_selectTx hc hitems hs (hfront s hready) h₁
      refine selecting_selectTxs hc hitems hfront hs₁ ?_ h
      rw [htaken, List.length_append, List.length_singleton]
      omega

/-- Before the first transaction is chosen. -/
theorem selecting_start {board : Board Uint256} (hboard : Sound items c.needs [] [] board) (f : Bool) :
    c.Selecting items { board := board, view := c.pcoinsTip, fSortedByFee := f } where
  board := hboard
  nodup := List.nodup_nil
  allowed := List.forall_mem_nil _
  counted := ⟨rfl, rfl, rfl, rfl, (by decide : 100 < maxBlockSigops), rfl, .inl rfl⟩
  connects b s₀ _ _ _ := ⟨s₀, rfl, rfl, fun _ => (add_zero _).symm, fun _ h => h, fun _ h => .inl h⟩

/-- **The transactions of a new block**: the collection ends whatever the heap puts first, and never meets a `COrphan`
that is gone. The chosen transactions are of the pool, each once, and may stand in the block; their counts are right and
within the limits; in their order they connect on every view that has the coins they spend. A transaction of the pool
that may stand in the block was tried exactly when all transactions of the pool that it needs were chosen. -/
theorem newBlock_selects (c : NewBlockContext) (front : NewBlock → Uint256) (entries : List (Uint256 × CTransaction))
    (hc : c.PoolClosed) (hentries : ∀ h tx, (h, tx) ∈ entries ↔ c.pool.mapTx h = some tx)
    (hnodup : (entries.map (·.1)).Nodup) (hfront : ∀ s, s.board.ready ≠ [] → front s ∈ s.board.ready)
    (r : Option NewBlock) (h : c.newBlockTxs front entries = .ok r) :
    ∃ s, r = some s ∧ (s.vtx.map (·.getHash c.cr)).Nodup ∧ (∀ tx ∈ s.vtx, c.Allowed tx) ∧ c.Counted s ∧ c.Connects s ∧
      s.taken.Nodup ∧ ∀ h tx, c.pool.mapTx h = some tx → c.isCandidate tx = .ok true →
        (h ∈ s.taken ↔ ∀ txin ∈ tx.vin, (c.pcoinsTip.getCoins txin.prevout.hash).isSome = true ∨
          txin.prevout.hash ∈ s.vtx.map (·.getHash c.cr)) := by
  unfold newBlockTxs at h
  obtain ⟨board, hboard, h⟩ := bind_eq_ok.mp h
  have hpool : ∀ e ∈ entries, c.pool.mapTx e.1 = some e.2 := fun e he => (hentries e.1 e.2).mp he
  obtain ⟨items, hsound, hlen, hmem⟩ := collect_spec hc (sound_empty c.needs) hpool hnodup hboard
  have hitems : ∀ h, h ∈ items ↔ ∃ tx, c.pool.mapTx h = some tx ∧ c.isCandidate tx = .ok true := by
    intro h
    rw [hmem h, or_iff_right List.not_mem_nil]
    exact exists_congr fun tx => and_congr_left' (hentries h tx)
  have hfuel : items.length ≤ entries.length + 0 := by
    rw [List.length_nil] at hlen
    omega
  obtain ⟨s, rfl, hs, hready⟩ := selecting_selectTxs hc (fun h => (hitems h).mp) hfront
    (selecting_start hsound _) hfuel h
  refine ⟨s, rfl, hs.nodup, hs.allowed, hs.counted, hs.connects, hs.board.nodup.of_append_left,
    fun h tx htx hcand => ?_⟩
  rw [hs.board.taken_iff hready h ((hitems h).mpr ⟨tx, htx, hcand⟩)]
  constructor
  · intro hsub txin htxin
    cases hcoins : c.pcoinsTip.getCoins txin.prevout.hash with
    | some coins => exact .inl rfl
    | none => exact .inr (List.mem_toFinset.mp (hsub ((mem_needs htx).mpr ⟨txin, htxin, rfl, hcoins⟩)))
  · intro hall h' hneed
    obtain ⟨txin, htxin, rfl, hcoins⟩ := (mem_needs htx).mp hneed
    have hchosen := (hall txin htxin).resolve_left (by rw [hcoins]; exact Bool.false_ne_true)
    exact List.mem_toFinset.mpr hchosen

/-- A transaction that spends the one that spends the shares. -/
def spendSpent : CTransaction where
  nTime := 1400000000
  vin := [{ prevout := ⟨12, 0⟩, scriptSig := sampleScriptSig }]
  vout := [{ nValue := 480000, scriptPubKey := sampleScript }]
  nLockTime := 13
  cUnit := unitShare

/-- A pool with the two of them, after the block at height 3. -/
def sampleNewBlock : NewBlockContext where
  cfg := { fCheckpoints := false }
  cr := Crypto.sample
  pool := (CTxMemPool.empty.addUnchecked 12 (spendShares unitShare)).addUnchecked 13 spendSpent
  pcoinsTip := sharesView
  chainPrev := unitContext.chainPrev
  nBestHeight := 3
  nAdjustedTime := 1400000000
  nBlockMaxSize := 250000
  nBlockPrioritySize := 27000
  fLowPriority _ := true

theorem mapTx_sampleNewBlock (h : Uint256) (tx : CTransaction) : sampleNewBlock.pool.mapTx h = some tx ↔
    h = 13 ∧ tx = spendSpent ∨ h = 12 ∧ tx = spendShares unitShare := by
  show (if h = 13 then some spendSpent else if h = 12 then some (spendShares unitShare) else none) = some tx ↔ _
  by_cases h₁ : h = 13
  · simp [h₁, eq_comm]
  · by_cases h₂ : h = 12
    · simp [h₂, eq_comm]
    · simp [h₁, h₂]

theorem poolClosed_sampleNewBlock : sampleNewBlock.PoolClosed where
  entry h tx htx := by
    rcases (mapTx_sampleNewBlock h tx).mp htx with ⟨rfl, rfl⟩ | ⟨rfl, rfl⟩ <;> rfl
  inputs := by
    rintro tx ⟨h, htx⟩ txin htxin
    rcases (mapTx_sampleNewBlock h tx).mp htx with ⟨-, rfl⟩ | ⟨-, rfl⟩
    · obtain rfl := List.mem_singleton.mp htxin
      exact .inr ⟨spendShares unitShare, ⟨12, (mapTx_sampleNewBlock _ _).mpr (.inr ⟨rfl, rfl⟩)⟩, rfl, Nat.one_pos⟩
    · obtain rfl := List.mem_singleton.mp htxin
      exact .inl ⟨_, rfl⟩

theorem newBlock_selects_sample : ∃ s, sampleNewBlock.newBlockTxs (fun s => s.board.ready.headD 0)
      [(13, spendSpent), (12, spendShares unitShare)] = .ok (some s) ∧ s.vtx = [spendShares unitShare, spendSpent] ∧
    sampleNewBlock.Counted s ∧ sampleNewBlock.Connects s := by
  have hrun : (sampleNewBlock.newBlockTxs (fun s => s.board.ready.headD 0)
      [(13, spendSpent), (12, spendShares unitShare)]).toOption.join.map (·.vtx) =
        some [spendShares unitShare, spendSpent] := by decide +kernel
  obtain ⟨s, hs, hvtx⟩ := Option.map_eq_some_iff.mp hrun
  have hr := toOption_eq_some.mp (Option.join_eq_some_iff.mp hs)
  have hfront : ∀ s : NewBlock, s.board.ready ≠ [] → s.board.ready.headD 0 ∈ s.board.ready := by
    intro s hne
    obtain ⟨h, rest, heq⟩ := List.exists_cons_of_ne_nil hne
    rw [heq]
    exact List.mem_cons_self
  have hentries : ∀ h tx, (h, tx) ∈ [(13, spendSpent), (12, spendShares unitShare)] ↔
      sampleNewBlock.pool.mapTx h = some tx := by
    intro h tx
    rw [mapTx_sampleNewBlock, List.mem_cons, List.mem_singleton, Prod.mk.injEq, Prod.mk.injEq]
  obtain ⟨s', hs', -, -, hcounted, hconnects, -⟩ := newBlock_selects sampleNewBlock _ _ poolClosed_sampleNewBlock
    hentries (by decide) hfront _ hr
  obtain rfl := Option.some.inj hs'
  exact ⟨s, hr, hvtx, hcounted, hconnects⟩

end Select

end Morcochain
