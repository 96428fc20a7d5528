import Morcochain.CheckBlock
import Morcochain.CheckInputs

/-!
# Connecting a block

`CBlock::ConnectBlock` (`main.cpp`): the transactions of a block are checked and spent one after the other on a view
that stands at the predecessor of the block.

* `silent_connectBlock` : **where the connection fails without telling the state**: at the two silent rules of
  `CheckBlock`, and at the rules of an unpark transaction.
-/

set_option autoImplicit false

namespace Morcochain

open Guard

/-- What the tx index finds under the id of a transaction. -/
structure CDiskTx where
  header : CBlockHeader
  nTxOffset : Nat
  tx : CTransaction
deriving DecidableEq, Repr

/-- `vPos`: the transactions of a block with their positions, from an offset on. -/
def txPositions (cr : Crypto) (header : CBlockHeader) : Nat → List CTransaction → List (Uint256 × CDiskTx)
  | _, [] => []
  | nTxOffset, tx :: vtx =>
    (tx.getHash cr, ⟨header, nTxOffset, tx⟩) :: txPositions cr header (nTxOffset + tx.serializeSize) vtx

/-- The variables of the loop over the transactions. -/
structure ConnectState where
  view : CCoinsView
  nSigOps : Nat := 0
  mapFees : CUnit → Int := fun _ => 0
  mapValueIn : CUnit → Int := fun _ => 0
  mapValueOut : CUnit → Int := fun _ => 0
  mapParked : CUnit → Int := fun _ => 0
  vtxundo : List (List CTxInUndo) := []
  vChecks : List CScriptCheck := []

/-- Add to the amount of a unit. -/
def addAmount (m : CUnit → Int) (cUnit : CUnit) (n : Int) : CUnit → Int := fun u => if u = cUnit then m u + n else m u

/-- What a connected block leaves: the view at the block, its entry with the fields that were updated, the undo
information and the records of the tx index. -/
structure Connected where
  view : CCoinsView
  pindex : CBlockIndex
  vtxundo : List (List CTxInUndo) := []
  vPos : List (Uint256 × CDiskTx) := []

/-- What the checks of a block depend on. -/
structure ConnectContext where
  cfg : Settings
  cr : Crypto
  /-- The entry of the block. -/
  pindex : CBlockIndex
  /-- The chain that ends at the predecessor of the block. -/
  chainPrev : List CBlockIndex
  /-- There are threads for the script checks. -/
  fThreads : Bool := false

namespace ConnectContext

variable (c : ConnectContext)

/-- Scripts are not checked below the last hardened checkpoint. -/
def fScriptChecks : Bool := c.cfg.getTotalBlocksEstimate ≤ c.pindex.nHeight

/-- BIP16 became active on 1 April 2012. -/
def fStrictPayToScriptHash : Bool := 1333238400 ≤ c.pindex.nTime

/-- `flags`. -/
def flags : ScriptFlags := { p2sh := c.fStrictPayToScriptHash }

/-- The signature operations of script hashes. -/
def p2shSigOps (tx : CTransaction) (view : CCoinsView) : Check Nat :=
  if c.fStrictPayToScriptHash then tx.getP2SHSigOpCount view else .ok 0

/-- The sum of the park outputs of a transaction. -/
def parkedValue (tx : CTransaction) : Int := ((tx.vout.filter (·.isPark)).map (·.nValue)).sum

/-- A transaction that spends other transactions. -/
def connectInputs (s : ConnectState) (tx : CTransaction) : Check ConnectState := do
  dosIf (!tx.haveInputs s.view) 100 "ConnectBlock() : inputs missing/spent"
  let nSigOps := s.nSigOps + (← c.p2shSigOps tx s.view)
  dosIf (nSigOps > maxBlockSigops) 100 "ConnectBlock() : too many sigops"
  let nTxValueIn ← tx.getValueIn s.view
  let nTxValueOut ← tx.getValueOut
  let inputs ← checkInputs c.cfg c.cr tx s.view c.chainPrev c.fScriptChecks c.flags c.fThreads
  return { s with
    nSigOps := nSigOps
    mapValueIn := addAmount s.mapValueIn tx.cUnit nTxValueIn
    mapValueOut := addAmount s.mapValueOut tx.cUnit nTxValueOut
    mapFees := if tx.isCoinStake then s.mapFees else addAmount s.mapFees tx.cUnit (nTxValueIn - nTxValueOut)
    mapParked := addAmount s.mapParked tx.cUnit (parkedValue tx - if tx.isUnpark then nTxValueIn else 0)
    vChecks := s.vChecks ++ inputs.vChecks }

/-- A transaction that spends no others. -/
def connectNoInputs (s : ConnectState) (tx : CTransaction) : Check ConnectState := do
  let nValueOut ← tx.getValueOut
  return { s with mapValueOut := addAmount s.mapValueOut tx.cUnit nValueOut }

/-- The check of a transaction, before it is spent. -/
def checkTx (s : ConnectState) (tx : CTransaction) : Check ConnectState := do
  let s := { s with nSigOps := s.nSigOps + tx.getLegacySigOpCount }
  dosIf (s.nSigOps > maxBlockSigops) 100 "ConnectBlock() : too many sigops"
  if tx.hasNoInputs then connectNoInputs s tx else c.connectInputs s tx

/-- One turn of the loop over the transactions. -/
def connectTx (s : ConnectState) (tx : CTransaction) : Check ConnectState := do
  let s ← c.checkTx s tx
  let (view, txundo) ← tx.updateCoins s.view c.pindex.nHeight (tx.getHash c.cr)
  return { s with view := view, vtxundo := if tx.isCoinBase then s.vtxundo else s.vtxundo ++ [txundo] }

/-- The entry of a connected block: the amounts, and the status. -/
def connectedIndex (s : ConnectState) : CBlockIndex :=
  let pprev := c.chainPrev.head?
  let supply (cUnit : CUnit) : Int :=
    (pprev.map (·.getMoneySupply cUnit)).getD 0 + s.mapValueOut cUnit - s.mapValueIn cUnit
  let parked (cUnit : CUnit) : Int := (pprev.map (·.getTotalParked cUnit)).getD 0 + s.mapParked cUnit
  { c.pindex with
    nMint := s.mapValueOut unitShare - s.mapValueIn unitShare + s.mapFees unitShare
    mapMoneySupply := sAvailableUnits.foldl (fun m u => m.set u (supply u)) c.pindex.mapMoneySupply
    mapTotalParked :=
      sAvailableUnits.foldl (fun m u => if u ≠ unitShare then m.set u (parked u) else m) c.pindex.mapTotalParked
    nStatus :=
      if c.pindex.nStatus &&& blockHaveUndo = 0 ∨ c.pindex.nStatus &&& blockValidMask < blockValidScripts then
        ((c.pindex.nStatus ||| blockHaveUndo) &&& (2 ^ 32 - 1 - blockValidMask)) ||| blockValidScripts
      else c.pindex.nStatus }

/-- The rule on overwritten transactions holds for all blocks but two. -/
def fEnforceBIP30 : Bool :=
  !((c.pindex.nHeight = 91842 ∧
      c.pindex.phashBlock = 0x00000000000a4d0a398161ffc163c503763b1f4360639393e0e4c8e300e0caec) ∨
    (c.pindex.nHeight = 91880 ∧
      c.pindex.phashBlock = 0x00000000000743f190a18c5577a3c2d2a1f610ae9601ac046a38084ccb7cd721))

/-- No transaction may overwrite an older one that is not completely spent. -/
def checkOverwrites (block : CBlock) (view : CCoinsView) : Check Unit :=
  dosIf (c.fEnforceBIP30 ∧ ∃ tx ∈ block.vtx, (view.getCoins (tx.getHash c.cr)).any (! ·.isPruned)) 100
    "ConnectBlock() : tried to overwrite transaction"

/-- The transactions and the script checks left to other threads. -/
def connectTxs (block : CBlock) (view : CCoinsView) : Check ConnectState := do
  let s ← block.vtx.foldlM c.connectTx { view := view }
  dosIf (!s.vChecks.all (·.run c.cr)) 100 ""
  return s

/-- What is left once the transactions are connected; a mere check leaves the entry and the best block as they are. -/
def connected (block : CBlock) (fJustCheck : Bool) (s : ConnectState) : Connected :=
  if fJustCheck then { view := s.view, pindex := c.pindex }
  else
    { view := s.view.setBestBlock (some c.pindex.phashBlock)
      pindex := c.connectedIndex s
      vtxundo := s.vtxundo
      vPos := txPositions c.cr block.toCBlockHeader (getSizeOfCompactSize block.vtx.length) block.vtx }

/-- `CBlock::ConnectBlock` after the checks of the block. -/
def connectChecked (block : CBlock) (view : CCoinsView) (fJustCheck : Bool) : Check Connected := do
  rejectIf (c.pindex.pprev ≠ view.bestBlock) (.assertion "pindex->pprev == view.GetBestBlock()")
  if block.getHash c.cr = c.cfg.hashGenesisBlock then
    return { view := view.setBestBlock (some c.pindex.phashBlock), pindex := c.pindex }
  c.checkOverwrites block view
  let s ← c.connectTxs block view
  return c.connected block fJustCheck s

/-- `CBlock::ConnectBlock`. -/
def connectBlock (block : CBlock) (view : CCoinsView) (fJustCheck : Bool) (nAdjustedTime : Int) : Check Connected := do
  block.checkBlock c.cfg c.cr (!fJustCheck) (!fJustCheck) nAdjustedTime
  c.connectChecked block view fJustCheck

/-! ## Where the connection fails without telling the state -/

section Silent

variable {c} {s : ConnectState} {tx : CTransaction} {block : CBlock} {view : CCoinsView}

theorem not_silent_sumLoop {σ : Type} {f : σ → CTxIn → Check σ} (hf : ∀ s txin, ¬ Silent (f s txin)) (l : List CTxIn)
    (s : σ) : ¬ Silent (l.foldlM f s) := by
  intro h
  obtain ⟨_, txin, _, s', -, -, h⟩ := stops_foldlM.mp h
  exact hf s' txin h

theorem not_silent_getValueIn (tx : CTransaction) (view : CCoinsView) : ¬ Silent (tx.getValueIn view) := by
  unfold CTransaction.getValueIn
  split
  · exact stops_ok
  · refine not_silent_sumLoop (fun s txin => ?_) _ _
    simp [CTransaction.sumIn, silent_bind, not_silent_getOutputFor]

theorem not_silent_p2shSigOps (tx : CTransaction) (view : CCoinsView) : ¬ Silent (c.p2shSigOps tx view) := by
  unfold p2shSigOps CTransaction.getP2SHSigOpCount
  split
  · split
    · exact stops_ok
    · refine not_silent_sumLoop (fun s txin => ?_) _ _
      simp [CTransaction.sumP2SHSigOps, silent_bind, not_silent_getOutputFor]
  · exact stops_ok

theorem not_silent_updateCoins (tx : CTransaction) (view : CCoinsView) (nHeight : Int) (txhash : Uint256) :
    ¬ Silent (tx.updateCoins view nHeight txhash) := by
  have hspend : ∀ s txin, ¬ Silent (CTransaction.spendInput s txin) := by
    intro s txin
    unfold CTransaction.spendInput
    split <;> simp
  have hspends : ¬ Silent (tx.spendInputs view) := by
    unfold CTransaction.spendInputs
    split
    · exact stops_ok
    · exact not_silent_sumLoop hspend _ _
  unfold CTransaction.updateCoins
  simp [silent_bind hspends]

/-- The transaction passes the checks that stand before the rules of an unpark transaction, and breaks one of these. -/
def ReachesBrokenUnparkRule (c : ConnectContext) (s : ConnectState) (tx : CTransaction) : Prop :=
  s.nSigOps + tx.getLegacySigOpCount ≤ maxBlockSigops ∧ tx.hasNoInputs = false ∧ tx.haveInputs s.view = true ∧
    (∃ nP2SHSigOps, c.p2shSigOps tx s.view = .ok nP2SHSigOps ∧
      s.nSigOps + tx.getLegacySigOpCount + nP2SHSigOps ≤ maxBlockSigops) ∧
    (∃ nTxValueIn, tx.getValueIn s.view = .ok nTxValueIn) ∧ (∃ nTxValueOut, tx.getValueOut = .ok nTxValueOut) ∧
    tx.isUnpark = true ∧
    ∃ pindexPrev rest nValueIn, c.chainPrev = pindexPrev :: rest ∧
      tx.vin.foldlM (checkTxIn c.cfg tx s.view (pindexPrev.nHeight + 1)) 0 = .ok nValueIn ∧
      BreaksUnparkRule c.cfg c.cr tx s.view c.chainPrev (pindexPrev.nHeight + 1)

theorem silent_connectInputs {n : Nat} : Silent (c.connectInputs { s with nSigOps := n } tx) ↔
    tx.haveInputs s.view = true ∧
    (∃ nP2SHSigOps, c.p2shSigOps tx s.view = .ok nP2SHSigOps ∧ n + nP2SHSigOps ≤ maxBlockSigops ∧
      (∃ nTxValueIn, tx.getValueIn s.view = .ok nTxValueIn) ∧ (∃ nTxValueOut, tx.getValueOut = .ok nTxValueOut) ∧
      Silent (checkInputs c.cfg c.cr tx s.view c.chainPrev c.fScriptChecks c.flags c.fThreads)) := by
  unfold connectInputs
  refine silent_dosIf_bind.trans ?_
  simp only [silent_bind (not_silent_p2shSigOps _ _), silent_dosIf_bind, silent_bind (not_silent_getValueIn _ _),
    silent_bind tx.not_silent_getValueOut, pure_eq_ok, silent_bind_ok]
  simp

/-- **One transaction** fails silently exactly when it reaches a rule of an unpark transaction that it breaks. -/
theorem silent_connectTx : Silent (c.connectTx s tx) ↔ c.ReachesBrokenUnparkRule s tx := by
  have hno : ∀ s, ¬ Silent (connectNoInputs s tx) := fun s => by
    simp [connectNoInputs, silent_bind tx.not_silent_getValueOut]
  have hcheck : Silent (c.connectTx s tx) ↔ Silent (c.checkTx s tx) := by
    unfold connectTx
    simp [stops_bind, not_silent_updateCoins]
  rw [hcheck]
  unfold checkTx ReachesBrokenUnparkRule
  refine silent_dosIf_bind.trans ?_
  by_cases h : tx.hasNoInputs = true
  · simp [h, hno]
  · have hf : tx.hasNoInputs = false := Bool.eq_false_iff.mpr h
    rw [if_neg h, silent_connectInputs, silent_checkInputs, Nat.not_lt]
    constructor
    · rintro ⟨hsig, hhave, n, hn, hmax, hin, hout, -, -, hu, hrule⟩
      exact ⟨hsig, hf, hhave, ⟨n, hn, hmax⟩, hin, hout, hu, hrule⟩
    · rintro ⟨hsig, -, hhave, ⟨n, hn, hmax⟩, hin, hout, hu, hrule⟩
      exact ⟨hsig, hhave, n, hn, hmax, hin, hout, hf, hhave, hu, hrule⟩

/-- The first rule that the block breaks is one of an unpark transaction. -/
def BreaksUnparkRuleFirst (c : ConnectContext) (block : CBlock) (view : CCoinsView) : Prop :=
  c.pindex.pprev = view.bestBlock ∧ block.getHash c.cr ≠ c.cfg.hashGenesisBlock ∧
    c.checkOverwrites block view = .ok () ∧
    ∃ before tx after s, block.vtx = before ++ tx :: after ∧
      before.foldlM c.connectTx { view := view } = .ok s ∧ c.ReachesBrokenUnparkRule s tx

theorem silent_connectChecked {fJustCheck : Bool} :
    Silent (c.connectChecked block view fJustCheck) ↔ c.BreaksUnparkRuleFirst block view := by
  have htxs : Silent (c.connectTxs block view) ↔ ∃ before tx after s, block.vtx = before ++ tx :: after ∧
      before.foldlM c.connectTx { view := view } = .ok s ∧ c.ReachesBrokenUnparkRule s tx := by
    unfold connectTxs
    rw [← exists_congr fun _ => exists_congr fun _ => exists_congr fun _ => exists_congr fun _ =>
      and_congr_right fun _ => and_congr_right fun _ => silent_connectTx, ← stops_foldlM]
    simp [stops_bind]
  have hassert : ∀ {p : Prop} [Decidable p] {msg : String}, ¬ Silent (rejectIf p (.assertion msg) : Check Unit) :=
    fun {p} _ msg h => Failure.not_isSilent_assertion msg (stops_rejectIf.mp h).2
  have hover : ¬ Silent (c.checkOverwrites block view) := not_silent_dosIf
  have hunit : ∀ {x : Check Unit} {q : Prop}, (∃ u, x = .ok u ∧ q) ↔ x = .ok () ∧ q := by
    intro x q
    constructor
    · rintro ⟨_, h⟩
      exact h
    · intro h
      exact ⟨(), h⟩
  unfold connectChecked BreaksUnparkRuleFirst
  rw [silent_bind hassert, hunit, rejectIf_eq_ok, Ne, not_not]
  refine and_congr_right fun _ => ?_
  by_cases hg : block.getHash c.cr = c.cfg.hashGenesisBlock
  · simp [hg]
  · rw [if_neg hg, silent_bind hover, hunit, ← htxs]
    simp only [pure_eq_ok, silent_bind_ok, ne_eq, hg, not_false_eq_true, true_and]

/-- The first rule that the block breaks is one of which the state is not told. -/
def BreaksSilentRuleFirst (c : ConnectContext) (block : CBlock) (view : CCoinsView) (fJustCheck : Bool)
    (nAdjustedTime : Int) : Prop :=
  block.BreaksSilentRule c.cr (!fJustCheck) nAdjustedTime ∨
    block.checkBlock c.cfg c.cr (!fJustCheck) (!fJustCheck) nAdjustedTime = .ok () ∧ c.BreaksUnparkRuleFirst block view

/-- **Where the connection of a block fails without telling the state.** -/
theorem silent_connectBlock {fJustCheck : Bool} {nAdjustedTime : Int} :
    Silent (c.connectBlock block view fJustCheck nAdjustedTime) ↔
      c.BreaksSilentRuleFirst block view fJustCheck nAdjustedTime := by
  refine stops_bind.trans (or_congr CBlock.silent_checkBlock ?_)
  simp only [silent_connectChecked]
  constructor
  · rintro ⟨_, h⟩
    exact h
  · intro h
    exact ⟨(), h⟩

end Silent

end ConnectContext

/-! ## What a connected block has passed -/

section Connected

variable {c : ConnectContext} {block : CBlock} {view : CCoinsView} {tx : CTransaction} {s s' : ConnectState}

/-- The checks of a transaction leave the view and the undo information as they are. -/
theorem checkTx_view (h : c.checkTx s tx = .ok s') : s'.view = s.view ∧ s'.vtxundo = s.vtxundo := by
  unfold ConnectContext.checkTx at h
  obtain ⟨_, -, h⟩ := bind_eq_ok.mp h
  split at h
  · obtain ⟨_, -, h⟩ := bind_eq_ok.mp h
    cases h
    exact ⟨rfl, rfl⟩
  · unfold ConnectContext.connectInputs at h
    simp only [bind_eq_ok] at h
    obtain ⟨_, -, _, -, _, -, _, -, _, -, _, -, h⟩ := h
    cases h
    exact ⟨rfl, rfl⟩

/-- A block that is connected, other than the genesis block, passed its own checks and those of its place in the chain,
and its transactions were connected one after the other. -/
theorem connectBlock_ok {fJustCheck : Bool} {nAdjustedTime : Int} {r : Connected}
    (h : c.connectBlock block view fJustCheck nAdjustedTime = .ok r)
    (hg : block.getHash c.cr ≠ c.cfg.hashGenesisBlock) :
    block.checkBlock c.cfg c.cr (!fJustCheck) (!fJustCheck) nAdjustedTime = .ok () ∧ c.pindex.pprev = view.bestBlock ∧
      c.checkOverwrites block view = .ok () ∧
      ∃ s, block.vtx.foldlM c.connectTx { view := view } = .ok s ∧ r = c.connected block fJustCheck s := by
  unfold ConnectContext.connectBlock at h
  obtain ⟨_, hcheck, h⟩ := bind_eq_ok.mp h
  unfold ConnectContext.connectChecked at h
  obtain ⟨_, hprev, h⟩ := bind_eq_ok.mp h
  rw [if_neg hg] at h
  obtain ⟨_, hover, h⟩ := bind_eq_ok.mp h
  obtain ⟨s, hs, h⟩ := bind_eq_ok.mp h
  obtain ⟨s', hs', hs⟩ := bind_eq_ok.mp hs
  obtain ⟨_, -, hs⟩ := bind_eq_ok.mp hs
  cases hs
  exact ⟨hcheck, not_not.mp (rejectIf_eq_ok.mp hprev), hover, s, hs', (Except.ok.inj h).symm⟩

end Connected

/-! ## Blocks for concrete runs -/

/-- A public key. -/
def samplePubKey : Bytes := 0x02 :: List.replicate 32 0x05

/-- The script that pays to it. -/
def sampleScript : CScript := pushData samplePubKey ++ [opChecksig]

/-- A script that spends such an output. -/
def sampleScriptSig : CScript := pushData (samplePubKey ++ [0x01])

/-- A coinbase with the hash `txid`. -/
def sampleCoinbase (txid nTime : Nat) (txout : CTxOut) : CTransaction where
  nTime := nTime
  vin := [{ scriptSig := [0x00, 0x00] }]
  vout := [txout]
  nLockTime := txid
  cUnit := unitShare

/-- A signed block with the hash `hash`. -/
def sampleBlock (hash hashPrevBlock nTime : Nat) (vtx : List CTransaction) : CBlock where
  hashPrevBlock := hashPrevBlock
  hashMerkleRoot := CBlock.buildMerkleTree { vtx := vtx } Crypto.sample
  nTime := nTime
  nBits := 0x1e0fffff
  nNonce := hash
  vtx := vtx
  vchBlockSig := samplePubKey

/-- Fifty shares, with the hash `1`. -/
def sharesView : CCoinsView where
  getCoins txid := if txid = 1 then
    some { vout := [{ nValue := 500000, scriptPubKey := sampleScript }], nHeight := 1, cUnit := unitShare } else none
  bestBlock := some 4

/-- A transaction of a unit that spends the shares. -/
def spendShares (cUnit : CUnit) : CTransaction where
  nTime := 1400000000
  vin := [{ prevout := ⟨1, 0⟩, scriptSig := sampleScriptSig }]
  vout := [{ nValue := 490000, scriptPubKey := sampleScript }]
  nLockTime := 12
  cUnit := cUnit

/-- The block at height 4 of a chain of blocks without transactions. -/
def unitContext : ConnectContext where
  cfg := { fCheckpoints := false }
  cr := Crypto.sample
  pindex := { phashBlock := 5, pprev := some 4, nHeight := 4, nTime := 1400000000 }
  chainPrev := (BlockMap.line 3 (fun _ => {})).chain 4

/-- The coinbase before it. -/
def unitCoinbase : CTransaction := sampleCoinbase 11 1400000000 { nValue := 10000, scriptPubKey := sampleScript }

/-- A block with a coinbase and a transaction that spends the shares. -/
def unitBlock (cUnit : CUnit) : CBlock := sampleBlock 5 4 1400000000 [unitCoinbase, spendShares cUnit]

end Morcochain
