import Morcochain.Ledger

/-!
# Coin age

`GetCoinAge` of a transaction and of a block, and `GetCoinStakeAge` (`main.cpp`): the coin days that the inputs of
transactions destroy. They are read off the view of the tip and the tx index of the node.

* `answer_flush` : flushing the view changes what the node knows of an input exactly when its coins are spent
  completely.
* `tip_of_chain` : **two nodes that stand at the same block of one chain have the same coins**.
* `coinAge_congr` : **two nodes that know the same of the inputs of a block compute the same coin age**.
* `coinAge_of_chain` : so they do when both received the block while its predecessor was their tip.
-/

set_option autoImplicit false

namespace Morcochain

open Guard

/-! ## The computation -/

/-- What `GetCoinAge` reads. -/
structure CoinAgeContext where
  cfg : Settings
  cr : Crypto
  view : CCoinsView
  txIndex : Uint256 → Option CDiskTx

namespace CoinAgeContext

variable (c : CoinAgeContext)

/-- The cent-seconds of one input, added to those of the inputs before it. -/
def addInput (nTime : Nat) (bnCentSecond : Int) (txin : CTxIn) : Check Int :=
  match c.view.getCoins txin.prevout.hash with
  -- the previous transaction is not in the main chain
  | none => .ok bnCentSecond
  | some coins =>
    if nTime < coins.nTime then .error (.error "")
    else
      match c.txIndex txin.prevout.hash with
      | none => .error (.error "GetCoinAge() : tx missing in tx index in GetCoinAge()")
      | some record =>
        if record.tx.getHash c.cr ≠ txin.prevout.hash then
          .error (.error "GetCoinAge() : txid mismatch in GetCoinAge()")
        else if record.header.nTime + c.cfg.nStakeMinAge > nTime then .ok bnCentSecond
        else
          match record.tx.vout[txin.prevout.n]? with
          | none => .error (.exception "GetCoinAge() : no such output")
          | some txout =>
            .ok (bnCentSecond + Int.tdiv (txout.nValue * (((nTime : Int) - record.tx.nTime) % 2 ^ 32)) cent)

/-- The coin days of cent-seconds. -/
def coinDays (bnCentSecond : Int) : Nat :=
  let bnCoinDay := Int.tdiv (Int.tdiv (bnCentSecond * cent) coin) (24 * 60 * 60)
  (min (max bnCoinDay 0) maxCoinAge).toNat

/-- `CTransaction::GetCoinAge`. -/
def txCoinAge (tx : CTransaction) : Check Nat := do
  if tx.hasNoInputs then return 0
  let bnCentSecond ← tx.vin.foldlM (c.addInput tx.nTime) 0
  return coinDays bnCentSecond

/-- The coin age of one more transaction of a block, a `uint64`. -/
def addTx (nCoinAge : Nat) (tx : CTransaction) : Check Nat := do
  return (nCoinAge + (← c.txCoinAge tx)) % 2 ^ 64

/-- `CBlock::GetCoinAge`: one coin day at least. -/
def blockCoinAge (block : CBlock) : Check Nat := do
  let nCoinAge ← block.vtx.foldlM c.addTx 0
  return if nCoinAge = 0 then 1 else nCoinAge

/-- `CBlock::GetCoinStakeAge`. -/
def coinStakeAge (block : CBlock) : Check Nat :=
  match block.vtx[1]? with
  | some coinstake => if block.isProofOfStake then c.txCoinAge coinstake else .error (.error "")
  | none => .error (.error "")

/-- What the node knows of a transaction that is spent: the time of the coins that it finds, and the record of the tx
index. -/
def answer (txid : Uint256) : Option (Nat × Option CDiskTx) :=
  (c.view.getCoins txid).map fun coins => (coins.nTime, c.txIndex txid)

end CoinAgeContext

/-- A node knows the same of an input as another one. -/
def AnswersAlike (c c' : CoinAgeContext) (txin : CTxIn) : Prop :=
  c.answer txin.prevout.hash = c'.answer txin.prevout.hash

/-- Two nodes know the same of every input of a block, but for the transactions that spend no others. -/
def BlockAnswersAlike (c c' : CoinAgeContext) (block : CBlock) : Prop :=
  ∀ tx ∈ block.vtx, tx.hasNoInputs = false → ∀ txin ∈ tx.vin, AnswersAlike c c' txin

/-! ## What the coin age depends on -/

section Congr

variable {c c' : CoinAgeContext}

/-- A loop whose steps agree on the elements of a list. -/
theorem foldlM_congr {α σ : Type} {f g : σ → α → Check σ} : ∀ {l : List α} {s : σ},
    (∀ s, ∀ a ∈ l, f s a = g s a) → l.foldlM f s = l.foldlM g s
  | [], _, _ => rfl
  | a :: l, s, h => by
    rw [List.foldlM_cons, List.foldlM_cons, h s a List.mem_cons_self]
    congr 1
    funext s'
    exact foldlM_congr fun s b hb => h s b (List.mem_cons_of_mem a hb)

theorem addInput_congr (hcfg : c.cfg = c'.cfg) (hcr : c.cr = c'.cr) {txin : CTxIn} (h : AnswersAlike c c' txin)
    (nTime : Nat) (s : Int) : c.addInput nTime s txin = c'.addInput nTime s txin := by
  unfold AnswersAlike CoinAgeContext.answer at h
  unfold CoinAgeContext.addInput
  cases hcoins : c.view.getCoins txin.prevout.hash with
  | none =>
    rw [hcoins, Option.map_none] at h
    rw [Option.map_eq_none_iff.mp h.symm]
  | some coins =>
    rw [hcoins, Option.map_some] at h
    obtain ⟨coins', hcoins', heq⟩ := Option.map_eq_some_iff.mp h.symm
    obtain ⟨htime, hindex⟩ := Prod.mk.inj heq
    simp only [hcoins', htime, hindex, hcfg, hcr]

theorem txCoinAge_congr (hcfg : c.cfg = c'.cfg) (hcr : c.cr = c'.cr) {tx : CTransaction}
    (h : tx.hasNoInputs = false → ∀ txin ∈ tx.vin, AnswersAlike c c' txin) : c.txCoinAge tx = c'.txCoinAge tx := by
  unfold CoinAgeContext.txCoinAge
  by_cases hno : tx.hasNoInputs = true
  · rw [if_pos hno, if_pos hno]
  · rw [if_neg hno, if_neg hno, foldlM_congr fun s txin hmem =>
      addInput_congr hcfg hcr (h (Bool.eq_false_iff.mpr hno) txin hmem) tx.nTime s]

/-- Contexts that know the same of the inputs of a block give it the same coin age. -/
theorem coinAge_congr (c c' : CoinAgeContext) (block : CBlock) (hcfg : c.cfg = c'.cfg) (hcr : c.cr = c'.cr)
    (h : BlockAnswersAlike c c' block) :
    c.blockCoinAge block = c'.blockCoinAge block ∧ c.coinStakeAge block = c'.coinStakeAge block := by
  have htx : ∀ tx ∈ block.vtx, c.txCoinAge tx = c'.txCoinAge tx := fun tx hmem =>
    txCoinAge_congr hcfg hcr (h tx hmem)
  constructor
  · unfold CoinAgeContext.blockCoinAge
    rw [foldlM_congr fun s tx hmem => show c.addTx s tx = c'.addTx s tx by
      rw [CoinAgeContext.addTx, CoinAgeContext.addTx, htx tx hmem]]
  · unfold CoinAgeContext.coinStakeAge
    cases hstake : block.vtx[1]? with
    | none => rfl
    | some coinstake => simp only [htx coinstake (List.mem_of_getElem? hstake)]

end Congr

/-! ## Flushing the view -/

/-- `CCoinsViewCache::Flush` of the view of the tip: coins that are spent completely are erased from the database. -/
def CCoinsView.flush (view : CCoinsView) : CCoinsView := { view with getCoins := view.live }

/-- The node after its view was flushed. -/
def ChainState.flush (s : ChainState) : ChainState := { s with pcoinsTip := s.pcoinsTip.flush }

/-- What the coin age of blocks is computed from. -/
def ChainState.coinAgeContext (env : NodeContext) (s : ChainState) : CoinAgeContext :=
  { cfg := env.cfg, cr := env.cr, view := s.pcoinsTip, txIndex := s.txIndex }

section Flush

variable {env : NodeContext} {s : ChainState}

/-- What is known of an input stays exactly when its coins are not spent completely. -/
theorem answer_flush {txin : CTxIn} :
    AnswersAlike (s.coinAgeContext env) (s.flush.coinAgeContext env) txin ↔
      ∀ coins, s.pcoinsTip.getCoins txin.prevout.hash = some coins → coins.isPruned = false := by
  show (s.pcoinsTip.getCoins _).map _ = (s.pcoinsTip.live _).map _ ↔ _
  unfold CCoinsView.live
  cases hcoins : s.pcoinsTip.getCoins txin.prevout.hash with
  | none => simp
  | some coins => cases hp : coins.isPruned <;> simp [hp, ChainState.coinAgeContext, ChainState.flush]

end Flush

/-! ## Nodes that hold the same chain -/

/-- Two nodes hold the same blocks up to a block. -/
def SameChain (s s' : ChainState) (b : Uint256) : Prop :=
  ∀ p ∈ s.mapBlockIndex.chain b, s'.blocks p.phashBlock = s.blocks p.phashBlock ∧
    ∃ p', s'.mapBlockIndex.find p.phashBlock = some p' ∧ p'.pprev = p.pprev ∧ p'.nHeight = p.nHeight

section Chain

variable {cfg : Settings} {cr : Crypto} {s s' : ChainState} {leaves leaves' : Uint256 → Option CCoinsView}

/-- The blocks up to a block decide which coins it leaves. -/
theorem leaves_of_chain (h : LeavesViews cfg cr s leaves) (h' : LeavesViews cfg cr s' leaves') {b : Uint256}
    {p : CBlockIndex} (hp : s.mapBlockIndex.find b = some p) (hchain : SameChain s s' b) {v v' : CCoinsView}
    (hv : leaves b = some v) (hv' : leaves' b = some v') : SameCoins v v' := by
  have hmain := BlockMap.chain_induction (m := s.mapBlockIndex)
    (P := fun p => (∀ q ∈ p :: s.mapBlockIndex.prevChain p, s'.blocks q.phashBlock = s.blocks q.phashBlock ∧
        ∃ q', s'.mapBlockIndex.find q.phashBlock = some q' ∧ q'.pprev = q.pprev ∧ q'.nHeight = q.nHeight) →
      ∀ v v', leaves p.phashBlock = some v → leaves' p.phashBlock = some v' → SameCoins v v')
    ?root ?succ b p hp ?chain v v' ?left ?left'
  case chain => rwa [SameChain, BlockMap.chain_of_find hp] at hchain
  case left => rwa [s.mapBlockIndex.hash_eq b p hp]
  case left' => rwa [s.mapBlockIndex.hash_eq b p hp]
  case root =>
    intro x p hp hroot hsame v v' hv hv'
    obtain ⟨p₁, hp₁, -, -, hrec⟩ := h.known _ v hv
    obtain ⟨p₁', hp₁', -, -, hrec'⟩ := h'.known _ v' hv'
    obtain ⟨-, q', hq', hprev, -⟩ := hsame p List.mem_cons_self
    rw [s.mapBlockIndex.hash_eq x p hp] at hp₁ hp₁' hq'
    obtain rfl := Option.some.inj (hp.symm.trans hp₁)
    obtain rfl := Option.some.inj (hq'.symm.trans hp₁')
    cases hrec with
    | block q vq v₀ block txs hash prev => rw [hroot] at prev; cases prev
    | genesis hash prev empty =>
      cases hrec' with
      | genesis hash' prev' empty' => exact SameCoins.empty empty empty'
      | block q vq v₀ block txs hash prev => rw [hprev, hroot] at prev; cases prev
  case succ =>
    intro x p q pprev hp hq hpprev ih hsame v v' hv hv'
    obtain ⟨p₁, hp₁, -, -, hrec⟩ := h.known _ v hv
    obtain ⟨p₁', hp₁', -, -, hrec'⟩ := h'.known _ v' hv'
    obtain ⟨hblocks, q', hq', hprev, hheight⟩ := hsame p List.mem_cons_self
    have hx := s.mapBlockIndex.hash_eq x p hp
    have hqhash := s.mapBlockIndex.hash_eq q pprev hpprev
    rw [hx] at hp₁ hp₁' hq'
    obtain rfl := Option.some.inj (hp.symm.trans hp₁)
    obtain rfl := Option.some.inj (hq'.symm.trans hp₁')
    cases hrec with
    | genesis hash prev empty => rw [hq] at prev; cases prev
    | block q₁ vq v₀ block txs hash prev left same stored spent undo =>
      cases hrec' with
      | genesis hash' prev' empty' => rw [hprev, hq] at prev'; cases prev'
      | block q₁' vq' v₀' block' txs' hash' prev' left' same' stored' spent' undo' =>
        obtain rfl := Option.some.inj (hq.symm.trans prev)
        obtain rfl := Option.some.inj ((hprev.trans hq).symm.trans prev')
        have hblock : block = block' := by
          have hhash' : q'.phashBlock = p.phashBlock :=
            (s'.mapBlockIndex.hash_eq x q' hq').trans hx.symm
          rw [hhash', hblocks, stored] at stored'
          exact Option.some.inj stored'
        subst hblock
        have hvq : SameCoins vq vq' := by
          refine ih (fun r hr => hsame r (List.mem_cons_of_mem p ?_)) vq vq' (hqhash ▸ left) (hqhash ▸ left')
          rwa [BlockMap.prevChain, hq, Option.map_some, Option.getD_some, BlockMap.chain_of_find hpprev]
        have hstart : SameCoins v₀ v₀' := (same.trans hvq).trans same'.symm
        have hspent' := spent'.spent
        rw [hheight] at hspent'
        exact (Spent.unique hstart spent.spent hspent' (spent.vtx.trans spent'.vtx.symm)).2
  exact hmain

/-- **Two nodes that stand at the same block of one chain have the same coins**, in whatever order they received its
blocks and those of other branches. -/
theorem tip_of_chain {w w' : Linking} (h : LedgerInv cfg cr w) (h' : LedgerInv cfg cr w') {b : Uint256}
    (hbest : w.node.pcoinsTip.bestBlock = some b) (hbest' : w'.node.pcoinsTip.bestBlock = some b)
    (hchain : SameChain w.node w'.node b) : SameCoins w.node.pcoinsTip w'.node.pcoinsTip := by
  obtain ⟨leaves, hleaves, -, hstands⟩ := h
  obtain ⟨leaves', hleaves', -, hstands'⟩ := h'
  obtain ⟨v, hv, hsame⟩ := hstands.somewhere b hbest
  obtain ⟨v', hv', hsame'⟩ := hstands'.somewhere b hbest'
  obtain ⟨p, hp, -⟩ := hleaves.known b v hv
  exact (hsame.trans (leaves_of_chain hleaves hleaves' hp hchain hv hv')).trans hsame'.symm

/-- No input of a block names coins that are spent completely. -/
def NoInputDead (view : CCoinsView) (block : CBlock) : Prop :=
  ∀ tx ∈ block.vtx, tx.hasNoInputs = false → ∀ txin ∈ tx.vin, ∀ coins,
    view.getCoins txin.prevout.hash = some coins → coins.isPruned = false

/-- **The coin age of a block is that of its chain** for nodes that receive it while its predecessor is their tip, when
none of its inputs names coins that are spent completely, and the tx index has the same records of them. -/
theorem coinAge_of_chain {w₀ w w₀' w' : Linking} {env : NodeContext} (hinitial : w₀.Initial env.cfg)
    (hinitial' : w₀'.Initial env.cfg) (hsteps : LedgerSteps env.cfg env.cr w₀ w)
    (hsteps' : LedgerSteps env.cfg env.cr w₀' w') {b : Uint256}
    (hbest : w.node.pcoinsTip.bestBlock = some b) (hbest' : w'.node.pcoinsTip.bestBlock = some b)
    (hchain : SameChain w.node w'.node b) {block : CBlock} (hdead : NoInputDead w.node.pcoinsTip block)
    (hdead' : NoInputDead w'.node.pcoinsTip block)
    (hindex : ∀ tx ∈ block.vtx, tx.hasNoInputs = false → ∀ txin ∈ tx.vin,
      w.node.txIndex txin.prevout.hash = w'.node.txIndex txin.prevout.hash) :
    (w.node.coinAgeContext env).blockCoinAge block = (w'.node.coinAgeContext env).blockCoinAge block ∧
      (w.node.coinAgeContext env).coinStakeAge block = (w'.node.coinAgeContext env).coinStakeAge block := by
  have hsame := tip_of_chain (ledgerInv_steps (ledgerInv_initial hinitial) hsteps)
    (ledgerInv_steps (ledgerInv_initial hinitial') hsteps') hbest hbest' hchain
  have hlive : ∀ {view : CCoinsView} {h : Uint256}, (∀ coins, view.getCoins h = some coins → coins.isPruned = false) →
      view.getCoins h = view.live h := by
    intro view h hp
    unfold CCoinsView.live
    cases hcoins : view.getCoins h with
    | none => rfl
    | some coins =>
      rw [Option.filter_some, hp coins hcoins]
      rfl
  refine coinAge_congr _ _ block rfl rfl fun tx htx hno txin hmem => ?_
  show (w.node.pcoinsTip.getCoins _).map _ = (w'.node.pcoinsTip.getCoins _).map _
  rw [hlive (hdead tx htx hno txin hmem), hlive (hdead' tx htx hno txin hmem), hsame]
  show Option.map (fun coins : CCoins => (coins.nTime, w.node.txIndex txin.prevout.hash)) _ =
    Option.map (fun coins : CCoins => (coins.nTime, w'.node.txIndex txin.prevout.hash)) _
  rw [hindex tx htx hno txin hmem]

end Chain

/-! ## Nodes that know the same of the inputs -/

/-- **Two nodes that know the same of the inputs of a block compute the same coin age**, whatever chains they hold and
whenever they flushed their views. -/
theorem coinAge_eq (env : NodeContext) (s s' : ChainState) (block : CBlock)
    (h : BlockAnswersAlike (s.coinAgeContext env) (s'.coinAgeContext env) block) :
    (s.coinAgeContext env).blockCoinAge block = (s'.coinAgeContext env).blockCoinAge block ∧
      (s.coinAgeContext env).coinStakeAge block = (s'.coinAgeContext env).coinStakeAge block :=
  coinAge_congr _ _ block rfl rfl h

/-- A transaction with an output of 50000 shares, and the hash `1`. -/
def stakedTx : CTransaction where
  nTime := 1300000000
  vin := [{ prevout := ⟨9, 0⟩ }]
  vout := [{ nValue := 500000000, scriptPubKey := sampleScript }]
  nLockTime := 1
  cUnit := unitShare

/-- A coinstake that spends it. -/
def rivalStake : CTransaction where
  nTime := 1400000000
  vin := [{ prevout := ⟨1, 0⟩, scriptSig := sampleScriptSig }]
  vout := [CTxOut.empty, { nValue := 500400000, scriptPubKey := sampleScript }]
  nLockTime := 14
  cUnit := unitShare

/-- A proof-of-stake block above the block `4`. -/
def rivalBlock : CBlock := sampleBlock 7 4 1400000000 [sampleCoinbase 15 1400000000 CTxOut.empty, rivalStake]

/-- The coins of the staked transaction. -/
def stakedView : CCoinsView where
  getCoins txid := if txid = 1 then some (CCoins.ofTx stakedTx 1) else none
  bestBlock := some 4

/-- A node whose tip is the block `5` above the block `4`: a transaction of this block has spent the staked output. -/
def rivalNode (view : CCoinsView) : ChainState :=
  { ChainState.contestedNode ChainState.emptyTx with
    pindexBest := some 5
    pcoinsTip := view.setBestBlock (some 5)
    txIndex := fun txid => if txid = 1 then some ⟨{ nTime := 1300000000 }, 0, stakedTx⟩ else none }

/-- Before anything is spent, the coin age of the block is that of its coinstake. -/
theorem coinAge_eq_sample :
    ((rivalNode stakedView).coinAgeContext ChainState.sampleContext).blockCoinAge rivalBlock =
        ((rivalNode stakedView).flush.coinAgeContext ChainState.sampleContext).blockCoinAge rivalBlock ∧
      ((rivalNode stakedView).coinAgeContext ChainState.sampleContext).coinStakeAge rivalBlock =
        ((rivalNode stakedView).flush.coinAgeContext ChainState.sampleContext).coinStakeAge rivalBlock := by
  refine coinAge_eq ChainState.sampleContext (rivalNode stakedView) (rivalNode stakedView).flush rivalBlock
    fun tx htx hno txin hmem => answer_flush.mpr fun coins hcoins => ?_
  change (if txin.prevout.hash = 1 then some (CCoins.ofTx stakedTx 1) else none) = some coins at hcoins
  split at hcoins
  · cases hcoins
    decide
  · cases hcoins

/-- **A block whose coin age depends on when the view was flushed**: its coinstake spends an output that a block of the
other branch has spent. As long as the coins stay in the view the stake counts, once they are erased it does not. -/
theorem coinAge_depends_on_flush :
    ∃ r, (spendShares unitShare).updateCoins stakedView 5 12 = .ok r ∧
      ((rivalNode r.1).coinAgeContext ChainState.sampleContext).coinStakeAge rivalBlock = .ok 57870370 ∧
      ((rivalNode r.1).flush.coinAgeContext ChainState.sampleContext).coinStakeAge rivalBlock = .ok 0 ∧
      ((rivalNode r.1).coinAgeContext ChainState.sampleContext).blockCoinAge rivalBlock = .ok 57870370 ∧
      ((rivalNode r.1).flush.coinAgeContext ChainState.sampleContext).blockCoinAge rivalBlock = .ok 1 := by
  refine ⟨_, rfl, ?_, ?_, ?_, ?_⟩ <;> exact toOption_eq_some.mp (by decide +kernel)

end Morcochain
