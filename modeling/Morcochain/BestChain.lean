import Morcochain.ConnectBlock

/-!
# The best chain

`DisconnectBlock`, `SetBestChain`, `InvalidBlockFound` and `ConnectBestBlock` (`main.cpp`): how the node moves its view
of the unspent outputs from one block to another, and how it picks the block to move to among `setBlockIndexValid`.

`InvalidBlockFound` calls `ConnectBestBlock` again, so the latter takes the number of calls and rounds that are left;
the results below hold for every such number.

* `ReorgStep` : what `ConnectBestBlock` changes, one step at a time.
* `connectBestBlock_steps` : **everything that `ConnectBestBlock` does is a sequence of such steps**.
* `connectFailure_attributed_iff` : **when the failure of a block's connection takes the block out of the candidates**.
-/

set_option autoImplicit false

namespace Morcochain

open Guard

/-! ## The state of the node -/

/-- The settings of the node, and the adjusted time. -/
structure NodeContext where
  cfg : Settings := {}
  cr : Crypto
  fThreads : Bool := false
  nAdjustedTime : Int

/-- `TrustHash`. -/
structure TrustHash where
  nChainTrust : Uint256
  hash : Uint256
deriving DecidableEq, Repr

/-- `TrustHash(const CBlockIndex*)`. -/
def CBlockIndex.trustHash (pindex : CBlockIndex) : TrustHash := ⟨pindex.nChainTrust, pindex.phashBlock⟩

/-- `CBlockIndexWorkComparator`: less trust, or as much trust and a larger hash. -/
def TrustHash.lt (pa pb : TrustHash) : Bool :=
  pa.nChainTrust < pb.nChainTrust || (pa.nChainTrust = pb.nChainTrust && pb.hash < pa.hash)

/-- What the node knows of blocks: the block index, the blocks that it may connect, the view of the unspent outputs, and
what is on disk. -/
structure ChainState extends KernelState where
  setBlockIndexValid : List TrustHash := []
  pcoinsTip : CCoinsView
  /-- The block files, by the hash of the index entry. -/
  blocks : Uint256 → Option CBlock
  /-- The undo files, by the hash of the index entry. -/
  undo : Uint256 → Option (List (List CTxInUndo)) := fun _ => none
  txIndex : Uint256 → Option CDiskTx := fun _ => none

namespace ChainState

variable (env : NodeContext) (s : ChainState)

/-- `setBlockIndexValid.rbegin()`. -/
def bestCandidate : Option TrustHash :=
  s.setBlockIndexValid.foldl (fun best it => if best.all (TrustHash.lt · it) then some it else best) none

/-- The entry of the best block. -/
def bestIndex : Option CBlockIndex := s.pindexBest.bind s.mapBlockIndex.find

/-- Change the entry of a block. -/
def modifyIndex (hash : Uint256) (f : CBlockIndex → CBlockIndex) : ChainState :=
  { s with mapBlockIndex := s.mapBlockIndex.modify hash f }

/-- Take an entry out of the candidates. -/
def eraseValid (pindex : CBlockIndex) : ChainState :=
  { s with setBlockIndexValid := s.setBlockIndexValid.filter (· ≠ pindex.trustHash) }

/-- `CBlock::ReadFromDisk(const CBlockIndex*)`. -/
def readFromDisk (pindex : CBlockIndex) : Option CBlock :=
  (s.blocks pindex.phashBlock).filter fun block =>
    block.getHash env.cr = pindex.phashBlock ∧
      (block.isProofOfStake ∨ checkProofOfWork (block.getHash env.cr) block.nBits)

/-- The block of an entry, or the end of the routine. -/
def readBlock (pindex : CBlockIndex) : Check CBlock :=
  match s.readFromDisk env pindex with
  | none => .error (.abort "Failed to read block")
  | some block => .ok block

end ChainState

/-! ## DisconnectBlock -/

/-- The loop variables of `DisconnectBlock`: the view, and whether it was found as expected. -/
structure DisconnectState where
  view : CCoinsView
  fClean : Bool := true

namespace DisconnectState

variable (s : DisconnectState)

/-- Restore the output that an input spent. -/
def restoreInput (txin : CTxIn) (undo : CTxInUndo) : DisconnectState :=
  let out := txin.prevout
  let found := (s.view.getCoins out.hash).getD {}
  -- undo data contains the height: this is the last output of the transaction being spent
  let fLast := undo.nHeight ≠ 0
  let coins : CCoins :=
    if fLast then
      { fCoinBase := undo.fCoinBase, nHeight := undo.nHeight, nVersion := undo.nVersion
        fCoinStake := undo.fCoinStake, nTime := undo.nTime, cUnit := undo.cUnit }
    else found
  let vout := coins.vout ++ List.replicate (out.n + 1 - coins.vout.length) CTxOut.null
  { view := s.view.setCoins out.hash { coins with vout := vout.set out.n undo.txout }
    fClean := s.fClean && (if fLast then found.isPruned else !found.isPruned) && !coins.isAvailable out.n }

/-- Take the outputs of a transaction away. -/
def removeOutputs (cr : Crypto) (nHeight : Int) (tx : CTransaction) : DisconnectState :=
  let hash := tx.getHash cr
  let found := s.view.getCoins hash
  let outsBlock := CCoins.ofTx tx nHeight
  let outs := found.getD {}
  let outs := if outsBlock.nVersion < 0 then { outs with nVersion := outsBlock.nVersion } else outs
  { view := s.view.setCoins hash {}
    fClean := s.fClean && found.isSome && outs = outsBlock }

/-- Undo a transaction that is not the coinbase. -/
def undoTx (cr : Crypto) (nHeight : Int) (tx : CTransaction × List CTxInUndo) : Check DisconnectState :=
  let s := s.removeOutputs cr nHeight tx.1
  if tx.1.isCustodianGrant then .ok s
  else if tx.2.length ≠ tx.1.vin.length then
    .error (.error "DisconnectBlock() : transaction and undo data inconsistent")
  else .ok ((tx.1.vin.zip tx.2).reverse.foldl (fun s i => s.restoreInput i.1 i.2) s)

end DisconnectState

/-- `CBlock::DisconnectBlock`, given the undo data. -/
def CBlock.disconnectBlock (block : CBlock) (cr : Crypto) (pindex : CBlockIndex)
    (blockUndo : Option (List (List CTxInUndo))) (view : CCoinsView) : Check CCoinsView := do
  rejectIf (some pindex.phashBlock ≠ view.bestBlock) (.assertion "pindex == view.GetBestBlock()")
  match blockUndo with
  | none => .error (.error "DisconnectBlock() : no undo data available")
  | some vtxundo =>
    errorIf (vtxundo.length + 1 ≠ block.vtx.length) "DisconnectBlock() : block and undo data inconsistent"
    let start : DisconnectState := { view := view }
    let s ← ((block.vtx.drop 1).zip vtxundo).reverse.foldlM (fun s tx => s.undoTx cr pindex.nHeight tx) start
    let s := block.vtx.head?.elim s (s.removeOutputs cr pindex.nHeight)
    errorIf (!s.fClean) "DisconnectBlock() : database corrupted"
    return s.view.setBestBlock pindex.pprev

/-! ## SetBestChain -/

/-- The node and the view while the blocks of a chain are connected. -/
structure Linking where
  node : ChainState
  view : CCoinsView

namespace Linking

variable (env : NodeContext) (w : Linking)

/-- What the checks of a block depend on. -/
def contextOf (pindex : CBlockIndex) : ConnectContext :=
  { cfg := env.cfg, cr := env.cr, pindex := pindex, chainPrev := w.node.mapBlockIndex.prevChain pindex
    fThreads := env.fThreads }

/-- The node and the view after a block was connected: its entry, its undo data, unless it has some, and its records
in the tx index are written. -/
def linked (pindex : CBlockIndex) (c : Connected) : Linking where
  node :=
    { w.node.modifyIndex pindex.phashBlock (fun _ => c.pindex) with
      undo := fun h =>
        if h = pindex.phashBlock ∧ pindex.nStatus &&& blockHaveUndo = 0 ∧ c.pindex.nStatus &&& blockHaveUndo ≠ 0 then
          some c.vtxundo
        else w.node.undo h
      txIndex := fun txid => (c.vPos.reverse.lookup txid).or (w.node.txIndex txid) }
  view := c.view

/-- Connect one block. -/
def linkBlock (hash : Uint256) : Check Linking :=
  match w.node.mapBlockIndex.find hash with
  | none => .error (.assertion "mapBlockIndex")
  | some pindex => do
    let block ← w.node.readBlock env pindex
    let c ← (w.contextOf env pindex).connectBlock block w.view false env.nAdjustedTime
    return w.linked pindex c

/-- Connect blocks one after the other; where that fails, the block and the failure. -/
def linkBlocks : Linking → List Uint256 → Linking × Option (Uint256 × Failure)
  | w, [] => (w, none)
  | w, hash :: rest =>
    match w.linkBlock env hash with
    | .error e => (w, some (hash, e))
    | .ok w' => linkBlocks w' rest

end Linking

namespace ChainState

variable (env : NodeContext)

/-- The chain that the view stands at. -/
def tipChain (s : ChainState) : List CBlockIndex := (s.pcoinsTip.bestBlock.map s.mapBlockIndex.chain).getD []

/-- The blocks of the view's chain and of another one, above the fork: `vDisconnect` and `vConnect`. -/
def forkTo (s : ChainState) (hashNew : Uint256) : Check (List CBlockIndex × List CBlockIndex) := do
  rejectIf (s.tipChain ≠ [] ∧ findFork s.tipChain (s.mapBlockIndex.chain hashNew) = none) (.assertion "pfork != NULL")
  return (disconnected s.tipChain (s.mapBlockIndex.chain hashNew), connected s.tipChain (s.mapBlockIndex.chain hashNew))

/-- Disconnect one block. -/
def unlinkBlock (s : ChainState) (view : CCoinsView) (pindex : CBlockIndex) : Check CCoinsView := do
  let block ← s.readBlock env pindex
  block.disconnectBlock env.cr pindex (s.undo pindex.phashBlock) view

/-- The first part of `SetBestChain`: the fork, and the view with the blocks above it disconnected. -/
def unlinkBlocks (s : ChainState) (hashNew : Uint256) :
    Check ((List CBlockIndex × List CBlockIndex) × CCoinsView) := do
  let fork ← s.forkTo hashNew
  let view ← fork.1.foldlM (s.unlinkBlock env) s.pcoinsTip
  return (fork, view)

/-- The updates of `SetBestChain` once the blocks are connected: the view, the successors, the records of the stake
modifiers and the best block. -/
def commit (s : ChainState) (fork : List CBlockIndex × List CBlockIndex) (hashNew : Uint256) (view : CCoinsView) :
    ChainState :=
  { s with
    mapBlockIndex := s.mapBlockIndex.relink fork.1 fork.2
    pblocktree := s.pblocktree.applyChanges (modifierChanges fork.1 fork.2)
    pcoinsTip := view
    pindexBest := some hashNew }

/-- Mark a block as failed and take it out of the candidates. -/
def markFailed (s : ChainState) (pindex : CBlockIndex) : ChainState :=
  (s.modifyIndex pindex.phashBlock (fun p => { p with nStatus := p.nStatus ||| blockFailedValid })).eraseValid pindex

/-- Mark the descendants of a failed block, and take them out of the candidates. -/
def markFailedChild (s : ChainState) (pindex : CBlockIndex) : ChainState :=
  (s.modifyIndex pindex.phashBlock (fun p => { p with nStatus := p.nStatus ||| blockFailedChild })).eraseValid pindex

/-- `InvalidBlockFound`, given `ConnectBestBlock`. -/
def invalidBlockFound (reorg : ChainState → ChainState) (s : ChainState) (hash : Uint256) : ChainState :=
  match s.mapBlockIndex.find hash with
  | none => s
  | some pindex => if pindex.pnext.isSome then reorg (s.markFailed pindex) else s.markFailed pindex

/-- `SetBestChain`, given `ConnectBestBlock`. -/
def setBestChain (reorg : ChainState → ChainState) (s : ChainState) (hashNew : Uint256) : ChainState × Option Failure :=
  match s.unlinkBlocks env hashNew with
  | .error e => (s, some e)
  | .ok (fork, view) =>
    match Linking.linkBlocks env ⟨s, view⟩ (fork.2.map (·.phashBlock)) with
    | (w, some (hash, e)) => (if e.invalidates then w.node.invalidBlockFound reorg hash else w.node, some e)
    | (w, none) => (w.node.commit fork hashNew w.view, none)

/-! ## ConnectBestBlock -/

/-- Make the blocks of a list the best block, one after the other. -/
def switchTo (reorg : ChainState → ChainState) : ChainState → List Uint256 → ChainState × Option Failure
  | s, [] => (s, none)
  | s, hash :: rest =>
    match s.setBestChain env reorg hash with
    | (s', none) => switchTo reorg s' rest
    | (s', some (.exception msg)) => (s', some (.abort ("System error: " ++ msg)))
    | (s', some e) => (s', some e)

/-- What the scan of a candidate's ancestors finds. -/
inductive Ancestry where
  /-- An ancestor has failed: the blocks above it. -/
  | failed (descendants : List CBlockIndex)
  /-- The blocks to switch to, from the lowest on. -/
  | attach (vAttach : List CBlockIndex)

/-- The scan down from a candidate, with the blocks passed so far and those to switch to. -/
def checkAncestry (nBestTrust : Option Uint256) :
    List CBlockIndex → List CBlockIndex → List CBlockIndex → Ancestry
  | [], _, vAttach => .attach vAttach
  | pindexTest :: rest, passed, vAttach =>
    if pindexTest.isFailed then .failed passed
    else
      let vAttach := if nBestTrust.all (· < pindexTest.nChainTrust) then pindexTest :: vAttach else vAttach
      if pindexTest.pprev.isNone ∨ pindexTest.pnext.isSome then .attach vAttach
      else checkAncestry nBestTrust rest (pindexTest :: passed) vAttach

/-- `ConnectBestBlock`, with the calls and rounds that are left. -/
def connectBestBlock : Nat → ChainState → ChainState × Option Failure
  | 0, s => (s, none)
  | fuel + 1, s =>
    match s.bestCandidate with
    | none => (s, none)
    | some it =>
      match s.mapBlockIndex.find it.hash with
      | none => (s, some (.assertion "mapBlockIndex[it->hash]"))
      | some pindexNewBest =>
        if s.pindexBest = some it.hash ∨ s.bestIndex.any (·.nChainTrust = pindexNewBest.nChainTrust) then (s, none)
        else
          match checkAncestry (s.bestIndex.map (·.nChainTrust)) (s.mapBlockIndex.chain it.hash) [] [] with
          | .failed descendants => connectBestBlock fuel (descendants.foldl markFailedChild s)
          | .attach vAttach => s.switchTo env (fun s => (connectBestBlock fuel s).1) (vAttach.map (·.phashBlock))

/-! ## What ConnectBestBlock changes -/

/-- One step of `ConnectBestBlock`. -/
inductive ReorgStep (s : ChainState) : ChainState → Prop where
  /-- A block is connected to a view. -/
  | link (view : CCoinsView) (pindex : CBlockIndex) (block : CBlock) (c : Connected)
      (hfind : s.mapBlockIndex.find pindex.phashBlock = some pindex)
      (hconnect : (Linking.contextOf env ⟨s, view⟩ pindex).connectBlock block view false env.nAdjustedTime = .ok c) :
      ReorgStep s (Linking.linked ⟨s, view⟩ pindex c).node
  /-- A block can not be connected. -/
  | failed (pindex : CBlockIndex) : ReorgStep s (s.markFailed pindex)
  /-- A block above a failed block is found. -/
  | failedChild (pindex : CBlockIndex) : ReorgStep s (s.markFailedChild pindex)
  /-- A candidate or an ancestor of it becomes the best block; the fork was found before blocks were connected. -/
  | commit (s₀ : ChainState) (fork : List CBlockIndex × List CBlockIndex) (view : CCoinsView) (it : TrustHash)
      (hashNew : Uint256) (hit : it ∈ s.setBlockIndexValid) (hchain : s.mapBlockIndex.InChain hashNew it.hash)
      (hlinks : s₀.mapBlockIndex.SameLinks s.mapBlockIndex) (htip : s.pcoinsTip = s₀.pcoinsTip)
      (hfork : s₀.forkTo hashNew = .ok fork) (hview : view.bestBlock = some hashNew) :
      ReorgStep s (s.commit fork hashNew view)

/-- Any number of steps. -/
abbrev ReorgSteps (s s' : ChainState) : Prop := Relation.ReflTransGen (ReorgStep env) s s'

section Steps

variable {env} {s s' : ChainState} {reorg : ChainState → ChainState}

/-- No step changes which blocks are known and what their predecessors are. -/
theorem ReorgStep.sameLinks (h : ReorgStep env s s') : s.mapBlockIndex.SameLinks s'.mapBlockIndex := by
  cases h with
  | link => exact BlockMap.sameLinks_modify _ _ _
  | failed => exact BlockMap.sameLinks_modify _ _ _
  | failedChild => exact BlockMap.sameLinks_modify _ _ _
  | commit => exact SameButNext.sameLinks (sameButNext_relink _ _ _)

/-- No step adds a candidate. -/
theorem ReorgStep.valid_subset (h : ReorgStep env s s') : s'.setBlockIndexValid ⊆ s.setBlockIndexValid := by
  cases h with
  | link => exact List.Subset.refl _
  | failed => exact List.filter_subset_self _
  | failedChild => exact List.filter_subset_self _
  | commit => exact List.Subset.refl _

theorem linkBlock_ok {w w' : Linking} {hash : Uint256} (h : w.linkBlock env hash = .ok w') :
    ∃ pindex block c, w.node.mapBlockIndex.find hash = some pindex ∧ w.node.readFromDisk env pindex = some block ∧
      (w.contextOf env pindex).connectBlock block w.view false env.nAdjustedTime = .ok c ∧ w' = w.linked pindex c := by
  unfold Linking.linkBlock at h
  cases hfind : w.node.mapBlockIndex.find hash with
  | none =>
    rw [hfind] at h
    cases h
  | some pindex =>
    rw [hfind] at h
    simp only [bind_eq_ok] at h
    obtain ⟨block, hread, c, hconnect, h⟩ := h
    refine ⟨pindex, block, c, rfl, ?_, hconnect, (Except.ok.inj h).symm⟩
    unfold readBlock at hread
    cases hdisk : w.node.readFromDisk env pindex with
    | none =>
      rw [hdisk] at hread
      cases hread
    | some block' =>
      rw [hdisk] at hread
      cases hread
      rfl

/-- What connecting blocks leaves alone. -/
structure SameTip (s s' : ChainState) : Prop where
  valid : s'.setBlockIndexValid = s.setBlockIndexValid
  coins : s'.pcoinsTip = s.pcoinsTip
  best : s'.pindexBest = s.pindexBest
  modifiers : s'.pblocktree = s.pblocktree
  blocks : s'.blocks = s.blocks

theorem SameTip.trans {s'' : ChainState} (h : SameTip s s') (h' : SameTip s' s'') : SameTip s s'' :=
  ⟨h'.valid.trans h.valid, h'.coins.trans h.coins, h'.best.trans h.best, h'.modifiers.trans h.modifiers,
    h'.blocks.trans h.blocks⟩

/-- The steps of a loop that connects blocks. -/
theorem linkBlocks_steps : ∀ {hashes : List Uint256} {w w' : Linking} {r : Option (Uint256 × Failure)},
    Linking.linkBlocks env w hashes = (w', r) → ReorgSteps env w.node w'.node ∧ SameTip w.node w'.node
  | [], w, w', r, h => by
    cases h
    exact ⟨.refl, ⟨rfl, rfl, rfl, rfl, rfl⟩⟩
  | hash :: rest, w, w', r, h => by
    rw [Linking.linkBlocks] at h
    cases hlink : w.linkBlock env hash with
    | error e =>
      rw [hlink] at h
      cases h
      exact ⟨.refl, ⟨rfl, rfl, rfl, rfl, rfl⟩⟩
    | ok w₁ =>
      rw [hlink] at h
      obtain ⟨pindex, block, c, hfind, -, hconnect, rfl⟩ := linkBlock_ok hlink
      have hhash : pindex.phashBlock = hash := w.node.mapBlockIndex.hash_eq hash pindex hfind
      obtain ⟨hsteps, htip⟩ := linkBlocks_steps h
      exact ⟨.head (.link w.view pindex block c (hhash ▸ hfind) hconnect) hsteps,
        SameTip.trans (show SameTip w.node (w.linked pindex c).node from ⟨rfl, rfl, rfl, rfl, rfl⟩) htip⟩

theorem ReorgSteps.sameLinks (h : ReorgSteps env s s') : s.mapBlockIndex.SameLinks s'.mapBlockIndex := by
  induction h with
  | refl => exact .refl _
  | tail _ hstep ih => exact ih.trans hstep.sameLinks

theorem ReorgSteps.valid_subset (h : ReorgSteps env s s') : s'.setBlockIndexValid ⊆ s.setBlockIndexValid := by
  induction h with
  | refl => exact List.Subset.refl _
  | tail _ hstep ih => exact List.Subset.trans hstep.valid_subset ih

theorem invalidBlockFound_steps (hreorg : ∀ s, ReorgSteps env s (reorg s)) (s : ChainState) (hash : Uint256) :
    ReorgSteps env s (s.invalidBlockFound reorg hash) := by
  unfold invalidBlockFound
  split
  · exact .refl
  · split
    · exact .head (.failed _) (hreorg _)
    · exact .single (.failed _)

/-! ### Where the view stands -/

theorem connectBlock_bestBlock {c : ConnectContext} {block : CBlock} {view : CCoinsView} {t : Int} {r : Connected}
    (h : c.connectBlock block view false t = .ok r) : r.view.bestBlock = some c.pindex.phashBlock := by
  by_cases hg : block.getHash c.cr = c.cfg.hashGenesisBlock
  · unfold ConnectContext.connectBlock ConnectContext.connectChecked at h
    simp only [bind_eq_ok, if_pos hg] at h
    obtain ⟨_, -, _, -, h⟩ := h
    cases h
    rfl
  · obtain ⟨-, -, -, s, -, rfl⟩ := connectBlock_ok h hg
    rfl

/-- Once the last block is connected the view stands at it. -/
theorem linkBlocks_bestBlock : ∀ {hashes : List Uint256} {w w' : Linking} {hash : Uint256},
    Linking.linkBlocks env w (hashes ++ [hash]) = (w', none) → w'.view.bestBlock = some hash
  | [], w, w', hash, h => by
    rw [List.nil_append, Linking.linkBlocks] at h
    cases hlink : w.linkBlock env hash with
    | error e =>
      rw [hlink] at h
      cases h
    | ok w₁ =>
      rw [hlink] at h
      cases h
      obtain ⟨pindex, block, c, hfind, -, hconnect, rfl⟩ := linkBlock_ok hlink
      rw [← w.node.mapBlockIndex.hash_eq hash pindex hfind]
      exact connectBlock_bestBlock hconnect
  | a :: hashes, w, w', hash, h => by
    rw [List.cons_append, Linking.linkBlocks] at h
    cases hlink : w.linkBlock env a with
    | error e =>
      rw [hlink] at h
      cases h
    | ok w₁ =>
      rw [hlink] at h
      exact linkBlocks_bestBlock h

theorem unlinkBlock_bestBlock {view view' : CCoinsView} {pindex : CBlockIndex}
    (h : s.unlinkBlock env view pindex = .ok view') : view'.bestBlock = pindex.pprev := by
  unfold unlinkBlock CBlock.disconnectBlock at h
  simp only [bind_eq_ok] at h
  obtain ⟨block, -, _, -, h⟩ := h
  split at h
  · cases h
  · simp only [bind_eq_ok] at h
    obtain ⟨_, -, ds, -, _, -, h⟩ := h
    cases h
    rfl

/-- Once the blocks above the fork are disconnected the view stands at the fork. -/
theorem unlinkBlocks_bestBlock {f : CBlockIndex} :
    ∀ {above : List CBlockIndex} {hash : Uint256} {view view' : CCoinsView},
    s.mapBlockIndex.chain hash = above ++ s.mapBlockIndex.chain f.phashBlock →
      s.mapBlockIndex.find f.phashBlock = some f → view.bestBlock = some hash →
      above.foldlM (s.unlinkBlock env) view = .ok view' → view'.bestBlock = some f.phashBlock
  | [], hash, view, view', hchain, hf, hbest, h => by
    rw [List.foldlM_nil] at h
    cases h
    cases hp : s.mapBlockIndex.find hash with
    | none =>
      rw [BlockMap.chain_of_none hp, List.nil_append, BlockMap.chain_of_find hf] at hchain
      cases hchain
    | some p =>
      rw [BlockMap.chain_of_find hp, List.nil_append, BlockMap.chain_of_find hf, List.cons.injEq] at hchain
      rw [hbest, ← hchain.1, s.mapBlockIndex.hash_eq hash p hp]
  | p :: above, hash, view, view', hchain, hf, hbest, h => by
    obtain ⟨view₁, h₁, h₂⟩ := foldlM_cons_ok.mp h
    cases hp : s.mapBlockIndex.find hash with
    | none =>
      rw [BlockMap.chain_of_none hp] at hchain
      cases hchain
    | some p' =>
      rw [BlockMap.chain_of_find hp, List.cons_append, List.cons.injEq] at hchain
      obtain ⟨rfl, hchain⟩ := hchain
      rw [BlockMap.prevChain] at hchain
      cases hprev : p'.pprev with
      | none =>
        rw [hprev, BlockMap.chain_of_find hf] at hchain
        exact absurd hchain.symm (by simp)
      | some q =>
        rw [hprev] at hchain
        exact unlinkBlocks_bestBlock hchain hf ((unlinkBlock_bestBlock h₁).trans hprev) h₂

/-- The view stands at the new best block once everything is connected. -/
theorem bestBlock_of_linked {hashNew : Uint256} {fork : List CBlockIndex × List CBlockIndex} {view : CCoinsView}
    {w : Linking} {p : CBlockIndex} (hp : s.mapBlockIndex.find hashNew = some p)
    (hun : s.unlinkBlocks env hashNew = .ok (fork, view))
    (hlink : Linking.linkBlocks env ⟨s, view⟩ (fork.2.map (·.phashBlock)) = (w, none)) :
    s.forkTo hashNew = .ok fork ∧ w.view.bestBlock = some hashNew := by
  unfold unlinkBlocks at hun
  obtain ⟨fork', hfork, hun⟩ := bind_eq_ok.mp hun
  obtain ⟨view', hview, hun⟩ := bind_eq_ok.mp hun
  cases hun
  refine ⟨hfork, ?_⟩
  unfold forkTo at hfork
  obtain ⟨_, hassert, hfork⟩ := bind_eq_ok.mp hfork
  cases hfork
  have hphash := s.mapBlockIndex.hash_eq hashNew p hp
  -- either the new block is the last one connected, or it is the fork
  have hhead : ∀ above rest : List CBlockIndex, s.mapBlockIndex.chain hashNew = above ++ rest → above ≠ [] →
      ∃ l, above.reverse.map (·.phashBlock) = l ++ [hashNew] := by
    intro above rest habove hne
    cases above with
    | nil => exact absurd rfl hne
    | cons a above =>
      rw [BlockMap.chain_of_find hp, List.cons_append, List.cons.injEq] at habove
      refine ⟨above.reverse.map (·.phashBlock), ?_⟩
      rw [List.reverse_cons, List.map_append, ← habove.1, List.map_singleton, hphash]
  by_cases htip : s.tipChain = []
  · obtain ⟨l, hl⟩ := hhead (s.mapBlockIndex.chain hashNew) [] (List.append_nil _).symm (by
      rw [BlockMap.chain_of_find hp]; exact List.cons_ne_nil _ _)
    have hconn : connected s.tipChain (s.mapBlockIndex.chain hashNew) = (s.mapBlockIndex.chain hashNew).reverse := by
      rw [connected, htip, findFork, aboveFork, List.takeWhile_eq_self_iff.mpr (by simp)]
    rw [hconn, hl] at hlink
    exact linkBlocks_bestBlock hlink
  · have hsome : findFork s.tipChain (s.mapBlockIndex.chain hashNew) ≠ none := fun hnone =>
      rejectIf_eq_ok.mp hassert ⟨htip, hnone⟩
    obtain ⟨f, hf⟩ := Option.ne_none_iff_exists'.mp hsome
    obtain ⟨b, hb⟩ : ∃ b, s.pcoinsTip.bestBlock = some b := by
      cases hb : s.pcoinsTip.bestBlock with
      | none =>
        rw [tipChain, hb] at htip
        exact absurd rfl htip
      | some b => exact ⟨b, rfl⟩
    have htipb : s.tipChain = s.mapBlockIndex.chain b := by rw [tipChain, hb]; rfl
    rw [htipb] at hf hlink hview
    obtain ⟨hfb, hfn, hsplitb, hsplitn, -⟩ := fork_spec hf
    by_cases hnil : connected (s.mapBlockIndex.chain b) (s.mapBlockIndex.chain hashNew) = []
    · rw [hnil] at hlink
      cases hlink
      rw [hnil, List.reverse_nil, List.nil_append, BlockMap.chain_of_find hp,
        BlockMap.chain_of_find (BlockMap.find_of_mem_chain hfn), List.cons.injEq] at hsplitn
      rw [← hphash, hsplitn.1]
      exact unlinkBlocks_bestBlock hsplitb (BlockMap.find_of_mem_chain hfb) hb hview
    · obtain ⟨l, hl⟩ := hhead _ _ hsplitn (by simpa using hnil)
      rw [List.reverse_reverse] at hl
      simp only [hl] at hlink
      exact linkBlocks_bestBlock hlink

/-- The steps of `SetBestChain` for a candidate or an ancestor of it; when it succeeds the candidates stay. -/
theorem setBestChain_steps (hreorg : ∀ s, ReorgSteps env s (reorg s)) {it : TrustHash} {hashNew : Uint256}
    (hit : it ∈ s.setBlockIndexValid) (hchain : s.mapBlockIndex.InChain hashNew it.hash) {r : Option Failure}
    (h : s.setBestChain env reorg hashNew = (s', r)) :
    ReorgSteps env s s' ∧ (r = none → s'.setBlockIndexValid = s.setBlockIndexValid) := by
  unfold setBestChain at h
  cases hun : s.unlinkBlocks env hashNew with
  | error e =>
    rw [hun] at h
    cases h
    exact ⟨.refl, nofun⟩
  | ok u =>
    rw [hun] at h
    simp only at h
    split at h
    · rename_i w hash e hlinks
      cases h
      obtain ⟨hsteps, -⟩ := linkBlocks_steps hlinks
      refine ⟨?_, nofun⟩
      split
      · exact hsteps.trans (invalidBlockFound_steps hreorg ..)
      · exact hsteps
    · rename_i w hlinks
      cases h
      obtain ⟨hsteps, htip⟩ := linkBlocks_steps hlinks
      obtain ⟨p, hp⟩ := BlockMap.find_of_inChain hchain
      obtain ⟨hfork, hview⟩ := bestBlock_of_linked hp hun hlinks
      exact ⟨hsteps.tail (.commit s _ _ it hashNew (htip.valid ▸ hit)
        ((BlockMap.inChain_congr hsteps.sameLinks).mpr hchain) hsteps.sameLinks htip.coins hfork hview),
        fun _ => htip.valid⟩

theorem switchTo_steps (hreorg : ∀ s, ReorgSteps env s (reorg s)) {it : TrustHash} :
    ∀ {hashes : List Uint256} {s : ChainState}, it ∈ s.setBlockIndexValid →
      (∀ hash ∈ hashes, s.mapBlockIndex.InChain hash it.hash) → ReorgSteps env s (s.switchTo env reorg hashes).1
  | [], _, _, _ => .refl
  | hash :: rest, s, hit, hchain => by
    rw [switchTo]
    cases h : s.setBestChain env reorg hash with
    | mk s' r =>
      obtain ⟨hsteps, hvalid⟩ := setBestChain_steps hreorg hit (hchain hash List.mem_cons_self) h
      cases r with
      | none =>
        refine hsteps.trans (switchTo_steps hreorg (hvalid rfl ▸ hit) fun hash' hmem => ?_)
        exact (BlockMap.inChain_congr hsteps.sameLinks).mpr (hchain hash' (List.mem_cons_of_mem _ hmem))
      | some e => cases e <;> exact hsteps

/-- The blocks to switch to are among those scanned. -/
theorem checkAncestry_attach {nBestTrust : Option Uint256} {vAttach : List CBlockIndex} :
    ∀ {l passed attach : List CBlockIndex}, checkAncestry nBestTrust l passed attach = .attach vAttach →
      ∀ p ∈ vAttach, p ∈ l ∨ p ∈ attach
  | [], _, _, h => by
    cases h
    exact fun _ hp => .inr hp
  | pindexTest :: rest, passed, attach, h => by
    have hnext : ∀ p, p ∈ (if nBestTrust.all (· < pindexTest.nChainTrust) then pindexTest :: attach else attach) →
        p ∈ pindexTest :: rest ∨ p ∈ attach := by
      intro p hp
      split at hp
      · rcases List.mem_cons.mp hp with rfl | hp
        · exact .inl List.mem_cons_self
        · exact .inr hp
      · exact .inr hp
    rw [checkAncestry] at h
    split at h
    · cases h
    · simp only at h
      split at h
      · cases h
        exact hnext
      · intro p hp
        rcases checkAncestry_attach h p hp with hmem | hmem
        · exact .inl (List.mem_cons_of_mem _ hmem)
        · exact hnext p hmem

theorem foldl_markFailedChild_steps : ∀ (l : List CBlockIndex) (s : ChainState),
    ReorgSteps env s (l.foldl markFailedChild s)
  | [], _ => .refl
  | p :: l, s => .head (.failedChild p) (foldl_markFailedChild_steps l (s.markFailedChild p))

theorem bestCandidate_mem {it : TrustHash} (h : s.bestCandidate = some it) : it ∈ s.setBlockIndexValid := by
  have hfold : ∀ (l : List TrustHash) (best : Option TrustHash) (it : TrustHash),
      l.foldl (fun best it => if best.all (TrustHash.lt · it) then some it else best) best = some it →
        best = some it ∨ it ∈ l := by
    intro l
    induction l with
    | nil => exact fun _ _ h => .inl h
    | cons a l ih =>
      intro best it h
      rcases ih _ _ h with h | h
      · simp only at h
        split at h
        · exact .inr (Option.some.inj h ▸ List.mem_cons_self)
        · exact .inl h
      · exact .inr (List.mem_cons_of_mem _ h)
  exact (hfold _ _ _ h).resolve_left nofun

/-- **Everything that `ConnectBestBlock` does is a sequence of such steps.** -/
theorem connectBestBlock_steps : ∀ (fuel : Nat) (s : ChainState), ReorgSteps env s (s.connectBestBlock env fuel).1
  | 0, _ => .refl
  | fuel + 1, s => by
    rw [connectBestBlock]
    split
    · exact .refl
    · rename_i it hit
      split
      · exact .refl
      · split
        · exact .refl
        · split
          · exact (foldl_markFailedChild_steps _ s).trans (connectBestBlock_steps fuel _)
          · rename_i vAttach hattach
            refine switchTo_steps (connectBestBlock_steps fuel) (bestCandidate_mem hit) fun hash hmem => ?_
            obtain ⟨p, hp, rfl⟩ := List.mem_map.mp hmem
            exact ⟨p, (checkAncestry_attach hattach p hp).resolve_right List.not_mem_nil, rfl⟩

end Steps

/-! ## Blocks that are marked as failed -/

section Marked

variable {env} {s s' : ChainState}

/-- The entry of a block says that the block itself has failed. -/
def MarkedFailed (s : ChainState) (hash : Uint256) : Prop :=
  ∃ p, s.mapBlockIndex.find hash = some p ∧ p.isFailedValid = true

theorem connectBlock_pindex {c : ConnectContext} {block : CBlock} {view : CCoinsView} {fJustCheck : Bool} {t : Int}
    {r : Connected} (h : c.connectBlock block view fJustCheck t = .ok r) :
    r.pindex = c.pindex ∨ ∃ cs, r.pindex = c.connectedIndex cs := by
  unfold ConnectContext.connectBlock ConnectContext.connectChecked at h
  simp only [bind_eq_ok] at h
  obtain ⟨_, -, _, -, h⟩ := h
  split at h
  · cases h
    exact .inl rfl
  · simp only [bind_eq_ok] at h
    obtain ⟨_, -, cs, -, h⟩ := h
    cases h
    unfold ConnectContext.connected
    split
    · exact .inl rfl
    · exact .inr ⟨cs, rfl⟩

/-- The update of a connected block's entry leaves the mark. -/
theorem isFailedValid_connectedIndex (c : ConnectContext) (cs : ConnectState) :
    (c.connectedIndex cs).isFailedValid = c.pindex.isFailedValid := by
  rw [CBlockIndex.isFailedValid_eq, CBlockIndex.isFailedValid_eq]
  have hmask : (2 ^ 32 - 1 - blockValidMask : Nat).testBit 5 = true := by decide
  have hundo : (blockHaveUndo : Nat).testBit 5 = false := by decide
  have hscripts : (blockValidScripts : Nat).testBit 5 = false := by decide
  unfold ConnectContext.connectedIndex
  simp only
  split
  · rw [Nat.testBit_or, Nat.testBit_and, Nat.testBit_or, hmask, hundo, hscripts, Bool.or_false, Bool.or_false,
      Bool.and_true]
  · rfl

theorem MarkedFailed.modify {hash h : Uint256} {f : CBlockIndex → CBlockIndex} (hm : s.MarkedFailed h)
    (hf : ∀ p, s.mapBlockIndex.find hash = some p → p.isFailedValid = true → (f p).isFailedValid = true) :
    (s.modifyIndex hash f).MarkedFailed h := by
  obtain ⟨p, hp, hfailed⟩ := hm
  by_cases hh : h = hash
  · subst hh
    refine ⟨BlockMap.updated f p, ?_, hf p hp hfailed⟩
    rw [modifyIndex, BlockMap.find_modify, if_pos rfl, hp, Option.map_some]
  · refine ⟨p, ?_, hfailed⟩
    rw [modifyIndex, BlockMap.find_modify, if_neg hh, hp]

/-- No step takes the mark from a block. -/
theorem ReorgStep.markedFailed {h : Uint256} (hstep : ReorgStep env s s') (hm : s.MarkedFailed h) :
    s'.MarkedFailed h := by
  cases hstep with
  | link view pindex block c hfind hconnect =>
    refine MarkedFailed.modify hm fun p hp hfailed => ?_
    rw [hfind, Option.some.injEq] at hp
    subst hp
    rcases connectBlock_pindex hconnect with heq | ⟨cs, heq⟩
    · rw [heq]
      exact hfailed
    · rw [heq, isFailedValid_connectedIndex]
      exact hfailed
  | failed pindex => exact MarkedFailed.modify hm fun p _ _ => p.isFailedValid_or
  | failedChild pindex =>
    refine MarkedFailed.modify hm fun p _ hfailed => ?_
    rw [CBlockIndex.isFailedValid_eq] at hfailed ⊢
    rw [Nat.testBit_or, hfailed, Bool.true_or]
  | commit s₀ fork view it hashNew =>
    obtain ⟨p, hp, hfailed⟩ := hm
    have hsame := congrArg (Option.map (·.nStatus)) (sameButNext_relink s.mapBlockIndex fork.1 fork.2 h)
    rw [Option.map_map, Option.map_map, hp, Option.map_some] at hsame
    obtain ⟨p', hp', hstatus⟩ := Option.map_eq_some_iff.mp hsame
    refine ⟨p', hp', ?_⟩
    rw [CBlockIndex.isFailedValid, show p'.nStatus = p.nStatus from hstatus]
    exact hfailed

theorem ReorgSteps.markedFailed {h : Uint256} (hsteps : ReorgSteps env s s') (hm : s.MarkedFailed h) :
    s'.MarkedFailed h := by
  induction hsteps with
  | refl => exact hm
  | tail _ hstep ih => exact hstep.markedFailed ih

theorem not_mem_markFailed (s : ChainState) (pindex : CBlockIndex) :
    pindex.trustHash ∉ (s.markFailed pindex).setBlockIndexValid := by
  intro h
  simpa using (List.mem_filter.mp h).2

/-- A block that is found invalid is marked, and is no candidate any more. -/
theorem invalidBlockFound_spec {reorg : ChainState → ChainState} (hreorg : ∀ s, ReorgSteps env s (reorg s))
    {pindex : CBlockIndex} (hp : s.mapBlockIndex.find pindex.phashBlock = some pindex) :
    (s.invalidBlockFound reorg pindex.phashBlock).MarkedFailed pindex.phashBlock ∧
      pindex.trustHash ∉ (s.invalidBlockFound reorg pindex.phashBlock).setBlockIndexValid := by
  have hmark : (s.markFailed pindex).MarkedFailed pindex.phashBlock := by
    refine ⟨BlockMap.updated (fun p => { p with nStatus := p.nStatus ||| blockFailedValid }) pindex, ?_,
      pindex.isFailedValid_or⟩
    show (s.mapBlockIndex.modify _ _).find _ = _
    rw [BlockMap.find_modify, if_pos rfl, hp, Option.map_some]
  have hsteps : ReorgSteps env (s.markFailed pindex) (s.invalidBlockFound reorg pindex.phashBlock) := by
    unfold invalidBlockFound
    rw [hp]
    simp only
    split
    · exact hreorg _
    · exact .refl
  exact ⟨hsteps.markedFailed hmark, fun h => not_mem_markFailed s pindex (hsteps.valid_subset h)⟩

end Marked

/-! ## Failures of connection -/

section Attributed

variable {env}

/-- `SetBestChain` stops at a block: the blocks below it are connected, and its own connection fails. -/
structure StopsAt (env : NodeContext) (s : ChainState) (hashNew : Uint256) (w : Linking) (pindex : CBlockIndex)
    (block : CBlock) (e : Failure) : Prop where
  stops : ∃ fork view, s.unlinkBlocks env hashNew = .ok (fork, view) ∧
    Linking.linkBlocks env ⟨s, view⟩ (fork.2.map (·.phashBlock)) = (w, some (pindex.phashBlock, e))
  entry : w.node.mapBlockIndex.find pindex.phashBlock = some pindex
  read : w.node.readFromDisk env pindex = some block
  fails : (w.contextOf env pindex).connectBlock block w.view false env.nAdjustedTime = .error e

/-- What is promised of a block whose connection fails: the state that `ConnectBlock` was given is invalid, and after
`SetBestChain` the block is marked as failed, is no candidate, and is not picked again. -/
structure FailureAttributed (e : Failure) (s' : ChainState) (pindex : CBlockIndex) : Prop where
  invalid : (({} : CValidationState).apply e).isInvalid = true
  marked : s'.MarkedFailed pindex.phashBlock
  not_valid : pindex.trustHash ∉ s'.setBlockIndexValid
  not_picked : s'.bestCandidate ≠ some pindex.trustHash

/-- A rejection by `ConnectBlock` makes the state invalid exactly when it is not silent. -/
theorem isInvalid_iff {c : ConnectContext} {block : CBlock} {view : CCoinsView} {t : Int} {e : Failure}
    (h : c.connectBlock block view false t = .error e) (hrej : e.isRejection = true) :
    (({} : CValidationState).apply e).isInvalid = true ↔ ¬ c.BreaksSilentRuleFirst block view false t := by
  rw [CValidationState.isInvalid_apply rfl, Failure.invalidates_iff hrej, ← ConnectContext.silent_connectBlock, h]
  exact not_congr stops_error.symm

/-- What `SetBestChain` makes of a failure: the block leaves the candidates when the failure is not silent. -/
theorem failureAttributed_iff {fuel : Nat} {s : ChainState} {hashNew : Uint256} {w : Linking}
    {pindex : CBlockIndex} {block : CBlock} {e : Failure} (h : StopsAt env s hashNew w pindex block e)
    (hrej : e.isRejection = true) :
    FailureAttributed e (s.setBestChain env (fun s => (s.connectBestBlock env fuel).1) hashNew).1 pindex ↔
      ¬ (w.contextOf env pindex).BreaksSilentRuleFirst block w.view false env.nAdjustedTime := by
  rw [← isInvalid_iff h.fails hrej]
  refine ⟨fun h => h.invalid, fun hinv => ?_⟩
  obtain ⟨fork, view, hview, hlinks⟩ := h.stops
  have hinvalidates : e.invalidates = true := by rwa [CValidationState.isInvalid_apply rfl] at hinv
  have hset : (s.setBestChain env (fun s => (s.connectBestBlock env fuel).1) hashNew).1 =
      w.node.invalidBlockFound (fun s => (s.connectBestBlock env fuel).1) pindex.phashBlock := by
    simp only [setBestChain, hview, hlinks, hinvalidates, if_true]
  obtain ⟨hmarked, hvalid⟩ := invalidBlockFound_spec (@connectBestBlock_steps env fuel) h.entry
  rw [hset]
  exact ⟨hinv, hmarked, hvalid, fun hpick => hvalid (bestCandidate_mem hpick)⟩

/-- **When the failure of a block's connection is attributed**, for any view, entry and block, and for any node that
tries to connect it: exactly when the first rule that the block breaks is not one of which the state is not told. -/
theorem connectFailure_attributed_iff {c : ConnectContext} {block : CBlock} {view : CCoinsView} {nAdjustedTime : Int}
    {e : Failure} (h : c.connectBlock block view false nAdjustedTime = .error e) (hrej : e.isRejection = true) :
    ((({} : CValidationState).apply e).isInvalid = true ↔ ¬ c.BreaksSilentRuleFirst block view false nAdjustedTime) ∧
    (∀ (env : NodeContext) (fuel : Nat) (s : ChainState) (hashNew : Uint256) (w : Linking) (pindex : CBlockIndex),
      StopsAt env s hashNew w pindex block e → w.contextOf env pindex = c → w.view = view →
        env.nAdjustedTime = nAdjustedTime →
          (FailureAttributed e (s.setBestChain env (fun s => (s.connectBestBlock env fuel).1) hashNew).1 pindex ↔
            ¬ c.BreaksSilentRuleFirst block view false nAdjustedTime)) := by
  refine ⟨isInvalid_iff h hrej, ?_⟩
  rintro env fuel s hashNew w pindex hstop rfl rfl rfl
  exact failureAttributed_iff hstop hrej

end Attributed

/-! ## A block that is picked again and again -/

/-- The settings of the runs below. -/
def sampleContext : NodeContext where
  cfg := { fCheckpoints := false }
  cr := Crypto.sample
  nAdjustedTime := 1400000000

/-- An unpark transaction that spends shares, which are not parked. -/
def unparkShares : CTransaction :=
  { spendShares unitShare with vin := [{ prevout := ⟨1, 0⟩, scriptSig := setUnpark }] }

/-- A block with the hash `6` whose second transaction is given. -/
def contestedBlock (tx : CTransaction) : CBlock :=
  sampleBlock 6 4 1400000000 [sampleCoinbase 13 1400000000 { nValue := 10000, scriptPubKey := sampleScript }, tx]

/-- Four blocks, and two blocks above them. -/
def contestedMap : BlockMap :=
  ((BlockMap.line 3 (fun n => { nChainTrust := n + 1 })).insert 5 4 { nChainTrust := 5, nTime := 1400000000 }).insert
    6 4 { nChainTrust := 6, nTime := 1400000000 }

/-- A node with four blocks, and two candidates above them: the block `6`, and the block `5` with less trust. -/
def contestedNode (tx : CTransaction) : ChainState where
  mapBlockIndex := contestedMap
  pindexBest := some 4
  pblocktree := OrderedStore.Store.empty
  setBlockIndexValid := [⟨4, 4⟩, ⟨5, 5⟩, ⟨6, 6⟩]
  pcoinsTip := sharesView
  blocks h :=
    if h = 5 then
      some (sampleBlock 5 4 1400000000 [sampleCoinbase 11 1400000000 { nValue := 10000, scriptPubKey := sampleScript }])
    else if h = 6 then some (contestedBlock tx)
    else none

/-- The entry of the block `6`. -/
def contestedIndex : CBlockIndex :=
  { phashBlock := 6, pprev := some 4, nHeight := 4, nChainTrust := 6, nTime := 1400000000 }

/-- Nothing is disconnected on the way to the block `6`. -/
theorem contested_unlinkBlocks (tx : CTransaction) :
    (contestedNode tx).unlinkBlocks sampleContext 6 = .ok (([], [contestedIndex]), sharesView) := by
  have hfork : findFork (contestedMap.chain 4) (contestedMap.chain 6) ≠ none ∧
      (disconnected (contestedMap.chain 4) (contestedMap.chain 6),
        connected (contestedMap.chain 4) (contestedMap.chain 6)) = ([], [contestedIndex]) := by decide +kernel
  have hto : (contestedNode tx).forkTo 6 = .ok ([], [contestedIndex]) := by
    rw [← hfork.2]
    exact bind_eq_ok.mpr ⟨(), rejectIf_neg fun h => hfork.1 h.2, rfl⟩
  rw [unlinkBlocks, hto]
  rfl

/-- The node stops at the block `6` when its connection fails. -/
theorem contested_stopsAt {tx : CTransaction} {e : Failure}
    (hread : (contestedNode tx).readFromDisk sampleContext contestedIndex = some (contestedBlock tx))
    (hfails : (Linking.contextOf sampleContext ⟨contestedNode tx, sharesView⟩ contestedIndex).connectBlock
      (contestedBlock tx) sharesView false 1400000000 = .error e) :
    StopsAt sampleContext (contestedNode tx) 6 ⟨contestedNode tx, sharesView⟩ contestedIndex (contestedBlock tx) e ∧
      Linking.linkBlocks sampleContext ⟨contestedNode tx, sharesView⟩ [6] =
        (⟨contestedNode tx, sharesView⟩, some (6, e)) := by
  have hentry : contestedMap.find 6 = some contestedIndex := by decide +kernel
  have hlink : Linking.linkBlock sampleContext ⟨contestedNode tx, sharesView⟩ 6 = .error e := by
    unfold Linking.linkBlock
    rw [show (Linking.mk (contestedNode tx) sharesView).node.mapBlockIndex.find 6 = some contestedIndex from hentry]
    simp only [readBlock, hread, ok_bind]
    exact bind_eq_error.mpr (.inl hfails)
  have hlinks : Linking.linkBlocks sampleContext ⟨contestedNode tx, sharesView⟩ [6] =
      (⟨contestedNode tx, sharesView⟩, some (6, e)) := by
    rw [Linking.linkBlocks, hlink]
  exact ⟨⟨⟨_, _, contested_unlinkBlocks tx, hlinks⟩, hentry, hread, hfails⟩, hlinks⟩

/-- The same block with a transaction that has no inputs. -/
def emptyTx : CTransaction := { spendShares unitShare with vin := [] }

/-- A transaction without inputs takes the block out of the candidates. -/
theorem connectFailure_attributed_sample :
    (({} : CValidationState).apply (.dos 10 false "CTransaction::CheckTransaction() : vin empty")).isInvalid = true ∧
      FailureAttributed (.dos 10 false "CTransaction::CheckTransaction() : vin empty")
        ((contestedNode emptyTx).setBestChain sampleContext (fun s => (s.connectBestBlock sampleContext 3).1) 6).1
        contestedIndex := by
  have hfails : (Linking.contextOf sampleContext ⟨contestedNode emptyTx, sharesView⟩ contestedIndex).connectBlock
      (contestedBlock emptyTx) sharesView false 1400000000 =
        .error (.dos 10 false "CTransaction::CheckTransaction() : vin empty") :=
    failure?_eq_some.mp (by decide +kernel)
  have hrule : ¬ (Linking.contextOf sampleContext ⟨contestedNode emptyTx, sharesView⟩
      contestedIndex).BreaksSilentRuleFirst (contestedBlock emptyTx) sharesView false 1400000000 := by
    intro hsilent
    obtain ⟨e, he, msg, rfl⟩ := ConnectContext.silent_connectBlock.mpr hsilent
    cases hfails.symm.trans he
  obtain ⟨hstate, hnode⟩ := connectFailure_attributed_iff hfails rfl
  exact ⟨hstate.mpr hrule, (hnode sampleContext 3 (contestedNode emptyTx) 6 ⟨contestedNode emptyTx, sharesView⟩
    contestedIndex (contested_stopsAt (by decide +kernel) hfails).1 rfl rfl rfl).mpr hrule⟩

/-- **A block that stays the first candidate**: it spends shares that are not parked with an unpark transaction, which
the state is not told of. The node stays where it is, and does not come to the valid block behind it. -/
theorem silent_failure_picked_again :
    StopsAt sampleContext (contestedNode unparkShares) 6 ⟨contestedNode unparkShares, sharesView⟩ contestedIndex
        (contestedBlock unparkShares) (.error "ConnectInputs() : prevout is not parked") ∧
      ¬ FailureAttributed (.error "ConnectInputs() : prevout is not parked")
        ((contestedNode unparkShares).setBestChain sampleContext
          (fun s => (s.connectBestBlock sampleContext 3).1) 6).1 contestedIndex ∧
      ((contestedNode unparkShares).connectBestBlock sampleContext 3).1.bestCandidate = some contestedIndex.trustHash ∧
      ((contestedNode unparkShares).connectBestBlock sampleContext 3).1.pindexBest = some 4 ∧
      ((contestedNode unparkShares).setBestChain sampleContext id 5).1.pindexBest = some 5 := by
  refine ⟨(contested_stopsAt (by decide +kernel) (failure?_eq_some.mp (by decide +kernel))).1, ?_, by decide +kernel,
    by decide +kernel, by decide +kernel⟩
  exact fun h => absurd h.invalid (by decide)

end ChainState

end Morcochain
