import Morcochain.Acceptance
import Morcochain.BlockFiles
import Morcochain.ProofOfStake
import Morcochain.Lib.Run
import Morcochain.Lib.Worklist

/-!
# Processing blocks

`ProcessBlock` with what it calls (`main.cpp`): a block that a peer sends, or that is read from a block file, is checked
and accepted; one whose predecessor is unknown is held back, and one that reuses the stake of the best block cancels the
best block. What waits for an accepted block is accepted behind it, and a block that was set aside because of its stake
is accepted after all when a block is built upon it.

* `checkNew_keeps` : the checks leave the blocks that wait, the block files and the known hashes alone.
* `acceptBlock_stores` : **what accepting a block does** to the known hashes and the files.
* `processBlock_cases` : **everything that processing a block can do** to where blocks are.
-/

set_option autoImplicit false

namespace Morcochain

open Guard Filling Run

/-! ## The state of the node -/

/-- The node with the blocks that wait for their predecessor, those that were set aside because of their stake, and the
block files. -/
structure ProcessState extends NodeState where
  mapOrphanBlocks : Uint256 → Option CBlock := fun _ => none
  /-- The entries of the multimap, in the order of their insertion. -/
  mapOrphanBlocksByPrev : List (Uint256 × CBlock) := []
  setStakeSeenOrphan : List (COutPoint × Nat) := []
  /-- A block that was cancelled has an entry without a block. -/
  mapDuplicateStakeBlocks : Uint256 → Option (Option CBlock) := fun _ => none
  blockFiles : BlockFiles := {}

/-- A block that is handed to `ProcessBlock`, with what else the node brings along. -/
structure BlockEvent where
  block : CBlock
  /-- A peer has sent the block. -/
  fFrom : Bool := false
  /-- Where the block is on disk, if it was read from a block file. -/
  dbp : Option CDiskBlockPos := none
  hashSyncCheckpoint : Uint256 := 0
  hashPendingCheckpoint : Uint256 := 0
  nTime : Int := 0
  nAdjustedTime : Int := 0
  fThreads : Bool := false
  /-- The calls and rounds of `ConnectBestBlock`. -/
  fuel : Nat := 0

/-- The settings of the node at the event. -/
def BlockEvent.context (cfg : Settings) (cr : Crypto) (e : BlockEvent) : NodeContext :=
  { cfg := cfg, cr := cr, fThreads := e.fThreads, nAdjustedTime := e.nAdjustedTime }

/-- A part of `ProcessBlock`. -/
abbrev Process := Routine ProcessState Failure Unit

/-! ## Work and checkpoints -/

/-- The rounds of `ComputeMinWork`: the target doubles for each day. -/
def doubleTarget : Nat → Int → Int → Int
  | 0, bnResult, _ => bnResult
  | k + 1, bnResult, nTime =>
    if nTime > 0 ∧ bnResult < bnProofOfWorkLimit then doubleTarget k (bnResult * 2) (nTime - 24 * 60 * 60) else bnResult

/-- `ComputeMinWork`. There is a round for each day that has begun. -/
def computeMinWork (nBase : Nat) (nTime : Int) : Nat :=
  getCompact (doubleTarget ((nTime.toNat + (24 * 60 * 60 - 1)) / (24 * 60 * 60)) (setCompact nBase * 2) nTime)

namespace ProcessState

/-- The block waits for its predecessor. -/
def isOrphan (s : ProcessState) (hash : Uint256) : Bool := (s.mapOrphanBlocks hash).isSome

/-- `mapOrphanBlocksByPrev.count(hash)`. -/
def isAwaited (s : ProcessState) (hash : Uint256) : Bool := s.mapOrphanBlocksByPrev.any (·.1 = hash)

/-- `WantedByOrphan`: the predecessor of the first of the waiting blocks below a block. -/
def wantedByOrphan (s : ProcessState) : Nat → CBlock → Uint256
  | 0, pblockOrphan => pblockOrphan.hashPrevBlock
  | k + 1, pblockOrphan =>
    match s.mapOrphanBlocks pblockOrphan.hashPrevBlock with
    | none => pblockOrphan.hashPrevBlock
    | some pblock => s.wantedByOrphan k pblock

/-- `WantedByPendingSyncCheckpoint`. -/
def wantedByPendingSyncCheckpoint (s : ProcessState) (hashPendingCheckpoint hashBlock : Uint256) : Bool :=
  hashPendingCheckpoint ≠ 0 ∧ (hashBlock = hashPendingCheckpoint ∨
    (s.mapOrphanBlocks hashPendingCheckpoint).any fun pblock =>
      hashBlock = s.wantedByOrphan s.mapOrphanBlocksByPrev.length pblock)

/-! ## The checks -/

section Checks

variable (env : NodeContext) (e : BlockEvent) (block : CBlock)

/-- The block is neither in the index nor held back. -/
def checkKnown : Process := do
  let s ← record
  check (dosIf (s.mapBlockIndex.find (block.getHash env.cr)).isSome 0 "ProcessBlock() : already have block")
  check (dosIf (s.isOrphan (block.getHash env.cr)) 0 "ProcessBlock() : already have block (orphan)")

/-- The node after `InvalidBlockFound` and `SetBestChain`, with the result of the latter. -/
def cancelled (s : ProcessState) (hashBest : Uint256) : ProcessState × Option Failure :=
  let reorg := fun c : ChainState => (c.connectBestBlock env e.fuel).1
  let c := s.toChainState.invalidBlockFound reorg hashBest
  match c.bestIndex.bind (·.pprev) with
  | none => ({ s with toChainState := c }, some (.assertion "pindexNew"))
  | some hashPrev =>
    let r := c.setBestChain env reorg hashPrev
    ({ s with toChainState := r.1 }, r.2)

/-- The block uses the stake of the best block again: both are set aside, and the best block is cancelled. -/
def cancelBestBlock (best : CBlockIndex) : Process := do
  check (dosIf (!block.checkBlockSignature env.cfg env.cr) 100 "ProcessBlock() : Invalid signature in duplicate block")
  write fun s => { s with
    mapDuplicateStakeBlocks :=
      Function.update (Function.update s.mapDuplicateStakeBlocks (block.getHash env.cr) (some (some block)))
        best.phashBlock (some none) }
  let s ← record
  write fun _ => (s.cancelled env e best.phashBlock).1
  throw (match (s.cancelled env e best.phashBlock).2 with
    | none => .error "ProcessBlock() : block uses the same stake as the best block. Cancelling the best block"
    | some (.exception msg) => .exception msg
    | some _ => .error "ProcessBlock(): SetBestChain on previous best block failed")

/-- The checks of a proof-of-stake block against the stakes that were seen. -/
def checkDuplicateStake : Process :=
  if block.isProofOfStake then do
    let s ← record
    match s.bestIndex with
    | none => throw (.assertion "pindexBest")
    | some best =>
      if best.isProofOfStake ∧ block.prevoutStake = best.prevoutStake then cancelBestBlock env e block best
      else check (errorIf (block.getProofOfStake ∈ s.setStakeSeen ∧ !s.isAwaited (block.getHash env.cr) ∧
        !s.wantedByPendingSyncCheckpoint e.hashPendingCheckpoint (block.getHash env.cr))
          "ProcessBlock() : duplicate proof-of-stake")
  else pure ()

/-- The kernel that `CheckProofOfStake` comes to, when the conditions before it are met. -/
def reachedKernel (s : ChainState) (tx : CTransaction) (nBits : Nat) : Option KernelQuery := do
  let txin ← tx.vin[0]?
  let coins ← s.pcoinsTip.getCoins txin.prevout.hash
  let record ← s.txIndex txin.prevout.hash
  let txout ← record.tx.vout[txin.prevout.n]?
  if (verifyKernelSignature env.cr tx coins txin.prevout).isOk ∧ record.tx.getHash env.cr = txin.prevout.hash ∧
      minCoinstakeValue ≤ txout.nValue then
    return kernelQuery tx nBits txin.prevout record
  else none

/-- The result of `CheckProofOfStake` for a transaction. -/
def stakeHash (s : ChainState) (tx : CTransaction) (nBits : Nat) : Check Uint256 :=
  match checkProofOfStake env.cfg env.cr s tx nBits with
  | .ok hashProofOfStake => .ok hashProofOfStake
  | .error .outOfBounds => .error (.assertion "vout[prevout.n]")
  | .error (.failed e) => .error e

/-- `CheckProofOfStake` of a block. The cache of the stake modifiers may grow, and the proof hash is kept. -/
def checkStake : Process :=
  if block.isProofOfStake then
    match block.vtx[1]? with
    | none => throw (.assertion "vtx[1]")
    | some tx => do
      let s ← record
      write fun s => { s with
        cache := ((reachedKernel env s.toChainState tx block.nBits).map
          (fun q => q.cacheAfter env.cfg env.cr s.toKernelState e.nTime)).getD s.cache }
      let hashProofOfStake ← check (stakeHash env s.toChainState tx block.nBits)
      write fun s => { s with
        mapProofOfStake := fun h =>
          if h = block.getHash env.cr then (s.mapProofOfStake h).or (some hashProofOfStake) else s.mapProofOfStake h }
  else pure ()

/-- The work of a block that is not built upon the best block, against the last synchronized checkpoint. -/
def checkWork : Process := do
  let s ← record
  match s.mapBlockIndex.find e.hashSyncCheckpoint with
  | none => pure ()
  | some pcheckpoint =>
    let nBase := ((getLastBlockIndex block.isProofOfStake (s.mapBlockIndex.chain e.hashSyncCheckpoint)).head?.map
      (·.nBits)).getD 0
    check (dosIf (s.pindexBest.getD 0 ≠ block.hashPrevBlock ∧
        !s.wantedByPendingSyncCheckpoint e.hashPendingCheckpoint (block.getHash env.cr) ∧
        setCompact block.nBits > setCompact (computeMinWork nBase (block.getBlockTime - pcheckpoint.nTime))) 100
      "ProcessBlock() : block with too little proof-of-work or proof-of-stake")

/-- The checks of `ProcessBlock` before the block is put anywhere. -/
def checkNew : Process := do
  checkKnown env e.block
  checkDuplicateStake env e e.block
  check (e.block.checkBlock env.cfg env.cr true true env.nAdjustedTime)
  checkStake env e e.block
  checkWork env e e.block

end Checks

/-! ## Accepting blocks -/

section Accept

variable (env : NodeContext) (e : BlockEvent)

/-- The height of a block in the index. -/
def heightAbove (s : ProcessState) (block : CBlock) : Nat :=
  if block.getHash env.cr = env.cfg.hashGenesisBlock then 0
  else ((s.mapBlockIndex.find block.hashPrevBlock).map (·.nHeight + 1)).getD 0

/-- `CBlock::AcceptBlock`: the block is stored once the checks are done. -/
def acceptBlock (s : ProcessState) (block : CBlock) (dbp : Option CDiskBlockPos) : ProcessState × Option Failure :=
  let r := s.toNodeState.acceptBlock env block e.fuel
  ({ s with
      toNodeState := r.1
      blockFiles :=
        if (s.checkBefore env block).isOk then
          s.blockFiles.storeBlock (block.getHash env.cr) block (s.heightAbove env block) dbp
        else s.blockFiles }, r.2)

/-- `AcceptBlock`, or the end of the routine. -/
def accept (block : CBlock) (dbp : Option CDiskBlockPos) : Process := do
  let s ← record
  write fun _ => (s.acceptBlock env e block dbp).1
  check (match (s.acceptBlock env e block dbp).2 with
    | none => .ok ()
    | some failure => .error failure)

/-- The checks of the block that was kept of the predecessor. -/
def checkParent (pprev : CBlock) : Process := do
  check (pprev.checkBlock env.cfg env.cr true true env.nAdjustedTime)
  checkStake env e pprev

/-- The predecessor was set aside: it is valid again when it is in the index, and is accepted else, from the block that
was kept. -/
def takeParent (pprevBlock : Option CBlock) : Process := do
  let s ← record
  if (s.mapBlockIndex.find e.block.hashPrevBlock).isSome then
    write fun s => { s with
      mapBlockIndex := s.mapBlockIndex.modify e.block.hashPrevBlock fun p =>
        { p with nStatus := p.nStatus &&& (2 ^ 32 - 1 - blockFailedValid) } }
  else
    match pprevBlock with
    | none => throw (.error "ProcessBlock() : Previous block not stored nor in block index")
    | some pprev => do
      checkParent env e pprev
      accept env e pprev e.dbp

/-- Take the predecessor up again, if it was set aside because of its stake. -/
def reacceptParent : Process := do
  let s ← record
  match s.mapDuplicateStakeBlocks e.block.hashPrevBlock with
  | none => pure ()
  | some pprevBlock => do
    takeParent env e pprevBlock
    write fun s => { s with
      mapDuplicateStakeBlocks := Function.update s.mapDuplicateStakeBlocks e.block.hashPrevBlock none }

/-- `CleanUpOldDuplicateStakeBlocks`, with every entry visited once: blocks older than a day go, and entries of
cancelled blocks that are not in the index. -/
def cleanUpOldDuplicateStakeBlocks : Process :=
  write fun s => { s with
    mapDuplicateStakeBlocks := fun hash => (s.mapDuplicateStakeBlocks hash).filter fun
      | some block => env.nAdjustedTime - 24 * 60 * 60 ≤ block.getBlockTime
      | none => (s.mapBlockIndex.find hash).isSome }

/-- Hold back a block whose predecessor is unknown. -/
def holdBack : Process := do
  let s ← record
  let hash := e.block.getHash env.cr
  check (errorIf (e.block.isProofOfStake ∧ e.block.getProofOfStake ∈ s.setStakeSeenOrphan ∧ !s.isAwaited hash ∧
    !s.wantedByPendingSyncCheckpoint e.hashPendingCheckpoint hash)
      "ProcessBlock() : duplicate proof-of-stake for orphan block")
  write fun s => { s with
    setStakeSeenOrphan :=
      if e.block.isProofOfStake then e.block.getProofOfStake :: s.setStakeSeenOrphan else s.setStakeSeenOrphan
    mapOrphanBlocks := Function.update s.mapOrphanBlocks hash (some e.block)
    mapOrphanBlocksByPrev := s.mapOrphanBlocksByPrev ++ [(e.block.hashPrevBlock, e.block)] }

/-! ## The blocks that wait -/

/-- The blocks that wait for a block. -/
def waiting (s : ProcessState) (hashPrev : Uint256) : List CBlock :=
  (s.mapOrphanBlocksByPrev.filter (·.1 = hashPrev)).map (·.2)

/-- Forget a block that has waited. -/
def eraseOrphan (s : ProcessState) (pblockOrphan : CBlock) : ProcessState :=
  { s with
    mapOrphanBlocks := Function.update s.mapOrphanBlocks (pblockOrphan.getHash env.cr) none
    setStakeSeenOrphan := s.setStakeSeenOrphan.filter (· ≠ pblockOrphan.getProofOfStake) }

/-- Accept a block that has waited; its hash goes into the queue when it is accepted. -/
def acceptOrphan (r : ProcessState × List Uint256) (pblockOrphan : CBlock) : ProcessState × List Uint256 :=
  let a := r.1.acceptBlock env e pblockOrphan none
  (a.1.eraseOrphan env pblockOrphan, if a.2.isNone then r.2 ++ [pblockOrphan.getHash env.cr] else r.2)

/-- One round of the work queue: the blocks that wait for a block. -/
def processWaiting (s : ProcessState) (hashPrev : Uint256) : ProcessState × List Uint256 :=
  let r := (s.waiting hashPrev).foldl (acceptOrphan env e) (s, [])
  ({ r.1 with mapOrphanBlocksByPrev := r.1.mapOrphanBlocksByPrev.filter (·.1 ≠ hashPrev) }, r.2)

/-- The work queue, which begins with the accepted block. Each further hash is the one of a block that has waited. -/
def processOrphans (s : ProcessState) (hash : Uint256) : ProcessState :=
  Worklist.drain (processWaiting env e) (s.mapOrphanBlocksByPrev.length + 1) [hash] s

/-! ## ProcessBlock -/

/-- What `ProcessBlock` does before it comes to the block itself. -/
def prepare : Process := do
  checkNew env e
  reacceptParent env e
  cleanUpOldDuplicateStakeBlocks env

/-- The predecessor of the block is unknown. -/
def isDetached (s : ProcessState) (block : CBlock) : Bool :=
  block.hashPrevBlock ≠ 0 ∧ (s.mapBlockIndex.find block.hashPrevBlock).isNone

/-- What `ProcessBlock` does with the block. -/
def place : Process := do
  let s ← record
  if s.isDetached e.block then
    if e.fFrom then holdBack env e else pure ()
  else do
    accept env e e.block e.dbp
    write (·.processOrphans env e (e.block.getHash env.cr))

/-- `ProcessBlock`. -/
def processBlock : Process := do
  prepare env e
  place env e

end Accept

/-- The node after a block was handed to `ProcessBlock`. -/
def step (cfg : Settings) (cr : Crypto) (s : ProcessState) (e : BlockEvent) : ProcessState :=
  (run (processBlock (e.context cfg cr) e) s).2

/-! ## What the checks leave alone -/

/-- The node has the same blocks in the same places: in the index, on disk, and held back. -/
structure SameBlocks (s t : ProcessState) : Prop where
  orphans : t.mapOrphanBlocks = s.mapOrphanBlocks
  byPrev : t.mapOrphanBlocksByPrev = s.mapOrphanBlocksByPrev
  files : t.blockFiles = s.blockFiles
  blocks : t.blocks = s.blocks
  entries : SameEntries s.mapBlockIndex t.mapBlockIndex

section Same

variable {s t u : ProcessState}

theorem SameBlocks.refl (s : ProcessState) : SameBlocks s s := ⟨rfl, rfl, rfl, rfl, .refl _⟩

theorem SameBlocks.trans (h : SameBlocks s t) (h' : SameBlocks t u) : SameBlocks s u :=
  ⟨h'.orphans.trans h.orphans, h'.byPrev.trans h.byPrev, h'.files.trans h.files, h'.blocks.trans h.blocks,
    h.entries.trans h'.entries⟩

/-- The same hashes are known. -/
theorem SameBlocks.known (h : SameBlocks s t) (x : Uint256) :
    (t.mapBlockIndex.find x).isSome = (s.mapBlockIndex.find x).isSome := by
  have hx := congrArg Option.isSome (h.entries x)
  rwa [Option.isSome_map, Option.isSome_map] at hx

/-- A routine that keeps every set of blocks. -/
abbrev LeavesBlocks {α : Type} (x : Routine ProcessState Failure α) : Prop := ∀ s, Keeps (SameBlocks s) x

end Same

/-- `SetBestChain` leaves the entries, but for what connecting blocks changes, and the blocks on disk. -/
theorem setBestChain_same {env : NodeContext} {reorg : ChainState → ChainState}
    (hreorg : ∀ c, ChainState.ReorgSteps env c (reorg c)) (c : ChainState) (hashNew : Uint256) :
    SameEntries c.mapBlockIndex (c.setBestChain env reorg hashNew).1.mapBlockIndex ∧
      (c.setBestChain env reorg hashNew).1.blocks = c.blocks := by
  have hsteps : ∀ {c' : ChainState}, ChainState.ReorgSteps env c c' →
      SameEntries c.mapBlockIndex c'.mapBlockIndex ∧ c'.blocks = c.blocks :=
    fun h => ⟨ReorgSteps.sameEntries h, ReorgSteps.blocks h⟩
  unfold ChainState.setBestChain
  split
  · exact hsteps .refl
  · split
    · rename_i w hash e hlinks
      obtain ⟨hlinked, -⟩ := ChainState.linkBlocks_steps hlinks
      split
      · exact hsteps (hlinked.trans (ChainState.invalidBlockFound_steps hreorg ..))
      · exact hsteps hlinked
    · rename_i fork _ _ _ w hlinks
      obtain ⟨hentries, hblocks⟩ := hsteps (ChainState.linkBlocks_steps hlinks).1
      exact ⟨hentries.trans (sameEntries_relink w.node.mapBlockIndex fork.1 fork.2), hblocks⟩

section Frame

variable (env : NodeContext) (e : BlockEvent) (block : CBlock)

/-- Cancelling the best block leaves all blocks where they are. -/
theorem cancelled_same (s : ProcessState) (hashBest : Uint256) : SameBlocks s (s.cancelled env e hashBest).1 := by
  have hreorg : ∀ c, ChainState.ReorgSteps env c (c.connectBestBlock env e.fuel).1 :=
    fun c => ChainState.connectBestBlock_steps e.fuel c
  have hinvalid := ChainState.invalidBlockFound_steps hreorg s.toChainState hashBest
  unfold cancelled
  dsimp only
  split
  · exact ⟨rfl, rfl, rfl, ReorgSteps.blocks hinvalid, ReorgSteps.sameEntries hinvalid⟩
  · rename_i hashPrev _
    obtain ⟨hentries, hblocks⟩ := setBestChain_same hreorg
      (s.toChainState.invalidBlockFound (fun c => (c.connectBestBlock env e.fuel).1) hashBest) hashPrev
    exact ⟨rfl, rfl, rfl, hblocks.trans (ReorgSteps.blocks hinvalid), (ReorgSteps.sameEntries hinvalid).trans hentries⟩

theorem cancelBestBlock_keeps (best : CBlockIndex) : LeavesBlocks (cancelBestBlock env e block best) := by
  intro s t ht
  unfold cancelBestBlock
  rw [run_bind]
  split
  · rename_i heq
    obtain ⟨-, rfl⟩ := Prod.mk.inj heq
    simp only [run_bind, run_write, run_record, run_throw]
    refine ht.trans (SameBlocks.trans ?_ (cancelled_same env e _ best.phashBlock))
    exact ⟨rfl, rfl, rfl, rfl, .refl _⟩
  · rename_i heq
    obtain ⟨-, rfl⟩ := Prod.mk.inj heq
    exact ht

theorem checkDuplicateStake_keeps : LeavesBlocks (checkDuplicateStake env e block) := by
  intro s
  unfold checkDuplicateStake
  split
  · refine .bind .record fun t => ?_
    split
    · exact .throw _
    · split
      · exact cancelBestBlock_keeps env e block _ s
      · exact .check _
  · exact .pure ()

theorem checkStake_keeps : LeavesBlocks (checkStake env e block) := by
  intro s
  unfold checkStake
  split
  · split
    · exact .throw _
    · refine .bind .record fun t => .bind ?_ fun _ => .bind (.check _) fun _ => ?_
      · exact .write fun _ h => h.trans ⟨rfl, rfl, rfl, rfl, .refl _⟩
      · exact .write fun _ h => h.trans ⟨rfl, rfl, rfl, rfl, .refl _⟩
  · exact .pure ()

/-- The checks leave all blocks where they are. -/
theorem checkNew_keeps : LeavesBlocks (checkNew env e) := by
  intro s
  unfold checkNew checkKnown checkWork
  refine .bind (.bind .record fun _ => .bind (.check _) fun _ => .check _) fun _ => ?_
  refine .bind (checkDuplicateStake_keeps env e e.block s) fun _ => .bind (.check _) fun _ => ?_
  refine .bind (checkStake_keeps env e e.block s) fun _ => .bind .record fun t => ?_
  split
  · exact .pure ()
  · exact .check _

end Frame

/-! ## What accepting a block does -/

/-- `AcceptBlock` stores the block: it passes the checks before that, and its entry is in the index from then on. -/
structure Stores (env : NodeContext) (s : ProcessState) (block : CBlock) (dbp : Option CDiskBlockPos)
    (t : ProcessState) : Prop where
  before : s.checkBefore env block = .ok ()
  orphans : t.mapOrphanBlocks = s.mapOrphanBlocks
  byPrev : t.mapOrphanBlocksByPrev = s.mapOrphanBlocksByPrev
  files : t.blockFiles = s.blockFiles.storeBlock (block.getHash env.cr) block (s.heightAbove env block) dbp
  blocks : t.blocks = Function.update s.blocks (block.getHash env.cr) (some block)
  known : ∀ x, (t.mapBlockIndex.find x).isSome = (decide (x = block.getHash env.cr) || (s.mapBlockIndex.find x).isSome)

section Accept

variable {env : NodeContext} {e : BlockEvent} {s : ProcessState} {block : CBlock} {dbp : Option CDiskBlockPos}

theorem blocks_writeToDisk (s : NodeState) :
    (s.writeToDisk env block).blocks = Function.update s.blocks (block.getHash env.cr) (some block) := by
  funext x
  rw [Function.update_apply]
  rfl

/-- The hashes that are known once the entry is inserted. -/
theorem known_insertIndex {s : NodeState} {r : Except Failure Unit} {pindex : CBlockIndex}
    (hbefore : s.checkBefore env block = .ok ())
    (hfill : run (s.fillIndex env block) (s.startIndex env block) = (r, pindex)) (x : Uint256) :
    (((s.writeToDisk env block).insertIndex env block pindex).mapBlockIndex.find x).isSome =
      (decide (x = block.getHash env.cr) || (s.mapBlockIndex.find x).isSome) := by
  rw [NodeState.find_insertIndex hbefore hfill]
  by_cases hx : x = block.getHash env.cr
  · rw [if_pos hx, decide_eq_true hx]
    rfl
  · rw [if_neg hx, decide_eq_false hx, Bool.false_or]

/-- A block that is refused changes nothing. -/
theorem acceptBlock_refused {failure : Failure} (h : s.checkBefore env block = .error failure) :
    s.acceptBlock env e block dbp = (s, some failure) := by
  have hnode : s.toNodeState.acceptBlock env block e.fuel = (s.toNodeState, some failure) := by
    unfold NodeState.acceptBlock
    rw [h]
  unfold acceptBlock
  rw [hnode, h]
  rfl

/-- **What accepting a block does**: one that passes the first checks is stored, whether it is accepted or not. -/
theorem acceptBlock_stores (h : s.checkBefore env block = .ok ()) :
    Stores env s block dbp (s.acceptBlock env e block dbp).1 := by
  have hfiles : (s.acceptBlock env e block dbp).1.blockFiles =
      s.blockFiles.storeBlock (block.getHash env.cr) block (s.heightAbove env block) dbp := by
    unfold acceptBlock
    rw [h]
    rfl
  suffices hnode : (s.acceptBlock env e block dbp).1.blocks =
    Function.update s.blocks (block.getHash env.cr) (some block) ∧
      ∀ x, ((s.acceptBlock env e block dbp).1.mapBlockIndex.find x).isSome =
        (decide (x = block.getHash env.cr) || (s.mapBlockIndex.find x).isSome) from
    ⟨h, rfl, rfl, hfiles, hnode.1, hnode.2⟩
  show (s.toNodeState.acceptBlock env block e.fuel).1.blocks = _ ∧
    ∀ x, ((s.toNodeState.acceptBlock env block e.fuel).1.mapBlockIndex.find x).isSome = _
  have hcases := NodeState.acceptBlock_cases env s.toNodeState block e.fuel
  generalize (s.toNodeState.acceptBlock env block e.fuel).1 = n at hcases ⊢
  cases hcases with
  | refused failure hbefore =>
    rw [h] at hbefore
    cases hbefore
  | rejected failure pindex hbefore hfill =>
    exact ⟨blocks_writeToDisk s.toNodeState, known_insertIndex hbefore hfill⟩
  | added pindex c hbefore hfill hsteps =>
    refine ⟨(ReorgSteps.blocks hsteps).trans (blocks_writeToDisk s.toNodeState), fun x => ?_⟩
    have hx := congrArg Option.isSome (ReorgSteps.sameEntries hsteps x)
    rw [Option.isSome_map, Option.isSome_map] at hx
    exact hx.trans (known_insertIndex hbefore hfill x)

end Accept

/-! ## What processing a block does -/

section Effect

variable (env : NodeContext) (e : BlockEvent)

/-- `ProcessBlock` comes to accept the predecessor, from the block that was kept when it was set aside. -/
structure ReachesParent (s : ProcessState) (pprev : CBlock) (u : ProcessState) : Prop where
  reaches : ∃ t, run (checkNew env e) s = (.ok (), t) ∧
    t.mapDuplicateStakeBlocks e.block.hashPrevBlock = some (some pprev) ∧
    t.mapBlockIndex.find e.block.hashPrevBlock = none ∧ run (checkParent env e pprev) t = (.ok (), u)

/-- `ProcessBlock` comes to accept the block itself. -/
structure ReachesBlock (s t : ProcessState) : Prop where
  reaches : run (prepare env e) s = (.ok (), t)
  attached : t.isDetached e.block = false

/-- What `ProcessBlock` does before it comes to the block itself. -/
inductive Prepared (s : ProcessState) : ProcessState → Prop where
  | same {t : ProcessState} (hsame : SameBlocks s t) : Prepared s t
  /-- The predecessor was stored, or refused. -/
  | parent {t : ProcessState} (pprev : CBlock) (u : ProcessState) (hreaches : ReachesParent env e s pprev u)
      (hu : SameBlocks s u) (hsame : SameBlocks (u.acceptBlock env e pprev e.dbp).1 t) : Prepared s t

/-- What `ProcessBlock` can do. -/
inductive ProcessEffect (s : ProcessState) : ProcessState → Prop where
  /-- The block is put nowhere. -/
  | dropped {t : ProcessState} (hprepared : Prepared env e s t) : ProcessEffect s t
  /-- The block is held back. -/
  | held {t : ProcessState} (hprepared : Prepared env e s t) (hnew : s.mapOrphanBlocks (e.block.getHash env.cr) = none)
      (hunknown : t.mapBlockIndex.find e.block.hashPrevBlock = none) (stakes : List (COutPoint × Nat)) :
      ProcessEffect s { t with
        setStakeSeenOrphan := stakes
        mapOrphanBlocks := Function.update t.mapOrphanBlocks (e.block.getHash env.cr) (some e.block)
        mapOrphanBlocksByPrev := t.mapOrphanBlocksByPrev ++ [(e.block.hashPrevBlock, e.block)] }
  /-- The block is not accepted. -/
  | failed {t : ProcessState} (hprepared : Prepared env e s t) (hreaches : ReachesBlock env e s t)
      (hfails : (t.acceptBlock env e e.block e.dbp).2 ≠ none) : ProcessEffect s (t.acceptBlock env e e.block e.dbp).1
  /-- The block is accepted, and what waits for it is accepted or dropped. -/
  | accepted {t : ProcessState} (hprepared : Prepared env e s t) (hreaches : ReachesBlock env e s t)
      (haccepts : (t.acceptBlock env e e.block e.dbp).2 = none) :
      ProcessEffect s ((t.acceptBlock env e e.block e.dbp).1.processOrphans env e (e.block.getHash env.cr))

variable {env e} {s t : ProcessState}

/-- The node after `AcceptBlock` within the routine, and its result. -/
theorem run_accept (block : CBlock) (dbp : Option CDiskBlockPos) (t : ProcessState) :
    run (accept env e block dbp) t =
      (match (t.acceptBlock env e block dbp).2 with
        | none => .ok ()
        | some failure => .error failure, (t.acceptBlock env e block dbp).1) := by
  unfold accept
  simp only [run_bind, run_record, run_write, run_check]

/-- A block that passes the checks is new. -/
theorem checkNew_ok (h : run (checkNew env e) s = (.ok (), t)) :
    s.mapBlockIndex.find (e.block.getHash env.cr) = none ∧ s.mapOrphanBlocks (e.block.getHash env.cr) = none := by
  obtain ⟨_, s₁, hknown, -⟩ := run_bind_ok.mp h
  obtain ⟨_, s₂, hs₂, hknown⟩ := run_bind_ok.mp hknown
  obtain ⟨_, s₃, hindex, horphan⟩ := run_bind_ok.mp hknown
  cases hs₂
  rw [run_check, Prod.mk.injEq, rejectIf_eq_ok] at hindex horphan
  exact ⟨Option.not_isSome_iff_eq_none.mp hindex.1, Option.not_isSome_iff_eq_none.mp horphan.1⟩

/-- The check against the stakes that were seen sets something aside only when it cancels the best block. -/
theorem checkDuplicateStake_ok {block : CBlock} (h : run (checkDuplicateStake env e block) s = (.ok (), t)) :
    t = s := by
  unfold checkDuplicateStake at h
  split at h
  · obtain ⟨_, s₁, hs₁, h⟩ := run_bind_ok.mp h
    cases hs₁
    split at h
    · cases h
    · split at h
      · obtain ⟨_, s₂, -, h⟩ := run_bind_ok.mp h
        obtain ⟨_, s₃, -, h⟩ := run_bind_ok.mp h
        obtain ⟨_, s₄, hs₄, h⟩ := run_bind_ok.mp h
        obtain ⟨_, s₅, -, h⟩ := run_bind_ok.mp h
        cases h
      · exact (Prod.mk.inj h).2.symm
  · cases h
    rfl

/-- The checks set nothing aside when a block passes them. -/
theorem checkNew_setAside (h : run (checkNew env e) s = (.ok (), t)) :
    t.mapDuplicateStakeBlocks = s.mapDuplicateStakeBlocks := by
  have hstep : ∀ {α : Type} {x : Routine ProcessState Failure α} {a : α} {u v : ProcessState},
      Keeps (fun w => w.mapDuplicateStakeBlocks = u.mapDuplicateStakeBlocks) x → run x u = (.ok a, v) →
        v.mapDuplicateStakeBlocks = u.mapDuplicateStakeBlocks := by
    intro α x a u v hx hrun
    have hv := hx u rfl
    rwa [hrun] at hv
  obtain ⟨_, s₁, h₁, h⟩ := run_bind_ok.mp h
  obtain ⟨_, s₂, h₂, h⟩ := run_bind_ok.mp h
  obtain ⟨_, s₃, h₃, h⟩ := run_bind_ok.mp h
  obtain ⟨_, s₄, h₄, h₅⟩ := run_bind_ok.mp h
  rw [hstep ?_ h₅, hstep ?_ h₄, hstep (.check _) h₃, checkDuplicateStake_ok h₂, hstep ?_ h₁]
  · exact .bind .record fun _ => .bind (.check _) fun _ => .check _
  · unfold checkStake
    split
    · split
      · exact .throw _
      · exact .bind .record fun _ => .bind (.write fun _ h => h) fun _ => .bind (.check _) fun _ => .write fun _ h => h
    · exact .pure ()
  · refine .bind .record fun u => ?_
    split
    · exact .pure ()
    · exact .check _

/-- Where the predecessor was not set aside, it is not taken up again. -/
theorem not_reachesParent {pprev : CBlock} {u : ProcessState}
    (hs : s.mapDuplicateStakeBlocks e.block.hashPrevBlock = none) :
    ¬ ReachesParent env e s pprev u := by
  rintro ⟨t, hnew, hdup, -⟩
  rw [checkNew_setAside hnew, hs] at hdup
  cases hdup

theorem checkParent_keeps (env : NodeContext) (e : BlockEvent) (pprev : CBlock) :
    LeavesBlocks (checkParent env e pprev) :=
  fun s => .bind (.check _) fun _ => checkStake_keeps env e pprev s

/-- The predecessor is reached with all blocks where they were. -/
theorem ReachesParent.same {pprev : CBlock} {u : ProcessState} (h : ReachesParent env e s pprev u) :
    SameBlocks s u := by
  obtain ⟨t, hnew, -, -, hparent⟩ := h.reaches
  have ht : SameBlocks s (run (checkNew env e) s).2 := checkNew_keeps env e s s (.refl s)
  have hu : SameBlocks t (run (checkParent env e pprev) t).2 := checkParent_keeps env e pprev t t (.refl t)
  rw [hnew] at ht
  rw [hparent] at hu
  exact ht.trans hu

theorem Prepared.trans {u : ProcessState} (h : Prepared env e s t) (h' : SameBlocks t u) : Prepared env e s u := by
  cases h with
  | same hsame => exact .same (hsame.trans h')
  | parent pprev v hreaches hv hsame => exact .parent pprev v hreaches hv (hsame.trans h')

/-- The blocks that were set aside are no matter of where blocks are. -/
theorem sameBlocks_setAside (t : ProcessState) (d : Uint256 → Option (Option CBlock)) :
    SameBlocks t { t with mapDuplicateStakeBlocks := d } := ⟨rfl, rfl, rfl, rfl, .refl _⟩

theorem takeParent_cases {pprevBlock : Option CBlock} (hnew : run (checkNew env e) s = (.ok (), t))
    (ht : SameBlocks s t) (hdup : t.mapDuplicateStakeBlocks e.block.hashPrevBlock = some pprevBlock) :
    Prepared env e s (run (takeParent env e pprevBlock) t).2 := by
  unfold takeParent
  rw [run_bind, run_record]
  dsimp only
  by_cases hfind : (t.mapBlockIndex.find e.block.hashPrevBlock).isSome = true
  · rw [if_pos hfind, run_write]
    refine .same (ht.trans ⟨rfl, rfl, rfl, rfl, ?_⟩)
    exact sameEntries_modify _ _ fun _ _ => rfl
  · rw [if_neg hfind]
    cases pprevBlock with
    | none => exact .same ht
    | some pprev =>
      have hkeeps : SameBlocks t (run (checkParent env e pprev) t).2 := checkParent_keeps env e pprev t t (.refl t)
      dsimp only
      rw [run_bind]
      split
      · rename_i u hparent
        have hreaches : ReachesParent env e s pprev u :=
          ⟨t, hnew, hdup, Option.not_isSome_iff_eq_none.mp hfind, hparent⟩
        rw [run_accept]
        exact .parent pprev u hreaches hreaches.same (.refl _)
      · rename_i failure u hparent
        rw [hparent] at hkeeps
        exact .same (ht.trans hkeeps)

/-- **What comes before the block itself**: nothing is put anywhere, or the predecessor is handed to `AcceptBlock`. -/
theorem prepare_cases (env : NodeContext) (e : BlockEvent) (s : ProcessState) :
    Prepared env e s (run (prepare env e) s).2 := by
  have hchecks : SameBlocks s (run (checkNew env e) s).2 := checkNew_keeps env e s s (.refl s)
  unfold prepare
  rw [run_bind]
  split
  · rename_i t hnew
    rw [hnew] at hchecks
    have hparent : Prepared env e s (run (reacceptParent env e) t).2 := by
      unfold reacceptParent
      rw [run_bind, run_record]
      dsimp only
      split
      · exact .same hchecks
      · rename_i pprevBlock hdup
        have htake := takeParent_cases hnew hchecks hdup
        rw [run_bind]
        split <;> rename_i htaken <;> rw [htaken] at htake
        · exact htake.trans (sameBlocks_setAside _ _)
        · exact htake
    rw [run_bind]
    split <;> rename_i hreaccept <;> rw [hreaccept] at hparent
    · exact hparent.trans (sameBlocks_setAside _ _)
    · exact hparent
  · rename_i failure t hnew
    rw [hnew] at hchecks
    exact .same hchecks

/-- **Everything that processing a block can do.** -/
theorem processBlock_cases (env : NodeContext) (e : BlockEvent) (s : ProcessState) :
    ProcessEffect env e s (run (processBlock env e) s).2 := by
  have hprepared := prepare_cases env e s
  unfold processBlock
  rw [run_bind]
  split
  · rename_i t hrun
    rw [hrun] at hprepared
    unfold place
    rw [run_bind, run_record]
    dsimp only
    cases hdetached : t.isDetached e.block with
    | true =>
      rw [if_pos rfl]
      have hunknown : t.mapBlockIndex.find e.block.hashPrevBlock = none := by
        simp only [isDetached, decide_eq_true_eq, Option.isNone_iff_eq_none] at hdetached
        exact hdetached.2
      split
      · unfold holdBack
        rw [run_bind, run_record]
        dsimp only
        rw [run_bind, run_check]
        split
        · rename_i heq
          obtain ⟨-, rfl⟩ := Prod.mk.inj heq
          obtain ⟨_, s₁, hnew, -⟩ := run_bind_ok.mp hrun
          exact .held hprepared (checkNew_ok hnew).2 hunknown _
        · rename_i heq
          obtain ⟨-, rfl⟩ := Prod.mk.inj heq
          exact .dropped hprepared
      · exact .dropped hprepared
    | false =>
      rw [if_neg Bool.false_ne_true, run_bind, run_accept]
      cases haccept : (t.acceptBlock env e e.block e.dbp).2 with
      | none => exact .accepted hprepared ⟨hrun, hdetached⟩ haccept
      | some failure => exact .failed hprepared ⟨hrun, hdetached⟩ (by rw [haccept]; exact Option.some_ne_none _)
  · rename_i failure t hrun
    rw [hrun] at hprepared
    exact .dropped hprepared

end Effect

/-! ## Invariants of the block index -/

section Index

variable {cr : Crypto} {cfg : Settings} {I : BlockMap → Prop}

/-- The index keeps the property when entries change only as connecting blocks changes them, and when the entry of a
block that is accepted is put into it. -/
structure KeepsIndex (cr : Crypto) (cfg : Settings) (I : BlockMap → Prop) : Prop where
  same : ∀ m m', SameEntries m m' → I m → I m'
  insert : ∀ (env : NodeContext) (s : NodeState) (block : CBlock) (r : Except Failure Unit) (pindex : CBlockIndex),
    env.cr = cr → env.cfg = cfg → s.checkBefore env block = .ok () →
    run (s.fillIndex env block) (s.startIndex env block) = (r, pindex) → I s.mapBlockIndex →
    I ((s.writeToDisk env block).insertIndex env block pindex).mapBlockIndex

variable {env : NodeContext} {e : BlockEvent} {s : ProcessState}

theorem KeepsIndex.acceptBlock (h : KeepsIndex env.cr env.cfg I) (hs : I s.mapBlockIndex) (block : CBlock)
    (dbp : Option CDiskBlockPos) : I (s.acceptBlock env e block dbp).1.mapBlockIndex := by
  show I (s.toNodeState.acceptBlock env block e.fuel).1.mapBlockIndex
  have hcases := NodeState.acceptBlock_cases env s.toNodeState block e.fuel
  generalize (s.toNodeState.acceptBlock env block e.fuel).1 = n at hcases ⊢
  cases hcases with
  | refused failure hbefore => exact hs
  | rejected failure pindex hbefore hfill => exact h.insert env s.toNodeState block _ pindex rfl rfl hbefore hfill hs
  | added pindex c hbefore hfill hsteps =>
    exact h.same _ _ (ReorgSteps.sameEntries hsteps)
      (h.insert env s.toNodeState block _ pindex rfl rfl hbefore hfill hs)

theorem KeepsIndex.processOrphans (h : KeepsIndex env.cr env.cfg I) (hs : I s.mapBlockIndex) (hash : Uint256) :
    I (s.processOrphans env e hash).mapBlockIndex := by
  have hround : ∀ (u : ProcessState) (hashPrev : Uint256), I u.mapBlockIndex → True →
      I (processWaiting env e u hashPrev).1.mapBlockIndex := by
    intro u hashPrev hu _
    exact List.foldlRecOn (motive := fun r : ProcessState × List Uint256 => I r.1.mapBlockIndex) (u.waiting hashPrev)
      (acceptOrphan env e) hu fun r hr o _ => h.acceptBlock hr o none
  exact Worklist.drain_inv (I := fun u : ProcessState => I u.mapBlockIndex) hround hs
    (Worklist.meets_of_forall fun _ _ => trivial)

theorem KeepsIndex.prepared {t : ProcessState} (h : KeepsIndex env.cr env.cfg I) (hs : I s.mapBlockIndex)
    (ht : Prepared env e s t) : I t.mapBlockIndex := by
  cases ht with
  | same hsame => exact h.same _ _ hsame.entries hs
  | parent pprev u hreaches hu hsame =>
    exact h.same _ _ hsame.entries (h.acceptBlock (h.same _ _ hu.entries hs) pprev e.dbp)

/-- **The induction over blocks that are processed**, for what holds of the index. -/
theorem KeepsIndex.step {e : BlockEvent} (h : KeepsIndex cr cfg I) (hs : I s.mapBlockIndex) :
    I (s.step cfg cr e).mapBlockIndex := by
  have hcases := processBlock_cases (e.context cfg cr) e s
  unfold ProcessState.step
  generalize (run (processBlock (e.context cfg cr) e) s).2 = s' at hcases ⊢
  have hctx : KeepsIndex (e.context cfg cr).cr (e.context cfg cr).cfg I := h
  cases hcases with
  | dropped hprepared => exact hctx.prepared hs hprepared
  | held hprepared =>
    have ht := hctx.prepared hs hprepared
    exact ht
  | failed hprepared => exact hctx.acceptBlock (hctx.prepared hs hprepared) _ _
  | accepted hprepared => exact hctx.processOrphans (hctx.acceptBlock (hctx.prepared hs hprepared) _ _) _

/-- What the index keeps holds in every state of a run. -/
theorem KeepsIndex.always (h : KeepsIndex cr cfg I) (hs : I s.mapBlockIndex) (es : List BlockEvent) :
    Always (ProcessState.step cfg cr) (fun t => I t.mapBlockIndex) s es := by
  have hstep : ∀ (t : ProcessState) (e : BlockEvent), I t.mapBlockIndex → True →
      I (ProcessState.step cfg cr t e).mapBlockIndex := fun t e ht _ => h.step ht
  exact always_of_inv (I := fun t : ProcessState => I t.mapBlockIndex) hstep hs (Run.meets_of_forall fun _ _ => trivial)

end Index

end ProcessState

end Morcochain
