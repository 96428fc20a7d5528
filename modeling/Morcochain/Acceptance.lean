import Morcochain.Custodians
import Morcochain.Lib.Filling

/-!
# Accepting blocks

`CBlock::AddToBlockIndex` and `CBlock::AcceptBlock` (`main.cpp`): a block is checked against its predecessors and
written to disk, its entry is put into the block index and filled in, and the best chain is looked for again.

* `fillIndex_keeps` : whatever happens, filling in an entry keeps its place in the chain.
* `ReorgSteps.sameEntries` : a reorganisation keeps everything of an entry but its status, figures and successor.
* `acceptBlock_cases` : **everything that accepting a block can do** to the block index and the candidates.
-/

set_option autoImplicit false

namespace Morcochain

open Guard Filling OrderedStore

/-! ## The state of the node -/

/-- The node with the stakes it has seen and the proof hashes it has computed. -/
structure NodeState extends ChainState where
  setStakeSeen : List (COutPoint × Nat) := []
  mapProofOfStake : Uint256 → Option Uint256 := fun _ => none

/-! ## Targets and times -/

def bnInitialHashTarget (cfg : Settings) : Int := if cfg.fTestNet then (2 ^ 256 - 1) >>> 20 else (2 ^ 256 - 1) >>> 24
def bnInitialProofOfStakeHashTarget (cfg : Settings) : Int :=
  if cfg.fTestNet then (2 ^ 256 - 1) >>> 28 else (2 ^ 256 - 1) >>> 20
def nTargetTimespan : Int := 7 * 24 * 60 * 60
def nTargetSpacingWorkMax : Int := 12 * stakeTargetSpacing
def nMedianTimeSpan : Nat := 11
def protocolV5SwitchTime : Int := 1415368800
def protocolV5TestSwitchTime : Int := 1414195200

/-- `IsNuProtocolV05`. -/
def isNuProtocolV05 (cfg : Settings) (nTimeBlock : Int) : Bool :=
  (if cfg.fTestNet then protocolV5TestSwitchTime else protocolV5SwitchTime) ≤ nTimeBlock

/-- `GetLastBlockIndex`: the chain from the last block of a kind down, or from the root. -/
def getLastBlockIndex (fProofOfStake : Bool) : List CBlockIndex → List CBlockIndex
  | [] => []
  | pindex :: rest =>
    if pindex.pprev.isSome ∧ pindex.isProofOfStake ≠ fProofOfStake then getLastBlockIndex fProofOfStake rest
    else pindex :: rest

/-- `GetInitialTarget`. -/
def getInitialTarget (cfg : Settings) (fProofOfStake : Bool) : Nat :=
  getCompact (if fProofOfStake then bnInitialProofOfStakeHashTarget cfg else bnInitialHashTarget cfg)

/-- `GetNextTargetRequired`, for a block above a chain. -/
def getNextTargetRequired (cfg : Settings) (chainLast : List CBlockIndex) (fProofOfStake : Bool) : Nat :=
  match getLastBlockIndex fProofOfStake chainLast with
  | [] => getCompact bnProofOfWorkLimit
  | pindexPrev :: chainPrev =>
    match getLastBlockIndex fProofOfStake chainPrev with
    | [] => getInitialTarget cfg fProofOfStake
    | pindexPrevPrev :: _ =>
      if pindexPrevPrev.pprev.isNone then getInitialTarget cfg fProofOfStake
      else
        let nActualSpacing := pindexPrev.getBlockTime - pindexPrevPrev.getBlockTime
        let nHeightLast : Int := (chainLast.head?.map (·.nHeight)).getD 0
        let nTargetSpacing :=
          if fProofOfStake then stakeTargetSpacing
          else min nTargetSpacingWorkMax (stakeTargetSpacing * (1 + nHeightLast - pindexPrev.nHeight))
        let nInterval := Int.tdiv nTargetTimespan nTargetSpacing
        let bnNew := Int.tdiv
          (setCompact pindexPrev.nBits * ((nInterval - 1) * nTargetSpacing + nActualSpacing + nActualSpacing))
          ((nInterval + 1) * nTargetSpacing)
        getCompact (if bnNew > bnProofOfWorkLimit ∧ !isNuProtocolV05 cfg pindexPrev.getBlockTime then bnProofOfWorkLimit
          else bnNew)

/-- `GetMedianTimePast`, of the first block of a chain. -/
def getMedianTimePast (chain : List CBlockIndex) : Int :=
  let times := ((chain.take nMedianTimeSpan).map (·.getBlockTime)).insertionSort (· ≤ ·)
  times.getD (times.length / 2) 0

/-- `CBlock::GetStakeEntropyBit`. -/
def CBlock.getStakeEntropyBit (block : CBlock) (cr : Crypto) : Nat :=
  if isProtocolV04 block.nTime then block.getHash cr % 2 else (cr.hash160 block.vchBlockSig).toNat >>> 159

/-! ## Filling in the entry -/

/-- A part of `AddToBlockIndex` that fills in the entry. -/
abbrev Fill := Routine CBlockIndex Failure Unit

/-- `return error(msg)` when `c` holds. -/
def fillErrorIf (c : Prop) [Decidable c] (msg : String) : Fill := check (errorIf c msg)

/-- The entry of a block before it is checked. -/
def newIndex (cfg : Settings) (m : BlockMap) (block : CBlock) : CBlockIndex :=
  let pprev := m.find block.hashPrevBlock
  let pindexNew := CBlockIndex.ofBlock block
  { pindexNew with
    nProtocolVersion := getProtocolForNextBlock cfg (m.chain block.hashPrevBlock)
    pprevElected := pprev.bind fun p => if p.vElectedCustodian ≠ [] then some block.hashPrevBlock else p.pprevElected
    nTx := block.vtx.length
    nChainTrust := ((pprev.map (·.nChainTrust)).getD 0 + pindexNew.getBlockTrust.toNat) % 2 ^ 256
    nChainTx := ((pprev.map (·.nChainTx)).getD 0 + block.vtx.length) % 2 ^ 32
    nStatus := blockValidTransactions ||| blockHaveData }

namespace NodeState

variable (env : NodeContext) (s : NodeState) (block : CBlock)

/-- The proof hash of a proof-of-stake block. -/
def fillProof : Fill :=
  if block.isProofOfStake then
    match s.mapProofOfStake (block.getHash env.cr) with
    | none => throw (.error "AddToBlockIndex() : hashProofOfStake not found in map")
    | some hashProofOfStake => write fun p => { p with hashProofOfStake := hashProofOfStake }
  else pure ()

/-- The stake modifier and its checksum. -/
def fillModifier : Fill := do
  let pindexNew ← record
  let (nStakeModifier, fGeneratedStakeModifier) ← check (orError "AddToBlockIndex() : ComputeNextStakeModifier() failed"
    (computeNextStakeModifier env.cfg env.cr s.mapBlockIndex pindexNew))
  write fun p => { p with nStakeModifier := nStakeModifier, fStakeModifier := fGeneratedStakeModifier }
  write fun p => { p with
    nStakeModifierChecksum := getStakeModifierChecksum env.cr
      ((p.pprev.bind s.mapBlockIndex.find).map (·.nStakeModifierChecksum)) p }
  let pindexNew ← record
  fillErrorIf (!checkStakeModifierCheckpoints env.cfg pindexNew.nHeight pindexNew.nStakeModifierChecksum)
    "AddToBlockIndex() : Rejected by stake modifier checkpoint"

/-- The entropy bit, the proof hash and the stake modifier. -/
def fillStake : Fill := do
  write fun p => { p with fStakeEntropy := block.getStakeEntropyBit env.cr = 1 }
  s.fillProof env block
  s.fillModifier env

/-- The check of one transaction with the park rate results. -/
def fillParkCheck (tx : CTransaction) : Fill := do
  let pindexNew ← record
  let ok ← check (tx.checkParkWithResult pindexNew.vParkRateResult)
  fillErrorIf (!ok) "AddToBlockIndex() : invalid park transactions found"

/-- The vote of a proof-of-stake block, with its coin age. -/
def fillVote : Fill := do
  let pindexNew ← record
  match extractVote block pindexNew.nProtocolVersion with
  | none => throw (.error "AddToBlockIndex() : Unable to extract vote")
  | some vote => do
    write fun p => { p with vote := vote }
    fillErrorIf (!vote.isValid pindexNew.nProtocolVersion) "AddToBlockIndex() : Invalid vote"
    let nCoinAge ← check (orError "AddToBlockIndex() : Unable to get coin age"
      ((s.coinAgeContext env).coinStakeAge block))
    write fun p => { p with nCoinAgeDestroyed := nCoinAge, vote := { vote with nCoinAgeDestroyed := nCoinAge } }

/-- The voted fees and the park rate results of a proof-of-stake block, and the check of its park transactions. -/
def fillParkRates : Fill := do
  let pindexNew ← record
  let chainPrev := s.mapBlockIndex.prevChain pindexNew
  write fun p => { p with mapVotedFee := calculateVotedFees (pindexNew :: chainPrev) }
  match extractParkRateResults block with
  | none => throw (.error "AddToBlockIndex() : Unable to extract park rate results")
  | some vParkRateResult => do
    write fun p => { p with vParkRateResult := vParkRateResult }
    let vExpectedParkRateResult ← check (orError "AddToBlockIndex() : Unable to calculate park rate results"
      (calculateParkRateResults pindexNew.vote chainPrev pindexNew.nProtocolVersion))
    fillErrorIf (vParkRateResult ≠ vExpectedParkRateResult) "AddToBlockIndex() : Park rate results do not match"
    block.vtx.forM fillParkCheck

end NodeState

/-- `CCustodianVote::SetAddress`, of a vote with an amount. -/
def CCustodianVote.ofAddress (fTestNet : Bool) (address : CBitcoinAddress) (nAmount : Int) : CCustodianVote :=
  match address.get fTestNet with
  | .none => { cUnit := address.getUnit fTestNet, nAmount := nAmount }
  | .keyID h => { cUnit := address.getUnit fTestNet, fScript := false, hashAddress := h, nAmount := nAmount }
  | .scriptID h => { cUnit := address.getUnit fTestNet, fScript := true, hashAddress := h, nAmount := nAmount }

/-- The custodian that an output of a grant pays. -/
def electedByOutput (cfg : Settings) (cr : Crypto) (cUnit : CUnit) (txo : CTxOut) : Check CCustodianVote :=
  match extractDestination cr txo.scriptPubKey with
  | none => .error (.error "Unable to extract address from currency coinbase")
  | some destination =>
    match CBitcoinAddress.ofDestination cfg.fTestNet destination cUnit with
    | none => .error (.exception "No address version defined for unit")
    | some address => .ok (.ofAddress cfg.fTestNet address txo.nValue)

/-- Note the custodian that an output pays. -/
def fillElectedOutput (env : NodeContext) (cUnit : CUnit) (txo : CTxOut) : Fill := do
  let electedCustodian ← check (electedByOutput env.cfg env.cr cUnit txo)
  write fun p => { p with vElectedCustodian := p.vElectedCustodian ++ [electedCustodian] }

/-- Note the custodians that a transaction pays, if it is a grant. -/
def fillElectedTx (env : NodeContext) (tx : CTransaction) : Fill :=
  if tx.isCustodianGrant then do
    fillErrorIf (tx.vout.length < 1) "Not enough outputs in currency coinbase"
    tx.vout.forM (fillElectedOutput env tx.cUnit)
  else pure ()

/-- The elected custodians. -/
def fillElected (env : NodeContext) (block : CBlock) : Fill := block.vtx.forM (fillElectedTx env)

namespace NodeState

variable (env : NodeContext) (s : NodeState) (block : CBlock)

/-- The vote and the park rates of a proof-of-stake block. -/
def fillVoting : Fill :=
  if block.isProofOfStake then do
    s.fillVote env block
    s.fillParkRates block
  else pure ()

/-- What `AddToBlockIndex` checks and writes into the entry. -/
def fillIndex : Fill := do
  s.fillStake env block
  s.fillVoting env block
  fillElected env block

/-- The entry as it is put into the index, linked to its predecessor. -/
def startIndex : CBlockIndex :=
  s.mapBlockIndex.linked (block.getHash env.cr) block.hashPrevBlock (newIndex env.cfg s.mapBlockIndex block)

/-- The block index with the entry of the block, as far as it was filled in. -/
def insertIndex (pindex : CBlockIndex) : NodeState :=
  { s with mapBlockIndex := s.mapBlockIndex.insert (block.getHash env.cr) block.hashPrevBlock pindex }

/-- The block is a candidate, and its stake was seen. -/
def remember (pindexNew : CBlockIndex) : NodeState :=
  { s with
    setStakeSeen :=
      if block.isProofOfStake then (block.prevoutStake, block.nStakeTime) :: s.setStakeSeen else s.setStakeSeen
    setBlockIndexValid := pindexNew.trustHash :: s.setBlockIndexValid }

/-- The node after `ConnectBestBlock`. -/
def connectBest (fuel : Nat) : NodeState × Option Failure :=
  let r := s.toChainState.connectBestBlock env fuel
  ({ s with toChainState := r.1 }, r.2)

/-- `CBlock::AddToBlockIndex`. -/
def addToBlockIndex (fuel : Nat) : NodeState × Option Failure :=
  if (s.mapBlockIndex.find (block.getHash env.cr)).isSome then (s, some (.dos 0 false "AddToBlockIndex() : already exists"))
  else
    match run (s.fillIndex env block) (s.startIndex env block) with
    | (.error e, pindexNew) => (s.insertIndex env block pindexNew, some e)
    | (.ok (), pindexNew) => ((s.insertIndex env block pindexNew).remember block pindexNew).connectBest env fuel

/-! ## AcceptBlock -/

/-- The checks of `AcceptBlock` on a block that is not the genesis block, given the entry before it. -/
def checkAccept (pindexPrev : CBlockIndex) : Check Unit := do
  let chainPrev := s.mapBlockIndex.chain block.hashPrevBlock
  let nHeight : Int := pindexPrev.nHeight + 1
  let nProtocolVersion := getProtocolForNextBlock env.cfg chainPrev
  dosIf (nHeight ≤ proofOfWorkBlocks ∧ block.isProofOfStake) 100 "AcceptBlock() : Proof-of-stake before switch"
  dosIf (¬ nHeight ≤ proofOfWorkBlocks ∧ block.isProofOfWork) 100 "AcceptBlock() : Proof-of-work after switch"
  dosIf (block.nBits ≠ getNextTargetRequired env.cfg chainPrev block.isProofOfStake) 100
    "AcceptBlock() : incorrect proof-of-work/proof-of-stake"
  dosIf (block.getBlockTime ≤ getMedianTimePast chainPrev ∨
      block.getBlockTime + nMaxClockDrift < pindexPrev.getBlockTime) 0 "AcceptBlock() : block's timestamp is too early"
  dosIf (!block.vtx.all (·.isFinal nHeight block.getBlockTime)) 10 "AcceptBlock() : contains a non-final transaction"
  dosIf (!env.cfg.checkHardened (pindexPrev.nHeight + 1) (block.getHash env.cr)) 100
    "AcceptBlock() : rejected by hardened checkpoint lock-in"
  errorIf (block.isProofOfStake ∧ (extractVote block nProtocolVersion).isNone)
    "AcceptBlock() : unable to extract block vote"
  errorIf (block.isProofOfStake ∧ nProtocolVersion ≥ protocolV2_0 ∧
      (extractVote block nProtocolVersion).any (·.nVersionVote < protocolV2_0))
    "AcceptBlock(): Protocol version vote lower than the protocol v2.0"
  orError "AcceptBlock() : custodian grant check failed"
    ((s.coinAgeContext env).checkCustodianGrants s.mapBlockIndex env.nAdjustedTime.toNat block pindexPrev)

/-- The checks of `AcceptBlock` before the block is written to disk. -/
def checkBefore : Check Unit :=
  if (s.mapBlockIndex.find (block.getHash env.cr)).isSome then
    .error (.dos 0 false "AcceptBlock() : block already in mapBlockIndex")
  else if block.getHash env.cr = env.cfg.hashGenesisBlock then .ok ()
  else
    match s.mapBlockIndex.find block.hashPrevBlock with
    | none => .error (.dos 10 false "AcceptBlock() : prev block not found")
    | some pindexPrev => s.checkAccept env block pindexPrev

/-- The node with the block on disk. -/
def writeToDisk : NodeState :=
  { s with blocks := fun h => if h = block.getHash env.cr then some block else s.blocks h }

/-- `CBlock::AcceptBlock`. -/
def acceptBlock (fuel : Nat) : NodeState × Option Failure :=
  match s.checkBefore env block with
  | .error e => (s, some e)
  | .ok () =>
    match (s.writeToDisk env block).addToBlockIndex env block fuel with
    | (s', none) => (s', none)
    | (s', some (.exception msg)) => (s', some (.abort ("System error: " ++ msg)))
    | (s', some _) => (s', some (.error "AcceptBlock() : AddToBlockIndex failed"))

end NodeState

/-! ## What filling in keeps and checks -/

/-- The entry without what `AddToBlockIndex` fills in. -/
def CBlockIndex.place (p : CBlockIndex) : CBlockIndex :=
  { p with
    fStakeEntropy := false, hashProofOfStake := 0, nStakeModifier := 0, fStakeModifier := false
    nStakeModifierChecksum := 0, vote := CVote.null, nCoinAgeDestroyed := 0, mapVotedFee := {}
    vParkRateResult := [], vElectedCustodian := [] }

/-- The checks of `AddToBlockIndex`, as they show in the entry. -/
structure OwnChecks (env : NodeContext) (s : NodeState) (block : CBlock) (pindex : CBlockIndex) : Prop where
  checkpoint : checkStakeModifierCheckpoints env.cfg pindex.nHeight pindex.nStakeModifierChecksum = true
  vote : block.isProofOfStake = true → ∃ vote, extractVote block pindex.nProtocolVersion = some vote ∧
    vote.isValid pindex.nProtocolVersion = true ∧
    (s.coinAgeContext env).coinStakeAge block = .ok pindex.nCoinAgeDestroyed ∧
    pindex.vote = { vote with nCoinAgeDestroyed := pindex.nCoinAgeDestroyed }
  parkRates : block.isProofOfStake = true → extractParkRateResults block = some pindex.vParkRateResult ∧
    calculateParkRateResults pindex.vote (s.mapBlockIndex.prevChain pindex) pindex.nProtocolVersion =
      .ok pindex.vParkRateResult
  parks : block.isProofOfStake = true → ∀ tx ∈ block.vtx, tx.checkParkWithResult pindex.vParkRateResult = .ok true

section Fill

variable {env : NodeContext} {s : NodeState} {block : CBlock} {p p' : CBlockIndex}

theorem run_fillErrorIf_ok {c : Prop} [Decidable c] {msg : String} :
    run (fillErrorIf c msg) p = (.ok (), p') ↔ ¬ c ∧ p = p' := by
  unfold fillErrorIf
  rw [run_check, Prod.mk.injEq, rejectIf_eq_ok]

theorem fillStake_keeps (q : CBlockIndex) : Keeps (fun p => p.place = q) (s.fillStake env block) := by
  refine .bind (.write fun _ h => h) fun _ => .bind ?_ fun _ => ?_
  · unfold NodeState.fillProof
    split
    · split
      · exact .throw _
      · exact .write fun _ h => h
    · exact .pure ()
  · exact .bind .record fun _ => .bind (.check _) fun _ => .bind (.write fun _ h => h) fun _ =>
      .bind (.write fun _ h => h) fun _ => .bind .record fun _ => .check _

theorem place_votedFee (p : CBlockIndex) (mapVotedFee : CUnitMap Nat) :
    ({ p with mapVotedFee := mapVotedFee } : CBlockIndex).place = p.place := rfl

theorem fillVoting_keeps (q : CBlockIndex) : Keeps (fun p => p.place = q) (s.fillVoting env block) := by
  unfold NodeState.fillVoting
  split
  · refine .bind (.bind .record fun _ => ?_) fun _ => .bind .record fun _ =>
      .bind (.write fun p h => (place_votedFee p _).trans h) fun _ => ?_
    · split
      · exact .throw _
      · exact .bind (.write fun _ h => h) fun _ => .bind (.check _) fun _ => .bind (.check _) fun _ =>
          .write fun _ h => h
    · split
      · exact .throw _
      · exact .bind (.write fun _ h => h) fun _ => .bind (.check _) fun _ => .bind (.check _) fun _ =>
          .forM fun tx _ => .bind .record fun _ => .bind (.check _) fun _ => .check _
  · exact .pure ()

theorem fillElected_keeps (q : CBlockIndex) : Keeps (fun p => p.place = q) (fillElected env block) := by
  refine .forM fun tx _ => ?_
  unfold fillElectedTx
  split
  · exact .bind (.check _) fun _ => .forM fun txo _ => .bind (.check _) fun _ => .write fun _ h => h
  · exact .pure ()

/-- **Filling in an entry keeps its place**, whether it succeeds or not. -/
theorem fillIndex_keeps (p : CBlockIndex) : (run (s.fillIndex env block) p).2.place = p.place := by
  have h : Keeps (fun q : CBlockIndex => q.place = p.place) (s.fillIndex env block) := by
    unfold NodeState.fillIndex
    exact Keeps.bind (fillStake_keeps p.place) fun _ => Keeps.bind (fillVoting_keeps p.place) fun _ =>
      fillElected_keeps p.place
  exact h p rfl

theorem fillStake_ok (h : run (s.fillStake env block) p = (.ok (), p')) :
    (∃ fEntropy hash nModifier fModifier nChecksum, p' = { p with
      fStakeEntropy := fEntropy, hashProofOfStake := hash, nStakeModifier := nModifier, fStakeModifier := fModifier
      nStakeModifierChecksum := nChecksum }) ∧
      checkStakeModifierCheckpoints env.cfg p'.nHeight p'.nStakeModifierChecksum = true := by
  obtain ⟨_, p₁, h₁, h⟩ := run_bind_ok.mp h
  cases h₁
  obtain ⟨_, p₂, h₂, h⟩ := run_bind_ok.mp h
  have hproof : ∃ hash, p₂ = { p with
      fStakeEntropy := block.getStakeEntropyBit env.cr = 1, hashProofOfStake := hash } := by
    unfold NodeState.fillProof at h₂
    split at h₂
    · split at h₂
      · cases h₂
      · cases h₂
        exact ⟨_, rfl⟩
    · cases h₂
      exact ⟨_, rfl⟩
  obtain ⟨hash, rfl⟩ := hproof
  obtain ⟨_, p₃, h₃, h⟩ := run_bind_ok.mp h
  cases h₃
  obtain ⟨⟨nModifier, fModifier⟩, p₄, h₄, h⟩ := run_bind_ok.mp h
  obtain ⟨-, rfl⟩ := Prod.mk.inj h₄
  obtain ⟨_, p₅, h₅, h⟩ := run_bind_ok.mp h
  cases h₅
  obtain ⟨_, p₆, h₆, h⟩ := run_bind_ok.mp h
  cases h₆
  obtain ⟨_, p₇, h₇, h⟩ := run_bind_ok.mp h
  cases h₇
  obtain ⟨hcheck, rfl⟩ := run_fillErrorIf_ok.mp h
  exact ⟨⟨_, _, _, _, _, rfl⟩, by simpa using hcheck⟩

theorem fillVote_ok (h : run (s.fillVote env block) p = (.ok (), p')) :
    ∃ vote nCoinAge, extractVote block p.nProtocolVersion = some vote ∧ vote.isValid p.nProtocolVersion = true ∧
      (s.coinAgeContext env).coinStakeAge block = .ok nCoinAge ∧
      p' = { p with nCoinAgeDestroyed := nCoinAge, vote := { vote with nCoinAgeDestroyed := nCoinAge } } := by
  obtain ⟨_, p₁, h₁, h⟩ := run_bind_ok.mp h
  cases h₁
  split at h
  · cases h
  · rename_i vote hvote
    obtain ⟨_, p₂, h₂, h⟩ := run_bind_ok.mp h
    cases h₂
    obtain ⟨_, p₃, h₃, h⟩ := run_bind_ok.mp h
    obtain ⟨hvalid, rfl⟩ := run_fillErrorIf_ok.mp h₃
    obtain ⟨nCoinAge, p₄, h₄, h⟩ := run_bind_ok.mp h
    obtain ⟨hage, rfl⟩ := Prod.mk.inj h₄
    cases h
    exact ⟨vote, nCoinAge, hvote, by simpa using hvalid, orError_eq_ok.mp hage, rfl⟩

theorem fillParkCheck_ok {tx : CTransaction} (h : run (NodeState.fillParkCheck tx) p = (.ok (), p')) :
    tx.checkParkWithResult p.vParkRateResult = .ok true ∧ p = p' := by
  obtain ⟨_, p₁, h₁, h⟩ := run_bind_ok.mp h
  cases h₁
  obtain ⟨ok, p₂, h₂, h⟩ := run_bind_ok.mp h
  obtain ⟨hok, rfl⟩ := Prod.mk.inj h₂
  obtain ⟨htrue, rfl⟩ := run_fillErrorIf_ok.mp h
  rw [Bool.not_eq_true', Bool.not_eq_false] at htrue
  exact ⟨htrue ▸ hok, rfl⟩

theorem fillParkChecks_ok : ∀ {vtx : List CTransaction} {p p' : CBlockIndex},
    run (vtx.forM NodeState.fillParkCheck) p = (.ok (), p') →
      (∀ tx ∈ vtx, tx.checkParkWithResult p.vParkRateResult = .ok true) ∧ p = p'
  | [], p, p', h => by
    cases h
    exact ⟨List.forall_mem_nil _, rfl⟩
  | tx :: vtx, p, p', h => by
    obtain ⟨_, p₁, h₁, h₂⟩ := run_bind_ok.mp h
    obtain ⟨htx, rfl⟩ := fillParkCheck_ok h₁
    obtain ⟨hrest, rfl⟩ := fillParkChecks_ok h₂
    exact ⟨List.forall_mem_cons.mpr ⟨htx, hrest⟩, rfl⟩

theorem fillParkRates_ok (h : run (s.fillParkRates block) p = (.ok (), p')) :
    ∃ mapVotedFee vParkRateResult, extractParkRateResults block = some vParkRateResult ∧
      calculateParkRateResults p.vote (s.mapBlockIndex.prevChain p) p.nProtocolVersion = .ok vParkRateResult ∧
      (∀ tx ∈ block.vtx, tx.checkParkWithResult vParkRateResult = .ok true) ∧
      p' = { p with mapVotedFee := mapVotedFee, vParkRateResult := vParkRateResult } := by
  obtain ⟨_, p₁, h₁, h⟩ := run_bind_ok.mp h
  cases h₁
  obtain ⟨_, p₂, h₂, h⟩ := run_bind_ok.mp h
  cases h₂
  split at h
  · cases h
  · rename_i vParkRateResult hresult
    obtain ⟨_, p₃, h₃, h⟩ := run_bind_ok.mp h
    cases h₃
    obtain ⟨vExpected, p₄, h₄, h⟩ := run_bind_ok.mp h
    obtain ⟨hexpected, rfl⟩ := Prod.mk.inj h₄
    obtain ⟨_, p₅, h₅, h⟩ := run_bind_ok.mp h
    obtain ⟨heq, rfl⟩ := run_fillErrorIf_ok.mp h₅
    obtain ⟨hparks, rfl⟩ := fillParkChecks_ok h
    refine ⟨_, vParkRateResult, hresult, ?_, hparks, rfl⟩
    rw [orError_eq_ok.mp hexpected, not_not.mp heq]

/-- The outputs of the grants of a block, with their units. -/
def CBlock.grantOutputs (block : CBlock) : List (CUnit × CTxOut) :=
  block.actualGrants.flatMap fun tx => tx.vout.map (tx.cUnit, ·)

theorem fillElectedOutputs_ok {cUnit : CUnit} : ∀ {vout : List CTxOut} {p p' : CBlockIndex},
    run (vout.forM (fillElectedOutput env cUnit)) p = (.ok (), p') →
      ∃ votes, List.Forall₂ (fun txo v => electedByOutput env.cfg env.cr cUnit txo = .ok v) vout votes ∧
        p' = { p with vElectedCustodian := p.vElectedCustodian ++ votes }
  | [], p, p', h => by
    cases h
    exact ⟨[], .nil, by rw [List.append_nil]⟩
  | txo :: vout, p, p', h => by
    obtain ⟨_, p₁, h₁, h⟩ := run_bind_ok.mp h
    obtain ⟨v, p₂, h₂, h₁⟩ := run_bind_ok.mp h₁
    obtain ⟨hv, rfl⟩ := Prod.mk.inj h₂
    cases h₁
    obtain ⟨votes, hvotes, rfl⟩ := fillElectedOutputs_ok h
    exact ⟨v :: votes, .cons hv hvotes, by rw [List.append_assoc, List.singleton_append]⟩

theorem fillElected_ok' : ∀ {vtx : List CTransaction} {p p' : CBlockIndex},
    run (vtx.forM (fillElectedTx env)) p = (.ok (), p') →
      ∃ votes, List.Forall₂ (fun o v => electedByOutput env.cfg env.cr o.1 o.2 = .ok v)
          ((vtx.filter (·.isCustodianGrant)).flatMap fun tx => tx.vout.map (tx.cUnit, ·)) votes ∧
        p' = { p with vElectedCustodian := p.vElectedCustodian ++ votes }
  | [], p, p', h => by
    cases h
    exact ⟨[], .nil, by rw [List.append_nil]⟩
  | tx :: vtx, p, p', h => by
    obtain ⟨_, p₁, h₁, h⟩ := run_bind_ok.mp h
    obtain ⟨votes, hvotes, rfl⟩ := fillElected_ok' h
    unfold fillElectedTx at h₁
    by_cases hgrant : tx.isCustodianGrant = true
    · rw [if_pos hgrant] at h₁
      obtain ⟨_, p₂, h₂, h₁⟩ := run_bind_ok.mp h₁
      obtain ⟨-, rfl⟩ := run_fillErrorIf_ok.mp h₂
      obtain ⟨first, hfirst, rfl⟩ := fillElectedOutputs_ok h₁
      rw [List.filter_cons_of_pos hgrant, List.flatMap_cons]
      refine ⟨first ++ votes, List.rel_append ?_ hvotes, by rw [List.append_assoc]⟩
      exact List.forall₂_map_left_iff.mpr hfirst
    · rw [if_neg hgrant] at h₁
      cases h₁
      rw [List.filter_cons_of_neg hgrant]
      exact ⟨votes, hvotes, rfl⟩

/-- **The checks that a block has passed when its entry was filled in**, and its elected custodians. -/
theorem fillIndex_ok (h : run (s.fillIndex env block) p = (.ok (), p')) :
    OwnChecks env s block p' ∧
      ∃ votes, List.Forall₂ (fun o v => electedByOutput env.cfg env.cr o.1 o.2 = .ok v) block.grantOutputs votes ∧
        p'.vElectedCustodian = p.vElectedCustodian ++ votes := by
  obtain ⟨_, p₁, h₁, h⟩ := run_bind_ok.mp h
  obtain ⟨_, p₂, h₂, h₃⟩ := run_bind_ok.mp h
  obtain ⟨⟨_, _, _, _, _, rfl⟩, hcheckpoint⟩ := fillStake_ok h₁
  obtain ⟨votes, hvotes, rfl⟩ := fillElected_ok' h₃
  unfold NodeState.fillVoting at h₂
  by_cases hstake : block.isProofOfStake = true
  · rw [if_pos hstake] at h₂
    obtain ⟨_, p₄, h₄, h₂⟩ := run_bind_ok.mp h₂
    obtain ⟨vote, nCoinAge, hvote, hvalid, hage, rfl⟩ := fillVote_ok h₄
    obtain ⟨_, _, hextract, hcalculate, hparks, rfl⟩ := fillParkRates_ok h₂
    exact ⟨⟨hcheckpoint, fun _ => ⟨vote, hvote, hvalid, hage, rfl⟩, fun _ => ⟨hextract, hcalculate⟩, fun _ => hparks⟩,
      votes, hvotes, rfl⟩
  · rw [if_neg hstake] at h₂
    cases h₂
    exact ⟨⟨hcheckpoint, fun h => absurd h hstake, fun h => absurd h hstake, fun h => absurd h hstake⟩,
      votes, hvotes, rfl⟩

end Fill

/-! ## What a reorganisation keeps of an entry -/

/-- The entry without what connecting blocks changes: the status, the figures and the successor. -/
def CBlockIndex.accepted (p : CBlockIndex) : CBlockIndex :=
  { p with nStatus := 0, nMint := 0, mapMoneySupply := {}, mapTotalParked := {}, pnext := none }

/-- Two maps have the same entries, but for what connecting blocks changes. -/
def SameEntries (m m' : BlockMap) : Prop :=
  ∀ h, (m'.find h).map (·.accepted) = (m.find h).map (·.accepted)

section Reorg

variable {env : NodeContext} {s s' : ChainState}

theorem SameEntries.refl (m : BlockMap) : SameEntries m m := fun _ => rfl

theorem SameEntries.trans {m m' m'' : BlockMap} (h : SameEntries m m') (h' : SameEntries m' m'') :
    SameEntries m m'' := fun x => (h' x).trans (h x)

theorem SameEntries.find {m m' : BlockMap} (hs : SameEntries m m') {h : Uint256} {p' : CBlockIndex}
    (hp : m'.find h = some p') : ∃ p, m.find h = some p ∧ p.accepted = p'.accepted := by
  have hx := hs h
  rw [hp, Option.map_some] at hx
  exact Option.map_eq_some_iff.mp hx.symm

/-- An update that leaves the rest of an entry alone. -/
theorem sameEntries_modify (m : BlockMap) (hash : Uint256) {f : CBlockIndex → CBlockIndex}
    (hf : ∀ p, m.find hash = some p → (f p).accepted = p.accepted) : SameEntries m (m.modify hash f) := by
  intro x
  rw [BlockMap.find_modify]
  split
  · rename_i hx
    rw [hx]
    cases hp : m.find hash with
    | none => rfl
    | some p =>
      have h := hf p hp
      simp only [Option.map_some, Option.some.injEq]
      have hhash : (f p).accepted.phashBlock = p.accepted.phashBlock := by rw [h]
      have hprev : (f p).accepted.pprev = p.accepted.pprev := by rw [h]
      have hheight : (f p).accepted.nHeight = p.accepted.nHeight := by rw [h]
      have hsame : BlockMap.updated f p = f p := by
        unfold BlockMap.updated
        rw [← show (f p).phashBlock = p.phashBlock from hhash, ← show (f p).pprev = p.pprev from hprev,
          ← show (f p).nHeight = p.nHeight from hheight]
      rw [hsame, h]
  · rfl

/-- Setting successors leaves the rest of the entries alone. -/
theorem sameEntries_relink (m : BlockMap) (vDisconnect vConnect : List CBlockIndex) :
    SameEntries m (m.relink vDisconnect vConnect) := by
  intro x
  have h := congrArg (Option.map CBlockIndex.accepted) (sameButNext_relink m vDisconnect vConnect x)
  rw [Option.map_map, Option.map_map] at h
  exact h

/-- No step of a reorganisation changes anything else. -/
theorem ReorgStep.sameEntries (h : ChainState.ReorgStep env s s') : SameEntries s.mapBlockIndex s'.mapBlockIndex := by
  cases h with
  | link view pindex block c hfind hconnect =>
    refine sameEntries_modify _ _ fun p hp => ?_
    obtain rfl := Option.some.inj (hfind.symm.trans hp)
    rcases ChainState.connectBlock_pindex hconnect with heq | ⟨cs, heq⟩
    · rw [heq]
      rfl
    · rw [heq]
      rfl
  | failed pindex => exact sameEntries_modify _ _ fun _ _ => rfl
  | failedChild pindex => exact sameEntries_modify _ _ fun _ _ => rfl
  | commit => exact sameEntries_relink _ _ _

theorem ReorgSteps.sameEntries (h : ChainState.ReorgSteps env s s') :
    SameEntries s.mapBlockIndex s'.mapBlockIndex := by
  induction h with
  | refl => exact .refl _
  | tail _ hstep ih => exact ih.trans (ReorgStep.sameEntries hstep)

/-- No step of a reorganisation changes the blocks on disk. -/
theorem ReorgSteps.blocks (h : ChainState.ReorgSteps env s s') : s'.blocks = s.blocks := by
  induction h with
  | refl => rfl
  | tail _ hstep ih =>
    rw [← ih]
    cases hstep <;> rfl

end Reorg

/-! ## What accepting a block does -/

namespace NodeState

/-- The node with a new candidate in the index. -/
def withCandidate (env : NodeContext) (s : NodeState) (block : CBlock) (pindex : CBlockIndex) : NodeState :=
  ((s.writeToDisk env block).insertIndex env block pindex).remember block pindex

/-- What `AcceptBlock` can do. -/
inductive AcceptStep (env : NodeContext) (s : NodeState) (block : CBlock) : NodeState → Prop where
  /-- The block is refused before it is written to disk. -/
  | refused (e : Failure) (hbefore : s.checkBefore env block = .error e) : AcceptStep env s block s
  /-- `AddToBlockIndex` rejects the block; the entry stays in the index. -/
  | rejected (e : Failure) (pindex : CBlockIndex) (hbefore : s.checkBefore env block = .ok ())
      (hfill : run (s.fillIndex env block) (s.startIndex env block) = (.error e, pindex)) :
      AcceptStep env s block ((s.writeToDisk env block).insertIndex env block pindex)
  /-- The block becomes a candidate, and the best chain is looked for. -/
  | added (pindex : CBlockIndex) (c : ChainState) (hbefore : s.checkBefore env block = .ok ())
      (hfill : run (s.fillIndex env block) (s.startIndex env block) = (.ok (), pindex))
      (hsteps : ChainState.ReorgSteps env (s.withCandidate env block pindex).toChainState c) :
      AcceptStep env s block { s.withCandidate env block pindex with toChainState := c }

section Cases

variable {env : NodeContext} {s : NodeState} {block : CBlock}

/-- A block that passes the first checks is not in the index. -/
theorem find_of_checkBefore (h : s.checkBefore env block = .ok ()) :
    s.mapBlockIndex.find (block.getHash env.cr) = none := by
  unfold checkBefore at h
  by_cases hsome : (s.mapBlockIndex.find (block.getHash env.cr)).isSome = true
  · rw [if_pos hsome] at h
    cases h
  · exact Option.not_isSome_iff_eq_none.mp hsome

/-- **Everything that accepting a block can do.** -/
theorem acceptBlock_cases (env : NodeContext) (s : NodeState) (block : CBlock) (fuel : Nat) :
    AcceptStep env s block (s.acceptBlock env block fuel).1 := by
  unfold acceptBlock
  cases hbefore : s.checkBefore env block with
  | error e => exact .refused e hbefore
  | ok u =>
    have hnew : ((s.writeToDisk env block).mapBlockIndex.find (block.getHash env.cr)).isSome = false := by
      rw [show (s.writeToDisk env block).mapBlockIndex = s.mapBlockIndex from rfl, find_of_checkBefore hbefore]
      rfl
    have hadd : AcceptStep env s block ((s.writeToDisk env block).addToBlockIndex env block fuel).1 := by
      unfold addToBlockIndex
      rw [if_neg (by rw [hnew]; exact Bool.false_ne_true)]
      cases hrun : run ((s.writeToDisk env block).fillIndex env block) ((s.writeToDisk env block).startIndex env block)
        with
      | mk r pindex =>
        cases r with
        | error e => exact .rejected e pindex hbefore hrun
        | ok u => exact .added pindex _ hbefore hrun (ChainState.connectBestBlock_steps fuel _)
    simp only
    generalize (s.writeToDisk env block).addToBlockIndex env block fuel = r at hadd ⊢
    obtain ⟨s', r⟩ := r
    split <;> rename_i heq <;> cases heq <;> exact hadd

/-- The entry that is filled in has its place in the index. -/
theorem startIndex_place {r : Except Failure Unit} {pindex : CBlockIndex}
    (h : run (s.fillIndex env block) (s.startIndex env block) = (r, pindex)) :
    pindex.place = (s.startIndex env block).place := by
  have hkeeps : (run (s.fillIndex env block) (s.startIndex env block)).2.place = _ := fillIndex_keeps _
  rw [h] at hkeeps
  exact hkeeps

/-- The entry in the index is the one that was filled in. -/
theorem find_insertIndex {r : Except Failure Unit} {pindex : CBlockIndex} (hbefore : s.checkBefore env block = .ok ())
    (h : run (s.fillIndex env block) (s.startIndex env block) = (r, pindex)) (x : Uint256) :
    ((s.writeToDisk env block).insertIndex env block pindex).mapBlockIndex.find x =
      if x = block.getHash env.cr then some pindex else s.mapBlockIndex.find x := by
  have hplace := startIndex_place h
  have hlinked : s.mapBlockIndex.linked (block.getHash env.cr) block.hashPrevBlock pindex = pindex := by
    have hhash : pindex.place.phashBlock = (s.startIndex env block).place.phashBlock := by rw [hplace]
    have hprev : pindex.place.pprev = (s.startIndex env block).place.pprev := by rw [hplace]
    have hheight : pindex.place.nHeight = (s.startIndex env block).place.nHeight := by rw [hplace]
    replace hhash : pindex.phashBlock = (s.startIndex env block).phashBlock := hhash
    replace hprev : pindex.pprev = (s.startIndex env block).pprev := hprev
    replace hheight : pindex.nHeight = (s.startIndex env block).nHeight := hheight
    unfold startIndex BlockMap.linked at hhash hprev hheight
    unfold BlockMap.linked
    cases hfind : s.mapBlockIndex.find block.hashPrevBlock with
    | none =>
      rw [hfind] at hhash hprev hheight
      cases pindex
      simp only at hhash hprev hheight
      simp only [hhash, hprev, hheight]
    | some pprev =>
      rw [hfind] at hhash hprev hheight
      cases pindex
      simp only at hhash hprev hheight
      simp only [hhash, hprev, hheight]
  show (s.mapBlockIndex.insert (block.getHash env.cr) block.hashPrevBlock pindex).find x = _
  rw [BlockMap.find_insert]
  by_cases hx : x = block.getHash env.cr
  · rw [hx, find_of_checkBefore hbefore, Option.none_or, if_pos rfl, if_pos rfl, hlinked]
  · rw [if_neg hx, if_neg hx, Option.or_none]

end Cases

end NodeState

end Morcochain
