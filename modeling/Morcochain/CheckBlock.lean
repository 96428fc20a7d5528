import Morcochain.CheckTransaction
import Morcochain.Kernel

/-!
# Context-independent checks of a block

`CBlock::CheckBlock` with what it calls (`main.cpp`), and the hardened checkpoints (`checkpoints.cpp`).

* `silent_checkBlock` : **where the checks fail without telling the state**: too many transaction ids in the time of the
  lock limit, and a coinbase output of a proof-of-stake block that is not empty.
-/

set_option autoImplicit false

namespace Morcochain

open Guard

/-! ## Hardened checkpoints -/

/-- `Checkpoints::mapCheckpoints` of the network. -/
def Settings.mapCheckpoints (cfg : Settings) : List (Nat × Uint256) :=
  if cfg.fTestNet then [(0, hashGenesisBlockTestNet)]
  else
    [(0, hashGenesisBlockOfficial),
     (6500, 0x32af48ceb4b4ae94d35fb39c9538daca48e003365effdd38e0482341d0e18f2c),
     (66500, 0x11b331cb1e5ba525fdcd5915aa47ee9dc0ca79337e634beabc7be21b1e23b5b4)]

/-- `Checkpoints::CheckHardened`. -/
def Settings.checkHardened (cfg : Settings) (nHeight : Nat) (hash : Uint256) : Bool :=
  !cfg.fCheckpoints || (cfg.mapCheckpoints.lookup nHeight).all (· = hash)

/-- `Checkpoints::GetTotalBlocksEstimate`. -/
def Settings.getTotalBlocksEstimate (cfg : Settings) : Nat :=
  if cfg.fCheckpoints then (cfg.mapCheckpoints.getLast?.map (·.1)).getD 0 else 0

/-! ## Proof of work and block signature -/

/-- `GetProofOfWorkReward`. -/
def getProofOfWorkReward : Int := Int.tdiv ipoShares proofOfWorkBlocks

/-- `CheckProofOfWork`. -/
def checkProofOfWork (hash : Uint256) (nBits : Nat) : Bool :=
  let bnTarget := setCompact nBits
  0 < bnTarget ∧ bnTarget ≤ bnProofOfWorkLimit ∧ (hash : Int) ≤ bnTarget

namespace CBlock

variable (block : CBlock) (cfg : Settings) (cr : Crypto)

/-- The output whose key signs the block. -/
def signingOutput : Option CTxOut :=
  if block.isProofOfStake then block.vtx[1]?.bind (·.vout[1]?) else block.vtx[0]?.bind (·.vout[0]?)

/-- `CBlock::CheckBlockSignature`. -/
def checkBlockSignature : Bool :=
  if block.getHash cr = cfg.hashGenesisBlock then block.vchBlockSig = []
  else
    match block.signingOutput.bind (fun txout => solver txout.scriptPubKey) with
    | some (.pubkey, vSolutions) =>
      let vchPubKey := vSolutions.getD 0 []
      cr.setPubKey vchPubKey && block.vchBlockSig ≠ [] && cr.verify vchPubKey (block.getHash cr) block.vchBlockSig
    | _ => false

/-! ## CheckBlock -/

/-- The size limits. -/
def checkSize : Check Unit :=
  dosIf (block.vtx = [] ∨ block.vtx.length > maxBlockSize ∨ block.serializeSize > maxBlockSize) 100
    "CheckBlock() : size limits failed"

/-- `setTxIn`: the transactions of the block and those that its transactions spend, but for the coinbase. -/
def setTxIn : List Uint256 :=
  ((block.vtx.map (·.getHash cr)) ++
    (block.vtx.drop 1).flatMap (fun tx => tx.vin.map (fun txin => txin.prevout.hash))).dedup

/-- The limit on locks, from 21 March to 15 May 2013. -/
def checkMaxLocks : Check Unit :=
  errorIf (1363867200 ≤ block.getBlockTime ∧ block.getBlockTime < 1368576000 ∧ (block.setTxIn cr).length > 4500)
    "CheckBlock() : 15 May maxlocks violation"

/-- The checks of the header and of the kinds of the transactions. -/
def checkShape (fCheckPOW : Bool) (nAdjustedTime : Int) : Check Unit := do
  dosIf (fCheckPOW ∧ block.isProofOfWork ∧ !checkProofOfWork (block.getHash cr) block.nBits) 50
    "CheckBlock() : proof of work failed"
  dosIf (block.getBlockTime > nAdjustedTime + nMaxClockDrift) 0
    "CheckBlock() : block timestamp too far in the future"
  dosIf (!block.vtx.head?.any (·.isCoinBase)) 100 "CheckBlock() : first tx is not coinbase"
  dosIf ((block.vtx.drop 1).any (·.isCoinBase)) 100 "CheckBlock() : more than one coinbase"
  dosIf ((block.vtx.drop 2).any (·.isCoinStake)) 100 "CheckBlock() : coinstake in wrong position"

/-- The outputs of the coinbase. -/
def coinbaseOutputs : List CTxOut := (block.vtx.head?.map (·.vout)).getD []

/-- The coinbase output of a proof-of-stake block is empty. -/
def checkCoinbaseEmpty : Check Unit :=
  errorIf (block.isProofOfStake ∧ ¬ (block.coinbaseOutputs.length = 1 ∧ block.coinbaseOutputs.all (·.isEmpty)))
    "CheckBlock() : coinbase output not empty for proof-of-stake block"

/-- The timestamps of the coinbase and the coinstake, and the reward of the coinbase. -/
def checkCoinbase : Check Unit :=
  match block.vtx with
  | [] => .error (.assertion "vtx")
  | coinbase :: rest => do
    dosIf (block.getBlockTime > coinbase.nTime + nMaxClockDrift) 50 "CheckBlock() : coinbase timestamp is too early"
    dosIf (block.isProofOfStake ∧ !rest.head?.any (fun tx => checkCoinStakeTimestamp cfg block.nTime tx.nTime)) 50
      "CheckBlock() : coinstake timestamp violation"
    let nValueOut ← coinbase.getValueOut
    dosIf (nValueOut > if block.isProofOfWork then getProofOfWorkReward else 0) 50
      "CheckBlock() : coinbase reward exceeded"

/-- The checks of one transaction. -/
def checkBlockTx (_ : Unit) (tx : CTransaction) : Check Unit := do
  tx.checkTransaction
  dosIf (block.getBlockTime < tx.nTime) 50 "CheckBlock() : block timestamp earlier than transaction timestamp"

/-- The checks of the transactions, the Merkle root and the signature. -/
def checkContents (fCheckMerkleRoot : Bool) : Check Unit := do
  block.vtx.foldlM block.checkBlockTx ()
  rejectIf (¬ (block.vtx.map (·.getHash cr)).Nodup) (.dos 100 true "CheckBlock() : duplicate transaction")
  dosIf ((block.vtx.map (·.getLegacySigOpCount)).sum > maxBlockSigops) 100
    "CheckBlock() : out-of-bounds SigOpCount"
  dosIf (fCheckMerkleRoot ∧ block.hashMerkleRoot ≠ block.buildMerkleTree cr) 100
    "CheckBlock() : hashMerkleRoot mismatch"
  dosIf (fCheckMerkleRoot ∧ !block.checkBlockSignature cfg cr) 100 "CheckBlock() : bad block signature"

/-- `CBlock::CheckBlock`. -/
def checkBlock (fCheckPOW fCheckMerkleRoot : Bool) (nAdjustedTime : Int) : Check Unit := do
  block.checkSize
  block.checkMaxLocks cr
  block.checkShape cr fCheckPOW nAdjustedTime
  block.checkCoinbaseEmpty
  block.checkCoinbase cfg
  block.checkContents cfg cr fCheckMerkleRoot

/-! ## What a block that passes satisfies -/

/-- What the checks of a block establish of its transactions. -/
structure Checked (block : CBlock) (cr : Crypto) : Prop where
  coinbase : block.vtx.head?.any (·.isCoinBase) = true
  rest : ∀ tx ∈ block.vtx.drop 1, tx.isCoinBase = false
  txs : ∀ tx ∈ block.vtx, tx.checkTransaction = .ok () ∧ (tx.nTime : Int) ≤ block.getBlockTime
  nodup : (block.vtx.map (·.getHash cr)).Nodup

theorem checkBlock_ok {block : CBlock} {cfg : Settings} {cr : Crypto} {fCheckPOW fCheckMerkleRoot : Bool}
    {nAdjustedTime : Int} (h : block.checkBlock cfg cr fCheckPOW fCheckMerkleRoot nAdjustedTime = .ok ()) :
    block.Checked cr := by
  unfold checkBlock at h
  simp only [bind_eq_ok] at h
  obtain ⟨_, -, _, -, _, hshape, _, -, _, -, hcontents⟩ := h
  unfold checkShape at hshape
  simp only [bind_eq_ok, rejectIf_eq_ok] at hshape
  obtain ⟨-, -, -, -, -, hbase, -, hrest, -⟩ := hshape
  unfold checkContents at hcontents
  simp only [bind_eq_ok, rejectIf_eq_ok] at hcontents
  obtain ⟨_, htxs, -, hnodup, -⟩ := hcontents
  refine ⟨by simpa using hbase, fun tx hmem => ?_, fun tx hmem => ?_, not_not.mp hnodup⟩
  · have hany := List.any_eq_false.mp (Bool.eq_false_iff.mpr hrest) tx hmem
    simpa using hany
  · obtain ⟨l₁, l₂, hsplit⟩ := List.append_of_mem hmem
    rw [hsplit] at htxs
    obtain ⟨_, -, hstep⟩ := foldlM_append_ok.mp htxs
    obtain ⟨_, htx, -⟩ := foldlM_cons_ok.mp hstep
    unfold checkBlockTx at htx
    obtain ⟨_, hcheck, htime⟩ := bind_eq_ok.mp htx
    exact ⟨hcheck, Int.not_lt.mp (rejectIf_eq_ok.mp htime)⟩

/-! ## Where the checks fail without telling the state -/

section Silent

variable {block cfg cr} {fCheckPOW fCheckMerkleRoot : Bool} {nAdjustedTime : Int}

theorem not_silent_checkShape : ¬ Silent (block.checkShape cr fCheckPOW nAdjustedTime) := by
  have h : Attributed (block.checkShape cr fCheckPOW nAdjustedTime) :=
    .bind attributed_dosIf fun _ _ => .bind attributed_dosIf fun _ _ => .bind attributed_dosIf fun _ _ =>
    .bind attributed_dosIf fun _ _ => attributed_dosIf
  exact h.not_silent

theorem not_silent_checkCoinbase : ¬ Silent (block.checkCoinbase cfg) := by
  unfold checkCoinbase
  split
  · simp [Failure.isSilent]
  · simp only [stops_bind, not_silent_dosIf, CTransaction.not_silent_getValueOut, false_or, not_exists, not_and]
    exact fun _ _ _ _ _ _ h => h

theorem not_silent_checkContents : ¬ Silent (block.checkContents cfg cr fCheckMerkleRoot) := by
  have htx : ∀ u tx, Attributed (block.checkBlockTx u tx) := fun _ tx =>
    .bind tx.checkTransaction_attributed fun _ _ => attributed_dosIf
  have h : Attributed (block.checkContents cfg cr fCheckMerkleRoot) :=
    .bind (.foldlM fun u tx _ => htx u tx) fun _ _ => .bind (.rejectIf fun _ => rfl) fun _ _ =>
    .bind attributed_dosIf fun _ _ => .bind attributed_dosIf fun _ _ => attributed_dosIf
  exact h.not_silent

variable (block cr fCheckPOW nAdjustedTime) in
/-- The block breaks, before any other rule, one of the two rules of which the state is not told: the lock limit, or the
empty coinbase of a proof-of-stake block. -/
def BreaksSilentRule : Prop :=
  block.checkSize = .ok () ∧
    (block.checkMaxLocks cr ≠ .ok () ∨ block.checkShape cr fCheckPOW nAdjustedTime = .ok () ∧
      block.checkCoinbaseEmpty ≠ .ok ())

theorem silent_errorIf_iff_ne {c : Prop} [Decidable c] {msg : String} :
    Silent (errorIf c msg) ↔ errorIf c msg ≠ .ok () := by
  rw [silent_errorIf, Ne, rejectIf_eq_ok, not_not]

/-- **Where the checks of a block fail without telling the state.** -/
theorem silent_checkBlock : Silent (block.checkBlock cfg cr fCheckPOW fCheckMerkleRoot nAdjustedTime) ↔
    block.BreaksSilentRule cr fCheckPOW nAdjustedTime := by
  have hsize : ¬ Silent block.checkSize := not_silent_dosIf
  have hlocks : Silent (block.checkMaxLocks cr) ↔ block.checkMaxLocks cr ≠ .ok () := silent_errorIf_iff_ne
  have hempty : Silent block.checkCoinbaseEmpty ↔ block.checkCoinbaseEmpty ≠ .ok () := silent_errorIf_iff_ne
  unfold checkBlock BreaksSilentRule
  simp only [stops_bind, hsize, hlocks, hempty, not_silent_checkShape, not_silent_checkCoinbase,
    not_silent_checkContents, false_or, and_false, exists_false, or_false, exists_and_right]
  have hunit : ∀ {x : Check Unit}, (∃ u, x = .ok u) ↔ x = .ok () := fun {x} => ⟨fun ⟨_, h⟩ => h, fun h => ⟨_, h⟩⟩
  rw [hunit, hunit, hunit]
  refine and_congr_right fun _ => ?_
  by_cases hl : block.checkMaxLocks cr = .ok () <;> simp [hl]

end Silent

end CBlock

end Morcochain
