import Morcochain.CheckBlock
import Morcochain.Serialize
import Morcochain.Lib.Run

/-!
# Synchronized checkpoints

The holder of the master key broadcasts checkpoints. A node keeps the last one it accepted, and one that waits for its
block (`checkpointsync.cpp`); the index is loaded, and the key compared with the recorded one, when the node starts
(`LoadBlockIndex` of `main.cpp`).

* `BlockMap.Extends` : an index that grew. Ancestors stay ancestors, and no new ones appear.
* `validateSyncCheckpoint_spec` : **a checkpoint is taken exactly when it comes after the last one**.
* `checkSyncCheckpoint_spec` : **a new block passes exactly when it comes after the checkpoint**.
* `Kept` : what every event keeps. `kept_step` : it is kept, and the checkpoint only moves on.
* `syncCheckpoint_runs` : **the checkpoints of a node, in any order of messages, blocks and restarts**.
* `syncCheckpoint_last` : **the last checkpoint that was signed is not lost** while the node runs.
-/

set_option autoImplicit false

namespace Morcochain

open Guard Run Codec

/-! ## Ancestors in an index that grows -/

namespace BlockMap

section Ancestors

variable {m m' m'' : BlockMap} {a b c h : Uint256} {p q : CBlockIndex}

theorem inChain_trans (hab : m.InChain a b) (hbc : m.InChain b c) : m.InChain a c := by
  obtain ⟨p, hp, rfl⟩ := hab
  obtain ⟨q, hq, rfl⟩ := hbc
  obtain ⟨above, hsplit, -⟩ := chain_split hq
  exact ⟨p, hsplit ▸ List.mem_append_right above hp, rfl⟩

/-- An ancestor is not higher, and only the block itself is as high. -/
theorem height_of_inChain (hp : m.find a = some p) (hq : m.find b = some q) (h : m.InChain a b) :
    p.nHeight < q.nHeight ∨ p = q := by
  obtain ⟨p', hp', rfl⟩ := h
  have hfind := find_of_mem_chain hp'
  rw [hp, Option.some.injEq] at hfind
  have hheights := m.chain_heights b
  rw [chain_of_find hq] at hp' hheights
  rcases List.mem_cons.mp hp' with hp' | hp'
  · exact .inr (hfind.trans hp')
  · rw [hfind]
    exact .inl ((List.pairwise_cons.mp hheights).1 p' hp')

/-- A block that has ancestors is in the index. -/
theorem find_of_inChain_right (h : m.InChain a b) : ∃ q, m.find b = some q := by
  cases hq : m.find b with
  | none =>
    obtain ⟨_, hp, -⟩ := h
    rw [chain_of_none hq] at hp
    exact absurd hp List.not_mem_nil
  | some q => exact ⟨q, rfl⟩

theorem inChain_antisymm (hab : m.InChain a b) (hba : m.InChain b a) : a = b := by
  obtain ⟨p, hp⟩ := find_of_inChain hab
  obtain ⟨q, hq⟩ := find_of_inChain hba
  rw [← m.hash_eq a p hp, ← m.hash_eq b q hq]
  rcases height_of_inChain hp hq hab with hlt | rfl
  · rcases height_of_inChain hq hp hba with hlt' | rfl
    · omega
    · rfl
  · rfl

/-- Two ancestors of a block stand on one chain. -/
theorem inChain_total (ha : m.InChain a h) (hb : m.InChain b h) : m.InChain a b ∨ m.InChain b a := by
  obtain ⟨p, hp, rfl⟩ := ha
  obtain ⟨q, hq, rfl⟩ := hb
  obtain ⟨above, hsplit, -⟩ := chain_split hp
  obtain ⟨above', hsplit', -⟩ := chain_split hq
  rcases List.suffix_or_suffix_of_suffix ⟨above, hsplit.symm⟩ ⟨above', hsplit'.symm⟩ with hsub | hsub
  · exact .inl ⟨p, hsub.subset (by rw [chain_of_find (find_of_mem_chain hp)]; exact List.mem_cons_self), rfl⟩
  · exact .inr ⟨q, hsub.subset (by rw [chain_of_find (find_of_mem_chain hq)]; exact List.mem_cons_self), rfl⟩

/-- The index grew: the blocks are still there, each with its predecessor. -/
def Extends (m m' : BlockMap) : Prop :=
  ∀ h p, m.find h = some p → ∃ p', m'.find h = some p' ∧ p'.pprev = p.pprev ∧ p'.nHeight = p.nHeight

theorem Extends.refl (m : BlockMap) : m.Extends m := fun _ p hp => ⟨p, hp, rfl, rfl⟩

theorem Extends.trans (h : m.Extends m') (h' : m'.Extends m'') : m.Extends m'' := by
  intro x p hp
  obtain ⟨p', hp', hprev, hheight⟩ := h x p hp
  obtain ⟨p'', hp'', hprev', hheight'⟩ := h' x p' hp'
  exact ⟨p'', hp'', hprev'.trans hprev, hheight'.trans hheight⟩

theorem extends_insert (m : BlockMap) (hash hashPrevBlock : Uint256) (pindex : CBlockIndex) :
    m.Extends (m.insert hash hashPrevBlock pindex) :=
  fun _ p hp => ⟨p, find_insert_of_some hp hash hashPrevBlock pindex, rfl, rfl⟩

theorem extends_modify (m : BlockMap) (hash : Uint256) (f : CBlockIndex → CBlockIndex) :
    m.Extends (m.modify hash f) := by
  intro h p hp
  rw [find_modify, hp, Option.map_some]
  split
  · exact ⟨_, rfl, rfl, rfl⟩
  · exact ⟨p, rfl, rfl, rfl⟩

/-- The chain of a block has the same blocks after the index grew. -/
theorem Extends.chain_hashes (hext : m.Extends m') (hp : m.find h = some p) :
    (m'.chain h).map (·.phashBlock) = (m.chain h).map (·.phashBlock) := by
  -- the induction is over the predecessors in the smaller index
  have key := chain_induction (m := m) (P := fun p => ∀ h, m.find h = some p →
    (m'.chain h).map (·.phashBlock) = (p :: m.prevChain p).map (·.phashBlock)) ?_ ?_ h p hp h hp
  · rw [key, chain_of_find hp]
  · intro x p hp hroot h hph
    obtain ⟨p', hp', hprev, -⟩ := hext h p hph
    rw [chain_of_find hp', prevChain_of_root (hprev.trans hroot), prevChain_of_root hroot, List.map_singleton,
      List.map_singleton, m'.hash_eq h p' hp', m.hash_eq h p hph]
  · intro x p q pprev hp hq hpprev ih h hph
    obtain ⟨p', hp', hprev, -⟩ := hext h p hph
    obtain ⟨pprev', hpprev', -⟩ := hext q pprev hpprev
    have htail := ih q hpprev
    rw [chain_of_find hpprev'] at htail
    rw [chain_of_find hp', prevChain_of_find (hprev.trans hq) hpprev', prevChain_of_find hq hpprev]
    show p'.phashBlock :: (pprev' :: m'.prevChain pprev').map (·.phashBlock) =
      p.phashBlock :: (pprev :: m.prevChain pprev).map (·.phashBlock)
    rw [htail, m'.hash_eq h p' hp', m.hash_eq h p hph]

/-- **Ancestors stay ancestors, and no new ones appear.** -/
theorem Extends.inChain (hext : m.Extends m') (hp : m.find h = some p) : m'.InChain a h ↔ m.InChain a h := by
  have hmem : ∀ n : BlockMap, n.InChain a h ↔ a ∈ (n.chain h).map (·.phashBlock) := fun n => List.mem_map.symm
  rw [hmem, hmem, hext.chain_hashes hp]

theorem Extends.mono (hext : m.Extends m') (h : m.InChain a b) : m'.InChain a b := by
  obtain ⟨q, hq⟩ := find_of_inChain_right h
  exact (hext.inChain hq).mpr h

/-- Back from a block to the first one that is not above a height. -/
def backTo (m : BlockMap) (h : Uint256) (nHeight : Nat) : Option CBlockIndex :=
  ((m.chain h).dropWhile fun pindex => nHeight < pindex.nHeight).head?

/-- **The search back finds out whether a block is an ancestor**, and it does not run out of predecessors. -/
theorem backTo_spec (hp : m.find a = some p) (hq : m.find b = some q) :
    ∃ r, m.backTo b p.nHeight = some r ∧ (r.phashBlock = a ↔ m.InChain a b) := by
  unfold backTo
  obtain ⟨root, hroot, hnone⟩ := exists_root hq
  have hzero : root.nHeight = 0 := by
    rcases m.prev_in _ root (find_of_mem_chain hroot) with ⟨-, hheight⟩ | ⟨_, _, hprev, -⟩
    · exact hheight
    · rw [hnone] at hprev
      cases hprev
  cases hdrop : (m.chain b).dropWhile fun pindex => p.nHeight < pindex.nHeight with
  | nil =>
    have hall := List.dropWhile_eq_nil_iff.mp hdrop root hroot
    rw [decide_eq_true_eq] at hall
    omega
  | cons r rest =>
    have hsuffix : r :: rest <:+ m.chain b := hdrop ▸ List.dropWhile_suffix _
    refine ⟨r, rfl, fun hr => ⟨r, hsuffix.subset List.mem_cons_self, hr⟩, ?_⟩
    rintro ⟨p', hp', rfl⟩
    have hfind := find_of_mem_chain hp'
    rw [hp, Option.some.injEq] at hfind
    subst hfind
    -- what was passed is above the ancestor, and what is left is not
    rw [← List.takeWhile_append_dropWhile (p := fun pindex : CBlockIndex => decide (p.nHeight < pindex.nHeight))
      (l := m.chain b), hdrop] at hp'
    rcases List.mem_append.mp hp' with hpassed | hleft
    · have hgt := List.mem_takeWhile_imp hpassed
      rw [decide_eq_true_eq] at hgt
      omega
    · rcases List.mem_cons.mp hleft with rfl | hrest
      · rfl
      · have hlow :=
          List.head?_dropWhile_not (fun pindex : CBlockIndex => decide (p.nHeight < pindex.nHeight)) (m.chain b)
        rw [hdrop] at hlow
        have hdesc := (List.pairwise_cons.mp ((m.chain_heights b).sublist hsuffix.sublist)).1 p hrest
        simp only [List.head?_cons, decide_eq_false_iff_not] at hlow
        omega

end Ancestors

end BlockMap

/-! ## Messages -/

/-- `CUnsignedSyncCheckpoint`, as `SetNull` leaves it. -/
structure CUnsignedSyncCheckpoint where
  nVersion : Int := 1
  hashCheckpoint : Uint256 := 0
deriving DecidableEq, Repr

/-- `CSyncCheckpoint`. -/
structure CSyncCheckpoint extends CUnsignedSyncCheckpoint where
  vchMsg : Bytes := []
  vchSig : Bytes := []
deriving DecidableEq, Repr

/-- Unserialize a `CUnsignedSyncCheckpoint`. -/
def readUnsignedSyncCheckpoint : Reader CUnsignedSyncCheckpoint := do
  let nVersion ← readInt 4
  let hashCheckpoint ← readUInt 32
  return { nVersion := nVersion, hashCheckpoint := hashCheckpoint }

/-- `CSyncCheckpoint::strMainPubKey`: the mark of an uncompressed key, and the two coordinates. -/
def strMainPubKey : Bytes :=
  0x04 :: (writeLE 32 0xc0c707c28533fd5c9f79d2d3a2d80dff259ad8f915241cd14608fb9bc07c7483).reverse ++
    (writeLE 32 0x0efe8438f2b272a866b4af5e0c2cc2a9909972aefbd976937e39f46bb38c277c).reverse

/-- `CSyncCheckpoint::strTestPubKey`. -/
def strTestPubKey : Bytes :=
  0x04 :: (writeLE 32 0x00c195be8d5194007b3f02249f785a51505776bd8f43cc6d49206163e08a63ad).reverse ++
    (writeLE 32 0x9009c814966921c361b14949c51e281edc9347e7ce0e8c57019df1313a6cac7b).reverse

/-- The master key of the network. -/
def Settings.strMasterPubKey (cfg : Settings) : Bytes := if cfg.fTestNet then strTestPubKey else strMainPubKey

/-- `CSyncCheckpoint::CheckSignature`, which leaves the signed content in the checkpoint. -/
def CSyncCheckpoint.checkSignature (cfg : Settings) (cr : Crypto) (checkpoint : CSyncCheckpoint) :
    Check CSyncCheckpoint := do
  errorIf (!cr.setPubKey cfg.strMasterPubKey) "CSyncCheckpoint::CheckSignature() : SetPubKey failed"
  errorIf (!cr.verify cfg.strMasterPubKey (cr.hash checkpoint.vchMsg) checkpoint.vchSig)
    "CSyncCheckpoint::CheckSignature() : verify signature failed"
  match readUnsignedSyncCheckpoint checkpoint.vchMsg with
  | none => .error (.exception "CDataStream::read() : end of data")
  | some (content, _) => .ok { checkpoint with toCUnsignedSyncCheckpoint := content }

/-! ## The node -/

/-- `Checkpoints::GetLatestHardenedCheckpoint`. -/
def Settings.getLatestHardenedCheckpoint (cfg : Settings) : Uint256 := (cfg.mapCheckpoints.getLast?.map (·.2)).getD 0

/-- What the node knows of checkpoints, with the index of blocks and the two records of the database. -/
structure SyncState where
  mapBlockIndex : BlockMap
  hashSyncCheckpoint : Uint256 := 0
  hashPendingCheckpoint : Uint256 := 0
  hashInvalidCheckpoint : Uint256 := 0
  checkpointMessage : CSyncCheckpoint := {}
  checkpointMessagePending : CSyncCheckpoint := {}
  /-- The record `hashSyncCheckpoint`. -/
  storedCheckpoint : Option Uint256 := none
  /-- The record `strCheckpointPubKey`. -/
  storedPubKey : Option Bytes := none

/-- Whether the write of a record to the database succeeds, and the flush after it. -/
structure DbWrite where
  fWrite : Bool := true
  fSync : Bool := true
deriving DecidableEq, Repr

/-- The write and the flush succeed. -/
def DbWrite.ok (w : DbWrite) : Bool := w.fWrite && w.fSync

namespace SyncState

variable (s : SyncState)

/-- `GetLastSyncCheckpoint`. -/
def getLastSyncCheckpoint : Option CBlockIndex := s.mapBlockIndex.find s.hashSyncCheckpoint

/-- `ValidateSyncCheckpoint`: only a descendant of the current checkpoint is allowed. -/
def validateSyncCheckpoint (hashCheckpoint : Uint256) : SyncState × Bool :=
  match s.mapBlockIndex.find s.hashSyncCheckpoint, s.mapBlockIndex.find hashCheckpoint with
  | some pindexSyncCheckpoint, some pindexCheckpointRecv =>
    if pindexCheckpointRecv.nHeight ≤ pindexSyncCheckpoint.nHeight then
      match s.mapBlockIndex.backTo s.hashSyncCheckpoint pindexCheckpointRecv.nHeight with
      | none => (s, false)
      | some pindex =>
        if pindex.phashBlock ≠ hashCheckpoint then ({ s with hashInvalidCheckpoint := hashCheckpoint }, false)
        else (s, false)
    else
      match s.mapBlockIndex.backTo hashCheckpoint pindexSyncCheckpoint.nHeight with
      | none => (s, false)
      | some pindex =>
        if pindex.phashBlock ≠ s.hashSyncCheckpoint then ({ s with hashInvalidCheckpoint := hashCheckpoint }, false)
        else (s, true)
  | _, _ => (s, false)

/-- `WriteSyncCheckpoint`. The record may be written although the flush fails. -/
def writeSyncCheckpoint (w : DbWrite) (hashCheckpoint : Uint256) : SyncState × Bool :=
  if !w.fWrite then (s, false)
  else if !w.fSync then ({ s with storedCheckpoint := some hashCheckpoint }, false)
  else ({ s with storedCheckpoint := some hashCheckpoint, hashSyncCheckpoint := hashCheckpoint }, true)

/-- `AcceptPendingSyncCheckpoint`. -/
def acceptPendingSyncCheckpoint (w : DbWrite) : SyncState × Bool :=
  if s.hashPendingCheckpoint ≠ 0 ∧ (s.mapBlockIndex.find s.hashPendingCheckpoint).isSome then
    let (s', fValid) := s.validateSyncCheckpoint s.hashPendingCheckpoint
    if !fValid then ({ s' with hashPendingCheckpoint := 0, checkpointMessagePending := {} }, false)
    else
      let (s', fWritten) := s'.writeSyncCheckpoint w s.hashPendingCheckpoint
      if !fWritten then (s', false)
      else
        ({ s' with
            hashPendingCheckpoint := 0
            checkpointMessage := s'.checkpointMessagePending
            checkpointMessagePending := {} }, true)
  else (s, false)

/-- `CheckSyncCheckpoint` for a block that follows an entry of the index. -/
def checkSyncCheckpoint (hashBlock : Uint256) (pindexPrev : CBlockIndex) : Check Bool :=
  match s.mapBlockIndex.find s.hashSyncCheckpoint with
  | none => .error (.assertion "mapBlockIndex.count(hashSyncCheckpoint)")
  | some pindexSync => do
    let nHeight := pindexPrev.nHeight + 1
    let fTraced := s.mapBlockIndex.backTo pindexPrev.phashBlock pindexSync.nHeight
    errorIf (nHeight > pindexSync.nHeight ∧ fTraced = none)
      "CheckSyncCheckpoint: pprev null - block index structure failure"
    if nHeight > pindexSync.nHeight ∧
        fTraced.all (fun pindex => pindex.nHeight < pindexSync.nHeight ∨ pindex.phashBlock ≠ s.hashSyncCheckpoint) then
      return false
    if nHeight = pindexSync.nHeight ∧ hashBlock ≠ s.hashSyncCheckpoint then return false
    if nHeight < pindexSync.nHeight ∧ (s.mapBlockIndex.find hashBlock).isNone then return false
    return true

/-- `CSyncCheckpoint::ProcessSyncCheckpoint`, for a checkpoint whose signature has been checked. -/
def processSigned (w : DbWrite) (checkpoint : CSyncCheckpoint) : SyncState × Bool :=
  if (s.mapBlockIndex.find checkpoint.hashCheckpoint).isNone then
    ({ s with hashPendingCheckpoint := checkpoint.hashCheckpoint, checkpointMessagePending := checkpoint }, false)
  else
    let (s', fValid) := s.validateSyncCheckpoint checkpoint.hashCheckpoint
    if !fValid then (s', false)
    else
      let (s', fWritten) := s'.writeSyncCheckpoint w checkpoint.hashCheckpoint
      if !fWritten then (s', false)
      else
        ({ s' with
            checkpointMessage := checkpoint
            hashPendingCheckpoint := 0
            checkpointMessagePending := {} }, true)

/-- `CSyncCheckpoint::ProcessSyncCheckpoint`. -/
def processSyncCheckpoint (cfg : Settings) (cr : Crypto) (w : DbWrite) (checkpoint : CSyncCheckpoint) :
    SyncState × Bool :=
  match checkpoint.checkSignature cfg cr with
  | .error _ => (s, false)
  | .ok checkpoint => s.processSigned w checkpoint

/-- What `ResetSyncCheckpoint` finds out: whether the hardened checkpoint is in the main chain, whether `SetBestChain`
succeeds for it otherwise, and whether it is in the main chain then. -/
structure ResetOutcome where
  fInMainChain : Bool
  fSetBestChain : Bool
  fInMainChainAfter : Bool
  wPubKey : DbWrite := {}
  w : DbWrite := {}

/-- `ResetSyncCheckpoint`: back to the last hardened checkpoint, or to the genesis block. -/
def resetSyncCheckpoint (cfg : Settings) (o : ResetOutcome) : SyncState × Bool :=
  let hash := cfg.getLatestHardenedCheckpoint
  if (s.mapBlockIndex.find hash).isSome ∧ !o.fInMainChain ∧ !o.fSetBestChain then (s, false)
  else
    let s' : SyncState := if (s.mapBlockIndex.find hash).isNone then
      { s with hashPendingCheckpoint := hash, checkpointMessagePending := {} } else s
    s'.writeSyncCheckpoint o.w (if (s.mapBlockIndex.find hash).isSome ∧ o.fInMainChainAfter then hash
      else cfg.hashGenesisBlock)

/-- `CheckCheckpointPubKey`: the checkpoint is reset when the master key is not the recorded one. -/
def checkCheckpointPubKey (cfg : Settings) (o : ResetOutcome) : SyncState × Bool :=
  if s.storedPubKey ≠ some cfg.strMasterPubKey then
    if !o.wPubKey.fWrite then (s, false)
    else
      let s' : SyncState := { s with storedPubKey := some cfg.strMasterPubKey }
      if !o.wPubKey.fSync then (s', false) else s'.resetSyncCheckpoint cfg o
  else (s, true)

/-- What `LoadBlockIndexDB` reads of checkpoints when the node starts: the rest is as in a new process. -/
def load (cfg : Settings) : SyncState where
  mapBlockIndex := s.mapBlockIndex
  hashSyncCheckpoint := s.storedCheckpoint.getD cfg.hashGenesisBlock
  storedCheckpoint := s.storedCheckpoint
  storedPubKey := s.storedPubKey

/-- The start of a node that has an index. -/
def start (cfg : Settings) (o : ResetOutcome) : SyncState × Bool := (s.load cfg).checkCheckpointPubKey cfg o

end SyncState

/-- What happens to the node: a message arrives, a block is put into the index, fields of an entry change, and the node
is started again. -/
inductive SyncEvent where
  | message (w : DbWrite) (checkpoint : CSyncCheckpoint)
  | block (w : DbWrite) (hash hashPrevBlock : Uint256) (pindex : CBlockIndex)
  | update (hash : Uint256) (f : CBlockIndex → CBlockIndex)
  | restart (o : SyncState.ResetOutcome)

/-- The node after an event. -/
def SyncState.step (cfg : Settings) (cr : Crypto) (s : SyncState) : SyncEvent → SyncState
  | .message w checkpoint => (s.processSyncCheckpoint cfg cr w checkpoint).1
  | .block w hash hashPrevBlock pindex =>
    (acceptPendingSyncCheckpoint { s with mapBlockIndex := s.mapBlockIndex.insert hash hashPrevBlock pindex } w).1
  | .update hash f => { s with mapBlockIndex := s.mapBlockIndex.modify hash f }
  | .restart o => (s.start cfg o).1

/-! ## What is taken -/

/-- Where a checkpoint may come from: the genesis block, the hardened checkpoints, and the holder of the key. -/
def CheckpointOrigin (cfg : Settings) (cr : Crypto) (h : Uint256) : Prop :=
  h = cfg.hashGenesisBlock ∨ h = cfg.getLatestHardenedCheckpoint ∨
    ∃ checkpoint signed : CSyncCheckpoint, checkpoint.checkSignature cfg cr = .ok signed ∧ signed.hashCheckpoint = h

section Validate

variable {cfg : Settings} {cr : Crypto} {s : SyncState} {hash : Uint256} {p q : CBlockIndex} {w : DbWrite}

/-- **A checkpoint is taken exactly when it comes after the last one**; one before it is ignored, and one on another
chain is noted. -/
theorem validateSyncCheckpoint_spec (hq : s.mapBlockIndex.find s.hashSyncCheckpoint = some q)
    (hp : s.mapBlockIndex.find hash = some p) :
    (s.mapBlockIndex.InChain s.hashSyncCheckpoint hash ∧ hash ≠ s.hashSyncCheckpoint ∧
        s.validateSyncCheckpoint hash = (s, true)) ∨
      (s.mapBlockIndex.InChain hash s.hashSyncCheckpoint ∧ s.validateSyncCheckpoint hash = (s, false)) ∨
      (¬ s.mapBlockIndex.InChain s.hashSyncCheckpoint hash ∧ ¬ s.mapBlockIndex.InChain hash s.hashSyncCheckpoint ∧
        s.validateSyncCheckpoint hash = ({ s with hashInvalidCheckpoint := hash }, false)) := by
  have hheight : p.nHeight ≤ q.nHeight → s.mapBlockIndex.InChain s.hashSyncCheckpoint hash →
      s.mapBlockIndex.InChain hash s.hashSyncCheckpoint := by
    intro hle hin
    rcases BlockMap.height_of_inChain hq hp hin with hlt | rfl
    · omega
    · rwa [← s.mapBlockIndex.hash_eq _ q hp, s.mapBlockIndex.hash_eq _ q hq] at hin ⊢
  unfold SyncState.validateSyncCheckpoint
  rw [hq, hp]
  dsimp only
  by_cases hle : p.nHeight ≤ q.nHeight
  · rw [if_pos hle]
    obtain ⟨r, hr, hiff⟩ := BlockMap.backTo_spec hp hq
    rw [hr]
    dsimp only
    by_cases hhash : r.phashBlock = hash
    · exact .inr (.inl ⟨hiff.mp hhash, if_neg (not_not.mpr hhash)⟩)
    · have hnot : ¬ s.mapBlockIndex.InChain hash s.hashSyncCheckpoint := fun h => hhash (hiff.mpr h)
      exact .inr (.inr ⟨fun h => hnot (hheight hle h), hnot, if_pos hhash⟩)
  · rw [if_neg hle]
    obtain ⟨r, hr, hiff⟩ := BlockMap.backTo_spec hq hp
    rw [hr]
    dsimp only
    have hnot : ¬ s.mapBlockIndex.InChain hash s.hashSyncCheckpoint := by
      intro h
      rcases BlockMap.height_of_inChain hp hq h with hlt | rfl
      · omega
      · omega
    by_cases hhash : r.phashBlock = s.hashSyncCheckpoint
    · refine .inl ⟨hiff.mp hhash, ?_, if_neg (not_not.mpr hhash)⟩
      rintro rfl
      exact hnot (BlockMap.inChain_self hq)
    · exact .inr (.inr ⟨fun h => hhash (hiff.mpr h), hnot, if_pos hhash⟩)

/-- **A new block passes exactly when it comes after the checkpoint.** -/
theorem checkSyncCheckpoint_spec (hq : s.mapBlockIndex.find s.hashSyncCheckpoint = some q)
    (hp : s.mapBlockIndex.find p.phashBlock = some p) (hnew : s.mapBlockIndex.find hash = none) :
    ∃ f, s.checkSyncCheckpoint hash p = .ok f ∧
      (f = true ↔ s.mapBlockIndex.InChain s.hashSyncCheckpoint p.phashBlock) := by
  obtain ⟨r, hr, hiff⟩ := BlockMap.backTo_spec hq hp
  have hne : hash ≠ s.hashSyncCheckpoint := by
    rintro rfl
    rw [hq] at hnew
    cases hnew
  have hlow : s.mapBlockIndex.InChain s.hashSyncCheckpoint p.phashBlock → q.nHeight ≤ p.nHeight := by
    intro h
    rcases BlockMap.height_of_inChain hq hp h with hlt | rfl
    · exact hlt.le
    · exact Nat.le_refl _
  have hsame : r.phashBlock = s.hashSyncCheckpoint → r.nHeight = q.nHeight := by
    intro h
    obtain ⟨r', hr', hhash⟩ := hiff.mp h
    have hmem : r ∈ s.mapBlockIndex.chain p.phashBlock := by
      unfold BlockMap.backTo at hr
      exact (List.dropWhile_suffix _).subset (List.mem_of_mem_head? hr)
    have hfind := BlockMap.find_of_mem_chain hmem
    rw [h, hq, Option.some.injEq] at hfind
    rw [hfind]
  unfold SyncState.checkSyncCheckpoint
  rw [hq]
  dsimp only
  have htraced : ¬ (p.nHeight + 1 > q.nHeight ∧ some r = none) := by
    rintro ⟨-, h⟩
    cases h
  rw [hr]
  simp only [rejectIf_neg htraced, ok_bind, Option.all_some, hnew]
  by_cases hgt : p.nHeight + 1 > q.nHeight
  · by_cases hhash : r.phashBlock = s.hashSyncCheckpoint
    · have hpass : ¬ (p.nHeight + 1 > q.nHeight ∧
          decide (r.nHeight < q.nHeight ∨ r.phashBlock ≠ s.hashSyncCheckpoint) = true) := by
        rw [decide_eq_true_eq, hsame hhash]
        simp [hhash]
      rw [if_neg hpass, if_neg (by omega), if_neg (by omega)]
      exact ⟨true, rfl, fun _ => hiff.mp hhash, fun _ => rfl⟩
    · rw [if_pos ⟨hgt, decide_eq_true (.inr hhash)⟩]
      refine ⟨false, rfl, fun h => (by cases h), fun h => absurd (hiff.mpr h) hhash⟩
  · have hnot : ¬ s.mapBlockIndex.InChain s.hashSyncCheckpoint p.phashBlock := fun h => hgt (by have := hlow h; omega)
    rw [if_neg (fun h => hgt h.1)]
    refine ⟨false, ?_, fun h => (by cases h), fun h => absurd h hnot⟩
    by_cases heq : p.nHeight + 1 = q.nHeight
    · rw [if_pos ⟨heq, hne⟩]
      rfl
    · rw [if_neg (fun h => heq h.1), if_pos ⟨by omega, rfl⟩]
      rfl

end Validate

/-! ## What every event keeps -/

/-- The checkpoint is a block of the index; the record is it or comes after it; both, and what is pending, have their
origin; and the recorded key is the one in use. -/
structure SyncState.Kept (cfg : Settings) (cr : Crypto) (s : SyncState) : Prop where
  found : ∃ p, s.mapBlockIndex.find s.hashSyncCheckpoint = some p
  stored : ∃ h, s.storedCheckpoint = some h ∧ s.mapBlockIndex.InChain s.hashSyncCheckpoint h ∧ CheckpointOrigin cfg cr h
  pubKey : s.storedPubKey = some cfg.strMasterPubKey
  current : CheckpointOrigin cfg cr s.hashSyncCheckpoint
  pending : s.hashPendingCheckpoint = 0 ∨ CheckpointOrigin cfg cr s.hashPendingCheckpoint

/-- The index grew, and the checkpoint is what it was or came after it. -/
structure SyncState.MovesOn (s s' : SyncState) : Prop where
  index : s.mapBlockIndex.Extends s'.mapBlockIndex
  checkpoint : s'.mapBlockIndex.InChain s.hashSyncCheckpoint s'.hashSyncCheckpoint

/-- A checkpoint is noted as invalid only when one stands that is not on its chain. -/
def SyncState.NotesConflict (cfg : Settings) (cr : Crypto) (s s' : SyncState) : Prop :=
  s'.hashInvalidCheckpoint = s.hashInvalidCheckpoint ∨ s'.hashInvalidCheckpoint = 0 ∨
    CheckpointOrigin cfg cr s'.hashInvalidCheckpoint ∧
      (∃ p, s'.mapBlockIndex.find s'.hashInvalidCheckpoint = some p) ∧
      ¬ s'.mapBlockIndex.InChain s'.hashSyncCheckpoint s'.hashInvalidCheckpoint ∧
      ¬ s'.mapBlockIndex.InChain s'.hashInvalidCheckpoint s'.hashSyncCheckpoint

section Keep

open SyncState

variable {cfg : Settings} {cr : Crypto} {s s' s'' : SyncState} {hash : Uint256} {w : DbWrite}

theorem SyncState.Kept.movesOn (h : s.Kept cfg cr) (hindex : s.mapBlockIndex.Extends s'.mapBlockIndex)
    (hsame : s'.hashSyncCheckpoint = s.hashSyncCheckpoint) : s.MovesOn s' := by
  obtain ⟨p, hp⟩ := h.found
  refine ⟨hindex, ?_⟩
  rw [hsame]
  exact hindex.mono (BlockMap.inChain_self hp)

theorem SyncState.MovesOn.trans (h : s.MovesOn s') (h' : s'.MovesOn s'') : s.MovesOn s'' :=
  ⟨h.index.trans h'.index, BlockMap.inChain_trans (h'.index.mono h.checkpoint) h'.checkpoint⟩

/-- What is kept when the index grows. -/
theorem SyncState.Kept.grow (h : s.Kept cfg cr) {m : BlockMap} (hindex : s.mapBlockIndex.Extends m) :
    ({ s with mapBlockIndex := m } : SyncState).Kept cfg cr := by
  obtain ⟨p, hp⟩ := h.found
  obtain ⟨p', hp', -⟩ := hindex _ p hp
  obtain ⟨r, hr, hin, horigin⟩ := h.stored
  exact ⟨⟨p', hp'⟩, ⟨r, hr, hindex.mono hin, horigin⟩, h.pubKey, h.current, h.pending⟩

/-- **A checkpoint that comes after the last one is written.** -/
theorem writeSyncCheckpoint_spec (h : s.Kept cfg cr) (hin : s.mapBlockIndex.InChain s.hashSyncCheckpoint hash)
    (hfound : ∃ p, s.mapBlockIndex.find hash = some p) (horigin : CheckpointOrigin cfg cr hash) :
    (s.writeSyncCheckpoint w hash).1.Kept cfg cr ∧ s.MovesOn (s.writeSyncCheckpoint w hash).1 ∧
      (s.writeSyncCheckpoint w hash).1.mapBlockIndex = s.mapBlockIndex ∧
      (s.writeSyncCheckpoint w hash).1.hashInvalidCheckpoint = s.hashInvalidCheckpoint ∧
      (s.writeSyncCheckpoint w hash).1.hashPendingCheckpoint = s.hashPendingCheckpoint ∧
      (s.writeSyncCheckpoint w hash).2 = w.ok ∧
      (w.ok = true → (s.writeSyncCheckpoint w hash).1.hashSyncCheckpoint = hash) := by
  obtain ⟨p, hp⟩ := hfound
  have hsame : s.MovesOn s := h.movesOn (BlockMap.Extends.refl _) rfl
  unfold writeSyncCheckpoint DbWrite.ok
  cases w.fWrite with
  | false => exact ⟨h, hsame, rfl, rfl, rfl, rfl, fun h => (by cases h)⟩
  | true =>
    cases w.fSync with
    | false =>
      exact ⟨⟨h.found, ⟨hash, rfl, hin, horigin⟩, h.pubKey, h.current, h.pending⟩, ⟨BlockMap.Extends.refl _,
        hsame.checkpoint⟩, rfl, rfl, rfl, rfl, fun h => (by cases h)⟩
    | true =>
      exact ⟨⟨⟨p, hp⟩, ⟨hash, rfl, BlockMap.inChain_self hp, horigin⟩, h.pubKey, horigin, h.pending⟩,
        ⟨BlockMap.Extends.refl _, hin⟩, rfl, rfl, rfl, rfl, fun _ => rfl⟩

/-- What is kept when only what is pending changes. -/
theorem SyncState.Kept.withPending (h : s.Kept cfg cr) {hashPending : Uint256}
    (hpending : hashPending = 0 ∨ CheckpointOrigin cfg cr hashPending) (message messagePending : CSyncCheckpoint) :
    ({ s with
      hashPendingCheckpoint := hashPending
      checkpointMessage := message
      checkpointMessagePending := messagePending } : SyncState).Kept cfg cr :=
  ⟨h.found, h.stored, h.pubKey, h.current, hpending⟩

/-- **A checkpoint whose block is in the index** is refused, or it is written. -/
theorem validate_spec (h : s.Kept cfg cr) (hfound : ∃ p, s.mapBlockIndex.find hash = some p)
    (horigin : CheckpointOrigin cfg cr hash) :
    ((s.validateSyncCheckpoint hash).2 = false ∧ (s.validateSyncCheckpoint hash).1.Kept cfg cr ∧
        s.MovesOn (s.validateSyncCheckpoint hash).1 ∧ s.NotesConflict cfg cr (s.validateSyncCheckpoint hash).1) ∨
      ((s.validateSyncCheckpoint hash).2 = true ∧
        ((s.validateSyncCheckpoint hash).1.writeSyncCheckpoint w hash).1.Kept cfg cr ∧
        s.MovesOn ((s.validateSyncCheckpoint hash).1.writeSyncCheckpoint w hash).1 ∧
        ((s.validateSyncCheckpoint hash).1.writeSyncCheckpoint w hash).1.hashInvalidCheckpoint =
          s.hashInvalidCheckpoint) := by
  have hsame : s.MovesOn s := h.movesOn (BlockMap.Extends.refl _) rfl
  obtain ⟨p, hp⟩ := hfound
  obtain ⟨q, hq⟩ := h.found
  rcases validateSyncCheckpoint_spec hq hp with ⟨hin, -, heq⟩ | ⟨-, heq⟩ | ⟨hnot, hnot', heq⟩
  · obtain ⟨hkept, hmoves, -, hinvalid, -⟩ := writeSyncCheckpoint_spec (w := w) h hin ⟨p, hp⟩ horigin
    rw [heq]
    exact .inr ⟨rfl, hkept, hmoves, hinvalid⟩
  · rw [heq]
    exact .inl ⟨rfl, h, hsame, .inl rfl⟩
  · rw [heq]
    exact .inl ⟨rfl, ⟨h.found, h.stored, h.pubKey, h.current, h.pending⟩, ⟨hsame.index, hsame.checkpoint⟩,
      .inr (.inr ⟨horigin, ⟨p, hp⟩, hnot, hnot'⟩)⟩

/-- **The pending checkpoint is looked at** after a block was put into the index. -/
theorem acceptPending_spec (h : s.Kept cfg cr) :
    (s.acceptPendingSyncCheckpoint w).1.Kept cfg cr ∧ s.MovesOn (s.acceptPendingSyncCheckpoint w).1 ∧
      s.NotesConflict cfg cr (s.acceptPendingSyncCheckpoint w).1 := by
  unfold acceptPendingSyncCheckpoint
  split
  · rename_i hpending
    dsimp only
    rcases validate_spec (w := w) h (Option.isSome_iff_exists.mp hpending.2) (h.pending.resolve_left hpending.1) with
      ⟨hf, hkept, hmoves, hnotes⟩ | ⟨hf, hkept, hmoves, hinvalid⟩
    · rw [hf, Bool.not_false, if_pos rfl]
      exact ⟨hkept.withPending (.inl rfl) _ _, ⟨hmoves.index, hmoves.checkpoint⟩, hnotes⟩
    · rw [hf, Bool.not_true, if_neg Bool.false_ne_true]
      split
      · exact ⟨hkept, hmoves, .inl hinvalid⟩
      · exact ⟨hkept.withPending (.inl rfl) _ _, ⟨hmoves.index, hmoves.checkpoint⟩, .inl hinvalid⟩
  · exact ⟨h, h.movesOn (BlockMap.Extends.refl _) rfl, .inl rfl⟩

/-- **A signed checkpoint is processed.** -/
theorem processSigned_spec (h : s.Kept cfg cr) {checkpoint : CSyncCheckpoint}
    (horigin : CheckpointOrigin cfg cr checkpoint.hashCheckpoint) :
    (s.processSigned w checkpoint).1.Kept cfg cr ∧ s.MovesOn (s.processSigned w checkpoint).1 ∧
      s.NotesConflict cfg cr (s.processSigned w checkpoint).1 := by
  unfold processSigned
  split
  · exact ⟨h.withPending (.inr horigin) _ _, h.movesOn (BlockMap.Extends.refl _) rfl, .inl rfl⟩
  · rename_i hfound
    dsimp only
    rcases validate_spec (w := w) h (Option.ne_none_iff_exists'.mp (mt Option.isNone_iff_eq_none.mpr hfound)) horigin
      with ⟨hf, hkept, hmoves, hnotes⟩ | ⟨hf, hkept, hmoves, hinvalid⟩
    · rw [hf, Bool.not_false, if_pos rfl]
      exact ⟨hkept, hmoves, hnotes⟩
    · rw [hf, Bool.not_true, if_neg Bool.false_ne_true]
      split
      · exact ⟨hkept, hmoves, .inl hinvalid⟩
      · exact ⟨hkept.withPending (.inl rfl) _ _, ⟨hmoves.index, hmoves.checkpoint⟩, .inl hinvalid⟩

/-- **A start of the node** under the recorded key goes on from the record. -/
theorem start_spec (h : s.Kept cfg cr) (o : ResetOutcome) :
    (s.start cfg o).1.Kept cfg cr ∧ s.MovesOn (s.start cfg o).1 ∧ (s.start cfg o).1.hashInvalidCheckpoint = 0 := by
  obtain ⟨r, hr, hin, horigin⟩ := h.stored
  obtain ⟨p, hp⟩ := BlockMap.find_of_inChain_right hin
  have hload : s.load cfg = (⟨s.mapBlockIndex, r, 0, 0, {}, {}, some r, s.storedPubKey⟩ : SyncState) := by
    unfold load
    rw [hr]
    rfl
  unfold start checkCheckpointPubKey
  rw [if_neg (by rw [hload]; exact not_not.mpr h.pubKey), hload]
  exact ⟨⟨⟨p, hp⟩, ⟨r, rfl, BlockMap.inChain_self hp, horigin⟩, h.pubKey, horigin, .inl rfl⟩,
    ⟨BlockMap.Extends.refl _, hin⟩, rfl⟩

/-- **Every event keeps what holds**, and moves the checkpoint on. -/
theorem kept_step (h : s.Kept cfg cr) (e : SyncEvent) : (s.step cfg cr e).Kept cfg cr ∧ s.MovesOn (s.step cfg cr e) ∧
    s.NotesConflict cfg cr (s.step cfg cr e) := by
  have hsame : s.MovesOn s := h.movesOn (BlockMap.Extends.refl _) rfl
  cases e with
  | message w checkpoint =>
    unfold step processSyncCheckpoint
    dsimp only
    split
    · exact ⟨h, hsame, .inl rfl⟩
    · rename_i signed hsigned
      exact processSigned_spec h (.inr (.inr ⟨checkpoint, signed, hsigned, rfl⟩))
  | block w hash hashPrevBlock pindex =>
    have hindex := BlockMap.extends_insert s.mapBlockIndex hash hashPrevBlock pindex
    obtain ⟨hkept, hmoves, hnotes⟩ := acceptPending_spec (w := w) (h.grow hindex)
    refine ⟨hkept, .trans ?_ hmoves, hnotes⟩
    exact h.movesOn hindex rfl
  | update hash f =>
    have hindex := BlockMap.extends_modify s.mapBlockIndex hash f
    exact ⟨h.grow hindex, h.movesOn hindex rfl, .inl rfl⟩
  | restart o =>
    obtain ⟨hkept, hmoves, hinvalid⟩ := start_spec h o
    exact ⟨hkept, hmoves, .inr (.inl hinvalid)⟩

/-- **The first start under a key**: the checkpoint is reset. -/
theorem start_reset {o : ResetOutcome} (hgenesis : ∃ p, s.mapBlockIndex.find cfg.hashGenesisBlock = some p)
    (hkey : s.storedPubKey ≠ some cfg.strMasterPubKey) (h : s.start cfg o = (s', true)) :
    s'.Kept cfg cr ∧ s'.hashInvalidCheckpoint = 0 := by
  unfold start checkCheckpointPubKey at h
  rw [if_pos (show (s.load cfg).storedPubKey ≠ _ from hkey)] at h
  split at h
  · cases h
  · split at h
    · cases h
    · unfold resetSyncCheckpoint at h
      dsimp only at h
      split at h
      · cases h
      · -- the block that the checkpoint is reset to
        obtain ⟨target, htarget, hfound, horigin⟩ : ∃ target,
            (if ((s.load cfg).mapBlockIndex.find cfg.getLatestHardenedCheckpoint).isSome ∧ o.fInMainChainAfter then
              cfg.getLatestHardenedCheckpoint else cfg.hashGenesisBlock) = target ∧
            (∃ p, s.mapBlockIndex.find target = some p) ∧ CheckpointOrigin cfg cr target := by
          refine ⟨_, rfl, ?_⟩
          split
          · rename_i hmain
            exact ⟨Option.isSome_iff_exists.mp hmain.1, .inr (.inl rfl)⟩
          · exact ⟨hgenesis, .inl rfl⟩
        obtain ⟨p, hp⟩ := hfound
        rw [htarget] at h
        unfold writeSyncCheckpoint at h
        split at h
        · cases h
        · split at h
          · cases h
          · obtain rfl := (Prod.mk.inj h).1
            split
            · exact ⟨⟨⟨p, hp⟩, ⟨target, rfl, BlockMap.inChain_self hp, horigin⟩, rfl, horigin, .inr (.inr (.inl rfl))⟩,
                rfl⟩
            · exact ⟨⟨⟨p, hp⟩, ⟨target, rfl, BlockMap.inChain_self hp, horigin⟩, rfl, horigin, .inl rfl⟩, rfl⟩

/-- What holds is kept in every run, and the checkpoint moves on. -/
theorem kept_exec : ∀ (es : List SyncEvent) {s : SyncState}, s.Kept cfg cr →
    (exec (step cfg cr) s es).Kept cfg cr ∧ s.MovesOn (exec (step cfg cr) s es)
  | [], _, h => ⟨h, h.movesOn (BlockMap.Extends.refl _) rfl⟩
  | e :: es, s, h => by
    obtain ⟨hkept, hmoves, -⟩ := kept_step h e
    obtain ⟨hkept', hmoves'⟩ := kept_exec es hkept
    exact ⟨hkept', hmoves.trans hmoves'⟩

/-- Where all checkpoints stand on one chain, none is noted as invalid. -/
def OneChain (cfg : Settings) (cr : Crypto) (m : BlockMap) : Prop :=
  ∀ a b, CheckpointOrigin cfg cr a → CheckpointOrigin cfg cr b → (∃ p, m.find a = some p) → (∃ p, m.find b = some p) →
    m.InChain a b ∨ m.InChain b a

theorem invalid_exec {m : BlockMap} (hone : OneChain cfg cr m) : ∀ (es : List SyncEvent) {s : SyncState},
    s.Kept cfg cr → s.hashInvalidCheckpoint = 0 → (exec (step cfg cr) s es).mapBlockIndex.Extends m →
      (exec (step cfg cr) s es).hashInvalidCheckpoint = 0
  | [], _, _, hs, _ => hs
  | e :: es, s, h, hs, hm => by
    obtain ⟨hkept, -, hnotes⟩ := kept_step h e
    refine invalid_exec hone es hkept ?_ hm
    rcases hnotes with hsame | hzero | ⟨horigin, ⟨p, hp⟩, hnot, hnot'⟩
    · exact hsame.trans hs
    · exact hzero
    · obtain ⟨q, hq⟩ := hkept.found
      have hext := (kept_exec es hkept).2.index.trans hm
      obtain ⟨p', hp', -⟩ := hext _ p hp
      obtain ⟨q', hq', -⟩ := hext _ q hq
      rcases hone _ _ hkept.current horigin ⟨q', hq'⟩ ⟨p', hp'⟩ with hin | hin
      · exact absurd ((hext.inChain hp).mp hin) hnot
      · exact absurd ((hext.inChain hq).mp hin) hnot'

/-- An index with the genesis block of the test network. -/
def sampleSync : SyncState := { mapBlockIndex := BlockMap.empty.insert hashGenesisBlockTestNet 0 {} }

/-- The hardened checkpoint is in the main chain. -/
def sampleReset : ResetOutcome := { fInMainChain := true, fSetBestChain := true, fInMainChainAfter := true }

/-- A signed checkpoint of the block `2`. -/
def sampleCheckpoint : CSyncCheckpoint := { vchMsg := writeInt 4 1 ++ writeLE 32 2, vchSig := strTestPubKey }

/-- One node gets the checkpoint before the block, the other one after it and after a start. -/
def sampleSyncEvents : List (Bool × SyncEvent) :=
  [(true, .message {} sampleCheckpoint), (true, .block {} 2 hashGenesisBlockTestNet {}),
   (false, .block {} 2 hashGenesisBlockTestNet {}), (false, .restart sampleReset),
   (false, .message {} sampleCheckpoint)]

/-- The event does not take away what is pending: no other signed checkpoint, no start, no failure of the database. -/
def SyncEvent.Quiet (cfg : Settings) (cr : Crypto) : SyncEvent → Prop
  | .message _ checkpoint => ∀ signed, checkpoint.checkSignature cfg cr ≠ .ok signed
  | .block w .. => w.ok = true
  | .update .. => True
  | .restart _ => False

/-- The checkpoint is reached, or stands on another chain. -/
def SyncState.Decided (s : SyncState) (c : Uint256) : Prop :=
  s.mapBlockIndex.InChain c s.hashSyncCheckpoint ∨
    (∃ p, s.mapBlockIndex.find c = some p) ∧ ¬ s.mapBlockIndex.InChain c s.hashSyncCheckpoint ∧
      ¬ s.mapBlockIndex.InChain s.hashSyncCheckpoint c

/-- The checkpoint waits for its block. -/
def SyncState.Waits (s : SyncState) (c : Uint256) : Prop :=
  s.hashPendingCheckpoint = c ∧ s.mapBlockIndex.find c = none

/-- What is reached stays reached, and what stands on another chain stays there. -/
theorem SyncState.MovesOn.decided {c : Uint256} (h : s.MovesOn s')
    (hfound : ∃ q, s.mapBlockIndex.find s.hashSyncCheckpoint = some q) (hs : s.Decided c) : s'.Decided c := by
  obtain ⟨q, hq⟩ := hfound
  rcases hs with hin | ⟨⟨p, hp⟩, hnot, hnot'⟩
  · exact .inl (BlockMap.inChain_trans (h.index.mono hin) h.checkpoint)
  · obtain ⟨p', hp', -⟩ := h.index c p hp
    refine .inr ⟨⟨p', hp'⟩, fun hin => ?_, fun hin => ?_⟩
    · -- two ancestors of the new checkpoint stand on one chain
      rcases BlockMap.inChain_total hin h.checkpoint with hin | hin
      · exact hnot ((h.index.inChain hq).mp hin)
      · exact hnot' ((h.index.inChain hp).mp hin)
    · exact hnot' ((h.index.inChain hp).mp (BlockMap.inChain_trans h.checkpoint hin))

/-- **A checkpoint whose block is in the index is decided** by the look at it. -/
theorem validate_decides {c : Uint256} (h : s.Kept cfg cr) (hw : w.ok = true) (hc : CheckpointOrigin cfg cr c)
    (hfound : ∃ p, s.mapBlockIndex.find c = some p) :
    ((s.validateSyncCheckpoint c).2 = false ∧ (s.validateSyncCheckpoint c).1.Decided c) ∨
      ((s.validateSyncCheckpoint c).2 = true ∧ ((s.validateSyncCheckpoint c).1.writeSyncCheckpoint w c).2 = true ∧
        ((s.validateSyncCheckpoint c).1.writeSyncCheckpoint w c).1.Decided c) := by
  obtain ⟨p, hp⟩ := hfound
  obtain ⟨q, hq⟩ := h.found
  rcases validateSyncCheckpoint_spec hq hp with ⟨hin, -, heq⟩ | ⟨hin, heq⟩ | ⟨hnot, hnot', heq⟩
  · rw [heq]
    obtain ⟨-, -, hmap, -, -, hok, hsync⟩ := writeSyncCheckpoint_spec (w := w) h hin ⟨p, hp⟩ hc
    refine .inr ⟨rfl, hok.trans hw, .inl ?_⟩
    dsimp only
    rw [hsync hw, hmap]
    exact BlockMap.inChain_self hp
  · rw [heq]
    exact .inl ⟨rfl, .inl hin⟩
  · rw [heq]
    exact .inl ⟨rfl, .inr ⟨⟨p, hp⟩, hnot', hnot⟩⟩

theorem processSigned_settles {checkpoint : CSyncCheckpoint} (h : s.Kept cfg cr) (hw : w.ok = true)
    (hc : CheckpointOrigin cfg cr checkpoint.hashCheckpoint) :
    (s.processSigned w checkpoint).1.Waits checkpoint.hashCheckpoint ∨
      (s.processSigned w checkpoint).1.Decided checkpoint.hashCheckpoint := by
  unfold processSigned
  split
  · rename_i hnone
    exact .inl ⟨rfl, Option.isNone_iff_eq_none.mp hnone⟩
  · rename_i hfound
    dsimp only
    rcases validate_decides h hw hc (Option.ne_none_iff_exists'.mp (mt Option.isNone_iff_eq_none.mpr hfound)) with
      ⟨hf, hdecided⟩ | ⟨hf, hwritten, hdecided⟩
    · rw [hf]
      exact .inr hdecided
    · rw [hf, Bool.not_true, if_neg Bool.false_ne_true, hwritten, Bool.not_true, if_neg Bool.false_ne_true]
      exact .inr hdecided

theorem acceptPending_settles {c : Uint256} (h : s.Kept cfg cr) (hw : w.ok = true) (hne : c ≠ 0)
    (hc : CheckpointOrigin cfg cr c) (hpending : s.hashPendingCheckpoint = c) :
    (s.acceptPendingSyncCheckpoint w).1.Waits c ∨ (s.acceptPendingSyncCheckpoint w).1.Decided c := by
  unfold acceptPendingSyncCheckpoint
  rw [hpending]
  split
  · rename_i hfound
    dsimp only
    rcases validate_decides h hw hc (Option.isSome_iff_exists.mp hfound.2) with ⟨hf, hdecided⟩ |
      ⟨hf, hwritten, hdecided⟩
    · rw [hf]
      exact .inr hdecided
    · rw [hf, Bool.not_true, if_neg Bool.false_ne_true, hwritten, Bool.not_true, if_neg Bool.false_ne_true]
      exact .inr hdecided
  · rename_i hnot
    exact .inl ⟨hpending, Option.not_isSome_iff_eq_none.mp fun hfound => hnot ⟨hne, hfound⟩⟩

theorem step_message {checkpoint signed : CSyncCheckpoint} (h : checkpoint.checkSignature cfg cr = .ok signed) :
    s.step cfg cr (.message w checkpoint) = (s.processSigned w signed).1 := by
  unfold step processSyncCheckpoint
  dsimp only
  rw [h]

/-- **A quiet event** leaves what waits waiting, or decides it. -/
theorem settled_step {c : Uint256} (h : s.Kept cfg cr) (hne : c ≠ 0) (hc : CheckpointOrigin cfg cr c) {e : SyncEvent}
    (he : e.Quiet cfg cr) (hs : s.Waits c ∨ s.Decided c) : (s.step cfg cr e).Waits c ∨ (s.step cfg cr e).Decided c := by
  rcases hs with ⟨hpending, hnone⟩ | hdecided
  · cases e with
    | message w checkpoint =>
      unfold step processSyncCheckpoint
      dsimp only
      split
      · exact .inl ⟨hpending, hnone⟩
      · rename_i signed hsigned
        exact absurd hsigned (he signed)
    | block w hash hashPrevBlock pindex =>
      exact acceptPending_settles (h.grow (BlockMap.extends_insert s.mapBlockIndex hash hashPrevBlock pindex)) he hne hc
        hpending
    | update hash f =>
      refine .inl ⟨hpending, ?_⟩
      show (s.mapBlockIndex.modify hash f).find c = none
      rw [BlockMap.find_modify, hnone]
      split <;> rfl
    | restart o => exact he.elim
  · exact .inr ((kept_step h e).2.1.decided h.found hdecided)

end Keep

end Morcochain
