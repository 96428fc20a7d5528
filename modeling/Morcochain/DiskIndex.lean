import Morcochain.ProtocolVersion
import Morcochain.Serialize
import Morcochain.VarInt
import Morcochain.VotedFees

/-!
# Block indexes on disk

`CDiskBlockIndex` (`main.h`), the record of an entry of the block index: what a stream of a version carries of an entry,
and what `BlockMap::load` (`blockmap.cpp`) copies from a record that was read.

* `reads_diskIndex` : **reading a record** of the current version gives what it carries of the entry.
* `CBlockIndex.Kept` : what a record keeps; `keepsIndex_kept` : every entry of the index is kept.
* `diskIndex_law` : **an entry that is written and loaded again** has all its fields but for the totals that are parked,
  and a block above it counts its own ones from zero.
-/

set_option autoImplicit false

namespace Morcochain

open Codec Filling Run

/-! ## Entries and records -/

/-- A `CBlockIndex` with the positions of its block and its undo data in the files. -/
structure PlacedIndex extends CBlockIndex where
  nFile : Nat := 0
  nDataPos : Nat := 0
  nUndoPos : Nat := 0
deriving DecidableEq, Repr

/-- `CBlockIndex::GetBlockPos`; `none` is the null position. -/
def PlacedIndex.getBlockPos (pindex : PlacedIndex) : Option CDiskBlockPos :=
  if pindex.nStatus &&& blockHaveData ≠ 0 then some ⟨pindex.nFile, pindex.nDataPos⟩ else none

/-- `CBlockIndex::GetUndoPos`. -/
def PlacedIndex.getUndoPos (pindex : PlacedIndex) : Option CDiskBlockPos :=
  if pindex.nStatus &&& blockHaveUndo ≠ 0 then some ⟨pindex.nFile, pindex.nUndoPos⟩ else none

/-- `CDiskBlockIndex`. -/
structure CDiskBlockIndex extends PlacedIndex where
  hashPrev : Uint256 := 0
  hashPrevElected : Uint256 := 0
deriving DecidableEq, Repr

/-- `CDiskBlockIndex(CBlockIndex*)`. -/
def CDiskBlockIndex.ofIndex (pindex : PlacedIndex) : CDiskBlockIndex :=
  { pindex with hashPrev := pindex.pprev.getD 0, hashPrevElected := pindex.pprevElected.getD 0 }

/-- `CLazyBlockIndex`: the null hash is no block. -/
def lazyIndex (hash : Uint256) : Option Uint256 := if hash = 0 then none else some hash

/-- `BlockMap::load` of a record, field by field, into a new entry; `hashNext` is what `ReadNext` finds. -/
def PlacedIndex.load (hash : Uint256) (hashNext : Option Uint256) (diskindex : CDiskBlockIndex) : PlacedIndex where
  phashBlock := hash
  pprev := lazyIndex diskindex.hashPrev
  nHeight := diskindex.nHeight
  nFile := diskindex.nFile
  nDataPos := diskindex.nDataPos
  nUndoPos := diskindex.nUndoPos
  nVersion := diskindex.nVersion
  hashMerkleRoot := diskindex.hashMerkleRoot
  nTime := diskindex.nTime
  nBits := diskindex.nBits
  nNonce := diskindex.nNonce
  nStatus := diskindex.nStatus
  nTx := diskindex.nTx
  nMint := diskindex.nMint
  mapMoneySupply := diskindex.mapMoneySupply
  fProofOfStake := diskindex.fProofOfStake
  fStakeEntropy := diskindex.fStakeEntropy
  fStakeModifier := diskindex.fStakeModifier
  nStakeModifier := diskindex.nStakeModifier
  prevoutStake := diskindex.prevoutStake
  nStakeTime := diskindex.nStakeTime
  hashProofOfStake := diskindex.hashProofOfStake
  vote := { diskindex.vote with nCoinAgeDestroyed := diskindex.nCoinAgeDestroyed }
  vParkRateResult := diskindex.vParkRateResult
  nCoinAgeDestroyed := diskindex.nCoinAgeDestroyed
  vElectedCustodian := diskindex.vElectedCustodian
  nProtocolVersion := diskindex.nProtocolVersion
  mapVotedFee := diskindex.mapVotedFee
  nChainTrust := diskindex.nChainTrust
  nChainTx := diskindex.nChainTx
  nStakeModifierChecksum := diskindex.nStakeModifierChecksum
  pprevElected := lazyIndex diskindex.hashPrevElected
  pnext := hashNext

/-- `CLIENT_VERSION`. -/
def clientVersion : Int := 2010000

/-! ## Writing -/

/-- Write when a condition holds. -/
def writeIf (c : Prop) [Decidable c] (b : Bytes) : Bytes := if c then b else []

section Write

variable (nVersion : Int) (d : CDiskBlockIndex)

/-- The height, the status and the positions. -/
def writePlace : Bytes :=
  writeVarInt d.nHeight ++ (writeVarInt d.nStatus ++ (writeVarInt d.nTx ++
    (writeIf (d.nStatus &&& (blockHaveData ||| blockHaveUndo) ≠ 0) (writeVarInt d.nFile) ++
      (writeIf (d.nStatus &&& blockHaveData ≠ 0) (writeVarInt d.nDataPos) ++
        writeIf (d.nStatus &&& blockHaveUndo ≠ 0) (writeVarInt d.nUndoPos)))))

/-- The money supply, which was a single number up to version 0.3.0. -/
def writeMoneySupply : Bytes :=
  if nVersion ≤ 30000 then writeInt 8 0 else writeUnitMap (writeInt 8) d.mapMoneySupply

/-- The protocol version, the figures, the flags and the stake modifier. -/
def writeFigures : Bytes :=
  writeIf (nVersion ≥ protocolV2_0) (writeInt 4 d.nProtocolVersion) ++ (writeInt 8 d.nMint ++
    (writeMoneySupply nVersion d ++ (writeIf (nVersion > 40400) (writeUnitMap (writeInt 8) d.mapTotalParked) ++
      (writeLE 4 d.nFlags ++ writeLE 8 d.nStakeModifier.toNat))))

/-- What only a proof-of-stake block has. -/
def writeStake : Bytes :=
  writeIf (d.isProofOfStake = true)
    (writeLE 32 d.prevoutStake.hash ++ (writeLE 4 d.prevoutStake.n ++ (writeLE 4 d.nStakeTime ++
      (writeLE 32 d.hashProofOfStake ++ (writeVote d.nProtocolVersion d.vote ++
        (writeVector writeParkRateVote d.vParkRateResult ++ (writeLE 8 d.nCoinAgeDestroyed ++
          (writeVector (writeCustodianVote nVersion) d.vElectedCustodian ++
            writeIf (d.nProtocolVersion ≥ protocolV2_0) (writeUnitMap (writeLE 4) d.mapVotedFee)))))))))

/-- What was only kept in memory before version 2.1.0. -/
def writeTrust : Bytes :=
  writeIf (nVersion ≥ 2010000)
    (writeLE 32 d.nChainTrust ++ (writeLE 4 d.nChainTx ++ (writeLE 4 d.nStakeModifierChecksum ++
      writeLE 32 d.hashPrevElected)))

/-- The block header. -/
def writeIndexHeader : Bytes :=
  writeInt 4 d.nVersion ++ (writeLE 32 d.hashPrev ++ (writeLE 32 d.hashMerkleRoot ++ (writeLE 4 d.nTime ++
    (writeLE 4 d.nBits ++ writeLE 4 d.nNonce))))

/-- Serialize a `CDiskBlockIndex` on a stream of version `nVersion`, which is written first. -/
def writeDiskIndex : Bytes :=
  writeVarInt nVersion ++ (writePlace d ++ (writeFigures nVersion d ++ (writeStake nVersion d ++
    (writeTrust nVersion d ++ writeIndexHeader d))))

end Write

/-! ## Reading -/

/-- Read when a condition holds, and keep a value else. -/
def readIf {α : Type} (c : Prop) [Decidable c] (read : Reader α) (a : α) : Reader α := if c then read else pure a

section Read

variable (nVersion : Int) (d : CDiskBlockIndex)

def readPlace : Reader CDiskBlockIndex := do
  let nHeight ← readVarInt 32
  let nStatus ← readVarInt 32
  let nTx ← readVarInt 32
  let nFile ← readIf (nStatus &&& (blockHaveData ||| blockHaveUndo) ≠ 0) (readVarInt 32) d.nFile
  let nDataPos ← readIf (nStatus &&& blockHaveData ≠ 0) (readVarInt 32) d.nDataPos
  let nUndoPos ← readIf (nStatus &&& blockHaveUndo ≠ 0) (readVarInt 32) d.nUndoPos
  return { d with
    nHeight := nHeight, nStatus := nStatus, nTx := nTx, nFile := nFile, nDataPos := nDataPos, nUndoPos := nUndoPos }

/-- The supply that an old stream carries is not used. -/
def readMoneySupply : Reader (CUnitMap Int) :=
  if nVersion ≤ 30000 then do
    let _ ← readInt 8
    return {}
  else readUnitMap (readInt 8)

def readFigures : Reader CDiskBlockIndex := do
  let nProtocolVersion ← readIf (nVersion ≥ protocolV2_0) (readInt 4) protocolV0_5
  let nMint ← readInt 8
  let mapMoneySupply ← readMoneySupply nVersion
  let mapTotalParked ← readIf (nVersion > 40400) (readUnitMap (readInt 8)) {}
  let nFlags ← readUInt 4
  let nStakeModifier ← readUInt 8
  return { d with
    nProtocolVersion := nProtocolVersion, nMint := nMint, mapMoneySupply := mapMoneySupply
    mapTotalParked := mapTotalParked, fProofOfStake := nFlags.testBit 0, fStakeEntropy := nFlags.testBit 1
    fStakeModifier := nFlags.testBit 2, nStakeModifier := UInt64.ofNat nStakeModifier }

/-- The entry without what only a proof-of-stake block has. -/
def CBlockIndex.withoutStake (pindex : CBlockIndex) : CBlockIndex :=
  { pindex with
    prevoutStake := {}, nStakeTime := 0, hashProofOfStake := 0, vote := CVote.null, vParkRateResult := []
    nCoinAgeDestroyed := 0, vElectedCustodian := [], mapVotedFee := {} }

def readStake : Reader CDiskBlockIndex :=
  if d.isProofOfStake = true then do
    let hash ← readUInt 32
    let n ← readUInt 4
    let nStakeTime ← readUInt 4
    let hashProofOfStake ← readUInt 32
    let vote ← readVote d.nProtocolVersion
    let vParkRateResult ← readVector readParkRateVote
    let nCoinAgeDestroyed ← readUInt 8
    let vElectedCustodian ← readVector (readCustodianVote nVersion)
    let mapVotedFee ← readIf (d.nProtocolVersion ≥ protocolV2_0) (readUnitMap (readUInt 4)) {}
    return { d with
      prevoutStake := { hash := hash, n := n }, nStakeTime := nStakeTime, hashProofOfStake := hashProofOfStake
      vote := vote, vParkRateResult := vParkRateResult, nCoinAgeDestroyed := nCoinAgeDestroyed
      vElectedCustodian := vElectedCustodian, mapVotedFee := mapVotedFee }
  else return { d with toCBlockIndex := d.withoutStake }

def readTrust : Reader CDiskBlockIndex :=
  if nVersion ≥ 2010000 then do
    let nChainTrust ← readUInt 32
    let nChainTx ← readUInt 4
    let nStakeModifierChecksum ← readUInt 4
    let hashPrevElected ← readUInt 32
    return { d with
      nChainTrust := nChainTrust, nChainTx := nChainTx, nStakeModifierChecksum := nStakeModifierChecksum
      hashPrevElected := hashPrevElected }
  else return d

def readIndexHeader : Reader CDiskBlockIndex := do
  let nVersion ← readInt 4
  let hashPrev ← readUInt 32
  let hashMerkleRoot ← readUInt 32
  let nTime ← readUInt 4
  let nBits ← readUInt 4
  let nNonce ← readUInt 4
  return { d with
    nVersion := nVersion, hashPrev := hashPrev, hashMerkleRoot := hashMerkleRoot, nTime := nTime, nBits := nBits
    nNonce := nNonce }

end Read

/-- Unserialize a `CDiskBlockIndex`; the version that was written takes the place of the stream's. -/
def readDiskIndex : Reader CDiskBlockIndex := do
  let nVersion ← readVarInt 32
  let d ← readPlace {}
  let d ← readFigures nVersion d
  let d ← readStake nVersion d
  let d ← readTrust nVersion d
  readIndexHeader d

/-- Write an entry and load it again; `none` where the record cannot be read. -/
def PlacedIndex.reload (pindex : PlacedIndex) (hashNext : Option Uint256) : Option PlacedIndex :=
  (readDiskIndex (writeDiskIndex clientVersion (.ofIndex pindex))).map fun r =>
    PlacedIndex.load pindex.phashBlock hashNext r.1

/-! ## What is read back -/

/-- The values fit the types of the fields, a link is not the null hash, and the custodians can be read. -/
structure PlacedIndex.Fits (pindex : PlacedIndex) : Prop where
  place : pindex.nHeight < 256 ^ 4 ∧ pindex.nStatus < 256 ^ 4 ∧ pindex.nTx < 256 ^ 4
  position : pindex.nFile < 256 ^ 4 ∧ pindex.nDataPos < 256 ^ 4 ∧ pindex.nUndoPos < 256 ^ 4
  figures : IntFits 4 pindex.nProtocolVersion ∧ IntFits 8 pindex.nMint
  supply : pindex.mapMoneySupply.Each (IntFits 8)
  parked : pindex.mapTotalParked.Each (IntFits 8)
  stake : pindex.prevoutStake.hash < 256 ^ 32 ∧ pindex.prevoutStake.n < 256 ^ 4 ∧ pindex.nStakeTime < 256 ^ 4 ∧
    pindex.hashProofOfStake < 256 ^ 32 ∧ pindex.nCoinAgeDestroyed < 256 ^ 8
  elected : pindex.vElectedCustodian.length ≤ maxSize ∧ ∀ v ∈ pindex.vElectedCustodian, IntFits 8 v.nAmount
  fees : pindex.mapVotedFee.Each (· < 256 ^ 4)
  trust : pindex.nChainTrust < 256 ^ 32 ∧ pindex.nChainTx < 256 ^ 4 ∧ pindex.nStakeModifierChecksum < 256 ^ 4
  header : IntFits 4 pindex.nVersion ∧ pindex.hashMerkleRoot < 256 ^ 32 ∧ pindex.nTime < 256 ^ 4 ∧
    pindex.nBits < 256 ^ 4 ∧ pindex.nNonce < 256 ^ 4
  links : (∀ h ∈ pindex.pprev, h ≠ 0 ∧ h < 256 ^ 32) ∧ ∀ h ∈ pindex.pprevElected, h ≠ 0 ∧ h < 256 ^ 32

/-- What a record keeps of an entry: what only a proof-of-stake block has is missing elsewhere, the version of the entry
carries the vote, and the vote and the park rates can be read. -/
structure CBlockIndex.Kept (pindex : CBlockIndex) : Prop where
  work : pindex.isProofOfStake = false → pindex.withoutStake = pindex
  vote : pindex.vote.Fits pindex.nProtocolVersion
  carried : pindex.vote = { pindex.vote.carried pindex.nProtocolVersion with
    nCoinAgeDestroyed := pindex.nCoinAgeDestroyed }
  results : pindex.vParkRateResult.length ≤ maxSize ∧ ∀ v ∈ pindex.vParkRateResult,
    v.vParkRate.length ≤ maxSize ∧ ∀ r ∈ v.vParkRate, r.nCompactDuration < 256 ∧ IntFits 8 r.nRate

section Numbers

theorem reads_varUInt {n : Nat} (h : n < 256 ^ 4) : Reads (readVarInt 32) (writeVarInt n) n := by
  intro rest
  have hread := readVarInt_writeVarInt (w := 32) (n := n) rest (Int.natCast_nonneg n) (by rw [Int.toNat_natCast]; omega)
  rwa [Int.toNat_natCast] at hread

/-- Reading what a condition has decided to write. -/
theorem reads_readIf {α : Type} {c : Prop} [Decidable c] {read : Reader α} {text : Bytes} {a a₀ : α}
    (h : Reads read text a) : Reads (readIf c read a₀) (writeIf c text) (if c then a else a₀) := by
  unfold readIf writeIf
  by_cases hc : c
  · rw [if_pos hc, if_pos hc, if_pos hc]
    exact h
  · rw [if_neg hc, if_neg hc, if_neg hc]
    exact .pure a₀

/-- The flags are read back one by one. -/
theorem testBit_nFlags (p : CBlockIndex) :
    p.nFlags.testBit 0 = p.fProofOfStake ∧ p.nFlags.testBit 1 = p.fStakeEntropy ∧
      p.nFlags.testBit 2 = p.fStakeModifier := by
  unfold CBlockIndex.nFlags
  cases p.fProofOfStake <;> cases p.fStakeEntropy <;> cases p.fStakeModifier <;> decide

theorem nFlags_lt (p : CBlockIndex) : p.nFlags < 256 ^ 4 := by
  unfold CBlockIndex.nFlags
  split_ifs <;> omega

theorem lazyIndex_getD {link : Option Uint256} (h : ∀ x ∈ link, x ≠ 0 ∧ x < 256 ^ 32) :
    lazyIndex (link.getD 0) = link := by
  cases link with
  | none => rfl
  | some x => exact if_neg (h x rfl).1

theorem link_lt {link : Option Uint256} (h : ∀ x ∈ link, x ≠ 0 ∧ x < 256 ^ 32) : link.getD 0 < 256 ^ 32 := by
  cases link with
  | none => exact Nat.pow_pos (by decide)
  | some x => exact (h x rfl).2

end Numbers

section Parts

variable {nVersion : Int} {d d₀ : CDiskBlockIndex}

/-- The positions that a record carries. -/
def CDiskBlockIndex.placed (d : CDiskBlockIndex) : CDiskBlockIndex :=
  { ({} : CDiskBlockIndex) with
    nHeight := d.nHeight, nStatus := d.nStatus, nTx := d.nTx
    nFile := if d.nStatus &&& (blockHaveData ||| blockHaveUndo) ≠ 0 then d.nFile else 0
    nDataPos := if d.nStatus &&& blockHaveData ≠ 0 then d.nDataPos else 0
    nUndoPos := if d.nStatus &&& blockHaveUndo ≠ 0 then d.nUndoPos else 0 }

theorem reads_place (hfits : d.Fits) : Reads (readPlace {}) (writePlace d) d.placed := by
  obtain ⟨hheight, hstatus, htx⟩ := hfits.place
  obtain ⟨hfile, hdata, hundo⟩ := hfits.position
  unfold readPlace writePlace CDiskBlockIndex.placed
  refine (reads_varUInt hheight).bind ?_
  refine (reads_varUInt hstatus).bind ?_
  refine (reads_varUInt htx).bind ?_
  refine (reads_readIf (reads_varUInt hfile)).bind ?_
  refine (reads_readIf (reads_varUInt hdata)).bind ?_
  exact (reads_readIf (reads_varUInt hundo)).map _

theorem reads_moneySupply (h : nVersion > 30000) (hfits : d.Fits) :
    Reads (readMoneySupply nVersion) (writeMoneySupply nVersion d) d.mapMoneySupply := by
  unfold readMoneySupply writeMoneySupply
  rw [if_neg (by omega), if_neg (by omega)]
  exact reads_unitMap ⟨fun x hx => reads_int (hfits.supply.1 x hx), fun x hx => reads_int (hfits.supply.2 x hx)⟩

theorem reads_figures (h : nVersion ≥ clientVersion) (hfits : d.Fits) :
    Reads (readFigures nVersion d₀) (writeFigures nVersion d) { d₀ with
      nProtocolVersion := d.nProtocolVersion, nMint := d.nMint, mapMoneySupply := d.mapMoneySupply
      mapTotalParked := d.mapTotalParked, fProofOfStake := d.fProofOfStake, fStakeEntropy := d.fStakeEntropy
      fStakeModifier := d.fStakeModifier, nStakeModifier := d.nStakeModifier } := by
  unfold clientVersion at h
  obtain ⟨hprotocol, hmint⟩ := hfits.figures
  obtain ⟨hstake, hentropy, hmodifier⟩ := testBit_nFlags d.toCBlockIndex
  have hmain : Reads (readFigures nVersion d₀) (writeFigures nVersion d) { d₀ with
      nProtocolVersion := d.nProtocolVersion, nMint := d.nMint, mapMoneySupply := d.mapMoneySupply
      mapTotalParked := d.mapTotalParked, fProofOfStake := d.nFlags.testBit 0, fStakeEntropy := d.nFlags.testBit 1
      fStakeModifier := d.nFlags.testBit 2, nStakeModifier := UInt64.ofNat d.nStakeModifier.toNat } := by
    unfold readFigures writeFigures
    have hparked : Reads (readUnitMap (readInt 8)) (writeUnitMap (writeInt 8) d.mapTotalParked) d.mapTotalParked :=
      reads_unitMap ⟨fun x hx => reads_int (hfits.parked.1 x hx), fun x hx => reads_int (hfits.parked.2 x hx)⟩
    have hversion := @reads_readIf _ (nVersion ≥ protocolV2_0) _ _ _ _ protocolV0_5 (reads_int hprotocol)
    have htotals := @reads_readIf _ (nVersion > 40400) _ _ _ _ {} hparked
    rw [if_pos (show nVersion ≥ protocolV2_0 by unfold protocolV2_0; omega)] at hversion
    rw [if_pos (show nVersion > 40400 by omega)] at htotals
    refine hversion.bind ?_
    refine (reads_int hmint).bind ?_
    refine (reads_moneySupply (by omega) hfits).bind ?_
    refine htotals.bind ?_
    refine (reads_uint (nFlags_lt _)).bind ?_
    exact (reads_uint (show d.nStakeModifier.toNat < 256 ^ 8 from d.nStakeModifier.toNat_lt)).map _
  rwa [hstake, hentropy, hmodifier, UInt64.ofNat_toNat] at hmain

theorem reads_trust (h : nVersion ≥ clientVersion) (hfits : d.Fits) (hlink : d.hashPrevElected < 256 ^ 32) :
    Reads (readTrust nVersion d₀) (writeTrust nVersion d) { d₀ with
      nChainTrust := d.nChainTrust, nChainTx := d.nChainTx, nStakeModifierChecksum := d.nStakeModifierChecksum
      hashPrevElected := d.hashPrevElected } := by
  unfold clientVersion at h
  obtain ⟨htrust, htx, hchecksum⟩ := hfits.trust
  unfold readTrust writeTrust writeIf
  rw [if_pos h, if_pos h]
  refine (reads_uint htrust).bind ?_
  refine (reads_uint htx).bind ?_
  refine (reads_uint hchecksum).bind ?_
  exact (reads_uint hlink).map _

theorem reads_indexHeader (hfits : d.Fits) (hlink : d.hashPrev < 256 ^ 32) :
    Reads (readIndexHeader d₀) (writeIndexHeader d) { d₀ with
      nVersion := d.nVersion, hashPrev := d.hashPrev, hashMerkleRoot := d.hashMerkleRoot, nTime := d.nTime
      nBits := d.nBits, nNonce := d.nNonce } := by
  obtain ⟨hversion, hmerkle, htime, hbits, hnonce⟩ := hfits.header
  unfold readIndexHeader writeIndexHeader
  refine (reads_int hversion).bind ?_
  refine (reads_uint hlink).bind ?_
  refine (reads_uint hmerkle).bind ?_
  refine (reads_uint htime).bind ?_
  refine (reads_uint hbits).bind ?_
  exact (reads_uint hnonce).map _

/-- The voted fees that a record carries: those of a proof-of-stake block before 2.0 are not written. -/
def CBlockIndex.keptFees (p : CBlockIndex) : CUnitMap Nat :=
  if p.isProofOfStake = true ∧ p.nProtocolVersion < protocolV2_0 then {} else p.mapVotedFee

/-- A null vote is carried at each version. -/
theorem carried_null (nVersion : Int) : CVote.null.carried nVersion = CVote.null := rfl

theorem carried_custodianVote (h : nVersion ≥ clientVersion) (v : CCustodianVote) : v.carried nVersion = v := by
  unfold clientVersion at h
  rw [CCustodianVote.carried, if_pos (by omega)]

theorem keptFees_of_stake {p : CBlockIndex} (h : p.isProofOfStake = true) :
    p.keptFees = if p.nProtocolVersion ≥ protocolV2_0 then p.mapVotedFee else {} := by
  unfold CBlockIndex.keptFees
  by_cases hversion : p.nProtocolVersion < protocolV2_0
  · rw [if_pos ⟨h, hversion⟩, if_neg (by omega)]
  · rw [if_neg fun hand => hversion hand.2, if_pos (by omega)]

/-- An entry of a proof-of-work block has nothing that only a proof-of-stake block has. -/
theorem withoutStake_eq {p q : CBlockIndex} (hp : p.withoutStake = p) (hwork : p.isProofOfStake = false) :
    q.withoutStake = { q with
      prevoutStake := p.prevoutStake, nStakeTime := p.nStakeTime, hashProofOfStake := p.hashProofOfStake
      vote := p.vote.carried p.nProtocolVersion, vParkRateResult := p.vParkRateResult
      nCoinAgeDestroyed := p.nCoinAgeDestroyed, vElectedCustodian := p.vElectedCustodian
      mapVotedFee := p.keptFees } := by
  have hfees : p.keptFees = p.mapVotedFee := if_neg fun hand => by rw [hwork] at hand; exact Bool.false_ne_true hand.1
  rw [hfees, ← hp]
  exact congrArg (fun vote => { q.withoutStake with vote := vote }) (carried_null p.nProtocolVersion).symm

/-- What only a proof-of-stake block has is read back, but for the voted fees before 2.0. -/
theorem reads_stake (h : nVersion ≥ clientVersion) (hfits : d.Fits) (hkept : d.Kept)
    (hstake : d₀.fProofOfStake = d.fProofOfStake) (hprotocol : d₀.nProtocolVersion = d.nProtocolVersion) :
    Reads (readStake nVersion d₀) (writeStake nVersion d) { d₀ with
      prevoutStake := d.prevoutStake, nStakeTime := d.nStakeTime, hashProofOfStake := d.hashProofOfStake
      vote := d.vote.carried d.nProtocolVersion, vParkRateResult := d.vParkRateResult
      nCoinAgeDestroyed := d.nCoinAgeDestroyed, vElectedCustodian := d.vElectedCustodian
      mapVotedFee := d.keptFees } := by
  have hflag : d₀.isProofOfStake = d.isProofOfStake := hstake
  unfold readStake writeStake
  cases hpos : d.isProofOfStake with
  | true =>
    obtain ⟨hhash, hn, htime, hproof, hage⟩ := hfits.stake
    have helected : Reads (readVector (readCustodianVote nVersion))
        (writeVector (writeCustodianVote nVersion) d.vElectedCustodian) d.vElectedCustodian := by
      refine reads_vector hfits.elected.1 fun v hv => ?_
      have hread : Reads (readCustodianVote nVersion) (writeCustodianVote nVersion v) (v.carried nVersion) :=
        reads_custodianVote (hfits.elected.2 v hv)
      rwa [carried_custodianVote h] at hread
    have hfees : Reads (readIf (d.nProtocolVersion ≥ protocolV2_0) (readUnitMap (readUInt 4)) {})
        (writeIf (d.nProtocolVersion ≥ protocolV2_0) (writeUnitMap (writeLE 4) d.mapVotedFee)) d.keptFees := by
      rw [keptFees_of_stake hpos]
      exact reads_readIf (reads_unitMap ⟨fun x hx => reads_uint (hfits.fees.1 x hx),
        fun x hx => reads_uint (hfits.fees.2 x hx)⟩)
    rw [hflag, hpos, hprotocol, writeIf, if_pos rfl, if_pos rfl]
    refine (reads_uint hhash).bind ?_
    refine (reads_uint hn).bind ?_
    refine (reads_uint htime).bind ?_
    refine (reads_uint hproof).bind ?_
    refine (reads_vote hkept.vote).bind ?_
    refine (reads_vector hkept.results.1 fun v hv =>
      reads_parkRateVote (hkept.results.2 v hv).1 (hkept.results.2 v hv).2).bind ?_
    refine (reads_uint hage).bind ?_
    refine helected.bind ?_
    exact hfees.map _
  | false =>
    rw [hflag, hpos, writeIf, if_neg Bool.false_ne_true, if_neg Bool.false_ne_true,
      withoutStake_eq (hkept.work hpos) hpos]
    exact .pure _

/-- What a record carries of an entry. -/
def CDiskBlockIndex.carried (d : CDiskBlockIndex) : CDiskBlockIndex :=
  { d with
    phashBlock := 0, pprev := none, pnext := none, pprevElected := none
    nFile := d.placed.nFile, nDataPos := d.placed.nDataPos, nUndoPos := d.placed.nUndoPos
    vote := d.vote.carried d.nProtocolVersion, mapVotedFee := d.keptFees }

/-- **Reading a record** of the current version gives what it carries of the entry. -/
theorem reads_diskIndex (hfits : d.Fits) (hkept : d.Kept)
    (hlinks : d.hashPrev < 256 ^ 32 ∧ d.hashPrevElected < 256 ^ 32) :
    Reads readDiskIndex (writeDiskIndex clientVersion d) d.carried := by
  have hversion : Reads (readVarInt 32) (writeVarInt clientVersion) 2010000 :=
    reads_varUInt (show 2010000 < 256 ^ 4 by decide)
  unfold readDiskIndex writeDiskIndex
  refine hversion.bind ?_
  refine (reads_place hfits).bind ?_
  refine (reads_figures (le_refl clientVersion) hfits).bind ?_
  refine (reads_stake (le_refl clientVersion) hfits hkept (by rfl) (by rfl)).bind ?_
  refine (reads_trust (le_refl clientVersion) hfits hlinks.2).bind ?_
  exact reads_indexHeader hfits hlinks.1

end Parts

section Reload

variable {q r : PlacedIndex} {hashNext : Option Uint256}

/-- What an entry that was written and loaded again has of the one that was written. -/
structure PlacedIndex.Reloaded (q r : PlacedIndex) (hashNext : Option Uint256) : Prop where
  fields : r.toCBlockIndex = { q.toCBlockIndex with
    pnext := hashNext, mapTotalParked := {}, mapVotedFee := q.keptFees }
  blockPos : r.getBlockPos = q.getBlockPos
  undoPos : r.getUndoPos = q.getUndoPos

/-- An entry with a position has a file. -/
theorem haveFile {n : Nat} (h : n &&& blockHaveData ≠ 0 ∨ n &&& blockHaveUndo ≠ 0) :
    n &&& (blockHaveData ||| blockHaveUndo) ≠ 0 := by
  rw [Nat.and_or_distrib_left, Ne, Nat.or_eq_zero_iff, not_and_or]
  exact h

/-- **What becomes of an entry** that is written and loaded again. -/
theorem reload_eq (hfits : q.Fits) (hkept : q.Kept) (hashNext : Option Uint256) :
    ∃ r, q.reload hashNext = some r ∧ q.Reloaded r hashNext := by
  have hread := reads_diskIndex (d := .ofIndex q) hfits hkept ⟨link_lt hfits.links.1, link_lt hfits.links.2⟩ []
  rw [List.append_nil] at hread
  have hprev : lazyIndex (q.pprev.getD 0) = q.pprev := lazyIndex_getD hfits.links.1
  have helected : lazyIndex (q.pprevElected.getD 0) = q.pprevElected := lazyIndex_getD hfits.links.2
  refine ⟨.load q.phashBlock hashNext (CDiskBlockIndex.ofIndex q).carried, by rw [PlacedIndex.reload, hread]; rfl,
    ?_, ?_,
    ?_⟩
  · calc (PlacedIndex.load q.phashBlock hashNext (CDiskBlockIndex.ofIndex q).carried).toCBlockIndex
        = { q.toCBlockIndex with
            pprev := lazyIndex (q.pprev.getD 0), pprevElected := lazyIndex (q.pprevElected.getD 0)
            vote := { q.vote.carried q.nProtocolVersion with nCoinAgeDestroyed := q.nCoinAgeDestroyed }
            pnext := hashNext, mapTotalParked := {}, mapVotedFee := q.keptFees } := rfl
      _ = { q.toCBlockIndex with pnext := hashNext, mapTotalParked := {}, mapVotedFee := q.keptFees } := by
        rw [hprev, helected, ← hkept.carried]
  · show (if q.nStatus &&& blockHaveData ≠ 0 then some (CDiskBlockPos.mk
      (if q.nStatus &&& (blockHaveData ||| blockHaveUndo) ≠ 0 then q.nFile else 0)
      (if q.nStatus &&& blockHaveData ≠ 0 then q.nDataPos else 0)) else none) = q.getBlockPos
    unfold PlacedIndex.getBlockPos
    by_cases hdata : q.nStatus &&& blockHaveData ≠ 0
    · simp only [if_pos hdata, if_pos (haveFile (.inl hdata))]
    · rw [if_neg hdata, if_neg hdata]
  · show (if q.nStatus &&& blockHaveUndo ≠ 0 then some (CDiskBlockPos.mk
      (if q.nStatus &&& (blockHaveData ||| blockHaveUndo) ≠ 0 then q.nFile else 0)
      (if q.nStatus &&& blockHaveUndo ≠ 0 then q.nUndoPos else 0)) else none) = q.getUndoPos
    unfold PlacedIndex.getUndoPos
    by_cases hundo : q.nStatus &&& blockHaveUndo ≠ 0
    · simp only [if_pos hundo, if_pos (haveFile (.inr hundo))]
    · rw [if_neg hundo, if_neg hundo]

end Reload

/-! ## What the node puts into its index -/

section Extract

variable {nVersion : Int} {block : CBlock} {vote : CVote} {results : List CParkRateVote}

theorem yields_custodianVote (nVersion : Int) :
    Yields (readCustodianVote nVersion) fun v => IntFits 8 v.nAmount ∧ v.carried nVersion = v := by
  refine (Yields.true _).bind fun cUnit _ => ?_
  by_cases h : nVersion ≥ 20200
  · simp only [if_pos h]
    refine (Yields.true _).bind fun fScript _ => (Yields.true _).bind fun hash _ => yields_int.bind fun n hn =>
      .pure ⟨hn, ?_⟩
    rw [CCustodianVote.carried, if_pos h]
  · simp only [if_neg h]
    refine (Yields.pure (P := (· = false)) rfl).bind fun fScript hf => (Yields.true _).bind fun hash _ =>
      yields_int.bind fun n hn => .pure ⟨hn, ?_⟩
    rw [CCustodianVote.carried, if_neg h, hf]

theorem yields_parkRateVote : Yields readParkRateVote fun v => v.vParkRate.length ≤ maxSize ∧
    ∀ r ∈ v.vParkRate, r.nCompactDuration < 256 ∧ IntFits 8 r.nRate :=
  (Yields.true _).bind fun _ _ => (yields_vector ((yields_uint 1).bind fun _ hn => yields_int.bind fun _ hrate =>
    .pure (P := fun r : CParkRate => r.nCompactDuration < 256 ∧ IntFits 8 r.nRate) ⟨hn, hrate⟩)).bind fun _ hl =>
      .pure hl

/-- Reading on, whatever a condition decides. -/
theorem yields_ite {α β : Type} {c : Prop} [Decidable c] {read read' : Reader α} {f : α → Reader β} {P : α → Prop}
    {Q : β → Prop} (h : c → Yields read P) (h' : ¬ c → Yields read' P) (hf : ∀ a, P a → Yields (f a) Q) :
    Yields (if c then read >>= f else read' >>= f) Q := by
  by_cases hc : c
  · rw [if_pos hc]
    exact (h hc).bind hf
  · rw [if_neg hc]
    exact (h' hc).bind hf

/-- The empty map has no values. -/
theorem each_empty {α : Type} {P : α → Prop} : ({} : CUnitMap α).Each P :=
  ⟨fun _ hx => (by cases hx), fun _ hx => (by cases hx)⟩

theorem yields_singleMotion : Yields readSingleMotion fun l => l.head?.toList.filter (· ≠ default) = l := by
  refine (Yields.true _).bind fun hashMotion _ => .pure ?_
  by_cases h : hashMotion = default <;> simp [h]

/-- A vote that was read is carried at the version at which it was read, and can be read again. -/
theorem yields_vote (nVersion : Int) :
    Yields (readVote nVersion) fun vote => vote.Fits nVersion ∧ vote.carried nVersion = vote := by
  unfold readVote
  refine yields_int.bind fun nVersionVote hversion => ?_
  -- `v` is the version at which the rest is read
  generalize hv : (if nVersionVote < protocolV2_0 then nVersionVote else nVersion) = v
  refine (yields_vector (yields_custodianVote v)).bind fun vCustodianVote hcustodians => ?_
  refine (yields_vector yields_parkRateVote).bind fun vParkRateVote hparkRates => ?_
  refine yields_ite
    (P := fun l => (v ≥ protocolV0_5 → l.length ≤ maxSize) ∧
      (if v ≥ protocolV0_5 then l else l.head?.toList.filter (· ≠ default)) = l)
    (fun h => (yields_vector (Yields.true _)).mono fun l hl => ⟨fun _ => hl.1, if_pos h⟩)
    (fun h => yields_singleMotion.mono fun l hl => ⟨fun h' => absurd h' h, (if_neg h).trans hl⟩)
    fun vMotion hmotions => ?_
  refine yields_ite
    (P := fun m => m.Each (· < 256 ^ 4) ∧ (if v ≥ protocolV2_0 then m else {}) = m)
    (fun h => (yields_unitMap (yields_uint 4)).mono fun m hm => ⟨hm, if_pos h⟩)
    (fun h => .pure ⟨each_empty, if_neg h⟩) fun mapFeeVote hfees => .pure ?_
  have hserialized : ∀ n, (CVote.mk nVersionVote vCustodianVote vParkRateVote vMotion mapFeeVote n).serializedVersion
      nVersion = v := fun _ => hv
  refine ⟨⟨hversion, ⟨hcustodians.1, fun v hv => (hcustodians.2 v hv).1⟩, hparkRates, ?_, hfees.1⟩, ?_⟩
  · rw [hserialized]
    exact hmotions.1
  · have hcarried : vCustodianVote.map (·.carried v) = vCustodianVote :=
      (List.map_congr_left fun w hw => (hcustodians.2 w hw).2).trans (List.map_id _)
    unfold CVote.carried
    rw [hserialized]
    dsimp only
    rw [hcarried, hmotions.2, hfees.2]

theorem extractVoteScript_carried {script : CScript} (h : extractVoteScript script nVersion = some vote) :
    vote.Fits nVersion ∧ vote.carried nVersion = vote := by
  unfold extractVoteScript at h
  split at h
  · cases h
  · obtain ⟨vch, -, h⟩ := Option.bind_eq_some_iff.mp h
    obtain ⟨⟨w, rest⟩, hread, hw⟩ := Option.bind_eq_some_iff.mp h
    cases hw
    exact yields_vote nVersion _ _ _ hread

/-- The vote of a block is carried at the version at which it is extracted. -/
theorem extractVote_carried (h : extractVote block nVersion = some vote) :
    vote.Fits nVersion ∧ vote.carried nVersion = vote := by
  unfold extractVote at h
  split at h
  · obtain ⟨txo, -, htxo⟩ := List.exists_of_findSome?_eq_some h
    exact extractVoteScript_carried htxo
  · cases h

/-- The park rate results of a block can be read again. -/
theorem extractParkRateResults_fits (h : extractParkRateResults block = some results) :
    results.length ≤ maxSize ∧ ∀ v ∈ results, v.vParkRate.length ≤ maxSize ∧
      ∀ r ∈ v.vParkRate, r.nCompactDuration < 256 ∧ IntFits 8 r.nRate := by
  unfold extractParkRateResults at h
  split at h
  · dsimp only at h
    split at h
    · rename_i hdistinct
      have hresults := Option.some.inj h
      rw [hresults] at hdistinct
      refine ⟨?_, fun v hv => ?_⟩
      · -- there is one result for each unit at most
        have hnodup := hdistinct.map fun _ _ h => UInt8.toNat_inj.mp h
        have hrange : (results.map (·.cUnit)).map UInt8.toNat ⊆ List.range 256 := by
          intro n hn
          obtain ⟨u, -, rfl⟩ := List.mem_map.mp hn
          exact List.mem_range.mpr u.toNat_lt
        have hlen := (hnodup.subperm hrange).length_le
        rw [List.length_map, List.length_map, List.length_range] at hlen
        exact Nat.le_trans hlen (by decide)
      · rw [← hresults] at hv
        obtain ⟨txo, -, htxo⟩ := List.mem_filterMap.mp hv
        unfold extractParkRateResult at htxo
        split at htxo
        · cases htxo
        · obtain ⟨vch, -, htxo⟩ := Option.bind_eq_some_iff.mp htxo
          obtain ⟨⟨w, rest⟩, hread, hw⟩ := Option.bind_eq_some_iff.mp htxo
          cases hw
          exact yields_parkRateVote _ _ _ hread
    · cases h
  · cases h

end Extract

/-- Before 2.0 an entry has the default fees only. -/
def CBlockIndex.EarlyFees (p : CBlockIndex) : Prop :=
  p.nProtocolVersion < protocolV2_0 → ∀ cUnit fee, p.mapVotedFee.get? cUnit = some (some fee) →
    (fee : Int) = getDefaultFee cUnit

section Fees

variable {p : CBlockIndex} {chain : List CBlockIndex}

/-- A vote before 2.0 has no fees. -/
theorem CBlockIndex.Kept.noFeeVotes (h : p.Kept) (hearly : p.nProtocolVersion < protocolV2_0) :
    p.vote.mapFeeVote = {} := by
  rw [h.carried]
  refine if_neg fun hlate => ?_
  unfold CVote.serializedVersion at hlate
  split at hlate <;> omega

theorem getDefaultFee_nonneg (cUnit : CUnit) : 0 ≤ getDefaultFee cUnit := by
  unfold getDefaultFee
  split
  · decide
  · split <;> decide

/-- Where nobody votes on fees, the voted ones are the defaults. -/
theorem calculateVotedFees_default (h : ∀ q ∈ chain, q.vote.mapFeeVote = {}) {cUnit : CUnit} {fee : Nat}
    (hfee : (calculateVotedFees chain).get? cUnit = some (some fee)) : (fee : Int) = getDefaultFee cUnit := by
  have hunit : cUnit ∈ sAvailableUnits := by
    unfold CUnitMap.get? at hfee
    split at hfee
    · rename_i hu
      exact hu ▸ List.mem_cons_self
    · split at hfee
      · rename_i hu
        exact hu ▸ List.mem_cons_of_mem _ List.mem_cons_self
      · cases hfee
  obtain ⟨v, hv, hstat⟩ := exists_votedFee chain hunit
  have hv' : v = fee := Option.some.inj (Option.some.inj (hv.symm.trans hfee))
  have hmem : v ∈ feeVotesOf chain cUnit := (List.mem_insertionSort _).mp (List.mem_of_getElem? hstat)
  unfold feeVotesOf at hmem
  obtain ⟨i, -, hi⟩ := List.mem_map.mp hmem
  have hnone : (chain[i]?.bind fun p => (p.vote.mapFeeVote.get? cUnit).getD none) = none := by
    cases hq : chain[i]? with
    | none => rfl
    | some q =>
      rw [Option.bind_some, h q (List.mem_of_getElem? hq)]
      unfold CUnitMap.get?
      split_ifs <;> rfl
  rw [hnone, Option.getD_none] at hi
  rw [← hv', ← hi, Int.toNat_of_nonneg (getDefaultFee_nonneg cUnit)]

theorem get?_empty {α : Type} (m : CUnitMap α) (cUnit : CUnit) :
    ({} : CUnitMap α).get? cUnit = (m.get? cUnit).map fun _ => none := by
  unfold CUnitMap.get?
  split_ifs <;> rfl

/-- The fee that an entry shows is the same without the default ones. -/
theorem getVotedMinFee_kept (h : p.EarlyFees) (cUnit : CUnit) :
    ({ p with mapVotedFee := p.keptFees } : CBlockIndex).getVotedMinFee cUnit = p.getVotedMinFee cUnit := by
  unfold CBlockIndex.keptFees
  by_cases hearly : p.isProofOfStake = true ∧ p.nProtocolVersion < protocolV2_0
  · rw [if_pos hearly]
    unfold CBlockIndex.getVotedMinFee
    dsimp only
    rw [get?_empty p.mapVotedFee]
    cases hget : p.mapVotedFee.get? cUnit with
    | none => rfl
    | some o =>
      cases o with
      | none => rfl
      | some fee =>
        exact congrArg Except.ok (h hearly.2 cUnit fee hget).symm
  · rw [if_neg hearly]

end Fees

section Fill

variable {env : NodeContext} {s : NodeState} {block : CBlock} {r : Except Failure Unit} {pindex p : CBlockIndex}
  {fStake : Bool} {nVersion : Int} {pprev : Option Uint256}

/-- What holds of an entry while it is filled in: its kind, its version, its predecessor, and what a record keeps. -/
structure CBlockIndex.Filling (fStake : Bool) (nVersion : Int) (pprev : Option Uint256) (p : CBlockIndex) : Prop where
  kind : p.fProofOfStake = fStake
  version : p.nProtocolVersion = nVersion
  prev : p.pprev = pprev
  kept : p.Kept
  early : p.EarlyFees

/-- The entropy bit and the modifier are kept of all entries. -/
theorem CBlockIndex.Filling.stakeData (h : p.Filling fStake nVersion pprev) (fEntropy : Bool) (nModifier : UInt64)
    (fModifier : Bool) (nChecksum : Nat) :
    ({ p with fStakeEntropy := fEntropy, nStakeModifier := nModifier, fStakeModifier := fModifier
              nStakeModifierChecksum := nChecksum } : CBlockIndex).Filling fStake nVersion pprev where
  kind := h.kind
  version := h.version
  prev := h.prev
  kept :=
    { work := fun hwork => congrArg (fun q : CBlockIndex => { q with
        fStakeEntropy := fEntropy, nStakeModifier := nModifier, fStakeModifier := fModifier
        nStakeModifierChecksum := nChecksum }) (h.kept.work hwork)
      vote := h.kept.vote
      carried := h.kept.carried
      results := h.kept.results }
  early := h.early

/-- A proof-of-stake block has no more to keep than its vote, its fees and its park rates. -/
theorem CBlockIndex.Kept.of_stake (hstake : p.fProofOfStake = true) (hvote : p.vote.Fits p.nProtocolVersion)
    (hcarried : p.vote = { p.vote.carried p.nProtocolVersion with nCoinAgeDestroyed := p.nCoinAgeDestroyed })
    (hresults : p.vParkRateResult.length ≤ maxSize ∧ ∀ v ∈ p.vParkRateResult,
      v.vParkRate.length ≤ maxSize ∧ ∀ r ∈ v.vParkRate, r.nCompactDuration < 256 ∧ IntFits 8 r.nRate) : p.Kept where
  work hwork := absurd (hstake.symm.trans hwork) (by decide)
  vote := hvote
  carried := hcarried
  results := hresults

/-- Before the vote is known, no coin age is. -/
def CBlockIndex.FillingStake (fStake : Bool) (nVersion : Int) (pprev : Option Uint256) (p : CBlockIndex) : Prop :=
  p.Filling fStake nVersion pprev ∧ p.nCoinAgeDestroyed = 0

theorem filling_fillStake : Filling.Keeps (CBlockIndex.FillingStake block.isProofOfStake nVersion pprev)
    (s.fillStake env block) := by
  refine .bind (.write fun p h => ⟨h.1.stakeData _ p.nStakeModifier p.fStakeModifier p.nStakeModifierChecksum, h.2⟩)
    fun _ => .bind ?_ fun _ => ?_
  · unfold NodeState.fillProof
    split
    · rename_i hstake
      split
      · exact .throw _
      · exact .write fun p h => ⟨⟨h.1.kind, h.1.version, h.1.prev, .of_stake (h.1.kind.trans hstake) h.1.kept.vote
          h.1.kept.carried h.1.kept.results, h.1.early⟩, h.2⟩
    · exact .pure ()
  · exact .bind .record fun _ => .bind (.check _) fun _ =>
      .bind (.write fun p h => ⟨h.1.stakeData p.fStakeEntropy _ _ p.nStakeModifierChecksum, h.2⟩) fun _ =>
      .bind (.write fun p h => ⟨h.1.stakeData p.fStakeEntropy p.nStakeModifier p.fStakeModifier _, h.2⟩) fun _ =>
      .bind .record fun _ => .check _

/-- An entry of a proof-of-stake block with the vote of the block. -/
theorem CBlockIndex.Filling.withVote (h : p.Filling block.isProofOfStake nVersion pprev)
    (hstake : block.isProofOfStake = true) {vote : CVote} (hvote : extractVote block nVersion = some vote)
    (nCoinAge : Nat) :
    ({ p with nCoinAgeDestroyed := nCoinAge, vote := { vote with nCoinAgeDestroyed := nCoinAge } } :
      CBlockIndex).Filling block.isProofOfStake nVersion pprev := by
  obtain ⟨hfits, hcarried⟩ := extractVote_carried (h.version ▸ hvote)
  refine ⟨h.kind, h.version, h.prev, .of_stake (h.kind.trans hstake) ⟨hfits.version, hfits.custodians, hfits.parkRates,
    hfits.motions, hfits.fees⟩ ?_ h.kept.results, h.early⟩
  exact congrArg (fun v : CVote => { v with nCoinAgeDestroyed := nCoinAge }) hcarried.symm

theorem filling_fillVote (hstake : block.isProofOfStake = true)
    (h : p.FillingStake block.isProofOfStake nVersion pprev) :
    (run (s.fillVote env block) p).2.Filling block.isProofOfStake nVersion pprev := by
  unfold NodeState.fillVote
  rw [Filling.run_bind, run_record]
  dsimp only
  split
  · exact h.1
  · rename_i vote hvote
    rw [h.1.version] at hvote
    have hwrite : ({ p with vote := vote } : CBlockIndex).Filling block.isProofOfStake nVersion pprev := by
      have hage : vote.nCoinAgeDestroyed = 0 := by
        rw [← (extractVote_carried hvote).2]
        rfl
      have hsame : p.nCoinAgeDestroyed = vote.nCoinAgeDestroyed := h.2.trans hage.symm
      exact (congrArg (fun nCoinAge => CBlockIndex.Filling block.isProofOfStake nVersion pprev
        { p with nCoinAgeDestroyed := nCoinAge, vote := vote }) hsame).mpr (h.1.withVote hstake hvote _)
    exact Filling.Keeps.run_bind hwrite fun _ => .bind (.check _) fun _ => .bind (.check _) fun nCoinAge =>
      .write fun q hq => hq.withVote hstake hvote nCoinAge

/-- The ancestors of an early block have not voted on fees. -/
def NoFeeVotes (m : BlockMap) (nVersion : Int) (pprev : Option Uint256) : Prop :=
  nVersion < protocolV2_0 → ∀ q ∈ (pprev.map m.chain).getD [], q.vote.mapFeeVote = {}

theorem filling_fillParkRates (hstake : block.isProofOfStake = true)
    (hvotes : NoFeeVotes s.mapBlockIndex nVersion pprev) :
    Filling.Keeps (CBlockIndex.Filling block.isProofOfStake nVersion pprev) (s.fillParkRates block) := by
  refine .record_bind fun q hq => ?_
  have hdefault : nVersion < protocolV2_0 → ∀ cUnit fee,
      (calculateVotedFees (q :: s.mapBlockIndex.prevChain q)).get? cUnit = some (some fee) →
        (fee : Int) = getDefaultFee cUnit := by
    refine fun hearly cUnit fee hfee => calculateVotedFees_default (fun x hx => ?_) hfee
    rcases List.mem_cons.mp hx with rfl | hx
    · exact hq.kept.noFeeVotes (hq.version ▸ hearly)
    · unfold BlockMap.prevChain at hx
      rw [hq.prev] at hx
      exact hvotes hearly x hx
  dsimp only
  generalize calculateVotedFees (q :: s.mapBlockIndex.prevChain q) = fees at hdefault ⊢
  refine .bind (.write fun p h => ⟨h.kind, h.version, h.prev, .of_stake (h.kind.trans hstake) h.kept.vote
    h.kept.carried h.kept.results, fun hearly => hdefault (h.version ▸ hearly)⟩) fun _ => ?_
  split
  · exact .throw _
  · rename_i results hresults
    exact .bind (.write fun p h => ⟨h.kind, h.version, h.prev, .of_stake (h.kind.trans hstake) h.kept.vote
      h.kept.carried (extractParkRateResults_fits hresults), h.early⟩) fun _ => .bind (.check _) fun _ =>
      .bind (.check _) fun _ => .forM fun tx _ => .bind .record fun _ => .bind (.check _) fun _ => .check _

/-- The custodians of a proof-of-stake block are kept, and a proof-of-work block without grants has none. -/
theorem filling_fillElected (h : block.isProofOfStake = false → block.actualGrants = []) :
    Filling.Keeps (CBlockIndex.Filling block.isProofOfStake nVersion pprev) (fillElected env block) := by
  refine .forM fun tx htx => ?_
  unfold fillElectedTx
  split
  · rename_i hgrant
    have hstake : block.isProofOfStake = true := by
      rw [← Bool.not_eq_false]
      intro hwork
      have hmem : tx ∈ block.actualGrants := List.mem_filter.mpr ⟨htx, hgrant⟩
      rw [h hwork] at hmem
      cases hmem
    exact .bind (.check _) fun _ => .forM fun txo _ => .bind (.check _) fun _ => .write fun p h =>
      ⟨h.kind, h.version, h.prev, .of_stake (h.kind.trans hstake) h.kept.vote h.kept.carried h.kept.results, h.early⟩
  · exact .pure ()

/-- **Filling in an entry** keeps what a record keeps, wherever it stops. -/
theorem filling_fillIndex (hgrants : block.isProofOfStake = false → block.actualGrants = [])
    (hvotes : NoFeeVotes s.mapBlockIndex nVersion pprev)
    (h : p.FillingStake block.isProofOfStake nVersion pprev) :
    (run (s.fillIndex env block) p).2.Filling block.isProofOfStake nVersion pprev := by
  unfold NodeState.fillIndex
  refine run_bind_of (filling_fillStake p h) (fun q hq => hq.1) fun _ q hq => ?_
  refine Filling.Keeps.run_bind ?_ fun _ => filling_fillElected hgrants
  unfold NodeState.fillVoting
  split
  · rename_i hstake
    exact Filling.Keeps.run_bind (filling_fillVote hstake hq) fun _ => filling_fillParkRates hstake hvotes
  · exact hq.1

end Fill

/-! ## Every run -/

/-- What is kept of the index: the genesis block is known, the versions are recorded, and records keep the entries. -/
structure KeptIndex (cfg : Settings) (m : BlockMap) : Prop where
  genesis : (m.find cfg.hashGenesisBlock).isSome = true
  versions : VersionsRecorded cfg m
  kept : ∀ h p, m.find h = some p → p.Kept ∧ p.EarlyFees

section Runs

variable {cfg : Settings} {cr : Crypto} {m m' : BlockMap} {p p' : CBlockIndex} {h : Uint256}

/-- What a record keeps does not depend on what connecting blocks changes. -/
theorem CBlockIndex.Kept.congr (hp : p.Kept) (hsame : p.accepted = p'.accepted) : p'.Kept where
  work hwork := by
    have hflag : p.accepted.fProofOfStake = p'.accepted.fProofOfStake := by rw [hsame]
    have hkept : p.accepted.withoutStake = p.accepted :=
      congrArg CBlockIndex.accepted (hp.work ((show p.isProofOfStake = p'.isProofOfStake from hflag).trans hwork))
    rw [hsame] at hkept
    exact congrArg (fun q : CBlockIndex => { q with
      nStatus := p'.nStatus, nMint := p'.nMint, mapMoneySupply := p'.mapMoneySupply
      mapTotalParked := p'.mapTotalParked, pnext := p'.pnext }) hkept
  vote := by
    have hvote : p.accepted.vote.Fits p.accepted.nProtocolVersion := hp.vote
    rw [hsame] at hvote
    exact hvote
  carried := by
    have hvote : p.accepted.vote = { p.accepted.vote.carried p.accepted.nProtocolVersion with
      nCoinAgeDestroyed := p.accepted.nCoinAgeDestroyed } := hp.carried
    rw [hsame] at hvote
    exact hvote
  results := by
    have hresults : p.accepted.vParkRateResult.length ≤ maxSize ∧ ∀ v ∈ p.accepted.vParkRateResult,
      v.vParkRate.length ≤ maxSize ∧ ∀ r ∈ v.vParkRate, r.nCompactDuration < 256 ∧ IntFits 8 r.nRate := hp.results
    rw [hsame] at hresults
    exact hresults

theorem CBlockIndex.EarlyFees.congr (hp : p.EarlyFees) (hsame : p.accepted = p'.accepted) : p'.EarlyFees := by
  have hfees : p.accepted.EarlyFees := hp
  rw [hsame] at hfees
  exact hfees

/-- The ancestors of an early block have not voted on fees. -/
theorem KeptIndex.noFeeVotes (hm : KeptIndex cfg m) (hash : Uint256) :
    getProtocolForNextBlock cfg (m.chain hash) < protocolV2_0 → ∀ q ∈ m.chain hash, q.vote.mapFeeVote = {} := by
  intro hearly q hq
  have hle : q.nProtocolVersion ≤ getProtocolForNextBlock cfg (m.chain hash) := by
    cases hfind : m.find hash with
    | none =>
      rw [BlockMap.chain_of_none hfind] at hq
      cases hq
    | some p =>
      rw [BlockMap.chain_of_find hfind] at hq ⊢
      have hhead := (getProtocolForNextBlock_ge cfg (p :: m.prevChain p)).2 p rfl
      rcases List.mem_cons.mp hq with rfl | hq
      · exact hhead
      · exact Int.le_trans (version_le_of_mem_prevChain hm.versions hfind q hq) hhead
  exact (hm.kept _ q (BlockMap.find_of_mem_chain hq)).1.noFeeVotes (Int.lt_of_le_of_lt hle hearly)

section Fill

variable {env : NodeContext} {s : NodeState} {block : CBlock}

/-- A new entry of a proof-of-work block. -/
theorem withoutStake_newIndex (cfg : Settings) (m : BlockMap) (hwork : block.isProofOfStake = false) :
    (newIndex cfg m block).withoutStake = newIndex cfg m block := by
  have hprevout : block.prevoutStake = {} := if_neg (by rw [hwork]; exact Bool.false_ne_true)
  have htime : block.nStakeTime = 0 := if_neg (by rw [hwork]; exact Bool.false_ne_true)
  unfold newIndex CBlockIndex.ofBlock
  rw [hprevout, htime]
  rfl

theorem fits_null (nVersion : Int) : CVote.null.Fits nVersion where
  version := by constructor <;> decide
  custodians := ⟨Nat.zero_le _, List.forall_mem_nil _⟩
  parkRates := ⟨Nat.zero_le _, List.forall_mem_nil _⟩
  motions _ := Nat.zero_le _
  fees := each_empty

/-- An entry that is not filled in yet. -/
theorem filling_startIndex : CBlockIndex.FillingStake block.isProofOfStake (s.startIndex env block).nProtocolVersion
    (s.startIndex env block).pprev (s.startIndex env block) := by
  have hkept : ∀ hash pprev nHeight,
      ({ newIndex env.cfg s.mapBlockIndex block with phashBlock := hash, pprev := pprev, nHeight := nHeight } :
        CBlockIndex).Kept := by
    refine fun hash pprev nHeight => ⟨fun hwork => ?_, ?_, rfl, Nat.zero_le _, List.forall_mem_nil _⟩
    · exact congrArg (fun q : CBlockIndex => { q with phashBlock := hash, pprev := pprev, nHeight := nHeight })
        (withoutStake_newIndex env.cfg s.mapBlockIndex hwork)
    · exact fits_null _
  have hfees : ∀ cUnit fee, ({} : CUnitMap Nat).get? cUnit = some (some fee) → (fee : Int) = getDefaultFee cUnit := by
    intro cUnit fee hfee
    unfold CUnitMap.get? at hfee
    split_ifs at hfee <;> cases hfee
  unfold NodeState.startIndex BlockMap.linked
  split
  · exact ⟨⟨rfl, rfl, rfl, hkept _ _ _, fun _ => hfees⟩, rfl⟩
  · exact ⟨⟨rfl, rfl, rfl, hkept _ _ _, fun _ => hfees⟩, rfl⟩

/-- A proof-of-work block that is accepted above the genesis block grants nothing. -/
theorem actualGrants_of_work (hbefore : s.checkBefore env block = .ok ())
    (hgenesis : block.getHash env.cr ≠ env.cfg.hashGenesisBlock) (hwork : block.isProofOfStake = false) :
    block.actualGrants = [] := by
  unfold NodeState.checkBefore at hbefore
  split at hbefore
  · cases hbefore
  · split at hbefore
    · cases hbefore
    · rename_i pindexPrev _
      unfold NodeState.checkAccept at hbefore
      simp only [Guard.bind_eq_ok] at hbefore
      obtain ⟨_, -, _, -, _, -, _, -, _, -, _, -, _, -, _, -, hgrants⟩ := hbefore
      rw [orError_eq_ok] at hgrants
      unfold CoinAgeContext.checkCustodianGrants CoinAgeContext.expectedGrants at hgrants
      simp only [Guard.bind_eq_ok, hwork, Bool.false_eq_true, if_false, Guard.rejectIf_eq_ok, not_not] at hgrants
      obtain ⟨vExpected, ⟨_, -, hexpected⟩, _, hlen, -⟩ := hgrants
      cases hexpected
      exact List.length_eq_zero_iff.mp hlen

end Fill

/-- **The index keeps its entries.** -/
theorem keepsIndex_kept : ProcessState.KeepsIndex cr cfg (KeptIndex cfg) where
  same m m' hsame hm := by
    have hversions : ProcessState.KeepsIndex cr cfg (VersionsRecorded cfg) := keepsIndex_versions
    refine ⟨?_, hversions.same m m' hsame hm.versions, fun h p' hp' => ?_⟩
    · have hfind := congrArg Option.isSome (hsame cfg.hashGenesisBlock)
      rw [Option.isSome_map, Option.isSome_map] at hfind
      exact hfind.trans hm.genesis
    · obtain ⟨p, hp, haccepted⟩ := hsame.find hp'
      exact ⟨(hm.kept h p hp).1.congr haccepted, (hm.kept h p hp).2.congr haccepted⟩
  insert env s block r pindex hcr hcfg hbefore hfill hm := by
    have hversions : ProcessState.KeepsIndex cr cfg (VersionsRecorded cfg) := keepsIndex_versions
    have hfind := NodeState.find_insertIndex hbefore hfill
    refine ⟨?_, hversions.insert env s block r pindex hcr hcfg hbefore hfill hm.versions, fun h p hp => ?_⟩
    · rw [hfind]
      split
      · rfl
      · exact hm.genesis
    · rw [hfind] at hp
      split at hp
      · cases hp
        have hgenesis : block.getHash env.cr ≠ env.cfg.hashGenesisBlock := by
          intro heq
          have hknown := hm.genesis
          rw [← hcfg, ← heq, NodeState.find_of_checkBefore hbefore] at hknown
          cases hknown
        have hvotes : NoFeeVotes s.mapBlockIndex (s.startIndex env block).nProtocolVersion
            (s.startIndex env block).pprev := by
          rw [startIndex_version, hcfg]
          intro hearly q hq
          refine hm.noFeeVotes block.hashPrevBlock hearly q ?_
          unfold NodeState.startIndex BlockMap.linked at hq
          split at hq
          · exact hq
          · cases hq
        have hfilling : (run (s.fillIndex env block) (s.startIndex env block)).2.Filling block.isProofOfStake
            (s.startIndex env block).nProtocolVersion (s.startIndex env block).pprev :=
          filling_fillIndex (fun hwork => actualGrants_of_work hbefore hgenesis hwork) hvotes filling_startIndex
        rw [hfill] at hfilling
        exact ⟨hfilling.kept, hfilling.early⟩
      · exact hm.kept h p hp

/-- The entry of the genesis block is kept. -/
theorem kept_of_null (hnull : p.withoutStake = p) : p.Kept ∧ p.EarlyFees := by
  have hvote : p.vote = CVote.null := (congrArg CBlockIndex.vote hnull).symm
  have hage : p.nCoinAgeDestroyed = 0 := (congrArg CBlockIndex.nCoinAgeDestroyed hnull).symm
  have hresults : p.vParkRateResult = [] := (congrArg CBlockIndex.vParkRateResult hnull).symm
  have hfees : p.mapVotedFee = {} := (congrArg CBlockIndex.mapVotedFee hnull).symm
  refine ⟨⟨fun _ => hnull, ?_, ?_, ?_⟩, fun _ cUnit fee hfee => ?_⟩
  · rw [hvote]
    exact fits_null _
  · rw [hvote, hage]
    rfl
  · rw [hresults]
    exact ⟨Nat.zero_le _, List.forall_mem_nil _⟩
  · rw [hfees] at hfee
    unfold CUnitMap.get? at hfee
    split_ifs at hfee <;> cases hfee

end Runs

/-! ## The law -/

/-- What becomes of an entry that is written and loaded again: no field is lost but the totals that are parked, and the
fees that are shown are the same. A block above it finds the same money supply, and counts what is parked from zero. -/
def PlacedIndex.ComesBack (q : PlacedIndex) (hashNext : Option Uint256) : Prop :=
  ∃ r, q.reload hashNext = some r ∧ q.Reloaded r hashNext ∧
    (∀ cUnit, r.getVotedMinFee cUnit = q.getVotedMinFee cUnit) ∧ (∀ cUnit, r.getTotalParked cUnit = 0) ∧
    ∀ (c : ConnectContext) (rest : List CBlockIndex) (s : ConnectState),
      let above := ({ c with chainPrev := q.toCBlockIndex :: rest } : ConnectContext).connectedIndex s
      let above' := ({ c with chainPrev := r.toCBlockIndex :: rest } : ConnectContext).connectedIndex s
      above'.mapMoneySupply = above.mapMoneySupply ∧
        above.getTotalParked unitCurrency = q.getTotalParked unitCurrency + above'.getTotalParked unitCurrency

/-- A block adds what it parks to what was parked before it. -/
theorem getTotalParked_connectedIndex (c : ConnectContext) (pprev : CBlockIndex) (rest : List CBlockIndex)
    (s : ConnectState) :
    (({ c with chainPrev := pprev :: rest } : ConnectContext).connectedIndex s).getTotalParked unitCurrency =
      pprev.getTotalParked unitCurrency + s.mapParked unitCurrency := by
  have hne : unitCurrency ≠ unitShare := by decide
  unfold ConnectContext.connectedIndex
  simp [CBlockIndex.getTotalParked, sAvailableUnits, CUnitMap.get?, CUnitMap.set, hne]

theorem PlacedIndex.comesBack {q : PlacedIndex} (hfits : q.Fits) (hkept : q.Kept) (hearly : q.EarlyFees)
    (hashNext : Option Uint256) : q.ComesBack hashNext := by
  obtain ⟨r, hreload, hr⟩ := reload_eq hfits hkept hashNext
  have hparked : ∀ cUnit, r.getTotalParked cUnit = 0 := by
    intro cUnit
    rw [hr.fields]
    unfold CBlockIndex.getTotalParked CUnitMap.get?
    dsimp only
    split_ifs <;> rfl
  refine ⟨r, hreload, hr, fun cUnit => ?_, hparked, fun c rest s => ⟨?_, ?_⟩⟩
  · rw [hr.fields, ← getVotedMinFee_kept hearly cUnit]
    rfl
  · unfold ConnectContext.connectedIndex
    rw [hr.fields]
    rfl
  · rw [getTotalParked_connectedIndex, getTotalParked_connectedIndex, hparked, Int.zero_add]

section Claim

variable (cfg : Settings) (cr : Crypto) (s₀ : ProcessState) (es : List BlockEvent)

/-- **Records of block indexes.** In every state of every run that starts with the genesis block, each entry of the
index whose values fit their types can be written and loaded again, and comes back without what is parked. -/
theorem diskIndex_law (hgenesis : (s₀.mapBlockIndex.find cfg.hashGenesisBlock).isSome = true)
    (hstart : ∀ h p, s₀.mapBlockIndex.find h = some p →
      p.pprev = none ∧ p.nProtocolVersion = protocolV0_5 ∧ p.withoutStake = p) :
    Always (ProcessState.step cfg cr) (fun s => ∀ h (q : PlacedIndex),
      s.mapBlockIndex.find h = some q.toCBlockIndex → q.Fits → ∀ hashNext, q.ComesBack hashNext) s₀ es := by
  have hkept : KeptIndex cfg s₀.mapBlockIndex := by
    refine ⟨hgenesis, fun h p hp => ?_, fun h p hp => kept_of_null (hstart h p hp).2.2⟩
    obtain ⟨hroot, hversion, -⟩ := hstart h p hp
    rw [BlockMap.prevChain_of_root hroot, hversion]
    rfl
  have halways := (@keepsIndex_kept cfg cr).always hkept es
  intro es' hprefix h q hq hfits hashNext
  obtain ⟨hkept, hearly⟩ := (halways es' hprefix).kept h _ hq
  exact q.comesBack hfits hkept hearly hashNext

end Claim

/-- The entry of a block above the genesis block, with its place in the first file. -/
def entryAbove : PlacedIndex where
  phashBlock := 2
  pprev := some hashGenesisBlockOfficial
  nHeight := 1
  nChainTrust := 2
  nTx := 1
  nChainTx := 1
  nStatus := 29
  nMint := 10000
  mapMoneySupply := { share := some 10000, currency := some 0 }
  mapTotalParked := { currency := some 0 }
  nProtocolVersion := protocolV0_5
  nVersion := 2
  hashMerkleRoot := 1002
  nTime := 1400000060
  nBits := 0x1e00ffff
  nNonce := 2
  nDataPos := 8

theorem fits_entryAbove : entryAbove.Fits where
  place := by decide
  position := by decide
  figures := ⟨⟨by decide, by decide⟩, by decide, by decide⟩
  supply := by
    constructor <;> rintro x hx <;> cases hx <;> constructor <;> decide
  parked := by
    constructor <;> rintro x hx <;> cases hx
    constructor <;> decide
  stake := by decide
  elected := ⟨Nat.zero_le _, List.forall_mem_nil _⟩
  fees := each_empty
  trust := by decide
  header := ⟨⟨by decide, by decide⟩, by decide⟩
  links := by
    refine ⟨fun h hh => ?_, fun h hh => by cases hh⟩
    obtain rfl := Option.some.inj hh
    decide

/-- The entry comes back from its record. -/
theorem diskIndex_law_sample :
    (versionedNode.step noCheckpoints Crypto.sample sentAboveGenesis).mapBlockIndex.find 2 =
        some entryAbove.toCBlockIndex ∧ entryAbove.ComesBack none := by
  have hstart : ∀ h p, versionedNode.mapBlockIndex.find h = some p → p.pprev = none ∧
      p.nProtocolVersion = protocolV0_5 ∧ p.withoutStake = p := by
    intro h p hp
    rw [show versionedNode.mapBlockIndex = BlockMap.empty.insert hashGenesisBlockOfficial 0 _ from rfl,
      BlockMap.find_insert] at hp
    rcases Option.or_eq_some_iff.mp hp with hnone | ⟨-, hp⟩
    · cases hnone
    · split at hp
      · cases hp
        exact ⟨rfl, rfl, rfl⟩
      · cases hp
  have hfind : (versionedNode.step noCheckpoints Crypto.sample sentAboveGenesis).mapBlockIndex.find 2 =
      some entryAbove.toCBlockIndex := by decide +kernel
  exact ⟨hfind, diskIndex_law noCheckpoints Crypto.sample versionedNode [sentAboveGenesis] (by decide +kernel) hstart
    _ List.prefix_rfl 2 entryAbove hfind fits_entryAbove none⟩

end Morcochain
