import Morcochain.Serialize
import Morcochain.Lib.Extents

/-!
# Block files

Where the node keeps blocks (`FindBlockPos`, `FlushBlockFile`, `CBlock::WriteToDisk`, `main.cpp`, `main.h`). A block is
written at the running size of the last block file, or it is known to be in a file already, when the node reads its own
files again.

* `length_writeBlock` : a written block has the size of its serialization.
* `stored_storeBlock` : **a block stored at a chosen position** overwrites none of those stored before.
* `stored_knownBlock` : **a block at a known position** is stored there, if it begins at the running size of its file.
-/

set_option autoImplicit false

namespace Morcochain

open OrderedStore Extents

/-! ## Writing blocks -/

/-- Serialize a `CTxIn`. -/
def writeTxIn (txin : CTxIn) : Bytes :=
  writeLE 32 txin.prevout.hash ++ writeLE 4 txin.prevout.n ++ writeBytes txin.scriptSig ++ writeLE 4 txin.nSequence

/-- Serialize a `CTxOut`. -/
def writeTxOut (txout : CTxOut) : Bytes := writeInt 8 txout.nValue ++ writeBytes txout.scriptPubKey

/-- Serialize a `CTransaction`. -/
def writeTransaction (tx : CTransaction) : Bytes :=
  writeInt 4 tx.nVersion ++ writeLE 4 tx.nTime ++ writeVector writeTxIn tx.vin ++ writeVector writeTxOut tx.vout ++
    writeLE 4 tx.nLockTime ++ writeLE 1 tx.cUnit.toNat

/-- Serialize a `CBlockHeader`. -/
def writeHeader (header : CBlockHeader) : Bytes :=
  writeInt 4 header.nVersion ++ writeLE 32 header.hashPrevBlock ++ writeLE 32 header.hashMerkleRoot ++
    writeLE 4 header.nTime ++ writeLE 4 header.nBits ++ writeLE 4 header.nNonce

/-- Serialize a `CBlock`. -/
def writeBlock (block : CBlock) : Bytes :=
  writeHeader block.toCBlockHeader ++ writeVector writeTransaction block.vtx ++ writeBytes block.vchBlockSig

section Sizes

theorem length_writeBytes (b : Bytes) : (writeBytes b).length = bytesSize b := by
  rw [writeBytes, List.length_append, length_writeCompactSize, bytesSize]

theorem length_writeTransaction (tx : CTransaction) : (writeTransaction tx).length = tx.serializeSize := by
  have hin : (writeVector writeTxIn tx.vin).length = vectorSize (tx.vin.map (·.serializeSize)) := by
    refine length_writeVector fun txin _ => ?_
    simp only [writeTxIn, CTxIn.serializeSize, List.length_append, length_writeLE, length_writeBytes]
  have hout : (writeVector writeTxOut tx.vout).length = vectorSize (tx.vout.map (·.serializeSize)) := by
    refine length_writeVector fun txout _ => ?_
    simp only [writeTxOut, CTxOut.serializeSize, List.length_append, writeInt, length_writeLE, length_writeBytes]
  simp only [writeTransaction, CTransaction.serializeSize, List.length_append, writeInt, length_writeLE, hin, hout,
    vectorSize, List.length_map]

/-- A written block has the size of its serialization. -/
theorem length_writeBlock (block : CBlock) : (writeBlock block).length = block.serializeSize := by
  have hvtx : (writeVector writeTransaction block.vtx).length = vectorSize (block.vtx.map (·.serializeSize)) :=
    length_writeVector fun tx _ => length_writeTransaction tx
  simp only [writeBlock, writeHeader, CBlock.serializeSize, List.length_append, writeInt, length_writeLE,
    length_writeBytes, hvtx, vectorSize, List.length_map]

end Sizes

/-! ## The files -/

/-- `CDiskBlockPos`. -/
structure CDiskBlockPos where
  nFile : Nat
  nPos : Nat
deriving DecidableEq, Repr

/-- `CBlockFileInfo`, without the size of the undo file. -/
structure CBlockFileInfo where
  nBlocks : Nat := 0
  nSize : Nat := 0
  nHeightFirst : Nat := 0
  nHeightLast : Nat := 0
  nTimeFirst : Nat := 0
  nTimeLast : Nat := 0
deriving DecidableEq, Repr

/-- `CBlockFileInfo::AddBlock`. -/
def CBlockFileInfo.addBlock (info : CBlockFileInfo) (nHeightIn nTimeIn : Nat) : CBlockFileInfo :=
  let nHeightFirst := if info.nBlocks = 0 ∨ info.nHeightFirst > nHeightIn then nHeightIn else info.nHeightFirst
  { info with
    nBlocks := info.nBlocks + 1
    nHeightFirst := nHeightFirst
    nTimeFirst := if info.nBlocks = 0 ∨ info.nTimeFirst > nTimeIn then nTimeIn else info.nTimeFirst
    nHeightLast := if nHeightIn > nHeightFirst then nHeightIn else info.nHeightLast
    nTimeLast := if nTimeIn > info.nTimeLast then nTimeIn else info.nTimeLast }

def maxBlockfileSize : Nat := 0x8000000
def blockfileChunkSize : Nat := 0x1000000

/-- `pchMessageStart`. -/
def pchMessageStart : Bytes := [0xe6, 0xe8, 0xe9, 0xe5]

/-- The block files, their records in the block tree database, and the positions of the index entries. -/
structure BlockFiles where
  nLastBlockFile : Nat := 0
  infoLastBlockFile : CBlockFileInfo := {}
  fileInfo : Store Nat CBlockFileInfo := .empty
  /-- The contents of the files `blk?????.dat`. -/
  content : Nat → Content UInt8 := fun _ _ => none
  /-- `nFile` and `nDataPos` of the entry of a hash. -/
  position : Uint256 → Option (Nat × Nat) := fun _ => none

namespace BlockFiles

variable (s : BlockFiles)

/-- `ReadBlockFileInfo` into a null info. -/
def readBlockFileInfo (nFile : Nat) : CBlockFileInfo := (s.fileInfo.find? nFile).getD {}

/-- Go on with a file: `nLastBlockFile` and `infoLastBlockFile`. -/
def setLastBlockFile (nFile : Nat) : BlockFiles :=
  { s with nLastBlockFile := nFile, infoLastBlockFile := s.readBlockFileInfo nFile }

/-- Change the content of the last file. -/
def modifyLast (f : Content UInt8 → Content UInt8) : BlockFiles :=
  { s with content := Function.update s.content s.nLastBlockFile (f (s.content s.nLastBlockFile)) }

/-- `FlushBlockFile(true)`: the last file is cut off at its running size. -/
def flushBlockFile : BlockFiles := s.modifyLast (truncate · s.infoLastBlockFile.nSize)

/-- Leave the files without room for `nAddSize` more bytes. The file after the last recorded one has room, so as many
rounds as there are records, and one more, are enough. -/
def leaveFull (nAddSize : Nat) : Nat → BlockFiles → BlockFiles
  | 0, s => s
  | k + 1, s =>
    if s.infoLastBlockFile.nSize + nAddSize ≥ maxBlockfileSize then
      leaveFull nAddSize k (s.flushBlockFile.setLastBlockFile (s.nLastBlockFile + 1))
    else s

/-- Count a block in the last file, and write its record. -/
def count (nAddSize nHeight nTime : Nat) : BlockFiles :=
  let info := { s.infoLastBlockFile with nSize := s.infoLastBlockFile.nSize + nAddSize }.addBlock nHeight nTime
  { s with infoLastBlockFile := info, fileInfo := s.fileInfo.insert s.nLastBlockFile info }

/-- The number of chunks for a size. -/
def chunks (nSize : Nat) : Nat := (nSize + blockfileChunkSize - 1) / blockfileChunkSize

/-- Allocate the chunks that the last file grew into since it had a size. -/
def preallocate (nPos : Nat) : BlockFiles :=
  let nNewChunks := chunks s.infoLastBlockFile.nSize
  if nNewChunks > chunks nPos then s.modifyLast (extend 0 · (nNewChunks * blockfileChunkSize)) else s

/-- `FindBlockPos` for a known position. -/
def findKnownPos (pos : CDiskBlockPos) (nAddSize nHeight nTime : Nat) : BlockFiles :=
  (if s.nLastBlockFile ≠ pos.nFile then s.setLastBlockFile pos.nFile else s).count nAddSize nHeight nTime

/-- `FindBlockPos` for a position that is chosen: the files, and the position. -/
def findBlockPos (nAddSize nHeight nTime : Nat) : BlockFiles × CDiskBlockPos :=
  let s := s.leaveFull nAddSize (s.fileInfo.entries.length + 1)
  ((s.count nAddSize nHeight nTime).preallocate s.infoLastBlockFile.nSize, ⟨s.nLastBlockFile, s.infoLastBlockFile.nSize⟩)

/-- `CBlock::WriteToDisk`: the files, and the position of the block behind the header. -/
def writeToDisk (block : CBlock) (pos : CDiskBlockPos) : BlockFiles × CDiskBlockPos :=
  let header := pchMessageStart ++ writeLE 4 block.serializeSize
  ({ s with
      content := Function.update s.content pos.nFile (writeAt (s.content pos.nFile) pos.nPos (header ++ writeBlock block)) },
    ⟨pos.nFile, pos.nPos + header.length⟩)

/-- The position of the entry of a hash. -/
def setPosition (hash : Uint256) (pos : CDiskBlockPos) : BlockFiles :=
  { s with position := Function.update s.position hash (some (pos.nFile, pos.nPos)) }

/-- Where `AcceptBlock` puts a block: at a known position, or at one that is chosen. -/
def storeBlock (hash : Uint256) (block : CBlock) (nHeight : Nat) (dbp : Option CDiskBlockPos) : BlockFiles :=
  let nAddSize := block.serializeSize + 8
  match dbp with
  | some pos => (s.findKnownPos pos nAddSize nHeight block.nTime).setPosition hash pos
  | none =>
    let r := s.findBlockPos nAddSize nHeight block.nTime
    let w := r.1.writeToDisk block r.2
    w.1.setPosition hash w.2

/-! ## Blocks that are stored -/

/-- The running size of a file, as its record has it. -/
def bound (nFile : Nat) : Nat := (s.readBlockFileInfo nFile).nSize

/-- The blocks are where their entries say, below the running sizes of their files and clear of each other, and the last
file is as its record has it. -/
structure Stored (text : Uint256 → Bytes) : Prop where
  texts : Extents.Stored s.content s.bound s.position text
  synced : s.infoLastBlockFile = s.readBlockFileInfo s.nLastBlockFile

section Keeps

variable {s} {text : Uint256 → Bytes} {nAddSize nHeight nTime nFile : Nat}

theorem Stored.setLastBlockFile (h : s.Stored text) (nFile : Nat) : (s.setLastBlockFile nFile).Stored text :=
  ⟨h.texts, rfl⟩

/-- The last file may change where it keeps what it holds below its running size. -/
theorem Stored.modifyLast (h : s.Stored text) {f : Content UInt8 → Content UInt8}
    (hf : ∀ c n l, n + l.length ≤ s.bound s.nLastBlockFile → Holds c n l → Holds (f c) n l) :
    (s.modifyLast f).Stored text := by
  refine ⟨h.texts.mono (fun _ => Nat.le_refl _) fun g n l hbelow hholds => ?_, h.synced⟩
  by_cases hg : g = s.nLastBlockFile
  · subst hg
    show Holds (Function.update s.content s.nLastBlockFile _ _) n l
    rw [Function.update_self]
    exact hf _ n l hbelow hholds
  · show Holds (Function.update s.content s.nLastBlockFile _ g) n l
    rw [Function.update_of_ne hg]
    exact hholds

theorem Stored.flushBlockFile (h : s.Stored text) : s.flushBlockFile.Stored text :=
  h.modifyLast fun c n l hbelow hholds => hholds.truncate (by rwa [h.synced])

theorem Stored.leaveFull : ∀ {k : Nat} {s : BlockFiles}, s.Stored text → (leaveFull nAddSize k s).Stored text
  | 0, _, h => h
  | k + 1, s, h => by
    rw [BlockFiles.leaveFull]
    split
    · exact Stored.leaveFull (h.flushBlockFile.setLastBlockFile _)
    · exact h

theorem position_leaveFull : ∀ (k : Nat) (s : BlockFiles), (leaveFull nAddSize k s).position = s.position
  | 0, _ => rfl
  | k + 1, s => by
    rw [leaveFull]
    split
    · exact position_leaveFull k _
    · rfl

theorem nSize_addBlock (info : CBlockFileInfo) : (info.addBlock nHeight nTime).nSize = info.nSize := rfl

/-- The running size of the last file grows. -/
theorem bound_count (f : Nat) (hsynced : s.infoLastBlockFile = s.readBlockFileInfo s.nLastBlockFile) :
    (s.count nAddSize nHeight nTime).bound f = s.bound f + if f = s.nLastBlockFile then nAddSize else 0 := by
  unfold bound readBlockFileInfo count
  rw [Store.find?_insert]
  by_cases hf : f = s.nLastBlockFile
  · rw [if_pos hf, if_pos hf, hf, Option.getD_some, nSize_addBlock, hsynced]
    rfl
  · rw [if_neg hf, if_neg hf]
    rfl

theorem synced_count : (s.count nAddSize nHeight nTime).infoLastBlockFile =
    (s.count nAddSize nHeight nTime).readBlockFileInfo (s.count nAddSize nHeight nTime).nLastBlockFile := by
  unfold readBlockFileInfo count
  rw [Store.find?_insert, if_pos rfl]
  rfl

theorem Stored.count (h : s.Stored text) : (s.count nAddSize nHeight nTime).Stored text := by
  refine ⟨h.texts.mono (fun f => ?_) fun _ _ _ _ hholds => hholds, synced_count⟩
  rw [bound_count f h.synced]
  exact Nat.le_add_right _ _

/-- **A block at a known position** is stored where it is, when it begins at the running size of its file, or behind the
header there, and the file holds it. -/
theorem stored_knownBlock (h : s.Stored text) {hash : Uint256} {block : CBlock} {pos : CDiskBlockPos}
    (hnew : s.position hash = none) (hlow : s.bound pos.nFile ≤ pos.nPos) (hhigh : pos.nPos ≤ s.bound pos.nFile + 8)
    (hholds : Holds (s.content pos.nFile) pos.nPos (writeBlock block)) :
    (s.storeBlock hash block nHeight (some pos)).Stored (Function.update text hash (writeBlock block)) := by
  have hlast : ∃ t : BlockFiles, t.Stored text ∧ t.nLastBlockFile = pos.nFile ∧ t.content = s.content ∧
    t.bound = s.bound ∧
      t.position = s.position ∧ s.findKnownPos pos (block.serializeSize + 8) nHeight block.nTime =
        t.count (block.serializeSize + 8) nHeight block.nTime := by
    unfold findKnownPos
    by_cases hfile : s.nLastBlockFile ≠ pos.nFile
    · rw [if_pos hfile]
      exact ⟨_, h.setLastBlockFile _, rfl, rfl, rfl, rfl, rfl⟩
    · rw [if_neg hfile]
      exact ⟨s, h, not_not.mp hfile, rfl, rfl, rfl, rfl⟩
  obtain ⟨t, ht, hfile, hcontent, hbound, hposition, heq⟩ := hlast
  have hcount : ∀ f, (t.count (block.serializeSize + 8) nHeight block.nTime).bound f =
      s.bound f + if f = pos.nFile then block.serializeSize + 8 else 0 := by
    intro f
    rw [bound_count f ht.synced, hbound, hfile]
  have hstore : s.storeBlock hash block nHeight (some pos) =
      (t.count (block.serializeSize + 8) nHeight block.nTime).setPosition hash pos := by rw [← heq]; rfl
  rw [hstore]
  refine ⟨?_, synced_count⟩
  refine ht.texts.adopt (hposition ▸ hnew) (hcontent ▸ hholds) (hbound ▸ hlow) (fun g => ?_) ?_
  · show _ ≤ (t.count _ _ _).bound g
    rw [hcount, hbound]
    exact Nat.le_add_right _ _
  · show _ ≤ (t.count _ _ _).bound pos.nFile
    rw [hcount, if_pos rfl, length_writeBlock]
    omega

/-- Allocating chunks extends the last file, or changes nothing. -/
theorem preallocate_cases (s : BlockFiles) (nPos : Nat) :
    (∃ size, s.preallocate nPos = s.modifyLast (extend 0 · size)) ∨ s.preallocate nPos = s := by
  by_cases h : chunks s.infoLastBlockFile.nSize > chunks nPos
  · exact .inl ⟨_, if_pos h⟩
  · exact .inr (if_neg h)

/-- Allocating chunks changes contents only, and the files hold what they held. -/
theorem preallocate_eq (s : BlockFiles) (nPos : Nat) :
    ∃ content, s.preallocate nPos = { s with content := content } ∧
      ∀ f n l, Holds (s.content f) n l → Holds (content f) n l := by
  rcases preallocate_cases s nPos with ⟨size, heq⟩ | heq
  · refine ⟨_, heq, fun f n l hholds => ?_⟩
    by_cases hf : f = s.nLastBlockFile
    · subst hf
      rw [Function.update_self]
      exact hholds.extend
    · rw [Function.update_of_ne hf]
      exact hholds
  · exact ⟨s.content, heq, fun _ _ _ hholds => hholds⟩

/-- The header in front of a block has 8 bytes. -/
theorem length_header (block : CBlock) : (pchMessageStart ++ writeLE 4 block.serializeSize).length = 8 := by
  rw [List.length_append, length_writeLE]
  rfl

/-- A block is stored where it is written, from the size on that its file had before it was counted. -/
theorem stored_writeToDisk (u : BlockFiles) (bound : Nat → Nat) {hash : Uint256} {block : CBlock}
    (htexts : Extents.Stored u.content bound u.position text)
    (hsynced : u.infoLastBlockFile = u.readBlockFileInfo u.nLastBlockFile) (hnew : u.position hash = none) (nFile : Nat)
    (hbound : ∀ g, bound g ≤ u.bound g) (hroom : bound nFile + 8 + block.serializeSize ≤ u.bound nFile) :
    ((u.writeToDisk block ⟨nFile, bound nFile⟩).1.setPosition hash
      (u.writeToDisk block ⟨nFile, bound nFile⟩).2).Stored (Function.update text hash (writeBlock block)) := by
  refine ⟨?_, hsynced⟩
  refine htexts.append nFile (pchMessageStart ++ writeLE 4 block.serializeSize) (writeBlock block) hnew hbound ?_
  rw [length_header, length_writeBlock]
  exact hroom

/-- **A block stored at a chosen position** is stored there, and overwrites none of those stored before. -/
theorem stored_storeBlock (h : s.Stored text) {hash : Uint256} {block : CBlock} (hnew : s.position hash = none) :
    (s.storeBlock hash block nHeight none).Stored (Function.update text hash (writeBlock block)) := by
  simp only [storeBlock, findBlockPos]
  have hleft : (leaveFull (block.serializeSize + 8) (s.fileInfo.entries.length + 1) s).Stored text := h.leaveFull
  have hposition : (leaveFull (block.serializeSize + 8) (s.fileInfo.entries.length + 1) s).position = s.position :=
    position_leaveFull _ s
  generalize leaveFull (block.serializeSize + 8) (s.fileInfo.entries.length + 1) s = t at hleft hposition ⊢
  have hsize : t.infoLastBlockFile.nSize = t.bound t.nLastBlockFile := congrArg (·.nSize) hleft.synced
  have hbound : ∀ f, (t.count (block.serializeSize + 8) nHeight block.nTime).bound f =
      t.bound f + if f = t.nLastBlockFile then block.serializeSize + 8 else 0 := fun f => bound_count f hleft.synced
  have hsynced : (t.count (block.serializeSize + 8) nHeight block.nTime).infoLastBlockFile =
      (t.count (block.serializeSize + 8) nHeight block.nTime).readBlockFileInfo t.nLastBlockFile := synced_count
  obtain ⟨content, hpre, hkept⟩ :=
    preallocate_eq (t.count (block.serializeSize + 8) nHeight block.nTime) t.infoLastBlockFile.nSize
  rw [hpre, hsize]
  refine stored_writeToDisk { t.count (block.serializeSize + 8) nHeight block.nTime with content := content } t.bound
    (hleft.texts.mono (fun _ => Nat.le_refl _) fun f n l _ hholds => hkept f n l hholds) hsynced (hposition ▸ hnew)
    t.nLastBlockFile (fun g => ?_) ?_
  · exact (Nat.le_add_right _ _).trans_eq (hbound g).symm
  · refine Nat.le_trans ?_ (Nat.le_of_eq (hbound _).symm)
    rw [if_pos rfl]
    omega

theorem position_preallocate (s : BlockFiles) (nPos : Nat) : (s.preallocate nPos).position = s.position := by
  obtain ⟨content, hpre, -⟩ := preallocate_eq s nPos
  rw [hpre]

theorem position_findBlockPos (s : BlockFiles) : (s.findBlockPos nAddSize nHeight nTime).1.position = s.position := by
  simp only [findBlockPos]
  rw [position_preallocate]
  exact position_leaveFull _ s

theorem position_findKnownPos (s : BlockFiles) (pos : CDiskBlockPos) :
    (s.findKnownPos pos nAddSize nHeight nTime).position = s.position := by
  unfold findKnownPos
  split
  · rfl
  · rfl

/-- A hash has a position from then on. -/
theorem position_setPosition (t : BlockFiles) (hash : Uint256) (pos : CDiskBlockPos) (x : Uint256) :
    ((t.setPosition hash pos).position x).isSome = (decide (x = hash) || (t.position x).isSome) := by
  show (Function.update t.position hash _ x).isSome = _
  rw [Function.update_apply]
  by_cases hx : x = hash
  · rw [if_pos hx, decide_eq_true hx]
    rfl
  · rw [if_neg hx, decide_eq_false hx, Bool.false_or]

theorem position_writeToDisk (t : BlockFiles) (block : CBlock) (pos : CDiskBlockPos) :
    (t.writeToDisk block pos).1.position = t.position := rfl

theorem storeBlock_some (s : BlockFiles) (hash : Uint256) (block : CBlock) (pos : CDiskBlockPos) :
    s.storeBlock hash block nHeight (some pos) =
      (s.findKnownPos pos (block.serializeSize + 8) nHeight block.nTime).setPosition hash pos := rfl

theorem storeBlock_none (s : BlockFiles) (hash : Uint256) (block : CBlock) :
    s.storeBlock hash block nHeight none =
      ((s.findBlockPos (block.serializeSize + 8) nHeight block.nTime).1.writeToDisk block
        (s.findBlockPos (block.serializeSize + 8) nHeight block.nTime).2).1.setPosition hash
          ((s.findBlockPos (block.serializeSize + 8) nHeight block.nTime).1.writeToDisk block
            (s.findBlockPos (block.serializeSize + 8) nHeight block.nTime).2).2 := rfl

/-- The hashes that have a position once a block was stored. -/
theorem position_storeBlock (s : BlockFiles) (hash : Uint256) (block : CBlock) (dbp : Option CDiskBlockPos)
    (x : Uint256) :
    ((s.storeBlock hash block nHeight dbp).position x).isSome = (decide (x = hash) || (s.position x).isSome) := by
  cases dbp with
  | some pos => rw [storeBlock_some, position_setPosition, position_findKnownPos]
  | none => rw [storeBlock_none, position_setPosition, position_writeToDisk, position_findBlockPos]

end Keeps

end BlockFiles

end Morcochain
