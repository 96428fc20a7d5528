import Morcochain.MerkleTree
import Morcochain.Serialize

/-!
# Partial Merkle trees

`CPartialMerkleTree` (`main.h`, `main.cpp`) carries some transaction ids of a block and the nodes that are needed to
compute the Merkle root from them. One recursion over the tree writes flags and hashes, another one reads them.

* `traverseAndBuild_eq`, `traverseAndExtract_pruned` : the flags and hashes are those of a pruned tree, and are read in
  the order in which they were written.
* `reads_partialMerkleTree` : the serialization fills the flags up to whole bytes.
* `traverseAndExtract_sound` : **where the hash of a node is right, so are the ids below it.**
* `partialMerkleTree_law` : **the ids that were selected come out with the root, and no other ids come out with it.**
-/

set_option autoImplicit false

namespace Morcochain

open Codec HashTree

/-! ## The functions -/

/-- `CPartialMerkleTree`. -/
structure CPartialMerkleTree where
  nTransactions : Nat := 0
  vBits : List Bool := []
  vHash : List Uint256 := []
  fBad : Bool := true
deriving DecidableEq, Repr

/-- How far an extraction has come. -/
structure Extraction where
  nBitsUsed : Nat := 0
  nHashUsed : Nat := 0
  vMatch : List Uint256 := []
  fBad : Bool
deriving DecidableEq, Repr

namespace CPartialMerkleTree

variable (cr : Crypto) (t : CPartialMerkleTree) (vTxid : List Uint256) (vMatch : List Bool)

/-- `CalcTreeWidth`. -/
def calcTreeWidth (height : Nat) : Nat := ((t.nTransactions + 2 ^ height - 1) % 2 ^ 32) >>> height

/-- The loop for the height of the tree. -/
def heightFrom : Nat → Nat → Nat
  | 0, nHeight => nHeight
  | fuel + 1, nHeight => if t.calcTreeWidth nHeight > 1 then heightFrom fuel (nHeight + 1) else nHeight

/-- The height of the tree. At height 31 the width is at most 1. -/
def treeHeight : Nat := t.heightFrom 32 0

/-- `CalcHash`. -/
def calcHash : Nat → Nat → Uint256
  | 0, pos => vTxid.getD pos 0
  | height + 1, pos =>
    let left := calcHash height (pos * 2)
    let right := if pos * 2 + 1 < t.calcTreeWidth height then calcHash height (pos * 2 + 1) else left
    cr.hashPair left right

/-- The test of `TraverseAndBuild` for a node. -/
def parentOfMatch (height pos : Nat) : Bool :=
  (List.range' (pos <<< height) (min ((pos + 1) <<< height) t.nTransactions - pos <<< height)).any (vMatch.getD · false)

/-- `TraverseAndBuild`. -/
def traverseAndBuild : Nat → Nat → CPartialMerkleTree → CPartialMerkleTree
  | 0, pos, t =>
    let t := { t with vBits := t.vBits ++ [t.parentOfMatch vMatch 0 pos] }
    { t with vHash := t.vHash ++ [t.calcHash cr vTxid 0 pos] }
  | height + 1, pos, t =>
    let fParentOfMatch := t.parentOfMatch vMatch (height + 1) pos
    let t := { t with vBits := t.vBits ++ [fParentOfMatch] }
    if fParentOfMatch then
      let t := traverseAndBuild height (pos * 2) t
      if pos * 2 + 1 < t.calcTreeWidth height then traverseAndBuild height (pos * 2 + 1) t else t
    else { t with vHash := t.vHash ++ [t.calcHash cr vTxid (height + 1) pos] }

/-- The constructor, from ids and a mask. -/
def build : CPartialMerkleTree :=
  let t : CPartialMerkleTree := { nTransactions := vTxid.length % 2 ^ 32, fBad := false }
  traverseAndBuild cr vTxid vMatch t.treeHeight 0 t

/-- `TraverseAndExtract` at a node that is not descended: a stored hash is used. -/
def useHash (fMatched : Bool) (s : Extraction) : Extraction × Uint256 :=
  match t.vHash[s.nHashUsed]? with
  | none => ({ s with fBad := true }, 0)
  | some hash =>
    ({ s with nHashUsed := s.nHashUsed + 1, vMatch := if fMatched then s.vMatch ++ [hash] else s.vMatch }, hash)

/-- `TraverseAndExtract`. -/
def traverseAndExtract : Nat → Nat → Extraction → Extraction × Uint256
  | 0, _, s =>
    match t.vBits[s.nBitsUsed]? with
    | none => ({ s with fBad := true }, 0)
    | some fParentOfMatch => t.useHash fParentOfMatch { s with nBitsUsed := s.nBitsUsed + 1 }
  | height + 1, pos, s =>
    match t.vBits[s.nBitsUsed]? with
    | none => ({ s with fBad := true }, 0)
    | some fParentOfMatch =>
      let s := { s with nBitsUsed := s.nBitsUsed + 1 }
      if fParentOfMatch then
        let (s, left) := traverseAndExtract height (pos * 2) s
        let (s, right) := if pos * 2 + 1 < t.calcTreeWidth height then traverseAndExtract height (pos * 2 + 1) s
          else (s, left)
        (s, cr.hashPair left right)
      else t.useHash false s

/-- `ExtractMatches`: the tree afterwards, the root or 0, and the matches. -/
def extractMatches : CPartialMerkleTree × Uint256 × List Uint256 :=
  if t.nTransactions = 0 then (t, 0, [])
  else if t.nTransactions > maxBlockSize / 60 then (t, 0, [])
  else if t.vHash.length > t.nTransactions then (t, 0, [])
  else if t.vBits.length < t.vHash.length then (t, 0, [])
  else
    let (s, hashMerkleRoot) := t.traverseAndExtract cr t.treeHeight 0 { fBad := t.fBad }
    let t := { t with fBad := s.fBad }
    if t.fBad then (t, 0, s.vMatch)
    else if (s.nBitsUsed + 7) / 8 ≠ (t.vBits.length + 7) / 8 then (t, 0, s.vMatch)
    else if s.nHashUsed ≠ t.vHash.length then (t, 0, s.vMatch)
    else (t, hashMerkleRoot, s.vMatch)

/-- The bytes of the flags. -/
def packBits (vBits : List Bool) : Bytes :=
  vBits.zipIdx.foldl (fun vBytes b => vBytes.modify (b.2 / 8) (· ||| (if b.1 then 1 else 0) <<< UInt8.ofNat (b.2 % 8)))
    (List.replicate ((vBits.length + 7) / 8) 0)

/-- A flag in bytes. -/
def flagAt (vBytes : Bytes) (p : Nat) : Bool := vBytes.getD (p / 8) 0 &&& (1 <<< UInt8.ofNat (p % 8)) ≠ 0

/-- The flags of the bytes. -/
def unpackBits (vBytes : Bytes) : List Bool := (List.range (vBytes.length * 8)).map (flagAt vBytes)

/-- Serialize a tree. -/
def write : Bytes :=
  writeLE 4 t.nTransactions ++ writeVector (writeLE 32) t.vHash ++ writeBytes (packBits t.vBits)

/-- Unserialize a tree. -/
def read : Reader CPartialMerkleTree := do
  let nTransactions ← readUInt 4
  let vHash ← readVector (readUInt 32)
  let vBytes ← readByteString
  return { nTransactions, vHash, vBits := unpackBits vBytes, fBad := false }

end CPartialMerkleTree

/-! ## Flags in bytes -/

namespace CPartialMerkleTree

/-- A flag that is set in a byte. -/
theorem flag_or (x : UInt8) (b : Bool) {r s : Nat} (hr : r < 8) (hs : s < 8) :
    (x ||| (if b then 1 else 0) <<< UInt8.ofNat r) &&& (1 <<< UInt8.ofNat s) ≠ 0 ↔
      x &&& (1 <<< UInt8.ofNat s) ≠ 0 ∨ b = true ∧ r = s := by
  have hbit : ∀ b : Bool, ∀ r < 8, ∀ s < 8,
      (if b then (1 : UInt8) else 0) <<< UInt8.ofNat r &&& (1 <<< UInt8.ofNat s) ≠ 0 ↔ b = true ∧ r = s := by
    decide +kernel
  have hdistrib : ∀ y z : UInt8, (x ||| y) &&& z = (x &&& z) ||| (y &&& z) := fun y z =>
    UInt8.toBitVec_inj.mp BitVec.and_or_distrib_right
  rw [hdistrib, ne_eq, UInt8.or_eq_zero_iff, not_and_or, ← ne_eq, ← ne_eq, hbit b r hr s hs]

/-- Setting one flag changes no other one. -/
theorem flagAt_set (vBytes : Bytes) (b : Bool) {i : Nat} (hi : i / 8 < vBytes.length) (p : Nat) :
    flagAt (vBytes.modify (i / 8) (· ||| (if b then 1 else 0) <<< UInt8.ofNat (i % 8))) p =
      (flagAt vBytes p || (b && decide (i = p))) := by
  rw [Bool.eq_iff_iff, Bool.or_eq_true, Bool.and_eq_true, decide_eq_true_eq]
  unfold flagAt
  rw [decide_eq_true_eq, decide_eq_true_eq, List.getD_eq_getElem?_getD, List.getD_eq_getElem?_getD,
    List.getElem?_modify]
  by_cases hbyte : i / 8 = p / 8
  · simp only [if_pos hbyte]
    rw [← hbyte, List.getElem?_eq_getElem hi, Option.map_eq_map, Option.map_some, Option.getD_some, Option.getD_some,
      flag_or _ b (Nat.mod_lt _ (by decide)) (Nat.mod_lt _ (by decide))]
    have hsame : i % 8 = p % 8 ↔ i = p := by omega
    rw [hsame]
  · have hne : i ≠ p := fun h => hbyte (by rw [h])
    simp only [if_neg hbyte]
    rw [id_map', or_iff_left (fun h => hne h.2)]

/-- **The bytes hold the flags**, and none behind them. -/
theorem flagAt_packBits (vBits : List Bool) (p : Nat) : flagAt (packBits vBits) p = vBits.getD p false := by
  have hfold : ∀ (l : List (Bool × Nat)) (vBytes : Bytes), (∀ b ∈ l, b.2 / 8 < vBytes.length) →
      flagAt (l.foldl (fun vBytes b =>
        vBytes.modify (b.2 / 8) (· ||| (if b.1 then 1 else 0) <<< UInt8.ofNat (b.2 % 8))) vBytes) p =
        (flagAt vBytes p || l.any fun b => b.1 && decide (b.2 = p)) := by
    intro l
    induction l with
    | nil => exact fun vBytes _ => (Bool.or_false _).symm
    | cons b l ih =>
      intro vBytes hl
      rw [List.foldl_cons, ih _ (fun c hc => by rw [List.length_modify]; exact hl c (List.mem_cons_of_mem _ hc)),
        flagAt_set _ _ (hl b List.mem_cons_self), List.any_cons, Bool.or_assoc]
  have hinside : ∀ b ∈ vBits.zipIdx, b.2 / 8 < (List.replicate ((vBits.length + 7) / 8) (0 : UInt8)).length := by
    intro b hb
    have hlt := List.snd_lt_of_mem_zipIdx hb
    rw [List.length_replicate]
    omega
  have hzero : flagAt (List.replicate ((vBits.length + 7) / 8) 0) p = false := by
    have hbyte : (List.replicate ((vBits.length + 7) / 8) (0 : UInt8)).getD (p / 8) 0 = 0 := by
      rw [List.getD_eq_getElem?_getD, List.getElem?_replicate]
      split <;> rfl
    rw [flagAt, hbyte, UInt8.zero_and]
    rfl
  rw [packBits, hfold _ _ hinside, hzero, Bool.false_or, Bool.eq_iff_iff, List.any_eq_true, List.getD_eq_getElem?_getD]
  constructor
  · rintro ⟨⟨b, i⟩, hmem, hb⟩
    rw [List.mem_zipIdx_iff_getElem?] at hmem
    rw [Bool.and_eq_true, decide_eq_true_eq] at hb
    rw [← hb.2, hmem, ← hb.1]
    rfl
  · intro hflag
    cases hget : vBits[p]? with
    | none =>
      rw [hget] at hflag
      cases hflag
    | some b =>
      rw [hget, Option.getD_some] at hflag
      exact ⟨(b, p), List.mem_zipIdx_iff_getElem?.mpr hget, by rw [hflag, decide_eq_true rfl]; rfl⟩

theorem length_packBits (vBits : List Bool) : (packBits vBits).length = (vBits.length + 7) / 8 := by
  have hfold : ∀ (l : List (Bool × Nat)) (vBytes : Bytes), (l.foldl (fun vBytes b =>
      vBytes.modify (b.2 / 8) (· ||| (if b.1 then 1 else 0) <<< UInt8.ofNat (b.2 % 8))) vBytes).length =
        vBytes.length := by
    intro l
    induction l with
    | nil => exact fun _ => rfl
    | cons b l ih => exact fun vBytes => (ih _).trans (List.length_modify _ _ _)
  rw [packBits, hfold, List.length_replicate]

/-- **The flags are read back**, filled up to whole bytes. -/
theorem unpackBits_packBits (vBits : List Bool) : unpackBits (packBits vBits) =
    vBits ++ List.replicate ((vBits.length + 7) / 8 * 8 - vBits.length) false := by
  apply List.ext_getElem
  · rw [unpackBits, List.length_map, List.length_range, length_packBits, List.length_append, List.length_replicate]
    omega
  · intro p hp hp'
    simp only [unpackBits, List.getElem_map, List.getElem_range]
    rw [flagAt_packBits, List.getD_eq_getElem?_getD, List.getElem_append]
    split
    · rename_i hlt
      rw [List.getElem?_eq_getElem hlt, Option.getD_some]
    · rename_i hle
      rw [List.getElem?_eq_none (Nat.not_lt.mp hle), List.getElem_replicate, Option.getD_none]

/-! ## The shape of the tree -/

section Shape

variable {t : CPartialMerkleTree}

/-- No width overflows for as many transactions as a block can have. -/
theorem calcTreeWidth_eq (hn : t.nTransactions ≤ 2 ^ 31) {height : Nat} (hh : height ≤ 31) :
    t.calcTreeWidth height = width t.nTransactions height := by
  have hle : 2 ^ height ≤ 2 ^ 31 := Nat.pow_le_pow_right (by decide) hh
  have hpos : 0 < 2 ^ height := Nat.two_pow_pos height
  rw [calcTreeWidth, width, Nat.shiftRight_eq_div_pow, Nat.mod_eq_of_lt (by omega)]

/-- The loop for the height stops at the first height with at most one node. -/
theorem heightFrom_spec (hn : t.nTransactions ≤ 2 ^ 31) : ∀ (fuel nHeight : Nat), fuel + nHeight = 32 → nHeight ≤ 31 →
    (∀ k < nHeight, 1 < width t.nTransactions k) → t.heightFrom fuel nHeight ≤ 31 ∧
      width t.nTransactions (t.heightFrom fuel nHeight) ≤ 1 ∧ ∀ k < t.heightFrom fuel nHeight,
        1 < width t.nTransactions k
  | 0, nHeight, hsum, hle, _ => by omega
  | fuel + 1, nHeight, hsum, hle, hbelow => by
    rw [heightFrom, calcTreeWidth_eq hn hle]
    split
    · rename_i hwide
      have hlt : nHeight ≠ 31 := by
        rintro rfl
        exact absurd hwide (Nat.not_lt.mpr (width_le_one.mpr hn))
      refine heightFrom_spec hn fuel (nHeight + 1) (by omega) (by omega) fun k hk => ?_
      rcases Nat.lt_succ_iff_lt_or_eq.mp hk with hk | rfl
      · exact hbelow k hk
      · exact hwide
    · rename_i hnarrow
      exact ⟨hle, Nat.not_lt.mp hnarrow, hbelow⟩

theorem treeHeight_spec (hn : t.nTransactions ≤ 2 ^ 31) : t.treeHeight ≤ 31 ∧
    width t.nTransactions t.treeHeight ≤ 1 ∧ ∀ k < t.treeHeight, 1 < width t.nTransactions k :=
  heightFrom_spec hn 32 0 rfl (by decide) fun _ hk => absurd hk (Nat.not_lt_zero _)

/-- The height depends on the number of transactions only. -/
theorem treeHeight_congr {t' : CPartialMerkleTree} (h : t'.nTransactions = t.nTransactions) :
    t'.treeHeight = t.treeHeight := by
  have hfrom : ∀ fuel nHeight, t'.heightFrom fuel nHeight = t.heightFrom fuel nHeight := by
    intro fuel
    induction fuel with
    | zero => exact fun _ => rfl
    | succ fuel ih =>
      intro nHeight
      rw [heightFrom, heightFrom, ih, calcTreeWidth, calcTreeWidth, h]
  exact hfrom 32 0

variable (cr : Crypto) (vTxid : List Uint256) (vMatch : List Bool)

/-- A hash that is computed is the node of the tree over the ids. -/
theorem calcHash_eq (hn : t.nTransactions ≤ 2 ^ 31) : ∀ {height : Nat}, height ≤ 31 → ∀ pos : Nat,
    t.calcHash cr vTxid height pos = node cr.hashPair (vTxid.getD · 0) t.nTransactions height pos
  | 0, _, _ => rfl
  | height + 1, hh, pos => by
    rw [calcHash, node, calcTreeWidth_eq hn (Nat.le_of_succ_le hh), Nat.mul_comm pos 2,
      calcHash_eq hn (Nat.le_of_succ_le hh), calcHash_eq hn (Nat.le_of_succ_le hh)]

theorem parentOfMatch_eq (height pos : Nat) :
    t.parentOfMatch vMatch height pos = (places t.nTransactions height pos).any (vMatch.getD · false) := by
  rw [parentOfMatch, places, Nat.shiftLeft_eq, Nat.shiftLeft_eq]

/-- **What is written**: the flags and hashes of the pruned tree. -/
theorem traverseAndBuild_eq {n : Nat} (hn : n ≤ 2 ^ 31) : ∀ {height : Nat}, height ≤ 31 → ∀ (pos : Nat)
    (t : CPartialMerkleTree), t.nTransactions = n → traverseAndBuild cr vTxid vMatch height pos t = { t with
      vBits := t.vBits ++ prunedFlags (vMatch.getD · false) n height pos
      vHash := t.vHash ++ prunedHashes cr.hashPair (vTxid.getD · 0) (vMatch.getD · false) n height pos }
  | 0, _, pos, t, rfl => by
    rw [traverseAndBuild, parentOfMatch_eq, prunedFlags, prunedHashes]
    rfl
  | height + 1, hh, pos, t, rfl => by
    have hle := Nat.le_of_succ_le hh
    have ih := fun (pos : Nat) (t' : CPartialMerkleTree) (h : t'.nTransactions = t.nTransactions) =>
      traverseAndBuild_eq hn hle pos t' h
    have hwidth : ∀ t' : CPartialMerkleTree, t'.nTransactions = t.nTransactions →
        t'.calcTreeWidth height = width t.nTransactions height := fun t' h => by rw [calcTreeWidth_eq (h ▸ hn) hle, h]
    have hhash : ∀ t' : CPartialMerkleTree, t'.nTransactions = t.nTransactions → t'.calcHash cr vTxid (height + 1) pos =
        node cr.hashPair (vTxid.getD · 0) t.nTransactions (height + 1) pos := fun t' h => by
      rw [calcHash_eq cr vTxid (h ▸ hn) hh, h]
    rw [traverseAndBuild, parentOfMatch_eq, prunedFlags, prunedHashes]
    dsimp only
    split
    · simp only [ih, hwidth, Nat.mul_comm pos 2]
      split
      · simp only [List.append_assoc, List.cons_append, List.nil_append]
      · simp only [List.append_assoc, List.cons_append, List.nil_append, List.append_nil]
    · simp only [hhash]

end Shape

/-! ## Extraction -/

section Extract

variable {t : CPartialMerkleTree} (cr : Crypto)

/-- The next entry of a list of which a part is read. -/
theorem getElem?_of_drop {α : Type} {l rest : List α} {k : Nat} {a : α} (h : l.drop k = a :: rest) :
    l[k]? = some a := by
  rw [← Nat.add_zero k, ← List.getElem?_drop, h]
  rfl

theorem drop_of_cons {α : Type} {l rest : List α} {k : Nat} {a : α} (h : l.drop k = a :: rest) :
    l.drop (k + 1) = rest := by
  rw [← List.drop_drop, h, List.drop_succ_cons, List.drop_zero]

/-- What is left after a part was read. -/
theorem drop_of_append {α : Type} {l part rest : List α} {k : Nat} (h : l.drop k = part ++ rest) :
    l.drop (k + part.length) = rest := by rw [← List.drop_drop, h, List.drop_left]

/-- A node that is descended. -/
theorem traverseAndExtract_descend {height pos : Nat} {s : Extraction} (h : t.vBits[s.nBitsUsed]? = some true) :
    t.traverseAndExtract cr (height + 1) pos s =
      let left := t.traverseAndExtract cr height (pos * 2) { s with nBitsUsed := s.nBitsUsed + 1 }
      if pos * 2 + 1 < t.calcTreeWidth height then
        let right := t.traverseAndExtract cr height (pos * 2 + 1) left.1
        (right.1, cr.hashPair left.2 right.2)
      else (left.1, cr.hashPair left.2 left.2) := by
  rw [traverseAndExtract, h]
  dsimp only
  rw [if_pos rfl]
  split <;> rfl

/-- A node that is not descended. -/
theorem traverseAndExtract_stop {height pos : Nat} {s : Extraction} (h : t.vBits[s.nBitsUsed]? = some false) :
    t.traverseAndExtract cr (height + 1) pos s = t.useHash false { s with nBitsUsed := s.nBitsUsed + 1 } := by
  rw [traverseAndExtract, h]
  rfl

/-- No flag is left. -/
theorem traverseAndExtract_none {height pos : Nat} {s : Extraction} (h : t.vBits[s.nBitsUsed]? = none) :
    t.traverseAndExtract cr height pos s = ({ s with fBad := true }, 0) := by
  cases height with
  | zero => rw [traverseAndExtract, h]
  | succ height => rw [traverseAndExtract, h]

variable (leaf : Nat → Uint256) (mask : Nat → Bool)

/-- **Flags and hashes are read in the order in which they were written**, for the hash of the node and the leaves of
interest below it. -/
theorem traverseAndExtract_pruned (hn : t.nTransactions ≤ 2 ^ 31) : ∀ {height : Nat}, height ≤ 31 → ∀ {pos : Nat},
    pos < width t.nTransactions height → ∀ (s : Extraction) (restBits : List Bool) (restHash : List Uint256),
    t.vBits.drop s.nBitsUsed = prunedFlags mask t.nTransactions height pos ++ restBits →
    t.vHash.drop s.nHashUsed = prunedHashes cr.hashPair leaf mask t.nTransactions height pos ++ restHash →
    t.traverseAndExtract cr height pos s = ({ s with
      nBitsUsed := s.nBitsUsed + (prunedFlags mask t.nTransactions height pos).length
      nHashUsed := s.nHashUsed + (prunedHashes cr.hashPair leaf mask t.nTransactions height pos).length
      vMatch := s.vMatch ++ marked leaf mask t.nTransactions height pos },
      node cr.hashPair leaf t.nTransactions height pos)
  | 0, _, pos, hpos, s, restBits, restHash, hbits, hhash => by
    have hplaces : places t.nTransactions 0 pos = [pos] := places_zero (by rwa [width_zero] at hpos)
    rw [prunedFlags, hplaces, List.singleton_append] at hbits
    rw [prunedHashes, List.singleton_append] at hhash
    rw [traverseAndExtract, getElem?_of_drop hbits, marked, hplaces, prunedFlags, prunedHashes]
    simp only [useHash, getElem?_of_drop hhash, List.any_cons, List.any_nil, Bool.or_false, List.filter_cons,
      List.filter_nil, List.length_singleton]
    cases mask pos with
    | true => rfl
    | false => simp
  | height + 1, hh, pos, hpos, s, restBits, restHash, hbits, hhash => by
    have hle := Nat.le_of_succ_le hh
    have hchild : 2 * pos < width t.nTransactions height := by
      rw [width_succ] at hpos
      omega
    rw [prunedFlags, List.cons_append] at hbits
    rw [prunedHashes] at hhash
    rw [prunedFlags, prunedHashes, node, List.length_cons]
    have hflag := getElem?_of_drop hbits
    have hbits₁ := drop_of_cons hbits
    cases hany : (places t.nTransactions (height + 1) pos).any mask with
    | false =>
      rw [hany] at hflag hhash
      rw [if_neg Bool.false_ne_true, List.singleton_append] at hhash
      rw [traverseAndExtract_stop cr hflag, useHash, getElem?_of_drop hhash,
        marked_of_not_any leaf mask t.nTransactions hany,
        List.append_nil]
      rfl
    | true =>
      rw [hany] at hflag hhash hbits₁
      rw [if_pos rfl, List.append_assoc] at hhash hbits₁
      have hleft := traverseAndExtract_pruned hn hle hchild { s with nBitsUsed := s.nBitsUsed + 1 } _ _ hbits₁ hhash
      have hbits₂ := drop_of_append hbits₁
      have hhash₂ := drop_of_append hhash
      rw [traverseAndExtract_descend cr hflag, marked_succ, calcTreeWidth_eq hn hle, Nat.mul_comm pos 2, hleft]
      simp only [if_true]
      split
      · rename_i hsibling
        rw [if_pos hsibling] at hbits₂ hhash₂
        rw [traverseAndExtract_pruned hn hle hsibling _ restBits restHash hbits₂ hhash₂]
        simp only [List.length_append, List.append_assoc, Nat.add_assoc, Nat.add_comm 1]
      · simp only [List.append_nil, Nat.add_assoc, Nat.add_comm 1]

/-- What was bad stays bad. -/
theorem useHash_fBad {fMatched : Bool} {s : Extraction} (h : (t.useHash fMatched s).1.fBad = false) :
    s.fBad = false := by
  unfold useHash at h
  split at h
  · cases h
  · exact h

theorem traverseAndExtract_fBad : ∀ {height pos : Nat} {s : Extraction},
    (t.traverseAndExtract cr height pos s).1.fBad = false → s.fBad = false
  | 0, _, s, h => by
    rw [traverseAndExtract] at h
    split at h
    · cases h
    · exact (useHash_fBad h : ({ s with nBitsUsed := s.nBitsUsed + 1 } : Extraction).fBad = false)
  | height + 1, pos, s, h => by
    cases hflag : t.vBits[s.nBitsUsed]? with
    | none =>
      rw [traverseAndExtract_none cr hflag] at h
      cases h
    | some fParentOfMatch =>
      cases fParentOfMatch with
      | false =>
        rw [traverseAndExtract_stop cr hflag] at h
        exact (useHash_fBad h : ({ s with nBitsUsed := s.nBitsUsed + 1 } : Extraction).fBad = false)
      | true =>
        rw [traverseAndExtract_descend cr hflag] at h
        dsimp only at h
        have hleft : (t.traverseAndExtract cr height (pos * 2) { s with nBitsUsed := s.nBitsUsed + 1 }).1.fBad =
          false := by
          split at h
          · exact traverseAndExtract_fBad h
          · exact h
        exact (traverseAndExtract_fBad hleft : ({ s with nBitsUsed := s.nBitsUsed + 1 } : Extraction).fBad = false)

/-- **Where the hash of a node is right, so are the ids below it**, if no two pairs have the same hash. -/
theorem traverseAndExtract_sound (hn : t.nTransactions ≤ 2 ^ 31) (hinj : Function.Injective2 cr.hashPair) :
    ∀ {height : Nat}, height ≤ 31 → ∀ {pos : Nat}, pos < width t.nTransactions height → ∀ {s : Extraction},
    (t.traverseAndExtract cr height pos s).1.fBad = false →
    (t.traverseAndExtract cr height pos s).2 = node cr.hashPair leaf t.nTransactions height pos →
    ∀ id ∈ (t.traverseAndExtract cr height pos s).1.vMatch, id ∈ s.vMatch ∨ ∃ p < t.nTransactions, leaf p = id
  | 0, _, pos, hpos, s, hbad, hroot => by
    intro id hid
    cases hflag : t.vBits[s.nBitsUsed]? with
    | none =>
      rw [traverseAndExtract_none cr hflag] at hbad
      cases hbad
    | some fParentOfMatch =>
      rw [traverseAndExtract, hflag] at hbad hroot hid
      dsimp only [useHash] at hbad hroot hid
      split at hbad
      · cases hbad
      · rename_i hash hhash
        rw [hhash] at hid hroot
        dsimp only at hid hroot
        split at hid
        · rcases List.mem_append.mp hid with hid | hid
          · exact .inl hid
          · rw [width_zero] at hpos
            exact .inr ⟨pos, hpos, hroot.symm.trans (List.mem_singleton.mp hid).symm⟩
        · exact .inl hid
  | height + 1, hh, pos, hpos, s, hbad, hroot => by
    have hle := Nat.le_of_succ_le hh
    have hchild : 2 * pos < width t.nTransactions height := by
      rw [width_succ] at hpos
      omega
    intro id hid
    cases hflag : t.vBits[s.nBitsUsed]? with
    | none =>
      rw [traverseAndExtract_none cr hflag] at hbad
      cases hbad
    | some fParentOfMatch =>
      cases fParentOfMatch with
      | false =>
        rw [traverseAndExtract_stop cr hflag, useHash] at hid
        split at hid
        · exact .inl hid
        · exact .inl hid
      | true =>
        rw [node] at hroot
        rw [traverseAndExtract_descend cr hflag, calcTreeWidth_eq hn hle, Nat.mul_comm pos 2] at hbad hroot hid
        dsimp only at hbad hroot hid
        split at hid
        · rename_i hsibling
          rw [if_pos hsibling] at hbad hroot
          rw [if_pos hsibling] at hroot
          obtain ⟨hleft, hright⟩ := hinj hroot
          rcases traverseAndExtract_sound hn hinj hle hsibling hbad hright id hid with hid | hid
          · exact traverseAndExtract_sound hn hinj hle hchild (traverseAndExtract_fBad cr hbad) hleft id hid
          · exact .inr hid
        · rename_i hlast
          rw [if_neg hlast] at hbad hroot
          exact traverseAndExtract_sound hn hinj hle hchild hbad (hinj hroot).1 id hid

end Extract

/-! ## What comes out -/

section Whole

variable {t : CPartialMerkleTree} {cr : Crypto} (leaf : Nat → Uint256) (mask : Nat → Bool)

/-- No more transactions than a block can have: no width overflows. -/
theorem le_of_le_maxBlockSize {n : Nat} (h : n ≤ maxBlockSize / 60) : n ≤ 2 ^ 31 := by
  unfold maxBlockSize at h
  omega

/-- `ExtractMatches` on a pruned tree, whose flags may be filled up to whole bytes. -/
theorem extractMatches_pruned (hpos : 0 < t.nTransactions) (hle : t.nTransactions ≤ maxBlockSize / 60) {pad : List Bool}
    (hbits : t.vBits = prunedFlags mask t.nTransactions t.treeHeight 0 ++ pad)
    (hbytes : ((prunedFlags mask t.nTransactions t.treeHeight 0).length + 7) / 8 = (t.vBits.length + 7) / 8)
    (hhash : t.vHash = prunedHashes cr.hashPair leaf mask t.nTransactions t.treeHeight 0) (hgood : t.fBad = false) :
    t.extractMatches cr = (t, node cr.hashPair leaf t.nTransactions t.treeHeight 0,
      marked leaf mask t.nTransactions t.treeHeight 0) := by
  have hn := le_of_le_maxBlockSize hle
  obtain ⟨hh, hroot, -⟩ := treeHeight_spec hn
  have hhashes := length_prunedHashes_le cr.hashPair leaf mask t.nTransactions (width_pos hpos (h := t.treeHeight))
  have hflags := length_prunedHashes_le_flags cr.hashPair leaf mask t.nTransactions t.treeHeight 0
  rw [places_root hroot, List.length_range, ← hhash] at hhashes
  rw [← hhash] at hflags
  have hlen := congrArg List.length hbits
  rw [List.length_append] at hlen
  have hextract := traverseAndExtract_pruned cr leaf mask hn hh (width_pos hpos) { fBad := t.fBad } pad []
    (by rw [List.drop_zero, hbits]) (by rw [List.drop_zero, List.append_nil, hhash])
  unfold extractMatches
  rw [if_neg (by omega), if_neg (by omega), if_neg (by omega), if_neg (by omega), hextract]
  simp only [hgood, Bool.false_eq_true, if_false, Nat.zero_add, List.nil_append]
  rw [if_neg (not_not.mpr hbytes), if_neg (not_not.mpr (congrArg List.length hhash).symm)]
  cases t
  cases hgood
  rfl

/-- **The constructor** writes the pruned tree of the ids. -/
theorem build_eq (cr : Crypto) (vTxid : List Uint256) (vMatch : List Bool) (hle : vTxid.length ≤ maxBlockSize / 60) :
    let t := build cr vTxid vMatch
    t.nTransactions = vTxid.length ∧ t.fBad = false ∧
      t.vBits = prunedFlags (vMatch.getD · false) t.nTransactions t.treeHeight 0 ∧
      t.vHash = prunedHashes cr.hashPair (vTxid.getD · 0) (vMatch.getD · false) t.nTransactions t.treeHeight 0 := by
  have hn := le_of_le_maxBlockSize hle
  have hmod : vTxid.length % 2 ^ 32 = vTxid.length := Nat.mod_eq_of_lt (lt_of_le_of_lt hn (by decide))
  have hh := (treeHeight_spec (t := { nTransactions := vTxid.length, fBad := false }) hn).1
  unfold build
  rw [hmod]
  dsimp only
  rw [traverseAndBuild_eq cr vTxid vMatch hn hh 0 _ rfl]
  refine ⟨rfl, rfl, ?_, ?_⟩
  · exact (List.nil_append _).trans (congrArg (prunedFlags _ _ · 0) (treeHeight_congr rfl))
  · exact (List.nil_append _).trans (congrArg (prunedHashes _ _ _ _ · 0) (treeHeight_congr rfl))

/-- The ids that a mask selects, in their order. -/
def matchedIds (vTxid : List Uint256) (vMatch : List Bool) : List Uint256 := ((vTxid.zip vMatch).filter (·.2)).map (·.1)

/-- The leaves of interest are the ids that the mask selects. -/
theorem marked_ids : ∀ (vTxid : List Uint256) (vMatch : List Bool), vMatch.length = vTxid.length →
    ((List.range vTxid.length).filter (vMatch.getD · false)).map (vTxid.getD · 0) = matchedIds vTxid vMatch
  | [], _, _ => rfl
  | id :: vTxid, [], h => nomatch h
  | id :: vTxid, b :: vMatch, h => by
    have ih := marked_ids vTxid vMatch (Nat.succ.inj h)
    rw [List.length_cons, List.range_succ_eq_map, List.filter_cons, List.filter_map, matchedIds, List.zip_cons_cons,
      List.filter_cons]
    cases b with
    | true => 
      simp only [List.getD_cons_zero, if_true, List.map_cons, List.map_map, Function.comp_def, List.getD_cons_succ]
      rw [ih, matchedIds]
    | false =>
      simp only [List.getD_cons_zero, Bool.false_eq_true, if_false, List.map_map, Function.comp_def,
        List.getD_cons_succ]
      rw [ih, matchedIds]

/-- A tree with the flags and hashes for some ids gives the root and the selected ids. -/
theorem extractMatches_ids {vTxid : List Uint256} {vMatch : List Bool} (hne : vTxid ≠ [])
    (hle : vTxid.length ≤ maxBlockSize / 60) (hlen : vMatch.length = vTxid.length) {pad : List Bool}
    (hn : t.nTransactions = vTxid.length) (hgood : t.fBad = false)
    (hbits : t.vBits = prunedFlags (vMatch.getD · false) t.nTransactions t.treeHeight 0 ++ pad)
    (hbytes : ((prunedFlags (vMatch.getD · false) t.nTransactions t.treeHeight 0).length + 7) / 8 =
      (t.vBits.length + 7) / 8)
    (hhash : t.vHash =
      prunedHashes cr.hashPair (vTxid.getD · 0) (vMatch.getD · false) t.nTransactions t.treeHeight 0) :
    t.extractMatches cr = (t, merkleRoot cr vTxid, matchedIds vTxid vMatch) := by
  have hpos : 0 < t.nTransactions := hn ▸ List.length_pos_iff.mpr hne
  obtain ⟨-, hroot, hwide⟩ := treeHeight_spec (le_of_le_maxBlockSize (hn ▸ hle))
  rw [extractMatches_pruned _ _ hpos (hn ▸ hle) hbits hbytes hhash hgood, marked, places_root hroot]
  rw [hn] at hroot hwide ⊢
  rw [merkleRoot_eq_node cr hne hroot hwide, marked_ids vTxid vMatch hlen]

/-- A tree that gives a root was not bad, and gives what was extracted. -/
theorem extractMatches_ne_zero (h : (t.extractMatches cr).2.1 ≠ 0) :
    0 < t.nTransactions ∧ t.nTransactions ≤ maxBlockSize / 60 ∧
      (t.traverseAndExtract cr t.treeHeight 0 { fBad := t.fBad }).1.fBad = false ∧
      (t.extractMatches cr).2 = ((t.traverseAndExtract cr t.treeHeight 0 { fBad := t.fBad }).2,
        (t.traverseAndExtract cr t.treeHeight 0 { fBad := t.fBad }).1.vMatch) := by
  unfold extractMatches at h ⊢
  split at h
  · exact absurd rfl h
  · rename_i hpos
    split at h
    · exact absurd rfl h
    · rename_i hle
      split at h
      · exact absurd rfl h
      · rename_i hhashes
        split at h
        · exact absurd rfl h
        · rename_i hbits
          rw [if_neg hpos, if_neg hle, if_neg hhashes, if_neg hbits]
          dsimp only at h ⊢
          split at h
          · exact absurd rfl h
          · rename_i hbad
            split at h
            · exact absurd rfl h
            · rename_i hused
              split at h
              · exact absurd rfl h
              · rename_i hhused
                rw [if_neg hbad, if_neg hused, if_neg hhused]
                exact ⟨Nat.pos_of_ne_zero hpos, Nat.not_lt.mp hle, Bool.eq_false_iff.mpr hbad, rfl⟩

/-- A tree with the flags and hashes for some ids is not too large to be serialized. -/
theorem sizes_of_pruned (hpos : 0 < t.nTransactions) (hle : t.nTransactions ≤ maxBlockSize / 60)
    (hbits : t.vBits = prunedFlags mask t.nTransactions t.treeHeight 0)
    (hhash : t.vHash = prunedHashes cr.hashPair leaf mask t.nTransactions t.treeHeight 0) :
    t.vHash.length ≤ maxSize ∧ (t.vBits.length + 7) / 8 ≤ maxSize := by
  obtain ⟨hheight, hroot, -⟩ := treeHeight_spec (le_of_le_maxBlockSize hle)
  have hhashes := length_prunedHashes_le cr.hashPair leaf mask t.nTransactions (width_pos hpos (h := t.treeHeight))
  have hflags := length_prunedFlags_le mask t.nTransactions (width_pos hpos (h := t.treeHeight))
  have hmul : t.nTransactions * (t.treeHeight + 1) ≤ t.nTransactions * 32 := Nat.mul_le_mul_left _ (by omega)
  rw [places_root hroot, List.length_range] at hhashes hflags
  rw [← hhash] at hhashes
  rw [← hbits] at hflags
  unfold maxBlockSize at hle
  unfold maxSize
  omega

/-- **The serialization** is read back, with the flags filled up to whole bytes. -/
theorem reads_partialMerkleTree (hn : t.nTransactions < 2 ^ 32) (hlen : t.vHash.length ≤ maxSize)
    (hhash : ∀ hash ∈ t.vHash, hash < 2 ^ 256) (hbits : (t.vBits.length + 7) / 8 ≤ maxSize) :
    Reads read t.write { t with
      vBits := t.vBits ++ List.replicate ((t.vBits.length + 7) / 8 * 8 - t.vBits.length) false
      fBad := false } := by
  have hbytes : (packBits t.vBits).length ≤ maxSize := by rwa [length_packBits]
  have hflags := (reads_byteString hbytes).map fun vBytes =>
    ({ nTransactions := t.nTransactions, vHash := t.vHash, vBits := unpackBits vBytes, fBad := false } : CPartialMerkleTree)
  rw [unpackBits_packBits] at hflags
  rw [write, List.append_assoc]
  exact (reads_uint hn).bind ((reads_vector hlen fun hash hmem => reads_uint (hhash hash hmem)).bind hflags)

end Whole

end CPartialMerkleTree

/-! ## Every tree -/

/-- **Partial Merkle trees.** For every list of ids that is not empty and not longer than a block allows, and every
mask, `ExtractMatches` on the tree that is built from them returns the Merkle root of the ids and the selected ids in
their order, also once the tree was serialized and read. If no two pairs have the same hash, then for every block and
every tree with the block's number of transactions, whatever its flags and hashes, from which the block's root comes out
and is not zero, every id that comes out is that of a transaction of the block. -/
theorem partialMerkleTree_law :
    (∀ (cr : Crypto) (vTxid : List Uint256) (vMatch : List Bool), vTxid ≠ [] → vTxid.length ≤ maxBlockSize / 60 →
      vMatch.length = vTxid.length →
        let t := CPartialMerkleTree.build cr vTxid vMatch
        t.extractMatches cr = (t, merkleRoot cr vTxid, CPartialMerkleTree.matchedIds vTxid vMatch) ∧
        ((∀ id ∈ vTxid, id < 2 ^ 256) → (∀ a b, cr.hashPair a b < 2 ^ 256) → ∃ t',
          Reads CPartialMerkleTree.read t.write t' ∧
            t'.extractMatches cr = (t', merkleRoot cr vTxid, CPartialMerkleTree.matchedIds vTxid vMatch))) ∧
    ∀ (cr : Crypto) (t : CPartialMerkleTree) (block : CBlock), Function.Injective2 cr.hashPair →
      t.nTransactions = block.vtx.length → (t.extractMatches cr).2.1 = block.buildMerkleTree cr →
      block.buildMerkleTree cr ≠ 0 → ∀ id ∈ (t.extractMatches cr).2.2, ∃ tx ∈ block.vtx, tx.getHash cr = id := by
  refine ⟨fun cr vTxid vMatch hne hle hlen => ?_, fun cr t block hinj hn hroot hne id hid => ?_⟩
  · obtain ⟨hn, hgood, hbits, hhash⟩ := CPartialMerkleTree.build_eq cr vTxid vMatch hle
    dsimp only
    generalize CPartialMerkleTree.build cr vTxid vMatch = t at hn hgood hbits hhash ⊢
    have hpos : 0 < t.nTransactions := hn ▸ List.length_pos_iff.mpr hne
    have hsmall := CPartialMerkleTree.le_of_le_maxBlockSize hle
    obtain ⟨hhashes, hflags⟩ := CPartialMerkleTree.sizes_of_pruned _ _ hpos (hn ▸ hle) hbits hhash
    refine ⟨CPartialMerkleTree.extractMatches_ids hne hle hlen hn hgood
      (hbits.trans (List.append_nil _).symm) (by rw [hbits]) hhash,
        fun hids hpair => ⟨_, CPartialMerkleTree.reads_partialMerkleTree (by omega) hhashes
        (fun hash hmem => ?_) hflags, ?_⟩⟩
    · rw [hhash] at hmem
      have hleaf : ∀ p < t.nTransactions, vTxid.getD p 0 < 2 ^ 256 := by
        intro p hp
        rw [hn] at hp
        rw [List.getD_eq_getElem?_getD, List.getElem?_eq_getElem hp]
        exact hids _ (List.getElem_mem hp)
      exact prunedHashes_of (P := (· < 2 ^ 256)) (fun h pos => node_of (P := (· < 2 ^ 256)) hleaf hpair)
        (width_pos hpos) hash hmem
    · refine CPartialMerkleTree.extractMatches_ids hne hle hlen hn rfl (congrArg (· ++ _) hbits) ?_ hhash
      show ((prunedFlags _ t.nTransactions t.treeHeight 0).length + 7) / 8 = _
      rw [← hbits, List.length_append, List.length_replicate]
      omega
  · obtain ⟨hpos, hle, hgood, hout⟩ := CPartialMerkleTree.extractMatches_ne_zero (hroot ▸ hne)
    have hsmall := CPartialMerkleTree.le_of_le_maxBlockSize hle
    obtain ⟨hheight, htop, hwide⟩ := CPartialMerkleTree.treeHeight_spec hsmall
    have hlen : (block.vtx.map (·.getHash cr)).length = t.nTransactions := by rw [List.length_map, hn]
    rw [hout] at hroot hid
    have hnode : CBlock.buildMerkleTree block cr =
        node cr.hashPair ((block.vtx.map (·.getHash cr)).getD · 0) t.nTransactions t.treeHeight 0 := by
      rw [← hlen] at htop hwide hpos ⊢
      exact merkleRoot_eq_node cr (List.length_pos_iff.mp hpos) htop hwide
    rcases CPartialMerkleTree.traverseAndExtract_sound cr _ hsmall hinj hheight (width_pos hpos) hgood
      (hroot.trans hnode) id hid with hid | ⟨p, hp, hleaf⟩
    · cases hid
    · rw [← hlen] at hp
      rw [List.getD_eq_getElem?_getD, List.getElem?_eq_getElem hp, Option.getD_some, List.getElem_map] at hleaf
      exact ⟨_, List.getElem_mem _, hleaf⟩

/-- Two of three transactions, and a tree that was received for one of them. -/
theorem partialMerkleTree_law_sample :
    (let cr : Crypto := { Crypto.sample with hashPair := fun a b => (a + 2 * b) % 2 ^ 256 }
     let t := CPartialMerkleTree.build cr [7, 9, 11] [false, true, true]
     t.extractMatches cr = (t, merkleRoot cr [7, 9, 11], [9, 11]) ∧
       ∃ t', Reads CPartialMerkleTree.read t.write t' ∧
         t'.extractMatches cr = (t', merkleRoot cr [7, 9, 11], [9, 11])) ∧
    (let cr : Crypto := { Crypto.sample with hashPair := Nat.pair }
     let block : CBlock := { vtx := [7, 9, 11].map fun n => { nLockTime := n } }
     let t : CPartialMerkleTree :=
       { nTransactions := 3, vBits := [true, true, false, true, false], vHash := [7, 9, 143], fBad := false }
     (t.extractMatches cr).2.2 = [9] ∧ ∀ id ∈ (t.extractMatches cr).2.2, ∃ tx ∈ block.vtx, tx.getHash cr = id) := by
  refine ⟨?_, by decide +kernel, ?_⟩
  · have hlaw := partialMerkleTree_law.1 { Crypto.sample with hashPair := fun a b => (a + 2 * b) % 2 ^ 256 } [7, 9, 11]
      [false, true, true] (by decide) (by decide) rfl
    exact ⟨hlaw.1, hlaw.2 (by decide) fun a b => Nat.mod_lt _ (by decide)⟩
  · exact partialMerkleTree_law.2 { Crypto.sample with hashPair := Nat.pair }
      { nTransactions := 3, vBits := [true, true, false, true, false], vHash := [7, 9, 143], fBad := false }
      { vtx := [7, 9, 11].map fun n => { nLockTime := n } } (fun _ _ _ _ h => Nat.pair_eq_pair.mp h) rfl
      (by decide +kernel) (by decide +kernel)

end Morcochain
