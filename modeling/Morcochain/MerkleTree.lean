import Morcochain.Transaction
import Morcochain.Lib.Guard
import Morcochain.Lib.HashTree

/-!
# Merkle trees and branches

`CBlock::BuildMerkleTree` keeps the nodes of all levels in one list, `vMerkleTree`, level after level, and
`CBlock::GetMerkleBranch` picks the siblings of a node and of the nodes above it out of that list.

* `buildLevels_eq` : the list is the levels one after the other.
* `climb_branchFrom` : **a branch leads from a node to the root** of the recursive definition.
* `merkleBranch_root` : **so it does from every transaction of every block.**
-/

set_option autoImplicit false

namespace Morcochain

open Guard HashTree

/-! ## The functions -/

/-- A block with the nodes of its Merkle tree, which `CBlock` keeps in memory. -/
structure MerkleBlock extends CBlock where
  vMerkleTree : List Uint256 := []

namespace MerkleBlock

/-- The inner loop of `BuildMerkleTree`: the nodes above those of a level, which start at place `j`. -/
def pushLevel (cr : Crypto) (j nSize i : Nat) (vMerkleTree : List Uint256) : List Uint256 :=
  if i < nSize then
    let i2 := min (i + 1) (nSize - 1)
    pushLevel cr j nSize (i + 2)
      (vMerkleTree ++ [cr.hashPair (vMerkleTree.getD (j + i) 0) (vMerkleTree.getD (j + i2) 0)])
  else vMerkleTree
termination_by nSize - i

/-- The outer loop of `BuildMerkleTree`. -/
def buildLevels (cr : Crypto) (nSize j : Nat) (vMerkleTree : List Uint256) : List Uint256 :=
  if 1 < nSize then buildLevels cr ((nSize + 1) / 2) (j + nSize) (pushLevel cr j nSize 0 vMerkleTree)
  else vMerkleTree
termination_by nSize

/-- The loop of `GetMerkleBranch`. -/
def branchFrom (vMerkleTree : List Uint256) (nSize j nIndex : Nat) : List Uint256 :=
  if 1 < nSize then
    let i := min (nIndex ^^^ 1) (nSize - 1)
    vMerkleTree.getD (j + i) 0 :: branchFrom vMerkleTree ((nSize + 1) / 2) (j + nSize) (nIndex >>> 1)
  else []
termination_by nSize

variable (cr : Crypto) (block : MerkleBlock)

/-- `CBlock::BuildMerkleTree`: the block with the nodes, and the root. -/
def buildMerkleTree : MerkleBlock × Uint256 :=
  let vMerkleTree := buildLevels cr block.vtx.length 0 (block.vtx.map (·.getHash cr))
  ({ block with vMerkleTree := vMerkleTree }, vMerkleTree.getLast?.getD 0)

/-- `CBlock::GetTxHash`. -/
def getTxHash (nIndex : Nat) : Check Uint256 := do
  rejectIf (¬ 0 < block.vMerkleTree.length) (.assertion "vMerkleTree.size() > 0")
  rejectIf (¬ nIndex < block.vtx.length) (.assertion "nIndex < vtx.size()")
  return block.vMerkleTree.getD nIndex 0

/-- `CBlock::GetMerkleBranch`: the nodes are built where there are none. -/
def getMerkleBranch (nIndex : Nat) : MerkleBlock × List Uint256 :=
  let block := if block.vMerkleTree = [] then (block.buildMerkleTree cr).1 else block
  (block, branchFrom block.vMerkleTree block.vtx.length 0 nIndex)

/-- One step of `CheckMerkleBranch`. -/
def climbStep (s : Uint256 × Int) (otherside : Uint256) : Uint256 × Int :=
  (if s.2 % 2 = 1 then cr.hashPair otherside s.1 else cr.hashPair s.1 otherside, s.2 / 2)

/-- `CBlock::CheckMerkleBranch`. -/
def checkMerkleBranch (hash : Uint256) (vMerkleBranch : List Uint256) (nIndex : Int) : Uint256 :=
  if nIndex = -1 then 0 else (vMerkleBranch.foldl (climbStep cr) (hash, nIndex)).1

end MerkleBlock

/-! ## The nodes -/

/-- A level of the recursive definition. -/
theorem merkleLevel_eq_above (cr : Crypto) : ∀ l : List Uint256, merkleLevel cr l = above cr.hashPair l
  | [] => rfl
  | [_] => rfl
  | _ :: _ :: l => by rw [merkleLevel, above, merkleLevel_eq_above cr l]

theorem merkleRoot_above (cr : Crypto) {l : List Uint256} (h : 1 < l.length) :
    merkleRoot cr (above cr.hashPair l) = merkleRoot cr l := by
  rcases l with _ | ⟨a, _ | ⟨b, l⟩⟩
  · exact absurd h (Nat.not_lt_zero 1)
  · exact absurd h (Nat.lt_irrefl 1)
  · rw [← merkleLevel_eq_above, merkleRoot.eq_def cr (a :: b :: l)]

/-- The root over a level, from any level above it that is reached. -/
theorem merkleRoot_iterate (cr : Crypto) (l : List Uint256) : ∀ {h : Nat},
    (∀ k < h, 1 < ((above cr.hashPair)^[k] l).length) → merkleRoot cr ((above cr.hashPair)^[h] l) = merkleRoot cr l
  | 0, _ => rfl
  | h + 1, hwide => by
    rw [Function.iterate_succ_apply', merkleRoot_above cr (hwide h (Nat.lt_succ_self h)),
      merkleRoot_iterate cr l fun k hk => hwide k (Nat.lt_succ_of_lt hk)]

/-- **The root is the entry at the first height at which there is only one.** -/
theorem merkleRoot_eq_node (cr : Crypto) {l : List Uint256} (hne : l ≠ []) {h : Nat} (hroot : width l.length h ≤ 1)
    (hwide : ∀ k < h, 1 < width l.length k) :
    merkleRoot cr l = node cr.hashPair (l.getD · 0) l.length h 0 := by
  have hl : (List.range l.length).map (l.getD · 0) = l := by
    apply List.ext_getElem
    · rw [List.length_map, List.length_range]
    · intro p hp hp'
      rw [List.getElem_map, List.getElem_range, List.getD_eq_getElem?_getD, List.getElem?_eq_getElem hp',
        Option.getD_some]
  have hlevel : ∀ k, (above cr.hashPair)^[k] l =
      (List.range (width l.length k)).map (node cr.hashPair (l.getD · 0) l.length k) := by
    intro k
    conv_lhs => rw [← hl]
    exact iterate_above cr.hashPair _ _ k
  have hone : width l.length h = 1 := le_antisymm hroot (width_pos (List.length_pos_iff.mpr hne))
  have htop := merkleRoot_iterate cr l (h := h) fun k hk => by
    rw [hlevel, List.length_map, List.length_range]
    exact hwide k hk
  rw [← htop, hlevel, hone, List.range_one, List.map_singleton, merkleRoot]

/-- The levels of a tree, one after the other. -/
def levels (cr : Crypto) (level : List Uint256) : List Uint256 :=
  if 1 < level.length then level ++ levels cr (above cr.hashPair level) else level
termination_by level.length
decreasing_by
  rw [length_above]
  omega

theorem levels_of_lt (cr : Crypto) {level : List Uint256} (h : 1 < level.length) :
    levels cr level = level ++ levels cr (above cr.hashPair level) := by rw [levels.eq_def cr level, if_pos h]

theorem levels_of_le (cr : Crypto) {level : List Uint256} (h : ¬ 1 < level.length) : levels cr level = level := by
  rw [levels, if_neg h]

namespace MerkleBlock

section Tree

variable (cr : Crypto)

/-- A node of a level, in the list of all nodes. -/
theorem getD_level (pre acc : List Uint256) {level : List Uint256} {i : Nat} {a : Uint256} (h : level[i]? = some a) :
    (pre ++ (level ++ acc)).getD (pre.length + i) 0 = a := by
  have hi := (List.getElem?_eq_some_iff.mp h).1
  rw [List.getD_eq_getElem?_getD, List.getElem?_append_right (Nat.le_add_right _ _), Nat.add_sub_cancel_left,
    List.getElem?_append_left hi, h, Option.getD_some]

/-- The rest of a level is combined, and put behind what is there. -/
theorem pushLevel_eq (pre level : List Uint256) : ∀ (rest acc : List Uint256) (i : Nat), level.drop i = rest →
    pushLevel cr pre.length level.length i (pre ++ (level ++ acc)) = pre ++ (level ++ (acc ++ above cr.hashPair rest))
  | [], acc, i, hrest => by
    rw [pushLevel, if_neg (Nat.not_lt.mpr (List.drop_eq_nil_iff.mp hrest)), above, List.append_nil]
  | [a], acc, i, hrest => by
    have hlen : level.length = i + 1 := by
      have h := congrArg List.length hrest
      rw [List.length_drop, List.length_singleton] at h
      omega
    have ha : level[i]? = some a := by rw [← Nat.add_zero i, ← List.getElem?_drop, hrest]; rfl
    rw [pushLevel, if_pos (by omega)]
    dsimp only
    rw [hlen, min_eq_right (by omega), Nat.add_sub_cancel, getD_level _ _ ha, pushLevel, if_neg (by omega), above]
    simp only [List.append_assoc]
  | a :: b :: rest, acc, i, hrest => by
    have hlen : level.length = i + 2 + rest.length := by
      have h := congrArg List.length hrest
      rw [List.length_drop, List.length_cons, List.length_cons] at h
      omega
    have ha : level[i]? = some a := by rw [← Nat.add_zero i, ← List.getElem?_drop, hrest]; rfl
    have hb : level[i + 1]? = some b := by rw [← List.getElem?_drop, hrest]; rfl
    have hnext : level.drop (i + 2) = rest := by rw [← List.drop_drop, hrest]; rfl
    have ih := pushLevel_eq pre level rest (acc ++ [cr.hashPair a b]) (i + 2) hnext
    rw [pushLevel, if_pos (by omega)]
    dsimp only
    rw [min_eq_left (by omega), getD_level _ _ ha, getD_level _ _ hb, List.append_assoc, List.append_assoc, ih, above,
      List.append_assoc]
    rfl

/-- **The nodes** are the levels, one after the other. -/
theorem buildLevels_eq (pre level : List Uint256) :
    buildLevels cr level.length pre.length (pre ++ level) = pre ++ levels cr level := by
  by_cases h : 1 < level.length
  · have hpush := pushLevel_eq cr pre level level [] 0 List.drop_zero
    have hlen : (above cr.hashPair level).length = (level.length + 1) / 2 := length_above cr.hashPair level
    have ih := buildLevels_eq (pre ++ level) (above cr.hashPair level)
    rw [List.append_nil, List.nil_append] at hpush
    rw [List.length_append, hlen, List.append_assoc] at ih
    rw [buildLevels, if_pos h, hpush, ih, levels_of_lt cr h, List.append_assoc]
  · rw [buildLevels, if_neg h, levels_of_le cr h]
termination_by level.length
decreasing_by
  rw [length_above]
  omega

/-- The last node is the root. -/
theorem getLast?_levels (level : List Uint256) : (levels cr level).getLast?.getD 0 = merkleRoot cr level := by
  by_cases h : 1 < level.length
  · have ih := getLast?_levels (above cr.hashPair level)
    have hne : above cr.hashPair level ≠ [] := by
      rw [← List.length_pos_iff, length_above]
      omega
    have hne' : levels cr (above cr.hashPair level) ≠ [] := by
      rw [levels]
      split
      · exact List.append_ne_nil_of_left_ne_nil hne _
      · exact hne
    rw [levels_of_lt cr h, List.getLast?_append_of_ne_nil _ hne', ih, merkleRoot_above cr h]
  · rw [levels_of_le cr h]
    rcases level with _ | ⟨a, _ | ⟨b, l⟩⟩
    · rw [merkleRoot]; rfl
    · rw [merkleRoot]; rfl
    · exact absurd (Nat.succ_lt_succ (Nat.succ_pos _)) h
termination_by level.length
decreasing_by
  rw [length_above]
  omega

/-- **A branch leads from a node of a level to the root.** -/
theorem climb_branchFrom (pre level : List Uint256) (i : Nat) (a : Uint256) (ha : level[i]? = some a) :
    ((branchFrom (pre ++ levels cr level) level.length pre.length i).foldl (climbStep cr) (a, (i : Int))).1 =
      merkleRoot cr level := by
  by_cases h : 1 < level.length
  · obtain ⟨b, hb, hup⟩ := above_half cr.hashPair ha
    have hlen : (above cr.hashPair level).length = (level.length + 1) / 2 := length_above cr.hashPair level
    have ih := climb_branchFrom (pre ++ level) (above cr.hashPair level) (i / 2) _ hup
    have hstep : climbStep cr (a, (i : Int)) b =
        (if i % 2 = 1 then cr.hashPair b a else cr.hashPair a b, ((i / 2 : Nat) : Int)) := by
      have hodd : (i : Int) % 2 = 1 ↔ i % 2 = 1 := by omega
      simp only [climbStep, hodd]
      rfl
    rw [List.length_append, hlen, List.append_assoc] at ih
    rw [branchFrom, if_pos h, levels_of_lt cr h, Nat.shiftRight_one]
    dsimp only
    rw [getD_level _ _ (show level[min (i ^^^ 1) (level.length - 1)]? = some b from hb), List.foldl_cons, hstep, ih,
      merkleRoot_above cr h]
  · rw [branchFrom, if_neg h]
    rcases level with _ | ⟨b, _ | ⟨c, l⟩⟩
    · cases ha
    · obtain rfl : i = 0 := by
        have hi := (List.getElem?_eq_some_iff.mp ha).1
        rw [List.length_singleton] at hi
        omega
      rw [merkleRoot]
      exact (Option.some.inj ha).symm
    · exact absurd (Nat.succ_lt_succ (Nat.succ_pos _)) h
termination_by level.length
decreasing_by
  rw [length_above]
  omega

end Tree

section Blocks

variable (cr : Crypto) (block : MerkleBlock)

/-- What is built: the levels over the hashes of the transactions, and the root. -/
theorem buildMerkleTree_eq : block.buildMerkleTree cr =
    ({ block with vMerkleTree := levels cr (block.vtx.map (·.getHash cr)) }, merkleRoot cr (block.vtx.map (·.getHash cr))) := by
  have hlevels := buildLevels_eq cr [] (block.vtx.map (·.getHash cr))
  rw [List.length_map, List.nil_append, List.nil_append, List.length_nil] at hlevels
  simp only [buildMerkleTree, hlevels, getLast?_levels]

/-- `GetTxHash` gives the hash of the transaction, once the tree is built. -/
theorem getTxHash_built {nIndex : Nat} {tx : CTransaction} (htx : block.vtx[nIndex]? = some tx) :
    (block.buildMerkleTree cr).1.getTxHash nIndex = .ok (tx.getHash cr) := by
  have hi := (List.getElem?_eq_some_iff.mp htx).1
  have hhash : (block.vtx.map (·.getHash cr))[nIndex]? = some (tx.getHash cr) := by rw [List.getElem?_map, htx]; rfl
  obtain ⟨acc, hacc⟩ : ∃ acc, levels cr (block.vtx.map (·.getHash cr)) = block.vtx.map (·.getHash cr) ++ acc := by
    by_cases h : 1 < (block.vtx.map (·.getHash cr)).length
    · exact ⟨_, levels_of_lt cr h⟩
    · exact ⟨[], by rw [levels_of_le cr h, List.append_nil]⟩
  have hget := getD_level [] acc hhash
  rw [List.nil_append, List.length_nil, Nat.zero_add] at hget
  have hlen : 0 < (block.vtx.map (·.getHash cr) ++ acc).length := by
    rw [List.length_append, List.length_map]
    omega
  rw [buildMerkleTree_eq, getTxHash, hacc, rejectIf_neg (not_not.mpr hlen), rejectIf_neg (not_not.mpr hi)]
  show Except.ok _ = _
  rw [hget]

/-- The branch comes from the levels, whether these were built before or not. -/
theorem getMerkleBranch_eq (nIndex : Nat)
    (h : block.vMerkleTree = [] ∨ block.vMerkleTree = levels cr (block.vtx.map (·.getHash cr))) :
    (block.getMerkleBranch cr nIndex).2 =
      branchFrom (levels cr (block.vtx.map (·.getHash cr))) block.vtx.length 0 nIndex := by
  unfold getMerkleBranch
  dsimp only
  split
  · rw [buildMerkleTree_eq]
  · rename_i hne
    rw [h.resolve_left hne]

end Blocks

end MerkleBlock

/-! ## Every block -/

/-- **Merkle branches.** For every block, `BuildMerkleTree` returns the root of the recursive definition, which doubles
the last node of an odd level, and for every transaction the branch that `GetMerkleBranch` returns leads from its hash
to this root, whether the tree was built before or not. -/
theorem merkleBranch_root (cr : Crypto) (block : MerkleBlock) :
    (block.buildMerkleTree cr).2 = merkleRoot cr (block.vtx.map (·.getHash cr)) ∧
    ∀ nIndex, nIndex < block.vtx.length → ∃ hash, (block.buildMerkleTree cr).1.getTxHash nIndex = .ok hash ∧
      MerkleBlock.checkMerkleBranch cr hash ((block.buildMerkleTree cr).1.getMerkleBranch cr nIndex).2 nIndex =
        (block.buildMerkleTree cr).2 ∧
      (block.vMerkleTree = [] →
        (block.getMerkleBranch cr nIndex).2 = ((block.buildMerkleTree cr).1.getMerkleBranch cr nIndex).2) := by
  refine ⟨by rw [MerkleBlock.buildMerkleTree_eq], fun nIndex hlt => ?_⟩
  have htx : block.vtx[nIndex]? = some block.vtx[nIndex] := List.getElem?_eq_getElem hlt
  have hhash : (block.vtx.map (·.getHash cr))[nIndex]? = some (block.vtx[nIndex].getHash cr) := by
    rw [List.getElem?_map, htx, Option.map_some]
  have hbranch : ((block.buildMerkleTree cr).1.getMerkleBranch cr nIndex).2 =
      MerkleBlock.branchFrom (levels cr (block.vtx.map (·.getHash cr))) block.vtx.length 0 nIndex := by
    rw [MerkleBlock.buildMerkleTree_eq]
    exact MerkleBlock.getMerkleBranch_eq cr _ nIndex (.inr rfl)
  have hclimb := MerkleBlock.climb_branchFrom cr [] (block.vtx.map (·.getHash cr)) nIndex _ hhash
  rw [List.nil_append, List.length_map, List.length_nil] at hclimb
  refine ⟨_, MerkleBlock.getTxHash_built cr block htx, ?_, fun hnil => ?_⟩
  · rw [hbranch, MerkleBlock.checkMerkleBranch, if_neg (by omega), hclimb, MerkleBlock.buildMerkleTree_eq]
  · rw [hbranch, MerkleBlock.getMerkleBranch_eq cr block nIndex (.inl hnil)]

/-- The branch of the last of three transactions. -/
theorem merkleBranch_root_sample :
    let block : MerkleBlock := { vtx := [7, 9, 11].map fun n => { nLockTime := n } }
    (block.buildMerkleTree Crypto.sample).2 = 91 ∧ ∃ hash,
      (block.buildMerkleTree Crypto.sample).1.getTxHash 2 = .ok hash ∧
      MerkleBlock.checkMerkleBranch Crypto.sample hash
        ((block.buildMerkleTree Crypto.sample).1.getMerkleBranch Crypto.sample 2).2 2 =
        (block.buildMerkleTree Crypto.sample).2 ∧
      (block.vMerkleTree = [] → (block.getMerkleBranch Crypto.sample 2).2 =
        ((block.buildMerkleTree Crypto.sample).1.getMerkleBranch Crypto.sample 2).2) :=
  ⟨by decide +kernel, (merkleBranch_root Crypto.sample { vtx := [7, 9, 11].map fun n => { nLockTime := n } }).2 2
    (by decide)⟩

end Morcochain
