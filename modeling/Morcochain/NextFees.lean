import Morcochain.SafeFee

/-!
# The fees of the next blocks

`CBlockIndex::GetSafeMinFee` (`main.cpp`) looks ahead of the block whose voted fee is effective. That block stands 60
blocks behind, and the fees of the next ten blocks are already voted.

* `mem_walkNext_iff` : the entries of the walk from the effective block.
* `getMinFee_of_extends` : the fee that is effective in a block to come.
* `chainSafeMinFee_covers` : **the safe fee is the largest** of the fees that become effective in the next blocks.
-/

set_option autoImplicit false

namespace Morcochain

open Guard

/-! ## The window -/

section Window

variable {m : BlockMap} {b : Uint256} {p q : CBlockIndex}

/-- The walk from the successor of a block of a chain passes the blocks above it, as many as there are steps. -/
theorem mem_walkNext_iff (hlinked : m.LinkedTo b) {n i : Nat} (hn : n ≤ i) (hq : (m.chain b)[i]? = some q) :
    p ∈ m.walkNext n q.pnext ↔ ∃ j, j < n ∧ (m.chain b)[i - (j + 1)]? = some p := by
  induction n generalizing i q with
  | zero => simp [BlockMap.walkNext]
  | succ n ih =>
    obtain ⟨i, rfl⟩ : ∃ k, i = k + 1 := ⟨i - 1, by omega⟩
    have hlt := (List.getElem?_eq_some_iff.mp hq).1
    have hnext : (m.chain b)[i]? = some (m.chain b)[i] := List.getElem?_eq_getElem (by omega)
    rw [BlockMap.walkNext_of_linkedTo hlinked hnext hq, List.mem_cons, ih (by omega) hnext]
    constructor
    · rintro (rfl | ⟨j, hj, hp⟩)
      · exact ⟨0, by omega, hnext⟩
      · exact ⟨j + 1, by omega, by rwa [Nat.add_sub_add_right]⟩
    · rintro ⟨j, hj, hp⟩
      rw [Nat.add_sub_add_right] at hp
      cases j with
      | zero =>
        rw [Nat.sub_zero, hnext, Option.some.injEq] at hp
        exact Or.inl hp.symm
      | succ j => exact Or.inr ⟨j, by omega, hp⟩

end Window

/-! ## The largest fee -/

section Largest

variable {cUnit : CUnit} {l : List CBlockIndex} {s r : Int}

/-- The loop of the safe fee ends where it started, or at the fee of one of the blocks. -/
theorem foldlM_maxVotedFee_attained (h : l.foldlM (maxVotedFee cUnit) s = .ok r) :
    r = s ∨ ∃ p ∈ l, p.getVotedMinFee cUnit = .ok r := by
  induction l generalizing s with
  | nil =>
    cases h
    exact Or.inl rfl
  | cons p l ih =>
    obtain ⟨s', hs', h⟩ := foldlM_cons_ok.mp h
    obtain ⟨fee, hfee, hs'⟩ := bind_eq_ok.mp hs'
    rcases ih h with rfl | ⟨q, hq, hr⟩
    · have heq := Except.ok.inj hs'
      split at heq
      · subst heq
        exact Or.inr ⟨p, List.mem_cons_self, hfee⟩
      · exact Or.inl heq.symm
    · exact Or.inr ⟨q, List.mem_cons_of_mem _ hq, hr⟩

/-- The loop goes through when every block has a fee. -/
theorem exists_foldlM_maxVotedFee (h : ∀ p ∈ l, ∃ fee, p.getVotedMinFee cUnit = .ok fee) (s : Int) :
    ∃ r, l.foldlM (maxVotedFee cUnit) s = .ok r := by
  induction l generalizing s with
  | nil => exact ⟨s, rfl⟩
  | cons p l ih =>
    obtain ⟨⟨fee, hfee⟩, hrest⟩ := List.forall_mem_cons.mp h
    obtain ⟨r, hr⟩ := ih hrest (if fee > s then fee else s)
    exact ⟨r, foldlM_cons_ok.mpr ⟨_, bind_eq_ok.mpr ⟨fee, hfee, rfl⟩, hr⟩⟩

end Largest

/-! ## The blocks to come -/

/-- The entry without its successor, the one field that changes when a block follows. -/
def CBlockIndex.forgetNext (pindex : CBlockIndex) : CBlockIndex := { pindex with pnext := none }

/-- `n` blocks have followed a chain. -/
def Extends (chain : List CBlockIndex) (n : Nat) (chain' : List CBlockIndex) : Prop :=
  (chain'.drop n).map (·.forgetNext) = chain.map (·.forgetNext)

section Extension

variable {chain chain' : List CBlockIndex} {n : Nat} {cUnit : CUnit} {p : CBlockIndex}

/-- The fee that is effective in a block to come is the one voted by a block of the chain. -/
theorem getMinFee_of_extends (hext : Extends chain n chain') (hlong : feeVoteDelayBlocks < chain.length)
    (hn : n ≤ feeVoteDelayBlocks) (hp : chain[feeVoteDelayBlocks - n]? = some p) :
    chainMinFee chain' cUnit = p.getVotedMinFee cUnit := by
  have hlength : chain'.length - n = chain.length := by
    have := congrArg List.length hext
    rwa [List.length_map, List.length_map, List.length_drop] at this
  have hmin : min feeVoteDelayBlocks (chain'.length - 1) = feeVoteDelayBlocks := Nat.min_eq_left (by omega)
  have hentry : (chain'[feeVoteDelayBlocks]?).map (·.forgetNext) = some p.forgetNext := by
    have hplace := congrArg (·[feeVoteDelayBlocks - n]?) hext
    simp only [List.getElem?_map, List.getElem?_drop, hp, Option.map_some] at hplace
    rwa [Nat.add_sub_cancel' hn] at hplace
  obtain ⟨p', hp', hforget⟩ := Option.map_eq_some_iff.mp hentry
  have hfees : p'.forgetNext.mapVotedFee = p.forgetNext.mapVotedFee := congrArg CBlockIndex.mapVotedFee hforget
  change p'.mapVotedFee = p.mapVotedFee at hfees
  rw [chainMinFee, hmin, hp']
  dsimp only
  unfold CBlockIndex.getVotedMinFee
  rw [hfees]

end Extension

/-- **The safe fee is the largest** of the fees that become effective in the next blocks: whatever blocks follow the
last one of a main chain, none of the next ones has a larger fee, and one of them has this fee. -/
theorem chainSafeMinFee_covers {m : BlockMap} {b : Uint256} {best : CBlockIndex} {cUnit : CUnit}
    (hfind : m.find b = some best) (hheight : feeVoteDelayBlocks ≤ best.nHeight) (hlinked : m.LinkedTo b)
    (hfees : ∀ p ∈ m.chain b, p.mapVotedFee.Each (· < 2 ^ 32)) (hunit : isValidUnit cUnit = true) :
    ∃ safe, chainSafeMinFee m (m.chain b) cUnit = .ok safe ∧
      (∀ n chain', 1 ≤ n → n ≤ safeFeeBlocks → Extends (m.chain b) n chain' →
        ∃ fee, chainMinFee chain' cUnit = .ok fee ∧ fee ≤ safe) ∧
      ∃ n, 1 ≤ n ∧ n ≤ safeFeeBlocks ∧ ∀ chain', Extends (m.chain b) n chain' →
        chainMinFee chain' cUnit = .ok safe := by
  have hdelay : safeFeeBlocks ≤ feeVoteDelayBlocks := by decide
  have hlength := BlockMap.length_chain hfind
  have hlong : feeVoteDelayBlocks < (m.chain b).length := by omega
  have hmin : min feeVoteDelayBlocks ((m.chain b).length - 1) = feeVoteDelayBlocks := Nat.min_eq_left (by omega)
  have heffective := List.getElem?_eq_getElem hlong
  have hmem : ∀ {p}, p ∈ m.walkNext safeFeeBlocks ((m.chain b)[feeVoteDelayBlocks]).pnext ↔
      ∃ j, j < safeFeeBlocks ∧ (m.chain b)[feeVoteDelayBlocks - (j + 1)]? = some p :=
    mem_walkNext_iff hlinked hdelay heffective
  have hfee : ∀ {i : Nat} {p}, (m.chain b)[i]? = some p → ∃ fee, p.getVotedMinFee cUnit = .ok fee ∧ 0 ≤ fee :=
    fun hp => by
    obtain ⟨fee, hfee, hpos, -⟩ := getVotedMinFee_ok hunit (hfees _ (List.mem_of_getElem? hp))
    exact ⟨fee, hfee, hpos⟩
  obtain ⟨safe, hsafe⟩ :=
    exists_foldlM_maxVotedFee (l := m.walkNext safeFeeBlocks ((m.chain b)[feeVoteDelayBlocks]).pnext)
    (fun p hp => (hfee (hmem.mp hp).choose_spec.2).imp fun _ h => h.1) 0
  obtain ⟨hpos, hge⟩ := foldlM_maxVotedFee_ge hsafe
  refine ⟨safe, by rw [chainSafeMinFee, hmin, heffective]; exact hsafe, ?_, ?_⟩
  · intro n chain' hn hle hext
    have hp := List.getElem?_eq_getElem (show feeVoteDelayBlocks - n < (m.chain b).length by omega)
    obtain ⟨fee, hfee, -⟩ := hfee hp
    refine ⟨fee, (getMinFee_of_extends hext hlong (hle.trans hdelay) hp).trans hfee, hge _ ?_ fee hfee⟩
    exact hmem.mpr ⟨n - 1, by omega, by rwa [Nat.sub_add_cancel hn]⟩
  · rcases foldlM_maxVotedFee_attained hsafe with rfl | ⟨p, hp, hsafe⟩
    · -- no fee is above zero, so that of the next block is zero
      have hp := List.getElem?_eq_getElem (show feeVoteDelayBlocks - 1 < (m.chain b).length by omega)
      obtain ⟨fee, hfee, hfeePos⟩ := hfee hp
      have hzero := hge _ (hmem.mpr ⟨0, by decide, hp⟩) fee hfee
      refine ⟨1, le_rfl, by decide, fun chain' hext => ?_⟩
      rw [getMinFee_of_extends hext hlong (by decide) hp, hfee, le_antisymm hzero hfeePos]
    · obtain ⟨j, hj, hp⟩ := hmem.mp hp
      exact ⟨j + 1, by omega, hj, fun chain' hext => (getMinFee_of_extends hext hlong (by omega) hp).trans hsafe⟩

/-- A main chain of 505 blocks above its root: the fees of the next blocks are the default fee. -/
theorem chainSafeMinFee_covers_sample :
    ∃ safe, chainSafeMinFee (fallingFees 505) ((fallingFees 505).chain 506) unitShare = .ok safe ∧
      (∀ n chain', 1 ≤ n → n ≤ safeFeeBlocks → Extends ((fallingFees 505).chain 506) n chain' →
        ∃ fee, chainMinFee chain' unitShare = .ok fee ∧ fee ≤ safe) ∧
      ∃ n, 1 ≤ n ∧ n ≤ safeFeeBlocks ∧ ∀ chain', Extends ((fallingFees 505).chain 506) n chain' →
        chainMinFee chain' unitShare = .ok safe :=
  chainSafeMinFee_covers rfl (by decide) (fallingFees_linkedTo 505) (fallingFees_each 505) rfl

end Morcochain
