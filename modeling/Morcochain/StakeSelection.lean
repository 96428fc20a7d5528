import Morcochain.Kernel

/-!
# The selection of a stake modifier

`ComputeNextStakeModifier` (`kernel.cpp`) selects up to 64 blocks, one in each round, and makes the new modifier from
their entropy bits. A round goes through the candidates in the order of their times and stops early.

* `selectBlockFromCandidates_spec` : **what one round selects**, in terms of the candidates alone.
* `selectionRounds_spec` : the rounds select different blocks, and write their bits.
* `computeNextStakeModifier_spec` : **the new modifier** of a block.
-/

set_option autoImplicit false

namespace Morcochain

open Guard

/-! ## What is to be selected -/

/-- The candidates: the blocks down to the first one that is older than the start of the selection interval. -/
def selectionCandidates (start : Int) (chain : List CBlockIndex) : List CBlockIndex :=
  chain.takeWhile fun pindex => start ≤ pindex.getBlockTime

/-- `nSelectionIntervalStart`, from the block before. -/
def selectionIntervalStart (cfg : Settings) (pindexPrev : CBlockIndex) : Int :=
  pindexPrev.getBlockTime / (cfg.nModifierInterval : Int) * (cfg.nModifierInterval : Int) -
    getStakeModifierSelectionInterval cfg

/-- `nSelectionIntervalStop` of a round: the start and the sections up to that of the round. -/
def selectionIntervalStop (cfg : Settings) (start : Int) (nRound : Nat) : Int :=
  start + ((List.range (nRound + 1)).map (selectionIntervalSection cfg)).sum

/-- No new modifier is generated: the interval of the last one is not over, neither at the block before nor, from
protocol v0.4 on, at the block itself. -/
def KeepsModifier (cfg : Settings) (pindexCurrent pindexPrev : CBlockIndex) (nModifierTime : Int) : Prop :=
  pindexPrev.getBlockTime / (cfg.nModifierInterval : Int) ≤ nModifierTime / (cfg.nModifierInterval : Int) ∨
    pindexCurrent.getBlockTime / (cfg.nModifierInterval : Int) ≤ nModifierTime / (cfg.nModifierInterval : Int) ∧
      isProtocolV04 pindexCurrent.nTime = true

/-- The choice of a round, of the candidates that are not selected yet: the least selection hash up to the stop time,
the earliest block when there is none up to it. -/
structure IsChosen (cr : Crypto) (nStakeModifierPrev : UInt64) (candidates selected : List CBlockIndex) (stop : Int)
    (pindex : CBlockIndex) : Prop where
  candidate : pindex ∈ candidates
  fresh : pindex ∉ selected
  least : (∃ c ∈ candidates, c ∉ selected ∧ c.getBlockTime ≤ stop) → pindex.getBlockTime ≤ stop ∧
    ∀ c ∈ candidates, c ∉ selected → c.getBlockTime ≤ stop →
      hashSelection cr nStakeModifierPrev pindex ≤ hashSelection cr nStakeModifierPrev c
  earliest : (∀ c ∈ candidates, c ∉ selected → stop < c.getBlockTime) →
    ∀ c ∈ candidates, c ∉ selected → candidateLe (pindex.getBlockTime, pindex.phashBlock) (c.getBlockTime, c.phashBlock)

/-- The selection of all rounds, and the modifier from its entropy bits. -/
structure IsSelection (cfg : Settings) (cr : Crypto) (nStakeModifierPrev : UInt64) (candidates : List CBlockIndex)
    (start : Int) (selected : List CBlockIndex) (nStakeModifierNew : UInt64) : Prop where
  count : selected.length = min 64 candidates.length
  distinct : selected.Nodup
  chosen : ∀ nRound pindex, selected[nRound]? = some pindex → IsChosen cr nStakeModifierPrev candidates
    (selected.take nRound) (selectionIntervalStop cfg start nRound) pindex
  bits : ∀ nRound, nStakeModifierNew.toNat.testBit nRound = (selected[nRound]?).any (·.fStakeEntropy)

/-! ## One round -/

section Round

variable {cr : Crypto} {m : BlockMap} {nStakeModifierPrev : UInt64} {candidates selected : List CBlockIndex} {stop : Int}

/-- A candidate, as the sorted vector holds it. -/
def CBlockIndex.item (pindex : CBlockIndex) : Int × Uint256 := (pindex.getBlockTime, pindex.phashBlock)

/-- The blocks of a list are in the index. -/
def Indexed (m : BlockMap) (l : List CBlockIndex) : Prop := ∀ pindex ∈ l, m.find pindex.phashBlock = some pindex

/-- A block of the index is selected if its hash is. -/
theorem contains_hash_iff (hselected : Indexed m selected) {pindex : CBlockIndex}
    (hpindex : m.find pindex.phashBlock = some pindex) :
    (selected.map (·.phashBlock)).contains pindex.phashBlock = true ↔ pindex ∈ selected := by
  rw [List.contains_iff_mem, List.mem_map]
  constructor
  · rintro ⟨q, hq, heq⟩
    have hfind := hselected q hq
    rw [heq, hpindex, Option.some.injEq] at hfind
    exact hfind ▸ hq
  · exact fun h => ⟨pindex, h, rfl⟩

theorem candidateLe_iff {a b : Int × Uint256} : candidateLe a b = true ↔ a.1 < b.1 ∨ a.1 = b.1 ∧ a.2 ≤ b.2 := by
  unfold candidateLe
  rw [Bool.or_eq_true_iff, Bool.and_eq_true_iff]
  exact or_congr decide_eq_true_iff (and_congr decide_eq_true_iff decide_eq_true_iff)

/-- The candidates are in a linear order. -/
theorem candidateLe_trans {a b c : Int × Uint256} (hab : candidateLe a b = true) (hbc : candidateLe b c = true) :
    candidateLe a c = true := by
  have horder : ∀ {t t' t'' : Int} {h h' h'' : Nat}, t < t' ∨ t = t' ∧ h ≤ h' → t' < t'' ∨ t' = t'' ∧ h' ≤ h'' →
      t < t'' ∨ t = t'' ∧ h ≤ h'' := by omega
  rw [candidateLe_iff] at hab hbc ⊢
  exact horder hab hbc

theorem candidateLe_total (a b : Int × Uint256) : (candidateLe a b || candidateLe b a) = true := by
  have horder : ∀ (t t' : Int) (h h' : Nat), (t < t' ∨ t = t' ∧ h ≤ h') ∨ t' < t ∨ t' = t ∧ h' ≤ h := by omega
  rw [Bool.or_eq_true_iff, candidateLe_iff, candidateLe_iff]
  exact horder a.1 b.1 a.2 b.2

theorem candidateLe_refl (a : Int × Uint256) : candidateLe a a = true := by simp [candidateLe]

theorem time_le_of_candidateLe {a b : CBlockIndex} (h : candidateLe a.item b.item = true) :
    a.getBlockTime ≤ b.getBlockTime := by
  rcases Bool.or_eq_true_iff.mp h with h | h
  · exact Int.le_of_lt (of_decide_eq_true h)
  · exact Int.le_of_eq (of_decide_eq_true (Bool.and_eq_true_iff.mp h).1)

/-- From a block on that is selected so far, the loop ends at the least selection hash up to the stop time. -/
theorem selectBlock_from_best (cr : Crypto) (nStakeModifierPrev : UInt64) (stop : Int) (hindexed : Indexed m candidates)
    (hselected : Indexed m selected)
    (hsorted : candidates.Pairwise fun a b => a.getBlockTime ≤ b.getBlockTime) (best : CBlockIndex) :
    ∃ r, selectBlockFromCandidates cr m (selected.map (·.phashBlock)) stop nStakeModifierPrev (some best)
        (candidates.map (·.item)) = .ok (some r) ∧
      (r = best ∨ r ∈ candidates ∧ r ∉ selected ∧ r.getBlockTime ≤ stop) ∧
      hashSelection cr nStakeModifierPrev r ≤ hashSelection cr nStakeModifierPrev best ∧
      ∀ c ∈ candidates, c ∉ selected → c.getBlockTime ≤ stop →
        hashSelection cr nStakeModifierPrev r ≤ hashSelection cr nStakeModifierPrev c := by
  induction candidates generalizing best with
  | nil => exact ⟨best, rfl, Or.inl rfl, Nat.le_refl _, List.forall_mem_nil _⟩
  | cons c candidates ih =>
    obtain ⟨hc, hindexed⟩ := List.forall_mem_cons.mp hindexed
    obtain ⟨hlater, hsorted⟩ := List.pairwise_cons.mp hsorted
    rw [List.map_cons, selectBlockFromCandidates, show m.find c.item.2 = some c from hc]
    dsimp only
    by_cases hstop : c.getBlockTime > stop
    · -- this candidate, and so every later one, is after the stop time
      rw [if_pos ⟨rfl, hstop⟩]
      refine ⟨best, rfl, Or.inl rfl, Nat.le_refl _, List.forall_mem_cons.mpr ⟨fun _ hle => ?_, fun d hd _ hle => ?_⟩⟩
      · omega
      · have := hlater d hd
        omega
    · rw [if_neg fun h => hstop h.2]
      by_cases hmem : c ∈ selected
      · rw [if_pos ((contains_hash_iff hselected hc).mpr hmem)]
        obtain ⟨r, hr, hor, hbest, hall⟩ := ih hindexed hsorted best
        refine ⟨r, hr, hor.imp_right fun h => ⟨List.mem_cons_of_mem _ h.1, h.2⟩, hbest, ?_⟩
        exact List.forall_mem_cons.mpr ⟨fun h => absurd hmem h, hall⟩
      · rw [if_neg fun h => hmem ((contains_hash_iff hselected hc).mp h)]
        by_cases hbetter : hashSelection cr nStakeModifierPrev c < hashSelection cr nStakeModifierPrev best
        · rw [if_pos (decide_eq_true hbetter)]
          obtain ⟨r, hr, hor, hbest, hall⟩ := ih hindexed hsorted c
          refine ⟨r, hr, Or.inr ?_, Nat.le_of_lt (Nat.lt_of_le_of_lt hbest hbetter),
            List.forall_mem_cons.mpr ⟨fun _ _ => hbest, hall⟩⟩
          rcases hor with rfl | h
          · exact ⟨List.mem_cons_self, hmem, Int.not_lt.mp hstop⟩
          · exact ⟨List.mem_cons_of_mem _ h.1, h.2⟩
        · rw [if_neg (by simpa using hbetter)]
          obtain ⟨r, hr, hor, hbest, hall⟩ := ih hindexed hsorted best
          refine ⟨r, hr, hor.imp_right fun h => ⟨List.mem_cons_of_mem _ h.1, h.2⟩, hbest, ?_⟩
          exact List.forall_mem_cons.mpr ⟨fun _ _ => Nat.le_trans hbest (Nat.not_lt.mp hbetter), hall⟩

/-- **What one round selects**, from sorted candidates. -/
theorem selectBlockFromCandidates_spec (cr : Crypto) (nStakeModifierPrev : UInt64) (stop : Int)
    (hindexed : Indexed m candidates) (hselected : Indexed m selected)
    (hsorted : candidates.Pairwise fun a b => candidateLe a.item b.item = true) (hfresh : ∃ c ∈ candidates, c ∉ selected) :
    ∃ r, selectBlockFromCandidates cr m (selected.map (·.phashBlock)) stop nStakeModifierPrev none
        (candidates.map (·.item)) = .ok (some r) ∧ IsChosen cr nStakeModifierPrev candidates selected stop r := by
  induction candidates with
  | nil =>
    obtain ⟨c, hc, -⟩ := hfresh
    cases hc
  | cons c candidates ih =>
    obtain ⟨hc, hindexed⟩ := List.forall_mem_cons.mp hindexed
    obtain ⟨hlater, hsorted⟩ := List.pairwise_cons.mp hsorted
    rw [List.map_cons, selectBlockFromCandidates, show m.find c.item.2 = some c from hc]
    dsimp only
    rw [if_neg fun h => nomatch h.1]
    by_cases hmem : c ∈ selected
    · rw [if_pos ((contains_hash_iff hselected hc).mpr hmem)]
      have hfresh' : ∃ c ∈ candidates, c ∉ selected := by
        obtain ⟨d, hd, hnot⟩ := hfresh
        rcases List.mem_cons.mp hd with rfl | hd
        · exact absurd hmem hnot
        · exact ⟨d, hd, hnot⟩
      obtain ⟨r, hr, hchosen⟩ := ih hindexed hsorted hfresh'
      refine ⟨r, hr, List.mem_cons_of_mem _ hchosen.candidate, hchosen.fresh, fun hex => ?_, fun hall => ?_⟩
      · obtain ⟨d, hd, hnot, hle⟩ := hex
        rcases List.mem_cons.mp hd with rfl | hd
        · exact absurd hmem hnot
        · obtain ⟨htime, hleast⟩ := hchosen.least ⟨d, hd, hnot, hle⟩
          exact ⟨htime, List.forall_mem_cons.mpr ⟨fun h => absurd hmem h, hleast⟩⟩
      · have hearliest := hchosen.earliest (List.forall_mem_cons.mp hall).2
        exact List.forall_mem_cons.mpr ⟨fun h => absurd hmem h, hearliest⟩
    · rw [if_neg fun h => hmem ((contains_hash_iff hselected hc).mp h), if_pos rfl]
      have htimes : (c :: candidates).Pairwise fun a b => a.getBlockTime ≤ b.getBlockTime :=
        List.pairwise_cons.mpr ⟨fun d hd => time_le_of_candidateLe (hlater d hd), hsorted.imp time_le_of_candidateLe⟩
      obtain ⟨hafter, htimes⟩ := List.pairwise_cons.mp htimes
      obtain ⟨r, hr, hor, hbest, hall⟩ := selectBlock_from_best cr nStakeModifierPrev stop hindexed hselected htimes c
      refine ⟨r, hr, ?_, ?_, fun hex => ⟨?_, List.forall_mem_cons.mpr ⟨fun _ _ => hbest, hall⟩⟩, fun hnone => ?_⟩
      · rcases hor with rfl | h
        · exact List.mem_cons_self
        · exact List.mem_cons_of_mem _ h.1
      · rcases hor with rfl | h
        · exact hmem
        · exact h.2.1
      · rcases hor with rfl | h
        · -- the first fresh candidate is not after any other one
          obtain ⟨d, hd, -, hle⟩ := hex
          rcases List.mem_cons.mp hd with rfl | hd
          · exact hle
          · exact Int.le_trans (hafter d hd) hle
        · exact h.2.2
      · rcases hor with rfl | h
        · exact List.forall_mem_cons.mpr ⟨fun _ => candidateLe_refl _, fun d hd _ => hlater d hd⟩
        · have := hnone r (List.mem_cons_of_mem _ h.1) h.2.1
          omega

/-- The choice depends on which blocks are selected, not on their order. -/
theorem IsChosen.congr {selected' : List CBlockIndex} {pindex : CBlockIndex}
    (h : IsChosen cr nStakeModifierPrev candidates selected stop pindex) (hmem : ∀ c, c ∈ selected' ↔ c ∈ selected) :
    IsChosen cr nStakeModifierPrev candidates selected' stop pindex := by
  refine ⟨h.candidate, fun hin => h.fresh ((hmem _).mp hin), ?_, ?_⟩
  · simpa only [hmem] using h.least
  · simpa only [hmem] using h.earliest

/-- The choice depends on which blocks are candidates, not on their order. -/
theorem IsChosen.perm {candidates' : List CBlockIndex} {pindex : CBlockIndex}
    (h : IsChosen cr nStakeModifierPrev candidates selected stop pindex) (hperm : candidates.Perm candidates') :
    IsChosen cr nStakeModifierPrev candidates' selected stop pindex := by
  refine ⟨hperm.mem_iff.mp h.candidate, h.fresh, ?_, ?_⟩
  · simpa only [hperm.mem_iff] using h.least
  · simpa only [hperm.mem_iff] using h.earliest

end Round

/-! ## The rounds -/

section Rounds

variable {cfg : Settings} {cr : Crypto} {m : BlockMap} {nStakeModifierPrev : UInt64} {candidates : List CBlockIndex}
  {start : Int}

/-- One bit is written. -/
theorem testBit_write (n : UInt64) (b : Bool) {i : Nat} (hi : i < 64) (j : Nat) :
    (n ||| (if b then 1 else 0) <<< UInt64.ofNat i).toNat.testBit j = (n.toNat.testBit j || (b && decide (j = i))) := by
  rw [UInt64.toNat_or, Nat.testBit_or, UInt64.toNat_shiftLeft, UInt64.toNat_ofNat', Nat.testBit_mod_two_pow,
    Nat.mod_eq_of_lt (show i < 2 ^ 64 by omega), Nat.mod_eq_of_lt hi, Nat.testBit_shiftLeft]
  congr 1
  cases b with
  | false => simp
  | true =>
    by_cases hj : j = i
    · subst hj
      simp [hi]
    · by_cases hle : i ≤ j
      · have hbit : Nat.testBit 1 (j - i) = false := by
          obtain ⟨d, hd⟩ : ∃ d, j - i = d + 1 := ⟨j - i - 1, by omega⟩
          rw [hd, Nat.testBit_add_one]
          exact Nat.zero_testBit d
        simp [hj, hbit]
      · simp [hj, hle]

/-- What holds before round `nRound`. -/
structure SelectedUpTo (cfg : Settings) (cr : Crypto) (nStakeModifierPrev : UInt64) (candidates : List CBlockIndex)
    (start : Int) (nRound : Nat) (selected : List CBlockIndex) (nStakeModifierNew : UInt64) : Prop where
  length : selected.length = nRound
  distinct : selected.Nodup
  candidate : ∀ c ∈ selected, c ∈ candidates
  chosen : ∀ i pindex, selected[i]? = some pindex → IsChosen cr nStakeModifierPrev candidates (selected.take i)
    (selectionIntervalStop cfg start i) pindex
  bits : ∀ i, nStakeModifierNew.toNat.testBit i = (selected[i]?).any (·.fStakeEntropy)

theorem selectedUpTo_zero (cfg : Settings) (cr : Crypto) (nStakeModifierPrev : UInt64) (candidates : List CBlockIndex)
    (start : Int) : SelectedUpTo cfg cr nStakeModifierPrev candidates start 0 [] 0 where
  length := rfl
  distinct := List.nodup_nil
  candidate := List.forall_mem_nil _
  chosen := fun _ _ h => nomatch h
  bits := fun i => Nat.zero_testBit i

/-- One round keeps the invariant. -/
theorem SelectedUpTo.round {nRound : Nat} {selected : List CBlockIndex} {nStakeModifierNew : UInt64}
    (h : SelectedUpTo cfg cr nStakeModifierPrev candidates start nRound selected nStakeModifierNew) (hround : nRound < 64)
    {pindex : CBlockIndex} (hchosen : IsChosen cr nStakeModifierPrev candidates selected
      (selectionIntervalStop cfg start nRound) pindex) :
    SelectedUpTo cfg cr nStakeModifierPrev candidates start (nRound + 1) (selected ++ [pindex])
      (nStakeModifierNew ||| (if pindex.fStakeEntropy then 1 else 0) <<< UInt64.ofNat nRound) := by
  obtain ⟨hlength, hdistinct, hcandidate, hold, hbits⟩ := h
  refine ⟨?_, ?_, ?_, fun i q hq => ?_, fun i => ?_⟩
  · rw [List.length_append, List.length_singleton, hlength]
  · exact List.nodup_append.mpr ⟨hdistinct, List.nodup_singleton _, fun a ha b hb heq =>
      hchosen.fresh (by rwa [← List.mem_singleton.mp hb, ← heq])⟩
  · intro c hc
    rcases List.mem_append.mp hc with hc | hc
    · exact hcandidate c hc
    · rw [List.mem_singleton.mp hc]
      exact hchosen.candidate
  · rcases Nat.lt_trichotomy i nRound with hi | rfl | hi
    · rw [List.getElem?_append_left (by omega)] at hq
      rw [List.take_append_of_le_length (by omega)]
      exact hold i q hq
    · rw [List.getElem?_append_right (by omega), hlength, Nat.sub_self] at hq
      obtain rfl : pindex = q := Option.some.inj hq
      rwa [List.take_left' hlength]
    · rw [List.getElem?_eq_none (by rw [List.length_append, List.length_singleton]; omega)] at hq
      cases hq
  · rw [testBit_write _ _ hround, hbits]
    rcases Nat.lt_trichotomy i nRound with hi | rfl | hi
    · rw [List.getElem?_append_left (by omega)]
      simp [Nat.ne_of_lt hi]
    · rw [List.getElem?_append_right (by omega), List.getElem?_eq_none (by omega), hlength, Nat.sub_self]
      simp
    · rw [List.getElem?_eq_none (by omega),
        List.getElem?_eq_none (by rw [List.length_append, List.length_singleton]; omega)]
      simp [Nat.ne_of_gt hi]

/-- As long as there are fewer blocks selected than candidates, one of these is fresh. -/
theorem exists_fresh {selected : List CBlockIndex} (hnodup : candidates.Nodup)
    (hlt : selected.length < candidates.length) : ∃ c ∈ candidates, c ∉ selected := by
  by_contra hnone
  have hsubset : candidates ⊆ selected := fun c hc => by_contra fun hnot => hnone ⟨c, hc, hnot⟩
  have := hnodup.length_le_of_subset hsubset
  omega

/-- **The rounds select different blocks, and write their bits.** -/
theorem selectionRounds_spec (start : Int) (hindexed : Indexed m candidates) (hnodup : candidates.Nodup)
    (hsorted : candidates.Pairwise fun a b => candidateLe a.item b.item = true) {k nRound : Nat}
    {selected : List CBlockIndex} {nStakeModifierNew : UInt64} (hcount : nRound + k ≤ min 64 candidates.length)
    (h : SelectedUpTo cfg cr nStakeModifierPrev candidates start nRound selected nStakeModifierNew) :
    ∃ selected' nStakeModifierNew', selectionRounds cfg cr m (candidates.map (·.item)) nStakeModifierPrev
        (List.range' nRound k) (start + ((List.range nRound).map (selectionIntervalSection cfg)).sum)
        (selected.reverse.map (·.phashBlock)) nStakeModifierNew = .ok nStakeModifierNew' ∧
      SelectedUpTo cfg cr nStakeModifierPrev candidates start (nRound + k) selected' nStakeModifierNew' := by
  induction k generalizing nRound selected nStakeModifierNew with
  | zero => exact ⟨selected, nStakeModifierNew, rfl, h⟩
  | succ k ih =>
    have hfresh : ∃ c ∈ candidates, c ∉ selected.reverse := by
      refine exists_fresh hnodup ?_
      rw [List.length_reverse, h.length]
      omega
    have hselected : Indexed m selected.reverse := fun c hc => hindexed c (h.candidate c (List.mem_reverse.mp hc))
    have hstop : start + ((List.range nRound).map (selectionIntervalSection cfg)).sum + selectionIntervalSection cfg nRound =
        selectionIntervalStop cfg start nRound := by
      rw [selectionIntervalStop, List.range_succ, List.map_append, List.sum_append]
      simp only [List.map_cons, List.map_nil, List.sum_cons, List.sum_nil]
      omega
    obtain ⟨pindex, hselect, hchosen⟩ := selectBlockFromCandidates_spec cr nStakeModifierPrev
      (selectionIntervalStop cfg start nRound) hindexed hselected hsorted hfresh
    have hnext := h.round (by omega) (hchosen.congr fun c => List.mem_reverse.symm)
    obtain ⟨selected', new', hrounds, hfinal⟩ := ih (by omega) hnext
    refine ⟨selected', new', ?_, by rwa [show nRound + (k + 1) = nRound + 1 + k by omega]⟩
    rw [List.range'_succ, selectionRounds, hstop, hselect, ok_bind]
    dsimp only
    rw [List.reverse_append, List.reverse_singleton, List.singleton_append, List.map_cons] at hrounds
    exact hrounds

end Rounds

/-! ## The new modifier -/

section Modifier

variable {cfg : Settings} {cr : Crypto} {m : BlockMap} {pindexCurrent pindexPrev : CBlockIndex} {chain : List CBlockIndex}

/-- The blocks of a chain are in the index, each once. -/
theorem chain_indexed (h : Uint256) : Indexed m (m.chain h) ∧ (m.chain h).Nodup :=
  ⟨fun _ hp => BlockMap.find_of_mem_chain hp, m.nodup_chain h⟩

/-- A chain whose root has a modifier has a last one. -/
theorem getLastStakeModifier_ok (hroot : ∃ r ∈ chain, r.pprev = none)
    (hgenerated : ∀ p ∈ chain, p.pprev = none → p.generatedStakeModifier = true) :
    ∃ last, getLastStakeModifier chain = .ok last := by
  unfold getLastStakeModifier
  cases hfind : chain.find? fun pindex => pindex.pprev.isNone || pindex.generatedStakeModifier with
  | none =>
    obtain ⟨r, hr, hnone⟩ := hroot
    have := List.find?_eq_none.mp hfind r hr
    simp [hnone] at this
  | some p =>
    have hp : p.generatedStakeModifier = true := by
      have hfound := List.find?_some hfind
      rw [Bool.or_eq_true_iff] at hfound
      rcases hfound with hnone | hp
      · exact hgenerated p (List.mem_of_find?_eq_some hfind) (Option.isNone_iff_eq_none.mp hnone)
      · exact hp
    dsimp only
    rw [if_pos hp]
    exact ⟨_, rfl⟩

/-- The rounds over the sorted candidates. -/
theorem selection_ok (hindexed : Indexed m chain) (hnodup : chain.Nodup) (nStakeModifierPrev : UInt64) (start : Int) :
    ∃ selected nStakeModifierNew,
      selectionRounds cfg cr m (((selectionCandidates start chain).map (·.item)).mergeSort candidateLe) nStakeModifierPrev
        (List.range (min 64 (((selectionCandidates start chain).map (·.item)).mergeSort candidateLe).length)) start [] 0 =
        .ok nStakeModifierNew ∧
      IsSelection cfg cr nStakeModifierPrev (selectionCandidates start chain) start selected nStakeModifierNew := by
  have hsublist : (selectionCandidates start chain).Sublist chain := List.takeWhile_sublist _
  have hindexed' : Indexed m (selectionCandidates start chain) := fun p hp => hindexed p (hsublist.subset hp)
  have hnodup' := hnodup.sublist hsublist
  generalize selectionCandidates start chain = candidates at hindexed' hnodup' ⊢
  have hperm := List.mergeSort_perm candidates fun a b => candidateLe a.item b.item
  have hsorted : (candidates.mergeSort fun a b => candidateLe a.item b.item).Pairwise fun a b =>
      candidateLe a.item b.item = true := by
    refine List.pairwise_mergeSort (fun a b c hab hbc => ?_) (fun a b => ?_) candidates
    · exact candidateLe_trans hab hbc
    · exact candidateLe_total a.item b.item
  have hsort : (candidates.map (·.item)).mergeSort candidateLe =
      (candidates.mergeSort fun a b => candidateLe a.item b.item).map (·.item) :=
    (List.map_mergeSort (f := CBlockIndex.item) (s := candidateLe) fun _ _ _ _ => rfl).symm
  generalize candidates.mergeSort (fun a b => candidateLe a.item b.item) = sorted at hperm hsorted hsort
  have hlength : sorted.length = candidates.length := hperm.length_eq
  obtain ⟨selected, new, hrounds, hfinal⟩ := selectionRounds_spec start
    (fun p hp => hindexed' p (hperm.mem_iff.mp hp)) (hperm.nodup_iff.mpr hnodup') hsorted
    (Nat.le_of_eq (Nat.zero_add (min 64 sorted.length))) (selectedUpTo_zero cfg cr nStakeModifierPrev sorted start)
  rw [Nat.zero_add] at hfinal
  refine ⟨selected, new, ?_, by rw [hfinal.length, hlength], hfinal.distinct, fun i p hp =>
    (hfinal.chosen i p hp).perm hperm, hfinal.bits⟩
  rw [hsort, List.length_map, List.range_eq_range']
  simpa using hrounds

/-- **The new modifier** of a block whose chain starts with a modifier: either the last modifier is kept, or the new one
is made from a selection of up to 64 blocks. -/
theorem computeNextStakeModifier_spec (hprev : m.prevChain pindexCurrent = pindexPrev :: chain)
    (hgenerated : ∀ p ∈ pindexPrev :: chain, p.pprev = none → p.generatedStakeModifier = true) :
    ∃ nStakeModifier nModifierTime, getLastStakeModifier (pindexPrev :: chain) = .ok (nStakeModifier, nModifierTime) ∧
      (KeepsModifier cfg pindexCurrent pindexPrev nModifierTime →
        computeNextStakeModifier cfg cr m pindexCurrent = .ok (nStakeModifier, false)) ∧
      (¬ KeepsModifier cfg pindexCurrent pindexPrev nModifierTime → ∃ selected nStakeModifierNew,
        computeNextStakeModifier cfg cr m pindexCurrent = .ok (nStakeModifierNew, true) ∧
        IsSelection cfg cr nStakeModifier
          (selectionCandidates (selectionIntervalStart cfg pindexPrev) (pindexPrev :: chain))
          (selectionIntervalStart cfg pindexPrev) selected nStakeModifierNew) := by
  obtain ⟨h, hcurrent⟩ : ∃ h, pindexCurrent.pprev = some h := by
    cases hpprev : pindexCurrent.pprev with
    | none =>
      rw [BlockMap.prevChain, hpprev] at hprev
      cases hprev
    | some h => exact ⟨h, rfl⟩
  have hchain : m.chain h = pindexPrev :: chain := by
    rw [← hprev, BlockMap.prevChain, hcurrent, Option.map_some, Option.getD_some]
  have hroot : ∃ r ∈ pindexPrev :: chain, r.pprev = none := by
    cases hfind : m.find h with
    | none =>
      rw [BlockMap.chain_of_none hfind] at hchain
      cases hchain
    | some p => exact hchain ▸ BlockMap.exists_root hfind
  obtain ⟨hindexed, hnodup⟩ := chain_indexed (m := m) h
  rw [hchain] at hindexed hnodup
  obtain ⟨⟨nStakeModifier, nModifierTime⟩, hlast⟩ := getLastStakeModifier_ok hroot hgenerated
  refine ⟨nStakeModifier, nModifierTime, hlast, fun hkeeps => ?_, fun hnew => ?_⟩
  · unfold computeNextStakeModifier
    rw [hprev]
    dsimp only
    rw [hlast, ok_bind]
    dsimp only
    split
    · rfl
    · rename_i hold
      rw [if_pos (hkeeps.resolve_left hold)]
      rfl
  · obtain ⟨selected, new, hrounds, hselection⟩ := selection_ok hindexed hnodup nStakeModifier
      (selectionIntervalStart cfg pindexPrev)
    refine ⟨selected, new, ?_, hselection⟩
    unfold computeNextStakeModifier
    rw [hprev]
    dsimp only
    rw [hlast, ok_bind]
    dsimp only
    rw [if_neg fun h => hnew (Or.inl h), if_neg fun h => hnew (Or.inr h)]
    exact bind_eq_ok.mpr ⟨new, hrounds, rfl⟩

/-- A chain of three blocks, half a modifier interval apart. -/
def spacedMap : BlockMap :=
  BlockMap.line 2 fun n => { fStakeModifier := n = 0, fStakeEntropy := n = 1, nTime := nProtocolV04SwitchTime + 15000 * n }

/-- The block that follows them. -/
def spacedBlock : CBlockIndex where
  pprev := some 3
  nTime := nProtocolV04SwitchTime + 45000

theorem computeNextStakeModifier_spec_sample :
    ∃ pindexPrev chain nStakeModifier nModifierTime, spacedMap.prevChain spacedBlock = pindexPrev :: chain ∧
      getLastStakeModifier (pindexPrev :: chain) = .ok (nStakeModifier, nModifierTime) ∧
      (KeepsModifier {} spacedBlock pindexPrev nModifierTime →
        computeNextStakeModifier {} Crypto.sample spacedMap spacedBlock = .ok (nStakeModifier, false)) ∧
      (¬ KeepsModifier {} spacedBlock pindexPrev nModifierTime → ∃ selected nStakeModifierNew,
        computeNextStakeModifier {} Crypto.sample spacedMap spacedBlock = .ok (nStakeModifierNew, true) ∧
        IsSelection {} Crypto.sample nStakeModifier
          (selectionCandidates (selectionIntervalStart {} pindexPrev) (pindexPrev :: chain))
          (selectionIntervalStart {} pindexPrev) selected nStakeModifierNew) := by
  obtain ⟨nStakeModifier, nModifierTime, h⟩ := @computeNextStakeModifier_spec {} Crypto.sample
    spacedMap spacedBlock _ _ rfl (by decide)
  exact ⟨_, _, nStakeModifier, nModifierTime, rfl, h⟩

end Modifier

end Morcochain
