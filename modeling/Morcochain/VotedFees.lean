import Morcochain.ChainVotes
import Morcochain.Lib.OrderStatistic

/-!
# The voted fees

`CalculateVotedFees` (`vote.cpp`): the votes for the fee of a unit are counted, and the counts are added up from the
least vote on until they come to half of the votes.

* `find?_feeVoteCount` : the counts.
* `medianVote_eq_some` : where the loop over the counts stops.
* `calculateVotedFees_spec` : **the voted fee is an order statistic** of the votes of the window.
-/

set_option autoImplicit false

namespace Morcochain

open OrderedStore OrderStatistic

/-! ## The counts -/

section Count

variable {votes : List Nat} {vote : Nat}

/-- The count of a vote. -/
theorem find?_feeVoteCount (votes : List Nat) (vote : Nat) :
    (feeVoteCount votes).find? vote = if vote ∈ votes then some (votes.count vote) else none := by
  unfold feeVoteCount
  induction votes using List.reverseRecOn with
  | nil => rfl
  | append_singleton votes v ih =>
    rw [List.foldl_append, List.foldl_cons, List.foldl_nil, Store.find?_insert]
    by_cases hv : vote = v
    · subst hv
      rw [if_pos rfl, if_pos (by simp), ih, List.count_append, List.count_singleton_self]
      by_cases hmem : vote ∈ votes
      · rw [if_pos hmem]
        rfl
      · rw [if_neg hmem, List.count_eq_zero.mpr hmem]
        rfl
    · have hcount : List.count vote [v] = 0 := List.count_eq_zero.mpr (by simpa using hv)
      rw [if_neg hv, ih, List.count_append, hcount, Nat.add_zero]
      by_cases hmem : vote ∈ votes
      · rw [if_pos hmem, if_pos (by simp [hmem])]
      · rw [if_neg hmem, if_neg (by simp [hmem, hv])]

/-- The entries are the votes without repetitions, with their counts. -/
theorem perm_feeVoteCount (votes : List Nat) :
    (feeVoteCount votes).entries.Perm (votes.dedup.map fun v => (v, votes.count v)) := by
  refine (List.perm_ext_iff_of_nodup ?_ ?_).mpr fun e => ?_
  · exact (feeVoteCount votes).nodup_entries
  · exact (List.nodup_dedup votes).map fun a b h => congrArg Prod.fst h
  · obtain ⟨v, n⟩ := e
    rw [← Store.find?_eq_some, find?_feeVoteCount, List.mem_map]
    constructor
    · intro h
      split at h
      · rename_i hv
        exact ⟨v, List.mem_dedup.mpr hv, by rw [Option.some.inj h]⟩
      · cases h
    · rintro ⟨w, hw, heq⟩
      cases heq
      rw [if_pos (List.mem_dedup.mp hw)]

/-- The counts of the entries that meet a condition add up to the number of the votes that do. -/
theorem sum_feeVoteCount (votes : List Nat) (p : Nat → Bool) :
    (((feeVoteCount votes).entries.filter fun e => p e.1).map (·.2)).sum = votes.countP p := by
  rw [(((perm_feeVoteCount votes).filter _).map _).sum_eq, List.filter_map, List.map_map,
    ← List.sum_map_count_dedup_filter_eq_countP p votes]
  rfl

end Count

/-! ## The loop over the counts -/

section Median

variable {half total vote : Nat} {entries : List (Nat × Nat)}

/-- The vote at which the loop stops is one of the entries. -/
theorem mem_of_medianVote (h : medianVote half total entries = some vote) : ∃ count, (vote, count) ∈ entries := by
  induction entries generalizing total with
  | nil => cases h
  | cons e rest ih =>
    rw [medianVote] at h
    split at h
    · cases h
      exact ⟨e.2, List.mem_cons_self⟩
    · obtain ⟨count, hmem⟩ := ih h
      exact ⟨count, List.mem_cons_of_mem _ hmem⟩

/-- The loop stops when the counts come to the half. -/
theorem isSome_medianVote (hhalf : total < half) (hsum : half ≤ total + (entries.map (·.2)).sum) :
    (medianVote half total entries).isSome := by
  induction entries generalizing total with
  | nil =>
    rw [List.map_nil, List.sum_nil] at hsum
    omega
  | cons e rest ih =>
    rw [List.map_cons, List.sum_cons] at hsum
    rw [medianVote]
    split
    · rfl
    · exact ih (by omega) (by omega)

/-- The loop stops at the entry at which the half is reached: with the counts of the smaller votes it is not, with those
of the votes that are not greater it is. -/
theorem medianVote_eq_some (hsorted : entries.Pairwise (·.1 < ·.1)) (htotal : total < half)
    (h : medianVote half total entries = some vote) :
    total + ((entries.filter fun e => e.1 < vote).map (·.2)).sum < half ∧
      half ≤ total + ((entries.filter fun e => e.1 ≤ vote).map (·.2)).sum := by
  induction entries generalizing total with
  | nil => cases h
  | cons e rest ih =>
    obtain ⟨v, count⟩ := e
    obtain ⟨hlater, hsorted⟩ := List.pairwise_cons.mp hsorted
    rw [medianVote] at h
    split at h
    · rename_i hreached
      cases h
      have hnone : (rest.filter fun e => e.1 < vote) = [] := by
        refine List.filter_eq_nil_iff.mpr fun e he => ?_
        have := hlater e he
        simp only [decide_eq_true_eq]
        omega
      rw [List.filter_cons_of_neg (by simp), hnone, List.filter_cons_of_pos (by simp), List.map_cons, List.sum_cons]
      refine ⟨by simpa using htotal, ?_⟩
      dsimp only
      omega
    · rename_i hreached
      obtain ⟨hbelow, hupto⟩ := ih hsorted (Nat.lt_of_not_le hreached) h
      have hlt : v < vote := by
        obtain ⟨count', hmem⟩ := mem_of_medianVote h
        exact hlater _ hmem
      rw [List.filter_cons_of_pos (by simpa using hlt), List.filter_cons_of_pos (by simpa using hlt.le),
        List.map_cons, List.map_cons, List.sum_cons, List.sum_cons]
      dsimp only
      omega

end Median

/-! ## The fees -/

section Fees

variable {chain chain' : List CBlockIndex} {cUnit : CUnit}

/-- The window holds as many votes as are counted. -/
@[simp]
theorem length_feeVotesOf (chain : List CBlockIndex) (cUnit : CUnit) : (feeVotesOf chain cUnit).length = feeVotes := by
  rw [feeVotesOf, List.length_map, List.length_range]

/-- The voted fee of a unit is where its loop stops. -/
theorem get?_calculateVotedFees (chain : List CBlockIndex) (hunit : cUnit ∈ sAvailableUnits) :
    (calculateVotedFees chain).get? cUnit =
      some (medianVote (feeVotes / 2) 0 (feeVoteCount (feeVotesOf chain cUnit)).entries) := by
  have hdistinct : unitCurrency ≠ unitShare := by decide
  rw [calculateVotedFees, sAvailableUnits, List.foldl_cons, List.foldl_cons, List.foldl_nil]
  rcases List.mem_pair.mp hunit with rfl | rfl
  · cases medianVote (feeVotes / 2) 0 (feeVoteCount (feeVotesOf chain unitShare)).entries <;>
      cases medianVote (feeVotes / 2) 0 (feeVoteCount (feeVotesOf chain unitCurrency)).entries <;>
      simp [CUnitMap.get?, CUnitMap.set, hdistinct]
  · cases medianVote (feeVotes / 2) 0 (feeVoteCount (feeVotesOf chain unitShare)).entries <;>
      cases medianVote (feeVotes / 2) 0 (feeVoteCount (feeVotesOf chain unitCurrency)).entries <;>
      simp [CUnitMap.get?, CUnitMap.set, hdistinct]

/-- A unit has a voted fee, and it is an order statistic of its votes. -/
theorem exists_votedFee (chain : List CBlockIndex) (hunit : cUnit ∈ sAvailableUnits) :
    ∃ v, (calculateVotedFees chain).get? cUnit = some (some v) ∧
      IsKthSmallest (feeVotes / 2) (feeVotesOf chain cUnit) v := by
  have hhalf : 0 < feeVotes / 2 := by decide
  have hall : ((feeVoteCount (feeVotesOf chain cUnit)).entries.map (·.2)).sum = feeVotes := by
    have h := sum_feeVoteCount (feeVotesOf chain cUnit) fun _ => true
    rwa [List.countP_true, length_feeVotesOf, List.filter_true] at h
  have hsum : feeVotes / 2 ≤ 0 + ((feeVoteCount (feeVotesOf chain cUnit)).entries.map (·.2)).sum := by
    rw [hall]
    decide
  obtain ⟨v, hv⟩ := Option.isSome_iff_exists.mp (isSome_medianVote hhalf hsum)
  obtain ⟨hbelow, hupto⟩ := medianVote_eq_some (feeVoteCount (feeVotesOf chain cUnit)).sorted hhalf hv
  rw [sum_feeVoteCount (feeVotesOf chain cUnit) (· < v), Nat.zero_add] at hbelow
  rw [sum_feeVoteCount (feeVotesOf chain cUnit) (· ≤ v), Nat.zero_add] at hupto
  exact ⟨v, by rw [get?_calculateVotedFees chain hunit, hv], (isKthSmallest_iff hhalf).mpr ⟨hbelow, hupto⟩⟩

end Fees

end Morcochain
