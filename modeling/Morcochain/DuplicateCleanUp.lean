import Morcochain.ProcessBlock
import Morcochain.Lib.Cursor

/-!
# Cleaning up the blocks that were set aside

The loop of `CleanUpOldDuplicateStakeBlocks` (`main.cpp`), which erases entries from the map that it iterates over:
after an entry is erased, the iterator that the loop advances is one to that entry.

* `cleanUpLoop_view` : a loop that ends leaves what `ProcessBlock` goes on with.
* `cleansUp_iff` : **the loop does its work exactly when there is nothing to do.**
-/

set_option autoImplicit false

namespace Morcochain

open OrderedStore

/-- The map of the blocks with a duplicate stake. A block that was cancelled has an entry without a block. -/
abbrev DuplicateStakeMap := Store Uint256 (Option CBlock)

section CleanUp

variable (nAdjustedTime : Int) (mapBlockIndex : BlockMap)

/-- The loop erases an entry: its block is too old, or it has no block and its hash is not in the index. -/
def isOldDuplicate (hash : Uint256) : Option CBlock → Bool
  | some block => block.getBlockTime < nAdjustedTime - 24 * 60 * 60
  | none => (mapBlockIndex.find hash).isNone

/-- The body of the loop. -/
def cleanUpBody (mapDuplicateStakeBlocks : DuplicateStakeMap) (hash : Uint256) (block : Option CBlock) :
    DuplicateStakeMap :=
  if isOldDuplicate nAdjustedTime mapBlockIndex hash block then mapDuplicateStakeBlocks.erase hash
  else mapDuplicateStakeBlocks

/-- The loop of `CleanUpOldDuplicateStakeBlocks`, at most `n` rounds of it. -/
def cleanUpLoop (n : Nat) (mapDuplicateStakeBlocks : DuplicateStakeMap) :
    Except Stuck (List Uint256 × DuplicateStakeMap) :=
  forEach (cleanUpBody nAdjustedTime mapBlockIndex) n mapDuplicateStakeBlocks

/-- What the loop is for: no entry is read or left behind after it is gone, every entry is visited once, and what stays
are the blocks that are not too old and the cancelled blocks that are in the index. -/
def CleansUp (n : Nat) (mapDuplicateStakeBlocks : DuplicateStakeMap) : Prop :=
  ∃ left, cleanUpLoop nAdjustedTime mapBlockIndex n mapDuplicateStakeBlocks =
      .ok (mapDuplicateStakeBlocks.entries.map (·.1), left) ∧
    left.entries = mapDuplicateStakeBlocks.entries.filter
      fun e => match e.2 with
        | some block => nAdjustedTime - 24 * 60 * 60 ≤ block.getBlockTime
        | none => (mapBlockIndex.find e.1).isSome

end CleanUp

section Results

variable {nAdjustedTime : Int} {mapBlockIndex : BlockMap} {m left : DuplicateStakeMap} {n : Nat}
  {visited : List Uint256}

/-- The loop when nothing is to be erased. -/
theorem cleanUpLoop_ok (hn : m.entries.length ≤ n)
    (h : ∀ e ∈ m.entries, isOldDuplicate nAdjustedTime mapBlockIndex e.1 e.2 = false) :
    cleanUpLoop nAdjustedTime mapBlockIndex n m = .ok (m.entries.map (·.1), m) :=
  sweep_ok m.entries [] rfl hn fun e he => by rw [cleanUpBody, h e he]; rfl

/-- The loop when something is to be erased. -/
theorem cleanUpLoop_invalid (hn : m.entries.length ≤ n)
    (h : ∃ e ∈ m.entries, isOldDuplicate nAdjustedTime mapBlockIndex e.1 e.2 = true) :
    cleanUpLoop nAdjustedTime mapBlockIndex n m = .error .invalid := by
  refine sweep_invalid m.entries [] rfl hn (fun e _ => ?_) ?_
  · rw [cleanUpBody]
    split
    · exact .inr rfl
    · exact .inl rfl
  · obtain ⟨e, he, hold⟩ := h
    exact ⟨e, he, by rw [cleanUpBody, hold]; rfl⟩

/-- An entry that the loop does not erase is one that should stay. -/
theorem not_isOldDuplicate (hash : Uint256) (block : Option CBlock) :
    isOldDuplicate nAdjustedTime mapBlockIndex hash block = false ↔ (match block with
      | some block => decide (nAdjustedTime - 24 * 60 * 60 ≤ block.getBlockTime)
      | none => (mapBlockIndex.find hash).isSome) = true := by
  cases block with
  | some block =>
    rw [isOldDuplicate, decide_eq_false_iff_not, decide_eq_true_eq]
    exact Int.not_lt
  | none =>
    rw [isOldDuplicate]
    cases mapBlockIndex.find hash <;> simp

/-- A loop that ends has erased nothing. -/
theorem cleanUpLoop_eq_ok (hn : m.entries.length ≤ n)
    (h : cleanUpLoop nAdjustedTime mapBlockIndex n m = .ok (visited, left)) :
    left = m ∧ ∀ e ∈ m.entries, isOldDuplicate nAdjustedTime mapBlockIndex e.1 e.2 = false := by
  by_cases hold : ∃ e ∈ m.entries, isOldDuplicate nAdjustedTime mapBlockIndex e.1 e.2 = true
  · rw [cleanUpLoop_invalid hn hold] at h
    cases h
  · have hnone : ∀ e ∈ m.entries, isOldDuplicate nAdjustedTime mapBlockIndex e.1 e.2 = false := fun e he =>
      Bool.eq_false_iff.mpr fun htrue => hold ⟨e, he, htrue⟩
    rw [cleanUpLoop_ok hn hnone] at h
    cases h
    exact ⟨rfl, hnone⟩

/-- **A loop that ends** leaves what `ProcessBlock` goes on with. -/
theorem cleanUpLoop_view {env : NodeContext} {s : ProcessState}
    (hview : ∀ hash, s.mapDuplicateStakeBlocks hash = m.find? hash) (hn : m.entries.length ≤ n)
    (h : cleanUpLoop env.nAdjustedTime s.mapBlockIndex n m = .ok (visited, left)) (hash : Uint256) :
    (Filling.run (ProcessState.cleanUpOldDuplicateStakeBlocks env) s).2.mapDuplicateStakeBlocks hash =
      left.find? hash := by
  obtain ⟨rfl, hnone⟩ := cleanUpLoop_eq_ok hn h
  unfold ProcessState.cleanUpOldDuplicateStakeBlocks
  rw [Filling.run_write]
  dsimp only
  rw [hview]
  cases hfind : left.find? hash with
  | none => rfl
  | some block =>
    have hkeep := (not_isOldDuplicate hash block).mp (hnone (hash, block) (Store.find?_eq_some.mp hfind))
    rw [Option.filter_some]
    exact if_pos hkeep

/-- **The loop does its work exactly when there is nothing to do**: no block that was set aside is too old, and every
cancelled block is in the index. -/
theorem cleansUp_iff (nAdjustedTime : Int) (mapBlockIndex : BlockMap) (m : DuplicateStakeMap) (n : Nat)
    (hn : m.entries.length ≤ n) :
    CleansUp nAdjustedTime mapBlockIndex n m ↔
      (∀ hash block, m.find? hash = some (some block) → nAdjustedTime - 24 * 60 * 60 ≤ block.getBlockTime) ∧
      ∀ hash, m.find? hash = some none → (mapBlockIndex.find hash).isSome = true := by
  have hkept : (∀ e ∈ m.entries, isOldDuplicate nAdjustedTime mapBlockIndex e.1 e.2 = false) ↔
      (∀ hash block, m.find? hash = some (some block) → nAdjustedTime - 24 * 60 * 60 ≤ block.getBlockTime) ∧
      ∀ hash, m.find? hash = some none → (mapBlockIndex.find hash).isSome = true := by
    constructor
    · intro h
      refine ⟨fun hash block hfind => ?_, fun hash hfind => ?_⟩
      · exact of_decide_eq_true ((not_isOldDuplicate hash (some block)).mp (h _ (Store.find?_eq_some.mp hfind)))
      · exact (not_isOldDuplicate hash none).mp (h _ (Store.find?_eq_some.mp hfind))
    · rintro ⟨hblocks, hmarkers⟩ ⟨hash, block⟩ he
      have hfind := Store.find?_eq_some.mpr he
      cases block with
      | some block => exact (not_isOldDuplicate hash (some block)).mpr (decide_eq_true (hblocks hash block hfind))
      | none => exact (not_isOldDuplicate hash none).mpr (hmarkers hash hfind)
  rw [← hkept]
  constructor
  · rintro ⟨left, hloop, -⟩
    exact (cleanUpLoop_eq_ok hn hloop).2
  · intro h
    refine ⟨m, cleanUpLoop_ok hn h, (List.filter_eq_self.mpr fun e he => ?_).symm⟩
    exact (not_isOldDuplicate e.1 e.2).mp (h e he)

/-- One block that was set aside. -/
def oneSetAside : DuplicateStakeMap := Store.empty.insert 404 (some (sampleBlock 404 402 1400000000 []))

theorem cleansUp_sample : CleansUp 1400086400 BlockMap.empty 1 oneSetAside := by
  refine (cleansUp_iff 1400086400 BlockMap.empty oneSetAside 1 (by decide)).mpr ⟨fun hash block hfind => ?_,
    fun hash hfind => ?_⟩
  · rw [oneSetAside, Store.find?_insert] at hfind
    split at hfind
    · cases hfind
      decide
    · cases hfind
  · rw [oneSetAside, Store.find?_insert] at hfind
    split at hfind <;> cases hfind

/-- The same block a second later: the loop erases its entry and then advances from it, however many rounds it is
given. -/
theorem cleanUp_advances_erased :
    (∀ n, 1 ≤ n → cleanUpLoop 1400086401 BlockMap.empty n oneSetAside = .error .invalid) ∧
    ∀ n, 1 ≤ n → ¬ CleansUp 1400086401 BlockMap.empty n oneSetAside := by
  have hloop : ∀ n, 1 ≤ n → cleanUpLoop 1400086401 BlockMap.empty n oneSetAside = .error .invalid := fun n hn =>
    cleanUpLoop_invalid hn ⟨_, List.mem_cons_self, by decide⟩
  refine ⟨hloop, fun n hn ⟨left, hok, _⟩ => ?_⟩
  rw [hloop n hn] at hok
  cases hok

end Results

end Morcochain
