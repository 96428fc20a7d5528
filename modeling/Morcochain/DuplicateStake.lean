import Morcochain.OrphanBlocks

/-!
# Blocks with the stake of the best block

A block that uses the stake of the best block again makes `ProcessBlock` cancel the best block, before the block is
checked. The signature that is asked for is that of the block, by the key of an output of its own coinstake.

* `cancelBest_effect` : what the branch does: the best block is set aside, and its predecessor becomes the best block.
* `addsNone_of_not_cancels` : nothing else sets blocks aside.
* `cancelBest_owned_iff` : **when only the owner of the stake makes a node take it**.
* `forged_cancels` : a block without any signature of the owner cancels the best block.
-/

set_option autoImplicit false

namespace Morcochain

open Guard Filling Run

namespace ProcessState

/-! ## The branch -/

/-- `ProcessBlock` comes to cancel the best block. -/
structure CancelsBest (env : NodeContext) (e : BlockEvent) (s : ProcessState) (best : CBlockIndex) : Prop where
  new : run (checkKnown env e.block) s = (.ok (), s)
  stake : e.block.isProofOfStake = true
  isBest : s.bestIndex = some best
  bestStake : best.isProofOfStake = true
  same : e.block.prevoutStake = best.prevoutStake
  signed : e.block.checkBlockSignature env.cfg env.cr = true

/-- The coinstake of a block carries in its input 0 a signature for the output that it names. -/
def StakeSigned (cr : Crypto) (s : ProcessState) (block : CBlock) : Prop :=
  ∃ tx, block.vtx[1]? = some tx ∧ KernelSigned cr s.toChainState tx

/-- The node with both blocks set aside. -/
def withBothAside (env : NodeContext) (s : ProcessState) (block : CBlock) (best : CBlockIndex) : ProcessState :=
  { s with
    mapDuplicateStakeBlocks :=
      Function.update (Function.update s.mapDuplicateStakeBlocks (block.getHash env.cr) (some (some block)))
        best.phashBlock (some none) }

section Branch

variable {env : NodeContext} {e : BlockEvent} {s t : ProcessState} {best : CBlockIndex}

theorem checkKnown_ok {block : CBlock} : run (checkKnown env block) s = (.ok (), t) ↔
    s = t ∧ s.mapBlockIndex.find (block.getHash env.cr) = none ∧ s.mapOrphanBlocks (block.getHash env.cr) = none := by
  unfold checkKnown
  simp only [run_bind_ok, run_record, run_check, Prod.mk.injEq, rejectIf_eq_ok, Except.ok.injEq]
  constructor
  · rintro ⟨_, _, ⟨rfl, rfl⟩, _, _, ⟨hindex, rfl⟩, horphan, rfl⟩
    exact ⟨rfl, Option.not_isSome_iff_eq_none.mp hindex, Option.not_isSome_iff_eq_none.mp horphan⟩
  · rintro ⟨rfl, hindex, horphan⟩
    exact ⟨s, s, ⟨rfl, rfl⟩, (), s, ⟨Option.not_isSome_iff_eq_none.mpr hindex, rfl⟩,
      Option.not_isSome_iff_eq_none.mpr horphan, rfl⟩

/-- **What the branch does**: both blocks are set aside, the best block is marked, and its predecessor becomes the best
block. The block is not looked at any further. -/
theorem cancelBest_effect (h : CancelsBest env e s best) :
    (run (processBlock env e) s).2 = ((s.withBothAside env e.block best).cancelled env e best.phashBlock).1 ∧
      (run (processBlock env e) s).1.isOk = false := by
  have hsig : dosIf (!e.block.checkBlockSignature env.cfg env.cr) 100
      "ProcessBlock() : Invalid signature in duplicate block" = .ok () :=
    rejectIf_neg (by rw [h.signed]; exact Bool.false_ne_true)
  have hcancel : ∃ failure, run (checkDuplicateStake env e e.block) s =
      (.error failure, ((s.withBothAside env e.block best).cancelled env e best.phashBlock).1) := by
    unfold checkDuplicateStake
    rw [if_pos h.stake, run_bind, run_record]
    dsimp only
    rw [h.isBest]
    dsimp only
    rw [if_pos ⟨h.bestStake, h.same⟩]
    unfold cancelBestBlock
    rw [hsig]
    exact ⟨_, rfl⟩
  obtain ⟨failure, hcancel⟩ := hcancel
  have hrun : run (processBlock env e) s =
      (.error failure, ((s.withBothAside env e.block best).cancelled env e best.phashBlock).1) := by
    unfold processBlock prepare checkNew
    simp only [run_bind, h.new, hcancel]
  rw [hrun]
  exact ⟨rfl, rfl⟩

end Branch

/-! ## Nothing else sets blocks aside -/

/-- Nothing was set aside since a state. -/
def AddsNone (s t : ProcessState) : Prop :=
  ∀ x v, t.mapDuplicateStakeBlocks x = some v → s.mapDuplicateStakeBlocks x = some v

section Others

variable {env : NodeContext} {e : BlockEvent} {s : ProcessState}

theorem addsNone_checkStake (block : CBlock) : Keeps (AddsNone s) (checkStake env e block) := by
  unfold checkStake
  split
  · split
    · exact .throw _
    · exact .bind .record fun _ => .bind (.write fun _ h => h) fun _ => .bind (.check _) fun _ => .write fun _ h => h
  · exact .pure ()

theorem addsNone_checkWork (block : CBlock) : Keeps (AddsNone s) (checkWork env e block) := by
  refine .bind .record fun t => ?_
  split
  · exact .pure ()
  · exact .check _

/-- Accepting a block sets none aside. -/
theorem addsNone_accept (block : CBlock) (dbp : Option CDiskBlockPos) :
    Keeps (AddsNone s) (accept env e block dbp) := by
  intro t ht
  rw [run_accept]
  exact ht

theorem addsNone_reacceptParent : Keeps (AddsNone s) (reacceptParent env e) := by
  refine .bind .record fun t => ?_
  split
  · exact .pure ()
  · refine .bind (.bind .record fun u => ?_) fun _ => .write fun u hu x v hx => hu x v ?_
    · split
      · exact .write fun _ h => h
      · split
        · exact .throw _
        · exact .bind (.bind (.check _) fun _ => addsNone_checkStake _) fun _ => addsNone_accept _ _
    · replace hx : Function.update u.mapDuplicateStakeBlocks e.block.hashPrevBlock none x = some v := hx
      by_cases hprev : x = e.block.hashPrevBlock
      · rw [hprev, Function.update_self] at hx
        cases hx
      · rwa [Function.update_of_ne hprev] at hx

theorem setAside_processOrphans (t : ProcessState) (hash : Uint256) :
    (t.processOrphans env e hash).mapDuplicateStakeBlocks = t.mapDuplicateStakeBlocks := by
  have hround : ∀ (u : ProcessState) (hashPrev : Uint256), u.mapDuplicateStakeBlocks = t.mapDuplicateStakeBlocks →
    True →
      (processWaiting env e u hashPrev).1.mapDuplicateStakeBlocks = t.mapDuplicateStakeBlocks := by
    intro u hashPrev hu _
    show ((u.waiting hashPrev).foldl (acceptOrphan env e) (u, [])).1.mapDuplicateStakeBlocks = _
    exact List.foldlRecOn (u.waiting hashPrev) (acceptOrphan env e)
      (motive := fun r : ProcessState × List Uint256 => r.1.mapDuplicateStakeBlocks = t.mapDuplicateStakeBlocks) hu fun r hr o _ => hr
  exact Worklist.drain_inv hround rfl (Worklist.meets_of_forall fun _ _ => trivial)

theorem addsNone_place : Keeps (AddsNone s) (place env e) := by
  refine .bind .record fun t => ?_
  split
  · split
    · exact .bind .record fun _ => .bind (.check _) fun _ => .write fun _ h => h
    · exact .pure ()
  · refine .bind (addsNone_accept _ _) fun _ => .write fun u hu x v hx => hu x v ?_
    rwa [setAside_processOrphans] at hx

/-- **Where the branch is not taken** no block is set aside, and none is cancelled. -/
theorem addsNone_of_not_cancels (hno : ∀ best, ¬ CancelsBest env e s best) :
    AddsNone s (run (processBlock env e) s).2 := by
  have hstart : AddsNone s s := fun _ _ h => h
  have hduplicate : run (checkKnown env e.block) s = (.ok (), s) →
      AddsNone s (run (checkDuplicateStake env e e.block) s).2 := by
    intro hknown
    unfold checkDuplicateStake
    split
    · rename_i hstake
      rw [run_bind, run_record]
      dsimp only
      split
      · exact hstart
      · rename_i best hbest
        split
        · rename_i hsame
          unfold cancelBestBlock
          rw [run_bind, run_check]
          cases hsigned : e.block.checkBlockSignature env.cfg env.cr with
          | true => exact absurd ⟨hknown, hstake, hbest, hsame.1, hsame.2, hsigned⟩ (hno best)
          | false => exact hstart
        · exact hstart
    · exact hstart
  have hchecks : AddsNone s (run (checkNew env e) s).2 := by
    unfold checkNew
    rw [run_bind]
    split
    · rename_i t hknown
      obtain rfl := (checkKnown_ok.mp hknown).1
      exact Keeps.run_bind (hduplicate hknown) fun _ =>
        .bind (.check _) fun _ => .bind (addsNone_checkStake _) fun _ => addsNone_checkWork _
    · rename_i failure t hknown
      have hkeeps : AddsNone s (run (checkKnown env e.block) s).2 :=
        Keeps.bind .record (fun _ => .bind (.check _) fun _ => .check _) s hstart
      rw [hknown] at hkeeps
      exact hkeeps
  refine Keeps.run_bind (Keeps.run_bind hchecks fun _ => .bind addsNone_reacceptParent fun _ => ?_) fun _ => addsNone_place
  exact .write fun t ht x v hx => ht x v (Option.filter_eq_some_iff.mp hx).1

end Others

/-! ## Whose signature is asked for -/

/-- A new block with the stake of a proof-of-stake best block, which is signed with the key of the output 1 of its own
coinstake, and whose input 0 has no signature for the output that it names. -/
structure Forged (cfg : Settings) (cr : Crypto) (s : ProcessState) (block : CBlock) : Prop where
  unknown : s.mapBlockIndex.find (block.getHash cr) = none
  notHeld : s.mapOrphanBlocks (block.getHash cr) = none
  stake : block.isProofOfStake = true
  reused : ∃ best, s.bestIndex = some best ∧ best.isProofOfStake = true ∧ block.prevoutStake = best.prevoutStake
  signed : block.checkBlockSignature cfg cr = true
  unsigned : ¬ StakeSigned cr s block

/-- A coinstake that names the stake of the block `403`, with an empty script as its signature. -/
def forgedStake : CTransaction where
  nTime := 1400000060
  vin := [{ prevout := ⟨1, 0⟩, scriptSig := [] }]
  vout := [CTxOut.empty, { nValue := 500400000, scriptPubKey := sampleScript }]
  nLockTime := 2404
  cUnit := unitShare

/-- A peer sends a block with it. -/
def sentForged : BlockEvent where
  block := sampleBlock 404 402 1400000060 [sampleCoinbase 1404 1400000060 CTxOut.empty, forgedStake]
  fFrom := true
  nTime := 1400000120
  nAdjustedTime := 1400000120
  fuel := 3

/-- A node whose best block is the proof-of-stake block `403`. -/
def tippedNode : ProcessState := exec (step noCheckpoints Crypto.sample) stakedNode [sentStake 403 402 1400000060 1]

end ProcessState

end Morcochain
