import Morcochain.ProcessBlock
import Morcochain.Elected

/-!
# The blocks that are held back

A block whose predecessor is unknown waits for it in `mapOrphanBlocks` and `mapOrphanBlocksByPrev`. When a block is
accepted `ProcessBlock` works off what waits for it, and what waits for that.

* `orphansConsistent_step` : both maps hold the same blocks, whatever happens.
* `noneStranded_step` : **no block waits for a known one** behind a step that leaves none behind: a block that gets into
  the index without being accepted is not waited for, nor is a predecessor that was set aside.
* `orphans_inOrder` : the same along every run.
* `orphan_stranded` : a block that waits for a predecessor that was set aside is left behind.
-/

set_option autoImplicit false

namespace Morcochain

open Guard Filling Run

namespace ProcessState

/-! ## The maps -/

/-- `mapOrphanBlocks` and `mapOrphanBlocksByPrev` hold the same blocks, by their own hash and by that of the
predecessor. -/
structure OrphansConsistent (cr : Crypto) (s : ProcessState) : Prop where
  keyed : ∀ q ∈ s.mapOrphanBlocksByPrev, q.1 = q.2.hashPrevBlock
  byHash : ∀ q ∈ s.mapOrphanBlocksByPrev, s.mapOrphanBlocks (q.2.getHash cr) = some q.2
  byPrev : ∀ h b, s.mapOrphanBlocks h = some b → b.getHash cr = h ∧ (b.hashPrevBlock, b) ∈ s.mapOrphanBlocksByPrev
  nodup : s.mapOrphanBlocksByPrev.Nodup

/-- No block that is held back waits for a known one. -/
def NoneStranded (s : ProcessState) : Prop :=
  ∀ h b, s.mapOrphanBlocks h = some b → s.mapBlockIndex.find b.hashPrevBlock = none

section Maps

variable {cr : Crypto} {s t : ProcessState}

theorem isAwaited_iff {x : Uint256} : s.isAwaited x = true ↔ ∃ b, (x, b) ∈ s.mapOrphanBlocksByPrev := by
  unfold isAwaited
  rw [List.any_eq_true]
  constructor
  · rintro ⟨⟨y, b⟩, hmem, hy⟩
    obtain rfl : y = x := of_decide_eq_true hy
    exact ⟨b, hmem⟩
  · rintro ⟨b, hmem⟩
    exact ⟨(x, b), hmem, decide_eq_true rfl⟩

theorem mem_waiting {hashPrev : Uint256} {b : CBlock} :
    b ∈ s.waiting hashPrev ↔ (hashPrev, b) ∈ s.mapOrphanBlocksByPrev := by
  unfold waiting
  simp only [List.mem_map, List.mem_filter, decide_eq_true_eq]
  constructor
  · rintro ⟨⟨y, b'⟩, ⟨hmem, rfl⟩, rfl⟩
    exact hmem
  · exact fun hmem => ⟨(hashPrev, b), ⟨hmem, rfl⟩, rfl⟩

theorem OrphansConsistent.congr (h : OrphansConsistent cr s) (horphans : t.mapOrphanBlocks = s.mapOrphanBlocks)
    (hbyPrev : t.mapOrphanBlocksByPrev = s.mapOrphanBlocksByPrev) : OrphansConsistent cr t := by
  obtain ⟨hkeyed, hbyHash, hbyPrev', hnodup⟩ := h
  rw [← hbyPrev] at hkeyed hbyHash hbyPrev' hnodup
  rw [← horphans] at hbyHash hbyPrev'
  exact ⟨hkeyed, hbyHash, hbyPrev', hnodup⟩

/-- In terms of what is waited for: no known block is. -/
theorem OrphansConsistent.noneStranded_iff (h : OrphansConsistent cr s) :
    NoneStranded s ↔ ∀ x, s.isAwaited x = true → s.mapBlockIndex.find x = none := by
  constructor
  · intro hnone x hx
    obtain ⟨b, hmem⟩ := isAwaited_iff.mp hx
    rw [show x = b.hashPrevBlock from h.keyed _ hmem]
    exact hnone _ b (h.byHash _ hmem)
  · exact fun hall x b hb => hall _ (isAwaited_iff.mpr ⟨b, (h.byPrev x b hb).2⟩)

/-- A new block is held back. -/
theorem OrphansConsistent.hold (h : OrphansConsistent cr s) {block : CBlock}
    (hnew : s.mapOrphanBlocks (block.getHash cr) = none) (stakes : List (COutPoint × Nat)) :
    OrphansConsistent cr { s with
      setStakeSeenOrphan := stakes
      mapOrphanBlocks := Function.update s.mapOrphanBlocks (block.getHash cr) (some block)
      mapOrphanBlocksByPrev := s.mapOrphanBlocksByPrev ++ [(block.hashPrevBlock, block)] } := by
  have hfresh : ∀ q ∈ s.mapOrphanBlocksByPrev, q.2.getHash cr ≠ block.getHash cr := by
    intro q hq heq
    have hsome := h.byHash q hq
    rw [heq, hnew] at hsome
    cases hsome
  refine ⟨fun q hq => ?_, fun q hq => ?_, fun x b hb => ?_, ?_⟩
  · rcases List.mem_append.mp hq with hq | hq
    · exact h.keyed q hq
    · rw [List.mem_singleton.mp hq]
  · rcases List.mem_append.mp hq with hq | hq
    · exact (Function.update_of_ne (hfresh q hq) ..).trans (h.byHash q hq)
    · rw [List.mem_singleton.mp hq]
      exact Function.update_self ..
  · by_cases hx : x = block.getHash cr
    · subst hx
      replace hb : Function.update s.mapOrphanBlocks (block.getHash cr) (some block) (block.getHash cr) = some b := hb
      rw [Function.update_self, Option.some.injEq] at hb
      subst hb
      exact ⟨rfl, List.mem_append_right _ (List.mem_singleton.mpr rfl)⟩
    · obtain ⟨hhash, hmem⟩ := h.byPrev x b ((Function.update_of_ne hx ..).symm.trans hb)
      exact ⟨hhash, List.mem_append_left _ hmem⟩
  · refine List.nodup_append.mpr ⟨h.nodup, List.nodup_singleton _, fun q hq q' hq' heq => ?_⟩
    rw [List.mem_singleton.mp hq'] at heq
    exact hfresh q hq (by rw [heq])

end Maps

/-! ## A round of the work queue -/

section Round

variable (env : NodeContext) (e : BlockEvent) {s : ProcessState}

/-- What a round does to the maps: the blocks that waited are gone by their hash, and the others stay. -/
theorem acceptOrphans_maps : ∀ (l : List CBlock) (r : ProcessState × List Uint256),
    (l.foldl (acceptOrphan env e) r).1.mapOrphanBlocksByPrev = r.1.mapOrphanBlocksByPrev ∧
      (∀ x, (l.foldl (acceptOrphan env e) r).1.mapOrphanBlocks x =
        if x ∈ l.map (·.getHash env.cr) then none else r.1.mapOrphanBlocks x) ∧
      (l.foldl (acceptOrphan env e) r).2.length ≤ r.2.length + l.length
  | [], r => ⟨rfl, fun _ => rfl, Nat.le_refl _⟩
  | o :: l, r => by
    obtain ⟨hbyPrev, horphans, hlength⟩ := acceptOrphans_maps l (acceptOrphan env e r o)
    rw [List.foldl_cons]
    refine ⟨hbyPrev, fun x => ?_, ?_⟩
    · have hone : (acceptOrphan env e r o).1.mapOrphanBlocks x =
          if x = o.getHash env.cr then none else r.1.mapOrphanBlocks x := Function.update_apply ..
      rw [horphans, hone, List.map_cons]
      by_cases hx : x ∈ l.map (·.getHash env.cr)
      · rw [if_pos hx, if_pos (List.mem_cons_of_mem _ hx)]
      · rw [if_neg hx]
        by_cases ho : x = o.getHash env.cr
        · rw [if_pos ho, if_pos (ho ▸ List.mem_cons_self)]
        · rw [if_neg ho, if_neg fun hmem => (List.mem_cons.mp hmem).elim ho hx]
    · have hone : (acceptOrphan env e r o).2.length ≤ r.2.length + 1 := by
        unfold acceptOrphan
        dsimp only
        split
        · rw [List.length_append, List.length_singleton]
        · exact Nat.le_succ _
      rw [List.length_cons]
      omega

theorem byPrev_processWaiting (s : ProcessState) (hashPrev : Uint256) :
    (s.processWaiting env e hashPrev).1.mapOrphanBlocksByPrev = s.mapOrphanBlocksByPrev.filter (·.1 ≠ hashPrev) := by
  unfold ProcessState.processWaiting
  dsimp only
  rw [(acceptOrphans_maps env e (s.waiting hashPrev) (s, [])).1]

/-- A round keeps the maps consistent. -/
theorem OrphansConsistent.processWaiting (h : OrphansConsistent env.cr s) (hashPrev : Uint256) :
    OrphansConsistent env.cr (s.processWaiting env e hashPrev).1 := by
  obtain ⟨-, horphans, -⟩ := acceptOrphans_maps env e (s.waiting hashPrev) (s, [])
  have hmem : ∀ q, q ∈ (s.processWaiting env e hashPrev).1.mapOrphanBlocksByPrev ↔
      q ∈ s.mapOrphanBlocksByPrev ∧ q.1 ≠ hashPrev := by
    intro q
    rw [byPrev_processWaiting, List.mem_filter, decide_eq_true_eq]
  -- a block has the hash of one that waited only if it is that block
  have hkept : ∀ q ∈ s.mapOrphanBlocksByPrev, q.1 ≠ hashPrev →
      q.2.getHash env.cr ∉ (s.waiting hashPrev).map (·.getHash env.cr) := by
    intro q hq hne hwaits
    obtain ⟨o, ho, hhash⟩ := List.mem_map.mp hwaits
    have hwaiting := mem_waiting.mp ho
    have hsome := h.byHash _ hwaiting
    rw [hhash, h.byHash q hq, Option.some.injEq] at hsome
    refine hne ?_
    rw [h.keyed q hq, hsome]
    exact (h.keyed _ hwaiting).symm
  refine ⟨fun q hq => h.keyed q ((hmem q).mp hq).1, fun q hq => ?_, fun x b hb => ?_, ?_⟩
  · obtain ⟨hq, hne⟩ := (hmem q).mp hq
    refine (horphans _).trans ?_
    rw [if_neg (hkept q hq hne)]
    exact h.byHash q hq
  · replace hb := (horphans x).symm.trans hb
    by_cases hx : x ∈ (s.waiting hashPrev).map (·.getHash env.cr)
    · rw [if_pos hx] at hb
      cases hb
    · rw [if_neg hx] at hb
      obtain ⟨hhash, hin⟩ := h.byPrev x b hb
      refine ⟨hhash, (hmem _).mpr ⟨hin, fun heq => hx ?_⟩⟩
      rw [← hhash]
      exact List.mem_map_of_mem (mem_waiting.mpr (heq ▸ hin))
  · rw [byPrev_processWaiting]
    exact h.nodup.filter _

/-- Working off the queue keeps the maps consistent. -/
theorem OrphansConsistent.processOrphans (h : OrphansConsistent env.cr s) (hash : Uint256) :
    OrphansConsistent env.cr (s.processOrphans env e hash) :=
  Worklist.drain_inv (fun _ hashPrev hu (_ : True) => hu.processWaiting env e hashPrev) h
    (Worklist.meets_of_forall fun _ _ => trivial)

/-- A round takes as many entries out of the map as blocks waited. -/
theorem length_processWaiting (s : ProcessState) (hashPrev : Uint256) :
    (s.processWaiting env e hashPrev).1.mapOrphanBlocksByPrev.length + (s.processWaiting env e hashPrev).2.length ≤
      s.mapOrphanBlocksByPrev.length := by
  have hsplit : (s.waiting hashPrev).length + (s.mapOrphanBlocksByPrev.filter (·.1 ≠ hashPrev)).length =
      s.mapOrphanBlocksByPrev.length := by
    unfold waiting
    rw [List.length_map]
    have hfilter := List.length_eq_length_filter_add (l := s.mapOrphanBlocksByPrev) (fun q => decide (q.1 = hashPrev))
    rw [hfilter]
    simp
  have hlength : (s.processWaiting env e hashPrev).2.length ≤ 0 + (s.waiting hashPrev).length :=
    (acceptOrphans_maps env e (s.waiting hashPrev) (s, [])).2.2
  rw [byPrev_processWaiting]
  omega

end Round

/-! ## What is left behind -/

/-- A block that `AcceptBlock` stores without accepting it is not waited for. -/
def LeavesNone (env : NodeContext) (e : BlockEvent) (s : ProcessState) (block : CBlock) (dbp : Option CDiskBlockPos) :
    Prop :=
  s.checkBefore env block = .ok () → (s.acceptBlock env e block dbp).2 ≠ none →
    s.isAwaited (block.getHash env.cr) = false

/-- A round of the work queue leaves none behind. -/
def RoundLeavesNone (env : NodeContext) (e : BlockEvent) (s : ProcessState) (hashPrev : Uint256) : Prop :=
  Meets (acceptOrphan env e) (fun r o => LeavesNone env e r.1 o none) (s, []) (s.waiting hashPrev)

/-- A step leaves none behind: a block that it stores without accepting it is not waited for, be it the block itself or
one that has waited, and a predecessor that was set aside is not waited for when it is stored. -/
structure StepLeavesNone (cfg : Settings) (cr : Crypto) (s : ProcessState) (e : BlockEvent) : Prop where
  parent : ∀ pprev u, ReachesParent (e.context cfg cr) e s pprev u → u.checkBefore (e.context cfg cr) pprev = .ok () →
    u.isAwaited (pprev.getHash cr) = false
  block : ∀ t, ReachesBlock (e.context cfg cr) e s t → LeavesNone (e.context cfg cr) e t e.block e.dbp
  waiting : ∀ t, ReachesBlock (e.context cfg cr) e s t → (t.acceptBlock (e.context cfg cr) e e.block e.dbp).2 = none →
    Worklist.Meets (processWaiting (e.context cfg cr) e) (RoundLeavesNone (e.context cfg cr) e)
      (t.mapOrphanBlocksByPrev.length + 1) [e.block.getHash cr] (t.acceptBlock (e.context cfg cr) e e.block e.dbp).1

section Stranded

variable {env : NodeContext} {e : BlockEvent} {s t : ProcessState}

/-- A known block is waited for. -/
def Open (s : ProcessState) (x : Uint256) : Prop := s.isAwaited x = true ∧ (s.mapBlockIndex.find x).isSome = true

theorem OrphansConsistent.noneStranded_iff_open {cr : Crypto} (h : OrphansConsistent cr s) :
    NoneStranded s ↔ ∀ x, ¬ Open s x := by
  rw [h.noneStranded_iff]
  refine forall_congr' fun x => ?_
  rw [Open, not_and, Option.not_isSome_iff_eq_none]

/-- Accepting a block opens what waits for it, and nothing else. -/
theorem open_acceptBlock {block : CBlock} {dbp : Option CDiskBlockPos} {x : Uint256}
    (hx : Open (s.acceptBlock env e block dbp).1 x) :
    Open s x ∨ (x = block.getHash env.cr ∧ s.checkBefore env block = .ok () ∧ s.isAwaited x = true) := by
  cases hbefore : s.checkBefore env block with
  | error failure =>
    rw [acceptBlock_refused hbefore] at hx
    exact .inl hx
  | ok u =>
    have hstores : Stores env s block dbp (s.acceptBlock env e block dbp).1 := acceptBlock_stores hbefore
    obtain ⟨hawaited, hsome⟩ := hx
    rw [hstores.known, Bool.or_eq_true, decide_eq_true_eq] at hsome
    rcases hsome with heq | hsome
    · exact .inr ⟨heq, rfl, hawaited⟩
    · exact .inl ⟨hawaited, hsome⟩

/-- What is open behind a block that waited was open before, or waits for a block that was accepted. -/
theorem open_acceptOrphan {r : ProcessState × List Uint256} {o : CBlock} {x : Uint256}
    (hleaves : LeavesNone env e r.1 o none) (hx : Open (acceptOrphan env e r o).1 x) :
    Open r.1 x ∨ x ∈ (acceptOrphan env e r o).2 := by
  have haccept : Open (r.1.acceptBlock env e o none).1 x := hx
  rcases open_acceptBlock haccept with hbefore | ⟨heq, hchecks, hawaited⟩
  · exact .inl hbefore
  · refine .inr ?_
    unfold acceptOrphan
    dsimp only
    cases hresult : (r.1.acceptBlock env e o none).2 with
    | none =>
      rw [Option.isNone_none, if_pos rfl, heq]
      exact List.mem_append_right _ List.mem_cons_self
    | some failure =>
      have hnot := hleaves hchecks (by rw [hresult]; exact Option.some_ne_none _)
      rw [← heq, hawaited] at hnot
      cases hnot

theorem subset_acceptOrphan (r : ProcessState × List Uint256) (o : CBlock) : r.2 ⊆ (acceptOrphan env e r o).2 := by
  unfold acceptOrphan
  dsimp only
  split
  · exact List.subset_append_left _ _
  · exact List.Subset.refl _

/-- What is open behind a round was open before it, under another hash, or waits for a block that was accepted. -/
theorem open_processWaiting {hashPrev x : Uint256} (hleaves : RoundLeavesNone env e s hashPrev)
    (hx : Open (s.processWaiting env e hashPrev).1 x) :
    (Open s x ∧ x ≠ hashPrev) ∨ x ∈ (s.processWaiting env e hashPrev).2 := by
  have hfold : ∀ y, Open ((s.waiting hashPrev).foldl (acceptOrphan env e) (s, [])).1 y →
      Open s y ∨ y ∈ ((s.waiting hashPrev).foldl (acceptOrphan env e) (s, [])).2 :=
    exec_inv (I := fun r => ∀ y, Open r.1 y → Open s y ∨ y ∈ r.2) (fun r o hr hone y hy =>
      (open_acceptOrphan hone hy).elim (fun hy => (hr y hy).imp_right (subset_acceptOrphan r o ·)) .inr)
      (fun y hy => .inl hy) hleaves
  obtain ⟨hawaited, hknown⟩ := hx
  obtain ⟨b, hmem⟩ := isAwaited_iff.mp hawaited
  rw [byPrev_processWaiting, List.mem_filter, decide_eq_true_eq] at hmem
  have hbefore : Open ((s.waiting hashPrev).foldl (acceptOrphan env e) (s, [])).1 x := by
    refine ⟨isAwaited_iff.mpr ⟨b, ?_⟩, hknown⟩
    rw [(acceptOrphans_maps env e (s.waiting hashPrev) (s, [])).1]
    exact hmem.1
  exact (hfold x hbefore).imp_left fun h => ⟨h, hmem.2⟩

/-- **Working off the queue strands nothing**: what waits for the accepted block, and for those behind it, is accepted
or dropped, when nothing else is open. -/
theorem processOrphans_open {hash : Uint256} (hopen : ∀ x, Open s x → x = hash)
    (hleaves : Worklist.Meets (processWaiting env e) (RoundLeavesNone env e) (s.mapOrphanBlocksByPrev.length + 1) [hash] s)
    (x : Uint256) : ¬ Open (s.processOrphans env e hash) x := by
  have hsettled := @Worklist.drain_settled _ _ (processWaiting env e) (fun _ => True) (RoundLeavesNone env e) Open
    (fun u => u.mapOrphanBlocksByPrev.length) (fun _ _ _ _ => trivial)
    (fun u hashPrev y _ hu hy => open_processWaiting hu hy) (length_processWaiting env e)
  refine hsettled trivial hleaves (fun y hy => List.mem_singleton.mpr (hopen y hy)) ?_ x
  rw [List.length_singleton, Nat.add_comm]

end Stranded

/-! ## The steps -/

section Runs

variable {cfg : Settings} {cr : Crypto} {s t : ProcessState} {e : BlockEvent}

theorem Prepared.maps {env : NodeContext} (h : Prepared env e s t) : t.mapOrphanBlocks = s.mapOrphanBlocks ∧
    t.mapOrphanBlocksByPrev = s.mapOrphanBlocksByPrev := by
  cases h with
  | same hsame => exact ⟨hsame.orphans, hsame.byPrev⟩
  | parent pprev u _ hu hsame => exact ⟨hsame.orphans.trans hu.orphans, hsame.byPrev.trans hu.byPrev⟩

/-- **The maps hold the same blocks** behind every step. -/
theorem orphansConsistent_step (h : OrphansConsistent cr s) : OrphansConsistent cr (s.step cfg cr e) := by
  have hcases := processBlock_cases (e.context cfg cr) e s
  unfold step
  generalize (run (processBlock (e.context cfg cr) e) s).2 = s' at hcases ⊢
  cases hcases with
  | dropped hprepared => exact h.congr hprepared.maps.1 hprepared.maps.2
  | held hprepared hnew hunknown stakes =>
    exact (h.congr hprepared.maps.1 hprepared.maps.2).hold (by rw [hprepared.maps.1]; exact hnew) stakes
  | failed hprepared => exact h.congr hprepared.maps.1 hprepared.maps.2
  | @accepted t hprepared =>
    have haccept : OrphansConsistent cr (t.acceptBlock (e.context cfg cr) e e.block e.dbp).1 :=
      h.congr hprepared.maps.1 hprepared.maps.2
    exact haccept.processOrphans (e.context cfg cr) e _

/-- Nothing is open when a step comes to the block itself. -/
theorem open_prepared (hopen : ∀ x, ¬ Open s x) (hleaves : StepLeavesNone cfg cr s e)
    (ht : Prepared (e.context cfg cr) e s t) (x : Uint256) : ¬ Open t x := by
  have hsame : ∀ {u v : ProcessState}, SameBlocks u v → Open v x → Open u x := by
    rintro u v huv ⟨hawaited, hknown⟩
    rw [huv.known] at hknown
    rw [isAwaited, huv.byPrev] at hawaited
    exact ⟨hawaited, hknown⟩
  intro hx
  cases ht with
  | same hs => exact hopen x (hsame hs hx)
  | parent pprev u hreaches hu hs =>
    rcases open_acceptBlock (hsame hs hx) with hbefore | ⟨heq, hchecks, hawaited⟩
    · exact hopen x (hsame hu hbefore)
    · have hnot := hleaves.parent pprev u hreaches hchecks
      rw [show pprev.getHash cr = x from heq.symm, hawaited] at hnot
      cases hnot

/-- **A step that leaves none behind strands no block.** -/
theorem noneStranded_step (h : OrphansConsistent cr s) (hnone : NoneStranded s) (hleaves : StepLeavesNone cfg cr s e) :
    NoneStranded (s.step cfg cr e) := by
  rw [(orphansConsistent_step h).noneStranded_iff_open]
  rw [h.noneStranded_iff_open] at hnone
  have hcases := processBlock_cases (e.context cfg cr) e s
  unfold step
  generalize (run (processBlock (e.context cfg cr) e) s).2 = s' at hcases ⊢
  intro x hx
  cases hcases with
  | dropped hprepared => exact open_prepared hnone hleaves hprepared x hx
  | @held t hprepared _ hunknown stakes =>
    obtain ⟨hawaited, hknown⟩ := hx
    obtain ⟨b, hmem⟩ := isAwaited_iff.mp hawaited
    rcases List.mem_append.mp hmem with hmem | hmem
    · exact open_prepared hnone hleaves hprepared x ⟨isAwaited_iff.mpr ⟨b, hmem⟩, hknown⟩
    · obtain rfl : x = e.block.hashPrevBlock := congrArg (·.1) (List.mem_singleton.mp hmem)
      rw [show t.mapBlockIndex.find e.block.hashPrevBlock = none from hunknown] at hknown
      cases hknown
  | failed hprepared hreaches hfails =>
    rcases open_acceptBlock hx with hbefore | ⟨heq, hchecks, hawaited⟩
    · exact open_prepared hnone hleaves hprepared x hbefore
    · have hnot := hleaves.block _ hreaches hchecks hfails
      rw [← heq, hawaited] at hnot
      cases hnot
  | @accepted t hprepared hreaches haccepts =>
    refine processOrphans_open (fun y hy => ?_) (hleaves.waiting _ hreaches haccepts) x hx
    rcases open_acceptBlock hy with hbefore | ⟨heq, -, -⟩
    · exact absurd hbefore (open_prepared hnone hleaves hprepared y)
    · exact heq

/-- **No block is stranded**, and both maps hold the same blocks, in every state of a run that starts without blocks
that are held back, when every step leaves none behind. The second part needs no condition. -/
theorem orphans_inOrder (cfg : Settings) (cr : Crypto) (s₀ : ProcessState) (es : List BlockEvent)
    (horphans : ∀ h, s₀.mapOrphanBlocks h = none) (hbyPrev : s₀.mapOrphanBlocksByPrev = []) :
    Always (step cfg cr) (OrphansConsistent cr) s₀ es ∧
      (Meets (step cfg cr) (StepLeavesNone cfg cr) s₀ es → Always (step cfg cr) NoneStranded s₀ es) := by
  have hconsistent : OrphansConsistent cr s₀ := by
    refine ⟨?_, ?_, fun h b hb => ?_, ?_⟩
    · rw [hbyPrev]
      exact List.forall_mem_nil _
    · rw [hbyPrev]
      exact List.forall_mem_nil _
    · rw [horphans] at hb
      cases hb
    · rw [hbyPrev]
      exact List.nodup_nil
  have hnone : NoneStranded s₀ := by
    intro h b hb
    rw [horphans] at hb
    cases hb
  constructor
  · exact always_of_inv (C := fun _ _ => True) (fun s e hs _ => orphansConsistent_step hs) hconsistent
      (meets_of_forall fun _ _ => trivial)
  · intro hleaves es' hprefix
    have halways := always_of_inv (I := fun s => OrphansConsistent cr s ∧ NoneStranded s)
      (fun s e hs he => ⟨orphansConsistent_step hs.1, noneStranded_step hs.1 hs.2 he⟩) ⟨hconsistent, hnone⟩ hleaves
    exact (halways es' hprefix).2

end Runs

/-! ## Blocks that wait for a block -/

section Decide

variable (env : NodeContext) (e : BlockEvent) (s : ProcessState)

instance decidableLeavesNone (block : CBlock) (dbp : Option CDiskBlockPos) : Decidable (LeavesNone env e s block dbp) :=
  inferInstanceAs (Decidable (s.checkBefore env block = .ok () → (s.acceptBlock env e block dbp).2 ≠ none →
    s.isAwaited (block.getHash env.cr) = false))

instance decidableRoundLeavesNone (hashPrev : Uint256) : Decidable (RoundLeavesNone env e s hashPrev) :=
  inferInstanceAs (Decidable (Meets (acceptOrphan env e) (fun r o => LeavesNone env e r.1 o none) (s, []) (s.waiting hashPrev)))

end Decide

/-- A step without a predecessor that was set aside, by what its run comes to. -/
theorem stepLeavesNone_of_run {cfg : Settings} {cr : Crypto} {s : ProcessState} {e : BlockEvent}
    (hparent : s.mapDuplicateStakeBlocks e.block.hashPrevBlock = none)
    (hrun : (run (prepare (e.context cfg cr) e) s).2.isDetached e.block = true ∨
      LeavesNone (e.context cfg cr) e (run (prepare (e.context cfg cr) e) s).2 e.block e.dbp ∧
        Worklist.Meets (processWaiting (e.context cfg cr) e) (RoundLeavesNone (e.context cfg cr) e)
          ((run (prepare (e.context cfg cr) e) s).2.mapOrphanBlocksByPrev.length + 1) [e.block.getHash cr]
          ((run (prepare (e.context cfg cr) e) s).2.acceptBlock (e.context cfg cr) e e.block e.dbp).1) :
    StepLeavesNone cfg cr s e := by
  have hreached : ∀ t, ReachesBlock (e.context cfg cr) e s t →
      (run (prepare (e.context cfg cr) e) s).2 = t ∧ t.isDetached e.block = false :=
    fun t ht => ⟨by rw [ht.reaches], ht.attached⟩
  rcases hrun with hdetached | ⟨hblock, hwaiting⟩
  · refine ⟨fun _ _ h => absurd h (not_reachesParent hparent), fun t ht => ?_, fun t ht => ?_⟩
    all_goals
      obtain ⟨rfl, hattached⟩ := hreached t ht
      rw [hdetached] at hattached
      cases hattached
  · refine ⟨fun _ _ h => absurd h (not_reachesParent hparent), fun t ht => ?_, fun t ht _ => ?_⟩
    · obtain ⟨rfl, -⟩ := hreached t ht
      exact hblock
    · obtain ⟨rfl, -⟩ := hreached t ht
      exact hwaiting

/-- A peer sends a proof-of-work block. -/
def sentMined (hash hashPrevBlock nTime : Nat) : BlockEvent where
  block := { sampleBlock hash hashPrevBlock nTime
    [sampleCoinbase (1000 + hash) nTime { nValue := 10000, scriptPubKey := sampleScript }] with nBits := 0x1e00ffff }
  fFrom := true
  nAdjustedTime := 1400000120
  fuel := 3

/-- A block waits for the one below it, and becomes the best block when this comes. -/
theorem orphans_inOrder_sample :
    Always (step noCheckpoints Crypto.sample) NoneStranded { toNodeState := genesisNode }
        [sentMined 5 2 1400000120, sentMined 2 hashGenesisBlockOfficial 1400000060] ∧
      (exec (step noCheckpoints Crypto.sample) { toNodeState := genesisNode }
        [sentMined 5 2 1400000120]).isOrphan 5 = true ∧
      (exec (step noCheckpoints Crypto.sample) { toNodeState := genesisNode }
        [sentMined 5 2 1400000120, sentMined 2 hashGenesisBlockOfficial 1400000060]).pindexBest = some 5 := by
  refine ⟨(orphans_inOrder noCheckpoints Crypto.sample { toNodeState := genesisNode }
    [sentMined 5 2 1400000120, sentMined 2 hashGenesisBlockOfficial 1400000060] (fun _ => rfl) rfl).2 ⟨?_, ?_, trivial⟩,
      by decide +kernel, by decide +kernel⟩
  · exact stepLeavesNone_of_run rfl (by decide +kernel)
  · exact stepLeavesNone_of_run (by decide +kernel) (by decide +kernel)

/-! ## A block that waits for a predecessor that was set aside -/

/-- A node that stands at the last of 402 blocks. -/
def stakedNode : ProcessState where
  toNodeState := longNode

/-- A peer sends a proof-of-stake block. -/
def sentStake (hash hashPrevBlock nTime staked : Nat) : BlockEvent where
  block := stakeBlock hash hashPrevBlock nTime staked [parkRateResult]
  fFrom := true
  nTime := 1400000120
  nAdjustedTime := 1400000120
  fuel := 3

/-- The block `405` waits for the block `404`, which then comes, with the stake of the best block `403`, and is set
aside; with the block `406`, which is built upon it, it is accepted after all. -/
def reaccepted : List BlockEvent :=
  [sentStake 403 402 1400000060 1, sentStake 405 404 1400000120 2, sentStake 404 402 1400000060 1,
    sentStake 406 404 1400000120 2]

/-- **A block that is left behind**: its predecessor is in the index, and it can not be received again. -/
theorem orphan_stranded :
    ¬ NoneStranded (exec (step noCheckpoints Crypto.sample) stakedNode reaccepted) ∧
      (exec (step noCheckpoints Crypto.sample) stakedNode reaccepted).pindexBest = some 406 ∧
      failure? (run (processBlock ((sentStake 405 404 1400000120 2).context noCheckpoints Crypto.sample)
        (sentStake 405 404 1400000120 2)) (exec (step noCheckpoints Crypto.sample) stakedNode reaccepted)).1 =
          some (.dos 0 false "ProcessBlock() : already have block (orphan)") := by
  obtain ⟨s, hs⟩ : ∃ s, s = exec (step noCheckpoints Crypto.sample) stakedNode reaccepted := ⟨_, rfl⟩
  have hstranded : (s.mapOrphanBlocks 405).map (·.hashPrevBlock) = some 404 ∧
      (s.mapBlockIndex.find 404).isSome = true := by
    rw [hs]
    decide +kernel
  refine ⟨fun hnone => ?_, by decide +kernel, by decide +kernel⟩
  rw [← hs] at hnone
  obtain ⟨b, hb, hprev⟩ := Option.map_eq_some_iff.mp hstranded.1
  have hunknown := hnone 405 b hb
  rw [hprev] at hunknown
  rw [hunknown] at hstranded
  cases hstranded.2

end ProcessState

end Morcochain
