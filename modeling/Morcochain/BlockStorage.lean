import Morcochain.ProcessBlock
import Morcochain.Elected

/-!
# Where accepted blocks are

Blocks that peers send are stored at the running size of the last block file; blocks that `LoadExternalBlockFile` reads
from the node's own files stay where they are, and the running size grows by their size and header only.

* `FilesInOrder` : the accepted blocks are where their entries say.
* `filesInOrder_step` : **what keeps this**: a block that is read begins where its file was in use up to, and no
  predecessor that was set aside is accepted with it.
* `blocks_inPlace` : then **every accepted block is in its place**, clear of the others, along every run.
* `gap_overwritten` : a block behind a gap is overwritten by the next one.
-/

set_option autoImplicit false

namespace Morcochain

open Guard Filling Run Extents

/-- The file holds the block at the position, which is its running size, or behind a header there. -/
structure BlockFiles.InPlace (s : BlockFiles) (block : CBlock) (pos : CDiskBlockPos) : Prop where
  low : s.bound pos.nFile ≤ pos.nPos
  high : pos.nPos ≤ s.bound pos.nFile + 8
  holds : Holds (s.content pos.nFile) pos.nPos (writeBlock block)

namespace ProcessState

/-! ## The invariant -/

/-- The serialization of the block of a hash. -/
def storedText (s : ProcessState) (hash : Uint256) : Bytes := (s.blocks hash).elim [] writeBlock

/-- The blocks that were accepted since a state are where their entries say, and they are the blocks of these entries. -/
structure FilesInOrder (cr : Crypto) (s₀ s : ProcessState) : Prop where
  stored : s.blockFiles.Stored s.storedText
  indexed : ∀ h, (s.blockFiles.position h).isSome = true → (s.mapBlockIndex.find h).isSome = true
  placed : ∀ h, (s.mapBlockIndex.find h).isSome = true →
    (s₀.mapBlockIndex.find h).isSome = true ∨ (s.blockFiles.position h).isSome = true
  named : ∀ h, (s.blockFiles.position h).isSome = true → ∃ block, s.blocks h = some block ∧ block.getHash cr = h

/-- What is promised of the accepted blocks: each one is in the file and at the position of its entry, and no two have a
byte in common. -/
structure BlocksInPlace (cr : Crypto) (s₀ s : ProcessState) : Prop where
  held : ∀ h, (s.mapBlockIndex.find h).isSome = true → (s₀.mapBlockIndex.find h).isSome = true ∨
    ∃ f n block, s.blockFiles.position h = some (f, n) ∧ s.blocks h = some block ∧ block.getHash cr = h ∧
      Holds (s.blockFiles.content f) n (writeBlock block)
  apart : ∀ h h' f n n' block block', h ≠ h' → s.blockFiles.position h = some (f, n) →
    s.blockFiles.position h' = some (f, n') → s.blocks h = some block → s.blocks h' = some block' →
    Clear n (writeBlock block).length n' (writeBlock block').length

section Keeps

variable {s₀ s t : ProcessState} {block : CBlock} {dbp : Option CDiskBlockPos}

/-- The invariant is about the files, the blocks and the known hashes. -/
theorem FilesInOrder.congr {cr : Crypto} (h : FilesInOrder cr s₀ s) (hfiles : t.blockFiles = s.blockFiles)
    (hblocks : t.blocks = s.blocks)
    (hknown : ∀ x, (t.mapBlockIndex.find x).isSome = (s.mapBlockIndex.find x).isSome) : FilesInOrder cr s₀ t where
  stored := by
    rw [hfiles, show t.storedText = s.storedText by unfold storedText; rw [hblocks]]
    exact h.stored
  indexed x hx := by
    rw [hfiles] at hx
    rw [hknown]
    exact h.indexed x hx
  placed x hx := by
    rw [hknown] at hx
    rw [hfiles]
    exact h.placed x hx
  named x hx := by
    rw [hfiles] at hx
    rw [hblocks]
    exact h.named x hx

theorem FilesInOrder.same {cr : Crypto} (h : FilesInOrder cr s₀ s) (hs : SameBlocks s t) : FilesInOrder cr s₀ t :=
  h.congr hs.files hs.blocks hs.known

/-- A block that is stored is stored at a chosen position, or is in its place already. -/
theorem FilesInOrder.accept (env : NodeContext) (e : BlockEvent) (h : FilesInOrder env.cr s₀ s)
    (hplace : s.checkBefore env block = .ok () → ∀ pos, dbp = some pos → s.blockFiles.InPlace block pos) :
    FilesInOrder env.cr s₀ (s.acceptBlock env e block dbp).1 := by
  cases hbefore : s.checkBefore env block with
  | error failure =>
    rw [acceptBlock_refused hbefore]
    exact h
  | ok u =>
    have hs : Stores env s block dbp (s.acceptBlock env e block dbp).1 := acceptBlock_stores hbefore
    generalize (s.acceptBlock env e block dbp).1 = t at hs ⊢
    have hunknown : s.mapBlockIndex.find (block.getHash env.cr) = none := NodeState.find_of_checkBefore hbefore
    have hnew : s.blockFiles.position (block.getHash env.cr) = none := by
      by_contra hne
      have hsome := h.indexed _ (Option.isSome_iff_ne_none.mpr hne)
      rw [hunknown] at hsome
      cases hsome
    have htext : t.storedText = Function.update s.storedText (block.getHash env.cr) (writeBlock block) := by
      funext x
      unfold storedText
      rw [hs.blocks, Function.update_apply, Function.update_apply]
      split
      · rfl
      · rfl
    have hposition : ∀ x, (t.blockFiles.position x).isSome =
        (decide (x = block.getHash env.cr) || (s.blockFiles.position x).isSome) := by
      intro x
      rw [hs.files]
      exact BlockFiles.position_storeBlock ..
    refine ⟨?_, fun x hx => ?_, fun x hx => ?_, fun x hx => ?_⟩
    · rw [hs.files, htext]
      cases dbp with
      | none => exact BlockFiles.stored_storeBlock h.stored hnew
      | some pos =>
        obtain ⟨hlow, hhigh, hholds⟩ := hplace hbefore pos rfl
        exact BlockFiles.stored_knownBlock h.stored hnew hlow hhigh hholds
    · rw [hposition, Bool.or_eq_true, decide_eq_true_eq] at hx
      rw [hs.known, Bool.or_eq_true, decide_eq_true_eq]
      exact hx.imp_right (h.indexed x)
    · rw [hs.known, Bool.or_eq_true, decide_eq_true_eq] at hx
      rw [hposition, Bool.or_eq_true, decide_eq_true_eq]
      rcases hx with hx | hx
      · exact .inr (.inl hx)
      · exact (h.placed x hx).imp_right .inr
    · rw [hposition, Bool.or_eq_true, decide_eq_true_eq] at hx
      rw [hs.blocks]
      by_cases hx' : x = block.getHash env.cr
      · rw [hx', Function.update_self]
        exact ⟨block, rfl, rfl⟩
      · rw [Function.update_of_ne hx']
        exact h.named x (hx.resolve_left hx')

/-- The blocks that wait are stored at chosen positions. -/
theorem FilesInOrder.processOrphans (env : NodeContext) (e : BlockEvent) (h : FilesInOrder env.cr s₀ s)
    (hash : Uint256) :
    FilesInOrder env.cr s₀ (s.processOrphans env e hash) := by
  have hone : ∀ (r : ProcessState × List Uint256) (o : CBlock), FilesInOrder env.cr s₀ r.1 →
      FilesInOrder env.cr s₀ (acceptOrphan env e r o).1 := by
    intro r o hr
    have haccept : FilesInOrder env.cr s₀ (r.1.acceptBlock env e o none).1 :=
      hr.accept env e fun _ pos hpos => nomatch hpos
    exact haccept.congr rfl rfl fun _ => rfl
  have hround : ∀ (u : ProcessState) (hashPrev : Uint256), FilesInOrder env.cr s₀ u → True →
      FilesInOrder env.cr s₀ (processWaiting env e u hashPrev).1 := by
    intro u hashPrev hu _
    have hfold : FilesInOrder env.cr s₀ ((u.waiting hashPrev).foldl (acceptOrphan env e) (u, [])).1 :=
      List.foldlRecOn (u.waiting hashPrev) (acceptOrphan env e) hu fun r hr o _ => hone r o hr
    exact hfold.congr rfl rfl fun _ => rfl
  exact Worklist.drain_inv hround h (Worklist.meets_of_forall fun _ _ => trivial)

end Keeps

/-! ## The steps -/

/-- What is asked of a block that is read from a file: it is in its place when `ProcessBlock` comes to store it, and its
predecessor is not stored with it. -/
structure ReadInPlace (cfg : Settings) (cr : Crypto) (s : ProcessState) (e : BlockEvent) : Prop where
  block : ∀ pos t, e.dbp = some pos → ReachesBlock (e.context cfg cr) e s t →
    t.checkBefore (e.context cfg cr) e.block = .ok () → s.blockFiles.InPlace e.block pos
  parent : ∀ pprev u, e.dbp.isSome = true → ReachesParent (e.context cfg cr) e s pprev u →
    u.checkBefore (e.context cfg cr) pprev ≠ .ok ()

section Runs

variable {cfg : Settings} {cr : Crypto} {s₀ s t : ProcessState} {e : BlockEvent}

/-- Until the block itself is stored, the files are as they were when its position is known, and in order anyway. -/
theorem FilesInOrder.prepared (h : FilesInOrder cr s₀ s) (hread : ReadInPlace cfg cr s e)
    (ht : Prepared (e.context cfg cr) e s t) :
    FilesInOrder cr s₀ t ∧ (e.dbp.isSome = true → t.blockFiles = s.blockFiles) := by
  cases ht with
  | same hsame => exact ⟨h.same hsame, fun _ => hsame.files⟩
  | parent pprev u hreaches hu hsame =>
    cases hdbp : e.dbp with
    | none =>
      rw [hdbp] at hsame
      have haccept : FilesInOrder cr s₀ (u.acceptBlock (e.context cfg cr) e pprev none).1 :=
        (h.same hu).accept (e.context cfg cr) e fun _ pos hpos => nomatch hpos
      exact ⟨haccept.same hsame, fun hsome => nomatch hsome⟩
    | some pos =>
      cases hbefore : u.checkBefore (e.context cfg cr) pprev with
      | ok _ => exact absurd hbefore (hread.parent pprev u (by rw [hdbp]; rfl) hreaches)
      | error failure =>
        rw [acceptBlock_refused hbefore] at hsame
        exact ⟨(h.same hu).same hsame, fun _ => (hu.trans hsame).files⟩

/-- **A step keeps the files in order** when what it reads is in place. -/
theorem filesInOrder_step (h : FilesInOrder cr s₀ s) (hread : ReadInPlace cfg cr s e) :
    FilesInOrder cr s₀ (s.step cfg cr e) := by
  have hcases := processBlock_cases (e.context cfg cr) e s
  unfold step
  generalize (run (processBlock (e.context cfg cr) e) s).2 = s' at hcases ⊢
  have hplace : ∀ t, FilesInOrder cr s₀ t → (e.dbp.isSome = true → t.blockFiles = s.blockFiles) →
      ReachesBlock (e.context cfg cr) e s t →
        FilesInOrder cr s₀ (t.acceptBlock (e.context cfg cr) e e.block e.dbp).1 := by
    intro t ht hfiles hreaches
    refine ht.accept (e.context cfg cr) e fun hbefore pos hpos => ?_
    rw [hfiles (by rw [hpos]; rfl)]
    exact hread.block pos t hpos hreaches hbefore
  cases hcases with
  | dropped hprepared => exact (h.prepared hread hprepared).1
  | held hprepared => exact (h.prepared hread hprepared).1.congr rfl rfl fun _ => rfl
  | failed hprepared hreaches =>
    obtain ⟨ht, hfiles⟩ := h.prepared hread hprepared
    exact hplace _ ht hfiles hreaches
  | accepted hprepared hreaches =>
    obtain ⟨ht, hfiles⟩ := h.prepared hread hprepared
    exact (hplace _ ht hfiles hreaches).processOrphans (e.context cfg cr) e _

theorem FilesInOrder.blocksInPlace (h : FilesInOrder cr s₀ s) : BlocksInPlace cr s₀ s where
  held x hx := by
    refine (h.placed x hx).imp_right fun hplaced => ?_
    obtain ⟨⟨f, n⟩, hpos⟩ := Option.isSome_iff_exists.mp hplaced
    obtain ⟨block, hblock, hhash⟩ := h.named x hplaced
    refine ⟨f, n, block, hpos, hblock, hhash, ?_⟩
    have hholds := h.stored.texts.holds hpos
    rwa [storedText, hblock] at hholds
  apart x x' f n n' block block' hne hpos hpos' hblock hblock' := by
    have hclear := h.stored.texts.clear hne hpos hpos'
    rwa [storedText, storedText, hblock, hblock'] at hclear

/-- **Accepted blocks are in their places**, and clear of each other, in every state of a run that starts without any,
whatever the files hold and their records say, when every block that is read is in place then. -/
theorem blocks_inPlace (cfg : Settings) (cr : Crypto) (s₀ : ProcessState) (es : List BlockEvent)
    (hempty : ∀ h, s₀.blockFiles.position h = none)
    (hsynced : s₀.blockFiles.infoLastBlockFile = s₀.blockFiles.readBlockFileInfo s₀.blockFiles.nLastBlockFile)
    (hread : Meets (step cfg cr) (ReadInPlace cfg cr) s₀ es) : Always (step cfg cr) (BlocksInPlace cr s₀) s₀ es := by
  have hnone : ∀ h, ¬ (s₀.blockFiles.position h).isSome = true := by
    intro h hsome
    rw [hempty] at hsome
    cases hsome
  have hplaces : ∀ {h f n}, s₀.blockFiles.position h ≠ some (f, n) := by
    intro h f n hsome
    rw [hempty] at hsome
    cases hsome
  have hstart : FilesInOrder cr s₀ s₀ := by
    refine ⟨⟨⟨?_, ?_, ?_⟩, hsynced⟩, fun h hh => absurd hh (hnone h), fun h hh => .inl hh,
      fun h hh => absurd hh (hnone h)⟩
    · exact fun hp => absurd hp hplaces
    · exact fun hp => absurd hp hplaces
    · exact fun _ hp => absurd hp hplaces
  have halways : Always (step cfg cr) (FilesInOrder cr s₀) s₀ es :=
    always_of_inv (fun s e hs he => filesInOrder_step hs he) hstart hread
  exact fun es' hprefix => (halways es' hprefix).blocksInPlace

end Runs

/-! ## A block behind a gap -/

/-- A node that knows the genesis block only, with a block in its first file, which begins with a gap. -/
def gapNode (nGap : Nat) : ProcessState where
  toNodeState := genesisNode
  blockFiles :=
    { content := fun _ => writeAt (fun i => if i < nGap then some 0 else none) nGap
        (pchMessageStart ++ writeLE 4 minedAbove.block.serializeSize ++ writeBlock minedAbove.block) }

/-- `LoadExternalBlockFile` comes to the block behind the gap. -/
def readBehind (nGap : Nat) : BlockEvent where
  block := minedAbove.block
  dbp := some ⟨0, nGap + 8⟩
  nAdjustedTime := 1400000060
  fuel := 2

/-- A peer sends another block upon the genesis block. -/
def sentAbove : BlockEvent where
  block := { sampleBlock 3 hashGenesisBlockOfficial 1400000060
    [sampleCoinbase 1003 1400000060 { nValue := 10000, scriptPubKey := sampleScript }] with nBits := 0x1e00ffff }
  fFrom := true
  nAdjustedTime := 1400000060
  fuel := 2

/-- Without a gap both blocks are in their places. -/
theorem blocks_inPlace_sample : Always (step noCheckpoints Crypto.sample) (BlocksInPlace Crypto.sample (gapNode 0))
    (gapNode 0) [readBehind 0, sentAbove] := by
  refine blocks_inPlace noCheckpoints Crypto.sample (gapNode 0) [readBehind 0, sentAbove] (fun _ => rfl) rfl ⟨?_, ?_,
    trivial⟩
  · refine ⟨fun pos t hpos _ _ => ?_, fun pprev u _ hreaches => ?_⟩
    · cases hpos
      exact ⟨by decide, by decide, by decide +kernel⟩
    · exact absurd hreaches (not_reachesParent rfl)
  · exact ⟨fun pos t hpos => (nomatch hpos), fun pprev u hsome => (nomatch hsome)⟩

/-- **A block behind a gap is overwritten.** Its file holds it where it is read, and the running size is less than where
it ends; the next block is stored from there on. -/
theorem gap_overwritten :
    Holds ((gapNode 100).blockFiles.content 0) 108 (writeBlock minedAbove.block) ∧
      (exec (step noCheckpoints Crypto.sample) (gapNode 100) [readBehind 100]).blockFiles.position 2 = some (0, 108) ∧
      ¬ BlocksInPlace Crypto.sample (gapNode 100)
        (exec (step noCheckpoints Crypto.sample) (gapNode 100) [readBehind 100, sentAbove]) := by
  refine ⟨by decide +kernel, by decide +kernel, fun h => ?_⟩
  obtain ⟨s, hs⟩ : ∃ s, s = exec (step noCheckpoints Crypto.sample) (gapNode 100) [readBehind 100, sentAbove] :=
    ⟨_, rfl⟩
  have hknown : (s.mapBlockIndex.find 2).isSome = true ∧ ((gapNode 100).mapBlockIndex.find 2).isSome = false ∧
      s.blockFiles.position 2 = some (0, 108) ∧ s.blocks 2 = some minedAbove.block ∧
      ¬ Holds (s.blockFiles.content 0) 108 (writeBlock minedAbove.block) := by
    rw [hs]
    decide +kernel
  rw [← hs] at h
  obtain ⟨hfind, hnew, hposition, hblock, hnot⟩ := hknown
  rcases h.held 2 hfind with hold | ⟨f, n, block, hpos, hread, -, hholds⟩
  · rw [hnew] at hold
    cases hold
  · obtain ⟨rfl, rfl⟩ := Prod.mk.inj (Option.some.inj (hposition.symm.trans hpos))
    obtain rfl := Option.some.inj (hblock.symm.trans hread)
    exact hnot hholds

end ProcessState

end Morcochain
