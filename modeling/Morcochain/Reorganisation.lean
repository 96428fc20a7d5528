import Morcochain.BestChain

/-!
# Reorganisations

What a reorganisation leaves behind. The view, the best block, the successors and the records of the stake modifiers
change only when every block of the new branch is connected; the records of the tx index are written block by block.

* `TipInv` : the view stands at the best block, and only blocks below it have a successor.
* `tipInv_connectBestBlock` : **this holds in every state that `ConnectBestBlock` comes to**.
* `failedReorganisation_noTrace_iff` : **exactly when** a reorganisation that fails leaves no trace.
-/

set_option autoImplicit false

namespace Morcochain

open Guard

namespace ChainState

/-! ## The tip -/

/-- The chain that the view stands at, as hashes. -/
def tipHashes (s : ChainState) : List Uint256 := s.tipChain.map (·.phashBlock)

/-- What holds of the tip: the view stands at the best block, which is in the index, and only blocks below it have a
successor. -/
structure TipInv (s : ChainState) : Prop where
  best : s.pcoinsTip.bestBlock = s.pindexBest
  known : ∀ b, s.pindexBest = some b → ∃ p, s.mapBlockIndex.find b = some p
  next : ∀ h p, s.mapBlockIndex.find h = some p → p.pnext.isSome = true → h ∈ s.tipHashes.tail

/-- The successors of two states are the same. -/
def SameNext (s s' : ChainState) : Prop :=
  ∀ h, (s'.mapBlockIndex.find h).map (·.pnext) = (s.mapBlockIndex.find h).map (·.pnext)

section Tip

variable {env : NodeContext} {s s' : ChainState}

theorem SameNext.trans {s'' : ChainState} (h : SameNext s s') (h' : SameNext s' s'') : SameNext s s'' :=
  fun x => (h' x).trans (h x)

theorem sameNext_modifyIndex {hash : Uint256} {f : CBlockIndex → CBlockIndex}
    (hf : ∀ p, s.mapBlockIndex.find hash = some p → (f p).pnext = p.pnext) : SameNext s (s.modifyIndex hash f) := by
  intro h
  rw [modifyIndex, BlockMap.find_modify]
  split
  · rename_i hh
    subst hh
    cases hp : s.mapBlockIndex.find h with
    | none => rfl
    | some p => exact congrArg some (hf p hp)
  · rfl

/-- Connecting a block changes no successor. -/
theorem sameNext_linked {view : CCoinsView} {pindex : CBlockIndex} {block : CBlock} {c : Connected}
    (hfind : s.mapBlockIndex.find pindex.phashBlock = some pindex)
    (hconnect : (Linking.contextOf env ⟨s, view⟩ pindex).connectBlock block view false env.nAdjustedTime = .ok c) :
    SameNext s (Linking.linked ⟨s, view⟩ pindex c).node := by
  refine sameNext_modifyIndex fun p hp => ?_
  rw [hfind, Option.some.injEq] at hp
  subst hp
  rcases connectBlock_pindex hconnect with heq | ⟨cs, heq⟩
  · rw [heq]
    rfl
  · rw [heq]
    rfl

theorem tipHashes_congr (hlinks : s.mapBlockIndex.SameLinks s'.mapBlockIndex)
    (htip : s'.pcoinsTip.bestBlock = s.pcoinsTip.bestBlock) : s'.tipHashes = s.tipHashes := by
  unfold tipHashes tipChain
  rw [htip]
  cases s.pcoinsTip.bestBlock with
  | none => rfl
  | some b => exact BlockMap.chain_hashes hlinks b

/-- A change that leaves the tip and the successors alone keeps the invariant. -/
theorem TipInv.of_same (h : TipInv s) (hlinks : s.mapBlockIndex.SameLinks s'.mapBlockIndex) (hnext : SameNext s s')
    (hcoins : s'.pcoinsTip = s.pcoinsTip) (hbest : s'.pindexBest = s.pindexBest) : TipInv s' := by
  refine ⟨by rw [hcoins, hbest, h.best], fun b hb => ?_, fun x p hp hsome => ?_⟩
  · obtain ⟨p, hp⟩ := h.known b (hbest ▸ hb)
    obtain ⟨p', hp', -⟩ := hlinks.symm.find hp
    exact ⟨p', hp'⟩
  · rw [tipHashes_congr hlinks (by rw [hcoins])]
    have hx := hnext x
    rw [hp, Option.map_some] at hx
    obtain ⟨p', hp', hpn⟩ := Option.map_eq_some_iff.mp hx.symm
    exact h.next x p' hp' (hpn ▸ hsome)

/-- A block that has a successor once others are disconnected had one before, and is the predecessor of none of them. -/
theorem pnext_clear {h : Uint256} : ∀ {l : List CBlockIndex} {m : BlockMap} {n : Uint256},
    ((l.foldl BlockMap.clearNext m).find h).map (·.pnext) = some (some n) →
      (∀ q ∈ l, q.pprev ≠ some h) ∧ (m.find h).map (·.pnext) = some (some n)
  | [], _, _, hn => ⟨List.forall_mem_nil _, hn⟩
  | a :: l, m, n, hn => by
    obtain ⟨hl, hn'⟩ := pnext_clear (l := l) hn
    rw [BlockMap.find_clearNext] at hn'
    split at hn'
    · obtain ⟨_, -, hnone⟩ := Option.map_eq_some_iff.mp hn'
      cases hnone
    · rename_i hne
      exact ⟨List.forall_mem_cons.mpr ⟨hne, hl⟩, hn'⟩

/-- A block that has a successor once others are connected is the predecessor of one of them, or had that successor
before. -/
theorem pnext_set {h : Uint256} : ∀ {l : List CBlockIndex} {m : BlockMap} {n : Uint256},
    ((l.foldl BlockMap.setNext m).find h).map (·.pnext) = some (some n) →
      (∃ q ∈ l, q.pprev = some h) ∨ (m.find h).map (·.pnext) = some (some n)
  | [], _, _, hn => .inr hn
  | a :: l, m, n, hn => by
    rcases pnext_set (l := l) hn with ⟨q, hq, hqh⟩ | hn'
    · exact .inl ⟨q, List.mem_cons_of_mem _ hq, hqh⟩
    · rw [BlockMap.find_setNext] at hn'
      split at hn'
      · rename_i heq
        exact .inl ⟨a, List.mem_cons_self, heq⟩
      · exact .inr hn'

/-- The tip that a new best block leaves. -/
theorem tipInv_commit {s₀ : ChainState} {fork : List CBlockIndex × List CBlockIndex} {view : CCoinsView}
    {hashNew : Uint256} {p : CBlockIndex} (h : TipInv s) (hp : s.mapBlockIndex.find hashNew = some p)
    (hlinks : s₀.mapBlockIndex.SameLinks s.mapBlockIndex) (htip : s.pcoinsTip = s₀.pcoinsTip)
    (hfork : s₀.forkTo hashNew = .ok fork) (hview : view.bestBlock = some hashNew) :
    TipInv (s.commit fork hashNew view) := by
  have hrelink := (sameButNext_relink s.mapBlockIndex fork.1 fork.2).sameLinks
  have hhashes : (s.commit fork hashNew view).tipHashes = (s₀.mapBlockIndex.chain hashNew).map (·.phashBlock) := by
    rw [tipHashes, tipChain]
    simp only [commit, hview, Option.map_some, Option.getD_some]
    exact BlockMap.chain_hashes (hlinks.trans hrelink) hashNew
  have hold : s.tipHashes = s₀.tipHashes := tipHashes_congr hlinks (by rw [htip])
  refine ⟨hview, fun b hb => ?_, fun x q hq hsome => ?_⟩
  · cases hb
    obtain ⟨p', hp', -⟩ := hrelink.symm.find hp
    exact ⟨p', hp'⟩
  rw [hhashes]
  unfold forkTo at hfork
  obtain ⟨_, hassert, hfork⟩ := bind_eq_ok.mp hfork
  cases hfork
  obtain ⟨n, hn⟩ := Option.isSome_iff_exists.mp hsome
  have hnext : ((s.mapBlockIndex.relink (disconnected s₀.tipChain (s₀.mapBlockIndex.chain hashNew))
      (connected s₀.tipChain (s₀.mapBlockIndex.chain hashNew))).find x).map (·.pnext) = some (some n) := by
    rw [← hn]
    exact congrArg (Option.map _) hq
  have hmem : ∀ a ∈ connected s₀.tipChain (s₀.mapBlockIndex.chain hashNew), a ∈ s₀.mapBlockIndex.chain hashNew := by
    intro a ha
    exact (List.takeWhile_sublist _).subset (List.mem_reverse.mp ha)
  rcases pnext_set hnext with ⟨a, ha, hax⟩ | hnext
  · exact BlockMap.prev_mem_tail (hmem a ha) hax
  -- the successor is an old one: its block stands below the fork
  obtain ⟨hnot, hnext⟩ := pnext_clear hnext
  obtain ⟨q', hq', hqn⟩ := Option.map_eq_some_iff.mp hnext
  have hx := h.next x q' hq' (by rw [hqn]; rfl)
  rw [hold, tipHashes] at hx
  obtain ⟨b, hb⟩ : ∃ b, s₀.pcoinsTip.bestBlock = some b := by
    cases hb : s₀.pcoinsTip.bestBlock with
    | none =>
      rw [tipChain, hb] at hx
      cases hx
    | some b => exact ⟨b, rfl⟩
  have htipb : s₀.tipChain = s₀.mapBlockIndex.chain b := by rw [tipChain, hb]; rfl
  rw [htipb] at hx hnot hassert
  obtain ⟨y, hy, hyx⟩ := BlockMap.exists_next_of_mem_tail hx
  have hsome : findFork (s₀.mapBlockIndex.chain b) (s₀.mapBlockIndex.chain hashNew) ≠ none := fun hnone =>
    rejectIf_eq_ok.mp hassert ⟨fun hnil => List.not_mem_nil (hnil ▸ hy), hnone⟩
  obtain ⟨f, hf⟩ := Option.ne_none_iff_exists'.mp hsome
  obtain ⟨-, -, hsplitb, hsplitn, -⟩ := fork_spec hf
  rw [hsplitb, List.mem_append] at hy
  have hyf := hy.resolve_left fun hya => hnot y hya hyx
  refine BlockMap.prev_mem_tail (p := y) ?_ hyx
  rw [hsplitn]
  exact List.mem_append_right _ hyf

/-- Each step keeps the tip. -/
theorem ReorgStep.tipInv (hstep : ReorgStep env s s') (h : TipInv s) : TipInv s' := by
  have hlinks := hstep.sameLinks
  cases hstep with
  | link view pindex block c hfind hconnect => exact h.of_same hlinks (sameNext_linked hfind hconnect) rfl rfl
  | failed pindex => exact h.of_same hlinks (sameNext_modifyIndex fun _ _ => rfl) rfl rfl
  | failedChild pindex => exact h.of_same hlinks (sameNext_modifyIndex fun _ _ => rfl) rfl rfl
  | commit s₀ fork view it hashNew hit hchain hlinks₀ htip hfork hview =>
    obtain ⟨p, hp⟩ := BlockMap.find_of_inChain hchain
    exact tipInv_commit h hp hlinks₀ htip hfork hview

theorem ReorgSteps.tipInv (hsteps : ReorgSteps env s s') (h : TipInv s) : TipInv s' := by
  induction hsteps with
  | refl => exact h
  | tail _ hstep ih => exact hstep.tipInv ih

/-- **The tip is kept by `ConnectBestBlock`.** -/
theorem tipInv_connectBestBlock (fuel : Nat) (h : TipInv s) : TipInv (s.connectBestBlock env fuel).1 :=
  (connectBestBlock_steps fuel s).tipInv h

end Tip

/-! ## What a failed reorganisation leaves behind -/

/-- What `ConnectBlock` writes to the tx index for a block on disk; nothing for the genesis block. -/
def blockRecords (env : NodeContext) (s : ChainState) (hash : Uint256) : List (Uint256 × CDiskTx) :=
  match (s.mapBlockIndex.find hash).bind (s.readFromDisk env) with
  | none => []
  | some block =>
    if block.getHash env.cr = env.cfg.hashGenesisBlock then []
    else txPositions env.cr block.toCBlockHeader (getSizeOfCompactSize block.vtx.length) block.vtx

/-- The stores that answer as before: the view, the best block, the successors, the records of the stake modifiers and
the tx index. -/
structure NoTrace (s s' : ChainState) : Prop where
  coins : s'.pcoinsTip = s.pcoinsTip
  best : s'.pindexBest = s.pindexBest
  next : SameNext s s'
  modifiers : s'.pblocktree = s.pblocktree
  txIndex : ∀ txid, s'.txIndex txid = s.txIndex txid

/-- The tx index already has the records that connecting the blocks of a list writes. -/
def AlreadyIndexed (env : NodeContext) (s : ChainState) (hashes : List Uint256) : Prop :=
  ∀ txid record, (hashes.flatMap (s.blockRecords env)).reverse.lookup txid = some record → s.txIndex txid = some record

section Failed

variable {env : NodeContext} {s s' : ChainState}

theorem blockRecords_congr (hlinks : s.mapBlockIndex.SameLinks s'.mapBlockIndex) (hblocks : s'.blocks = s.blocks)
    (hash : Uint256) : s'.blockRecords env hash = s.blockRecords env hash := by
  have hread : (s'.mapBlockIndex.find hash).bind (s'.readFromDisk env) =
      (s.mapBlockIndex.find hash).bind (s.readFromDisk env) := by
    cases hp' : s'.mapBlockIndex.find hash with
    | none =>
      have hnone := hlinks hash
      rw [hp', Option.map_none] at hnone
      rw [Option.map_eq_none_iff.mp hnone.symm]
      rfl
    | some p' =>
      obtain ⟨p, hp, hhash, -⟩ := hlinks.find hp'
      rw [hp, Option.bind_some, Option.bind_some, readFromDisk, readFromDisk, hhash, hblocks]
  unfold blockRecords
  rw [hread]

/-- The records that a connected block leaves are those of the block on disk. -/
theorem connectBlock_vPos {c : ConnectContext} {block : CBlock} {view : CCoinsView} {t : Int} {r : Connected}
    (h : c.connectBlock block view false t = .ok r) :
    r.vPos = if block.getHash c.cr = c.cfg.hashGenesisBlock then []
      else txPositions c.cr block.toCBlockHeader (getSizeOfCompactSize block.vtx.length) block.vtx := by
  split
  · rename_i hg
    unfold ConnectContext.connectBlock ConnectContext.connectChecked at h
    simp only [bind_eq_ok, if_pos hg] at h
    obtain ⟨_, -, _, -, h⟩ := h
    cases h
    rfl
  · rename_i hg
    obtain ⟨-, -, -, _, -, rfl⟩ := connectBlock_ok h hg
    rfl

/-- One block that is connected: the successors stay, and its records stand before the old ones. -/
theorem linkBlock_traces {w w' : Linking} {hash : Uint256} (h : w.linkBlock env hash = .ok w') :
    SameNext w.node w'.node ∧ (∀ h, w'.node.blockRecords env h = w.node.blockRecords env h) ∧
      ∀ txid, w'.node.txIndex txid =
        ((w.node.blockRecords env hash).reverse.lookup txid).or (w.node.txIndex txid) := by
  obtain ⟨pindex, block, c, hfind, hread, hconnect, rfl⟩ := linkBlock_ok h
  have hhash : pindex.phashBlock = hash := w.node.mapBlockIndex.hash_eq hash pindex hfind
  have hrecords : c.vPos = w.node.blockRecords env hash := by
    rw [connectBlock_vPos hconnect, blockRecords, hfind, Option.bind_some, hread]
    rfl
  refine ⟨sameNext_linked (hhash ▸ hfind) hconnect,
    blockRecords_congr (BlockMap.sameLinks_modify _ _ _) rfl, fun txid => ?_⟩
  rw [← hrecords]
  rfl

/-- **The blocks before the one that can not be connected** leave the successors, and write their records. -/
theorem linkBlocks_traces : ∀ {hashes : List Uint256} {w w' : Linking} {hash : Uint256} {e : Failure},
    hashes.Nodup → Linking.linkBlocks env w hashes = (w', some (hash, e)) →
      hash ∈ hashes ∧ SameNext w.node w'.node ∧ ∀ txid, w'.node.txIndex txid =
        (((hashes.takeWhile (· ≠ hash)).flatMap (w.node.blockRecords env)).reverse.lookup txid).or
          (w.node.txIndex txid)
  | [], w, w', hash, e, _, h => by cases h
  | a :: rest, w, w', hash, e, hnodup, h => by
    rw [Linking.linkBlocks] at h
    cases hlink : w.linkBlock env a with
    | error e' =>
      rw [hlink] at h
      cases h
      refine ⟨List.mem_cons_self, fun _ => rfl, fun txid => ?_⟩
      rw [List.takeWhile_cons_of_neg (by simp)]
      rfl
    | ok w₁ =>
      rw [hlink] at h
      obtain ⟨hnext, hrecords, htx⟩ := linkBlock_traces hlink
      obtain ⟨hmem, hnext', htx'⟩ := linkBlocks_traces (List.nodup_cons.mp hnodup).2 h
      have hne : a ≠ hash := fun heq => (List.nodup_cons.mp hnodup).1 (heq ▸ hmem)
      refine ⟨List.mem_cons_of_mem _ hmem, hnext.trans hnext', fun txid => ?_⟩
      rw [htx', htx, List.takeWhile_cons_of_pos (by simpa using hne), List.flatMap_cons, List.reverse_append,
        List.lookup_append, Option.or_assoc, show w₁.node.blockRecords env = w.node.blockRecords env from
          funext hrecords]

/-- The blocks of a branch have different hashes. -/
theorem nodup_forkTo {hashNew : Uint256} {fork : List CBlockIndex × List CBlockIndex}
    (h : s.forkTo hashNew = .ok fork) : (fork.2.map (·.phashBlock)).Nodup := by
  unfold forkTo at h
  obtain ⟨_, -, h⟩ := bind_eq_ok.mp h
  cases h
  have hchain : ((s.mapBlockIndex.chain hashNew).map (·.phashBlock)).Nodup := by
    refine List.Nodup.map_on (fun a ha b hb heq => ?_) (s.mapBlockIndex.nodup_chain hashNew)
    have hfind := BlockMap.find_of_mem_chain ha
    rw [heq, BlockMap.find_of_mem_chain hb, Option.some.injEq] at hfind
    exact hfind.symm
  rw [connected, List.map_reverse, List.nodup_reverse]
  exact hchain.sublist ((List.takeWhile_sublist _).map _)

/-- No block of a branch has a successor before the branch is connected. -/
theorem TipInv.pnext_branch (h : TipInv s) {hashNew : Uint256} {fork : List CBlockIndex × List CBlockIndex}
    (hfork : s.forkTo hashNew = .ok fork) {p : CBlockIndex} (hp : p ∈ fork.2) : p.pnext = none := by
  unfold forkTo at hfork
  obtain ⟨_, hassert, hfork⟩ := bind_eq_ok.mp hfork
  cases hfork
  have hmem : p ∈ s.mapBlockIndex.chain hashNew := (List.takeWhile_sublist _).subset (List.mem_reverse.mp hp)
  by_contra hnext
  have htail := h.next _ p (BlockMap.find_of_mem_chain hmem) (Option.isSome_iff_ne_none.mpr hnext)
  obtain ⟨q, hq, hqp⟩ := List.mem_map.mp (List.mem_of_mem_tail htail)
  obtain ⟨b, hb⟩ : ∃ b, s.tipChain = s.mapBlockIndex.chain b := by
    unfold tipChain at hq ⊢
    cases hb : s.pcoinsTip.bestBlock with
    | none =>
      rw [hb] at hq
      cases hq
    | some b => exact ⟨b, rfl⟩
  rw [hb] at hp hq hassert
  obtain ⟨f, hf⟩ := Option.ne_none_iff_exists'.mp fun hnone =>
    rejectIf_eq_ok.mp hassert ⟨List.ne_nil_of_mem hq, hnone⟩
  obtain ⟨-, -, -, -, hnot⟩ := fork_spec hf
  have hsame := BlockMap.find_of_mem_chain hq
  rw [hqp, BlockMap.find_of_mem_chain hmem, Option.some.injEq] at hsame
  exact hnot p hp (hsame ▸ hq)

/-- A block without a successor is marked, and nothing else happens. -/
theorem invalidBlockFound_noNext {reorg : ChainState → ChainState} {p : CBlockIndex} {hash : Uint256}
    (hp : s.mapBlockIndex.find hash = some p) (hnext : p.pnext = none) :
    s.invalidBlockFound reorg hash = s.markFailed p := by
  rw [invalidBlockFound, hp]
  simp only [hnext]
  rfl

/-- What a `SetBestChain` that stops at a block of the branch leaves. -/
theorem setBestChain_failed {reorg : ChainState → ChainState} {hashNew hash : Uint256} {w : Linking} {e : Failure}
    {fork : List CBlockIndex × List CBlockIndex} {view : CCoinsView} (h : TipInv s)
    (hun : s.unlinkBlocks env hashNew = .ok (fork, view))
    (hlink : Linking.linkBlocks env ⟨s, view⟩ (fork.2.map (·.phashBlock)) = (w, some (hash, e))) :
    (s.setBestChain env reorg hashNew).1.pcoinsTip = s.pcoinsTip ∧
      (s.setBestChain env reorg hashNew).1.pindexBest = s.pindexBest ∧
      (s.setBestChain env reorg hashNew).1.pblocktree = s.pblocktree ∧
      SameNext s (s.setBestChain env reorg hashNew).1 ∧
      ∀ txid, (s.setBestChain env reorg hashNew).1.txIndex txid =
        ((((fork.2.map (·.phashBlock)).takeWhile (· ≠ hash)).flatMap (s.blockRecords env)).reverse.lookup txid).or
          (s.txIndex txid) := by
  have hfork : s.forkTo hashNew = .ok fork := by
    unfold unlinkBlocks at hun
    obtain ⟨fork', hfork, hun⟩ := bind_eq_ok.mp hun
    obtain ⟨_, -, hun⟩ := bind_eq_ok.mp hun
    cases hun
    exact hfork
  obtain ⟨hmem, hnext, htx⟩ := linkBlocks_traces (nodup_forkTo hfork) hlink
  obtain ⟨hsteps, htip⟩ := linkBlocks_steps hlink
  have hset : (s.setBestChain env reorg hashNew).1 =
      if e.invalidates then w.node.invalidBlockFound reorg hash else w.node := by
    simp only [setBestChain, hun, hlink]
  rw [hset]
  split
  · -- the block that fails is not below the tip, so that marking it does not reorganise
    obtain ⟨p, hp, rfl⟩ := List.mem_map.mp hmem
    have hfind : s.mapBlockIndex.find p.phashBlock = some p := by
      unfold forkTo at hfork
      obtain ⟨_, -, hfork⟩ := bind_eq_ok.mp hfork
      cases hfork
      exact BlockMap.find_of_mem_chain ((List.takeWhile_sublist _).subset (List.mem_reverse.mp hp))
    have hpn := hnext p.phashBlock
    rw [hfind, Option.map_some, h.pnext_branch hfork hp] at hpn
    obtain ⟨p', hp', hnone⟩ := Option.map_eq_some_iff.mp hpn
    rw [invalidBlockFound_noNext hp' hnone]
    exact ⟨htip.coins, htip.best, htip.modifiers, hnext.trans (sameNext_modifyIndex fun _ _ => rfl), htx⟩
  · exact ⟨htip.coins, htip.best, htip.modifiers, hnext, htx⟩

/-- **Exactly when a reorganisation that fails leaves no trace**: when the tx index already has what connecting the
blocks of the branch below the failing one writes. Everything else is always as before. -/
theorem failedReorganisation_noTrace_iff {env : NodeContext} {reorg : ChainState → ChainState} {s : ChainState}
    {hashNew hash : Uint256} {w : Linking} {e : Failure} {fork : List CBlockIndex × List CBlockIndex}
    {view : CCoinsView} (h : TipInv s) (hun : s.unlinkBlocks env hashNew = .ok (fork, view))
    (hlink : Linking.linkBlocks env ⟨s, view⟩ (fork.2.map (·.phashBlock)) = (w, some (hash, e))) :
    NoTrace s (s.setBestChain env reorg hashNew).1 ↔
      AlreadyIndexed env s ((fork.2.map (·.phashBlock)).takeWhile (· ≠ hash)) := by
  obtain ⟨hcoins, hbest, hmodifiers, hnext, htx⟩ := @setBestChain_failed env s reorg _ _ _ _ _ _ h hun hlink
  constructor
  · intro htrace txid record hrecord
    rw [← htrace.txIndex txid, htx, hrecord, Option.some_or]
  · intro hindexed
    refine ⟨hcoins, hbest, hnext, hmodifiers, fun txid => ?_⟩
    rw [htx]
    cases hrecord : (((fork.2.map (·.phashBlock)).takeWhile (· ≠ hash)).flatMap
        (s.blockRecords env)).reverse.lookup txid with
    | none => rw [Option.none_or]
    | some record => rw [Option.some_or, hindexed txid record hrecord]

end Failed

/-! ## A position that is lost -/

/-- A node that knows two blocks with the same transaction, and a block above the second one that is invalid. -/
def abandonedMap : BlockMap := contestedMap.insert 7 6 { nChainTrust := 7, nTime := 1400000000 }

/-- The node at the first of the two blocks. -/
def abandonedNode : ChainState :=
  (setBestChain sampleContext id
    { contestedNode emptyTx with
      mapBlockIndex := abandonedMap
      blocks := fun h =>
        if h = 5 then some (unitBlock unitShare)
        else if h = 6 then some (contestedBlock (spendShares unitShare))
        else if h = 7 then some { contestedBlock emptyTx with nNonce := 7, hashPrevBlock := 6 }
        else none } 5).1

/-- The block in which the tx index finds a transaction. -/
def indexedIn (s : ChainState) (txid : Uint256) : Option Uint256 :=
  (s.txIndex txid).map fun record => sampleContext.cr.hashHeader record.header

/-- **The position of a transaction is lost**: the node is at the block `5` with the transaction `12`. The branch to the
block `7` contains the same transaction; it fails, and the node stays at `5`, but the tx index finds the transaction in
the branch. -/
theorem failedReorganisation_leaves_position :
    abandonedNode.pindexBest = some 5 ∧ indexedIn abandonedNode 12 = some 5 ∧
      (abandonedNode.setBestChain sampleContext id 7).2 =
        some (.dos 10 false "CTransaction::CheckTransaction() : vin empty") ∧
      (abandonedNode.setBestChain sampleContext id 7).1.pindexBest = some 5 ∧
      indexedIn (abandonedNode.setBestChain sampleContext id 7).1 12 = some 6 ∧
      ¬ NoTrace abandonedNode (abandonedNode.setBestChain sampleContext id 7).1 := by
  have hbefore : indexedIn abandonedNode 12 = some 5 := by decide +kernel
  have hafter : indexedIn (abandonedNode.setBestChain sampleContext id 7).1 12 = some 6 := by decide +kernel
  refine ⟨by decide +kernel, hbefore, by decide +kernel, by decide +kernel, hafter, fun h => ?_⟩
  rw [indexedIn, h.txIndex 12] at hafter
  exact absurd (hbefore.symm.trans hafter) (by decide)

/-- No block of the map has a successor. -/
theorem contested_tipInv (tx : CTransaction) : TipInv (contestedNode tx) := by
  refine ⟨rfl, fun b hb => ?_, fun h p hp hsome => ?_⟩
  · cases hb
    exact Option.isSome_iff_exists.mp (show (contestedMap.find 4).isSome = true by decide +kernel)
  · have hinsert : ∀ (m : BlockMap) (hash prev : Uint256) (q : CBlockIndex), q.pnext = none →
        (∀ x r, m.find x = some r → r.pnext = none) → ∀ x r, (m.insert hash prev q).find x = some r →
          r.pnext = none := by
      intro m hash prev q hq hm x r hr
      rw [BlockMap.find_insert, Option.or_eq_some_iff] at hr
      rcases hr with hr | ⟨-, hr⟩
      · exact hm x r hr
      · split at hr
        · cases hr
          unfold BlockMap.linked
          split <;> exact hq
        · cases hr
    have hline : ∀ x r, (BlockMap.line 3 (fun n => { nChainTrust := n + 1 })).find x = some r → r.pnext = none := by
      intro x r hr
      simp only [BlockMap.line] at hr
      split at hr
      · cases hr
        rfl
      · cases hr
    rw [hinsert _ _ _ _ rfl (hinsert _ _ _ _ rfl hline) h p hp] at hsome
    cases hsome

/-- A block that fails as the first of its branch leaves no trace. -/
theorem failedReorganisation_noTrace_sample :
    NoTrace (contestedNode emptyTx) ((contestedNode emptyTx).setBestChain sampleContext id 6).1 := by
  have hfails : (Linking.contextOf sampleContext ⟨contestedNode emptyTx, sharesView⟩ contestedIndex).connectBlock
      (contestedBlock emptyTx) sharesView false 1400000000 =
        .error (.dos 10 false "CTransaction::CheckTransaction() : vin empty") :=
    failure?_eq_some.mp (by decide +kernel)
  refine (failedReorganisation_noTrace_iff (contested_tipInv emptyTx) (contested_unlinkBlocks emptyTx)
    (contested_stopsAt (by decide +kernel) hfails).2).mpr ?_
  rintro txid record ⟨⟩

end ChainState

end Morcochain
