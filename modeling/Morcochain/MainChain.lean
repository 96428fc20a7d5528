import Morcochain.Elected
import Morcochain.Reorganisation
import Morcochain.SafeFee
import Morcochain.Lib.Mirror

/-!
# The links of the main chain

`SetBestChain` links the blocks of the best chain forwards twice: `pnext` of the entries in memory, and the `'n'`
records of the block tree database, from which an entry gets its successor when it is loaded again.

* `setBestChain_committed` : what a `SetBestChain` that succeeds has done.
* `nextLinks_relink`, `relinkRecords` : both tables of successors take the same changes.
* `linkedInv_step` : each step keeps both in agreement with the best chain.
* `mainChain_linked` : **so it is in every state**, and loading an entry again changes nothing.
-/

set_option autoImplicit false

namespace Morcochain

open Guard Filling Mirror OrderedStore

/-! ## What SetBestChain has done -/

namespace ChainState

section Committed

variable {env : NodeContext} {s c : ChainState} {reorg : ChainState → ChainState} {hashNew : Uint256}
  {fork : List CBlockIndex × List CBlockIndex}

theorem forkTo_eq (h : s.forkTo hashNew = .ok fork) : fork =
    (disconnected s.tipChain (s.mapBlockIndex.chain hashNew), connected s.tipChain (s.mapBlockIndex.chain hashNew)) := by
  unfold forkTo at h
  obtain ⟨_, -, h⟩ := bind_eq_ok.mp h
  exact (Except.ok.inj h).symm

/-- The chain of the tip and the new chain have a common end; what stands above it is disconnected and connected. -/
theorem forkTo_split (h : s.forkTo hashNew = .ok fork) :
    ∃ base, s.tipChain = fork.1 ++ base ∧ s.mapBlockIndex.chain hashNew = fork.2.reverse ++ base := by
  unfold forkTo at h
  obtain ⟨_, hassert, h⟩ := bind_eq_ok.mp h
  cases h
  by_cases htip : s.tipChain = []
  · refine ⟨[], ?_, ?_⟩
    · rw [htip, disconnected, aboveFork]
      rfl
    · rw [connected, htip, findFork, aboveFork, List.reverse_reverse, List.append_nil,
        List.takeWhile_eq_self_iff.mpr (by simp)]
  · obtain ⟨f, hf⟩ := Option.ne_none_iff_exists'.mp fun hnone => rejectIf_eq_ok.mp hassert ⟨htip, hnone⟩
    obtain ⟨b, hb⟩ : ∃ b, s.tipChain = s.mapBlockIndex.chain b := by
      unfold tipChain at htip ⊢
      cases hb : s.pcoinsTip.bestBlock with
      | none =>
        rw [hb] at htip
        exact absurd rfl htip
      | some b => exact ⟨b, rfl⟩
    rw [hb] at hf ⊢
    obtain ⟨-, -, hsplitb, hsplitn, -⟩ := fork_spec hf
    exact ⟨_, hsplitb, hsplitn⟩

/-- Connecting blocks changes no successor. -/
theorem sameNext_linkBlocks : ∀ {hashes : List Uint256} {w w' : Linking} {r : Option (Uint256 × Failure)},
    Linking.linkBlocks env w hashes = (w', r) → SameNext w.node w'.node
  | [], _, _, _, h => by
    cases h
    exact fun _ => rfl
  | hash :: rest, w, w', r, h => by
    rw [Linking.linkBlocks] at h
    cases hlink : w.linkBlock env hash with
    | error e =>
      rw [hlink] at h
      cases h
      exact fun _ => rfl
    | ok w₁ =>
      rw [hlink] at h
      exact (linkBlock_traces hlink).1.trans (sameNext_linkBlocks h)

/-- **A `SetBestChain` that succeeds** has connected the blocks above the fork, which leaves the tip and the successors
alone, and then updated both. -/
theorem setBestChain_committed {p : CBlockIndex} (hp : s.mapBlockIndex.find hashNew = some p)
    (h : s.setBestChain env reorg hashNew = (c, none)) :
    ∃ fork view s', s.forkTo hashNew = .ok fork ∧ c = commit s' fork hashNew view ∧
      view.bestBlock = some hashNew ∧ SameEntries s.mapBlockIndex s'.mapBlockIndex ∧
      s.mapBlockIndex.SameLinks s'.mapBlockIndex ∧ SameNext s s' ∧ s'.pblocktree = s.pblocktree := by
  unfold setBestChain at h
  cases hun : s.unlinkBlocks env hashNew with
  | error e =>
    rw [hun] at h
    cases h
  | ok u =>
    obtain ⟨fork, view⟩ := u
    rw [hun] at h
    simp only at h
    split at h
    · cases h
    · rename_i w hlinks
      cases h
      obtain ⟨hsteps, htip⟩ := linkBlocks_steps hlinks
      obtain ⟨hfork, hview⟩ := bestBlock_of_linked hp hun hlinks
      exact ⟨fork, w.view, w.node, hfork, rfl, hview, ReorgSteps.sameEntries hsteps, hsteps.sameLinks,
        sameNext_linkBlocks hlinks, htip.modifiers⟩

end Committed

end ChainState

/-! ## The successors in memory and on disk -/

namespace BlockMap

/-- The successors of the entries. -/
def nextLinks (m : BlockMap) (h : Uint256) : Option Uint256 := (m.find h).bind (·.pnext)

theorem ext {m m' : BlockMap} (h : m.find = m'.find) : m = m' := by
  cases m
  cases m'
  cases h
  rfl

theorem nextLinks_eq (m : BlockMap) (h : Uint256) : m.nextLinks h = ((m.find h).map (·.pnext)).join := by
  unfold nextLinks
  cases m.find h <;> rfl

/-- No two blocks of a chain have the same predecessor. -/
theorem distinctKeys_chain (m : BlockMap) (h : Uint256) : DistinctKeys CBlockIndex.pprev (m.chain h) := by
  refine List.Pairwise.imp_of_mem (fun {a b} ha hb hlt q hqa hqb => ?_) (m.chain_heights h)
  have hheight : ∀ p ∈ m.chain h, p.pprev = some q → ∃ pprev, m.find q = some pprev ∧
    p.nHeight = pprev.nHeight + 1 := by
    intro p hp hq
    obtain ⟨hnone, -⟩ | ⟨q', pprev, hq', hpprev, hheight⟩ := m.prev_in _ p (find_of_mem_chain hp)
    · rw [hq] at hnone
      cases hnone
    · rw [hq, Option.some.injEq] at hq'
      exact ⟨pprev, hq' ▸ hpprev, hheight⟩
  obtain ⟨pa, hpa, ha⟩ := hheight a ha hqa
  obtain ⟨pb, hpb, hb⟩ := hheight b hb hqb
  rw [hpa, Option.some.injEq] at hpb
  subst hpb
  omega

theorem nextLinks_clearNext (m : BlockMap) (a : CBlockIndex) :
    (m.clearNext a).nextLinks = eraseKey CBlockIndex.pprev m.nextLinks a := by
  funext h
  rw [nextLinks_eq, find_clearNext]
  cases hq : a.pprev with
  | none => rw [eraseKey_of_none hq, if_neg nofun, nextLinks_eq]
  | some q =>
    rw [eraseKey_of_some hq]
    by_cases hh : h = q
    · subst hh
      rw [if_pos rfl, Function.update_self]
      cases m.find h <;> rfl
    · rw [if_neg (by simpa using Ne.symm hh), Function.update_of_ne hh, nextLinks_eq]

theorem nextLinks_setNext {m : BlockMap} {a : CBlockIndex} (ha : ∀ q, a.pprev = some q → ∃ p, m.find q = some p) :
    (m.setNext a).nextLinks = writeKey CBlockIndex.pprev CBlockIndex.phashBlock m.nextLinks a := by
  funext h
  rw [nextLinks_eq, find_setNext]
  cases hq : a.pprev with
  | none => rw [writeKey_of_none hq, if_neg nofun, nextLinks_eq]
  | some q =>
    rw [writeKey_of_some hq]
    by_cases hh : h = q
    · subst hh
      obtain ⟨p, hp⟩ := ha h hq
      rw [if_pos rfl, Function.update_self, hp]
      rfl
    · rw [if_neg (by simpa using Ne.symm hh), Function.update_of_ne hh, nextLinks_eq]

/-- **The changes that `SetBestChain` makes to the successors**, as changes of a table. -/
theorem nextLinks_relink {m : BlockMap} (vDisconnect : List CBlockIndex) {vConnect : List CBlockIndex}
    (hprev : ∀ a ∈ vConnect, ∀ q, a.pprev = some q → ∃ p, m.find q = some p) :
    (m.relink vDisconnect vConnect).nextLinks = vConnect.foldl (writeKey CBlockIndex.pprev CBlockIndex.phashBlock)
      (vDisconnect.foldl (eraseKey CBlockIndex.pprev) m.nextLinks) := by
  have hclear : ∀ (l : List CBlockIndex) (m : BlockMap),
      (l.foldl clearNext m).nextLinks = l.foldl (eraseKey CBlockIndex.pprev) m.nextLinks := by
    intro l
    induction l with
    | nil => exact fun _ => rfl
    | cons a l ih =>
      intro m
      rw [List.foldl_cons, List.foldl_cons, ih, nextLinks_clearNext]
  have hset : ∀ (l : List CBlockIndex) (m : BlockMap), (∀ a ∈ l, ∀ q, a.pprev = some q → ∃ p, m.find q = some p) →
      (l.foldl setNext m).nextLinks =
        l.foldl (writeKey CBlockIndex.pprev CBlockIndex.phashBlock) m.nextLinks := by
    intro l
    induction l with
    | nil => exact fun _ _ => rfl
    | cons a l ih =>
      intro m hm
      rw [List.foldl_cons, List.foldl_cons, ← nextLinks_setNext (hm a List.mem_cons_self)]
      refine ih _ fun b hb q hq => ?_
      obtain ⟨p, hp⟩ := hm b (List.mem_cons_of_mem a hb) q hq
      obtain ⟨p', hp', -⟩ := (sameButNext_relink m [] [a]).sameLinks.symm.find hp
      exact ⟨p', hp'⟩
  rw [relink, hset, hclear]
  intro a ha q hq
  obtain ⟨p, hp⟩ := hprev a ha q hq
  obtain ⟨p', hp', -⟩ := (sameButNext_relink m vDisconnect []).sameLinks.symm.find hp
  exact ⟨p', hp'⟩

end BlockMap

/-- `CBlockTreeDB::EraseNext`, for the predecessor of a block. -/
def eraseNext (records : Uint256 → Option Uint256) (pindex : CBlockIndex) : Uint256 → Option Uint256 :=
  match pindex.pprev with
  | none => records
  | some q => Function.update records q none

/-- `CBlockTreeDB::WriteNext`, for the predecessor of a block. -/
def writeNext (records : Uint256 → Option Uint256) (pindex : CBlockIndex) : Uint256 → Option Uint256 :=
  match pindex.pprev with
  | none => records
  | some q => Function.update records q (some pindex.phashBlock)

/-- The updates that `SetBestChain` makes to the `'n'` records. -/
def relinkRecords (records : Uint256 → Option Uint256) (vDisconnect vConnect : List CBlockIndex) :
    Uint256 → Option Uint256 := vConnect.foldl writeNext (vDisconnect.foldl eraseNext records)

theorem relinkRecords_eq (records : Uint256 → Option Uint256) (vDisconnect vConnect : List CBlockIndex) :
    relinkRecords records vDisconnect vConnect =
      vConnect.foldl (writeKey CBlockIndex.pprev CBlockIndex.phashBlock)
        (vDisconnect.foldl (eraseKey CBlockIndex.pprev) records) := by
  have herase : eraseNext = eraseKey CBlockIndex.pprev := by
    funext t a
    unfold eraseNext
    cases hq : a.pprev with
    | none => rw [eraseKey_of_none hq]
    | some q => rw [eraseKey_of_some hq]
  have hwrite : writeNext = writeKey CBlockIndex.pprev CBlockIndex.phashBlock := by
    funext t a
    unfold writeNext
    cases hq : a.pprev with
    | none => rw [writeKey_of_none hq]
    | some q => rw [writeKey_of_some hq]
  rw [relinkRecords, herase, hwrite]

/-- `CBlockIndex::IsInMainChain`. -/
def ChainState.isInMainChain (s : ChainState) (pindex : CBlockIndex) : Bool :=
  pindex.pnext.isSome || s.pindexBest = some pindex.phashBlock

/-! ## Runs of SetBestChain -/

/-- The node with the `'n'` records of the block tree database. -/
structure MainChainState extends NodeState where
  nextRecords : Uint256 → Option Uint256 := fun _ => none

namespace MainChainState

/-- The node after an entry was unloaded and loaded again: `BlockMap::load` reads its successor from the record. -/
def reload (s : MainChainState) (hash : Uint256) : MainChainState :=
  { s with mapBlockIndex := s.mapBlockIndex.modify hash (fun p => { p with pnext := s.nextRecords hash }) }

/-- The node with the entry of a block that `AddToBlockIndex` has filled in. -/
def withEntry (s : MainChainState) (cfg : Settings) (cr : Crypto) (e : AcceptEvent)
    (pindex : CBlockIndex) : MainChainState :=
  { s with
    toNodeState := ((s.before e).writeToDisk (e.context cfg cr) e.block).insertIndex (e.context cfg cr) e.block pindex }

/-- The node after a call of `SetBestChain` that succeeds. -/
def connectTo (s : MainChainState) (env : NodeContext) (reorg : ChainState → ChainState) (hashNew : Uint256) :
    MainChainState :=
  { s with
    toChainState := (s.setBestChain env reorg hashNew).1
    nextRecords := relinkRecords s.nextRecords (disconnected s.tipChain (s.mapBlockIndex.chain hashNew))
      (connected s.tipChain (s.mapBlockIndex.chain hashNew)) }

/-- A node that has no best block yet. -/
structure Fresh (s : MainChainState) : Prop where
  best : s.pindexBest = none
  coins : s.pcoinsTip.bestBlock = none
  next : ∀ h p, s.mapBlockIndex.find h = some p → p.pnext = none
  records : ∀ h, s.nextRecords h = none

end MainChainState

/-- One step: a block gets its entry, whether `AddToBlockIndex` rejects it or not; an entry of the index becomes the
best block; an entry is loaded again. The new blocks are among those of `B`. -/
inductive MainChainStep (cfg : Settings) (cr : Crypto) (B : CBlock → Prop) (s : MainChainState) : MainChainState → Prop
  where
  | addToBlockIndex (e : AcceptEvent) (r : Except Failure Unit) (pindex : CBlockIndex)
      (hfills : s.Fills cfg cr e r pindex) (hB : B e.block) :
      MainChainStep cfg cr B s (s.withEntry cfg cr e pindex)
  | setBestChain (env : NodeContext) (reorg : ChainState → ChainState) (hashNew : Uint256) (p : CBlockIndex)
      (hp : s.mapBlockIndex.find hashNew = some p) (hset : (s.setBestChain env reorg hashNew).2 = none) :
      MainChainStep cfg cr B s (s.connectTo env reorg hashNew)
  | reload (hash : Uint256) : MainChainStep cfg cr B s (s.reload hash)

/-- Any number of steps. -/
abbrev MainChainSteps (cfg : Settings) (cr : Crypto) (B : CBlock → Prop) (s s' : MainChainState) : Prop :=
  Relation.ReflTransGen (MainChainStep cfg cr B) s s'

/-! ## The links of the best chain -/

/-- The view stands at the best block, and both tables have exactly the successors of the best chain. -/
structure LinkedInv (s : MainChainState) : Prop where
  best : s.pcoinsTip.bestBlock = s.pindexBest
  known : ∀ b, s.pindexBest = some b → ∃ p, s.mapBlockIndex.find b = some p
  memory : Mirrors CBlockIndex.pprev CBlockIndex.phashBlock s.mapBlockIndex.nextLinks s.tipChain
  disk : Mirrors CBlockIndex.pprev CBlockIndex.phashBlock s.nextRecords s.tipChain

section Step

variable {cfg : Settings} {cr : Crypto} {B : CBlock → Prop} {s s' : MainChainState}

/-- The link of an entry is part of what a reorganisation keeps. -/
theorem link_of_accepted (p q : CBlockIndex) (h : p.accepted = q.accepted) :
    p.pprev = q.pprev ∧ p.phashBlock = q.phashBlock :=
  ⟨(accepted_fields h).2.1, (accepted_fields h).1⟩

theorem MainChainState.Fresh.linkedInv (h : s.Fresh) : LinkedInv s := by
  have hchain : s.tipChain = [] := by rw [ChainState.tipChain, h.coins]; rfl
  refine ⟨h.coins.trans h.best.symm, fun b hb => ?_, ?_, ?_⟩
  · rw [h.best] at hb
    cases hb
  · rw [hchain]
    refine mirrors_nil fun x => ?_
    unfold BlockMap.nextLinks
    cases hp : s.mapBlockIndex.find x with
    | none => rfl
    | some p => exact h.next x p hp
  · rw [hchain]
    exact mirrors_nil h.records

/-- The records and the entries agree. -/
theorem LinkedInv.records_eq (h : LinkedInv s) : s.nextRecords = s.mapBlockIndex.nextLinks := h.disk.unique h.memory

/-- **Loading an entry again changes nothing.** -/
theorem LinkedInv.reload_eq (h : LinkedInv s) (hash : Uint256) : s.reload hash = s := by
  have hmap : s.mapBlockIndex.modify hash (fun p => { p with pnext := s.nextRecords hash }) = s.mapBlockIndex := by
    apply BlockMap.ext
    funext x
    rw [BlockMap.find_modify]
    split
    · rename_i hx
      subst hx
      cases hp : s.mapBlockIndex.find x with
      | none => rfl
      | some p =>
        have hnext : s.nextRecords x = p.pnext := by rw [h.records_eq, BlockMap.nextLinks, hp, Option.bind_some]
        rw [hnext]
        rfl
    · rfl
  rw [MainChainState.reload, hmap]

section Entry

variable {e : AcceptEvent} {r : Except Failure Unit} {pindex : CBlockIndex}

theorem find_withEntry (hfills : s.Fills cfg cr e r pindex) (x : Uint256) :
    (s.withEntry cfg cr e pindex).mapBlockIndex.find x =
      if x = e.block.getHash cr then some pindex else s.mapBlockIndex.find x :=
  NodeState.find_insertIndex hfills.1 hfills.2 x

/-- What was in the index stays there. -/
theorem grown_withEntry (hfills : s.Fills cfg cr e r pindex) {x : Uint256} {p : CBlockIndex}
    (hp : s.mapBlockIndex.find x = some p) : (s.withEntry cfg cr e pindex).mapBlockIndex.find x = some p := by
  rw [find_withEntry hfills, if_neg]
  · exact hp
  · rintro rfl
    cases (NodeState.find_of_checkBefore hfills.1).symm.trans hp

/-- The new entry is not on the chain of the tip. -/
theorem LinkedInv.tipChain_withEntry (h : LinkedInv s) (hfills : s.Fills cfg cr e r pindex) :
    (s.withEntry cfg cr e pindex).tipChain = s.tipChain := by
  unfold ChainState.tipChain
  show ((s.pcoinsTip.bestBlock.map (s.withEntry cfg cr e pindex).mapBlockIndex.chain).getD []) = _
  cases hb : s.pcoinsTip.bestBlock with
  | none => rfl
  | some b =>
    obtain ⟨p, hp⟩ := h.known b (h.best ▸ hb)
    exact (chain_of_grown (fun _ _ => grown_withEntry hfills) hp).2

/-- A new entry has no successor. -/
theorem nextLinks_withEntry (hfills : s.Fills cfg cr e r pindex) :
    (s.withEntry cfg cr e pindex).mapBlockIndex.nextLinks = s.mapBlockIndex.nextLinks := by
  funext x
  unfold BlockMap.nextLinks
  rw [find_withEntry hfills]
  split
  · rename_i hx
    have hpnext : pindex.pnext = none := by
      have hplace : pindex.place.pnext = ((s.before e).startIndex (e.context cfg cr) e.block).place.pnext := by
        rw [NodeState.startIndex_place hfills.2]
      refine hplace.trans ?_
      unfold NodeState.startIndex BlockMap.linked
      split <;> rfl
    have hnew : s.mapBlockIndex.find (e.block.getHash cr) = none := NodeState.find_of_checkBefore hfills.1
    rw [hx, hnew]
    exact hpnext
  · rfl

theorem LinkedInv.addToBlockIndex (h : LinkedInv s) (hfills : s.Fills cfg cr e r pindex) :
    LinkedInv (s.withEntry cfg cr e pindex) := by
  refine ⟨h.best, fun b hb => ?_, ?_, ?_⟩
  · obtain ⟨p, hp⟩ := h.known b hb
    exact ⟨p, grown_withEntry hfills hp⟩
  · rw [nextLinks_withEntry hfills, h.tipChain_withEntry hfills]
    exact h.memory
  · rw [h.tipChain_withEntry hfills]
    exact h.disk

end Entry

section Connect

variable {env : NodeContext} {reorg : ChainState → ChainState} {hashNew : Uint256} {p : CBlockIndex}

/-- What connecting blocks does not change of the entries stays as it was. -/
theorem sameEntries_connectTo (hp : s.mapBlockIndex.find hashNew = some p)
    (hset : (s.setBestChain env reorg hashNew).2 = none) :
    SameEntries s.mapBlockIndex (s.connectTo env reorg hashNew).mapBlockIndex := by
  obtain ⟨fork, view, s', -, hcommit, -, hentries, -⟩ :=
    ChainState.setBestChain_committed hp
      (show s.setBestChain env reorg hashNew = ((s.setBestChain env reorg hashNew).1, none) from Prod.ext rfl hset)
  show SameEntries s.mapBlockIndex (s.setBestChain env reorg hashNew).1.mapBlockIndex
  rw [hcommit]
  exact hentries.trans (sameEntries_relink s'.mapBlockIndex fork.1 fork.2)

/-- The best block and the best chain afterwards. -/
theorem tip_connectTo (hp : s.mapBlockIndex.find hashNew = some p)
    (hset : (s.setBestChain env reorg hashNew).2 = none) :
    (s.connectTo env reorg hashNew).pindexBest = some hashNew ∧
      (s.connectTo env reorg hashNew).tipChain = (s.connectTo env reorg hashNew).mapBlockIndex.chain hashNew := by
  obtain ⟨fork, view, s', -, hcommit, hview, -⟩ :=
    ChainState.setBestChain_committed hp
      (show s.setBestChain env reorg hashNew = ((s.setBestChain env reorg hashNew).1, none) from Prod.ext rfl hset)
  constructor
  · show (s.setBestChain env reorg hashNew).1.pindexBest = _
    rw [hcommit]
    rfl
  · show ChainState.tipChain (s.setBestChain env reorg hashNew).1 =
      (s.setBestChain env reorg hashNew).1.mapBlockIndex.chain hashNew
    rw [hcommit]
    unfold ChainState.tipChain ChainState.commit
    simp only [hview, Option.map_some, Option.getD_some]

/-- The new chain is what is connected above what stays of the old one. -/
theorem chain_connectTo (hp : s.mapBlockIndex.find hashNew = some p)
    (hset : (s.setBestChain env reorg hashNew).2 = none) : ∃ base,
      s.tipChain = disconnected s.tipChain (s.mapBlockIndex.chain hashNew) ++ base ∧
      s.mapBlockIndex.chain hashNew = (connected s.tipChain (s.mapBlockIndex.chain hashNew)).reverse ++ base := by
  obtain ⟨fork, -, -, hfork, -⟩ :=
    ChainState.setBestChain_committed hp
      (show s.setBestChain env reorg hashNew = ((s.setBestChain env reorg hashNew).1, none) from Prod.ext rfl hset)
  obtain ⟨base, htip, hchain⟩ := ChainState.forkTo_split hfork
  rw [ChainState.forkTo_eq hfork] at htip hchain
  exact ⟨base, htip, hchain⟩

/-- **A table that mirrors the best chain mirrors the new one** once it has taken the changes of `SetBestChain`. -/
theorem mirrors_connectTo {κ ν : Type} [DecidableEq κ] {key : CBlockIndex → Option κ} {val : CBlockIndex → ν}
    (hf : ∀ a b : CBlockIndex, a.accepted = b.accepted → key a = key b ∧ val a = val b)
    (hkeys : ∀ x, DistinctKeys key (s.mapBlockIndex.chain x)) (hp : s.mapBlockIndex.find hashNew = some p)
    (hset : (s.setBestChain env reorg hashNew).2 = none) {t : κ → Option ν} (ht : Mirrors key val t s.tipChain) :
    Mirrors key val
      ((connected s.tipChain (s.mapBlockIndex.chain hashNew)).foldl (writeKey key val)
        ((disconnected s.tipChain (s.mapBlockIndex.chain hashNew)).foldl (eraseKey key) t))
      (s.connectTo env reorg hashNew).tipChain := by
  have hsame := (sameEntries_connectTo hp hset).chain hashNew
  obtain ⟨base, htip, hchain⟩ := chain_connectTo hp hset
  rw [(tip_connectTo hp hset).2]
  refine Mirrors.congr hf hsame ?_
  have hold : DistinctKeys key s.tipChain := by
    unfold ChainState.tipChain
    cases s.pcoinsTip.bestBlock with
    | none => exact .nil
    | some b => exact hkeys b
  have hnew := hkeys hashNew
  generalize disconnected s.tipChain (s.mapBlockIndex.chain hashNew) = above at htip ⊢
  generalize connected s.tipChain (s.mapBlockIndex.chain hashNew) = new at hchain ⊢
  rw [hchain] at hnew ⊢
  rw [htip] at ht hold
  exact ht.switch hold hnew

/-- A block becomes the best block. -/
theorem LinkedInv.setBestChain (h : LinkedInv s) (hp : s.mapBlockIndex.find hashNew = some p)
    (hset : (s.setBestChain env reorg hashNew).2 = none) : LinkedInv (s.connectTo env reorg hashNew) := by
  have hmirror := fun {t : Uint256 → Option Uint256} =>
    mirrors_connectTo (t := t) link_of_accepted s.mapBlockIndex.distinctKeys_chain hp hset
  obtain ⟨fork, view, s', hfork, hcommit, hview, -, hlinks, hnext, -⟩ :=
    ChainState.setBestChain_committed hp
      (show s.setBestChain env reorg hashNew = ((s.setBestChain env reorg hashNew).1, none) from Prod.ext rfl hset)
  refine ⟨?_, fun b hb => ?_, ?_, ?_⟩
  · show (s.setBestChain env reorg hashNew).1.pcoinsTip.bestBlock = (s.setBestChain env reorg hashNew).1.pindexBest
    rw [hcommit]
    exact hview
  · rw [(tip_connectTo hp hset).1] at hb
    cases hb
    obtain ⟨p', hp', -⟩ := (sameEntries_connectTo hp hset).symm.find hp
    exact ⟨p', hp'⟩
  · have hprev : ∀ a ∈ fork.2, ∀ q, a.pprev = some q → ∃ p, s'.mapBlockIndex.find q = some p := by
      obtain ⟨base, -, hchain⟩ := ChainState.forkTo_split hfork
      intro a ha q hq
      have hmem : a ∈ s.mapBlockIndex.chain hashNew := by
        rw [hchain]
        exact List.mem_append_left _ (List.mem_reverse.mpr ha)
      obtain ⟨hnone, -⟩ | ⟨q', pprev, hq', hpprev, -⟩ := s.mapBlockIndex.prev_in _ a (BlockMap.find_of_mem_chain hmem)
      · rw [hq] at hnone
        cases hnone
      · rw [hq, Option.some.injEq] at hq'
        subst hq'
        obtain ⟨p', hp', -⟩ := hlinks.symm.find hpprev
        exact ⟨p', hp'⟩
    have hold : s'.mapBlockIndex.nextLinks = s.mapBlockIndex.nextLinks := by
      funext x
      rw [BlockMap.nextLinks_eq, BlockMap.nextLinks_eq, hnext x]
    have hlinked : (s.connectTo env reorg hashNew).mapBlockIndex.nextLinks =
        fork.2.foldl (writeKey CBlockIndex.pprev CBlockIndex.phashBlock)
          (fork.1.foldl (eraseKey CBlockIndex.pprev) s.mapBlockIndex.nextLinks) := by
      show (s.setBestChain env reorg hashNew).1.mapBlockIndex.nextLinks = _
      rw [hcommit, ← hold]
      exact BlockMap.nextLinks_relink _ hprev
    rw [hlinked, ChainState.forkTo_eq hfork]
    exact hmirror h.memory
  · show Mirrors _ _ (relinkRecords s.nextRecords _ _) _
    rw [relinkRecords_eq]
    exact hmirror h.disk

end Connect

/-- **Each step keeps the links.** -/
theorem linkedInv_step (h : LinkedInv s) (hstep : MainChainStep cfg cr B s s') : LinkedInv s' := by
  cases hstep with
  | addToBlockIndex e r pindex hfills hB => exact h.addToBlockIndex hfills
  | setBestChain env reorg hashNew p hp hset => exact h.setBestChain hp hset
  | reload hash =>
    rw [h.reload_eq]
    exact h

theorem linkedInv_run (h : LinkedInv s) (hrun : MainChainSteps cfg cr B s s') : LinkedInv s' := by
  induction hrun with
  | refl => exact h
  | tail _ hstep ih => exact linkedInv_step ih hstep

end Step

/-! ## Every run -/

section Runs

variable {cfg : Settings} {cr : Crypto} {B : CBlock → Prop} {s₀ s : MainChainState}

/-- An entry has a successor or is the best block exactly when it is in the best chain. -/
theorem LinkedInv.isInMainChain_iff (h : LinkedInv s) {x : Uint256} {p : CBlockIndex}
    (hp : s.mapBlockIndex.find x = some p) :
    s.isInMainChain p = true ↔ ∃ b, s.pindexBest = some b ∧ s.mapBlockIndex.InChain x b := by
  have hhash := s.mapBlockIndex.hash_eq x p hp
  have hnext : s.mapBlockIndex.nextLinks x = p.pnext := by rw [BlockMap.nextLinks, hp, Option.bind_some]
  have htip : s.tipChain = (s.pindexBest.map s.mapBlockIndex.chain).getD [] := by rw [ChainState.tipChain, h.best]
  unfold ChainState.isInMainChain
  rw [Bool.or_eq_true, decide_eq_true_eq, hhash]
  constructor
  · rintro (hsome | hbest)
    · obtain ⟨n, hn⟩ := Option.isSome_iff_exists.mp hsome
      obtain ⟨q, hq, hqx, -⟩ := (h.memory x n).mp (hnext.trans hn)
      rw [htip] at hq
      cases hb : s.pindexBest with
      | none =>
        rw [hb] at hq
        cases hq
      | some b =>
        rw [hb] at hq
        obtain ⟨a, ha, hax⟩ := List.mem_map.mp (List.mem_of_mem_tail (BlockMap.prev_mem_tail hq hqx))
        exact ⟨b, rfl, a, ha, hax⟩
    · exact ⟨x, hbest, BlockMap.inChain_self hp⟩
  · rintro ⟨b, hb, a, ha, hax⟩
    rw [hb, Option.map_some, Option.getD_some] at htip
    obtain ⟨top, htop⟩ := h.known b hb
    have hmem : x ∈ (s.mapBlockIndex.chain b).map (·.phashBlock) := List.mem_map.mpr ⟨a, ha, hax⟩
    rw [BlockMap.chain_of_find htop, List.map_cons, List.mem_cons] at hmem
    rcases hmem with hx | hmem
    · exact .inr (by rw [hb, hx, s.mapBlockIndex.hash_eq b top htop])
    · obtain ⟨q, hq, hqx⟩ := BlockMap.exists_next_of_mem_tail (h := b) (q := x) (by
        rw [BlockMap.chain_of_find htop]; exact hmem)
      refine .inl ?_
      rw [← hnext, (h.memory x q.phashBlock).mpr ⟨q, htip ▸ hq, hqx, rfl⟩]
      rfl

/-- **The links of the main chain.** From a node without a best block, over any index and after any number of blocks
that are put into the index, of best blocks and of entries that are loaded again: an entry has a successor or is the
best block exactly when it is in the best chain, each block of the best chain is the successor of its predecessor, the
records are the successors of the entries, and loading an entry again changes nothing. -/
theorem mainChain_linked (hstart : s₀.Fresh) (hrun : MainChainSteps cfg cr B s₀ s) :
    (∀ h p, s.mapBlockIndex.find h = some p →
      (s.isInMainChain p = true ↔ ∃ b, s.pindexBest = some b ∧ s.mapBlockIndex.InChain h b)) ∧
    (∀ b, s.pindexBest = some b → s.mapBlockIndex.LinkedTo b) ∧
    (∀ h, s.nextRecords h = (s.mapBlockIndex.find h).bind (·.pnext)) ∧
    ∀ h, s.reload h = s := by
  have hinv := linkedInv_run hstart.linkedInv hrun
  refine ⟨fun h p hp => hinv.isInMainChain_iff hp, fun b hb p hp q hq => ?_, fun h => ?_, hinv.reload_eq⟩
  · have htip : s.tipChain = s.mapBlockIndex.chain b := by rw [ChainState.tipChain, hinv.best, hb]; rfl
    exact (hinv.memory q p.phashBlock).mpr ⟨p, htip ▸ hp, hq, rfl⟩
  · rw [hinv.records_eq]
    rfl

end Runs

/-! ## A run -/

/-- A node with the entry and the block of the genesis block, before this is the best block. -/
def unstartedNode : MainChainState where
  toNodeState := { genesisNode with
    pindexBest := none
    pcoinsTip := { getCoins := fun _ => none, bestBlock := none }
    blocks := fun h => if h = hashGenesisBlockOfficial then
      some { sampleBlock hashGenesisBlockOfficial 0 1400000000 [sampleCoinbase 1001 1400000000 CTxOut.empty] with
        nBits := 0x1e0fffff, vchBlockSig := [] } else none }

theorem unstartedNode_fresh : unstartedNode.Fresh where
  best := rfl
  coins := rfl
  next h p hp := by
    have hfind : unstartedNode.mapBlockIndex.find h = some p := hp
    rw [show unstartedNode.mapBlockIndex = genesisNode.mapBlockIndex from rfl, genesisNode,
      BlockMap.find_insert] at hfind
    rcases Option.or_eq_some_iff.mp hfind with hnone | ⟨-, hfind⟩
    · cases hnone
    · split at hfind
      · cases hfind
        rfl
      · cases hfind
  records _ := rfl

/-- The node at the genesis block. -/
def startedNode : MainChainState := unstartedNode.connectTo ChainState.sampleContext id hashGenesisBlockOfficial

/-- The node with the entry of a block above it. -/
def grownNode (e : AcceptEvent) : MainChainState :=
  startedNode.withEntry noCheckpoints Crypto.sample e
    (run ((startedNode.before e).fillIndex (e.context noCheckpoints Crypto.sample) e.block)
      ((startedNode.before e).startIndex (e.context noCheckpoints Crypto.sample) e.block)).2

/-- The node with two blocks. -/
def mainChainNode (e : AcceptEvent) : MainChainState :=
  (grownNode e).connectTo (e.context noCheckpoints Crypto.sample) id 2

theorem mainChainNode_steps {e : AcceptEvent} {B : CBlock → Prop} (hB : B e.block)
    (hbefore : ((startedNode.before e).checkBefore (e.context noCheckpoints Crypto.sample) e.block).toOption = some ())
    (hfind : ((grownNode e).mapBlockIndex.find 2).isSome = true)
    (hset : ((grownNode e).setBestChain (e.context noCheckpoints Crypto.sample) id 2).2 = none) :
    MainChainSteps noCheckpoints Crypto.sample B unstartedNode (mainChainNode e) := by
  obtain ⟨g, hg⟩ : ∃ p, unstartedNode.mapBlockIndex.find hashGenesisBlockOfficial = some p :=
    Option.isSome_iff_exists.mp (by decide +kernel)
  obtain ⟨p, hp⟩ := Option.isSome_iff_exists.mp hfind
  have hgenesis : MainChainStep noCheckpoints Crypto.sample B unstartedNode startedNode :=
    .setBestChain ChainState.sampleContext id _ g hg (by decide +kernel)
  have hentry : MainChainStep noCheckpoints Crypto.sample B startedNode (grownNode e) :=
    .addToBlockIndex e _ _ ⟨toOption_eq_some.mp hbefore, rfl⟩ hB
  exact .tail (.tail (.tail .refl hgenesis) hentry) (.setBestChain _ id 2 p hp hset)

/-- The genesis block is linked to the block above it. -/
theorem mainChain_linked_sample :
    (mainChainNode minedAbove).pindexBest = some 2 ∧
    (mainChainNode minedAbove).nextRecords hashGenesisBlockOfficial = some 2 ∧
    (∀ h p, (mainChainNode minedAbove).mapBlockIndex.find h = some p →
      ((mainChainNode minedAbove).isInMainChain p = true ↔
        ∃ b, (mainChainNode minedAbove).pindexBest = some b ∧ (mainChainNode minedAbove).mapBlockIndex.InChain h b)) ∧
    (∀ b, (mainChainNode minedAbove).pindexBest = some b → (mainChainNode minedAbove).mapBlockIndex.LinkedTo b) ∧
    (∀ h, (mainChainNode minedAbove).nextRecords h = ((mainChainNode minedAbove).mapBlockIndex.find h).bind (·.pnext)) ∧
    ∀ h, (mainChainNode minedAbove).reload h = mainChainNode minedAbove :=
  ⟨by decide +kernel, by decide +kernel, mainChain_linked unstartedNode_fresh (mainChainNode_steps (B := fun _ => True)
    trivial (by decide +kernel) (by decide +kernel) (by decide +kernel))⟩

end Morcochain
