import Morcochain.CoinAge
import Morcochain.Lib.Run
import Morcochain.Orphans
import Morcochain.Unspent

/-!
# The memory pool follows the chain

`SetBestChain` with the memory pool (`main.cpp`): transactions of disconnected blocks are put back into the pool, those
of connected blocks are taken out of it with what conflicts with them. Coinbases, coinstakes and custodian grants are
not put back, and neither are the transactions of blocks up to the last checkpoint.

* `resurrect_spec`, `deleteTx_spec` : what one transaction does to the pool.
* `mempoolInv_setBestChain` : **the pool stays closed when no transaction of it spends what is not put back**.
* `mempool_closed` : **so it does in every run**, whatever is disconnected and connected.
* `grant_spender_stays` : a transaction that spends a custodian grant stays when the grant is disconnected.
-/

set_option autoImplicit false

namespace Morcochain

open Guard Run Support

/-! ## SetBestChain and the memory pool -/

namespace ChainState

variable (env : NodeContext) (s : ChainState)

/-- What the acceptance of loose transactions reads of the node. -/
def chainTip : ChainTip where
  cfg := env.cfg
  cr := env.cr
  pcoinsTip := s.pcoinsTip
  mapBlockIndex := s.mapBlockIndex
  pindexBest := s.pindexBest
  nBestHeight := (s.bestIndex.map fun pindex => (pindex.nHeight : Int)).getD (-1)
  nAdjustedTime := env.nAdjustedTime

/-- The transactions of the block of an entry. -/
def txsOf (pindex : CBlockIndex) : List CTransaction := ((s.readFromDisk env pindex).map (·.vtx)).getD []

/-- The transactions of a disconnected block that are queued for the pool. -/
def queued (pindex : CBlockIndex) (tx : CTransaction) : Bool :=
  !(tx.isCoinBase || tx.isCoinStake || tx.isCustodianGrant) && env.cfg.getTotalBlocksEstimate < pindex.nHeight

/-- `vResurrect`: the transactions of the lowest block come first. -/
def resurrected (vDisconnect : List CBlockIndex) : List CTransaction :=
  vDisconnect.reverse.flatMap fun pindex => (s.txsOf env pindex).filter (queued env pindex)

/-- `vDelete`. -/
def deleted (vConnect : List CBlockIndex) : List CTransaction := vConnect.flatMap (s.txsOf env)

end ChainState

/-- Put a transaction back into the pool, or remove what depends on it. -/
def resurrect (tip : ChainTip) (fuel : Nat) (pool : CTxMemPool) (tx : CTransaction) : Option CTxMemPool :=
  match acceptToMemoryPool tip pool tx true with
  | .ok pool' => some pool'
  | .error _ => pool.remove tip.cr fuel tx true

/-- Take a transaction of a connected block out of the pool, with what conflicts with it. -/
def deleteTx (cr : Crypto) (fuel : Nat) (pool : CTxMemPool) (tx : CTransaction) : Option CTxMemPool := do
  let pool ← pool.remove cr fuel tx false
  pool.removeConflicts cr fuel tx

/-- The node and its memory pool. -/
structure MempoolNode where
  node : ChainState
  pool : CTxMemPool

namespace MempoolNode

variable (env : NodeContext)

/-- `SetBestChain`, with the depth of recursion that the removals may use. The transactions are put back before the best
block changes; blocks that `InvalidBlockFound` connects after a failure are left to further calls. -/
def setBestChain (fFlush : Bool) (fuel : Nat) (s : MempoolNode) (hashNew : Uint256) : Option MempoolNode :=
  match s.node.setBestChain env id hashNew, s.node.forkTo hashNew with
  | (node, none), .ok fork => do
    let node := if fFlush then node.flush else node
    let tip := { node with pindexBest := s.node.pindexBest }.chainTip env
    let pool ← (s.node.resurrected env fork.1).foldlM (resurrect tip fuel) s.pool
    let pool ← (s.node.deleted env fork.2).foldlM (deleteTx env.cr fuel) pool
    return ⟨node, pool⟩
  | (node, _), _ => some { s with node := node }

/-- **Mempool closure**: every input refers to an unspent output of the chain, or to an output of another transaction of
the pool. -/
def Closed (cr : Crypto) (s : MempoolNode) : Prop :=
  ∀ tx ∈ s.pool.txs, ∀ txin ∈ tx.vin, s.node.pcoinsTip.Unspent txin.prevout ∨
    ∃ tx' ∈ s.pool.txs, tx' ≠ tx ∧ txin.prevout ∈ tx'.gives cr

end MempoolNode

/-! ## What holds of the pool -/

/-- The pool is in order, and holds no coinbase and no transaction that spends itself. -/
structure MempoolInv (cr : Crypto) (U : Set CTransaction) (pool : CTxMemPool) : Prop where
  linked : pool.Linked cr U
  loose : ∀ tx ∈ pool.txs, tx.isCoinBase = false
  apart : ∀ tx ∈ pool.txs, Disjoint tx.needs (tx.gives cr)

/-- The transactions of the pool are supported over some outputs. -/
abbrev SupportedOver (cr : Crypto) (ground : Set COutPoint) (pool : CTxMemPool) : Prop :=
  Supported CTransaction.needs (CTransaction.gives cr) ground pool.txs

section Steps

variable {cr : Crypto} {U : Set CTransaction} {pool pool' : CTxMemPool} {tip : ChainTip} {tx : CTransaction}
  {fuel : Nat} {ground ground' : Set COutPoint}

theorem mempoolInv_empty : MempoolInv cr U CTxMemPool.empty :=
  ⟨linked_empty, fun _ ⟨_, h⟩ => (nomatch h), fun _ ⟨_, h⟩ => (nomatch h)⟩

theorem MempoolInv.subset (h : MempoolInv cr U pool) (hl : pool'.Linked cr U) (hsub : pool'.txs ⊆ pool.txs) :
    MempoolInv cr U pool' := ⟨hl, fun a ha => h.loose a (hsub ha), fun a ha => h.apart a (hsub ha)⟩

/-- What the checks before the look for coins say of the transaction. -/
theorem acceptLoose_ok (h : acceptLoose tip pool tx = .ok ()) :
    tx.isCoinBase = false ∧ tx.isCustodianGrant = false ∧ pool.mapTx (tx.getHash tip.cr) = none ∧
      ∀ o ∈ tx.needs, pool.mapNextTx o = none := by
  unfold acceptLoose at h
  simp only [bind_eq_ok] at h
  obtain ⟨_, -, _, hbase, _, -, _, hgrant, _, -, _, -, _, hnew, hfree⟩ := h
  refine ⟨Bool.eq_false_iff.mpr (rejectIf_eq_ok.mp hbase), Bool.eq_false_iff.mpr (rejectIf_eq_ok.mp hgrant), ?_, ?_⟩
  · have hnot := rejectIf_eq_ok.mp hnew
    rw [CTxMemPool.contains, Bool.not_eq_true, Option.isSome_eq_false_iff, Option.isNone_iff_eq_none] at hnot
    exact hnot
  · rintro o ⟨txin, htxin, rfl⟩
    have hnot := rejectIf_eq_ok.mp hfree
    by_contra hne
    exact hnot ⟨txin, htxin, Option.isSome_iff_ne_none.mpr hne⟩

/-- The inputs of the transaction are there, and it is not in the chain. -/
def InputsThere (tip : ChainTip) (pool : CTxMemPool) (tx : CTransaction) : Prop :=
  tx.haveInputs (tip.viewMemPool pool) = true ∧ ∀ txin ∈ tx.vin, txin.prevout.hash ≠ tx.getHash tip.cr

/-- A transaction that is accepted with its inputs checked has them. -/
theorem inputsThere_of_accept (h : accept tip pool tx true = .ok pool') : InputsThere tip pool tx := by
  unfold accept at h
  simp only [bind_eq_ok, if_true] at h
  obtain ⟨_, -, _, hknown, _, hpresent, _, hcoins, -⟩ := h
  constructor
  · unfold acceptCoins at hcoins
    obtain ⟨_, hhave, -⟩ := bind_eq_ok.mp (checked_eq_ok.mp hcoins)
    have hnot := rejectIf_eq_ok.mp hhave
    rwa [Bool.not_eq_true', Bool.not_eq_false] at hnot
  · intro txin htxin hhash
    have hthere := not_not.mp (rejectIf_eq_ok.mp hpresent) txin htxin
    rw [hhash] at hthere
    exact rejectIf_eq_ok.mp (checked_eq_ok.mp hknown) hthere

/-- Inputs that are there are unspent in the chain, or given by the pool. -/
theorem needs_of_inputsThere (hl : pool.Linked tip.cr U) (hno : tx.hasNoInputs = false)
    (h : InputsThere tip pool tx) :
    tx.needs ⊆ {o | tip.pcoinsTip.Unspent o} ∪ Given (CTransaction.gives tip.cr) pool.txs := by
  rintro o ⟨txin, htxin, rfl⟩
  obtain ⟨c, hc⟩ := (haveInputs_iff.mp h.1).resolve_left (by rw [hno]; exact Bool.false_ne_true) txin htxin
  obtain ⟨hcoins, hout⟩ := prevout_eq_some.mp hc
  unfold ChainTip.viewMemPool at hcoins
  simp only at hcoins
  cases hchain : tip.pcoinsTip.getCoins txin.prevout.hash with
  | some coins =>
    rw [hchain, Option.some.injEq] at hcoins
    exact .inl ⟨c, prevout_eq_some.mpr ⟨hcoins ▸ hchain, hout⟩⟩
  | none =>
    rw [hchain] at hcoins
    obtain ⟨tx', hmap, hofTx⟩ := Option.map_eq_some_iff.mp hcoins
    rw [← hofTx] at hout
    obtain ⟨hget, -⟩ := Option.filter_eq_some_iff.mp hout
    exact .inr ⟨tx', ⟨_, hmap⟩, (hl.entry _ _ hmap).1.symm, (List.getElem?_eq_some_iff.mp hget).1⟩

/-- **Accepting a transaction whose inputs are there.** -/
theorem accept_spec (tip : ChainTip) {f : Bool} (hinv : MempoolInv tip.cr U pool) (htx : tx ∈ U)
    (hs : SupportedOver tip.cr ground pool) (htip : {o | tip.pcoinsTip.Unspent o} ⊆ ground')
    (hground : ground ⊆ ground' ∪ tx.gives tip.cr) (hthere : InputsThere tip pool tx)
    (h : accept tip pool tx f = .ok pool') : MempoolInv tip.cr U pool' ∧ SupportedOver tip.cr ground' pool' := by
  obtain ⟨hloose, rfl⟩ := accept_eq_ok h
  obtain ⟨hbase, hgrant, hnew, hfree⟩ := acceptLoose_ok hloose
  obtain ⟨hl, htxs⟩ := linked_addUnchecked hinv.linked htx hnew hfree
  have hneeds := needs_of_inputsThere hinv.linked (by simp [CTransaction.hasNoInputs, hbase, hgrant]) hthere
  refine ⟨⟨hl, ?_, ?_⟩, ?_⟩
  · rw [htxs]
    rintro a (rfl | ha)
    · exact hbase
    · exact hinv.loose a ha
  · rw [htxs]
    rintro a (rfl | ha)
    · refine Set.disjoint_left.mpr ?_
      rintro o ⟨txin, htxin, rfl⟩ hgives
      exact hthere.2 txin htxin hgives.1
    · exact hinv.apart a ha
  · show Supported _ _ _ _
    rw [htxs]
    refine hs.insert (hneeds.trans ?_) hground
    exact Set.union_subset_union htip (given_mono (Set.subset_insert _ _))

/-- **What putting a transaction back does**: its outputs need not be in the ground any more, since the pool gives them
or nothing left needs them. -/
theorem resurrect_spec (hU : U.InjOn (·.getHash tip.cr)) (hinv : MempoolInv tip.cr U pool) (htx : tx ∈ U)
    (hs : SupportedOver tip.cr ground pool) (htip : {o | tip.pcoinsTip.Unspent o} ⊆ ground')
    (hground : ground ⊆ ground' ∪ tx.gives tip.cr) (h : resurrect tip fuel pool tx = some pool') :
    MempoolInv tip.cr U pool' ∧ SupportedOver tip.cr ground' pool' := by
  unfold resurrect at h
  split at h
  · rename_i pool'' hok
    cases h
    rw [acceptToMemoryPool_eq_ok] at hok
    exact accept_spec tip hinv htx hs htip hground (inputsThere_of_accept hok) hok
  · obtain ⟨hprunes, -, hdisjoint⟩ := remove_spec hU hinv.linked htx h
    refine ⟨hinv.subset hprunes.linked hprunes.pruned.subset, hs.prune hprunes.pruned fun a ha r hr hg => ?_⟩
    exact (hground hg).resolve_right fun hgives => Set.disjoint_left.mp (hdisjoint a ha) hr hgives

/-- **What taking a transaction of a connected block out does**: what it needs need not be in the ground any more, since
nothing left needs it. -/
theorem deleteTx_spec (hU : U.InjOn (·.getHash cr)) (hinv : MempoolInv cr U pool) (htx : tx ∈ U)
    (hs : SupportedOver cr ground pool) (hgives : tx.isCoinBase = false → tx.gives cr ⊆ ground)
    (hground : ground ⊆ ground' ∪ tx.needs) (h : deleteTx cr fuel pool tx = some pool') :
    MempoolInv cr U pool' ∧ SupportedOver cr ground' pool' := by
  unfold deleteTx at h
  obtain ⟨pool₁, hremove, h⟩ := Option.bind_eq_some_iff.mp h
  obtain ⟨hl, htxs⟩ := remove_alone hU hinv.linked htx hremove
  have hsub : pool₁.txs ⊆ pool.txs := htxs ▸ Set.sdiff_subset
  have hgone : tx ∉ pool₁.txs := by
    rw [htxs]
    exact fun hmem => hmem.2 rfl
  have hdrop : SupportedOver cr ground pool₁ := by
    refine hs.drop hsub fun b hb hb' => ?_
    have hbt : b = tx := by
      by_contra hne
      exact hb' (htxs ▸ ⟨hb, hne⟩)
    subst hbt
    exact hgives (hinv.loose b hb)
  obtain ⟨hprunes, hdisjoint⟩ := removeConflicts_spec hU hl hgone h
  refine ⟨hinv.subset hprunes.linked (hprunes.pruned.subset.trans hsub),
    hdrop.prune hprunes.pruned fun a ha r hr hg => ?_⟩
  exact (hground hg).resolve_right fun hneeds => Set.disjoint_left.mp (hdisjoint a ha) hr hneeds

/-- Putting transactions back, one after the other. -/
theorem resurrects_spec (tip : ChainTip) (hU : U.InjOn (·.getHash tip.cr)) {more : Set COutPoint}
    (htip : {o | tip.pcoinsTip.Unspent o} ⊆ more) : ∀ {txs : List CTransaction} {pool pool' : CTxMemPool},
      MempoolInv tip.cr U pool → (∀ tx ∈ txs, tx ∈ U) →
        SupportedOver tip.cr (more ∪ {o | ∃ tx ∈ txs, o ∈ tx.gives tip.cr}) pool →
          txs.foldlM (resurrect tip fuel) pool = some pool' → MempoolInv tip.cr U pool' ∧
            SupportedOver tip.cr more pool'
  | [], pool, pool', hinv, _, hs, h => by
    rw [List.foldlM_nil] at h
    cases h
    refine ⟨hinv, hs.change fun a _ r _ hg => .inl (hg.resolve_right ?_)⟩
    rintro ⟨tx, htx, -⟩
    exact List.not_mem_nil htx
  | tx :: txs, pool, pool', hinv, hmem, hs, h => by
    rw [List.foldlM_cons] at h
    obtain ⟨pool₁, h₁, h₂⟩ := Option.bind_eq_some_iff.mp h
    have hground : more ∪ {o | ∃ tx' ∈ tx :: txs, o ∈ tx'.gives tip.cr} ⊆
        (more ∪ {o | ∃ tx' ∈ txs, o ∈ tx'.gives tip.cr}) ∪ tx.gives tip.cr := by
      rintro o (ho | ⟨tx', htx', ho⟩)
      · exact .inl (.inl ho)
      · rcases List.mem_cons.mp htx' with rfl | htx'
        · exact .inr ho
        · exact .inl (.inr ⟨tx', htx', ho⟩)
    obtain ⟨hinv₁, hs₁⟩ := resurrect_spec hU hinv (hmem tx List.mem_cons_self) hs
      (htip.trans Set.subset_union_left) hground h₁
    exact resurrects_spec tip hU htip hinv₁ (fun tx' htx' => hmem tx' (List.mem_cons_of_mem _ htx')) hs₁ h₂

/-- Taking the transactions of connected blocks out, one after the other. What is left of them gives nothing but what is
unspent, or needed by one of them that is still to come. -/
theorem deleteTxs_spec (hU : U.InjOn (·.getHash cr)) {unspent : Set COutPoint} :
    ∀ {txs : List CTransaction} {pool pool' : CTxMemPool}, MempoolInv cr U pool → (∀ tx ∈ txs, tx ∈ U) →
      (∀ before tx after, txs = before ++ tx :: after → tx.isCoinBase = false → ∀ o ∈ tx.gives cr,
        o ∈ unspent ∨ ∃ tx' ∈ tx :: after, o ∈ tx'.needs) →
      SupportedOver cr (unspent ∪ {o | ∃ tx ∈ txs, o ∈ tx.needs}) pool →
        txs.foldlM (deleteTx cr fuel) pool = some pool' → MempoolInv cr U pool' ∧ SupportedOver cr unspent pool'
  | [], pool, pool', hinv, _, _, hs, h => by
    rw [List.foldlM_nil] at h
    cases h
    refine ⟨hinv, hs.change fun a _ r _ hg => .inl (hg.resolve_right ?_)⟩
    rintro ⟨tx, htx, -⟩
    exact List.not_mem_nil htx
  | tx :: txs, pool, pool', hinv, hmem, hnew, hs, h => by
    rw [List.foldlM_cons] at h
    obtain ⟨pool₁, h₁, h₂⟩ := Option.bind_eq_some_iff.mp h
    have hground : unspent ∪ {o | ∃ tx' ∈ tx :: txs, o ∈ tx'.needs} ⊆
        (unspent ∪ {o | ∃ tx' ∈ txs, o ∈ tx'.needs}) ∪ tx.needs := by
      rintro o (ho | ⟨tx', htx', ho⟩)
      · exact .inl (.inl ho)
      · rcases List.mem_cons.mp htx' with rfl | htx'
        · exact .inr ho
        · exact .inl (.inr ⟨tx', htx', ho⟩)
    obtain ⟨hinv₁, hs₁⟩ := deleteTx_spec hU hinv (hmem tx List.mem_cons_self) hs (hnew [] tx txs rfl) hground h₁
    refine deleteTxs_spec hU hinv₁ (fun tx' htx' => hmem tx' (List.mem_cons_of_mem _ htx')) ?_ hs₁ h₂
    exact fun before tx' after heq => hnew (tx :: before) tx' after (by rw [heq, List.cons_append])

end Steps

/-! ## The chain -/

namespace ChainState

variable {env : NodeContext} {s : ChainState}

/-- The block files hold blocks of this chain, with transactions of a given set. -/
def FilesIn (cfg : Settings) (cr : Crypto) (U : Set CTransaction) (s : ChainState) : Prop :=
  ∀ h block, s.blocks h = some block → block.OfThisChain cfg cr ∧ ∀ tx ∈ block.vtx, tx ∈ U

theorem readFromDisk_eq_some {pindex : CBlockIndex} {block : CBlock} (h : s.readFromDisk env pindex = some block) :
    s.blocks pindex.phashBlock = some block ∧ block.getHash env.cr = pindex.phashBlock := by
  obtain ⟨hblock, hhash⟩ := Option.filter_eq_some_iff.mp h
  exact ⟨hblock, (of_decide_eq_true hhash).1⟩

theorem mem_txsOf {U : Set CTransaction} (hfiles : s.FilesIn env.cfg env.cr U) {pindex : CBlockIndex}
    {tx : CTransaction} (h : tx ∈ s.txsOf env pindex) : tx ∈ U := by
  unfold txsOf at h
  cases hread : s.readFromDisk env pindex with
  | none =>
    rw [hread] at h
    exact absurd h List.not_mem_nil
  | some block =>
    rw [hread] at h
    exact (hfiles _ _ (readFromDisk_eq_some hread).1).2 tx h

theorem readBlock_eq_ok {pindex : CBlockIndex} {block : CBlock} (h : s.readBlock env pindex = .ok block) :
    s.readFromDisk env pindex = some block := by
  unfold readBlock at h
  cases hread : s.readFromDisk env pindex with
  | none =>
    rw [hread] at h
    cases h
  | some block' =>
    rw [hread] at h
    cases h
    rfl

/-- **Disconnecting blocks takes their outputs only.** -/
theorem unspent_unlinkBlocks : ∀ {pindexes : List CBlockIndex} {view view' : CCoinsView},
    pindexes.foldlM (s.unlinkBlock env) view = .ok view' → ∀ {o : COutPoint}, view.Unspent o →
      view'.Unspent o ∨ ∃ pindex ∈ pindexes, ∃ tx ∈ s.txsOf env pindex, o ∈ tx.gives env.cr
  | [], view, view', h, o, ho => by
    rw [List.foldlM_nil] at h
    cases h
    exact .inl ho
  | pindex :: pindexes, view, view', h, o, ho => by
    obtain ⟨view₁, h₁, h₂⟩ := foldlM_cons_ok.mp h
    obtain ⟨block, hread, hdisconnect⟩ := bind_eq_ok.mp h₁
    rcases disconnectBlock_keeps hdisconnect ho with ho | ⟨tx, htx, hgives⟩
    · exact (unspent_unlinkBlocks h₂ ho).imp_right fun ⟨p, hp, hgives⟩ => ⟨p, List.mem_cons_of_mem _ hp, hgives⟩
    · refine .inr ⟨pindex, List.mem_cons_self, tx, ?_, hgives⟩
      rw [txsOf, readBlock_eq_ok hread]
      exact htx

/-- **Connecting blocks** spends what their transactions need, and adds what they give. -/
theorem passes_linkBlocks {U : Set CTransaction} (hfiles : s.FilesIn env.cfg env.cr U) :
    ∀ {pindexes : List CBlockIndex} {w w' : Linking}, w.node.blocks = s.blocks →
      Linking.linkBlocks env w (pindexes.map (·.phashBlock)) = (w', none) →
        Passes env.cr w.view (s.deleted env pindexes) w'.view
  | [], w, w', _, h => by
    cases h
    exact .nil _ _
  | pindex :: pindexes, w, w', hblocks, h => by
    rw [List.map_cons, Linking.linkBlocks] at h
    cases hlink : w.linkBlock env pindex.phashBlock with
    | error e =>
      rw [hlink] at h
      cases h
    | ok w₁ =>
      rw [hlink] at h
      obtain ⟨p, block, c, hfind, hread, hconnect, rfl⟩ := linkBlock_ok hlink
      have hp : p.phashBlock = pindex.phashBlock := w.node.mapBlockIndex.hash_eq _ p hfind
      have hread' : s.readFromDisk env pindex = some block := by
        rw [← hread, readFromDisk, readFromDisk, hblocks, hp]
      obtain ⟨hblock, hhash⟩ := readFromDisk_eq_some hread'
      have hpasses := connectBlock_passes (c := w.contextOf env p) (hfiles _ _ hblock).1 (hp.trans hhash.symm) hconnect
      have htxs : s.txsOf env pindex = block.vtx := by rw [txsOf, hread']; rfl
      rw [deleted, List.flatMap_cons, htxs]
      exact hpasses.append (passes_linkBlocks hfiles (w := w.linked p c) hblocks h)

/-- A call of `SetBestChain` that succeeds disconnects and connects the blocks above the fork. -/
theorem setBestChain_ok {reorg : ChainState → ChainState} {s' : ChainState} {hashNew : Uint256}
    (h : s.setBestChain env reorg hashNew = (s', none)) :
    ∃ fork view w, s.forkTo hashNew = .ok fork ∧ fork.1.foldlM (s.unlinkBlock env) s.pcoinsTip = .ok view ∧
      Linking.linkBlocks env ⟨s, view⟩ (fork.2.map (·.phashBlock)) = (w, none) ∧
        s' = w.node.commit fork hashNew w.view := by
  unfold setBestChain at h
  cases hun : s.unlinkBlocks env hashNew with
  | error e =>
    rw [hun] at h
    cases h
  | ok r =>
    obtain ⟨fork, view⟩ := r
    rw [hun] at h
    simp only at h
    split at h
    · cases h
    · rename_i w hlink
      cases h
      obtain ⟨fork', hfork, hview⟩ := bind_eq_ok.mp hun
      obtain ⟨view', hview, hpair⟩ := bind_eq_ok.mp hview
      cases hpair
      exact ⟨fork, view, w, hfork, hview, hlink, rfl⟩

/-- A call of `SetBestChain` that fails leaves the view and the block files. -/
theorem setBestChain_error {s' : ChainState} {hashNew : Uint256} {e : Failure}
    (h : s.setBestChain env id hashNew = (s', some e)) : s'.pcoinsTip = s.pcoinsTip ∧ s'.blocks = s.blocks := by
  unfold setBestChain at h
  cases hun : s.unlinkBlocks env hashNew with
  | error e' =>
    rw [hun] at h
    cases h
    exact ⟨rfl, rfl⟩
  | ok r =>
    obtain ⟨fork, view⟩ := r
    rw [hun] at h
    simp only at h
    split at h
    · rename_i w hash e' hlink
      obtain ⟨-, htip⟩ := linkBlocks_steps hlink
      obtain ⟨rfl, -⟩ := Prod.mk.inj h
      have hmark : ∀ s : ChainState, (s.invalidBlockFound id hash).pcoinsTip = s.pcoinsTip ∧
          (s.invalidBlockFound id hash).blocks = s.blocks := by
        intro s
        unfold invalidBlockFound
        split
        · exact ⟨rfl, rfl⟩
        · split <;> exact ⟨rfl, rfl⟩
      split
      · exact ⟨(hmark _).1.trans htip.coins, (hmark _).2.trans htip.blocks⟩
      · exact ⟨htip.coins, htip.blocks⟩
    · cases h

end ChainState

/-! ## SetBestChain -/

namespace MempoolNode

variable {env : NodeContext} {U : Set CTransaction} {s s' : MempoolNode} {fFlush : Bool} {fuel : Nat}
  {hashNew : Uint256}

/-- What holds between calls: the pool is in order and supported over the unspent outputs, and the block files are those
of this chain. -/
structure Inv (cfg : Settings) (cr : Crypto) (U : Set CTransaction) (s : MempoolNode) : Prop where
  pool : MempoolInv cr U s.pool
  supported : SupportedOver cr {o | s.node.pcoinsTip.Unspent o} s.pool
  files : s.node.FilesIn cfg cr U

/-- The call, when it succeeds, disconnects no transaction that a transaction of the pool spends and that is neither put
back nor connected again; a coinbase is never put back. -/
def Spares (env : NodeContext) (s : MempoolNode) (hashNew : Uint256) : Prop :=
  ∀ node fork, s.node.setBestChain env id hashNew = (node, none) → s.node.forkTo hashNew = .ok fork →
    ∀ pindex ∈ fork.1, ∀ tx ∈ s.node.txsOf env pindex, ChainState.queued env pindex tx = false →
      (tx.isCoinBase = false ∧ tx ∈ s.node.deleted env fork.2) ∨ ∀ a ∈ s.pool.txs, Disjoint a.needs (tx.gives env.cr)

theorem Inv.closed {cfg : Settings} {cr : Crypto} (h : s.Inv cfg cr U) : s.Closed cr := by
  intro tx htx txin htxin
  rcases h.supported tx htx ⟨txin, htxin, rfl⟩ with ho | ⟨tx', htx', ho⟩
  · exact .inl ho
  · refine .inr ⟨tx', htx', ?_, ho⟩
    rintro rfl
    exact Set.disjoint_left.mp (h.pool.apart _ htx) ⟨txin, htxin, rfl⟩ ho

/-- **A call of `SetBestChain` that spares the pool keeps it closed**, whatever it disconnects and connects. -/
theorem inv_setBestChain (env : NodeContext) (hU : U.InjOn (·.getHash env.cr)) (hinv : s.Inv env.cfg env.cr U)
    (hspares : s.Spares env hashNew) (h : s.setBestChain env fFlush fuel hashNew = some s') :
    s'.Inv env.cfg env.cr U := by
  unfold setBestChain at h
  cases hset : s.node.setBestChain env id hashNew with
  | mk node r =>
    cases r with
    | some e =>
      rw [hset] at h
      simp only [Option.some.injEq] at h
      subst h
      obtain ⟨hcoins, hblocks⟩ := ChainState.setBestChain_error hset
      refine ⟨hinv.pool, ?_, fun x block hblock => hinv.files x block (hblocks ▸ hblock)⟩
      show SupportedOver _ {o | node.pcoinsTip.Unspent o} _
      rw [hcoins]
      exact hinv.supported
    | none =>
      obtain ⟨fork, view, w, hfork, hunlink, hlink, hnode⟩ := ChainState.setBestChain_ok hset
      rw [hset, hfork] at h
      simp only [bind, Option.bind_eq_some_iff] at h
      obtain ⟨pool₁, hresurrect, pool₂, hdelete, h⟩ := h
      cases h
      obtain ⟨-, htip⟩ := ChainState.linkBlocks_steps hlink
      have hcoins : ∀ o, (if fFlush then node.flush else node).pcoinsTip.Unspent o ↔ w.view.Unspent o := by
        intro o
        rw [hnode]
        split
        · exact unspent_iff.trans unspent_live
        · exact Iff.rfl
      have hblocks : (if fFlush then node.flush else node).blocks = s.node.blocks := by
        rw [hnode]
        split <;> exact htip.blocks
      have hpasses := ChainState.passes_linkBlocks hinv.files (w := ⟨s.node, view⟩) rfl hlink
      have hmem : ∀ tx ∈ s.node.deleted env fork.2, tx ∈ U := by
        intro tx htx
        obtain ⟨pindex, -, htx⟩ := List.mem_flatMap.mp htx
        exact ChainState.mem_txsOf hinv.files htx
      have hmem' : ∀ tx ∈ s.node.resurrected env fork.1, tx ∈ U := by
        intro tx htx
        obtain ⟨pindex, -, htx⟩ := List.mem_flatMap.mp htx
        exact ChainState.mem_txsOf hinv.files (List.mem_of_mem_filter htx)
      -- what the pool needed of the old view is unspent in the new one, given by a transaction that is put back, or
      -- needed by a connected one
      have hstart : SupportedOver env.cr (({o | w.view.Unspent o} ∪
          {o | ∃ tx ∈ s.node.deleted env fork.2, o ∈ tx.needs}) ∪
            {o | ∃ tx ∈ s.node.resurrected env fork.1, o ∈ tx.gives env.cr}) s.pool := by
        refine hinv.supported.change fun a ha o hneeds ho => .inl ?_
        rcases ChainState.unspent_unlinkBlocks hunlink ho with ho | ⟨pindex, hpindex, tx, htx, hgives⟩
        · exact .inl (hpasses.old o ho)
        · by_cases hqueued : ChainState.queued env pindex tx = true
          · refine .inr ⟨tx, List.mem_flatMap.mpr ⟨pindex, List.mem_reverse.mpr hpindex, ?_⟩, hgives⟩
            exact List.mem_filter.mpr ⟨htx, hqueued⟩
          · rcases hspares node fork hset hfork pindex hpindex tx htx (Bool.eq_false_iff.mpr hqueued) with
              ⟨hbase, hdel⟩ | hfree
            · obtain ⟨before, after, heq⟩ := List.append_of_mem hdel
              refine .inl ((hpasses.new before tx after heq hbase o hgives).imp_right ?_)
              rintro ⟨tx', htx', hn⟩
              exact ⟨tx', heq ▸ List.mem_append_right _ htx', hn⟩
            · exact absurd hgives (Set.disjoint_left.mp (hfree a ha) hneeds)
      obtain ⟨hinv₁, hs₁⟩ := resurrects_spec (ChainState.chainTip env
        { (if fFlush then node.flush else node) with pindexBest := s.node.pindexBest }) hU
        (fun o ho => .inl ((hcoins o).mp ho)) hinv.pool hmem' hstart hresurrect
      obtain ⟨hinv₂, hs₂⟩ := deleteTxs_spec hU hinv₁ hmem hpasses.new hs₁ hdelete
      refine ⟨hinv₂, ?_, fun x block hblock => hinv.files x block (hblocks ▸ hblock)⟩
      have hset' : {o | (if fFlush then node.flush else node).pcoinsTip.Unspent o} = {o | w.view.Unspent o} :=
        Set.ext hcoins
      show SupportedOver _ {o | (if fFlush then node.flush else node).pcoinsTip.Unspent o} _
      rw [hset']
      exact hs₂

/-- Accepting a transaction whose inputs are there keeps the pool closed. -/
theorem inv_accept (env : NodeContext) (hinv : s.Inv env.cfg env.cr U) {tx : CTransaction} (htx : tx ∈ U) {f : Bool}
    (hthere : f = true ∨ InputsThere (s.node.chainTip env) s.pool tx) {pool' : CTxMemPool}
    (h : acceptToMemoryPool (s.node.chainTip env) s.pool tx f = .ok pool') :
    MempoolNode.Inv env.cfg env.cr U { s with pool := pool' } := by
  rw [acceptToMemoryPool_eq_ok] at h
  have hthere' : InputsThere (s.node.chainTip env) s.pool tx := by
    rcases hthere with rfl | hthere
    · exact inputsThere_of_accept h
    · exact hthere
  obtain ⟨hpool, hs⟩ := accept_spec (s.node.chainTip env) hinv.pool htx hinv.supported
    (Set.Subset.refl {o | s.node.pcoinsTip.Unspent o}) Set.subset_union_left hthere' h
  exact ⟨hpool, hs, hinv.files⟩

end MempoolNode

/-! ## Runs -/

/-- What happens to the node and its pool. -/
inductive MempoolEvent where
  /-- A loose transaction is offered; the wallet offers its own with `fCheckInputs` false. -/
  | accept (nAdjustedTime : Int) (tx : CTransaction) (fCheckInputs : Bool)
  /-- `SetBestChain` is called. -/
  | setBestChain (nAdjustedTime : Int) (fThreads fFlush : Bool) (fuel : Nat) (hashNew : Uint256)
  /-- The node changes in any way that leaves its view of the unspent outputs. -/
  | update (node : ChainState)

namespace MempoolEvent

variable (cfg : Settings) (cr : Crypto)

/-- The settings of the node at an event. -/
def context (nAdjustedTime : Int) (fThreads : Bool) : NodeContext :=
  { cfg := cfg, cr := cr, fThreads := fThreads, nAdjustedTime := nAdjustedTime }

/-- The node after an event; none where a removal does not return. -/
def apply (s : MempoolNode) : MempoolEvent → Option MempoolNode
  | .accept t tx fCheckInputs =>
    match acceptToMemoryPool (s.node.chainTip (context cfg cr t false)) s.pool tx fCheckInputs with
    | .ok pool => some { s with pool := pool }
    | .error _ => some s
  | .setBestChain t fThreads fFlush fuel hashNew => s.setBestChain (context cfg cr t fThreads) fFlush fuel hashNew
  | .update node => some { s with node := { node with pcoinsTip := s.node.pcoinsTip } }

/-- One step of a run. -/
def step (s : Option MempoolNode) (e : MempoolEvent) : Option MempoolNode := s.bind (e.apply cfg cr ·)

/-- What the event brings along belongs to a given set of transactions and to this chain. -/
def In (U : Set CTransaction) : MempoolEvent → Prop
  | .accept _ tx _ => tx ∈ U
  | .setBestChain .. => True
  | .update node => node.FilesIn cfg cr U

/-- The event does not reach what the pool does not follow: a transaction that is accepted without a look at its inputs
has them, and no transaction of the pool spends what is disconnected and not put back. -/
def Follows (s : Option MempoolNode) (e : MempoolEvent) : Prop :=
  ∀ node, s = some node →
    match e with
    | .accept t tx fCheckInputs =>
      fCheckInputs = true ∨ InputsThere (node.node.chainTip (context cfg cr t false)) node.pool tx
    | .setBestChain t fThreads _ _ hashNew => node.Spares (context cfg cr t fThreads) hashNew
    | .update _ => True

variable {cfg cr}

/-- **One event** that the pool follows keeps it closed. -/
theorem inv_step {U : Set CTransaction} (hU : U.InjOn (·.getHash cr)) {s : Option MempoolNode} {e : MempoolEvent}
    (hs : ∀ node, s = some node → node.Inv cfg cr U) (hin : e.In cfg cr U) (hfollows : e.Follows cfg cr s) :
    ∀ node, step cfg cr s e = some node → node.Inv cfg cr U := by
  intro node' h
  rw [step, Option.bind_eq_some_iff] at h
  obtain ⟨node, rfl, h⟩ := h
  have hinv := hs node rfl
  have hcond := hfollows node rfl
  cases e with
  | accept t tx fCheckInputs =>
    cases haccept : acceptToMemoryPool (node.node.chainTip (context cfg cr t false)) node.pool tx fCheckInputs with
    | ok pool =>
      simp only [apply, haccept, Option.some.injEq] at h
      subst h
      exact MempoolNode.inv_accept (context cfg cr t false) hinv hin hcond haccept
    | error e =>
      simp only [apply, haccept, Option.some.injEq] at h
      subst h
      exact hinv
  | setBestChain t fThreads fFlush fuel hashNew =>
    exact MempoolNode.inv_setBestChain (context cfg cr t fThreads) hU hinv hcond h
  | update node₁ =>
    cases h
    exact ⟨hinv.pool, hinv.supported, hin⟩

end MempoolEvent

/-! ## A node that switches between two blocks -/

/-- A custodian grant with the hash `20`. -/
def sampleGrant : CTransaction where
  vin := [{}]
  vout := [{ nValue := 1000, scriptPubKey := orphanScript }]
  nLockTime := 20
  cUnit := unitCurrency

/-- A coinbase with the hash `txid`. -/
def branchCoinbase (txid : Nat) : CTransaction :=
  sampleCoinbase txid 1400000000 { nValue := 10000, scriptPubKey := sampleScript }

/-- A node whose best block `4` grants currency, and that has another block `5` above the same predecessor. -/
def grantNode : MempoolNode where
  node :=
    { mapBlockIndex :=
        (BlockMap.line 3 (fun n => { nChainTrust := n + 1 })).insert 5 3 { nChainTrust := 5, nTime := 1400000000 }
      pindexBest := some 4
      pblocktree := OrderedStore.Store.empty
      pcoinsTip :=
        { getCoins := fun h =>
            if h = 1 then
              some { vout := [{ nValue := 1000, scriptPubKey := orphanScript }], nHeight := 1, cUnit := unitCurrency }
            else if h = 20 then some (CCoins.ofTx sampleGrant 3)
            else if h = 13 then some (CCoins.ofTx (branchCoinbase 13) 3)
            else none
          bestBlock := some 4 }
      blocks := fun h =>
        if h = 4 then some (sampleBlock 4 3 1400000000 [branchCoinbase 13, sampleGrant])
        else if h = 5 then some (sampleBlock 5 3 1400000000 [branchCoinbase 11])
        else none
      undo := fun h => if h = 4 then some [[]] else none }
  pool := CTxMemPool.empty

/-- The settings of that node. -/
def grantContext : NodeContext := MempoolEvent.context { fCheckpoints := false } orphanCrypto 1400000000 false

/-- A transaction is accepted, and the node switches to the other block. -/
def switchEvents (tx : CTransaction) : List MempoolEvent :=
  [.accept 1400000000 tx true, .setBestChain 1400000000 false true 3 5]

/-- The fork of the two blocks. -/
theorem grantNode_forkTo : ∃ fork, grantNode.node.forkTo 5 = .ok fork ∧
    fork.1.map (fun pindex => (grantNode.node.txsOf grantContext pindex, pindex.nHeight)) =
      [([branchCoinbase 13, sampleGrant], 3)] ∧
    grantNode.node.resurrected grantContext fork.1 = [] ∧
    grantNode.node.deleted grantContext fork.2 = [branchCoinbase 11] := by
  have h : (grantNode.node.forkTo 5).toOption.any (fun fork =>
      decide (fork.1.map (fun pindex => (grantNode.node.txsOf grantContext pindex, pindex.nHeight)) =
        [([branchCoinbase 13, sampleGrant], 3)] ∧ grantNode.node.resurrected grantContext fork.1 = [] ∧
          grantNode.node.deleted grantContext fork.2 = [branchCoinbase 11])) = true := by decide +kernel
  cases hfork : grantNode.node.forkTo 5 with
  | error e =>
    rw [hfork] at h
    cases h
  | ok fork =>
    rw [hfork] at h
    exact ⟨fork, rfl, of_decide_eq_true h⟩

/-- What the node makes of an accepted transaction. -/
theorem grantNode_accepted {tx : CTransaction} {s : Option MempoolNode}
    (h : MempoolEvent.step { fCheckpoints := false } orphanCrypto (some grantNode) (.accept 1400000000 tx true) = s)
    (hok : (acceptToMemoryPool (grantNode.node.chainTip grantContext) CTxMemPool.empty tx true).isOk = true) :
    s = some ⟨grantNode.node, CTxMemPool.empty.addUnchecked tx.nLockTime tx⟩ := by
  obtain ⟨pool, hpool⟩ := exists_of_isOk hok
  have haccept : acceptToMemoryPool (grantNode.node.chainTip (MempoolEvent.context { fCheckpoints := false } orphanCrypto
      1400000000 false)) grantNode.pool tx true = .ok pool := hpool
  rw [← h, MempoolEvent.step, Option.bind_some, MempoolEvent.apply, haccept]
  exact congrArg some (congrArg (MempoolNode.mk _) (accept_eq_ok (acceptToMemoryPool_eq_ok.mp hpool)).2)

/-- The pool with one transaction. -/
theorem txs_single {h : Uint256} {tx a : CTransaction} (ha : a ∈ (CTxMemPool.empty.addUnchecked h tx).txs) :
    a = tx := by
  obtain ⟨x, hx⟩ := ha
  unfold CTxMemPool.addUnchecked at hx
  simp only at hx
  split at hx
  · exact (Option.some.inj hx).symm
  · cases hx

open MempoolEvent in
/-- **Mempool closure.** In every run that starts with an empty pool, and that the pool can follow, every input of every
transaction of the pool refers to an unspent output of the chain or to an output of another transaction of the pool, in
every state that is reached. No two of the transactions that occur have the same hash. -/
theorem mempool_closed (cfg : Settings) (cr : Crypto) (U : Set CTransaction) (s₀ : MempoolNode)
    (es : List MempoolEvent) (hcollision : U.InjOn (·.getHash cr)) (hfiles : s₀.node.FilesIn cfg cr U)
    (hevents : ∀ e ∈ es, e.In cfg cr U) (hempty : s₀.pool = CTxMemPool.empty)
    (hfollows : Run.Meets (step cfg cr) (Follows cfg cr) (some s₀) es) :
    Run.Always (step cfg cr) (fun s => ∀ node, s = some node → node.Closed cr) (some s₀) es := by
  have hstart : ∀ node, some s₀ = some node → node.Inv cfg cr U := by
    rintro node ⟨⟩
    refine ⟨hempty ▸ mempoolInv_empty, ?_, hfiles⟩
    rw [hempty]
    rintro a ⟨_, ha⟩
    cases ha
  have hmeets := hfollows.and hevents
  have hstep : ∀ s e, (∀ node, s = some node → node.Inv cfg cr U) → (e.Follows cfg cr s ∧ e.In cfg cr U) →
      ∀ node, step cfg cr s e = some node → node.Inv cfg cr U := fun s e hs hc => inv_step hcollision hs hc.2 hc.1
  intro es' hprefix node hnode
  exact (Run.always_of_inv hstep hstart hmeets es' hprefix node hnode).closed

/-- A transaction that spends an older output stays in the pool when the node switches to the other block. -/
theorem mempool_closed_sample :
    (Run.exec (MempoolEvent.step { fCheckpoints := false } orphanCrypto) (some grantNode)
        (switchEvents (spendBefore 2 800))).isSome = true ∧
      Run.Always (MempoolEvent.step { fCheckpoints := false } orphanCrypto)
        (fun s => ∀ node, s = some node → node.Closed orphanCrypto) (some grantNode)
        (switchEvents (spendBefore 2 800)) := by
  refine ⟨by decide +kernel, mempool_closed { fCheckpoints := false } orphanCrypto
    {tx | tx ∈ [spendBefore 2 800, branchCoinbase 11, branchCoinbase 13, sampleGrant]} grantNode
    (switchEvents (spendBefore 2 800)) ?_ ?_ ?_ rfl ⟨fun _ _ => .inl rfl, ?_, trivial⟩⟩
  · have hnodup : ([spendBefore 2 800, branchCoinbase 11, branchCoinbase 13, sampleGrant].map
        (·.getHash orphanCrypto)).Nodup := by decide +kernel
    exact fun a ha b hb hab => List.inj_on_of_nodup_map hnodup ha hb hab
  · intro h block hblock
    replace hblock : (if h = 4 then some (sampleBlock 4 3 1400000000 [branchCoinbase 13, sampleGrant])
      else if h = 5 then some (sampleBlock 5 3 1400000000 [branchCoinbase 11]) else none) = some block := hblock
    split at hblock
    · cases hblock
      exact ⟨⟨by decide +kernel, fun h => absurd h (by decide +kernel)⟩, by decide +kernel⟩
    · split at hblock
      · cases hblock
        exact ⟨⟨by decide +kernel, fun h => absurd h (by decide +kernel)⟩, by decide +kernel⟩
      · cases hblock
  · intro e he
    rcases List.mem_cons.mp he with rfl | he
    · exact List.mem_cons_self
    · rw [List.mem_singleton.mp he]
      trivial
  · intro node hnode
    have hstate := grantNode_accepted hnode (by decide +kernel)
    cases hstate
    intro _ fork _ hfork pindex hpindex tx htx _
    obtain ⟨fork', hfork', htxs, -⟩ := grantNode_forkTo
    obtain rfl : fork' = fork := Except.ok.inj (hfork'.symm.trans hfork)
    have hmem := List.mem_map_of_mem (f := fun pindex => (grantNode.node.txsOf grantContext pindex, pindex.nHeight))
      hpindex
    rw [htxs, List.mem_singleton] at hmem
    replace htx : tx ∈ [branchCoinbase 13, sampleGrant] := (Prod.mk.inj hmem).1 ▸ htx
    refine .inr fun a ha => Set.disjoint_left.mpr ?_
    obtain rfl := txs_single ha
    rintro o ⟨txin, htxin, rfl⟩ ⟨hhash, -⟩
    rw [List.mem_singleton.mp htxin] at hhash
    rcases List.mem_cons.mp htx with rfl | htx
    · exact absurd hhash (by decide)
    · rw [List.mem_singleton.mp htx] at hhash
      exact absurd hhash (by decide)

/-- **A transaction that spends a custodian grant stays** when the grant is disconnected: its input refers neither to an
unspent output nor to a transaction of the pool. -/
theorem grant_spender_stays : ∃ s, Run.exec (MempoolEvent.step { fCheckpoints := false } orphanCrypto) (some grantNode)
    (switchEvents (spendBefore 21 800)) = some s ∧ s.pool.contains 21 = true ∧ ¬ s.Closed orphanCrypto := by
  obtain ⟨fork, hfork, -, hresurrected, hdeleted⟩ := grantNode_forkTo
  have hset : (grantNode.node.setBestChain grantContext id 5).2 = none ∧
      ((grantNode.node.setBestChain grantContext id 5).1.flush.pcoinsTip.prevout ⟨20, 0⟩).isNone = true := by
    decide +kernel
  have hstep : MempoolNode.setBestChain grantContext true 3
      ⟨grantNode.node, CTxMemPool.empty.addUnchecked 21 (spendBefore 21 800)⟩ 5 =
        some ⟨(grantNode.node.setBestChain grantContext id 5).1.flush,
          CTxMemPool.empty.addUnchecked 21 (spendBefore 21 800)⟩ := by
    unfold MempoolNode.setBestChain
    generalize hr : grantNode.node.setBestChain grantContext id 5 = r at hset ⊢
    obtain ⟨node, res⟩ := r
    obtain rfl : res = none := hset.1
    simp only [hfork, hresurrected, hdeleted]
    rfl
  refine ⟨⟨(grantNode.node.setBestChain grantContext id 5).1.flush,
    CTxMemPool.empty.addUnchecked 21 (spendBefore 21 800)⟩, ?_, rfl, fun hclosed => ?_⟩
  · show MempoolEvent.step _ _ (MempoolEvent.step _ _ (some grantNode) _) _ = _
    rw [grantNode_accepted rfl (by decide +kernel)]
    exact hstep
  · rcases hclosed (spendBefore 21 800) ⟨21, rfl⟩ _ (List.mem_singleton_self _) with ⟨c, hc⟩ | ⟨a, ha, hne, -⟩
    · have hnone := hset.2
      rw [show ((grantNode.node.setBestChain grantContext id 5).1.flush.pcoinsTip.prevout ⟨20, 0⟩) = some c from hc]
        at hnone
      cases hnone
    · exact hne (txs_single ha)

end Morcochain
