import Morcochain.ScanBalance
import Morcochain.Reorganisation
import Morcochain.Ledger

/-!
# Dividend balances of a main chain

`GetAddressBalances` (`scanbalance.cpp`) on the main chain of a node.

* `ConnectedChain.backed` : what a connected chain keeps of its outputs and of the tx index.
* `getAddressBalances_eq` : the scan is a tally of the moves of the scanned transactions.
* `getAddressBalances_iff` : **when the balances are those of the shares**.
-/

set_option autoImplicit false

namespace Morcochain

open Guard Stock

/-! ## Connected chains -/

/-- A chain of blocks from the genesis block on, each connected to the coins that the one before it leaves, with the tx
index that its connection writes. Blocks of other branches may be connected meanwhile: what they write stays. -/
inductive ConnectedChain (cfg : Settings) (cr : Crypto) : List CBlock → CCoinsView → (Uint256 → Option CDiskTx) → Prop
  | genesis {c : ConnectContext} {block : CBlock} {view : CCoinsView} {nAdjustedTime : Int} {r : Connected}
      (hcr : c.cr = cr) (hcfg : c.cfg = cfg) (hg : block.getHash cr = cfg.hashGenesisBlock)
      (hbase : ∀ tx ∈ block.vtx, tx.isCoinBase = true) (hempty : ∀ txid, view.live txid = none)
      (h : c.connectBlock block view false nAdjustedTime = .ok r) : ConnectedChain cfg cr [block] r.view fun _ => none
  | block {blocks : List CBlock} {v view : CCoinsView} {txIndex : Uint256 → Option CDiskTx} {c : ConnectContext}
      {block : CBlock} {nAdjustedTime : Int} {r : Connected} (hchain : ConnectedChain cfg cr blocks v txIndex)
      (hcr : c.cr = cr) (hcfg : c.cfg = cfg) (hg : block.getHash cr ≠ cfg.hashGenesisBlock) (hsame : SameCoins view v)
      (h : c.connectBlock block view false nAdjustedTime = .ok r) :
      ConnectedChain cfg cr (blocks ++ [block]) r.view fun txid => (r.vPos.reverse.lookup txid).or (txIndex txid)
  | other {blocks : List CBlock} {v view : CCoinsView} {txIndex : Uint256 → Option CDiskTx} {c : ConnectContext}
      {block : CBlock} {nAdjustedTime : Int} {r : Connected} (hchain : ConnectedChain cfg cr blocks v txIndex)
      (hcr : c.cr = cr) (h : c.connectBlock block view false nAdjustedTime = .ok r) :
      ConnectedChain cfg cr blocks v fun txid => (r.vPos.reverse.lookup txid).or (txIndex txid)

section Chains

variable {cfg : Settings} {cr : Crypto} {blocks : List CBlock} {view : CCoinsView} {txIndex : Uint256 → Option CDiskTx}

theorem mem_of_lookup {α β : Type} [DecidableEq α] {l : List (α × β)} {a : α} {b : β} (h : l.lookup a = some b) :
    (a, b) ∈ l := by
  obtain ⟨l₁, l₂, rfl, -⟩ := List.lookup_eq_some_iff.mp h
  exact List.mem_append_right _ List.mem_cons_self

/-- The records of a block are those of its transactions. -/
theorem mem_txPositions {header : CBlockHeader} {txid : Uint256} {record : CDiskTx} :
    ∀ {vtx : List CTransaction} {nTxOffset : Nat}, (txid, record) ∈ txPositions cr header nTxOffset vtx →
      record.tx.getHash cr = txid
  | [], _, h => by cases h
  | tx :: vtx, nTxOffset, h => by
    rw [txPositions] at h
    rcases List.mem_cons.mp h with h | h
    · cases h
      rfl
    · exact mem_txPositions h

theorem exists_txPositions {header : CBlockHeader} {tx : CTransaction} :
    ∀ {vtx : List CTransaction} {nTxOffset : Nat}, tx ∈ vtx →
      ∃ record, (tx.getHash cr, record) ∈ txPositions cr header nTxOffset vtx
  | [], _, h => by cases h
  | tx' :: vtx, nTxOffset, h => by
    rw [txPositions]
    rcases List.mem_cons.mp h with rfl | h
    · exact ⟨_, List.mem_cons_self⟩
    · obtain ⟨record, hrecord⟩ := @exists_txPositions header tx vtx _ h
      exact ⟨record, List.mem_cons_of_mem _ hrecord⟩

/-- What a connection writes into the tx index. -/
theorem written_spec {c : ConnectContext} {block : CBlock} {v : CCoinsView} {nAdjustedTime : Int} {r : Connected}
    (h : c.connectBlock block v false nAdjustedTime = .ok r) :
    (∀ txid record, r.vPos.reverse.lookup txid = some record → record.tx.getHash c.cr = txid) ∧
      (block.getHash c.cr ≠ c.cfg.hashGenesisBlock → ∀ tx ∈ block.vtx,
        (r.vPos.reverse.lookup (tx.getHash c.cr)).isSome = true) := by
  rw [ChainState.connectBlock_vPos h]
  constructor
  · intro txid record hlookup
    have hmem := List.mem_reverse.mp (mem_of_lookup hlookup)
    split at hmem
    · cases hmem
    · exact mem_txPositions hmem
  · intro hg tx htx
    rw [if_neg hg]
    obtain ⟨record, hrecord⟩ := @exists_txPositions c.cr block.toCBlockHeader tx block.vtx
      (getSizeOfCompactSize block.vtx.length) htx
    rw [← Option.ne_none_iff_isSome, Ne, List.lookup_eq_none_iff]
    intro hnone
    have := hnone _ (List.mem_reverse.mpr hrecord)
    simp at this

/-- A connected block has passed the checks of its transactions. -/
theorem plain_of_connectBlock {c : ConnectContext} {block : CBlock} {v : CCoinsView} {nAdjustedTime : Int}
    {r : Connected}
    (h : c.connectBlock block v false nAdjustedTime = .ok r) : ∀ tx ∈ block.vtx, tx.Plain := by
  unfold ConnectContext.connectBlock at h
  obtain ⟨_, hcheck, -⟩ := bind_eq_ok.mp h
  intro tx htx
  obtain ⟨hvout, hvalue⟩ := CTransaction.checkTransaction_vout ((CBlock.checkBlock_ok hcheck).txs tx htx).1
  exact ⟨hvout, hvalue⟩

/-- **What a connected chain keeps**: its outputs are not negative, the tx index finds transactions under their ids, and
everything that is spent is in the stock and in the tx index. -/
structure ChainBacked (cr : Crypto) (blocks : List CBlock) (view : CCoinsView) (txIndex : Uint256 → Option CDiskTx) :
    Prop where
  plain : ∀ tx ∈ blocks.flatMap (·.vtx), tx.Plain
  ids : ∀ txid record, txIndex txid = some record → record.tx.getHash cr = txid
  backed : Backed (fun txid => (txIndex txid).isSome = true) view (movesOf cr (blocks.flatMap (·.vtx)))

theorem movesOf_append (txs txs' : List CTransaction) : movesOf cr (txs ++ txs') = movesOf cr txs ++ movesOf cr txs' :=
  List.flatMap_append

theorem ids_written {c : ConnectContext} {block : CBlock} {v : CCoinsView} {nAdjustedTime : Int} {r : Connected}
    (hcr : c.cr = cr) (h : c.connectBlock block v false nAdjustedTime = .ok r)
    (hids : ∀ txid record, txIndex txid = some record → record.tx.getHash cr = txid) (txid : Uint256) (record : CDiskTx)
    (hrecord : (r.vPos.reverse.lookup txid).or (txIndex txid) = some record) : record.tx.getHash cr = txid := by
  rcases Option.or_eq_some_iff.mp hrecord with hrecord | ⟨-, hrecord⟩
  · exact hcr ▸ (written_spec h).1 txid record hrecord
  · exact hids txid record hrecord

theorem ConnectedChain.backed (h : ConnectedChain cfg cr blocks view txIndex) : ChainBacked cr blocks view txIndex := by
  induction h with
  | @genesis c block view nAdjustedTime r hcr hcfg hg hbase hempty h =>
    have hplain := plain_of_connectBlock h
    have hview : ∀ txid, r.view.live txid = none := by
      unfold ConnectContext.connectBlock ConnectContext.connectChecked at h
      subst hcr hcfg
      simp only [bind_eq_ok, if_pos hg] at h
      obtain ⟨_, -, _, -, h⟩ := h
      cases h
      exact hempty
    have htxs : [block].flatMap (·.vtx) = block.vtx := by rw [List.flatMap_cons, List.flatMap_nil, List.append_nil]
    refine ⟨fun tx htx => hplain tx (htxs ▸ htx), (fun txid record hr => by cases hr), fun o ho => ?_, fun before i after heq => ?_⟩
    · obtain ⟨coins, hcoins, -⟩ := unspent_live.mpr ho
      rw [hview] at hcoins
      cases hcoins
    · -- coinbases take nothing
      have hmem : Move.leave i ∈ movesOf cr ([block].flatMap (·.vtx)) :=
        heq ▸ List.mem_append_right _ List.mem_cons_self
      rw [htxs] at hmem
      obtain ⟨tx, htx, hmem⟩ := List.mem_flatMap.mp hmem
      unfold CTransaction.moves at hmem
      rw [if_pos (by rw [CTransaction.hasNoInputs, hbase tx htx]; rfl), List.nil_append] at hmem
      obtain ⟨e, -, he⟩ := List.mem_map.mp hmem
      cases he
  | @block blocks v view txIndex c block nAdjustedTime r _ hcr hcfg hg hsame h ih =>
    have hplain := plain_of_connectBlock h
    subst hcr hcfg
    obtain ⟨-, -, -, s, hs, hr⟩ := connectBlock_ok h hg
    obtain ⟨txs, hvtx, hspent, -⟩ := connectTxs_spent hs
    have htxs : (blocks ++ [block]).flatMap (·.vtx) = blocks.flatMap (·.vtx) ++ txs.map (·.1) := by
      rw [List.flatMap_append, List.flatMap_cons, List.flatMap_nil, List.append_nil, hvtx]
    have hmem : ∀ p ∈ txs, p.1 ∈ block.vtx := fun p hp => hvtx ▸ List.mem_map_of_mem hp
    refine ⟨fun tx htx => ?_, ids_written rfl h ih.ids, ?_⟩
    · rw [htxs] at htx
      rcases List.mem_append.mp htx with htx | htx
      · exact ih.plain tx htx
      · exact hplain tx (hvtx ▸ htx)
    · have hold : Backed (fun txid => ((r.vPos.reverse.lookup txid).or (txIndex txid)).isSome = true) view
          (movesOf c.cr (blocks.flatMap (·.vtx))) := by
        have hmono : Backed (fun txid => ((r.vPos.reverse.lookup txid).or (txIndex txid)).isSome = true) _ _ :=
          ih.backed.mono fun txid hk => by rw [Option.isSome_or, hk, Bool.or_true]
        refine ⟨fun o ho => hmono.unspent o ?_, hmono.leaves⟩
        rw [← unspent_live] at ho ⊢
        rwa [← hsame]
      have hnew := hold.spent hspent (fun p hp => hplain _ (hmem p hp)) fun p hp => by
        rw [Option.isSome_or, (written_spec h).2 hg _ (hmem p hp), Bool.true_or]
      rw [htxs, movesOf_append]
      refine ⟨fun o ho => hnew.unspent o ?_, hnew.leaves⟩
      rw [hr] at ho
      exact ho
  | @other blocks v view txIndex c block nAdjustedTime r _ hcr h ih =>
    exact ⟨ih.plain, ids_written hcr h ih.ids,
      ih.backed.mono fun txid hk => by rw [Option.isSome_or, hk, Bool.or_true]⟩

end Chains

/-! ## The balances -/

namespace ChainState

/-- The main chain of the node: entries that are linked in both directions from the genesis block to the best block,
with the blocks that are read for them, which were connected one after the other. -/
structure HasChain (s : ChainState) (env : NodeContext) (chain : List (CBlockIndex × CBlock)) : Prop where
  entries : ∃ b, s.pindexBest = some b ∧ chain.map (·.1) = (s.mapBlockIndex.chain b).reverse ∧
    s.mapBlockIndex.LinkedTo b
  root : ∃ p, chain.head? = some p ∧ p.1.phashBlock = env.cfg.hashGenesisBlock
  blocks : ∀ p ∈ chain, s.readFromDisk env p.1 = some p.2 ∧ p.1.nTime = p.2.nTime
  connected : ∃ view, ConnectedChain env.cfg env.cr (chain.map (·.2)) view s.txIndex

/-- No transaction in the tx index has the id of another one in the chain. -/
def UniqueIds (s : ChainState) (env : NodeContext) (chain : List (CBlockIndex × CBlock)) : Prop :=
  ∀ txid record, s.txIndex txid = some record → ∀ p ∈ chain, ∀ tx ∈ p.2.vtx,
    tx.getHash env.cr = record.tx.getHash env.cr → tx = record.tx

/-- The transactions of the blocks before the first one whose time reaches the cutoff. -/
def scannedTxs (chain : List (CBlockIndex × CBlock)) (cutoffTime : Nat) : List CTransaction :=
  ((chain.map (·.2)).takeWhile fun block => block.nTime < cutoffTime).flatMap (·.vtx)

section Balances

variable {s : ChainState} {env : NodeContext} {chain : List (CBlockIndex × CBlock)} {cutoffTime : Nat}

/-- On a chain that is linked forwards, the walk from a block reaches the blocks above it. -/
theorem walkNext_chain {m : BlockMap} {b : Uint256} (hlinked : m.LinkedTo b) : ∀ {i : Nat} {p : CBlockIndex},
    (m.chain b)[i]? = some p → m.walkNext (i + 1) (some p.phashBlock) = ((m.chain b).take (i + 1)).reverse
  | 0, p, hp => by
    have hzero : m.walkNext 0 p.pnext = [] := by simp only [BlockMap.walkNext]
    rw [BlockMap.walkNext, BlockMap.find_of_mem_chain (List.mem_of_getElem? hp)]
    dsimp only
    rw [hzero]
    cases hchain : m.chain b with
    | nil =>
      rw [hchain] at hp
      cases hp
    | cons top rest =>
      rw [hchain] at hp
      cases hp
      rfl
  | i + 1, p, hp => by
    have hlt := (List.getElem?_eq_some_iff.mp hp).1
    have hq : (m.chain b)[i]? = some (m.chain b)[i] := List.getElem?_eq_getElem (by omega)
    have hnext := hlinked _ (List.mem_of_getElem? hq) p.phashBlock (BlockMap.getElem?_succ_chain hq hp)
    rw [BlockMap.find_of_mem_chain (List.mem_of_getElem? hp), Option.bind_some] at hnext
    rw [BlockMap.walkNext, BlockMap.find_of_mem_chain (List.mem_of_getElem? hp), List.take_add_one, hp]
    dsimp only
    rw [hnext, walkNext_chain hlinked hq, Option.toList_some, List.reverse_append, List.reverse_singleton,
      List.singleton_append]

/-- **The scan is a tally of the moves of the scanned transactions.** -/
theorem getAddressBalances_eq (h : s.HasChain env chain) (hcutoff : ∀ p ∈ s.bestIndex, cutoffTime ≤ p.nTime) :
    s.getAddressBalances env true cutoffTime (fun _ => none) =
      (movesOf env.cr (scannedTxs chain cutoffTime)).foldlM (s.scanMove env) fun _ => none := by
  obtain ⟨b, hb, hchain, hlinked⟩ := h.entries
  obtain ⟨root, hroot, hgenesis⟩ := h.root
  have hlen : chain.length = (s.mapBlockIndex.chain b).length := by
    have := congrArg List.length hchain
    rwa [List.length_map, List.length_reverse] at this
  have hmem : ∀ p ∈ chain, p.1 ∈ s.mapBlockIndex.chain b := fun p hp =>
    List.mem_reverse.mp (hchain ▸ List.mem_map_of_mem hp)
  have hrootmem : root ∈ chain := List.mem_of_head? hroot
  have hfound : s.mapBlockIndex.find env.cfg.hashGenesisBlock = some root.1 :=
    hgenesis ▸ BlockMap.find_of_mem_chain (hmem root hrootmem)
  obtain ⟨top, htop⟩ : ∃ top, s.mapBlockIndex.find b = some top := by
    cases hfind : s.mapBlockIndex.find b with
    | none =>
      have := hmem root hrootmem
      rw [BlockMap.chain_of_none hfind] at this
      cases this
    | some top => exact ⟨top, rfl⟩
  have hbest : s.bestIndex = some top := by rw [bestIndex, hb]; exact htop
  have htime := hcutoff top hbest
  have hwalk : s.mapBlockIndex.walkNext (top.nHeight + 1) (some root.1.phashBlock) = chain.map (·.1) := by
    have hlast : (s.mapBlockIndex.chain b)[top.nHeight]? = some root.1 := by
      have hhead : (chain.map (·.1)).head? = some root.1 := by rw [List.head?_map, hroot]; rfl
      rw [hchain, List.head?_reverse, List.getLast?_eq_getElem?, BlockMap.length_chain htop] at hhead
      exact hhead
    rw [walkNext_chain hlinked hlast, hchain, List.take_of_length_le (by rw [BlockMap.length_chain htop])]
  have hscan : (chain.map (·.1)).takeWhile (fun pblk => pblk.phashBlock ≠ top.phashBlock ∧ pblk.nTime < cutoffTime) =
      ((chain.takeWhile fun p => p.2.nTime < cutoffTime)).map (·.1) := by
    rw [List.takeWhile_map]
    congr 1
    have hcongr : ∀ l : List (CBlockIndex × CBlock), (∀ p ∈ l, p ∈ chain) →
        l.takeWhile ((fun pblk : CBlockIndex => decide (pblk.phashBlock ≠ top.phashBlock ∧ pblk.nTime < cutoffTime)) ∘ (·.1)) =
          l.takeWhile fun p => p.2.nTime < cutoffTime := by
      intro l
      induction l with
      | nil => exact fun _ => rfl
      | cons p l ih =>
        intro hl
        have hp := hl p List.mem_cons_self
        have hiff : (p.1.phashBlock ≠ top.phashBlock ∧ p.1.nTime < cutoffTime) ↔ p.2.nTime < cutoffTime := by
          rw [(h.blocks p hp).2]
          refine and_iff_right_of_imp fun hlt heq => ?_
          -- the block at the top is not scanned
          have hsame : s.mapBlockIndex.find p.1.phashBlock = some p.1 := BlockMap.find_of_mem_chain (hmem p hp)
          rw [heq, s.mapBlockIndex.hash_eq b top htop, htop, Option.some.injEq] at hsame
          rw [← (h.blocks p hp).2, ← hsame] at hlt
          omega
        rw [List.takeWhile_cons, List.takeWhile_cons, ih fun q hq => hl q (List.mem_cons_of_mem _ hq),
          Function.comp_apply, decide_eq_decide.mpr hiff]
    exact hcongr chain fun _ hp => hp
  unfold getAddressBalances
  rw [hfound, hbest]
  dsimp only
  rw [rejectIf_neg (by decide), rejectIf_neg (by omega), ok_bind, ok_bind, hwalk, hscan, List.foldlM_map]
  unfold scannedTxs
  rw [List.takeWhile_map, List.flatMap_map]
  have hfold : ∀ (l : List (CBlockIndex × CBlock)), (∀ p ∈ l, p ∈ chain) → ∀ mapBalance,
      l.foldlM (fun mapBalance p => ((s.readFromDisk env p.1).getD {}).vtx.foldlM (s.scanTransaction env) mapBalance)
        mapBalance = (movesOf env.cr (l.flatMap fun p => p.2.vtx)).foldlM (s.scanMove env) mapBalance := by
    intro l
    induction l with
    | nil => exact fun _ _ => rfl
    | cons p l ih =>
      intro hl mapBalance
      rw [List.foldlM_cons, List.flatMap_cons, movesOf_append, List.foldlM_append,
        (h.blocks p (hl p List.mem_cons_self)).1, Option.getD_some, scanTransactions_eq env.cr]
      congr 1
      funext m
      exact ih (fun q hq => hl q (List.mem_cons_of_mem _ hq)) m
  exact hfold _ (fun p hp => (List.takeWhile_sublist _).subset hp) _

/-- What entered the stock is an output of one of the transactions. -/
theorem of_mem_entered {cr : Crypto} {txs : List CTransaction} {before : List (Move COutPoint (CUnit × CTxOut))}
    (hpre : before <+: movesOf cr txs) {e : COutPoint × CUnit × CTxOut} (he : e ∈ entered before) :
    ∃ tx ∈ txs, tx.getHash cr = e.1.hash ∧ tx.cUnit = e.2.1 ∧ tx.vout[e.1.n]? = some e.2.2 := by
  obtain ⟨m, hm, hme⟩ := List.mem_filterMap.mp he
  cases m with
  | leave i => cases hme
  | enter i a =>
    cases hme
    obtain ⟨tx, htx, hmove⟩ := List.mem_flatMap.mp (hpre.subset hm)
    refine ⟨tx, htx, ?_⟩
    rcases List.mem_append.mp hmove with hin | hout
    · split at hin
      · cases hin
      · obtain ⟨txin, -, hin⟩ := List.mem_map.mp hin
        cases hin
    · obtain ⟨e, hmem, heq⟩ := List.mem_map.mp hout
      cases heq
      obtain ⟨n, hn, rfl⟩ := List.mem_mapIdx.mp hmem
      exact ⟨rfl, rfl, List.getElem?_eq_getElem hn⟩

theorem scannedTxs_initial : scannedTxs chain cutoffTime <+: (chain.map (·.2)).flatMap (·.vtx) := by
  obtain ⟨rest, hrest⟩ :=
    List.takeWhile_prefix (l := chain.map (·.2)) fun block : CBlock => decide (block.nTime < cutoffTime)
  refine ⟨rest.flatMap (·.vtx), ?_⟩
  unfold scannedTxs
  rw [← List.flatMap_append, hrest]

/-- **What is spent in the chain is in the stock**, and the tx index finds it. -/
theorem supplied (h : s.HasChain env chain) (hids : s.UniqueIds env chain) :
    Supplied (s.readPrevOut env) (movesOf env.cr ((chain.map (·.2)).flatMap (·.vtx))) := by
  obtain ⟨view, hconnected⟩ := h.connected
  have hbacked := hconnected.backed
  intro before i after heq
  obtain ⟨hknown, a, ha⟩ := hbacked.backed.leaves before i after heq
  obtain ⟨record, hrecord⟩ := Option.isSome_iff_exists.mp hknown
  have hhash := hbacked.ids i.hash record hrecord
  have hfind : ∀ b, (i, b) ∈ stock before → s.readPrevOut env i = .ok b := by
    intro b hb
    obtain ⟨tx, htx, htxid, hunit, hout⟩ := of_mem_entered ⟨_, heq.symm⟩ (mem_entered_of_mem_stock hb)
    obtain ⟨block, hblock, htx⟩ := List.mem_flatMap.mp htx
    obtain ⟨p, hp, rfl⟩ := List.mem_map.mp hblock
    obtain rfl := hids i.hash record hrecord p hp tx htx (htxid.trans hhash.symm)
    unfold readPrevOut
    rw [hrecord]
    dsimp only at hout hunit ⊢
    rw [if_neg (not_not.mpr hhash), hout, hunit]
  refine ⟨a, hfind a ha, ha, fun b hb => ?_⟩
  have heq := (hfind b hb).symm.trans (hfind a ha)
  cases heq
  rfl

theorem ofDestination_share (fTestNet : Bool) (dest : CTxDestination) :
    ∃ addr, CBitcoinAddress.ofDestination fTestNet dest unitShare = some addr := by
  cases dest <;> exact ⟨_, rfl⟩

theorem get_noDestination (fTestNet : Bool) : CBitcoinAddress.get fTestNet {} = .none := by
  cases fTestNet <;> rfl

/-- The address of a script is that of its destination. -/
theorem shareAddress_eq_iff {dest : CTxDestination} {addr : CBitcoinAddress} (hdest : dest ≠ .none)
    (haddr : CBitcoinAddress.ofDestination env.cfg.fTestNet dest unitShare = some addr) (script : CScript) :
    shareAddress env script = addr ↔ extractDestination env.cr script = some dest := by
  have hget := (CBitcoinAddress.get_ofDestination hdest haddr).2
  unfold shareAddress
  cases hext : extractDestination env.cr script with
  | none =>
    refine ⟨fun h => ?_, fun h => nomatch h⟩
    rw [← h] at hget
    exact absurd (hget.symm.trans (get_noDestination _)) hdest
  | some d =>
    obtain ⟨a, ha⟩ := ofDestination_share env.cfg.fTestNet d
    rw [Option.getD_some, ha, Option.getD_some, Option.some.injEq]
    constructor
    · rintro rfl
      rw [← (CBitcoinAddress.get_ofDestination (extractDestination_ne_none hext) ha).2, hget]
    · rintro rfl
      rw [haddr] at ha
      exact (Option.some.inj ha).symm

/-- Scripts without a destination share one address. -/
theorem shareAddress_eq_none (script : CScript) :
    shareAddress env script = {} ↔ extractDestination env.cr script = none := by
  unfold shareAddress
  cases hext : extractDestination env.cr script with
  | none => exact ⟨fun _ => rfl, fun _ => rfl⟩
  | some d =>
    obtain ⟨a, ha⟩ := ofDestination_share env.cfg.fTestNet d
    have hget := (CBitcoinAddress.get_ofDestination (extractDestination_ne_none hext) ha).2
    rw [Option.getD_some, ha, Option.getD_some]
    refine ⟨fun h => ?_, fun h => nomatch h⟩
    rw [h] at hget
    exact absurd (hget.symm.trans (get_noDestination _)) (extractDestination_ne_none hext)

theorem scannedAmount_nonneg (output : CUnit × CTxOut) : 0 ≤ scannedAmount output := by
  unfold scannedAmount
  split <;> omega

theorem scannedAmount_eq {output : CUnit × CTxOut} (h : 0 ≤ output.2.nValue) :
    scannedAmount output = output.2.nValue := by
  unfold scannedAmount
  split <;> omega

/-- The balance of a key of the scan. -/
abbrev scanBalance (env : NodeContext) (addr : CBitcoinAddress) (moves : List (Move COutPoint (CUnit × CTxOut))) :
    Int :=
  balance (fun output => shareAddress env output.2.scriptPubKey) scannedAmount
    (fun output => !output.2.scriptPubKey.isEmpty) addr moves

/-- At the address of a destination, the balance is what the stock has of it. -/
theorem scanBalance_of_destination {addr : CBitcoinAddress} (haddr : addr ≠ {})
    (moves : List (Move COutPoint (CUnit × CTxOut))) : scanBalance env addr moves =
      total (amountAt (fun output => shareAddress env output.2.scriptPubKey) scannedAmount addr) (stock moves) := by
  have hzero : total (uncounted (fun output => shareAddress env output.2.scriptPubKey) scannedAmount
      (fun output => !output.2.scriptPubKey.isEmpty) addr) (entered moves) = total (fun _ => 0) (entered moves) := by
    refine total_eq_of_forall fun e _ => ?_
    unfold uncounted
    refine if_neg fun h => ?_
    have hempty : e.2.2.scriptPubKey = [] := by simpa using h.2
    have haddr' : shareAddress env e.2.2.scriptPubKey = addr := h.1
    rw [hempty] at haddr'
    exact haddr (haddr'.symm.trans ((shareAddress_eq_none []).mpr rfl))
  unfold scanBalance balance
  rw [hzero]
  simp [total]

/-- **When no balance of the scan is below zero.** -/
theorem solvent_iff {moves : List (Move COutPoint (CUnit × CTxOut))} (hvalue : ∀ e ∈ entered moves, 0 ≤ e.2.2.nValue) :
    (∀ addr, 0 ≤ scanBalance env addr moves) ↔
    total emptyScriptValue (entered moves) ≤ total (undirectedValue env.cr) (stock moves) := by
  have hnone : scanBalance env {} moves = total (undirectedValue env.cr) (stock moves) -
      total emptyScriptValue (entered moves) := by
    unfold scanBalance balance
    congr 1
    · refine total_eq_of_forall fun e he => ?_
      unfold amountAt undirectedValue
      rw [scannedAmount_eq (hvalue e (mem_entered_of_mem_stock he))]
      exact if_congr (shareAddress_eq_none _) rfl rfl
    · refine total_eq_of_forall fun e he => ?_
      unfold uncounted emptyScriptValue
      rw [scannedAmount_eq (hvalue e he)]
      refine if_congr ⟨fun h => by simpa using h.2, fun h => ⟨?_, by simp [h]⟩⟩ rfl rfl
      show shareAddress env e.2.2.scriptPubKey = {}
      rw [h]
      exact (shareAddress_eq_none []).mpr rfl
  constructor
  · intro h
    have := h {}
    rw [hnone] at this
    omega
  · intro h k
    by_cases hk : k = {}
    · subst hk
      rw [hnone]
      omega
    · rw [scanBalance_of_destination hk]
      refine total_nonneg (fun output => ?_) _
      unfold amountAt
      split
      · exact scannedAmount_nonneg output
      · exact le_refl 0

/-- The scan goes through exactly when no balance ever falls below zero. -/
theorem scanMoves_spec {moves : List (Move COutPoint (CUnit × CTxOut))}
    (hsupplied : Supplied (s.readPrevOut env) moves) :
    ((∀ before, before <+: moves → ∀ addr, 0 ≤ scanBalance env addr before) →
      ∃ t, moves.foldlM (s.scanMove env) (fun _ => none) = .ok t ∧ ∀ addr,
        t addr = nonzero (scanBalance env addr moves)) ∧
    (¬ (∀ before, before <+: moves → ∀ addr, 0 ≤ scanBalance env addr before) →
      ∃ e, moves.foldlM (s.scanMove env) (fun _ => none) = .error e) :=
  tally_spec scannedAmount_nonneg hsupplied

/-- The scan shows the shares at every destination exactly when all that it counts are shares. -/
theorem scanBalance_eq_iff {cutoff : List CTransaction}
    (hvalue : ∀ e ∈ unspentOutputs env.cr cutoff, 0 ≤ e.2.2.nValue) :
    (∀ dest addr, dest ≠ .none → CBitcoinAddress.ofDestination env.cfg.fTestNet dest unitShare = some addr →
      nonzero (scanBalance env addr (movesOf env.cr cutoff)) = nonzero (shareBalance env.cr cutoff dest)) ↔
      OnlyShares env.cr cutoff := by
  have hat : ∀ dest addr, dest ≠ .none → CBitcoinAddress.ofDestination env.cfg.fTestNet dest unitShare = some addr →
      (nonzero (scanBalance env addr (movesOf env.cr cutoff)) = nonzero (shareBalance env.cr cutoff dest) ↔
      ∀ e ∈ unspentOutputs env.cr cutoff, 0 < e.2.2.nValue →
        extractDestination env.cr e.2.2.scriptPubKey = some dest → e.2.1 = unitShare) := by
    intro dest addr hdest haddr
    have hne : addr ≠ {} := by
      rintro rfl
      exact hdest ((CBitcoinAddress.get_ofDestination hdest haddr).2.symm.trans (get_noDestination _))
    have hinj : ∀ m n : Int, nonzero m = nonzero n ↔ m = n := fun m n =>
      ⟨fun hmn => by rw [← getD_nonzero m, hmn, getD_nonzero], fun hmn => by rw [hmn]⟩
    have hamount : ∀ e ∈ unspentOutputs env.cr cutoff,
        amountAt (fun output => shareAddress env output.2.scriptPubKey) scannedAmount addr e.2 =
          if extractDestination env.cr e.2.2.scriptPubKey = some dest then e.2.2.nValue else 0 := by
      intro e he
      unfold amountAt
      rw [scannedAmount_eq (hvalue e he)]
      exact if_congr (shareAddress_eq_iff hdest haddr _) rfl rfl
    rw [hinj, scanBalance_of_destination hne, shareBalance]
    refine (total_eq_iff fun e he => ?_).trans (forall_congr' fun e => forall_congr' fun he => ?_)
    · rw [hamount e he]
      have := hvalue e he
      unfold shareValue
      split <;> split <;> simp_all
    · rw [hamount e he]
      have := hvalue e he
      unfold shareValue
      by_cases hext : extractDestination env.cr e.2.2.scriptPubKey = some dest
      · by_cases hunit : e.2.1 = unitShare
        · simp [hext, hunit]
        · simp only [hext, hunit, and_true, if_true, if_false]
          constructor
          · intro hzero hpos
            omega
          · intro himp
            by_contra hzero
            exact himp (by omega) trivial
      · simp [hext]
  constructor
  · intro hall e he hpos hext
    obtain ⟨dest, hdest⟩ := Option.isSome_iff_exists.mp hext
    obtain ⟨addr, haddr⟩ := ofDestination_share env.cfg.fTestNet dest
    have hne := extractDestination_ne_none hdest
    exact (hat dest addr hne haddr).mp (hall dest addr hne haddr) e he hpos hdest
  · intro hall dest addr hdest haddr
    exact (hat dest addr hdest haddr).mpr fun e he hpos hext => hall e he hpos (by rw [hext]; rfl)

/-- **When the balances are those of the shares.** For a node with a main chain and a cutoff that is not after its best
block, the scan goes through and shows for each destination the shares that are created and not spent before the cutoff,
and no balance of zero, exactly when all that is unspent, worth something and has a destination are shares, and what was
created with an empty script is at every moment worth no more than what is unspent and has no destination. -/
theorem getAddressBalances_iff (h : s.HasChain env chain) (hids : s.UniqueIds env chain)
    (hcutoff : ∀ p ∈ s.bestIndex, cutoffTime ≤ p.nTime) :
    (∃ mapBalance, s.getAddressBalances env true cutoffTime (fun _ => none) = .ok mapBalance ∧
      ∀ dest addr, dest ≠ .none → CBitcoinAddress.ofDestination env.cfg.fTestNet dest unitShare = some addr →
        mapBalance addr = nonzero (shareBalance env.cr (scannedTxs chain cutoffTime) dest)) ↔
      OnlyShares env.cr (scannedTxs chain cutoffTime) ∧ EmptyScriptsCovered env.cr (scannedTxs chain cutoffTime) := by
  obtain ⟨view, hconnected⟩ := h.connected
  have hvalue : ∀ before, before <+: movesOf env.cr (scannedTxs chain cutoffTime) →
      ∀ e ∈ entered before, 0 ≤ e.2.2.nValue := by
    intro before hpre e he
    obtain ⟨tx, htx, -, -, hout⟩ := of_mem_entered hpre he
    exact (hconnected.backed.plain tx (scannedTxs_initial.subset htx)).value _ (List.mem_of_getElem? hout)
  have hprefix : movesOf env.cr (scannedTxs chain cutoffTime) <+: movesOf env.cr ((chain.map (·.2)).flatMap (·.vtx)) := by
    obtain ⟨rest, hrest⟩ := @scannedTxs_initial chain cutoffTime
    exact ⟨movesOf env.cr rest, by rw [← movesOf_append, hrest]⟩
  have hcovered : (∀ before, before <+: movesOf env.cr (scannedTxs chain cutoffTime) →
      ∀ addr, 0 ≤ scanBalance env addr before) ↔ EmptyScriptsCovered env.cr (scannedTxs chain cutoffTime) :=
    forall_congr' fun before => forall_congr' fun hpre => solvent_iff (hvalue before hpre)
  have hshares := @scanBalance_eq_iff env (scannedTxs chain cutoffTime) fun e he =>
    hvalue _ (List.prefix_refl _) e (mem_entered_of_mem_stock he)
  obtain ⟨hgo, hfail⟩ := scanMoves_spec ((supplied h hids).of_initial hprefix)
  rw [getAddressBalances_eq h hcutoff, ← hcovered, ← hshares]
  constructor
  · rintro ⟨mapBalance, hok, hbalances⟩
    by_cases hsolvent : ∀ before, before <+: movesOf env.cr (scannedTxs chain cutoffTime) →
        ∀ addr, 0 ≤ scanBalance env addr before
    · obtain ⟨t, ht, hshow⟩ := hgo hsolvent
      rw [ht, Except.ok.injEq] at hok
      subst hok
      exact ⟨fun dest addr hdest haddr => (hshow addr).symm.trans (hbalances dest addr hdest haddr), hsolvent⟩
    · obtain ⟨e, he⟩ := hfail hsolvent
      rw [he] at hok
      cases hok
  · rintro ⟨hall, hsolvent⟩
    obtain ⟨t, ht, hshow⟩ := hgo hsolvent
    exact ⟨t, ht, fun dest addr hdest haddr => (hshow addr).trans (hall dest addr hdest haddr)⟩

end Balances

end ChainState

/-! ## A chain of three blocks -/

/-- The block after the genesis block: a share is minted, and other transactions follow. -/
def dividendBlock (extra : List CTransaction) : CBlock :=
  sampleBlock 5 hashGenesisBlockOfficial 1400000000
    (sampleCoinbase 4 1400000000 { nValue := 10000, scriptPubKey := sampleScript } :: extra)

/-- The block at the top, at the time of the cutoff. -/
def cutoffBlock : CBlock :=
  sampleBlock 6 5 1400000600 [sampleCoinbase 7 1400000600 { nValue := 10000, scriptPubKey := sampleScript }]

/-- The three blocks. -/
def dividendBlocks (extra : List CTransaction) : List CBlock :=
  [mintBlock hashGenesisBlockOfficial 0 3, dividendBlock extra, cutoffBlock]

/-- Their entries. -/
def dividendIndex (extra : List CTransaction) : BlockMap :=
  ((BlockMap.empty.insert hashGenesisBlockOfficial 0
    { CBlockIndex.ofBlock (mintBlock hashGenesisBlockOfficial 0 3) with pnext := some 5 }).insert 5 hashGenesisBlockOfficial
    { CBlockIndex.ofBlock (dividendBlock extra) with pnext := some 6 }).insert 6 5 (CBlockIndex.ofBlock cutoffBlock)

/-- The records of a block in the tx index. -/
def recordsOf (block : CBlock) : List (Uint256 × CDiskTx) :=
  txPositions Crypto.sample block.toCBlockHeader (getSizeOfCompactSize block.vtx.length) block.vtx

/-- The node at the top of the chain. -/
def dividendNode (extra : List CTransaction) : ChainState where
  mapBlockIndex := dividendIndex extra
  pindexBest := some 6
  pblocktree := OrderedStore.Store.empty
  pcoinsTip := ⟨fun _ => none, some 6⟩
  blocks h := (dividendBlocks extra).find? fun block => block.getHash Crypto.sample = h
  txIndex txid := ((recordsOf cutoffBlock).reverse.lookup txid).or
    (((recordsOf (dividendBlock extra)).reverse.lookup txid).or none)

/-- A grant of NuBits to the address of the shares. -/
def bitsGrant : CTransaction where
  nTime := 1400000000
  vin := [{}]
  vout := [{ nValue := 700000, scriptPubKey := sampleScript }]
  nLockTime := 8
  cUnit := unitCurrency

/-- The chain of the node. -/
def dividendChain (extra : List CTransaction) : List (CBlockIndex × CBlock) :=
  (dividendBlocks extra).map fun block =>
    (((dividendIndex extra).find (block.getHash Crypto.sample)).getD {}, block)

/-- What the checks of a block of the chain depend on. -/
def dividendContext (extra : List CTransaction) (hash : Uint256) : ConnectContext where
  cfg := ChainState.sampleContext.cfg
  cr := ChainState.sampleContext.cr
  pindex := ((dividendIndex extra).find hash).getD {}
  chainPrev := (dividendIndex extra).prevChain (((dividendIndex extra).find hash).getD {})

theorem connectedChain_dividend {extra : List CTransaction} (h : ((do
      let r ← (dividendContext extra hashGenesisBlockOfficial).connectBlock (mintBlock hashGenesisBlockOfficial 0 3)
        ⟨fun _ => none, none⟩ false 1400001000
      let r ← (dividendContext extra 5).connectBlock (dividendBlock extra) r.view false 1400001000
      (dividendContext extra 6).connectBlock cutoffBlock r.view false 1400001000) : Check Connected).isOk = true) :
    ∃ view, ConnectedChain ChainState.sampleContext.cfg ChainState.sampleContext.cr (dividendBlocks extra) view
      (dividendNode extra).txIndex := by
  obtain ⟨r₃, h⟩ := exists_of_isOk h
  obtain ⟨r₁, h₁, h⟩ := bind_eq_ok.mp h
  obtain ⟨r₂, h₂, h₃⟩ := bind_eq_ok.mp h
  have hfirst : ConnectedChain ChainState.sampleContext.cfg ChainState.sampleContext.cr
      [mintBlock hashGenesisBlockOfficial 0 3] r₁.view fun _ => none :=
    .genesis rfl rfl rfl (fun tx htx => by
      obtain rfl := List.mem_singleton.mp htx
      rfl) (fun _ => rfl) h₁
  have hhash : (dividendBlock extra).getHash ChainState.sampleContext.cr = 5 := rfl
  have hsecond := hfirst.block rfl rfl (by rw [hhash]; decide +kernel) (fun _ => rfl) h₂
  have hthird := hsecond.block rfl rfl (by decide +kernel) (fun _ => rfl) h₃
  rw [ChainState.connectBlock_vPos h₂, ChainState.connectBlock_vPos h₃] at hthird
  exact ⟨r₃.view, hthird⟩

theorem hasChain_dividend {extra : List CTransaction} (hextra : extra = [] ∨ extra = [bitsGrant]) :
    (dividendNode extra).HasChain ChainState.sampleContext (dividendChain extra) where
  entries := by
    refine ⟨6, rfl, by rcases hextra with rfl | rfl <;> decide +kernel, fun p hp q hq => ?_⟩
    have hall : ∀ p ∈ (dividendNode extra).mapBlockIndex.chain 6,
        p.pprev = none ∨ (p.pprev.bind (dividendNode extra).mapBlockIndex.find).bind (·.pnext) = some p.phashBlock := by
      rcases hextra with rfl | rfl <;> decide +kernel
    rcases hall p hp with hnone | hnext
    · rw [hq] at hnone
      cases hnone
    · rwa [hq, Option.bind_some] at hnext
  root := ⟨_, rfl, by rcases hextra with rfl | rfl <;> decide +kernel⟩
  blocks := by rcases hextra with rfl | rfl <;> decide +kernel
  connected := connectedChain_dividend (by rcases hextra with rfl | rfl <;> decide +kernel)

theorem uniqueIds_dividend {extra : List CTransaction} (hextra : extra = [] ∨ extra = [bitsGrant]) :
    (dividendNode extra).UniqueIds ChainState.sampleContext (dividendChain extra) := by
  have hall : ∀ e ∈ recordsOf cutoffBlock ++ recordsOf (dividendBlock extra), ∀ p ∈ dividendChain extra, ∀ tx ∈ p.2.vtx,
      tx.getHash ChainState.sampleContext.cr = e.2.tx.getHash ChainState.sampleContext.cr → tx = e.2.tx := by
    rcases hextra with rfl | rfl <;> decide +kernel
  intro txid record hrecord
  have hmem : (txid, record) ∈ recordsOf cutoffBlock ++ recordsOf (dividendBlock extra) := by
    rcases Option.or_eq_some_iff.mp hrecord with hrecord | ⟨-, hrecord⟩
    · exact List.mem_append_left _ (List.mem_reverse.mp (mem_of_lookup hrecord))
    · rw [Option.or_none] at hrecord
      exact List.mem_append_right _ (List.mem_reverse.mp (mem_of_lookup hrecord))
  exact hall _ hmem

/-- On the chain with shares only, the scan shows the two shares that were minted. -/
theorem getAddressBalances_iff_sample :
    (∃ mapBalance, (dividendNode []).getAddressBalances ChainState.sampleContext true 1400000600 (fun _ => none) =
        .ok mapBalance ∧ ∀ dest addr, dest ≠ .none →
          CBitcoinAddress.ofDestination ChainState.sampleContext.cfg.fTestNet dest unitShare = some addr →
          mapBalance addr = nonzero (shareBalance Crypto.sample (ChainState.scannedTxs (dividendChain []) 1400000600) dest)) ↔
      OnlyShares Crypto.sample (ChainState.scannedTxs (dividendChain []) 1400000600) ∧
        EmptyScriptsCovered Crypto.sample (ChainState.scannedTxs (dividendChain []) 1400000600) :=
  ChainState.getAddressBalances_iff (hasChain_dividend (.inl rfl)) (uniqueIds_dividend (.inl rfl)) fun p hp => by
    have htop : (dividendNode []).bestIndex.any (fun p => 1400000600 ≤ p.nTime) = true := by decide +kernel
    rw [hp, Option.any_some, decide_eq_true_eq] at htop
    exact htop

/-- NuBits that are granted to an address count as shares of it. -/
theorem getAddressBalances_counts_bits :
    (dividendNode [bitsGrant]).HasChain ChainState.sampleContext (dividendChain [bitsGrant]) ∧
    (dividendNode [bitsGrant]).UniqueIds ChainState.sampleContext (dividendChain [bitsGrant]) ∧
    (∀ p ∈ (dividendNode [bitsGrant]).bestIndex, 1400000600 ≤ p.nTime) ∧
    ¬ ∃ mapBalance, (dividendNode [bitsGrant]).getAddressBalances ChainState.sampleContext true 1400000600 (fun _ => none) =
        .ok mapBalance ∧ ∀ dest addr, dest ≠ .none →
          CBitcoinAddress.ofDestination ChainState.sampleContext.cfg.fTestNet dest unitShare = some addr →
          mapBalance addr =
            nonzero (shareBalance Crypto.sample (ChainState.scannedTxs (dividendChain [bitsGrant]) 1400000600) dest) := by
  refine ⟨hasChain_dividend (.inr rfl), uniqueIds_dividend (.inr rfl), fun p hp => ?_, ?_⟩
  · have htop : (dividendNode [bitsGrant]).bestIndex.any (fun p => 1400000600 ≤ p.nTime) = true := by decide +kernel
    rw [hp, Option.any_some, decide_eq_true_eq] at htop
    exact htop
  · rintro ⟨mapBalance, hok, hbalances⟩
    have hshown : ((dividendNode [bitsGrant]).getAddressBalances ChainState.sampleContext true 1400000600
        (fun _ => none)).toOption.map (· (shareAddress ChainState.sampleContext sampleScript)) =
          some (some 720000) := by
      decide +kernel
    rw [hok] at hshown
    have hbalance : mapBalance (shareAddress ChainState.sampleContext sampleScript) = some 720000 :=
      Option.some.inj hshown
    have hshares := hbalances (.keyID (Crypto.sample.hash160 samplePubKey)) (shareAddress ChainState.sampleContext sampleScript)
      nofun (by decide +kernel)
    rw [hbalance] at hshares
    exact absurd hshares (by decide +kernel)

end Morcochain
