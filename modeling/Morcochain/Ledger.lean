import Morcochain.Supply

/-!
# The figures of the chain

Blocks are accepted, connected and disconnected in any order that the node can take them in, with the view of
`SetBestChain`, the entries of the block index and the undo files. The figures of the entry at which the view stands are
the sums over the view.

* `LedgerStep` : one step of the node, as far as the view, the entries and the undo files are concerned.
* `ledgerInv_steps` : **what holds of them in every state**: each block that was once connected has a view that it
  leaves, its entry has the sums over this view, and its undo file leads back to the view before it.
* `supply_eq_total` : **the figures of the entry are the sums over the view**.
* `setBestChain_ledger` : a reorganisation is a sequence of these steps.
-/

set_option autoImplicit false

namespace Morcochain

open Guard

/-! ## Connecting the same block twice -/

section Unique

variable {cr : Crypto} {nHeight : Int} {v v' w w' : CCoinsView} {block : CBlock}

theorem sameCoins_setCoins (h : SameCoins v v') (txid : Uint256) (coins : CCoins) :
    SameCoins (v.setCoins txid coins) (v'.setCoins txid coins) := by
  intro x
  rw [live_setCoins, live_setCoins, h x]

/-- Inputs that are spent from the same coins leave the same coins and the same undo information. -/
theorem spendInputs_unique : ∀ {vin : List CTxIn} {v v' : CCoinsView} {l : List CTxInUndo}
    {r r' : CCoinsView × List CTxInUndo}, SameCoins v v' → vin.foldlM CTransaction.spendInput (v, l) = .ok r →
      vin.foldlM CTransaction.spendInput (v', l) = .ok r' → SameCoins r.1 r'.1 ∧ r.2 = r'.2
  | [], v, v', l, r, r', hsame, h, h' => by
    rw [List.foldlM_nil] at h h'
    cases h
    cases h'
    exact ⟨hsame, rfl⟩
  | txin :: vin, v, v', l, r, r', hsame, h, h' => by
    obtain ⟨⟨v₁, l₁⟩, h₁, h₂⟩ := foldlM_cons_ok.mp h
    obtain ⟨⟨v₁', l₁'⟩, h₁', h₂'⟩ := foldlM_cons_ok.mp h'
    obtain ⟨coins, left, undo, hcoins, hspend, rfl, rfl⟩ := spendInput_ok h₁
    obtain ⟨coins', left', undo', hcoins', hspend', rfl, rfl⟩ := spendInput_ok h₁'
    obtain ⟨-, txout, hout⟩ := spend_left hspend
    obtain ⟨-, txout', hout'⟩ := spend_left hspend'
    have heq : coins = coins' := by
      have hlive := live_of_not_pruned hcoins (output?_not_isPruned hout)
      rw [hsame, live_of_not_pruned hcoins' (output?_not_isPruned hout'), Option.some.injEq] at hlive
      exact hlive.symm
    subst heq
    rw [hspend, Option.some.injEq, Prod.mk.injEq] at hspend'
    obtain ⟨rfl, rfl⟩ := hspend'
    exact spendInputs_unique (sameCoins_setCoins hsame _ _) h₂ h₂'

theorem updateCoins_unique {tx : CTransaction} {txhash : Uint256} {r r' : CCoinsView × List CTxInUndo}
    (hsame : SameCoins v v') (h : tx.updateCoins v nHeight txhash = .ok r)
    (h' : tx.updateCoins v' nHeight txhash = .ok r') : SameCoins r.1 r'.1 ∧ r.2 = r'.2 := by
  obtain ⟨w, txundo⟩ := r
  obtain ⟨w', txundo'⟩ := r'
  obtain ⟨v₁, hspend, rfl⟩ := updateCoins_ok h
  obtain ⟨v₁', hspend', rfl⟩ := updateCoins_ok h'
  have hspent : SameCoins v₁ v₁' ∧ txundo = txundo' := by
    unfold CTransaction.spendInputs at hspend hspend'
    split at hspend
    · rename_i hno
      rw [if_pos hno] at hspend'
      obtain ⟨rfl, hundo⟩ := Prod.mk.inj (Except.ok.inj hspend)
      obtain ⟨rfl, hundo'⟩ := Prod.mk.inj (Except.ok.inj hspend')
      exact ⟨hsame, hundo.symm.trans hundo'⟩
    · rename_i hno
      rw [if_neg hno] at hspend'
      exact spendInputs_unique hsame hspend hspend'
  exact ⟨sameCoins_setCoins hspent.1 _ _, hspent.2⟩

theorem Spent.unique {txs txs' : List (CTransaction × List CTxInUndo)} (hsame : SameCoins v v')
    (h : Spent cr nHeight v txs w) (h' : Spent cr nHeight v' txs' w') (hvtx : txs.map (·.1) = txs'.map (·.1)) :
    txs = txs' ∧ SameCoins w w' := by
  induction h generalizing v' txs' with
  | nil v =>
    obtain rfl := List.map_eq_nil_iff.mp hvtx.symm
    cases h'
    exact ⟨rfl, hsame⟩
  | @cons v v₁ w tx txundo rest hupdate hrest ih =>
    cases h' with
    | nil => cases hvtx
    | @cons _ v₁' _ tx' txundo' rest' hupdate' hrest' =>
      rw [List.map_cons, List.map_cons, List.cons.injEq] at hvtx
      obtain ⟨rfl, hvtx⟩ := hvtx
      obtain ⟨hsame₁, hundo⟩ := updateCoins_unique hsame hupdate hupdate'
      obtain ⟨rfl, hw⟩ := ih hsame₁ hrest' hvtx
      exact ⟨by rw [show txundo = txundo' from hundo], hw⟩

end Unique

/-! ## The steps of the node -/

/-- What a step leaves alone when no block is accepted or connected: which blocks are known, the blocks, the undo files,
and in the entries the figures and whether there is an undo file. -/
structure KeepsLedger (s s' : ChainState) : Prop where
  links : s.mapBlockIndex.SameLinks s'.mapBlockIndex
  blocks : s'.blocks = s.blocks
  undo : s'.undo = s.undo
  figures : ∀ h, (s'.mapBlockIndex.find h).map (fun p => (p.mapMoneySupply, p.mapTotalParked, p.nStatus &&& blockHaveUndo)) =
    (s.mapBlockIndex.find h).map fun p => (p.mapMoneySupply, p.mapTotalParked, p.nStatus &&& blockHaveUndo)

/-- A block and its entry are added. -/
def ChainState.addBlock (s : ChainState) (hash hashPrevBlock : Uint256) (pindex : CBlockIndex) (block : CBlock) :
    ChainState :=
  { s with
    mapBlockIndex := s.mapBlockIndex.insert hash hashPrevBlock pindex
    blocks := fun h => if h = hash then some block else s.blocks h }

/-- One step of the node and of the view that it works on. -/
inductive LedgerStep (cfg : Settings) (cr : Crypto) (w : Linking) : Linking → Prop where
  /-- A block is accepted: its entry is new, and it has no undo file and no figures. -/
  | accept (hash hashPrevBlock : Uint256) (pindex : CBlockIndex) (block : CBlock)
      (hnew : w.node.mapBlockIndex.find hash = none)
      (hprev : (w.node.mapBlockIndex.find hashPrevBlock).isNone = true ↔ hash = cfg.hashGenesisBlock)
      (hundo : pindex.nStatus &&& blockHaveUndo = 0) (hsupply : pindex.mapMoneySupply = {})
      (hparked : pindex.mapTotalParked = {}) (hexception : hash ∉ bip30Exceptions) :
      LedgerStep cfg cr w ⟨w.node.addBlock hash hashPrevBlock pindex block, w.view⟩
  /-- A block is connected. -/
  | connect (env : NodeContext) (hash : Uint256) (w' : Linking) (hcfg : env.cfg = cfg) (hcr : env.cr = cr)
      (hown : ∀ pindex block, w.node.mapBlockIndex.find hash = some pindex →
        w.node.readFromDisk env pindex = some block → OwnUnits (w.contextOf env pindex) block w.view)
      (h : w.linkBlock env hash = .ok w') : LedgerStep cfg cr w w'
  /-- A block is disconnected. -/
  | disconnect (env : NodeContext) (pindex : CBlockIndex) (view : CCoinsView) (hcr : env.cr = cr)
      (hfind : w.node.mapBlockIndex.find pindex.phashBlock = some pindex)
      (h : w.node.unlinkBlock env w.view pindex = .ok view) : LedgerStep cfg cr w ⟨w.node, view⟩
  /-- The node changes in other ways; the view may become that of the tip. -/
  | update (node : ChainState) (hkeeps : KeepsLedger w.node node)
      (htip : node.pcoinsTip = w.node.pcoinsTip ∨ node.pcoinsTip = w.view) : LedgerStep cfg cr w ⟨node, w.view⟩
  /-- The view of the tip is taken again, as when a reorganisation fails. -/
  | restart : LedgerStep cfg cr w ⟨w.node, w.node.pcoinsTip⟩

/-- Any number of steps. -/
abbrev LedgerSteps (cfg : Settings) (cr : Crypto) : Linking → Linking → Prop :=
  Relation.ReflTransGen (LedgerStep cfg cr)

/-- A node that knows no block. -/
structure Linking.Initial (w : Linking) (cfg : Settings) : Prop where
  noBlock : ∀ h, w.node.mapBlockIndex.find h = none
  noUndo : w.node.undo cfg.hashGenesisBlock = none
  tip : w.node.pcoinsTip.bestBlock = none ∧ ∀ txid, w.node.pcoinsTip.live txid = none
  view : w.view.bestBlock = none ∧ ∀ txid, w.view.live txid = none

/-! ## What holds in every state -/

/-- How the view that a block leaves comes from the one before it. -/
inductive Recorded (cfg : Settings) (cr : Crypto) (s : ChainState) (leaves : Uint256 → Option CCoinsView)
    (pindex : CBlockIndex) (v : CCoinsView) : Prop where
  /-- The genesis block leaves nothing. -/
  | genesis (hash : pindex.phashBlock = cfg.hashGenesisBlock) (prev : pindex.pprev = none)
      (empty : ∀ txid, v.live txid = none)
  /-- Another block was connected to the view that its predecessor leaves, and its undo file is that of its
  transactions. -/
  | block (q : Uint256) (vq v₀ : CCoinsView) (block : CBlock) (txs : List (CTransaction × List CTxInUndo))
      (hash : pindex.phashBlock ≠ cfg.hashGenesisBlock) (prev : pindex.pprev = some q) (left : leaves q = some vq)
      (same : SameCoins v₀ vq) (stored : s.blocks pindex.phashBlock = some block)
      (spent : BlockSpent cr pindex.nHeight block v₀ txs v)
      (undo : s.undo pindex.phashBlock = some ((txs.drop 1).map (·.2)))

/-- The views that blocks leave are those of the ledger. -/
structure LeavesViews (cfg : Settings) (cr : Crypto) (s : ChainState) (leaves : Uint256 → Option CCoinsView) :
    Prop where
  known : ∀ h v, leaves h = some v → ∃ p, s.mapBlockIndex.find h = some p ∧ v.Sound ∧ p.HasTotals v ∧
    Recorded cfg cr s leaves p v
  noUndo : ∀ h p, s.mapBlockIndex.find h = some p → leaves h = none → p.nStatus &&& blockHaveUndo = 0
  root : ∀ h p, s.mapBlockIndex.find h = some p → (p.pprev = none ↔ h = cfg.hashGenesisBlock)
  shares : ∀ h p, s.mapBlockIndex.find h = some p → p.getTotalParked unitShare = 0
  genesis : ∀ p, s.mapBlockIndex.find cfg.hashGenesisBlock = some p →
    p.mapMoneySupply = {} ∧ p.mapTotalParked = {}
  genesisUndo : s.undo cfg.hashGenesisBlock = none
  exceptions : ∀ h p, s.mapBlockIndex.find h = some p → h ∉ bip30Exceptions

/-- A view stands at a block that leaves its coins, or at no block. -/
structure StandsAt (leaves : Uint256 → Option CCoinsView) (view : CCoinsView) : Prop where
  nowhere : view.bestBlock = none → ∀ txid, view.live txid = none
  somewhere : ∀ b, view.bestBlock = some b → ∃ v, leaves b = some v ∧ SameCoins view v

/-- **What holds in every state.** -/
def LedgerInv (cfg : Settings) (cr : Crypto) (w : Linking) : Prop :=
  ∃ leaves, LeavesViews cfg cr w.node leaves ∧ StandsAt leaves w.view ∧ StandsAt leaves w.node.pcoinsTip

section Steps

variable {cfg : Settings} {cr : Crypto} {w w' : Linking} {s s' : ChainState} {leaves : Uint256 → Option CCoinsView}

theorem getMoneySupply_congr {p p' : CBlockIndex} (h : p'.mapMoneySupply = p.mapMoneySupply) (u : CUnit) :
    p'.getMoneySupply u = p.getMoneySupply u := by
  rw [CBlockIndex.getMoneySupply, CBlockIndex.getMoneySupply, h]

theorem getTotalParked_congr {p p' : CBlockIndex} (h : p'.mapTotalParked = p.mapTotalParked) (u : CUnit) :
    p'.getTotalParked u = p.getTotalParked u := by
  rw [CBlockIndex.getTotalParked, CBlockIndex.getTotalParked, h]

theorem CBlockIndex.HasTotals.congr {p p' : CBlockIndex} {v v' : CCoinsView} (h : p.HasTotals v)
    (hsupply : p'.mapMoneySupply = p.mapMoneySupply) (hparked : p'.mapTotalParked = p.mapTotalParked)
    (hsame : SameCoins v' v) : p'.HasTotals v' := by
  refine ⟨fun u hu => ?_, fun u hu => ?_⟩
  · rw [getMoneySupply_congr hsupply, h.supply u hu, total_congr hsame]
  · rw [getTotalParked_congr hparked, h.parked u hu, total_congr hsame]

/-- A view without coins is sound, and all its sums are zero. -/
theorem sound_of_empty {v : CCoinsView} (h : ∀ txid, v.live txid = none) :
    v.Sound ∧ ∀ f u, v.total f u = 0 := by
  refine ⟨⟨fun txid coins hlive => ?_, ?_, fun txid coins hlive => ?_⟩, fun f u => ?_⟩
  · rw [h] at hlive
    cases hlive
  · refine Set.finite_empty.subset fun txid hlive => hlive (h txid)
  · rw [h] at hlive
    cases hlive
  · have hzero : v.amountAt f u = 0 := by
      funext txid
      rw [CCoinsView.amountAt, h]
      rfl
    rw [CCoinsView.total, hzero]
    exact finsum_zero

theorem SameCoins.empty {v v' : CCoinsView} (h : ∀ txid, v.live txid = none) (h' : ∀ txid, v'.live txid = none) :
    SameCoins v v' := fun txid => (h txid).trans (h' txid).symm

/-- The undo files and the blocks decide what is recorded of an entry, with its place in the chain. -/
theorem Recorded.congr {leaves' : Uint256 → Option CCoinsView} {p p' : CBlockIndex} {v : CCoinsView}
    (h : Recorded cfg cr s leaves p v) (hhash : p'.phashBlock = p.phashBlock) (hprev : p'.pprev = p.pprev)
    (hheight : p'.nHeight = p.nHeight)
    (hleft : ∀ q vq, leaves q = some vq → leaves' q = some vq)
    (hblock : ∀ block, s.blocks p.phashBlock = some block → s'.blocks p.phashBlock = some block)
    (hundo : ∀ u, p.phashBlock ≠ cfg.hashGenesisBlock → s.undo p.phashBlock = some u →
      s'.undo p.phashBlock = some u) : Recorded cfg cr s' leaves' p' v := by
  cases h with
  | genesis hash prev empty => exact .genesis (hhash.trans hash) (hprev.trans prev) empty
  | block q vq v₀ block txs hash prev left same stored spent undo =>
    refine .block q vq v₀ block txs (hhash ▸ hash) (hprev.trans prev) (hleft q vq left) same ?_ ?_ ?_
    · rw [hhash]
      exact hblock block stored
    · rw [hheight]
      exact spent
    · rw [hhash]
      exact hundo _ hash undo

/-- Accepting a block changes nothing for the others. -/
theorem LeavesViews.addBlock (h : LeavesViews cfg cr s leaves) {hash hashPrevBlock : Uint256} {pindex : CBlockIndex}
    {block : CBlock} (hnew : s.mapBlockIndex.find hash = none)
    (hprev : (s.mapBlockIndex.find hashPrevBlock).isNone = true ↔ hash = cfg.hashGenesisBlock)
    (hundo : pindex.nStatus &&& blockHaveUndo = 0) (hsupply : pindex.mapMoneySupply = {})
    (hparked : pindex.mapTotalParked = {}) (hexception : hash ∉ bip30Exceptions) :
    LeavesViews cfg cr (s.addBlock hash hashPrevBlock pindex block) leaves := by
  have hfind : ∀ x p, (s.addBlock hash hashPrevBlock pindex block).mapBlockIndex.find x = some p →
      s.mapBlockIndex.find x = some p ∨ (x = hash ∧ p = s.mapBlockIndex.linked hash hashPrevBlock pindex) := by
    intro x p hp
    rcases Option.or_eq_some_iff.mp hp with hp | ⟨-, hp⟩
    · exact .inl hp
    · split at hp
      · exact .inr ⟨‹_›, (Option.some.inj hp).symm⟩
      · cases hp
  have hlinked : ∀ {α : Type} (f : CBlockIndex → α),
    (∀ a b c, f { pindex with phashBlock := a, pprev := b, nHeight := c } =
      f pindex) → f (s.mapBlockIndex.linked hash hashPrevBlock pindex) = f pindex := by
    intro α f hf
    unfold BlockMap.linked
    split <;> exact hf _ _ _
  have hne : ∀ x p, s.mapBlockIndex.find x = some p → x ≠ hash := by
    rintro x p hp rfl
    rw [hnew] at hp
    cases hp
  refine ⟨fun x v hv => ?_, fun x p hp hnone => ?_, fun x p hp => ?_, fun x p hp => ?_, fun p hp => ?_, h.genesisUndo,
    fun x p hp => ?_⟩
  · obtain ⟨p, hp, hsound, htotals, hrec⟩ := h.known x v hv
    refine ⟨p, BlockMap.find_insert_of_some hp _ _ _, hsound, htotals,
      hrec.congr rfl rfl rfl (fun _ _ hq => hq) (fun b hb => ?_) fun _ _ hu => hu⟩
    have hx := s.mapBlockIndex.hash_eq x p hp
    show (if p.phashBlock = hash then some block else s.blocks p.phashBlock) = some b
    rw [if_neg (hx ▸ hne x p hp)]
    exact hb
  · rcases hfind x p hp with hp | ⟨-, rfl⟩
    · exact h.noUndo x p hp hnone
    · rw [hlinked (·.nStatus) fun _ _ _ => rfl]
      exact hundo
  · rcases hfind x p hp with hp | ⟨rfl, rfl⟩
    · exact h.root x p hp
    · rw [← hprev]
      unfold BlockMap.linked
      cases s.mapBlockIndex.find hashPrevBlock <;> simp
  · rcases hfind x p hp with hp | ⟨-, rfl⟩
    · exact h.shares x p hp
    · rw [getTotalParked_congr (hlinked (·.mapTotalParked) fun _ _ _ => rfl), CBlockIndex.getTotalParked, hparked]
      rfl
  · rcases hfind _ p hp with hp | ⟨-, rfl⟩
    · exact h.genesis p hp
    · rw [hlinked (·.mapMoneySupply) fun _ _ _ => rfl, hlinked (·.mapTotalParked) fun _ _ _ => rfl]
      exact ⟨hsupply, hparked⟩
  · rcases hfind x p hp with hp | ⟨rfl, -⟩
    · exact h.exceptions x p hp
    · exact hexception

/-- Other changes of the node. -/
theorem LeavesViews.keep (h : LeavesViews cfg cr s leaves) (hkeeps : KeepsLedger s s') :
    LeavesViews cfg cr s' leaves := by
  have hfind : ∀ x p', s'.mapBlockIndex.find x = some p' → ∃ p, s.mapBlockIndex.find x = some p ∧
      p'.phashBlock = p.phashBlock ∧ p'.pprev = p.pprev ∧ p'.nHeight = p.nHeight ∧
      p'.mapMoneySupply = p.mapMoneySupply ∧ p'.mapTotalParked = p.mapTotalParked ∧
      p'.nStatus &&& blockHaveUndo = p.nStatus &&& blockHaveUndo := by
    intro x p' hp'
    obtain ⟨p, hp, hhash, hprev, hheight⟩ := hkeeps.links.find hp'
    have hfig := hkeeps.figures x
    rw [hp, hp', Option.map_some, Option.map_some, Option.some.injEq, Prod.mk.injEq, Prod.mk.injEq] at hfig
    exact ⟨p, hp, hhash.symm, hprev.symm, hheight.symm, hfig⟩
  refine ⟨fun x v hv => ?_, fun x p' hp' hnone => ?_, fun x p' hp' => ?_, fun x p' hp' => ?_, fun p' hp' => ?_, ?_,
    fun x p' hp' => ?_⟩
  · obtain ⟨p, hp, hsound, htotals, hrec⟩ := h.known x v hv
    obtain ⟨p', hp', -⟩ := hkeeps.links.symm.find hp
    obtain ⟨p₁, hp₁, hhash, hprev, hheight, hsupply, hparked, -⟩ := hfind x p' hp'
    rw [hp, Option.some.injEq] at hp₁
    subst hp₁
    exact ⟨p', hp', hsound, htotals.congr hsupply hparked fun _ => rfl,
      hrec.congr hhash hprev hheight (fun _ _ hq => hq) (fun b hb => by rw [hkeeps.blocks]; exact hb)
        fun u _ hu => by rw [hkeeps.undo]; exact hu⟩
  · obtain ⟨p, hp, -, -, -, -, -, hstatus⟩ := hfind x p' hp'
    rw [hstatus]
    exact h.noUndo x p hp hnone
  · obtain ⟨p, hp, -, hprev, -⟩ := hfind x p' hp'
    rw [hprev]
    exact h.root x p hp
  · obtain ⟨p, hp, -, -, -, -, hparked, -⟩ := hfind x p' hp'
    rw [getTotalParked_congr hparked]
    exact h.shares x p hp
  · obtain ⟨p, hp, -, -, -, hsupply, hparked, -⟩ := hfind _ p' hp'
    rw [hsupply, hparked]
    exact h.genesis p hp
  · rw [hkeeps.undo]
    exact h.genesisUndo
  · obtain ⟨p, hp, -⟩ := hfind x p' hp'
    exact h.exceptions x p hp

/-- A block that is disconnected leaves the view at its predecessor. -/
theorem LeavesViews.disconnect (h : LeavesViews cfg cr s leaves) {env : NodeContext} {pindex : CBlockIndex}
    {view view' : CCoinsView} (hcr : env.cr = cr) (hfind : s.mapBlockIndex.find pindex.phashBlock = some pindex)
    (hstands : StandsAt leaves view) (hun : s.unlinkBlock env view pindex = .ok view') : StandsAt leaves view' := by
  unfold ChainState.unlinkBlock at hun
  obtain ⟨block, hread, hun⟩ := bind_eq_ok.mp hun
  have hstored : s.blocks pindex.phashBlock = some block := by
    unfold ChainState.readBlock at hread
    cases hdisk : s.readFromDisk env pindex with
    | none =>
      rw [hdisk] at hread
      cases hread
    | some block' =>
      rw [hdisk] at hread
      cases hread
      exact (Option.filter_eq_some_iff.mp hdisk).1
  have hbest : view.bestBlock = some pindex.phashBlock := by
    unfold CBlock.disconnectBlock at hun
    obtain ⟨_, hassert, -⟩ := bind_eq_ok.mp hun
    exact (not_not.mp (rejectIf_eq_ok.mp hassert)).symm
  obtain ⟨v, hv, hsame⟩ := hstands.somewhere _ hbest
  obtain ⟨p, hp, -, -, hrec⟩ := h.known _ v hv
  rw [hfind, Option.some.injEq] at hp
  subst hp
  cases hrec with
  | genesis hash prev empty =>
    -- the genesis block has no undo file
    rw [hash, h.genesisUndo] at hun
    unfold CBlock.disconnectBlock at hun
    obtain ⟨_, -, hun⟩ := bind_eq_ok.mp hun
    cases hun
  | block q vq v₀ block' txs hash prev left same stored spent undo =>
    rw [hstored, Option.some.injEq] at stored
    subst stored
    rw [undo, hcr] at hun
    obtain ⟨pq, hpq, hsound, -⟩ := h.known q vq left
    have hheight : pindex.nHeight ≠ 0 := by
      rcases s.mapBlockIndex.prev_in _ _ hfind with ⟨hnone, -⟩ | ⟨_, pprev, -, -, hsucc⟩
      · rw [prev] at hnone
        cases hnone
      · omega
    obtain ⟨view'', hdisconnect, hbest', hsame'⟩ := disconnectBlock_spent hheight (same.canonical hsound.canonical)
      spent hbest hsame
    rw [hdisconnect, Except.ok.injEq] at hun
    subst hun
    refine ⟨fun hnone => ?_, fun b hb => ?_⟩
    · rw [hbest', prev] at hnone
      cases hnone
    · rw [hbest', prev, Option.some.injEq] at hb
      subst hb
      exact ⟨vq, left, hsame'.trans same⟩

/-! ### Connecting a block -/

theorem StandsAt.mono {leaves' : Uint256 → Option CCoinsView} {view : CCoinsView} (h : StandsAt leaves view)
    (hleft : ∀ q vq, leaves q = some vq → leaves' q = some vq) : StandsAt leaves' view :=
  ⟨h.nowhere, fun b hb =>
    let ⟨v, hv, hsame⟩ := h.somewhere b hb
    ⟨v, hleft b v hv, hsame⟩⟩

/-- A block that is connected has an undo file. -/
theorem haveUndo_connectedIndex (c : ConnectContext) (cs : ConnectState)
    (h : c.pindex.nStatus &&& blockHaveUndo = 0) : (c.connectedIndex cs).nStatus &&& blockHaveUndo ≠ 0 := by
  have hbit : ∀ n : Nat, n &&& blockHaveUndo ≠ 0 ↔ n.testBit 4 = true := by
    intro n
    have hand : n &&& 2 ^ 4 = (n.testBit 4).toNat * 2 ^ 4 := Nat.and_two_pow _ _
    rw [show blockHaveUndo = 2 ^ 4 from rfl, hand]
    cases n.testBit 4 <;> simp
  have hmask : (2 ^ 32 - 1 - blockValidMask : Nat).testBit 4 = true := by decide
  rw [hbit]
  simp only [ConnectContext.connectedIndex, h, true_or, if_true]
  rw [Nat.testBit_or, Nat.testBit_and, Nat.testBit_or, hmask, show blockHaveUndo.testBit 4 = true by decide,
    Bool.or_true, Bool.true_and, Bool.true_or]

/-- The genesis block changes nothing but the block that the view stands at. -/
theorem connectBlock_genesis {c : ConnectContext} {block : CBlock} {view : CCoinsView} {t : Int} {r : Connected}
    (h : c.connectBlock block view false t = .ok r) (hg : block.getHash c.cr = c.cfg.hashGenesisBlock) :
    c.pindex.pprev = view.bestBlock ∧
      r = { view := view.setBestBlock (some c.pindex.phashBlock), pindex := c.pindex } := by
  unfold ConnectContext.connectBlock ConnectContext.connectChecked at h
  simp only [bind_eq_ok, if_pos hg] at h
  obtain ⟨_, -, _, hprev, h⟩ := h
  exact ⟨not_not.mp (rejectIf_eq_ok.mp hprev), (Except.ok.inj h).symm⟩

/-- One more block leaves a view. -/
theorem LeavesViews.update (h : LeavesViews cfg cr s leaves) {pindex p' : CBlockIndex} {v : CCoinsView}
    (hfind : s.mapBlockIndex.find pindex.phashBlock = some pindex)
    (hmap : ∀ x, s'.mapBlockIndex.find x = if x = pindex.phashBlock then some p' else s.mapBlockIndex.find x)
    (hplace : p'.phashBlock = pindex.phashBlock ∧ p'.pprev = pindex.pprev ∧ p'.nHeight = pindex.nHeight)
    (hblocks : s'.blocks = s.blocks) (hundo : ∀ x, x ≠ pindex.phashBlock → s'.undo x = s.undo x)
    (hundoGenesis : s'.undo cfg.hashGenesisBlock = none)
    (hsupply : pindex.phashBlock = cfg.hashGenesisBlock → p'.mapMoneySupply = {} ∧ p'.mapTotalParked = {})
    (hshares : p'.getTotalParked unitShare = 0) (hold : ∀ v', leaves pindex.phashBlock = some v' → v' = v)
    (hsound : v.Sound) (htotals : p'.HasTotals v)
    (hrec : Recorded cfg cr s' (Function.update leaves pindex.phashBlock (some v)) p' v) :
    LeavesViews cfg cr s' (Function.update leaves pindex.phashBlock (some v)) := by
  have hleft : ∀ q vq, leaves q = some vq → Function.update leaves pindex.phashBlock (some v) q = some vq := by
    intro q vq hq
    by_cases heq : q = pindex.phashBlock
    · subst heq
      rw [Function.update_self, hold vq hq]
    · rw [Function.update_of_ne heq]
      exact hq
  refine ⟨fun x v' hv' => ?_, fun x p hp hnone => ?_, fun x p hp => ?_, fun x p hp => ?_, fun p hp => ?_, hundoGenesis,
    fun x p hp => ?_⟩
  · by_cases heq : x = pindex.phashBlock
    · subst heq
      rw [Function.update_self, Option.some.injEq] at hv'
      subst hv'
      exact ⟨p', by rw [hmap, if_pos rfl], hsound, htotals, hrec⟩
    · rw [Function.update_of_ne heq] at hv'
      obtain ⟨p, hp, hsound', htotals', hrec'⟩ := h.known x v' hv'
      have hx := s.mapBlockIndex.hash_eq x p hp
      exact ⟨p, by rw [hmap, if_neg heq]; exact hp, hsound', htotals',
        hrec'.congr rfl rfl rfl hleft (fun b hb => by rw [hblocks]; exact hb)
          fun u _ hu => by rw [hundo _ (hx ▸ heq)]; exact hu⟩
  · by_cases heq : x = pindex.phashBlock
    · subst heq
      rw [Function.update_self] at hnone
      cases hnone
    · rw [Function.update_of_ne heq] at hnone
      rw [hmap, if_neg heq] at hp
      exact h.noUndo x p hp hnone
  all_goals rw [hmap] at hp
  all_goals split at hp
  · rename_i heq
    cases hp
    rw [hplace.2.1, heq]
    exact h.root _ _ hfind
  · exact h.root x p hp
  · cases hp
    exact hshares
  · exact h.shares x p hp
  · rename_i heq
    cases hp
    exact hsupply heq.symm
  · exact h.genesis p hp
  · rename_i heq
    rw [heq]
    exact h.exceptions _ _ hfind
  · exact h.exceptions x p hp

theorem find_linked {pindex : CBlockIndex} (c : Connected)
    (hfind : w.node.mapBlockIndex.find pindex.phashBlock = some pindex) (x : Uint256) :
    (w.linked pindex c).node.mapBlockIndex.find x =
      if x = pindex.phashBlock then some (BlockMap.updated (fun _ => c.pindex) pindex)
      else w.node.mapBlockIndex.find x := by
  show (w.node.mapBlockIndex.modify _ _).find x = _
  rw [BlockMap.find_modify]
  split
  · rename_i hx
    rw [hx, hfind]
    rfl
  · rfl

section Connect

variable {env : NodeContext} {pindex : CBlockIndex} {block : CBlock} {c : Connected}

/-- The genesis block leaves no coins. -/
theorem LeavesViews.connect_genesis (h : LeavesViews env.cfg env.cr w.node leaves) (hstands : StandsAt leaves w.view)
    (hfind : w.node.mapBlockIndex.find pindex.phashBlock = some pindex)
    (hhash : block.getHash env.cr = pindex.phashBlock) (hg : pindex.phashBlock = env.cfg.hashGenesisBlock)
    (hconnect : (w.contextOf env pindex).connectBlock block w.view false env.nAdjustedTime = .ok c) :
    ∃ v, (∀ v', leaves pindex.phashBlock = some v' → v' = v) ∧ SameCoins c.view v ∧
      LeavesViews env.cfg env.cr (w.linked pindex c).node (Function.update leaves pindex.phashBlock (some v)) := by
  obtain ⟨hprev, rfl⟩ := connectBlock_genesis hconnect (hhash.trans hg)
  have hnone : pindex.pprev = none := (h.root _ _ hfind).mpr hg
  have hempty : ∀ txid, w.view.live txid = none := hstands.nowhere (hprev.symm.trans hnone)
  have hundo : ∀ x, (w.linked pindex
      { view := w.view.setBestBlock (some pindex.phashBlock), pindex := pindex }).node.undo x = w.node.undo x :=
    fun x => if_neg fun hx => hx.2.2 hx.2.1
  obtain ⟨hsupply, hparked⟩ := h.genesis pindex (hg ▸ hfind)
  obtain ⟨v, hold, hv⟩ : ∃ v, (∀ v', leaves pindex.phashBlock = some v' → v' = v) ∧ ∀ txid, v.live txid = none := by
    cases hl : leaves pindex.phashBlock with
    | none => exact ⟨w.view, nofun, hempty⟩
    | some v =>
      refine ⟨v, fun v' hv' => (Option.some.inj hv').symm, ?_⟩
      obtain ⟨p, hp, -, -, hrec⟩ := h.known _ v hl
      rw [hfind, Option.some.injEq] at hp
      subst hp
      cases hrec with
      | genesis _ _ empty => exact empty
      | block _ _ _ _ _ hash => exact absurd hg hash
  obtain ⟨hsound, hzero⟩ := sound_of_empty hv
  have htotals : pindex.HasTotals v := by
    refine ⟨fun u hu => ?_, fun u hu => ?_⟩
    · rw [hzero, CBlockIndex.getMoneySupply, hsupply]
      rcases List.mem_pair.mp hu with rfl | rfl <;> rfl
    · rw [hzero, CBlockIndex.getTotalParked, hparked]
      rcases List.mem_pair.mp hu with rfl | rfl <;> rfl
  exact ⟨v, hold, SameCoins.empty hempty hv, h.update hfind (find_linked _ hfind) ⟨rfl, rfl, rfl⟩ rfl
    (fun x _ => hundo x) ((hundo _).trans h.genesisUndo) (fun _ => ⟨hsupply, hparked⟩) (h.shares _ _ hfind) hold hsound
    (htotals.congr rfl rfl fun _ => rfl) (.genesis hg hnone hv)⟩

/-- Another block leaves what its transactions leave; when it was connected before, this is what it left then. -/
theorem LeavesViews.connect_block (h : LeavesViews env.cfg env.cr w.node leaves) (hstands : StandsAt leaves w.view)
    (hfind : w.node.mapBlockIndex.find pindex.phashBlock = some pindex)
    (hstored : w.node.blocks pindex.phashBlock = some block) (hhash : block.getHash env.cr = pindex.phashBlock)
    (hg : pindex.phashBlock ≠ env.cfg.hashGenesisBlock) (hown : OwnUnits (w.contextOf env pindex) block w.view)
    (hconnect : (w.contextOf env pindex).connectBlock block w.view false env.nAdjustedTime = .ok c) :
    ∃ v, (∀ v', leaves pindex.phashBlock = some v' → v' = v) ∧ SameCoins c.view v ∧
      LeavesViews env.cfg env.cr (w.linked pindex c).node (Function.update leaves pindex.phashBlock (some v)) := by
  obtain ⟨q, hprev⟩ := Option.ne_none_iff_exists'.mp fun hnone => hg ((h.root _ _ hfind).mp hnone)
  have hat : pindex.pprev = w.view.bestBlock := (connectBlock_ok hconnect fun heq => hg (hhash.symm.trans heq)).2.1
  obtain ⟨vq, hvq, hsameq⟩ := hstands.somewhere q (hat.symm.trans hprev)
  obtain ⟨pq, hpq, hsoundq, htotalsq, -⟩ := h.known q vq hvq
  have hheight : pindex.nHeight = pq.nHeight + 1 := by
    rcases w.node.mapBlockIndex.prev_in _ _ hfind with ⟨hnone, -⟩ | ⟨q', p, hq', hp, hsucc⟩
    · rw [hprev] at hnone
      cases hnone
    · rw [hprev, Option.some.injEq] at hq'
      subst hq'
      rw [hpq, Option.some.injEq] at hp
      rw [hsucc, hp]
  have hqne : q ≠ pindex.phashBlock := by
    rintro rfl
    rw [hfind, Option.some.injEq] at hpq
    rw [← hpq] at hheight
    omega
  have hundoable : Undoable (w.contextOf env pindex) block :=
    ⟨fun heq => hg (hhash.symm.trans heq), show 1 ≤ pindex.nHeight by omega, hhash.symm,
      fun hmem => h.exceptions _ _ hfind (hhash ▸ hmem)⟩
  have hchain : (w.contextOf env pindex).chainPrev = pq :: w.node.mapBlockIndex.prevChain pq := by
    show w.node.mapBlockIndex.prevChain pindex = _
    rw [BlockMap.prevChain, hprev]
    exact BlockMap.chain_of_find hpq
  obtain ⟨hsound, htotals, hshares⟩ := supply_connectBlock hundoable (hsoundq.congr hsameq) hown hchain
    (htotalsq.congr rfl rfl hsameq) (h.shares _ _ hfind) hconnect
  obtain ⟨cs, txs, -, rfl, hvtxundo, hspent⟩ := connectBlock_txs hundoable hconnect
  -- the undo file is the one that is there, or a new one with the undo information of the transactions
  have hundo : w.node.undo pindex.phashBlock = some ((txs.drop 1).map (·.2)) ∨ pindex.nStatus &&& blockHaveUndo = 0 →
      (w.linked pindex ((w.contextOf env pindex).connected block false cs)).node.undo pindex.phashBlock =
        some ((txs.drop 1).map (·.2)) := by
    intro hor
    show (if _ then some cs.vtxundo else w.node.undo pindex.phashBlock) = _
    split
    · rw [hvtxundo]
    · rename_i hcond
      rcases hor with hundo | hstatus
      · exact hundo
      · exact absurd ⟨rfl, hstatus, haveUndo_connectedIndex (w.contextOf env pindex) cs hstatus⟩ hcond
  have hother : ∀ x, x ≠ pindex.phashBlock →
      (w.linked pindex ((w.contextOf env pindex).connected block false cs)).node.undo x = w.node.undo x :=
    fun x hx => if_neg fun hcond => hx hcond.1
  have hleft : ∀ v, Function.update leaves pindex.phashBlock (some v) q = some vq := fun v =>
    (Function.update_of_ne hqne ..).trans hvq
  cases hl : leaves pindex.phashBlock with
  | none =>
    have hcs : SameCoins cs.view ((w.contextOf env pindex).connected block false cs).view := fun _ => rfl
    refine ⟨cs.view, (fun v' hv' => by cases hv'), fun _ => rfl, h.update hfind (find_linked _ hfind) ⟨rfl, rfl, rfl⟩ rfl hother
      ((hother _ (Ne.symm hg)).trans h.genesisUndo) (fun heq => absurd heq hg) hshares
      (fun v' hv' => by rw [hl] at hv'; cases hv') (hsound.congr hcs) (htotals.congr rfl rfl hcs) ?_⟩
    exact .block q vq w.view block txs hg hprev (hleft _) hsameq hstored hspent
      (hundo (.inr (h.noUndo _ _ hfind hl)))
  | some v =>
    obtain ⟨p, hp, hsoundv, -, hrec⟩ := h.known _ v hl
    rw [hfind, Option.some.injEq] at hp
    subst hp
    cases hrec with
    | genesis hash => exact absurd hash hg
    | block q' vq' v₀ block' txs' _ prev left same stored spent undo =>
      rw [hprev, Option.some.injEq] at prev
      subst prev
      rw [hvq, Option.some.injEq] at left
      subst left
      rw [hstored, Option.some.injEq] at stored
      subst stored
      obtain ⟨rfl, hsame⟩ := Spent.unique (hsameq.trans same.symm) hspent.spent spent.spent
        (hspent.vtx.trans spent.vtx.symm)
      have hv : SameCoins v ((w.contextOf env pindex).connected block false cs).view := fun x => (hsame x).symm
      refine ⟨v, fun v' hv' => (Option.some.inj hv').symm, hv.symm, h.update hfind (find_linked _ hfind)
        ⟨rfl, rfl, rfl⟩ rfl hother ((hother _ (Ne.symm hg)).trans h.genesisUndo) (fun heq => absurd heq hg) hshares
        (fun v' hv' => by rw [hl] at hv'; exact (Option.some.inj hv').symm) hsoundv (htotals.congr rfl rfl hv) ?_⟩
      exact .block q vq v₀ block txs hg hprev (hleft _) same hstored spent (hundo (.inl undo))

/-- **A connected block leaves a view.** -/
theorem LeavesViews.connect {hash : Uint256} (h : LeavesViews env.cfg env.cr w.node leaves)
    (hstands : StandsAt leaves w.view)
    (hown : ∀ pindex block, w.node.mapBlockIndex.find hash = some pindex →
      w.node.readFromDisk env pindex = some block → OwnUnits (w.contextOf env pindex) block w.view)
    (hlink : w.linkBlock env hash = .ok w') :
    ∃ leaves', (∀ q vq, leaves q = some vq → leaves' q = some vq) ∧ LeavesViews env.cfg env.cr w'.node leaves' ∧
      StandsAt leaves' w'.view ∧ w'.node.pcoinsTip = w.node.pcoinsTip := by
  obtain ⟨pindex, block, c, hfind, hread, hconnect, rfl⟩ := ChainState.linkBlock_ok hlink
  obtain rfl : pindex.phashBlock = hash := w.node.mapBlockIndex.hash_eq hash pindex hfind
  obtain ⟨hstored, hcond⟩ := Option.filter_eq_some_iff.mp hread
  have hhash : block.getHash env.cr = pindex.phashBlock := (of_decide_eq_true hcond).1
  obtain ⟨v, hold, hsame, hleaves⟩ : ∃ v, (∀ v', leaves pindex.phashBlock = some v' → v' = v) ∧ SameCoins c.view v ∧
      LeavesViews env.cfg env.cr (w.linked pindex c).node (Function.update leaves pindex.phashBlock (some v)) := by
    by_cases hg : pindex.phashBlock = env.cfg.hashGenesisBlock
    · exact h.connect_genesis hstands hfind hhash hg hconnect
    · exact h.connect_block hstands hfind hstored hhash hg (hown pindex block hfind hread) hconnect
  have hbest : (w.linked pindex c).view.bestBlock = some pindex.phashBlock := ChainState.connectBlock_bestBlock hconnect
  refine ⟨_, fun q vq hq => ?_, hleaves, ⟨fun hnone => ?_, fun b hb => ?_⟩, rfl⟩
  · by_cases heq : q = pindex.phashBlock
    · subst heq
      rw [Function.update_self, hold vq hq]
    · rw [Function.update_of_ne heq]
      exact hq
  · rw [hbest] at hnone
    cases hnone
  · rw [hbest, Option.some.injEq] at hb
    subst hb
    exact ⟨v, Function.update_self .., hsame⟩

end Connect

/-! ## The figures -/

/-- What holds at the start. -/
theorem ledgerInv_initial (h : w.Initial cfg) : LedgerInv cfg cr w := by
  refine ⟨fun _ => none, ⟨nofun, fun x p hp => ?_, fun x p hp => ?_, fun x p hp => ?_, fun p hp => ?_, h.noUndo,
    fun x p hp => ?_⟩, ⟨fun _ => h.view.2, fun b hb => ?_⟩, ⟨fun _ => h.tip.2, fun b hb => ?_⟩⟩
  · rw [h.noBlock] at hp
    cases hp
  · rw [h.noBlock] at hp
    cases hp
  · rw [h.noBlock] at hp
    cases hp
  · rw [h.noBlock] at hp
    cases hp
  · rw [h.noBlock] at hp
    cases hp
  · rw [h.view.1] at hb
    cases hb
  · rw [h.tip.1] at hb
    cases hb

/-- **Every step keeps it.** -/
theorem ledgerInv_step (h : LedgerInv cfg cr w) (hstep : LedgerStep cfg cr w w') : LedgerInv cfg cr w' := by
  obtain ⟨leaves, hleaves, hview, htip⟩ := h
  cases hstep with
  | accept hash hashPrevBlock pindex block hnew hprev hundo hsupply hparked hexception =>
    exact ⟨leaves, hleaves.addBlock hnew hprev hundo hsupply hparked hexception, hview, htip⟩
  | connect env hash w' hcfg hcr hown hlink =>
    subst hcfg hcr
    obtain ⟨leaves', hleft, hleaves', hview', hcoins⟩ := hleaves.connect hview hown hlink
    exact ⟨leaves', hleaves', hview', hcoins ▸ htip.mono hleft⟩
  | disconnect env pindex view hcr hfind hun =>
    exact ⟨leaves, hleaves, hleaves.disconnect hcr hfind hview hun, htip⟩
  | update node hkeeps hnode =>
    refine ⟨leaves, hleaves.keep hkeeps, hview, ?_⟩
    rcases hnode with hnode | hnode
    · exact hnode ▸ htip
    · exact hnode ▸ hview
  | restart => exact ⟨leaves, hleaves, htip, htip⟩

theorem ledgerInv_steps (h : LedgerInv cfg cr w) (hsteps : LedgerSteps cfg cr w w') : LedgerInv cfg cr w' := by
  induction hsteps with
  | refl => exact h
  | tail _ hstep ih => exact ledgerInv_step ih hstep

/-- **The figures of the entry at which the view stands are the sums over the view**: in every state that is reached
from a node without blocks, the money supply of each unit is the value of its outputs that are not spent, and the parked
total that of those of them that are parked. -/
theorem supply_eq_total {w₀ : Linking} (hinitial : w₀.Initial cfg) (hsteps : LedgerSteps cfg cr w₀ w) {b : Uint256}
    (hb : w.view.bestBlock = some b) :
    ∃ pindex, w.node.mapBlockIndex.find b = some pindex ∧ ∀ u ∈ sAvailableUnits,
      pindex.getMoneySupply u = w.view.total (·.nValue) u ∧
      pindex.getTotalParked u = w.view.total parkedAmount u := by
  obtain ⟨leaves, hleaves, hview, -⟩ := ledgerInv_steps (ledgerInv_initial hinitial) hsteps
  obtain ⟨v, hv, hsame⟩ := hview.somewhere b hb
  obtain ⟨pindex, hp, -, htotals, -⟩ := hleaves.known b v hv
  exact ⟨pindex, hp, fun u hu => ⟨by rw [htotals.supply u hu, total_congr hsame],
    by rw [htotals.parked u hu, total_congr hsame]⟩⟩

end Steps

/-! ## A reorganisation -/

/-- The transactions of the blocks that are connected spend outputs of their own unit. -/
def LinksOwn (env : NodeContext) : Linking → List Uint256 → Prop
  | _, [] => True
  | w, hash :: rest =>
    (∀ pindex block, w.node.mapBlockIndex.find hash = some pindex → w.node.readFromDisk env pindex = some block →
      OwnUnits (w.contextOf env pindex) block w.view) ∧
    ∀ w', w.linkBlock env hash = .ok w' → LinksOwn env w' rest

section Reorganise

variable {env : NodeContext} {s : ChainState}

theorem linkBlocks_ledger : ∀ {hashes : List Uint256} {w w' : Linking} {r : Option (Uint256 × Failure)},
    LinksOwn env w hashes → Linking.linkBlocks env w hashes = (w', r) →
      LedgerSteps env.cfg env.cr w w' ∧ w'.node.pcoinsTip = w.node.pcoinsTip
  | [], w, w', r, _, h => by
    cases h
    exact ⟨.refl, rfl⟩
  | hash :: rest, w, w', r, hown, h => by
    rw [Linking.linkBlocks] at h
    cases hlink : w.linkBlock env hash with
    | error e =>
      rw [hlink] at h
      cases h
      exact ⟨.refl, rfl⟩
    | ok w₁ =>
      rw [hlink] at h
      obtain ⟨hsteps, hcoins⟩ := linkBlocks_ledger (hown.2 w₁ hlink) h
      obtain ⟨pindex, block, c, -, -, -, rfl⟩ := ChainState.linkBlock_ok hlink
      exact ⟨.head (.connect env hash _ rfl rfl hown.1 hlink) hsteps, hcoins⟩

theorem unlinkBlocks_ledger : ∀ {l : List CBlockIndex} {view view' : CCoinsView},
    (∀ p ∈ l, s.mapBlockIndex.find p.phashBlock = some p) → l.foldlM (s.unlinkBlock env) view = .ok view' →
      LedgerSteps env.cfg env.cr ⟨s, view⟩ ⟨s, view'⟩
  | [], view, view', _, h => by
    rw [List.foldlM_nil] at h
    cases h
    exact .refl
  | p :: l, view, view', hfind, h => by
    obtain ⟨view₁, h₁, h₂⟩ := foldlM_cons_ok.mp h
    exact .head (.disconnect env p view₁ rfl (hfind p List.mem_cons_self) h₁)
      (unlinkBlocks_ledger (fun q hq => hfind q (List.mem_cons_of_mem _ hq)) h₂)

/-- Marking a block keeps the ledger. -/
theorem keepsLedger_markFailed (pindex : CBlockIndex) : KeepsLedger s (s.markFailed pindex) := by
  refine ⟨BlockMap.sameLinks_modify _ _ _, rfl, rfl, fun h => ?_⟩
  show ((s.mapBlockIndex.modify _ _).find h).map _ = _
  rw [BlockMap.find_modify]
  split
  · cases s.mapBlockIndex.find h with
    | none => rfl
    | some p =>
      have hbit : (p.nStatus ||| blockFailedValid) &&& blockHaveUndo = p.nStatus &&& blockHaveUndo := by
        rw [Nat.and_or_distrib_right, show blockFailedValid &&& blockHaveUndo = 0 by decide, Nat.or_zero]
      simp only [Option.map_some, BlockMap.updated, hbit]
  · rfl

/-- A new tip keeps the ledger. -/
theorem keepsLedger_commit (fork : List CBlockIndex × List CBlockIndex) (hashNew : Uint256) (view : CCoinsView) :
    KeepsLedger s (s.commit fork hashNew view) := by
  have hsame := sameButNext_relink s.mapBlockIndex fork.1 fork.2
  refine ⟨hsame.sameLinks, rfl, rfl, fun h => ?_⟩
  have hh := congrArg (Option.map fun p : CBlockIndex =>
    (p.mapMoneySupply, p.mapTotalParked, p.nStatus &&& blockHaveUndo)) (hsame h)
  rw [Option.map_map, Option.map_map] at hh
  exact hh

/-- **A reorganisation is a sequence of these steps**, whether it succeeds or fails. -/
theorem setBestChain_ledger {reorg : ChainState → ChainState} {hashNew : Uint256}
    (hreorg : ∀ s, LedgerSteps env.cfg env.cr ⟨s, s.pcoinsTip⟩ ⟨reorg s, (reorg s).pcoinsTip⟩)
    (hown : ∀ fork view, s.unlinkBlocks env hashNew = .ok (fork, view) →
      LinksOwn env ⟨s, view⟩ (fork.2.map (·.phashBlock))) :
    LedgerSteps env.cfg env.cr ⟨s, s.pcoinsTip⟩
      ⟨(s.setBestChain env reorg hashNew).1, (s.setBestChain env reorg hashNew).1.pcoinsTip⟩ := by
  unfold ChainState.setBestChain
  cases hun : s.unlinkBlocks env hashNew with
  | error e => exact .refl
  | ok u =>
    obtain ⟨fork, view⟩ := u
    have hunlink : LedgerSteps env.cfg env.cr ⟨s, s.pcoinsTip⟩ ⟨s, view⟩ := by
      have hfold := hun
      unfold ChainState.unlinkBlocks at hfold
      obtain ⟨fork', hfork, hfold⟩ := bind_eq_ok.mp hfold
      obtain ⟨view', hview, hfold⟩ := bind_eq_ok.mp hfold
      cases hfold
      refine unlinkBlocks_ledger (fun p hp => ?_) hview
      unfold ChainState.forkTo at hfork
      obtain ⟨_, -, hfork⟩ := bind_eq_ok.mp hfork
      cases hfork
      have hmem : p ∈ s.tipChain := (List.takeWhile_sublist _).subset hp
      unfold ChainState.tipChain at hmem
      cases hb : s.pcoinsTip.bestBlock with
      | none =>
        rw [hb] at hmem
        cases hmem
      | some b =>
        rw [hb] at hmem
        exact BlockMap.find_of_mem_chain hmem
    simp only
    cases hlink : Linking.linkBlocks env ⟨s, view⟩ (fork.2.map (·.phashBlock)) with
    | mk w r =>
      obtain ⟨hsteps, hcoins⟩ := linkBlocks_ledger (hown fork view hun) hlink
      have hlinked := hunlink.trans hsteps
      cases r with
      | none =>
        exact hlinked.tail (.update (w.node.commit fork hashNew w.view) (keepsLedger_commit fork hashNew w.view)
          (.inr rfl))
      | some r =>
        obtain ⟨hash, e⟩ := r
        have hrestart := hlinked.tail .restart
        show LedgerSteps _ _ _ ⟨if _ then _ else _, (if _ then _ else _ : ChainState).pcoinsTip⟩
        split
        · unfold ChainState.invalidBlockFound
          cases hfind : w.node.mapBlockIndex.find hash with
          | none => exact hrestart
          | some pindex =>
            have hmarked := hrestart.tail (.update (w.node.markFailed pindex) (keepsLedger_markFailed pindex) (.inl rfl))
            simp only
            split
            · exact hmarked.trans (hreorg (w.node.markFailed pindex))
            · exact hmarked
        · exact hrestart

end Reorganise

/-! ## A chain of two blocks -/

/-- A block that mints one share; the genesis block is not signed. -/
def mintBlock (hash hashPrevBlock txid : Nat) : CBlock :=
  { sampleBlock hash hashPrevBlock 1400000000
      [sampleCoinbase txid 1400000000 { nValue := 10000, scriptPubKey := sampleScript }] with
    vchBlockSig := if hash = hashGenesisBlockOfficial then [] else samplePubKey }

/-- A node without blocks. -/
def emptyNode : Linking where
  node := { mapBlockIndex := BlockMap.empty, pindexBest := none, pblocktree := OrderedStore.Store.empty
            pcoinsTip := ⟨fun _ => none, none⟩, blocks := fun _ => none }
  view := ⟨fun _ => none, none⟩

/-- The node with one more block. -/
def acceptMint (w : Linking) (hash hashPrevBlock txid : Nat) : Linking :=
  ⟨w.node.addBlock hash hashPrevBlock (CBlockIndex.ofBlock (mintBlock hash hashPrevBlock txid))
    (mintBlock hash hashPrevBlock txid), w.view⟩

/-- A block with only a coinbase spends nothing. -/
theorem ownUnits_mintBlock (c : ConnectContext) (view : CCoinsView) (hash hashPrevBlock txid : Nat) :
    OwnUnits c (mintBlock hash hashPrevBlock txid) view := by
  have hbase : (sampleCoinbase txid 1400000000 { nValue := 10000, scriptPubKey := sampleScript }).hasNoInputs =
    true := rfl
  refine ⟨⟨fun hno => ?_, fun _ _ => trivial⟩, fun tx hmem hgrant => ?_⟩
  · rw [hbase] at hno
    cases hno
  · obtain rfl := List.mem_singleton.mp hmem
    intro txout hmem
    obtain rfl := List.mem_singleton.mp hmem
    decide +kernel

/-- One share is minted, and the figures say so. -/
theorem supply_eq_total_sample :
    ∃ w, LedgerSteps ChainState.sampleContext.cfg ChainState.sampleContext.cr emptyNode w ∧
      w.view.bestBlock = some 5 ∧
      ∃ pindex, w.node.mapBlockIndex.find 5 = some pindex ∧ ∀ u ∈ sAvailableUnits,
        pindex.getMoneySupply u = w.view.total (·.nValue) u ∧
        pindex.getTotalParked u = w.view.total parkedAmount u := by
  have hrun : (Linking.linkBlock ChainState.sampleContext (acceptMint emptyNode hashGenesisBlockOfficial 0 3)
      hashGenesisBlockOfficial >>= fun w => do
        Guard.rejectIf ((w.node.mapBlockIndex.find 5).isSome ∨
          (w.node.mapBlockIndex.find hashGenesisBlockOfficial).isNone) (.assertion "")
        let w ← Linking.linkBlock ChainState.sampleContext (acceptMint w 5 hashGenesisBlockOfficial 4) 5
        Guard.rejectIf (w.view.bestBlock ≠ some 5) (.assertion "")).isOk = true := by decide +kernel
  obtain ⟨_, hrun⟩ := exists_of_isOk hrun
  obtain ⟨w₁, h₁, hrun⟩ := bind_eq_ok.mp hrun
  obtain ⟨_, hcond, hrun⟩ := bind_eq_ok.mp hrun
  obtain ⟨w₂, h₂, hbest⟩ := bind_eq_ok.mp hrun
  rw [rejectIf_eq_ok, not_or] at hcond
  have hown : ∀ w, ∀ hash prev txid, ∀ pindex block,
    (acceptMint w hash prev txid).node.mapBlockIndex.find hash = some pindex →
      (acceptMint w hash prev txid).node.readFromDisk ChainState.sampleContext pindex = some block →
        OwnUnits ((acceptMint w hash prev txid).contextOf ChainState.sampleContext pindex) block
          (acceptMint w hash prev txid).view := by
    intro w hash prev txid pindex block hfind hread
    obtain ⟨hstored, -⟩ := Option.filter_eq_some_iff.mp hread
    have hh := (acceptMint w hash prev txid).node.mapBlockIndex.hash_eq _ _ hfind
    rw [hh] at hstored
    have hblock : mintBlock hash prev txid = block := by
      have : (acceptMint w hash prev txid).node.blocks hash = some (mintBlock hash prev txid) := if_pos rfl
      rw [this, Option.some.injEq] at hstored
      exact hstored
    exact hblock ▸ ownUnits_mintBlock _ _ hash prev txid
  have hsteps : LedgerSteps ChainState.sampleContext.cfg ChainState.sampleContext.cr emptyNode w₂ := by
    refine .head (.accept hashGenesisBlockOfficial 0 (CBlockIndex.ofBlock (mintBlock hashGenesisBlockOfficial 0 3))
      (mintBlock hashGenesisBlockOfficial 0 3) rfl (by decide) rfl rfl rfl (by decide)) ?_
    refine .head (.connect ChainState.sampleContext hashGenesisBlockOfficial w₁ rfl rfl (hown _ _ _ _) h₁) ?_
    refine .head (.accept 5 hashGenesisBlockOfficial (CBlockIndex.ofBlock (mintBlock 5 hashGenesisBlockOfficial 4))
      (mintBlock 5 hashGenesisBlockOfficial 4) ?_ ?_ rfl rfl rfl (by decide)) ?_
    · exact Option.not_isSome_iff_eq_none.mp hcond.1
    · exact ⟨fun hnone => absurd hnone hcond.2, fun heq => absurd heq (by decide)⟩
    · exact .single (.connect ChainState.sampleContext 5 w₂ rfl rfl (hown _ _ _ _) h₂)
  have hat := not_not.mp (rejectIf_eq_ok.mp hbest)
  exact ⟨w₂, hsteps, hat, supply_eq_total ⟨fun _ => rfl, rfl, ⟨rfl, fun _ => rfl⟩, rfl, fun _ => rfl⟩ hsteps hat⟩

end Morcochain
