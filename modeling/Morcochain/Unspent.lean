import Morcochain.MempoolRemoval
import Morcochain.Supply

/-!
# What happens to unspent outputs

Which outputs of a view are still unspent after a block was disconnected from it, or connected to it.

* `unspent_updateCoins` : the outputs that are unspent after a transaction.
* `disconnectBlock_keeps` : **a block that is disconnected cleanly takes its own outputs only**.
* `connectBlock_keeps` : **a block that is connected spends what its transactions need, and adds what they give**.
-/

set_option autoImplicit false

namespace Morcochain

open Guard

/-- The output is unspent in the view. -/
def CCoinsView.Unspent (view : CCoinsView) (o : COutPoint) : Prop := ∃ c, view.prevout o = some c

section Views

variable {view view' w : CCoinsView} {o : COutPoint} {cr : Crypto} {tx : CTransaction} {nHeight : Int}

theorem unspent_iff : view.Unspent o ↔ ∃ coins, view.getCoins o.hash = some coins ∧ coins.isAvailable o.n = true := by
  constructor
  · rintro ⟨c, hc⟩
    obtain ⟨hcoins, hout⟩ := prevout_eq_some.mp hc
    exact ⟨c.1, hcoins, isAvailable_iff.mpr ⟨c.2, hout⟩⟩
  · rintro ⟨coins, hcoins, hav⟩
    obtain ⟨txout, hout⟩ := isAvailable_iff.mp hav
    exact ⟨(coins, txout), prevout_eq_some.mpr ⟨hcoins, hout⟩⟩

theorem unspent_setCoins {txid : Uint256} {coins : CCoins} : (view.setCoins txid coins).Unspent o ↔
    if o.hash = txid then coins.isAvailable o.n = true else view.Unspent o := by
  rw [unspent_iff, unspent_iff, CCoinsView.getCoins_setCoins]
  by_cases hh : o.hash = txid
  · simp [hh]
  · simp [hh]

/-- The outputs of a transaction are available, unless they are null. -/
theorem isAvailable_ofTx (hplain : tx.Plain) {n : Nat} :
    (CCoins.ofTx tx nHeight).isAvailable n = true ↔ n < tx.vout.length := by
  rw [isAvailable_iff]
  constructor
  · rintro ⟨txout, hout⟩
    exact (List.getElem?_eq_some_iff.mp (Option.filter_eq_some_iff.mp hout).1).1
  · intro hn
    refine ⟨tx.vout[n], Option.filter_eq_some_iff.mpr ⟨List.getElem?_eq_getElem hn, ?_⟩⟩
    rw [CTxOut.not_isNull_of_nonneg (hplain.value _ (List.getElem_mem hn))]
    rfl

/-- Flushing the view changes no output. -/
theorem unspent_live : (∃ coins, view.live o.hash = some coins ∧ coins.isAvailable o.n = true) ↔ view.Unspent o := by
  rw [unspent_iff]
  constructor
  · rintro ⟨coins, hcoins, hav⟩
    exact ⟨coins, (getCoins_of_live hcoins).1, hav⟩
  · rintro ⟨coins, hcoins, hav⟩
    obtain ⟨txout, hout⟩ := isAvailable_iff.mp hav
    exact ⟨coins, live_of_not_pruned hcoins (output?_not_isPruned hout), hav⟩

/-! ## Connecting -/

theorem unspent_spendInput {l l' : List CTxInUndo} {txin : CTxIn}
    (h : CTransaction.spendInput (w, l) txin = .ok (view', l')) :
    view'.Unspent o ↔ w.Unspent o ∧ o ≠ txin.prevout := by
  obtain ⟨coins, left, undo, hcoins, hspend, rfl, -⟩ := spendInput_ok h
  obtain ⟨rfl, txout, hout⟩ := spend_left hspend
  rw [unspent_setCoins]
  by_cases hh : o.hash = txin.prevout.hash
  · rw [if_pos hh, unspent_iff, hh, hcoins]
    simp only [Option.some.injEq, exists_eq_left']
    by_cases hn : o.n = txin.prevout.n
    · have ho : o = txin.prevout := by
        cases o
        cases hp : txin.prevout
        rw [hp] at hh hn
        simp_all
      rw [ho]
      simp only [ne_eq, not_true_eq_false, and_false, iff_false, Bool.not_eq_true]
      have hlt := (List.getElem?_eq_some_iff.mp (Option.filter_eq_some_iff.mp hout).1).1
      rw [CCoins.isAvailable, CCoins.spent, output?_cleanup, CCoins.output?, List.getElem?_set_self hlt]
      rfl
    · have ho : o ≠ txin.prevout := fun heq => hn (by rw [heq])
      rw [CCoins.isAvailable, CCoins.isAvailable, output?_spent hn]
      exact (and_iff_left ho).symm
  · have ho : o ≠ txin.prevout := fun heq => hh (by rw [heq])
    rw [if_neg hh]
    exact (and_iff_left ho).symm

theorem unspent_spendInputs : ∀ {vin : List CTxIn} {w : CCoinsView} {l l' : List CTxInUndo},
    vin.foldlM CTransaction.spendInput (w, l) = .ok (view', l') →
      (view'.Unspent o ↔ w.Unspent o ∧ ∀ txin ∈ vin, o ≠ txin.prevout)
  | [], w, l, l', h => by
    rw [List.foldlM_nil] at h
    cases h
    simp
  | txin :: vin, w, l, l', h => by
    obtain ⟨⟨w₁, l₁⟩, h₁, h₂⟩ := foldlM_cons_ok.mp h
    rw [unspent_spendInputs h₂, unspent_spendInput h₁, List.forall_mem_cons, and_assoc]

/-- **The outputs that are unspent after a transaction**: its own, and those that it does not need. -/
theorem unspent_updateCoins (hplain : tx.Plain) {txundo : List CTxInUndo}
    (h : tx.updateCoins w nHeight (tx.getHash cr) = .ok (view', txundo)) :
    (o ∈ tx.gives cr → view'.Unspent o) ∧
      (o.hash ≠ tx.getHash cr → w.Unspent o → o ∉ tx.needs → view'.Unspent o) ∧
      (o.hash ≠ tx.getHash cr → view'.Unspent o → w.Unspent o) := by
  obtain ⟨v₁, hspend, rfl⟩ := updateCoins_ok h
  have hv₁ : (w.Unspent o → o ∉ tx.needs → v₁.Unspent o) ∧ (v₁.Unspent o → w.Unspent o) := by
    unfold CTransaction.spendInputs at hspend
    split at hspend
    · cases hspend
      exact ⟨fun hw _ => hw, id⟩
    · have hiff := unspent_spendInputs (o := o) hspend
      exact ⟨fun hw hn => hiff.mpr ⟨hw, fun txin htxin heq => hn ⟨txin, htxin, heq.symm⟩⟩, fun hv => (hiff.mp hv).1⟩
  refine ⟨fun ⟨hhash, hn⟩ => ?_, fun hne hw hn => ?_, fun hne hv => ?_⟩
  · rw [unspent_setCoins, if_pos hhash]
    exact (isAvailable_ofTx hplain).mpr hn
  · rw [unspent_setCoins, if_neg hne]
    exact hv₁.1 hw hn
  · rw [unspent_setCoins, if_neg hne] at hv
    exact hv₁.2 hv

/-- What connecting transactions one after the other does to the unspent outputs: what was unspent stays so unless one
of them needs it, and what one of them gives is unspent unless it or a later one needs it. Of coinbases only the first
part is said: those of the genesis block are not connected. -/
structure Passes (cr : Crypto) (view : CCoinsView) (txs : List CTransaction) (view' : CCoinsView) : Prop where
  old : ∀ o, view.Unspent o → view'.Unspent o ∨ ∃ tx ∈ txs, o ∈ tx.needs
  new : ∀ before tx after, txs = before ++ tx :: after → tx.isCoinBase = false → ∀ o ∈ tx.gives cr,
    view'.Unspent o ∨ ∃ tx' ∈ tx :: after, o ∈ tx'.needs

theorem Passes.nil (cr : Crypto) (view : CCoinsView) : Passes cr view [] view :=
  ⟨fun _ h => .inl h, fun before tx after h => by simp at h⟩

theorem Passes.append {txs txs' : List CTransaction} {view'' : CCoinsView} (h : Passes cr view txs view')
    (h' : Passes cr view' txs' view'') : Passes cr view (txs ++ txs') view'' := by
  refine ⟨fun o ho => ?_, fun before tx after heq hbase o ho => ?_⟩
  · rcases h.old o ho with ho | ⟨tx, htx, hn⟩
    · rcases h'.old o ho with ho | ⟨tx, htx, hn⟩
      · exact .inl ho
      · exact .inr ⟨tx, List.mem_append_right _ htx, hn⟩
    · exact .inr ⟨tx, List.mem_append_left _ htx, hn⟩
  · rcases List.append_eq_append_iff.mp heq with ⟨as, rfl, htxs'⟩ | ⟨bs, htxs, hafter⟩
    · exact h'.new as tx after htxs' hbase o ho
    · cases bs with
      | nil =>
        rw [List.nil_append] at hafter
        exact h'.new [] tx after hafter.symm hbase o ho
      | cons b bs =>
        rw [List.cons_append, List.cons.injEq] at hafter
        obtain ⟨rfl, rfl⟩ := hafter
        rcases h.new before tx bs htxs hbase o ho with ho | ⟨tx', htx', hn⟩
        · rcases h'.old o ho with ho | ⟨tx', htx', hn⟩
          · exact .inl ho
          · exact .inr ⟨tx', List.mem_cons_of_mem _ (List.mem_append_right _ htx'), hn⟩
        · refine .inr ⟨tx', ?_, hn⟩
          rcases List.mem_cons.mp htx' with rfl | htx'
          · exact List.mem_cons_self
          · exact List.mem_cons_of_mem _ (List.mem_append_left _ htx')

/-- One transaction whose outputs are not there before. -/
theorem passes_updateCoins (hplain : tx.Plain) (hdead : ∀ o, o.hash = tx.getHash cr → ¬ w.Unspent o)
    {txundo : List CTxInUndo} (h : tx.updateCoins w nHeight (tx.getHash cr) = .ok (view', txundo)) :
    Passes cr w [tx] view' := by
  have hnew : ∀ o, o ∈ tx.gives cr → view'.Unspent o := fun o => (unspent_updateCoins hplain h).1
  have hold : ∀ o, o.hash ≠ tx.getHash cr → w.Unspent o → o ∉ tx.needs → view'.Unspent o := fun o =>
    (unspent_updateCoins hplain h).2.1
  refine ⟨fun o ho => ?_, fun before tx' after heq _ o ho => ?_⟩
  · by_cases hn : o ∈ tx.needs
    · exact .inr ⟨tx, List.mem_singleton_self _, hn⟩
    · exact .inl (hold o (fun hhash => hdead o hhash ho) ho hn)
  · cases before with
    | nil =>
      obtain ⟨rfl, -⟩ := List.cons.inj heq
      exact .inl (hnew o ho)
    | cons b before => simp at heq

/-- **The transactions of a block**, none of which is there before. -/
theorem Spent.passes {txs : List (CTransaction × List CTxInUndo)} (h : Spent cr nHeight view txs w)
    (hplain : ∀ p ∈ txs, p.1.Plain) (hdead : ∀ p ∈ txs, ∀ o : COutPoint, o.hash = p.1.getHash cr → ¬ view.Unspent o)
    (hnodup : (txs.map (·.1.getHash cr)).Nodup) : Passes cr view (txs.map (·.1)) w := by
  induction h with
  | nil v => exact .nil cr v
  | @cons v v' w tx txundo rest h hrest ih =>
    have htx := hplain _ List.mem_cons_self
    rw [List.map_cons, List.nodup_cons] at hnodup
    have hdead' : ∀ p ∈ rest, ∀ o : COutPoint, o.hash = p.1.getHash cr → ¬ v'.Unspent o := by
      intro p hp o ho hunspent
      have hne : p.1.getHash cr ≠ tx.getHash cr := fun heq => hnodup.1 (heq ▸ List.mem_map_of_mem hp)
      exact hdead p (List.mem_cons_of_mem _ hp) o ho ((unspent_updateCoins htx h).2.2 (ho ▸ hne) hunspent)
    exact (passes_updateCoins htx (hdead _ List.mem_cons_self) h).append
      (ih (fun p hp => hplain p (List.mem_cons_of_mem _ hp)) hdead' hnodup.2)

/-- What is promised of a block file: it is not one of two blocks of another chain, and when it is the genesis block, it
holds coinbases only. -/
structure CBlock.OfThisChain (cfg : Settings) (cr : Crypto) (block : CBlock) : Prop where
  exceptions : block.getHash cr ∉ bip30Exceptions
  genesis : block.getHash cr = cfg.hashGenesisBlock → ∀ tx ∈ block.vtx, tx.isCoinBase = true

/-- **A block that is connected spends what its transactions need, and adds what they give.** -/
theorem connectBlock_passes {c : ConnectContext} {block : CBlock} {nAdjustedTime : Int} {r : Connected}
    (hblock : block.OfThisChain c.cfg c.cr) (hindex : c.pindex.phashBlock = block.getHash c.cr)
    (h : c.connectBlock block view false nAdjustedTime = .ok r) : Passes c.cr view block.vtx r.view := by
  by_cases hg : block.getHash c.cr = c.cfg.hashGenesisBlock
  · unfold ConnectContext.connectBlock ConnectContext.connectChecked at h
    simp only [bind_eq_ok, if_pos hg] at h
    obtain ⟨_, -, _, -, h⟩ := h
    cases h
    refine ⟨fun o ho => .inl ho, fun before tx after heq hbase => ?_⟩
    rw [hblock.genesis hg tx (heq ▸ List.mem_append_right _ List.mem_cons_self)] at hbase
    cases hbase
  · have hforced : c.fEnforceBIP30 = true := fEnforceBIP30_of_not_mem (hindex ▸ hblock.exceptions)
    obtain ⟨s, txs, -, rfl, -, hspent⟩ := connectBlock_blockSpent hg hforced h
    have hpasses := hspent.spent.passes hspent.plain (fun p hp o ho hunspent => by
      obtain ⟨coins, hcoins, -⟩ := unspent_live.mpr hunspent
      rw [ho, hspent.dead p hp] at hcoins
      cases hcoins) hspent.nodup
    rw [hspent.vtx] at hpasses
    exact ⟨hpasses.old, hpasses.new⟩

/-! ## Disconnecting -/

theorem unspent_restoreInput {s : DisconnectState} {txin : CTxIn} {undo : CTxInUndo}
    (h : (s.restoreInput txin undo).fClean = true) :
    s.fClean = true ∧ (s.view.Unspent o → (s.restoreInput txin undo).view.Unspent o) := by
  unfold DisconnectState.restoreInput at h ⊢
  simp only [Bool.and_eq_true] at h
  obtain ⟨⟨hclean, hlast⟩, hunavailable⟩ := h
  refine ⟨hclean, fun ho => ?_⟩
  rw [unspent_setCoins]
  by_cases hh : o.hash = txin.prevout.hash
  · rw [if_pos hh]
    obtain ⟨coins, hcoins, hav⟩ := unspent_iff.mp ho
    rw [hh] at hcoins
    obtain ⟨txout, hout⟩ := isAvailable_iff.mp hav
    have hnot := output?_not_isPruned hout
    rw [hcoins, Option.getD_some] at hlast hunavailable ⊢
    by_cases hheight : undo.nHeight ≠ 0
    · rw [if_pos hheight, hnot] at hlast
      cases hlast
    · rw [if_neg hheight] at hunavailable ⊢
      have hn : o.n ≠ txin.prevout.n := by
        intro heq
        rw [← heq, hav] at hunavailable
        cases hunavailable
      refine isAvailable_iff.mpr ⟨txout, ?_⟩
      obtain ⟨hget, hnull⟩ := Option.filter_eq_some_iff.mp hout
      refine Option.filter_eq_some_iff.mpr ⟨?_, hnull⟩
      rw [List.getElem?_set_ne (Ne.symm hn), List.getElem?_append_left (List.getElem?_eq_some_iff.mp hget).1, hget]
  · rw [if_neg hh]
    exact ho

theorem unspent_removeOutputs {s : DisconnectState} (h : (s.removeOutputs cr nHeight tx).fClean = true) :
    s.fClean = true ∧
      (s.view.Unspent o → (s.removeOutputs cr nHeight tx).view.Unspent o ∨ o ∈ tx.gives cr) := by
  unfold DisconnectState.removeOutputs at h ⊢
  simp only [Bool.and_eq_true, decide_eq_true_eq] at h
  obtain ⟨⟨hclean, hsome⟩, houts⟩ := h
  refine ⟨hclean, fun ho => ?_⟩
  by_cases hh : o.hash = tx.getHash cr
  · obtain ⟨coins, hcoins, hav⟩ := unspent_iff.mp ho
    rw [hh] at hcoins
    rw [hcoins, Option.getD_some] at houts
    -- the coins that are found are those of the transaction
    have hvout : coins.vout = tx.vout := by
      have := congrArg CCoins.vout houts
      split at this <;> exact this
    obtain ⟨txout, hout⟩ := isAvailable_iff.mp hav
    obtain ⟨hlt, -⟩ := List.getElem?_eq_some_iff.mp (Option.filter_eq_some_iff.mp hout).1
    exact .inr ⟨hh, hvout ▸ hlt⟩
  · exact .inl (by rw [unspent_setCoins, if_neg hh]; exact ho)

/-- Undoing a transaction takes its own outputs only. -/
theorem unspent_undoTx {s s' : DisconnectState} {txundo : List CTxInUndo}
    (h : s.undoTx cr nHeight (tx, txundo) = .ok s') (hclean : s'.fClean = true) :
    s.fClean = true ∧ (s.view.Unspent o → s'.view.Unspent o ∨ o ∈ tx.gives cr) := by
  have hloop : ∀ {l : List (CTxIn × CTxInUndo)} {s : DisconnectState},
      (l.foldl (fun s i => s.restoreInput i.1 i.2) s).fClean = true →
        s.fClean = true ∧ (s.view.Unspent o → (l.foldl (fun s i => s.restoreInput i.1 i.2) s).view.Unspent o) := by
    intro l
    induction l with
    | nil => exact fun h => ⟨h, id⟩
    | cons i l ih =>
      intro s h
      obtain ⟨hclean, hkeep⟩ := ih h
      obtain ⟨hclean', hkeep'⟩ := unspent_restoreInput (o := o) hclean
      exact ⟨hclean', fun ho => hkeep (hkeep' ho)⟩
  unfold DisconnectState.undoTx at h
  split at h
  · cases h
    exact unspent_removeOutputs hclean
  · split at h
    · cases h
    · cases h
      obtain ⟨hclean', hkeep⟩ := hloop hclean
      obtain ⟨hclean'', hremove⟩ := unspent_removeOutputs (o := o) hclean'
      exact ⟨hclean'', fun ho => (hremove ho).imp_left hkeep⟩

/-- The loop over the transactions of a block, the last one first. -/
theorem unspent_undoTxs : ∀ {l : List (CTransaction × List CTxInUndo)} {s s' : DisconnectState},
    l.foldlM (fun s tx => s.undoTx cr nHeight tx) s = .ok s' → s'.fClean = true →
      s.fClean = true ∧ (s.view.Unspent o → s'.view.Unspent o ∨ ∃ p ∈ l, o ∈ p.1.gives cr)
  | [], s, s', h, hclean => by
    rw [List.foldlM_nil] at h
    cases h
    exact ⟨hclean, .inl⟩
  | p :: l, s, s', h, hclean => by
    obtain ⟨s₁, h₁, h₂⟩ := foldlM_cons_ok.mp h
    obtain ⟨hclean₁, hkeep⟩ := unspent_undoTxs h₂ hclean
    obtain ⟨hclean₂, htx⟩ := unspent_undoTx (o := o) h₁ hclean₁
    refine ⟨hclean₂, fun ho => ?_⟩
    rcases htx ho with ho | ho
    · exact (hkeep ho).imp_right fun ⟨q, hq, hgives⟩ => ⟨q, List.mem_cons_of_mem _ hq, hgives⟩
    · exact .inr ⟨p, List.mem_cons_self, ho⟩

/-- **A block that is disconnected cleanly takes its own outputs only.** -/
theorem disconnectBlock_keeps {block : CBlock} {pindex : CBlockIndex} {blockUndo : Option (List (List CTxInUndo))}
    (h : block.disconnectBlock cr pindex blockUndo view = .ok view') (ho : view.Unspent o) :
    view'.Unspent o ∨ ∃ tx ∈ block.vtx, o ∈ tx.gives cr := by
  unfold CBlock.disconnectBlock at h
  obtain ⟨_, -, h⟩ := bind_eq_ok.mp h
  cases blockUndo with
  | none => cases h
  | some vtxundo =>
    obtain ⟨_, -, h⟩ := bind_eq_ok.mp h
    obtain ⟨s, hloop, h⟩ := bind_eq_ok.mp h
    obtain ⟨_, hclean, h⟩ := bind_eq_ok.mp h
    cases h
    replace hclean := rejectIf_eq_ok.mp hclean
    rw [Bool.not_eq_true', Bool.not_eq_false] at hclean
    show CCoinsView.Unspent (DisconnectState.view _) o ∨ _
    cases hhead : block.vtx.head? with
    | none =>
      rw [hhead] at hclean
      refine ((unspent_undoTxs hloop hclean).2 ho).imp_right fun ⟨p, hp, hgives⟩ => ⟨p.1, ?_, hgives⟩
      exact List.mem_of_mem_drop (List.of_mem_zip (List.mem_reverse.mp hp)).1
    | some tx =>
      rw [hhead] at hclean
      obtain ⟨hclean', hkeep⟩ := unspent_removeOutputs (o := o) hclean
      rcases (unspent_undoTxs hloop hclean').2 ho with ho | ⟨p, hp, hgives⟩
      · exact (hkeep ho).imp_right fun hgives => ⟨tx, List.mem_of_mem_head? hhead, hgives⟩
      · exact .inr ⟨p.1, List.mem_of_mem_drop (List.of_mem_zip (List.mem_reverse.mp hp)).1, hgives⟩

end Views

end Morcochain
