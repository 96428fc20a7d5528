import Morcochain.BestChain

/-!
# Disconnecting a block

`DisconnectBlock` takes back what `ConnectBlock` did to a view. Coins that are spent completely may stay in a view or be
left out, so views are compared by their `live` coins.

* `CCoins.Canonical` : what holds of the coins in every view that blocks are connected to.
* `restoreInput_spend` : **restoring an input takes back that it was spent**.
* `undoTxs_spent` : the same for the transactions of a block, the last one first.
* `disconnectBlock_connectBlock` : **a connected block is disconnected cleanly, and the view is what it was**.
-/

set_option autoImplicit false

namespace Morcochain

open Guard

/-! ## Coins in a view -/

/-- What holds of coins: spent outputs are null, none of them is the last, and the height is that of a block above the
genesis block. -/
structure CCoins.Canonical (coins : CCoins) : Prop where
  null_eq : ∀ txout ∈ coins.vout, txout.isNull = true → txout = CTxOut.null
  trimmed : ∀ txout, coins.vout.getLast? = some txout → txout.isNull = false
  height : coins.vout ≠ [] → coins.nHeight ≠ 0

/-- The coins that are not spent completely. -/
def CCoinsView.live (view : CCoinsView) (h : Uint256) : Option CCoins := (view.getCoins h).filter (! ·.isPruned)

/-- The coins of the view are canonical. -/
def CCoinsView.Canonical (view : CCoinsView) : Prop := ∀ h coins, view.live h = some coins → coins.Canonical

/-- Two views have the same coins, but for those that are spent completely. -/
def SameCoins (view view' : CCoinsView) : Prop := ∀ h, view.live h = view'.live h

section Live

variable {view view' : CCoinsView} {coins : CCoins}

theorem live_setCoins (view : CCoinsView) (txid h : Uint256) (coins : CCoins) :
    (view.setCoins txid coins).live h = if h = txid then (some coins).filter (! ·.isPruned) else view.live h := by
  unfold CCoinsView.live
  rw [CCoinsView.getCoins_setCoins]
  split <;> rfl

theorem SameCoins.symm (h : SameCoins view view') : SameCoins view' view := fun x => (h x).symm

theorem SameCoins.canonical (h : SameCoins view view') (hv : view'.Canonical) : view.Canonical :=
  fun x coins hx => hv x coins ((h x).symm.trans hx)

theorem SameCoins.trans {view'' : CCoinsView} (h : SameCoins view view') (h' : SameCoins view' view'') :
    SameCoins view view'' := fun x => (h x).trans (h' x)

theorem live_of_not_pruned {h : Uint256} (hc : view.getCoins h = some coins) (hp : coins.isPruned = false) :
    view.live h = some coins := by
  rw [CCoinsView.live, hc, Option.filter_some, hp]
  rfl

theorem getCoins_of_live {h : Uint256} (hc : view.live h = some coins) :
    view.getCoins h = some coins ∧ coins.isPruned = false := by
  obtain ⟨hget, hp⟩ := Option.filter_eq_some_iff.mp hc
  exact ⟨hget, by simpa using hp⟩

/-- The coins that are found in a view without live ones are spent completely. -/
theorem isPruned_getD {h : Uint256} (hc : view.live h = none) : ((view.getCoins h).getD {}).isPruned = true := by
  cases hget : view.getCoins h with
  | none => rfl
  | some coins =>
    rw [CCoinsView.live, hget, Option.filter_some] at hc
    simpa using hc

theorem CCoins.isPruned_of_nil (h : coins.vout = []) : coins.isPruned = true := by
  rw [isPruned, h]
  rfl

theorem CCoins.not_isPruned {txout : CTxOut} (hmem : txout ∈ coins.vout) (hnull : txout.isNull = false) :
    coins.isPruned = false := by
  rw [isPruned, List.all_eq_false]
  exact ⟨txout, hmem, by simp [hnull]⟩

/-- Coins without an output at the end that is null are spent completely only when no output is left. -/
theorem CCoins.Canonical.not_isPruned (hc : coins.Canonical) (h : coins.vout ≠ []) : coins.isPruned = false :=
  CCoins.not_isPruned (List.getLast_mem h) (hc.trimmed _ (List.getLast?_eq_some_getLast h))

theorem output?_not_isPruned {coins : CCoins} {n : Nat} {txout : CTxOut} (h : coins.output? n = some txout) :
    coins.isPruned = false := by
  obtain ⟨hget, hnull⟩ := Option.filter_eq_some_iff.mp h
  exact CCoins.not_isPruned (List.mem_of_getElem? hget) (by simpa using hnull)

end Live

/-! ## One input -/

section Input

variable {coins left : CCoins} {undo : CTxInUndo} {n : Nat}

/-- Cleaning up takes null outputs from the end, and nothing else. -/
theorem cleanup_append (coins : CCoins) :
    ∃ dropped, coins.vout = coins.cleanup.vout ++ dropped ∧ ∀ txout ∈ dropped, txout.isNull = true := by
  refine ⟨(coins.vout.reverse.takeWhile (·.isNull)).reverse, ?_, fun txout h => ?_⟩
  · rw [CCoins.cleanup, ← List.reverse_append, List.takeWhile_append_dropWhile, List.reverse_reverse]
  · exact List.mem_takeWhile_imp (List.mem_reverse.mp h)

theorem cleanup_trimmed (coins : CCoins) {txout : CTxOut} (h : coins.cleanup.vout.getLast? = some txout) :
    txout.isNull = false := by
  rw [CCoins.cleanup, List.getLast?_reverse] at h
  have hhead := List.head?_dropWhile_not (fun txout : CTxOut => txout.isNull) coins.vout.reverse
  rw [h] at hhead
  simpa using hhead

/-- What is left of canonical coins is canonical. -/
theorem CCoins.Canonical.spent (hc : coins.Canonical) (n : Nat) : (coins.spent n).Canonical := by
  obtain ⟨dropped, happ, -⟩ := cleanup_append { coins with vout := coins.vout.set n CTxOut.null }
  have hsub : ∀ txout ∈ (coins.spent n).vout, txout ∈ coins.vout.set n CTxOut.null := fun txout h => by
    rw [show coins.vout.set n CTxOut.null = (coins.spent n).vout ++ dropped from happ]
    exact List.mem_append_left _ h
  refine ⟨fun txout h hnull => ?_, fun txout h => cleanup_trimmed _ h, fun h => ?_⟩
  · rcases List.mem_or_eq_of_mem_set (hsub txout h) with hmem | rfl
    · exact hc.null_eq txout hmem hnull
    · rfl
  · refine hc.height fun hnil => h ?_
    rw [CCoins.spent, hnil]
    rfl

/-- **What is left, filled up with null outputs, and the output spent are the coins again.** -/
theorem vout_restored (hc : coins.Canonical) {txout : CTxOut} (hout : coins.output? n = some txout) :
    ((coins.spent n).vout ++ List.replicate (n + 1 - (coins.spent n).vout.length) CTxOut.null).set n txout =
      coins.vout := by
  obtain ⟨dropped, happ, hnull⟩ := cleanup_append { coins with vout := coins.vout.set n CTxOut.null }
  replace happ : coins.vout.set n CTxOut.null = (coins.spent n).vout ++ dropped := happ
  obtain ⟨hget, -⟩ := Option.filter_eq_some_iff.mp hout
  obtain ⟨hlt, hget⟩ := List.getElem?_eq_some_iff.mp hget
  have hlen := congrArg List.length happ
  rw [List.length_set, List.length_append] at hlen
  have hdropped : dropped = List.replicate dropped.length CTxOut.null := by
    refine List.eq_replicate_iff.mpr ⟨rfl, fun o ho => ?_⟩
    have hmem : o ∈ coins.vout.set n CTxOut.null := happ ▸ List.mem_append_right _ ho
    rcases List.mem_or_eq_of_mem_set hmem with hmem | rfl
    · exact hc.null_eq o hmem (hnull o ho)
    · rfl
  -- the outputs that are dropped reach down to the position that is spent, or there are none
  have hcount : dropped.length = n + 1 - (coins.spent n).vout.length := by
    by_cases hlast : n + 1 = coins.vout.length
    · omega
    · have hnone : dropped = [] := by
        by_contra hne
        have hlast' : (coins.vout.set n CTxOut.null).getLast? = coins.vout.getLast? := by
          rw [List.getLast?_eq_getElem?, List.getLast?_eq_getElem?, List.length_set, List.getElem?_set_ne]
          omega
        rw [happ, List.getLast?_append_of_ne_nil _ hne] at hlast'
        have hmem := hnull _ (List.getLast_mem hne)
        rw [hc.trimmed _ (hlast' ▸ List.getLast?_eq_some_getLast hne)] at hmem
        cases hmem
      rw [hnone] at hlen ⊢
      simp only [List.length_nil] at hlen ⊢
      omega
  rw [← hcount, ← hdropped, ← happ, List.set_set, ← hget]
  exact List.set_getElem_self hlt

/-- **Restoring an input takes back that it was spent.** -/
theorem restoreInput_spend {s : DisconnectState} {w w' : CCoinsView} {txin : CTxIn} (hw : w.Canonical)
    (hcoins : w.getCoins txin.prevout.hash = some coins) (hspend : coins.spend txin.prevout.n = some (left, undo))
    (hw' : w' = w.setCoins txin.prevout.hash left) (hsame : SameCoins s.view w') (hclean : s.fClean = true) :
    SameCoins (s.restoreInput txin undo).view w ∧ (s.restoreInput txin undo).fClean = true := by
  obtain ⟨txout, hout, heq⟩ := Option.map_eq_some_iff.mp hspend
  have hcoinsLive : w.live txin.prevout.hash = some coins := live_of_not_pruned hcoins (output?_not_isPruned hout)
  have hc := hw _ _ hcoinsLive
  have hleft : left = coins.spent txin.prevout.n := (Prod.mk.inj heq).1.symm
  have hundo := (Prod.mk.inj heq).2
  have hlive : s.view.live txin.prevout.hash = (some left).filter (! ·.isPruned) := by
    rw [hsame, hw', live_setCoins, if_pos rfl]
  have hvout := vout_restored hc hout
  -- it is enough that the coins of the input are the old ones
  have hview : ∀ restored : CCoins, restored = coins →
      SameCoins (s.view.setCoins txin.prevout.hash restored) w := by
    rintro restored rfl h
    rw [live_setCoins]
    split
    · rename_i hh
      rw [hh, hcoinsLive, Option.filter_some, (getCoins_of_live hcoinsLive).2]
      rfl
    · rename_i hh
      rw [hsame, hw', live_setCoins, if_neg hh]
  by_cases hnil : left.vout = []
  · have hne : coins.vout ≠ [] := by
      rintro hempty
      rw [CCoins.output?, hempty] at hout
      cases hout
    have hheight := hc.height hne
    rw [show (coins.spent txin.prevout.n).vout = [] from hleft ▸ hnil] at hundo hvout
    rw [if_pos rfl] at hundo
    have hpruned : ((s.view.getCoins txin.prevout.hash).getD {}).isPruned = true := by
      refine isPruned_getD (hlive.trans ?_)
      rw [Option.filter_some, CCoins.isPruned_of_nil hnil]
      rfl
    subst hundo
    unfold DisconnectState.restoreInput
    simp only [ne_eq, hheight, not_false_eq_true, if_true, hpruned, hclean, Bool.true_and]
    refine ⟨hview _ ?_, ?_⟩
    · simp only [List.length_nil] at hvout ⊢
      rw [hvout]
    · rfl
  · have hfound : s.view.getCoins txin.prevout.hash = some left := by
      rw [Option.filter_some, (hleft ▸ hc.spent _ : left.Canonical).not_isPruned hnil] at hlive
      exact (getCoins_of_live hlive).1
    rw [if_neg (hleft ▸ hnil)] at hundo
    subst hundo
    have hpruned := (hleft ▸ hc.spent _ : left.Canonical).not_isPruned hnil
    have hunavailable : left.isAvailable txin.prevout.n = false := by
      rw [CCoins.isAvailable, Option.isSome_eq_false_iff, CCoins.output?, Option.isNone_iff_eq_none,
        Option.filter_eq_none_iff]
      intro o ho hnull
      obtain ⟨dropped, happ, -⟩ := cleanup_append { coins with vout := coins.vout.set txin.prevout.n CTxOut.null }
      replace happ : coins.vout.set txin.prevout.n CTxOut.null = left.vout ++ dropped := hleft ▸ happ
      have hget : (coins.vout.set txin.prevout.n CTxOut.null)[txin.prevout.n]? = some o := by
        rw [happ, List.getElem?_append_left (List.getElem?_eq_some_iff.mp ho).1, ho]
      rw [List.getElem?_set_self'] at hget
      obtain ⟨_, -, rfl⟩ := Option.map_eq_some_iff.mp hget
      exact absurd (show (!CTxOut.null.isNull) = true from hnull) (by decide)
    unfold DisconnectState.restoreInput
    simp only [ne_eq, not_true_eq_false, if_false, hfound, Option.getD_some, hpruned, hclean, hunavailable]
    refine ⟨hview _ ?_, rfl⟩
    rw [hleft, hvout]
    rfl

end Input

/-! ## One transaction -/

/-- A transaction whose outputs are there and can be found again: none of them is null. -/
structure CTransaction.Plain (tx : CTransaction) : Prop where
  vout : tx.vout ≠ []
  value : ∀ txout ∈ tx.vout, 0 ≤ txout.nValue

section Tx

variable {cr : Crypto} {tx : CTransaction} {v w w' : CCoinsView} {nHeight : Int}

theorem CTxOut.not_isNull_of_nonneg {txout : CTxOut} (h : 0 ≤ txout.nValue) : txout.isNull = false := by
  rw [isNull, decide_eq_false_iff_not]
  omega

theorem CTransaction.Plain.not_isPruned (h : tx.Plain) : (CCoins.ofTx tx nHeight).isPruned = false := by
  obtain ⟨txout, hmem⟩ := List.exists_mem_of_ne_nil _ h.vout
  exact CCoins.not_isPruned (show txout ∈ (CCoins.ofTx tx nHeight).vout from hmem)
    (CTxOut.not_isNull_of_nonneg (h.value _ hmem))

theorem CTransaction.Plain.canonical (h : tx.Plain) (hheight : nHeight ≠ 0) : (CCoins.ofTx tx nHeight).Canonical := by
  refine ⟨fun txout hmem hnull => ?_, fun txout hlast => ?_, fun _ => hheight⟩
  · rw [CTxOut.not_isNull_of_nonneg (h.value _ hmem)] at hnull
    cases hnull
  · exact CTxOut.not_isNull_of_nonneg (h.value _ (List.mem_of_getLast? hlast))

/-- Spending an input: the coins it spends and what is left of them. -/
theorem spendInput_ok {l l' : List CTxInUndo} {txin : CTxIn} (h : CTransaction.spendInput (w, l) txin = .ok (w', l')) :
    ∃ coins left undo, w.getCoins txin.prevout.hash = some coins ∧ coins.spend txin.prevout.n = some (left, undo) ∧
      w' = w.setCoins txin.prevout.hash left ∧ l' = l ++ [undo] := by
  unfold CTransaction.spendInput at h
  split at h
  · cases h
  · rename_i left undo hspend
    cases h
    obtain ⟨coins, hcoins, hspend⟩ := Option.bind_eq_some_iff.mp hspend
    exact ⟨coins, left, undo, hcoins, hspend, rfl, rfl⟩

theorem spend_left {coins left : CCoins} {undo : CTxInUndo} {n : Nat} (h : coins.spend n = some (left, undo)) :
    left = coins.spent n ∧ ∃ txout, coins.output? n = some txout := by
  obtain ⟨txout, hout, heq⟩ := Option.map_eq_some_iff.mp h
  exact ⟨(Prod.mk.inj heq).1.symm, txout, hout⟩

/-- What a view keeps while inputs are spent. -/
theorem spendInput_keeps {l l' : List CTxInUndo} {txin : CTxIn}
    (h : CTransaction.spendInput (w, l) txin = .ok (w', l')) :
    (w.Canonical → w'.Canonical) ∧ ∀ x, w.live x = none → w'.live x = none := by
  obtain ⟨coins, left, undo, hcoins, hspend, rfl, -⟩ := spendInput_ok h
  obtain ⟨rfl, txout, hout⟩ := spend_left hspend
  have hlive := live_of_not_pruned hcoins (output?_not_isPruned hout)
  refine ⟨fun hw x coins' hx => ?_, fun x hx => ?_⟩
  · rw [live_setCoins] at hx
    split at hx
    · obtain ⟨heq, -⟩ := Option.filter_eq_some_iff.mp hx
      cases heq
      exact (hw _ _ hlive).spent _
    · exact hw x coins' hx
  · rw [live_setCoins, if_neg]
    · exact hx
    · rintro rfl
      rw [hlive] at hx
      cases hx

/-- Restoring the inputs of a transaction, the last one first, takes back that they were spent. -/
theorem restoreInputs_spend : ∀ {vin : List CTxIn} {w w' : CCoinsView} {l l' : List CTxInUndo}, w.Canonical →
    vin.foldlM CTransaction.spendInput (w, l) = .ok (w', l') →
      ∃ txundo, l' = l ++ txundo ∧ txundo.length = vin.length ∧ w'.Canonical ∧
        (∀ x, w.live x = none → w'.live x = none) ∧
        ∀ s : DisconnectState, SameCoins s.view w' → s.fClean = true →
          SameCoins ((vin.zip txundo).reverse.foldl (fun s i => s.restoreInput i.1 i.2) s).view w ∧
            ((vin.zip txundo).reverse.foldl (fun s i => s.restoreInput i.1 i.2) s).fClean = true
  | [], w, w', l, l', hw, h => by
    rw [List.foldlM_nil] at h
    cases h
    exact ⟨[], (List.append_nil l).symm, rfl, hw, fun _ hx => hx, fun s hs hclean => ⟨hs, hclean⟩⟩
  | txin :: vin, w, w', l, l', hw, h => by
    obtain ⟨⟨w₁, l₁⟩, h₁, h₂⟩ := foldlM_cons_ok.mp h
    obtain ⟨hcanonical, hdead⟩ := spendInput_keeps h₁
    obtain ⟨coins, left, undo, hcoins, hspend, hw₁, rfl⟩ := spendInput_ok h₁
    obtain ⟨txundo, rfl, hlen, hw', hdead', hrestore⟩ := restoreInputs_spend (hcanonical hw) h₂
    refine ⟨undo :: txundo, by simp, by simp [hlen], hw', fun x hx => hdead' x (hdead x hx), fun s hs hclean => ?_⟩
    obtain ⟨hs', hclean'⟩ := hrestore s hs hclean
    rw [List.zip_cons_cons, List.reverse_cons, List.foldl_append]
    exact restoreInput_spend hw hcoins hspend hw₁ hs' hclean'

/-- Taking the outputs of a transaction away leaves the view before they were added. -/
theorem removeOutputs_setCoins (htx : tx.Plain) {s : DisconnectState} (hdead : w.live (tx.getHash cr) = none)
    (hs : SameCoins s.view (w.setCoins (tx.getHash cr) (CCoins.ofTx tx nHeight))) (hclean : s.fClean = true) :
    SameCoins (s.removeOutputs cr nHeight tx).view w ∧ (s.removeOutputs cr nHeight tx).fClean = true := by
  have hget : s.view.getCoins (tx.getHash cr) = some (CCoins.ofTx tx nHeight) := by
    have hlive := hs (tx.getHash cr)
    rw [live_setCoins, if_pos rfl, Option.filter_some, htx.not_isPruned] at hlive
    exact (getCoins_of_live hlive).1
  have hversion : (if (CCoins.ofTx tx nHeight).nVersion < 0 then
      { CCoins.ofTx tx nHeight with nVersion := (CCoins.ofTx tx nHeight).nVersion } else CCoins.ofTx tx nHeight) =
        CCoins.ofTx tx nHeight := ite_self _
  unfold DisconnectState.removeOutputs
  simp only [hget, Option.getD_some, hversion, hclean, Option.isSome_some, Bool.and_self, decide_true,
    and_true]
  intro x
  rw [live_setCoins]
  split
  · rename_i hx
    rw [hx, hdead]
    rfl
  · rename_i hx
    rw [hs, live_setCoins, if_neg hx]

/-- What connecting a transaction does to the view. -/
theorem updateCoins_ok {txhash : Uint256} {txundo : List CTxInUndo}
    (h : tx.updateCoins v nHeight txhash = .ok (w, txundo)) :
    ∃ v₁, tx.spendInputs v = .ok (v₁, txundo) ∧ w = v₁.setCoins txhash (CCoins.ofTx tx nHeight) := by
  unfold CTransaction.updateCoins at h
  obtain ⟨⟨v₁, txundo'⟩, hspend, h⟩ := bind_eq_ok.mp h
  cases h
  exact ⟨v₁, hspend, rfl⟩

/-- What a view keeps while a transaction is connected. -/
theorem updateCoins_keeps (htx : tx.Plain) (hheight : nHeight ≠ 0) {txundo : List CTxInUndo}
    (h : tx.updateCoins v nHeight (tx.getHash cr) = .ok (w, txundo)) (hv : v.Canonical) :
    w.Canonical ∧ ∀ x, x ≠ tx.getHash cr → v.live x = none → w.live x = none := by
  obtain ⟨v₁, hspend, rfl⟩ := updateCoins_ok h
  obtain ⟨hv₁, hdead⟩ : v₁.Canonical ∧ ∀ x, v.live x = none → v₁.live x = none := by
    unfold CTransaction.spendInputs at hspend
    split at hspend
    · cases hspend
      exact ⟨hv, fun _ hx => hx⟩
    · obtain ⟨_, -, -, hv₁, hdead, -⟩ := restoreInputs_spend hv hspend
      exact ⟨hv₁, hdead⟩
  refine ⟨fun x coins hx => ?_, fun x hne hx => ?_⟩
  · rw [live_setCoins] at hx
    split at hx
    · obtain ⟨heq, -⟩ := Option.filter_eq_some_iff.mp hx
      cases heq
      exact htx.canonical hheight
    · exact hv₁ x coins hx
  · rw [live_setCoins, if_neg hne]
    exact hdead x hx

/-- **Undoing a transaction takes back that it was connected.** -/
theorem undoTx_updateCoins (htx : tx.Plain) (hbase : tx.isCoinBase = false) (hv : v.Canonical)
    (hdead : v.live (tx.getHash cr) = none) {txundo : List CTxInUndo}
    (h : tx.updateCoins v nHeight (tx.getHash cr) = .ok (w, txundo)) {s : DisconnectState} (hs : SameCoins s.view w)
    (hclean : s.fClean = true) :
    ∃ s', s.undoTx cr nHeight (tx, txundo) = .ok s' ∧ SameCoins s'.view v ∧ s'.fClean = true := by
  obtain ⟨v₁, hspend, rfl⟩ := updateCoins_ok h
  unfold CTransaction.spendInputs at hspend
  unfold DisconnectState.undoTx
  by_cases hgrant : tx.isCustodianGrant = true
  · rw [if_pos (by simp [CTransaction.hasNoInputs, hgrant])] at hspend
    cases hspend
    exact ⟨_, if_pos hgrant, removeOutputs_setCoins htx hdead hs hclean⟩
  · rw [if_neg (by simp [CTransaction.hasNoInputs, hgrant, hbase])] at hspend
    obtain ⟨txundo', rfl, hlen, -, hdead', hrestore⟩ := restoreInputs_spend hv hspend
    obtain ⟨hs', hclean'⟩ := removeOutputs_setCoins htx (hdead' _ hdead) hs hclean
    obtain ⟨hs'', hclean''⟩ := hrestore _ hs' hclean'
    refine ⟨_, ?_, hs'', hclean''⟩
    simp only at hlen ⊢
    rw [if_neg hgrant, if_neg (by simp [hlen])]

end Tx

/-! ## The transactions of a block -/

/-- Transactions connected one after the other, each with its undo information. -/
inductive Spent (cr : Crypto) (nHeight : Int) : CCoinsView → List (CTransaction × List CTxInUndo) → CCoinsView → Prop
  | nil (v : CCoinsView) : Spent cr nHeight v [] v
  | cons {v v' w : CCoinsView} {tx : CTransaction} {txundo : List CTxInUndo}
      {rest : List (CTransaction × List CTxInUndo)} (h : tx.updateCoins v nHeight (tx.getHash cr) = .ok (v', txundo))
      (hrest : Spent cr nHeight v' rest w) : Spent cr nHeight v ((tx, txundo) :: rest) w

/-- The transactions of a block, connected to a view, with their undo information: they are plain, only the first one is
a coinbase, and none of them is in the view before. -/
structure BlockSpent (cr : Crypto) (nHeight : Int) (block : CBlock) (v : CCoinsView)
    (txs : List (CTransaction × List CTxInUndo)) (w : CCoinsView) : Prop where
  vtx : txs.map (·.1) = block.vtx
  spent : Spent cr nHeight v txs w
  plain : ∀ p ∈ txs, p.1.Plain
  coinbase : ∃ p, txs.head? = some p ∧ p.1.isCoinBase = true
  rest : ∀ p ∈ txs.drop 1, p.1.isCoinBase = false
  dead : ∀ p ∈ txs, v.live (p.1.getHash cr) = none
  nodup : (txs.map (·.1.getHash cr)).Nodup

section Block

variable {cr : Crypto} {v w : CCoinsView} {nHeight : Int} {txs : List (CTransaction × List CTxInUndo)}

/-- What a view keeps while transactions are connected. -/
theorem Spent.keeps (hheight : nHeight ≠ 0) (h : Spent cr nHeight v txs w) (hplain : ∀ p ∈ txs, p.1.Plain)
    (hv : v.Canonical) : w.Canonical ∧ ∀ x, x ∉ txs.map (·.1.getHash cr) → v.live x = none → w.live x = none := by
  induction h with
  | nil v => exact ⟨hv, fun _ _ hx => hx⟩
  | cons h hrest ih =>
    obtain ⟨hv', hdead⟩ := updateCoins_keeps (hplain _ List.mem_cons_self) hheight h hv
    obtain ⟨hw, hdead'⟩ := ih (fun p hp => hplain p (List.mem_cons_of_mem _ hp)) hv'
    refine ⟨hw, fun x hx hlive => ?_⟩
    rw [List.map_cons, List.mem_cons, not_or] at hx
    exact hdead' x hx.2 (hdead x hx.1 hlive)

/-- **Undoing transactions, the last one first, takes back that they were connected.** -/
theorem undoTxs_spent (hheight : nHeight ≠ 0) (h : Spent cr nHeight v txs w)
    (hplain : ∀ p ∈ txs, p.1.Plain ∧ p.1.isCoinBase = false) (hv : v.Canonical)
    (hdead : ∀ p ∈ txs, v.live (p.1.getHash cr) = none) (hnodup : (txs.map (·.1.getHash cr)).Nodup)
    {s : DisconnectState} (hs : SameCoins s.view w) (hclean : s.fClean = true) :
    ∃ s', txs.reverse.foldlM (fun s tx => s.undoTx cr nHeight tx) s = .ok s' ∧ SameCoins s'.view v ∧
      s'.fClean = true := by
  induction h with
  | nil v => exact ⟨s, rfl, hs, hclean⟩
  | @cons v v' w tx txundo rest h hrest ih =>
    obtain ⟨htx, hbase⟩ := hplain _ List.mem_cons_self
    obtain ⟨hv', hkeep⟩ := updateCoins_keeps htx hheight h hv
    rw [List.map_cons, List.nodup_cons] at hnodup
    have hdead' : ∀ p ∈ rest, v'.live (p.1.getHash cr) = none := fun p hp =>
      hkeep _ (fun heq => hnodup.1 (heq ▸ List.mem_map_of_mem hp)) (hdead p (List.mem_cons_of_mem _ hp))
    obtain ⟨s', hs', hsame, hclean'⟩ := ih (fun p hp => hplain p (List.mem_cons_of_mem _ hp)) hv' hdead' hnodup.2 hs
    obtain ⟨s'', hs'', hsame', hclean''⟩ := undoTx_updateCoins htx hbase hv (hdead _ List.mem_cons_self) h hsame hclean'
    refine ⟨s'', ?_, hsame', hclean''⟩
    rw [List.reverse_cons, foldlM_append_ok]
    exact ⟨s', hs', foldlM_cons_ok.mpr ⟨s'', hs'', rfl⟩⟩

/-- The loop over the transactions of a block: the view and the undo information that it leaves. -/
theorem connectTxs_spent {c : ConnectContext} : ∀ {vtx : List CTransaction} {s s' : ConnectState},
    vtx.foldlM c.connectTx s = .ok s' →
      ∃ txs, txs.map (·.1) = vtx ∧ Spent c.cr c.pindex.nHeight s.view txs s'.view ∧
        s'.vtxundo = s.vtxundo ++ (txs.filter (! ·.1.isCoinBase)).map (·.2)
  | [], s, s', h => by
    rw [List.foldlM_nil] at h
    cases h
    exact ⟨[], rfl, .nil _, (List.append_nil _).symm⟩
  | tx :: vtx, s, s', h => by
    obtain ⟨s₁, h₁, h₂⟩ := foldlM_cons_ok.mp h
    unfold ConnectContext.connectTx at h₁
    obtain ⟨s₀, hcheck, h₁⟩ := bind_eq_ok.mp h₁
    obtain ⟨⟨v', txundo⟩, hupdate, h₁⟩ := bind_eq_ok.mp h₁
    cases h₁
    obtain ⟨txs, rfl, hspent, hundo⟩ := connectTxs_spent h₂
    rw [(checkTx_view hcheck).1] at hupdate
    refine ⟨(tx, txundo) :: txs, rfl, .cons hupdate hspent, ?_⟩
    rw [hundo, List.filter_cons]
    simp only [(checkTx_view hcheck).2]
    cases tx.isCoinBase <;> simp

/-- The two blocks that may overwrite transactions. -/
def bip30Exceptions : List Uint256 :=
  [0x00000000000a4d0a398161ffc163c503763b1f4360639393e0e4c8e300e0caec,
   0x00000000000743f190a18c5577a3c2d2a1f610ae9601ac046a38084ccb7cd721]

/-- A block whose transactions can be found again in the view after it. -/
structure Undoable (c : ConnectContext) (block : CBlock) : Prop where
  /-- It is not the genesis block. -/
  notGenesis : block.getHash c.cr ≠ c.cfg.hashGenesisBlock
  height : 1 ≤ c.pindex.nHeight
  /-- The entry is the one of the block. -/
  index : c.pindex.phashBlock = block.getHash c.cr
  /-- It does not have the hash of one of two blocks of another chain. -/
  exceptions : block.getHash c.cr ∉ bip30Exceptions

variable {c : ConnectContext} {block : CBlock} {view : CCoinsView} {nAdjustedTime : Int} {r : Connected}

/-- What is known of the transactions of a connected block that may not overwrite older ones. -/
theorem connectBlock_blockSpent (hg : block.getHash c.cr ≠ c.cfg.hashGenesisBlock) (hforced : c.fEnforceBIP30 = true)
    (h : c.connectBlock block view false nAdjustedTime = .ok r) :
    ∃ s txs, block.vtx.foldlM c.connectTx { view := view } = .ok s ∧ r = c.connected block false s ∧
      s.vtxundo = (txs.drop 1).map (·.2) ∧ BlockSpent c.cr c.pindex.nHeight block view txs s.view := by
  obtain ⟨hcheck, -, hover, s, hs, hr⟩ := connectBlock_ok h hg
  have hchecked := CBlock.checkBlock_ok hcheck
  obtain ⟨txs, hvtx, hspent, hundo⟩ := connectTxs_spent hs
  have hmem : ∀ p ∈ txs, p.1 ∈ block.vtx := fun p hp => hvtx ▸ List.mem_map_of_mem hp
  have hrest : ∀ p ∈ txs.drop 1, p.1.isCoinBase = false := fun p hp =>
    hchecked.rest _ (by rw [← hvtx, ← List.map_drop]; exact List.mem_map_of_mem hp)
  obtain ⟨p, rest, rfl⟩ : ∃ p rest, txs = p :: rest := by
    cases txs with
    | nil =>
      have hbase := hchecked.coinbase
      rw [← hvtx] at hbase
      cases hbase
    | cons p rest => exact ⟨p, rest, rfl⟩
  have hbase : p.1.isCoinBase = true := by
    have := hchecked.coinbase
    rw [← hvtx] at this
    simpa using this
  refine ⟨s, p :: rest, hs, hr, ?_, hvtx, hspent, fun q hq => ?_, ⟨p, rfl, hbase⟩, hrest, fun q hq => ?_, ?_⟩
  · rw [hundo, List.filter_cons_of_neg (by simp [hbase]), List.nil_append, List.drop_one, List.tail_cons,
      List.filter_eq_self.mpr fun q hq => by simp [hrest q hq]]
  · obtain ⟨hvout, hvalue⟩ := CTransaction.checkTransaction_vout (hchecked.txs _ (hmem q hq)).1
    exact ⟨hvout, hvalue⟩
  · have hno := rejectIf_eq_ok.mp hover
    rw [CCoinsView.live, Option.filter_eq_none_iff]
    intro coins hcoins hlive
    exact hno ⟨hforced, q.1, hmem q hq, by rw [hcoins]; exact hlive⟩
  · have hnodup := hchecked.nodup
    rw [← hvtx, List.map_map] at hnodup
    exact hnodup

/-- Blocks other than two must not overwrite older transactions. -/
theorem fEnforceBIP30_of_not_mem (h : c.pindex.phashBlock ∉ bip30Exceptions) : c.fEnforceBIP30 = true := by
  rw [bip30Exceptions, List.mem_cons, List.mem_singleton, not_or] at h
  simp [ConnectContext.fEnforceBIP30, h.1, h.2]

/-- What is known of the transactions of a connected block. -/
theorem connectBlock_txs (hu : Undoable c block) (h : c.connectBlock block view false nAdjustedTime = .ok r) :
    ∃ s txs, block.vtx.foldlM c.connectTx { view := view } = .ok s ∧ r = c.connected block false s ∧
      s.vtxundo = (txs.drop 1).map (·.2) ∧ BlockSpent c.cr c.pindex.nHeight block view txs s.view :=
  connectBlock_blockSpent hu.notGenesis (fEnforceBIP30_of_not_mem (hu.index ▸ hu.exceptions)) h

/-- **A block is disconnected cleanly from a view with the coins that it left**, given the undo information of its
transactions. -/
theorem disconnectBlock_spent {txs : List (CTransaction × List CTxInUndo)} {pindex : CBlockIndex}
    (hheight : pindex.nHeight ≠ 0) (hv : v.Canonical) (h : BlockSpent cr pindex.nHeight block v txs w)
    (hbest : view.bestBlock = some pindex.phashBlock) (hview : SameCoins view w) :
    ∃ view', block.disconnectBlock cr pindex (some ((txs.drop 1).map (·.2))) view = .ok view' ∧
      view'.bestBlock = pindex.pprev ∧ SameCoins view' v := by
  obtain ⟨hvtx, hspent, hplain, ⟨⟨tx, txundo⟩, hhead, hbase⟩, hrest, hdead, hnodup⟩ := h
  replace hheight : (pindex.nHeight : Int) ≠ 0 := Int.ofNat_ne_zero.mpr hheight
  obtain ⟨rest, rfl⟩ : ∃ rest, txs = (tx, txundo) :: rest := by
    cases txs with
    | nil => cases hhead
    | cons p rest =>
      cases hhead
      exact ⟨rest, rfl⟩
  obtain _ | ⟨hupdate, hspent⟩ := hspent
  obtain ⟨v₁, hspend, rfl⟩ := updateCoins_ok hupdate
  rw [CTransaction.spendInputs, if_pos (by simp [CTransaction.hasNoInputs, hbase])] at hspend
  cases hspend
  -- the transactions after the coinbase are undone first, then the outputs of the coinbase are taken away
  have hcoinbase := hplain _ List.mem_cons_self
  rw [List.map_cons, List.nodup_cons] at hnodup
  obtain ⟨hcanonical, hkeep⟩ := updateCoins_keeps hcoinbase hheight hupdate hv
  obtain ⟨s', hs', hsame, hclean⟩ := undoTxs_spent (s := { view := view }) hheight hspent
    (fun p hp => ⟨hplain p (List.mem_cons_of_mem _ hp), hrest p hp⟩) hcanonical
    (fun p hp => hkeep _ (fun heq => hnodup.1 (heq ▸ List.mem_map_of_mem hp)) (hdead p (List.mem_cons_of_mem _ hp)))
    hnodup.2 hview rfl
  obtain ⟨hsame', hclean'⟩ := removeOutputs_setCoins hcoinbase (hdead _ List.mem_cons_self) hsame hclean
  refine ⟨(s'.removeOutputs cr pindex.nHeight tx).view.setBestBlock pindex.pprev, ?_, rfl, hsame'⟩
  rw [List.drop_one, List.tail_cons]
  have hlen : (rest.map (·.2)).length + 1 = block.vtx.length := by
    rw [← hvtx]
    simp
  have hzip : (block.vtx.drop 1).zip (rest.map (·.2)) = rest := by
    rw [← hvtx, List.map_cons, List.drop_one, List.tail_cons, ← List.unzip_fst, ← List.unzip_snd, List.zip_unzip]
  have hhead' : block.vtx.head? = some tx := by rw [← hvtx]; rfl
  unfold CBlock.disconnectBlock
  refine bind_eq_ok.mpr ⟨(), rejectIf_neg fun hne => hne hbest.symm, ?_⟩
  refine bind_eq_ok.mpr ⟨(), rejectIf_neg fun hne => hne hlen, ?_⟩
  refine bind_eq_ok.mpr ⟨s', ?_, ?_⟩
  · exact (congrArg (fun l => List.foldlM _ _ l.reverse) hzip).trans hs'
  · rw [hhead']
    refine bind_eq_ok.mpr ⟨(), rejectIf_neg fun hne => ?_, rfl⟩
    replace hne : (!(s'.removeOutputs cr pindex.nHeight tx).fClean) = true := hne
    rw [hclean'] at hne
    cases hne

/-- **A connected block is disconnected cleanly, and the view is what it was**, whatever its transactions are. -/
theorem disconnectBlock_connectBlock (hview : view.Canonical) (hu : Undoable c block)
    (h : c.connectBlock block view false nAdjustedTime = .ok r) :
    ∃ view', block.disconnectBlock c.cr r.pindex (some r.vtxundo) r.view = .ok view' ∧
      view'.bestBlock = view.bestBlock ∧ SameCoins view' view := by
  obtain ⟨s, txs, hs, rfl, hundo, hspent⟩ := connectBlock_txs hu h
  have hprev := (connectBlock_ok h hu.notGenesis).2.1
  have hat : (s.view.setBestBlock (some c.pindex.phashBlock)).bestBlock = some (c.connectedIndex s).phashBlock := rfl
  have hcoins : SameCoins (s.view.setBestBlock (some c.pindex.phashBlock)) s.view := fun _ => rfl
  obtain ⟨view', hdisconnect, hbest, hsame⟩ := disconnectBlock_spent (Nat.ne_of_gt hu.height) hview hspent hat hcoins
  rw [← hundo] at hdisconnect
  exact ⟨view', hdisconnect, hbest.trans hprev, hsame⟩

/-- A connected block leaves canonical coins. -/
theorem canonical_connectBlock (hview : view.Canonical) (hu : Undoable c block)
    (h : c.connectBlock block view false nAdjustedTime = .ok r) : r.view.Canonical := by
  obtain ⟨s, txs, -, rfl, -, hspent⟩ := connectBlock_txs hu h
  exact (hspent.spent.keeps (Int.ofNat_ne_zero.mpr (Nat.ne_of_gt hu.height)) hspent.plain hview).1

/-- A block that spends shares is taken back. -/
theorem disconnectBlock_connectBlock_sample :
    ∃ r view', unitContext.connectBlock (unitBlock unitShare) sharesView false 1400000000 = .ok r ∧
      (unitBlock unitShare).disconnectBlock Crypto.sample r.pindex (some r.vtxundo) r.view = .ok view' ∧
      view'.bestBlock = some 4 ∧ SameCoins view' sharesView := by
  have hok : (unitContext.connectBlock (unitBlock unitShare) sharesView false 1400000000).isOk = true := by
    decide +kernel
  have hcanonical : sharesView.Canonical := by
    intro h coins hlive
    obtain ⟨hget, -⟩ := getCoins_of_live hlive
    simp only [sharesView] at hget
    split at hget
    · cases hget
      refine ⟨fun txout hmem hnull => ?_, fun txout hlast => ?_, fun _ => by decide⟩
      · rw [List.mem_singleton] at hmem
        subst hmem
        cases hnull
      · cases hlast
        rfl
    · cases hget
  obtain ⟨r, h⟩ := exists_of_isOk hok
  obtain ⟨view', h₁, h₂, h₃⟩ := disconnectBlock_connectBlock hcanonical
    ⟨by decide +kernel, by decide, by decide +kernel, by decide +kernel⟩ h
  exact ⟨r, view', h, h₁, h₂, h₃⟩

end Block

end Morcochain
