import Morcochain.Disconnect
import Morcochain.Lib.FiniteSum

/-!
# The supply of each unit

`ConnectBlock` keeps, in the entry of each block, how much of each unit exists and how much of it is parked, from the
sums of the inputs and outputs of the transactions. Here these figures are compared with the view: the sum over all
outputs of a unit that are not spent.

* `total_updateCoins` : what a transaction does to the sums over the view.
* `connectTxs_totals` : **the sums change as the figures of the loop over the transactions do**.
* `supply_connectBlock` : what a connected block adds to the figures of its predecessor.
-/

set_option autoImplicit false

namespace Morcochain

open Guard

/-! ## Sums over a view -/

/-- The sum over the outputs that are not spent. -/
def CCoins.amount (coins : CCoins) (f : CTxOut → Int) : Int := ((coins.vout.filter (! ·.isNull)).map f).sum

/-- What a view has of a unit under the id of a transaction. -/
def CCoinsView.amountAt (view : CCoinsView) (f : CTxOut → Int) (cUnit : CUnit) (txid : Uint256) : Int :=
  match view.live txid with
  | none => 0
  | some coins => if coins.cUnit = cUnit then coins.amount f else 0

/-- The sum over all outputs of a unit that are not spent. -/
noncomputable def CCoinsView.total (view : CCoinsView) (f : CTxOut → Int) (cUnit : CUnit) : Int :=
  finsum (view.amountAt f cUnit)

/-- The amount of an output, if it is parked. -/
def parkedAmount (txout : CTxOut) : Int := if txout.isPark then txout.nValue else 0

/-- Only finitely many transactions have outputs that are not spent. -/
def CCoinsView.IsFinite (view : CCoinsView) : Prop := {txid | view.live txid ≠ none}.Finite

section Totals

variable {view view' : CCoinsView} {f : CTxOut → Int} {cUnit : CUnit} {coins : CCoins}

theorem total_congr (h : SameCoins view view') : view.total f cUnit = view'.total f cUnit := by
  unfold CCoinsView.total CCoinsView.amountAt
  simp only [h _]

theorem SameCoins.isFinite (h : SameCoins view view') (hv : view'.IsFinite) : view.IsFinite := by
  unfold CCoinsView.IsFinite
  simp only [h _]
  exact hv

theorem support_amountAt (hv : view.IsFinite) : (Function.support (view.amountAt f cUnit)).Finite := by
  refine hv.subset fun txid h hnone => h ?_
  rw [CCoinsView.amountAt, hnone]

/-- Coins that are spent completely amount to nothing. -/
theorem CCoins.amount_of_isPruned (h : coins.isPruned = true) : coins.amount f = 0 := by
  have hnil : coins.vout.filter (! ·.isNull) = [] := by
    rw [List.filter_eq_nil_iff]
    intro txout hmem
    simp [List.all_eq_true.mp h txout hmem]
  rw [amount, hnil]
  rfl

theorem amountAt_setCoins (txid h : Uint256) :
    (view.setCoins txid coins).amountAt f cUnit h =
      if h = txid then (if coins.cUnit = cUnit then coins.amount f else 0) else view.amountAt f cUnit h := by
  unfold CCoinsView.amountAt
  rw [live_setCoins]
  by_cases heq : h = txid
  · rw [if_pos heq, if_pos heq, Option.filter_some]
    cases hp : coins.isPruned with
    | false => rfl
    | true => rw [CCoins.amount_of_isPruned hp, ite_self]; rfl
  · rw [if_neg heq, if_neg heq]

theorem isFinite_setCoins (hv : view.IsFinite) (txid : Uint256) (coins : CCoins) :
    (view.setCoins txid coins).IsFinite := by
  refine (hv.insert txid).subset fun h hlive => ?_
  by_cases heq : h = txid
  · exact .inl heq
  · refine .inr fun hnone => hlive ?_
    rw [live_setCoins, if_neg heq, hnone]

/-- **New coins** change the sum by the difference to the old ones. -/
theorem total_setCoins (hv : view.IsFinite) (txid : Uint256) (coins : CCoins) :
    (view.setCoins txid coins).total f cUnit =
      view.total f cUnit - view.amountAt f cUnit txid + if coins.cUnit = cUnit then coins.amount f else 0 := by
  have hsupport : (Function.support (view.amountAt f cUnit)).Finite := support_amountAt hv
  have h := FiniteSum.finsum_change (g := (view.setCoins txid coins).amountAt f cUnit) (a := txid) hsupport
    fun x hx => by rw [amountAt_setCoins, if_neg hx]
  rw [amountAt_setCoins, if_pos rfl] at h
  exact h

/-- Dropping the outputs at the end that are spent changes nothing. -/
theorem CCoins.amount_cleanup : coins.cleanup.amount f = coins.amount f := by
  obtain ⟨dropped, happ, hnull⟩ := cleanup_append coins
  have hnil : dropped.filter (! ·.isNull) = [] := by
    rw [List.filter_eq_nil_iff]
    intro txout hmem
    simp [hnull txout hmem]
  unfold amount
  rw [happ, List.filter_append, hnil, List.append_nil]

/-- Spending an output takes its amount away. -/
theorem CCoins.amount_spent {n : Nat} {txout : CTxOut} (h : coins.output? n = some txout) :
    (coins.spent n).amount f = coins.amount f - f txout := by
  obtain ⟨hget, hnull⟩ := Option.filter_eq_some_iff.mp h
  rw [CCoins.spent, amount_cleanup]
  exact FiniteSum.sum_filter_set (p := fun txout : CTxOut => !txout.isNull) (b := CTxOut.null) rfl hnull hget

end Totals

/-! ## What a transaction does to the sums -/

/-- What an input takes from a unit. -/
def spentAmount (view : CCoinsView) (f : CTxOut → Int) (cUnit : CUnit) (txin : CTxIn) : Int :=
  match view.prevout txin.prevout with
  | none => 0
  | some (coins, txout) => if coins.cUnit = cUnit then f txout else 0

section Spending

variable {view view' w : CCoinsView} {f : CTxOut → Int} {cUnit : CUnit} {coins : CCoins}

theorem output?_cleanup (coins : CCoins) (n : Nat) : coins.cleanup.output? n = coins.output? n := by
  obtain ⟨dropped, happ, hnull⟩ := cleanup_append coins
  unfold CCoins.output?
  rw [happ]
  by_cases hn : n < coins.cleanup.vout.length
  · rw [List.getElem?_append_left hn]
  · rw [List.getElem?_append_right (Nat.not_lt.mp hn), List.getElem?_eq_none (Nat.not_lt.mp hn)]
    cases hget : dropped[n - coins.cleanup.vout.length]? with
    | none => rfl
    | some txout =>
      rw [Option.filter_some, hnull txout (List.mem_of_getElem? hget)]
      rfl

/-- The other outputs stay when one is spent. -/
theorem output?_spent {n m : Nat} (h : m ≠ n) : (coins.spent n).output? m = coins.output? m := by
  rw [CCoins.spent, output?_cleanup, CCoins.output?, CCoins.output?, List.getElem?_set_ne (Ne.symm h)]

/-- One input: what it takes from the sum, and what it leaves of the other inputs. -/
theorem total_spendInput {l l' : List CTxInUndo} {txin : CTxIn} (hv : view.IsFinite)
    (h : CTransaction.spendInput (view, l) txin = .ok (view', l')) :
    view'.IsFinite ∧ (∀ f cUnit, view'.total f cUnit = view.total f cUnit - spentAmount view f cUnit txin) ∧
      ∀ f cUnit other, other.prevout ≠ txin.prevout →
        spentAmount view' f cUnit other = spentAmount view f cUnit other := by
  obtain ⟨coins, left, undo, hcoins, hspend, rfl, -⟩ := spendInput_ok h
  obtain ⟨rfl, txout, hout⟩ := spend_left hspend
  have hlive := live_of_not_pruned hcoins (output?_not_isPruned hout)
  have hprev : view.prevout txin.prevout = some (coins, txout) := prevout_eq_some.mpr ⟨hcoins, hout⟩
  refine ⟨isFinite_setCoins hv _ _, fun f cUnit => ?_, fun f cUnit other hne => ?_⟩
  · rw [total_setCoins hv, spentAmount, hprev, CCoinsView.amountAt, hlive, CCoins.amount_spent hout]
    show _ - _ + (if coins.cUnit = cUnit then _ else _) = _
    by_cases hunit : coins.cUnit = cUnit
    · simp only [if_pos hunit]
      ring
    · simp only [if_neg hunit]
      ring
  · unfold spentAmount CCoinsView.prevout
    rw [CCoinsView.getCoins_setCoins]
    by_cases hhash : other.prevout.hash = txin.prevout.hash
    · have hn : other.prevout.n ≠ txin.prevout.n := by
        intro hn
        apply hne
        cases hother : other.prevout
        cases hspent : txin.prevout
        simp_all
      rw [if_pos hhash, hhash, hcoins, Option.bind_some, Option.bind_some, output?_spent hn]
      cases coins.output? other.prevout.n <;> rfl
    · rw [if_neg hhash]

/-- **The inputs of a transaction** take what they name from the sum. -/
theorem total_spendInputs : ∀ {vin : List CTxIn} {view : CCoinsView} {l : List CTxInUndo}
    {r : CCoinsView × List CTxInUndo}, view.IsFinite → (vin.map (·.prevout)).Nodup →
      vin.foldlM CTransaction.spendInput (view, l) = .ok r →
        r.1.IsFinite ∧ ∀ f cUnit, r.1.total f cUnit = view.total f cUnit - (vin.map (spentAmount view f cUnit)).sum
  | [], view, l, r, hv, _, h => by
    rw [List.foldlM_nil] at h
    cases h
    exact ⟨hv, fun f cUnit => by simp⟩
  | txin :: vin, view, l, r, hv, hnodup, h => by
    obtain ⟨⟨view₁, l₁⟩, h₁, h₂⟩ := foldlM_cons_ok.mp h
    obtain ⟨hv₁, htotal, hkeep⟩ := total_spendInput hv h₁
    rw [List.map_cons, List.nodup_cons] at hnodup
    obtain ⟨hr, hrest⟩ := total_spendInputs hv₁ hnodup.2 h₂
    refine ⟨hr, fun f cUnit => ?_⟩
    have hmap : vin.map (spentAmount view₁ f cUnit) = vin.map (spentAmount view f cUnit) :=
      List.map_congr_left fun other hmem =>
        hkeep f cUnit other fun heq => hnodup.1 (heq ▸ List.mem_map_of_mem hmem)
    rw [hrest, htotal, hmap, List.map_cons, List.sum_cons]
    ring

/-- **What a transaction does to the sums**: its inputs go, its outputs come. -/
theorem total_updateCoins {tx : CTransaction} {cr : Crypto} {nHeight : Int} {txundo : List CTxInUndo}
    (hplain : tx.Plain) (hv : view.IsFinite) (hnodup : (tx.vin.map (·.prevout)).Nodup)
    (hdead : view.live (tx.getHash cr) = none)
    (h : tx.updateCoins view nHeight (tx.getHash cr) = .ok (w, txundo)) :
    w.IsFinite ∧ ∀ f cUnit, w.total f cUnit = view.total f cUnit -
      (if tx.hasNoInputs then 0 else (tx.vin.map (spentAmount view f cUnit)).sum) +
        if tx.cUnit = cUnit then (tx.vout.map f).sum else 0 := by
  obtain ⟨view₁, hspend, rfl⟩ := updateCoins_ok h
  have hspent : view₁.IsFinite ∧ view₁.live (tx.getHash cr) = none ∧ ∀ f cUnit, view₁.total f cUnit =
      view.total f cUnit - if tx.hasNoInputs then 0 else (tx.vin.map (spentAmount view f cUnit)).sum := by
    unfold CTransaction.spendInputs at hspend
    split at hspend
    · rename_i hno
      cases hspend
      exact ⟨hv, hdead, fun f cUnit => by rw [if_pos hno, Int.sub_zero]⟩
    · rename_i hno
      obtain ⟨hfin, htotal⟩ := total_spendInputs hv hnodup hspend
      refine ⟨hfin, ?_, fun f cUnit => by rw [if_neg hno]; exact htotal f cUnit⟩
      exact foldlM_inv (I := fun s : CCoinsView × List CTxInUndo => s.1.live (tx.getHash cr) = none)
        (fun txin _ s s' hs hstep => (spendInput_keeps hstep).2 _ hs) hdead hspend
  obtain ⟨hfin, hdead₁, htotal⟩ := hspent
  refine ⟨isFinite_setCoins hfin _ _, fun f cUnit => ?_⟩
  have hamount : (CCoins.ofTx tx nHeight).amount f = (tx.vout.map f).sum := by
    have hall : tx.vout.filter (! ·.isNull) = tx.vout := List.filter_eq_self.mpr fun txout hmem => by
      simp [CTxOut.not_isNull_of_nonneg (hplain.value txout hmem)]
    rw [CCoins.amount, show (CCoins.ofTx tx nHeight).vout = tx.vout from rfl, hall]
  rw [total_setCoins hfin, CCoinsView.amountAt, hdead₁, htotal, hamount]
  show _ - 0 + (if tx.cUnit = cUnit then _ else _) = _
  rw [Int.sub_zero]

end Spending

/-! ## The figures of a block -/

/-- A transaction spends outputs of its own unit only, and parked outputs only if it is an unpark transaction. -/
structure SpendsOwn (view : CCoinsView) (tx : CTransaction) : Prop where
  unit : ∀ txin ∈ tx.vin, ∀ c, view.prevout txin.prevout = some c → c.1.cUnit = tx.cUnit
  park : ∀ txin ∈ tx.vin, ∀ c, view.prevout txin.prevout = some c → c.2.isPark = true → tx.isUnpark = true

/-- No output of shares is parked. -/
def CCoinsView.NoSharesParked (view : CCoinsView) : Prop :=
  ∀ txid coins, view.live txid = some coins → coins.cUnit = unitShare → ∀ txout ∈ coins.vout, txout.isPark = false

/-- The figures of the loop over the transactions are what the transactions have done to the sums over the view. -/
structure Figures (view : CCoinsView) (s : ConnectState) : Prop where
  supply : ∀ u, s.view.total (·.nValue) u = view.total (·.nValue) u + s.mapValueOut u - s.mapValueIn u
  parked : ∀ u, s.view.total parkedAmount u = view.total parkedAmount u + s.mapParked u

section Figures

variable {c : ConnectContext} {view : CCoinsView} {tx : CTransaction} {s s' : ConnectState} {n : Int}

theorem getValueOut_ok (h : tx.getValueOut = .ok n) : n = (tx.vout.map (·.nValue)).sum := by
  have hsum : ∀ (l : List CTxOut) (m n : Int), CTransaction.sumOut m l = .ok n → n = m + (l.map (·.nValue)).sum := by
    intro l
    induction l with
    | nil =>
      intro m n h
      cases h
      simp
    | cons txout l ih =>
      intro m n h
      rw [CTransaction.sumOut] at h
      split at h
      · cases h
      · rw [ih _ _ h, List.map_cons, List.sum_cons]
        ring
  rw [hsum _ _ _ h, Int.zero_add]

theorem parkedValue_eq (tx : CTransaction) : ConnectContext.parkedValue tx = (tx.vout.map parkedAmount).sum := by
  unfold ConnectContext.parkedValue
  induction tx.vout with
  | nil => rfl
  | cons txout l ih =>
    rw [List.filter_cons, List.map_cons, List.sum_cons, ← ih]
    by_cases hp : txout.isPark = true
    · simp [hp, parkedAmount]
    · simp [hp, parkedAmount]

/-- The inputs of one unit take from the sums what `GetValueIn` finds, where each of their amounts counts. -/
theorem sum_spentAmount {f : CTxOut → Int} {unit : CUnit} {b : Bool} : ∀ {vin : List CTxIn} {m n : Int},
    (∀ txin ∈ vin, ∀ c, view.prevout txin.prevout = some c →
      c.1.cUnit = unit ∧ f c.2 = if b then c.2.nValue else 0) →
    vin.foldlM (CTransaction.sumIn view) m = .ok n → ∀ u,
      (vin.map (spentAmount view f u)).sum = if unit = u then (if b then n - m else 0) else 0
  | [], m, n, _, h, u => by
    rw [List.foldlM_nil] at h
    cases h
    simp
  | txin :: vin, m, n, hf, h, u => by
    obtain ⟨m', h₁, h₂⟩ := foldlM_cons_ok.mp h
    unfold CTransaction.sumIn at h₁
    obtain ⟨cs, hcs, h₁⟩ := bind_eq_ok.mp h₁
    cases h₁
    have hprev := getOutputFor_eq_ok.mp hcs
    obtain ⟨hunit, hamount⟩ := hf txin List.mem_cons_self cs hprev
    have ih := sum_spentAmount (fun txin' hmem => hf txin' (List.mem_cons_of_mem _ hmem)) h₂ u
    have hhead : spentAmount view f u txin = if unit = u then (if b then cs.2.nValue else 0) else 0 := by
      rw [spentAmount, hprev, ← hamount, ← hunit]
    rw [List.map_cons, List.sum_cons, ih, hhead]
    split
    · split <;> ring
    · rfl

/-- What the check of a transaction adds to the figures. -/
theorem checkTx_figures (h : c.checkTx s tx = .ok s') :
    ∃ nValueOut, tx.getValueOut = .ok nValueOut ∧ s'.mapValueOut = addAmount s.mapValueOut tx.cUnit nValueOut ∧
      (tx.hasNoInputs = true → s'.mapValueIn = s.mapValueIn ∧ s'.mapParked = s.mapParked) ∧
      (tx.hasNoInputs = false → ∃ nValueIn r, tx.getValueIn s.view = .ok nValueIn ∧
        checkInputs c.cfg c.cr tx s.view c.chainPrev c.fScriptChecks c.flags c.fThreads = .ok r ∧
        s'.mapValueIn = addAmount s.mapValueIn tx.cUnit nValueIn ∧
        s'.mapParked = addAmount s.mapParked tx.cUnit
          (ConnectContext.parkedValue tx - if tx.isUnpark then nValueIn else 0)) := by
  unfold ConnectContext.checkTx at h
  obtain ⟨_, -, h⟩ := bind_eq_ok.mp h
  split at h
  · rename_i hno
    obtain ⟨nValueOut, hout, h⟩ := bind_eq_ok.mp h
    cases h
    exact ⟨nValueOut, hout, rfl, fun _ => ⟨rfl, rfl⟩, fun hf => absurd (hno.symm.trans hf) nofun⟩
  · rename_i hno
    unfold ConnectContext.connectInputs at h
    simp only [bind_eq_ok] at h
    obtain ⟨_, -, _, -, _, -, nValueIn, hin, nValueOut, hout, r, hr, h⟩ := h
    cases h
    exact ⟨nValueOut, hout, rfl, fun ht => absurd ht hno, fun _ => ⟨nValueIn, r, hin, hr, rfl, rfl⟩⟩

/-- The parked amounts of a transaction that spends no others. -/
theorem sum_parkedAmount_noInputs (hcheck : tx.checkTransaction = .ok ()) (hno : tx.hasNoInputs = true)
    (hgrant : tx.isCustodianGrant = true → ∀ txout ∈ tx.vout, txout.isPark = false) :
    (tx.vout.map parkedAmount).sum = 0 := by
  have hpark : ∀ txout ∈ tx.vout, txout.isPark = false := by
    rcases Bool.or_eq_true_iff.mp hno with hbase | hg
    · -- a coinbase is of shares
      intro txout hmem
      by_contra hp
      have hp : Morcochain.isPark txout.scriptPubKey = true := Bool.not_eq_false _ ▸ hp
      exact (CTransaction.checkTransaction_park hcheck hmem hp).1 (CTransaction.checkTransaction_coinBase hcheck hbase)
    · exact hgrant hg
  refine List.sum_eq_zero fun x hx => ?_
  obtain ⟨txout, hmem, rfl⟩ := List.mem_map.mp hx
  rw [parkedAmount, hpark txout hmem]
  rfl

/-- **A connected transaction keeps the figures.** -/
theorem connectTx_figures (hcheck : tx.checkTransaction = .ok ())
    (hgrant : tx.isCustodianGrant = true → ∀ txout ∈ tx.vout, txout.isPark = false)
    (hown : tx.hasNoInputs = false → SpendsOwn s.view tx) (hfin : s.view.IsFinite)
    (hdead : s.view.live (tx.getHash c.cr) = none) (hs : Figures view s) (h : c.connectTx s tx = .ok s') :
    s'.view.IsFinite ∧ Figures view s' := by
  unfold ConnectContext.connectTx at h
  obtain ⟨s₁, hcheckTx, h⟩ := bind_eq_ok.mp h
  obtain ⟨⟨w, txundo⟩, hupdate, h⟩ := bind_eq_ok.mp h
  cases h
  rw [(checkTx_view hcheckTx).1] at hupdate
  obtain ⟨hvout, hvalue⟩ := CTransaction.checkTransaction_vout hcheck
  obtain ⟨hw, htotal⟩ := total_updateCoins ⟨hvout, hvalue⟩ hfin (CTransaction.checkTransaction_vin hcheck) hdead hupdate
  obtain ⟨nValueOut, hout, hmapOut, hnoInputs, hinputs⟩ := checkTx_figures hcheckTx
  have hsumOut := getValueOut_ok hout
  cases hno : tx.hasNoInputs with
  | true =>
    obtain ⟨hmapIn, hmapParked⟩ := hnoInputs hno
    refine ⟨hw, fun u => ?_, fun u => ?_⟩
    · show w.total _ u = _ + s₁.mapValueOut u - s₁.mapValueIn u
      rw [htotal, hno, if_pos rfl, hs.supply, hmapOut, hmapIn, addAmount, hsumOut]
      by_cases hu : u = tx.cUnit
      · rw [if_pos hu, if_pos hu.symm]
        ring
      · rw [if_neg hu, if_neg (Ne.symm hu)]
        ring
    · show w.total _ u = _ + s₁.mapParked u
      rw [htotal, hno, if_pos rfl, hs.parked, hmapParked, sum_parkedAmount_noInputs hcheck hno hgrant, ite_self]
      ring
  | false =>
    obtain ⟨nValueIn, r, hin, hr, hmapIn, hmapParked⟩ := hinputs hno
    have hspends := hown hno
    rw [CTransaction.getValueIn, if_neg (by simp [hno])] at hin
    have hsumIn := @sum_spentAmount _ (·.nValue) tx.cUnit true _ _ _
      (fun txin hmem cs hcs => ⟨hspends.unit txin hmem cs hcs, rfl⟩) hin
    have hsumParked := @sum_spentAmount _ parkedAmount tx.cUnit tx.isUnpark _ _ _
      (fun txin hmem cs hcs => ⟨hspends.unit txin hmem cs hcs, by
        cases hunpark : tx.isUnpark with
        | true =>
          -- a valid unpark transaction has one input, and it is parked
          obtain ⟨_, _, txin', coins, txo, _, _, _, _, _, _, hvin, hchecked⟩ :=
            checkInputs_unpark hr (checkInputs_isUnpark hr hno hunpark)
          rw [hvin, List.mem_singleton] at hmem
          subst hmem
          rw [hchecked.prevout, Option.some.injEq] at hcs
          subst hcs
          rw [parkedAmount, CTxOut.isPark, isPark_of_extractPark hchecked.park]
        | false =>
          have hp : cs.2.isPark = false := by
            by_contra hp
            have := hspends.park txin hmem cs hcs (by simpa using hp)
            rw [hunpark] at this
            cases this
          rw [parkedAmount, hp]⟩) hin
    refine ⟨hw, fun u => ?_, fun u => ?_⟩
    · show w.total _ u = _ + s₁.mapValueOut u - s₁.mapValueIn u
      rw [htotal, hno, if_neg nofun, hsumIn, hs.supply, hmapOut, hmapIn, addAmount, addAmount, hsumOut]
      by_cases hu : u = tx.cUnit
      · rw [if_pos hu, if_pos hu, if_pos hu.symm, if_pos hu.symm, if_pos rfl]
        ring
      · rw [if_neg hu, if_neg hu, if_neg (Ne.symm hu), if_neg (Ne.symm hu)]
        ring
    · show w.total _ u = _ + s₁.mapParked u
      rw [htotal, hno, if_neg nofun, hsumParked, hs.parked, hmapParked, addAmount, parkedValue_eq]
      by_cases hu : u = tx.cUnit
      · rw [if_pos hu, if_pos hu.symm, if_pos hu.symm]
        split <;> ring
      · rw [if_neg hu, if_neg (Ne.symm hu), if_neg (Ne.symm hu)]
        ring

/-! ### The transactions of a block -/

theorem NoSharesParked.congr {view' : CCoinsView} (h : SameCoins view' view) (hv : view.NoSharesParked) :
    view'.NoSharesParked := fun txid coins hlive => hv txid coins ((h txid).symm.trans hlive)

/-- Spending an output parks nothing. -/
theorem noSharesParked_spendInput {view' : CCoinsView} {l l' : List CTxInUndo} {txin : CTxIn}
    (hv : view.NoSharesParked) (h : CTransaction.spendInput (view, l) txin = .ok (view', l')) :
    view'.NoSharesParked := by
  obtain ⟨coins, left, undo, hcoins, hspend, rfl, -⟩ := spendInput_ok h
  obtain ⟨rfl, txout, hout⟩ := spend_left hspend
  have hlive := live_of_not_pruned hcoins (output?_not_isPruned hout)
  intro txid coins' hlive' hunit txout' hmem
  rw [live_setCoins] at hlive'
  split at hlive'
  · obtain ⟨heq, -⟩ := Option.filter_eq_some_iff.mp hlive'
    cases heq
    obtain ⟨dropped, happ, -⟩ := cleanup_append { coins with vout := coins.vout.set txin.prevout.n CTxOut.null }
    have hset : txout' ∈ coins.vout.set txin.prevout.n CTxOut.null := by
      rw [show coins.vout.set txin.prevout.n CTxOut.null = (coins.spent txin.prevout.n).vout ++ dropped from happ]
      exact List.mem_append_left _ hmem
    rcases List.mem_or_eq_of_mem_set hset with hmem | rfl
    · exact hv _ _ hlive hunit _ hmem
    · decide
  · exact hv _ _ hlive' hunit _ hmem

/-- A transaction that passes the checks parks no shares. -/
theorem noSharesParked_updateCoins {cr : Crypto} {nHeight : Int} {r : CCoinsView × List CTxInUndo}
    (hcheck : tx.checkTransaction = .ok ()) (hv : view.NoSharesParked)
    (h : tx.updateCoins view nHeight (tx.getHash cr) = .ok r) : r.1.NoSharesParked := by
  obtain ⟨w, txundo⟩ := r
  obtain ⟨view₁, hspend, rfl⟩ := updateCoins_ok h
  have hv₁ : view₁.NoSharesParked := by
    unfold CTransaction.spendInputs at hspend
    split at hspend
    · exact (Prod.mk.inj (Except.ok.inj hspend)).1 ▸ hv
    · exact foldlM_inv (I := fun s : CCoinsView × List CTxInUndo => s.1.NoSharesParked)
        (fun txin _ s s' hs hstep => noSharesParked_spendInput hs hstep) hv hspend
  intro txid coins hlive hunit txout hmem
  rw [live_setCoins] at hlive
  split at hlive
  · obtain ⟨heq, -⟩ := Option.filter_eq_some_iff.mp hlive
    cases heq
    by_contra hp
    exact (CTransaction.checkTransaction_park hcheck hmem (Bool.not_eq_false _ ▸ hp)).1 hunit
  · exact hv₁ _ _ hlive hunit _ hmem

/-- The transactions spend outputs of their own unit, each from the view that those before it leave. -/
def SpendOwn (c : ConnectContext) : ConnectState → List CTransaction → Prop
  | _, [] => True
  | s, tx :: vtx =>
    (tx.hasNoInputs = false → SpendsOwn s.view tx) ∧ ∀ s', c.connectTx s tx = .ok s' → SpendOwn c s' vtx

/-- What is known of a view that blocks are connected to. -/
structure CCoinsView.Sound (view : CCoinsView) : Prop where
  canonical : view.Canonical
  finite : view.IsFinite
  shares : view.NoSharesParked

theorem CCoinsView.Sound.congr {view' : CCoinsView} (h : SameCoins view' view) (hv : view.Sound) : view'.Sound :=
  ⟨h.canonical hv.canonical, h.isFinite hv.finite, NoSharesParked.congr h hv.shares⟩

/-- **The transactions of a block keep the figures.** -/
theorem connectTxs_figures (hheight : c.pindex.nHeight ≠ 0) : ∀ {vtx : List CTransaction} {s s' : ConnectState},
    (∀ tx ∈ vtx, tx.checkTransaction = .ok ()) →
    (∀ tx ∈ vtx, tx.isCustodianGrant = true → ∀ txout ∈ tx.vout, txout.isPark = false) →
    SpendOwn c s vtx → (∀ tx ∈ vtx, s.view.live (tx.getHash c.cr) = none) →
    (vtx.map (·.getHash c.cr)).Nodup → s.view.Sound → Figures view s → vtx.foldlM c.connectTx s = .ok s' →
      s'.view.Sound ∧ Figures view s'
  | [], s, s', _, _, _, _, _, hv, hs, h => by
    rw [List.foldlM_nil] at h
    cases h
    exact ⟨hv, hs⟩
  | tx :: vtx, s, s', hcheck, hgrant, hown, hdead, hnodup, hv, hs, h => by
    obtain ⟨s₁, h₁, h₂⟩ := foldlM_cons_ok.mp h
    have htx := hcheck tx List.mem_cons_self
    obtain ⟨hfin, hs₁⟩ := connectTx_figures htx (hgrant tx List.mem_cons_self) hown.1 hv.finite
      (hdead tx List.mem_cons_self) hs h₁
    have hupdate : ∃ txundo, tx.updateCoins s.view c.pindex.nHeight (tx.getHash c.cr) = .ok (s₁.view, txundo) := by
      unfold ConnectContext.connectTx at h₁
      obtain ⟨s₀, hcheckTx, h₁⟩ := bind_eq_ok.mp h₁
      obtain ⟨⟨w, txundo⟩, hupdate, h₁⟩ := bind_eq_ok.mp h₁
      cases h₁
      rw [(checkTx_view hcheckTx).1] at hupdate
      exact ⟨txundo, hupdate⟩
    obtain ⟨txundo, hupdate⟩ := hupdate
    obtain ⟨hvout, hvalue⟩ := CTransaction.checkTransaction_vout htx
    obtain ⟨hcanonical, hkeep⟩ := updateCoins_keeps ⟨hvout, hvalue⟩ (Int.ofNat_ne_zero.mpr hheight) hupdate
      hv.canonical
    rw [List.map_cons, List.nodup_cons] at hnodup
    exact connectTxs_figures hheight (fun tx' hmem => hcheck tx' (List.mem_cons_of_mem _ hmem))
      (fun tx' hmem => hgrant tx' (List.mem_cons_of_mem _ hmem)) (hown.2 s₁ h₁)
      (fun tx' hmem => hkeep _ (fun heq => hnodup.1 (heq ▸ List.mem_map_of_mem hmem))
        (hdead tx' (List.mem_cons_of_mem _ hmem)))
      hnodup.2 ⟨hcanonical, hfin, noSharesParked_updateCoins htx hv.shares hupdate⟩ hs₁ h₂

/-- What is promised of the transactions of a block: they spend outputs of their own unit, and the custodian grants have
no park output. -/
structure OwnUnits (c : ConnectContext) (block : CBlock) (view : CCoinsView) : Prop where
  own : SpendOwn c { view := view } block.vtx
  grants : ∀ tx ∈ block.vtx, tx.isCustodianGrant = true → ∀ txout ∈ tx.vout, txout.isPark = false

/-- The figures of an entry are the sums over a view. -/
structure CBlockIndex.HasTotals (pindex : CBlockIndex) (view : CCoinsView) : Prop where
  supply : ∀ u ∈ sAvailableUnits, pindex.getMoneySupply u = view.total (·.nValue) u
  parked : ∀ u ∈ sAvailableUnits, pindex.getTotalParked u = view.total parkedAmount u

theorem total_parked_shares {view : CCoinsView} (hv : view.NoSharesParked) :
    view.total parkedAmount unitShare = 0 := by
  have hzero : view.amountAt parkedAmount unitShare = 0 := by
    funext txid
    unfold CCoinsView.amountAt
    cases hlive : view.live txid with
    | none => rfl
    | some coins =>
      by_cases hunit : coins.cUnit = unitShare
      · simp only [if_pos hunit]
        refine List.sum_eq_zero fun x hx => ?_
        obtain ⟨txout, hmem, rfl⟩ := List.mem_map.mp hx
        rw [parkedAmount, hv txid coins hlive hunit txout (List.mem_of_mem_filter hmem)]
        rfl
      · simp only [if_neg hunit]
        rfl
  rw [CCoinsView.total, hzero]
  exact finsum_zero

/-- **What a connected block leaves**: its entry has the sums over the view after it, when the entry of its predecessor
has those over the view before it. -/
theorem supply_connectBlock {block : CBlock} {t : Int} {r : Connected} {pprev : CBlockIndex} {rest : List CBlockIndex}
    (hu : Undoable c block) (hview : view.Sound) (hown : OwnUnits c block view) (hprev : c.chainPrev = pprev :: rest)
    (htotals : pprev.HasTotals view) (hfresh : c.pindex.getTotalParked unitShare = 0)
    (h : c.connectBlock block view false t = .ok r) : r.view.Sound ∧ r.pindex.HasTotals r.view ∧
      r.pindex.getTotalParked unitShare = 0 := by
  obtain ⟨s, txs, hs, rfl, -, hvtx, -, -, -, -, hdead, hnodup⟩ := connectBlock_txs hu h
  have hchecked := CBlock.checkBlock_ok (connectBlock_ok h hu.notGenesis).1
  have hheight : c.pindex.nHeight ≠ 0 := Nat.ne_of_gt hu.height
  obtain ⟨hsound, hfigures⟩ := connectTxs_figures hheight (fun tx hmem => (hchecked.txs tx hmem).1)
    hown.grants hown.own
    (fun tx hmem => by
      obtain ⟨p, hp, rfl⟩ := List.mem_map.mp (hvtx ▸ hmem)
      exact hdead p hp)
    (by rw [← hvtx, List.map_map]; exact hnodup) hview
    (show Figures view _ from ⟨fun u => by simp, fun u => by simp⟩) hs
  have hshares : (c.connectedIndex s).getTotalParked unitShare = 0 := hfresh
  have hbest : (s.view.setBestBlock (some c.pindex.phashBlock)).Sound :=
    CCoinsView.Sound.congr (show SameCoins (s.view.setBestBlock _) s.view from fun _ => rfl) hsound
  refine ⟨hbest, ⟨fun u hmem => ?_, fun u hmem => ?_⟩, hshares⟩
  · show (c.connectedIndex s).getMoneySupply u = s.view.total _ u
    have hsupply : (c.connectedIndex s).getMoneySupply u =
        pprev.getMoneySupply u + s.mapValueOut u - s.mapValueIn u := by
      unfold ConnectContext.connectedIndex
      rw [hprev]
      rcases List.mem_pair.mp hmem with rfl | rfl <;> rfl
    rw [hsupply, htotals.supply u hmem, hfigures.supply u]
  · show (c.connectedIndex s).getTotalParked u = s.view.total _ u
    rcases List.mem_pair.mp hmem with rfl | rfl
    · rw [hshares, total_parked_shares hsound.shares]
    · have hparked : (c.connectedIndex s).getTotalParked unitCurrency =
          pprev.getTotalParked unitCurrency + s.mapParked unitCurrency := by
        unfold ConnectContext.connectedIndex
        rw [hprev]
        rfl
      rw [hparked, htotals.parked _ hmem, hfigures.parked]

end Figures

end Morcochain
