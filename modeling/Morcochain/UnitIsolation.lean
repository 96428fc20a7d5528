import Morcochain.ConnectBlock
import Morcochain.Unpark

/-!
# Units in a block

Whether the transactions of a connected block spend outputs of their own unit. The memory pool asks this of each
transaction (`AreInputsSameUnit`); the connection of a block asks it of unpark transactions only, through the address
that they pay to.

* `connectTxs_units` : the units in the view after some transactions are those of the view before and of these
  transactions.
* `unitIsolated_iff` : **exactly when** a connected block spends outputs of the right unit only.
-/

set_option autoImplicit false

namespace Morcochain

open Guard

/-! ## The units of a view -/

/-- The unit of the coins of a transaction. -/
def CCoinsView.unit? (view : CCoinsView) (txid : Uint256) : Option CUnit := (view.getCoins txid).map (·.cUnit)

/-- The unit of the transaction with an id: one of a list, the last one first, or one of a view. -/
def namedUnit (cr : Crypto) (view : CCoinsView) (before : List CTransaction) (txid : Uint256) : Option CUnit :=
  match before.reverse.find? (fun tx => tx.getHash cr = txid) with
  | some tx => some tx.cUnit
  | none => view.unit? txid

section Units

variable {cr : Crypto} {view : CCoinsView} {tx : CTransaction}

theorem unit?_setCoins (txid h : Uint256) (coins : CCoins) :
    (view.setCoins txid coins).unit? h = if h = txid then some coins.cUnit else view.unit? h := by
  unfold CCoinsView.unit?
  rw [CCoinsView.getCoins_setCoins]
  split <;> rfl

/-- Spending an input changes no unit. -/
theorem unit?_spendInput {s s' : CCoinsView × List CTxInUndo} {txin : CTxIn}
    (h : CTransaction.spendInput s txin = .ok s') (txid : Uint256) : s'.1.unit? txid = s.1.unit? txid := by
  unfold CTransaction.spendInput at h
  split at h
  · cases h
  · rename_i coins undo hspend
    cases h
    obtain ⟨coins₀, hcoins, hspend⟩ := Option.bind_eq_some_iff.mp hspend
    obtain ⟨txout, -, hleft⟩ := Option.map_eq_some_iff.mp hspend
    have hunit : coins.cUnit = coins₀.cUnit := by
      rw [← (Prod.mk.inj hleft).1]
      rfl
    rw [unit?_setCoins]
    split
    · rename_i htxid
      rw [htxid, CCoinsView.unit?, hcoins, hunit]
      rfl
    · rfl

/-- A transaction adds its own unit to the view. -/
theorem unit?_updateCoins {nHeight : Int} {txhash : Uint256} {r : CCoinsView × List CTxInUndo}
    (h : tx.updateCoins view nHeight txhash = .ok r) (txid : Uint256) :
    r.1.unit? txid = if txid = txhash then some tx.cUnit else view.unit? txid := by
  unfold CTransaction.updateCoins at h
  obtain ⟨⟨view', txundo⟩, hspend, h⟩ := bind_eq_ok.mp h
  cases h
  have hsame : view'.unit? txid = view.unit? txid := by
    unfold CTransaction.spendInputs at hspend
    split at hspend
    · cases hspend
      rfl
    · exact foldlM_inv (I := fun s => s.1.unit? txid = view.unit? txid)
        (fun txin _ s s' hs hstep => (unit?_spendInput hstep txid).trans hs) rfl hspend
  rw [unit?_setCoins, hsame]
  rfl

end Units

section Isolation

variable {c : ConnectContext} {block : CBlock} {view : CCoinsView} {tx : CTransaction} {s s' : ConnectState}

/-- A connected transaction that spends others passed the checks of its inputs. -/
theorem connectTx_ok (h : c.connectTx s tx = .ok s') :
    (∀ txid, s'.view.unit? txid = if txid = tx.getHash c.cr then some tx.cUnit else s.view.unit? txid) ∧
      (tx.hasNoInputs = false → tx.haveInputs s.view = true ∧
        ∃ r, checkInputs c.cfg c.cr tx s.view c.chainPrev c.fScriptChecks c.flags c.fThreads = .ok r) := by
  unfold ConnectContext.connectTx at h
  obtain ⟨s₁, hcheck, h⟩ := bind_eq_ok.mp h
  obtain ⟨⟨view', txundo⟩, hupdate, h⟩ := bind_eq_ok.mp h
  cases h
  refine ⟨fun txid => ?_, fun hno => ?_⟩
  · rw [← (checkTx_view hcheck).1]
    exact unit?_updateCoins hupdate txid
  · unfold ConnectContext.checkTx at hcheck
    obtain ⟨_, -, hcheck⟩ := bind_eq_ok.mp hcheck
    rw [if_neg (by simp [hno])] at hcheck
    unfold ConnectContext.connectInputs at hcheck
    simp only [bind_eq_ok, rejectIf_eq_ok] at hcheck
    obtain ⟨_, hhave, _, -, _, -, _, -, _, -, r, hr, -⟩ := hcheck
    exact ⟨by simpa using hhave, r, hr⟩

/-- **The units after some transactions** are those of the view before and of these transactions. -/
theorem connectTxs_units : ∀ {before : List CTransaction}, before.foldlM c.connectTx { view := view } = .ok s →
    ∀ txid, s.view.unit? txid = namedUnit c.cr view before txid := by
  intro before
  induction before using List.reverseRecOn generalizing s with
  | nil =>
    intro h txid
    cases h
    rfl
  | append_singleton before tx ih =>
    intro h txid
    obtain ⟨s₁, h₁, h₂⟩ := foldlM_append_ok.mp h
    obtain ⟨s₂, h₂, h₃⟩ := foldlM_cons_ok.mp h₂
    cases h₃
    rw [(connectTx_ok h₂).1 txid, ih h₁ txid]
    unfold namedUnit
    rw [List.reverse_append, List.reverse_singleton, List.singleton_append, List.find?_cons]
    by_cases htx : tx.getHash c.cr = txid
    · simp [htx]
    · simp [htx, Ne.symm htx]

/-- An unpark transaction that is accepted spends an output of its own unit. -/
theorem checkInputs_unpark_unit {fScriptChecks fThreads : Bool} {flags : ScriptFlags} {r : InputsChecked}
    {cfg : Settings} {cr : Crypto} {chainPrev : List CBlockIndex}
    (h : checkInputs cfg cr tx view chainPrev fScriptChecks flags fThreads = .ok r) (hr : r.fValidUnpark = true) :
    ∀ txin ∈ tx.vin, view.unit? txin.prevout.hash = some tx.cUnit := by
  obtain ⟨_, _, txin, coins, txo, txout, nDuration, nPremium, d, d', -, hvin, hchecked⟩ := checkInputs_unpark h hr
  obtain ⟨-, id, rfl⟩ := extractPark_some hchecked.park
  obtain ⟨a, ha, ha'⟩ := hchecked.address
  obtain ⟨-, hunit⟩ := addressOf_inj ha ha'
  intro i hi
  rw [hvin, List.mem_singleton] at hi
  rw [hi, CCoinsView.unit?, (prevout_eq_some.mp hchecked.prevout).1, hunit]
  rfl

/-- **Unit isolation**: in a block whose transactions are connected, each transaction that spends others finds coins of
its own unit under the ids that its inputs name, in the view on which it is connected. -/
def UnitIsolated (c : ConnectContext) (block : CBlock) (view : CCoinsView) : Prop :=
  block.getHash c.cr ≠ c.cfg.hashGenesisBlock → ∀ before tx after s, block.vtx = before ++ tx :: after →
    before.foldlM c.connectTx { view := view } = .ok s → tx.hasNoInputs = false →
      ∀ txin ∈ tx.vin, ∃ coins, s.view.getCoins txin.prevout.hash = some coins ∧ coins.cUnit = tx.cUnit

/-- Each transaction that spends others and is no unpark transaction names only transactions of its own unit, among the
transactions before it in the block and those of the view. -/
def NamesOwnUnit (c : ConnectContext) (block : CBlock) (view : CCoinsView) : Prop :=
  block.getHash c.cr ≠ c.cfg.hashGenesisBlock → ∀ before tx after, block.vtx = before ++ tx :: after →
    tx.hasNoInputs = false → tx.isUnpark = false →
      ∀ txin ∈ tx.vin, namedUnit c.cr view before txin.prevout.hash = some tx.cUnit

theorem unit?_eq_some {txid : Uint256} {cUnit : CUnit} :
    view.unit? txid = some cUnit ↔ ∃ coins, view.getCoins txid = some coins ∧ coins.cUnit = cUnit :=
  Option.map_eq_some_iff

/-- **When a connected block isolates units**: exactly when its transactions other than unpark transactions name
transactions of their own unit. -/
theorem unitIsolated_iff {fJustCheck : Bool} {nAdjustedTime : Int} {r : Connected}
    (h : c.connectBlock block view fJustCheck nAdjustedTime = .ok r) :
    UnitIsolated c block view ↔ NamesOwnUnit c block view := by
  constructor
  · intro hiso hg before tx after hvtx hno _ txin htxin
    obtain ⟨-, -, -, s', hs', -⟩ := connectBlock_ok h hg
    rw [hvtx] at hs'
    obtain ⟨s, hs, -⟩ := foldlM_append_ok.mp hs'
    rw [← connectTxs_units hs, unit?_eq_some]
    exact hiso hg before tx after s hvtx hs hno txin htxin
  · intro hnames hg before tx after s hvtx hs hno txin htxin
    rw [← unit?_eq_some]
    obtain ⟨-, -, -, s', hs', -⟩ := connectBlock_ok h hg
    rw [hvtx] at hs'
    obtain ⟨s₁, hs₁, hrest⟩ := foldlM_append_ok.mp hs'
    cases hs.symm.trans hs₁
    obtain ⟨s₂, htx, -⟩ := foldlM_cons_ok.mp hrest
    obtain ⟨-, r, hr⟩ := (connectTx_ok htx).2 hno
    by_cases hu : tx.isUnpark = true
    · exact checkInputs_unpark_unit hr (checkInputs_isUnpark hr hno hu) txin htxin
    · rw [connectTxs_units hs]
      exact hnames hg before tx after hvtx hno (Bool.eq_false_iff.mpr hu) txin htxin

/-! ## Shares that become currency -/

/-- A block that spends shares as shares. -/
theorem unitIsolated_sample : UnitIsolated unitContext (unitBlock unitShare) sharesView := by
  have hok : (unitContext.connectBlock (unitBlock unitShare) sharesView false 1400000000).isOk = true := by
    decide +kernel
  cases h : unitContext.connectBlock (unitBlock unitShare) sharesView false 1400000000 with
  | error e =>
    rw [h] at hok
    cases hok
  | ok r =>
    refine (unitIsolated_iff h).mpr fun _ before tx after hvtx hno _ txin htxin => ?_
    match before, hvtx with
    | [], hvtx =>
      cases hvtx
      cases hno
    | [_], hvtx =>
      cases hvtx
      rw [spendShares, List.mem_singleton] at htxin
      rw [htxin]
      decide +kernel
    | _ :: _ :: _, hvtx =>
      have hlen := congrArg List.length hvtx
      simp [unitBlock, sampleBlock] at hlen

/-- **Shares that become currency**: the block is connected, and its second transaction spends shares as currency. -/
theorem shares_become_currency :
    (unitContext.connectBlock (unitBlock unitCurrency) sharesView false 1400000000).isOk = true ∧
      ¬ UnitIsolated unitContext (unitBlock unitCurrency) sharesView := by
  refine ⟨by decide +kernel, fun h => ?_⟩
  have hok : ([unitCoinbase].foldlM unitContext.connectTx { view := sharesView }).isOk = true := by decide +kernel
  cases hs : [unitCoinbase].foldlM unitContext.connectTx { view := sharesView } with
  | error e =>
    rw [hs] at hok
    cases hok
  | ok s =>
    obtain ⟨coins, hcoins, hunit⟩ := h (by decide +kernel) [unitCoinbase] (spendShares unitCurrency) [] s rfl hs
      (by decide) _ (List.mem_singleton_self _)
    have hshare : s.view.unit? 1 = some unitShare := (connectTxs_units hs 1).trans (by decide +kernel)
    rw [CCoinsView.unit?, hcoins, Option.map_some, hunit] at hshare
    exact absurd hshare (by decide)

end Isolation

end Morcochain
