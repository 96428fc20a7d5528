import Morcochain.SafeFee
import Morcochain.Supply
import Morcochain.UnitIsolation

/-!
# The fees that blocks demand

`CheckInputs` (`main.cpp`) asks for the fee of a transaction of no bytes (`GetMinFeeFromPrevBlock`), whatever its size
is, and lets a coinstake gain the whole reward.

* `checkAmounts_pays` : what the check of the amounts demands.
* `demandsBySize_iff` : **when blocks demand a fee for each kilobyte**: when all transactions have fewer than 1000
  bytes, or pay no fee at all.
* `pays_of_connectBlock` : what the transactions of a connected block pay, as far as it is demanded.
-/

set_option autoImplicit false

namespace Morcochain

open Guard

/-! ## Fees by size -/

/-- A transaction pays the effective fee of its unit for each thousand bytes: a coinstake out of its reward. -/
def CTransaction.PaysBySize (tx : CTransaction) (chainPrev : List CBlockIndex) (nValueIn : Int) : Prop :=
  ∃ nUnitFee nValueOut, tx.getUnitMinFeeFromPrevBlock chainPrev = .ok nUnitFee ∧ tx.getValueOut = .ok nValueOut ∧
    if tx.isCoinStake then nValueOut - nValueIn ≤ proofOfStakeReward - (tx.serializeSize : Int) / 1000 * nUnitFee
    else (1 + (tx.serializeSize : Int) / 1000) * nUnitFee ≤ nValueIn - nValueOut

/-- The transaction owes a fee: it is neither a coinbase nor a grant nor an unpark transaction. -/
def CTransaction.OwesFee (tx : CTransaction) : Prop := tx.hasNoInputs = false ∧ tx.isUnpark = false

/-- The check of the amounts demands the fee by size of each transaction of a block, whatever its inputs are worth. -/
def DemandsBySize (c : ConnectContext) (block : CBlock) : Prop :=
  ∀ tx ∈ block.vtx, tx.OwesFee → ∀ nValueIn, checkAmounts tx c.chainPrev nValueIn false = .ok () →
    tx.PaysBySize c.chainPrev nValueIn

/-- Each transaction of a block has fewer than 1000 bytes, or its unit has no fee. -/
def SmallOrFree (c : ConnectContext) (block : CBlock) : Prop :=
  ∀ tx ∈ block.vtx, tx.OwesFee → tx.serializeSize < 1000 ∨ tx.getUnitMinFeeFromPrevBlock c.chainPrev = .ok 0

/-- Each transaction of a block pays the fee by size, out of what its inputs are worth in the view on which it is
connected. -/
def BlockPaysBySize (c : ConnectContext) (block : CBlock) (view : CCoinsView) : Prop :=
  block.getHash c.cr ≠ c.cfg.hashGenesisBlock → ∀ before tx after s, block.vtx = before ++ tx :: after →
    before.foldlM c.connectTx { view := view } = .ok s → tx.OwesFee →
      ∃ nValueIn, tx.getValueIn s.view = .ok nValueIn ∧ tx.PaysBySize c.chainPrev nValueIn

section Amounts

variable {tx : CTransaction} {chainPrev : List CBlockIndex} {nUnitFee nValueOut nValueIn : Int}

theorem chainMinFee_nonneg {chain : List CBlockIndex} {cUnit : CUnit} {fee : Int}
    (h : chainMinFee chain cUnit = .ok fee) :
    0 ≤ fee := by
  unfold chainMinFee at h
  split at h
  · cases h
  · rename_i p _
    unfold CBlockIndex.getVotedMinFee at h
    split at h
    · cases h
    · cases h
      unfold getDefaultFee
      split_ifs <;> decide
    · cases h
      exact Int.natCast_nonneg _

/-- The fee of no bytes is the one of the unit, as long as that is an amount. -/
theorem minFeeFor_zero (h : 0 ≤ nUnitFee) : minFeeFor nUnitFee 0 = min nUnitFee maxMoney := by
  have hone : (1 + ((0 : Nat) : Int) / 1000) * nUnitFee = nUnitFee := by simp
  unfold minFeeFor
  simp only [hone, moneyRange_iff]
  split <;> omega

theorem getMinFeeFromPrevBlock_eq (h : tx.getUnitMinFeeFromPrevBlock chainPrev = .ok nUnitFee) :
    tx.getMinFeeFromPrevBlock chainPrev = .ok (min nUnitFee maxMoney) := by
  have hpos := chainMinFee_nonneg h
  unfold CTransaction.getMinFeeFromPrevBlock CTransaction.getMinFee
  rw [show chainMinFee ({} :: chainPrev) tx.cUnit = .ok nUnitFee from h, ok_bind, pure_eq_ok, minFeeFor_zero hpos]

/-- **What the check of the amounts demands**: of a coinstake, that it gains no more than the reward and what the fee
exceeds the greatest amount; of another transaction, the fee of its unit, once. -/
theorem checkAmounts_iff (hfee : tx.getUnitMinFeeFromPrevBlock chainPrev = .ok nUnitFee)
    (hout : tx.getValueOut = .ok nValueOut) : checkAmounts tx chainPrev nValueIn false = .ok () ↔
      if tx.isCoinStake then nValueOut - nValueIn ≤ proofOfStakeReward - min nUnitFee maxMoney + nUnitFee
      else min nUnitFee maxMoney ≤ nValueIn - nValueOut ∧ nValueIn - nValueOut ≤ maxMoney := by
  have hpos := chainMinFee_nonneg hfee
  have hmax : (0 : Int) ≤ maxMoney := by decide
  unfold checkAmounts
  rw [hout, hfee, getMinFeeFromPrevBlock_eq hfee]
  by_cases hstake : tx.isCoinStake = true
  · simp only [hstake, if_true, ok_bind, rejectIf_eq_ok]
    omega
  · simp only [hstake, Bool.false_eq_true, if_false, Bool.not_false, if_true, ok_bind, bind_eq_ok, rejectIf_eq_ok,
      exists_const, Bool.not_eq_true', Bool.not_eq_false, moneyRange_iff]
    omega

/-- A check of the amounts that passes has found the fee and the value of the outputs. -/
theorem checkAmounts_reads (h : checkAmounts tx chainPrev nValueIn false = .ok ()) :
    ∃ nUnitFee nValueOut, tx.getUnitMinFeeFromPrevBlock chainPrev = .ok nUnitFee ∧ tx.getValueOut = .ok nValueOut := by
  unfold checkAmounts at h
  split at h
  · obtain ⟨nValueOut, hout, h⟩ := bind_eq_ok.mp h
    obtain ⟨_, -, h⟩ := bind_eq_ok.mp h
    obtain ⟨nUnitFee, hfee, -⟩ := bind_eq_ok.mp h
    exact ⟨nUnitFee, nValueOut, hfee, hout⟩
  · rw [if_pos (show (!false) = true from rfl)] at h
    obtain ⟨nValueOut, hout, h⟩ := bind_eq_ok.mp h
    obtain ⟨_, -, h⟩ := bind_eq_ok.mp h
    obtain ⟨_, -, h⟩ := bind_eq_ok.mp h
    obtain ⟨_, hmin, -⟩ := bind_eq_ok.mp h
    obtain ⟨nUnitFee, hfee, -⟩ := bind_eq_ok.mp hmin
    exact ⟨nUnitFee, nValueOut, hfee, hout⟩

/-- A small transaction, or one of a unit without fee, pays by size what the check demands. -/
theorem checkAmounts_pays (hsmall : tx.serializeSize < 1000 ∨ tx.getUnitMinFeeFromPrevBlock chainPrev = .ok 0)
    (hrange : ∀ fee, tx.getUnitMinFeeFromPrevBlock chainPrev = .ok fee → fee ≤ maxMoney)
    (h : checkAmounts tx chainPrev nValueIn false = .ok ()) : tx.PaysBySize chainPrev nValueIn := by
  obtain ⟨nUnitFee, nValueOut, hfee, hout⟩ := checkAmounts_reads h
  have hpos := chainMinFee_nonneg hfee
  have hle := hrange nUnitFee hfee
  rw [checkAmounts_iff hfee hout, min_eq_left hle] at h
  have hextra : (tx.serializeSize : Int) / 1000 * nUnitFee = 0 := by
    rcases hsmall with hsize | hfree
    · rw [show (tx.serializeSize : Int) / 1000 = 0 by omega, Int.zero_mul]
    · rw [Except.ok.inj (hfee.symm.trans hfree), Int.mul_zero]
  refine ⟨nUnitFee, nValueOut, hfee, hout, ?_⟩
  rw [Int.add_mul, Int.one_mul, hextra]
  by_cases hstake : tx.isCoinStake = true
  · rw [if_pos hstake] at h ⊢
    omega
  · rw [if_neg hstake] at h ⊢
    omega

/-- Any other transaction may pay less. -/
theorem exists_underpaid (hlarge : 1000 ≤ tx.serializeSize)
    (hfee : tx.getUnitMinFeeFromPrevBlock chainPrev = .ok nUnitFee)
    (hne : nUnitFee ≠ 0) (hout : tx.getValueOut = .ok nValueOut) :
    ∃ nValueIn, checkAmounts tx chainPrev nValueIn false = .ok () ∧ ¬ tx.PaysBySize chainPrev nValueIn := by
  have hpos : 0 < nUnitFee := by
    have hnonneg := chainMinFee_nonneg hfee
    omega
  have hextra : nUnitFee ≤ (tx.serializeSize : Int) / 1000 * nUnitFee := by
    have hk : 1 ≤ (tx.serializeSize : Int) / 1000 := by omega
    calc nUnitFee = 1 * nUnitFee := (Int.one_mul _).symm
      _ ≤ (tx.serializeSize : Int) / 1000 * nUnitFee := Int.mul_le_mul_of_nonneg_right hk (Int.le_of_lt hpos)
  refine ⟨if tx.isCoinStake then nValueOut - proofOfStakeReward else nValueOut + min nUnitFee maxMoney, ?_, ?_⟩
  · rw [checkAmounts_iff hfee hout]
    split_ifs <;> omega
  · rintro ⟨fee, value, hfee', hout', hpays⟩
    obtain rfl := Except.ok.inj (hfee.symm.trans hfee')
    obtain rfl := Except.ok.inj (hout.symm.trans hout')
    rw [Int.add_mul, Int.one_mul] at hpays
    split_ifs at hpays <;> omega

end Amounts

/-! ## Connected blocks -/

section Blocks

variable {c : ConnectContext} {block : CBlock} {view : CCoinsView} {tx : CTransaction} {s s' : ConnectState}

/-- The fee of a unit is an amount, as voted fees are 32-bit numbers. -/
theorem chainMinFee_le {chain : List CBlockIndex} {cUnit : CUnit} {fee : Int}
    (hfees : ∀ p ∈ chain, p.mapVotedFee.Each (· < 2 ^ 32)) (hunit : isValidUnit cUnit = true)
    (h : chainMinFee chain cUnit = .ok fee) : fee ≤ maxMoney := by
  unfold chainMinFee at h
  split at h
  · cases h
  · rename_i p hp
    obtain ⟨fee', hfee', -, hlt⟩ := getVotedMinFee_ok hunit (hfees p (List.mem_of_getElem? hp))
    obtain rfl := Except.ok.inj (h.symm.trans hfee')
    have hmax : (2 : Int) ^ 32 ≤ maxMoney := by decide
    omega

/-- The checks of the inputs add up their values. -/
theorem sumIn_of_checkTxIn {cfg : Settings} {nSpendHeight : Int} : ∀ {vin : List CTxIn} {m n : Int},
    vin.foldlM (checkTxIn cfg tx view nSpendHeight) m = .ok n → vin.foldlM (CTransaction.sumIn view) m = .ok n := by
  intro vin
  induction vin with
  | nil => exact fun h => h
  | cons txin vin ih =>
    intro m n h
    obtain ⟨m', hstep, h⟩ := foldlM_cons_ok.mp h
    unfold checkTxIn at hstep
    simp only [bind_eq_ok, rejectIf_eq_ok, pure_eq_ok, Except.ok.injEq] at hstep
    obtain ⟨prevout, hprevout, _, -, _, -, _, -, rfl⟩ := hstep
    refine foldlM_cons_ok.mpr ⟨m + prevout.2.nValue, ?_, ih h⟩
    unfold CTransaction.sumIn
    rw [hprevout]
    rfl

/-- The check of the amounts of a transaction that owes a fee, as a connected block has made it. -/
theorem checkAmounts_of_connectTx (howes : tx.OwesFee) (h : c.connectTx s tx = .ok s') :
    ∃ nValueIn, tx.getValueIn s.view = .ok nValueIn ∧ checkAmounts tx c.chainPrev nValueIn false = .ok () := by
  obtain ⟨hno, hunpark⟩ := howes
  unfold ConnectContext.connectTx at h
  obtain ⟨s₁, hcheck, -⟩ := bind_eq_ok.mp h
  obtain ⟨nValueOut, hout, -, -, hin⟩ := checkTx_figures hcheck
  obtain ⟨nValueIn, r, hvalue, hr, -⟩ := hin hno
  refine ⟨nValueIn, hvalue, ?_⟩
  unfold CTransaction.getValueIn at hvalue
  rw [if_neg (by simp [hno])] at hvalue
  unfold checkInputs at hr
  rw [if_neg (by simp [hno])] at hr
  obtain ⟨_, -, hr⟩ := bind_eq_ok.mp hr
  split at hr
  · cases hr
  · obtain ⟨nSum, hsum, hr⟩ := bind_eq_ok.mp hr
    obtain ⟨fValidUnpark, hvalid, hr⟩ := bind_eq_ok.mp hr
    obtain ⟨_, hamounts, -⟩ := bind_eq_ok.mp hr
    rw [checkUnparks_of_not_unpark (by simp [hunpark])] at hvalid
    cases hvalid
    obtain rfl := Except.ok.inj (hvalue.symm.trans (sumIn_of_checkTxIn hsum))
    exact hamounts

/-- The outputs of a transaction that passes have a value. -/
theorem getValueOut_of_check (h : tx.checkTransaction = .ok ()) : ∃ nValueOut, tx.getValueOut = .ok nValueOut := by
  have hrange : ∀ txout ∈ tx.vout, moneyRange txout.nValue = true :=
    fun txout hmem => CTransaction.checkTransaction_moneyRange h hmem
  have hsum : ∀ {l : List CTxOut} {m n : Int}, (∀ txout ∈ l, moneyRange txout.nValue = true) →
      l.foldlM tx.checkTxOut m = .ok n → CTransaction.sumOut m l = .ok n := by
    intro l
    induction l with
    | nil =>
      intro m n _ hl
      cases hl
      rfl
    | cons txout l ih =>
      intro m n hl hfold
      obtain ⟨m', hstep, hfold⟩ := foldlM_cons_ok.mp hfold
      obtain ⟨-, -, -, hlow, hhigh, rfl⟩ := CTransaction.checkTxOut_eq_ok.mp hstep
      rw [CTransaction.sumOut, hl txout List.mem_cons_self, moneyRange_iff.mpr ⟨hlow, hhigh⟩]
      exact ih (fun t ht => hl t (List.mem_cons_of_mem _ ht)) hfold
  unfold CTransaction.checkTransaction at h
  simp only [bind_eq_ok, rejectIf_eq_ok] at h
  obtain ⟨-, -, -, -, -, -, -, -, -, -, nValueOut, houts, -⟩ := h
  exact ⟨nValueOut, hsum hrange houts⟩

/-- The chain before a block has a fee for each available unit. -/
theorem getUnitMinFee_of_check {chainPrev : List CBlockIndex} (h : tx.checkTransaction = .ok ())
    (hfees : ∀ p ∈ chainPrev, p.mapVotedFee.Each (· < 2 ^ 32)) :
    ∃ nUnitFee, tx.getUnitMinFeeFromPrevBlock chainPrev = .ok nUnitFee ∧ nUnitFee ≤ maxMoney := by
  obtain ⟨hunit, -⟩ := CTransaction.checkTransaction_unit h
  have hall : ∀ p ∈ ({} : CBlockIndex) :: chainPrev, p.mapVotedFee.Each (· < 2 ^ 32) :=
    List.forall_mem_cons.mpr ⟨⟨fun _ hx => (nomatch hx), fun _ hx => (nomatch hx)⟩, hfees⟩
  obtain ⟨nUnitFee, hfee⟩ : ∃ nUnitFee, tx.getUnitMinFeeFromPrevBlock chainPrev = .ok nUnitFee := by
    unfold CTransaction.getUnitMinFeeFromPrevBlock chainMinFee
    cases hp : (({} : CBlockIndex) :: chainPrev)[min feeVoteDelayBlocks ((({} : CBlockIndex) :: chainPrev).length - 1)]? with
    | none =>
      rw [List.getElem?_eq_none_iff, List.length_cons] at hp
      omega
    | some p =>
      obtain ⟨fee, hfee, -⟩ := getVotedMinFee_ok hunit (hall p (List.mem_of_getElem? hp))
      exact ⟨fee, hfee⟩
  exact ⟨nUnitFee, hfee, chainMinFee_le hall hunit hfee⟩

/-- **When a block is asked for the fees by size.** Of a connected block the check of the amounts demands the fee for
each thousand bytes of every transaction that owes one, whatever its inputs are worth, if and only if all of these have
fewer than 1000 bytes or their unit has no fee; and then all of them pay it. -/
theorem demandsBySize_iff {fJustCheck : Bool} {nAdjustedTime : Int} {r : Connected}
    (h : c.connectBlock block view fJustCheck nAdjustedTime = .ok r)
    (hfees : ∀ p ∈ c.chainPrev, p.mapVotedFee.Each (· < 2 ^ 32)) :
    (DemandsBySize c block ↔ SmallOrFree c block) ∧ (SmallOrFree c block → BlockPaysBySize c block view) := by
  have hchecked : block.Checked c.cr := by
    unfold ConnectContext.connectBlock at h
    obtain ⟨_, hcheck, -⟩ := bind_eq_ok.mp h
    exact CBlock.checkBlock_ok hcheck
  have hfee : ∀ tx ∈ block.vtx, ∃ nUnitFee, tx.getUnitMinFeeFromPrevBlock c.chainPrev = .ok nUnitFee ∧
      nUnitFee ≤ maxMoney := fun tx htx => getUnitMinFee_of_check (hchecked.txs tx htx).1 hfees
  have hpays : ∀ tx ∈ block.vtx, (tx.serializeSize < 1000 ∨ tx.getUnitMinFeeFromPrevBlock c.chainPrev = .ok 0) →
      ∀ nValueIn, checkAmounts tx c.chainPrev nValueIn false = .ok () → tx.PaysBySize c.chainPrev nValueIn := by
    intro tx htx hsmall nValueIn hamounts
    refine checkAmounts_pays hsmall (fun fee hfee' => ?_) hamounts
    obtain ⟨fee', hfee'', hle⟩ := hfee tx htx
    exact Except.ok.inj (hfee''.symm.trans hfee') ▸ hle
  refine ⟨⟨fun hdemands tx htx howes => ?_, fun hsmall tx htx howes => hpays tx htx (hsmall tx htx howes)⟩, ?_⟩
  · by_contra hlarge
    rw [not_or, Nat.not_lt] at hlarge
    obtain ⟨nUnitFee, hunit, -⟩ := hfee tx htx
    obtain ⟨nValueOut, hout⟩ := getValueOut_of_check (hchecked.txs tx htx).1
    obtain ⟨nValueIn, hamounts, hless⟩ := exists_underpaid hlarge.1 hunit (fun h0 => hlarge.2 (h0 ▸ hunit)) hout
    exact hless (hdemands tx htx howes nValueIn hamounts)
  · intro hsmall hg before tx after s hvtx hs howes
    obtain ⟨-, -, -, s', hs', -⟩ := connectBlock_ok h hg
    rw [hvtx] at hs'
    obtain ⟨s₁, hs₁, hrest⟩ := foldlM_append_ok.mp hs'
    cases hs.symm.trans hs₁
    obtain ⟨s₂, hstep, -⟩ := foldlM_cons_ok.mp hrest
    obtain ⟨nValueIn, hvalue, hamounts⟩ := checkAmounts_of_connectTx howes hstep
    have htx : tx ∈ block.vtx := hvtx ▸ List.mem_append_right before List.mem_cons_self
    exact ⟨nValueIn, hvalue, hpays tx htx (hsmall tx htx howes) nValueIn hamounts⟩

/-! ## A large transaction for the fee of a small one -/

/-- A transaction that spends the shares, with the fee for 1000 bytes and a script of a given length. -/
def wideSpend (nLength : Nat) : CTransaction :=
  { spendShares unitShare with vout := [{ nValue := 490000, scriptPubKey := List.replicate nLength opReturn }] }

/-- A block with this transaction. -/
def wideBlock (nLength : Nat) : CBlock := sampleBlock 5 4 1400000000 [unitCoinbase, wideSpend nLength]

/-- No fees were voted on the chain before it. -/
theorem unitContext_fees : ∀ p ∈ unitContext.chainPrev, p.mapVotedFee.Each (· < 2 ^ 32) := by
  have hnone : ∀ p ∈ unitContext.chainPrev, p.mapVotedFee = {} := by decide +kernel
  intro p hp
  rw [hnone p hp]
  exact ⟨fun _ hx => (nomatch hx), fun _ hx => (nomatch hx)⟩

/-- With a short script the block pays by size, and has to. -/
theorem demandsBySize_sample : DemandsBySize unitContext (wideBlock 10) ∧
    BlockPaysBySize unitContext (wideBlock 10) sharesView := by
  have hok : (unitContext.connectBlock (wideBlock 10) sharesView false 1400000000).isOk = true := by decide +kernel
  have hsmall : SmallOrFree unitContext (wideBlock 10) := by
    have hsize : ∀ tx ∈ (wideBlock 10).vtx, tx.serializeSize < 1000 := by decide +kernel
    exact fun tx htx _ => .inl (hsize tx htx)
  cases h : unitContext.connectBlock (wideBlock 10) sharesView false 1400000000 with
  | error e =>
    rw [h] at hok
    cases hok
  | ok r =>
    obtain ⟨hiff, hpays⟩ := demandsBySize_iff h unitContext_fees
    exact ⟨hiff.mpr hsmall, hpays hsmall⟩

/-- **A large transaction for the fee of a small one**: its 1102 bytes are in a block that is connected, for 10000 where
20000 are the fee. -/
theorem wideSpend_underpays :
    (unitContext.connectBlock (wideBlock 1000) sharesView false 1400000000).isOk = true ∧
      ¬ BlockPaysBySize unitContext (wideBlock 1000) sharesView := by
  refine ⟨by decide +kernel, fun h => ?_⟩
  have hok : ([unitCoinbase].foldlM unitContext.connectTx { view := sharesView }).isOk = true := by decide +kernel
  have hvalue : ([unitCoinbase].foldlM unitContext.connectTx { view := sharesView }).toOption.map
      (fun s => ((wideSpend 1000).getValueIn s.view).toOption) = some (some 500000) := by decide +kernel
  cases hs : [unitCoinbase].foldlM unitContext.connectTx { view := sharesView } with
  | error e =>
    rw [hs] at hok
    cases hok
  | ok s =>
    rw [hs] at hvalue
    obtain ⟨nValueIn, hin, nUnitFee, nValueOut, hfee, hout, hpays⟩ :=
      h (by decide +kernel) [unitCoinbase] (wideSpend 1000)
      [] s rfl hs ⟨by decide +kernel, by decide +kernel⟩
    rw [Except.toOption, Option.map_some, hin] at hvalue
    obtain rfl : nValueIn = 500000 := Option.some.inj (Option.some.inj hvalue)
    have hunit : (wideSpend 1000).getUnitMinFeeFromPrevBlock unitContext.chainPrev = .ok 10000 := by rfl
    have hsum : (wideSpend 1000).getValueOut = .ok 490000 := by rfl
    have hsize : (wideSpend 1000).serializeSize = 1102 := by decide +kernel
    have hkind : (wideSpend 1000).isCoinStake = false := by decide +kernel
    obtain rfl := Except.ok.inj (hunit.symm.trans hfee)
    obtain rfl := Except.ok.inj (hsum.symm.trans hout)
    rw [hkind, hsize] at hpays
    exact absurd hpays (by decide)

end Blocks

end Morcochain
