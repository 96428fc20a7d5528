import Morcochain.Solver

/-!
# Context-independent checks of a transaction

`CTransaction::CheckTransaction`. A transaction that passes has its outputs within bounds, and each of its park outputs
can be read (`checkTransaction_park`).
-/

set_option autoImplicit false

namespace Morcochain

open Guard

namespace CTransaction

/-- The checks of one output, with the sum of the outputs before it. -/
def checkTxOut (tx : CTransaction) (nValueOut : Int) (txout : CTxOut) : Check Int := do
  dosIf (txout.isEmpty ∧ !tx.isCoinBase ∧ !tx.isCoinStake ∧ !tx.isCustodianGrant) 100
    "CTransaction::CheckTransaction() : txout empty for user transaction"
  dosIf (!txout.isEmpty ∧ txout.nValue < tx.getMinTxOutAmount ∧
      ¬ (tx.isCoinStake ∧ (txout.isVote ∨ txout.isParkRateResult))) 100
    "CTransaction::CheckTransaction() : txout.nValue below minimum"
  dosIf (txout.nValue > maxMoney) 100 "CTransaction::CheckTransaction() : txout.nValue too high"
  dosIf (!moneyRange (nValueOut + txout.nValue)) 100 "CTransaction::CheckTransaction() : txout total out of range"
  return nValueOut + txout.nValue

/-- The checks of the inputs by the kind of the transaction. -/
def checkTxIns (tx : CTransaction) : Check Unit :=
  let scriptSize := (tx.vin.head?.map (·.scriptSig.length)).getD 0
  if tx.isCoinBase then
    dosIf (scriptSize < 2 ∨ scriptSize > 100) 100 "CTransaction::CheckTransaction() : coinbase script size"
  else if tx.isCustodianGrant then
    dosIf (scriptSize ≠ 0) 100 "CTransaction::CheckTransaction() : currency coinbase script size"
  else
    dosIf (tx.vin.any (·.prevout.isNull)) 10 "CTransaction::CheckTransaction() : prevout is null"

/-- The checks of one park output. -/
def checkParkOut (tx : CTransaction) (_ : Unit) (txout : CTxOut) : Check Unit := do
  dosIf (isPark txout.scriptPubKey ∧ tx.cUnit = unitShare) 100
    "CTransaction::CheckTransaction() : parking of shares"
  dosIf (isPark txout.scriptPubKey ∧ !isValidPark txout.scriptPubKey) 100
    "CTransaction::CheckTransaction() : invalid parking transaction"

/-- `CTransaction::CheckTransaction`. -/
def checkTransaction (tx : CTransaction) : Check Unit := do
  dosIf (!isValidUnit tx.cUnit) 10 "CTransaction::CheckTransaction() : invalid unit"
  dosIf (tx.vin = []) 10 "CTransaction::CheckTransaction() : vin empty"
  dosIf (tx.vout = []) 10 "CTransaction::CheckTransaction() : vout empty"
  dosIf (tx.serializeSize > maxBlockSize) 100 "CTransaction::CheckTransaction() : size limits failed"
  dosIf (tx.cUnit ≠ unitShare ∧ (tx.isCoinBase ∨ tx.isCoinStake)) 10
    "CTransaction::CheckTransaction() : invalid unit in CoinBase or CoinStake"
  let _ ← tx.vout.foldlM tx.checkTxOut 0
  dosIf (¬ (tx.vin.map (·.prevout)).Nodup) 100 "CTransaction::CheckTransaction() : duplicate inputs"
  dosIf (tx.isCoinStake ∧ tx.serializeSize > maxCoinstakeSize) 100
    "CTransaction::CheckTransaction() : coinstake size"
  tx.checkTxIns
  tx.vout.foldlM tx.checkParkOut ()

/-! ## What the outputs satisfy -/

/-- An output passes the checks exactly when it is within bounds. -/
theorem checkTxOut_eq_ok {tx : CTransaction} {nValueOut s : Int} {txout : CTxOut} :
    tx.checkTxOut nValueOut txout = .ok s ↔
      ¬ (txout.isEmpty ∧ !tx.isCoinBase ∧ !tx.isCoinStake ∧ !tx.isCustodianGrant) ∧
      ¬ (!txout.isEmpty ∧ txout.nValue < tx.getMinTxOutAmount ∧
        ¬ (tx.isCoinStake ∧ (txout.isVote ∨ txout.isParkRateResult))) ∧
      txout.nValue ≤ maxMoney ∧ 0 ≤ nValueOut + txout.nValue ∧ nValueOut + txout.nValue ≤ maxMoney ∧
      s = nValueOut + txout.nValue := by
  unfold checkTxOut
  simp only [bind_eq_ok, rejectIf_eq_ok, exists_and_left, exists_const, pure_eq_ok, Except.ok.injEq]
  constructor
  · rintro ⟨h₁, h₂, h₃, h₄, h₅⟩
    have h₄' : 0 ≤ nValueOut + txout.nValue ∧ nValueOut + txout.nValue ≤ maxMoney := by
      simpa using h₄
    exact ⟨h₁, h₂, Int.not_lt.mp h₃, h₄'.1, h₄'.2, h₅.symm⟩
  · rintro ⟨h₁, h₂, h₃, h₄, h₅, h₆⟩
    exact ⟨h₁, h₂, Int.not_lt.mpr h₃, by simp [h₄, h₅], h₆.symm⟩

/-- Whether the park outputs pass is a matter of each one. -/
theorem checkParkOuts_eq_ok {tx : CTransaction} : ∀ {l : List CTxOut} {u : Unit}, l.foldlM tx.checkParkOut u = .ok () ↔
    ∀ txout ∈ l, isPark txout.scriptPubKey → tx.cUnit ≠ unitShare ∧ isValidPark txout.scriptPubKey
  | [], _ => by simp
  | txout :: l, u => by
    have hhead : ∀ u', tx.checkParkOut u txout = .ok u' ↔
        (isPark txout.scriptPubKey → tx.cUnit ≠ unitShare ∧ isValidPark txout.scriptPubKey) := by
      intro u'
      unfold checkParkOut
      simp only [bind_eq_ok, rejectIf_eq_ok, exists_and_left, exists_const]
      by_cases hp : isPark txout.scriptPubKey <;> simp [hp]
    rw [foldlM_cons_ok]
    simp only [hhead, checkParkOuts_eq_ok, exists_and_left, exists_const, List.mem_cons, forall_eq_or_imp]

/-- Every park output of a transaction that passes is of a currency and can be read. -/
theorem checkTransaction_park {tx : CTransaction} (h : tx.checkTransaction = .ok ()) {txout : CTxOut}
    (hmem : txout ∈ tx.vout) (hp : isPark txout.scriptPubKey) :
    tx.cUnit ≠ unitShare ∧ isValidPark txout.scriptPubKey := by
  unfold checkTransaction at h
  simp only [bind_eq_ok] at h
  obtain ⟨-, -, -, -, -, -, -, -, -, -, -, -, -, -, -, -, -, -, h⟩ := h
  exact checkParkOuts_eq_ok.mp h txout hmem hp

/-- A coinbase that passes is of shares. -/
theorem checkTransaction_coinBase {tx : CTransaction} (h : tx.checkTransaction = .ok ())
    (hbase : tx.isCoinBase = true) :
    tx.cUnit = unitShare := by
  unfold checkTransaction at h
  simp only [bind_eq_ok, rejectIf_eq_ok] at h
  obtain ⟨-, -, -, -, -, -, -, -, -, hunit, -⟩ := h
  by_contra hne
  exact hunit ⟨hne, .inl hbase⟩

/-- The inputs of a transaction that passes spend different outputs. -/
theorem checkTransaction_vin {tx : CTransaction} (h : tx.checkTransaction = .ok ()) :
    (tx.vin.map (·.prevout)).Nodup := by
  unfold checkTransaction at h
  simp only [bind_eq_ok, rejectIf_eq_ok] at h
  obtain ⟨-, -, -, -, -, -, -, -, -, -, -, -, -, hnodup, -⟩ := h
  exact not_not.mp hnodup

/-- A transaction that passes is of an available unit and fits into a block. -/
theorem checkTransaction_unit {tx : CTransaction} (h : tx.checkTransaction = .ok ()) :
    isValidUnit tx.cUnit = true ∧ tx.serializeSize ≤ maxBlockSize := by
  unfold checkTransaction at h
  simp only [bind_eq_ok, rejectIf_eq_ok] at h
  obtain ⟨-, hunit, -, -, -, -, -, hsize, -⟩ := h
  exact ⟨by simpa using hunit, Nat.not_lt.mp hsize⟩

/-- The outputs of a transaction that passes are there, and their amounts are not negative. -/
theorem checkTransaction_vout {tx : CTransaction} (h : tx.checkTransaction = .ok ()) :
    tx.vout ≠ [] ∧ ∀ txout ∈ tx.vout, 0 ≤ txout.nValue := by
  unfold checkTransaction at h
  simp only [bind_eq_ok, rejectIf_eq_ok] at h
  obtain ⟨-, -, -, -, -, hvout, -, -, -, -, _, houts, -⟩ := h
  refine ⟨hvout, fun txout hmem => ?_⟩
  obtain ⟨l₁, l₂, hsplit⟩ := List.append_of_mem hmem
  rw [hsplit] at houts
  obtain ⟨s, -, hrest⟩ := foldlM_append_ok.mp houts
  obtain ⟨s', hout, -⟩ := foldlM_cons_ok.mp hrest
  obtain ⟨-, hmin, -⟩ := checkTxOut_eq_ok.mp hout
  have hpos : 0 ≤ tx.getMinTxOutAmount := by
    unfold getMinTxOutAmount minTxOutAmount
    split <;> decide
  by_contra hneg
  have hempty : txout.isEmpty = false := by
    rw [CTxOut.isEmpty, decide_eq_false_iff_not]
    omega
  have hvote : txout.isVote = false ∧ txout.isParkRateResult = false := by
    rw [CTxOut.isVote, CTxOut.isParkRateResult, decide_eq_false_iff_not, decide_eq_false_iff_not]
    omega
  exact hmin ⟨by rw [hempty]; rfl, by omega, by simp [hvote.1, hvote.2]⟩

/-- The amounts of a transaction that passes are in range. -/
theorem checkTransaction_moneyRange {tx : CTransaction} (h : tx.checkTransaction = .ok ()) {txout : CTxOut}
    (hmem : txout ∈ tx.vout) : moneyRange txout.nValue = true := by
  have hpos := (checkTransaction_vout h).2 txout hmem
  unfold checkTransaction at h
  simp only [bind_eq_ok, rejectIf_eq_ok] at h
  obtain ⟨-, -, -, -, -, -, -, -, -, -, _, houts, -⟩ := h
  obtain ⟨l₁, l₂, hsplit⟩ := List.append_of_mem hmem
  rw [hsplit] at houts
  obtain ⟨s, -, hrest⟩ := foldlM_append_ok.mp houts
  obtain ⟨s', hout, -⟩ := foldlM_cons_ok.mp hrest
  obtain ⟨-, -, hmax, -⟩ := checkTxOut_eq_ok.mp hout
  exact moneyRange_iff.mpr ⟨hpos, hmax⟩

theorem checkTxOut_attributed (tx : CTransaction) (s : Int) (txout : CTxOut) : Attributed (tx.checkTxOut s txout) :=
  .bind attributed_dosIf fun _ _ => .bind attributed_dosIf fun _ _ => .bind attributed_dosIf fun _ _ => .bind attributed_dosIf fun _ _ => .ok _

theorem checkTxIns_attributed (tx : CTransaction) : Attributed tx.checkTxIns :=
  .ite (fun _ => attributed_dosIf) fun _ => .ite (fun _ => attributed_dosIf) fun _ => attributed_dosIf

theorem checkParkOut_attributed (tx : CTransaction) (u : Unit) (txout : CTxOut) :
    Attributed (tx.checkParkOut u txout) :=
  .bind attributed_dosIf fun _ _ => attributed_dosIf

/-- Every failure of the checks is reported to the state. -/
theorem checkTransaction_attributed (tx : CTransaction) : Attributed tx.checkTransaction :=
  .bind attributed_dosIf fun _ _ => .bind attributed_dosIf fun _ _ => .bind attributed_dosIf fun _ _ => .bind attributed_dosIf fun _ _ =>
  .bind attributed_dosIf fun _ _ => .bind (.foldlM fun s txout _ => tx.checkTxOut_attributed s txout) fun _ _ =>
  .bind attributed_dosIf fun _ _ => .bind attributed_dosIf fun _ _ => .bind tx.checkTxIns_attributed fun _ _ =>
  .foldlM fun u txout _ => tx.checkParkOut_attributed u txout

end CTransaction

end Morcochain
