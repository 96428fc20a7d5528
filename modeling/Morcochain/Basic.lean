import Morcochain.Lib.Guard

/-!
# Constants, amounts and outcomes of validation

The network rules fixed at compile time (`main.h`, `kernel.h`, `util.h`), the units, and `Failure`: the ways in which
a validation routine of the node returns `false`. Which of them invalidates the `CValidationState` that the routine
was given is `Failure.invalidates`.
-/

namespace Morcochain

/-- A byte vector (`std::vector<unsigned char>`). -/
abbrev Bytes := List UInt8

instance lawfulOrderLT_bytes : Std.LawfulOrderLT Bytes := inferInstance

/-- A 256-bit hash, target or trust value. The null hash is `0`. -/
abbrev Uint256 := Nat

/-- The unit of a transaction (`unsigned char cUnit`). -/
abbrev CUnit := UInt8

/-! ## Network rules -/

def coin : Int := 10000
def cent : Int := 100
def maxMoney : Int := 2000000000 * coin
def maxBlockSize : Nat := 1000000
def maxBlockSigops : Nat := maxBlockSize / 50
def maxStandardTxSize : Nat := maxBlockSize / 4
def maxOrphanTransactions : Nat := maxBlockSize / 100
def maxCoinstakeSize : Nat := 1000
def minShareTxFee : Int := coin
def minShareTxoutAmount : Int := minShareTxFee
def minCurrencyTxFee : Int := cent
def minCurrencyTxoutAmount : Int := minCurrencyTxFee
def mempoolHeight : Nat := 0x7FFFFFFF
def locktimeThreshold : Int := 500000000
def stakeTargetSpacing : Int := 60
def stakeMinAge : Int := 60 * 60 * 24 * 7
def stakeMaxAge : Int := stakeMinAge + 1
def ipoShares : Int := 1000000000 * coin
def proofOfWorkBlocks : Int := 400
def parkRateVotes : Nat := 2000
def parkRatePreviousVotes : Nat := 1440
def custodianVotes : Nat := 10000
def parkRateVoteDelay : Int := 60
def proofOfStakeReward : Int := 40 * coin
def minCoinstakeValue : Int := 10000 * coin
def maxCoinAge : Int := 100000000000000
def feeVoteDelayBlocks : Nat := 60
def feeVotes : Nat := 2000
def safeFeeBlocks : Nat := 10
def nMaxClockDrift : Int := 2 * 60 * 60

/-- `MoneyRange`. -/
def moneyRange (nValue : Int) : Bool := 0 ≤ nValue ∧ nValue ≤ maxMoney

@[simp] theorem moneyRange_iff {nValue : Int} : moneyRange nValue = true ↔ 0 ≤ nValue ∧ nValue ≤ maxMoney := by
  simp [moneyRange]

/-! ## Units -/

/-- The unit of the shares, `'S'`. -/
def unitShare : CUnit := 0x53

/-- The unit of the only currency, `'B'`. -/
def unitCurrency : CUnit := 0x42

/-- The unit of a transaction that has not been given one, `'?'`. -/
def unitUnknown : CUnit := 0x3f

/-- `sAvailableUnits`. -/
def sAvailableUnits : List CUnit := [unitShare, unitCurrency]

/-- `IsValidUnit`. -/
def isValidUnit (cUnit : CUnit) : Bool := sAvailableUnits.contains cUnit

/-- `IsValidCurrency`. -/
def isValidCurrency (cUnit : CUnit) : Bool := cUnit != unitShare && isValidUnit cUnit

/-- `GetDefaultFee`. -/
def getDefaultFee (cUnit : CUnit) : Int :=
  if cUnit = unitShare then coin else if cUnit = unitCurrency then cent else maxMoney

/-- `MinTxOutAmount`. -/
def minTxOutAmount (cUnit : CUnit) : Int :=
  if cUnit = unitShare then minShareTxoutAmount else minCurrencyTxoutAmount

/-! ## Outcomes -/

/-- The ways in which a validation routine stops. -/
inductive Failure where
  /-- `return state.DoS(level, error(msg), corruption)`. -/
  | dos (level : Nat) (corruption : Bool) (msg : String)
  /-- `return error(msg)`: the state is not told. -/
  | error (msg : String)
  /-- `return state.Abort(msg)`: a run-time failure of the node. -/
  | abort (msg : String)
  /-- A C++ exception leaves the routine. -/
  | exception (msg : String)
  /-- An assertion of the routine does not hold. -/
  | assertion (msg : String)
deriving DecidableEq, Repr

/-- The failure is one that the routine reports with `state.DoS` or `state.Invalid`. -/
def Failure.invalidates : Failure → Bool
  | .dos .. => true
  | _ => false

/-- The routine returns `false` because of what it was given to check: it neither throws, nor stops the process, nor
fails on input and output. -/
def Failure.isRejection : Failure → Bool
  | .dos .. => true
  | .error _ => true
  | _ => false

/-- A validation routine with result `α`. -/
abbrev Check (α : Type) := Except Failure α

/-- `state.DoS(level, error(msg))` when `c` holds. -/
abbrev dosIf (c : Prop) [Decidable c] (level : Nat) (msg : String) : Check Unit :=
  Guard.rejectIf c (.dos level false msg)

/-- `return error(msg)` when `c` holds. -/
abbrev errorIf (c : Prop) [Decidable c] (msg : String) : Check Unit := Guard.rejectIf c (.error msg)

/-- Every failure of the routine is reported to the state it was given. -/
abbrev Attributed {α : Type} (x : Check α) : Prop := Guard.FailsIn (fun e => e.invalidates = true) x

theorem attributed_dosIf {c : Prop} [Decidable c] {level : Nat} {msg : String} : Attributed (dosIf c level msg) :=
  Guard.FailsIn.rejectIf fun _ => rfl

/-- The failure is a rejection that the state is not told of. -/
def Failure.isSilent (e : Failure) : Prop := ∃ msg, e = .error msg

@[simp] theorem Failure.isSilent_error (msg : String) : (Failure.error msg).isSilent := ⟨msg, rfl⟩

@[simp] theorem Failure.not_isSilent_dos (level : Nat) (corruption : Bool) (msg : String) :
    ¬ (Failure.dos level corruption msg).isSilent := fun ⟨_, h⟩ => nomatch h

@[simp] theorem Failure.not_isSilent_exception (msg : String) : ¬ (Failure.exception msg).isSilent :=
  fun ⟨_, h⟩ => nomatch h

@[simp] theorem Failure.not_isSilent_assertion (msg : String) : ¬ (Failure.assertion msg).isSilent :=
  fun ⟨_, h⟩ => nomatch h

/-- A rejection is reported exactly when it is not silent. -/
theorem Failure.invalidates_iff {e : Failure} (h : e.isRejection = true) : e.invalidates = true ↔ ¬ e.isSilent := by
  cases e <;> simp_all [isRejection, invalidates, isSilent]

/-- The routine returns false without telling the state. -/
abbrev Silent {α : Type} (x : Check α) : Prop := Guard.Stops Failure.isSilent x

theorem Failure.not_isSilent_of_invalidates (e : Failure) (h : e.invalidates = true) : ¬ e.isSilent := by
  rintro ⟨msg, rfl⟩
  cases h

theorem Attributed.not_silent {α : Type} {x : Check α} (h : Attributed x) : ¬ Silent x :=
  Guard.FailsIn.not_stops h Failure.not_isSilent_of_invalidates

@[simp] theorem not_silent_dosIf {c : Prop} [Decidable c] {level : Nat} {msg : String} :
    ¬ Silent (dosIf c level msg) := attributed_dosIf.not_silent

@[simp] theorem silent_errorIf {c : Prop} [Decidable c] {msg : String} : Silent (errorIf c msg) ↔ c :=
  Guard.stops_rejectIf.trans (and_iff_left ⟨msg, rfl⟩)

/-- A routine that does not fail silently, and then another one. -/
theorem silent_bind {α β : Type} {x : Check α} {f : α → Check β} (h : ¬ Silent x) :
    Silent (x >>= f) ↔ ∃ a, x = .ok a ∧ Silent (f a) :=
  Guard.stops_bind.trans (or_iff_right h)

/-- What is made of the result does not matter. -/
theorem silent_bind_ok {α β : Type} {x : Check α} {g : α → β} : Silent (x >>= fun a => .ok (g a)) ↔ Silent x := by
  refine Guard.stops_bind.trans ?_
  simp

/-- A rule of which the state is not told, and then another routine. -/
theorem silent_errorIf_bind {α : Type} {c : Prop} [Decidable c] {msg : String} {f : Unit → Check α} :
    Silent (errorIf c msg >>= f) ↔ c ∨ Silent (f ()) := by
  refine Guard.stops_bind.trans ?_
  by_cases h : c
  · simp [h]
  · simp only [h, Guard.stops_rejectIf, Guard.rejectIf_eq_ok, not_false_eq_true, true_and, false_and, false_or]
    constructor
    · rintro ⟨_, hf⟩
      exact hf
    · intro hf
      exact ⟨(), hf⟩

/-- A rule of which the state is told, and then another routine. -/
theorem silent_dosIf_bind {α : Type} {c : Prop} [Decidable c] {level : Nat} {msg : String} {f : Unit → Check α} :
    Silent (dosIf c level msg >>= f) ↔ ¬ c ∧ Silent (f ()) := by
  refine Guard.stops_bind.trans ?_
  by_cases h : c
  · simp [h]
  · simp only [h, Guard.stops_rejectIf, Guard.rejectIf_eq_ok, not_false_eq_true, true_and, false_and, false_or]
    constructor
    · rintro ⟨_, hf⟩
      exact hf
    · intro hf
      exact ⟨(), hf⟩

/-- `enum mode_state`. -/
inductive ModeState where
  | valid
  | invalid
  | error
deriving DecidableEq, Repr

/-- `CValidationState`. -/
structure CValidationState where
  mode : ModeState := .valid
  nDoS : Nat := 0
  corruptionPossible : Bool := false
deriving DecidableEq, Repr

namespace CValidationState

/-- `CValidationState::DoS`. -/
def dos (state : CValidationState) (level : Nat) (corruptionIn : Bool) : CValidationState :=
  if state.mode = .error then state
  else { state with nDoS := state.nDoS + level, mode := .invalid, corruptionPossible := corruptionIn }

/-- `CValidationState::Error`. -/
def error (state : CValidationState) : CValidationState := { state with mode := .error }

/-- The state after a routine that was given `state` stopped with a failure. -/
def apply (state : CValidationState) : Failure → CValidationState
  | .dos level corruption _ => state.dos level corruption
  | .abort _ => state.error
  | _ => state

/-- `CValidationState::IsInvalid`. -/
def isInvalid (state : CValidationState) : Bool := state.mode == .invalid

/-- A state that was valid is invalid after a failure exactly when the failure is one that invalidates. -/
theorem isInvalid_apply {state : CValidationState} (h : state.mode = .valid) (e : Failure) :
    (state.apply e).isInvalid = e.invalidates := by
  cases e <;> simp [apply, isInvalid, Failure.invalidates, dos, error, h]

end CValidationState

/-! ## Chance -/

/-- `GetRandInt`, from what the random source gives. -/
def getRandInt (nMax nRand : Nat) : Nat := if nMax = 0 then 0 else nRand % nMax

theorem getRandInt_lt {nMax : Nat} (h : 0 < nMax) (nRand : Nat) : getRandInt nMax nRand < nMax := by
  unfold getRandInt
  rw [if_neg (by omega)]
  exact Nat.mod_lt _ h

/-- A random position is a position of the list, or its end. -/
theorem getRandInt_le (nMax nRand : Nat) : getRandInt nMax nRand ≤ nMax := by
  unfold getRandInt
  split
  · exact Nat.zero_le _
  · exact Nat.le_of_lt (Nat.mod_lt _ (by omega))

end Morcochain
