import Morcochain.Interpreter
import Morcochain.ScriptNumbers

/-!
# Runs of scripts

What the interpreter does over a part of a script: pushes of data put it on the stack, small numbers put themselves, and
`OP_CHECKMULTISIG` takes its arguments off again.

* `evalScript_of_run` : the interpreter runs over a whole script.
* `runScript_pushes`, `runFrom_takePubkeys` : **pushes put their data on the stack**, the last one on top.
* `execCheckMultisig_eq` : **the check leaves the result of the loop.**
-/

set_option autoImplicit false

namespace Morcochain

/-! ## Operations read -/

/-- An operation that pushes data has an opcode of the pushes. -/
theorem getOp_push_opcode {s : CScript} {o : Op} (h : getOp s = some o) (hv : o.vch ≠ []) : o.opcode ≤ opPushdata4 := by
  have hoperand : ∀ {opcode : UInt8} {nSize : Nat} {pc : CScript}, opcode ≤ opPushdata4 →
      getOperand opcode nSize pc = some o → o.opcode ≤ opPushdata4 := by
    intro opcode nSize pc hle hget
    unfold getOperand at hget
    split at hget
    · cases hget
    · cases hget
      exact hle
  cases s with
  | nil => cases h
  | cons opcode pc =>
    rw [getOp] at h
    split_ifs at h with h1 h2 h3 h4 h5 h6
    · exact hoperand (Std.le_of_lt (Std.lt_trans h1 (by decide))) h
    · exact hoperand (by rw [h2]; decide) h
    · exact hoperand (by rw [h4]; decide) h
    · exact hoperand (by rw [h6]; exact Std.le_refl _) h
    · cases h
      exact absurd rfl hv

/-- An operation that is not a push has no data. -/
theorem getOp_vch_nil {s : CScript} {o : Op} (h : getOp s = some o) (hop : opPushdata4 < o.opcode) : o.vch = [] :=
  Decidable.byContradiction fun hv => Std.not_le.mpr hop (getOp_push_opcode h hv)

/-- An operation is at most five bytes longer than what it pushes. -/
theorem getOp_length {s : CScript} {o : Op} (h : getOp s = some o) : s.length ≤ o.vch.length + 5 + o.rest.length := by
  have hoperand : ∀ {opcode : UInt8} {nSize : Nat} {pc : CScript}, getOperand opcode nSize pc = some o →
      pc.length = o.vch.length + o.rest.length := by
    intro opcode nSize pc hget
    unfold getOperand at hget
    split at hget
    · cases hget
    · cases hget
      rw [← List.length_append, List.take_append_drop]
  cases s with
  | nil => cases h
  | cons opcode pc =>
    rw [getOp] at h
    rw [List.length_cons]
    split_ifs at h with h1 h2 h3 h4 h5 h6
    · have := hoperand h
      omega
    · have := hoperand h
      rw [List.length_drop] at this
      omega
    · have := hoperand h
      rw [List.length_drop] at this
      omega
    · have := hoperand h
      rw [List.length_drop] at this
      omega
    · cases h
      dsimp only
      omega

/-! ## Runs -/

section Runs

variable (c : SigContext)

/-- The loop of `EvalScript`, over the rest of a script. -/
def runScript (st : ExecState) (s : CScript) : Option ExecState :=
  if (parseOps s).2 then (parseOps s).1.foldlM (execOp c) st else none

/-- The loop of `EvalScript`, from an operation that has been read. -/
def runFrom (st : ExecState) (o : Op) : Option ExecState := (execOp c st o).bind fun st => runScript c st o.rest

variable {c}

theorem runScript_nil (st : ExecState) : runScript c st [] = some st := by
  rw [runScript, parseOps_nil]
  rfl

theorem runScript_of_getOp {s : CScript} {o : Op} (h : getOp s = some o) (st : ExecState) :
    runScript c st s = runFrom c st o := by
  rw [runScript, parseOps_cons h, runFrom]
  dsimp only
  rw [List.foldlM_cons]
  by_cases hend : (parseOps o.rest).2 = true
  · rw [if_pos hend]
    refine Option.bind_congr fun st' _ => ?_
    rw [runScript, if_pos hend]
  · rw [if_neg hend, eq_comm, Option.bind_eq_none_iff]
    intro st' _
    rw [runScript, if_neg hend]

/-- **A script that runs to its end** with no open conditional leaves its stack. -/
theorem evalScript_of_run {stack : Stack} {script : CScript} {st : ExecState} (hsize : script.length ≤ 10000)
    (hrun : runScript c { stack := stack, scriptCode := script } script = some st) (hopen : st.vfExec = []) :
    evalScript c stack script = some st.stack := by
  unfold runScript at hrun
  split at hrun
  · rename_i hend
    unfold evalScript
    rw [if_neg (Nat.not_lt.mpr hsize)]
    dsimp only [Option.bind_eq_bind]
    rw [hrun, Option.bind_some, hend]
    simp [hopen]
  · cases hrun

/-! ### Pushes -/

theorem isDisabled_of_le {opcode : UInt8} (h : opcode ≤ op16) : isDisabled opcode = false := by
  refine Bool.eq_false_iff.mpr fun hdis => ?_
  have hmem := List.contains_iff_mem.mp hdis
  have hbig : ∀ b ∈ ([0x7e, 0x7f, 0x80, 0x81, 0x83, 0x84, 0x85, 0x86, 0x8d, 0x8e, 0x95, 0x96, 0x97, 0x98, 0x99] : Bytes),
      op16 < b := by decide +kernel
  exact absurd h (Std.not_le.mpr (hbig opcode hmem))

/-- **A push** puts its data on the stack. -/
theorem execOp_push {st : ExecState} {o : Op} (hop : o.opcode ≤ opPushdata4) (hv : o.vch.length ≤ 520)
    (hopen : st.vfExec = []) (hroom : st.stack.length + st.altstack.length < 1000) :
    execOp c st o = some { st with stack := o.vch :: st.stack } := by
  have hle : o.opcode ≤ op16 := Std.le_trans hop (by decide)
  have hroom' : ¬ st.stack.length + 1 + st.altstack.length > 1000 := by omega
  unfold execOp
  simp [hopen, hop, isDisabled_of_le hle, Std.not_lt.mpr hle, Nat.not_lt.mpr hv, hroom']

/-- A small number puts itself on the stack. -/
theorem execOp_smallInteger {st : ExecState} {o : Op} (hop1 : op1 ≤ o.opcode) (hop16 : o.opcode ≤ op16)
    (hv : o.vch = [])
    (hopen : st.vfExec = []) (hroom : st.stack.length + st.altstack.length < 1000) :
    execOp c st o = some { st with stack := bigNumVch (decodeOpN o.opcode) :: st.stack } := by
  have hbig : ¬ o.opcode ≤ opPushdata4 := Std.not_le.mpr (Std.lt_of_lt_of_le (by decide) hop1)
  have hne : o.opcode ≠ op0 := fun h => absurd hop1 (by rw [h]; decide)
  have hnat : 0x50 ≤ o.opcode.toNat := Nat.le_trans (by decide : 0x50 ≤ op1.toNat) (UInt8.le_iff_toNat_le.mp hop1)
  have hnumber : (o.opcode.toNat : Int) - 0x50 = decodeOpN o.opcode := by
    rw [decodeOpN, if_neg hne]
    omega
  have hexec : ∀ st : ExecState,
    execOpcode c true o st = some { st with stack := bigNumVch (decodeOpN o.opcode) :: st.stack } := by
    intro st
    unfold execOpcode
    rw [if_pos (Or.inr ⟨hop1, hop16⟩), hnumber]
  have hroom' : ¬ st.stack.length + 1 + st.altstack.length > 1000 := by omega
  unfold execOp
  simp [hopen, hbig, isDisabled_of_le hop16, Std.not_lt.mpr hop16, hv, hexec, hroom']

/-- **Pushes of data** put it on the stack, the last one on top. -/
theorem runScript_pushes (rest : CScript) : ∀ (values : List Bytes) (st : ExecState), (∀ v ∈ values, v.length ≤ 520) →
    st.vfExec = [] → values.length + st.stack.length + st.altstack.length ≤ 1000 →
    runScript c st (values.flatMap pushData ++ rest) = runScript c { st with stack := values.reverse ++ st.stack } rest
  | [], _, _, _, _ => rfl
  | v :: values, st, hv, hopen, hroom => by
    rw [List.length_cons] at hroom
    obtain ⟨hv, hvs⟩ := List.forall_mem_cons.mp hv
    obtain ⟨opcode, hop, hget⟩ := getOp_pushData (Nat.le_trans hv (by decide)) (values.flatMap pushData ++ rest)
    have hroom' : st.stack.length + st.altstack.length < 1000 := by omega
    have htail := runScript_pushes rest values { st with stack := v :: st.stack } hvs hopen
      (by dsimp only; rw [List.length_cons]; omega)
    rw [List.flatMap_cons, List.append_assoc, runScript_of_getOp hget, runFrom, execOp_push hop hv hopen hroom',
      Option.bind_some]
    dsimp only
    rw [htail, List.reverse_cons, List.append_assoc]
    rfl

/-- What the loop at `OP_PUBKEYS` takes first. -/
theorem takePubkeys_of_getOp {o o' : Op} (hsize : 33 ≤ o.vch.length ∧ o.vch.length ≤ 120)
    (hget : getOp o.rest = some o') :
    takePubkeys o = (o.vch :: (takePubkeys o').1, (takePubkeys o').2) := by
  rw [takePubkeys, if_pos hsize]
  split
  · rename_i hnone
    cases hget.symm.trans hnone
  · rename_i o'' hget'
    cases hget.symm.trans hget'
    rfl

/-- The operation that follows the public keys, and their size. -/
theorem getOp_takePubkeys (o : Op) : ∀ {s : CScript}, getOp s = some o → (takePubkeys o).2.opcode ≠ opInvalidopcode →
    ∃ s', getOp s' = some (takePubkeys o).2 ∧ s.length ≤ 125 * (takePubkeys o).1.length + s'.length := by
  induction o using takePubkeys.induct with
  | case1 o hsize hget =>
    intro s _ hvalid
    rw [takePubkeys, if_pos hsize] at hvalid
    split at hvalid
    · exact absurd rfl hvalid
    · rename_i o' hget'
      cases hget.symm.trans hget'
  | case2 o hsize o' hget _ _ _ _ ih =>
    intro s hs hvalid
    rw [takePubkeys_of_getOp hsize hget] at hvalid ⊢
    obtain ⟨s', hs', hlen⟩ := ih hget hvalid
    have hop := getOp_length hs
    refine ⟨s', hs', ?_⟩
    dsimp only
    rw [List.length_cons]
    omega
  | case3 o hsize =>
    intro s hs _
    rw [takePubkeys, if_neg hsize]
    exact ⟨s, hs, Nat.le_add_left s.length _⟩

/-- **The public keys** of a script are put on the stack, up to the operation that follows them. -/
theorem runFrom_takePubkeys (o : Op) : ∀ {s : CScript} (st : ExecState), getOp s = some o →
    (takePubkeys o).2.opcode ≠ opInvalidopcode → st.vfExec = [] →
    (takePubkeys o).1.length + st.stack.length + st.altstack.length ≤ 1000 →
    runFrom c st o = runFrom c { st with stack := (takePubkeys o).1.reverse ++ st.stack } (takePubkeys o).2 := by
  induction o using takePubkeys.induct with
  | case1 o hsize hget =>
    intro s st _ hvalid
    rw [takePubkeys, if_pos hsize] at hvalid
    split at hvalid
    · exact absurd rfl hvalid
    · rename_i o' hget'
      cases hget.symm.trans hget'
  | case2 o hsize o' hget _ _ _ _ ih =>
    intro s st hs hvalid hopen hroom
    rw [takePubkeys_of_getOp hsize hget] at hvalid hroom ⊢
    dsimp only at hvalid hroom ⊢
    rw [List.length_cons] at hroom
    have hne : o.vch ≠ [] := fun hempty => by
      rw [hempty] at hsize
      exact absurd hsize.1 (by decide)
    have htail := ih { st with stack := o.vch :: st.stack } hget hvalid hopen
      (by dsimp only; rw [List.length_cons]; omega)
    rw [runFrom, execOp_push (getOp_push_opcode hs hne) (by omega) hopen (by omega), Option.bind_some,
      runScript_of_getOp hget, htail, List.reverse_cons, List.append_assoc]
    rfl
  | case3 o hsize =>
    intro s st _ _ _ _
    rw [takePubkeys, if_neg hsize]
    rfl

/-! ### Checks of signatures -/

/-- **`OP_CHECKMULTISIG`** takes its arguments and one entry more off the stack, and leaves the result of the loop. -/
theorem execCheckMultisig_eq {scriptCode : CScript} {nOpCount : Nat} {keys sigs : List Bytes} {dummy : Bytes}
    {stack : Stack} (hkeys : keys.length ≤ 20) (hsigs : sigs.length ≤ keys.length)
    (hcount : nOpCount + keys.length ≤ 201) :
    execCheckMultisig c false scriptCode nOpCount
        (bigNumVch keys.length :: (keys ++ bigNumVch sigs.length :: (sigs ++ dummy :: stack))) =
      some (vchBool (checkMultisigLoop (checkSigOp c
        (sigs.foldl (fun code vchSig => findAndDelete (pushData vchSig) code) scriptCode)) sigs keys) :: stack,
        nOpCount + keys.length) := by
  have hnumber : ∀ {n : Nat}, n ≤ 20 → castToBigNum (bigNumVch n) = some (n : Int) ∧ bigNumGetint (n : Int) = n := by
    intro n hn
    have hsmall : (n : Int).natAbs < 2 ^ 31 := by
      rw [Int.natAbs_natCast]
      omega
    exact ⟨castToBigNum_bigNumVch hsmall, bigNumGetint_of_lt hsmall⟩
  obtain ⟨hcastK, hgetK⟩ := hnumber hkeys
  obtain ⟨hcastS, hgetS⟩ := hnumber (Nat.le_trans hsigs hkeys)
  have hargK : (bigNumVch keys.length :: (keys ++ bigNumVch sigs.length :: (sigs ++ dummy :: stack)))[0]?
      = some (bigNumVch keys.length) := rfl
  have hargS : (bigNumVch keys.length :: (keys ++ bigNumVch sigs.length :: (sigs ++ dummy :: stack)))[keys.length + 1]?
      = some (bigNumVch sigs.length) := by
    rw [List.getElem?_cons_succ, List.getElem?_append_right (Nat.le_refl _), Nat.sub_self]
    rfl
  have hlen : 3 + keys.length + sigs.length ≤
      (bigNumVch keys.length :: (keys ++ bigNumVch sigs.length :: (sigs ++ dummy :: stack))).length := by
    simp only [List.length_cons, List.length_append]
    omega
  have htakeK : ((bigNumVch keys.length :: (keys ++ bigNumVch sigs.length :: (sigs ++ dummy :: stack))).drop 1).take
      keys.length = keys := List.take_left
  have hdropK : (bigNumVch keys.length :: (keys ++ bigNumVch sigs.length :: (sigs ++ dummy :: stack))).drop
      (keys.length + 2) = sigs ++ dummy :: stack := by
    rw [List.drop_succ_cons, ← List.drop_drop, List.drop_left]
    rfl
  have hdropS : (bigNumVch keys.length :: (keys ++ bigNumVch sigs.length :: (sigs ++ dummy :: stack))).drop
      (3 + keys.length + sigs.length) = stack := by
    have hadd : 3 + keys.length + sigs.length = keys.length + 2 + (sigs.length + 1) := by omega
    rw [hadd, ← List.drop_drop, hdropK, ← List.drop_drop, List.drop_left]
    rfl
  unfold execCheckMultisig
  dsimp only [Option.bind_eq_bind]
  rw [hargK, Option.bind_some, hcastK, Option.bind_some, hgetK, Int.toNat_natCast, hargS, Option.bind_some, hcastS,
    Option.bind_some, hgetS, Int.toNat_natCast, htakeK, hdropK, hdropS, List.take_left]
  have hrangeK : ¬ ((keys.length : Int) < 0 ∨ (keys.length : Int) > 20) := by omega
  have hrangeS : ¬ ((sigs.length : Int) < 0 ∨ (sigs.length : Int) > keys.length) := by omega
  rw [if_neg hrangeK, if_neg (Nat.not_lt.mpr hcount), if_neg hrangeS, if_neg (Nat.not_lt.mpr hlen)]
  rfl

/-- The operation `OP_CHECKMULTISIG` of a script. -/
theorem execOp_checkMultisig {st : ExecState} {o : Op} {keys sigs : List Bytes} {dummy : Bytes} {stack : Stack}
    (hstack : st.stack = bigNumVch keys.length :: (keys ++ bigNumVch sigs.length :: (sigs ++ dummy :: stack)))
    (hop : o.opcode = opCheckmultisig) (hv : o.vch = []) (hopen : st.vfExec = [])
    (hkeys : keys.length ≤ 20) (hsigs : sigs.length ≤ keys.length) (hcount : st.nOpCount + 1 + keys.length ≤ 201)
    (hroom : stack.length + st.altstack.length < 1000) :
    execOp c st o = some { st with
      stack := vchBool (checkMultisigLoop (checkSigOp c
        (sigs.foldl (fun code vchSig => findAndDelete (pushData vchSig) code) st.scriptCode)) sigs keys) :: stack
      nOpCount := st.nOpCount + 1 + keys.length } := by
  have hexec : ∀ st' : ExecState, execOpcode c true o st' =
      (execCheckMultisig c false st'.scriptCode st'.nOpCount st'.stack).map
        (fun r => { st' with stack := r.1, nOpCount := r.2 }) := by
    intro st'
    unfold execOpcode
    rw [hop]
    rfl
  have hbig : op16 < o.opcode := by
    rw [hop]
    decide
  have hpush : ¬ o.opcode ≤ opPushdata4 := by
    rw [hop]
    decide
  have hdis : isDisabled o.opcode = false := by
    rw [hop]
    decide
  have hcount' : ¬ st.nOpCount + 1 > 201 := by omega
  have hroom' : ¬ stack.length + 1 + st.altstack.length > 1000 := by omega
  unfold execOp
  simp [hopen, hbig, hpush, hdis, hv, hexec, hstack, execCheckMultisig_eq hkeys hsigs hcount, hcount', hroom']

end Runs

end Morcochain
