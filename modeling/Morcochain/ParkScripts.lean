import Morcochain.Solver
import Morcochain.ScriptNumbers

/-!
# Park scripts

`SetPark` writes a duration and a key id after `OP_RETURN OP_3`, and `ExtractPark` reads them from the solutions of the
template `TX_PARK`. The duration is a small number or a vector of at most four bytes.

* `getOp_pushInt64` : a duration is read back as the operation that pushes it.
* `matchTemplate_setPark`, `matchTemplate_setPark_none` : **a park script is matched by its template and by no other.**
* `extractPark_setPark` : what is read is what was written.
-/

set_option autoImplicit false

namespace Morcochain

/-! ## The duration -/

/-- The solution that a duration leaves at `OP_INTEGER`. -/
def parkSolution (nDuration : Int) : Bytes :=
  if nDuration ≤ 16 then [UInt8.ofNat nDuration.toNat] else bigNumVch nDuration

section Duration

variable {nDuration : Int}

theorem parkDurationRange_iff : parkDurationRange nDuration = true ↔ 1 ≤ nDuration ∧ nDuration ≤ 1000000000 := by
  unfold parkDurationRange maxParkDuration
  rw [decide_eq_true_eq]

/-- **A duration is read back** as an operation that is matched by `OP_INTEGER`. -/
theorem getOp_pushInt64 (h : parkDurationRange nDuration = true) (rest : CScript) :
    ∃ opcode vch, getOp (pushInt64 nDuration ++ rest) = some ⟨opcode, vch, rest⟩ ∧
      matchOp opInteger opcode vch = some [parkSolution nDuration] := by
  obtain ⟨hpos, hmax⟩ := parkDurationRange_iff.mp h
  unfold pushInt64 parkSolution
  by_cases hsmall : nDuration ≤ 16
  · -- a small number is an opcode of its own
    obtain ⟨n, rfl⟩ := Int.eq_ofNat_of_zero_le (by omega : 0 ≤ nDuration)
    have hbyte : (UInt8.ofNat ((n : Int) + 0x50).toNat).toNat = n + 0x50 := by
      rw [UInt8.toNat_ofNat']
      omega
    have hge : op1 ≤ UInt8.ofNat ((n : Int) + 0x50).toNat := by
      rw [UInt8.le_iff_toNat_le, hbyte]
      exact Nat.le_trans (by decide : op1.toNat ≤ 1 + 0x50) (by omega)
    have hle : UInt8.ofNat ((n : Int) + 0x50).toNat ≤ op16 := by
      rw [UInt8.le_iff_toNat_le, hbyte]
      exact Nat.le_trans (by omega) (by decide : 16 + 0x50 ≤ op16.toNat)
    have hdecode : decodeOpN (UInt8.ofNat ((n : Int) + 0x50).toNat) = n := by
      have hne : UInt8.ofNat ((n : Int) + 0x50).toNat ≠ op0 := fun heq => absurd hge (by rw [heq]; decide)
      rw [decodeOpN, if_neg hne, hbyte]
      exact Nat.add_sub_cancel n 0x50
    refine ⟨UInt8.ofNat ((n : Int) + 0x50).toNat, [], ?_, ?_⟩
    · rw [if_pos (Or.inr ⟨hpos, hsmall⟩)]
      exact getOp_opcode (Std.lt_of_lt_of_le (by decide) hge) rest
    · have hinteger : isSmallInteger (UInt8.ofNat ((n : Int) + 0x50).toNat) = true := by
        simp [isSmallInteger, hge, hle]
      rw [matchOp, if_neg (by decide), if_neg (by decide), if_neg (by decide), if_pos rfl, if_pos hinteger, hdecode,
        if_pos hsmall]
      rfl
  · -- any other one is a vector of one to four bytes
    have hsize : (bigNumVch nDuration).length ≤ 3 + 1 := length_bigNumVch_le (by omega)
    have hne : 1 ≤ (bigNumVch nDuration).length := List.length_pos_iff.mpr (bigNumVch_ne_nil (by omega))
    have hbyte : (UInt8.ofNat (bigNumVch nDuration).length).toNat = (bigNumVch nDuration).length := by
      rw [UInt8.toNat_ofNat']
      omega
    refine ⟨UInt8.ofNat (bigNumVch nDuration).length, bigNumVch nDuration, ?_, ?_⟩
    · rw [if_neg (by omega)]
      exact getOp_pushData_short (by omega) rest
    · have hinteger : isSmallInteger (UInt8.ofNat (bigNumVch nDuration).length) = false := by
        have hzero : UInt8.ofNat (bigNumVch nDuration).length ≠ op0 := fun heq => by
          rw [heq] at hbyte
          exact absurd hbyte (by rw [show op0.toNat = 0 from rfl]; omega)
        have hlow : ¬ op1 ≤ UInt8.ofNat (bigNumVch nDuration).length := by
          rw [UInt8.le_iff_toNat_le, hbyte, show op1.toNat = 0x51 from rfl]
          omega
        simp [isSmallInteger, hzero, hlow]
      rw [matchOp, if_neg (by decide), if_neg (by decide), if_neg (by decide), if_pos rfl, hinteger,
        if_neg Bool.false_ne_true,
        if_pos ⟨hne, hsize⟩, if_neg hsmall]

/-- The solution is the duration. -/
theorem castToBigNum_parkSolution (h : parkDurationRange nDuration = true) :
    castToBigNum (parkSolution nDuration) = some nDuration := by
  obtain ⟨hpos, hmax⟩ := parkDurationRange_iff.mp h
  unfold parkSolution
  split
  · have hvch : bigNumOfVch [UInt8.ofNat nDuration.toNat] = nDuration := by
      have hbyte : (UInt8.ofNat nDuration.toNat).toNat = nDuration.toNat := by
        rw [UInt8.toNat_ofNat']
        omega
      have hfree : (UInt8.ofNat nDuration.toNat).toNat < 0x80 := by omega
      unfold bigNumOfVch
      rw [List.getLast?_singleton]
      dsimp only
      rw [if_pos hfree, leNat, leNat, hbyte]
      omega
    rw [castToBigNum, if_neg (by rw [List.length_singleton]; decide), hvch, bigNumOfVch_bigNumVch]
  · exact castToBigNum_bigNumVch (by omega)

end Duration

/-! ## Matching -/

section Matching

variable {nDuration : Int} (id : Uint160)

theorem isPayToScriptHash_setPark : isPayToScriptHash (setPark nDuration id) = false := by
  simp [isPayToScriptHash, setPark, show opReturn ≠ opHash160 by decide]

/-- **A park script is matched by its template.** -/
theorem matchTemplate_setPark (h : parkDurationRange nDuration = true) :
    matchTemplate [opReturn, op3, opInteger, opPubkeyhash] (setPark nDuration id) =
      some [parkSolution nDuration, id.bytes] := by
  obtain ⟨opcode, vch, hget, hmatch⟩ := getOp_pushInt64 h (0x14 :: (id.bytes ++ []))
  have h₁ := getOp_opcode (show opPushdata4 < opReturn by decide)
  have h₂ := getOp_opcode (show opPushdata4 < op3 by decide)
  have hbytes : setPark nDuration id = opReturn :: op3 :: (pushInt64 nDuration ++ 0x14 :: (id.bytes ++ [])) := by
    rw [List.append_nil]
    rfl
  rw [hbytes, matchTemplate_cons (by decide) (h₁ _), matchTemplate_cons (by decide) (h₂ _),
    matchTemplate_cons (by decide) hget, hmatch, matchTemplate_cons (by decide) (getOp_push20 id []),
      matchOp_pubkeyhash]
  rfl

/-- **A park script is matched by no other template**: three of them do not start with `OP_RETURN`, and the one of data
that does ends too early. -/
theorem matchTemplate_setPark_none {t : TxnOutType} {script2 : List UInt8} (hmem : (t, script2) ∈ mTemplates)
    (ht : t ≠ .park) : matchTemplate script2 (setPark nDuration id) = none := by
  have h₁ := getOp_opcode (show opPushdata4 < opReturn by decide) (op3 :: pushInt64 nDuration ++ (0x14 :: id.bytes))
  have h₂ := getOp_opcode (show opPushdata4 < op3 by decide) (pushInt64 nDuration ++ (0x14 :: id.bytes))
  have hbytes : setPark nDuration id = opReturn :: (op3 :: pushInt64 nDuration ++ (0x14 :: id.bytes)) := rfl
  have hrest : matchTemplate [] (pushInt64 nDuration ++ (0x14 :: id.bytes)) = none := by
    rw [matchTemplate, if_neg (List.append_ne_nil_of_right_ne_nil _ (List.cons_ne_nil _ _))]
  simp only [mTemplates, List.mem_cons, Prod.mk.injEq, List.not_mem_nil, or_false] at hmem
  rw [hbytes]
  rcases hmem with ⟨-, rfl⟩ | ⟨-, rfl⟩ | ⟨-, rfl⟩ | ⟨-, rfl⟩ | ⟨rfl, -⟩
  · rw [matchTemplate_cons (by decide) h₁]
    rfl
  · rw [matchTemplate_cons (by decide) h₁]
    rfl
  · rw [matchTemplate_cons (by decide) h₁]
    rfl
  · have hreturn : matchOp opReturn opReturn [] = some [] := rfl
    have hdata : matchOp opSmalldata op3 [] = some [] := rfl
    rw [matchTemplate_cons (by decide) h₁, hreturn, Option.bind_some, List.cons_append,
      matchTemplate_cons (by decide) h₂,
      hdata, Option.bind_some, hrest]
    rfl
  · exact absurd rfl ht

/-- **The solutions of a park script.** -/
theorem solver_setPark (h : parkDurationRange nDuration = true) :
    solver (setPark nDuration id) = some (.park, [parkSolution nDuration, id.bytes]) := by
  have hnone : ∀ {t : TxnOutType} {script2 : List UInt8}, (t, script2) ∈ mTemplates → t ≠ .park →
      (matchTemplate script2 (setPark nDuration id)).map (fun s => (t, s)) = none := by
    intro t script2 hmem ht
    rw [matchTemplate_setPark_none id hmem ht]
    rfl
  have hpark := matchTemplate_setPark id h
  have hfind : mTemplates.findSome? (fun t => (matchTemplate t.2 (setPark nDuration id)).map (fun s => (t.1, s))) =
      some (TxnOutType.park, [parkSolution nDuration, id.bytes]) := by
    unfold mTemplates
    rw [List.findSome?_cons, hnone (by decide) (by decide), List.findSome?_cons, hnone (by decide) (by decide),
      List.findSome?_cons, hnone (by decide) (by decide), List.findSome?_cons, hnone (by decide) (by decide),
      List.findSome?_cons, hpark]
    rfl
  rw [solver, if_neg (Bool.eq_false_iff.mp (isPayToScriptHash_setPark id)), hfind]

end Matching

/-! ## Reading park scripts -/

section Reading

variable {nDuration : Int} (id : Uint160)

/-- **What is read is what was written.** -/
theorem extractPark_setPark (h : parkDurationRange nDuration = true) :
    extractPark (setPark nDuration id) = some (nDuration, .keyID id) := by
  obtain ⟨hpos, hmax⟩ := parkDurationRange_iff.mp h
  unfold extractPark
  rw [solver_setPark id h]
  dsimp only
  rw [castToBigNum_parkSolution h]
  dsimp only
  rw [bigNumGetint_of_lt (by omega), if_pos h, Uint160.ofBytes_bytes]

/-- What is read has a duration in range and a key id. -/
theorem extractPark_some {s : CScript} {address : CTxDestination} (h : extractPark s = some (nDuration, address)) :
    parkDurationRange nDuration = true ∧ ∃ id, address = .keyID id := by
  unfold extractPark at h
  split at h
  · split at h
    · cases h
    · dsimp only at h
      split at h
      · rename_i hrange
        cases h
        exact ⟨hrange, _, rfl⟩
      · cases h
  · cases h

/-- The scripts of destinations are no park scripts. -/
theorem isPark_setDestination (d : CTxDestination) : isPark (setDestination d) = false := by
  cases d with
  | none => decide
  | keyID id =>
    rw [isPark, solver_keyID]
    rfl
  | scriptID id =>
    rw [isPark, solver_scriptID]
    rfl

end Reading

/-- **Park scripts.** The script that `SetPark` writes for a duration in range and a key id is matched by the template
`TX_PARK` and by nothing else in `Solver`; it is a valid park script, from which the duration and the key id are read
back, and its destination is the key id. What is read from any script is read again from the script that `SetPark`
writes for it. The script of a destination is never a park script. -/
theorem setPark_law :
    (∀ (cr : Crypto) (nDuration : Int) (id : Uint160), 1 ≤ nDuration → nDuration ≤ maxParkDuration →
      isPayToScriptHash (setPark nDuration id) = false ∧
      (∀ t script2, (t, script2) ∈ mTemplates →
        ((matchTemplate script2 (setPark nDuration id)).isSome = true ↔ t = .park)) ∧
      extractPark (setPark nDuration id) = some (nDuration, .keyID id) ∧
      isPark (setPark nDuration id) = true ∧ isValidPark (setPark nDuration id) = true ∧
      extractDestination cr (setPark nDuration id) = some (.keyID id)) ∧
    (∀ (s : CScript) (nDuration : Int) (address : CTxDestination), extractPark s = some (nDuration, address) →
      ∃ id, address = .keyID id ∧ parkDurationRange nDuration = true ∧
        extractPark (setPark nDuration id) = some (nDuration, address)) ∧
    ∀ d : CTxDestination, isPark (setDestination d) = false := by
  refine ⟨fun cr nDuration id hpos hmax => ?_, fun s nDuration address h => ?_, isPark_setDestination⟩
  · have h : parkDurationRange nDuration = true := decide_eq_true ⟨hpos, hmax⟩
    refine ⟨isPayToScriptHash_setPark id, fun t script2 hmem => ⟨fun hsome => ?_, fun ht => ?_⟩,
      extractPark_setPark id h,
      ?_, ?_, ?_⟩
    · refine Decidable.byContradiction fun ht => ?_
      rw [matchTemplate_setPark_none id hmem ht] at hsome
      cases hsome
    · have hscript2 : script2 = [opReturn, op3, opInteger, opPubkeyhash] := by
        rw [ht] at hmem
        simpa [mTemplates] using hmem
      rw [hscript2, matchTemplate_setPark id h]
      rfl
    · rw [isPark, solver_setPark id h]
      rfl
    · rw [isValidPark, extractPark_setPark id h]
      rfl
    · rw [extractDestination, solver_setPark id h]
      exact congrArg (fun i => some (CTxDestination.keyID i)) (Uint160.ofBytes_bytes id)
  · obtain ⟨hrange, id, rfl⟩ := extractPark_some h
    exact ⟨id, rfl, hrange, extractPark_setPark id hrange⟩

/-- A duration of two bytes, and a script that pushes a small number as a vector. -/
theorem setPark_sample :
    extractPark (setPark 1000 default) = some (1000, .keyID default) ∧
    ∃ id, CTxDestination.keyID default = .keyID id ∧ parkDurationRange 5 = true ∧
      extractPark (setPark 5 id) = some (5, .keyID default) :=
  ⟨(setPark_law.1 Crypto.sample 1000 default (by decide) (by decide)).2.2.1,
    setPark_law.2.1 (opReturn :: op3 :: 0x01 :: 0x05 :: 0x14 :: List.replicate 20 0) 5 (.keyID default) (by decide +kernel)⟩

end Morcochain
