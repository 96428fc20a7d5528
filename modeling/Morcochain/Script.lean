import Morcochain.Basic

/-!
# Scripts

Serialized scripts (`script.h`): opcodes, `GetOp`, pushes, the numbers of the stack machine and the counts and tests
that read a script without running it. An operation read by `GetOp` is an `Op`, `parseOps` reads a whole script.
-/

set_option autoImplicit false

namespace Morcochain

/-- A serialized script. -/
abbrev CScript := Bytes

/-- A 160-bit hash, as the bytes of its memory representation. -/
structure Uint160 where
  bytes : Bytes
  size_eq : bytes.length = 20
deriving DecidableEq, Repr

/-- `uint160(const std::vector<unsigned char>&)`: zero unless the vector has the size of the hash. -/
def Uint160.ofBytes (vch : Bytes) : Uint160 :=
  if h : vch.length = 20 then ⟨vch, h⟩ else ⟨List.replicate 20 0, rfl⟩

theorem Uint160.ofBytes_bytes (h : Uint160) : Uint160.ofBytes h.bytes = h := by
  rw [Uint160.ofBytes, dif_pos h.size_eq]

theorem Uint160.bytes_ofBytes {vch : Bytes} (h : vch.length = 20) : (Uint160.ofBytes vch).bytes = vch := by
  rw [Uint160.ofBytes, dif_pos h]

instance : Inhabited Uint160 := ⟨Uint160.ofBytes []⟩

/-! ## Opcodes -/

def op0 : UInt8 := 0x00
def opPushdata1 : UInt8 := 0x4c
def opPushdata2 : UInt8 := 0x4d
def opPushdata4 : UInt8 := 0x4e
def op1Negate : UInt8 := 0x4f
def opReserved : UInt8 := 0x50
def op1 : UInt8 := 0x51
def op2 : UInt8 := 0x52
def op3 : UInt8 := 0x53
def op16 : UInt8 := 0x60
def opReturn : UInt8 := 0x6a
def opDup : UInt8 := 0x76
def opEqual : UInt8 := 0x87
def opEqualverify : UInt8 := 0x88
def opHash160 : UInt8 := 0xa9
def opChecksig : UInt8 := 0xac
def opChecksigverify : UInt8 := 0xad
def opCheckmultisig : UInt8 := 0xae
def opCheckmultisigverify : UInt8 := 0xaf
def opInteger : UInt8 := 0xf8
def opSmalldata : UInt8 := 0xf9
def opSmallinteger : UInt8 := 0xfa
def opPubkeys : UInt8 := 0xfb
def opPubkeyhash : UInt8 := 0xfd
def opPubkey : UInt8 := 0xfe
def opInvalidopcode : UInt8 := 0xff

/-! ## Reading operations -/

/-- An operation of a script: the opcode, the bytes it pushes, and what follows it in the script. -/
structure Op where
  opcode : UInt8
  vch : Bytes
  rest : CScript
deriving DecidableEq, Repr

/-- A little-endian number. -/
def leNat : Bytes → Nat
  | [] => 0
  | b :: l => b.toNat + 256 * leNat l

/-- The immediate operand of `nSize` bytes. -/
def getOperand (opcode : UInt8) (nSize : Nat) (pc : CScript) : Option Op :=
  if pc.length < nSize then none else some ⟨opcode, pc.take nSize, pc.drop nSize⟩

/-- `CScript::GetOp2`: the operation at the start of `pc`, `none` when it returns false. -/
def getOp : CScript → Option Op
  | [] => none
  | opcode :: pc =>
    if opcode < opPushdata1 then getOperand opcode opcode.toNat pc
    else if opcode = opPushdata1 then
      if pc.length < 1 then none else getOperand opcode (leNat (pc.take 1)) (pc.drop 1)
    else if opcode = opPushdata2 then
      if pc.length < 2 then none else getOperand opcode (leNat (pc.take 2)) (pc.drop 2)
    else if opcode = opPushdata4 then
      if pc.length < 4 then none else getOperand opcode (leNat (pc.take 4)) (pc.drop 4)
    else some ⟨opcode, [], pc⟩

theorem getOperand_rest {opcode : UInt8} {nSize : Nat} {pc : CScript} {o : Op}
    (h : getOperand opcode nSize pc = some o) : o.rest.length ≤ pc.length := by
  unfold getOperand at h
  split at h
  · cases h
  · cases h
    rw [List.length_drop]
    exact Nat.sub_le _ _

/-- Reading an operation consumes bytes. -/
theorem getOp_rest {s : CScript} {o : Op} (h : getOp s = some o) : o.rest.length < s.length := by
  cases s with
  | nil => cases h
  | cons opcode pc =>
    have hdrop : ∀ k, (pc.drop k).length ≤ pc.length := fun k => by
      rw [List.length_drop]
      exact Nat.sub_le _ _
    rw [List.length_cons]
    refine Nat.lt_succ_of_le ?_
    rw [getOp] at h
    split_ifs at h
    · exact getOperand_rest h
    · exact Nat.le_trans (getOperand_rest h) (hdrop 1)
    · exact Nat.le_trans (getOperand_rest h) (hdrop 2)
    · exact Nat.le_trans (getOperand_rest h) (hdrop 4)
    · cases h
      exact Nat.le_refl _

/-- The operations of a script, read until its end or until `GetOp` fails; the flag tells that the end was reached. -/
def parseOps (s : CScript) : List Op × Bool :=
  match h : getOp s with
  | none => ([], s.isEmpty)
  | some o =>
    have := getOp_rest h
    let (ops, fEnd) := parseOps o.rest
    (o :: ops, fEnd)
termination_by s.length

theorem parseOps_nil : parseOps [] = ([], true) := by
  rw [parseOps]
  rfl

theorem parseOps_cons {s : CScript} {o : Op} (h : getOp s = some o) :
    parseOps s = (o :: (parseOps o.rest).1, (parseOps o.rest).2) := by
  rw [parseOps]
  split
  · rename_i hn
    exact absurd (h.symm.trans hn) nofun
  · rename_i o' ho'
    cases h.symm.trans ho'
    rfl

/-! ## Pushing data -/

/-- `CScript::operator<<(const std::vector<unsigned char>&)`. -/
def pushData (b : Bytes) : CScript :=
  if b.length < opPushdata1.toNat then UInt8.ofNat b.length :: b
  else if b.length ≤ 0xff then opPushdata1 :: UInt8.ofNat b.length :: b
  else if b.length ≤ 0xffff then
    opPushdata2 :: UInt8.ofNat b.length :: UInt8.ofNat (b.length / 256) :: b
  else
    opPushdata4 :: UInt8.ofNat b.length :: UInt8.ofNat (b.length / 256) :: UInt8.ofNat (b.length / 65536) ::
      UInt8.ofNat (b.length / 16777216) :: b

theorem leNat_two {n : Nat} (h : n ≤ 0xffff) : leNat [UInt8.ofNat n, UInt8.ofNat (n / 256)] = n := by
  simp only [leNat, UInt8.toNat_ofNat']
  omega

/-- Reading back a push of few bytes. -/
theorem getOp_pushData_short {v : Bytes} (hv : v.length < 76) (rest : CScript) :
    getOp (pushData v ++ rest) = some ⟨UInt8.ofNat v.length, v, rest⟩ := by
  have hp1 : opPushdata1.toNat = 76 := rfl
  have hn : (UInt8.ofNat v.length).toNat = v.length := by
    rw [UInt8.toNat_ofNat']
    omega
  have hlt : UInt8.ofNat v.length < opPushdata1 := by
    rw [UInt8.lt_iff_toNat_lt, hn, hp1]
    exact hv
  rw [pushData, if_pos (by rw [hp1]; exact hv), List.cons_append, getOp, if_pos hlt, getOperand, hn,
    if_neg (by rw [List.length_append]; omega), List.take_left, List.drop_left]

/-- Reading back pushed data. -/
theorem getOp_pushData {v : Bytes} (hv : v.length ≤ 0xffff) (rest : CScript) :
    ∃ opcode, opcode ≤ opPushdata4 ∧ getOp (pushData v ++ rest) = some ⟨opcode, v, rest⟩ := by
  have hp1 : opPushdata1.toNat = 76 := rfl
  by_cases h1 : v.length < 76
  · refine ⟨_, ?_, getOp_pushData_short h1 rest⟩
    rw [UInt8.le_iff_toNat_le, UInt8.toNat_ofNat']
    exact Nat.le_trans (Nat.mod_le _ _) (Nat.le_trans (Nat.le_of_lt h1) (by decide))
  · unfold pushData
    rw [hp1, if_neg h1]
    by_cases h2 : v.length ≤ 0xff
    · have hn : leNat [UInt8.ofNat v.length] = v.length := by
        simp only [leNat, UInt8.toNat_ofNat']
        omega
      refine ⟨opPushdata1, by decide, ?_⟩
      rw [if_pos h2, List.cons_append, List.cons_append, getOp, if_neg (by decide), if_pos rfl]
      simp only [List.length_cons, Nat.not_lt.mpr (Nat.succ_le_succ (Nat.zero_le _)), if_false, List.take_succ_cons,
        List.take_zero, List.drop_succ_cons, List.drop_zero, hn, getOperand, List.length_append]
      rw [if_neg (by omega), List.take_left, List.drop_left]
    · refine ⟨opPushdata2, by decide, ?_⟩
      rw [if_neg h2, if_pos hv, List.cons_append, List.cons_append, List.cons_append, getOp, if_neg (by decide),
        if_neg (by decide), if_pos rfl]
      have hlen : ¬ (UInt8.ofNat v.length :: UInt8.ofNat (v.length / 256) :: (v ++ rest)).length < 2 := by
        simp only [List.length_cons]
        omega
      simp only [hlen, if_false, List.take_succ_cons, List.take_zero, List.drop_succ_cons, List.drop_zero,
        leNat_two hv, getOperand, List.length_append]
      rw [if_neg (by omega), List.take_left, List.drop_left]

theorem length_pushData (v : Bytes) : (pushData v).length ≤ v.length + 5 := by
  unfold pushData
  split_ifs <;> simp only [List.length_cons] <;> omega

/-- The bytes of a positive number, least significant byte first. -/
def natBytes (n : Nat) : Bytes :=
  if n = 0 then [] else UInt8.ofNat n :: natBytes (n / 256)
termination_by n

/-- Put a sign in the top bit of the last byte, after a further byte when that bit is taken. -/
def signBytes (fNegative : Bool) : Bytes → Bytes
  | [] => []
  | [b] =>
    if b.toNat < 0x80 then [if fNegative then b ||| 0x80 else b] else [b, if fNegative then 0x80 else 0x00]
  | b :: l => b :: signBytes fNegative l

/-- `CBigNum::getvch`. -/
def bigNumVch (n : Int) : Bytes := signBytes (n < 0) (natBytes n.natAbs)

/-- `CBigNum::setvch`. -/
def bigNumOfVch (vch : Bytes) : Int :=
  match vch.getLast? with
  | none => 0
  | some top =>
    if top.toNat < 0x80 then leNat vch
    else -(leNat (vch.dropLast ++ [top &&& 0x7f]) : Int)

/-- `CBigNum::getint`: the number, limited to the range of an `int`. -/
def bigNumGetint (n : Int) : Int :=
  if 0 ≤ n then (if n > 2147483647 then 2147483647 else n)
  else (if -n > 2147483647 then -2147483648 else n)

/-- `CScript::push_int64`. -/
def pushInt64 (n : Int) : CScript :=
  if n = -1 ∨ 1 ≤ n ∧ n ≤ 16 then [UInt8.ofNat (n + 0x50).toNat] else pushData (bigNumVch n)

/-- `CastToBigNum`, which throws on more than four bytes. -/
def castToBigNum (vch : Bytes) : Option Int :=
  if vch.length > 4 then none else some (bigNumOfVch (bigNumVch (bigNumOfVch vch)))

/-- `CastToBool`. Negative zero is false. -/
def castToBool : Bytes → Bool
  | [] => false
  | [b] => b ≠ 0 ∧ b ≠ 0x80
  | b :: l => b ≠ 0 || castToBool l

/-- `CScript::DecodeOP_N`, on the opcodes it is called with. -/
def decodeOpN (opcode : UInt8) : Nat := if opcode = op0 then 0 else opcode.toNat - 0x50

/-! ## Tests and counts -/

/-- `CScript::IsPushOnly`. -/
def isPushOnly (s : CScript) : Bool :=
  let (ops, fEnd) := parseOps s
  fEnd && ops.all (fun o => o.opcode ≤ op16)

/-- One operation's share of the signature operations, given the opcode before it. -/
def sigOps (fAccurate : Bool) (lastOpcode opcode : UInt8) : Nat :=
  if opcode = opChecksig ∨ opcode = opChecksigverify then 1
  else if opcode = opCheckmultisig ∨ opcode = opCheckmultisigverify then
    if fAccurate ∧ op1 ≤ lastOpcode ∧ lastOpcode ≤ op16 then decodeOpN lastOpcode else 20
  else 0

/-- The loop of `CScript::GetSigOpCount(bool)`. -/
def countSigOps (fAccurate : Bool) (lastOpcode : UInt8) : List Op → Nat
  | [] => 0
  | o :: ops => sigOps fAccurate lastOpcode o.opcode + countSigOps fAccurate o.opcode ops

/-- `CScript::GetSigOpCount(bool fAccurate)`. -/
def getSigOpCount (s : CScript) (fAccurate : Bool) : Nat := countSigOps fAccurate opInvalidopcode (parseOps s).1

/-- `CScript::IsPayToScriptHash`. -/
def isPayToScriptHash (s : CScript) : Bool :=
  s.length = 23 ∧ s[0]? = some opHash160 ∧ s[1]? = some 0x14 ∧ s[22]? = some opEqual

/-- `CScript::GetSigOpCount(const CScript& scriptSig)`. -/
def getP2SHScriptSigOpCount (scriptPubKey scriptSig : CScript) : Nat :=
  if isPayToScriptHash scriptPubKey then
    if isPushOnly scriptSig then
      getSigOpCount ((parseOps scriptSig).1.getLast?.elim [] (·.vch)) true
    else 0
  else getSigOpCount scriptPubKey true

/-- `IsVote` of a script: a coinstake output that carries a vote. -/
def isVoteScript (s : CScript) : Bool := s.length > 2 ∧ s[0]? = some opReturn ∧ s[1]? = some op1

/-- `IsParkRateResult` of a script. -/
def isParkRateResultScript (s : CScript) : Bool := s.length > 2 ∧ s[0]? = some opReturn ∧ s[1]? = some op2

/-- `IsUnpark` of a script. -/
def isUnparkScript (scriptSig : CScript) : Bool := scriptSig = [op3]

/-- `CScript::SetUnpark`. -/
def setUnpark : CScript := [op3]

end Morcochain
