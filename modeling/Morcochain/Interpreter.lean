import Morcochain.Solver

/-!
# The script interpreter

`EvalScript` and `VerifyScript` of `script.cpp`. The stack is a list with its top first. One operation is `execOp`, a
step from an `ExecState`; `none` stands for the interpreter returning false, by a test or by an exception.
-/

set_option autoImplicit false

namespace Morcochain

/-- The script verification flags that a result depends on. -/
structure ScriptFlags where
  p2sh : Bool := false
  strictenc : Bool := false
deriving DecidableEq, Repr

/-! ## Signatures -/

/-- `CScript::FindAndDelete`: the script with every occurrence of `b` at an operation's start erased. -/
def findAndDelete (b : CScript) (s : CScript) : CScript :=
  if _hb : b = [] then s
  else if _h : b <+: s then findAndDelete b (s.drop b.length)
  else
    match ho : getOp s with
    | none => s
    | some o =>
      have := getOp_rest ho
      s.take (s.length - o.rest.length) ++ findAndDelete b o.rest
termination_by s.length
decreasing_by
  · have hpos := List.length_pos_of_ne_nil _hb
    have hle := _h.length_le
    rw [List.length_drop]
    omega
  · exact this

/-- The transaction that `SignatureHash` hashes; `none` where it returns 1. -/
def signatureTx (scriptCode : CScript) (txTo : CTransaction) (nIn : Nat) (nHashType : Nat) : Option CTransaction :=
  if txTo.vin.length ≤ nIn then none
  else
    let scriptCode := findAndDelete [0xab] scriptCode
    let vin := txTo.vin.mapIdx (fun i txin => { txin with scriptSig := if i = nIn then scriptCode else [] })
    let free := vin.mapIdx (fun i txin => if i = nIn then txin else { txin with nSequence := 0 })
    let only (vin : List CTxIn) := if nHashType &&& 0x80 ≠ 0 then (vin.drop nIn).take 1 else vin
    if nHashType &&& 0x1f = 2 then some { txTo with vin := only free, vout := [] }
    else if nHashType &&& 0x1f = 3 then
      if txTo.vout.length ≤ nIn then none
      else some { txTo with
        vin := only free
        vout := (txTo.vout.take (nIn + 1)).mapIdx (fun i txout => if i = nIn then txout else CTxOut.null) }
    else some { txTo with vin := only vin }

/-- `SignatureHash`. -/
def signatureHash (cr : Crypto) (scriptCode : CScript) (txTo : CTransaction) (nIn nHashType : Nat) : Uint256 :=
  match signatureTx scriptCode txTo nIn nHashType with
  | none => 1
  | some txTmp => cr.hashSignature txTmp nHashType

/-- `CheckSig`. -/
def checkSig (cr : Crypto) (vchSig vchPubKey : Bytes) (scriptCode : CScript) (txTo : CTransaction)
    (nIn nHashType : Nat) : Bool :=
  match vchSig.getLast? with
  | none => false
  | some b =>
    if nHashType ≠ 0 ∧ nHashType ≠ b.toNat then false
    else
      let sighash := signatureHash cr scriptCode txTo nIn b.toNat
      cr.setPubKey vchPubKey && cr.verify vchPubKey sighash vchSig.dropLast

/-- `IsCanonicalPubKey`. -/
def isCanonicalPubKey (vchPubKey : Bytes) : Bool :=
  if vchPubKey.length < 33 then false
  else if vchPubKey.head? = some 0x04 then vchPubKey.length = 65
  else if vchPubKey.head? = some 0x02 ∨ vchPubKey.head? = some 0x03 then vchPubKey.length = 33
  else false

/-- A number of a signature, at `i`, of `n` bytes: it is marked as an integer, is not empty, not negative and not
excessively padded. -/
def isCanonicalInteger (vchSig : Bytes) (i n : Nat) : Bool :=
  vchSig.getD (i - 2) 0 = 0x02 ∧ n ≠ 0 ∧ (vchSig.getD i 0).toNat < 0x80 ∧
    ¬ (n > 1 ∧ vchSig.getD i 0 = 0x00 ∧ (vchSig.getD (i + 1) 0).toNat < 0x80)

/-- `IsCanonicalSignature`. -/
def isCanonicalSignature (vchSig : Bytes) : Bool :=
  let size := vchSig.length
  let nHashType := (vchSig.getD (size - 1) 0).toNat &&& 0x7f
  let nLenR := (vchSig.getD 3 0).toNat
  let nLenS := (vchSig.getD (5 + nLenR) 0).toNat
  9 ≤ size ∧ size ≤ 73 ∧ 1 ≤ nHashType ∧ nHashType ≤ 3 ∧ vchSig.getD 0 0 = 0x30 ∧
    (vchSig.getD 1 0).toNat = size - 3 ∧ 5 + nLenR < size ∧ nLenR + nLenS + 7 = size ∧
    isCanonicalInteger vchSig 4 nLenR ∧ isCanonicalInteger vchSig (6 + nLenR) nLenS

/-! ## Operations -/

/-- The stack of the interpreter, top first. -/
abbrev Stack := List Bytes

/-- The variables of `EvalScript`. -/
structure ExecState where
  stack : Stack
  altstack : Stack := []
  /-- The branches of the open conditionals, innermost first. -/
  vfExec : List Bool := []
  nOpCount : Nat := 0
  /-- The script from `pbegincodehash` on. -/
  scriptCode : CScript
deriving DecidableEq, Repr

/-- What a signature operation needs besides the stack. -/
structure SigContext where
  cr : Crypto
  txTo : CTransaction
  nIn : Nat
  flags : ScriptFlags
  nHashType : Nat

/-- `vchTrue` or `vchFalse`. -/
def vchBool (f : Bool) : Bytes := if f then [1] else []

/-- The opcodes that are disabled, executed or not. -/
def isDisabled (opcode : UInt8) : Bool :=
  [0x7e, 0x7f, 0x80, 0x81, 0x83, 0x84, 0x85, 0x86, 0x8d, 0x8e, 0x95, 0x96, 0x97, 0x98, 0x99].contains opcode

/-- The operations that only move entries of the stack. -/
def execStackOp (opcode : UInt8) (stack : Stack) : Option Stack :=
  match opcode, stack with
  | 0x6d, _ :: _ :: s => some s
  | 0x6e, x2 :: x1 :: s => some (x2 :: x1 :: x2 :: x1 :: s)
  | 0x6f, x3 :: x2 :: x1 :: s => some (x3 :: x2 :: x1 :: x3 :: x2 :: x1 :: s)
  | 0x70, x4 :: x3 :: x2 :: x1 :: s => some (x2 :: x1 :: x4 :: x3 :: x2 :: x1 :: s)
  | 0x71, x6 :: x5 :: x4 :: x3 :: x2 :: x1 :: s => some (x2 :: x1 :: x6 :: x5 :: x4 :: x3 :: s)
  | 0x72, x4 :: x3 :: x2 :: x1 :: s => some (x2 :: x1 :: x4 :: x3 :: s)
  | 0x73, x :: s => some (if castToBool x then x :: x :: s else x :: s)
  | 0x74, s => some (bigNumVch s.length :: s)
  | 0x75, _ :: s => some s
  | 0x76, x :: s => some (x :: x :: s)
  | 0x77, x2 :: _ :: s => some (x2 :: s)
  | 0x78, x2 :: x1 :: s => some (x1 :: x2 :: x1 :: s)
  | 0x7b, x3 :: x2 :: x1 :: s => some (x1 :: x3 :: x2 :: s)
  | 0x7c, x2 :: x1 :: s => some (x1 :: x2 :: s)
  | 0x7d, x2 :: x1 :: s => some (x2 :: x1 :: x2 :: s)
  | 0x82, x :: s => some (bigNumVch x.length :: x :: s)
  | _, _ => none

/-- `OP_PICK` and `OP_ROLL`. -/
def execPick (fRoll : Bool) : Stack → Option Stack
  | top :: x :: s => do
    let n := bigNumGetint (← castToBigNum top)
    if n < 0 ∨ ((x :: s).length : Int) ≤ n then none
    else
      let vch := (x :: s).getD n.toNat []
      some (vch :: if fRoll then (x :: s).eraseIdx n.toNat else x :: s)
  | _ => none

/-- The numeric operations on one entry. -/
def unaryOp (opcode : UInt8) (bn : Int) : Option Int :=
  match opcode with
  | 0x8b => some (bn + 1)
  | 0x8c => some (bn - 1)
  | 0x8f => some (-bn)
  | 0x90 => some (if bn < 0 then -bn else bn)
  | 0x91 => some (if bn = 0 then 1 else 0)
  | 0x92 => some (if bn ≠ 0 then 1 else 0)
  | _ => none

/-- The numeric operations on two entries. -/
def binaryOp (opcode : UInt8) (bn1 bn2 : Int) : Option Int :=
  match opcode with
  | 0x93 => some (bn1 + bn2)
  | 0x94 => some (bn1 - bn2)
  | 0x9a => some (if bn1 ≠ 0 ∧ bn2 ≠ 0 then 1 else 0)
  | 0x9b => some (if bn1 ≠ 0 ∨ bn2 ≠ 0 then 1 else 0)
  | 0x9c => some (if bn1 = bn2 then 1 else 0)
  | 0x9d => some (if bn1 = bn2 then 1 else 0)
  | 0x9e => some (if bn1 ≠ bn2 then 1 else 0)
  | 0x9f => some (if bn1 < bn2 then 1 else 0)
  | 0xa0 => some (if bn1 > bn2 then 1 else 0)
  | 0xa1 => some (if bn1 ≤ bn2 then 1 else 0)
  | 0xa2 => some (if bn1 ≥ bn2 then 1 else 0)
  | 0xa3 => some (if bn1 < bn2 then bn1 else bn2)
  | 0xa4 => some (if bn1 > bn2 then bn1 else bn2)
  | _ => none

/-- An operation that leaves a flag, and its `VERIFY` form, which takes the flag off again and fails on false. -/
def verifyFlag (fVerify f : Bool) (s : Stack) : Option Stack :=
  if fVerify then (if f then some s else none) else some (vchBool f :: s)

/-- The numeric operations. -/
def execNumOp (opcode : UInt8) : Stack → Option Stack
  | stack =>
    match opcode, stack with
    | 0xa5, x3 :: x2 :: x1 :: s => do
      let bn1 ← castToBigNum x1
      let bn2 ← castToBigNum x2
      let bn3 ← castToBigNum x3
      some (vchBool (bn2 ≤ bn1 ∧ bn1 < bn3) :: s)
    | _, [] => none
    | _, x2 :: s =>
      if 0x8b ≤ opcode ∧ opcode ≤ 0x92 then do
        let bn ← unaryOp opcode (← castToBigNum x2)
        some (bigNumVch bn :: s)
      else
        match s with
        | [] => none
        | x1 :: s => do
          let bn ← binaryOp opcode (← castToBigNum x1) (← castToBigNum x2)
          if opcode = 0x9d then
            if castToBool (bigNumVch bn) then some s else none
          else some (bigNumVch bn :: s)

/-- The hash operations. -/
def execHashOp (cr : Crypto) (opcode : UInt8) : Stack → Option Stack
  | vch :: s =>
    match opcode with
    | 0xa6 => some (cr.ripemd160 vch :: s)
    | 0xa7 => some (cr.sha1 vch :: s)
    | 0xa8 => some (cr.sha256 vch :: s)
    | 0xa9 => some ((cr.hash160 vch).bytes :: s)
    | 0xaa => some ((List.range 32).map (fun i => UInt8.ofNat (cr.hash vch / 256 ^ i)) :: s)
    | _ => none
  | [] => none

/-- The check of one signature against one public key, with the strict encodings where they are asked for. -/
def checkSigOp (c : SigContext) (scriptCode : CScript) (vchSig vchPubKey : Bytes) : Bool :=
  (!c.flags.strictenc || (isCanonicalSignature vchSig && isCanonicalPubKey vchPubKey)) &&
    checkSig c.cr vchSig vchPubKey scriptCode c.txTo c.nIn c.nHashType

/-- `OP_CHECKSIG` and `OP_CHECKSIGVERIFY`. -/
def execCheckSig (c : SigContext) (fVerify : Bool) (scriptCode : CScript) : Stack → Option Stack
  | vchPubKey :: vchSig :: s =>
    verifyFlag fVerify (checkSigOp c (findAndDelete (pushData vchSig) scriptCode) vchSig vchPubKey) s
  | _ => none

/-- The loop of `OP_CHECKMULTISIG`: each key is tried for the next signature, until too few keys are left. -/
def checkMultisigLoop (fOk : Bytes → Bytes → Bool) : List Bytes → List Bytes → Bool
  | [], _ => true
  | _ :: _, [] => false
  | vchSig :: sigs, vchPubKey :: keys =>
    let left := if fOk vchSig vchPubKey then sigs else vchSig :: sigs
    if left.length > keys.length then false
    else if fOk vchSig vchPubKey then checkMultisigLoop fOk sigs keys
    else checkMultisigLoop fOk (vchSig :: sigs) keys

/-- `OP_CHECKMULTISIG` and `OP_CHECKMULTISIGVERIFY`: the stack and the operation count afterwards. -/
def execCheckMultisig (c : SigContext) (fVerify : Bool) (scriptCode : CScript) (nOpCount : Nat) (stack : Stack) :
    Option (Stack × Nat) := do
  let nKeysCount := bigNumGetint (← castToBigNum (← stack[0]?))
  if nKeysCount < 0 ∨ nKeysCount > 20 then none
  let nKeys := nKeysCount.toNat
  if nOpCount + nKeys > 201 then none
  let nSigsCount := bigNumGetint (← castToBigNum (← stack[nKeys + 1]?))
  if nSigsCount < 0 ∨ nSigsCount > nKeysCount then none
  let nSigs := nSigsCount.toNat
  if stack.length < 3 + nKeys + nSigs then none
  let keys := (stack.drop 1).take nKeys
  let sigs := (stack.drop (nKeys + 2)).take nSigs
  let scriptCode := sigs.foldl (fun code vchSig => findAndDelete (pushData vchSig) code) scriptCode
  let stack ← verifyFlag fVerify (checkMultisigLoop (checkSigOp c scriptCode) sigs keys)
    (stack.drop (3 + nKeys + nSigs))
  return (stack, nOpCount + nKeys)

/-- `OP_IF` and `OP_NOTIF`. -/
def execIf (fNot fExec : Bool) (st : ExecState) : Option ExecState :=
  if fExec then
    match st.stack with
    | [] => none
    | vch :: s => some { st with stack := s, vfExec := (castToBool vch != fNot) :: st.vfExec }
  else some { st with vfExec := false :: st.vfExec }

/-- The `switch` over the opcodes, of an operation that is executed or is one of the conditionals. -/
def execOpcode (c : SigContext) (fExec : Bool) (o : Op) (st : ExecState) : Option ExecState :=
  let onStack (f : Stack → Option Stack) : Option ExecState := (f st.stack).map (fun s => { st with stack := s })
  let opcode := o.opcode
  if opcode = op1Negate ∨ (op1 ≤ opcode ∧ opcode ≤ op16) then
    some { st with stack := bigNumVch ((opcode.toNat : Int) - 0x50) :: st.stack }
  else if opcode = 0x61 ∨ (0xb0 ≤ opcode ∧ opcode ≤ 0xb9) then some st
  else if opcode = 0x63 ∨ opcode = 0x64 then execIf (opcode = 0x64) fExec st
  else if opcode = 0x67 then
    match st.vfExec with
    | [] => none
    | f :: vfExec => some { st with vfExec := (!f) :: vfExec }
  else if opcode = 0x68 then
    match st.vfExec with
    | [] => none
    | _ :: vfExec => some { st with vfExec := vfExec }
  else if opcode = 0x69 then
    match st.stack with
    | [] => none
    | vch :: s => if castToBool vch then some { st with stack := s } else none
  else if opcode = opReturn then none
  else if opcode = 0x6b then
    match st.stack with
    | [] => none
    | vch :: s => some { st with stack := s, altstack := vch :: st.altstack }
  else if opcode = 0x6c then
    match st.altstack with
    | [] => none
    | vch :: s => some { st with stack := vch :: st.stack, altstack := s }
  else if opcode = 0x79 ∨ opcode = 0x7a then onStack (execPick (opcode = 0x7a))
  else if (0x6d ≤ opcode ∧ opcode ≤ 0x7d) ∨ opcode = 0x82 then onStack (execStackOp opcode)
  else if opcode = opEqual ∨ opcode = opEqualverify then
    match st.stack with
    | vch2 :: vch1 :: s =>
      (verifyFlag (opcode = opEqualverify) (vch1 = vch2) s).map (fun s => { st with stack := s })
    | _ => none
  else if 0x8b ≤ opcode ∧ opcode ≤ 0xa5 then onStack (execNumOp opcode)
  else if 0xa6 ≤ opcode ∧ opcode ≤ 0xaa then onStack (execHashOp c.cr opcode)
  else if opcode = 0xab then some { st with scriptCode := o.rest }
  else if opcode = opChecksig ∨ opcode = opChecksigverify then
    onStack (execCheckSig c (opcode = opChecksigverify) st.scriptCode)
  else if opcode = opCheckmultisig ∨ opcode = opCheckmultisigverify then
    (execCheckMultisig c (opcode = opCheckmultisigverify) st.scriptCode st.nOpCount st.stack).map
      (fun r => { st with stack := r.1, nOpCount := r.2 })
  else none

/-- One turn of the loop of `EvalScript`. -/
def execOp (c : SigContext) (st : ExecState) (o : Op) : Option ExecState := do
  let fExec := st.vfExec.all id
  if o.vch.length > 520 then none
  let nOpCount := if o.opcode > op16 then st.nOpCount + 1 else st.nOpCount
  if o.opcode > op16 ∧ nOpCount > 201 then none
  if isDisabled o.opcode then none
  let st := { st with nOpCount := nOpCount }
  let st ←
    if fExec ∧ o.opcode ≤ opPushdata4 then some { st with stack := o.vch :: st.stack }
    else if fExec ∨ (0x63 ≤ o.opcode ∧ o.opcode ≤ 0x68) then execOpcode c fExec o st
    else some st
  if st.stack.length + st.altstack.length > 1000 then none
  return st

/-- `EvalScript`: the stack it leaves, `none` when it returns false. -/
def evalScript (c : SigContext) (stack : Stack) (script : CScript) : Option Stack := do
  if script.length > 10000 then none
  let (ops, fEnd) := parseOps script
  let st ← ops.foldlM (execOp c) { stack := stack, scriptCode := script }
  if !fEnd then none
  if st.vfExec ≠ [] then none
  return st.stack

/-- `VerifyScript`. -/
def verifyScript (cr : Crypto) (scriptSig scriptPubKey : CScript) (txTo : CTransaction) (nIn : Nat)
    (flags : ScriptFlags) (nHashType : Nat) : Bool :=
  let c : SigContext := { cr := cr, txTo := txTo, nIn := nIn, flags := flags, nHashType := nHashType }
  match evalScript c [] scriptSig with
  | none => false
  | some stackCopy =>
    match evalScript c stackCopy scriptPubKey with
    | none => false
    | some stack =>
      if !(stack.head?.any castToBool) then false
      else if flags.p2sh ∧ isPayToScriptHash scriptPubKey then
        if !isPushOnly scriptSig then false
        else
          match stackCopy with
          | [] => false
          | pubKey2 :: stackCopy =>
            match evalScript c stackCopy pubKey2 with
            | none => false
            | some stack => stack.head?.any castToBool
      else true

end Morcochain
