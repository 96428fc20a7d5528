import Morcochain.Transaction

/-!
# Script templates and destinations

`Solver` of `script.cpp` matches a script against the standard templates. The destinations, the park outputs and the
counts of expected arguments are read off its solutions.
-/

set_option autoImplicit false

namespace Morcochain

/-- `txnouttype`. -/
inductive TxnOutType where
  | nonstandard
  | pubkey
  | pubkeyhash
  | scripthash
  | multisig
  | nullData
  | park
deriving DecidableEq, Repr

/-- `CTxDestination`. -/
inductive CTxDestination where
  | none
  | keyID (id : Uint160)
  | scriptID (id : Uint160)
deriving DecidableEq, Repr

/-! ## Templates -/

/-- `mTemplates`, in the order of the map's keys: each template as its opcodes. -/
def mTemplates : List (TxnOutType × List UInt8) :=
  [(.pubkey, [opPubkey, opChecksig]),
   (.pubkeyhash, [opDup, opHash160, opPubkeyhash, opEqualverify, opChecksig]),
   (.multisig, [opSmallinteger, opPubkeys, opSmallinteger, opCheckmultisig]),
   (.nullData, [opReturn, opSmalldata]),
   (.park, [opReturn, op3, opInteger, opPubkeyhash])]

/-- The opcode pushes a small number. -/
def isSmallInteger (opcode : UInt8) : Bool := opcode = op0 || (op1 ≤ opcode && opcode ≤ op16)

/-- The solution that one operation of the script adds at a template opcode other than `OP_PUBKEYS`, `none` when it
does not match. -/
def matchOp (opcode2 opcode1 : UInt8) (vch1 : Bytes) : Option (List Bytes) :=
  if opcode2 = opPubkey then
    if vch1.length < 33 ∨ vch1.length > 120 then none else some [vch1]
  else if opcode2 = opPubkeyhash then
    if vch1.length ≠ 20 then none else some [vch1]
  else if opcode2 = opSmallinteger then
    if isSmallInteger opcode1 then some [[UInt8.ofNat (decodeOpN opcode1)]] else none
  else if opcode2 = opInteger then
    if isSmallInteger opcode1 then some [[UInt8.ofNat (decodeOpN opcode1)]]
    else if 1 ≤ vch1.length ∧ vch1.length ≤ 4 then some [vch1]
    else none
  else if opcode2 = opSmalldata then
    if vch1.length > 80 then none else some []
  else if opcode1 ≠ opcode2 ∨ vch1 ≠ [] then none
  else some []

/-- The loop at `OP_PUBKEYS`: take pushes of the size of a public key, and stop at the first other operation, or at
`OP_INVALIDOPCODE` where `GetOp` fails. -/
def takePubkeys (o : Op) : List Bytes × Op :=
  if 33 ≤ o.vch.length ∧ o.vch.length ≤ 120 then
    match h : getOp o.rest with
    | none => ([o.vch], ⟨opInvalidopcode, [], o.rest⟩)
    | some o' =>
      have := getOp_rest h
      let (keys, last) := takePubkeys o'
      (o.vch :: keys, last)
  else ([], o)
termination_by o.rest.length

/-- The comparison of a script with the opcodes of a template: the solutions when they match. -/
def matchTemplate : List UInt8 → CScript → Option (List Bytes)
  | [], pc1 => if pc1 = [] then some [] else none
  | opcode2 :: pc2, pc1 =>
    match getOp pc1 with
    | none => none
    | some o =>
      if opcode2 = opPubkeys then
        let (keys, last) := takePubkeys o
        match pc2 with
        | [] => none
        | opcode2 :: pc2 => do
          let solution ← matchOp opcode2 last.opcode last.vch
          let solutions ← matchTemplate pc2 last.rest
          return keys ++ solution ++ solutions
      else do
        let solution ← matchOp opcode2 o.opcode o.vch
        let solutions ← matchTemplate pc2 o.rest
        return solution ++ solutions

/-- The additional checks for `TX_MULTISIG`. -/
def checkMultisigSolutions (vSolutions : List Bytes) : Bool :=
  let m := ((vSolutions.head?.bind (·.head?)).getD 0).toNat
  let n := ((vSolutions.getLast?.bind (·.head?)).getD 0).toNat
  !(m < 1 || n < 1 || m > n || vSolutions.length - 2 ≠ n)

/-- `Solver`: the type and the solutions of a standard script, `none` when it returns false. -/
def solver (scriptPubKey : CScript) : Option (TxnOutType × List Bytes) :=
  if isPayToScriptHash scriptPubKey then some (.scripthash, [(scriptPubKey.drop 2).take 20])
  else
    match (mTemplates.findSome? fun t => (matchTemplate t.2 scriptPubKey).map (fun s => (t.1, s)) :
      Option (TxnOutType × List Bytes)) with
    | none => none
    | some (.multisig, vSolutions) =>
      if checkMultisigSolutions vSolutions then some (.multisig, vSolutions) else none
    | some solved => some solved

/-! ## Reading solutions -/

/-- `ScriptSigArgsExpected`. -/
def scriptSigArgsExpected (t : TxnOutType) (vSolutions : List Bytes) : Int :=
  match t with
  | .nonstandard | .nullData => -1
  | .pubkey => 1
  | .pubkeyhash => 2
  | .park => 1
  | .multisig => ((vSolutions.head?.bind (·.head?)).map (fun m => (m.toNat : Int) + 1)).getD (-1)
  | .scripthash => 1

/-- `IsStandard` of a script, with the type it returns. -/
def isStandardScript (scriptPubKey : CScript) : Option TxnOutType :=
  match solver scriptPubKey with
  | none => none
  | some (.multisig, vSolutions) =>
    let m := ((vSolutions.head?.bind (·.head?)).getD 0).toNat
    let n := ((vSolutions.getLast?.bind (·.head?)).getD 0).toNat
    if n < 1 ∨ n > 3 ∨ m < 1 ∨ m > n then none else some .multisig
  | some (whichType, _) => if whichType = .nonstandard then none else some whichType

/-- `ExtractDestination`. -/
def extractDestination (cr : Crypto) (scriptPubKey : CScript) : Option CTxDestination :=
  match solver scriptPubKey with
  | some (.pubkey, vSolutions) => some (.keyID (cr.hash160 (vSolutions.getD 0 [])))
  | some (.pubkeyhash, vSolutions) => some (.keyID (Uint160.ofBytes (vSolutions.getD 0 [])))
  | some (.park, vSolutions) => some (.keyID (Uint160.ofBytes (vSolutions.getD 1 [])))
  | some (.scripthash, vSolutions) => some (.scriptID (Uint160.ofBytes (vSolutions.getD 0 [])))
  | _ => none

/-- `IsPark`. -/
def isPark (scriptPubKey : CScript) : Bool := (solver scriptPubKey).any (fun s => s.1 = .park)

def maxParkDuration : Int := 1000000000

/-- `ParkDurationRange`. -/
def parkDurationRange (nDuration : Int) : Bool := 1 ≤ nDuration ∧ nDuration ≤ maxParkDuration

/-- `ExtractPark`: the duration and the unpark address of a park output. -/
def extractPark (scriptPubKey : CScript) : Option (Int × CTxDestination) :=
  match solver scriptPubKey with
  | some (.park, [solution, hashBytes]) =>
    match castToBigNum solution with
    | none => none
    | some bn =>
      let nDuration := bigNumGetint bn
      if parkDurationRange nDuration then some (nDuration, .keyID (Uint160.ofBytes hashBytes)) else none
  | _ => none

/-- `IsValidPark`. -/
def isValidPark (scriptPubKey : CScript) : Bool := (extractPark scriptPubKey).isSome

/-- `CScript::SetDestination`. -/
def setDestination : CTxDestination → CScript
  | .none => []
  | .keyID keyID => opDup :: opHash160 :: (0x14 :: keyID.bytes) ++ [opEqualverify, opChecksig]
  | .scriptID scriptID => opHash160 :: (0x14 :: scriptID.bytes) ++ [opEqual]

/-- `CScript::SetPark`, for a duration in range. -/
def setPark (nDuration : Int) (unparkAddress : Uint160) : CScript :=
  opReturn :: op3 :: pushInt64 nDuration ++ (0x14 :: unparkAddress.bytes)

/-- `CTxOut::IsPark`. -/
def CTxOut.isPark (txout : CTxOut) : Bool := Morcochain.isPark txout.scriptPubKey

/-! ## Scripts of destinations -/

/-- Reading a push of the twenty bytes of a hash. -/
theorem getOp_push20 (id : Uint160) (s : CScript) : getOp (0x14 :: (id.bytes ++ s)) = some ⟨0x14, id.bytes, s⟩ := by
  have hlen := id.size_eq
  have hsize : UInt8.toNat 0x14 = 20 := rfl
  rw [getOp, if_pos (by decide), getOperand, hsize, if_neg (by rw [List.length_append]; omega), List.take_left' hlen,
    List.drop_left' hlen]

/-- Reading an opcode above the pushes. -/
theorem getOp_opcode {opcode : UInt8} (h : opPushdata4 < opcode) (s : CScript) :
    getOp (opcode :: s) = some ⟨opcode, [], s⟩ := by
  have hge : ∀ {b : UInt8}, b ≤ opPushdata4 → opcode ≠ b := fun hb he => absurd (he ▸ h) (Std.not_lt.mpr hb)
  rw [getOp, if_neg (Std.not_lt.mpr (Std.le_of_lt (Std.lt_trans (by decide) h))), if_neg (hge (by decide)),
    if_neg (hge (by decide)), if_neg (hge (by decide))]

/-- One step of the comparison with a template. -/
theorem matchTemplate_cons {opcode2 : UInt8} {pc2 : List UInt8} {pc1 : CScript} {o : Op} (hne : opcode2 ≠ opPubkeys)
    (ho : getOp pc1 = some o) :
    matchTemplate (opcode2 :: pc2) pc1 =
      (matchOp opcode2 o.opcode o.vch).bind (fun solution => (matchTemplate pc2 o.rest).map (solution ++ ·)) := by
  rw [matchTemplate, ho]
  simp only [if_neg hne, Option.bind_eq_bind, Option.map_eq_bind]
  rfl

/-- What a step of the comparison has read when the template matches. -/
theorem matchTemplate_cons_eq_some {opcode2 : UInt8} {pc2 : List UInt8} {pc1 : CScript} {vSolutions : List Bytes}
    (hne : opcode2 ≠ opPubkeys) (h : matchTemplate (opcode2 :: pc2) pc1 = some vSolutions) :
    ∃ o solution solutions, getOp pc1 = some o ∧ matchOp opcode2 o.opcode o.vch = some solution ∧
      matchTemplate pc2 o.rest = some solutions ∧ vSolutions = solution ++ solutions := by
  cases ho : getOp pc1 with
  | none =>
    rw [matchTemplate, ho] at h
    cases h
  | some o =>
    rw [matchTemplate_cons hne ho] at h
    obtain ⟨solution, hsolution, hrest⟩ := Option.bind_eq_some_iff.mp h
    obtain ⟨solutions, hsolutions, heq⟩ := Option.map_eq_some_iff.mp hrest
    exact ⟨o, solution, solutions, rfl, hsolution, hsolutions, heq.symm⟩

/-- The opcodes of a template that stand for themselves. -/
theorem matchOp_exact {opcode2 opcode1 : UInt8} {vch1 : Bytes} {solution : List Bytes}
    (h : matchOp opcode2 opcode1 vch1 = some solution)
    (hexact : opcode2 ≠ opPubkey ∧ opcode2 ≠ opPubkeyhash ∧ opcode2 ≠ opSmallinteger ∧ opcode2 ≠ opInteger ∧
      opcode2 ≠ opSmalldata) : opcode1 = opcode2 ∧ vch1 = [] ∧ solution = [] := by
  obtain ⟨h1, h2, h3, h4, h5⟩ := hexact
  rw [matchOp, if_neg h1, if_neg h2, if_neg h3, if_neg h4, if_neg h5] at h
  split at h
  · cases h
  · rename_i hn
    cases h
    rw [not_or, not_not, not_not] at hn
    exact ⟨hn.1, hn.2, rfl⟩

/-- The end of a template is the end of the script. -/
theorem matchTemplate_nil_eq_some {pc1 : CScript} {vSolutions : List Bytes}
    (h : matchTemplate [] pc1 = some vSolutions) :
    pc1 = [] ∧ vSolutions = [] := by
  rw [matchTemplate] at h
  split at h
  · rename_i hend
    exact ⟨hend, (Option.some.inj h).symm⟩
  · cases h

theorem matchOp_pubkeyhash (opcode1 : UInt8) (id : Uint160) :
    matchOp opPubkeyhash opcode1 id.bytes = some [id.bytes] := by
  rw [matchOp, if_neg (by decide), if_pos rfl, if_neg (by simp [id.size_eq])]

theorem isPayToScriptHash_keyID (id : Uint160) : isPayToScriptHash (setDestination (.keyID id)) = false := by
  have hlen : (setDestination (.keyID id)).length = 25 := by
    simp [setDestination, id.size_eq]
  simp [isPayToScriptHash, hlen]

/-- The script of a key id is matched as such. -/
theorem solver_keyID (id : Uint160) : solver (setDestination (.keyID id)) = some (.pubkeyhash, [id.bytes]) := by
  have hkey : matchTemplate [opDup, opHash160, opPubkeyhash, opEqualverify, opChecksig] (setDestination (.keyID id))
      = some [id.bytes] := by
    have h₁ := getOp_opcode (show opPushdata4 < opDup by decide)
    have h₂ := getOp_opcode (show opPushdata4 < opHash160 by decide)
    rw [setDestination, List.cons_append, List.cons_append, List.cons_append, matchTemplate_cons (by decide) (h₁ _),
      matchTemplate_cons (by decide) (h₂ _), matchTemplate_cons (by decide) (getOp_push20 id _), matchOp_pubkeyhash]
    rfl
  have hpub : matchTemplate [opPubkey, opChecksig] (setDestination (.keyID id)) = none := by
    have h₁ := getOp_opcode (show opPushdata4 < opDup by decide)
    rw [setDestination, List.cons_append, List.cons_append, matchTemplate_cons (by decide) (h₁ _)]
    rfl
  rw [solver, isPayToScriptHash_keyID]
  simp only [mTemplates, List.findSome?_cons, hpub, hkey]
  rfl

/-- A script of a type other than pay-to-script-hash is matched by the template of that type. -/
theorem solver_template {s : CScript} {t : TxnOutType} {vSolutions : List Bytes} (h : solver s = some (t, vSolutions))
    (ht : t ≠ .scripthash) : isPayToScriptHash s = false ∧ (∃ script2, (t, script2) ∈ mTemplates ∧
      matchTemplate script2 s = some vSolutions) ∧ (t = .multisig → checkMultisigSolutions vSolutions = true) := by
  unfold solver at h
  split at h
  · cases h
    exact absurd rfl ht
  · rename_i hp2sh
    refine ⟨Bool.eq_false_iff.mpr hp2sh, ?_⟩
    have htemplate : ∀ {r : TxnOutType × List Bytes}, (mTemplates.findSome? fun t => (matchTemplate t.2 s).map
        (fun s => (t.1, s)) : Option (TxnOutType × List Bytes)) = some r →
        ∃ script2, (r.1, script2) ∈ mTemplates ∧ matchTemplate script2 s = some r.2 := by
      intro r hr
      obtain ⟨template, hmem, hmap⟩ := List.exists_of_findSome?_eq_some hr
      obtain ⟨solutions, hmatch, rfl⟩ := Option.map_eq_some_iff.mp hmap
      exact ⟨template.2, hmem, hmatch⟩
    split at h
    · cases h
    · rename_i hfind
      split at h
      · rename_i hcheck
        cases h
        exact ⟨htemplate hfind, fun _ => hcheck⟩
      · cases h
    · rename_i hne hfind
      cases h
      exact ⟨htemplate hfind, fun heq => absurd (by rw [heq]) (hne vSolutions)⟩

/-- The script of a script id is matched as such. -/
theorem solver_scriptID (id : Uint160) : solver (setDestination (.scriptID id)) = some (.scripthash, [id.bytes]) := by
  have hlen := id.size_eq
  have hp2sh : isPayToScriptHash (setDestination (.scriptID id)) = true := by
    simp [isPayToScriptHash, setDestination, hlen]
  rw [solver, if_pos hp2sh]
  simp [setDestination, hlen]

/-- The script of a destination pays to it. -/
theorem extractDestination_setDestination {cr : Crypto} {d : CTxDestination} (hd : d ≠ .none) :
    extractDestination cr (setDestination d) = some d := by
  cases d with
  | none => exact absurd rfl hd
  | keyID id =>
    rw [extractDestination, solver_keyID]
    exact congrArg (fun i => some (CTxDestination.keyID i)) (Uint160.ofBytes_bytes id)
  | scriptID id =>
    rw [extractDestination, solver_scriptID]
    exact congrArg (fun i => some (CTxDestination.scriptID i)) (Uint160.ofBytes_bytes id)

theorem extractDestination_ne_none {cr : Crypto} {s : CScript} {d : CTxDestination}
    (h : extractDestination cr s = some d) :
    d ≠ .none := by
  unfold extractDestination at h
  split at h <;> cases h <;> exact fun hnone => nomatch hnone

end Morcochain
