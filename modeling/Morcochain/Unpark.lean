import Morcochain.CheckInputs
import Morcochain.ParkScripts
import Morcochain.ScriptRuns

/-!
# What an unpark transaction pays to

The scripts that a key can spend with its signature alone, by running them in the interpreter, and the outputs that the
checks of an unpark transaction let through.

* `spendableWith_pubkey`, `spendableWith_pubkeyhash` : the scripts that pay to a public key or to its hash.
* `unparkSafe_iff` : **exactly when** an accepted unpark transaction pays back to the owner of the unpark key: its
  output is not a park output.
-/

set_option autoImplicit false

namespace Morcochain

open Guard

/-! ## Reading templates -/

/-- An opcode that stands for itself. -/
theorem matchTemplate_exact {opcode2 : UInt8} {pc2 : List UInt8} {pc1 : CScript} {vSolutions : List Bytes}
    (hne : opcode2 ≠ opPubkeys)
    (hexact : opcode2 ≠ opPubkey ∧ opcode2 ≠ opPubkeyhash ∧ opcode2 ≠ opSmallinteger ∧ opcode2 ≠ opInteger ∧
      opcode2 ≠ opSmalldata) (h : matchTemplate (opcode2 :: pc2) pc1 = some vSolutions) :
    ∃ rest, getOp pc1 = some ⟨opcode2, [], rest⟩ ∧ matchTemplate pc2 rest = some vSolutions := by
  obtain ⟨⟨opcode, vch, rest⟩, solution, solutions, ho, hm, ht, heq⟩ := matchTemplate_cons_eq_some hne h
  obtain ⟨hop, hvch, hsol⟩ := matchOp_exact hm hexact
  simp only at hop hvch
  subst hop hvch hsol
  exact ⟨rest, ho, by rw [heq, List.nil_append]; exact ht⟩

/-- A public key in a template. -/
theorem matchTemplate_opPubkey {pc2 : List UInt8} {pc1 : CScript} {vSolutions : List Bytes}
    (h : matchTemplate (opPubkey :: pc2) pc1 = some vSolutions) :
    ∃ o solutions, getOp pc1 = some o ∧ (33 ≤ o.vch.length ∧ o.vch.length ≤ 120) ∧
      matchTemplate pc2 o.rest = some solutions ∧ vSolutions = o.vch :: solutions := by
  obtain ⟨o, solution, solutions, ho, hm, ht, heq⟩ := matchTemplate_cons_eq_some (by decide) h
  rw [matchOp, if_pos rfl] at hm
  split at hm
  · cases hm
  · rename_i hsize
    cases hm
    exact ⟨o, solutions, ho, by omega, ht, heq⟩

/-- The hash of a public key in a template. -/
theorem matchTemplate_opPubkeyhash {pc2 : List UInt8} {pc1 : CScript} {vSolutions : List Bytes}
    (h : matchTemplate (opPubkeyhash :: pc2) pc1 = some vSolutions) :
    ∃ o solutions, getOp pc1 = some o ∧ o.vch.length = 20 ∧
      matchTemplate pc2 o.rest = some solutions ∧ vSolutions = o.vch :: solutions := by
  obtain ⟨o, solution, solutions, ho, hm, ht, heq⟩ := matchTemplate_cons_eq_some (by decide) h
  rw [matchOp, if_neg (by decide), if_pos rfl] at hm
  split at hm
  · cases hm
  · rename_i hsize
    cases hm
    exact ⟨o, solutions, ho, not_not.mp hsize, ht, heq⟩

/-! ## Running single operations -/

section Exec

variable {c : SigContext} {st : ExecState} {s : Stack} {rest : CScript} {vch vch1 vch2 : Bytes}

/-- An operation that is not a push, where no conditional is open. -/
theorem execOp_opcode {opcode : UInt8} {st' : ExecState} (hexec : st.vfExec = []) (hop : op16 < opcode)
    (hdis : isDisabled opcode = false) (hcount : st.nOpCount ≤ 200)
    (hrun : execOpcode c true ⟨opcode, [], rest⟩ { st with nOpCount := st.nOpCount + 1 } = some st')
    (hsize : st'.stack.length + st'.altstack.length ≤ 1000) : execOp c st ⟨opcode, [], rest⟩ = some st' := by
  have hpush : ¬ opcode ≤ opPushdata4 := Std.not_le.mpr (Std.lt_trans (by decide) hop)
  have hc : ¬ st.nOpCount + 1 > 201 := by omega
  unfold execOp
  simp only [hdis, gt_iff_lt, hop, if_true, hpush, and_false, if_false, hexec, List.all_nil]
  rw [hexec] at hrun
  simp only [hrun, hc]
  simpa using hsize

theorem execOpcode_dup (hstack : st.stack = vch :: s) :
    execOpcode c true ⟨opDup, [], rest⟩ st = some { st with stack := vch :: vch :: s } := by
  obtain ⟨stack, altstack, vfExec, n, code⟩ := st
  subst hstack
  rfl

theorem execOpcode_hash160 (hstack : st.stack = vch :: s) :
    execOpcode c true ⟨opHash160, [], rest⟩ st = some { st with stack := (c.cr.hash160 vch).bytes :: s } := by
  obtain ⟨stack, altstack, vfExec, n, code⟩ := st
  subst hstack
  rfl

theorem execOpcode_equalverify (hstack : st.stack = vch :: vch :: s) :
    execOpcode c true ⟨opEqualverify, [], rest⟩ st = some { st with stack := s } := by
  obtain ⟨stack, altstack, vfExec, n, code⟩ := st
  subst hstack
  show (verifyFlag true (decide (vch = vch)) s).map _ = _
  rw [decide_eq_true rfl]
  rfl

theorem execOpcode_checksig (hstack : st.stack = vch2 :: vch1 :: s) :
    execOpcode c true ⟨opChecksig, [], rest⟩ st = some { st with
      stack := vchBool (checkSigOp c (findAndDelete (pushData vch1) st.scriptCode) vch1 vch2) :: s } := by
  obtain ⟨stack, altstack, vfExec, n, code⟩ := st
  subst hstack
  rfl

end Exec

/-! ## Running scripts -/

section Eval

variable {c : SigContext} {script : CScript}

/-- Running a script that is read to its end and leaves no conditional open. -/
theorem evalScript_of_ops (ops : List Op) {stack : Stack} (st : ExecState) (hlen : script.length ≤ 10000)
    (hops : parseOps script = (ops, true))
    (hrun : ops.foldlM (execOp c) { stack := stack, scriptCode := script } = some st) (hexec : st.vfExec = []) :
    evalScript c stack script = some st.stack :=
  evalScript_of_run hlen (by rw [runScript, hops]; exact hrun) hexec

/-- A signature as a script. -/
theorem evalScript_push {v : Bytes} (hv : v.length ≤ 520) : evalScript c [] (pushData v) = some [v] := by
  obtain ⟨opcode, hop, hget⟩ := getOp_pushData (Nat.le_trans hv (by decide)) []
  rw [List.append_nil] at hget
  have hlen := length_pushData v
  refine evalScript_of_ops [⟨opcode, v, []⟩] { stack := [v], scriptCode := pushData v } (by omega) ?_ ?_ rfl
  · rw [parseOps_cons hget, parseOps_nil]
  · rw [List.foldlM_cons, execOp_push hop hv rfl (by simp)]
    rfl

/-- A signature and a public key as a script. -/
theorem evalScript_push_push {v w : Bytes} (hv : v.length ≤ 520) (hw : w.length ≤ 520) :
    evalScript c [] (pushData v ++ pushData w) = some [w, v] := by
  obtain ⟨opcode, hop, hget⟩ := getOp_pushData (Nat.le_trans hv (by decide)) (pushData w)
  obtain ⟨opcode', hop', hget'⟩ := getOp_pushData (Nat.le_trans hw (by decide)) []
  rw [List.append_nil] at hget'
  have hlen := length_pushData v
  have hlen' := length_pushData w
  refine evalScript_of_ops [⟨opcode, v, pushData w⟩, ⟨opcode', w, []⟩]
    { stack := [w, v], scriptCode := pushData v ++ pushData w } (by rw [List.length_append]; omega) ?_ ?_ rfl
  · rw [parseOps_cons hget, parseOps_cons hget', parseOps_nil]
  · rw [List.foldlM_cons, execOp_push hop hv rfl (by simp), Option.bind_eq_bind, Option.bind_some, List.foldlM_cons,
      execOp_push hop' hw rfl (by simp)]
    rfl

/-- A script that pays to a public key, run over a signature. -/
theorem evalScript_pubkey {K s : Bytes} (h : matchTemplate [opPubkey, opChecksig] script = some [K]) :
    (33 ≤ K.length ∧ K.length ≤ 120) ∧ evalScript c [s] script =
      some [vchBool (checkSigOp c (findAndDelete (pushData s) script) s K)] := by
  obtain ⟨o, sols, ho, hsize, h1, heq⟩ := matchTemplate_opPubkey h
  obtain ⟨r2, ho2, h2⟩ := matchTemplate_exact (by decide) (by decide) h1
  obtain ⟨rfl, rfl⟩ := matchTemplate_nil_eq_some h2
  cases heq
  have hl1 := getOp_length ho
  have hl2 := getOp_length ho2
  simp only [List.length_nil] at hl2
  refine ⟨hsize, evalScript_of_ops [o, ⟨opChecksig, [], []⟩] {
    stack := [vchBool (checkSigOp c (findAndDelete (pushData s) script) s o.vch)]
    nOpCount := 1, scriptCode := script } (by omega) ?_ ?_ rfl⟩
  · rw [parseOps_cons ho, parseOps_cons ho2, parseOps_nil]
  · have hne : o.vch ≠ [] := List.ne_nil_of_length_pos (by omega)
    rw [List.foldlM_cons, execOp_push (getOp_push_opcode ho hne) (by omega) rfl (by simp), Option.bind_eq_bind,
      Option.bind_some, List.foldlM_cons,
      execOp_opcode rfl (by decide) (by decide) (by simp) (execOpcode_checksig rfl) (by simp)]
    rfl

/-- A script that pays to the hash of a public key, run over a signature and the key. -/
theorem evalScript_pubkeyhash {K sig h : Bytes}
    (hm : matchTemplate [opDup, opHash160, opPubkeyhash, opEqualverify, opChecksig] script = some [h])
    (hK : (c.cr.hash160 K).bytes = h) : evalScript c [K, sig] script =
      some [vchBool (checkSigOp c (findAndDelete (pushData sig) script) sig K)] := by
  obtain ⟨r1, ho1, h1⟩ := matchTemplate_exact (by decide) (by decide) hm
  obtain ⟨r2, ho2, h2⟩ := matchTemplate_exact (by decide) (by decide) h1
  obtain ⟨o3, sols, ho3, hsize, h3, heq⟩ := matchTemplate_opPubkeyhash h2
  obtain ⟨r4, ho4, h4⟩ := matchTemplate_exact (by decide) (by decide) h3
  obtain ⟨r5, ho5, h5⟩ := matchTemplate_exact (by decide) (by decide) h4
  obtain ⟨rfl, rfl⟩ := matchTemplate_nil_eq_some h5
  cases heq
  have hl1 := getOp_length ho1
  have hl2 := getOp_length ho2
  have hl3 := getOp_length ho3
  have hl4 := getOp_length ho4
  have hl5 := getOp_length ho5
  simp only [List.length_nil] at hl1 hl2 hl4 hl5
  refine evalScript_of_ops
    [⟨opDup, [], r1⟩, ⟨opHash160, [], r2⟩, o3, ⟨opEqualverify, [], r4⟩, ⟨opChecksig, [], []⟩]
    { stack := [vchBool (checkSigOp c (findAndDelete (pushData sig) script) sig K)]
      nOpCount := 4, scriptCode := script } (by omega) ?_ ?_ rfl
  · rw [parseOps_cons ho1, parseOps_cons ho2, parseOps_cons ho3, parseOps_cons ho4, parseOps_cons ho5, parseOps_nil]
  · have hne : o3.vch ≠ [] := List.ne_nil_of_length_pos (by omega)
    rw [List.foldlM_cons, execOp_opcode rfl (by decide) (by decide) (by simp) (execOpcode_dup rfl) (by simp),
      Option.bind_eq_bind, Option.bind_some, List.foldlM_cons,
      execOp_opcode rfl (by decide) (by decide) (by simp) (execOpcode_hash160 rfl) (by simp),
      Option.bind_eq_bind, Option.bind_some, List.foldlM_cons,
      execOp_push (getOp_push_opcode ho3 hne) (by omega) rfl (by simp), hK, Option.bind_eq_bind, Option.bind_some,
      List.foldlM_cons,
      execOp_opcode rfl (by decide) (by decide) (by simp) (execOpcode_equalverify rfl) (by simp),
      Option.bind_eq_bind, Option.bind_some, List.foldlM_cons,
      execOp_opcode rfl (by decide) (by decide) (by simp) (execOpcode_checksig rfl) (by simp)]
    rfl

end Eval

/-! ## Scripts that a key can spend -/

/-- The scripts that the owner of a key can spend with a signature alone: some key with the hash spends every such
output by a script of its signature, or of its signature and the key. -/
def SpendableWith (cr : Crypto) (script : CScript) (id : Uint160) : Prop :=
  (∃ K : Bytes, (33 ≤ K.length ∧ K.length ≤ 120) ∧ cr.hash160 K = id) →
    ∃ K : Bytes, (33 ≤ K.length ∧ K.length ≤ 120) ∧ cr.hash160 K = id ∧
      ∀ (txTo : CTransaction) (nIn : Nat) (vchSig : Bytes) (fP2SH : Bool), vchSig.length ≤ 520 →
        checkSig cr vchSig K (findAndDelete (pushData vchSig) script) txTo nIn 0 = true →
        ∃ scriptSig, (scriptSig = pushData vchSig ∨ scriptSig = pushData vchSig ++ pushData K) ∧
          verifyScript cr scriptSig script txTo nIn { p2sh := fP2SH } 0 = true

section Spendable

variable {cr : Crypto} {script : CScript}

/-- A script that is not a script hash is verified when it leaves a true value. -/
theorem verifyScript_of_eval {scriptSig : CScript} {txTo : CTransaction} {nIn : Nat} {flags : ScriptFlags}
    {stackCopy : Stack} (hp2sh : isPayToScriptHash script = false)
    (hsig : evalScript ⟨cr, txTo, nIn, flags, 0⟩ [] scriptSig = some stackCopy)
    (hrun : evalScript ⟨cr, txTo, nIn, flags, 0⟩ stackCopy script = some [vchBool true]) :
    verifyScript cr scriptSig script txTo nIn flags 0 = true := by
  unfold verifyScript
  simp only [hsig, hrun, hp2sh]
  simp [vchBool, castToBool]

theorem spendableWith_pubkey {K : Bytes} (h : solver script = some (.pubkey, [K])) :
    SpendableWith cr script (cr.hash160 K) := by
  obtain ⟨hp2sh, ⟨template, hmem, hm⟩, -⟩ := solver_template h (by decide)
  have htemplate : template = [opPubkey, opChecksig] := by
    simpa [mTemplates] using hmem
  subst htemplate
  obtain ⟨hsize, -⟩ := evalScript_pubkey (c := ⟨cr, {}, 0, {}, 0⟩) (s := []) hm
  refine fun _ => ⟨K, hsize, rfl, fun txTo nIn vchSig fP2SH hlen hsig => ⟨pushData vchSig, .inl rfl, ?_⟩⟩
  refine verifyScript_of_eval hp2sh (evalScript_push hlen) ?_
  rw [(evalScript_pubkey hm).2]
  simp [checkSigOp, hsig]

theorem spendableWith_pubkeyhash {h : Bytes} (hs : solver script = some (.pubkeyhash, [h])) :
    SpendableWith cr script (Uint160.ofBytes h) := by
  obtain ⟨hp2sh, ⟨template, hmem, hm⟩, -⟩ := solver_template hs (by decide)
  have htemplate : template = [opDup, opHash160, opPubkeyhash, opEqualverify, opChecksig] := by
    simpa [mTemplates] using hmem
  subst htemplate
  rintro ⟨K, hsize, hK⟩
  have hbytes : h.length = 20 := by
    obtain ⟨r1, -, h1⟩ := matchTemplate_exact (by decide) (by decide) hm
    obtain ⟨r2, -, h2⟩ := matchTemplate_exact (by decide) (by decide) h1
    obtain ⟨o3, sols, -, hsize, -, heq⟩ := matchTemplate_opPubkeyhash h2
    cases heq
    exact hsize
  refine ⟨K, hsize, hK, fun txTo nIn vchSig fP2SH hlen hsig =>
    ⟨pushData vchSig ++ pushData K, .inr rfl, ?_⟩⟩
  refine verifyScript_of_eval hp2sh (evalScript_push_push hlen (by omega)) ?_
  rw [evalScript_pubkeyhash hm (by rw [hK, Uint160.bytes_ofBytes hbytes])]
  simp [checkSigOp, hsig]

/-- The solutions of the two kinds of scripts that name one key. -/
theorem solutions_of_solver {t : TxnOutType} {vSolutions : List Bytes} (h : solver script = some (t, vSolutions))
    (ht : t = .pubkey ∨ t = .pubkeyhash) : ∃ v, vSolutions = [v] := by
  obtain ⟨-, ⟨template, hmem, hm⟩, -⟩ := solver_template h (by rcases ht with rfl | rfl <;> decide)
  rcases ht with rfl | rfl
  · have htemplate : template = [opPubkey, opChecksig] := by simpa [mTemplates] using hmem
    subst htemplate
    obtain ⟨o, sols, -, -, h1, rfl⟩ := matchTemplate_opPubkey hm
    obtain ⟨r2, -, h2⟩ := matchTemplate_exact (by decide) (by decide) h1
    exact ⟨o.vch, by rw [(matchTemplate_nil_eq_some h2).2]⟩
  · have htemplate : template = [opDup, opHash160, opPubkeyhash, opEqualverify, opChecksig] := by
      simpa [mTemplates] using hmem
    subst htemplate
    obtain ⟨r1, -, h1⟩ := matchTemplate_exact (by decide) (by decide) hm
    obtain ⟨r2, -, h2⟩ := matchTemplate_exact (by decide) (by decide) h1
    obtain ⟨o3, sols, -, -, h3, rfl⟩ := matchTemplate_opPubkeyhash h2
    obtain ⟨r4, -, h4⟩ := matchTemplate_exact (by decide) (by decide) h3
    obtain ⟨r5, -, h5⟩ := matchTemplate_exact (by decide) (by decide) h4
    exact ⟨o3.vch, by rw [(matchTemplate_nil_eq_some h5).2]⟩

/-- **The scripts that `ExtractDestination` maps to a key**: the key can spend them, or they are park scripts. -/
theorem extractDestination_keyID {id : Uint160} (h : extractDestination cr script = some (.keyID id))
    (hpark : isPark script = false) : SpendableWith cr script id := by
  unfold extractDestination at h
  split at h
  · rename_i vSolutions hs
    obtain ⟨K, rfl⟩ := solutions_of_solver hs (.inl rfl)
    cases h
    exact spendableWith_pubkey hs
  · rename_i vSolutions hs
    obtain ⟨v, rfl⟩ := solutions_of_solver hs (.inr rfl)
    cases h
    exact spendableWith_pubkeyhash hs
  · rename_i vSolutions hs
    rw [isPark, hs] at hpark
    cases hpark
  · cases h
  · cases h

end Spendable

/-! ## Addresses -/

section Addresses

variable {cfg : Settings}

theorem CTxDestination.keyID_ne_none (id : Uint160) : CTxDestination.keyID id ≠ .none := fun h => nomatch h

theorem addressOf_eq_ok {dest : CTxDestination} {cUnit : CUnit} {a : CBitcoinAddress} :
    addressOf cfg dest cUnit = .ok a ↔ CBitcoinAddress.ofDestination cfg.fTestNet dest cUnit = some a := by
  unfold addressOf
  split
  · rename_i h
    simp [h]
  · rename_i h
    simp [h]

/-- The address of a key names the key and the unit. -/
theorem addressOf_inj {id : Uint160} {dest : CTxDestination} {u u' : CUnit} {a : CBitcoinAddress}
    (h : addressOf cfg (.keyID id) u = .ok a) (h' : addressOf cfg dest u' = .ok a) :
    dest = .keyID id ∧ u' = u := by
  rw [addressOf_eq_ok] at h h'
  obtain ⟨hu, hd⟩ := CBitcoinAddress.get_ofDestination (CTxDestination.keyID_ne_none id) h
  by_cases hne : dest = .none
  · subst hne
    cases h'
    obtain ⟨v, -, ha⟩ := Option.map_eq_some_iff.mp h
    have hlen := id.size_eq
    rw [(CBitcoinAddress.mk.inj ha).2] at hlen
    cases hlen
  · obtain ⟨hu', hd'⟩ := CBitcoinAddress.get_ofDestination hne h'
    exact ⟨hd'.symm.trans hd, hu'.symm.trans hu⟩

end Addresses

/-! ## Valid unpark transactions -/

section ValidUnpark

variable {cfg : Settings} {cr : Crypto} {tx : CTransaction} {view : CCoinsView} {chainPrev : List CBlockIndex}

/-- The single output of a transaction with one output has the value of the transaction. -/
theorem nValue_of_getValueOut {txout : CTxOut} {nValueOut : Int} (hvout : tx.vout = [txout])
    (h : tx.getValueOut = .ok nValueOut) : txout.nValue = nValueOut := by
  rw [CTransaction.getValueOut, hvout, CTransaction.sumOut, CTransaction.sumOut, Int.zero_add] at h
  split at h
  · cases h
  · exact Except.ok.inj h

/-- What is promised of an unpark transaction: its single output pays the parked value and the premium to a script that
the owner of the unpark key can spend at once, and is not parked again. -/
def UnparkSafe (cr : Crypto) (tx : CTransaction) (view : CCoinsView) (chainPrev : List CBlockIndex) : Prop :=
  ∃ txin txout coins txo nDuration id nPremium,
    tx.vin = [txin] ∧ tx.vout = [txout] ∧ view.prevout txin.prevout = some (coins, txo) ∧
    extractPark txo.scriptPubKey = some (nDuration, .keyID id) ∧
    chainPremium (chainPrev.dropWhile (fun pindex => (pindex.nHeight : Int) ≠ coins.nHeight)) txo.nValue nDuration
      coins.cUnit = .ok nPremium ∧
    txout.nValue = txo.nValue + nPremium ∧ SpendableWith cr txout.scriptPubKey id ∧ isPark txout.scriptPubKey = false

/-- An unpark transaction that is accepted pays what it has to; where its output is not parked again, it pays it to the
owner of the unpark key. -/
theorem unparkSafe_of_checked {nSpendHeight nDuration nPremium : Int} {txin : CTxIn} {coins : CCoins}
    {txo txout : CTxOut} {d d' : CTxDestination} (hvin : tx.vin = [txin])
    (h : UnparkChecked cfg cr tx view chainPrev nSpendHeight txin coins txo txout nDuration nPremium d d')
    (hpark : isPark txout.scriptPubKey = false) : UnparkSafe cr tx view chainPrev := by
  obtain ⟨-, id, rfl⟩ := extractPark_some h.park
  obtain ⟨a, ha, ha'⟩ := h.address
  obtain ⟨rfl, hunit⟩ := addressOf_inj ha ha'
  refine ⟨txin, txout, coins, txo, nDuration, id, nPremium, hvin, h.vout, h.prevout, h.park, ?_,
    nValue_of_getValueOut h.vout h.value, extractDestination_keyID h.dest hpark, hpark⟩
  rw [← hunit]
  exact h.premium

/-- **When a valid unpark transaction is safe**: exactly when the script of its output is not a park script. -/
theorem unparkSafe_iff {fScriptChecks fThreads : Bool} {flags : ScriptFlags} {r : InputsChecked}
    (h : checkInputs cfg cr tx view chainPrev fScriptChecks flags fThreads = .ok r) (hr : r.fValidUnpark = true) :
    UnparkSafe cr tx view chainPrev ↔ ∀ txout ∈ tx.vout, isPark txout.scriptPubKey = false := by
  constructor
  · rintro ⟨_, txout, _, _, _, _, _, -, hvout, -, -, -, -, -, hpark⟩ txout' hmem
    rw [hvout, List.mem_singleton] at hmem
    rw [hmem]
    exact hpark
  · intro hpark
    obtain ⟨_, _, txin, coins, txo, txout, nDuration, nPremium, d, d', -, hvin, hchecked⟩ := checkInputs_unpark h hr
    exact unparkSafe_of_checked hvin hchecked (hpark txout (by rw [hchecked.vout]; exact List.mem_cons_self))

/-- The unpark key of the parked coins below. -/
def unparkKey : Uint160 := Uint160.ofBytes (List.replicate 20 1)

/-- Coins parked at height 2 for one block. -/
def parkedView : CCoinsView where
  getCoins txid := if txid = 7 then
    some { vout := [{ nValue := 500, scriptPubKey := setPark 1 unparkKey }], nHeight := 2, cUnit := unitCurrency }
  else none
  bestBlock := some 5

/-- The chain from height 4 down to the block with the parked coins. -/
def parkedChain : List CBlockIndex := [{ nHeight := 4 }, { nHeight := 3 }, { nHeight := 2 }]

/-- An unpark transaction, which anybody can make, that pays to a script. -/
def unparkTo (scriptPubKey : CScript) : CTransaction where
  vin := [{ prevout := ⟨7, 0⟩, scriptSig := setUnpark }]
  vout := [{ nValue := 500, scriptPubKey := scriptPubKey }]
  cUnit := unitCurrency

/-- An unpark transaction that pays to the owner of the unpark key is safe. -/
theorem unparkSafe_sample :
    UnparkSafe Crypto.sample (unparkTo (setDestination (.keyID unparkKey))) parkedView parkedChain := by
  have h : (checkInputs {} Crypto.sample (unparkTo (setDestination (.keyID unparkKey))) parkedView parkedChain true {}
      false).map (·.fValidUnpark) = .ok true := by decide +kernel
  cases hr : checkInputs {} Crypto.sample (unparkTo (setDestination (.keyID unparkKey))) parkedView parkedChain true {}
      false with
  | error e =>
    rw [hr] at h
    cases h
  | ok r =>
    rw [hr] at h
    refine (unparkSafe_iff hr (Except.ok.inj h)).mpr fun txout htxout => ?_
    rw [unparkTo, List.mem_singleton] at htxout
    rw [htxout]
    decide +kernel

/-- **Parked coins parked again by anybody**: the output parks them for another million blocks. -/
theorem unpark_parks_again :
    let tx := unparkTo (setPark 1000000 unparkKey)
    (checkInputs {} Crypto.sample tx parkedView parkedChain true {} false).map (·.fValidUnpark) = .ok true ∧
      ¬ UnparkSafe Crypto.sample tx parkedView parkedChain := by
  refine ⟨by decide +kernel, ?_⟩
  rintro ⟨_, txout, _, _, _, _, _, -, hvout, -, -, -, -, -, hpark⟩
  cases hvout
  revert hpark
  decide +kernel

end ValidUnpark

end Morcochain
