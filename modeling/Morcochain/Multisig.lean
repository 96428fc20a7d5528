import Morcochain.ScriptRuns
import Morcochain.Lib.Matching
import Morcochain.Lib.OrderedSet

/-!
# Multisignatures

The loop of `OP_CHECKMULTISIG` (`EvalScript`) tries each key for the next signature. `CombineMultisig` merges two lists
of signatures for a multisignature script: it finds the key of each signature, and writes the signatures in the order of
the keys.

* `checkMultisigLoop_inOrder` : **the loop finds an assignment in order exactly when there is one.**
* `foldl_matchSig_complete` : a key gets a signature when there is one for it.
* `combineMultisig_eq` : **the merged signatures are enough, and in the order of the keys.**
* `solver_multisig`, `evalScript_multisig` : the operations of a multisignature script, and what they leave.
* `verifyScript_combineMultisig` : the merged script satisfies the multisignature script.
-/

set_option autoImplicit false

namespace Morcochain

open Matching OrderedStore

/-! ## The loop -/

/-- **The loop of `OP_CHECKMULTISIG`** succeeds exactly when the signatures can be assigned to keys in order. -/
theorem checkMultisigLoop_inOrder (fOk : Bytes → Bytes → Bool) : ∀ sigs keys : List Bytes,
    checkMultisigLoop fOk sigs keys = true ↔ InOrder (fun sig key => fOk sig key = true) sigs keys
  | [], keys => iff_of_true (by rw [checkMultisigLoop]) (inOrder_nil keys)
  | sig :: sigs, [] =>
    iff_of_false (by rw [checkMultisigLoop]; exact Bool.false_ne_true) (not_inOrder_cons_nil sig sigs)
  | sig :: sigs, key :: keys => by
    rw [checkMultisigLoop]
    by_cases h : fOk sig key = true
    · rw [inOrder_cons_of_rel (r := fun sig key => fOk sig key = true) h, if_pos h, if_pos h]
      split
      · rename_i hlong
        exact iff_of_false Bool.false_ne_true fun hin => absurd hin.length_le (Nat.not_le.mpr hlong)
      · exact checkMultisigLoop_inOrder fOk sigs keys
    · rw [inOrder_cons_of_not_rel (r := fun sig key => fOk sig key = true) h, if_neg h, if_neg h]
      split
      · rename_i hlong
        exact iff_of_false Bool.false_ne_true fun hin => absurd hin.length_le (Nat.not_le.mpr hlong)
      · exact checkMultisigLoop_inOrder fOk (sig :: sigs) keys

/-! ## Merging -/

section Merge

variable (check : Bytes → Bytes → Bool) (pubkeys : List Bytes)

/-- The signatures of two lists that are not empty, in the order of a `set`. -/
def allSigs (sigs1 sigs2 : List Bytes) : OrderedSet Bytes :=
  (sigs1 ++ sigs2).foldl (fun allsigs v => if v = [] then allsigs else allsigs.insert v ()) Store.empty

/-- One signature gets the first key that has none yet and that it verifies under. -/
def matchSig (sigs : Bytes → Option Bytes) (sig : Bytes) : Bytes → Option Bytes :=
  match pubkeys.find? fun pubkey => (sigs pubkey).isNone && check sig pubkey with
  | none => sigs
  | some pubkey => Function.update sigs pubkey (some sig)

/-- The map of the keys to signatures. -/
def matchSigs (allsigs : OrderedSet Bytes) : Bytes → Option Bytes :=
  (OrderedSet.elems allsigs).foldl (matchSig check pubkeys) fun _ => none

/-- The signatures that are written, when `nSigsHave` already are. -/
def mergeSigs (sigs : Bytes → Option Bytes) (nSigsRequired : Nat) : Nat → List Bytes → List Bytes
  | _, [] => []
  | nSigsHave, pubkey :: pubkeys =>
    if nSigsHave < nSigsRequired then
      match sigs pubkey with
      | some sig => sig :: mergeSigs sigs nSigsRequired (nSigsHave + 1) pubkeys
      | none => mergeSigs sigs nSigsRequired nSigsHave pubkeys
    else []

/-! ### The map of the keys -/

/-- A signature changes the map at one key at most, that has none yet and that it verifies under. -/
theorem matchSig_cases (sigs : Bytes → Option Bytes) (sig : Bytes) :
    (matchSig check pubkeys sigs sig = sigs ∧ ∀ pubkey ∈ pubkeys, check sig pubkey = true → (sigs pubkey).isSome) ∨
    ∃ pubkey ∈ pubkeys, sigs pubkey = none ∧ check sig pubkey = true ∧
      matchSig check pubkeys sigs sig = Function.update sigs pubkey (some sig) := by
  unfold matchSig
  cases hfind : pubkeys.find? fun pubkey => (sigs pubkey).isNone && check sig pubkey with
  | none =>
    refine Or.inl ⟨rfl, fun pubkey hmem hcheck => ?_⟩
    have hno := List.find?_eq_none.mp hfind pubkey hmem
    rw [hcheck, Bool.and_true] at hno
    exact Option.isSome_iff_ne_none.mpr fun hnone => hno (by rw [hnone]; rfl)
  | some pubkey =>
    have hfound := List.find?_some hfind
    rw [Bool.and_eq_true] at hfound
    exact Or.inr ⟨pubkey, List.mem_of_find?_eq_some hfind, Option.isNone_iff_eq_none.mp hfound.1, hfound.2, rfl⟩

variable {check pubkeys}

/-- A key keeps its signature. -/
theorem isSome_matchSig {sigs : Bytes → Option Bytes} {sig pubkey : Bytes} (h : (sigs pubkey).isSome) :
    (matchSig check pubkeys sigs sig pubkey).isSome := by
  obtain ⟨heq, -⟩ | ⟨pubkey', -, -, -, heq⟩ := matchSig_cases check pubkeys sigs sig
  · rw [heq]
    exact h
  · rw [heq]
    by_cases hkey : pubkey = pubkey'
    · rw [hkey, Function.update_self]
      rfl
    · rw [Function.update_of_ne hkey]
      exact h

theorem isSome_foldl_matchSig (pubkey : Bytes) :
    ∀ (l : List Bytes) {sigs : Bytes → Option Bytes}, (sigs pubkey).isSome →
    (l.foldl (matchSig check pubkeys) sigs pubkey).isSome
  | [], _, h => h
  | _ :: l, _, h => isSome_foldl_matchSig pubkey l (isSome_matchSig h)

/-- The signature of a key is one of those that were tried, and verifies under it. -/
theorem foldl_matchSig_sound {l : List Bytes} {sigs : Bytes → Option Bytes} {pubkey sig : Bytes} :
    l.foldl (matchSig check pubkeys) sigs pubkey = some sig →
      sigs pubkey = some sig ∨ sig ∈ l ∧ check sig pubkey = true := by
  induction l generalizing sigs with
  | nil => exact Or.inl
  | cons sig' l ih =>
    intro h
    rcases ih h with hold | ⟨hmem, hcheck⟩
    · obtain ⟨heq, -⟩ | ⟨pubkey', -, -, hcheck, heq⟩ := matchSig_cases check pubkeys sigs sig'
      · exact Or.inl (by rw [← hold, heq])
      · rw [heq] at hold
        by_cases hkey : pubkey = pubkey'
        · rw [hkey, Function.update_self] at hold
          cases hold
          exact Or.inr ⟨List.mem_cons_self, by rw [hkey]; exact hcheck⟩
        · rw [Function.update_of_ne hkey] at hold
          exact Or.inl hold
    · exact Or.inr ⟨List.mem_cons_of_mem sig' hmem, hcheck⟩

/-- **A key gets a signature** when there is one for it that no other key takes. -/
theorem foldl_matchSig_complete {l : List Bytes} {sigs : Bytes → Option Bytes} {pubkey sig : Bytes}
    (hkey : pubkey ∈ pubkeys) (hcheck : check sig pubkey = true)
    (hone : ∀ pubkey' ∈ pubkeys, check sig pubkey' = true → pubkey' = pubkey) :
    sig ∈ l → (l.foldl (matchSig check pubkeys) sigs pubkey).isSome := by
  induction l generalizing sigs with
  | nil => exact fun h => nomatch h
  | cons sig' l ih =>
    intro hmem
    rcases List.mem_cons.mp hmem with rfl | hmem
    · refine isSome_foldl_matchSig pubkey l ?_
      obtain ⟨heq, hall⟩ | ⟨pubkey', hmem', -, hcheck', heq⟩ := matchSig_cases check pubkeys sigs sig
      · rw [heq]
        exact hall pubkey hkey hcheck
      · rw [heq, hone pubkey' hmem' hcheck', Function.update_self]
        rfl
    · exact ih hmem

/-! ### The signatures that are written -/

/-- The signatures are those of the first keys that have one. -/
theorem mergeSigs_eq (sigs : Bytes → Option Bytes) (nSigsRequired : Nat) : ∀ (nSigsHave : Nat) (pubkeys : List Bytes),
    mergeSigs sigs nSigsRequired nSigsHave pubkeys = (pubkeys.filterMap sigs).take (nSigsRequired - nSigsHave)
  | _, [] => by rw [mergeSigs, List.filterMap_nil, List.take_nil]
  | nSigsHave, pubkey :: pubkeys => by
    rw [mergeSigs]
    split
    · rename_i hhave
      cases hsig : sigs pubkey with
      | none =>
        rw [List.filterMap_cons_none hsig]
        exact mergeSigs_eq sigs nSigsRequired nSigsHave pubkeys
      | some sig =>
        have hleft : nSigsRequired - nSigsHave = nSigsRequired - (nSigsHave + 1) + 1 := by omega
        rw [List.filterMap_cons_some hsig, hleft, List.take_succ_cons]
        exact congrArg (sig :: ·) (mergeSigs_eq sigs nSigsRequired (nSigsHave + 1) pubkeys)
    · rename_i hhave
      rw [Nat.sub_eq_zero_of_le (Nat.not_lt.mp hhave), List.take_zero]

/-- The signatures of both lists are in the set, and nothing else is. -/
theorem mem_allSigs {sigs1 sigs2 : List Bytes} {sig : Bytes} :
    sig ∈ OrderedSet.elems (allSigs sigs1 sigs2) ↔ sig ∈ sigs1 ++ sigs2 ∧ sig ≠ [] := by
  have hfold : ∀ (l : List Bytes) (s : OrderedSet Bytes),
      sig ∈ OrderedSet.elems (l.foldl (fun allsigs v => if v = [] then allsigs else allsigs.insert v ()) s) ↔
        sig ∈ OrderedSet.elems s ∨ sig ∈ l ∧ sig ≠ [] := by
    intro l
    induction l with
    | nil => simp
    | cons v l ih =>
      intro s
      rw [List.foldl_cons, ih]
      by_cases hv : v = []
      · rw [if_pos hv]
        grind
      · rw [if_neg hv, OrderedSet.mem_elems, OrderedSet.contains_insert, ← Bool.decide_coe (OrderedSet.contains s sig)]
        rw [OrderedSet.mem_elems]
        grind
  rw [allSigs, hfold]
  simp [OrderedSet.mem_elems, OrderedSet.contains_empty]

/-! ### The merged signatures -/

section Merged

variable {sigs1 sigs2 : List Bytes} {nSigsRequired : Nat}

/-- The signatures that are written verify under keys in order. -/
theorem mergeSigs_inOrder :
    InOrder (fun sig pubkey => check sig pubkey = true)
      (mergeSigs (matchSigs check pubkeys (allSigs sigs1 sigs2)) nSigsRequired 0 pubkeys) pubkeys := by
  rw [mergeSigs_eq]
  refine inOrder_filterMap _ fun pubkey _ sig hsig => ?_
  rcases foldl_matchSig_sound hsig with hnone | ⟨-, hcheck⟩
  · cases hnone
  · exact hcheck

/-- Every signature that is written comes from one of the lists. -/
theorem mem_mergeSigs {sig : Bytes}
    (h : sig ∈ mergeSigs (matchSigs check pubkeys (allSigs sigs1 sigs2)) nSigsRequired 0 pubkeys) :
    sig ∈ sigs1 ++ sigs2 := by
  rw [mergeSigs_eq] at h
  obtain ⟨pubkey, -, hsig⟩ := List.mem_filterMap.mp (List.mem_of_mem_take h)
  rcases foldl_matchSig_sound hsig with hnone | ⟨hmem, -⟩
  · cases hnone
  · exact (mem_allSigs.mp hmem).1

/-- **The signatures are enough**, when there are signatures for enough keys and none of them verifies under two keys. -/
theorem length_mergeSigs (hnil : ∀ pubkey, check [] pubkey = false)
    (hone : ∀ sig ∈ sigs1 ++ sigs2, ∀ pubkey ∈ pubkeys, ∀ pubkey' ∈ pubkeys,
      check sig pubkey = true → check sig pubkey' = true → pubkey = pubkey')
    (hm : nSigsRequired ≤ pubkeys.countP fun pubkey => (sigs1 ++ sigs2).any (check · pubkey)) :
    (mergeSigs (matchSigs check pubkeys (allSigs sigs1 sigs2)) nSigsRequired 0 pubkeys).length = nSigsRequired := by
  have hsome : ∀ pubkey ∈ pubkeys, (sigs1 ++ sigs2).any (check · pubkey) = true →
      (matchSigs check pubkeys (allSigs sigs1 sigs2) pubkey).isSome = true := by
    intro pubkey hkey hany
    obtain ⟨sig, hsig, hcheck⟩ := List.any_eq_true.mp hany
    have hne : sig ≠ [] := fun hempty => by
      rw [hempty, hnil] at hcheck
      cases hcheck
    exact foldl_matchSig_complete hkey hcheck (fun pubkey' hkey' hcheck' => hone sig hsig pubkey' hkey' pubkey hkey hcheck'
      hcheck) (mem_allSigs.mpr ⟨hsig, hne⟩)
  rw [mergeSigs_eq, List.length_take, List.length_filterMap_eq_countP]
  exact Nat.min_eq_left (hm.trans (List.countP_mono_left hsome))

end Merged

end Merge

/-- The number of signatures that a multisignature script asks for. -/
def sigsRequired (vSolutions : List Bytes) : Nat := ((vSolutions.head?.bind (·.head?)).getD 0).toNat

/-- The public keys of a multisignature script. -/
def solutionKeys (vSolutions : List Bytes) : List Bytes := (vSolutions.drop 1).take (vSolutions.length - 2)

/-- `CombineMultisig`. -/
def combineMultisig (cr : Crypto) (scriptPubKey : CScript) (txTo : CTransaction) (nIn : Nat) (vSolutions : List Bytes)
    (sigs1 sigs2 : List Bytes) : CScript :=
  let sigs := matchSigs (checkSig cr · · scriptPubKey txTo nIn 0) (solutionKeys vSolutions) (allSigs sigs1 sigs2)
  let merged := mergeSigs sigs (sigsRequired vSolutions) 0 (solutionKeys vSolutions)
  op0 :: merged.flatMap pushData ++ List.replicate (sigsRequired vSolutions - merged.length) op0

/-- `PushAll`. -/
def pushAll (values : List Bytes) : CScript := values.flatMap pushData

/-- `CombineSignatures`, from the stacks that the signature scripts leave, bottom first. -/
def combineSignatures (cr : Crypto) (scriptPubKey : CScript) (txTo : CTransaction) (nIn : Nat) (txType : TxnOutType)
    (vSolutions : List Bytes) (sigs1 sigs2 : List Bytes) : CScript :=
  match txType with
  | .nonstandard | .nullData | .park => if sigs1.length ≥ sigs2.length then pushAll sigs1 else pushAll sigs2
  | .pubkey | .pubkeyhash => if sigs1.head? = none ∨ sigs1.head? = some [] then pushAll sigs2 else pushAll sigs1
  | .scripthash =>
    match _h : sigs1.getLast? with
    | none | some [] => pushAll sigs2
    | some (b :: l) =>
      match sigs2.getLast? with
      | none | some [] => pushAll sigs1
      | some (_ :: _) =>
        let spk := b :: l
        let (txType2, vSolutions2) := (solver spk).getD (.nonstandard, [])
        combineSignatures cr spk txTo nIn txType2 vSolutions2 sigs1.dropLast sigs2.dropLast ++ pushData spk
  | .multisig => combineMultisig cr scriptPubKey txTo nIn vSolutions sigs1 sigs2
termination_by sigs1.length
decreasing_by
  have hne : sigs1 ≠ [] := fun hnil => by rw [hnil] at _h; cases _h
  rw [List.length_dropLast]
  exact Nat.sub_lt (List.length_pos_iff.mpr hne) Nat.one_pos

/-! ## Multisignature scripts -/

/-- The comparison with a template at the public keys. -/
theorem matchTemplate_pubkeys_eq_some {opcode2 : UInt8} {pc2 : List UInt8} {pc1 : CScript} {vSolutions : List Bytes}
    (h : matchTemplate (opPubkeys :: opcode2 :: pc2) pc1 = some vSolutions) :
    ∃ o solution solutions, getOp pc1 = some o ∧
      matchOp opcode2 (takePubkeys o).2.opcode (takePubkeys o).2.vch = some solution ∧
      matchTemplate pc2 (takePubkeys o).2.rest = some solutions ∧
      vSolutions = (takePubkeys o).1 ++ (solution ++ solutions) := by
  rw [matchTemplate] at h
  cases ho : getOp pc1 with
  | none =>
    rw [ho] at h
    cases h
  | some o =>
    rw [ho] at h
    simp only [if_pos, Option.bind_eq_bind] at h
    obtain ⟨solution, hsolution, hrest⟩ := Option.bind_eq_some_iff.mp h
    obtain ⟨solutions, hsolutions, heq⟩ := Option.bind_eq_some_iff.mp hrest
    refine ⟨o, solution, solutions, rfl, hsolution, hsolutions, ?_⟩
    rw [← Option.some.inj heq, List.append_assoc]

/-- The number of a small integer. -/
theorem matchOp_smallinteger {opcode : UInt8} {vch : Bytes} {solution : List Bytes}
    (h : matchOp opSmallinteger opcode vch = some solution) :
    solution = [[UInt8.ofNat (decodeOpN opcode)]] ∧ decodeOpN opcode ≤ 16 ∧
      (decodeOpN opcode ≠ 0 → op1 ≤ opcode ∧ opcode ≤ op16) := by
  rw [matchOp, if_neg (by decide), if_neg (by decide), if_pos rfl] at h
  split at h
  · rename_i hsmall
    cases h
    refine ⟨rfl, ?_⟩
    unfold isSmallInteger at hsmall
    rw [Bool.or_eq_true, Bool.and_eq_true, decide_eq_true_eq, decide_eq_true_eq, decide_eq_true_eq] at hsmall
    unfold decodeOpN
    rcases hsmall with rfl | ⟨h1, h16⟩
    · exact ⟨by decide, fun hne => absurd rfl hne⟩
    · have hnat := UInt8.le_iff_toNat_le.mp h16
      have h60 : op16.toNat = 0x60 := rfl
      refine ⟨?_, fun _ => ⟨h1, h16⟩⟩
      split <;> omega
  · cases h

theorem toNat_ofNat_small {n : Nat} (h : n ≤ 16) : (UInt8.ofNat n).toNat = n := by
  rw [UInt8.toNat_ofNat']
  omega

/-- The keys are between the two numbers. -/
theorem solutionKeys_eq (b d : UInt8) (keys : List Bytes) : solutionKeys ([b] :: (keys ++ [[d]])) = keys := by
  simp [solutionKeys]

/-- The additional checks compare the numbers with each other and with the number of keys. -/
theorem checkMultisigSolutions_iff (b d : UInt8) (keys : List Bytes) :
    checkMultisigSolutions ([b] :: (keys ++ [[d]])) = true ↔
      1 ≤ b.toNat ∧ 1 ≤ d.toNat ∧ b.toNat ≤ d.toNat ∧ keys.length = d.toNat := by
  have hlast : ([b] :: (keys ++ [[d]])).getLast? = some [d] := List.getLast?_concat (l := [b] :: keys)
  simp only [checkMultisigSolutions, Bool.not_eq_true', Bool.or_eq_false_iff, decide_eq_false_iff_not, hlast]
  simp only [List.head?_cons, Option.bind_some, Option.getD_some, List.length_cons, List.length_append, List.length_nil]
  omega

/-- **The operations of a multisignature script**: the number of signatures, the keys, their number, and the check. -/
theorem solver_multisig {s : CScript} {vSolutions : List Bytes} (h : solver s = some (.multisig, vSolutions)) :
    isPayToScriptHash s = false ∧ 1 ≤ sigsRequired vSolutions ∧
    sigsRequired vSolutions ≤ (solutionKeys vSolutions).length ∧ (solutionKeys vSolutions).length ≤ 16 ∧
    ∃ o₁ o₂ o₃, getOp s = some o₁ ∧ op1 ≤ o₁.opcode ∧ o₁.opcode ≤ op16 ∧
      decodeOpN o₁.opcode = sigsRequired vSolutions ∧ getOp o₁.rest = some o₂ ∧
      (takePubkeys o₂).1 = solutionKeys vSolutions ∧ op1 ≤ (takePubkeys o₂).2.opcode ∧
      (takePubkeys o₂).2.opcode ≤ op16 ∧ decodeOpN (takePubkeys o₂).2.opcode = (solutionKeys vSolutions).length ∧
      getOp (takePubkeys o₂).2.rest = some o₃ ∧ o₃.opcode = opCheckmultisig ∧ o₃.vch = [] ∧ o₃.rest = [] := by
  obtain ⟨hp2sh, ⟨script2, hmem, hmatch⟩, hcheck⟩ := solver_template h (by decide)
  have hscript2 : script2 = [opSmallinteger, opPubkeys, opSmallinteger, opCheckmultisig] := by
    simpa [mTemplates] using hmem
  rw [hscript2] at hmatch
  obtain ⟨o₁, first, _, h₁, hfirst, hmatch₁, heq₁⟩ := matchTemplate_cons_eq_some (by decide) hmatch
  obtain ⟨o₂, second, _, h₂, hsecond, hmatch₂, heq₂⟩ := matchTemplate_pubkeys_eq_some hmatch₁
  obtain ⟨o₃, third, _, h₃, hthird, hmatch₃, heq₃⟩ := matchTemplate_cons_eq_some (by decide) hmatch₂
  obtain ⟨hrest, heq₄⟩ := matchTemplate_nil_eq_some hmatch₃
  obtain ⟨hsolution₁, hle₁, hop₁⟩ := matchOp_smallinteger hfirst
  obtain ⟨hsolution₂, hle₂, hop₂⟩ := matchOp_smallinteger hsecond
  obtain ⟨hop₃, hv₃, hsolution₃⟩ := matchOp_exact hthird (by decide)
  rw [heq₂, heq₃, heq₄, hsolution₁, hsolution₂, hsolution₃] at heq₁
  have heq : vSolutions = [UInt8.ofNat (decodeOpN o₁.opcode)] ::
      ((takePubkeys o₂).1 ++ [[UInt8.ofNat (decodeOpN (takePubkeys o₂).2.opcode)]]) := heq₁
  have hcount := (checkMultisigSolutions_iff _ _ _).mp (heq ▸ hcheck rfl)
  have hkeys : solutionKeys vSolutions = (takePubkeys o₂).1 := heq ▸ solutionKeys_eq _ _ _
  have hrequired : sigsRequired vSolutions = decodeOpN o₁.opcode := by
    rw [heq]
    exact toNat_ofNat_small hle₁
  rw [toNat_ofNat_small hle₁, toNat_ofNat_small hle₂] at hcount
  obtain ⟨hpos₁, hpos₂, hle, hlen⟩ := hcount
  obtain ⟨hop₁, hop₁'⟩ := hop₁ (by omega)
  obtain ⟨hop₂, hop₂'⟩ := hop₂ (by omega)
  rw [hkeys, hrequired]
  exact ⟨hp2sh, hpos₁, by omega, by omega, o₁, o₂, o₃, h₁, hop₁, hop₁', rfl, h₂, rfl, hop₂, hop₂', hlen.symm, h₃,
    hop₃, hv₃, hrest⟩

/-! ## Evaluation -/

theorem length_flatMap_pushData : ∀ {values : List Bytes}, (∀ v ∈ values, v.length ≤ 520) →
    (values.flatMap pushData).length ≤ 525 * values.length
  | [], _ => Nat.le_refl _
  | v :: values, h => by
    obtain ⟨hv, hvs⟩ := List.forall_mem_cons.mp h
    have hpush := length_pushData v
    have hrest := length_flatMap_pushData hvs
    rw [List.flatMap_cons, List.length_append, List.length_cons]
    omega

section Evaluation

variable {c : SigContext} {sigs : List Bytes}

/-- The signature script leaves the empty entry and the signatures. -/
theorem evalScript_signatures (hsize : ∀ sig ∈ sigs, sig.length ≤ 520) (hcount : sigs.length ≤ 16) :
    evalScript c [] (op0 :: sigs.flatMap pushData) = some (sigs.reverse ++ [[]]) := by
  have hget : getOp (op0 :: sigs.flatMap pushData) = some ⟨op0, [], sigs.flatMap pushData⟩ := by
    rw [getOp, if_pos (by decide)]
    rfl
  have hlen : (op0 :: sigs.flatMap pushData).length ≤ 10000 := by
    have := length_flatMap_pushData hsize
    rw [List.length_cons]
    omega
  have hrun : runScript c { stack := [], scriptCode := op0 :: sigs.flatMap pushData } (op0 :: sigs.flatMap pushData) =
      some { stack := sigs.reverse ++ [[]], scriptCode := op0 :: sigs.flatMap pushData } := by
    have hpushes := runScript_pushes (c := c) [] sigs { stack := [[]], scriptCode := op0 :: sigs.flatMap pushData } hsize rfl
      (by simp only [List.length_cons, List.length_nil]; omega)
    rw [List.append_nil, runScript_nil] at hpushes
    have hpush : execOp c { stack := [], scriptCode := op0 :: sigs.flatMap pushData } ⟨op0, [], sigs.flatMap pushData⟩ =
        some { stack := [[]], scriptCode := op0 :: sigs.flatMap pushData } :=
      execOp_push (by decide : op0 ≤ opPushdata4) (Nat.zero_le 520) rfl (by decide : 0 + 0 < 1000)
    rw [runScript_of_getOp hget, runFrom, hpush, Option.bind_some]
    exact hpushes
  exact evalScript_of_run hlen hrun rfl

/-- **A multisignature script** leaves the result of the loop. -/
theorem evalScript_multisig {s : CScript} {vSolutions : List Bytes} (h : solver s = some (.multisig, vSolutions))
    (hcount : sigs.length = sigsRequired vSolutions) :
    evalScript c (sigs.reverse ++ [[]]) s = some [vchBool (checkMultisigLoop (checkSigOp c
      (sigs.reverse.foldl (fun code vchSig => findAndDelete (pushData vchSig) code) s)) sigs.reverse
        (solutionKeys vSolutions).reverse)] := by
  obtain ⟨-, hpos, hle, hkeys, o₁, o₂, o₃, h₁, hop₁, hop₁', hreq, h₂, htake, hop₂, hop₂', hnum, h₃, hop₃, hv₃, hrest⟩ :=
    solver_multisig h
  generalize solutionKeys vSolutions = keys at *
  generalize sigsRequired vSolutions = nRequired at *
  have hvalid : (takePubkeys o₂).2.opcode ≠ opInvalidopcode := fun heq => by
    rw [heq] at hop₂'
    exact absurd hop₂' (by decide)
  obtain ⟨s', hs', hlen₂⟩ := getOp_takePubkeys o₂ h₂ hvalid
  have hv₁ := getOp_vch_nil h₁ (Std.lt_of_lt_of_le (by decide) hop₁)
  have hv₂ := getOp_vch_nil hs' (Std.lt_of_lt_of_le (by decide) hop₂)
  have hlen : s.length ≤ 10000 := by
    have hlen₁ := getOp_length h₁
    have hlen₃ := getOp_length hs'
    have hlen₄ := getOp_length h₃
    rw [hv₁, List.length_nil] at hlen₁
    rw [hv₂, List.length_nil] at hlen₃
    rw [hv₃, hrest, List.length_nil] at hlen₄
    rw [htake] at hlen₂
    omega
  have hroom : keys.length + (bigNumVch nRequired :: (sigs.reverse ++ [[]])).length < 1000 := by
    simp only [List.length_cons, List.length_append, List.length_reverse, List.length_nil]
    omega
  rw [List.length_cons] at hroom
  -- the number of signatures
  have hrun₁ : execOp c { stack := sigs.reverse ++ [[]], scriptCode := s } o₁ =
      some { stack := bigNumVch nRequired :: (sigs.reverse ++ [[]]), scriptCode := s } := by
    have hroom₁ : (sigs.reverse ++ [[]]).length + ([] : Stack).length < 1000 := by
      rw [List.length_nil]
      omega
    rw [execOp_smallInteger hop₁ hop₁' hv₁ rfl hroom₁, hreq]
  -- the keys
  have hrun₂ : runFrom c { stack := bigNumVch nRequired :: (sigs.reverse ++ [[]]), scriptCode := s } o₂ =
      runFrom c { stack := keys.reverse ++ bigNumVch nRequired :: (sigs.reverse ++ [[]]), scriptCode := s }
        (takePubkeys o₂).2 := by
    have hroom₂ : (takePubkeys o₂).1.length + (bigNumVch nRequired :: (sigs.reverse ++ [[]])).length +
        ([] : Stack).length ≤ 1000 := by
      rw [htake, List.length_cons, List.length_nil]
      omega
    rw [runFrom_takePubkeys o₂ _ h₂ hvalid rfl hroom₂, htake]
  -- the number of keys
  have hrun₃ : execOp c { stack := keys.reverse ++ bigNumVch nRequired :: (sigs.reverse ++ [[]]), scriptCode := s }
      (takePubkeys o₂).2 =
      some { stack := bigNumVch keys.length :: (keys.reverse ++ bigNumVch nRequired :: (sigs.reverse ++ [[]])),
             scriptCode := s } := by
    have hroom₃ : (keys.reverse ++ bigNumVch nRequired :: (sigs.reverse ++ [[]])).length + ([] : Stack).length < 1000 := by
      rw [List.length_append, List.length_reverse, List.length_cons, List.length_nil]
      omega
    rw [execOp_smallInteger hop₂ hop₂' hv₂ rfl hroom₃, hnum]
  -- the check
  have hrun₄ := execOp_checkMultisig (c := c) (o := o₃)
    (by rw [List.length_reverse, List.length_reverse, hcount] :
      ({ stack := bigNumVch keys.length :: (keys.reverse ++ bigNumVch nRequired :: (sigs.reverse ++ [[]])),
         scriptCode := s } : ExecState).stack = bigNumVch keys.reverse.length ::
          (keys.reverse ++ bigNumVch sigs.reverse.length :: (sigs.reverse ++ [] :: []))) hop₃ hv₃ rfl
    (by rw [List.length_reverse]; omega) (by rw [List.length_reverse, List.length_reverse, hcount]; exact hle)
    (by rw [List.length_reverse]; dsimp only; omega) (by decide : 0 + 0 < 1000)
  have hlast : ∀ st : ExecState, runFrom c st o₃ = execOp c st o₃ := by
    intro st
    rw [runFrom, hrest, funext runScript_nil, Option.bind_fun_some]
  refine evalScript_of_run hlen (Eq.trans ?_ hrun₄) rfl
  rw [runScript_of_getOp h₁, runFrom, hrun₁, Option.bind_some, runScript_of_getOp h₂, hrun₂, runFrom, hrun₃,
    Option.bind_some, runScript_of_getOp h₃, hlast]

end Evaluation

/-! ## Merged scripts -/

section Combine

variable {cr : Crypto} {scriptPubKey : CScript} {txTo : CTransaction} {nIn : Nat} {vSolutions sigs1 sigs2 : List Bytes}

theorem checkSig_nil (cr : Crypto) (vchPubKey : Bytes) (scriptCode : CScript) (txTo : CTransaction)
    (nIn nHashType : Nat) :
    checkSig cr [] vchPubKey scriptCode txTo nIn nHashType = false := rfl

/-- The signatures of two lists that suffice for a multisignature script. -/
structure EnoughSignatures (cr : Crypto) (scriptPubKey : CScript) (txTo : CTransaction) (nIn : Nat)
    (vSolutions sigs1 sigs2 : List Bytes) : Prop where
  /-- No signature verifies under two different keys. -/
  one_key : ∀ sig ∈ sigs1 ++ sigs2, ∀ key ∈ solutionKeys vSolutions, ∀ key' ∈ solutionKeys vSolutions,
    checkSig cr sig key scriptPubKey txTo nIn 0 = true → checkSig cr sig key' scriptPubKey txTo nIn 0 = true →
      key = key'
  /-- There are signatures for as many keys as the script asks for. -/
  enough : sigsRequired vSolutions ≤
    (solutionKeys vSolutions).countP fun key => (sigs1 ++ sigs2).any (checkSig cr · key scriptPubKey txTo nIn 0)

/-- **The merged signatures**: as many as the script asks for, from the two lists, and in the order of the keys. -/
theorem combineMultisig_eq (h : EnoughSignatures cr scriptPubKey txTo nIn vSolutions sigs1 sigs2) :
    ∃ sigs : List Bytes, sigs.length = sigsRequired vSolutions ∧ (∀ sig ∈ sigs, sig ∈ sigs1 ++ sigs2) ∧
      InOrder (fun sig key => checkSig cr sig key scriptPubKey txTo nIn 0 = true) sigs (solutionKeys vSolutions) ∧
      combineMultisig cr scriptPubKey txTo nIn vSolutions sigs1 sigs2 = op0 :: sigs.flatMap pushData := by
  have hlen : (mergeSigs (matchSigs (checkSig cr · · scriptPubKey txTo nIn 0) (solutionKeys vSolutions)
      (allSigs sigs1 sigs2)) (sigsRequired vSolutions) 0 (solutionKeys vSolutions)).length = sigsRequired vSolutions :=
    length_mergeSigs (fun key => checkSig_nil cr key scriptPubKey txTo nIn 0) h.one_key h.enough
  refine ⟨_, hlen, fun sig => mem_mergeSigs, mergeSigs_inOrder, ?_⟩
  unfold combineMultisig
  dsimp only
  rw [hlen, Nat.sub_self, List.replicate_zero, List.append_nil]

theorem foldl_findAndDelete {s : CScript} : ∀ {sigs : List Bytes},
    (∀ sig ∈ sigs, findAndDelete (pushData sig) s = s) →
      sigs.foldl (fun code vchSig => findAndDelete (pushData vchSig) code) s = s
  | [], _ => rfl
  | _ :: _, h => by
    obtain ⟨hsig, hsigs⟩ := List.forall_mem_cons.mp h
    rw [List.foldl_cons, hsig]
    exact foldl_findAndDelete hsigs

/-- **The merged script satisfies the multisignature script**, when the signatures can be pushed, none of them is
written in the script itself, and those that verify have the encodings that the flags ask for. -/
theorem verifyScript_combineMultisig {flags : ScriptFlags} {nHashType : Nat}
    (hsolver : solver scriptPubKey = some (.multisig, vSolutions))
    (h : EnoughSignatures cr scriptPubKey txTo nIn vSolutions sigs1 sigs2)
    (hsize : ∀ sig ∈ sigs1 ++ sigs2, sig.length ≤ 520)
    (hfind : ∀ sig ∈ sigs1 ++ sigs2, findAndDelete (pushData sig) scriptPubKey = scriptPubKey)
    (henc : ∀ sig ∈ sigs1 ++ sigs2, ∀ key ∈ solutionKeys vSolutions,
      checkSig cr sig key scriptPubKey txTo nIn 0 = true →
        checkSigOp ⟨cr, txTo, nIn, flags, nHashType⟩ scriptPubKey sig key = true) :
    verifyScript cr (combineMultisig cr scriptPubKey txTo nIn vSolutions sigs1 sigs2) scriptPubKey txTo nIn flags nHashType =
      true := by
  obtain ⟨sigs, hlen, hmem, horder, heq⟩ := combineMultisig_eq h
  obtain ⟨hp2sh, -, hle, hkeys, -⟩ := solver_multisig hsolver
  have hpush : evalScript ⟨cr, txTo, nIn, flags, nHashType⟩ [] (op0 :: sigs.flatMap pushData) =
    some (sigs.reverse ++ [[]]) :=
    evalScript_signatures (fun sig hsig => hsize sig (hmem sig hsig)) (by omega)
  have hloop : checkMultisigLoop (checkSigOp ⟨cr, txTo, nIn, flags, nHashType⟩ scriptPubKey) sigs.reverse
      (solutionKeys vSolutions).reverse = true := by
    rw [checkMultisigLoop_inOrder]
    exact (horder.imp fun sig hsig key hkey hcheck => henc sig (hmem sig hsig) key hkey hcheck).reverse
  have heval := evalScript_multisig (c := ⟨cr, txTo, nIn, flags, nHashType⟩) hsolver hlen
  rw [foldl_findAndDelete fun sig hsig => hfind sig (hmem sig (List.mem_reverse.mp hsig)), hloop] at heval
  unfold verifyScript
  dsimp only
  rw [heq, hpush]
  dsimp only
  rw [heval]
  simp [vchBool, castToBool, hp2sh]

/-- The merged script is that of `CombineSignatures`. -/
theorem combineSignatures_multisig : combineSignatures cr scriptPubKey txTo nIn .multisig vSolutions sigs1 sigs2 =
    combineMultisig cr scriptPubKey txTo nIn vSolutions sigs1 sigs2 := by
  rw [combineSignatures]

end Combine

/-- **Multisignatures.** The loop of `OP_CHECKMULTISIG` succeeds exactly when the signatures can be assigned to keys in
order, whatever the relation is that it checks. For signatures of two lists of which none verifies under two keys and
that are enough together, `CombineSignatures` writes as many of them as the script asks for, and these pass the loop; so
the script that it returns satisfies the multisignature script, when its signatures can be pushed, are not written in
the script and have the encodings that the flags ask for. -/
theorem multisig_law :
    (∀ (fOk : Bytes → Bytes → Bool) (sigs keys : List Bytes), checkMultisigLoop fOk sigs keys = true ↔
      ∃ f : Fin sigs.length → Fin keys.length, StrictMono f ∧ ∀ i, fOk (sigs.get i) (keys.get (f i)) = true) ∧
    ∀ (cr : Crypto) (scriptPubKey : CScript) (txTo : CTransaction) (nIn : Nat) (vSolutions sigs1 sigs2 : List Bytes),
      solver scriptPubKey = some (.multisig, vSolutions) →
      EnoughSignatures cr scriptPubKey txTo nIn vSolutions sigs1 sigs2 →
      (∃ sigs : List Bytes,
        combineSignatures cr scriptPubKey txTo nIn .multisig vSolutions sigs1 sigs2 = op0 :: sigs.flatMap pushData ∧
        sigs.length = sigsRequired vSolutions ∧ (∀ sig ∈ sigs, sig ∈ sigs1 ++ sigs2) ∧
        checkMultisigLoop (checkSig cr · · scriptPubKey txTo nIn 0) sigs.reverse (solutionKeys vSolutions).reverse =
          true) ∧
      ∀ (flags : ScriptFlags) (nHashType : Nat), (∀ sig ∈ sigs1 ++ sigs2, sig.length ≤ 520) →
        (∀ sig ∈ sigs1 ++ sigs2, findAndDelete (pushData sig) scriptPubKey = scriptPubKey) →
        (∀ sig ∈ sigs1 ++ sigs2, ∀ key ∈ solutionKeys vSolutions, checkSig cr sig key scriptPubKey txTo nIn 0 = true →
          checkSigOp ⟨cr, txTo, nIn, flags, nHashType⟩ scriptPubKey sig key = true) →
        verifyScript cr (combineSignatures cr scriptPubKey txTo nIn .multisig vSolutions sigs1 sigs2) scriptPubKey txTo nIn
          flags nHashType = true := by
  refine ⟨checkMultisigLoop_inOrder, fun cr scriptPubKey txTo nIn vSolutions sigs1 sigs2 hsolver h => ?_⟩
  rw [combineSignatures_multisig]
  refine ⟨?_, fun flags nHashType hsize hfind henc => verifyScript_combineMultisig hsolver h hsize hfind henc⟩
  obtain ⟨sigs, hlen, hmem, horder, heq⟩ := combineMultisig_eq h
  exact ⟨sigs, heq, hlen, hmem, (checkMultisigLoop_inOrder _ _ _).mpr horder.reverse⟩

/-- A script that asks for two of three signatures. -/
def multisigSample : CScript :=
  op2 :: pushData (List.replicate 33 2) ++ pushData (List.replicate 33 3) ++ pushData (List.replicate 33 4) ++
    [op3, opCheckmultisig]

/-- A transaction with one input. -/
def multisigSpend : CTransaction := { vin := [{}], cUnit := unitShare }

/-- A signature of the third key and a placeholder in one list, and a signature of the first key in the other one. -/
theorem multisig_sample :
    verifyScript Crypto.sample (combineSignatures Crypto.sample multisigSample multisigSpend 0 .multisig
      [[2], List.replicate 33 2, List.replicate 33 3, List.replicate 33 4, [3]] [[], List.replicate 33 4 ++ [1]]
      [List.replicate 33 2 ++ [1]]) multisigSample multisigSpend 0 {} 0 = true :=
  (multisig_law.2 Crypto.sample multisigSample multisigSpend 0
    [[2], List.replicate 33 2, List.replicate 33 3, List.replicate 33 4, [3]] [[], List.replicate 33 4 ++ [1]]
    [List.replicate 33 2 ++ [1]] (by decide +kernel) ⟨by decide +kernel, by decide +kernel⟩).2 {} 0 (by decide +kernel)
    (by decide +kernel) (by decide +kernel)

end Morcochain
