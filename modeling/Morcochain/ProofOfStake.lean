import Morcochain.CoinAge

/-!
# The proof of stake

`CheckProofOfStake` (`kernel.cpp`): the signature of the coinstake's input 0, the amount of the output that it names,
and the kernel hash. The script comes from the node's view of the unspent outputs, the amount from the transaction on
disk. What the code reads at an index without a test is read through `vectorAt`, which tells an index that is out of
bounds.

* `checkProofOfStake_ok` : what a coinstake that passes has shown.
* `kernelSignature_sound_iff` : **when it has signed for the output that it names**: not where the view has another
  script for the output, the empty one of a spent output, and that is the one satisfied.
* `kernelReads_inBounds_iff` : **when the check reads existing elements only**: where the index is below the number of
  outputs that the view has left of the transaction.
-/

set_option autoImplicit false

namespace Morcochain

open Guard

/-! ## The check -/

/-- How the check of a kernel stops. -/
inductive StakeFailure where
  /-- An element beyond the end of a vector is read. -/
  | outOfBounds
  | failed (e : Failure)
deriving DecidableEq, Repr

/-- A routine that reads no vector. -/
def bounded {α : Type} (x : Check α) : Except StakeFailure α := x.mapError .failed

/-- `v[i]` of a `std::vector`. -/
def vectorAt {α : Type} (v : List α) (i : Nat) : Except StakeFailure α :=
  match v[i]? with
  | none => .error .outOfBounds
  | some a => .ok a

/-- `sizeof(CBlockHeader)`. -/
def sizeofBlockHeader : Nat := 80

/-- What remains to be told of a failed `CheckStakeKernelHash`; an exception passes through. -/
def kernelFailure : Failure → Failure
  | .exception msg => .exception msg
  | _ => .dos 1 false "CheckProofOfStake() : INFO: check kernel failed on coinstake"

section Check

variable (cfg : Settings) (cr : Crypto) (s : ChainState) (tx : CTransaction) (nBits : Nat)

/-- The signature of an input satisfies a script, as `VerifySignature` is called for a kernel. -/
def signsFor (nIn : Nat) (scriptPubKey : CScript) : Bool :=
  CScriptCheck.run cr ⟨scriptPubKey, tx, nIn, { p2sh := true }, 0⟩

/-- `VerifySignature` of input 0: the script is read off the coins at the index that the input names. -/
def verifyKernelSignature (coins : CCoins) (prevout : COutPoint) : Except StakeFailure Unit := do
  let txout ← vectorAt coins.vout prevout.n
  bounded (dosIf (!signsFor cr tx 0 txout.scriptPubKey) 100 "CheckProofOfStake() : VerifySignature failed on coinstake")

/-- What `CheckStakeKernelHash` is called with. -/
def kernelQuery (prevout : COutPoint) (record : CDiskTx) : KernelQuery where
  nBits := nBits
  blockFrom := record.header
  nTxPrevOffset := record.nTxOffset + sizeofBlockHeader
  txPrev := record.tx
  prevout := prevout
  nTimeTx := tx.nTime

/-- The minimum amount, read off the transaction on disk, and the kernel hash. -/
def checkKernel (prevout : COutPoint) (record : CDiskTx) : Except StakeFailure Uint256 := do
  bounded (errorIf (record.tx.getHash cr ≠ prevout.hash) "txid mismatch in CheckProofOfStake()")
  let txout ← vectorAt record.tx.vout prevout.n
  bounded (dosIf (txout.nValue < minCoinstakeValue) 100 "CheckProofOfStake() : Input value too low on coinstake")
  bounded (((kernelQuery tx nBits prevout record).checkStakeKernelHash cfg cr s.toKernelState).mapError kernelFailure)

/-- `CheckProofOfStake`: the proof hash. -/
def checkProofOfStake : Except StakeFailure Uint256 := do
  bounded (errorIf (!tx.isCoinStake) "CheckProofOfStake() : called on non-coinstake")
  let txin ← vectorAt tx.vin 0
  match s.pcoinsTip.getCoins txin.prevout.hash with
  | none => bounded (.error (.dos 1 false "CheckProofOfStake() : txPrev not found"))
  | some coins => do
    verifyKernelSignature cr tx coins txin.prevout
    match s.txIndex txin.prevout.hash with
    | none => bounded (.error (.error "CheckProofOfStake() : tx index not found"))
    | some record => checkKernel cfg cr s tx nBits txin.prevout record

end Check

/-! ## What a coinstake that passes has shown -/

section Passes

variable {cfg : Settings} {cr : Crypto} {s : ChainState} {tx : CTransaction} {nBits : Nat}

theorem bounded_eq_ok {α : Type} {x : Check α} {a : α} : bounded x = .ok a ↔ x = .ok a := by
  cases x <;> simp [bounded, Except.mapError]

theorem bounded_ne_outOfBounds {α : Type} (x : Check α) : bounded x ≠ .error .outOfBounds := by
  cases x <;> simp [bounded, Except.mapError]

theorem vectorAt_eq_ok {α : Type} {v : List α} {i : Nat} {a : α} : vectorAt v i = .ok a ↔ v[i]? = some a := by
  unfold vectorAt
  cases v[i]? <;> simp

theorem vectorAt_outOfBounds {α : Type} {v : List α} {i : Nat} : vectorAt v i = .error .outOfBounds ↔ v.length ≤ i := by
  unfold vectorAt
  cases h : v[i]? with
  | none => simpa using List.getElem?_eq_none_iff.mp h
  | some a => simpa using (List.getElem?_eq_some_iff.mp h).1

/-- A coinstake has an input. -/
theorem vin_of_isCoinStake (h : tx.isCoinStake = true) : ∃ txin, tx.vin[0]? = some txin := by
  unfold CTransaction.isCoinStake at h
  simp only [decide_eq_true_eq] at h
  cases hvin : tx.vin with
  | nil =>
    rw [hvin] at h
    exact absurd h.2.1 (by simp)
  | cons txin rest => exact ⟨txin, rfl⟩

variable (cfg cr s tx nBits) in
/-- The conditions on a kernel besides its signature: the previous transaction is in the tx index, its output has the
minimum amount, and the kernel hash meets the target. -/
def KernelPasses (prevout : COutPoint) (record : CDiskTx) : Prop :=
  s.txIndex prevout.hash = some record ∧ record.tx.getHash cr = prevout.hash ∧
    (∃ txout, record.tx.vout[prevout.n]? = some txout ∧ minCoinstakeValue ≤ txout.nValue) ∧
    ∃ hash, (kernelQuery tx nBits prevout record).checkStakeKernelHash cfg cr s.toKernelState = .ok hash

theorem checkKernel_isOk {prevout : COutPoint} {record : CDiskTx} (hrecord : s.txIndex prevout.hash = some record) :
    (∃ hash, checkKernel cfg cr s tx nBits prevout record = .ok hash) ↔
      KernelPasses cfg cr s tx nBits prevout record := by
  unfold checkKernel KernelPasses
  simp only [bind_eq_ok, bounded_eq_ok, rejectIf_eq_ok, vectorAt_eq_ok, hrecord, true_and]
  have hmap : ∀ {x : Check Uint256} {hash : Uint256}, x.mapError kernelFailure = .ok hash ↔ x = .ok hash := by
    intro x hash
    cases x <;> simp [Except.mapError]
  simp only [hmap]
  constructor
  · rintro ⟨hash, -, hid, txout, hout, -, hvalue, hkernel⟩
    exact ⟨not_not.mp hid, ⟨txout, hout, Int.not_lt.mp hvalue⟩, hash, hkernel⟩
  · rintro ⟨hid, ⟨txout, hout, hvalue⟩, hash, hkernel⟩
    exact ⟨hash, (), not_not.mpr hid, txout, hout, (), Int.not_lt.mpr hvalue, hkernel⟩

/-- **What a coinstake that passes has shown**: input 0 satisfies the script that the view has for the output, and the
other conditions hold. -/
theorem checkProofOfStake_isOk : (∃ hash, checkProofOfStake cfg cr s tx nBits = .ok hash) ↔
    tx.isCoinStake = true ∧ ∃ txin coins txout record, tx.vin[0]? = some txin ∧
      s.pcoinsTip.getCoins txin.prevout.hash = some coins ∧ coins.vout[txin.prevout.n]? = some txout ∧
      signsFor cr tx 0 txout.scriptPubKey = true ∧ KernelPasses cfg cr s tx nBits txin.prevout record := by
  unfold checkProofOfStake
  simp only [bind_eq_ok, bounded_eq_ok, rejectIf_eq_ok, vectorAt_eq_ok]
  constructor
  · rintro ⟨hash, -, hstake, txin, hin, h⟩
    refine ⟨by simpa using hstake, txin, ?_⟩
    split at h
    · cases bounded_eq_ok.mp h
    · rename_i coins hcoins
      obtain ⟨_, hsig, h⟩ := bind_eq_ok.mp h
      unfold verifyKernelSignature at hsig
      simp only [bind_eq_ok, bounded_eq_ok, rejectIf_eq_ok, vectorAt_eq_ok] at hsig
      obtain ⟨txout, hout, hsigns⟩ := hsig
      split at h
      · cases bounded_eq_ok.mp h
      · rename_i record hrecord
        exact ⟨coins, txout, record, hin, hcoins, hout, by simpa using hsigns, (checkKernel_isOk hrecord).mp ⟨hash, h⟩⟩
  · rintro ⟨hstake, txin, coins, txout, record, hin, hcoins, hout, hsigns, hkernel⟩
    obtain ⟨hash, hhash⟩ := (checkKernel_isOk hkernel.1).mpr hkernel
    refine ⟨hash, (), by simpa using hstake, txin, hin, ?_⟩
    rw [hcoins]
    refine bind_eq_ok.mpr ⟨(), ?_, ?_⟩
    · unfold verifyKernelSignature
      simp only [bind_eq_ok, bounded_eq_ok, rejectIf_eq_ok, vectorAt_eq_ok]
      exact ⟨txout, hout, by simpa using hsigns⟩
    · rw [hkernel.1]
      exact hhash

end Passes

/-! ## The signature -/

section Signature

variable {cfg : Settings} {cr : Crypto} {s : ChainState} {tx : CTransaction} {nBits : Nat}

variable (cr s tx) in
/-- Input 0 satisfies the script of the output that it names in the previous transaction on disk. -/
def KernelSigned : Prop :=
  ∃ txin record txout, tx.vin[0]? = some txin ∧ s.txIndex txin.prevout.hash = some record ∧
    record.tx.vout[txin.prevout.n]? = some txout ∧ signsFor cr tx 0 txout.scriptPubKey = true

variable (cfg cr s tx nBits) in
/-- The view has another script for the output than the transaction on disk, the input satisfies that one only, and the
kernel meets all other conditions. -/
def SignedForAnother : Prop :=
  tx.isCoinStake = true ∧ ∃ txin coins txout record txoutPrev, tx.vin[0]? = some txin ∧
    s.pcoinsTip.getCoins txin.prevout.hash = some coins ∧ coins.vout[txin.prevout.n]? = some txout ∧
    KernelPasses cfg cr s tx nBits txin.prevout record ∧ record.tx.vout[txin.prevout.n]? = some txoutPrev ∧
    txout.scriptPubKey ≠ txoutPrev.scriptPubKey ∧ signsFor cr tx 0 txout.scriptPubKey = true ∧
    signsFor cr tx 0 txoutPrev.scriptPubKey = false

/-- **When a coinstake that passes has signed for the output that it names**, for every view and every coinstake. -/
theorem kernelSignature_sound_iff (cfg : Settings) (cr : Crypto) (s : ChainState) (tx : CTransaction) (nBits : Nat) :
    ((∃ hash, checkProofOfStake cfg cr s tx nBits = .ok hash) → KernelSigned cr s tx) ↔
      ¬ SignedForAnother cfg cr s tx nBits := by
  rw [checkProofOfStake_isOk]
  constructor
  · rintro hsound ⟨hstake, txin, coins, txout, record, txoutPrev, hin, hcoins, hout, hkernel, hprev, -, hsigns, hnot⟩
    obtain ⟨txin', record', txout', hin', hrecord', hout', hsigns'⟩ :=
      hsound ⟨hstake, txin, coins, txout, record, hin, hcoins, hout, hsigns, hkernel⟩
    obtain rfl := Option.some.inj (hin.symm.trans hin')
    obtain rfl := Option.some.inj (hkernel.1.symm.trans hrecord')
    obtain rfl := Option.some.inj (hprev.symm.trans hout')
    rw [hnot] at hsigns'
    cases hsigns'
  · rintro hnot ⟨hstake, txin, coins, txout, record, hin, hcoins, hout, hsigns, hkernel⟩
    obtain ⟨txoutPrev, hprev, -⟩ := hkernel.2.2.1
    refine ⟨txin, record, txoutPrev, hin, hkernel.1, hprev, ?_⟩
    by_contra hunsigned
    refine hnot ⟨hstake, txin, coins, txout, record, txoutPrev, hin, hcoins, hout, hkernel, hprev, fun heq => ?_,
      hsigns,
      by simpa using hunsigned⟩
    rw [← heq] at hunsigned
    exact hunsigned hsigns

/-- A staked transaction with two outputs. -/
def splitStake : CTransaction := { stakedTx with vout := stakedTx.vout ++ stakedTx.vout }

/-- Its coins. -/
def splitView : CCoinsView where
  getCoins txid := if txid = 1 then some (CCoins.ofTx splitStake 1) else none
  bestBlock := some 4

/-- A node whose view is this one, or what it became. -/
def splitNode (view : CCoinsView) : ChainState :=
  { rivalNode view with txIndex := fun txid => if txid = 1 then some ⟨{ nTime := 1300000000 }, 0, splitStake⟩ else none }

/-- A coinstake that names the first output, with nothing but `OP_1` as its signature. -/
def unsignedStake : CTransaction := { rivalStake with vin := [{ prevout := ⟨1, 0⟩, scriptSig := [op1] }] }

/-- **An unsigned coinstake passes** once the output that it names is spent and another output of the same transaction
is not; before, and under the script of the output, it does not. -/
theorem unsignedStake_passes :
    checkProofOfStake {} Crypto.sample (splitNode splitView) unsignedStake 0x1e0fffff =
        .error (.failed (.dos 100 false "CheckProofOfStake() : VerifySignature failed on coinstake")) ∧
      ∃ r, (spendShares unitShare).updateCoins splitView 5 12 = .ok r ∧
        (checkProofOfStake {} Crypto.sample (splitNode r.1) unsignedStake 0x1e0fffff).isOk = true ∧
        splitStake.vout[0]?.map (fun txout => signsFor Crypto.sample unsignedStake 0 txout.scriptPubKey) = some false ∧
        ((splitNode r.1).txIndex 1).map (·.tx) = some splitStake := by
  exact ⟨by decide +kernel, _, rfl, by decide +kernel, by decide +kernel, rfl⟩

end Signature

/-! ## The indices -/

section Bounds

variable {cfg : Settings} {cr : Crypto} {s : ChainState} {tx : CTransaction} {nBits : Nat}

theorem bind_outOfBounds {α β : Type} {x : Except StakeFailure α} {f : α → Except StakeFailure β} :
    (x >>= f) = .error .outOfBounds ↔ x = .error .outOfBounds ∨ ∃ a, x = .ok a ∧ f a = .error .outOfBounds :=
  bind_eq_error

/-- The kernel check reads beyond the outputs of the previous transaction. -/
theorem checkKernel_outOfBounds {prevout : COutPoint} {record : CDiskTx} :
    checkKernel cfg cr s tx nBits prevout record = .error .outOfBounds ↔
      record.tx.getHash cr = prevout.hash ∧ record.tx.vout.length ≤ prevout.n := by
  unfold checkKernel
  simp only [bind_outOfBounds, bounded_ne_outOfBounds, false_or, and_false, exists_false, or_false, bounded_eq_ok,
    rejectIf_eq_ok, vectorAt_outOfBounds, exists_const, not_not]

variable (cr s tx) in
/-- The index that input 0 names is below the number of outputs that the view has left of the transaction, and below
the number of outputs of the transaction on disk when the check comes that far. -/
def KernelIndexInRange : Prop :=
  tx.isCoinStake = true → ∀ txin, tx.vin[0]? = some txin → ∀ coins,
    s.pcoinsTip.getCoins txin.prevout.hash = some coins →
    txin.prevout.n < coins.vout.length ∧
      ∀ txout record, coins.vout[txin.prevout.n]? = some txout → signsFor cr tx 0 txout.scriptPubKey = true →
        s.txIndex txin.prevout.hash = some record → record.tx.getHash cr = txin.prevout.hash →
          txin.prevout.n < record.tx.vout.length

/-- **When the check of a kernel reads existing elements only**, for every view, every tx index and every coinstake. -/
theorem kernelReads_inBounds_iff (cfg : Settings) (cr : Crypto) (s : ChainState) (tx : CTransaction) (nBits : Nat) :
    checkProofOfStake cfg cr s tx nBits ≠ .error .outOfBounds ↔ KernelIndexInRange cr s tx := by
  unfold checkProofOfStake KernelIndexInRange
  by_cases hstake : tx.isCoinStake = true
  · obtain ⟨txin, hin⟩ := vin_of_isCoinStake hstake
    have hguard : bounded (errorIf (!tx.isCoinStake) "CheckProofOfStake() : called on non-coinstake") = .ok () :=
      bounded_eq_ok.mpr (rejectIf_eq_ok.mpr (by simp [hstake]))
    rw [hguard, ok_bind, vectorAt_eq_ok.mpr hin, ok_bind, hin]
    simp only [hstake, true_implies, Option.some.injEq, forall_eq']
    cases hcoins : s.pcoinsTip.getCoins txin.prevout.hash with
    | none => simp [bounded_ne_outOfBounds]
    | some coins =>
      simp only [Option.some.injEq, forall_eq', ne_eq]
      unfold verifyKernelSignature
      by_cases hlt : txin.prevout.n < coins.vout.length
      · obtain ⟨txout, hout⟩ : ∃ txout, coins.vout[txin.prevout.n]? = some txout := ⟨_, List.getElem?_eq_getElem hlt⟩
        rw [vectorAt_eq_ok.mpr hout, ok_bind, hout, and_iff_right hlt]
        cases hsigns : signsFor cr tx 0 txout.scriptPubKey with
        | false =>
          refine iff_of_true (by rintro ⟨⟩) fun txout' record htxout hsigns' => ?_
          rw [← Option.some.inj htxout, hsigns] at hsigns'
          cases hsigns'
        | true =>
          have hverified : bounded (dosIf (!true) 100 "CheckProofOfStake() : VerifySignature failed on coinstake") =
              .ok () := rfl
          rw [hverified, ok_bind]
          cases hrecord : s.txIndex txin.prevout.hash with
          | none => simp [bounded_ne_outOfBounds]
          | some record =>
            simp only [checkKernel_outOfBounds, not_and, Nat.not_le]
            constructor
            · rintro hlen txout' record' - - hrecord' hid
              cases hrecord'
              exact hlen hid
            · exact fun hall hid => hall txout record rfl hsigns rfl hid
      · rw [vectorAt_outOfBounds.mpr (Nat.not_lt.mp hlt)]
        simp [hlt]
  · rw [Bool.not_eq_true] at hstake
    simp only [hstake, Bool.false_eq_true, false_implies, iff_true]
    rintro ⟨⟩

/-- A block whose coinstake names the fourth output of a transaction with one. -/
def strayBlock : CBlock :=
  sampleBlock 7 4 1400000000 [sampleCoinbase 15 1400000000 CTxOut.empty,
    { rivalStake with vin := [{ prevout := ⟨1, 3⟩, scriptSig := sampleScriptSig }] }]

/-- **A block that passes `CheckBlock` makes the check of its kernel read beyond the outputs.** -/
theorem strayBlock_outOfBounds :
    strayBlock.checkBlock {} Crypto.sample true true 1400000000 = .ok () ∧ strayBlock.isProofOfStake = true ∧
      strayBlock.vtx[1]?.map (fun tx => checkProofOfStake {} Crypto.sample (rivalNode stakedView) tx strayBlock.nBits) =
        some (.error .outOfBounds) := by
  refine ⟨toOption_eq_some.mp (by decide +kernel), by decide +kernel, by decide +kernel⟩

end Bounds

end Morcochain
