import Morcochain.Serialize

/-!
# Votes in scripts

A vote travels as a push in an output script of the coinstake (`CVote::ToScript`), and `ExtractVote` lets the script
interpreter take the push apart again.

* `pushedData_pushData` : the interpreter gives back **what fits in a stack element**, and nothing else.
* `extractVote_toScript_iff` : **exactly which votes come back** from their scripts.
-/

set_option autoImplicit false

namespace Morcochain

/-- `MAX_SCRIPT_ELEMENT_SIZE`. -/
def maxScriptElementSize : Nat := 520

/-- `CVote::ToScript`. -/
def CVote.toScript (vote : CVote) (nProtocolVersion : Int) : CScript :=
  opReturn :: op1 :: pushData (writeVote nProtocolVersion vote)

/-! ## One push -/

section Push

variable {b : Bytes}

theorem length_le_pushData (b : Bytes) : b.length < (pushData b).length := by
  unfold pushData
  split_ifs <;> simp only [List.length_cons] <;> omega

theorem parseOps_pushData (h : b.length ≤ 0xffff) :
    ∃ opcode, opcode ≤ opPushdata4 ∧ parseOps (pushData b) = ([⟨opcode, b, []⟩], true) := by
  obtain ⟨opcode, hop, hget⟩ := getOp_pushData h []
  rw [List.append_nil] at hget
  exact ⟨opcode, hop, by rw [parseOps_cons hget, parseOps_nil]⟩

/-- **The data of a push** comes back when it fits in a stack element, and is lost when it does not. -/
theorem pushedData_pushData (b : Bytes) :
    pushedData (pushData b) = if b.length ≤ maxScriptElementSize then some b else none := by
  have hlong := length_le_pushData b
  have hshort := length_pushData b
  unfold pushedData maxScriptElementSize
  by_cases hb : b.length ≤ 0xffff
  · obtain ⟨opcode, hop, hparse⟩ := parseOps_pushData hb
    have hpush : isPushOnly (pushData b) = true := by
      simp only [isPushOnly, hparse, List.all_cons, List.all_nil, Bool.and_true, Bool.true_and, decide_eq_true_eq]
      exact Std.le_trans hop (by decide)
    have hreserved : opcode ≠ opReserved := by
      rintro rfl
      exact absurd hop (by decide)
    by_cases h : b.length ≤ 520
    · rw [if_pos ⟨hpush, by omega⟩, if_pos h, hparse]
      simp only [pushedData.evalPushes, if_neg (show ¬ (b.length > 520 ∨ opcode = opReserved) by
        rintro (hlt | heq)
        · omega
        · exact hreserved heq), if_pos hop]
      rfl
    · rw [if_neg h]
      split
      · rw [hparse]
        simp only [pushedData.evalPushes, if_pos (show b.length > 520 ∨ opcode = opReserved from .inl (by omega))]
      · rfl
  · rw [if_neg (by omega), if_neg (by omega)]

end Push

/-! ## The round trip -/

section RoundTrip

variable {vote : CVote} {nProtocolVersion : Int}

theorem extractVoteScript_toScript (vote : CVote) (nProtocolVersion : Int) :
    extractVoteScript (vote.toScript nProtocolVersion) nProtocolVersion =
      if vote.serializeSize nProtocolVersion ≤ maxScriptElementSize then
        (readVote nProtocolVersion (writeVote nProtocolVersion vote)).map (·.1)
      else none := by
  have hvote : isVoteScript (vote.toScript nProtocolVersion) = true := by
    have hlen := length_le_pushData (writeVote nProtocolVersion vote)
    refine decide_eq_true ⟨?_, rfl, rfl⟩
    rw [CVote.toScript, List.length_cons, List.length_cons]
    omega
  have hdrop : (vote.toScript nProtocolVersion).drop 2 = pushData (writeVote nProtocolVersion vote) := rfl
  rw [extractVoteScript, hvote, hdrop, pushedData_pushData, length_writeVote]
  simp only [Bool.not_true, Bool.false_eq_true, if_false]
  by_cases h : vote.serializeSize nProtocolVersion ≤ maxScriptElementSize
  · rw [if_pos h, if_pos h, Option.bind_eq_bind, Option.bind_some, Option.bind_eq_bind]
    cases readVote nProtocolVersion (writeVote nProtocolVersion vote) <;> rfl
  · rw [if_neg h, if_neg h]
    rfl

/-- A valid vote whose serialization fits in a stack element can be read. -/
theorem fits_of_valid (hvalid : vote.isValid nProtocolVersion = true) (hversion : IntFits 4 vote.nVersionVote)
    (hfees : vote.mapFeeVote.Each (· < 256 ^ 4)) (hsize : vote.serializeSize nProtocolVersion ≤ maxScriptElementSize) :
    vote.Fits nProtocolVersion := by
  obtain ⟨hparkRates, -, hcustodians, -⟩ := of_decide_eq_true hvalid
  rw [List.all_eq_true] at hparkRates hcustodians
  simp only [CVote.serializeSize, maxScriptElementSize] at hsize
  have hcustodianCount := length_le_vectorSize
    (l := vote.vCustodianVote.map fun _ => CCustodianVote.serializeSize (vote.serializedVersion nProtocolVersion)) (by
      intro n hn
      obtain ⟨v, -, rfl⟩ := List.mem_map.mp hn
      unfold CCustodianVote.serializeSize
      split <;> decide)
  have hparkRateCount := length_le_vectorSize (l := vote.vParkRateVote.map (·.serializeSize)) (by
      intro n hn
      obtain ⟨v, -, rfl⟩ := List.mem_map.mp hn
      exact Nat.le_add_right 1 _)
  rw [List.length_map] at hcustodianCount hparkRateCount
  refine ⟨hversion, ⟨?_, fun v hv => ?_⟩, ⟨?_, fun v hv => ⟨?_, fun r hr => ?_⟩⟩, fun hv => ?_, hfees⟩
  · unfold maxSize
    omega
  · obtain ⟨-, -, hmoney⟩ := of_decide_eq_true (hcustodians v hv)
    rw [moneyRange_iff] at hmoney
    unfold maxMoney coin at hmoney
    constructor <;> omega
  · unfold maxSize
    omega
  · have hmem := le_vectorSize (List.mem_map.mpr ⟨v, hv, rfl⟩ : v.serializeSize ∈ vote.vParkRateVote.map (·.serializeSize))
    have hcount := length_le_vectorSize (l := v.vParkRate.map fun _ => 9) (by
      intro n hn
      obtain ⟨r, -, rfl⟩ := List.mem_map.mp hn
      decide)
    rw [List.length_map] at hcount
    have hsum : v.serializeSize = 1 + vectorSize (v.vParkRate.map fun _ => 9) := rfl
    unfold maxSize
    omega
  · obtain ⟨-, hrates, -⟩ := of_decide_eq_true (hparkRates v hv)
    obtain ⟨hduration, hlow, hhigh⟩ := of_decide_eq_true (List.all_eq_true.mp hrates r hr)
    unfold maxCompactDuration at hduration
    unfold maxParkRate coinParkRate coin at hhigh
    refine ⟨by omega, ?_⟩
    constructor <;> omega
  · have hcount := length_le_vectorSize (l := vote.vMotion.map fun _ => 20) (by
      intro n hn
      obtain ⟨r, -, rfl⟩ := List.mem_map.mp hn
      decide)
    rw [List.length_map] at hcount
    simp only [if_pos hv] at hsize
    unfold maxSize
    omega

/-- **Exactly which votes come back.** A valid vote, written into a script at a protocol version, is extracted from it
at this version as what its effective version carries exactly when its serialization fits in an element of the script
interpreter's stack. -/
theorem extractVote_toScript_iff (hvalid : vote.isValid nProtocolVersion = true)
    (hversion : IntFits 4 vote.nVersionVote)
    (hfees : vote.mapFeeVote.Each (· < 256 ^ 4)) :
    extractVoteScript (vote.toScript nProtocolVersion) nProtocolVersion = some (vote.carried nProtocolVersion) ↔
      vote.serializeSize nProtocolVersion ≤ maxScriptElementSize := by
  rw [extractVoteScript_toScript]
  constructor
  · intro h
    by_contra hsize
    rw [if_neg hsize] at h
    cases h
  · intro hsize
    have hread := reads_vote (fits_of_valid hvalid hversion hfees hsize) []
    rw [List.append_nil] at hread
    rw [if_pos hsize, hread]
    rfl

end RoundTrip

/-- A vote with something in each field. -/
def fullVote : CVote :=
  { vCustodianVote := [{ cUnit := unitCurrency, fScript := true, hashAddress := Uint160.ofBytes (List.replicate 20 7), nAmount := 500 }]
    vParkRateVote := [{ cUnit := unitCurrency, vParkRate := [⟨13, 100⟩, ⟨14, 200⟩] }]
    vMotion := [Uint160.ofBytes (List.replicate 20 9)], mapFeeVote := { currency := some 300 } }

theorem fullVote_fees : fullVote.mapFeeVote.Each (· < 256 ^ 4) := by
  refine ⟨fun x h => ?_, fun x h => ?_⟩
  · cases h
  · cases h
    decide

/-- It comes back, without what protocol version 0.5 does not carry. -/
theorem extractVote_toScript_sample :
    fullVote.carried protocolV0_5 = { fullVote with mapFeeVote := {} } ∧
    extractVoteScript (fullVote.toScript protocolV0_5) protocolV0_5 = some (fullVote.carried protocolV0_5) :=
  ⟨by decide +kernel, (extractVote_toScript_iff (by decide +kernel) ⟨by decide, by decide⟩
    fullVote_fees).mpr (by decide +kernel)⟩

/-! ## A vote that is lost -/

/-- A vote for as many motions as fit a coinstake, with one coinstake that carries its script. -/
def longVote : CVote := { vMotion := (List.range 26).map fun i => Uint160.ofBytes (List.replicate 20 (UInt8.ofNat i)) }

/-- A coinstake that carries the vote. -/
def longStake : CTransaction :=
  { nTime := 1400000000, cUnit := unitShare, vin := [{ prevout := ⟨7, 0⟩, scriptSig := List.replicate 72 1 }]
    vout := [CTxOut.empty, { nValue := 100000000, scriptPubKey := List.replicate 35 2 },
      { nValue := 0, scriptPubKey := longVote.toScript protocolV2_0 }] }

/-- The vote is valid, its script fits in a coinstake, and it does not come back. -/
theorem longVote_lost :
    longVote.isValid protocolV2_0 = true ∧ longStake.isCoinStake = true ∧ longStake.serializeSize ≤ maxCoinstakeSize ∧
    longVote.toScript protocolV2_0 ∈ longStake.vout.map (·.scriptPubKey) ∧
    extractVoteScript (longVote.toScript protocolV2_0) protocolV2_0 = none := by
  refine ⟨by decide +kernel, by decide +kernel, by decide +kernel, by decide +kernel, ?_⟩
  rw [extractVoteScript_toScript, if_neg (by decide +kernel)]

end Morcochain
