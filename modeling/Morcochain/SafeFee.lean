import Morcochain.Mempool
import Morcochain.Serialize

/-!
# The fee of the next block

The voted fees that three rules look up behind a block (`main.cpp`): the fee that `CTxMemPool::accept` demands reads
them 60 blocks behind the best block, `CheckInputs` 60 blocks behind the block that it checks, and the wallet pays the
largest one of the next blocks (`GetSafeMinFee`).

* `getElem?_succ_chain` : the blocks of a chain follow each other.
* `chainSafeMinFee_ge` : the safe fee is not below the fee of the next block.
* `acceptMinFee_eq_iff` : **when the memory pool demands the fee of the next block**: exactly when the fees voted 60 and
  59 blocks before the best block are the same.
-/

set_option autoImplicit false

namespace Morcochain

open Guard

/-! ## The blocks that follow a block -/

namespace BlockMap

/-- Walk from an entry to its successors, `fuel` entries at most. -/
def walkNext (m : BlockMap) : Nat → Option Uint256 → List CBlockIndex
  | 0, _ => []
  | _, none => []
  | fuel + 1, some h =>
    match m.find h with
    | none => []
    | some pindex => pindex :: m.walkNext fuel pindex.pnext

/-- The chain that ends at a block is linked forwards, too: each of its blocks is the successor of its predecessor. -/
def LinkedTo (m : BlockMap) (b : Uint256) : Prop :=
  ∀ p ∈ m.chain b, ∀ q, p.pprev = some q → (m.find q).bind (·.pnext) = some p.phashBlock

section Positions

variable {m : BlockMap} {h : Uint256} {p q : CBlockIndex}

/-- The blocks of a chain follow each other. -/
theorem getElem?_succ_chain {i : Nat} (hp : (m.chain h)[i]? = some p) (hq : (m.chain h)[i + 1]? = some q) :
    p.pprev = some q.phashBlock := by
  cases htop : m.find h with
  | none =>
    rw [chain_of_none htop] at hp
    cases hp
  | some top =>
    rw [chain_of_find htop] at hp hq
    refine chain_induction (P := fun top => ∀ i, (top :: m.prevChain top)[i]? = some p →
      (top :: m.prevChain top)[i + 1]? = some q → p.pprev = some q.phashBlock) ?_ ?_ h top htop i hp hq
    · intro x top htop hroot i _ hq
      rw [prevChain, hroot] at hq
      cases hq
    · intro x top z pprev htop hz hpprev ih i hp hq
      have hprev : m.prevChain top = pprev :: m.prevChain pprev := by
        rw [prevChain, hz, Option.map_some, Option.getD_some, chain_of_find hpprev]
      rw [hprev] at hp hq
      cases i with
      | zero =>
        cases hp
        cases hq
        rw [hz, m.hash_eq z q hpprev]
      | succ i => exact ih i hp hq

/-- On a chain that is linked forwards, the walk from the successor of a block starts at the block above it. -/
theorem walkNext_of_linkedTo {b : Uint256} (hlinked : m.LinkedTo b) {i fuel : Nat} (hp : (m.chain b)[i]? = some p)
    (hq : (m.chain b)[i + 1]? = some q) : m.walkNext (fuel + 1) q.pnext = p :: m.walkNext fuel p.pnext := by
  have hprev := getElem?_succ_chain hp hq
  have hnext := hlinked p (List.mem_of_getElem? hp) q.phashBlock hprev
  rw [find_of_mem_chain (List.mem_of_getElem? hq), Option.bind_some] at hnext
  rw [hnext, walkNext, find_of_mem_chain (List.mem_of_getElem? hp)]

end Positions

end BlockMap

/-! ## The safe fee -/

/-- One step of the loop of `CBlockIndex::GetSafeMinFee`. -/
def maxVotedFee (cUnit : CUnit) (nMaxMinFee : Int) (pindex : CBlockIndex) : Check Int := do
  let nBlockMinFee ← pindex.getVotedMinFee cUnit
  return if nBlockMinFee > nMaxMinFee then nBlockMinFee else nMaxMinFee

/-- `CBlockIndex::GetSafeMinFee`, for the first block of a chain. -/
def chainSafeMinFee (m : BlockMap) (chain : List CBlockIndex) (cUnit : CUnit) : Check Int :=
  match chain[min feeVoteDelayBlocks (chain.length - 1)]? with
  | none => .error (.assertion "no block")
  | some pindex => (m.walkNext safeFeeBlocks pindex.pnext).foldlM (maxVotedFee cUnit) 0

/-- `CTransaction::GetSafeMinFee`, for the first block of a chain. -/
def CTransaction.getSafeMinFee (tx : CTransaction) (m : BlockMap) (chain : List CBlockIndex) (nBytes : Nat) :
    Check Int := do
  return minFeeFor (← chainSafeMinFee m chain tx.cUnit) nBytes

section Fees

variable {m : BlockMap} {cUnit : CUnit} {p q : CBlockIndex}

/-- The voted fee of an available unit, a `uint32_t` or the default fee. -/
theorem getVotedMinFee_ok (hunit : isValidUnit cUnit = true) (hfees : p.mapVotedFee.Each (· < 2 ^ 32)) :
    ∃ fee, p.getVotedMinFee cUnit = .ok fee ∧ 0 ≤ fee ∧ fee < 2 ^ 32 := by
  unfold CBlockIndex.getVotedMinFee CUnitMap.get?
  rcases isValidUnit_iff.mp hunit with rfl | rfl
  · rw [if_pos rfl]
    cases hfee : p.mapVotedFee.share with
    | none => exact ⟨_, rfl, by decide, by decide⟩
    | some fee =>
      have hlt := hfees.1 fee hfee
      exact ⟨fee, rfl, by omega, by omega⟩
  · rw [if_neg (by decide), if_pos rfl]
    cases hfee : p.mapVotedFee.currency with
    | none => exact ⟨_, rfl, by decide, by decide⟩
    | some fee =>
      have hlt := hfees.2 fee hfee
      exact ⟨fee, rfl, by omega, by omega⟩

/-- The fee of a transaction that is not too large for a block is not cut off. -/
theorem minFeeFor_eq {fee : Int} {nBytes : Nat} (hpos : 0 ≤ fee) (hlt : fee < 2 ^ 32) (hn : nBytes ≤ maxBlockSize) :
    minFeeFor fee nBytes = (1 + (nBytes : Int) / 1000) * fee := by
  have hk : 0 ≤ 1 + (nBytes : Int) / 1000 ∧ 1 + (nBytes : Int) / 1000 ≤ 1001 := by
    unfold maxBlockSize at hn
    omega
  have hmax : (1 + (nBytes : Int) / 1000) * fee ≤ maxMoney := by
    calc (1 + (nBytes : Int) / 1000) * fee ≤ 1001 * fee := Int.mul_le_mul_of_nonneg_right hk.2 hpos
      _ ≤ 1001 * 2 ^ 32 := Int.mul_le_mul_of_nonneg_left (Int.le_of_lt hlt) (by decide)
      _ ≤ maxMoney := by decide
  exact if_pos (moneyRange_iff.mpr ⟨Int.mul_nonneg hk.1 hpos, hmax⟩)

/-- A larger base fee makes no smaller fee. -/
theorem minFeeFor_mono {fee fee' : Int} (hpos : 0 ≤ fee) (hle : fee ≤ fee') (nBytes : Nat) :
    minFeeFor fee nBytes ≤ minFeeFor fee' nBytes := by
  have hk : 0 ≤ 1 + (nBytes : Int) / 1000 := by omega
  have hmul := Int.mul_le_mul_of_nonneg_left hle hk
  have hmul' := Int.mul_nonneg hk hpos
  unfold minFeeFor
  simp only [moneyRange_iff]
  split <;> split <;> omega

/-- The loop of the safe fee does not go below where it stands, nor below the fee of a block that it has passed. -/
theorem foldlM_maxVotedFee_ge : ∀ {l : List CBlockIndex} {s r : Int}, l.foldlM (maxVotedFee cUnit) s = .ok r →
    s ≤ r ∧ ∀ p ∈ l, ∀ fee, p.getVotedMinFee cUnit = .ok fee → fee ≤ r
  | [], s, r, h => by
    cases h
    exact ⟨Int.le_refl _, List.forall_mem_nil _⟩
  | p :: l, s, r, h => by
    obtain ⟨s', hs', h⟩ := foldlM_cons_ok.mp h
    obtain ⟨hle, hall⟩ := foldlM_maxVotedFee_ge h
    obtain ⟨fee, hfee, hs'⟩ := bind_eq_ok.mp hs'
    have hmax : s ≤ s' ∧ fee ≤ s' := by
      have heq := Except.ok.inj hs'
      split at heq <;> omega
    refine ⟨Int.le_trans hmax.1 hle, List.forall_mem_cons.mpr ⟨fun fee' hfee' => ?_, hall⟩⟩
    rw [hfee, Except.ok.injEq] at hfee'
    exact hfee' ▸ Int.le_trans hmax.2 hle

end Fees

/-! ## The fee that the memory pool demands -/

section Accept

variable {tip : ChainTip} {b : Uint256} {best : CBlockIndex} {tx : CTransaction}

/-- The voted fees on which the fee after 60 blocks rests, for the best block and for the block that follows it. -/
theorem behind_best (tx : CTransaction) (hbest : tip.pindexBest = some b) (hfind : tip.mapBlockIndex.find b = some best)
    (hheight : feeVoteDelayBlocks ≤ best.nHeight) :
    ∃ p q, tip.bestChain[59]? = some p ∧ tip.bestChain[60]? = some q ∧
      chainMinFee tip.bestChain tx.cUnit = q.getVotedMinFee tx.cUnit ∧
      chainMinFee ({} :: tip.bestChain) tx.cUnit = p.getVotedMinFee tx.cUnit ∧
      chainSafeMinFee tip.mapBlockIndex tip.bestChain tx.cUnit =
        (tip.mapBlockIndex.walkNext safeFeeBlocks q.pnext).foldlM (maxVotedFee tx.cUnit) 0 := by
  have hchain : tip.bestChain = tip.mapBlockIndex.chain b := by
    unfold ChainTip.bestChain
    rw [hbest]
    rfl
  have hlen : tip.bestChain.length = best.nHeight + 1 := by rw [hchain, BlockMap.length_chain hfind]
  have hmin : min feeVoteDelayBlocks (tip.bestChain.length - 1) = 60 := by
    rw [hlen]
    exact Nat.min_eq_left hheight
  have hmin' : min feeVoteDelayBlocks (({} :: tip.bestChain : List CBlockIndex).length - 1) = 60 := by
    rw [List.length_cons, hlen]
    exact Nat.min_eq_left (by omega)
  have h60 : 60 < tip.bestChain.length := by
    rw [hlen]
    exact Nat.lt_succ_of_le hheight
  have h59 : 59 < tip.bestChain.length := by omega
  refine ⟨tip.bestChain[59], tip.bestChain[60], List.getElem?_eq_getElem h59, List.getElem?_eq_getElem h60, ?_, ?_, ?_⟩
  · rw [chainMinFee, hmin, List.getElem?_eq_getElem h60]
  · rw [chainMinFee, hmin', List.getElem?_cons_succ, List.getElem?_eq_getElem h59]
  · rw [chainSafeMinFee, hmin, List.getElem?_eq_getElem h60]

/-- The safe fee is not below the fee of the next block. -/
theorem chainSafeMinFee_ge {p q : CBlockIndex} {safe fee : Int} {m : BlockMap} {i : Nat} (hlinked : m.LinkedTo b)
    (hp : (m.chain b)[i]? = some p) (hq : (m.chain b)[i + 1]? = some q)
    (hsafe : (m.walkNext safeFeeBlocks q.pnext).foldlM (maxVotedFee tx.cUnit) 0 = .ok safe)
    (hfee : p.getVotedMinFee tx.cUnit = .ok fee) : fee ≤ safe := by
  rw [show safeFeeBlocks = 9 + 1 from rfl, BlockMap.walkNext_of_linkedTo hlinked hp hq] at hsafe
  exact (foldlM_maxVotedFee_ge hsafe).2 p List.mem_cons_self fee hfee

/-- **When the memory pool demands the fee of the next block.** On a main chain of at least 60 blocks above its root,
the fee that `accept` demands of a transaction is the one for its size at the rate that is effective in the block that
follows, and a transaction that pays exactly the safe fee pays enough, if and only if the fees that were voted 60 and 59
blocks before the best block are the same. -/
theorem acceptMinFee_eq_iff (hbest : tip.pindexBest = some b) (hfind : tip.mapBlockIndex.find b = some best)
    (hheight : feeVoteDelayBlocks ≤ best.nHeight) (hlinked : tip.mapBlockIndex.LinkedTo b)
    (hfees : ∀ p ∈ tip.bestChain, p.mapVotedFee.Each (· < 2 ^ 32)) (hcheck : tx.checkTransaction = .ok ()) :
    ((∃ fee, tx.getUnitMinFeeFromPrevBlock tip.bestChain = .ok fee ∧
        tx.getMinFee tip.bestChain tx.serializeSize = .ok ((1 + (tx.serializeSize : Int) / 1000) * fee)) ∧
      ∀ nFees, tx.getSafeMinFee tip.mapBlockIndex tip.bestChain tx.serializeSize = .ok nFees →
        ∃ txMinFee, tx.getMinFee tip.bestChain tx.serializeSize = .ok txMinFee ∧ txMinFee ≤ nFees) ↔
    (tip.bestChain[60]?).map (·.getVotedMinFee tx.cUnit) = (tip.bestChain[59]?).map (·.getVotedMinFee tx.cUnit) := by
  obtain ⟨hunit, hsize⟩ := CTransaction.checkTransaction_unit hcheck
  obtain ⟨p, q, hp, hq, heff, hnext, hsafe⟩ := behind_best tx hbest hfind hheight
  obtain ⟨feeNext, hfeeNext, hposNext, hltNext⟩ := getVotedMinFee_ok hunit (hfees p (List.mem_of_getElem? hp))
  obtain ⟨feeEff, hfeeEff, hposEff, hltEff⟩ := getVotedMinFee_ok hunit (hfees q (List.mem_of_getElem? hq))
  have hdemanded : tx.getMinFee tip.bestChain tx.serializeSize =
    .ok ((1 + (tx.serializeSize : Int) / 1000) * feeEff) := by
    unfold CTransaction.getMinFee
    rw [heff, hfeeEff, ok_bind, pure_eq_ok, minFeeFor_eq hposEff hltEff hsize]
  have hunitFee : tx.getUnitMinFeeFromPrevBlock tip.bestChain = .ok feeNext := hnext.trans hfeeNext
  rw [hdemanded, hunitFee, hp, hq, Option.map_some, Option.map_some, Option.some.injEq, hfeeEff, hfeeNext,
    Except.ok.injEq]
  constructor
  · rintro ⟨⟨fee, hfee, heq⟩, -⟩
    obtain rfl := Except.ok.inj hfee
    exact Int.eq_of_mul_eq_mul_left (by omega) (Except.ok.inj heq)
  · rintro rfl
    refine ⟨⟨feeEff, rfl, rfl⟩, fun nFees hnFees => ⟨_, rfl, ?_⟩⟩
    obtain ⟨safe, hsafe', hnFees⟩ := bind_eq_ok.mp hnFees
    have hge : feeEff ≤ safe := by
      have hchain : tip.bestChain = tip.mapBlockIndex.chain b := by
        unfold ChainTip.bestChain
        rw [hbest]
        rfl
      exact chainSafeMinFee_ge hlinked (hchain ▸ hp) (hchain ▸ hq) (hsafe ▸ hsafe') hfeeNext
    rw [← Except.ok.inj hnFees, ← minFeeFor_eq hposEff hltEff hsize]
    exact minFeeFor_mono hposEff hge _

end Accept

/-! ## A chain in which the voted fee falls -/

/-- A main chain: up to height 440 the voted fee of the shares is twice the default fee. -/
def fallingFees (nHeight : Nat) : BlockMap :=
  BlockMap.line nHeight fun n =>
    { mapVotedFee := if n ≤ 440 then { share := some 20000 } else {}
      pnext := if n < nHeight then some (n + 2) else none }

/-- The node that stands at the end of this chain. -/
def fallingFeesTip (nHeight : Nat) : ChainTip where
  cfg := {}
  cr := Crypto.sample
  pcoinsTip := { getCoins := fun _ => none, bestBlock := some (nHeight + 1) }
  mapBlockIndex := fallingFees nHeight
  pindexBest := some (nHeight + 1)
  nBestHeight := nHeight
  nAdjustedTime := 0

/-- A payment of shares. -/
def sharePayment : CTransaction where
  vin := [{ prevout := ⟨1, 0⟩, scriptSig := [] }]
  vout := [{ nValue := 50000, scriptPubKey := setDestination (.keyID default) }]
  cUnit := unitShare

theorem next_in_line {h n : Nat} (hh : 1 ≤ h ∧ h ≤ n + 1) (h1 : ¬ h = 1) : h - 1 - 1 < n ∧ h - 1 - 1 + 2 = h := by omega

theorem fallingFees_linkedTo (nHeight : Nat) : (fallingFees nHeight).LinkedTo (nHeight + 1) := by
  intro p hp q hq
  have hfind := BlockMap.find_of_mem_chain hp
  generalize p.phashBlock = h at hfind ⊢
  simp only [fallingFees, BlockMap.line] at hfind ⊢
  split at hfind
  · rename_i hh
    obtain rfl := Option.some.inj hfind
    simp only at hq
    split at hq
    · cases hq
    · rename_i h1
      obtain rfl := Option.some.inj hq
      obtain ⟨hlt, hheight⟩ := BlockMap.pred_in_line hh h1
      have hnext := next_in_line hh h1
      rw [if_pos hlt, Option.bind_some]
      simp only [if_pos hnext.1, hnext.2]
  · cases hfind

/-- The voted fees of the chain. -/
theorem fallingFees_each (nHeight : Nat) :
    ∀ p ∈ (fallingFees nHeight).chain (nHeight + 1), p.mapVotedFee.Each (· < 2 ^ 32) := by
  intro p hp
  have hfind := BlockMap.find_of_mem_chain hp
  generalize p.phashBlock = h at hfind
  simp only [fallingFees, BlockMap.line] at hfind
  split at hfind
  · obtain rfl := Option.some.inj hfind
    simp only
    split
    · exact ⟨fun fee hfee => (Option.some.inj hfee) ▸ of_decide_eq_true rfl, fun _ hfee => (nomatch hfee)⟩
    · exact ⟨fun _ hfee => (nomatch hfee), fun _ hfee => (nomatch hfee)⟩
  · cases hfind

/-- A node whose best block stands 61 blocks above the last one with the old fee. -/
theorem acceptMinFee_eq_sample :
    ∃ best, (fallingFeesTip 501).mapBlockIndex.find 502 = some best ∧ feeVoteDelayBlocks ≤ best.nHeight ∧
      (((∃ fee, sharePayment.getUnitMinFeeFromPrevBlock (fallingFeesTip 501).bestChain = .ok fee ∧
          sharePayment.getMinFee (fallingFeesTip 501).bestChain sharePayment.serializeSize =
            .ok ((1 + (sharePayment.serializeSize : Int) / 1000) * fee)) ∧
        ∀ nFees, sharePayment.getSafeMinFee (fallingFeesTip 501).mapBlockIndex (fallingFeesTip 501).bestChain
            sharePayment.serializeSize = .ok nFees →
          ∃ txMinFee, sharePayment.getMinFee (fallingFeesTip 501).bestChain sharePayment.serializeSize = .ok txMinFee ∧
            txMinFee ≤ nFees) ↔
      ((fallingFeesTip 501).bestChain[60]?).map (·.getVotedMinFee sharePayment.cUnit) =
        ((fallingFeesTip 501).bestChain[59]?).map (·.getVotedMinFee sharePayment.cUnit)) := by
  refine ⟨_, rfl, by decide,
    acceptMinFee_eq_iff rfl rfl (by decide) (fallingFees_linkedTo 501) (fallingFees_each 501) ?_⟩
  exact toOption_eq_some.mp (by decide +kernel)

/-- **The memory pool demands the old fee one block too long**: in the block that follows, half of it is enough, and so
much the wallet pays. -/
theorem safeFee_refused :
    (fallingFeesTip 500).mapBlockIndex.LinkedTo 501 ∧ sharePayment.checkTransaction = .ok () ∧
      sharePayment.isUnpark = false ∧
      sharePayment.getUnitMinFeeFromPrevBlock (fallingFeesTip 500).bestChain = .ok 10000 ∧
      sharePayment.getSafeMinFee (fallingFeesTip 500).mapBlockIndex (fallingFeesTip 500).bestChain
        sharePayment.serializeSize = .ok 10000 ∧
      sharePayment.getMinFee (fallingFeesTip 500).bestChain sharePayment.serializeSize = .ok 20000 := by
  refine ⟨fallingFees_linkedTo 500, toOption_eq_some.mp ?_, ?_, toOption_eq_some.mp ?_, toOption_eq_some.mp ?_,
    toOption_eq_some.mp ?_⟩
  all_goals decide +kernel

end Morcochain
