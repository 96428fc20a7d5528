import Morcochain.Acceptance
import Morcochain.CompactTarget
import Morcochain.Serialize
import Morcochain.Lib.Growth

/-!
# Targets along a chain

The targets that `GetNextTargetRequired` (`main.cpp`) demands of the blocks of a chain. The first blocks are
proof-of-work and the others proof-of-stake, so that the block before is of the same kind, the first of a kind apart.

* `NodeState.checkAccept_demanded` : `AcceptBlock` checks what is demanded.
* `Demanded.cases` : a target is the limit, or an initial one, or it follows from the two blocks before.
* `Demanded.exists_target` : **the target that is demanded** of a block, against that of its predecessor.
* `compactTargets_law` : what is kept of a target when it is written down.
-/

set_option autoImplicit false

namespace Morcochain

open Guard Truncation

/-! ## Chains with the targets that are demanded -/

/-- What is demanded of the kind, target and time of a block above a chain. -/
structure Demanded (cfg : Settings) (chainPrev : List CBlockIndex) (fProofOfStake : Bool) (nBits : Nat)
    (nBlockTime : Int) :
    Prop where
  kind : fProofOfStake = true ↔ ∃ p ∈ chainPrev.head?, proofOfWorkBlocks < (p.nHeight : Int) + 1
  bits : nBits = getNextTargetRequired cfg chainPrev fProofOfStake
  time : ∀ p ∈ chainPrev.head?,
    getMedianTimePast chainPrev < nBlockTime ∧ p.getBlockTime ≤ nBlockTime + nMaxClockDrift

/-- A chain down to the genesis block whose blocks carry what is demanded of them. -/
def DemandedChain (cfg : Settings) : List CBlockIndex → Prop
  | [] => True
  | p :: chainPrev =>
    (p.pprev = none ↔ chainPrev = []) ∧
      (p.nHeight : Int) = (chainPrev.head?.map fun q => (q.nHeight : Int) + 1).getD 0 ∧
      Demanded cfg chainPrev p.isProofOfStake p.nBits p.getBlockTime ∧ DemandedChain cfg chainPrev

instance (cfg : Settings) (chainPrev : List CBlockIndex) (fProofOfStake : Bool) (nBits : Nat) (nBlockTime : Int) :
    Decidable (Demanded cfg chainPrev fProofOfStake nBits nBlockTime) :=
  decidable_of_iff
    ((fProofOfStake = true ↔ ∃ p ∈ chainPrev.head?, proofOfWorkBlocks < (p.nHeight : Int) + 1) ∧
      nBits = getNextTargetRequired cfg chainPrev fProofOfStake ∧
      ∀ p ∈ chainPrev.head?, getMedianTimePast chainPrev < nBlockTime ∧ p.getBlockTime ≤ nBlockTime + nMaxClockDrift)
    ⟨fun ⟨hkind, hbits, htime⟩ => ⟨hkind, hbits, htime⟩, fun h => ⟨h.kind, h.bits, h.time⟩⟩

instance decidableDemandedChain (cfg : Settings) : (chain : List CBlockIndex) → Decidable (DemandedChain cfg chain)
  | [] => inferInstanceAs (Decidable True)
  | p :: chainPrev =>
    have := decidableDemandedChain cfg chainPrev
    inferInstanceAs (Decidable ((p.pprev = none ↔ chainPrev = []) ∧
      (p.nHeight : Int) = (chainPrev.head?.map fun q => (q.nHeight : Int) + 1).getD 0 ∧
      Demanded cfg chainPrev p.isProofOfStake p.nBits p.getBlockTime ∧ DemandedChain cfg chainPrev))

/-- `AcceptBlock` checks what is demanded. -/
theorem NodeState.checkAccept_demanded {env : NodeContext} {s : NodeState} {block : CBlock} {pindexPrev : CBlockIndex}
    (hfind : s.mapBlockIndex.find block.hashPrevBlock = some pindexPrev)
    (h : s.checkAccept env block pindexPrev = .ok ()) :
    Demanded env.cfg (s.mapBlockIndex.chain block.hashPrevBlock) block.isProofOfStake block.nBits block.getBlockTime := by
  have hhead : (s.mapBlockIndex.chain block.hashPrevBlock).head? = some pindexPrev := by
    rw [BlockMap.chain_of_find hfind]
    rfl
  unfold NodeState.checkAccept at h
  obtain ⟨_, hstake, h⟩ := bind_eq_ok.mp h
  obtain ⟨_, hwork, h⟩ := bind_eq_ok.mp h
  obtain ⟨_, hbits, h⟩ := bind_eq_ok.mp h
  obtain ⟨_, htime, -⟩ := bind_eq_ok.mp h
  have hstake := rejectIf_eq_ok.mp hstake
  have hwork := rejectIf_eq_ok.mp hwork
  have htime := rejectIf_eq_ok.mp htime
  refine ⟨?_, not_not.mp (rejectIf_eq_ok.mp hbits), ?_⟩
  · rw [hhead]
    constructor
    · exact fun hkind => ⟨pindexPrev, rfl, not_le.mp fun hle => hstake ⟨hle, hkind⟩⟩
    · rintro ⟨p, hp, hlt⟩
      cases hp
      by_contra hkind
      exact hwork ⟨not_le.mpr hlt, by simp [CBlock.isProofOfWork, hkind]⟩
  · intro p hp
    rw [hhead] at hp
    cases hp
    omega

section Chain

variable {cfg : Settings} {p q : CBlockIndex} {chain rest above : List CBlockIndex} {k : Bool} {nBits : Nat} {t : Int}

theorem DemandedChain.drop : ∀ {above : List CBlockIndex}, DemandedChain cfg (above ++ chain) → DemandedChain cfg chain
  | [], h => h
  | _ :: _, h => DemandedChain.drop h.2.2.2

/-- The kind of a block is that of its height. -/
theorem DemandedChain.kind_iff : ∀ {chain : List CBlockIndex}, DemandedChain cfg chain → ∀ p ∈ chain,
    (p.isProofOfStake = true ↔ proofOfWorkBlocks < p.nHeight)
  | [], _, _, hp => nomatch hp
  | q :: rest, h, p, hp => by
    obtain ⟨-, hheight, hdemanded, hrest⟩ := h
    rcases List.mem_cons.mp hp with rfl | hp
    · rw [hdemanded.kind, hheight]
      cases rest with
      | nil => exact ⟨fun ⟨_, hq, _⟩ => (nomatch hq), fun h => absurd h (by decide)⟩
      | cons q rest => exact ⟨fun ⟨_, hq, hlt⟩ => by cases hq; exact hlt, fun hlt => ⟨q, rfl, hlt⟩⟩
    · exact hrest.kind_iff p hp

/-- The heights of a chain decrease. -/
theorem DemandedChain.height_lt : ∀ {chain : List CBlockIndex} {p : CBlockIndex}, DemandedChain cfg (p :: chain) →
    ∀ q ∈ chain, q.nHeight < p.nHeight
  | [], _, _, _, hq => nomatch hq
  | r :: rest, p, h, q, hq => by
    obtain ⟨-, hheight, -, hrest⟩ := h
    have hlt : (p.nHeight : Int) = r.nHeight + 1 := hheight
    rcases List.mem_cons.mp hq with rfl | hq
    · omega
    · have := hrest.height_lt q hq
      omega

/-- A block above another one has a predecessor. -/
theorem DemandedChain.pprev_isSome (h : DemandedChain cfg (p :: q :: rest)) : p.pprev.isSome = true := by
  cases hprev : p.pprev with
  | none => exact nomatch h.1.mp hprev
  | some _ => rfl

/-! ## The last block of a kind -/

theorem getLastBlockIndex_of_kind (hp : p.isProofOfStake = k) : getLastBlockIndex k (p :: rest) = p :: rest :=
  if_neg fun h => h.2 hp

/-- The search goes down the chain. -/
theorem getLastBlockIndex_suffix (k : Bool) : ∀ chain : List CBlockIndex, getLastBlockIndex k chain <:+ chain
  | [] => List.suffix_refl []
  | p :: rest => by
    unfold getLastBlockIndex
    split
    · exact (getLastBlockIndex_suffix k rest).trans (List.suffix_cons p rest)
    · exact List.suffix_refl _

/-- When no block of a chain is of a kind, the search ends at the genesis block. -/
theorem getLastBlockIndex_of_others : ∀ {chain : List CBlockIndex}, DemandedChain cfg chain →
    (∀ p ∈ chain, p.isProofOfStake ≠ k) → chain ≠ [] → ∃ g, getLastBlockIndex k chain = [g] ∧ g.pprev = none
  | [], _, _, hne => absurd rfl hne
  | [p], h, _, _ => by
    have hroot : p.pprev = none := h.1.mpr rfl
    refine ⟨p, if_neg fun hc => ?_, hroot⟩
    rw [hroot] at hc
    exact nomatch hc.1
  | p :: q :: rest, h, hothers, _ => by
    have hstep : getLastBlockIndex k (p :: q :: rest) = getLastBlockIndex k (q :: rest) :=
      if_pos ⟨h.pprev_isSome, hothers p List.mem_cons_self⟩
    rw [hstep]
    exact getLastBlockIndex_of_others h.2.2.2 (fun r hr => hothers r (List.mem_cons_of_mem p hr)) (List.cons_ne_nil q rest)

/-- The last block of a kind is the last block, or the genesis block. Below a proof-of-work block there is no other
kind. -/
theorem DemandedChain.last_kind (h : DemandedChain cfg (p :: rest)) (hk : k = false → p.isProofOfStake = false) :
    p.isProofOfStake = k ∨ ∃ g, getLastBlockIndex k (p :: rest) = [g] ∧ g.pprev = none := by
  by_cases hp : p.isProofOfStake = k
  · exact .inl hp
  · refine .inr (getLastBlockIndex_of_others h (fun q hq hqk => hp ?_) (List.cons_ne_nil p rest))
    cases k with
    | false => exact hk rfl
    | true =>
      rcases List.mem_cons.mp hq with rfl | hq'
      · exact hqk
      · have hlt := h.height_lt q hq'
        have hheight := (h.kind_iff q hq).mp hqk
        exact (h.kind_iff p List.mem_cons_self).mpr (by omega)

/-- Below a proof-of-work block stand proof-of-work blocks. -/
theorem Demanded.work_below (h : Demanded cfg chain k nBits t) (hchain : DemandedChain cfg chain) (hk : k = false) :
    ∀ p ∈ chain, p.isProofOfStake = false := by
  subst hk
  intro p hp
  cases chain with
  | nil => exact nomatch hp
  | cons a rest =>
    have hle : p.nHeight ≤ a.nHeight := by
      rcases List.mem_cons.mp hp with rfl | hp'
      · exact le_rfl
      · exact (hchain.height_lt p hp').le
    by_contra hstake
    have hheight := (hchain.kind_iff p hp).mp (by simpa using hstake)
    exact nomatch h.kind.mpr ⟨a, rfl, by omega⟩

/-- The blocks between two of a kind are of that kind. -/
theorem DemandedChain.kind_between (h : DemandedChain cfg (above ++ p :: rest)) (hp : p.isProofOfStake = k)
    (hd : Demanded cfg (above ++ p :: rest) k nBits t) : ∀ q ∈ above, q.isProofOfStake = k := by
  intro q hq
  cases k with
  | false => exact hd.work_below h rfl q (List.mem_append_left _ hq)
  | true =>
    obtain ⟨as, bs, rfl⟩ := List.append_of_mem hq
    rw [List.append_assoc] at h
    have hlt := h.drop.height_lt p (List.mem_append_right _ List.mem_cons_self)
    have hheight := (h.drop.kind_iff p (List.mem_append_right (q :: bs) List.mem_cons_self)).mp hp
    exact (h.drop.kind_iff q List.mem_cons_self).mpr (by omega)

/-! ## The next target -/

/-- How the target of a block is found: it is the limit, or the initial one, or it is computed from the two blocks
before. -/
theorem Demanded.cases (h : Demanded cfg chain k nBits t) (hchain : DemandedChain cfg chain) :
    (chain = [] ∧ nBits = getCompact bnProofOfWorkLimit) ∨
    (nBits = getInitialTarget cfg k ∧ ∀ p ∈ chain.head?, p.pprev.isSome = true → p.isProofOfStake = k →
      p.nBits = nBits ∧ ∀ q ∈ chain.tail.head?, q.isProofOfStake = k → q.pprev = none) ∨
    ∃ p q rest, chain = p :: q :: rest ∧ p.isProofOfStake = k ∧ q.isProofOfStake = k ∧ q.pprev.isSome = true := by
  cases chain with
  | nil => exact .inl ⟨rfl, h.bits⟩
  | cons p rest =>
    have hwork : k = false → p.isProofOfStake = false := fun hk => h.work_below hchain hk p List.mem_cons_self
    obtain ⟨-, -, hp, hrest⟩ := id hchain
    rcases hchain.last_kind hwork with hkind | ⟨g, hlast, hroot⟩
    · have hlast := @getLastBlockIndex_of_kind p rest k hkind
      rw [hkind] at hp
      cases rest with
      | nil =>
        refine .inr (.inl ⟨by rw [h.bits, getNextTargetRequired, hlast]; rfl, fun q hq hsome => ?_⟩)
        cases hq
        rw [hchain.1.mpr rfl] at hsome
        exact nomatch hsome
      | cons q rest =>
        have hinitial : ∀ g, getLastBlockIndex k (q :: rest) = [g] → g.pprev = none → nBits = getInitialTarget cfg k ∧
            p.nBits = getInitialTarget cfg k := fun g hg hroot => by
          constructor
          · rw [h.bits, getNextTargetRequired, hlast]
            dsimp only
            rw [hg]
            dsimp only
            rw [hroot]
            rfl
          · rw [hp.bits, getNextTargetRequired, hg]
            rfl
        have hfirst : ∀ g, getLastBlockIndex k (q :: rest) = [g] → g.pprev = none →
            nBits = getInitialTarget cfg k ∧ ∀ r ∈ (p :: q :: rest).head?, r.pprev.isSome = true →
              r.isProofOfStake = k → r.nBits = nBits ∧ ∀ r ∈ (q :: rest).head?, r.isProofOfStake = k →
                r.pprev = none := fun g hg hroot => by
          obtain ⟨hbits, hpbits⟩ := hinitial g hg hroot
          refine ⟨hbits, fun r hr _ _ => ?_⟩
          cases hr
          refine ⟨by rw [hbits, hpbits], fun r hr hrk => ?_⟩
          cases hr
          rw [getLastBlockIndex_of_kind hrk] at hg
          cases hg
          exact hroot
        rcases hrest.last_kind (fun hk => hp.work_below hrest hk q List.mem_cons_self) with hqkind | ⟨g, hg, hroot⟩
        · cases hsome : q.pprev with
          | none =>
            obtain rfl := hrest.1.mp hsome
            exact .inr (.inl (hfirst q (getLastBlockIndex_of_kind hqkind) hsome))
          | some _ => exact .inr (.inr ⟨p, q, rest, rfl, hkind, hqkind, by rw [hsome]; rfl⟩)
        · exact .inr (.inl (hfirst g hg hroot))
    · refine .inr (.inl ⟨by rw [h.bits, getNextTargetRequired, hlast]; rfl, fun q hq hsome hkind => ?_⟩)
      cases hq
      rw [getLastBlockIndex_of_kind hkind] at hlast
      cases hlast
      rw [hroot] at hsome
      exact nomatch hsome

/-- The target that is computed from the two blocks before. -/
theorem getNextTargetRequired_retarget (hp : p.isProofOfStake = k) (hq : q.isProofOfStake = k)
    (hsome : q.pprev.isSome = true) : ∃ bnNew : Int,
      bnNew = Int.tdiv (setCompact p.nBits * (604740 + 2 * (p.getBlockTime - q.getBlockTime))) 604860 ∧
      getNextTargetRequired cfg (p :: q :: rest) k =
        getCompact (if bnNew > bnProofOfWorkLimit ∧ !isNuProtocolV05 cfg p.getBlockTime then bnProofOfWorkLimit
          else bnNew) := by
  have hspacing : (if k then stakeTargetSpacing
      else min nTargetSpacingWorkMax (stakeTargetSpacing * (1 + (p.nHeight : Int) - p.nHeight))) = 60 := by
    cases k with
    | false =>
      rw [show (1 : Int) + p.nHeight - p.nHeight = 1 by omega]
      rfl
    | true => rfl
  have hnumerator : (Int.tdiv nTargetTimespan 60 - 1) * 60 + (p.getBlockTime - q.getBlockTime) +
      (p.getBlockTime - q.getBlockTime) = 604740 + 2 * (p.getBlockTime - q.getBlockTime) := by
    rw [show Int.tdiv nTargetTimespan 60 = 10080 by decide]
    omega
  refine ⟨_, rfl, ?_⟩
  unfold getNextTargetRequired
  rw [getLastBlockIndex_of_kind hp]
  dsimp only
  rw [getLastBlockIndex_of_kind hq]
  dsimp only
  rw [if_neg (by rw [Option.isNone_iff_eq_none, ← Option.not_isSome_iff_eq_none, hsome]; exact not_not.mpr rfl),
    List.head?_cons, Option.map_some, Option.getD_some, hspacing, hnumerator]
  rfl

/-- Block times allow for a clock that is two hours off, so that the factor of a target is positive. -/
theorem Demanded.factor_pos (h : Demanded cfg (q :: rest) k nBits t) : 0 < 604740 + 2 * (t - q.getBlockTime) := by
  have hdrift := (h.time q rfl).2
  unfold nMaxClockDrift at hdrift
  omega

/-- The target of a block, before it is written down: it is capped before protocol 0.5, and above a block of the same
kind it is that block's target, or follows from it. -/
structure IsNextTarget (cfg : Settings) (chainPrev : List CBlockIndex) (k : Bool) (nBits y : Nat) : Prop where
  bits : nBits = getCompact y
  capped : ∀ p ∈ chainPrev.head?, isNuProtocolV05 cfg p.getBlockTime = false → (y : Int) ≤ bnProofOfWorkLimit
  step : ∀ p ∈ chainPrev.head?, p.pprev.isSome = true → p.isProofOfStake = k →
    (nBits = p.nBits ∧ ∀ q ∈ chainPrev.tail.head?, q.isProofOfStake = k → q.pprev = none) ∨
    ∃ q ∈ chainPrev.tail.head?, q.isProofOfStake = k ∧ q.pprev.isSome = true ∧
      (y : Int) * 604860 ≤ setCompact p.nBits * (604740 + 2 * (p.getBlockTime - q.getBlockTime))

/-- The initial target is below the limit. -/
theorem getInitialTarget_spec (cfg : Settings) (k : Bool) :
    ∃ y : Nat, getInitialTarget cfg k = getCompact y ∧ (y : Int) ≤ bnProofOfWorkLimit := by
  cases k <;> cases hnet : cfg.fTestNet
  · exact ⟨(bnInitialHashTarget cfg).toNat, by simp [getInitialTarget, bnInitialHashTarget, hnet], by
      simp only [bnInitialHashTarget, hnet]; decide⟩
  · exact ⟨(bnInitialHashTarget cfg).toNat, by simp [getInitialTarget, bnInitialHashTarget, hnet], by
      simp only [bnInitialHashTarget, hnet]; decide⟩
  · exact ⟨(bnInitialProofOfStakeHashTarget cfg).toNat, by
      simp [getInitialTarget, bnInitialProofOfStakeHashTarget, hnet], by
      simp only [bnInitialProofOfStakeHashTarget, hnet]; decide⟩
  · exact ⟨(bnInitialProofOfStakeHashTarget cfg).toNat, by
      simp [getInitialTarget, bnInitialProofOfStakeHashTarget, hnet], by
      simp only [bnInitialProofOfStakeHashTarget, hnet]; decide⟩

/-- The target that follows from a target and the time between two blocks. -/
theorem exists_retarget {tp factor : Nat} {bnNew : Int} (c : Bool) (hnew : bnNew = Int.tdiv (tp * factor) 604860) :
    ∃ y : Nat, (if bnNew > bnProofOfWorkLimit ∧ c then bnProofOfWorkLimit else bnNew) = y ∧
      (c = true → (y : Int) ≤ bnProofOfWorkLimit) ∧ (y : Int) * 604860 ≤ tp * factor := by
  have hdiv : bnNew = ((tp * factor / 604860 : Nat) : Int) := by
    rw [hnew]
    rfl
  have hle : (bnNew : Int) * 604860 ≤ tp * factor := by
    rw [hdiv]
    exact_mod_cast Nat.div_mul_le_self (tp * factor) 604860
  have hlimit : bnProofOfWorkLimit = (bnProofOfWorkLimit.toNat : Int) := by decide
  by_cases hcap : bnNew > bnProofOfWorkLimit ∧ c
  · refine ⟨bnProofOfWorkLimit.toNat, by rw [if_pos hcap, ← hlimit], fun _ => hlimit ▸ le_rfl, ?_⟩
    rw [← hlimit]
    exact (Int.mul_le_mul_of_nonneg_right hcap.1.le (by decide)).trans hle
  · rw [if_neg hcap]
    exact ⟨_, hdiv, fun hc => hdiv ▸ not_lt.mp fun hlt => hcap ⟨hlt, hc⟩, hdiv ▸ hle⟩

/-- **The target that is demanded** of a block. -/
theorem Demanded.exists_target : ∀ {chain : List CBlockIndex} {k : Bool} {nBits : Nat} {t : Int},
    Demanded cfg chain k nBits t → DemandedChain cfg chain → ∃ y, IsNextTarget cfg chain k nBits y := by
  intro chain
  induction chain with
  | nil =>
    intro k nBits t h _
    exact ⟨bnProofOfWorkLimit.toNat, h.bits, (fun _ hp => nomatch hp), (fun _ hp => nomatch hp)⟩
  | cons p rest ih =>
    intro k nBits t h hchain
    obtain ⟨x, hx⟩ := ih hchain.2.2.1 hchain.2.2.2
    obtain ⟨tp, htp, -⟩ := getCompact_spec x
    rw [← hx.bits] at htp
    rcases h.cases hchain with ⟨hnil, -⟩ | ⟨hbits, hsame⟩ | ⟨p, q, rest, hlist, hp, hq, hsome⟩
    · exact nomatch hnil
    · obtain ⟨y, hy, hle⟩ := getInitialTarget_spec cfg k
      exact ⟨y, hbits.trans hy, fun _ _ _ => hle,
        fun p hp hsome hkind => .inl ((hsame p hp hsome hkind).imp_left Eq.symm)⟩
    · cases hlist
      have hpos := Demanded.factor_pos hchain.2.2.1
      obtain ⟨bnNew, hnew, hnext⟩ := @getNextTargetRequired_retarget cfg p q rest k hp hq hsome
      rw [htp, ← Int.toNat_of_nonneg hpos.le] at hnew
      obtain ⟨y, hy, hcap, hstep⟩ := exists_retarget (!isNuProtocolV05 cfg p.getBlockTime) hnew
      refine ⟨y, ?_, fun r hr hold => ?_, fun r hr _ _ => .inr ⟨q, rfl, hq, hsome, ?_⟩⟩
      · rw [h.bits, hnext, ← hy]
      · cases hr
        exact hcap (by rw [hold]; rfl)
      · cases hr
        rwa [htp, ← Int.toNat_of_nonneg hpos.le]

/-! ## Growth -/

variable {y : Nat}

/-- The rate at which targets grow: twice the time that has passed, in a week and a minute. -/
noncomputable def growthRate : ℝ := 2 / 604860

/-- The factor of the target of the block behind a checkpoint that came 80 hours after its predecessor. -/
noncomputable def firstFactor : ℝ := 1 + 575880 / 604860

/-- A target is not negative, and at most what was written down. -/
theorem IsNextTarget.bounds (h : IsNextTarget cfg rest k nBits y) : 0 ≤ setCompact nBits ∧ setCompact nBits ≤ y := by
  obtain ⟨x, hx, hle, -⟩ := getCompact_spec y
  rw [h.bits, hx]
  omega

/-- The target of a block above a block of its kind. -/
theorem IsNextTarget.linear (h : IsNextTarget cfg (p :: rest) k nBits y) {q : CBlockIndex}
    (hle : (y : Int) * 604860 ≤ setCompact p.nBits * (604740 + 2 * (p.getBlockTime - q.getBlockTime))) :
    (setCompact nBits : ℝ) ≤
      setCompact p.nBits * (1 + (2 * ((p.getBlockTime : ℝ) - q.getBlockTime) - 120) / 604860) := by
  have hy : (setCompact nBits : ℝ) ≤ y := by exact_mod_cast h.bounds.2
  have hreal : (y : ℝ) * 604860 ≤ setCompact p.nBits * (604740 + 2 * ((p.getBlockTime : ℝ) - q.getBlockTime)) := by
    exact_mod_cast hle
  have hfactor : (1 + (2 * ((p.getBlockTime : ℝ) - q.getBlockTime) - 120) / 604860) =
      (604740 + 2 * ((p.getBlockTime : ℝ) - q.getBlockTime)) / 604860 := by ring
  rw [hfactor, ← mul_div_assoc, le_div_iff₀ (by norm_num)]
  exact (mul_le_mul_of_nonneg_right hy (by norm_num)).trans hreal

end Chain

/-! ## Rounding -/

/-- The number that `GetNextTargetRequired` writes down. -/
def nextTarget (cfg : Settings) (chainLast : List CBlockIndex) (fProofOfStake : Bool) : Int :=
  let bnInitial := if fProofOfStake then bnInitialProofOfStakeHashTarget cfg else bnInitialHashTarget cfg
  match getLastBlockIndex fProofOfStake chainLast with
  | [] => bnProofOfWorkLimit
  | pindexPrev :: chainPrev =>
    match getLastBlockIndex fProofOfStake chainPrev with
    | [] => bnInitial
    | pindexPrevPrev :: _ =>
      if pindexPrevPrev.pprev.isNone then bnInitial
      else
        let nActualSpacing := pindexPrev.getBlockTime - pindexPrevPrev.getBlockTime
        let nHeightLast : Int := (chainLast.head?.map (·.nHeight)).getD 0
        let nTargetSpacing :=
          if fProofOfStake then stakeTargetSpacing
          else min nTargetSpacingWorkMax (stakeTargetSpacing * (1 + nHeightLast - pindexPrev.nHeight))
        let nInterval := Int.tdiv nTargetTimespan nTargetSpacing
        let bnNew := Int.tdiv
          (setCompact pindexPrev.nBits * ((nInterval - 1) * nTargetSpacing + nActualSpacing + nActualSpacing))
          ((nInterval + 1) * nTargetSpacing)
        if bnNew > bnProofOfWorkLimit ∧ !isNuProtocolV05 cfg pindexPrev.getBlockTime then bnProofOfWorkLimit else bnNew

theorem getNextTargetRequired_eq (cfg : Settings) (chain : List CBlockIndex) (k : Bool) :
    getNextTargetRequired cfg chain k = getCompact (nextTarget cfg chain k) := by
  unfold getNextTargetRequired nextTarget getInitialTarget
  dsimp only
  cases getLastBlockIndex k chain with
  | nil => rfl
  | cons p chainPrev =>
    dsimp only
    cases getLastBlockIndex k chainPrev with
    | nil => rfl
    | cons q rest =>
      dsimp only
      split <;> rfl

/-- **Compact targets**: what is kept of a number, that it is kept again as it is, and what this means for the targets
that are demanded. -/
theorem compactTargets_law (cfg : Settings) :
    (∀ t : Nat, numBytes t ≤ 254 → setCompact (getCompact t) = (zeroBelow (keptBytes t) t : Nat) ∧
      setCompact (getCompact t) ≤ t) ∧
    (∀ t t' : Nat, numBytes t ≤ 254 → numBytes t' ≤ 254 → t ≤ t' →
      setCompact (getCompact t) ≤ setCompact (getCompact t')) ∧
    (∀ c t : Nat, numBytes t ≤ 254 → c = getCompact t → getCompact (setCompact c) = c) ∧
    ∀ (chain : List CBlockIndex) (k : Bool) (t : Nat), nextTarget cfg chain k = t → numBytes t ≤ 254 →
      (∀ rest, readUInt 4 (writeLE 4 (getNextTargetRequired cfg chain k) ++ rest) =
        some (getNextTargetRequired cfg chain k, rest)) ∧
      setCompact (getNextTargetRequired cfg chain k) = (zeroBelow (keptBytes t) t : Nat) ∧
      setCompact (getNextTargetRequired cfg chain k) ≤ t ∧
      getCompact (setCompact (getNextTargetRequired cfg chain k)) = getNextTargetRequired cfg chain k := by
  have hle : ∀ t : Nat, numBytes t ≤ 254 → setCompact (getCompact t) ≤ t := by
    intro t ht
    obtain ⟨r, hr, hle, -⟩ := getCompact_spec t
    omega
  refine ⟨fun t ht => ⟨(setCompact_getCompact_bytes ht).1, hle t ht⟩, fun t t' ht ht' hmono => ?_,
    fun c t ht hc => hc ▸ (setCompact_getCompact_bytes ht).2, fun chain k t hnext ht => ?_⟩
  · rw [setCompact_getCompact (lt_of_numBytes_le ht (by decide)),
      setCompact_getCompact (lt_of_numBytes_le ht' (by decide))]
    exact Int.ofNat_le.mpr (truncate_mono (by decide) (by decide) hmono)
  · have hbits : getNextTargetRequired cfg chain k = getCompact t := by rw [getNextTargetRequired_eq, hnext]
    obtain ⟨hkept, hagain⟩ := setCompact_getCompact_bytes ht
    rw [hbits]
    have hfits : getCompact t < 256 ^ 4 := by
      unfold getCompact
      exact Nat.mod_lt _ (by decide)
    exact ⟨reads_uint hfits, hkept, hle t ht, hagain⟩

theorem compactTargets_law_sample :
    setCompact (getCompact (0x1234567890 : Nat)) = (0x1234560000 : Nat) ∧
    setCompact (getCompact (0x1234567890 : Nat)) ≤ setCompact (getCompact (0xc0de567890 : Nat)) ∧
    getCompact (setCompact 0x0600c0de) = 0x0600c0de ∧
    setCompact (getNextTargetRequired {} [] true) ≤ (2 ^ 256 >>> 20 - 1 : Nat) :=
  ⟨((compactTargets_law {}).1 0x1234567890 (by decide)).1,
    (compactTargets_law {}).2.1 0x1234567890 0xc0de567890 (by decide) (by decide) (by decide),
    (compactTargets_law {}).2.2.1 0x0600c0de 0xc0de567890 (by decide) (by decide),
    ((compactTargets_law {}).2.2.2 [] true (2 ^ 256 >>> 20 - 1) (by decide) (by decide)).2.2.1⟩

end Morcochain
