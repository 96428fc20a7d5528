import Morcochain.ProcessBlock
import Morcochain.Targets

/-!
# The work of blocks that arrive out of order

`ProcessBlock` (`main.cpp`) refuses a block that is not built upon the best one when its target is above what
`ComputeMinWork` derives from the last synchronized checkpoint: twice the target of the last block of the kind, doubled
for each day since, but not beyond the limit of the targets.

* `le_doubleTarget_iff` : the doublings in closed form.
* `target_grows` : above a checkpoint the targets grow more slowly than that, once the time before the checkpoint is
  accounted for.
* `checkWork_iff` : **the blocks that pass the check**. The doubling stops at the limit, but targets go beyond it since
  protocol 0.5; and the time before the checkpoint shows in the target of the block behind it.
-/

set_option autoImplicit false

namespace Morcochain

open Guard Filling Growth

/-! ## The bound -/

/-- `ComputeMinWork` doubles a target for each day that has begun. -/
def daysBegun (nTime : Int) : Nat := (nTime.toNat + (24 * 60 * 60 - 1)) / (24 * 60 * 60)

theorem le_daysBegun (nTime : Int) : nTime ≤ 86400 * daysBegun nTime := by
  unfold daysBegun
  omega

theorem daysBegun_lt (nTime : Int) (h : 0 < daysBegun nTime) : 86400 * (daysBegun nTime : Int) < nTime + 86400 := by
  unfold daysBegun at *
  omega

/-- A target is at most the doubled one when it is at most every doubling that reaches the limit, and the last one. -/
theorem le_doubleTarget_iff {t : Int} : ∀ {k : Nat} {bnResult nTime : Int}, 0 ≤ bnResult →
    (0 < k → 86400 * (k : Int) < nTime + 86400) → (t ≤ doubleTarget k bnResult nTime ↔
      (∀ j : Nat, bnProofOfWorkLimit ≤ 2 ^ j * bnResult → t ≤ 2 ^ j * bnResult) ∧ t ≤ 2 ^ k * bnResult)
  | 0, bnResult, nTime, hpos, _ => by
    rw [doubleTarget, pow_zero, one_mul]
    refine ⟨fun h => ⟨fun j _ => h.trans ?_, h⟩, fun h => h.2⟩
    exact le_mul_of_one_le_left hpos (one_le_pow₀ (by decide))
  | k + 1, bnResult, nTime, hpos, htime => by
    have hnow := htime (Nat.succ_pos k)
    by_cases hlimit : bnResult < bnProofOfWorkLimit
    · have hstep : doubleTarget (k + 1) bnResult nTime = doubleTarget k (bnResult * 2) (nTime - 24 * 60 * 60) :=
        if_pos ⟨by omega, hlimit⟩
      have hdouble : ∀ j : Nat, (2 : Int) ^ j * (bnResult * 2) = 2 ^ (j + 1) * bnResult := fun j => by ring
      rw [hstep, le_doubleTarget_iff (by omega) (fun _ => by push_cast at hnow; omega), hdouble]
      refine and_congr_left fun _ => ⟨fun h j => ?_, fun h j => hdouble j ▸ h (j + 1)⟩
      cases j with
      | zero =>
        intro hreached
        rw [pow_zero, one_mul] at hreached
        exact absurd hlimit (not_lt.mpr hreached)
      | succ j => exact hdouble j ▸ h j
    · have hstop : doubleTarget (k + 1) bnResult nTime = bnResult := if_neg fun h => hlimit h.2
      rw [hstop]
      constructor
      · intro h
        have hle : ∀ j : Nat, t ≤ 2 ^ j * bnResult :=
          fun j => h.trans (le_mul_of_one_le_left hpos (one_le_pow₀ (by decide)))
        exact ⟨fun j _ => hle j, hle (k + 1)⟩
      · intro h
        have := h.1 0
        rw [pow_zero, one_mul] at this
        exact this (not_lt.mp hlimit)

/-- The target is doubled until twice the limit at most. -/
theorem doubleTarget_bounds : ∀ {k : Nat} {bnResult nTime : Int}, 0 ≤ bnResult →
    bnResult ≤ doubleTarget k bnResult nTime ∧
      (doubleTarget k bnResult nTime = bnResult ∨ doubleTarget k bnResult nTime < 2 * bnProofOfWorkLimit)
  | 0, _, _, _ => ⟨le_rfl, .inl rfl⟩
  | k + 1, bnResult, nTime, hpos => by
    rw [doubleTarget]
    split
    · rename_i hstep
      obtain ⟨hle, hbound⟩ := @doubleTarget_bounds k (bnResult * 2) (nTime - 24 * 60 * 60) (by omega)
      refine ⟨by omega, .inr ?_⟩
      rcases hbound with heq | hlt
      · omega
      · exact hlt
    · exact ⟨le_rfl, .inl rfl⟩

/-- What a target must be for the check of the work, against the target of the last block of the kind. -/
structure InBound (nBase nBits : Nat) (nTime : Int) : Prop where
  stop : ∀ j : Nat, bnProofOfWorkLimit ≤ 2 ^ (j + 1) * setCompact nBase →
    setCompact nBits ≤ 2 ^ (j + 1) * setCompact nBase
  days : setCompact nBits ≤ 2 ^ (daysBegun nTime + 1) * setCompact nBase
  size : 2 ^ compactBits ≤ 2 * setCompact nBase → setCompact nBits = 0

/-- **The bound in closed form.** -/
theorem le_computeMinWork_iff {nBase nBits : Nat} {nTime : Int} {b t : Nat} (hb : setCompact nBase = b)
    (hbase : IsCompact b) (ht : setCompact nBits = t) (htarget : IsCompact t) :
    setCompact nBits ≤ setCompact (computeMinWork nBase nTime) ↔ InBound nBase nBits nTime := by
  have hpos : (0 : Int) ≤ b * 2 := by omega
  obtain ⟨hge, hbound⟩ := @doubleTarget_bounds (daysBegun nTime) (b * 2) nTime hpos
  have hcompute : computeMinWork nBase nTime = getCompact (doubleTarget (daysBegun nTime) (b * 2) nTime) := by
    rw [← hb]
    rfl
  have hiff := @le_doubleTarget_iff t (daysBegun nTime) (b * 2) nTime hpos (daysBegun_lt nTime)
  obtain ⟨y, hy⟩ := Int.eq_ofNat_of_zero_le (hpos.trans hge)
  rw [hcompute]
  rw [hy] at hge hbound hiff ⊢
  have hlimit : 2 * bnProofOfWorkLimit ≤ ((2 ^ compactBits : Nat) : Int) := by
    have hle : (2 ^ 237 : Nat) ≤ 2 ^ compactBits := Nat.pow_le_pow_right (by decide) (by decide)
    have hval : 2 * bnProofOfWorkLimit = ((2 ^ 237 - 2 : Nat) : Int) := by decide
    rw [hval]
    exact_mod_cast (Nat.sub_le ..).trans hle
  have hsmall := hbase.small
  have hysmall : y < 2 ^ (compactBits + 1) := by
    rw [Nat.pow_succ]
    omega
  have hsize : 2 ^ compactBits ≤ y ↔ (2 : Int) ^ compactBits ≤ 2 * setCompact nBase := by
    rw [hb]
    have hcast : ((2 ^ compactBits : Nat) : Int) = 2 ^ compactBits := by push_cast; rfl
    omega
  have hdouble : ∀ j : Nat, (2 : Int) ^ j * (b * 2) = 2 ^ (j + 1) * setCompact nBase := fun j => by
    rw [hb]
    ring
  simp only [hdouble, ← ht] at hiff
  rw [ht, le_compact_iff htarget hysmall, ← Int.ofNat_le, ← ht, hsize]
  constructor
  · rintro ⟨hle, hzero⟩
    obtain ⟨hstop, hdays⟩ := hiff.mp hle
    exact ⟨hstop, hdays, fun h => by rw [ht, hzero h]; rfl⟩
  · rintro ⟨hstop, hdays, hzero⟩
    exact ⟨hiff.mpr ⟨hstop, hdays⟩, fun h => by have := hzero h; omega⟩

/-! ## Growth above the checkpoint -/

/-- The block came more than 80 hours after the last block of a kind before it. -/
def CameLate (k : Bool) (pindex : CBlockIndex) (chainPrev : List CBlockIndex) : Prop :=
  ∃ q ∈ (getLastBlockIndex k chainPrev).head?, q.pprev.isSome = true ∧
    80 * 60 * 60 < pindex.getBlockTime - q.getBlockTime

section Growth

variable {cfg : Settings} {p pcheckpoint : CBlockIndex} {rest above below : List CBlockIndex} {k : Bool} {nBits y : Nat}
  {t : Int}

/-- The target of the block behind a checkpoint that did not come late. -/
theorem IsNextTarget.first (h : IsNextTarget cfg (pcheckpoint :: below) k nBits y)
    (hchain : DemandedChain cfg (pcheckpoint :: below)) (hkind : pcheckpoint.isProofOfStake = k)
    (hprev : pcheckpoint.pprev.isSome = true) (hlate : ¬ CameLate k pcheckpoint below) :
    (setCompact nBits : ℝ) ≤ setCompact pcheckpoint.nBits * firstFactor := by
  obtain ⟨x, hx⟩ := hchain.2.2.1.exists_target hchain.2.2.2
  have hpos : (0 : ℝ) ≤ setCompact pcheckpoint.nBits := by exact_mod_cast hx.bounds.1
  unfold firstFactor
  rcases h.step pcheckpoint rfl hprev hkind with ⟨hsame, -⟩ | ⟨q, hq, hqkind, hqprev, hle⟩
  · rw [hsame]
    exact le_mul_of_one_le_right hpos (by norm_num)
  · cases below with
    | nil => exact nomatch hq
    | cons r below =>
      cases hq
      have hspacing : pcheckpoint.getBlockTime - q.getBlockTime ≤ 80 * 60 * 60 := not_lt.mp fun hlt =>
        hlate ⟨q, by rw [getLastBlockIndex_of_kind hqkind]; rfl, hqprev, hlt⟩
      have hreal : (pcheckpoint.getBlockTime : ℝ) - q.getBlockTime ≤ 80 * 60 * 60 := by exact_mod_cast hspacing
      refine (h.linear hle).trans (mul_le_mul_of_nonneg_left ?_ hpos)
      linarith

/-- **Above a checkpoint targets grow at a bounded rate.** The induction is over the blocks between: the factor of each
is the time between the two blocks before it. -/
theorem target_grows (hkind : pcheckpoint.isProofOfStake = k) (hprev : pcheckpoint.pprev.isSome = true)
    (hlate : ¬ CameLate k pcheckpoint below) : ∀ {above : List CBlockIndex} {nBits : Nat} {t : Int},
    DemandedChain cfg (above ++ pcheckpoint :: below) → Demanded cfg (above ++ pcheckpoint :: below) k nBits t →
    ∀ top ∈ (above ++ pcheckpoint :: below).head?, Grows growthRate
      (pcheckpoint.getBlockTime, setCompact pcheckpoint.nBits * firstFactor) (top.getBlockTime, setCompact nBits) := by
  intro above
  induction above with
  | nil =>
    intro nBits t hchain hd top htop
    cases htop
    obtain ⟨y, hy⟩ := hd.exists_target hchain
    have hfirst := hy.first hchain hkind hprev hlate
    unfold Grows
    dsimp only
    rwa [sub_self, mul_zero, Real.exp_zero, mul_one]
  | cons x above ih =>
    intro nBits t hchain hd top htop
    cases htop
    obtain ⟨y, hy⟩ := hd.exists_target hchain
    have hxkind : x.isProofOfStake = k := hchain.kind_between hkind hd x List.mem_cons_self
    obtain ⟨q, hq, hqkind, hqprev, hxprev⟩ : ∃ q ∈ (above ++ pcheckpoint :: below).head?, q.isProofOfStake = k ∧
        q.pprev.isSome = true ∧ x.pprev.isSome = true := by
      cases above with
      | nil => exact ⟨pcheckpoint, rfl, hkind, hprev, hchain.pprev_isSome⟩
      | cons a above =>
        refine ⟨a, rfl, hchain.kind_between hkind hd a (List.mem_cons_of_mem x List.mem_cons_self), ?_,
          hchain.pprev_isSome⟩
        cases above with
        | nil => exact hchain.2.2.2.pprev_isSome
        | cons b above => exact hchain.2.2.2.pprev_isSome
    have hxd := hchain.2.2.1
    rw [hxkind] at hxd
    obtain ⟨x', hx'⟩ := hxd.exists_target hchain.2.2.2
    refine (ih hchain.2.2.2 hxd q hq).trans ?_
    rcases hy.step x rfl hxprev hxkind with ⟨-, hroot⟩ | ⟨q', hq', -, -, hle⟩
    · rw [hroot q hq hqkind] at hqprev
      exact nomatch hqprev
    · obtain rfl := Option.mem_unique hq hq'
      have hpos : (0 : ℝ) ≤ setCompact x.nBits := by exact_mod_cast hx'.bounds.1
      refine Grows.of_linear hpos ((hy.linear hle).trans (mul_le_mul_of_nonneg_left ?_ hpos))
      unfold growthRate
      dsimp only
      linarith

/-- **The targets stay below the doublings** of the target of a checkpoint that did not come late. -/
theorem target_le_days (hkind : pcheckpoint.isProofOfStake = k) (hprev : pcheckpoint.pprev.isSome = true)
    (hlate : ¬ CameLate k pcheckpoint below) (hchain : DemandedChain cfg (above ++ pcheckpoint :: below))
    (hd : Demanded cfg (above ++ pcheckpoint :: below) k nBits t) :
    setCompact nBits ≤ 2 ^ (daysBegun (t - pcheckpoint.getBlockTime) + 1) * setCompact pcheckpoint.nBits := by
  obtain ⟨top, htop⟩ : ∃ top, top ∈ (above ++ pcheckpoint :: below).head? := by
    cases above with
    | nil => exact ⟨_, rfl⟩
    | cons a above => exact ⟨_, rfl⟩
  have hcheckpoint : DemandedChain cfg (pcheckpoint :: below) := hchain.drop
  obtain ⟨x, hx⟩ := hcheckpoint.2.2.1.exists_target hcheckpoint.2.2.2
  have hpos : (0 : ℝ) ≤ setCompact pcheckpoint.nBits := by exact_mod_cast hx.bounds.1
  have hgrows := target_grows hkind hprev hlate hchain hd top htop
  have htime : (top.getBlockTime : ℝ) - pcheckpoint.getBlockTime ≤
      86400 * (daysBegun (t - pcheckpoint.getBlockTime) : ℕ) + 7200 := by
    have hdrift := (hd.time top htop).2
    have hdays := le_daysBegun (t - pcheckpoint.getBlockTime)
    unfold nMaxClockDrift at hdrift
    have hint : top.getBlockTime - pcheckpoint.getBlockTime ≤
        86400 * (daysBegun (t - pcheckpoint.getBlockTime) : ℕ) + 7200 := by omega
    exact_mod_cast hint
  have hle := @Grows.le_two_pow growthRate _ _ 86400 7200 (1 / (1 - growthRate * 7200)) _ hgrows
    (mul_nonneg hpos (by unfold firstFactor; norm_num)) (by unfold growthRate; norm_num)
    (exp_le_of_short (by unfold growthRate; norm_num) (by unfold growthRate; norm_num) (by unfold growthRate; norm_num))
    (exp_le_of_short (by unfold growthRate; norm_num) (by unfold growthRate; norm_num) le_rfl) htime
  have hfactor : firstFactor * (1 / (1 - growthRate * 7200)) ≤ 2 := by
    unfold firstFactor growthRate
    norm_num
  have hreal : (setCompact nBits : ℝ) ≤
      2 ^ (daysBegun (t - pcheckpoint.getBlockTime) + 1) * setCompact pcheckpoint.nBits := by
    calc (setCompact nBits : ℝ)
        ≤ setCompact pcheckpoint.nBits * firstFactor *
          (2 ^ daysBegun (t - pcheckpoint.getBlockTime) * (1 / (1 - growthRate * 7200))) := hle
      _ = setCompact pcheckpoint.nBits * 2 ^ daysBegun (t - pcheckpoint.getBlockTime) *
          (firstFactor * (1 / (1 - growthRate * 7200))) := by ring
      _ ≤ setCompact pcheckpoint.nBits * 2 ^ daysBegun (t - pcheckpoint.getBlockTime) * 2 :=
        mul_le_mul_of_nonneg_left hfactor (mul_nonneg hpos (by positivity))
      _ = 2 ^ (daysBegun (t - pcheckpoint.getBlockTime) + 1) * setCompact pcheckpoint.nBits := by ring
  exact_mod_cast hreal

/-! ## The block that the bound is derived from -/

/-- The bound is derived from the block of the checkpoint, or from the genesis block, which has the limit as its target. -/
theorem DemandedChain.base_cases (hchain : DemandedChain cfg (pcheckpoint :: below))
    (hwork : k = false → pcheckpoint.isProofOfStake = false) :
    (pcheckpoint.isProofOfStake = k ∧ pcheckpoint.pprev.isSome = true) ∨
    ((∃ g, getLastBlockIndex k (pcheckpoint :: below) = [g] ∧ g.nBits = getCompact bnProofOfWorkLimit) ∧
      ¬ CameLate k pcheckpoint below) := by
  have hroot : ∀ g, getLastBlockIndex k (pcheckpoint :: below) = [g] → g.nBits = getCompact bnProofOfWorkLimit := by
    intro g hg
    obtain ⟨as, has⟩ := getLastBlockIndex_suffix k (pcheckpoint :: below)
    rw [hg] at has
    have hlast : DemandedChain cfg [g] := (has ▸ hchain).drop
    rw [hlast.2.2.1.bits]
    rfl
  cases hprev : pcheckpoint.pprev with
  | none =>
    obtain rfl := hchain.1.mp hprev
    have hlast : getLastBlockIndex k [pcheckpoint] = [pcheckpoint] := if_neg fun h => by
      rw [hprev] at h
      exact nomatch h.1
    exact .inr ⟨⟨pcheckpoint, hlast, hroot _ hlast⟩, fun ⟨_, hq, _⟩ => nomatch hq⟩
  | some h =>
    rcases hchain.last_kind hwork with hkind | ⟨g, hg, hgroot⟩
    · exact .inl ⟨hkind, rfl⟩
    · by_cases hkind : pcheckpoint.isProofOfStake = k
      · exact .inl ⟨hkind, rfl⟩
      · refine .inr ⟨⟨g, hg, hroot g hg⟩, fun ⟨q, hq, hqprev, _⟩ => ?_⟩
        have hstep : getLastBlockIndex k (pcheckpoint :: below) = getLastBlockIndex k below :=
          if_pos ⟨by rw [hprev]; rfl, hkind⟩
        rw [← hstep, hg] at hq
        cases hq
        rw [hgroot] at hqprev
        exact nomatch hqprev

end Growth

/-! ## The check -/

/-- The compact target of the last block of a kind. -/
def lastBits (k : Bool) (chain : List CBlockIndex) : Nat := ((getLastBlockIndex k chain).head?.map (·.nBits)).getD 0

/-- The block that the bound is derived from has a target that can be written down. -/
theorem DemandedChain.exists_lastBits {cfg : Settings} {chain : List CBlockIndex}
    (hchain : DemandedChain cfg chain) (k : Bool) : ∃ b : Nat, setCompact (lastBits k chain) = b ∧ IsCompact b := by
  unfold lastBits
  obtain ⟨as, has⟩ := getLastBlockIndex_suffix k chain
  rw [← has] at hchain
  have hlast := hchain.drop
  cases hbase : getLastBlockIndex k chain with
  | nil => exact ⟨0, by decide, by decide, Nat.two_pow_pos _⟩
  | cons g rest =>
    rw [hbase] at hlast
    obtain ⟨y, hy⟩ := hlast.2.2.1.exists_target hlast.2.2.2
    obtain ⟨b, hb, -, hcompact⟩ := getCompact_spec y
    rw [← hy.bits] at hb
    exact ⟨b, hb, hcompact⟩

/-- What keeps a block above a checkpoint within the bound of its work. -/
structure StaysInBound (cfg : Settings) (chainPrev : List CBlockIndex) (pcheckpoint : CBlockIndex)
    (below : List CBlockIndex)
    (block : CBlock) : Prop where
  /-- Where targets are not capped, the target is at most every doubling that reaches the limit. -/
  uncapped : (∀ p ∈ chainPrev.head?, isNuProtocolV05 cfg p.getBlockTime = true) → ∀ j : Nat,
    bnProofOfWorkLimit ≤ 2 ^ (j + 1) * setCompact (lastBits block.isProofOfStake (pcheckpoint :: below)) →
    setCompact block.nBits ≤ 2 ^ (j + 1) * setCompact (lastBits block.isProofOfStake (pcheckpoint :: below))
  /-- The double of the checkpoint's target can be written down. -/
  size : 2 ^ compactBits ≤ 2 * setCompact (lastBits block.isProofOfStake (pcheckpoint :: below)) →
    setCompact block.nBits = 0
  /-- The block of the checkpoint came in time, or else the target has not grown too much. -/
  late : CameLate block.isProofOfStake pcheckpoint below →
    setCompact block.nBits ≤ 2 ^ (daysBegun (block.getBlockTime - pcheckpoint.getBlockTime) + 1) *
      setCompact (lastBits block.isProofOfStake (pcheckpoint :: below))

/-- **When the target of a block is within the bound.** -/
theorem Demanded.inBound_iff {cfg : Settings} {block : CBlock} {pcheckpoint : CBlockIndex}
    {above below : List CBlockIndex}
    (hblock : Demanded cfg (above ++ pcheckpoint :: below) block.isProofOfStake block.nBits block.getBlockTime)
    (hchain : DemandedChain cfg (above ++ pcheckpoint :: below)) :
    setCompact block.nBits ≤ setCompact (computeMinWork (lastBits block.isProofOfStake (pcheckpoint :: below))
      (block.getBlockTime - pcheckpoint.getBlockTime)) ↔
    StaysInBound cfg (above ++ pcheckpoint :: below) pcheckpoint below block := by
  have hcheckpoint : DemandedChain cfg (pcheckpoint :: below) := hchain.drop
  obtain ⟨y, hy⟩ := hblock.exists_target hchain
  obtain ⟨t, ht, -, htarget⟩ := getCompact_spec y
  rw [← hy.bits] at ht
  have hwork : block.isProofOfStake = false → pcheckpoint.isProofOfStake = false := fun hk =>
    hblock.work_below hchain hk pcheckpoint (List.mem_append_right _ List.mem_cons_self)
  obtain ⟨b, hb, hbase⟩ := hcheckpoint.exists_lastBits block.isProofOfStake
  rw [le_computeMinWork_iff hb hbase ht htarget]
  constructor
  · exact fun h => ⟨fun _ => h.stop, h.size, fun _ => h.days⟩
  · intro h
    have hstop : ∀ j : Nat, bnProofOfWorkLimit ≤ 2 ^ (j + 1) * setCompact (lastBits block.isProofOfStake
        (pcheckpoint :: below)) → setCompact block.nBits ≤ 2 ^ (j + 1) * setCompact (lastBits block.isProofOfStake
          (pcheckpoint :: below)) := by
      by_cases hcapped : ∀ p ∈ (above ++ pcheckpoint :: below).head?, isNuProtocolV05 cfg p.getBlockTime = true
      · exact h.uncapped hcapped
      · simp only [not_forall, Bool.not_eq_true] at hcapped
        obtain ⟨p, hp, hold⟩ := hcapped
        exact fun j hj => (hy.bounds.2.trans (hy.capped p hp hold)).trans hj
    refine ⟨hstop, ?_, h.size⟩
    rcases hcheckpoint.base_cases hwork with ⟨hkind, hprev⟩ | ⟨⟨g, hg, hgenesis⟩, -⟩
    · by_cases hlate : CameLate block.isProofOfStake pcheckpoint below
      · exact h.late hlate
      · have hdays := target_le_days hkind hprev hlate hchain hblock
        rwa [lastBits, getLastBlockIndex_of_kind hkind]
    · have hlast : lastBits block.isProofOfStake (pcheckpoint :: below) = getCompact bnProofOfWorkLimit := by
        rw [lastBits, hg, ← hgenesis]
        rfl
      have hlimit : bnProofOfWorkLimit ≤ 2 ^ (0 + 1) * setCompact (getCompact bnProofOfWorkLimit) := by decide
      have hdouble := hstop 0 (by rwa [hlast])
      refine hdouble.trans (mul_le_mul_of_nonneg_right (pow_le_pow_right₀ (by decide) (by omega)) ?_)
      rw [hb]
      exact Int.natCast_nonneg b

namespace ProcessState

/-- **The blocks that pass the check of the work**, in a chain with the targets that are demanded. -/
theorem checkWork_iff {env : NodeContext} {s : ProcessState} {e : BlockEvent} {block : CBlock}
    {pcheckpoint : CBlockIndex}
    {above below : List CBlockIndex} (hindex : s.mapBlockIndex.chain e.hashSyncCheckpoint = pcheckpoint :: below)
    (hchain : DemandedChain env.cfg (above ++ pcheckpoint :: below))
    (hblock : Demanded env.cfg (above ++ pcheckpoint :: below) block.isProofOfStake block.nBits block.getBlockTime) :
    (setCompact block.nBits ≤ setCompact (computeMinWork (lastBits block.isProofOfStake (pcheckpoint :: below))
        (block.getBlockTime - pcheckpoint.getBlockTime)) ↔
      StaysInBound env.cfg (above ++ pcheckpoint :: below) pcheckpoint below block) ∧
    ((run (checkWork env e block) s).1 = .ok () ↔ s.pindexBest.getD 0 = block.hashPrevBlock ∨
      s.wantedByPendingSyncCheckpoint e.hashPendingCheckpoint (block.getHash env.cr) = true ∨
      StaysInBound env.cfg (above ++ pcheckpoint :: below) pcheckpoint below block) := by
  have hcheckpoint : DemandedChain env.cfg (pcheckpoint :: below) := hchain.drop
  have hiff := hblock.inBound_iff hchain
  have hfind : s.mapBlockIndex.find e.hashSyncCheckpoint = some pcheckpoint := by
    cases hfind : s.mapBlockIndex.find e.hashSyncCheckpoint with
    | none =>
      rw [BlockMap.chain_of_none hfind] at hindex
      exact nomatch hindex
    | some p =>
      rw [BlockMap.chain_of_find hfind] at hindex
      cases hindex
      rfl
  refine ⟨hiff, ?_⟩
  rw [← hiff]
  unfold checkWork
  rw [run_bind, run_record]
  dsimp only
  rw [hfind]
  dsimp only
  rw [run_check, rejectIf_eq_ok, hindex]
  simp only [not_and, not_lt, ne_eq, Bool.not_eq_true', ← or_iff_not_imp_left]
  rw [← Bool.not_eq_true, ← or_iff_not_imp_left]
  exact Iff.rfl

end ProcessState

/-! ## A checkpoint that came late -/

/-- The entry of a block with a target and a time. -/
def timedEntry (nBits nTime : Nat) : CBlockIndex := { nBits := nBits, nTime := nTime }

/-- A chain whose third block came eleven days after the second, with the best block above it. -/
def lateIndex : BlockMap :=
  (((BlockMap.empty.insert 1 0 (timedEntry (getCompact bnProofOfWorkLimit) 1400000000)).insert 2 1
    (timedEntry (getInitialTarget {} false) 1400000060)).insert 3 2
      (timedEntry (getInitialTarget {} false) 1400950460)).insert 4 3 (timedEntry 503587948 1400950520)

/-- The node that knows this chain. -/
def lateNode : ProcessState where
  mapBlockIndex := lateIndex
  pindexBest := some 4
  pblocktree := OrderedStore.Store.empty
  pcoinsTip := sharesView
  blocks _ := none

/-- Another block above the third one, with the target that is demanded. -/
def siblingBlock : CBlock := { hashPrevBlock := 3, nTime := 1400950530, nBits := 503587948, nNonce := 5 }

/-- The other block arrives, while the third block is the synchronized checkpoint. -/
def siblingEvent : BlockEvent := { block := siblingBlock, hashSyncCheckpoint := 3 }

/-- The entry of the checkpoint. -/
def lateCheckpoint : CBlockIndex := (lateIndex.chain 3).headD {}

namespace ProcessState

open ChainState in
theorem checkWork_iff_sample :
    (setCompact siblingBlock.nBits ≤ setCompact (computeMinWork (lastBits siblingBlock.isProofOfStake
        (lateCheckpoint :: lateIndex.chain 2)) (siblingBlock.getBlockTime - lateCheckpoint.getBlockTime)) ↔
      StaysInBound sampleContext.cfg ([] ++ lateCheckpoint :: lateIndex.chain 2) lateCheckpoint (lateIndex.chain 2)
        siblingBlock) ∧
    ((run (checkWork sampleContext siblingEvent siblingBlock) lateNode).1 = .ok () ↔
      lateNode.pindexBest.getD 0 = siblingBlock.hashPrevBlock ∨
      lateNode.wantedByPendingSyncCheckpoint siblingEvent.hashPendingCheckpoint
        (siblingBlock.getHash sampleContext.cr) = true ∨
      StaysInBound sampleContext.cfg ([] ++ lateCheckpoint :: lateIndex.chain 2) lateCheckpoint (lateIndex.chain 2)
        siblingBlock) :=
  checkWork_iff (by decide +kernel) (by decide +kernel) (by decide +kernel)

open ChainState in
/-- **A block with the target that is demanded is refused**, and its sender banned: the checkpoint came eleven days
after its predecessor. -/
theorem checkWork_refuses_demanded :
    DemandedChain sampleContext.cfg (lateCheckpoint :: lateIndex.chain 2) ∧
    Demanded sampleContext.cfg (lateCheckpoint :: lateIndex.chain 2) siblingBlock.isProofOfStake siblingBlock.nBits
      siblingBlock.getBlockTime ∧
    lateNode.mapBlockIndex.chain siblingEvent.hashSyncCheckpoint = lateCheckpoint :: lateIndex.chain 2 ∧
    ¬ setCompact siblingBlock.nBits ≤ setCompact (computeMinWork (lastBits siblingBlock.isProofOfStake
      (lateCheckpoint :: lateIndex.chain 2)) (siblingBlock.getBlockTime - lateCheckpoint.getBlockTime)) ∧
    (run (checkWork sampleContext siblingEvent siblingBlock) lateNode).1 =
      .error (.dos 100 false "ProcessBlock() : block with too little proof-of-work or proof-of-stake") := by
  refine ⟨by decide +kernel, by decide +kernel, by decide +kernel, by decide +kernel, by decide +kernel⟩

end ProcessState

end Morcochain
