import Morcochain.Targets

/-!
# Trust along a chain

The trust of a proof-of-stake block is what a target of 256 bits contains its own target, and the trust of a chain is
the sum over its blocks. A target follows from the one before by a ratio of times; since protocol 0.5 nothing stops it
at 256 bits.

* `stake_inRange_iff` : **when the targets of all proof-of-stake blocks stay in range**.
* `target_le_of_lag` : a chain that does not fall behind by 48 days keeps its targets below 256 bits.
* `trustLaw` : **how trust grows along a chain**.
* `AcceptedChain.fill` : the chains that `AcceptBlock` makes are of this kind.
-/

set_option autoImplicit false

namespace Morcochain

open Guard Filling Growth Truncation

/-! ## Targets in range -/

/-- A target that a hash can meet or miss, so that its block has trust. -/
def InRange (nBits : Nat) : Prop := 0 < setCompact nBits ∧ setCompact nBits ≤ 2 ^ 256 - 2

instance (nBits : Nat) : Decidable (InRange nBits) := inferInstanceAs (Decidable (_ ∧ _))

/-- No target of 256 bits with ones only can be written down. -/
theorem IsCompact.le_of_lt {t : Nat} (ht : IsCompact t) (hlt : t < 2 ^ 256) : t ≤ 2 ^ 256 - 2 := by
  have hmono : truncate 8 2 t ≤ truncate 8 2 (2 ^ 256 - 1) :=
    truncate_mono (by decide) (by decide) (by omega)
  rw [ht.short] at hmono
  exact hmono.trans (by decide +kernel)

/-- A target below 256 bits stays in range when it is written down, unless it is zero. -/
theorem inRange_getCompact {y : Nat} (hy : y < 2 ^ compactBits) : InRange (getCompact y) ↔ 0 < y ∧ y < 2 ^ 256 := by
  unfold InRange
  rw [setCompact_getCompact hy]
  constructor
  · rintro ⟨hpos, hle⟩
    have hle' := truncate_le 8 2 y
    refine ⟨by omega, ?_⟩
    by_contra hge
    have hpow : truncate 8 2 (2 ^ 256) ≤ truncate 8 2 y :=
      truncate_mono (by decide) (by decide) (Nat.not_lt.mp hge)
    have hkept : truncate 8 2 (2 ^ 256) = 2 ^ 256 := by decide +kernel
    omega
  · rintro ⟨hpos, hlt⟩
    obtain ⟨t, ht, hle, hcompact⟩ := getCompact_spec y
    rw [setCompact_getCompact hy] at ht
    have hkept := @truncate_pos 8 2 y (by decide) (by decide) hpos
    have hbound := hcompact.le_of_lt (hle.trans_lt hlt)
    omega

/-! ## The target of the next block -/

/-- What the target of a block above `p` is multiplied with, over 604860. -/
def retargetFactor (p q : CBlockIndex) : Int := 604740 + 2 * (p.getBlockTime - q.getBlockTime)

/-- The target of a block above `p` does not vanish, and does not take more than 256 bits where it is not capped. -/
structure KeepsRange (cfg : Settings) (p q : CBlockIndex) : Prop where
  positive : 604860 ≤ setCompact p.nBits * retargetFactor p q
  bounded : isNuProtocolV05 cfg p.getBlockTime = true → setCompact p.nBits * retargetFactor p q < 604860 * 2 ^ 256

/-- Every target that follows from a proof-of-stake block and its predecessor keeps in range. -/
def RetargetsInRange (cfg : Settings) : List CBlockIndex → Prop
  | [] => True
  | _ :: rest =>
    (∀ p ∈ rest.head?, ∀ q ∈ rest.tail.head?, q.isProofOfStake = true → KeepsRange cfg p q) ∧ RetargetsInRange cfg rest

/-- The limit of the targets is in range. -/
theorem inRange_limit : InRange (getCompact bnProofOfWorkLimit) := by decide +kernel

/-- The initial targets are in range. -/
theorem inRange_initial (cfg : Settings) (k : Bool) : InRange (getInitialTarget cfg k) := by
  unfold getInitialTarget bnInitialHashTarget bnInitialProofOfStakeHashTarget
  cases k <;> cases cfg.fTestNet <;> decide +kernel

/-- A target that follows from another one is in range when the product with its factor is. -/
theorem inRange_retarget {tp factor : Nat} {bnNew : Int} (c : Bool) (htp : tp < 2 ^ 256) (hfactor : factor < 2 ^ 34)
    (hnew : bnNew = Int.tdiv (tp * factor) 604860) :
    InRange (getCompact (if bnNew > bnProofOfWorkLimit ∧ !c then bnProofOfWorkLimit else bnNew)) ↔
      604860 ≤ tp * factor ∧ (c = true → tp * factor < 604860 * 2 ^ 256) := by
  have hdiv : bnNew = ((tp * factor / 604860 : Nat) : Int) := by
    rw [hnew]
    rfl
  have hprod : tp * factor < 2 ^ 256 * 2 ^ 34 := Nat.mul_lt_mul'' htp hfactor
  have hpow : ∀ a b : Nat, a + b ≤ compactBits → 2 ^ a * 2 ^ b ≤ 2 ^ compactBits := fun a b hab => by
    rw [← Nat.pow_add]
    exact Nat.pow_le_pow_right (by decide) hab
  have hsmall : tp * factor / 604860 < 2 ^ compactBits :=
    ((Nat.div_le_self ..).trans_lt hprod).trans_le (hpow 256 34 (by decide))
  have hlimit : bnProofOfWorkLimit = ((2 ^ 236 - 1 : Nat) : Int) := by decide +kernel
  generalize tp * factor = prod at *
  split
  · rename_i hcap
    rw [hlimit, hdiv] at hcap
    refine iff_of_true inRange_limit ⟨by omega, fun hc => ?_⟩
    rw [hc] at hcap
    exact absurd hcap.2 (by decide)
  · rename_i hcap
    rw [hlimit, hdiv] at hcap
    rw [hdiv, inRange_getCompact hsmall]
    cases c with
    | false =>
      rw [Bool.not_false] at hcap
      have hle : ¬ ((prod / 604860 : Nat) : Int) > ((2 ^ 236 - 1 : Nat) : Int) := fun h => hcap ⟨h, rfl⟩
      refine ⟨fun h => ⟨by omega, fun hc => nomatch hc⟩, fun h => ?_⟩
      omega
    | true =>
      refine ⟨fun h => ⟨by omega, fun _ => by omega⟩, fun ⟨hpos, hlt⟩ => ?_⟩
      have hlt := hlt rfl
      omega

section Chain

variable {cfg : Settings} {p q r : CBlockIndex} {chain rest above : List CBlockIndex} {k : Bool} {nBits : Nat} {t : Int}

/-- A proof-of-stake block is not the genesis block. -/
theorem DemandedChain.pprev_of_stake (h : DemandedChain cfg (p :: rest)) (hp : p.isProofOfStake = true) :
    p.pprev.isSome = true := by
  cases hprev : p.pprev with
  | some _ => rfl
  | none =>
    have hheight := (h.kind_iff p List.mem_cons_self).mp hp
    have hnil := h.1.mp hprev
    have hzero := h.2.1
    rw [hnil, List.head?_nil, Option.map_none, Option.getD_none] at hzero
    unfold proofOfWorkBlocks at hheight
    omega

/-- Above a proof-of-stake block stands a proof-of-stake block. -/
theorem DemandedChain.stake_above (h : DemandedChain cfg (p :: rest)) (hq : q ∈ rest) (hqs : q.isProofOfStake = true) :
    p.isProofOfStake = true := by
  have hheight := (h.kind_iff q (List.mem_cons_of_mem p hq)).mp hqs
  have hlt := h.height_lt q hq
  exact (h.kind_iff p List.mem_cons_self).mpr (by omega)

/-- The factor of a target is positive and not too large. -/
theorem exists_factor (h : Demanded cfg (q :: rest) k nBits p.getBlockTime) (hp : p.nTime < 2 ^ 32) :
    ∃ factor : Nat, retargetFactor p q = factor ∧ factor < 2 ^ 34 := by
  have hpos := h.factor_pos
  obtain ⟨factor, hfactor⟩ := Int.eq_ofNat_of_zero_le hpos.le
  refine ⟨factor, hfactor, ?_⟩
  unfold CBlockIndex.getBlockTime at hfactor
  omega

/-- **When the target of a proof-of-stake block is in range**, above targets in range. -/
theorem Demanded.inRange_iff (hd : Demanded cfg (p :: rest) true nBits t) (hchain : DemandedChain cfg (p :: rest))
    (hrange : p.isProofOfStake = true → InRange p.nBits) (htime : p.nTime < 2 ^ 32) :
    InRange nBits ↔ ∀ q ∈ rest.head?, q.isProofOfStake = true → KeepsRange cfg p q := by
  rcases hd.cases hchain with ⟨hnil, -⟩ | ⟨hbits, hsame⟩ | ⟨p, q, rest, hlist, hp, hq, hsome⟩
  · exact nomatch hnil
  · refine iff_of_true (hbits ▸ inRange_initial cfg true) fun q hqhead hq => ?_
    cases rest with
    | nil => exact nomatch hqhead
    | cons r rest =>
      cases hqhead
      have hp := hchain.stake_above List.mem_cons_self hq
      have hroot := (hsame p rfl hchain.pprev_isSome hp).2 q rfl hq
      have hsome := hchain.2.2.2.pprev_of_stake hq
      rw [hroot] at hsome
      exact nomatch hsome
  · cases hlist
    obtain ⟨bnNew, hnew, hnext⟩ := @getNextTargetRequired_retarget cfg p q rest true hp hq hsome
    obtain ⟨tp, htp⟩ := Int.eq_ofNat_of_zero_le (hrange hp).1.le
    obtain ⟨factor, hfactor, hlt⟩ := exists_factor hchain.2.2.1 htime
    have hbound := (hrange hp).2
    rw [htp] at hbound
    have hnew' : bnNew = Int.tdiv (tp * factor) 604860 := by rw [hnew, htp, ← hfactor]; rfl
    rw [hd.bits, hnext, inRange_retarget (isNuProtocolV05 cfg p.getBlockTime) (by omega) hlt hnew']
    have hiff : KeepsRange cfg p q ↔
        604860 ≤ tp * factor ∧ (isNuProtocolV05 cfg p.getBlockTime = true → tp * factor < 604860 * 2 ^ 256) := by
      constructor
      · rintro ⟨hpos, hlt⟩
        rw [htp, hfactor] at hpos hlt
        exact ⟨by exact_mod_cast hpos, fun hv => by exact_mod_cast hlt hv⟩
      · rintro ⟨hpos, hlt⟩
        refine ⟨?_, fun hv => ?_⟩
        · rw [htp, hfactor]
          exact_mod_cast hpos
        · rw [htp, hfactor]
          exact_mod_cast hlt hv
    rw [← hiff]
    exact ⟨fun h _ hq' _ => by cases hq'; exact h, fun h => h q rfl hq⟩

/-- **When the targets of all proof-of-stake blocks stay in range.** The induction is over the chain: a target in range
has a factor that keeps it in range. -/
theorem stake_inRange_iff : ∀ {chain : List CBlockIndex}, DemandedChain cfg chain → (∀ p ∈ chain, p.nTime < 2 ^ 32) →
    ((∀ p ∈ chain, p.isProofOfStake = true → InRange p.nBits) ↔ RetargetsInRange cfg chain)
  | [], _, _ => iff_of_true (List.forall_mem_nil _) trivial
  | p :: rest, h, htimes => by
    have ih := stake_inRange_iff h.2.2.2 fun p hp => htimes p (List.mem_cons_of_mem _ hp)
    rw [List.forall_mem_cons, ih, RetargetsInRange]
    refine and_congr_left fun hbelow => ?_
    have hrange := ih.mpr hbelow
    have hd := h.2.2.1
    by_cases hp : p.isProofOfStake = true
    · cases rest with
      | nil =>
        have hsome := h.pprev_of_stake hp
        rw [h.1.mpr rfl] at hsome
        exact nomatch hsome
      | cons q rest =>
        rw [hp] at hd
        have hiff := hd.inRange_iff h.2.2.2 (hrange q List.mem_cons_self) (htimes q (by simp))
        exact ⟨fun h q' hq' => by cases hq'; exact hiff.mp (h hp), fun h _ => hiff.mpr (h q rfl)⟩
    · refine iff_of_true (fun h => absurd h hp) fun q hq r hr hstake => absurd (h.stake_above ?_ hstake) hp
      exact List.mem_of_mem_tail (List.mem_of_mem_head? hr)

/-! ## Falling behind -/

/-- How far a block is behind one block a minute. -/
def CBlockIndex.lag (p : CBlockIndex) : Int := p.getBlockTime - stakeTargetSpacing * p.nHeight

/-- The growth of a target over a block, in terms of the lag. -/
theorem IsNextTarget.grows {y : Nat} (h : IsNextTarget cfg (p :: rest) k nBits y) (hpos : 0 ≤ setCompact p.nBits)
    (hheight : (p.nHeight : Int) = q.nHeight + 1)
    (hle : (y : Int) * 604860 ≤ setCompact p.nBits * (604740 + 2 * (p.getBlockTime - q.getBlockTime))) :
    Grows growthRate (q.lag, setCompact p.nBits) (p.lag, setCompact nBits) := by
  have hreal : (0 : ℝ) ≤ setCompact p.nBits := by exact_mod_cast hpos
  refine Grows.of_linear hreal ((h.linear hle).trans_eq ?_)
  have hlag : ((p.lag : ℝ) - q.lag) = (p.getBlockTime : ℝ) - q.getBlockTime - 60 := by
    have hint : p.lag - q.lag = p.getBlockTime - q.getBlockTime - 60 := by
      unfold CBlockIndex.lag stakeTargetSpacing
      rw [hheight]
      ring
    exact_mod_cast hint
  unfold growthRate
  dsimp only
  rw [hlag]
  ring

/-- The initial target is at most the limit. -/
theorem setCompact_initial_le (cfg : Settings) (k : Bool) :
    setCompact (getInitialTarget cfg k) ≤ bnProofOfWorkLimit := by
  obtain ⟨y, hy, hle⟩ := getInitialTarget_spec cfg k
  obtain ⟨t, ht, hty, -⟩ := getCompact_spec y
  rw [hy, ht]
  omega

/-- **A target grows with the lag of the chain.** The induction is over the chain: the growth starts from the limit, at
a proof-of-stake block. -/
theorem stake_grows : ∀ {rest : List CBlockIndex} {p : CBlockIndex} {nBits : Nat} {t : Int},
    Demanded cfg (p :: rest) true nBits t → DemandedChain cfg (p :: rest) →
    setCompact nBits ≤ bnProofOfWorkLimit ∨ ∃ q ∈ p :: rest, q.isProofOfStake = true ∧
      Grows growthRate (q.lag, (bnProofOfWorkLimit : ℝ)) (p.lag, setCompact nBits) := by
  intro rest
  induction rest with
  | nil =>
    intro p nBits t hd hchain
    rcases hd.cases hchain with ⟨hnil, -⟩ | ⟨hbits, -⟩ | ⟨_, _, _, hlist, -⟩
    · exact nomatch hnil
    · exact .inl (hbits ▸ setCompact_initial_le cfg true)
    · exact nomatch hlist
  | cons r rest ih =>
    intro p nBits t hd hchain
    rcases hd.cases hchain with ⟨hnil, -⟩ | ⟨hbits, -⟩ | ⟨p, r, rest, hlist, hp, hr, hsome⟩
    · exact nomatch hnil
    · exact .inl (hbits ▸ setCompact_initial_le cfg true)
    · cases hlist
      obtain ⟨y, hy⟩ := hd.exists_target hchain
      obtain ⟨x, hx⟩ := hchain.2.2.1.exists_target hchain.2.2.2
      have hheight : (p.nHeight : Int) = r.nHeight + 1 := hchain.2.1
      have hstep : Grows growthRate (r.lag, setCompact p.nBits) (p.lag, setCompact nBits) := by
        rcases hy.step p rfl hchain.pprev_isSome hp with ⟨-, hroot⟩ | ⟨q', hq', -, -, hle⟩
        · rw [hroot r rfl hr] at hsome
          exact nomatch hsome
        · cases hq'
          exact hy.grows hx.bounds.1 hheight hle
      have hpd := hchain.2.2.1
      rw [hp] at hpd
      rcases ih hpd hchain.2.2.2 with hle | ⟨q, hq, hqs, hgrows⟩
      · refine .inr ⟨r, List.mem_cons_of_mem p List.mem_cons_self, hr, hstep.mono ?_⟩
        exact_mod_cast hle
      · exact .inr ⟨q, List.mem_cons_of_mem p hq, hqs, hgrows.trans hstep⟩

/-- In 48 days targets grow less than by the 20 bits between their limit and 256 bits. -/
theorem exp_growth_le : Real.exp (growthRate * (48 * 24 * 60 * 60)) ≤ 2 ^ 20 := by
  have hrate : growthRate * (48 * 24 * 60 * 60) ≤ 69 / 5 := by
    unfold growthRate
    norm_num
  have hpow : Real.exp (69 / 5) ^ 5 ≤ ((2 : ℝ) ^ 20) ^ 5 := by
    rw [← Real.exp_nat_mul, show ((5 : ℕ) : ℝ) * (69 / 5) = (69 : ℕ) * 1 by norm_num, Real.exp_nat_mul]
    calc Real.exp 1 ^ 69 ≤ (2.7182818286 : ℝ) ^ 69 := pow_le_pow_left₀ (Real.exp_pos 1).le Real.exp_one_lt_d9.le 69
      _ ≤ ((2 : ℝ) ^ 20) ^ 5 := by norm_num
  exact (Real.exp_le_exp.mpr hrate).trans (le_of_pow_le_pow_left₀ (by decide) (by positivity) hpow)

/-- **A chain that does not fall behind by 48 days** keeps its targets below 256 bits. -/
theorem target_le_of_lag (hd : Demanded cfg (p :: rest) true nBits t) (hchain : DemandedChain cfg (p :: rest))
    (hlag : ∀ q ∈ p :: rest, q.isProofOfStake = true → p.lag - q.lag ≤ 48 * 24 * 60 * 60) :
    setCompact nBits ≤ 2 ^ 256 - 2 := by
  have hlimit : bnProofOfWorkLimit = 2 ^ 236 - 1 := by decide +kernel
  rcases stake_grows hd hchain with hle | ⟨q, hq, hqs, hgrows⟩
  · rw [hlimit] at hle
    omega
  · have hdiff : ((p.lag : ℝ) - q.lag) ≤ 48 * 24 * 60 * 60 := by exact_mod_cast hlag q hq hqs
    have hrate : (0 : ℝ) ≤ growthRate := by
      unfold growthRate
      norm_num
    have hreal : (setCompact nBits : ℝ) ≤ bnProofOfWorkLimit * 2 ^ 20 := by
      calc (setCompact nBits : ℝ) ≤ bnProofOfWorkLimit * Real.exp (growthRate * (p.lag - q.lag)) := hgrows
        _ ≤ bnProofOfWorkLimit * 2 ^ 20 := by
          refine mul_le_mul_of_nonneg_left ?_ ?_
          · exact (Real.exp_le_exp.mpr (mul_le_mul_of_nonneg_left hdiff hrate)).trans exp_growth_le
          · rw [hlimit]
            norm_num
    have hint : setCompact nBits ≤ bnProofOfWorkLimit * 2 ^ 20 := by exact_mod_cast hreal
    rw [hlimit] at hint
    omega

/-! ## Trust -/

/-- The trust of a chain is the sum of the trust of its blocks, in 256 bits. -/
def AddsTrust : List CBlockIndex → Prop
  | [] => True
  | p :: rest =>
    p.nChainTrust = ((rest.head?.map (·.nChainTrust)).getD 0 + p.getBlockTrust.toNat) % 2 ^ 256 ∧ AddsTrust rest

/-- A chain of accepted blocks. -/
structure AcceptedChain (cfg : Settings) (chain : List CBlockIndex) : Prop where
  demanded : DemandedChain cfg chain
  /-- The time of a block is an `unsigned int`. -/
  times : ∀ p ∈ chain, p.nTime < 2 ^ 32
  trust : AddsTrust chain

theorem AddsTrust.drop : ∀ {above : List CBlockIndex}, AddsTrust (above ++ chain) → AddsTrust chain
  | [], h => h
  | _ :: _, h => AddsTrust.drop h.2

/-- A part of a chain of accepted blocks. -/
theorem AcceptedChain.suffix (h : AcceptedChain cfg chain) (hrest : rest <:+ chain) : AcceptedChain cfg rest := by
  obtain ⟨above, rfl⟩ := hrest
  exact ⟨h.demanded.drop, fun p hp => h.times p (List.mem_append_right above hp), h.trust.drop⟩

/-- The target of a block of the chain is not negative, and was written down. -/
theorem DemandedChain.exists_compact (h : DemandedChain cfg (p :: rest)) :
    ∃ t : Nat, setCompact p.nBits = t ∧ IsCompact t := by
  obtain ⟨y, hy⟩ := h.2.2.1.exists_target h.2.2.2
  obtain ⟨t, ht, -, hcompact⟩ := getCompact_spec y
  exact ⟨t, hy.bits ▸ ht, hcompact⟩

/-- The trust of a block, with a target that was written down. -/
theorem getBlockTrust_of_compact {target : Nat} (ht : setCompact p.nBits = target) :
    p.getBlockTrust =
      ((if target = 0 then 0 else if p.isProofOfStake then 2 ^ 256 / (target + 1) else 1 : Nat) : Int) := by
  unfold CBlockIndex.getBlockTrust
  rw [ht]
  by_cases hzero : target = 0
  · rw [if_pos (by omega), if_pos hzero]
    rfl
  · rw [if_neg (by omega), if_neg hzero]
    split
    · rfl
    · rfl

/-- **When a block has trust.** -/
theorem one_le_getBlockTrust_iff (h : DemandedChain cfg (p :: rest)) : 1 ≤ p.getBlockTrust ↔
    0 < setCompact p.nBits ∧ (p.isProofOfStake = true → setCompact p.nBits ≤ 2 ^ 256 - 2) := by
  obtain ⟨target, ht, hcompact⟩ := h.exists_compact
  rw [getBlockTrust_of_compact ht, ht]
  by_cases hzero : target = 0
  · rw [if_pos hzero]
    omega
  · rw [if_neg hzero]
    by_cases hstake : p.isProofOfStake = true
    · rw [if_pos hstake]
      have hdiv : 1 ≤ 2 ^ 256 / (target + 1) ↔ target + 1 ≤ 2 ^ 256 := by
        rw [Nat.le_div_iff_mul_le (Nat.succ_pos target), Nat.one_mul]
      constructor
      · intro hone
        have hlt := hdiv.mp (by exact_mod_cast hone)
        have hle := hcompact.le_of_lt (by omega)
        exact ⟨by omega, fun _ => by omega⟩
      · rintro ⟨-, hle⟩
        have hle := hle hstake
        exact_mod_cast hdiv.mpr (by omega)
    · rw [if_neg hstake]
      exact iff_of_true le_rfl ⟨by omega, fun h => absurd h hstake⟩

/-- The trust of a block takes less than 256 bits. -/
theorem getBlockTrust_lt (h : DemandedChain cfg (p :: rest)) : p.getBlockTrust.toNat < 2 ^ 256 := by
  obtain ⟨target, ht, -⟩ := h.exists_compact
  rw [getBlockTrust_of_compact ht, Int.toNat_natCast]
  by_cases hzero : target = 0
  · rw [if_pos hzero]
    exact Nat.two_pow_pos 256
  · rw [if_neg hzero]
    split
    · exact Nat.div_lt_self (Nat.two_pow_pos 256) (by omega)
    · exact Nat.one_lt_two_pow (by decide)

/-- A sum in 256 bits is greater than its first part when it does not overflow. -/
theorem lt_add_mod_iff {x y : Nat} (hx : x < 2 ^ 256) (hy : y < 2 ^ 256) :
    x < (x + y) % 2 ^ 256 ↔ 1 ≤ y ∧ x + y < 2 ^ 256 := by
  by_cases hsum : x + y < 2 ^ 256
  · rw [Nat.mod_eq_of_lt hsum]
    omega
  · rw [Nat.mod_eq_sub_mod (by omega), Nat.mod_eq_of_lt (by omega)]
    omega

/-- **How the trust of a chain grows** with a block. -/
theorem AcceptedChain.chainTrust_lt_iff (h : AcceptedChain cfg (p :: q :: rest)) :
    q.nChainTrust < p.nChainTrust ↔
      1 ≤ p.getBlockTrust ∧ q.nChainTrust + p.getBlockTrust.toNat < 2 ^ 256 := by
  have hp : p.nChainTrust = (q.nChainTrust + p.getBlockTrust.toNat) % 2 ^ 256 := h.trust.1
  have hq : q.nChainTrust < 2 ^ 256 := by
    rw [h.trust.2.1]
    exact Nat.mod_lt _ (Nat.two_pow_pos 256)
  rw [hp, lt_add_mod_iff hq (getBlockTrust_lt h.demanded)]
  refine and_congr_left fun _ => ?_
  omega

end Chain

/-- **How trust grows along a chain.** -/
structure TrustLaw (cfg : Settings) (chain : List CBlockIndex) : Prop where
  /-- No target is negative. -/
  nonneg : ∀ p ∈ chain, 0 ≤ setCompact p.nBits
  /-- The targets of all proof-of-stake blocks are in range when each keeps the next one in range. -/
  stake : (∀ p ∈ chain, p.isProofOfStake = true → InRange p.nBits) ↔ RetargetsInRange cfg chain
  /-- Before protocol 0.5 no target takes more than 256 bits. -/
  capped : ∀ p q rest, p :: q :: rest <:+ chain → isNuProtocolV05 cfg q.getBlockTime = false →
    setCompact p.nBits ≤ 2 ^ 256 - 2
  /-- Nor does one while the chain has not fallen behind by 48 days. -/
  lag : ∀ p q rest, p :: q :: rest <:+ chain → p.isProofOfStake = true →
    (∀ r ∈ q :: rest, r.isProofOfStake = true → q.lag - r.lag ≤ 48 * 24 * 60 * 60) → setCompact p.nBits ≤ 2 ^ 256 - 2
  /-- A proof-of-stake block has trust when its target is in range, and a proof-of-work block when its target is
  positive. -/
  trust : ∀ p ∈ chain, 1 ≤ p.getBlockTrust ↔
    0 < setCompact p.nBits ∧ (p.isProofOfStake = true → setCompact p.nBits ≤ 2 ^ 256 - 2)
  /-- The trust of the chain is greater than before when the block has trust and the sum does not overflow. -/
  increases : ∀ p q rest, p :: q :: rest <:+ chain → (q.nChainTrust < p.nChainTrust ↔
    1 ≤ p.getBlockTrust ∧ q.nChainTrust + p.getBlockTrust.toNat < 2 ^ 256)

/-- **How trust grows along a chain** of accepted blocks. -/
theorem trustLaw {cfg : Settings} {chain : List CBlockIndex} (h : AcceptedChain cfg chain) : TrustLaw cfg chain := by
  have hmem : ∀ p ∈ chain, ∃ rest, DemandedChain cfg (p :: rest) := fun p hp => by
    obtain ⟨above, rest, rfl⟩ := List.append_of_mem hp
    exact ⟨rest, h.demanded.drop⟩
  refine ⟨fun p hp => ?_, stake_inRange_iff h.demanded h.times, fun p q rest hsuffix hold => ?_,
    fun p q rest hsuffix hp hlag => ?_, fun p hp => ?_, fun p q rest hsuffix => (h.suffix hsuffix).chainTrust_lt_iff⟩
  · obtain ⟨rest, hrest⟩ := hmem p hp
    obtain ⟨target, ht, -⟩ := hrest.exists_compact
    rw [ht]
    exact Int.natCast_nonneg target
  · have hchain := (h.suffix hsuffix).demanded
    obtain ⟨y, hy⟩ := hchain.2.2.1.exists_target hchain.2.2.2
    have hlimit : bnProofOfWorkLimit = 2 ^ 236 - 1 := by decide +kernel
    have hle := hy.bounds.2.trans (hy.capped q rfl hold)
    rw [hlimit] at hle
    omega
  · have hchain := (h.suffix hsuffix).demanded
    have hd := hchain.2.2.1
    rw [hp] at hd
    exact target_le_of_lag hd hchain.2.2.2 hlag
  · obtain ⟨rest, hrest⟩ := hmem p hp
    exact one_le_getBlockTrust_iff hrest

/-! ## Accepted blocks -/

/-- **`AcceptBlock` goes on with a chain of accepted blocks**: what it checks is demanded, and the entry that it fills
in adds up the trust. -/
theorem AcceptedChain.fill {env : NodeContext} {s : NodeState} {block : CBlock} {pindexPrev pindex : CBlockIndex}
    {r : Except Failure Unit} (hfind : s.mapBlockIndex.find block.hashPrevBlock = some pindexPrev)
    (hcheck : s.checkAccept env block pindexPrev = .ok ()) (htime : block.nTime < 2 ^ 32)
    (hfill : run (s.fillIndex env block) (s.startIndex env block) = (r, pindex))
    (h : AcceptedChain env.cfg (s.mapBlockIndex.chain block.hashPrevBlock)) :
    AcceptedChain env.cfg (pindex :: s.mapBlockIndex.chain block.hashPrevBlock) := by
  have hplace := NodeState.startIndex_place hfill
  have hd := NodeState.checkAccept_demanded hfind hcheck
  have hhead : (s.mapBlockIndex.chain block.hashPrevBlock).head? = some pindexPrev := by
    rw [BlockMap.chain_of_find hfind]
    rfl
  have hne : s.mapBlockIndex.chain block.hashPrevBlock ≠ [] := fun hnil => by
    rw [hnil] at hhead
    exact nomatch hhead
  have hstart : s.startIndex env block = { newIndex env.cfg s.mapBlockIndex block with
      phashBlock := block.getHash env.cr, pprev := some block.hashPrevBlock, nHeight := pindexPrev.nHeight + 1 } := by
    unfold NodeState.startIndex BlockMap.linked
    rw [hfind]
  have hkeeps : ∀ {α : Type} (f : CBlockIndex → α), (∀ p : CBlockIndex, f p.place = f p) →
      f pindex = f (s.startIndex env block) := fun f hf => by rw [← hf pindex, hplace, hf]
  have hprev := hkeeps (·.pprev) fun _ => rfl
  have hheight := hkeeps (·.nHeight) fun _ => rfl
  have hkind := hkeeps (·.isProofOfStake) fun _ => rfl
  have hbits := hkeeps (·.nBits) fun _ => rfl
  have hnTime := hkeeps (·.nTime) fun _ => rfl
  have htrust := hkeeps (·.nChainTrust) fun _ => rfl
  have hown := hkeeps (·.getBlockTrust) fun _ => rfl
  rw [hstart] at hprev hheight hkind hbits hnTime htrust hown
  refine ⟨⟨?_, ?_, ?_, h.demanded⟩, List.forall_mem_cons.mpr ⟨by rw [hnTime]; exact htime, h.times⟩, ?_, h.trust⟩
  · exact iff_of_false (fun hnone => by rw [hprev] at hnone; exact nomatch hnone) hne
  · rw [hheight, hhead]
    rfl
  · have htime' : pindex.getBlockTime = block.getBlockTime := congrArg Nat.cast hnTime
    rw [hkind, hbits, htime']
    exact hd
  · rw [htrust, hown, hhead]
    unfold newIndex
    rw [hfind]
    rfl

/-! ## The chains of given times -/

/-- The entry of a block with a time, with the kind and target that are demanded. -/
def timedNext (cfg : Settings) (chainPrev : List CBlockIndex) (nTime : Nat) : CBlockIndex :=
  let fProofOfStake := decide (proofOfWorkBlocks < chainPrev.length)
  let pindex : CBlockIndex :=
    { phashBlock := chainPrev.length + 1, pprev := chainPrev.head?.map (·.phashBlock), nHeight := chainPrev.length
      fProofOfStake := fProofOfStake, nTime := nTime, nBits := getNextTargetRequired cfg chainPrev fProofOfStake }
  { pindex with
    nChainTrust := ((chainPrev.head?.map (·.nChainTrust)).getD 0 + pindex.getBlockTrust.toNat) % 2 ^ 256 }

/-- The chain of blocks with given times, the last one first. -/
def chainOfTimes (cfg : Settings) : List Nat → List CBlockIndex
  | [] => []
  | nTime :: times => timedNext cfg (chainOfTimes cfg times) nTime :: chainOfTimes cfg times

/-- The median of times that have passed has passed. -/
theorem getMedianTimePast_lt {chain : List CBlockIndex} {t : Int} (hne : chain ≠ [])
    (h : ∀ p ∈ chain, p.getBlockTime < t) : getMedianTimePast chain < t := by
  unfold getMedianTimePast
  have hperm := List.perm_insertionSort (α := Int) (· ≤ ·) ((chain.take nMedianTimeSpan).map (·.getBlockTime))
  generalize ((chain.take nMedianTimeSpan).map (·.getBlockTime)).insertionSort (· ≤ ·) = times at hperm
  have hpos : 0 < times.length := by
    rw [hperm.length_eq, List.length_map, List.length_take]
    exact Nat.lt_min.mpr ⟨by decide, List.length_pos_iff.mpr hne⟩
  have hlt : times.length / 2 < times.length := Nat.div_lt_self hpos (by decide)
  dsimp only
  rw [List.getD_eq_getElem times 0 hlt]
  obtain ⟨p, hp, htime⟩ := List.mem_map.mp (hperm.subset (List.getElem_mem hlt))
  rw [← htime]
  exact h p (List.mem_of_mem_take hp)

section Times

variable {cfg : Settings}

theorem length_chainOfTimes (cfg : Settings) : ∀ times : List Nat, (chainOfTimes cfg times).length = times.length
  | [] => rfl
  | _ :: times => congrArg (· + 1) (length_chainOfTimes cfg times)

theorem times_chainOfTimes (cfg : Settings) : ∀ times : List Nat, (chainOfTimes cfg times).map (·.nTime) = times
  | [] => rfl
  | nTime :: times => congrArg (nTime :: ·) (times_chainOfTimes cfg times)

/-- The height of the last block. -/
theorem nHeight_chainOfTimes {times : List Nat} :
    ∀ p ∈ (chainOfTimes cfg times).head?, p.nHeight + 1 = times.length := by
  intro p hp
  cases times with
  | nil => exact nomatch hp
  | cons nTime times =>
    cases hp
    exact congrArg (· + 1) (length_chainOfTimes cfg times)

/-- **Increasing times** make a chain of blocks that can be accepted. -/
theorem acceptedChain_ofTimes : ∀ {times : List Nat}, times.Pairwise (· > ·) → (∀ t ∈ times, t < 2 ^ 32) →
    AcceptedChain cfg (chainOfTimes cfg times)
  | [], _, _ => ⟨trivial, List.forall_mem_nil _, trivial⟩
  | nTime :: times, hsorted, hlt => by
    obtain ⟨hlast, hsorted⟩ := List.pairwise_cons.mp hsorted
    obtain ⟨hnow, hlt⟩ := List.forall_mem_cons.mp hlt
    have ih := @acceptedChain_ofTimes times hsorted hlt
    have hpast : ∀ p ∈ chainOfTimes cfg times, p.getBlockTime < nTime := fun p hp => by
      have htime := hlast p.nTime (times_chainOfTimes cfg times ▸ List.mem_map_of_mem hp)
      unfold CBlockIndex.getBlockTime
      omega
    have hheight := @nHeight_chainOfTimes cfg times
    have hlength := length_chainOfTimes cfg times
    unfold chainOfTimes
    generalize chainOfTimes cfg times = chainPrev at *
    refine ⟨⟨?_, ?_, ⟨?_, rfl, ?_⟩, ih.demanded⟩, List.forall_mem_cons.mpr ⟨hnow, ih.times⟩, ⟨rfl, ih.trust⟩⟩
    · cases chainPrev with
      | nil => exact iff_of_true rfl rfl
      | cons p rest => exact iff_of_false (fun h => nomatch h) (fun h => nomatch h)
    · cases chainPrev with
      | nil => rfl
      | cons p rest =>
        have hp := hheight p rfl
        rw [List.head?_cons, Option.map_some, Option.getD_some]
        unfold timedNext
        dsimp only
        omega
    · cases chainPrev with
      | nil =>
        have hwork : ¬ decide (proofOfWorkBlocks < ((0 : Nat) : Int)) = true := by decide
        exact iff_of_false hwork fun ⟨_, hp, _⟩ => nomatch hp
      | cons p rest =>
        have hp := hheight p rfl
        have hkind : (timedNext cfg (p :: rest) nTime).isProofOfStake = true ↔
            proofOfWorkBlocks < ((p :: rest).length : Int) := decide_eq_true_iff
        rw [hkind, hlength]
        constructor
        · exact fun h => ⟨p, rfl, by omega⟩
        · rintro ⟨q, hq, h⟩
          cases hq
          omega
    · intro p hp
      have hmem := List.mem_of_mem_head? hp
      have hlt := hpast p hmem
      refine ⟨getMedianTimePast_lt (List.ne_nil_of_mem hmem) hpast, ?_⟩
      have htime : (timedNext cfg chainPrev nTime).getBlockTime = nTime := rfl
      unfold nMaxClockDrift
      omega

end Times

/-- Fourteen blocks a week apart, above proof-of-work blocks a minute apart. -/
def weeklyTimes : List Nat :=
  (List.range 14).reverse.map (fun n => 1420024060 + 604800 * (n + 1)) ++
    (List.range 402).reverse.map (fun n => 1420000000 + 60 * n)

theorem acceptedChain_weekly : AcceptedChain {} (chainOfTimes {} weeklyTimes) := by
  have hchain : weeklyTimes.IsChain (· > ·) := by decide +kernel
  exact acceptedChain_ofTimes hchain.pairwise (by decide +kernel)

theorem trustLaw_sample : TrustLaw {} (chainOfTimes {} weeklyTimes) := trustLaw acceptedChain_weekly

/-- **A chain that falls behind loses its trust.** The last of fourteen blocks a week apart adds nothing to the trust of
its predecessor: its target takes more than 256 bits. -/
theorem trust_stops : AcceptedChain {} (chainOfTimes {} weeklyTimes) ∧
    ((chainOfTimes {} weeklyTimes).head?.map fun p =>
      (p.isProofOfStake, decide (2 ^ 256 - 2 < setCompact p.nBits), p.getBlockTrust)) = some (true, true, 0) ∧
    ((chainOfTimes {} weeklyTimes).take 2).map (·.nChainTrust) = [2621941, 2621941] :=
  ⟨acceptedChain_weekly, by decide +kernel, by decide +kernel⟩

end Morcochain
