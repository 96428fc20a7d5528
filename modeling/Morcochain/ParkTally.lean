import Morcochain.ChainVotes
import Morcochain.Lib.Weights

/-!
# The park rates that the votes choose

`CalculateParkRateVote` is a weighted median over all votes: a rate is chosen for a duration when the votes for it, or
for a higher rate, weigh more than half of all votes. A vote that does not mention the duration counts as a vote for
zero.

* `Counts.run` : the tally holds, for each duration, the weight of the votes for each rate.
* `medianRate_spec` : the running subtraction stops at the greatest rate above the half.
* `calculateParkRateVote_median` : **the rates of the tally are the weighted medians**, whatever the order of the votes.
-/

set_option autoImplicit false

namespace Morcochain

open OrderedStore Guard

/-! ## What the votes choose -/

/-- The rates of a vote. -/
def CVote.parkRates (vote : CVote) : List CParkRate := vote.vParkRateVote.flatMap (·.vParkRate)

/-- The vote is for a rate of `r` or more at the duration. -/
def CVote.votesFor (vote : CVote) (nCompactDuration : Nat) (r : Int) : Bool :=
  vote.parkRates.any fun parkRate => parkRate.nCompactDuration = nCompactDuration ∧ r ≤ parkRate.nRate

/-- The weight of votes. -/
def weightOfVotes (vVote : List CVote) : Nat := (vVote.map (·.nCoinAgeDestroyed)).sum

/-- The weight of the votes for a rate of `r` or more. -/
def weightVotedFor (vVote : List CVote) (nCompactDuration : Nat) (r : Int) : Nat :=
  weightOfVotes (vVote.filter (·.votesFor nCompactDuration r))

/-- The voted rates of a duration for which, or for more, more than half of the weight of all votes is. -/
def ratesAboveHalf (vVote : List CVote) (nCompactDuration : Nat) : Set Int :=
  {r | (∃ vote ∈ vVote, ⟨nCompactDuration, r⟩ ∈ vote.parkRates) ∧
    weightOfVotes vVote / 2 < weightVotedFor vVote nCompactDuration r}

/-- Valid votes with positive weights that add up to an `int64`. -/
structure Votable (nProtocolVersion : Int) (vVote : List CVote) : Prop where
  valid : ∀ vote ∈ vVote, vote.isValid nProtocolVersion = true
  positive : ∀ vote ∈ vVote, 0 < vote.nCoinAgeDestroyed
  fits : weightOfVotes vVote < 2 ^ 63

theorem weightOfVotes_cons (vote : CVote) (vVote : List CVote) :
    weightOfVotes (vote :: vVote) = vote.nCoinAgeDestroyed + weightOfVotes vVote := List.sum_cons

theorem weightVotedFor_cons (vote : CVote) (vVote : List CVote) (d : Nat) (r : Int) :
    weightVotedFor (vote :: vVote) d r =
      (if vote.votesFor d r then vote.nCoinAgeDestroyed else 0) + weightVotedFor vVote d r := by
  unfold weightVotedFor
  by_cases h : vote.votesFor d r
  · rw [List.filter_cons, if_pos h, weightOfVotes_cons, if_pos h]
  · rw [List.filter_cons, if_neg h, if_neg h, Nat.zero_add]

theorem weightVotedFor_le (vVote : List CVote) (d : Nat) (r : Int) :
    weightVotedFor vVote d r ≤ weightOfVotes vVote := by
  induction vVote with
  | nil => exact Nat.le_refl 0
  | cons vote vVote ih =>
    rw [weightVotedFor_cons, weightOfVotes_cons]
    split <;> omega

theorem isValidCurrency_iff {cUnit : CUnit} : isValidCurrency cUnit = true ↔ cUnit = unitCurrency := by
  constructor
  · intro h
    obtain ⟨hne, hunit⟩ := by simpa [isValidCurrency] using h
    exact (isValidUnit_iff.mp hunit).resolve_left hne
  · rintro rfl
    rfl

/-- A valid vote has at most one rate for a duration, and valid rates. -/
theorem parkRates_of_valid {vote : CVote} {nProtocolVersion : Int} (h : vote.isValid nProtocolVersion = true) :
    (vote.parkRates.map (·.nCompactDuration)).Nodup ∧ ∀ r ∈ vote.parkRates, r.isValid = true := by
  unfold CVote.isValid at h
  obtain ⟨hall, hunits, -⟩ := of_decide_eq_true h
  have hvote : ∀ v ∈ vote.vParkRateVote, v.cUnit = unitCurrency ∧ (∀ r ∈ v.vParkRate, r.isValid = true) ∧
      (v.vParkRate.map (·.nCompactDuration)).Nodup := by
    intro v hv
    have hvalid := List.all_eq_true.mp hall v hv
    unfold CParkRateVote.isValid at hvalid
    obtain ⟨hunit, hrates, hnodup⟩ := of_decide_eq_true hvalid
    exact ⟨isValidCurrency_iff.mp hunit, List.all_eq_true.mp hrates, hnodup⟩
  unfold CVote.parkRates
  -- there is one currency only, so there is one park rate vote at most
  cases hl : vote.vParkRateVote with
  | nil => exact ⟨List.nodup_nil, fun _ hr => nomatch hr⟩
  | cons v rest =>
    cases rest with
    | nil =>
      obtain ⟨-, hrates, hnodup⟩ := hvote v (hl ▸ List.mem_singleton_self v)
      rw [List.flatMap_singleton]
      exact ⟨hnodup, hrates⟩
    | cons v' rest =>
      rw [hl] at hvote hunits
      have heq : v.cUnit = v'.cUnit :=
        (hvote v List.mem_cons_self).1.trans (hvote v' (List.mem_cons_of_mem _ List.mem_cons_self)).1.symm
      rw [List.map_cons, List.map_cons, heq] at hunits
      exact absurd List.mem_cons_self (List.nodup_cons.mp hunits).1

/-! ## The tally -/

/-- The rates that are counted, each with the weight of its vote. -/
def countedRates (vVote : List CVote) : List (Nat × CParkRate) :=
  vVote.flatMap fun vote => vote.parkRates.map fun parkRate => (vote.nCoinAgeDestroyed, parkRate)

/-- The weight of the counted rates of `r` or more at a duration. -/
def weightCounted (counted : List (Nat × CParkRate)) (nCompactDuration : Nat) (r : Int) : Nat :=
  ((counted.filter fun c => c.2.nCompactDuration = nCompactDuration ∧ r ≤ c.2.nRate).map (·.1)).sum

theorem weightCounted_append (counted counted' : List (Nat × CParkRate)) (d : Nat) (r : Int) :
    weightCounted (counted ++ counted') d r = weightCounted counted d r + weightCounted counted' d r := by
  unfold weightCounted
  rw [List.filter_append, List.map_append, List.sum_append]

theorem weightCounted_singleton (c : Nat × CParkRate) (d : Nat) (r : Int) :
    weightCounted [c] d r = if c.2.nCompactDuration = d ∧ r ≤ c.2.nRate then c.1 else 0 := by
  unfold weightCounted
  rw [List.filter_singleton]
  by_cases h : c.2.nCompactDuration = d ∧ r ≤ c.2.nRate <;> simp [h]

/-- The rates of a vote count once for a duration. -/
theorem weightCounted_vote (w : Nat) {rates : List CParkRate} (h : (rates.map (·.nCompactDuration)).Nodup) (d : Nat)
    (r : Int) : weightCounted (rates.map fun parkRate => (w, parkRate)) d r =
      if rates.any (fun parkRate => parkRate.nCompactDuration = d ∧ r ≤ parkRate.nRate) then w else 0 := by
  induction rates with
  | nil => rfl
  | cons p rates ih =>
    obtain ⟨hp, hrates⟩ := List.nodup_cons.mp h
    rw [List.map_cons, ← List.singleton_append, weightCounted_append, weightCounted_singleton, ih hrates,
      List.any_cons]
    by_cases hc : p.nCompactDuration = d ∧ r ≤ p.nRate
    · -- no later rate is for this duration
      have hrest : rates.any (fun parkRate => parkRate.nCompactDuration = d ∧ r ≤ parkRate.nRate) = false := by
        rw [List.any_eq_false]
        intro q hq hqd
        have hqd := (of_decide_eq_true hqd).1
        exact hp (List.mem_map.mpr ⟨q, hq, hqd.trans hc.1.symm⟩)
      rw [hrest]
      simp [hc]
    · simp [hc]

/-- The weight that is counted for a rate is that of the votes for it. -/
theorem weightCounted_countedRates {vVote : List CVote} {nProtocolVersion : Int}
    (h : ∀ vote ∈ vVote, vote.isValid nProtocolVersion = true) (d : Nat) (r : Int) :
    weightCounted (countedRates vVote) d r = weightVotedFor vVote d r := by
  induction vVote with
  | nil => rfl
  | cons vote vVote ih =>
    have hvote := (parkRates_of_valid (h vote List.mem_cons_self)).1
    unfold countedRates
    rw [List.flatMap_cons, weightCounted_append, weightCounted_vote _ hvote, weightVotedFor_cons]
    exact congrArg (_ + ·) (ih fun v hv => h v (List.mem_cons_of_mem _ hv))

/-- The weights of the rates of a duration. -/
def ratesAt (m : Store Nat RateWeightMap) (nCompactDuration : Nat) : RateWeightMap :=
  (m.find? nCompactDuration).getD Store.empty

/-- **What the tally holds** after counting rates: for each duration, the rates that were counted and the weight of
each of them and the higher ones. -/
structure Counts (counted : List (Nat × CParkRate)) (m : Store Nat RateWeightMap) : Prop where
  weight : ∀ d r, weightFrom (ratesAt m d).entries r = weightCounted counted d r
  voted : ∀ d r, r ∈ (ratesAt m d).entries.map (·.1) ↔ ∃ c ∈ counted, c.2 = ⟨d, r⟩
  nonneg : ∀ d, ∀ e ∈ (ratesAt m d).entries, 0 ≤ e.2

theorem Counts.empty : Counts [] Store.empty where
  weight _ _ := rfl
  voted _ _ := ⟨fun h => (nomatch h), fun ⟨_, hc, _⟩ => (nomatch hc)⟩
  nonneg _ _ he := nomatch he

/-- Counting one rate. -/
theorem Counts.step {counted : List (Nat × CParkRate)} {m : Store Nat RateWeightMap} (h : Counts counted m)
    {w : Nat} {parkRate : CParkRate} (hfits : ∀ d r, weightCounted (counted ++ [(w, parkRate)]) d r < 2 ^ 63) :
    Counts (counted ++ [(w, parkRate)]) (countParkRate w m parkRate) := by
  obtain ⟨d₀, r₀⟩ := parkRate
  obtain ⟨hold, hle⟩ := find?_le_weightFrom (h.nonneg d₀) r₀
  have hnew := hfits d₀ r₀
  rw [weightCounted_append, weightCounted_singleton, if_pos ⟨rfl, Int.le_refl _⟩] at hnew
  rw [h.weight] at hle
  have hsum : toInt64 (((ratesAt m d₀).find? r₀).getD 0 + w) = ((ratesAt m d₀).find? r₀).getD 0 + w :=
    toInt64_eq (by omega) (by omega)
  have hat : ∀ d, ratesAt (countParkRate w m ⟨d₀, r₀⟩) d =
      if d = d₀ then (ratesAt m d₀).insert r₀ (((ratesAt m d₀).find? r₀).getD 0 + w) else ratesAt m d := by
    intro d
    rw [← hsum]
    unfold countParkRate ratesAt
    rw [Store.find?_insert]
    split <;> rfl
  refine ⟨fun d r => ?_, fun d r => ?_, fun d e he => ?_⟩
  · rw [hat, weightCounted_append, weightCounted_singleton]
    by_cases hd : d = d₀
    · subst hd
      rw [if_pos rfl, weightFrom_insert, h.weight]
      simp only [true_and]
      split <;> simp
    · rw [if_neg hd, if_neg fun hc => hd hc.1.symm, h.weight]
      simp
  · have hiff : (∃ c ∈ counted ++ [(w, (⟨d₀, r₀⟩ : CParkRate))], c.2 = ⟨d, r⟩) ↔
        (∃ c ∈ counted, c.2 = ⟨d, r⟩) ∨ (d = d₀ ∧ r = r₀) := by
      simp only [List.mem_append, List.mem_singleton, or_and_right, exists_or, exists_eq_left, CParkRate.mk.injEq]
      exact or_congr Iff.rfl (and_congr eq_comm eq_comm)
    rw [hiff, ← h.voted, hat]
    split
    · rename_i hd
      subst hd
      rw [mem_keys_insert]
      simp only [true_and]
    · rename_i hd
      exact ⟨.inl, fun hr => hr.resolve_right fun hc => hd hc.1⟩
  · rw [hat] at he
    split at he
    · rcases Store.mem_insertEntry he with rfl | he
      · exact Int.add_nonneg hold (Int.natCast_nonneg w)
      · exact h.nonneg d₀ e he
    · exact h.nonneg d e he

/-- **Counting any number of rates**, as long as the weights stay within an `int64`. -/
theorem Counts.run {counted' : List (Nat × CParkRate)} : ∀ {counted : List (Nat × CParkRate)}
    {m : Store Nat RateWeightMap}, Counts counted m → (∀ d r, weightCounted (counted ++ counted') d r < 2 ^ 63) →
    Counts (counted ++ counted') (counted'.foldl (fun m c => countParkRate c.1 m c.2) m) := by
  induction counted' with
  | nil =>
    intro counted m h _
    rwa [List.append_nil]
  | cons c counted' ih =>
    intro counted m h hfits
    rw [List.append_cons] at hfits ⊢
    refine ih (h.step fun d r => ?_) hfits
    have hcr := hfits d r
    rw [weightCounted_append] at hcr
    exact Nat.lt_of_le_of_lt (Nat.le_add_right _ _) hcr

/-- Counting all votes. -/
theorem foldlM_countParkRates : ∀ {vVote : List CVote} {t : ParkTally},
    (∀ vote ∈ vVote, 0 < vote.nCoinAgeDestroyed) → 0 ≤ t.totalVoteWeight →
    t.totalVoteWeight + weightOfVotes vVote < 2 ^ 63 →
    vVote.foldlM countParkRates t = .ok {
      durationRateWeights :=
        (countedRates vVote).foldl (fun m c => countParkRate c.1 m c.2) t.durationRateWeights
      totalVoteWeight := t.totalVoteWeight + weightOfVotes vVote } := by
  intro vVote
  induction vVote with
  | nil =>
    intro t _ _ _
    simp [weightOfVotes, countedRates]
  | cons vote vVote ih =>
    intro t hpos hnonneg hfits
    have hvote := hpos vote List.mem_cons_self
    rw [weightOfVotes_cons] at hfits
    have hstep : countParkRates t vote = .ok {
        durationRateWeights := vote.parkRates.foldl (countParkRate vote.nCoinAgeDestroyed) t.durationRateWeights
        totalVoteWeight := t.totalVoteWeight + vote.nCoinAgeDestroyed } := by
      unfold countParkRates CVote.parkRates
      rw [errorIf, rejectIf_neg (Nat.ne_of_gt hvote), ok_bind, toInt64_eq (by omega) (by omega)]
      rfl
    rw [List.foldlM_cons, hstep, ok_bind, ih (fun v hv => hpos v (List.mem_cons_of_mem _ hv)) (by simp only; omega)
      (by simp only; omega)]
    have hcounted : countedRates (vote :: vVote) =
        vote.parkRates.map (fun parkRate => (vote.nCoinAgeDestroyed, parkRate)) ++ countedRates vVote := rfl
    rw [hcounted, List.foldl_append, List.foldl_map, weightOfVotes_cons]
    simp only [Except.ok.injEq, ParkTally.mk.injEq, true_and]
    omega

/-! ## The median -/

/-- **The running subtraction** stops at the greatest rate above the half, or before the first one. -/
theorem medianRate_spec {halfWeight : Int} (hhalf : 0 ≤ halfWeight) : ∀ {l : List (Int × Int)} {median : Int},
    l.Pairwise (fun a b => a.1 < b.1) → (∀ e ∈ l, 0 ≤ e.2) → weightOf l < 2 ^ 63 →
    (KeyAbove l halfWeight = ∅ ∧ medianRate halfWeight (weightOf l) median l = median) ∨
      IsGreatest (KeyAbove l halfWeight) (medianRate halfWeight (weightOf l) median l) := by
  intro l
  induction l with
  | nil =>
    intro median _ _ _
    exact .inl ⟨keyAbove_of_le (fun _ he => nomatch he) hhalf, rfl⟩
  | cons e l ih =>
    intro median hl hw hfits
    obtain ⟨r, w⟩ := e
    have hw' : ∀ e ∈ l, 0 ≤ e.2 := fun e he => hw e (List.mem_cons_of_mem _ he)
    have hnonneg := weightOf_nonneg hw'
    have hwr : 0 ≤ w := hw (r, w) List.mem_cons_self
    rw [medianRate]
    split
    · rename_i hle
      exact .inl ⟨keyAbove_of_le hw hle, rfl⟩
    · rename_i hlt
      have hrest : toInt64 (weightOf ((r, w) :: l) - w) = weightOf l := by
        rw [weightOf_cons] at hfits ⊢
        rw [toInt64_eq] <;> simp only at hfits ⊢ <;> omega
      obtain ⟨hfirst, hlater⟩ := isGreatest_cons hl (Int.not_le.mp hlt)
      rw [hrest]
      right
      rw [weightOf_cons] at hfits
      simp only at hfits
      rcases @ih r (List.pairwise_cons.mp hl).2 hw' (by omega) with ⟨hnone, heq⟩ | hgreatest
      · rw [heq]
        exact hfirst hnone
      · exact hlater _ hgreatest

/-- The weight of the rates of a duration, added up as the code does. -/
theorem foldl_weights : ∀ {l : List (Int × Int)} {total : Int}, (∀ e ∈ l, 0 ≤ e.2) → 0 ≤ total →
    total + weightOf l < 2 ^ 63 → l.foldl (fun total e => toInt64 (total + e.2)) total = total + weightOf l := by
  intro l
  induction l with
  | nil => exact fun _ _ _ => (Int.add_zero _).symm
  | cons e l ih =>
    intro total hw htotal hfits
    have hw' : ∀ e ∈ l, 0 ≤ e.2 := fun e he => hw e (List.mem_cons_of_mem _ he)
    have he := hw e List.mem_cons_self
    have hnonneg := weightOf_nonneg hw'
    rw [weightOf_cons] at hfits ⊢
    rw [List.foldl_cons, toInt64_eq (by omega) (by omega), ih hw' (by omega) (by omega), Int.add_assoc]

/-- What the tally of votes is, and what it holds. -/
theorem tally_of_votable {nProtocolVersion : Int} {vVote : List CVote} (h : Votable nProtocolVersion vVote) :
    ∃ m, vVote.foldlM countParkRates {} = .ok { durationRateWeights := m, totalVoteWeight := weightOfVotes vVote } ∧
      (∀ d r, weightFrom (ratesAt m d).entries r = weightVotedFor vVote d r) ∧
      (∀ d r, r ∈ (ratesAt m d).entries.map (·.1) ↔ ∃ vote ∈ vVote, ⟨d, r⟩ ∈ vote.parkRates) ∧
      ∀ d, ∀ e ∈ (ratesAt m d).entries, 0 ≤ e.2 := by
  have hfits := h.fits
  have hcounted : ∀ d r, weightCounted ([] ++ countedRates vVote) d r = weightVotedFor vVote d r :=
    weightCounted_countedRates h.valid
  have hcounts : Counts ([] ++ countedRates vVote) _ := Counts.empty.run fun d r => by
    have := weightVotedFor_le vVote d r
    rw [hcounted]
    omega
  refine ⟨_, ?_, fun d r => ?_, fun d r => ?_, hcounts.nonneg⟩
  · rw [foldlM_countParkRates h.positive (Int.le_refl 0) (by simp only; omega)]
    simp
  · rw [hcounts.weight, hcounted]
  · rw [hcounts.voted]
    simp only [List.nil_append, countedRates, List.mem_flatMap, List.mem_map]
    constructor
    · rintro ⟨_, ⟨vote, hvote, p, hp, rfl⟩, rfl⟩
      exact ⟨vote, hvote, hp⟩
    · rintro ⟨vote, hvote, hp⟩
      exact ⟨_, ⟨vote, hvote, _, hp, rfl⟩, rfl⟩

/-- The rate that the tally chooses for a duration is the greatest one above the half, if that is positive. -/
theorem medianParkRate_eq_some {nProtocolVersion : Int} {vVote : List CVote} (h : Votable nProtocolVersion vVote)
    {d : Nat} {rateWeights : RateWeightMap}
    (hweight : ∀ r, weightFrom rateWeights.entries r = weightVotedFor vVote d r)
    (hvoted : ∀ r, r ∈ rateWeights.entries.map (·.1) ↔ ∃ vote ∈ vVote, ⟨d, r⟩ ∈ vote.parkRates)
    (hnonneg : ∀ e ∈ rateWeights.entries, 0 ≤ e.2) {parkRate : CParkRate} :
    medianParkRate (Int.tdiv (weightOfVotes vVote) 2) (d, rateWeights) = some parkRate ↔
      parkRate.nCompactDuration = d ∧ 0 < parkRate.nRate ∧ IsGreatest (ratesAboveHalf vVote d) parkRate.nRate := by
  have hrate : ∀ r ∈ rateWeights.entries.map (·.1), 0 ≤ r := by
    intro r hr
    obtain ⟨vote, hvote, hp⟩ := (hvoted r).mp hr
    have hvalid := (parkRates_of_valid (h.valid vote hvote)).2 _ hp
    unfold CParkRate.isValid at hvalid
    exact (of_decide_eq_true hvalid).2.1
  have htotal : weightOf rateWeights.entries < 2 ^ 63 := by
    have hle := weightVotedFor_le vVote d 0
    have hfits := h.fits
    rw [← weightFrom_eq (k := 0) fun e he => hrate e.1 (List.mem_map_of_mem he), hweight]
    omega
  have hhalf : Int.tdiv (weightOfVotes vVote) 2 = ((weightOfVotes vVote / 2 : Nat) : Int) := by
    rw [Int.natCast_div]
    exact Int.tdiv_eq_ediv_of_nonneg (Int.natCast_nonneg _)
  have habove : KeyAbove rateWeights.entries (Int.tdiv (weightOfVotes vVote) 2) = ratesAboveHalf vVote d := by
    ext r
    refine and_congr (hvoted r) ?_
    rw [hweight, hhalf]
    exact Int.ofNat_lt
  have hsum := foldl_weights hnonneg (Int.le_refl 0) (by omega : (0 : Int) + weightOf rateWeights.entries < 2 ^ 63)
  rw [Int.zero_add] at hsum
  have hspec := @medianRate_spec _ (hhalf ▸ Int.natCast_nonneg _ : (0 : Int) ≤ Int.tdiv (weightOfVotes vVote) 2)
    _ 0 rateWeights.sorted hnonneg htotal
  unfold medianParkRate
  simp only [hsum]
  generalize medianRate _ _ _ _ = median at hspec
  rw [habove] at hspec
  obtain ⟨d', r⟩ := parkRate
  rcases hspec with ⟨hnone, rfl⟩ | hgreatest
  · rw [if_neg (by simp)]
    refine ⟨fun h => (nomatch h), fun ⟨_, _, hr⟩ => absurd hr.1 ?_⟩
    rw [hnone]
    exact Set.notMem_empty _
  · have hmedian : 0 ≤ median := hrate median ((hvoted median).mpr hgreatest.1.1)
    split
    · rename_i hne
      simp only [Option.some.injEq, CParkRate.mk.injEq]
      constructor
      · rintro ⟨rfl, rfl⟩
        exact ⟨rfl, by omega, hgreatest⟩
      · rintro ⟨rfl, -, hr⟩
        exact ⟨rfl, hgreatest.unique hr⟩
    · rename_i hzero
      refine ⟨fun h => (nomatch h), fun ⟨_, hpos, hr⟩ => ?_⟩
      have := hgreatest.unique hr
      simp only at hpos this
      omega

/-- The rates chosen by votes: the medians that are positive, in the order of their durations. -/
def ChosenRates (vVote : List CVote) (rates : List CParkRate) : Prop :=
  rates.Pairwise (fun a b => a.nCompactDuration < b.nCompactDuration) ∧
    ∀ nCompactDuration r, ⟨nCompactDuration, r⟩ ∈ rates ↔ 0 < r ∧ IsGreatest (ratesAboveHalf vVote nCompactDuration) r

/-- The votes choose one list of rates at most. -/
theorem ChosenRates.unique {vVote : List CVote} {rates rates' : List CParkRate} (h : ChosenRates vVote rates)
    (h' : ChosenRates vVote rates') : rates = rates' := by
  refine h.1.eq_of_mem_iff h'.1 fun p => ?_
  obtain ⟨d, r⟩ := p
  rw [h.2, h'.2]

/-- What votes choose depends on their weights for each rate only. -/
theorem ChosenRates.congr {vVote vVote' : List CVote} {rates : List CParkRate} (h : ChosenRates vVote rates)
    (heq : ∀ d, ratesAboveHalf vVote' d = ratesAboveHalf vVote d) : ChosenRates vVote' rates :=
  ⟨h.1, fun d r => by rw [heq, h.2]⟩

/-- The tally gives the chosen rates. -/
theorem exists_chosenRates {nProtocolVersion : Int} {vVote : List CVote} (h : Votable nProtocolVersion vVote) :
    ∃ rates, calculateParkRateVote vVote =
        .ok (if vVote = [] then [] else [{ cUnit := unitCurrency, vParkRate := rates }]) ∧
      ChosenRates vVote rates := by
  obtain ⟨m, hm, hweight, hvoted, hnonneg⟩ := tally_of_votable h
  have hchoose : ∀ e ∈ m.entries, ∀ parkRate,
      medianParkRate (Int.tdiv (weightOfVotes vVote) 2) e = some parkRate ↔
        parkRate.nCompactDuration = e.1 ∧ 0 < parkRate.nRate ∧
          IsGreatest (ratesAboveHalf vVote e.1) parkRate.nRate := by
    intro e he parkRate
    obtain ⟨d, rateWeights⟩ := e
    have hat : ratesAt m d = rateWeights := by rw [ratesAt, Store.find?_eq_some.mpr he, Option.getD_some]
    exact medianParkRate_eq_some h (fun r => hat ▸ hweight d r) (fun r => hat ▸ hvoted d r) (hat ▸ hnonneg d)
  refine ⟨m.entries.filterMap (medianParkRate (Int.tdiv (weightOfVotes vVote) 2)), ?_, ?_, fun d r => ?_⟩
  · unfold calculateParkRateVote
    split
    · rfl
    · rw [hm]
      rfl
  · refine List.pairwise_filterMap.mpr (m.sorted.imp_of_mem fun ha hb hab p hp q hq => ?_)
    rw [((hchoose _ ha p).mp hp).1, ((hchoose _ hb q).mp hq).1]
    exact hab
  · rw [List.mem_filterMap]
    constructor
    · rintro ⟨e, he, hsome⟩
      obtain ⟨rfl, hchosen⟩ := (hchoose e he _).mp hsome
      exact hchosen
    · intro hchosen
      -- a rate above the half is voted, so the tally has its duration
      have hmem := (hvoted d r).mpr hchosen.2.1.1
      unfold ratesAt at hmem
      cases hd : m.find? d with
      | none => rw [hd] at hmem; exact absurd hmem List.not_mem_nil
      | some rateWeights =>
        have he := Store.find?_eq_some.mp hd
        exact ⟨_, he, (hchoose _ he _).mpr ⟨rfl, hchosen⟩⟩

/-- Votes with the same weights for each rate give the same result. -/
theorem calculateParkRateVote_congr {nProtocolVersion : Int} {vVote vVote' : List CVote}
    (h : Votable nProtocolVersion vVote) (h' : Votable nProtocolVersion vVote') (hnil : vVote' = [] ↔ vVote = [])
    (heq : ∀ d, ratesAboveHalf vVote' d = ratesAboveHalf vVote d) :
    calculateParkRateVote vVote' = calculateParkRateVote vVote := by
  obtain ⟨rates, hrates, hchosen⟩ := exists_chosenRates h
  obtain ⟨rates', hrates', hchosen'⟩ := exists_chosenRates h'
  rw [hrates, hrates', hchosen'.unique (hchosen.congr heq)]
  simp only [hnil]

/-- Votes in another order. -/
theorem Votable.perm {nProtocolVersion : Int} {vVote vVote' : List CVote} (h : Votable nProtocolVersion vVote)
    (hperm : vVote'.Perm vVote) : Votable nProtocolVersion vVote' where
  valid vote hvote := h.valid vote (hperm.subset hvote)
  positive vote hvote := h.positive vote (hperm.subset hvote)
  fits := by
    rw [weightOfVotes, (hperm.map _).sum_eq]
    exact h.fits

theorem ratesAboveHalf_perm {vVote vVote' : List CVote} (hperm : vVote'.Perm vVote) (d : Nat) :
    ratesAboveHalf vVote' d = ratesAboveHalf vVote d := by
  have hweight : ∀ {l l' : List CVote}, l'.Perm l → weightOfVotes l' = weightOfVotes l := fun h => (h.map _).sum_eq
  ext r
  unfold ratesAboveHalf weightVotedFor
  rw [Set.mem_ofPred_eq, Set.mem_ofPred_eq, hweight hperm, hweight (hperm.filter _)]
  exact and_congr_left' (exists_congr fun vote => and_congr_left' hperm.mem_iff)

section Split

variable {before after : List CVote} {vote : CVote} {w₁ w₂ : Nat}

theorem weightOfVotes_append (l l' : List CVote) : weightOfVotes (l ++ l') = weightOfVotes l + weightOfVotes l' := by
  unfold weightOfVotes
  rw [List.map_append, List.sum_append]

theorem weightVotedFor_append (l l' : List CVote) (d : Nat) (r : Int) :
    weightVotedFor (l ++ l') d r = weightVotedFor l d r + weightVotedFor l' d r := by
  unfold weightVotedFor
  rw [List.filter_append, weightOfVotes_append]

/-- A vote, and two votes with its content that share its weight, weigh the same. -/
theorem weightOfVotes_split (hsum : w₁ + w₂ = vote.nCoinAgeDestroyed) :
    weightOfVotes (before ++ { vote with nCoinAgeDestroyed := w₁ } :: { vote with nCoinAgeDestroyed := w₂ } :: after) =
      weightOfVotes (before ++ vote :: after) := by
  simp only [weightOfVotes_append, weightOfVotes_cons]
  omega

theorem Votable.split {nProtocolVersion : Int} (h : Votable nProtocolVersion (before ++ vote :: after))
    (h₁ : 0 < w₁) (h₂ : 0 < w₂) (hsum : w₁ + w₂ = vote.nCoinAgeDestroyed) : Votable nProtocolVersion
      (before ++ { vote with nCoinAgeDestroyed := w₁ } :: { vote with nCoinAgeDestroyed := w₂ } :: after) := by
  have hcases : ∀ v ∈ before ++ { vote with nCoinAgeDestroyed := w₁ } :: { vote with nCoinAgeDestroyed := w₂ } :: after,
      v ∈ before ++ vote :: after ∨ ∃ w, 0 < w ∧ v = { vote with nCoinAgeDestroyed := w } := by
    intro v hv
    simp only [List.mem_append, List.mem_cons] at hv ⊢
    rcases hv with hv | rfl | rfl | hv
    · exact .inl (.inl hv)
    · exact .inr ⟨w₁, h₁, rfl⟩
    · exact .inr ⟨w₂, h₂, rfl⟩
    · exact .inl (.inr (.inr hv))
  refine ⟨fun v hv => ?_, fun v hv => ?_, weightOfVotes_split hsum ▸ h.fits⟩
  · rcases hcases v hv with hv | ⟨w, -, rfl⟩
    · exact h.valid v hv
    · exact h.valid vote (List.mem_append_right _ List.mem_cons_self)
  · rcases hcases v hv with hv | ⟨w, hw, rfl⟩
    · exact h.positive v hv
    · exact hw

theorem ratesAboveHalf_split (hsum : w₁ + w₂ = vote.nCoinAgeDestroyed) (d : Nat) : ratesAboveHalf
      (before ++ { vote with nCoinAgeDestroyed := w₁ } :: { vote with nCoinAgeDestroyed := w₂ } :: after) d =
    ratesAboveHalf (before ++ vote :: after) d := by
  have hfor : ∀ w r, CVote.votesFor { vote with nCoinAgeDestroyed := w } d r = vote.votesFor d r := fun _ _ => rfl
  have hrates : ∀ w, CVote.parkRates { vote with nCoinAgeDestroyed := w } = vote.parkRates := fun _ => rfl
  ext r
  have hweight : weightVotedFor (before ++ { vote with nCoinAgeDestroyed := w₁ } ::
      { vote with nCoinAgeDestroyed := w₂ } :: after) d r = weightVotedFor (before ++ vote :: after) d r := by
    simp only [weightVotedFor_append, weightVotedFor_cons, hfor]
    split <;> omega
  unfold ratesAboveHalf
  rw [Set.mem_ofPred_eq, Set.mem_ofPred_eq, hweight, weightOfVotes_split hsum]
  refine and_congr_left' ?_
  simp only [List.mem_append, List.mem_cons, or_and_right, exists_or, exists_eq_left, hrates, or_self_left]

end Split

/-- The tally of no votes is empty: it has no vector of rates at all. -/
theorem calculateParkRateVote_nil : ¬ ∀ (nProtocolVersion : Int) (vVote : List CVote),
    Votable nProtocolVersion vVote → ∃ rates, calculateParkRateVote vVote =
      .ok [{ cUnit := unitCurrency, vParkRate := rates }] := by
  intro h
  obtain ⟨rates, hrates⟩ := h 0 [] ⟨List.forall_mem_nil _, List.forall_mem_nil _, by decide⟩
  cases hrates

/-- **The rates of the tally are the weighted medians.** For each duration, the greatest voted rate for which, or for
more, votes of more than half of the weight are; the rates are in the order of their durations, and they depend neither
on the order of the votes nor on how the weight of a vote is shared between votes with its content. -/
theorem calculateParkRateVote_median (nProtocolVersion : Int) (vVote : List CVote)
    (h : Votable nProtocolVersion vVote) :
    (∃ rates, calculateParkRateVote vVote =
        .ok (if vVote = [] then [] else [{ cUnit := unitCurrency, vParkRate := rates }]) ∧
      rates.Pairwise (fun a b => a.nCompactDuration < b.nCompactDuration) ∧
      ∀ nCompactDuration r, ⟨nCompactDuration, r⟩ ∈ rates ↔
        0 < r ∧ IsGreatest (ratesAboveHalf vVote nCompactDuration) r) ∧
    (∀ vVote' : List CVote, vVote'.Perm vVote → calculateParkRateVote vVote' = calculateParkRateVote vVote) ∧
    ∀ (before after : List CVote) (vote : CVote) (w₁ w₂ : Nat), vVote = before ++ vote :: after →
      0 < w₁ → 0 < w₂ → w₁ + w₂ = vote.nCoinAgeDestroyed →
      calculateParkRateVote (before ++ { vote with nCoinAgeDestroyed := w₁ } ::
        { vote with nCoinAgeDestroyed := w₂ } :: after) = calculateParkRateVote vVote := by
  refine ⟨exists_chosenRates h, fun vVote' hperm => ?_, ?_⟩
  · exact calculateParkRateVote_congr h (h.perm hperm) ⟨fun hnil => by subst hnil; exact hperm.nil_eq.symm,
      fun hnil => by subst hnil; exact hperm.eq_nil⟩ fun d => ratesAboveHalf_perm hperm d
  · rintro before after vote w₁ w₂ rfl h₁ h₂ hsum
    exact calculateParkRateVote_congr h (h.split h₁ h₂ hsum) (by simp) fun d => ratesAboveHalf_split hsum d

/-- The votes of two minters, of which the first has a little more weight. -/
def twoVotes : List CVote :=
  [{ vParkRateVote := [{ cUnit := unitCurrency, vParkRate := [⟨8, 100⟩, ⟨4, 7⟩] }], nCoinAgeDestroyed := 1001 },
    { vParkRateVote := [{ cUnit := unitCurrency, vParkRate := [⟨8, 200⟩] }], nCoinAgeDestroyed := 1000 }]

theorem calculateParkRateVote_median_sample :
    (∃ rates, calculateParkRateVote twoVotes =
        .ok (if twoVotes = [] then [] else [{ cUnit := unitCurrency, vParkRate := rates }]) ∧
      rates.Pairwise (fun a b => a.nCompactDuration < b.nCompactDuration) ∧
      ∀ nCompactDuration r, ⟨nCompactDuration, r⟩ ∈ rates ↔
        0 < r ∧ IsGreatest (ratesAboveHalf twoVotes nCompactDuration) r) ∧
    calculateParkRateVote twoVotes = .ok [{ cUnit := unitCurrency, vParkRate := [⟨4, 7⟩, ⟨8, 100⟩] }] :=
  ⟨(calculateParkRateVote_median 2000000 twoVotes
    { valid := by decide +kernel, positive := by decide, fits := by decide }).1, by decide +kernel⟩

end Morcochain
