import Morcochain.ParkTally

/-!
# How fast the park rates change

`LimitParkRateChangeV2_0` keeps the new rate of each duration within a band around the rate of the block before. The
previous rates go through an `unsigned int`, so a rate of 2^32 or more loses its upper bits on the way.

* `limitParkRateChangeV2_0_eq` : each rate is the voted one, clamped around the previous rate modulo 2^32.
* `limitParkRateChangeV2_0_iff` : **the limit is around the previous rates exactly when they are below 2^32.**
-/

set_option autoImplicit false

namespace Morcochain

open OrderedStore Guard

/-! ## Lists of rates -/

/-- The rate of a duration; no entry means zero. -/
def rateAt (rates : List CParkRate) (nCompactDuration : Nat) : Int :=
  ((rates.find? (·.nCompactDuration = nCompactDuration)).map (·.nRate)).getD 0

/-- The durations of the rates strictly increase. -/
def ByDuration (rates : List CParkRate) : Prop :=
  rates.Pairwise fun a b => a.nCompactDuration < b.nCompactDuration

instance (rates : List CParkRate) : Decidable (ByDuration rates) := by
  unfold ByDuration
  infer_instance

/-- Valid rates in the order of their durations. -/
structure ValidRates (rates : List CParkRate) : Prop where
  sorted : ByDuration rates
  valid : ∀ r ∈ rates, r.isValid = true

theorem ByDuration.nodup {rates : List CParkRate} (h : ByDuration rates) :
    (rates.map (·.nCompactDuration)).Nodup :=
  List.pairwise_map.mpr (h.imp fun hlt => Nat.ne_of_lt hlt)

/-- The only entry of a duration. -/
theorem find?_duration {rates : List CParkRate} (h : (rates.map (·.nCompactDuration)).Nodup) {r : CParkRate}
    (hr : r ∈ rates) : rates.find? (·.nCompactDuration = r.nCompactDuration) = some r := by
  induction rates with
  | nil => cases hr
  | cons a rates ih =>
    obtain ⟨ha, hrates⟩ := List.nodup_cons.mp h
    rcases List.mem_cons.mp hr with rfl | hr
    · exact List.find?_cons_of_pos (by simp)
    · have hne : ¬ a.nCompactDuration = r.nCompactDuration := fun heq =>
        ha (List.mem_map.mpr ⟨r, hr, heq.symm⟩)
      rw [List.find?_cons_of_neg (by simpa using hne)]
      exact ih hrates hr

theorem rateAt_of_mem {rates : List CParkRate} (h : (rates.map (·.nCompactDuration)).Nodup) {r : CParkRate}
    (hr : r ∈ rates) : rateAt rates r.nCompactDuration = r.nRate := by
  rw [rateAt, find?_duration h hr]
  rfl

theorem find?_eq_none_of_duration {rates : List CParkRate} {d : Nat} (h : d ∉ rates.map (·.nCompactDuration)) :
    rates.find? (·.nCompactDuration = d) = none := by
  rw [List.find?_eq_none]
  intro r hr heq
  exact h (List.mem_map.mpr ⟨r, hr, of_decide_eq_true heq⟩)

theorem rateAt_of_not_mem {rates : List CParkRate} {d : Nat} (h : d ∉ rates.map (·.nCompactDuration)) :
    rateAt rates d = 0 := by
  rw [rateAt, find?_eq_none_of_duration h]
  rfl

/-- The rate of a duration of valid rates. -/
theorem ValidRates.rateAt_range {rates : List CParkRate} (h : ValidRates rates) (d : Nat) :
    0 ≤ rateAt rates d ∧ rateAt rates d ≤ maxParkRate := by
  by_cases hd : d ∈ rates.map (·.nCompactDuration)
  · obtain ⟨r, hr, rfl⟩ := List.mem_map.mp hd
    have hvalid := h.valid r hr
    unfold CParkRate.isValid at hvalid
    rw [rateAt_of_mem h.sorted.nodup hr]
    exact (of_decide_eq_true hvalid).2
  · rw [rateAt_of_not_mem hd]
    decide

/-- Setting the last rate of a duration, where each duration occurs once. -/
theorem setLastRate_eq {d : Nat} {x : Int} {rates : List CParkRate} (h : (rates.map (·.nCompactDuration)).Nodup) :
    setLastRate d x rates = rates.map fun r => if r.nCompactDuration = d then { r with nRate := x } else r := by
  induction rates with
  | nil => rfl
  | cons a rates ih =>
    obtain ⟨ha, hrates⟩ := List.nodup_cons.mp h
    rw [setLastRate, List.map_cons]
    split
    · rename_i hany
      obtain ⟨r, hr, heq⟩ := List.any_eq_true.mp hany
      have hne : ¬ a.nCompactDuration = d := fun hd =>
        ha (List.mem_map.mpr ⟨r, hr, (of_decide_eq_true heq).trans hd.symm⟩)
      rw [if_neg hne, ih hrates]
    · rename_i hany
      have hid : rates.map (fun r => if r.nCompactDuration = d then { r with nRate := x } else r) = rates := by
        refine (List.map_congr_left fun r hr => if_neg fun hd => hany ?_).trans (List.map_id rates)
        exact List.any_eq_true.mpr ⟨r, hr, decide_eq_true hd⟩
      rw [hid]
      split <;> rfl

/-- The map from durations to what a function makes of the rates. -/
theorem find?_foldl_insert {α : Type} (f : CParkRate → α) {rates : List CParkRate} : ∀ {m : Store Nat α},
    (rates.map (·.nCompactDuration)).Nodup → ∀ d,
    (rates.foldl (fun m r => m.insert r.nCompactDuration (f r)) m).find? d =
      match rates.find? (·.nCompactDuration = d) with
      | some r => some (f r)
      | none => m.find? d := by
  induction rates with
  | nil => exact fun _ _ => rfl
  | cons a rates ih =>
    intro m h d
    obtain ⟨ha, hrates⟩ := List.nodup_cons.mp h
    rw [List.foldl_cons, ih hrates, Store.find?_insert]
    by_cases hd : a.nCompactDuration = d
    · rw [List.find?_cons_of_pos (by simpa using hd), find?_eq_none_of_duration (hd ▸ ha), if_pos hd.symm]
    · rw [List.find?_cons_of_neg (by simpa using hd), if_neg fun h => hd h.symm]

/-- The durations of a map of rates. -/
theorem mem_durations {rates : List CParkRate} {d : Nat} :
    d ∈ (rateMap rates).entries.map (·.1) ↔ d ∈ rates.map (·.nCompactDuration) := by
  have hrun : ∀ (rates : List CParkRate) (m : Store Nat Int),
      d ∈ (rates.foldl (fun m r => m.insert r.nCompactDuration r.nRate) m).entries.map (·.1) ↔
        d ∈ m.entries.map (·.1) ∨ d ∈ rates.map (·.nCompactDuration) := by
    intro rates
    induction rates with
    | nil => exact fun m => (or_iff_left List.not_mem_nil).symm
    | cons a rates ih =>
      intro m
      rw [List.foldl_cons, ih, mem_keys_insert, List.map_cons, List.mem_cons, or_assoc]
  exact (hrun rates Store.empty).trans (or_iff_right List.not_mem_nil)

/-! ## The limits of a duration -/

/-- `maxIncrease`: 0.002% of the annual interest rate. -/
def maxIncrease (nCompactDuration : Nat) : Int :=
  Int.tdiv (Int.tdiv (parkRateEncodedPercentage * 2) 1000 * 2 ^ nCompactDuration) blocksInYear

/-- `maxDecrease`: 0.004% of the annual interest rate. -/
def maxDecrease (nCompactDuration : Nat) : Int :=
  Int.tdiv (Int.tdiv (parkRateEncodedPercentage * 4) 1000 * 2 ^ nCompactDuration) blocksInYear

/-- The voted rate, clamped to the band around the previous rate. -/
def clampedRate (nCompactDuration : Nat) (votedRate previous : Int) : Int :=
  max (previous - maxDecrease nCompactDuration) (min votedRate (previous + maxIncrease nCompactDuration))

theorem maxIncrease_nonneg (d : Nat) : 0 ≤ maxIncrease d :=
  Int.tdiv_nonneg (Int.mul_nonneg (by decide) (Int.pow_nonneg (by decide))) (by decide)

theorem maxDecrease_nonneg (d : Nat) : 0 ≤ maxDecrease d :=
  Int.tdiv_nonneg (Int.mul_nonneg (by decide) (Int.pow_nonneg (by decide))) (by decide)

/-- The band of a valid duration is narrow. -/
theorem band_lt : ∀ d < maxCompactDuration, maxIncrease d + maxDecrease d < 2 ^ 32 := by decide

/-- A clamped rate is not negative. -/
theorem clampedRate_nonneg {d : Nat} {votedRate previous : Int} (hv : 0 ≤ votedRate) (hp : 0 ≤ previous) :
    0 ≤ clampedRate d votedRate previous := by
  have := maxIncrease_nonneg d
  unfold clampedRate
  omega

/-- Around previous rates that are further apart than the band is wide, the clamped rates differ. -/
theorem clampedRate_ne {d : Nat} {votedRate previous previous' : Int}
    (h : previous + maxIncrease d + maxDecrease d < previous') :
    clampedRate d votedRate previous ≠ clampedRate d votedRate previous' := by
  have := maxIncrease_nonneg d
  have := maxDecrease_nonneg d
  unfold clampedRate
  omega

theorem toUInt32_of_lt {x : Int} (h₀ : 0 ≤ x) (h : x < 2 ^ 32) : (toUInt32 x : Int) = x := by
  unfold toUInt32
  omega

/-! ## The loop over the durations -/

section Limit

variable {voted previous : List CParkRate}

/-- The previous rate of a duration as the loop has it. -/
def previousRate (previous : List CParkRate) (nCompactDuration : Nat) : Int :=
    toUInt32 (rateAt previous nCompactDuration)

/-- `mapPreviousRate`. -/
def mapPreviousRate (previous : List CParkRate) : Store Nat Nat :=
  previous.foldl (fun m r => m.insert r.nCompactDuration (toUInt32 r.nRate)) Store.empty

theorem mapPreviousRate_find (h : ByDuration previous) (d : Nat) :
    (((mapPreviousRate previous).find? d).getD 0 : Nat) = previousRate previous d := by
  unfold mapPreviousRate previousRate rateAt
  rw [find?_foldl_insert _ h.nodup]
  cases previous.find? (·.nCompactDuration = d) <;> rfl

theorem rateMap_find (h : ByDuration voted) (d : Nat) :
    (rateMap voted).find? d = (voted.find? (·.nCompactDuration = d)).map (·.nRate) := by
  unfold rateMap
  rw [find?_foldl_insert _ h.nodup]
  cases voted.find? (·.nCompactDuration = d) <;> rfl

/-- The limited rate of a duration. -/
def limitedRate (voted previous : List CParkRate) (nCompactDuration : Nat) : Int :=
  clampedRate nCompactDuration (rateAt voted nCompactDuration) (previousRate previous nCompactDuration)

/-- The rates once the loop is done with some durations. -/
def limitedRates (voted previous : List CParkRate) (done : List Nat) : List CParkRate :=
  voted.map fun r =>
    if r.nCompactDuration ∈ done then { r with nRate := limitedRate voted previous r.nCompactDuration } else r

/-- The new rates once the loop is done with some durations. -/
def newRates (voted previous : List CParkRate) (done : List Nat) : List CParkRate :=
  (done.filter fun d => d ∉ voted.map (·.nCompactDuration) ∧ 0 < limitedRate voted previous d).map fun d =>
    { nCompactDuration := d, nRate := limitedRate voted previous d }

theorem limitedRates_durations (voted previous : List CParkRate) (done : List Nat) :
    (limitedRates voted previous done).map (·.nCompactDuration) = voted.map (·.nCompactDuration) := by
  unfold limitedRates
  rw [List.map_map]
  refine List.map_congr_left fun r _ => ?_
  simp only [Function.comp]
  split <;> rfl

theorem newRates_append (done ds : List Nat) :
    newRates voted previous (done ++ ds) = newRates voted previous done ++ newRates voted previous ds := by
  unfold newRates
  rw [List.filter_append, List.map_append]

theorem newRates_singleton (d : Nat) : newRates voted previous [d] =
    if d ∉ voted.map (·.nCompactDuration) ∧ 0 < limitedRate voted previous d then
      [{ nCompactDuration := d, nRate := limitedRate voted previous d }] else [] := by
  unfold newRates
  rw [List.filter_singleton]
  by_cases h : d ∉ voted.map (·.nCompactDuration) ∧ 0 < limitedRate voted previous d
  · rw [if_pos h, decide_eq_true h]
    rfl
  · rw [if_neg h, decide_eq_false h]
    rfl

theorem previousRate_nonneg (previous : List CParkRate) (d : Nat) : 0 ≤ previousRate previous d := Int.natCast_nonneg _

/-- One turn of the loop, for a duration that has no entry among the voted rates. -/
theorem limitRateV2_0_new (hv : ByDuration voted) (hp : ByDuration previous) {d : Nat}
    (hd : d ∉ voted.map (·.nCompactDuration)) (st : List CParkRate × List CParkRate) :
    limitRateV2_0 (mapPreviousRate previous) (rateMap voted) st d =
      (st.1, st.2 ++ newRates voted previous [d]) := by
  have hprev := previousRate_nonneg previous d
  have hinc := maxIncrease_nonneg d
  have hrate : limitedRate voted previous d = max (previousRate previous d - maxDecrease d) 0 := by
    rw [limitedRate, rateAt_of_not_mem hd, clampedRate]
    omega
  unfold limitRateV2_0
  rw [mapPreviousRate_find hp, rateMap_find hv, find?_eq_none_of_duration hd]
  show (if 0 > previousRate previous d + maxIncrease d then _ else if 0 < previousRate previous d - maxDecrease d then
    _ else _) = _
  rw [if_neg (by omega), newRates_singleton, hrate]
  simp only [Option.map_none, Option.isSome_none, Bool.false_eq_true, if_false]
  split
  · rename_i hlt
    rw [if_pos ⟨hd, by omega⟩, Int.max_eq_left (by omega)]
    rfl
  · rename_i hge
    rw [if_neg fun h => hge (by omega), List.append_nil]

/-- One turn of the loop, for a duration with an entry, which still has the voted rate. -/
theorem limitRateV2_0_voted (hv : ByDuration voted) (hp : ByDuration previous) {d : Nat}
    (hd : d ∈ voted.map (·.nCompactDuration)) {rates : List CParkRate} (new : List CParkRate)
    (hnodup : (rates.map (·.nCompactDuration)).Nodup)
    (hrates : ∀ r ∈ rates, r.nCompactDuration = d → r.nRate = rateAt voted d) :
    limitRateV2_0 (mapPreviousRate previous) (rateMap voted) (rates, new) d =
      (setLastRate d (limitedRate voted previous d) rates, new) := by
  have hinc := maxIncrease_nonneg d
  have hdec := maxDecrease_nonneg d
  obtain ⟨r, hr, rfl⟩ := List.mem_map.mp hd
  have hfind : (rateMap voted).find? r.nCompactDuration = some (rateAt voted r.nCompactDuration) := by
    rw [rateMap_find hv, find?_duration hv.nodup hr, rateAt_of_mem hv.nodup hr]
    rfl
  unfold limitRateV2_0 limitedRate clampedRate
  rw [mapPreviousRate_find hp, hfind]
  generalize rateAt voted r.nCompactDuration = votedRate at hrates
  generalize previousRate previous r.nCompactDuration = prev
  show (if votedRate > prev + maxIncrease r.nCompactDuration then (setLastRate _ (prev + maxIncrease r.nCompactDuration) _, _)
    else if votedRate < prev - maxDecrease r.nCompactDuration then
      (setLastRate _ (prev - maxDecrease r.nCompactDuration) _, _) else _) = _
  split
  · congr 2
    omega
  · split
    · congr 2
      omega
    · -- the rate is within the band, so nothing is set
      rw [setLastRate_eq hnodup]
      refine Prod.ext ((List.map_congr_left fun p hpm => ?_).trans (List.map_id rates)).symm rfl
      split
      · rename_i heq
        have := hrates p hpm heq
        cases p
        simp only [id, CParkRate.mk.injEq, true_and] at this ⊢
        omega
      · rfl

/-- What one more duration changes. -/
theorem limitedRates_snoc (hv : ByDuration voted) {done : List Nat} {d : Nat} (hd : d ∉ done) :
    setLastRate d (limitedRate voted previous d) (limitedRates voted previous done) =
      limitedRates voted previous (done ++ [d]) := by
  rw [setLastRate_eq (by rw [limitedRates_durations]; exact hv.nodup)]
  unfold limitedRates
  rw [List.map_map]
  refine List.map_congr_left fun r _ => ?_
  simp only [Function.comp, List.mem_append, List.mem_singleton]
  by_cases hr : r.nCompactDuration = d
  · subst hr
    simp [hd]
  · by_cases hdone : r.nCompactDuration ∈ done <;> simp [hr, hdone]

/-- A duration that is not done still has the voted rate. -/
theorem limitedRates_of_not_mem (hv : ByDuration voted) {done : List Nat} {d : Nat} (hd : d ∉ done) :
    ∀ r ∈ limitedRates voted previous done, r.nCompactDuration = d → r.nRate = rateAt voted d := by
  intro r hr heq
  obtain ⟨r₀, hr₀, rfl⟩ := List.mem_map.mp hr
  split at heq
  · rename_i hdone
    exact absurd (heq ▸ hdone) hd
  · rename_i hdone
    rw [if_neg hdone, ← heq, rateAt_of_mem hv.nodup hr₀]

/-- **The loop over the durations.** -/
theorem foldl_limitRateV2_0 (hv : ByDuration voted) (hp : ByDuration previous) {ds : List Nat} : ∀ {done : List Nat},
    (done ++ ds).Nodup → ds.foldl (limitRateV2_0 (mapPreviousRate previous) (rateMap voted))
        (limitedRates voted previous done, newRates voted previous done) =
      (limitedRates voted previous (done ++ ds), newRates voted previous (done ++ ds)) := by
  induction ds with
  | nil =>
    intro done _
    rw [List.append_nil, List.foldl_nil]
  | cons d ds ih =>
    intro done hnodup
    have hd : d ∉ done := fun h => (List.nodup_append.mp hnodup).2.2 d h d List.mem_cons_self rfl
    have hstep : limitRateV2_0 (mapPreviousRate previous) (rateMap voted)
        (limitedRates voted previous done, newRates voted previous done) d =
          (limitedRates voted previous (done ++ [d]), newRates voted previous (done ++ [d])) := by
      by_cases hvd : d ∈ voted.map (·.nCompactDuration)
      · rw [limitRateV2_0_voted hv hp hvd _ (by rw [limitedRates_durations]; exact hv.nodup)
          (limitedRates_of_not_mem hv hd), limitedRates_snoc hv hd, newRates_append, newRates_singleton,
          if_neg fun h => h.1 hvd, List.append_nil]
      · rw [limitRateV2_0_new hv hp hvd, newRates_append, ← limitedRates_snoc hv hd,
          setLastRate_eq (by rw [limitedRates_durations]; exact hv.nodup)]
        refine Prod.ext ((List.map_congr_left fun r hr => if_neg fun heq => hvd ?_).trans (List.map_id _)).symm rfl
        rw [← limitedRates_durations voted previous done]
        exact List.mem_map.mpr ⟨r, hr, heq⟩
    rw [List.foldl_cons, hstep, ih (by rwa [← List.append_cons]), ← List.append_cons]

/-! ## The new rates -/

theorem mem_insertRate {rates : List CParkRate} {p r : CParkRate} : r ∈ insertRate rates p ↔ r = p ∨ r ∈ rates := by
  unfold insertRate
  rw [List.mem_append, List.mem_cons, or_left_comm, ← List.mem_append, List.takeWhile_append_dropWhile]

/-- Inserting the rate of another duration keeps the order. -/
theorem ByDuration.insertRate {rates : List CParkRate} (h : ByDuration rates) {p : CParkRate}
    (hp : p.nCompactDuration ∉ rates.map (·.nCompactDuration)) : ByDuration (insertRate rates p) := by
  induction rates with
  | nil => exact List.pairwise_singleton _ _
  | cons a rates ih =>
    obtain ⟨ha, hrates⟩ := List.pairwise_cons.mp h
    rw [List.map_cons, List.mem_cons, not_or] at hp
    by_cases hlt : a.nCompactDuration < p.nCompactDuration
    · have hcons : Morcochain.insertRate (a :: rates) p = a :: Morcochain.insertRate rates p := by
        unfold Morcochain.insertRate
        rw [List.takeWhile_cons_of_pos (by simpa using hlt), List.dropWhile_cons_of_pos (by simpa using hlt),
          List.cons_append]
      rw [hcons]
      refine List.pairwise_cons.mpr ⟨fun b hb => ?_, ih hrates hp.2⟩
      rcases mem_insertRate.mp hb with rfl | hb
      · exact hlt
      · exact ha b hb
    · have hcons : Morcochain.insertRate (a :: rates) p = p :: a :: rates := by
        unfold Morcochain.insertRate
        rw [List.takeWhile_cons_of_neg (by simpa using hlt), List.dropWhile_cons_of_neg (by simpa using hlt),
          List.nil_append]
      rw [hcons]
      have hpa : p.nCompactDuration < a.nCompactDuration := by omega
      refine List.pairwise_cons.mpr ⟨fun b hb => ?_, h⟩
      rcases List.mem_cons.mp hb with rfl | hb
      · exact hpa
      · exact Nat.lt_trans hpa (ha b hb)

/-- Inserting rates of other durations, no two of one duration. -/
theorem foldl_insertRate {new : List CParkRate} : ∀ {rates : List CParkRate}, ByDuration rates →
    (∀ p ∈ new, p.nCompactDuration ∉ rates.map (·.nCompactDuration)) → (new.map (·.nCompactDuration)).Nodup →
    ByDuration (new.foldl insertRate rates) ∧ ∀ r, r ∈ new.foldl insertRate rates ↔ r ∈ new ∨ r ∈ rates := by
  induction new with
  | nil => exact fun h _ _ => ⟨h, fun r => (or_iff_right List.not_mem_nil).symm⟩
  | cons p new ih =>
    intro rates h hother hnodup
    obtain ⟨hp, hnew⟩ := List.nodup_cons.mp hnodup
    have hrest : ∀ q ∈ new, q.nCompactDuration ∉ (insertRate rates p).map (·.nCompactDuration) := by
      intro q hq hqd
      obtain ⟨r, hr, heq⟩ := List.mem_map.mp hqd
      rcases mem_insertRate.mp hr with rfl | hr
      · exact hp (List.mem_map.mpr ⟨q, hq, heq.symm⟩)
      · exact hother q (List.mem_cons_of_mem _ hq) (List.mem_map.mpr ⟨r, hr, heq⟩)
    obtain ⟨hsorted, hmem⟩ := ih (h.insertRate (hother p List.mem_cons_self)) hrest hnew
    refine ⟨hsorted, fun r => ?_⟩
    rw [List.foldl_cons, hmem, mem_insertRate, List.mem_cons, or_left_comm, ← or_assoc]

/-! ## The limit as a whole -/

/-- Only the first result of the currency changes. -/
theorem onCurrency_append {f : List CParkRate → Check (List CParkRate)} {before after : List CParkRateVote}
    {rates : List CParkRate} (hbefore : ∀ r ∈ before, r.cUnit ≠ unitCurrency) {rates' : List CParkRate}
    (hf : f rates = .ok rates') :
    onCurrency f (before ++ { cUnit := unitCurrency, vParkRate := rates } :: after) =
      .ok (before ++ { cUnit := unitCurrency, vParkRate := rates' } :: after) := by
  induction before with
  | nil =>
    rw [List.nil_append, onCurrency, if_pos rfl]
    simp only [hf, ok_bind]
    rfl
  | cons r before ih =>
    rw [List.cons_append, onCurrency, if_neg (hbefore r List.mem_cons_self),
      ih fun r hr => hbefore r (List.mem_cons_of_mem _ hr)]
    rfl

/-- The durations of the loop. -/
def setCompactDuration (voted previous : List CParkRate) : List Nat := (rateMap (previous ++ voted)).entries.map (·.1)

theorem mem_setCompactDuration {d : Nat} : d ∈ setCompactDuration voted previous ↔
    d ∈ previous.map (·.nCompactDuration) ∨ d ∈ voted.map (·.nCompactDuration) := by
  unfold setCompactDuration
  rw [mem_durations, List.map_append, List.mem_append]

theorem setCompactDuration_nodup : (setCompactDuration voted previous).Nodup :=
  List.pairwise_map.mpr ((rateMap _).sorted.imp fun hlt => Nat.ne_of_lt hlt)

theorem mem_newRates {done : List Nat} {r : CParkRate} : r ∈ newRates voted previous done ↔
    r.nCompactDuration ∈ done ∧ r.nCompactDuration ∉ voted.map (·.nCompactDuration) ∧
      0 < limitedRate voted previous r.nCompactDuration ∧ r.nRate = limitedRate voted previous r.nCompactDuration := by
  unfold newRates
  simp only [List.mem_map (f := fun d => CParkRate.mk d _), List.mem_filter, decide_eq_true_eq]
  constructor
  · rintro ⟨d, ⟨hd, hnot, hpos⟩, rfl⟩
    exact ⟨hd, hnot, hpos, rfl⟩
  · rintro ⟨hd, hnot, hpos, hr⟩
    exact ⟨r.nCompactDuration, ⟨hd, hnot, hpos⟩, by rw [← hr]⟩

theorem newRates_nodup {done : List Nat} (h : done.Nodup) :
    ((newRates voted previous done).map (·.nCompactDuration)).Nodup := by
  have heq : (newRates voted previous done).map (·.nCompactDuration) =
      done.filter fun d => d ∉ voted.map (·.nCompactDuration) ∧ 0 < limitedRate voted previous d := by
    unfold newRates
    rw [List.map_map]
    exact List.map_id _
  rw [heq]
  exact h.filter _

theorem limitedRates_sorted (hv : ByDuration voted) (previous : List CParkRate) (done : List Nat) :
    ByDuration (limitedRates voted previous done) := by
  have hmap : (voted.map (·.nCompactDuration)).Pairwise (· < ·) := List.pairwise_map.mpr hv
  rw [← limitedRates_durations voted previous done] at hmap
  exact List.pairwise_map.mp hmap

/-- The limited rate of a duration that the loop does not meet is zero. -/
theorem limitedRate_of_not_mem {d : Nat} (hd : d ∉ setCompactDuration voted previous) :
    limitedRate voted previous d = 0 := by
  rw [mem_setCompactDuration, not_or] at hd
  have hinc := maxIncrease_nonneg d
  have hdec := maxDecrease_nonneg d
  rw [limitedRate, previousRate, rateAt_of_not_mem hd.1, rateAt_of_not_mem hd.2, clampedRate, toUInt32]
  omega

/-- **What the limit makes of the voted rates**: the voted rate of each duration, clamped around the previous rate as
the loop has it. -/
theorem limitParkRateChangeV2_0_eq (hv : ByDuration voted) (hp : ByDuration previous)
    (hvoted : ∀ d, 0 ≤ rateAt voted d) {before after : List CParkRateVote}
    (hbefore : ∀ r ∈ before, r.cUnit ≠ unitCurrency) :
    ∃ limited, limitParkRateChangeV2_0
        (before ++ { cUnit := unitCurrency, vParkRate := voted } :: after) previous =
          .ok (before ++ { cUnit := unitCurrency, vParkRate := limited } :: after) ∧
      ByDuration limited ∧ ∀ d, rateAt limited d = limitedRate voted previous d := by
  have hdone : limitedRates voted previous [] = voted := by
    unfold limitedRates
    simp
  have hloop := @foldl_limitRateV2_0 _ _ hv hp (setCompactDuration voted previous) [] setCompactDuration_nodup
  rw [hdone, List.nil_append] at hloop
  have hother : ∀ p ∈ newRates voted previous (setCompactDuration voted previous), p.nCompactDuration ∉
      (limitedRates voted previous (setCompactDuration voted previous)).map (·.nCompactDuration) := by
    intro p hp
    rw [limitedRates_durations]
    exact (mem_newRates.mp hp).2.1
  obtain ⟨hlimited, hmem⟩ := foldl_insertRate (limitedRates_sorted hv previous _) hother
    (newRates_nodup setCompactDuration_nodup)
  refine ⟨_, onCurrency_append hbefore (congrArg (fun st : List CParkRate × List CParkRate =>
    (Except.ok (st.2.foldl insertRate st.1) : Check (List CParkRate))) hloop), hlimited, fun d => ?_⟩
  have hentry : ∀ {r}, r = { nCompactDuration := d, nRate := limitedRate voted previous d } →
      r ∈ newRates voted previous (setCompactDuration voted previous) ∨
        r ∈ limitedRates voted previous (setCompactDuration voted previous) → _ := fun hr hin =>
    hr ▸ rateAt_of_mem hlimited.nodup ((hmem _).mpr hin)
  by_cases hvd : d ∈ voted.map (·.nCompactDuration)
  · obtain ⟨r, hr, hrd⟩ := List.mem_map.mp hvd
    refine hentry rfl (.inr (List.mem_map.mpr ⟨r, hr, ?_⟩))
    rw [if_pos (mem_setCompactDuration.mpr (.inr (hrd ▸ hvd))), hrd]
  · by_cases hpos : d ∈ setCompactDuration voted previous ∧ 0 < limitedRate voted previous d
    · exact hentry rfl (.inl (mem_newRates.mpr ⟨hpos.1, hvd, hpos.2, rfl⟩))
    · have hzero : limitedRate voted previous d = 0 := by
        by_cases hd : d ∈ setCompactDuration voted previous
        · exact Int.le_antisymm (Int.not_lt.mp fun h => hpos ⟨hd, h⟩)
            (clampedRate_nonneg (hvoted d) (previousRate_nonneg previous d))
        · exact limitedRate_of_not_mem hd
      rw [hzero]
      refine rateAt_of_not_mem fun hd => ?_
      obtain ⟨r, hr, rfl⟩ := List.mem_map.mp hd
      rcases (hmem r).mp hr with hnew | hold
      · have := (mem_newRates.mp hnew).2.2.1
        omega
      · have hd := List.mem_map_of_mem (f := fun r : CParkRate => r.nCompactDuration) hold
        rw [limitedRates_durations] at hd
        exact hvd hd

end Limit

/-- The limit takes the voted rates to rates within the band around the previous ones, in the order of their durations. -/
def LimitedAround (voted previous limited : List CParkRate) : Prop :=
  ByDuration limited ∧ ∀ nCompactDuration,
    rateAt limited nCompactDuration =
      clampedRate nCompactDuration (rateAt voted nCompactDuration) (rateAt previous nCompactDuration) ∧
    0 ≤ rateAt limited nCompactDuration

/-- **The limit is around the previous rates exactly when they are below 2^32**: the previous rates of the loop are
`unsigned int`, and the band of a duration is narrower than 2^32. -/
theorem limitParkRateChangeV2_0_iff (before after : List CParkRateVote) (voted previous : List CParkRate)
    (hbefore : ∀ r ∈ before, r.cUnit ≠ unitCurrency) (hv : ValidRates voted) (hp : ValidRates previous) :
    (∃ limited, limitParkRateChangeV2_0
        (before ++ { cUnit := unitCurrency, vParkRate := voted } :: after) previous =
          .ok (before ++ { cUnit := unitCurrency, vParkRate := limited } :: after) ∧
      LimitedAround voted previous limited) ↔ ∀ r ∈ previous, r.nRate < 2 ^ 32 := by
  obtain ⟨limited, hok, hsorted, hrate⟩ :=
    @limitParkRateChangeV2_0_eq _ _ hv.sorted hp.sorted (fun d => (hv.rateAt_range d).1) before after hbefore
  constructor
  · rintro ⟨limited', hok', -, haround⟩ r hr
    rw [hok] at hok'
    obtain rfl : limited = limited' := by
      have := List.append_cancel_left (Except.ok.inj hok')
      exact (CParkRateVote.mk.inj (List.cons.inj this).1).2
    have heq := ((hrate r.nCompactDuration).symm.trans (haround r.nCompactDuration).1)
    have hprev := rateAt_of_mem hp.sorted.nodup hr
    have hvalid := hp.valid r hr
    unfold CParkRate.isValid at hvalid
    have hband := band_lt _ (of_decide_eq_true hvalid).1
    refine Int.not_le.mp fun hle => clampedRate_ne ?_ heq
    rw [previousRate, hprev, toUInt32]
    omega
  · intro hlt
    refine ⟨limited, hok, hsorted, fun d => ?_⟩
    have hprev : previousRate previous d = rateAt previous d := by
      refine toUInt32_of_lt (hp.rateAt_range d).1 ?_
      by_cases hd : d ∈ previous.map (·.nCompactDuration)
      · obtain ⟨r, hr, rfl⟩ := List.mem_map.mp hd
        rw [rateAt_of_mem hp.sorted.nodup hr]
        exact hlt r hr
      · rw [rateAt_of_not_mem hd]
        decide
    rw [hrate, limitedRate, hprev]
    exact ⟨rfl, clampedRate_nonneg (hv.rateAt_range d).1 (hp.rateAt_range d).1⟩

theorem limitParkRateChangeV2_0_iff_sample :
    (∃ limited, limitParkRateChangeV2_0
        ([] ++ { cUnit := unitCurrency, vParkRate := [⟨15, 10⟩, ⟨18, 5000⟩] } :: []) [⟨15, 10000⟩, ⟨19, 70000⟩] =
          .ok ([] ++ { cUnit := unitCurrency, vParkRate := limited } :: []) ∧
      LimitedAround [⟨15, 10⟩, ⟨18, 5000⟩] [⟨15, 10000⟩, ⟨19, 70000⟩] limited) ↔
    ∀ r ∈ [(⟨15, 10000⟩ : CParkRate), ⟨19, 70000⟩], r.nRate < 2 ^ 32 :=
  limitParkRateChangeV2_0_iff [] [] _ _ (List.forall_mem_nil _) ⟨by decide, by decide +kernel⟩
    ⟨by decide, by decide +kernel⟩

/-- A rate that stays at 2^32 is taken down to the maximum increase from zero. -/
theorem limitParkRateChangeV2_0_truncates :
    ¬ ∃ limited, limitParkRateChangeV2_0 [{ cUnit := unitCurrency, vParkRate := [⟨15, 2 ^ 32⟩] }] [⟨15, 2 ^ 32⟩] =
        .ok [{ cUnit := unitCurrency, vParkRate := limited }] ∧
      LimitedAround [⟨15, 2 ^ 32⟩] [⟨15, 2 ^ 32⟩] limited := by
  rintro ⟨limited, hok, hlimited⟩
  have hcode : limitParkRateChangeV2_0 [{ cUnit := unitCurrency, vParkRate := [⟨15, 2 ^ 32⟩] }] [⟨15, 2 ^ 32⟩] =
      .ok [{ cUnit := unitCurrency, vParkRate := [⟨15, 1246⟩] }] := by decide +kernel
  rw [hcode] at hok
  cases hok
  exact absurd (hlimited.2 15).1 (by decide)

end Morcochain
