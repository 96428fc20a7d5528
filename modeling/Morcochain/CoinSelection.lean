import Morcochain.Vote
import Morcochain.Lib.Marks

/-!
# The selection of coins

`CWallet::SelectCoinsMinConf` and `ApproximateBestSubset` (`wallet.cpp`): among the outputs of the wallet that are deep
enough, coins are chosen that cover a target. Whatever is left to chance, or to the library, is a parameter of the
model.

* `approximateBestSubset_spec` : the search returns a subset and its sum, which reaches the target.
* `gather_spec` : how the coins are split by their values.
* `selectCoinsMinConf_law` : **what is selected**.
-/

set_option autoImplicit false

namespace Morcochain

open Marks

def int64Max : Int := 9223372036854775807

/-! ## Coins -/

/-- What the selection reads of a transaction of the wallet. It stands for the address of the transaction in memory. -/
structure CWalletTx where
  hash : Uint256
  vout : List CTxOut
  /-- `CWalletTx::IsFromMe` -/
  fFromMe : Bool := false
deriving DecidableEq, Repr

/-- An output of a transaction of the wallet. -/
abbrev WalletCoin := CWalletTx × Nat

/-- The value of the output. -/
def WalletCoin.nValue (coin : WalletCoin) : Int := (coin.1.vout[coin.2]?.map (·.nValue)).getD 0

/-- `COutput`. -/
structure COutput where
  tx : CWalletTx
  i : Nat
  nDepth : Int
deriving DecidableEq, Repr

/-- The output that is offered. -/
def COutput.coin (output : COutput) : WalletCoin := (output.tx, output.i)

/-- The output has enough confirmations. -/
def COutput.isConfirmed (nConfMine nConfTheirs : Int) (output : COutput) : Bool :=
  ¬ output.nDepth < if output.tx.fFromMe then nConfMine else nConfTheirs

/-- What a run of the selection does not determine: the shuffled order, the order of equal values in the sorted one, and
the random bits of the two searches, by their round and coin. -/
structure Choices where
  randomShuffle : List COutput → List COutput
  randomShuffle_perm : ∀ vCoins, (randomShuffle vCoins).Perm vCoins
  sort : List (Int × WalletCoin) → List (Int × WalletCoin)
  sort_perm : ∀ vValue, (sort vValue).Perm vValue
  sort_sorted : ∀ vValue, (sort vValue).Pairwise fun a b => b.1 ≤ a.1
  insecureRand : Bool → Nat → Nat → Bool

/-! ## The search for a subset -/

/-- The state of `ApproximateBestSubset`. -/
structure SubsetSearch where
  nTotal : Int
  vfIncluded : List Bool
  fReachedTarget : Bool
  vfBest : List Bool
  nBest : Int
deriving DecidableEq, Repr

section Search

variable (vValue : List (Int × WalletCoin)) (nTargetValue : Int)

/-- Include a coin; when the target is reached, note the subset if it is the best one, and leave the coin out again. -/
def includeCoin (i : Nat) (s : SubsetSearch) : SubsetSearch :=
  let nValue := (vValue[i]?.map (·.1)).getD 0
  let nTotal := toInt64 (s.nTotal + nValue)
  let vfIncluded := s.vfIncluded.set i true
  if nTargetValue ≤ nTotal then
    { nTotal := toInt64 (nTotal - nValue)
      vfIncluded := vfIncluded.set i false
      fReachedTarget := true
      vfBest := if nTotal < s.nBest then vfIncluded else s.vfBest
      nBest := if nTotal < s.nBest then nTotal else s.nBest }
  else { s with nTotal := nTotal, vfIncluded := vfIncluded }

/-- A pass over the first `n` coins. -/
def searchPass (fTake : SubsetSearch → Nat → Bool) : Nat → SubsetSearch → SubsetSearch
  | 0, s => s
  | i + 1, s =>
    let s := searchPass fTake i s
    if fTake s i then includeCoin vValue nTargetValue i s else s

/-- A round: coins are taken at random, and when these do not reach the target, the others too. -/
def searchRound (rand : Nat → Bool) (s : SubsetSearch) : SubsetSearch :=
  let s := { s with nTotal := 0, vfIncluded := List.replicate vValue.length false, fReachedTarget := false }
  let s := searchPass vValue nTargetValue (fun _ i => rand i) vValue.length s
  if s.fReachedTarget then s
  else searchPass vValue nTargetValue (fun s i => !s.vfIncluded.getD i false) vValue.length s

/-- The rounds from `nRep` on, until the sum is the target. -/
def searchRounds (rand : Nat → Nat → Bool) : Nat → Nat → SubsetSearch → SubsetSearch
  | 0, _, s => s
  | k + 1, nRep, s =>
    if s.nBest ≠ nTargetValue then searchRounds rand k (nRep + 1) (searchRound vValue nTargetValue (rand nRep) s) else s

/-- `ApproximateBestSubset`: the best subset and its sum. -/
def approximateBestSubset (nTotalLower : Int) (rand : Nat → Nat → Bool) (iterations : Nat) : List Bool × Int :=
  let s := searchRounds vValue nTargetValue rand iterations 0
    { nTotal := 0, vfIncluded := [], fReachedTarget := false, vfBest := List.replicate vValue.length true
      nBest := nTotalLower }
  (s.vfBest, s.nBest)

end Search

/-! ## What the search finds -/

/-- The sum of the values of coins. -/
def sumOf (coins : List (Int × WalletCoin)) : Int := (coins.map (·.1)).sum

@[simp] theorem sumOf_nil : sumOf [] = 0 := rfl

@[simp] theorem sumOf_cons (coin : Int × WalletCoin) (coins : List (Int × WalletCoin)) :
    sumOf (coin :: coins) = coin.1 + sumOf coins := List.sum_cons

theorem sumOf_append (coins coins' : List (Int × WalletCoin)) :
    sumOf (coins ++ coins') = sumOf coins + sumOf coins' := by
  unfold sumOf
  rw [List.map_append, List.sum_append]

theorem sumOf_perm {coins coins' : List (Int × WalletCoin)} (h : coins.Perm coins') : sumOf coins = sumOf coins' :=
  List.Perm.sum_eq (h.map fun coin => coin.1)

/-- Values that are not negative, with a sum that fits. -/
structure Summable (coins : List (Int × WalletCoin)) : Prop where
  nonneg : ∀ coin ∈ coins, 0 ≤ coin.1
  fits : sumOf coins ≤ int64Max

theorem sumOf_nonneg {coins : List (Int × WalletCoin)} (h : ∀ coin ∈ coins, 0 ≤ coin.1) : 0 ≤ sumOf coins := by
  refine List.sum_nonneg fun x hx => ?_
  obtain ⟨coin, hcoin, rfl⟩ := List.mem_map.mp hx
  exact h coin hcoin

/-- The values of some of the coins. -/
theorem Summable.sublist {coins coins' : List (Int × WalletCoin)} (h : Summable coins) (hsub : coins'.Sublist coins) :
    Summable coins' := by
  refine ⟨fun coin hcoin => h.nonneg coin (hsub.subset hcoin), ?_⟩
  have hle : sumOf coins' ≤ sumOf coins := (hsub.map (·.1)).sum_le_sum fun x hx => by
    obtain ⟨coin, hcoin, rfl⟩ := List.mem_map.mp hx
    exact h.nonneg coin hcoin
  exact hle.trans h.fits

/-- The sum of some of the coins is an `int64`. -/
theorem Summable.toInt64_sumOf {coins : List (Int × WalletCoin)} (h : Summable coins) :
    toInt64 (sumOf coins) = sumOf coins := by
  have hnonneg := sumOf_nonneg h.nonneg
  have hfits := h.fits
  unfold int64Max at hfits
  exact toInt64_eq hnonneg (by omega)

section Search

variable {vValue : List (Int × WalletCoin)} {nTargetValue : Int} {s : SubsetSearch} {i : Nat}

/-- What holds in the course of a search: the sums are those of the subsets, and the best one reaches the target. -/
structure Searching (vValue : List (Int × WalletCoin)) (nTargetValue : Int) (s : SubsetSearch) : Prop where
  included : s.nTotal = sumOf (marked s.vfIncluded vValue)
  length : s.vfIncluded.length = vValue.length
  best : s.nBest = sumOf (marked s.vfBest vValue)
  reaches : nTargetValue ≤ s.nBest

/-- **A coin that was not included** is included or left out. -/
theorem Searching.includeCoin (h : Searching vValue nTargetValue s) (hv : Summable vValue)
    (hout : s.vfIncluded[i]? = some false) : Searching vValue nTargetValue (includeCoin vValue nTargetValue i s) ∧
      ∀ j, j ≠ i → (Morcochain.includeCoin vValue nTargetValue i s).vfIncluded[j]? = s.vfIncluded[j]? := by
  obtain ⟨hi, hmark⟩ := List.getElem?_eq_some_iff.mp hout
  obtain ⟨coin, hcoin⟩ : ∃ coin, vValue[i]? = some coin := ⟨_, List.getElem?_eq_getElem (h.length ▸ hi)⟩
  have hsum : s.nTotal + coin.1 = sumOf (marked (s.vfIncluded.set i true) vValue) := by
    unfold sumOf
    rw [sum_marked_set (·.1) hout hcoin, h.included]
    rfl
  have hnow := (hv.sublist (marked_sublist (s.vfIncluded.set i true) vValue)).toInt64_sumOf
  have hback := (hv.sublist (marked_sublist s.vfIncluded vValue)).toInt64_sumOf
  have hundo : (s.vfIncluded.set i true).set i false = s.vfIncluded := by
    rw [List.set_set, ← hmark, List.set_getElem_self]
  unfold Morcochain.includeCoin
  rw [hcoin, Option.map_some, Option.getD_some]
  dsimp only
  rw [hsum, hnow]
  split
  · rename_i hreached
    constructor
    · refine ⟨?_, ?_, ?_, ?_⟩
      · dsimp only
        rw [hundo, ← hsum, Int.add_sub_cancel, h.included, hback]
      · dsimp only
        rw [hundo]
        exact h.length
      · dsimp only
        split
        · rfl
        · exact h.best
      · dsimp only
        split
        · exact hreached
        · exact h.reaches
    · intro j _
      dsimp only
      rw [hundo]
  · constructor
    · exact ⟨rfl, by dsimp only; rw [List.length_set]; exact h.length, h.best, h.reaches⟩
    · intro j hj
      dsimp only
      rw [List.getElem?_set_ne (Ne.symm hj)]

/-- What each step of a pass keeps. -/
theorem searchPass_inv {fTake : SubsetSearch → Nat → Bool} {Inv : Nat → SubsetSearch → Prop} : ∀ {n : Nat},
    (∀ i < n, ∀ s, Inv i s → Inv (i + 1) (if fTake s i then includeCoin vValue nTargetValue i s else s)) → Inv 0 s →
    Inv n (searchPass vValue nTargetValue fTake n s)
  | 0, _, h => h
  | n + 1, hstep, h =>
    hstep n (Nat.lt_succ_self n) _ (searchPass_inv (fun i hi => hstep i (Nat.lt_succ_of_lt hi)) h)

/-- **A round keeps the best subset in order.** In the first pass each coin is included once at most, since the pass
goes over them once; in the second one only coins are taken that are not included. -/
theorem Searching.searchRound (hv : Summable vValue) (rand : Nat → Bool)
    (hbest : s.nBest = sumOf (marked s.vfBest vValue))
    (hreaches : nTargetValue ≤ s.nBest) : Searching vValue nTargetValue (searchRound vValue nTargetValue rand s) := by
  have hstart : Searching vValue nTargetValue
      { s with nTotal := 0, vfIncluded := List.replicate vValue.length false, fReachedTarget := false } := by
    refine ⟨?_, List.length_replicate, hbest, hreaches⟩
    dsimp only
    rw [marked_replicate_false]
    rfl
  have hfirst := @searchPass_inv vValue nTargetValue _ (fun _ i => rand i)
    (fun i s => Searching vValue nTargetValue s ∧ ∀ j, i ≤ j → j < vValue.length → s.vfIncluded[j]? = some false)
    vValue.length
    (by
      rintro i hi s ⟨hs, hout⟩
      split
      · obtain ⟨hs', hkeep⟩ := hs.includeCoin hv (hout i le_rfl hi)
        exact ⟨hs', fun j hij hj => by rw [hkeep j (by omega)]; exact hout j (by omega) hj⟩
      · exact ⟨hs, fun j hij hj => hout j (by omega) hj⟩)
    ⟨hstart, fun j _ hj => by
      dsimp only
      rw [List.getElem?_replicate, if_pos hj]⟩
  unfold Morcochain.searchRound
  dsimp only
  split
  · exact hfirst.1
  · refine @searchPass_inv vValue nTargetValue _ _ (fun _ s => Searching vValue nTargetValue s) vValue.length ?_ hfirst.1
    intro i hi s hs
    split
    · rename_i hout
      have hlt : i < s.vfIncluded.length := hs.length ▸ hi
      rw [List.getD_eq_getElem?_getD, List.getElem?_eq_getElem hlt, Option.getD_some, Bool.not_eq_true'] at hout
      exact (hs.includeCoin hv (by rw [List.getElem?_eq_getElem hlt, hout])).1
    · exact hs

/-- **The search returns a subset and its sum**, which reaches the target. -/
theorem approximateBestSubset_spec (hv : Summable vValue) (htarget : nTargetValue ≤ sumOf vValue)
    (rand : Nat → Nat → Bool) (iterations : Nat) :
    (approximateBestSubset vValue nTargetValue (sumOf vValue) rand iterations).2 =
        sumOf (marked (approximateBestSubset vValue nTargetValue (sumOf vValue) rand iterations).1 vValue) ∧
      nTargetValue ≤ (approximateBestSubset vValue nTargetValue (sumOf vValue) rand iterations).2 := by
  have hrounds : ∀ (k nRep : Nat) (s : SubsetSearch), s.nBest = sumOf (marked s.vfBest vValue) →
    nTargetValue ≤ s.nBest →
      (searchRounds vValue nTargetValue rand k nRep s).nBest =
          sumOf (marked (searchRounds vValue nTargetValue rand k nRep s).vfBest vValue) ∧
        nTargetValue ≤ (searchRounds vValue nTargetValue rand k nRep s).nBest := by
    intro k
    induction k with
    | zero => exact fun nRep s hbest hreaches => ⟨hbest, hreaches⟩
    | succ k ih =>
      intro nRep s hbest hreaches
      unfold searchRounds
      split
      · have hround := Searching.searchRound hv (rand nRep) hbest hreaches
        exact ih (nRep + 1) _ hround.best hround.reaches
      · exact ⟨hbest, hreaches⟩
  refine hrounds iterations 0 _ ?_ htarget
  dsimp only
  rw [marked_replicate_true]

end Search

/-! ## The selection -/

/-- How the coins are split: the lowest one above the target and a cent, and the others with their sum. -/
structure Gathered where
  coinLowestLarger : Int × Option WalletCoin := (int64Max, none)
  vValue : List (Int × WalletCoin) := []
  nTotalLower : Int := 0

/-- The loop of `SelectCoinsMinConf` over the outputs. A coin with the target as its value ends it. -/
def gather (nTargetValue nConfMine nConfTheirs : Int) : List COutput → Gathered → Except (Int × WalletCoin) Gathered
  | [], g => .ok g
  | output :: vCoins, g =>
    let n := output.coin.nValue
    if !output.isConfirmed nConfMine nConfTheirs then gather nTargetValue nConfMine nConfTheirs vCoins g
    else if n = nTargetValue then .error (n, output.coin)
    else if n < toInt64 (nTargetValue + cent) then
      gather nTargetValue nConfMine nConfTheirs vCoins
        { g with vValue := g.vValue ++ [(n, output.coin)], nTotalLower := toInt64 (g.nTotalLower + n) }
    else if n < g.coinLowestLarger.1 then
      gather nTargetValue nConfMine nConfTheirs vCoins { g with coinLowestLarger := (n, some output.coin) }
    else gather nTargetValue nConfMine nConfTheirs vCoins g

/-- The coins that are returned, and their value. -/
structure Selection where
  setCoinsRet : List WalletCoin := []
  nValueRet : Int := 0
deriving DecidableEq, Repr

/-- Put a coin into the set, and add its value. -/
def Selection.add (s : Selection) (coin : Int × WalletCoin) : Selection :=
  { setCoinsRet := s.setCoinsRet.insert coin.2, nValueRet := toInt64 (s.nValueRet + coin.1) }

/-- Put several coins into an empty set. -/
def Selection.ofCoins (coins : List (Int × WalletCoin)) : Selection := coins.foldl Selection.add {}

/-- The subset that is searched for, with its sum: a first search for the target, and when it is not met, one for a cent
more. -/
def Gathered.bestSubset (choices : Choices) (nTargetValue nTotalLower : Int) (vValue : List (Int × WalletCoin)) :
    List Bool × Int :=
  let best := approximateBestSubset vValue nTargetValue nTotalLower (choices.insecureRand false) 1000
  if best.2 ≠ nTargetValue ∧ toInt64 (nTargetValue + cent) ≤ nTotalLower then
    approximateBestSubset vValue (toInt64 (nTargetValue + cent)) nTotalLower (choices.insecureRand true) 1000
  else best

/-- The selection from coins none of which has the target as its value. -/
def Gathered.select (choices : Choices) (nTargetValue : Int) (g : Gathered) : Bool × Selection :=
  if g.nTotalLower = nTargetValue then (true, .ofCoins g.vValue)
  else if g.nTotalLower < nTargetValue then
    match g.coinLowestLarger.2 with
    | none => (false, {})
    | some coin => (true, .ofCoins [(g.coinLowestLarger.1, coin)])
  else
    let vValue := choices.sort g.vValue
    let (vfBest, nBest) := Gathered.bestSubset choices nTargetValue g.nTotalLower vValue
    match g.coinLowestLarger.2 with
    | none => (true, .ofCoins (marked vfBest vValue))
    | some coin =>
      if (nBest ≠ nTargetValue ∧ nBest < toInt64 (nTargetValue + cent)) ∨ g.coinLowestLarger.1 ≤ nBest then
        (true, .ofCoins [(g.coinLowestLarger.1, coin)])
      else (true, .ofCoins (marked vfBest vValue))

/-- `CWallet::SelectCoinsMinConf`: whether it succeeds, and what it returns. -/
def selectCoinsMinConf (choices : Choices) (nTargetValue nConfMine nConfTheirs : Int) (vCoins : List COutput) :
    Bool × Selection :=
  match gather nTargetValue nConfMine nConfTheirs (choices.randomShuffle vCoins) {} with
  | .error coin => (true, .ofCoins [coin])
  | .ok g => g.select choices nTargetValue

/-! ## What is selected -/

/-- The outputs with their values. -/
def offeredCoins (vCoins : List COutput) : List (Int × WalletCoin) :=
  vCoins.map fun output => (output.coin.nValue, output.coin)

/-- The outputs with enough confirmations. -/
def eligible (nConfMine nConfTheirs : Int) (vCoins : List COutput) : List (Int × WalletCoin) :=
  offeredCoins (vCoins.filter (·.isConfirmed nConfMine nConfTheirs))

/-- What is asked of the outputs: they are distinct, and their values are not negative and have a sum that fits. -/
structure Selectable (nTargetValue : Int) (vCoins : List COutput) : Prop where
  nonnegTarget : 0 ≤ nTargetValue
  fitsTarget : nTargetValue + cent ≤ int64Max
  distinct : (vCoins.map (·.coin)).Nodup
  nonneg : ∀ output ∈ vCoins, 0 ≤ output.coin.nValue
  fits : (vCoins.map (·.coin.nValue)).sum ≤ int64Max

/-- A selection of distinct coins for a target, with their exact value, which reaches it. -/
structure CoinsSelected (nTargetValue : Int) (s : Selection) : Prop where
  once : s.setCoinsRet.Nodup
  value : s.nValueRet = (s.setCoinsRet.map (·.nValue)).sum
  reaches : nTargetValue ≤ s.nValueRet
  /-- The value is an `int64`. -/
  fits : s.nValueRet ≤ int64Max

/-- A selection of eligible coins. -/
structure Selects (nTargetValue : Int) (coins : List (Int × WalletCoin)) (s : Selection) : Prop
    extends CoinsSelected nTargetValue s where
  sound : ∀ coin ∈ s.setCoinsRet, coin ∈ coins.map (·.2)

/-- The selection law: success when the eligible outputs reach the target, and then a good set. -/
structure SelectionLaw (choices : Choices) (nTargetValue nConfMine nConfTheirs : Int) (vCoins : List COutput) :
    Prop where
  succeeds : (selectCoinsMinConf choices nTargetValue nConfMine nConfTheirs vCoins).1 = true ↔
    nTargetValue ≤ sumOf (eligible nConfMine nConfTheirs vCoins)
  selects : (selectCoinsMinConf choices nTargetValue nConfMine nConfTheirs vCoins).1 = true →
    Selects nTargetValue (eligible nConfMine nConfTheirs vCoins)
      (selectCoinsMinConf choices nTargetValue nConfMine nConfTheirs vCoins).2

section Selection

variable {nTargetValue nConfMine nConfTheirs : Int} {vCoins : List COutput} {coins coins' done : List (Int × WalletCoin)}
  {g : Gathered}

/-- **Putting coins into the set.** -/
theorem foldl_add : ∀ {coins : List (Int × WalletCoin)} {s : Selection}, (coins.map (·.2)).Nodup →
    (∀ coin ∈ coins, coin.2 ∉ s.setCoinsRet) → (∀ coin ∈ coins, 0 ≤ coin.1) → 0 ≤ s.nValueRet →
    s.nValueRet + sumOf coins ≤ int64Max → coins.foldl Selection.add s =
      { setCoinsRet := (coins.map (·.2)).reverse ++ s.setCoinsRet, nValueRet := s.nValueRet + sumOf coins }
  | [], s, _, _, _, _, _ => by simp
  | coin :: coins, s, hnodup, hnew, hnonneg, hpos, hfits => by
    obtain ⟨hfirst, hnodup⟩ := List.nodup_cons.mp (List.map_cons ▸ hnodup)
    obtain ⟨hout, hnew⟩ := List.forall_mem_cons.mp hnew
    obtain ⟨hcoin, hnonneg⟩ := List.forall_mem_cons.mp hnonneg
    have hrest := sumOf_nonneg hnonneg
    rw [sumOf_cons] at hfits
    have hvalue : toInt64 (s.nValueRet + coin.1) = s.nValueRet + coin.1 := by
      unfold int64Max at hfits
      exact toInt64_eq (by omega) (by omega)
    have hadd : s.add coin = { setCoinsRet := coin.2 :: s.setCoinsRet, nValueRet := s.nValueRet + coin.1 } := by
      unfold Selection.add
      rw [hvalue, List.insert_of_not_mem hout]
    rw [List.foldl_cons, hadd, foldl_add hnodup ?_ hnonneg (by dsimp only; omega) (by dsimp only; omega)]
    · simp only [List.map_cons, List.reverse_cons, List.append_assoc, List.singleton_append, sumOf_cons, Int.add_assoc]
    · intro c hc hmem
      rcases List.mem_cons.mp hmem with heq | hmem
      · exact hfirst (heq ▸ List.mem_map_of_mem hc)
      · exact hnew c hc hmem

/-- The eligible coins are some of those that are offered. -/
theorem eligible_sublist (nConfMine nConfTheirs : Int) (vCoins : List COutput) :
    (eligible nConfMine nConfTheirs vCoins).Sublist (offeredCoins vCoins) := List.filter_sublist.map _

/-- A cent more than the target is an `int64`. -/
theorem Selectable.toInt64_cent (h : Selectable nTargetValue vCoins) :
    toInt64 (nTargetValue + cent) = nTargetValue + cent := by
  have hpos := h.nonnegTarget
  have hfits := h.fitsTarget
  unfold int64Max at hfits
  unfold cent at hfits ⊢
  exact toInt64_eq (by omega) (by omega)

theorem Selectable.summable_offered (h : Selectable nTargetValue vCoins) : Summable (offeredCoins vCoins) := by
  refine ⟨fun coin hcoin => ?_, ?_⟩
  · obtain ⟨output, houtput, rfl⟩ := List.mem_map.mp hcoin
    exact h.nonneg output houtput
  · unfold sumOf offeredCoins
    rw [List.map_map]
    exact h.fits

theorem Selectable.summable (h : Selectable nTargetValue vCoins) (nConfMine nConfTheirs : Int) :
    Summable (eligible nConfMine nConfTheirs vCoins) := h.summable_offered.sublist (eligible_sublist ..)

/-- **Some of the coins that are offered**, put into the set. -/
theorem Selectable.ofCoins (h : Selectable nTargetValue vCoins) (hsub : coins.Subperm (offeredCoins vCoins)) :
    CoinsSelected (sumOf coins) (.ofCoins coins) ∧ (Selection.ofCoins coins).nValueRet = sumOf coins ∧
      ∀ coin ∈ (Selection.ofCoins coins).setCoinsRet, coin ∈ coins.map (·.2) := by
  obtain ⟨coins', hperm, hsublist⟩ := id hsub
  have hsum := h.summable_offered.sublist hsublist
  have hdistinct : ((offeredCoins vCoins).map (·.2)).Nodup := by
    unfold offeredCoins
    rw [List.map_map]
    exact h.distinct
  have hnodup : (coins.map (·.2)).Nodup := (hperm.map (·.2)).nodup_iff.mp (hdistinct.sublist (hsublist.map (·.2)))
  have hfits : sumOf coins ≤ int64Max := sumOf_perm hperm ▸ hsum.fits
  have hset : Selection.ofCoins coins = { setCoinsRet := (coins.map (·.2)).reverse, nValueRet := sumOf coins } := by
    have hfold := foldl_add (s := {}) hnodup (fun _ _ => List.not_mem_nil)
      (fun coin hcoin => hsum.nonneg coin (hperm.mem_iff.mpr hcoin)) le_rfl (by rwa [Int.zero_add])
    rwa [List.append_nil, Int.zero_add] at hfold
  rw [hset]
  refine ⟨⟨(List.reverse_perm _).nodup_iff.mpr hnodup, ?_, le_rfl, hfits⟩, rfl,
    fun coin hcoin => List.mem_reverse.mp hcoin⟩
  dsimp only
  rw [List.map_reverse, List.sum_reverse, List.map_map]
  unfold sumOf
  refine congrArg List.sum (List.map_congr_left fun coin hcoin => ?_)
  obtain ⟨output, -, rfl⟩ := List.mem_map.mp (hsub.subset hcoin)
  rfl

/-- **Some of the eligible coins**, put into the set. -/
theorem Selectable.selects (h : Selectable nTargetValue vCoins)
    (hsub : coins.Subperm (eligible nConfMine nConfTheirs vCoins)) (hreaches : nTargetValue ≤ sumOf coins) :
    Selects nTargetValue (eligible nConfMine nConfTheirs vCoins) (.ofCoins coins) := by
  obtain ⟨hs, hvalue, hmem⟩ := h.ofCoins (hsub.trans (eligible_sublist ..).subperm)
  refine ⟨⟨hs.once, hs.value, hvalue ▸ hreaches, hs.fits⟩, fun coin hcoin => ?_⟩
  obtain ⟨c, hc, rfl⟩ := List.mem_map.mp (hmem coin hcoin)
  exact List.mem_map_of_mem (hsub.subset hc)

/-- How the coins are split that the loop has gone over. -/
structure Gathering (nTargetValue : Int) (done : List (Int × WalletCoin)) (g : Gathered) : Prop where
  lower : g.vValue = done.filter (·.1 < nTargetValue + cent)
  sum : g.nTotalLower = sumOf g.vValue
  none_larger : g.coinLowestLarger.2 = none →
    g.coinLowestLarger.1 = int64Max ∧ ∀ coin ∈ done, coin.1 < nTargetValue + cent
  larger : ∀ coin, g.coinLowestLarger.2 = some coin →
    (g.coinLowestLarger.1, coin) ∈ done ∧ nTargetValue + cent ≤ g.coinLowestLarger.1

theorem Gathering.empty (nTargetValue : Int) : Gathering nTargetValue [] {} :=
  ⟨rfl, rfl, fun _ => ⟨rfl, List.forall_mem_nil _⟩, fun _ h => nomatch h⟩

/-- **One more coin.** -/
theorem Gathering.step {n : Int} {coin : WalletCoin} (h : Gathering nTargetValue done g)
    (hsum : Summable (done ++ [(n, coin)])) (hbelow : n < int64Max) :
    (n < nTargetValue + cent → Gathering nTargetValue (done ++ [(n, coin)])
      { g with vValue := g.vValue ++ [(n, coin)], nTotalLower := toInt64 (g.nTotalLower + n) }) ∧
    (nTargetValue + cent ≤ n → n < g.coinLowestLarger.1 →
      Gathering nTargetValue (done ++ [(n, coin)]) { g with coinLowestLarger := (n, some coin) }) ∧
    (nTargetValue + cent ≤ n → g.coinLowestLarger.1 ≤ n → Gathering nTargetValue (done ++ [(n, coin)]) g) := by
  refine ⟨fun hlow => ?_, fun hhigh hless => ?_, fun hhigh hmore => ?_⟩
  · have hlower : g.vValue ++ [(n, coin)] = (done ++ [(n, coin)]).filter (·.1 < nTargetValue + cent) := by
      have hone : [(n, coin)].filter (·.1 < nTargetValue + cent) = [(n, coin)] := by simpa using hlow
      rw [List.filter_append, ← h.lower, hone]
    refine ⟨hlower, ?_, fun hnone => ?_, fun c hc => ?_⟩
    · dsimp only
      have hall := (hsum.sublist (hlower ▸ List.filter_sublist)).toInt64_sumOf
      rw [sumOf_append, sumOf_cons, sumOf_nil, Int.add_zero] at hall ⊢
      rw [h.sum, hall]
    · obtain ⟨hmax, hall⟩ := h.none_larger hnone
      exact ⟨hmax, List.forall_mem_append.mpr ⟨hall, List.forall_mem_singleton.mpr hlow⟩⟩
    · exact ⟨List.mem_append_left _ (h.larger c hc).1, (h.larger c hc).2⟩
  · have hlower : g.vValue = (done ++ [(n, coin)]).filter (·.1 < nTargetValue + cent) := by
      rw [List.filter_append, ← h.lower, List.filter_cons_of_neg (by simpa using hhigh), List.filter_nil,
        List.append_nil]
    refine ⟨hlower, h.sum, fun hnone => (nomatch hnone), fun c hc => ?_⟩
    cases hc
    exact ⟨List.mem_append_right _ List.mem_cons_self, hhigh⟩
  · have hlower : g.vValue = (done ++ [(n, coin)]).filter (·.1 < nTargetValue + cent) := by
      rw [List.filter_append, ← h.lower, List.filter_cons_of_neg (by simpa using hhigh), List.filter_nil,
        List.append_nil]
    refine ⟨hlower, h.sum, fun hnone => ?_, fun c hc => ?_⟩
    · rw [(h.none_larger hnone).1] at hmore
      omega
    · exact ⟨List.mem_append_left _ (h.larger c hc).1, (h.larger c hc).2⟩

/-- **How the loop splits the coins**, unless it meets one with the target as its value. -/
theorem gather_spec (htarget : toInt64 (nTargetValue + cent) = nTargetValue + cent) : ∀ {vCoins : List COutput}
    {done : List (Int × WalletCoin)} {g : Gathered}, Gathering nTargetValue done g →
    Summable (done ++ eligible nConfMine nConfTheirs vCoins) → (∀ output ∈ vCoins, output.coin.nValue < int64Max) →
    (∃ coin ∈ eligible nConfMine nConfTheirs vCoins, coin.1 = nTargetValue ∧
      gather nTargetValue nConfMine nConfTheirs vCoins g = .error coin) ∨
    ∃ g', gather nTargetValue nConfMine nConfTheirs vCoins g = .ok g' ∧
      Gathering nTargetValue (done ++ eligible nConfMine nConfTheirs vCoins) g'
  | [], done, g, h, _, _ =>
    .inr ⟨g, rfl, by unfold eligible offeredCoins; rwa [List.filter_nil, List.map_nil, List.append_nil]⟩
  | output :: vCoins, done, g, h, hsum, hbelow => by
    obtain ⟨hnow, hbelow⟩ := List.forall_mem_cons.mp hbelow
    unfold gather
    dsimp only
    by_cases hconf : output.isConfirmed nConfMine nConfTheirs = true
    · have heligible : eligible nConfMine nConfTheirs (output :: vCoins) =
          (output.coin.nValue, output.coin) :: eligible nConfMine nConfTheirs vCoins := by
        unfold eligible offeredCoins
        rw [List.filter_cons_of_pos hconf, List.map_cons]
      have happend : done ++ (output.coin.nValue, output.coin) :: eligible nConfMine nConfTheirs vCoins =
          done ++ [(output.coin.nValue, output.coin)] ++ eligible nConfMine nConfTheirs vCoins := List.append_cons ..
      rw [heligible, happend] at hsum ⊢
      rw [if_neg (by rw [hconf]; exact Bool.false_ne_true)]
      by_cases hexact : output.coin.nValue = nTargetValue
      · rw [if_pos hexact]
        exact .inl ⟨_, List.mem_cons_self, hexact, rfl⟩
      · obtain ⟨hlow, hless, hmore⟩ := h.step (hsum.sublist (List.sublist_append_left _ _)) hnow
        have hlater : ∀ {g : Gathered}, Gathering nTargetValue (done ++ [(output.coin.nValue, output.coin)]) g →
            (∃ coin ∈ (output.coin.nValue, output.coin) :: eligible nConfMine nConfTheirs vCoins,
              coin.1 = nTargetValue ∧ gather nTargetValue nConfMine nConfTheirs vCoins g = .error coin) ∨
            ∃ g', gather nTargetValue nConfMine nConfTheirs vCoins g = .ok g' ∧ Gathering nTargetValue
              (done ++ [(output.coin.nValue, output.coin)] ++ eligible nConfMine nConfTheirs vCoins) g' := fun hg =>
          (gather_spec htarget hg hsum hbelow).imp_left fun ⟨coin, hcoin, h⟩ => ⟨coin, List.mem_cons_of_mem _ hcoin, h⟩
        rw [if_neg hexact, htarget]
        split
        · rename_i hlt
          exact hlater (hlow hlt)
        · rename_i hge
          split
          · rename_i hlt
            exact hlater (hless (not_lt.mp hge) hlt)
          · rename_i hge'
            exact hlater (hmore (not_lt.mp hge) (not_lt.mp hge'))
    · have heligible : eligible nConfMine nConfTheirs (output :: vCoins) = eligible nConfMine nConfTheirs vCoins := by
        unfold eligible
        rw [List.filter_cons_of_neg hconf]
      rw [heligible] at hsum ⊢
      rw [if_pos (by simpa using hconf)]
      exact gather_spec htarget h hsum hbelow

/-- A coin reaches the target when the eligible coins do, in case there is none below. -/
theorem le_sumOf_of_mem {coin : Int × WalletCoin} (h : Summable coins) (hcoin : coin ∈ coins) : coin.1 ≤ sumOf coins :=
  List.single_le_sum (fun x hx => by
    obtain ⟨c, hc, rfl⟩ := List.mem_map.mp hx
    exact h.nonneg c hc) _ (List.mem_map_of_mem hcoin)

/-- **The subset that is searched for** reaches the target, and comes with its sum. -/
theorem bestSubset_spec (choices : Choices) (h : Summable coins)
    (hcent : toInt64 (nTargetValue + cent) = nTargetValue + cent)
    (htarget : nTargetValue ≤ sumOf coins) :
    nTargetValue ≤ sumOf (marked (Gathered.bestSubset choices nTargetValue (sumOf coins) coins).1 coins) := by
  unfold Gathered.bestSubset
  dsimp only
  split
  · rename_i hmore
    rw [hcent] at hmore ⊢
    obtain ⟨hbest, hle⟩ := approximateBestSubset_spec h hmore.2 (choices.insecureRand true) 1000
    unfold cent at hle hbest ⊢
    omega
  · obtain ⟨hbest, hle⟩ := approximateBestSubset_spec h htarget (choices.insecureRand false) 1000
    omega

/-- **The selection from coins that are split.** -/
theorem Gathering.select (h : Selectable nTargetValue vCoins) (choices : Choices) {vCoins' : List COutput}
    (hperm : vCoins'.Perm vCoins) (hg : Gathering nTargetValue (eligible nConfMine nConfTheirs vCoins') g) :
    ((g.select choices nTargetValue).1 = true ↔ nTargetValue ≤ sumOf (eligible nConfMine nConfTheirs vCoins)) ∧
      ((g.select choices nTargetValue).1 = true →
        Selects nTargetValue (eligible nConfMine nConfTheirs vCoins) (g.select choices nTargetValue).2) := by
  have hcent := h.toInt64_cent
  have heligible : (eligible nConfMine nConfTheirs vCoins').Perm (eligible nConfMine nConfTheirs vCoins) :=
    (hperm.filter _).map _
  have hsum := h.summable nConfMine nConfTheirs
  have hlower : g.vValue.Subperm (eligible nConfMine nConfTheirs vCoins) :=
    (hg.lower ▸ List.filter_sublist).subperm.trans heligible.subperm
  have hlowerSum : Summable g.vValue := by
    obtain ⟨l, hl, hsub⟩ := id hlower
    have hs := hsum.sublist hsub
    exact ⟨fun coin hcoin => hs.nonneg coin (hl.mem_iff.mpr hcoin), sumOf_perm hl ▸ hs.fits⟩
  have hlowerLe : sumOf g.vValue ≤ sumOf (eligible nConfMine nConfTheirs vCoins) := by
    obtain ⟨l, hl, hsub⟩ := id hlower
    rw [← sumOf_perm hl]
    refine (hsub.map (·.1)).sum_le_sum fun x hx => ?_
    obtain ⟨c, hc, rfl⟩ := List.mem_map.mp hx
    exact hsum.nonneg c hc
  have hlarger : ∀ coin, g.coinLowestLarger.2 = some coin →
      nTargetValue ≤ sumOf (eligible nConfMine nConfTheirs vCoins) ∧ Selects nTargetValue
        (eligible nConfMine nConfTheirs vCoins) (.ofCoins [(g.coinLowestLarger.1, coin)]) := fun coin hcoin => by
    obtain ⟨hmem, hge⟩ := hg.larger coin hcoin
    have hmem' := heligible.mem_iff.mp hmem
    have hle := le_sumOf_of_mem hsum hmem'
    unfold cent at hge
    refine ⟨by dsimp only at hle; omega, h.selects (List.singleton_subperm_iff.mpr hmem') ?_⟩
    rw [sumOf_cons, sumOf_nil]
    omega
  have hsubset : ∀ {marks : List Bool}, nTargetValue ≤ sumOf (marked marks (choices.sort g.vValue)) →
      Selects nTargetValue (eligible nConfMine nConfTheirs vCoins) (.ofCoins (marked marks (choices.sort g.vValue))) :=
    fun hreaches => h.selects
      (((marked_sublist _ _).subperm.trans (choices.sort_perm _).subperm).trans hlower) hreaches
  unfold Gathered.select
  by_cases hexact : g.nTotalLower = nTargetValue
  · rw [if_pos hexact]
    rw [hg.sum] at hexact
    exact ⟨iff_of_true rfl (by omega), fun _ => h.selects hlower (by omega)⟩
  rw [if_neg hexact]
  by_cases hless : g.nTotalLower < nTargetValue
  · rw [if_pos hless]
    cases hcoin : g.coinLowestLarger.2 with
    | none =>
      have hall : g.vValue = eligible nConfMine nConfTheirs vCoins' := by
        rw [hg.lower]
        exact List.filter_eq_self.mpr fun coin hc => decide_eq_true ((hg.none_larger hcoin).2 coin hc)
      rw [hg.sum, hall, sumOf_perm heligible] at hless
      exact ⟨iff_of_false Bool.false_ne_true (by omega), fun h => nomatch h⟩
    | some coin => exact ⟨iff_of_true rfl (hlarger coin hcoin).1, fun _ => (hlarger coin hcoin).2⟩
  · rw [if_neg hless]
    rw [hg.sum] at hless hexact ⊢
    have hsorted : Summable (choices.sort g.vValue) :=
      ⟨fun coin hc => hlowerSum.nonneg coin ((choices.sort_perm _).mem_iff.mp hc),
        (sumOf_perm (choices.sort_perm _)).trans_le hlowerSum.fits⟩
    have hbest := bestSubset_spec choices hsorted hcent (by rw [sumOf_perm (choices.sort_perm _)]; omega)
    rw [sumOf_perm (choices.sort_perm _)] at hbest
    dsimp only
    cases hcoin : g.coinLowestLarger.2 with
    | none => exact ⟨iff_of_true rfl (by omega), fun _ => hsubset hbest⟩
    | some coin =>
      dsimp only
      split
      · exact ⟨iff_of_true rfl (hlarger coin hcoin).1, fun _ => (hlarger coin hcoin).2⟩
      · exact ⟨iff_of_true rfl (by omega), fun _ => hsubset hbest⟩

/-- **The selection succeeds** when the eligible coins reach the target, and then returns some of them. -/
theorem selectCoinsMinConf_spec (choices : Choices) (h : Selectable nTargetValue vCoins)
    (hbelow : ∀ output ∈ vCoins, output.coin.nValue < int64Max) (nConfMine nConfTheirs : Int) :
    ((selectCoinsMinConf choices nTargetValue nConfMine nConfTheirs vCoins).1 = true ↔
      nTargetValue ≤ sumOf (eligible nConfMine nConfTheirs vCoins)) ∧
    ((selectCoinsMinConf choices nTargetValue nConfMine nConfTheirs vCoins).1 = true →
      Selects nTargetValue (eligible nConfMine nConfTheirs vCoins)
        (selectCoinsMinConf choices nTargetValue nConfMine nConfTheirs vCoins).2) := by
  have hperm := choices.randomShuffle_perm vCoins
  have heligible : (eligible nConfMine nConfTheirs (choices.randomShuffle vCoins)).Perm
      (eligible nConfMine nConfTheirs vCoins) := (hperm.filter _).map _
  have hsum := h.summable nConfMine nConfTheirs
  have hcent := h.toInt64_cent
  have hshuffled : Summable ([] ++ eligible nConfMine nConfTheirs (choices.randomShuffle vCoins)) :=
    ⟨fun coin hc => hsum.nonneg coin (heligible.mem_iff.mp hc), (sumOf_perm heligible).trans_le hsum.fits⟩
  unfold selectCoinsMinConf
  rcases gather_spec hcent (Gathering.empty nTargetValue) hshuffled
    (fun output ho => hbelow output (hperm.mem_iff.mp ho)) with ⟨coin, hcoin, hexact, hgather⟩ | ⟨g, hgather, hg⟩
  · rw [hgather]
    have hmem := heligible.mem_iff.mp hcoin
    have hle := le_sumOf_of_mem hsum hmem
    refine ⟨iff_of_true rfl (hexact ▸ hle), fun _ => h.selects (List.singleton_subperm_iff.mpr hmem) ?_⟩
    rw [sumOf_cons, sumOf_nil]
    omega
  · rw [hgather]
    exact Gathering.select h choices hperm hg

/-- **What is selected**, of outputs none of which has the value that stands for no coin. -/
theorem selectCoinsMinConf_law (choices : Choices) (h : Selectable nTargetValue vCoins)
    (hbelow : ∀ output ∈ vCoins, output.coin.nValue < int64Max) :
    SelectionLaw choices nTargetValue nConfMine nConfTheirs vCoins :=
  have hspec := selectCoinsMinConf_spec choices h hbelow nConfMine nConfTheirs
  ⟨hspec.1, hspec.2⟩

end Selection

/-! ## The selection of the wallet -/

/-- `CWallet::SelectCoins`, from the outputs that are available: those that the user has selected are all taken, and
else coins are chosen with ever fewer confirmations. -/
def selectCoins (choices : Nat → Choices) (fHasSelected : Bool) (vCoins : List COutput) (nTargetValue : Int) :
    Option Selection :=
  if fHasSelected then
    let s := Selection.ofCoins (offeredCoins vCoins)
    if nTargetValue ≤ s.nValueRet then some s else none
  else
    let first := selectCoinsMinConf (choices 0) nTargetValue 1 6 vCoins
    let second := selectCoinsMinConf (choices 1) nTargetValue 1 1 vCoins
    let third := selectCoinsMinConf (choices 2) nTargetValue 0 1 vCoins
    if first.1 then some first.2 else if second.1 then some second.2 else if third.1 then some third.2 else none

section Wallet

variable {nTargetValue : Int} {vCoins : List COutput} {s : Selection}

/-- **What the wallet selects** is distinct coins that reach the target. -/
theorem selectCoins_selected {choices : Nat → Choices} {fHasSelected : Bool} (h : Selectable nTargetValue vCoins)
    (hbelow : ∀ output ∈ vCoins, output.coin.nValue < int64Max)
    (hs : selectCoins choices fHasSelected vCoins nTargetValue = some s) : CoinsSelected nTargetValue s := by
  unfold selectCoins at hs
  dsimp only at hs
  split at hs
  · split at hs
    · rename_i hreaches
      cases hs
      have hall := (h.ofCoins (List.Perm.refl (offeredCoins vCoins)).subperm).1
      exact ⟨hall.once, hall.value, hreaches, hall.fits⟩
    · cases hs
  · have hconf : ∀ k nConfMine nConfTheirs,
        (selectCoinsMinConf (choices k) nTargetValue nConfMine nConfTheirs vCoins).1 = true →
        CoinsSelected nTargetValue (selectCoinsMinConf (choices k) nTargetValue nConfMine nConfTheirs vCoins).2 :=
      fun k nConfMine nConfTheirs hok =>
        ((selectCoinsMinConf_spec (choices k) h hbelow nConfMine nConfTheirs).2 hok).toCoinsSelected
    split at hs
    · rename_i hfirst
      cases hs
      exact hconf 0 1 6 hfirst
    · split at hs
      · rename_i hsecond
        cases hs
        exact hconf 1 1 1 hsecond
      · split at hs
        · rename_i hthird
          cases hs
          exact hconf 2 0 1 hthird
        · cases hs

end Wallet

/-! ## Samples -/

/-- Choices without chance: no shuffling, the first search includes every coin, and the second one none. -/
def Choices.sample : Choices where
  randomShuffle vCoins := vCoins
  randomShuffle_perm _ := List.Perm.refl _
  sort vValue := vValue.insertionSort fun a b => b.1 ≤ a.1
  sort_perm vValue := List.perm_insertionSort _ vValue
  sort_sorted vValue := by
    have htotal : Std.Total fun a b : Int × WalletCoin => b.1 ≤ a.1 := ⟨fun a b => le_total b.1 a.1⟩
    have htrans : IsTrans (Int × WalletCoin) fun a b => b.1 ≤ a.1 := ⟨fun _ _ _ hab hbc => hbc.trans hab⟩
    exact List.pairwise_insertionSort _ vValue
  insecureRand second _ _ := !second

/-- An output of a transaction with a value. -/
def sampleOutput (hash : Uint256) (nValue nDepth : Int) : COutput :=
  { tx := { hash := hash, vout := [{ nValue := nValue }] }, i := 0, nDepth := nDepth }

/-- Two small coins, a large one, and one without confirmations. -/
def sampleOutputs : List COutput :=
  [sampleOutput 1 700 8, sampleOutput 2 50000 9, sampleOutput 3 600 6, sampleOutput 4 900 0]

theorem selectCoinsMinConf_law_sample : SelectionLaw Choices.sample 1000 1 6 sampleOutputs :=
  selectCoinsMinConf_law Choices.sample ⟨by decide, by decide, by decide, by decide, by decide⟩ (by decide)

/-- **A coin with the greatest value** is not selected, although its value reaches the target: the value stands for no
coin. -/
theorem greatest_value_fails : Selectable 1 [sampleOutput 1 int64Max 6] ∧
    (selectCoinsMinConf Choices.sample 1 1 6 [sampleOutput 1 int64Max 6]).1 = false ∧
    1 ≤ sumOf (eligible 1 6 [sampleOutput 1 int64Max 6]) :=
  ⟨⟨by decide, by decide, by decide, by decide, by decide⟩, by decide, by decide⟩

end Morcochain
