import Morcochain.Vote
import Morcochain.CheckTransaction
import Morcochain.Lib.FirstBest

/-!
# Custodian grants

`GenerateCurrencyCoinBases` (`vote.cpp`): the tally of the custodian votes and the transactions that pay the elected
custodians. The maps of the source are ordered stores.

* `tally_find?` : the counter of a custodian vote is its weight and its count over all votes.
* `granted_iff` : **who is paid**, in terms of weights and counts alone (`IsGranted`).
* `returnedCoinBases_mineable_iff` : **exactly when** every transaction that is returned can be in a block.
-/

set_option autoImplicit false

namespace Morcochain

open OrderedStore Guard FirstBest

/-- `CCustodianVoteCounter`. -/
structure CCustodianVoteCounter where
  nWeight : Int := 0
  nCount : Int := 0
deriving DecidableEq, Repr

/-! ## The tally -/

/-- `mapCustodianVoteCounter` and `totalVoteWeight`. -/
structure Tally where
  mapCustodianVoteCounter : Store CCustodianVote CCustodianVoteCounter := Store.empty
  totalVoteWeight : Int := 0

/-- One custodian vote of a vote with some coin age. -/
def countCustodianVote (nCoinAgeDestroyed : Nat) (m : Store CCustodianVote CCustodianVoteCounter)
    (custodianVote : CCustodianVote) : Store CCustodianVote CCustodianVoteCounter :=
  let counter := (m.find? custodianVote).getD {}
  m.insert custodianVote
    { nWeight := toInt64 (counter.nWeight + nCoinAgeDestroyed), nCount := counter.nCount + 1 }

/-- One vote. -/
def countVote (t : Tally) (vote : CVote) : Check Tally := do
  errorIf (vote.nCoinAgeDestroyed = 0) "vote with 0 coin age destroyed"
  return {
    mapCustodianVoteCounter :=
      vote.vCustodianVote.foldl (countCustodianVote vote.nCoinAgeDestroyed) t.mapCustodianVoteCounter
    totalVoteWeight := toInt64 (t.totalVoteWeight + vote.nCoinAgeDestroyed) }

/-! ## The grants -/

/-- `mapGrantedAddressWeight` and `mapGrantedCustodians`. -/
structure GrantState where
  mapGrantedAddressWeight : Store CBitcoinAddress Int := Store.empty
  mapGrantedCustodians : Store CUnit (Store CBitcoinAddress Int) := Store.empty

/-- A custodian vote with its counter. -/
abbrev VoteEntry := CCustodianVote × CCustodianVoteCounter

/-- One turn of the loop over the counters: an elected custodian whose weight is above that of its address so far is
granted its amount. -/
def grantStep (fTestNet : Bool) (halfWeight halfCount : Int) (st : GrantState) (value : VoteEntry) :
    Check GrantState :=
  if value.2.nWeight > halfWeight ∧ value.2.nCount > halfCount then
    match value.1.getAddress fTestNet with
    | none => .error (.exception "No address version defined for unit")
    | some address =>
      if value.2.nWeight > (st.mapGrantedAddressWeight.find? address).getD 0 then
        .ok {
          mapGrantedAddressWeight := st.mapGrantedAddressWeight.insert address value.2.nWeight
          mapGrantedCustodians := st.mapGrantedCustodians.insert value.1.cUnit
            (((st.mapGrantedCustodians.find? value.1.cUnit).getD Store.empty).insert address value.1.nAmount) }
      else .ok st
  else .ok st

/-- The output that pays a custodian. -/
def grantOutput (fTestNet : Bool) (address : CBitcoinAddress) (amount : Int) : CTxOut :=
  { nValue := amount, scriptPubKey := setDestination (address.get fTestNet) }

/-- The outputs of the grant transaction of a unit: the custodians that were not elected before. -/
def grantOutputs (fTestNet : Bool) (mapAlreadyElected : Store CBitcoinAddress Uint256)
    (mapGrantedAmount : Store CBitcoinAddress Int) : List CTxOut :=
  (mapGrantedAmount.entries.filter (fun g => (mapAlreadyElected.find? g.1).isNone)).map
    (fun g => grantOutput fTestNet g.1 g.2)

/-- The grant transaction of a unit with its outputs. -/
def grantTx (nAdjustedTime : Nat) (cUnit : CUnit) (vout : List CTxOut) : CTransaction :=
  { nTime := nAdjustedTime
    vin := [if cUnit = unitShare then { prevout := { hash := 0, n := uintMax - 1 } } else {}]
    vout := vout
    cUnit := cUnit }

/-- `GenerateCurrencyCoinBases`. -/
def generateCurrencyCoinBases (fTestNet : Bool) (nAdjustedTime : Nat) (vVote : List CVote)
    (mapAlreadyElected : Store CBitcoinAddress Uint256) : Check (List CTransaction) := do
  if vVote = [] then return []
  let tally ← vVote.foldlM countVote {}
  let halfWeight := Int.tdiv tally.totalVoteWeight 2
  let halfCount : Int := (vVote.length / 2 : Nat)
  let st ← tally.mapCustodianVoteCounter.entries.foldlM (grantStep fTestNet halfWeight halfCount) {}
  return st.mapGrantedCustodians.entries.filterMap (fun g =>
    let vout := grantOutputs fTestNet mapAlreadyElected g.2
    if vout = [] then none else some (grantTx nAdjustedTime g.1 vout))

/-! ## Weights and counts -/

/-- The weight of a custodian vote: the coin age of the votes that hold it, as an `int64`. -/
def voteWeight (vVote : List CVote) (cv : CCustodianVote) : Int :=
  toInt64 ((vVote.map (fun v => (v.vCustodianVote.count cv : Int) * v.nCoinAgeDestroyed)).sum)

/-- How many votes hold a custodian vote. -/
def voteCount (vVote : List CVote) (cv : CCustodianVote) : Int :=
  (vVote.map (fun v => (v.vCustodianVote.count cv : Int))).sum

/-- The weight of all votes, as an `int64`. -/
def totalWeight (vVote : List CVote) : Int := toInt64 ((vVote.map (fun v => (v.nCoinAgeDestroyed : Int))).sum)

theorem toInt64_add_left (a b : Int) : toInt64 (toInt64 a + b) = toInt64 (a + b) := by
  unfold toInt64
  exact Int.bmod_add_bmod ..

/-- The counter after counting one vote's list. -/
theorem countCustodianVotes_find? (age : Nat) (cv : CCustodianVote) :
    ∀ (l : List CCustodianVote) (m : Store CCustodianVote CCustodianVoteCounter),
      (l.foldl (countCustodianVote age) m).find? cv =
        if l.count cv = 0 then m.find? cv
        else some {
          nWeight := toInt64 (((m.find? cv).getD {}).nWeight + (l.count cv : Int) * age)
          nCount := ((m.find? cv).getD {}).nCount + l.count cv }
  | [], m => by simp
  | x :: l, m => by
    rw [List.foldl_cons, countCustodianVotes_find? age cv l]
    by_cases hx : x = cv
    · subst hx
      have hfind : (countCustodianVote age m x).find? x = some {
          nWeight := toInt64 (((m.find? x).getD {}).nWeight + age)
          nCount := ((m.find? x).getD {}).nCount + 1 } := by
        rw [countCustodianVote, Store.find?_insert, if_pos rfl]
      rw [List.count_cons_self, hfind, if_neg (Nat.succ_ne_zero _)]
      by_cases hl : l.count x = 0
      · rw [if_pos hl, hl]
        simp
      · rw [if_neg hl, Option.getD_some, toInt64_add_left]
        push_cast
        congr 2
        · congr 1
          ring
        · ring
    · have hfind : (countCustodianVote age m x).find? cv = m.find? cv := by
        rw [countCustodianVote, Store.find?_insert, if_neg (Ne.symm hx)]
      rw [List.count_cons_of_ne hx, hfind]

theorem countVote_eq_ok {t t' : Tally} {vote : CVote} : countVote t vote = .ok t' ↔
    vote.nCoinAgeDestroyed ≠ 0 ∧ t' = {
      mapCustodianVoteCounter :=
        vote.vCustodianVote.foldl (countCustodianVote vote.nCoinAgeDestroyed) t.mapCustodianVoteCounter
      totalVoteWeight := toInt64 (t.totalVoteWeight + vote.nCoinAgeDestroyed) } := by
  unfold countVote
  simp only [bind_eq_ok, rejectIf_eq_ok, exists_const, pure_eq_ok, Except.ok.injEq, ne_eq]
  exact and_congr_right fun _ => eq_comm

theorem toInt64_toInt64 (a : Int) : toInt64 (toInt64 a) = toInt64 a := by
  have h := toInt64_add_left a 0
  rwa [Int.add_zero, Int.add_zero] at h

/-- The total weight after counting votes. -/
theorem tally_total : ∀ {vVote : List CVote} {t t' : Tally}, toInt64 t.totalVoteWeight = t.totalVoteWeight →
    vVote.foldlM countVote t = .ok t' →
      t'.totalVoteWeight = toInt64 (t.totalVoteWeight + (vVote.map (fun v => (v.nCoinAgeDestroyed : Int))).sum)
  | [], t, t', ht, h => by
    cases h
    rw [List.map_nil, List.sum_nil, Int.add_zero, ht]
  | v :: l, t, t', _, h => by
    obtain ⟨t₁, h₁, h₂⟩ := foldlM_cons_ok.mp h
    obtain ⟨-, rfl⟩ := countVote_eq_ok.mp h₁
    rw [tally_total (toInt64_toInt64 _) h₂, toInt64_add_left, List.map_cons, List.sum_cons, Int.add_assoc]

theorem voteCount_nonneg (vVote : List CVote) (cv : CCustodianVote) : 0 ≤ voteCount vVote cv := by
  induction vVote with
  | nil => exact Int.le_refl 0
  | cons v l ih =>
    rw [voteCount, List.map_cons, List.sum_cons]
    unfold voteCount at ih
    omega

/-- The counters after counting votes. -/
theorem tally_counter (cv : CCustodianVote) : ∀ {vVote : List CVote} {t t' : Tally},
    vVote.foldlM countVote t = .ok t' →
      t'.mapCustodianVoteCounter.find? cv =
        if voteCount vVote cv = 0 then t.mapCustodianVoteCounter.find? cv
        else some {
          nWeight := toInt64 (((t.mapCustodianVoteCounter.find? cv).getD {}).nWeight +
            (vVote.map (fun v => (v.vCustodianVote.count cv : Int) * v.nCoinAgeDestroyed)).sum)
          nCount := ((t.mapCustodianVoteCounter.find? cv).getD {}).nCount + voteCount vVote cv }
  | [], t, t', h => by
    cases h
    rw [if_pos]
    rfl
  | v :: l, t, t', h => by
    obtain ⟨t₁, h₁, h₂⟩ := foldlM_cons_ok.mp h
    obtain ⟨-, rfl⟩ := countVote_eq_ok.mp h₁
    have hcount : voteCount (v :: l) cv = v.vCustodianVote.count cv + voteCount l cv := by
      rw [voteCount, List.map_cons, List.sum_cons]
      rfl
    have hnn := voteCount_nonneg l cv
    rw [tally_counter cv h₂, countCustodianVotes_find?, hcount, List.map_cons, List.sum_cons]
    by_cases hv : v.vCustodianVote.count cv = 0
    · rw [if_pos hv, hv]
      simp
    · have hne : ¬ ((v.vCustodianVote.count cv : Int) + voteCount l cv = 0) := by omega
      rw [if_neg hv, if_neg hne, Option.getD_some, toInt64_add_left]
      by_cases hl : voteCount l cv = 0
      · have hsum : (l.map (fun v => (v.vCustodianVote.count cv : Int) * v.nCoinAgeDestroyed)).sum = 0 := by
          apply List.sum_eq_zero
          intro x hx
          obtain ⟨u, hu, rfl⟩ := List.mem_map.mp hx
          have hle := List.single_le_sum (l := l.map (fun v => (v.vCustodianVote.count cv : Int)))
            (by intro y hy; obtain ⟨u, -, rfl⟩ := List.mem_map.mp hy; omega) _ (List.mem_map_of_mem hu)
          unfold voteCount at hl
          have : (u.vCustodianVote.count cv : Int) = 0 := by omega
          rw [this, Int.zero_mul]
        rw [if_pos hl, hl, hsum]
        simp
      · rw [if_neg hl]
        congr 2
        · congr 1
          ring
        · ring

/-- **The tally**: every custodian vote that some vote holds, with its weight and its count. -/
theorem tally_find? {vVote : List CVote} {t : Tally} (h : vVote.foldlM countVote {} = .ok t) (cv : CCustodianVote) :
    t.mapCustodianVoteCounter.find? cv =
      if voteCount vVote cv = 0 then none
      else some { nWeight := voteWeight vVote cv, nCount := voteCount vVote cv } := by
  rw [tally_counter cv h, voteWeight]
  have hempty : (({} : Tally).mapCustodianVoteCounter.find? cv) = none := Store.find?_empty cv
  rw [hempty]
  simp

theorem tally_totalWeight {vVote : List CVote} {t : Tally} (h : vVote.foldlM countVote {} = .ok t) :
    t.totalVoteWeight = totalWeight vVote := by
  rw [tally_total rfl h, totalWeight]
  congr 1
  exact Int.zero_add _

/-- The votes are counted unless one of them has no coin age. -/
theorem tally_ok_iff : ∀ {vVote : List CVote} {t : Tally},
    (∃ t', vVote.foldlM countVote t = .ok t') ↔ ∀ v ∈ vVote, v.nCoinAgeDestroyed ≠ 0
  | [], t => by simp
  | v :: l, t => by
    simp only [foldlM_cons_ok, countVote_eq_ok, List.mem_cons, forall_eq_or_imp]
    constructor
    · rintro ⟨t', t₁, ⟨hv, rfl⟩, h⟩
      exact ⟨hv, tally_ok_iff.mp ⟨t', h⟩⟩
    · rintro ⟨hv, hl⟩
      obtain ⟨t', h⟩ := tally_ok_iff.mpr hl
      exact ⟨t', _, ⟨hv, rfl⟩, h⟩

/-! ## The loop over the counters -/

section GrantLoop

variable (fTestNet : Bool) (halfWeight halfCount : Int)

/-- The counter makes its custodian vote a grant to the address. -/
def Elects (a : CBitcoinAddress) (e : VoteEntry) : Prop :=
  (e.2.nWeight > halfWeight ∧ e.2.nCount > halfCount) ∧ e.1.getAddress fTestNet = some a

instance (a : CBitcoinAddress) : DecidablePred (Elects fTestNet halfWeight halfCount a) := fun e => by
  unfold Elects
  infer_instance

/-- The counter that decides what an address is granted, among those of a list. -/
def deciding (a : CBitcoinAddress) (l : List VoteEntry) : Option VoteEntry :=
  firstBest (Elects fTestNet halfWeight halfCount a) (·.2.nWeight) l

/-- The state of the loop after the counters of a list: each address has the weight and the amount of the counter that
decides for it. -/
def GrantedBy (l : List VoteEntry) (st : GrantState) : Prop :=
  ∀ a, (st.mapGrantedAddressWeight.find? a).getD 0 =
      ((deciding fTestNet halfWeight halfCount a l).map (·.2.nWeight)).getD 0 ∧
    ∀ u, (st.mapGrantedCustodians.find? u).bind (·.find? a) =
      (deciding fTestNet halfWeight halfCount a l).bind (fun e => if e.1.cUnit = u then some e.1.nAmount else none)

variable {fTestNet halfWeight halfCount}

theorem deciding_concat (a : CBitcoinAddress) (l : List VoteEntry) (e : VoteEntry) :
    deciding fTestNet halfWeight halfCount a (l ++ [e]) =
      if Elects fTestNet halfWeight halfCount a e ∧
          ((deciding fTestNet halfWeight halfCount a l).map (·.2.nWeight)).getD 0 < e.2.nWeight then some e
      else deciding fTestNet halfWeight halfCount a l :=
  firstBest_concat l e

/-- The deciding counter is one of the list, of the address. -/
theorem deciding_mem {a : CBitcoinAddress} {l : List VoteEntry} {e : VoteEntry}
    (h : deciding fTestNet halfWeight halfCount a l = some e) : e ∈ l ∧ e.1.getAddress fTestNet = some a := by
  have hl : l.Pairwise (fun _ _ => True) := List.pairwise_of_forall fun _ _ => trivial
  have hbest := isFirstBest_of_firstBest hl h
  exact ⟨hbest.1, hbest.2.1.2⟩

/-- One turn of the loop. -/
theorem grantStep_grantedBy {l : List VoteEntry} {st : GrantState} {e : VoteEntry}
    (hl : ∀ e ∈ l, isValidUnit e.1.cUnit = true) (he : isValidUnit e.1.cUnit = true)
    (h : GrantedBy fTestNet halfWeight halfCount l st) :
    ∃ st', grantStep fTestNet halfWeight halfCount st e = .ok st' ∧
      GrantedBy fTestNet halfWeight halfCount (l ++ [e]) st' := by
  obtain ⟨b, hb, -⟩ := e.1.getAddress_of_valid fTestNet he
  have helects : ∀ a, Elects fTestNet halfWeight halfCount a e ↔
      (e.2.nWeight > halfWeight ∧ e.2.nCount > halfCount) ∧ a = b := by
    intro a
    unfold Elects
    rw [hb, Option.some.injEq]
    exact and_congr_right fun _ => eq_comm
  unfold grantStep
  by_cases hmaj : e.2.nWeight > halfWeight ∧ e.2.nCount > halfCount
  · rw [if_pos hmaj, hb]
    by_cases hw : e.2.nWeight > (st.mapGrantedAddressWeight.find? b).getD 0
    · simp only [if_pos hw]
      refine ⟨_, rfl, fun a => ?_⟩
      rw [deciding_concat, Store.find?_insert]
      obtain ⟨hweight, hamount⟩ := h a
      by_cases hab : a = b
      · subst hab
        rw [hweight] at hw
        rw [if_pos rfl, if_pos ⟨(helects a).mpr ⟨hmaj, rfl⟩, hw⟩]
        refine ⟨rfl, fun u => ?_⟩
        rw [Store.find?_insert, Option.bind_some]
        by_cases hu : u = e.1.cUnit
        · rw [if_pos hu, if_pos hu.symm, Option.bind_some, Store.find?_insert, if_pos rfl]
        · rw [if_neg hu, if_neg (Ne.symm hu), hamount u]
          -- what was granted to this address before was granted in the unit of this vote
          cases hd : deciding fTestNet halfWeight halfCount a l with
          | none => rfl
          | some e' =>
            obtain ⟨hmem, haddr⟩ := deciding_mem hd
            have hsame := (e.1.getAddress_eq_iff he (hl e' hmem) hb).mp haddr
            rw [Option.bind_some, if_neg]
            intro hu'
            exact hu (hu'.symm.trans hsame.1)
      · rw [if_neg hab, if_neg (fun hc => hab ((helects a).mp hc.1).2)]
        refine ⟨hweight, fun u => ?_⟩
        rw [← hamount u, Store.find?_insert]
        by_cases hu : u = e.1.cUnit
        · rw [if_pos hu, Option.bind_some, Store.find?_insert, if_neg hab, hu]
          cases st.mapGrantedCustodians.find? e.1.cUnit with
          | none => exact Store.find?_empty a
          | some m => rfl
        · rw [if_neg hu]
    · simp only [if_neg hw]
      refine ⟨st, rfl, fun a => ?_⟩
      rw [deciding_concat, if_neg]
      · exact h a
      · rintro ⟨hel, hlt⟩
        rw [((helects a).mp hel).2, ← (h b).1] at hlt
        exact hw hlt
  · rw [if_neg hmaj]
    refine ⟨st, rfl, fun a => ?_⟩
    rw [deciding_concat, if_neg (fun hc => hmaj ((helects a).mp hc.1).1)]
    exact h a

variable (fTestNet halfWeight halfCount) in
/-- The whole loop. -/
theorem grantLoop_grantedBy {l : List VoteEntry} (hl : ∀ e ∈ l, isValidUnit e.1.cUnit = true) :
    ∃ st, l.foldlM (grantStep fTestNet halfWeight halfCount) {} = .ok st ∧
      GrantedBy fTestNet halfWeight halfCount l st := by
  induction l using List.reverseRecOn with
  | nil =>
    refine ⟨{}, rfl, fun a => ⟨?_, fun u => ?_⟩⟩
    · rfl
    · rfl
  | append_singleton l e ih =>
    have hl' : ∀ e ∈ l, isValidUnit e.1.cUnit = true := fun e' h' => hl e' (List.mem_append_left _ h')
    obtain ⟨st, hst, hgr⟩ := ih hl'
    obtain ⟨st', hst', hgr'⟩ := grantStep_grantedBy hl' (hl e (by simp)) hgr
    exact ⟨st', foldlM_append_ok.mpr ⟨st, hst, foldlM_cons_ok.mpr ⟨st', hst', rfl⟩⟩, hgr'⟩

end GrantLoop

/-! ## Who is paid -/

/-- The custodian votes that some vote holds. -/
def heldVotes (vVote : List CVote) : List CCustodianVote := (vVote.flatMap (·.vCustodianVote)).dedup

/-- A custodian vote with a majority of the weight and of the count. -/
def IsElected (vVote : List CVote) (cv : CCustodianVote) : Prop :=
  voteWeight vVote cv > Int.tdiv (totalWeight vVote) 2 ∧ voteCount vVote cv > (vVote.length / 2 : Nat)

instance (vVote : List CVote) : DecidablePred (IsElected vVote) := fun cv => by
  unfold IsElected
  infer_instance

/-- An elected custodian vote that decides for its address: it has the greatest weight, and the least amount among
those of that weight. -/
def IsGranted (vVote : List CVote) (cv : CCustodianVote) : Prop :=
  IsElected vVote cv ∧ 0 < voteWeight vVote cv ∧
    ∀ cv' ∈ heldVotes vVote, IsElected vVote cv' → SameAddress cv' cv →
      voteWeight vVote cv' < voteWeight vVote cv ∨
        voteWeight vVote cv' = voteWeight vVote cv ∧ cv.nAmount ≤ cv'.nAmount

instance (vVote : List CVote) : DecidablePred (IsGranted vVote) := fun cv => by
  unfold IsGranted
  infer_instance

theorem mem_heldVotes {vVote : List CVote} {cv : CCustodianVote} : cv ∈ heldVotes vVote ↔ voteCount vVote cv ≠ 0 := by
  rw [heldVotes, List.mem_dedup, List.mem_flatMap]
  induction vVote with
  | nil => simp [voteCount]
  | cons v l ih =>
    have hnn := voteCount_nonneg l cv
    have hcount : voteCount (v :: l) cv = v.vCustodianVote.count cv + voteCount l cv := by
      rw [voteCount, List.map_cons, List.sum_cons]
      rfl
    have hmem : cv ∈ v.vCustodianVote ↔ v.vCustodianVote.count cv ≠ 0 := by
      rw [← List.count_pos_iff]
      omega
    rw [List.exists_mem_cons_iff, ih, hmem, hcount]
    omega

/-- The entries of the tally. -/
theorem mem_tally {vVote : List CVote} {t : Tally} (h : vVote.foldlM countVote {} = .ok t) {e : VoteEntry} :
    e ∈ t.mapCustodianVoteCounter.entries ↔ e.1 ∈ heldVotes vVote ∧
      e.2 = { nWeight := voteWeight vVote e.1, nCount := voteCount vVote e.1 } := by
  rw [← Store.find?_eq_some (k := e.1) (v := e.2), tally_find? h, mem_heldVotes]
  by_cases hc : voteCount vVote e.1 = 0
  · simp [hc]
  · rw [if_neg hc, Option.some.injEq]
    exact ⟨fun he => ⟨hc, he.symm⟩, fun he => he.2.symm⟩

section Granted

variable {fTestNet : Bool} {vVote : List CVote} {t : Tally} {st : GrantState}

/-- The counter that decides for an address is that of the granted vote for it. -/
theorem deciding_iff (h : vVote.foldlM countVote {} = .ok t)
    (hvalid : ∀ cv ∈ heldVotes vVote, isValidUnit cv.cUnit = true) {a : CBitcoinAddress} {e : VoteEntry} :
    deciding fTestNet (Int.tdiv (totalWeight vVote) 2) (vVote.length / 2 : Nat) a t.mapCustodianVoteCounter.entries
        = some e ↔
      e ∈ t.mapCustodianVoteCounter.entries ∧ e.1.getAddress fTestNet = some a ∧ IsGranted vVote e.1 := by
  have hasymm : ∀ x y : VoteEntry, x.1 < y.1 → ¬ y.1 < x.1 := fun x y hxy hyx =>
    Std.lt_irrefl (Std.lt_trans hxy hyx)
  rw [deciding, firstBest_eq_some t.mapCustodianVoteCounter.sorted hasymm]
  have helects : ∀ x ∈ t.mapCustodianVoteCounter.entries,
      (x.2.nWeight = voteWeight vVote x.1 ∧ (Elects fTestNet (Int.tdiv (totalWeight vVote) 2) (vVote.length / 2 : Nat) a x ↔
        IsElected vVote x.1 ∧ x.1.getAddress fTestNet = some a)) := by
    intro x hx
    obtain ⟨-, hcounter⟩ := (mem_tally h).mp hx
    unfold Elects IsElected
    rw [hcounter]
    exact ⟨rfl, Iff.rfl⟩
  constructor
  · rintro ⟨hmem, hel, hpos, hbest⟩
    obtain ⟨hw, hiff⟩ := helects e hmem
    obtain ⟨helected, haddr⟩ := hiff.mp hel
    refine ⟨hmem, haddr, helected, by simpa only [hw] using hpos, fun cv' hcv' hel' hsame => ?_⟩
    have hmem' : (cv', { nWeight := voteWeight vVote cv', nCount := voteCount vVote cv' }) ∈
        t.mapCustodianVoteCounter.entries := (mem_tally h).mpr ⟨hcv', rfl⟩
    have haddr' := (e.1.getAddress_eq_iff (hvalid _ ((mem_tally h).mp hmem).1) (hvalid _ hcv') haddr).mpr hsame
    have hcmp := hbest _ hmem' ((helects _ hmem').2.mpr ⟨hel', haddr'⟩)
    simp only [hw] at hcmp
    rw [← hsame.order]
    refine hcmp.imp_right fun hc => ⟨hc.1, hc.2.imp_left fun he => congrArg Prod.fst he⟩
  · rintro ⟨hmem, haddr, helected, hpos, hbest⟩
    obtain ⟨hw, hiff⟩ := helects e hmem
    refine ⟨hmem, hiff.mpr ⟨helected, haddr⟩, by simpa only [hw] using hpos, fun e' hmem' hel' => ?_⟩
    obtain ⟨hw', hiff'⟩ := helects e' hmem'
    obtain ⟨helected', haddr'⟩ := hiff'.mp hel'
    have hheld' := ((mem_tally h).mp hmem').1
    have hsame := (e.1.getAddress_eq_iff (hvalid _ ((mem_tally h).mp hmem).1) (hvalid _ hheld') haddr).mp haddr'
    simp only [hw, hw']
    refine (hbest e'.1 hheld' helected' hsame).imp_right fun hc => ⟨hc.1, (hsame.order.mpr hc.2).imp_left fun he => ?_⟩
    refine Prod.ext he ?_
    rw [((mem_tally h).mp hmem').2, ((mem_tally h).mp hmem).2, he]

/-- **Who is paid**: the amount of an address in a unit is that of the granted vote for it. -/
theorem granted_iff (h : vVote.foldlM countVote {} = .ok t)
    (hvalid : ∀ cv ∈ heldVotes vVote, isValidUnit cv.cUnit = true)
    (hst : GrantedBy fTestNet (Int.tdiv (totalWeight vVote) 2) (vVote.length / 2 : Nat)
      t.mapCustodianVoteCounter.entries st) {u : CUnit} {a : CBitcoinAddress} {amount : Int} :
    (st.mapGrantedCustodians.find? u).bind (·.find? a) = some amount ↔
      ∃ cv ∈ heldVotes vVote, cv.cUnit = u ∧ cv.getAddress fTestNet = some a ∧ cv.nAmount = amount ∧
        IsGranted vVote cv := by
  rw [(hst a).2 u, Option.bind_eq_some_iff]
  constructor
  · rintro ⟨e, he, hu⟩
    obtain ⟨hmem, haddr, hgr⟩ := (deciding_iff h hvalid).mp he
    split at hu
    · rename_i heu
      cases hu
      exact ⟨e.1, ((mem_tally h).mp hmem).1, heu, haddr, rfl, hgr⟩
    · cases hu
  · rintro ⟨cv, hcv, hu, haddr, hamount, hgr⟩
    refine ⟨(cv, { nWeight := voteWeight vVote cv, nCount := voteCount vVote cv }),
      (deciding_iff h hvalid).mpr ⟨(mem_tally h).mpr ⟨hcv, rfl⟩, haddr, hgr⟩, ?_⟩
    rw [if_pos hu, hamount]

end Granted

/-! ## The grant transactions -/

/-- The output that pays a custodian vote. -/
def paidOutput (cv : CCustodianVote) : CTxOut :=
  { nValue := cv.nAmount, scriptPubKey := setDestination cv.destination }

theorem isPark_destination (cv : CCustodianVote) : isPark (setDestination cv.destination) = false := by
  unfold CCustodianVote.destination
  split
  · rw [isPark, solver_scriptID]
    rfl
  · rw [isPark, solver_keyID]
    rfl

theorem setDestination_ne_nil (cv : CCustodianVote) : setDestination cv.destination ≠ [] := by
  unfold CCustodianVote.destination
  split <;> exact List.cons_ne_nil _ _

/-- The serialized size of the output of a custodian vote. -/
theorem serializeSize_paidOutput (cv : CCustodianVote) :
    (paidOutput cv).serializeSize = if cv.fScript then 32 else 34 := by
  unfold paidOutput CTxOut.serializeSize CCustodianVote.destination
  cases cv.fScript <;>
    simp [setDestination, bytesSize, cv.hashAddress.size_eq, getSizeOfCompactSize]

section GrantTx

variable {nAdjustedTime : Nat} {u : CUnit} {vout : List CTxOut}

variable (nAdjustedTime) in
theorem isCustodianGrant_grantTx (hu : isValidUnit u = true) (hne : vout ≠ []) :
    (grantTx nAdjustedTime u vout).isCustodianGrant = true := by
  have hlen := List.length_pos_of_ne_nil hne
  rcases isValidUnit_iff.mp hu with rfl | rfl
  · simp [CTransaction.isCustodianGrant, CTransaction.prevout0, grantTx, unitShare]
    omega
  · simp [CTransaction.isCustodianGrant, CTransaction.prevout0, grantTx, unitShare, unitCurrency, isValidCurrency,
      isValidUnit, sAvailableUnits, COutPoint.isNull, uintMax]
    omega

variable (nAdjustedTime u vout) in
theorem isCoinBase_grantTx : (grantTx nAdjustedTime u vout).isCoinBase = false := by
  by_cases hu : u = unitShare
  · subst hu
    simp [CTransaction.isCoinBase, CTransaction.prevout0, grantTx, COutPoint.isNull, uintMax]
  · simp [CTransaction.isCoinBase, grantTx, hu]

variable (nAdjustedTime u) in
theorem isCoinStake_grantTx (hscript : ∀ o ∈ vout, ∃ cv, o = paidOutput cv) :
    (grantTx nAdjustedTime u vout).isCoinStake = false := by
  cases vout with
  | nil => simp [CTransaction.isCoinStake, grantTx]
  | cons o vout =>
    obtain ⟨cv, rfl⟩ := hscript o List.mem_cons_self
    simp [CTransaction.isCoinStake, grantTx, CTxOut.isEmpty, paidOutput, setDestination_ne_nil]

theorem minTxOutAmount_pos (u : CUnit) : 0 < minTxOutAmount u := by
  unfold minTxOutAmount
  split <;> decide

/-- The loop over the outputs of a grant transaction. -/
theorem checkTxOuts_grantTx (tx : CTransaction) (hstake : tx.isCoinStake = false) :
    ∀ {l : List CTxOut} {s : Int}, 0 ≤ s → (∀ o ∈ l, ∃ cv, o = paidOutput cv) →
      ((∃ s', l.foldlM tx.checkTxOut s = .ok s') ↔
        (∀ o ∈ l, minTxOutAmount tx.cUnit ≤ o.nValue) ∧ (l = [] ∨ s + (l.map (·.nValue)).sum ≤ maxMoney)) := by
  intro l
  induction l with
  | nil =>
    intro s _ _
    simp
  | cons o l ih =>
    intro s hs hl
    obtain ⟨cv, ho⟩ := hl o List.mem_cons_self
    have hl' : ∀ o ∈ l, ∃ cv, o = paidOutput cv := fun x hx => hl x (List.mem_cons_of_mem _ hx)
    have hempty : o.isEmpty = false := by
      rw [ho]
      simp [CTxOut.isEmpty, paidOutput, setDestination_ne_nil]
    have hmin := minTxOutAmount_pos tx.cUnit
    have hnonneg : (∀ o ∈ l, minTxOutAmount tx.cUnit ≤ o.nValue) → 0 ≤ (l.map (·.nValue)).sum := by
      intro h
      apply List.sum_nonneg
      intro x hx
      obtain ⟨o', ho', rfl⟩ := List.mem_map.mp hx
      have := h o' ho'
      omega
    simp only [foldlM_cons_ok, CTransaction.checkTxOut_eq_ok, hempty, hstake, CTransaction.getMinTxOutAmount,
      List.mem_cons, forall_eq_or_imp, List.map_cons, List.sum_cons]
    constructor
    · rintro ⟨s', s₁, ⟨-, hge, hle, h0, hmax, rfl⟩, hrest⟩
      have hge' : minTxOutAmount tx.cUnit ≤ o.nValue := by
        by_contra hlt
        exact hge ⟨rfl, Int.not_le.mp hlt, fun hc => Bool.noConfusion hc.1⟩
      obtain ⟨hall, hsum⟩ := (ih h0 hl').mp ⟨s', hrest⟩
      refine ⟨⟨hge', hall⟩, .inr ?_⟩
      rcases hsum with rfl | hsum
      · simpa using hmax
      · omega
    · rintro ⟨⟨hge, hall⟩, hsum⟩
      have hsum' : s + (o.nValue + (l.map (·.nValue)).sum) ≤ maxMoney := by
        rcases hsum with h | h
        · cases h
        · exact h
      have hnn := hnonneg hall
      have hnext : 0 ≤ s + o.nValue := by omega
      obtain ⟨s', hs'⟩ := (ih hnext hl').mpr ⟨hall, .inr (by omega)⟩
      refine ⟨s', s + o.nValue, ⟨fun hc => Bool.noConfusion hc.1, fun hc => ?_, by omega, by omega, by omega, rfl⟩, hs'⟩
      have := hc.2.1
      omega

/-- A grant transaction passes exactly when it fits, its outputs are not below the minimum and their sum is not above
`MAX_MONEY`. -/
theorem checkTransaction_grantTx (hu : isValidUnit u = true) (hne : vout ≠ [])
    (hscript : ∀ o ∈ vout, ∃ cv, o = paidOutput cv) :
    (grantTx nAdjustedTime u vout).checkTransaction = .ok () ↔
      (∀ o ∈ vout, minTxOutAmount u ≤ o.nValue) ∧ (vout.map (·.nValue)).sum ≤ maxMoney ∧
        (grantTx nAdjustedTime u vout).serializeSize ≤ maxBlockSize := by
  have hgrant := isCustodianGrant_grantTx nAdjustedTime hu hne
  have hbase := isCoinBase_grantTx nAdjustedTime u vout
  have hstake := isCoinStake_grantTx nAdjustedTime u hscript
  have houts := checkTxOuts_grantTx (grantTx nAdjustedTime u vout) hstake (Int.le_refl 0) hscript
  have hpark : vout.foldlM (grantTx nAdjustedTime u vout).checkParkOut () = .ok () := by
    refine CTransaction.checkParkOuts_eq_ok.mpr fun o ho hp => ?_
    obtain ⟨cv, rfl⟩ := hscript o ho
    rw [paidOutput, isPark_destination] at hp
    cases hp
  have hins : (grantTx nAdjustedTime u vout).checkTxIns = .ok () := by
    rw [CTransaction.checkTxIns, hbase, hgrant]
    by_cases hs : u = unitShare <;> simp [grantTx, hs]
  have hnodup : ((grantTx nAdjustedTime u vout).vin.map (·.prevout)).Nodup := by
    simp [grantTx]
  have hvout : (grantTx nAdjustedTime u vout).vout = vout := rfl
  have hvin : (grantTx nAdjustedTime u vout).vin ≠ [] := List.cons_ne_nil _ _
  have hunit : (grantTx nAdjustedTime u vout).cUnit = u := rfl
  rw [Int.zero_add, hunit] at houts
  unfold CTransaction.checkTransaction
  simp only [hvout, hunit, bind_eq_ok, rejectIf_eq_ok, exists_and_left, exists_const, hu, hvin, hne, hbase, hstake,
    hnodup, hins, hpark, Bool.not_true, Bool.false_eq_true, not_false_eq_true, or_self, and_false, false_and, true_and,
    and_true, not_true_eq_false]
  have hsum : (vout = [] ∨ (vout.map (·.nValue)).sum ≤ maxMoney) ↔ (vout.map (·.nValue)).sum ≤ maxMoney := by
    simp [hne]
  rw [hsum] at houts
  simp only [houts, Nat.not_lt]
  tauto

end GrantTx

/-! ## When the grants can be in a block -/

/-- The custodian votes of a unit that are granted and whose address was not elected before. -/
def newGrants (fTestNet : Bool) (vVote : List CVote) (mapAlreadyElected : Store CBitcoinAddress Uint256) (u : CUnit) :
    List CCustodianVote :=
  (heldVotes vVote).filter (fun cv => cv.cUnit = u ∧ IsGranted vVote cv ∧
    (cv.getAddress fTestNet).all (fun a => (mapAlreadyElected.find? a).isNone))

/-- The serialized size of a transaction that pays custodians. -/
def grantSize (W : List CCustodianVote) : Nat :=
  55 + getSizeOfCompactSize W.length + (W.map (fun cv => if cv.fScript then 32 else 34)).sum

/-- In each unit no new grant is below the minimum of the unit, together they are not above `MAX_MONEY`, and there are
not more of them than fit into a block. -/
def GrantsMineable (fTestNet : Bool) (vVote : List CVote) (mapAlreadyElected : Store CBitcoinAddress Uint256) : Prop :=
  ∀ u ∈ sAvailableUnits,
    (∀ cv ∈ newGrants fTestNet vVote mapAlreadyElected u, minTxOutAmount u ≤ cv.nAmount) ∧
    ((newGrants fTestNet vVote mapAlreadyElected u).map (·.nAmount)).sum ≤ maxMoney ∧
    grantSize (newGrants fTestNet vVote mapAlreadyElected u) ≤ maxBlockSize

instance (fTestNet : Bool) (vVote : List CVote) (mapAlreadyElected : Store CBitcoinAddress Uint256) :
    Decidable (GrantsMineable fTestNet vVote mapAlreadyElected) := by
  unfold GrantsMineable
  infer_instance

/-- The transactions that `GenerateCurrencyCoinBases` leaves in `vCurrencyCoinBaseRet`. -/
def returnedCoinBases (fTestNet : Bool) (nAdjustedTime : Nat) (vVote : List CVote)
    (mapAlreadyElected : Store CBitcoinAddress Uint256) : List CTransaction :=
  match generateCurrencyCoinBases fTestNet nAdjustedTime vVote mapAlreadyElected with
  | .ok vCurrencyCoinBase => vCurrencyCoinBase
  | .error _ => []

section Mineable

variable {fTestNet : Bool} {nAdjustedTime : Nat} {vVote : List CVote} {mapAlreadyElected : Store CBitcoinAddress Uint256}

theorem mem_newGrants {u : CUnit} {cv : CCustodianVote} : cv ∈ newGrants fTestNet vVote mapAlreadyElected u ↔
    cv ∈ heldVotes vVote ∧ cv.cUnit = u ∧ IsGranted vVote cv ∧
      (cv.getAddress fTestNet).all (fun a => (mapAlreadyElected.find? a).isNone) = true := by
  simp [newGrants]

/-- Two granted votes for one address and amount are the same vote. -/
theorem eq_of_getAddress_eq (fTestNet : Bool) {cv cv' : CCustodianVote} (h : isValidUnit cv.cUnit = true)
    (h' : isValidUnit cv'.cUnit = true) (ha : cv.getAddress fTestNet = cv'.getAddress fTestNet)
    (hn : cv.nAmount = cv'.nAmount) : cv = cv' := by
  obtain ⟨a, haddr, -⟩ := cv'.getAddress_of_valid fTestNet h'
  obtain ⟨hu, hs, hx⟩ := (cv'.getAddress_eq_iff h' h haddr).mp (ha.trans haddr)
  cases cv
  cases cv'
  simp only at hu hs hx hn
  rw [hu, hs, hx, hn]

variable (mapAlreadyElected) in
/-- The outputs of the grant transaction of a unit are those that pay the new grants of the unit. -/
theorem grantOutputs_perm {u : CUnit} {m : Store CBitcoinAddress Int}
    (hvalid : ∀ cv ∈ heldVotes vVote, isValidUnit cv.cUnit = true)
    (hm : ∀ a amount, m.find? a = some amount ↔
      ∃ cv ∈ heldVotes vVote, cv.cUnit = u ∧ cv.getAddress fTestNet = some a ∧ cv.nAmount = amount ∧
        IsGranted vVote cv) :
    (grantOutputs fTestNet mapAlreadyElected m).Perm
      ((newGrants fTestNet vVote mapAlreadyElected u).map paidOutput) := by
  let pay : CCustodianVote → CBitcoinAddress × Int := fun cv => ((cv.getAddress fTestNet).getD {}, cv.nAmount)
  have hpay : ∀ cv ∈ newGrants fTestNet vVote mapAlreadyElected u, ∃ a, cv.getAddress fTestNet = some a ∧
      a.get fTestNet = cv.destination ∧ pay cv = (a, cv.nAmount) := by
    intro cv hcv
    obtain ⟨a, ha, -, hd, -⟩ := cv.getAddress_of_valid fTestNet (hvalid cv (mem_newGrants.mp hcv).1)
    exact ⟨a, ha, hd, by simp only [pay, ha, Option.getD_some]⟩
  have hperm : (m.entries.filter (fun g => (mapAlreadyElected.find? g.1).isNone)).Perm
      ((newGrants fTestNet vVote mapAlreadyElected u).map pay) := by
    refine (List.perm_ext_iff_of_nodup ?_ ?_).mpr fun g => ?_
    · refine (m.sorted.imp fun {a b} hab he => ?_).filter _
      rw [he] at hab
      exact Std.lt_irrefl hab
    · refine List.Nodup.map_on (fun x hx y hy hxy => ?_) ((List.nodup_dedup _).filter _)
      obtain ⟨a, ha, -, hpx⟩ := hpay x hx
      obtain ⟨b, hb, -, hpy⟩ := hpay y hy
      rw [hpx, hpy, Prod.mk.injEq] at hxy
      refine eq_of_getAddress_eq fTestNet (hvalid x (mem_newGrants.mp hx).1) (hvalid y (mem_newGrants.mp hy).1) ?_ hxy.2
      rw [ha, hb, hxy.1]
    · rw [List.mem_filter, ← Store.find?_eq_some (k := g.1) (v := g.2), hm, List.mem_map]
      constructor
      · rintro ⟨⟨cv, hheld, hu, ha, hn, hgr⟩, helected⟩
        have hcv : cv ∈ newGrants fTestNet vVote mapAlreadyElected u :=
          mem_newGrants.mpr ⟨hheld, hu, hgr, by rw [ha]; exact helected⟩
        refine ⟨cv, hcv, ?_⟩
        simp only [pay, ha, Option.getD_some, hn]
      · rintro ⟨cv, hcv, rfl⟩
        obtain ⟨a, ha, -, hp⟩ := hpay cv hcv
        obtain ⟨hheld, hu, hgr, hall⟩ := mem_newGrants.mp hcv
        rw [hp]
        rw [ha] at hall
        exact ⟨⟨cv, hheld, hu, ha, rfl, hgr⟩, hall⟩
  refine (hperm.map _).trans (List.Perm.of_eq ?_)
  rw [List.map_map]
  refine List.map_congr_left fun cv hcv => ?_
  obtain ⟨a, -, hd, hp⟩ := hpay cv hcv
  rw [Function.comp_apply, hp, grantOutput, paidOutput, hd]

theorem serializeSize_grantTx {u : CUnit} {vout : List CTxOut} {W : List CCustodianVote}
    (h : vout.Perm (W.map paidOutput)) : (grantTx nAdjustedTime u vout).serializeSize = grantSize W := by
  have hlen : vout.length = W.length := by rw [h.length_eq, List.length_map]
  have hsum : (vout.map (·.serializeSize)).sum = (W.map (fun cv => if cv.fScript then 32 else 34)).sum := by
    rw [(h.map _).sum_eq, List.map_map]
    exact congrArg List.sum (List.map_congr_left fun cv _ => serializeSize_paidOutput cv)
  have hvin : ((grantTx nAdjustedTime u vout).vin.map (·.serializeSize)).sum = 41 := by
    by_cases hu : u = unitShare <;> simp [grantTx, hu, CTxIn.serializeSize, bytesSize, getSizeOfCompactSize]
  unfold CTransaction.serializeSize grantSize
  rw [hvin]
  simp only [grantTx, hlen, hsum, List.length_singleton]
  have h1 : getSizeOfCompactSize 1 = 1 := rfl
  rw [h1]
  omega

/-- The transaction of a unit passes exactly when the unit's new grants are fit for a block. -/
theorem checkTransaction_unitGrant {u : CUnit} {vout : List CTxOut} (hu : isValidUnit u = true) (hne : vout ≠ [])
    {W : List CCustodianVote} (h : vout.Perm (W.map paidOutput)) :
    (grantTx nAdjustedTime u vout).checkTransaction = .ok () ↔
      (∀ cv ∈ W, minTxOutAmount u ≤ cv.nAmount) ∧ (W.map (·.nAmount)).sum ≤ maxMoney ∧
        grantSize W ≤ maxBlockSize := by
  have hscript : ∀ o ∈ vout, ∃ cv, o = paidOutput cv := by
    intro o ho
    obtain ⟨cv, -, rfl⟩ := List.mem_map.mp (h.mem_iff.mp ho)
    exact ⟨cv, rfl⟩
  have hamounts : (∀ o ∈ vout, minTxOutAmount u ≤ o.nValue) ↔ ∀ cv ∈ W, minTxOutAmount u ≤ cv.nAmount := by
    constructor
    · exact fun hall cv hcv => hall (paidOutput cv) (h.mem_iff.mpr (List.mem_map_of_mem hcv))
    · intro hall o ho
      obtain ⟨cv, hcv, rfl⟩ := List.mem_map.mp (h.mem_iff.mp ho)
      exact hall cv hcv
  have hsum : (vout.map (·.nValue)).sum = (W.map (·.nAmount)).sum := by
    rw [(h.map _).sum_eq, List.map_map]
    rfl
  rw [checkTransaction_grantTx hu hne hscript, hamounts, hsum, serializeSize_grantTx h]

variable (fTestNet nAdjustedTime mapAlreadyElected) in
/-- What is returned, unit by unit. -/
theorem mem_returnedCoinBases (hvalid : ∀ cv ∈ heldVotes vVote, isValidUnit cv.cUnit = true)
    (hage : ∀ v ∈ vVote, v.nCoinAgeDestroyed ≠ 0) :
    (∀ tx ∈ returnedCoinBases fTestNet nAdjustedTime vVote mapAlreadyElected, ∃ u vout,
      isValidUnit u = true ∧ vout ≠ [] ∧ tx = grantTx nAdjustedTime u vout ∧
        vout.Perm ((newGrants fTestNet vVote mapAlreadyElected u).map paidOutput)) ∧
    ∀ u, newGrants fTestNet vVote mapAlreadyElected u ≠ [] → ∃ vout, vout ≠ [] ∧
      vout.Perm ((newGrants fTestNet vVote mapAlreadyElected u).map paidOutput) ∧
        grantTx nAdjustedTime u vout ∈ returnedCoinBases fTestNet nAdjustedTime vVote mapAlreadyElected := by
  by_cases hnil : vVote = []
  · subst hnil
    refine ⟨fun tx htx => ?_, fun u hne => absurd rfl hne⟩
    exact absurd htx List.not_mem_nil
  obtain ⟨t, ht⟩ := (tally_ok_iff (t := {})).mpr hage
  have hunits : ∀ e ∈ t.mapCustodianVoteCounter.entries, isValidUnit e.1.cUnit = true := fun e he =>
    hvalid e.1 ((mem_tally ht).mp he).1
  obtain ⟨st, hst, hgr⟩ := grantLoop_grantedBy fTestNet (Int.tdiv (totalWeight vVote) 2)
    (vVote.length / 2 : Nat) hunits
  have hret : returnedCoinBases fTestNet nAdjustedTime vVote mapAlreadyElected =
      st.mapGrantedCustodians.entries.filterMap (fun g =>
        let vout := grantOutputs fTestNet mapAlreadyElected g.2
        if vout = [] then none else some (grantTx nAdjustedTime g.1 vout)) := by
    unfold returnedCoinBases generateCurrencyCoinBases
    rw [if_neg hnil, ht]
    simp only [ok_bind, tally_totalWeight ht, hst, pure_eq_ok]
  have hamount : ∀ {u m}, st.mapGrantedCustodians.find? u = some m → ∀ a amount, m.find? a = some amount ↔
      ∃ cv ∈ heldVotes vVote, cv.cUnit = u ∧ cv.getAddress fTestNet = some a ∧ cv.nAmount = amount ∧
        IsGranted vVote cv := by
    intro u m hm a amount
    rw [← granted_iff ht hvalid hgr, hm, Option.bind_some]
  rw [hret]
  constructor
  · intro tx htx
    obtain ⟨⟨u, m⟩, hmem, hg⟩ := List.mem_filterMap.mp htx
    have hm := Store.find?_eq_some.mpr hmem
    simp only [ite_eq_iff, reduceCtorEq, and_false, false_or, Option.some.injEq] at hg
    obtain ⟨hne, rfl⟩ := hg
    have hperm := grantOutputs_perm mapAlreadyElected hvalid (hamount hm)
    refine ⟨u, _, ?_, hne, rfl, hperm⟩
    obtain ⟨cv, hcv, -⟩ := List.mem_map.mp (hperm.mem_iff.mp (List.head_mem hne))
    obtain ⟨hheld, rfl, -⟩ := mem_newGrants.mp hcv
    exact hvalid cv hheld
  · intro u hne
    obtain ⟨cv, hcv⟩ := List.exists_mem_of_ne_nil _ hne
    obtain ⟨hheld, hu, hgrant, -⟩ := mem_newGrants.mp hcv
    obtain ⟨a, ha, -⟩ := cv.getAddress_of_valid fTestNet (hvalid cv hheld)
    have hsome := (granted_iff ht hvalid hgr).mpr ⟨cv, hheld, hu, ha, rfl, hgrant⟩
    obtain ⟨m, hm, -⟩ := Option.bind_eq_some_iff.mp hsome
    have hperm := grantOutputs_perm mapAlreadyElected hvalid (hamount hm)
    have hne' : grantOutputs fTestNet mapAlreadyElected m ≠ [] := by
      intro hnil'
      rw [hnil'] at hperm
      exact hne (List.map_eq_nil_iff.mp hperm.nil_eq.symm)
    refine ⟨_, hne', hperm, List.mem_filterMap.mpr ⟨(u, m), Store.find?_eq_some.mp hm, ?_⟩⟩
    simp only [if_neg hne']

theorem returnedCoinBases_of_zero (h : ∃ v ∈ vVote, v.nCoinAgeDestroyed = 0) :
    returnedCoinBases fTestNet nAdjustedTime vVote mapAlreadyElected = [] := by
  obtain ⟨v, hv, hz⟩ := h
  unfold returnedCoinBases generateCurrencyCoinBases
  rw [if_neg (List.ne_nil_of_mem hv)]
  cases ht : vVote.foldlM countVote {} with
  | ok t => exact absurd hz (tally_ok_iff.mp ⟨t, ht⟩ v hv)
  | error e => rfl

end Mineable

/-- **Exactly when every returned transaction can be in a block**: some vote has no coin age, so that nothing is
returned, or the new grants of each unit are fit for a block. -/
theorem returnedCoinBases_mineable_iff (fTestNet : Bool) (nAdjustedTime : Nat) (vVote : List CVote)
    (mapAlreadyElected : Store CBitcoinAddress Uint256)
    (hvalid : ∀ v ∈ vVote, ∃ nProtocolVersion, v.isValid nProtocolVersion = true) :
    (∀ tx ∈ returnedCoinBases fTestNet nAdjustedTime vVote mapAlreadyElected, tx.checkTransaction = .ok ()) ↔
      (∃ v ∈ vVote, v.nCoinAgeDestroyed = 0) ∨ GrantsMineable fTestNet vVote mapAlreadyElected := by
  have hheld : ∀ cv ∈ heldVotes vVote, isValidUnit cv.cUnit = true := by
    intro cv hcv
    obtain ⟨v, hv, hmem⟩ := List.mem_flatMap.mp (List.mem_dedup.mp hcv)
    obtain ⟨nProtocolVersion, hp⟩ := hvalid v hv
    simp only [CVote.isValid, decide_eq_true_eq, List.all_eq_true] at hp
    have hcvv := hp.2.2.1 cv hmem
    simp only [CCustodianVote.isValid, decide_eq_true_eq] at hcvv
    exact hcvv.1
  by_cases hage : ∃ v ∈ vVote, v.nCoinAgeDestroyed = 0
  · rw [returnedCoinBases_of_zero hage]
    exact iff_of_true (fun tx htx => absurd htx List.not_mem_nil) (.inl hage)
  have hage' : ∀ v ∈ vVote, v.nCoinAgeDestroyed ≠ 0 := fun v hv hz => hage ⟨v, hv, hz⟩
  obtain ⟨hfrom, hto⟩ := mem_returnedCoinBases fTestNet nAdjustedTime mapAlreadyElected hheld hage'
  rw [or_iff_right hage]
  constructor
  · intro hall u hu
    have hu' : isValidUnit u = true := List.contains_iff_mem.mpr hu
    by_cases hne : newGrants fTestNet vVote mapAlreadyElected u = []
    · rw [hne]
      exact ⟨fun cv hcv => absurd hcv List.not_mem_nil, by decide, by decide⟩
    · obtain ⟨vout, hvout, hperm, hmem⟩ := hto u hne
      exact (checkTransaction_unitGrant hu' hvout hperm).mp (hall _ hmem)
  · intro hfit tx htx
    obtain ⟨u, vout, hu, hvout, rfl, hperm⟩ := hfrom tx htx
    exact (checkTransaction_unitGrant hu hvout hperm).mpr (hfit u (List.contains_iff_mem.mp hu))

/-- One vote, for a custodian that is granted 500 NuBits. -/
def soleVote (nAmount : Int) : CVote :=
  { vCustodianVote := [{ cUnit := unitCurrency, nAmount := nAmount }], nCoinAgeDestroyed := 1000 }

theorem returnedCoinBases_mineable_soleVote :
    (∀ v ∈ [soleVote 5000000], ∃ nProtocolVersion, v.isValid nProtocolVersion = true) ∧
      ∀ tx ∈ returnedCoinBases false 1500000000 [soleVote 5000000] Store.empty, tx.checkTransaction = .ok () :=
  have hvalid : ∀ v ∈ [soleVote 5000000], ∃ nProtocolVersion, v.isValid nProtocolVersion = true := fun v hv =>
    ⟨protocolVersion, by rw [List.mem_singleton.mp hv]; decide⟩
  ⟨hvalid, (returnedCoinBases_mineable_iff false 1500000000 [soleVote 5000000] Store.empty hvalid).mpr
    (.inr (by decide +kernel))⟩

/-- Valid votes whose grant cannot be in any block: one amount is below the minimum, and two winning amounts exceed
`MAX_MONEY` together. -/
theorem returnedCoinBases_unmineable :
    ((soleVote 0).isValid protocolVersion = true ∧
      (returnedCoinBases false 1500000000 [soleVote 0] Store.empty).map (·.checkTransaction) =
        [.error (.dos 100 false "CTransaction::CheckTransaction() : txout.nValue below minimum")]) ∧
    ∃ vote : CVote, vote.isValid protocolVersion = true ∧
      (returnedCoinBases false 1500000000 [vote] Store.empty).map (·.checkTransaction) =
        [.error (.dos 100 false "CTransaction::CheckTransaction() : txout total out of range")] := by
  refine ⟨by decide +kernel, {
    vCustodianVote := [
      { cUnit := unitCurrency, nAmount := maxMoney }, { cUnit := unitCurrency, fScript := true, nAmount := maxMoney }]
    nCoinAgeDestroyed := 1000 }, by decide +kernel⟩

end Morcochain
