import Morcochain.Grants
import Morcochain.ParkTally

/-!
# The election of custodians

What `GenerateCurrencyCoinBases` (`vote.cpp`) pays, in terms of the votes alone. A custodian is elected by two
majorities for one amount, that of the weight and that of the number of the votes.

* `isGranted_iff` : the votes that are granted are those for the winning amounts.
* `payments_perm` : what an address is paid by the transactions that are returned.
* `generateCurrencyCoinBases_elects` : **the law of the election**.
-/

set_option autoImplicit false

namespace Morcochain

open OrderedStore Guard

/-! ## The law -/

/-- The votes that hold a custodian vote. -/
def supporters (vVote : List CVote) (cv : CCustodianVote) : List CVote := vVote.filter (cv ∈ ·.vCustodianVote)

/-- Votes of more than half of the weight hold the custodian vote, and more than half of the votes do. -/
def Qualifies (vVote : List CVote) (cv : CCustodianVote) : Prop :=
  weightOfVotes vVote / 2 < weightOfVotes (supporters vVote cv) ∧ vVote.length / 2 < (supporters vVote cv).length

/-- The custodian vote with another amount. -/
def CCustodianVote.withAmount (cv : CCustodianVote) (nAmount : Int) : CCustodianVote := { cv with nAmount := nAmount }

/-- The amount qualifies for the address of a custodian vote, and no other amount that does has more weight, or the same
weight and is smaller. -/
structure IsWinningAmount (vVote : List CVote) (cv : CCustodianVote) (nAmount : Int) : Prop where
  qualifies : Qualifies vVote (cv.withAmount nAmount)
  best : ∀ n, Qualifies vVote (cv.withAmount n) →
    weightOfVotes (supporters vVote (cv.withAmount n)) < weightOfVotes (supporters vVote (cv.withAmount nAmount)) ∨
    weightOfVotes (supporters vVote (cv.withAmount n)) = weightOfVotes (supporters vVote (cv.withAmount nAmount)) ∧
      nAmount ≤ n

/-- What transactions pay to the address of a custodian vote in the unit of the vote. -/
def payments (vtx : List CTransaction) (cv : CCustodianVote) : List Int :=
  (((vtx.filter (·.cUnit = cv.cUnit)).flatMap (·.vout)).filter (·.scriptPubKey = setDestination cv.destination)).map
    (·.nValue)

/-- The transactions pay those who are elected and were not before, once, and nobody else. An address is given by a
custodian vote, of which the amount does not matter. -/
structure ElectionLaw (fTestNet : Bool) (vVote : List CVote) (mapAlreadyElected : Store CBitcoinAddress Uint256)
    (vtx : List CTransaction) : Prop where
  winners : ∀ cv address, isValidUnit cv.cUnit = true → cv.getAddress fTestNet = some address →
    mapAlreadyElected.find? address = none → (∃ n, Qualifies vVote (cv.withAmount n)) →
    ∃ n, IsWinningAmount vVote cv n ∧ payments vtx cv = [n]
  others : ∀ cv address, isValidUnit cv.cUnit = true → cv.getAddress fTestNet = some address →
    (mapAlreadyElected.find? address ≠ none ∨ ¬ ∃ n, Qualifies vVote (cv.withAmount n)) → payments vtx cv = []
  addresses : ∀ tx ∈ vtx, ∀ txout ∈ tx.vout, ∃ cv : CCustodianVote, isValidUnit cv.cUnit = true ∧ cv.cUnit = tx.cUnit ∧
    txout.scriptPubKey = setDestination cv.destination
  units : (vtx.map (·.cUnit)).Nodup
  paying : ∀ tx ∈ vtx, tx.vout ≠ []

/-- Valid votes with positive weights. -/
structure Electing (vVote : List CVote) : Prop where
  valid : ∀ vote ∈ vVote, ∃ nProtocolVersion, vote.isValid nProtocolVersion = true
  positive : ∀ vote ∈ vVote, 0 < vote.nCoinAgeDestroyed

/-! ## Weights and counts -/

section Weights

variable {vVote vVote' : List CVote} {cv cv' : CCustodianVote}

theorem Electing.units (h : Electing vVote) : ∀ cv ∈ heldVotes vVote, isValidUnit cv.cUnit = true := by
  intro cv hcv
  obtain ⟨v, hv, hmem⟩ := List.mem_flatMap.mp (List.mem_dedup.mp hcv)
  obtain ⟨nProtocolVersion, hp⟩ := h.valid v hv
  simp only [CVote.isValid, decide_eq_true_eq, List.all_eq_true] at hp
  have hcvv := hp.2.2.1 cv hmem
  simp only [CCustodianVote.isValid, decide_eq_true_eq] at hcvv
  exact hcvv.1

theorem Electing.nodup (h : Electing vVote) : ∀ vote ∈ vVote, vote.vCustodianVote.Nodup := by
  intro vote hv
  obtain ⟨nProtocolVersion, hp⟩ := h.valid vote hv
  simp only [CVote.isValid, decide_eq_true_eq] at hp
  exact hp.2.2.2

/-- A vote holds a custodian vote once. -/
theorem count_eq (hnodup : ∀ vote ∈ vVote, vote.vCustodianVote.Nodup) (cv : CCustodianVote) :
    ∀ vote ∈ vVote, vote.vCustodianVote.count cv = if cv ∈ vote.vCustodianVote then 1 else 0 := by
  intro vote hv
  split
  · rename_i hmem
    exact List.count_eq_one_of_mem (hnodup vote hv) hmem
  · rename_i hmem
    exact List.count_eq_zero.mpr hmem

/-- The weight that is counted for a custodian vote, before it is an `int64`. -/
theorem sum_weights (hnodup : ∀ vote ∈ vVote, vote.vCustodianVote.Nodup) :
    (vVote.map (fun v => (v.vCustodianVote.count cv : Int) * v.nCoinAgeDestroyed)).sum =
      weightOfVotes (supporters vVote cv) := by
  induction vVote with
  | nil => rfl
  | cons v l ih =>
    have hcount := count_eq hnodup cv v List.mem_cons_self
    rw [List.map_cons, List.sum_cons, ih fun vote hv => hnodup vote (List.mem_cons_of_mem v hv), hcount]
    unfold supporters
    by_cases hmem : cv ∈ v.vCustodianVote
    · rw [if_pos hmem, List.filter_cons_of_pos (by simpa using hmem), weightOfVotes_cons]
      push_cast
      ring
    · rw [if_neg hmem, List.filter_cons_of_neg (by simpa using hmem)]
      push_cast
      ring

theorem voteCount_eq (hnodup : ∀ vote ∈ vVote, vote.vCustodianVote.Nodup) :
    voteCount vVote cv = (supporters vVote cv).length := by
  induction vVote with
  | nil => rfl
  | cons v l ih =>
    have hcount := count_eq hnodup cv v List.mem_cons_self
    have hl := ih fun vote hv => hnodup vote (List.mem_cons_of_mem v hv)
    unfold voteCount supporters at hl ⊢
    rw [List.map_cons, List.sum_cons, hl, hcount]
    by_cases hmem : cv ∈ v.vCustodianVote
    · rw [if_pos hmem, List.filter_cons_of_pos (by simpa using hmem), List.length_cons]
      push_cast
      ring
    · rw [if_neg hmem, List.filter_cons_of_neg (by simpa using hmem)]
      push_cast
      ring

theorem weightOfVotes_filter_le (p : CVote → Bool) (l : List CVote) : weightOfVotes (l.filter p) ≤ weightOfVotes l := by
  induction l with
  | nil => exact Nat.le_refl 0
  | cons v l ih =>
    rw [weightOfVotes_cons]
    by_cases hp : p v
    · rw [List.filter_cons_of_pos hp, weightOfVotes_cons]
      omega
    · rw [List.filter_cons_of_neg hp]
      omega

theorem voteWeight_eq (hnodup : ∀ vote ∈ vVote, vote.vCustodianVote.Nodup) (hfits : weightOfVotes vVote < 2 ^ 63) :
    voteWeight vVote cv = weightOfVotes (supporters vVote cv) := by
  have hle := weightOfVotes_filter_le (cv ∈ ·.vCustodianVote) vVote
  have hlt : weightOfVotes (supporters vVote cv) < 2 ^ 63 := hle.trans_lt hfits
  rw [voteWeight, sum_weights hnodup]
  exact toInt64_eq (by omega) (by omega)

theorem totalWeight_eq (hfits : weightOfVotes vVote < 2 ^ 63) : totalWeight vVote = weightOfVotes vVote := by
  have hsum : (vVote.map (fun v => (v.nCoinAgeDestroyed : Int))).sum = weightOfVotes vVote := by
    clear hfits
    induction vVote with
    | nil => rfl
    | cons v l ih =>
      rw [List.map_cons, List.sum_cons, ih, weightOfVotes_cons]
      push_cast
      rfl
  rw [totalWeight, hsum]
  exact toInt64_eq (by omega) (by omega)

/-- A custodian vote is elected when it qualifies. -/
theorem isElected_iff (hnodup : ∀ vote ∈ vVote, vote.vCustodianVote.Nodup) (hfits : weightOfVotes vVote < 2 ^ 63) :
    IsElected vVote cv ↔ Qualifies vVote cv := by
  unfold IsElected Qualifies
  rw [voteWeight_eq hnodup hfits, voteCount_eq hnodup, totalWeight_eq hfits]
  have hhalf : Int.tdiv (weightOfVotes vVote) 2 = ((weightOfVotes vVote / 2 : Nat) : Int) := rfl
  rw [hhalf]
  omega

end Weights

/-! ## The winners -/

section Winners

variable {vVote : List CVote} {cv cv' : CCustodianVote} {n : Int}

@[simp] theorem CCustodianVote.withAmount_self (cv : CCustodianVote) : cv.withAmount cv.nAmount = cv := rfl

@[simp] theorem CCustodianVote.withAmount_withAmount (cv : CCustodianVote) (n n' : Int) :
    (cv.withAmount n).withAmount n' = cv.withAmount n' := rfl

/-- A custodian vote for the same address is the vote with another amount. -/
theorem SameAddress.eq_withAmount (h : SameAddress cv' cv) : cv' = cv.withAmount cv'.nAmount := by
  obtain ⟨hu, hs, hx⟩ := h
  cases cv'
  cases cv
  simp only at hu hs hx
  rw [hu, hs, hx]
  rfl

theorem sameAddress_withAmount (cv : CCustodianVote) (n : Int) : SameAddress (cv.withAmount n) cv := ⟨rfl, rfl, rfl⟩

/-- What qualifies is held by some vote. -/
theorem Qualifies.held (h : Qualifies vVote cv) : cv ∈ heldVotes vVote := by
  have hpos : 0 < (supporters vVote cv).length := by
    have := h.2
    omega
  obtain ⟨vote, hvote⟩ := List.exists_mem_of_length_pos hpos
  obtain ⟨hv, hmem⟩ := List.mem_filter.mp hvote
  exact List.mem_dedup.mpr (List.mem_flatMap.mpr ⟨vote, hv, by simpa using hmem⟩)

/-- **The votes that are granted** are those for the winning amounts. -/
theorem isGranted_iff (hnodup : ∀ vote ∈ vVote, vote.vCustodianVote.Nodup) (hfits : weightOfVotes vVote < 2 ^ 63) :
    IsGranted vVote (cv.withAmount n) ↔ IsWinningAmount vVote cv n := by
  unfold IsGranted
  rw [isElected_iff hnodup hfits]
  simp only [voteWeight_eq hnodup hfits, isElected_iff hnodup hfits]
  constructor
  · rintro ⟨hq, -, hbest⟩
    refine ⟨hq, fun n' hq' => ?_⟩
    have := hbest _ hq'.held hq' (sameAddress_withAmount cv n')
    exact this.imp Int.ofNat_lt.mp fun ⟨heq, hle⟩ => ⟨Int.ofNat_inj.mp heq, hle⟩
  · rintro ⟨hq, hbest⟩
    refine ⟨hq, by have := hq.1; omega, fun cv' _ hq' hsame => ?_⟩
    rw [hsame.eq_withAmount] at hq' ⊢
    exact (hbest _ hq').imp Int.ofNat_lt.mpr fun ⟨heq, hle⟩ => ⟨congrArg _ heq, hle⟩

/-- When an amount qualifies, one wins. -/
theorem exists_winning (h : ∃ n, Qualifies vVote (cv.withAmount n)) : ∃ n, IsWinningAmount vVote cv n := by
  classical
  let s := ((heldVotes vVote).filter fun cv' => SameAddress cv' cv ∧ Qualifies vVote cv').toFinset
  have hs : ∀ {cv'}, cv' ∈ s ↔ SameAddress cv' cv ∧ Qualifies vVote cv' := by
    intro cv'
    simp only [s, List.mem_toFinset, List.mem_filter, decide_eq_true_eq]
    exact and_iff_right_of_imp fun h => h.2.held
  obtain ⟨n, hn⟩ := h
  obtain ⟨best, hbest, hmax⟩ := s.exists_max_image
    (fun cv' => toLex (weightOfVotes (supporters vVote cv'), -cv'.nAmount)) ⟨_, hs.mpr ⟨sameAddress_withAmount cv n, hn⟩⟩
  obtain ⟨hsame, hq⟩ := hs.mp hbest
  refine ⟨best.nAmount, by rwa [← hsame.eq_withAmount], fun n' hq' => ?_⟩
  have hle := hmax _ (hs.mpr ⟨sameAddress_withAmount cv n', hq'⟩)
  rw [← hsame.eq_withAmount]
  rw [Prod.Lex.le_iff] at hle
  refine hle.imp id fun ⟨heq, hle⟩ => ⟨heq, ?_⟩
  have hneg : -n' ≤ -best.nAmount := hle
  omega

/-- One amount wins. -/
theorem IsWinningAmount.unique {n' : Int} (h : IsWinningAmount vVote cv n) (h' : IsWinningAmount vVote cv n') :
    n = n' := by
  rcases h.best n' h'.qualifies with hlt | ⟨heq, hle⟩
  · rcases h'.best n h.qualifies with hlt' | ⟨heq', -⟩
    · omega
    · omega
  · rcases h'.best n h.qualifies with hlt' | ⟨-, hle'⟩
    · omega
    · omega

end Winners

/-! ## The transactions -/

section Paid

variable {fTestNet : Bool} {nAdjustedTime : Nat} {vVote : List CVote} {mapAlreadyElected : Store CBitcoinAddress Uint256}

/-- The transactions that are returned are those of the units of a map. -/
theorem exists_grantedUnits {vtx : List CTransaction}
    (h : generateCurrencyCoinBases fTestNet nAdjustedTime vVote mapAlreadyElected = .ok vtx) :
    ∃ m : Store CUnit (Store CBitcoinAddress Int), vtx = m.entries.filterMap (fun g =>
      let vout := grantOutputs fTestNet mapAlreadyElected g.2
      if vout = [] then none else some (grantTx nAdjustedTime g.1 vout)) := by
  unfold generateCurrencyCoinBases at h
  split at h
  · cases h
    exact ⟨Store.empty, rfl⟩
  · obtain ⟨_, -, h⟩ := bind_eq_ok.mp h
    obtain ⟨st, -, h⟩ := bind_eq_ok.mp h
    cases h
    exact ⟨st.mapGrantedCustodians, rfl⟩

/-- There is one transaction for a unit. -/
theorem units_nodup {vtx : List CTransaction}
    (h : generateCurrencyCoinBases fTestNet nAdjustedTime vVote mapAlreadyElected = .ok vtx) :
    (vtx.map (·.cUnit)).Nodup := by
  obtain ⟨m, rfl⟩ := exists_grantedUnits h
  rw [List.map_filterMap]
  refine List.Pairwise.filterMap _ (fun a b hlt u hu u' hu' => ?_) m.sorted
  have hunit : ∀ {g : CUnit × Store CBitcoinAddress Int} {u : CUnit},
    ((if grantOutputs fTestNet mapAlreadyElected g.2 = []
      then none else some (grantTx nAdjustedTime g.1 (grantOutputs fTestNet mapAlreadyElected g.2))).map (·.cUnit)) =
        some u → u = g.1 := fun {g u} hu => by
    split at hu
    · cases hu
    · cases hu
      rfl
  rw [hunit hu, hunit hu']
  exact fun heq => Std.lt_irrefl (heq ▸ hlt)

/-- Where keys do not repeat, an element is found by its key. -/
theorem filter_eq_singleton {α β : Type} [DecidableEq β] {f : α → β} : ∀ {l : List α} {x : α}, (l.map f).Nodup → x ∈ l →
    l.filter (f · = f x) = [x]
  | [], _, _, h => nomatch h
  | y :: l, x, hnodup, h => by
    rw [List.map_cons, List.nodup_cons] at hnodup
    rcases List.mem_cons.mp h with rfl | h
    · have hrest : l.filter (f · = f x) = [] := List.filter_eq_nil_iff.mpr fun z hz hzx =>
        hnodup.1 (of_decide_eq_true hzx ▸ List.mem_map_of_mem hz)
      rw [List.filter_cons_of_pos (by simp), hrest]
    · have hne : f y ≠ f x := fun heq => hnodup.1 (heq ▸ List.mem_map_of_mem h)
      rw [List.filter_cons_of_neg (by simpa using hne), filter_eq_singleton hnodup.2 h]

/-- Scripts tell destinations apart. -/
theorem setDestination_inj {cv cv' : CCustodianVote} (hunit : cv'.cUnit = cv.cUnit) :
    setDestination cv'.destination = setDestination cv.destination ↔ SameAddress cv' cv := by
  constructor
  · intro h
    have hd := congrArg (extractDestination Crypto.sample) h
    rw [extractDestination_setDestination cv'.destination_ne_none,
      extractDestination_setDestination cv.destination_ne_none, Option.some.injEq] at hd
    refine ⟨hunit, ?_⟩
    unfold CCustodianVote.destination at hd
    cases hs : cv'.fScript <;> cases hs' : cv.fScript <;> simp_all
  · rintro ⟨-, hs, hx⟩
    unfold CCustodianVote.destination
    rw [hs, hx]

/-- The new grants for an address. -/
theorem newGrants_address (h : Electing vVote) (hfits : weightOfVotes vVote < 2 ^ 63) {cv : CCustodianVote}
    {address : CBitcoinAddress} (hunit : isValidUnit cv.cUnit = true) (haddr : cv.getAddress fTestNet = some address)
    {cv' : CCustodianVote} :
    cv' ∈ (newGrants fTestNet vVote mapAlreadyElected cv.cUnit).filter (SameAddress · cv) ↔
      mapAlreadyElected.find? address = none ∧ ∃ n, cv' = cv.withAmount n ∧ IsWinningAmount vVote cv n := by
  rw [List.mem_filter, mem_newGrants, decide_eq_true_eq]
  constructor
  · rintro ⟨⟨-, -, hgrant, hnew⟩, hsame⟩
    have haddr' := (cv.getAddress_eq_iff hunit (hsame.1 ▸ hunit) haddr).mpr hsame
    rw [haddr', Option.all_some, Option.isNone_iff_eq_none] at hnew
    rw [hsame.eq_withAmount] at hgrant
    exact ⟨hnew, _, hsame.eq_withAmount, (isGranted_iff h.nodup hfits).mp hgrant⟩
  · rintro ⟨hnew, n, rfl, hwin⟩
    have haddr' : (cv.withAmount n).getAddress fTestNet = some address :=
      (cv.getAddress_eq_iff hunit hunit haddr).mpr (sameAddress_withAmount cv n)
    refine ⟨⟨hwin.qualifies.held, rfl, (isGranted_iff h.nodup hfits).mpr hwin, ?_⟩, sameAddress_withAmount cv n⟩
    rw [haddr', Option.all_some, hnew]
    rfl

/-- **What an address is paid** by the transactions that are returned. -/
theorem payments_perm (h : Electing vVote) {vtx : List CTransaction}
    (hvtx : generateCurrencyCoinBases fTestNet nAdjustedTime vVote mapAlreadyElected = .ok vtx) (cv : CCustodianVote) :
    (payments vtx cv).Perm
      (((newGrants fTestNet vVote mapAlreadyElected cv.cUnit).filter (SameAddress · cv)).map (·.nAmount)) := by
  have hage : ∀ v ∈ vVote, v.nCoinAgeDestroyed ≠ 0 := fun v hv => (h.positive v hv).ne'
  obtain ⟨hfrom, hto⟩ := mem_returnedCoinBases fTestNet nAdjustedTime mapAlreadyElected h.units hage
  rw [returnedCoinBases, hvtx] at hfrom hto
  unfold payments
  by_cases hne : newGrants fTestNet vVote mapAlreadyElected cv.cUnit = []
  · have hnone : vtx.filter (·.cUnit = cv.cUnit) = [] := by
      refine List.filter_eq_nil_iff.mpr fun tx htx hu => ?_
      obtain ⟨u, vout, -, hvout, rfl, hperm⟩ := hfrom tx htx
      obtain rfl : u = cv.cUnit := of_decide_eq_true hu
      rw [hne] at hperm
      exact hvout hperm.eq_nil
    rw [hnone, hne]
    exact List.Perm.nil
  · obtain ⟨vout, -, hperm, hmem⟩ := hto cv.cUnit hne
    have hone : vtx.filter (·.cUnit = cv.cUnit) = [grantTx nAdjustedTime cv.cUnit vout] :=
      filter_eq_singleton (units_nodup hvtx) hmem
    rw [hone, List.flatMap_singleton]
    refine ((hperm.filter _).map _).trans (List.Perm.of_eq ?_)
    rw [List.filter_map, List.map_map]
    have hscripts : (newGrants fTestNet vVote mapAlreadyElected cv.cUnit).filter
        ((fun txout : CTxOut => decide (txout.scriptPubKey = setDestination cv.destination)) ∘ paidOutput) =
          (newGrants fTestNet vVote mapAlreadyElected cv.cUnit).filter (SameAddress · cv) := by
      refine List.filter_congr fun cv' hcv' => ?_
      exact decide_eq_decide.mpr (setDestination_inj (mem_newGrants.mp hcv').2.1)
    rw [hscripts]
    rfl

/-- A list without repetitions that holds one element only. -/
theorem eq_singleton_of_nodup {α : Type} {l : List α} {x : α} (hnodup : l.Nodup) (hx : x ∈ l) (hall : ∀ y ∈ l, y = x) :
    l = [x] := by
  have hperm : l.Perm [x] := (List.perm_ext_iff_of_nodup hnodup (List.nodup_singleton x)).mpr fun y =>
    ⟨fun hy => List.mem_singleton.mpr (hall y hy), fun hy => List.mem_singleton.mp hy ▸ hx⟩
  exact hperm.eq_singleton

variable (fTestNet nAdjustedTime mapAlreadyElected) in
/-- The election comes to an end. -/
theorem exists_coinBases (h : Electing vVote) :
    ∃ vtx, generateCurrencyCoinBases fTestNet nAdjustedTime vVote mapAlreadyElected = .ok vtx := by
  have hage : ∀ v ∈ vVote, v.nCoinAgeDestroyed ≠ 0 := fun v hv => (h.positive v hv).ne'
  unfold generateCurrencyCoinBases
  split
  · exact ⟨[], rfl⟩
  · obtain ⟨t, ht⟩ := (@tally_ok_iff vVote {}).mpr hage
    have hunits : ∀ e ∈ t.mapCustodianVoteCounter.entries, isValidUnit e.1.cUnit = true := fun e he =>
      h.units e.1 ((mem_tally ht).mp he).1
    obtain ⟨st, hst, -⟩ := grantLoop_grantedBy fTestNet (Int.tdiv (totalWeight vVote) 2) (vVote.length / 2 : Nat) hunits
    rw [ht]
    simp only [ok_bind, tally_totalWeight ht, hst, pure_eq_ok]
    exact ⟨_, rfl⟩

variable (fTestNet nAdjustedTime mapAlreadyElected) in
/-- What is returned obeys the law. -/
theorem exists_electionLaw (h : Electing vVote) (hfits : weightOfVotes vVote < 2 ^ 63) :
    ∃ vtx, generateCurrencyCoinBases fTestNet nAdjustedTime vVote mapAlreadyElected = .ok vtx ∧
      ElectionLaw fTestNet vVote mapAlreadyElected vtx := by
  obtain ⟨vtx, hvtx⟩ := exists_coinBases fTestNet nAdjustedTime mapAlreadyElected h
  have hage : ∀ v ∈ vVote, v.nCoinAgeDestroyed ≠ 0 := fun v hv => (h.positive v hv).ne'
  have hfrom := (mem_returnedCoinBases fTestNet nAdjustedTime mapAlreadyElected h.units hage).1
  rw [returnedCoinBases, hvtx] at hfrom
  refine ⟨vtx, hvtx, ?_, ?_, ?_, units_nodup hvtx, ?_⟩
  · intro cv address hunit haddr hnew hq
    obtain ⟨n, hwin⟩ := exists_winning hq
    have hone : (newGrants fTestNet vVote mapAlreadyElected cv.cUnit).filter (SameAddress · cv) =
      [cv.withAmount n] := by
      refine eq_singleton_of_nodup (((List.nodup_dedup _).filter _).filter _)
        ((newGrants_address h hfits hunit haddr).mpr ⟨hnew, n, rfl, hwin⟩) fun cv' hcv' => ?_
      obtain ⟨-, n', rfl, hwin'⟩ := (newGrants_address h hfits hunit haddr).mp hcv'
      rw [hwin'.unique hwin]
    have hperm := payments_perm h hvtx cv
    rw [hone] at hperm
    exact ⟨n, hwin, hperm.eq_singleton⟩
  · intro cv address hunit haddr hnot
    have hnone : (newGrants fTestNet vVote mapAlreadyElected cv.cUnit).filter (SameAddress · cv) = [] := by
      refine List.eq_nil_iff_forall_not_mem.mpr fun cv' hcv' => ?_
      obtain ⟨hnew, n, -, hwin⟩ := (newGrants_address h hfits hunit haddr).mp hcv'
      rcases hnot with hold | hq
      · exact hold hnew
      · exact hq ⟨n, hwin.qualifies⟩
    have hperm := payments_perm h hvtx cv
    rw [hnone] at hperm
    exact hperm.eq_nil
  · intro tx htx txout htxout
    obtain ⟨u, vout, hunit, -, rfl, hperm⟩ := hfrom tx htx
    obtain ⟨cv, hcv, rfl⟩ := List.mem_map.mp (hperm.mem_iff.mp htxout)
    obtain ⟨-, rfl, -⟩ := mem_newGrants.mp hcv
    exact ⟨cv, hunit, rfl, rfl⟩
  · intro tx htx
    obtain ⟨u, vout, -, hvout, rfl, -⟩ := hfrom tx htx
    exact hvout

end Paid

/-! ## The order of the votes -/

/-- The order of the votes makes no difference. -/
theorem generateCurrencyCoinBases_perm (fTestNet : Bool) (nAdjustedTime : Nat) {vVote vVote' : List CVote}
    (mapAlreadyElected : Store CBitcoinAddress Uint256) (hperm : vVote'.Perm vVote)
    (hage : ∀ v ∈ vVote, v.nCoinAgeDestroyed ≠ 0) :
    generateCurrencyCoinBases fTestNet nAdjustedTime vVote' mapAlreadyElected =
      generateCurrencyCoinBases fTestNet nAdjustedTime vVote mapAlreadyElected := by
  have hage' : ∀ v ∈ vVote', v.nCoinAgeDestroyed ≠ 0 := fun v hv => hage v (hperm.mem_iff.mp hv)
  obtain ⟨t, ht⟩ := (@tally_ok_iff vVote {}).mpr hage
  obtain ⟨t', ht'⟩ := (@tally_ok_iff vVote' {}).mpr hage'
  have hweight : ∀ cv, voteWeight vVote' cv = voteWeight vVote cv := fun cv => by
    unfold voteWeight
    rw [(hperm.map _).sum_eq]
  have hcount : ∀ cv, voteCount vVote' cv = voteCount vVote cv := fun cv => by
    unfold voteCount
    rw [(hperm.map _).sum_eq]
  have htotal : totalWeight vVote' = totalWeight vVote := by
    unfold totalWeight
    rw [(hperm.map _).sum_eq]
  have hcounters : t'.mapCustodianVoteCounter = t.mapCustodianVoteCounter := Store.ext_find? fun cv => by
    rw [tally_find? ht, tally_find? ht', hweight, hcount]
  have hnil : vVote' = [] ↔ vVote = [] := ⟨fun h => (h ▸ hperm).nil_eq.symm, fun h => (h ▸ hperm).eq_nil⟩
  unfold generateCurrencyCoinBases
  rw [ht, ht']
  simp only [hnil, ok_bind, tally_totalWeight ht, tally_totalWeight ht', htotal, hcounters, hperm.length_eq]

/-! ## The claim -/

/-- **The law of the election.** When the weights of the votes add up to an `int64`, each address is paid once that is
elected and was not before, the winning amount, in the transaction of its unit, and nobody else is; the order of the
votes makes no difference. -/
theorem generateCurrencyCoinBases_elects (fTestNet : Bool) (nAdjustedTime : Nat) (vVote : List CVote)
    (mapAlreadyElected : Store CBitcoinAddress Uint256) (h : Electing vVote) (hfits : weightOfVotes vVote < 2 ^ 63) :
    (∃ vtx, generateCurrencyCoinBases fTestNet nAdjustedTime vVote mapAlreadyElected = .ok vtx ∧
      ElectionLaw fTestNet vVote mapAlreadyElected vtx) ∧
    ∀ vVote' : List CVote, vVote'.Perm vVote →
      generateCurrencyCoinBases fTestNet nAdjustedTime vVote' mapAlreadyElected =
        generateCurrencyCoinBases fTestNet nAdjustedTime vVote mapAlreadyElected :=
  ⟨exists_electionLaw fTestNet nAdjustedTime mapAlreadyElected h hfits, fun _ hperm =>
    generateCurrencyCoinBases_perm fTestNet nAdjustedTime mapAlreadyElected hperm fun v hv => (h.positive v hv).ne'⟩

/-- Two votes for one address: the second amount has less weight. -/
def rivalVotes : List CVote :=
  [{ vCustodianVote := [{ cUnit := unitCurrency, nAmount := 5000000 }, { cUnit := unitCurrency, nAmount := 7000000 }]
     nCoinAgeDestroyed := 1000 },
    { vCustodianVote := [{ cUnit := unitCurrency, nAmount := 5000000 }, { cUnit := unitCurrency, nAmount := 7000000 }]
      nCoinAgeDestroyed := 600 },
    { vCustodianVote := [{ cUnit := unitCurrency, nAmount := 7000000 }], nCoinAgeDestroyed := 10 }]

theorem rivalVotes_electing : Electing rivalVotes where
  valid v hv := ⟨protocolVersion, by revert v; decide⟩
  positive := by decide

theorem generateCurrencyCoinBases_elects_sample :
    (∃ vtx, generateCurrencyCoinBases false 1500000000 rivalVotes Store.empty = .ok vtx ∧
      ElectionLaw false rivalVotes Store.empty vtx) ∧
    (returnedCoinBases false 1500000000 rivalVotes Store.empty).map (fun tx => tx.vout.map (·.nValue)) = [[7000000]] :=
  ⟨(generateCurrencyCoinBases_elects false 1500000000 rivalVotes Store.empty rivalVotes_electing (by decide)).1,
    by decide +kernel⟩

/-- Two votes for one grant, of which the weights do not add up to an `int64`. -/
def heavyVotes : List CVote :=
  [{ vCustodianVote := [{ cUnit := unitCurrency, nAmount := 5000000 }], nCoinAgeDestroyed := 2 ^ 62 },
    { vCustodianVote := [{ cUnit := unitCurrency, nAmount := 5000000 }], nCoinAgeDestroyed := 2 ^ 62 }]

/-- All votes are for one grant, and nothing is paid. -/
theorem generateCurrencyCoinBases_overflows :
    Electing heavyVotes ∧ generateCurrencyCoinBases false 1500000000 heavyVotes Store.empty = .ok [] ∧
      ¬ ElectionLaw false heavyVotes Store.empty [] := by
  refine ⟨⟨fun v hv => ⟨protocolVersion, by revert v; decide⟩, by decide⟩, ?_, fun hlaw => ?_⟩
  · exact toOption_eq_some.mp (by decide +kernel)
  · have hq : Qualifies heavyVotes { cUnit := unitCurrency, nAmount := 5000000 } := by
      unfold Qualifies
      decide +kernel
    obtain ⟨a, ha, -⟩ :=
      CCustodianVote.getAddress_of_valid false (v := { cUnit := unitCurrency, nAmount := 5000000 }) rfl
    obtain ⟨n, -, hpay⟩ := hlaw.winners _ a rfl ha rfl ⟨5000000, hq⟩
    cases hpay

end Morcochain
