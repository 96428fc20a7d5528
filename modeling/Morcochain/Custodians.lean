import Morcochain.ChainVotes
import Morcochain.CoinAge
import Morcochain.Grants

/-!
# Custodian grants of a block

`ExtractVotes` (`vote.cpp`), `GetElectedCustodians` and `CheckCustodianGrants`, and the part of `CreateNewBlock` that
puts the grants into a block (`main.cpp`). The own vote of a block weighs its coin age, which three routines compute:
the minter before it adds the transactions of its pool, the check of the finished block, and the entry of the block.

* `generateCurrencyCoinBases_time` : the grants do not depend on the clock, but for their times.
* `blockCoinAge_template`, `blockCoinAge_finished` : the coin age of the block before and after the pool is added.
* `weights_agree_iff` : **exactly when the three weights are one** and the grants of the minter pass the check.
-/

set_option autoImplicit false

namespace Morcochain

open OrderedStore Guard

/-- What a caller makes of a routine that returned false. -/
def orError {α : Type} (msg : String) (x : Check α) : Check α :=
  match x with
  | .error (.error _) => .error (.error msg)
  | x => x

@[simp] theorem orError_eq_ok {α : Type} {msg : String} {x : Check α} {a : α} :
    orError msg x = .ok a ↔ x = .ok a := by
  unfold orError
  split <;> simp

/-! ## The votes -/

/-- `ExtractVotes`: the vote of the block with its coin age, and those of the blocks before it. -/
def CoinAgeContext.extractVotes (c : CoinAgeContext) (block : CBlock) (chainPrev : List CBlockIndex) (nCount : Nat) :
    Check (List CVote) := do
  let nProtocolVersion := getProtocolForNextBlock c.cfg chainPrev
  match extractVote block nProtocolVersion with
  | none => .error (.error "ExtractVotes(): ExtractVote failed")
  | some vote => do
    errorIf (!vote.isValid nProtocolVersion) "ExtractVotes(): Invalid vote"
    let nCoinAge ← orError "ExtractVotes(): Unable to get block coin age" (c.blockCoinAge block)
    return votesBefore nCount { vote with nCoinAgeDestroyed := nCoinAge } chainPrev

/-! ## The elected custodians -/

/-- The entries that `pprevElected` leads through, `fuel` of them at most. -/
def electedWalk (find : Uint256 → Option CBlockIndex) : Nat → Option CBlockIndex → List CBlockIndex
  | 0, _ => []
  | _, none => []
  | fuel + 1, some pindex => pindex :: electedWalk find fuel (pindex.pprevElected.bind find)

/-- The entries that `GetElectedCustodians` goes through. The links lead to lower and lower entries. -/
def BlockMap.electedChain (m : BlockMap) (pindex : CBlockIndex) : List CBlockIndex :=
  electedWalk m.find (pindex.nHeight + 1) (some pindex)

/-- Note the custodians of an entry. -/
def addElected (fTestNet : Bool) (hash : Uint256) (s : Store CBitcoinAddress Uint256) (custodianVote : CCustodianVote) :
    Check (Store CBitcoinAddress Uint256) :=
  match custodianVote.getAddress fTestNet with
  | none => .error (.exception "No address version defined for unit")
  | some address => .ok (s.insert address hash)

/-- `CBlockIndex::GetElectedCustodians`: the addresses with the blocks that granted them. -/
def BlockMap.getElectedCustodians (m : BlockMap) (fTestNet : Bool) (pindex : CBlockIndex) :
    Check (Store CBitcoinAddress Uint256) :=
  (m.electedChain pindex).foldlM
    (fun s p => p.vElectedCustodian.foldlM (addElected fTestNet p.phashBlock) s) Store.empty

/-! ## The check of the grants -/

/-- The grant transactions of a block. -/
def CBlock.actualGrants (block : CBlock) : List CTransaction := block.vtx.filter (·.isCustodianGrant)

/-- The grants that `CheckCustodianGrants` expects, at a time of the clock. -/
def CoinAgeContext.expectedGrants (c : CoinAgeContext) (m : BlockMap) (nAdjustedTime : Nat) (block : CBlock)
    (pindexPrev : CBlockIndex) : Check (List CTransaction) := do
  let mapElectedCustodian ← m.getElectedCustodians c.cfg.fTestNet pindexPrev
  if block.isProofOfStake then
    let vVote ← orError "CheckCustodianGrants() : unable to extract votes"
      (c.extractVotes block (m.chain pindexPrev.phashBlock) custodianVotes)
    orError "CheckCustodianGrants() : unable to generate currency coin bases"
      (generateCurrencyCoinBases c.cfg.fTestNet nAdjustedTime vVote mapElectedCustodian)
  else return []

/-- `CBlock::CheckCustodianGrants`: the grants are those expected, but for their times. -/
def CoinAgeContext.checkCustodianGrants (c : CoinAgeContext) (m : BlockMap) (nAdjustedTime : Nat) (block : CBlock)
    (pindexPrev : CBlockIndex) : Check Unit := do
  let vExpected ← c.expectedGrants m nAdjustedTime block pindexPrev
  errorIf (block.actualGrants.length ≠ vExpected.length)
    "CheckCustodianGrants() : unexpected number of expansion transaction"
  errorIf (block.actualGrants ≠
      List.zipWith (fun actualTx expectedTx => { expectedTx with nTime := actualTx.nTime }) block.actualGrants vExpected)
    "CheckCustodianGrants() : invalid expansion transaction found"

/-! ## The grants of the minter -/

/-- The part of `CreateNewBlock` that generates the grants, for a block with a coinbase and a coinstake. -/
def CoinAgeContext.createGrants (c : CoinAgeContext) (m : BlockMap) (nAdjustedTime : Nat) (block : CBlock)
    (pindexBest : CBlockIndex) : Check (List CTransaction) := do
  let vVote ← c.extractVotes block (m.chain pindexBest.phashBlock) custodianVotes
  let mapElectedCustodian ← m.getElectedCustodians c.cfg.fTestNet pindexBest
  let vCurrencyCoinBase ← generateCurrencyCoinBases c.cfg.fTestNet nAdjustedTime vVote mapElectedCustodian
  return vCurrencyCoinBase.map (fun tx => { tx with nTime := (block.vtx[1]?.map (·.nTime)).getD 0 })

/-- The block of the minter, before and after the grants and the transactions of the pool are added. -/
def minted (header : CBlockHeader) (coinbase coinstake : CTransaction) (rest : List CTransaction) : CBlock :=
  { header with vtx := coinbase :: coinstake :: rest }

/-! ## Generated grants -/

section Generate

variable {fTestNet : Bool} {nAdjustedTime : Nat} {vVote : List CVote} {mapAlreadyElected : Store CBitcoinAddress Uint256}
  {l : List CTransaction}

/-- How the grants come from the counters. -/
theorem generateCurrencyCoinBases_ok
    (h : generateCurrencyCoinBases fTestNet nAdjustedTime vVote mapAlreadyElected = .ok l) (hne : vVote ≠ []) :
    ∃ tally st, vVote.foldlM countVote {} = .ok tally ∧
      tally.mapCustodianVoteCounter.entries.foldlM
        (grantStep fTestNet (Int.tdiv tally.totalVoteWeight 2) (vVote.length / 2 : Nat)) {} = .ok st ∧
      l = st.mapGrantedCustodians.entries.filterMap (fun g =>
        let vout := grantOutputs fTestNet mapAlreadyElected g.2
        if vout = [] then none else some (grantTx nAdjustedTime g.1 vout)) := by
  unfold generateCurrencyCoinBases at h
  rw [if_neg hne] at h
  obtain ⟨tally, htally, h⟩ := bind_eq_ok.mp h
  obtain ⟨st, hst, h⟩ := bind_eq_ok.mp h
  exact ⟨tally, st, htally, hst, (Except.ok.inj h).symm⟩

/-- **The grants do not depend on the clock**, but for their times. -/
theorem generateCurrencyCoinBases_time
    (h : generateCurrencyCoinBases fTestNet nAdjustedTime vVote mapAlreadyElected = .ok l) (nTime : Nat) :
    generateCurrencyCoinBases fTestNet nTime vVote mapAlreadyElected =
      .ok (l.map fun tx => { tx with nTime := nTime }) := by
  by_cases hne : vVote = []
  · unfold generateCurrencyCoinBases at h ⊢
    rw [if_pos hne] at h ⊢
    cases h
    rfl
  · obtain ⟨tally, st, htally, hst, rfl⟩ := generateCurrencyCoinBases_ok h hne
    unfold generateCurrencyCoinBases
    rw [if_neg hne]
    refine bind_eq_ok.mpr ⟨tally, htally, bind_eq_ok.mpr ⟨st, hst, ?_⟩⟩
    rw [List.map_filterMap]
    congr 1
    refine List.filterMap_congr fun g _ => ?_
    simp only
    split <;> rfl

/-- The units of granted custodians have addresses. -/
theorem grantStep_units {halfWeight halfCount : Int} {es : List VoteEntry} {st : GrantState}
    (h : es.foldlM (grantStep fTestNet halfWeight halfCount) {} = .ok st) :
    ∀ g ∈ st.mapGrantedCustodians.entries, isValidUnit g.1 = true := by
  refine foldlM_inv (I := fun st : GrantState => ∀ g ∈ st.mapGrantedCustodians.entries, isValidUnit g.1 = true)
    (fun e _ st st' hst hstep => ?_) (fun g hg => absurd hg List.not_mem_nil) h
  unfold grantStep at hstep
  split at hstep
  · split at hstep
    · cases hstep
    · rename_i address haddr
      split at hstep
      · cases hstep
        intro g hg
        rcases Store.mem_insertEntry hg with rfl | hg
        · rw [e.1.getAddress_eq fTestNet] at haddr
          exact isValidUnit_iff.mpr (CBitcoinAddress.unit_of_version e.1.destination_ne_none haddr)
        · exact hst g hg
      · cases hstep
        exact hst
  · cases hstep
    exact hst

/-- What is generated are grants. -/
theorem isCustodianGrant_of_generated
    (h : generateCurrencyCoinBases fTestNet nAdjustedTime vVote mapAlreadyElected = .ok l) :
    ∀ tx ∈ l, tx.isCustodianGrant = true := by
  by_cases hne : vVote = []
  · unfold generateCurrencyCoinBases at h
    rw [if_pos hne] at h
    cases h
    exact fun tx hmem => nomatch hmem
  · obtain ⟨tally, st, -, hst, rfl⟩ := generateCurrencyCoinBases_ok h hne
    intro tx hmem
    obtain ⟨g, hg, htx⟩ := List.mem_filterMap.mp hmem
    simp only at htx
    split at htx
    · cases htx
    · rename_i hvout
      cases htx
      exact isCustodianGrant_grantTx _ (grantStep_units hst g hg) hvout

end Generate

/-! ## The coin age of the minted block -/

section Age

variable {c : CoinAgeContext} {tx : CTransaction} {l : List CTransaction} {header : CBlockHeader}
  {coinbase coinstake : CTransaction}

theorem coinDays_le (bnCentSecond : Int) : CoinAgeContext.coinDays bnCentSecond ≤ 100000000000000 := by
  unfold CoinAgeContext.coinDays maxCoinAge
  exact Int.toNat_le.mpr (min_le_right _ _)

theorem txCoinAge_le {a : Nat} (h : c.txCoinAge tx = .ok a) : a ≤ 100000000000000 := by
  unfold CoinAgeContext.txCoinAge at h
  split at h
  · cases h
    omega
  · obtain ⟨b, -, h⟩ := bind_eq_ok.mp h
    cases h
    exact coinDays_le b

theorem txCoinAge_of_noInputs (h : tx.hasNoInputs = true) : c.txCoinAge tx = .ok 0 := by
  unfold CoinAgeContext.txCoinAge
  rw [if_pos h]
  rfl

theorem addTx_eq_ok {s r : Nat} : c.addTx s tx = .ok r ↔ ∃ a, c.txCoinAge tx = .ok a ∧ r = (s + a) % 2 ^ 64 := by
  unfold CoinAgeContext.addTx
  rw [bind_eq_ok]
  simp [eq_comm]

theorem serializeSize_ge (tx : CTransaction) : 15 ≤ tx.serializeSize := by
  have hpos : ∀ n, 1 ≤ getSizeOfCompactSize n := by
    intro n
    unfold getSizeOfCompactSize
    split
    · omega
    · split
      · omega
      · split <;> omega
  have hin := hpos tx.vin.length
  have hout := hpos tx.vout.length
  unfold CTransaction.serializeSize
  omega

/-- Transactions that fit into a block add up without overflow: nothing is added exactly when none of them has coin
age. -/
theorem sumAges : ∀ {l : List CTransaction} {s r : Nat}, l.foldlM c.addTx s = .ok r →
    15 * s + 100000000000000 * (l.map (·.serializeSize)).sum < 15 * 2 ^ 64 →
      s ≤ r ∧ r < 2 ^ 64 ∧ (r = s ↔ ∀ tx ∈ l, c.txCoinAge tx = .ok 0)
  | [], s, r, h, hsize => by
    rw [List.foldlM_nil] at h
    cases h
    simp only [List.map_nil, List.sum_nil] at hsize
    exact ⟨le_refl _, by omega, iff_of_true rfl (List.forall_mem_nil _)⟩
  | tx :: l, s, r, h, hsize => by
    obtain ⟨s₁, h₁, h₂⟩ := foldlM_cons_ok.mp h
    obtain ⟨a, ha, hs₁⟩ := addTx_eq_ok.mp h₁
    have hle := txCoinAge_le ha
    have hge := serializeSize_ge tx
    rw [List.map_cons, List.sum_cons] at hsize
    rw [Nat.mod_eq_of_lt (by omega)] at hs₁
    obtain ⟨hle', hlt, hiff⟩ := sumAges h₂ (by omega)
    refine ⟨by omega, hlt, ?_⟩
    rw [List.forall_mem_cons, ← hiff, ha]
    simp only [Except.ok.injEq]
    omega

/-- Transactions without coin age add nothing. -/
theorem sumAges_zero {s : Nat} (hs : s < 2 ^ 64) (h : ∀ tx ∈ l, c.txCoinAge tx = .ok 0) :
    l.foldlM c.addTx s = .ok s := by
  induction l with
  | nil => rfl
  | cons tx l ih =>
    refine foldlM_cons_ok.mpr ⟨s, addTx_eq_ok.mpr ⟨0, h tx List.mem_cons_self, ?_⟩,
      ih fun tx hmem => h tx (List.mem_cons_of_mem _ hmem)⟩
    rw [Nat.add_zero, Nat.mod_eq_of_lt hs]

theorem isProofOfStake_minted (hstake : coinstake.isCoinStake = true) (rest : List CTransaction) :
    (minted header coinbase coinstake rest).isProofOfStake = true := by
  show Option.any (·.isCoinStake) (some coinstake) = true
  exact hstake

/-- The coin age of the block: that of the coinstake and of what comes after it. -/
theorem blockCoinAge_minted (hbase : coinbase.hasNoInputs = true) {rest : List CTransaction} {w : Nat} :
    c.blockCoinAge (minted header coinbase coinstake rest) = .ok w ↔
      ∃ nStake total, c.txCoinAge coinstake = .ok nStake ∧ rest.foldlM c.addTx nStake = .ok total ∧
        w = if total = 0 then 1 else total := by
  unfold CoinAgeContext.blockCoinAge
  rw [bind_eq_ok]
  constructor
  · rintro ⟨total, h, hw⟩
    obtain ⟨s₁, h₁, h⟩ := foldlM_cons_ok.mp h
    obtain ⟨s₂, h₂, h⟩ := foldlM_cons_ok.mp h
    obtain ⟨a, ha, rfl⟩ := addTx_eq_ok.mp h₁
    obtain ⟨nStake, hn, rfl⟩ := addTx_eq_ok.mp h₂
    rw [txCoinAge_of_noInputs hbase] at ha
    cases ha
    have hle := txCoinAge_le hn
    rw [show ((0 + 0) % 2 ^ 64 + nStake) % 2 ^ 64 = nStake by omega] at h
    exact ⟨nStake, total, hn, h, (Except.ok.inj hw).symm⟩
  · rintro ⟨nStake, total, hn, h, rfl⟩
    have hle := txCoinAge_le hn
    refine ⟨total, foldlM_cons_ok.mpr ⟨0, addTx_eq_ok.mpr ⟨0, txCoinAge_of_noInputs hbase, rfl⟩,
      foldlM_cons_ok.mpr ⟨nStake, addTx_eq_ok.mpr ⟨nStake, hn, ?_⟩, h⟩⟩, rfl⟩
    omega

theorem coinStakeAge_minted (hstake : coinstake.isCoinStake = true) (rest : List CTransaction) :
    c.coinStakeAge (minted header coinbase coinstake rest) = c.txCoinAge coinstake := by
  have hpos : (minted header coinbase coinstake rest).isProofOfStake = true := isProofOfStake_minted hstake rest
  show (if (minted header coinbase coinstake rest).isProofOfStake = true then c.txCoinAge coinstake else _) = _
  rw [if_pos hpos]

end Age

/-! ## The grants of the minter and the check -/

section Weights

variable {c : CoinAgeContext} {header header' : CBlockHeader} {coinbase coinbase' coinstake : CTransaction}
  {rest rest' : List CTransaction} {m : BlockMap} {pindexPrev : CBlockIndex} {nTime : Nat}

theorem expectedGrants_ok (hstake : coinstake.isCoinStake = true) {l : List CTransaction} :
    c.expectedGrants m nTime (minted header coinbase coinstake rest) pindexPrev = .ok l ↔
      ∃ mapElectedCustodian vVote, m.getElectedCustodians c.cfg.fTestNet pindexPrev = .ok mapElectedCustodian ∧
        c.extractVotes (minted header coinbase coinstake rest) (m.chain pindexPrev.phashBlock) custodianVotes =
          .ok vVote ∧
        generateCurrencyCoinBases c.cfg.fTestNet nTime vVote mapElectedCustodian = .ok l := by
  unfold CoinAgeContext.expectedGrants
  simp only [isProofOfStake_minted hstake, if_true, bind_eq_ok, orError_eq_ok]
  constructor
  · rintro ⟨e, he, v, hv, h⟩
    exact ⟨e, v, he, hv, h⟩
  · rintro ⟨e, v, he, hv, h⟩
    exact ⟨e, he, v, hv, h⟩

/-- The votes of two blocks with one coinstake and one coin age. -/
theorem extractVotes_congr {w : Nat} (h : c.blockCoinAge (minted header coinbase coinstake rest) = .ok w)
    (h' : c.blockCoinAge (minted header' coinbase' coinstake rest') = .ok w) (chainPrev : List CBlockIndex)
    (nCount : Nat) : c.extractVotes (minted header coinbase coinstake rest) chainPrev nCount =
      c.extractVotes (minted header' coinbase' coinstake rest') chainPrev nCount := by
  unfold CoinAgeContext.extractVotes
  simp only [h, h']
  rfl

/-- The minter found a coin age. -/
theorem createGrants_ok {block : CBlock} {grants : List CTransaction}
    (h : c.createGrants m nTime block pindexPrev = .ok grants) :
    ∃ vVote mapElectedCustodian l w,
      c.extractVotes block (m.chain pindexPrev.phashBlock) custodianVotes = .ok vVote ∧ c.blockCoinAge block = .ok w ∧
      m.getElectedCustodians c.cfg.fTestNet pindexPrev = .ok mapElectedCustodian ∧
      generateCurrencyCoinBases c.cfg.fTestNet nTime vVote mapElectedCustodian = .ok l ∧
      grants = l.map fun tx => { tx with nTime := (block.vtx[1]?.map (·.nTime)).getD 0 } := by
  unfold CoinAgeContext.createGrants at h
  simp only [bind_eq_ok] at h
  obtain ⟨vVote, hvotes, elected, helected, l, hl, h⟩ := h
  obtain ⟨w, hw⟩ : ∃ w, c.blockCoinAge block = .ok w := by
    have hv := hvotes
    unfold CoinAgeContext.extractVotes at hv
    simp only at hv
    split at hv
    · cases hv
    · simp only [bind_eq_ok, orError_eq_ok] at hv
      obtain ⟨-, -, w, hw, -⟩ := hv
      exact ⟨w, hw⟩
  exact ⟨vVote, elected, l, w, hvotes, hw, helected, hl, (Except.ok.inj h).symm⟩

theorem hasNoInputs_of_grant {tx : CTransaction} (h : tx.isCustodianGrant = true) : tx.hasNoInputs = true := by
  rw [CTransaction.hasNoInputs, h, Bool.or_true]

theorem not_grant_of_coinBase {tx : CTransaction} (h : tx.isCoinBase = true) : tx.isCustodianGrant = false := by
  unfold CTransaction.isCoinBase at h
  unfold CTransaction.isCustodianGrant
  simp only [Bool.decide_and, Bool.and_eq_true, decide_eq_true_eq, Option.any_eq_true] at h
  obtain ⟨hunit, -, ⟨p, hp, hnull⟩, -⟩ := h
  rw [if_pos hunit]
  simp only [COutPoint.isNull, decide_eq_true_eq] at hnull
  simp [hp, hnull.2, uintMax]

/-- The grants that are in the finished block. -/
theorem actualGrants_minted {pool grants : List CTransaction} (hbase : coinbase.isCoinBase = true)
    (hstake : coinstake.isCustodianGrant = false) (hgrants : ∀ tx ∈ grants, tx.isCustodianGrant = true)
    (hpool : ∀ tx ∈ pool, tx.hasNoInputs = false) :
    (minted header coinbase coinstake (grants ++ pool)).actualGrants = grants := by
  show (coinbase :: coinstake :: (grants ++ pool)).filter (·.isCustodianGrant) = grants
  rw [List.filter_cons_of_neg (by simp [not_grant_of_coinBase hbase]), List.filter_cons_of_neg (by simp [hstake]),
    List.filter_append, List.filter_eq_self.mpr hgrants, List.filter_eq_nil_iff.mpr, List.append_nil]
  intro tx hmem hgrant
  have hno := hpool tx hmem
  rw [hasNoInputs_of_grant hgrant] at hno
  cases hno

/-- The grants of the minter pass the check of the finished block when the block has the coin age it had before. -/
theorem checkCustodianGrants_minted (hbase : coinbase'.isCoinBase = true) (hstake : coinstake.isCoinStake = true)
    (hgrant : coinstake.isCustodianGrant = false) {pool : List CTransaction}
    (hpool : ∀ tx ∈ pool, tx.hasNoInputs = false) {grants : List CTransaction}
    (hgrants : c.createGrants m nTime (minted header coinbase coinstake []) pindexPrev = .ok grants) {w : Nat}
    (hage : c.blockCoinAge (minted header coinbase coinstake []) = .ok w)
    (hage' : c.blockCoinAge (minted header' coinbase' coinstake (grants ++ pool)) = .ok w) (nTime' : Nat) :
    c.checkCustodianGrants m nTime' (minted header' coinbase' coinstake (grants ++ pool)) pindexPrev = .ok () := by
  obtain ⟨vVote, mapElected, l, -, hvotes, -, helected, hl, hgrantsEq⟩ := createGrants_ok hgrants
  rw [extractVotes_congr hage hage'] at hvotes
  have hexpected := (expectedGrants_ok hstake).mpr
    ⟨mapElected, vVote, helected, hvotes, generateCurrencyCoinBases_time hl nTime'⟩
  have hactual : (minted header' coinbase' coinstake (grants ++ pool)).actualGrants = grants := by
    refine actualGrants_minted hbase hgrant ?_ hpool
    rw [hgrantsEq]
    intro tx hmem
    obtain ⟨tx', hmem', rfl⟩ := List.mem_map.mp hmem
    exact isCustodianGrant_of_generated hl tx' hmem'
  unfold CoinAgeContext.checkCustodianGrants
  refine bind_eq_ok.mpr ⟨_, hexpected, bind_eq_ok.mpr ⟨(), ?_, ?_⟩⟩
  · rw [rejectIf_eq_ok, hactual, hgrantsEq, List.length_map, List.length_map]
    exact fun h => h rfl
  · rw [rejectIf_eq_ok, hactual, hgrantsEq, List.zipWith_map, List.zipWith_self]
    exact fun h => h rfl

/-- **Exactly when the weights agree**: the own vote of a minted block has one weight for the minter, for the check of
the finished block and in its entry, and the grants pass the check, when the coinstake has coin age and no transaction
of the pool has any. -/
theorem weights_agree_iff (hbase : coinbase.hasNoInputs = true) (hbase' : coinbase'.isCoinBase = true)
    (hstake : coinstake.isCoinStake = true) {pool : List CTransaction} (hpool : ∀ tx ∈ pool, tx.hasNoInputs = false)
    (hsize : (pool.map (·.serializeSize)).sum ≤ maxBlockSize) {grants : List CTransaction}
    (hgrants : c.createGrants m nTime (minted header coinbase coinstake []) pindexPrev = .ok grants) (nTime' : Nat) :
    ((∃ w, c.blockCoinAge (minted header coinbase coinstake []) = .ok w ∧
          c.blockCoinAge (minted header' coinbase' coinstake (grants ++ pool)) = .ok w ∧
          c.coinStakeAge (minted header' coinbase' coinstake (grants ++ pool)) = .ok w) ∧
        c.checkCustodianGrants m nTime' (minted header' coinbase' coinstake (grants ++ pool)) pindexPrev = .ok ()) ↔
      c.txCoinAge coinstake ≠ .ok 0 ∧ ∀ tx ∈ pool, c.txCoinAge tx = .ok 0 := by
  obtain ⟨vVote, mapElected, l, w₀, hvotes, hage, helected, hl, hgrantsEq⟩ := createGrants_ok hgrants
  have hbase'' : coinbase'.hasNoInputs = true := by rw [CTransaction.hasNoInputs, hbase', Bool.true_or]
  have hgen : ∀ tx ∈ grants, tx.isCustodianGrant = true := by
    rw [hgrantsEq]
    intro tx hmem
    obtain ⟨tx', hmem', rfl⟩ := List.mem_map.mp hmem
    exact isCustodianGrant_of_generated hl tx' hmem'
  obtain ⟨nStake, total₀, hn, htotal₀, rfl⟩ := (blockCoinAge_minted hbase).mp hage
  rw [List.foldlM_nil] at htotal₀
  cases htotal₀
  have hle := txCoinAge_le hn
  have hskip : ∀ total, (grants ++ pool).foldlM c.addTx nStake = .ok total ↔
    pool.foldlM c.addTx nStake = .ok total := by
    intro total
    rw [foldlM_append_ok]
    have hnone : grants.foldlM c.addTx nStake = .ok nStake :=
      sumAges_zero (by omega) fun tx hmem => txCoinAge_of_noInputs (hasNoInputs_of_grant (hgen tx hmem))
    simp only [hnone, Except.ok.injEq, exists_eq_left']
  have hsum : ∀ total, pool.foldlM c.addTx nStake = .ok total → nStake ≤ total ∧ total < 2 ^ 64 ∧
      (total = nStake ↔ ∀ tx ∈ pool, c.txCoinAge tx = .ok 0) := fun total htotal =>
    sumAges htotal (by unfold maxBlockSize at hsize; omega)
  rw [coinStakeAge_minted hstake, hn]
  constructor
  · rintro ⟨⟨w, -, hfinished, hentry⟩, -⟩
    cases hentry
    obtain ⟨nStake', total, hn', htotal, hw⟩ := (blockCoinAge_minted hbase'').mp hfinished
    rw [hn, Except.ok.injEq] at hn'
    subst hn'
    obtain ⟨hge, -, hiff⟩ := hsum total ((hskip total).mp htotal)
    have hpos : nStake ≠ 0 := by
      split at hw <;> omega
    have htot : total = nStake := by
      split at hw <;> omega
    exact ⟨fun h => hpos (Except.ok.inj h), hiff.mp htot⟩
  · rintro ⟨hpos, hzero⟩
    replace hpos : nStake ≠ 0 := fun h => hpos (by rw [h])
    have hsome : pool.foldlM c.addTx nStake = .ok nStake := sumAges_zero (by omega) hzero
    have hfinished : c.blockCoinAge (minted header' coinbase' coinstake (grants ++ pool)) = .ok nStake :=
      (blockCoinAge_minted hbase'').mpr ⟨nStake, nStake, hn, (hskip nStake).mpr hsome, (if_neg hpos).symm⟩
    rw [if_neg hpos] at hage
    have hgrant : coinstake.isCustodianGrant = false := by
      by_contra hgrant
      rw [txCoinAge_of_noInputs (hasNoInputs_of_grant (Bool.not_eq_false _ ▸ hgrant))] at hn
      exact hpos (Except.ok.inj hn).symm
    exact ⟨⟨nStake, hage, hfinished, rfl⟩,
      checkCustodianGrants_minted hbase' hstake hgrant hpool hgrants hage hfinished nTime'⟩

end Weights

/-! ## A block that its minter can not have accepted -/

/-- A vote for a grant of 500 NuBits. -/
def grantVote (nCoinAgeDestroyed : Nat) : CVote :=
  { vCustodianVote := [{ cUnit := unitCurrency, nAmount := 5000000 }], nCoinAgeDestroyed := nCoinAgeDestroyed }

/-- Its bytes in a script. -/
def grantVoteScript : CScript :=
  [0x6a, 0x51] ++ pushData ([0x80, 0x84, 0x1e, 0x00, 0x01, 0x42, 0x00] ++ List.replicate 20 0x00 ++
    [0x40, 0x4b, 0x4c, 0x00, 0x00, 0x00, 0x00, 0x00, 0x00, 0x00, 0x00])

/-- A coinstake with this vote. -/
def votingStake : CTransaction :=
  { rivalStake with vout := rivalStake.vout ++ [{ nValue := 0, scriptPubKey := grantVoteScript }] }

/-- Two outputs of 50000 shares, and what the tx index says of them. -/
def votingContext : CoinAgeContext where
  cfg := { fCheckpoints := false }
  cr := Crypto.sample
  view :=
    { getCoins := fun txid => if txid = 1 ∨ txid = 2 then some (CCoins.ofTx { stakedTx with nLockTime := txid } 1) else none
      bestBlock := some 3 }
  txIndex txid := if txid = 1 ∨
    txid = 2 then some ⟨{ nTime := 1300000000 }, 0, { stakedTx with nLockTime := txid }⟩ else none

/-- Two proof-of-stake blocks: the vote of the first one is for the grant, that of the second one is not, and weighs
more. -/
def votingMap : BlockMap :=
  BlockMap.line 2 fun n =>
    { fProofOfStake := true, nProtocolVersion := protocolV2_0
      vote := if n = 1 then { nCoinAgeDestroyed := 60000000 } else grantVote 1 }

/-- A transaction of the pool that spends the other output. -/
def agedTx : CTransaction :=
  { spendShares unitShare with vin := [{ prevout := ⟨2, 0⟩, scriptSig := sampleScriptSig }] }

/-- The block before the pool is added. -/
def votingCoinbase : CTransaction := sampleCoinbase 15 1400000000 CTxOut.empty

/-- The entry at which the block is minted. -/
def votingIndex : CBlockIndex :=
  { phashBlock := 3, pprev := some 2, nHeight := 2, fProofOfStake := true, nProtocolVersion := protocolV2_0
    vote := grantVote 1 }

/-- Without a transaction of the pool the weights agree. -/
theorem weights_agree_sample :
    (∃ w, votingContext.blockCoinAge (minted {} votingCoinbase votingStake []) = .ok w ∧
        votingContext.blockCoinAge (minted {} votingCoinbase votingStake ([] ++ [])) = .ok w ∧
        votingContext.coinStakeAge (minted {} votingCoinbase votingStake ([] ++ [])) = .ok w) ∧
      votingContext.checkCustodianGrants votingMap 0 (minted {} votingCoinbase votingStake ([] ++ [])) votingIndex =
        .ok () := by
  have hgrants : votingContext.createGrants votingMap 0 (minted {} votingCoinbase votingStake []) votingIndex =
    .ok [] :=
    toOption_eq_some.mp (by decide +kernel)
  refine (weights_agree_iff rfl (by decide) (by decide) (List.forall_mem_nil _) (Nat.zero_le _) hgrants 0).mpr
    ⟨fun h => ?_, List.forall_mem_nil _⟩
  have hage : votingContext.txCoinAge votingStake = .ok 57870370 := toOption_eq_some.mp (by decide +kernel)
  rw [hage] at h
  cases h

/-- **A minter that rejects its own block**: with a transaction of the pool the vote of the block weighs more in the
check than it did for the minter and than it will in the entry, so that a grant is expected that the minter did not
make. -/
theorem weights_differ :
    votingContext.createGrants votingMap 0 (minted {} votingCoinbase votingStake []) votingIndex = .ok [] ∧
      votingContext.blockCoinAge (minted {} votingCoinbase votingStake []) = .ok 57870370 ∧
      votingContext.blockCoinAge (minted {} votingCoinbase votingStake [agedTx]) = .ok 115740740 ∧
      votingContext.coinStakeAge (minted {} votingCoinbase votingStake [agedTx]) = .ok 57870370 ∧
      votingContext.checkCustodianGrants votingMap 0 (minted {} votingCoinbase votingStake [agedTx]) votingIndex =
        .error (.error "CheckCustodianGrants() : unexpected number of expansion transaction") :=
  ⟨toOption_eq_some.mp (by decide +kernel), toOption_eq_some.mp (by decide +kernel),
    toOption_eq_some.mp (by decide +kernel), toOption_eq_some.mp (by decide +kernel),
    failure?_eq_some.mp (by decide +kernel)⟩

end Morcochain
