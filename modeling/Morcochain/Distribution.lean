import Morcochain.Address
import Morcochain.CheckTransaction
import Morcochain.Lib.Dealing
import Morcochain.Lib.Shares

/-!
# Dividend distributions

`DividendDistributor` (`distribution.cpp`): `Distribute` shares an amount out among the addresses in proportion to their
balances, without those whose share is below the minimum, and `GenerateOutputs` deals the payees out to transactions.
Amounts are exact.

* `distributePass_eq` : what a pass keeps and pays.
* `distributeLoop_eq` : **the loop ends after a second pass at the latest**, because the shares only grow.
* `distribute_cases` : what `Distribute` pays, and when it fails.
* `generateOutputs_iff` : **when the payees fit into the transactions.**
-/

set_option autoImplicit false

namespace Morcochain

open OrderedStore Guard

/-- `CPeercoinAddress`, with the data of `CBase58Data`. -/
structure CPeercoinAddress where
  nVersion : UInt8 := 0
  vchData : Bytes := []
deriving DecidableEq, Repr

/-- `CPeercoinAddress::Set`; a `CNoDestination` sets nothing. -/
def CPeercoinAddress.ofDestination (fTestNet : Bool) : CTxDestination → CPeercoinAddress
  | .none => {}
  | .keyID id => { nVersion := if fTestNet then 111 else 55, vchData := id.bytes }
  | .scriptID id => { nVersion := if fTestNet then 196 else 117, vchData := id.bytes }

/-- `Distribution`. -/
structure Distribution where
  addrPeershares : CBitcoinAddress
  nBalance : Int
  dDividendAmount : Rat
deriving DecidableEq, Repr

/-- `Distribution::GetPeercoinAddress`. -/
def Distribution.getPeercoinAddress (fTestNet : Bool) (distribution : Distribution) : CPeercoinAddress :=
  CPeercoinAddress.ofDestination fTestNet (distribution.addrPeershares.get fTestNet)

/-- `DividendDistributor`. -/
structure DividendDistributor where
  mapBalance : Store CBitcoinAddress Int
  dTotalDistributed : Rat := 0
  vDistribution : List Distribution := []

/-! ## Distributing -/

section Distribute

variable (dDistributedAmount dMinimumPayout : Rat)

/-- The variables of a pass of `Distribute`. -/
structure DistributeState where
  mapRetainedBalance : Store CBitcoinAddress Int
  vDistribution : List Distribution := []
  dTotalDistributed : Rat := 0
  bMustRedistribute : Bool := false

/-- `dTotalBalance`. -/
def totalBalance (mapRetainedBalance : Store CBitcoinAddress Int) : Rat :=
  mapRetainedBalance.entries.foldl (fun dTotalBalance it => dTotalBalance + it.2) 0

/-- One address of a pass. -/
def distributeEntry (dTotalBalance : Rat) (st : DistributeState) (it : CBitcoinAddress × Int) : DistributeState :=
  let dDistributed := it.2 * dDistributedAmount / dTotalBalance
  if dDistributed < dMinimumPayout then
    { st with mapRetainedBalance := st.mapRetainedBalance.erase it.1, bMustRedistribute := true }
  else
    { st with
      vDistribution := st.vDistribution ++ [⟨it.1, it.2, dDistributed⟩]
      dTotalDistributed := st.dTotalDistributed + dDistributed }

/-- A pass of the loop of `Distribute`. -/
def distributePass (mapRetainedBalance : Store CBitcoinAddress Int) : DistributeState :=
  mapRetainedBalance.entries.foldl (distributeEntry dDistributedAmount dMinimumPayout (totalBalance mapRetainedBalance))
    { mapRetainedBalance := mapRetainedBalance }

/-! ### Passes -/

/-- The share of an address reaches the minimum. -/
def reachesMinimum (dTotalBalance : Rat) (it : CBitcoinAddress × Int) : Bool :=
  dMinimumPayout ≤ Shares.share dDistributedAmount dTotalBalance it.2

/-- What an address is paid. -/
def payout (dTotalBalance : Rat) (it : CBitcoinAddress × Int) : Distribution :=
  ⟨it.1, it.2, Shares.share dDistributedAmount dTotalBalance it.2⟩

variable {dDistributedAmount dMinimumPayout}

/-- What a part of a pass does. -/
theorem foldl_distributeEntry (dTotalBalance : Rat) : ∀ (l : List (CBitcoinAddress × Int)) (st : DistributeState),
    let st' := l.foldl (distributeEntry dDistributedAmount dMinimumPayout dTotalBalance) st
    let kept := l.filter (reachesMinimum dDistributedAmount dMinimumPayout dTotalBalance)
    st'.vDistribution = st.vDistribution ++ kept.map (payout dDistributedAmount dTotalBalance) ∧
    st'.dTotalDistributed = st.dTotalDistributed +
      (kept.map fun it => Shares.share dDistributedAmount dTotalBalance it.2).sum ∧
    (st'.bMustRedistribute = true ↔ st.bMustRedistribute = true ∨
      ∃ it ∈ l, reachesMinimum dDistributedAmount dMinimumPayout dTotalBalance it = false) ∧
    ∀ it, it ∈ st'.mapRetainedBalance.entries ↔ it ∈ st.mapRetainedBalance.entries ∧
      ∀ it' ∈ l, reachesMinimum dDistributedAmount dMinimumPayout dTotalBalance it' = false → it'.1 ≠ it.1
  | [], st => by simp
  | it :: l, st => by
    have ih := foldl_distributeEntry dTotalBalance l
      (distributeEntry dDistributedAmount dMinimumPayout dTotalBalance st it)
    dsimp only at ih ⊢
    rw [List.foldl_cons]
    by_cases hmin : it.2 * dDistributedAmount / dTotalBalance < dMinimumPayout
    · have hreach : reachesMinimum dDistributedAmount dMinimumPayout dTotalBalance it = false :=
        decide_eq_false (not_le.mpr hmin)
      have hstep : distributeEntry dDistributedAmount dMinimumPayout dTotalBalance st it =
          { st with mapRetainedBalance := st.mapRetainedBalance.erase it.1, bMustRedistribute := true } := if_pos hmin
      rw [hstep] at ih ⊢
      obtain ⟨hdist, htotal, hmust, hmap⟩ := ih
      rw [List.filter_cons_of_neg (by rw [hreach]; exact Bool.false_ne_true), hdist, htotal, hmust]
      refine ⟨rfl, rfl, iff_of_true (Or.inl rfl) (Or.inr ⟨it, List.mem_cons_self, hreach⟩), fun e => ?_⟩
      have herase : e ∈ (st.mapRetainedBalance.erase it.1).entries ↔ e ∈ st.mapRetainedBalance.entries ∧
        e.1 ≠ it.1 := by
        unfold Store.erase
        rw [List.mem_filter, decide_eq_true_eq]
      rw [hmap, List.forall_mem_cons, herase]
      exact ⟨fun ⟨⟨he, hne⟩, hl⟩ => ⟨he, fun _ => hne.symm, hl⟩, fun ⟨he, hne, hl⟩ => ⟨⟨he, (hne hreach).symm⟩, hl⟩⟩
    · have hreach : reachesMinimum dDistributedAmount dMinimumPayout dTotalBalance it = true :=
        decide_eq_true (not_lt.mp hmin)
      have hstep : distributeEntry dDistributedAmount dMinimumPayout dTotalBalance st it =
          { st with
            vDistribution := st.vDistribution ++ [payout dDistributedAmount dTotalBalance it]
            dTotalDistributed := st.dTotalDistributed + Shares.share dDistributedAmount dTotalBalance it.2 } :=
              if_neg hmin
      rw [hstep] at ih ⊢
      obtain ⟨hdist, htotal, hmust, hmap⟩ := ih
      rw [List.filter_cons_of_pos hreach, hdist, htotal, hmust]
      refine ⟨by rw [List.map_cons, List.append_assoc]; rfl, by rw [List.map_cons, List.sum_cons, add_assoc], ?_,
        fun e => ?_⟩
      · simp [hreach]
      · rw [hmap, List.forall_mem_cons, hreach]
        simp

/-- **What a pass keeps and pays.** -/
theorem distributePass_eq (mapRetainedBalance : Store CBitcoinAddress Int) :
    let st := distributePass dDistributedAmount dMinimumPayout mapRetainedBalance
    let dTotalBalance := totalBalance mapRetainedBalance
    let kept := mapRetainedBalance.entries.filter (reachesMinimum dDistributedAmount dMinimumPayout dTotalBalance)
    st.vDistribution = kept.map (payout dDistributedAmount dTotalBalance) ∧
    st.dTotalDistributed = (kept.map fun it => Shares.share dDistributedAmount dTotalBalance it.2).sum ∧
    (st.bMustRedistribute = true ↔
      ∃ it ∈ mapRetainedBalance.entries, reachesMinimum dDistributedAmount dMinimumPayout dTotalBalance it = false) ∧
    st.mapRetainedBalance.entries = kept := by
  obtain ⟨hdist, htotal, hmust, hmap⟩ := @foldl_distributeEntry dDistributedAmount dMinimumPayout
    (totalBalance mapRetainedBalance) mapRetainedBalance.entries { mapRetainedBalance := mapRetainedBalance }
  dsimp only
  refine ⟨hdist, by rw [distributePass, htotal, zero_add], by rw [distributePass, hmust]; simp, ?_⟩
  have hstore : (distributePass dDistributedAmount dMinimumPayout mapRetainedBalance).mapRetainedBalance =
      ⟨_, mapRetainedBalance.sorted.filter
        (reachesMinimum dDistributedAmount dMinimumPayout (totalBalance mapRetainedBalance))⟩ := by
    refine Store.ext_find? fun address => Option.ext fun nBalance => ?_
    rw [Store.find?_eq_some, Store.find?_eq_some, distributePass, hmap, List.mem_filter]
    refine and_congr_right fun hmem => ⟨fun hall => ?_, fun hreach it' hmem' hreach' heq => ?_⟩
    · exact Decidable.byContradiction fun hreach => hall _ hmem (Bool.eq_false_iff.mpr hreach) rfl
    · -- an address has one balance
      have hsame : it'.2 = nBalance := Option.some.inj
        ((Store.find?_eq_some.mpr hmem').symm.trans (by rw [heq]; exact Store.find?_eq_some.mpr hmem))
      have hentry : it' = (address, nBalance) := Prod.ext heq hsame
      rw [hentry, hreach] at hreach'
      cases hreach'
  rw [hstore]

theorem totalBalance_eq (mapRetainedBalance : Store CBitcoinAddress Int) :
    totalBalance mapRetainedBalance = (mapRetainedBalance.entries.map fun it => (it.2 : Rat)).sum := by
  rw [totalBalance, List.sum_eq_foldl, List.foldl_map]

/-- A pass that has dropped an address keeps fewer. -/
theorem length_distributePass {mapRetainedBalance : Store CBitcoinAddress Int}
    (h : (distributePass dDistributedAmount dMinimumPayout mapRetainedBalance).bMustRedistribute = true) :
    (distributePass dDistributedAmount dMinimumPayout mapRetainedBalance).mapRetainedBalance.entries.length <
      mapRetainedBalance.entries.length := by
  obtain ⟨-, -, hmust, hmap⟩ := @distributePass_eq dDistributedAmount dMinimumPayout mapRetainedBalance
  rw [hmap, List.length_filter_lt_length_iff_exists]
  obtain ⟨it, hmem, hreach⟩ := hmust.mp h
  exact ⟨it, hmem, by rw [hreach]; exact Bool.false_ne_true⟩

variable (dDistributedAmount dMinimumPayout)

/-- The loop of `Distribute`: another pass as long as an address has been dropped. -/
def distributeLoop (mapRetainedBalance : Store CBitcoinAddress Int) : DistributeState :=
  let st := distributePass dDistributedAmount dMinimumPayout mapRetainedBalance
  if h : st.bMustRedistribute = true then
    have := length_distributePass h
    distributeLoop st.mapRetainedBalance
  else st
termination_by mapRetainedBalance.entries.length

/-- `DividendDistributor::Distribute`. -/
def DividendDistributor.distribute (d : DividendDistributor) : Check DividendDistributor := do
  rejectIf (d.mapBalance.entries.length = 0)
    (.exception "The balance map is empty. There's not address to distribute dividends to.")
  let st := distributeLoop dDistributedAmount dMinimumPayout d.mapBalance
  rejectIf (st.dTotalDistributed = 0) (.exception "No address received dividends.")
  return { d with dTotalDistributed := st.dTotalDistributed, vDistribution := st.vDistribution }

/-! ### The loop -/

section Loop

variable {dDistributedAmount dMinimumPayout} {mapBalance : Store CBitcoinAddress Int}

/-- The addresses whose share reaches the minimum when all of them are paid. -/
def payees (dDistributedAmount dMinimumPayout : Rat) (mapBalance : Store CBitcoinAddress Int) :
    List (CBitcoinAddress × Int) :=
  mapBalance.entries.filter (reachesMinimum dDistributedAmount dMinimumPayout (totalBalance mapBalance))

/-- The balance of some addresses. -/
def balanceOf (l : List (CBitcoinAddress × Int)) : Rat := (l.map fun it => (it.2 : Rat)).sum

/-- A pass in which every address reaches the minimum is the last one. -/
theorem distributeLoop_of_all
    (h : ∀ it ∈ mapBalance.entries, reachesMinimum dDistributedAmount dMinimumPayout (totalBalance mapBalance) it = true) :
    (distributeLoop dDistributedAmount dMinimumPayout mapBalance).vDistribution =
      mapBalance.entries.map (payout dDistributedAmount (balanceOf mapBalance.entries)) ∧
    (distributeLoop dDistributedAmount dMinimumPayout mapBalance).dTotalDistributed =
      (mapBalance.entries.map fun it => Shares.share dDistributedAmount (balanceOf mapBalance.entries) it.2).sum := by
  obtain ⟨hdist, htotal, hmust, -⟩ := @distributePass_eq dDistributedAmount dMinimumPayout mapBalance
  have hlast : ¬ (distributePass dDistributedAmount dMinimumPayout mapBalance).bMustRedistribute = true := by
    rw [hmust]
    rintro ⟨it, hmem, hreach⟩
    rw [h it hmem] at hreach
    cases hreach
  rw [distributeLoop]
  dsimp only
  rw [dif_neg hlast, hdist, htotal, List.filter_eq_self.mpr h, totalBalance_eq]
  exact ⟨rfl, rfl⟩

/-- An address that reaches the minimum reaches it again when those are left out that do not. -/
theorem share_kept_of_mem {ws : List (CBitcoinAddress × Int)} (hpos : ∀ it ∈ ws, 0 < it.2)
    (hamount : 0 ≤ dDistributedAmount)
    {it : CBitcoinAddress × Int} (h : it ∈ ws.filter (reachesMinimum dDistributedAmount dMinimumPayout (balanceOf ws))) :
    dMinimumPayout ≤ Shares.share dDistributedAmount
      (balanceOf (ws.filter (reachesMinimum dDistributedAmount dMinimumPayout (balanceOf ws)))) it.2 := by
  have hweights : (ws.filter (reachesMinimum dDistributedAmount dMinimumPayout (balanceOf ws))).map (fun it => (it.2 : Rat)) =
      (ws.map fun it => (it.2 : Rat)).filter
        (fun w => decide (dMinimumPayout ≤ Shares.share dDistributedAmount (balanceOf ws) w)) := by
    rw [List.filter_map]
    rfl
  have hpos' : ∀ w ∈ ws.map (fun it => (it.2 : Rat)), 0 < w := by
    intro w hw
    obtain ⟨it', hmem', rfl⟩ := List.mem_map.mp hw
    exact Int.cast_pos.mpr (hpos it' hmem')
  have hmem : (it.2 : Rat) ∈ (ws.map fun it => (it.2 : Rat)).filter
      (fun w => decide (dMinimumPayout ≤ Shares.share dDistributedAmount (balanceOf ws) w)) := by
    rw [← hweights]
    exact List.mem_map_of_mem h
  have hreach : dMinimumPayout ≤ Shares.share dDistributedAmount (balanceOf ws) it.2 :=
    of_decide_eq_true (List.mem_filter.mp h).2
  have hkept := Shares.share_kept hamount _ hpos' hmem hreach
  rw [← hweights] at hkept
  exact hkept

/-- **The loop ends after a second pass at the latest**: the addresses that reach the minimum in the first pass are
paid. -/
theorem distributeLoop_eq (hpos : ∀ it ∈ mapBalance.entries, 0 < it.2) (hamount : 0 ≤ dDistributedAmount) :
    let kept := payees dDistributedAmount dMinimumPayout mapBalance
    (distributeLoop dDistributedAmount dMinimumPayout mapBalance).vDistribution =
      kept.map (payout dDistributedAmount (balanceOf kept)) ∧
    (distributeLoop dDistributedAmount dMinimumPayout mapBalance).dTotalDistributed =
      (kept.map fun it => Shares.share dDistributedAmount (balanceOf kept) it.2).sum := by
  dsimp only
  by_cases hall : ∀ it ∈ mapBalance.entries,
      reachesMinimum dDistributedAmount dMinimumPayout (totalBalance mapBalance) it = true
  · rw [payees, List.filter_eq_self.mpr hall]
    exact distributeLoop_of_all hall
  · obtain ⟨-, -, hmust, hkept⟩ := @distributePass_eq dDistributedAmount dMinimumPayout mapBalance
    have hagain : (distributePass dDistributedAmount dMinimumPayout mapBalance).bMustRedistribute = true := by
      rw [hmust]
      by_contra hno
      exact hall fun it hmem => by
        by_contra hreach
        exact hno ⟨it, hmem, Bool.eq_false_iff.mpr hreach⟩
    have hsecond : ∀ it ∈ (distributePass dDistributedAmount dMinimumPayout mapBalance).mapRetainedBalance.entries,
        reachesMinimum dDistributedAmount dMinimumPayout
          (totalBalance (distributePass dDistributedAmount dMinimumPayout mapBalance).mapRetainedBalance) it =
            true := by
      intro it hmem
      rw [hkept, totalBalance_eq] at hmem
      rw [totalBalance_eq, hkept, totalBalance_eq]
      exact decide_eq_true (share_kept_of_mem hpos hamount hmem)
    rw [distributeLoop]
    dsimp only
    rw [dif_pos hagain]
    have := distributeLoop_of_all hsecond
    rw [hkept] at this
    exact this

/-! ### What is paid -/

/-- A distribution of an amount: the addresses that are paid are those of the largest balances, each of them is paid at
least the minimum and in proportion to its balance, and all of them together are paid the amount. -/
structure PaysOut (dDistributedAmount dMinimumPayout : Rat) (mapBalance : Store CBitcoinAddress Int)
    (d : DividendDistributor) : Prop where
  nonempty : d.vDistribution ≠ []
  once : (d.vDistribution.map (·.addrPeershares)).Nodup
  balance : ∀ x ∈ d.vDistribution, (x.addrPeershares, x.nBalance) ∈ mapBalance.entries
  upward : ∀ x ∈ d.vDistribution, ∀ it ∈ mapBalance.entries, x.nBalance ≤ it.2 →
    ∃ y ∈ d.vDistribution, y.addrPeershares = it.1 ∧ y.nBalance = it.2
  minimum : ∀ x ∈ d.vDistribution, dMinimumPayout ≤ x.dDividendAmount
  proportion : ∀ x ∈ d.vDistribution, ∀ y ∈ d.vDistribution,
    x.dDividendAmount * y.nBalance = y.dDividendAmount * x.nBalance
  total : (d.vDistribution.map (·.dDividendAmount)).sum = dDistributedAmount
  totalDistributed : d.dTotalDistributed = dDistributedAmount

theorem balanceOf_pos {l : List (CBitcoinAddress × Int)} (hpos : ∀ it ∈ l, 0 < it.2) (hne : l ≠ []) :
    0 < balanceOf l := by
  refine List.sum_pos _ ?_ (by simpa using hne)
  intro w hw
  obtain ⟨it, hmem, rfl⟩ := List.mem_map.mp hw
  exact Int.cast_pos.mpr (hpos it hmem)

/-- The shares of some addresses add up to the amount. -/
theorem sum_share_balanceOf {l : List (CBitcoinAddress × Int)} (h : balanceOf l ≠ 0) :
    (l.map fun it => Shares.share dDistributedAmount (balanceOf l) it.2).sum = dDistributedAmount := by
  have hsum := Shares.sum_share dDistributedAmount h
  rw [List.map_map] at hsum
  exact hsum

/-- **The payees share out the amount.** -/
theorem paysOut_payees {d : DividendDistributor} (hpos : ∀ it ∈ mapBalance.entries, 0 < it.2)
    (hamount : 0 < dDistributedAmount)
    (hne : payees dDistributedAmount dMinimumPayout mapBalance ≠ [])
    (hdist : d.vDistribution = (payees dDistributedAmount dMinimumPayout mapBalance).map
      (payout dDistributedAmount (balanceOf (payees dDistributedAmount dMinimumPayout mapBalance))))
    (htotal : d.dTotalDistributed = dDistributedAmount) : PaysOut dDistributedAmount dMinimumPayout mapBalance d := by
  have hmem : ∀ {it}, it ∈ payees dDistributedAmount dMinimumPayout mapBalance → it ∈ mapBalance.entries :=
    fun h => List.mem_of_mem_filter h
  have hall : 0 < balanceOf mapBalance.entries :=
    balanceOf_pos hpos fun hnil => hne (by rw [payees, hnil, List.filter_nil])
  have hkept : 0 < balanceOf (payees dDistributedAmount dMinimumPayout mapBalance) :=
    balanceOf_pos (fun it h => hpos it (hmem h)) hne
  refine ⟨?_, ?_, ?_, ?_, ?_, ?_, ?_, htotal⟩
  · rw [hdist]
    exact fun hnil => hne (List.map_eq_nil_iff.mp hnil)
  · rw [hdist, List.map_map]
    have hsorted : (payees dDistributedAmount dMinimumPayout mapBalance).Pairwise (fun a b => a.1 < b.1) :=
      mapBalance.sorted.filter _
    refine hsorted.map _ fun a b hlt heq => ?_
    rw [show a.1 = b.1 from heq] at hlt
    exact Std.lt_irrefl hlt
  · rw [hdist]
    intro x hx
    obtain ⟨it, hit, rfl⟩ := List.mem_map.mp hx
    exact hmem hit
  · rw [hdist]
    intro x hx it hit hle
    obtain ⟨it', hit', rfl⟩ := List.mem_map.mp hx
    have hreach : dMinimumPayout ≤ Shares.share dDistributedAmount (totalBalance mapBalance) it'.2 :=
      of_decide_eq_true (List.mem_filter.mp hit').2
    have hmono : Shares.share dDistributedAmount (totalBalance mapBalance) it'.2 ≤
        Shares.share dDistributedAmount (totalBalance mapBalance) it.2 := by
      rw [totalBalance_eq]
      exact Shares.share_le_share hamount.le hall (Int.cast_le.mpr hle)
    exact ⟨_, List.mem_map_of_mem (List.mem_filter.mpr ⟨hit, decide_eq_true (hreach.trans hmono)⟩), rfl, rfl⟩
  · rw [hdist]
    intro x hx
    obtain ⟨it, hit, rfl⟩ := List.mem_map.mp hx
    rw [payees, totalBalance_eq] at hit ⊢
    exact share_kept_of_mem hpos hamount.le hit
  · rw [hdist]
    intro x hx y hy
    obtain ⟨it, -, rfl⟩ := List.mem_map.mp hx
    obtain ⟨it', -, rfl⟩ := List.mem_map.mp hy
    exact Shares.share_mul_comm dDistributedAmount _ (it.2 : Rat) (it'.2 : Rat)
  · rw [hdist, List.map_map]
    exact sum_share_balanceOf hkept.ne'

/-- **What `Distribute` does**: it fails when no address reaches the minimum, and else pays out the amount. -/
theorem distribute_cases (d : DividendDistributor) (hpos : ∀ it ∈ d.mapBalance.entries, 0 < it.2)
    (hamount : 0 < dDistributedAmount) :
    (∃ e, d.distribute dDistributedAmount dMinimumPayout = .error e ∧ ∀ it ∈ d.mapBalance.entries,
      Shares.share dDistributedAmount (balanceOf d.mapBalance.entries) it.2 < dMinimumPayout) ∨
    ∃ d', d.distribute dDistributedAmount dMinimumPayout = .ok d' ∧
      PaysOut dDistributedAmount dMinimumPayout d.mapBalance d' := by
  obtain ⟨hdist, htotal⟩ := @distributeLoop_eq dDistributedAmount dMinimumPayout d.mapBalance hpos hamount.le
  by_cases hnone : payees dDistributedAmount dMinimumPayout d.mapBalance = []
  · refine Or.inl ?_
    have hbelow : ∀ it ∈ d.mapBalance.entries,
        Shares.share dDistributedAmount (balanceOf d.mapBalance.entries) it.2 < dMinimumPayout := by
      intro it hit
      refine lt_of_not_ge fun hge => ?_
      have hmem : it ∈ payees dDistributedAmount dMinimumPayout d.mapBalance :=
        List.mem_filter.mpr ⟨hit, decide_eq_true (by rw [totalBalance_eq]; exact hge)⟩
      rw [hnone] at hmem
      cases hmem
    have hzero : (distributeLoop dDistributedAmount dMinimumPayout d.mapBalance).dTotalDistributed = 0 := by
      rw [htotal, hnone]
      rfl
    unfold DividendDistributor.distribute
    by_cases hempty : d.mapBalance.entries.length = 0
    · exact ⟨_, by rw [rejectIf_pos hempty, error_bind], hbelow⟩
    · refine ⟨.exception "No address received dividends.", ?_, hbelow⟩
      rw [rejectIf_neg hempty, ok_bind]
      dsimp only
      rw [rejectIf_pos hzero, error_bind]
  · refine Or.inr ?_
    have hne : ¬ d.mapBalance.entries.length = 0 := fun hzero =>
      hnone (by rw [payees, List.length_eq_zero_iff.mp hzero, List.filter_nil])
    have hkept : 0 < balanceOf (payees dDistributedAmount dMinimumPayout d.mapBalance) :=
      balanceOf_pos (fun it h => hpos it (List.mem_of_mem_filter h)) hnone
    rw [sum_share_balanceOf hkept.ne'] at htotal
    have hpaid : ¬ (distributeLoop dDistributedAmount dMinimumPayout d.mapBalance).dTotalDistributed = 0 := by
      rw [htotal]
      exact hamount.ne'
    unfold DividendDistributor.distribute
    rw [rejectIf_neg hne, ok_bind]
    dsimp only
    rw [rejectIf_neg hpaid, ok_bind, pure_eq_ok]
    exact ⟨_, rfl, paysOut_payees hpos hamount hnone hdist htotal⟩

end Loop

end Distribute

/-! ## Generating outputs -/

namespace DividendDistributor

variable (fTestNet : Bool) (d : DividendDistributor)

/-- `DividendDistributor::GetTransactionCount`. -/
def getTransactionCount (nMaxDistributionPerTransaction : Nat) : Int :=
  1 + (d.vDistribution.length / nMaxDistributionPerTransaction : Nat)

/-- What an output pays, by address. -/
def payment (distribution : Distribution) : CPeercoinAddress × Rat :=
  (distribution.getPeercoinAddress fTestNet, distribution.dDividendAmount)

/-- `DividendDistributor::GenerateOutputs`. -/
def generateOutputs (nTransactions : Int) : Check (List (List (CPeercoinAddress × Rat))) := do
  rejectIf (nTransactions ≤ 0) (.exception "Invalid transaction count")
  rejectIf (d.vDistribution.length = 0) (.exception "No address to distribute to")
  rejectIf (nTransactions > d.vDistribution.length) (.exception "Output split in too many transactions")
  let outs := d.vDistribution.foldl (fun (st : List (List (CPeercoinAddress × Rat)) × Nat) distribution =>
      (st.1.modify st.2 (· ++ [payment fTestNet distribution]), (st.2 + 1) % nTransactions.toNat))
    (List.replicate nTransactions.toNat [], 0)
  return outs.1

variable {fTestNet d}

/-- The payees are dealt out to the transactions, when there are not too many of these. -/
theorem generateOutputs_eq {nTransactions : Nat} (hpos : 0 < nTransactions)
    (hle : nTransactions ≤ d.vDistribution.length) :
    d.generateOutputs fTestNet nTransactions =
      .ok (Dealing.deal nTransactions (d.vDistribution.map (payment fTestNet))) := by
  have hone : ¬ (nTransactions : Int) ≤ 0 := by omega
  have hsome : ¬ d.vDistribution.length = 0 := by omega
  have hmany : ¬ (nTransactions : Int) > d.vDistribution.length := by omega
  unfold generateOutputs
  rw [rejectIf_neg hone, ok_bind, rejectIf_neg hsome, ok_bind, rejectIf_neg hmany, ok_bind, Int.toNat_natCast]
  unfold Dealing.deal Dealing.dealing
  rw [List.foldl_map]
  rfl

/-- The payees fit into transactions of a size: every payee is paid its amount in one of them, none is empty, and none
pays more than that many. -/
def FitsInto (fTestNet : Bool) (d : DividendDistributor) (nMaxDistributionPerTransaction : Nat) : Prop :=
  ∃ outs, d.generateOutputs fTestNet (d.getTransactionCount nMaxDistributionPerTransaction) = .ok outs ∧
    outs.flatten.Perm (d.vDistribution.map (payment fTestNet)) ∧
    ∀ out ∈ outs, out ≠ [] ∧ out.length ≤ nMaxDistributionPerTransaction

/-- **The payees fit into the transactions unless each of these is to pay a single one**: the number of transactions is
one too many when the size divides the number of payees, and only for size one are these more transactions than payees. -/
theorem fitsInto_iff {nMax : Nat} (hsome : d.vDistribution ≠ []) (hmax : 1 ≤ nMax) :
    FitsInto fTestNet d nMax ↔ 2 ≤ nMax := by
  have hlen : 1 ≤ d.vDistribution.length := List.length_pos_iff.mpr hsome
  constructor
  · rintro ⟨outs, hok, -, -⟩
    by_contra hsmall
    have hnMax : nMax = 1 := by omega
    unfold generateOutputs at hok
    obtain ⟨_, -, hok⟩ := bind_eq_ok.mp hok
    obtain ⟨_, -, hok⟩ := bind_eq_ok.mp hok
    obtain ⟨_, hmany, -⟩ := bind_eq_ok.mp hok
    rw [rejectIf_eq_ok, getTransactionCount, hnMax, Nat.div_one] at hmany
    omega
  · intro htwo
    have hhalf : d.vDistribution.length / nMax ≤ d.vDistribution.length / 2 := Nat.div_le_div_left htwo Nat.two_pos
    have hcount : d.getTransactionCount nMax = ((d.vDistribution.length / nMax + 1 : Nat) : Int) := by
      rw [getTransactionCount]
      omega
    have hall : d.vDistribution.length ≤ (d.vDistribution.length / nMax + 1) * nMax := by
      rw [Nat.mul_comm]
      exact (Nat.lt_mul_div_succ _ hmax).le
    refine ⟨_, by rw [hcount, generateOutputs_eq (Nat.succ_pos _) (by omega)],
      Dealing.flatten_deal (Nat.succ_pos _) _, ?_⟩
    intro out hout
    refine ⟨Dealing.deal_ne_nil ?_ out hout, Dealing.length_le_of_mem_deal ?_ out hout⟩
    · rw [List.length_map]
      omega
    · rw [List.length_map]
      exact hall

end DividendDistributor

/-- What `Distribute` is meant to do: it fails because no address reaches the minimum, or pays out the amount. -/
def Distributes (dDistributedAmount dMinimumPayout : Rat) (mapBalance : Store CBitcoinAddress Int) : Prop :=
  (∃ e, (⟨mapBalance, 0, []⟩ : DividendDistributor).distribute dDistributedAmount dMinimumPayout = .error e ∧
    ∀ it ∈ mapBalance.entries, it.2 * dDistributedAmount / balanceOf mapBalance.entries < dMinimumPayout) ∨
  ∃ d', (⟨mapBalance, 0, []⟩ : DividendDistributor).distribute dDistributedAmount dMinimumPayout = .ok d' ∧
    PaysOut dDistributedAmount dMinimumPayout mapBalance d'

/-- **The distribution of dividends.** `Distribute` always does what it is meant to do, and the payees of a distribution
fit into transactions of a size as well exactly when the size is at least two. -/
theorem distribution_iff (dDistributedAmount dMinimumPayout : Rat) (mapBalance : Store CBitcoinAddress Int)
    (fTestNet : Bool)
    (d : DividendDistributor) (nMaxDistributionPerTransaction : Nat) (hpos : ∀ it ∈ mapBalance.entries, 0 < it.2)
    (hamount : 0 < dDistributedAmount) (hpayees : d.vDistribution ≠ []) (hmax : 1 ≤ nMaxDistributionPerTransaction) :
    Distributes dDistributedAmount dMinimumPayout mapBalance ∧
    (Distributes dDistributedAmount dMinimumPayout mapBalance ∧ d.FitsInto fTestNet nMaxDistributionPerTransaction ↔
      2 ≤ nMaxDistributionPerTransaction) := by
  have hdistributes : Distributes dDistributedAmount dMinimumPayout mapBalance :=
    distribute_cases ⟨mapBalance, 0, []⟩ hpos hamount
  rw [DividendDistributor.fitsInto_iff hpayees hmax]
  exact ⟨hdistributes, and_iff_right hdistributes⟩

/-- A distribution to three payees. -/
def distributionSample : DividendDistributor where
  mapBalance := (Store.empty.insert ⟨63, [1]⟩ 1).insert ⟨63, [2]⟩ 3
  dTotalDistributed := 100
  vDistribution := [⟨⟨63, [1]⟩, 1, 25⟩, ⟨⟨63, [2]⟩, 3, 75⟩]

/-- Transactions of two payees. -/
theorem distribution_sample : Distributes 100 1 distributionSample.mapBalance ∧
    (Distributes 100 1 distributionSample.mapBalance ∧ distributionSample.FitsInto false 2 ↔ 2 ≤ 2) :=
  distribution_iff 100 1 distributionSample.mapBalance false distributionSample 2 (by decide) (by norm_num) (by decide) (by decide)

/-- A single payee, and transactions of a single payee: `GetTransactionCount` counts two of them. -/
theorem distribution_single :
    let d : DividendDistributor := ⟨Store.empty.insert ⟨63, [1]⟩ 1, 100, [⟨⟨63, [1]⟩, 1, 100⟩]⟩
    ((⟨d.mapBalance, 0, []⟩ : DividendDistributor).distribute 100 0).toOption.map (·.vDistribution) =
      some d.vDistribution ∧
    d.generateOutputs false (d.getTransactionCount 1) = .error (.exception "Output split in too many transactions") ∧
    ¬ d.FitsInto false 1 := by
  refine ⟨by decide +kernel, rfl, ?_⟩
  rintro ⟨outs, hok, -⟩
  cases hok

end Morcochain
