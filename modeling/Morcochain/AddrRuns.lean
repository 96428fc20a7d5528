import Morcochain.AddrCheck

/-!
# Runs of the address manager

Each call of `CAddrMan` succeeds when its tables are consistent, and keeps them so; in a run of calls from the empty
manager no assertion fails, no bucket becomes too large, and `Check_` finds nothing wrong.

* `makeTried_ok`, `addToBucket_ok` : an entry that becomes a tried one, and one that is put into a new bucket.
* `call_ok` : **each call succeeds and keeps the tables consistent**.
* `check_ok` : `Check_` passes when the tables are consistent.
* `addrMan_runs` : **so it is in every run**.
-/

set_option autoImplicit false

namespace Morcochain

open OrderedStore Guard Positions

namespace CAddrMan

section Steps

variable {cr : Crypto} {m : CAddrMan} {nId : Int} {info : CAddrInfo}

/-! ## Tried entries -/

theorem toUInt32_lt (nTime : Int) : toUInt32 nTime < 2 ^ 32 := by
  unfold toUInt32
  omega

theorem Bounded.of_le (h : Bounded m) (m' : CAddrMan) (hnew : ∀ b, (m'.vvNew b).size ≤ (m.vvNew b).size)
    (htried : m'.vvTried = m.vvTried) : Bounded m' :=
  ⟨fun b => htried ▸ h.tried b, fun b => (hnew b).trans (h.new b)⟩

/-- A bucket with room takes one more entry. -/
theorem Bounded.insertNew (h : Bounded m) {nUBucket : Fin newBucketCount}
    (hroom : (m.vvNew nUBucket).size < newBucketSize) (nId : Int) : Bounded (m.insertNew nUBucket nId) := by
  refine ⟨h.tried, fun b => ?_⟩
  show (Function.update m.vvNew nUBucket ((m.vvNew nUBucket).insert nId ()) b).size ≤ newBucketSize
  rw [Function.update_apply]
  split
  · exact (OrderedSet.size_insert_le ..).trans hroom
  · exact h.new b

/-- The entry that is moved is known after it left its new buckets. -/
theorem find?_clearNew (hfind : m.mapInfo.find? nId = some info) :
    (m.clearNew nId).mapInfo.find? nId = some { info with nRefCount := info.nRefCount - m.newCount nId } := by
  unfold clearNew
  dsimp only
  rw [find?_modify, if_pos rfl, hfind]
  rfl

/-- **A new entry that succeeded becomes a tried one.** -/
theorem makeTried_ok (h : Consistent cr m settled) (hb : Bounded m) (rand : Nat → Nat) {nOrigin : Fin newBucketCount}
    (hmem : (m.vvNew nOrigin).contains nId = true) (hfind : m.mapInfo.find? nId = some info)
    (hsuccess : 0 < info.nLastSuccess) :
    ∃ m', m.makeTried cr rand nId nOrigin = .ok m' ∧ Consistent cr m' settled ∧ Bounded m' := by
  obtain ⟨info', hfind', hnew, hcount, -, -⟩ := h.of_contains hmem rfl
  cases hfind.symm.trans hfind'
  have hclear := h.clearNew nId (Function.update settled nId (some 0)) rfl (Function.update_self ..)
    fun k hk => Function.update_of_ne hk ..
  have hself := find?_clearNew hfind
  have hzero : info.nRefCount - m.newCount nId = 0 := by omega
  have hsizes : ∀ b, ((m.clearNew nId).vvNew b).size ≤ (m.vvNew b).size := fun b => OrderedSet.size_erase_le ..
  have hcleared : Bounded (m.clearNew nId) := hb.of_le _ hsizes rfl
  unfold makeTried
  rw [rejectIf_neg (by rw [hmem]; exact Bool.noConfusion), ok_bind]
  dsimp only
  rw [entry_of_find hself, ok_bind, rejectIf_neg (by dsimp only; omega), ok_bind]
  by_cases hroom : ((m.clearNew nId).vvTried ({ info with
      nRefCount := info.nRefCount - m.newCount nId }.getTriedBucket cr
      (m.clearNew nId).nKey)).length < triedBucketSize
  · rw [if_pos hroom]
    refine ⟨_, rfl, hclear.appendTried hself hnew hzero hsuccess (Function.update_self ..) rfl fun k hk =>
      (Function.update_of_ne hk ..).symm, fun b => ?_, hcleared.new⟩
    show (Function.update (m.clearNew nId).vvTried _ (_ ++ [nId]) b).length ≤ triedBucketSize
    rw [Function.update_apply]
    split
    · rw [List.length_append, List.length_singleton]
      exact hroom
    · exact hb.tried b
  · rw [if_neg hroom]
    obtain ⟨vTried, nPos, hselect, hperm, hlt⟩ := selectTried_ok (m := m.clearNew nId) rand
      ({ info with nRefCount := info.nRefCount - m.newCount nId }.getTriedBucket cr (m.clearNew nId).nKey)
      (fun k hk => by
        obtain ⟨info', hinfo', -⟩ := (hclear.tried _ k).mp hk
        exact Option.isSome_of_eq_some hinfo')
      (Nat.lt_of_lt_of_le (by decide) (Nat.not_lt.mp hroom))
    obtain ⟨infoOld, hold, -⟩ := (hclear.tried _ _).mp (hperm.mem_iff.mp (List.getElem_mem hlt))
    have hinfoOld : (m.clearNew nId).mapInfo.find? vTried[nPos] = some infoOld := hold
    have hother : vTried[nPos] ≠ nId := fun heq => by
      have hin := hperm.mem_iff.mp (List.getElem_mem hlt)
      rw [heq] at hin
      obtain ⟨info', hinfo', htried, -⟩ := (hclear.tried _ _).mp hin
      cases hself.symm.trans hinfo'
      rw [hnew] at htried
      cases htried
    have hroomNew : ((m.clearNew nId).vvNew (if ((m.clearNew nId).vvNew (infoOld.getNewBucket cr (m.clearNew nId).nKey
        infoOld.source)).size < newBucketSize then infoOld.getNewBucket cr (m.clearNew nId).nKey infoOld.source
        else nOrigin)).size < newBucketSize := by
      split
      · assumption
      · -- the bucket that the entry came from has room
        have hsize := OrderedSet.size_erase hmem
        exact Nat.lt_of_lt_of_le (Nat.lt_of_succ_le hsize.ge) (hb.new nOrigin)
    rw [hselect, ok_bind]
    dsimp only
    rw [Option.bind_some, List.getElem?_eq_getElem hlt, Option.map_some]
    dsimp only
    rw [entry_of_find hinfoOld, ok_bind]
    have hput := hclear.replaceTried hself hnew hzero hsuccess (Function.update_self ..) rfl
      (fun k hk => (Function.update_of_ne hk ..).symm) hperm hlt (Function.update_of_ne hother ..)
      (if ((m.clearNew nId).vvNew (infoOld.getNewBucket cr (m.clearNew nId).nKey infoOld.source)).size < newBucketSize
        then infoOld.getNewBucket cr (m.clearNew nId).nKey infoOld.source else nOrigin)
    refine ⟨_, rfl, ?_, fun b => ?_, (hcleared.insertNew hroomNew _).new⟩
    · show Consistent cr { (m.clearNew nId).replaceTried _ _ _ _ _ _ with nNew := m.nNew - 1 + 1 } settled
      rw [Int.sub_add_cancel]
      exact hput
    · show (Function.update (m.clearNew nId).vvTried _ (vTried.set nPos nId) b).length ≤ triedBucketSize
      rw [Function.update_apply]
      split
      · rw [List.length_set, hperm.length_eq]
        exact hb.tried _
      · exact hb.tried b

/-- **An address that was reached.** -/
theorem good_ok (h : Consistent cr m settled) (hb : Bounded m) (rand : Nat → Nat) (addr : CService) {nTime : Int}
    (hpos : 0 < nTime) (hfits : IntFits 8 nTime) :
    ∃ m', m.good cr rand addr nTime = .ok m' ∧ Consistent cr m' settled ∧ Bounded m' := by
  unfold good
  cases hfind : m.find addr.toCNetAddr with
  | none => exact ⟨m, rfl, h, hb⟩
  | some found =>
    obtain ⟨nId, info⟩ := found
    have hinfo := find_ok hfind
    dsimp only
    split
    · exact ⟨m, rfl, h, hb⟩
    · have hmod := h.modify nId (fun info =>
          { info with nLastSuccess := nTime, nLastTry := nTime, nTime := toUInt32 nTime, nAttempts := 0 }) settled
        (fun _ _ => ⟨rfl, rfl⟩) (fun _ => rfl)
        (fun info _ hok => by
          refine ⟨hok.placed, fun hheld => ?_, hpos.le, hpos.le,
            ⟨hok.fits.1.port, hok.fits.1.nServices, toUInt32_lt nTime⟩,
            hfits⟩
          have hkind := hok.kind hheld
          unfold EntryKind at hkind ⊢
          dsimp only
          split
          · rename_i htried
            rw [if_pos htried] at hkind
            exact ⟨hkind.1, hpos⟩
          · rename_i htried
            rwa [if_neg htried] at hkind)
        (fun _ _ hcount => hcount) fun _ _ => rfl
      have hbmod := hb.of_le (m.modify nId fun info =>
        { info with nLastSuccess := nTime, nLastTry := nTime, nTime := toUInt32 nTime, nAttempts := 0 })
        (fun _ => le_rfl) rfl
      split
      · exact ⟨_, rfl, hmod, hbmod⟩
      · split
        · exact ⟨_, rfl, hmod, hbmod⟩
        · rename_i nUBucket hbucket
          have hin := List.find?_some hbucket
          exact makeTried_ok hmod hbmod _ hin
            (by rw [find?_modify, if_pos rfl, hinfo]; rfl) hpos

/-! ## New entries -/

/-- An entry that is to be put into a bucket. -/
def putting (nId : Int) : Int → Option Nat := Function.update settled nId (some 0)

theorem putting_self (nId : Int) : putting nId nId = some 0 := Function.update_self ..

theorem putting_of_ne {k : Int} (hk : k ≠ nId) : putting nId k = none := Function.update_of_ne hk ..

/-- An entry may be held at any time. -/
theorem Consistent.hold (h : Consistent cr m settled) (nId : Int) : Consistent cr m (putting nId) :=
  h.rebucket m.vvNew (fun _ _ => rfl) (fun k info _ => by
    unfold putting
    rw [Function.update_apply]
    split <;> rfl) h.known

/-- An entry that stands in no tried bucket is a new one. -/
theorem Consistent.not_tried {held : Int → Option Nat} (h : Consistent cr m held)
    (hfind : m.mapInfo.find? nId = some info)
    (hout : ∀ b, nId ∉ m.vvTried b) : info.fInTried = false := by
  by_contra htried
  exact hout _ ((h.tried _ nId).mpr ⟨info, hfind, Bool.not_eq_false _ ▸ htried, rfl⟩)

/-- An entry that is in new buckets, but not in too many, is not held any more. -/
theorem Consistent.put (h : Consistent cr m (putting nId)) (hin : m.newCount nId ≠ 0)
    (hmany : (m.newCount nId : Int) ≤ newBucketsPerAddress) (hout : ∀ b, nId ∉ m.vvTried b) :
    Consistent cr m settled := by
  refine h.settle (fun info hinfo => ?_) (putting_self nId) rfl fun k hk => (putting_of_ne hk).symm
  have hcount := h.counts nId info hinfo
  rw [putting_self, Option.getD_some, Int.natCast_zero, Int.add_zero] at hcount
  unfold EntryKind
  rw [if_neg (by rw [h.not_tried hinfo hout]; exact Bool.false_ne_true)]
  omega

/-- **An entry is put into the new bucket for the source**, where there is room or where it is made. -/
theorem addToBucket_ok (h : Consistent cr m (putting nId)) (hb : Bounded m) (nNow : Int) (rand : Nat → Nat)
    (hfind : m.mapInfo.find? nId = some info) (hnew : info.fInTried = false)
    (hfew : info.nRefCount < newBucketsPerAddress) (source : CNetAddr) :
    ∃ m', m.addToBucket cr nNow rand nId source = .ok m' ∧ Consistent cr m' settled ∧ Bounded m' := by
  have hout : ∀ b, nId ∉ m.vvTried b := fun b hmem => by
    obtain ⟨info', hinfo', htried, -⟩ := (h.tried b nId).mp hmem
    cases hfind.symm.trans hinfo'
    rw [hnew] at htried
    cases htried
  have hcount := h.counts nId info hfind
  rw [putting_self, Option.getD_some, Int.natCast_zero, Int.add_zero] at hcount
  unfold addToBucket
  rw [entry_of_find hfind, ok_bind]
  dsimp only
  generalize info.getNewBucket cr m.nKey source = nUBucket
  by_cases hin : (m.vvNew nUBucket).contains nId = true
  · rw [if_pos hin]
    refine ⟨m, rfl, h.put (fun hzero => ?_) (by omega) hout, hb⟩
    rw [newCount_eq_zero_iff.mp hzero nUBucket] at hin
    cases hin
  · rw [if_neg hin]
    have hnot : (m.vvNew nUBucket).contains nId = false := Bool.eq_false_iff.mpr hin
    have hcounted := h.modify nId (fun info => { info with nRefCount := info.nRefCount + 1 })
      (Function.update settled nId (some 1)) (fun _ _ => ⟨rfl, rfl⟩) (fun _ => rfl)
      (fun info _ hok => ⟨hok.placed, fun hheld => by simp at hheld, hok.lastTry, hok.lastSuccess, hok.fits⟩)
      (fun info _ hcount => by
        simp only [putting_self, Function.update_self, Option.getD_some] at hcount ⊢
        omega)
      (fun k hk => by rw [Function.update_of_ne hk, putting_of_ne hk]; rfl)
    have hself : (m.modify nId fun info => { info with nRefCount := info.nRefCount + 1 }).mapInfo.find? nId =
        some { info with nRefCount := info.nRefCount + 1 } := by rw [find?_modify, if_pos rfl, hfind]; rfl
    -- the entry is put into the bucket as it is then
    have hinsert : ∀ {m' : CAddrMan}, Consistent cr m' (Function.update settled nId (some 1)) → Bounded m' →
        (m'.mapInfo.find? nId).isSome = true → (m'.vvNew nUBucket).contains nId = false →
        m'.newCount nId = m.newCount nId → m'.vvTried = m.vvTried → (m'.vvNew nUBucket).size < newBucketSize →
        Consistent cr (m'.insertNew nUBucket nId) settled ∧ Bounded (m'.insertNew nUBucket nId) := by
      intro m' h' hb' hknown hnot hsame htried hroom
      have hput := h'.insertNew (n := 0) nUBucket (putting nId) hknown hnot
        (Function.update_self ..) (putting_self nId) fun k hk => by
          rw [putting_of_ne hk, Function.update_of_ne hk]
          rfl
      have hmore := newCount_insertNew hnot nId
      rw [if_pos rfl, hsame] at hmore
      exact ⟨hput.put (by omega) (by omega) (htried ▸ hout), hb'.insertNew hroom nId⟩
    rw [vvNew_modify]
    by_cases hfull : (m.vvNew nUBucket).size = newBucketSize
    · rw [if_pos hfull]
      obtain ⟨m', k, hshrink, h', hk, hvvNew, hvvTried, hstay⟩ := shrinkNew_ok hcounted nNow rand nUBucket
        (by rw [vvNew_modify, hfull]; decide)
        fun k hk => Function.update_of_ne (fun heq => hin (by rw [← heq]; exact hk)) ..
      have hne : nId ≠ k := fun heq => hin (heq ▸ hk)
      have hvvNew' : m'.vvNew = (m.eraseNew nUBucket k).vvNew := hvvNew
      have hbucket : m'.vvNew nUBucket = (m.vvNew nUBucket).erase k := by
        rw [hvvNew']
        exact Function.update_self ..
      have hfewer : (m'.vvNew nUBucket).size < newBucketSize := by
        rw [hbucket]
        exact Nat.lt_of_lt_of_le (Nat.lt_of_succ_le (OrderedSet.size_erase hk).ge) (hb.new nUBucket)
      have hb' : Bounded m' := hb.of_le _ (fun b => by
        rw [hvvNew']
        show (Function.update m.vvNew nUBucket ((m.vvNew nUBucket).erase k) b).size ≤ _
        rw [Function.update_apply]
        split
        · rename_i hbeq
          rw [hbeq]
          exact OrderedSet.size_erase_le ..
        · exact le_rfl) hvvTried
      have hsame : m'.newCount nId = m.newCount nId := by
        have hcount' := newCount_eraseNew hk nId
        rw [if_neg hne, Nat.add_zero] at hcount'
        unfold newCount at hcount' ⊢
        rw [hvvNew']
        exact hcount'
      rw [hshrink, ok_bind]
      refine ⟨_, rfl, hinsert h' hb' (hstay nId hne (Option.isSome_of_eq_some hself)) ?_ hsame hvvTried hfewer⟩
      rw [hbucket, OrderedSet.contains_erase, hnot, Bool.and_false]
    · rw [if_neg hfull]
      exact ⟨_, rfl, hinsert hcounted (hb.of_le _ (fun _ => le_rfl) rfl) (Option.isSome_of_eq_some hself)
        hnot rfl rfl (Nat.lt_of_le_of_ne (hb.new nUBucket) hfull)⟩

/-! ## Calls -/

/-- **An address that is heard of.** -/
theorem add_ok (h : Consistent cr m settled) (hb : Bounded m) (nNow : Int) (rand : Nat → Nat) {addr : CAddress}
    (hfits : addr.Fits) (source : CNetAddr) (nTimePenalty : Int) : ∃ m' fNew,
      m.add cr nNow rand addr source nTimePenalty = .ok (m', fNew) ∧ Consistent cr m' settled ∧ Bounded m' := by
  unfold add
  split
  · exact ⟨m, false, rfl, h, hb⟩
  · cases hfind : m.find addr.toCNetAddr with
    | some found =>
      obtain ⟨nId, info⟩ := found
      have hinfo := find_ok hfind
      dsimp only
      generalize (if nNow - addr.nTime < 24 * 60 * 60 then (60 * 60 : Int) else 24 * 60 * 60) = nUpdateInterval
      generalize hnTime : (if addr.nTime ≠ 0 ∧ (info.nTime = 0 ∨ (info.nTime : Int) <
        addr.nTime - nUpdateInterval - nTimePenalty) then toUInt32 (max 0 (addr.nTime - nTimePenalty))
          else info.nTime) = nTime
      have hlt : nTime < 2 ^ 32 := by
        rw [← hnTime]
        split
        · exact toUInt32_lt _
        · exact (h.entryOk nId info hinfo).fits.1.nTime
      have hmod := h.modify nId
        (fun info => { info with nTime := nTime, nServices := info.nServices ||| addr.nServices }) settled
        (fun _ _ => ⟨rfl, rfl⟩) (fun _ => rfl)
        (fun info _ hok => ⟨hok.placed, hok.kind, hok.lastTry, hok.lastSuccess,
          ⟨hok.fits.1.port, Nat.or_lt_two_pow hok.fits.1.nServices hfits.nServices, hlt⟩, hok.fits.2⟩)
        (fun _ _ hcount => hcount) fun _ _ => rfl
      have hbmod := hb.of_le (m.modify nId fun info =>
        { info with nTime := nTime, nServices := info.nServices ||| addr.nServices }) (fun _ => le_rfl) rfl
      split
      · exact ⟨_, _, rfl, hmod, hbmod⟩
      · split
        · exact ⟨_, _, rfl, hmod, hbmod⟩
        · rename_i htried
          split
          · exact ⟨_, _, rfl, hmod, hbmod⟩
          · rename_i hfull
            split
            · exact ⟨_, _, rfl, hmod, hbmod⟩
            · have hkind := (h.entryOk nId info hinfo).kind rfl
              unfold EntryKind at hkind
              rw [if_neg htried] at hkind
              have hself : (m.modify nId fun info => { info with
                  nTime := nTime, nServices := info.nServices ||| addr.nServices
                  }).mapInfo.find? nId =
                    some { info with nTime := nTime, nServices := info.nServices ||| addr.nServices } := by
                rw [find?_modify, if_pos rfl, hinfo]
                rfl
              obtain ⟨m', hm', hput⟩ :=
                addToBucket_ok (hmod.hold nId) hbmod nNow (fun i => rand (i + 1)) hself (Bool.eq_false_iff.mpr htried)
                (lt_of_le_of_ne hkind.2 hfull) source
              rw [hm', ok_bind]
              exact ⟨m', false, rfl, hput⟩
    | none =>
      have hcreate := (h.create source (putting m.nIdCount) (not_known_of_find h hfind) hfits (putting_self _)
        fun k hk => putting_of_ne hk).modify m.nIdCount
        (fun info => { info with nTime := toUInt32 (max 0 (info.nTime - nTimePenalty)) }) (putting m.nIdCount)
        (fun _ _ => ⟨rfl, rfl⟩) (fun _ => rfl)
        (fun info _ hok => ⟨hok.placed, hok.kind, hok.lastTry, hok.lastSuccess,
          ⟨hok.fits.1.port, hok.fits.1.nServices, toUInt32_lt _⟩, hok.fits.2⟩)
        (fun _ _ hcount => hcount) fun _ _ => rfl
      obtain ⟨m', hm', hput⟩ := addToBucket_ok hcreate (hb.of_le _ (fun _ => le_rfl) rfl) nNow (fun i => rand (i + 1))
        (by
          rw [find?_modify, if_pos rfl]
          show ((m.mapInfo.insert _ _).find? _).map _ = _
          rw [Store.find?_insert, if_pos rfl]
          rfl) rfl (show (0 : Int) < newBucketsPerAddress by decide) source
      refine ⟨m', true, ?_, hput⟩
      exact Eq.trans (congrArg (· >>= fun m => pure (m, true)) hm') rfl

/-- **An address that is tried.** -/
theorem attempt_ok (h : Consistent cr m settled) (hb : Bounded m) (addr : CService) {nTime : Int} (hpos : 0 ≤ nTime) :
    Consistent cr (m.attempt addr nTime) settled ∧ Bounded (m.attempt addr nTime) := by
  unfold attempt
  cases m.find addr.toCNetAddr with
  | none => exact ⟨h, hb⟩
  | some found =>
    dsimp only
    split
    · exact ⟨h, hb⟩
    · refine ⟨h.modify found.1 _ settled (fun _ _ => ⟨rfl, rfl⟩) (fun _ => rfl)
        (fun info _ hok => ⟨hok.placed, hok.kind, hpos, hok.lastSuccess,
          ⟨⟨hok.fits.1.port, hok.fits.1.nServices, hok.fits.1.nTime⟩, hok.fits.2⟩⟩) (fun _ _ hcount => hcount)
        fun _ _ => rfl, hb.of_le _ (fun _ => le_rfl) rfl⟩

/-- **An address that is connected to.** -/
theorem connected_ok (h : Consistent cr m settled) (hb : Bounded m) (addr : CService) (nTime : Int) :
    Consistent cr (m.connected addr nTime) settled ∧ Bounded (m.connected addr nTime) := by
  unfold connected
  cases m.find addr.toCNetAddr with
  | none => exact ⟨h, hb⟩
  | some found =>
    dsimp only
    split
    · exact ⟨h, hb⟩
    · refine ⟨h.modify found.1 _ settled (fun info _ => ?_) (fun info => ?_) (fun info _ hok => ?_)
        (fun info _ hcount => ?_) fun _ _ => rfl, hb.of_le _ (fun _ => le_rfl) rfl⟩
      · split
        · exact ⟨rfl, rfl⟩
        · exact .refl info
      · split <;> rfl
      · split
        · exact ⟨hok.placed, hok.kind, hok.lastTry, hok.lastSuccess,
            ⟨hok.fits.1.port, hok.fits.1.nServices, toUInt32_lt nTime⟩, hok.fits.2⟩
        · exact hok
      · split <;> exact hcount

/-- **Addresses are selected**: the list of the ids is shuffled. -/
theorem getAddr_ok (h : Consistent cr m settled) (hb : Bounded m) (rand : Nat → Nat) : ∃ m' vAddr,
    m.getAddr rand = .ok (m', vAddr) ∧ Consistent cr m' settled ∧ Bounded m' := by
  have hnodes : ∀ n ∈ List.range (min (getaddrMaxPct * m.vRandom.length / 100) getaddrMax), n < m.vRandom.length := by
    intro n hn
    have hlt := Nat.lt_of_lt_of_le (List.mem_range.mp hn) (Nat.min_le_left ..)
    unfold getaddrMaxPct at hlt
    omega
  obtain ⟨s, hs, hcons, hbounded, -⟩ := foldlM_ok (f := shuffleAddr rand) (s := (m, []))
    (I := fun s => Consistent cr s.1 settled ∧ Bounded s.1 ∧ s.1.vRandom.length = m.vRandom.length)
    (fun n hn s hI => by
      obtain ⟨m₁, vAddr⟩ := s
      obtain ⟨hcons, hbounded, hlen⟩ := hI
      dsimp only at hcons hbounded hlen
      have hn := hnodes n hn
      rw [← hlen] at hn
      have hpos := getRandInt_lt (show 0 < m₁.vRandom.length - n by omega) (rand n)
      obtain ⟨mapInfo, vRandom, hswap, hswapped, -, hsame, -⟩ := swapRandom_ok hcons n
        (getRandInt (m₁.vRandom.length - n) (rand n) + n) hn (by omega)
      have hlt : n < vRandom.length := by omega
      obtain ⟨info, hinfo⟩ := Option.isSome_iff_exists.mp (hswapped.mem_vRandom.mp (List.getElem_mem hlt))
      unfold shuffleAddr
      dsimp only
      rw [hswap, ok_bind]
      dsimp only
      rw [List.getElem?_eq_getElem hlt]
      dsimp only
      rw [entry_of_find hinfo, ok_bind]
      exact ⟨_, rfl, hswapped, hbounded.of_le _ (fun _ => le_rfl) rfl, hsame.trans hlen⟩) ⟨h, hb, rfl⟩
  exact ⟨s.1, s.2, hs, hcons, hbounded⟩

/-- A call of the manager, with the time and what the random source gives. -/
inductive Call where
  | add (nNow : Int) (rand : Nat → Nat) (addr : CAddress) (source : CNetAddr) (nTimePenalty : Int)
  | good (rand : Nat → Nat) (addr : CService) (nTime : Int)
  | attempt (addr : CService) (nTime : Int)
  | connected (addr : CService) (nTime : Int)
  | getAddr (rand : Nat → Nat)

/-- The manager after a call. -/
def call (cr : Crypto) (m : CAddrMan) : Call → Check CAddrMan
  | .add nNow rand addr source nTimePenalty => (m.add cr nNow rand addr source nTimePenalty).map (·.1)
  | .good rand addr nTime => m.good cr rand addr nTime
  | .attempt addr nTime => .ok (m.attempt addr nTime)
  | .connected addr nTime => .ok (m.connected addr nTime)
  | .getAddr rand => (m.getAddr rand).map (·.1)

/-- The numbers of an address fit their types, and the times are those of a clock. -/
def Call.Ok : Call → Prop
  | .add _ _ addr _ _ => addr.Fits
  | .good _ _ nTime => 0 < nTime ∧ IntFits 8 nTime
  | .attempt _ nTime => 0 ≤ nTime
  | .connected _ _ => True
  | .getAddr _ => True

/-- **Each call succeeds and keeps the tables consistent**, whatever the random source gives. -/
theorem call_ok (h : Consistent cr m settled) (hb : Bounded m) {c : Call} (hc : c.Ok) :
    ∃ m', m.call cr c = .ok m' ∧ Consistent cr m' settled ∧ Bounded m' := by
  cases c with
  | add nNow rand addr source nTimePenalty =>
    obtain ⟨m', fNew, hm', hrest⟩ := add_ok h hb nNow rand hc source nTimePenalty
    exact ⟨m', congrArg (·.map Prod.fst) hm', hrest⟩
  | good rand addr nTime => exact good_ok h hb rand addr hc.1 hc.2
  | attempt addr nTime => exact ⟨_, rfl, attempt_ok h hb addr hc⟩
  | connected addr nTime => exact ⟨_, rfl, connected_ok h hb addr nTime⟩
  | getAddr rand =>
    obtain ⟨m', vAddr, hm', hrest⟩ := getAddr_ok h hb rand
    exact ⟨m', congrArg (·.map Prod.fst) hm', hrest⟩

/-- The manager when it is made: it knows no address. -/
def empty (nKey : Bytes) : CAddrMan := { nKey := nKey }

theorem consistent_empty (cr : Crypto) (nKey : Bytes) : Consistent cr (empty nKey) settled where
  fresh _ _ h := by cases h
  entryOk _ _ h := by cases h
  inverse _ _ := ⟨(by cases ·), fun ⟨_, h, _⟩ => (by cases h)⟩
  random := indexes_nil fun _ => rfl
  counts _ _ h := by cases h
  known _ _ h := by cases h
  tried _ _ := ⟨(by cases ·), fun ⟨_, h, _⟩ => (by cases h)⟩
  once _ := List.nodup_nil
  nTried := rfl
  nNew := rfl

theorem bounded_empty (nKey : Bytes) : Bounded (empty nKey) := ⟨fun _ => Nat.zero_le _, fun _ => Nat.zero_le _⟩

/-- **The number of addresses is bounded**, as each of them is in some bucket. -/
theorem size_le (h : Consistent cr m settled) (hb : Bounded m) :
    m.vRandom.length ≤ triedBucketCount * triedBucketSize + newBucketCount * newBucketSize := by
  have hin : m.vRandom ⊆ (List.finRange triedBucketCount).flatMap m.vvTried ++
      (List.finRange newBucketCount).flatMap fun nUBucket => (m.vvNew nUBucket).elems := by
    intro nId hmem
    obtain ⟨info, hinfo⟩ := Option.isSome_iff_exists.mp (h.mem_vRandom.mp hmem)
    rw [List.mem_append, List.mem_flatMap, List.mem_flatMap]
    by_cases htried : info.fInTried = true
    · exact .inl ⟨_, List.mem_finRange _, (h.tried _ nId).mpr ⟨info, hinfo, htried, rfl⟩⟩
    · have hkind := (h.entryOk nId info hinfo).kind rfl
      have hcount : info.nRefCount = m.newCount nId := (h.counts nId info hinfo).trans (Int.add_zero _)
      unfold EntryKind at hkind
      rw [if_neg htried] at hkind
      have hne : ¬ ∀ b, (m.vvNew b).contains nId = false := fun hnone => by
        have hzero := newCount_eq_zero_iff.mpr hnone
        omega
      obtain ⟨b, hb⟩ := not_forall.mp hne
      exact .inr ⟨b, List.mem_finRange b, OrderedSet.mem_elems.mpr ((Bool.not_eq_false _).mp hb)⟩
  have hsum : ∀ {n k : Nat} {f : Fin n → List Int}, (∀ b, (f b).length ≤ k) →
    ((List.finRange n).flatMap f).length ≤ n * k := by
    intro n k f hf
    have hle := List.sum_le_card_nsmul ((List.finRange n).map fun b => (f b).length) k fun x hx => by
      obtain ⟨b, -, rfl⟩ := List.mem_map.mp hx
      exact hf b
    rwa [List.length_map, List.length_finRange, smul_eq_mul, ← List.length_flatMap] at hle
  have hle := (h.random.nodup.subperm hin).length_le
  rw [List.length_append] at hle
  refine hle.trans (Nat.add_le_add (hsum hb.tried) (hsum fun b => ?_))
  · rw [OrderedSet.length_elems]
    exact hb.new b

end Steps

/-- The state between two calls: the tables are consistent, they are bounded, and the check passes. -/
structure Sound (cr : Crypto) (m : CAddrMan) : Prop where
  consistent : Consistent cr m settled
  bounded : Bounded m
  size : m.vRandom.length ≤ triedBucketCount * triedBucketSize + newBucketCount * newBucketSize
  check : m.check = .ok ()

/-- **Runs of the address manager.** Whatever the random source gives, no assertion fails in a run of calls from the
empty manager, and after it the tables are consistent, no bucket has more than 64 entries, there are no more addresses
than the buckets hold, and `Check_` passes. -/
theorem addrMan_runs (cr : Crypto) (nKey : Bytes) {calls : List Call} (hcalls : ∀ c ∈ calls, c.Ok) :
    ∃ m, calls.foldlM (call cr) (empty nKey) = .ok m ∧ Sound cr m := by
  obtain ⟨m, hm, h, hb⟩ := foldlM_ok (f := call cr) (I := fun m => Consistent cr m settled ∧ Bounded m)
    (fun c hc m hI => call_ok hI.1 hI.2 (hcalls c hc)) ⟨consistent_empty cr nKey, bounded_empty nKey⟩
  exact ⟨m, hm, h, hb, size_le h hb, check_ok h⟩

/-- A routable address, and one that tells of it. -/
def sampleAddress : CAddress where
  ip := CNetAddr.pchIPv4 ++ [8, 8, 4, 4]
  size_eq := rfl
  port := 7895
  nTime := 1400000000

theorem sampleAddress_fits : sampleAddress.Fits := by constructor <;> decide

/-- A run in which an address is added, tried, reached and asked for. -/
theorem addrMan_runs_sample : ∃ m, [Call.add 1400000100 (fun _ => 5) sampleAddress sampleAddress.toCNetAddr 7200,
    .attempt sampleAddress.toCService 1400000200, .good (fun i => i) sampleAddress.toCService 1400000300,
    .connected sampleAddress.toCService 1400009000, .getAddr fun i => i].foldlM (call Crypto.sample) (empty [1, 2]) =
      .ok m ∧ Sound Crypto.sample m :=
  addrMan_runs Crypto.sample [1, 2] (by
    refine List.forall_mem_cons.mpr ⟨sampleAddress_fits, List.forall_mem_cons.mpr ⟨?_, List.forall_mem_cons.mpr ⟨?_,
      List.forall_mem_cons.mpr ⟨trivial, List.forall_mem_cons.mpr ⟨trivial, List.forall_mem_nil _⟩⟩⟩⟩⟩
    · exact (by decide : (0 : Int) ≤ 1400000200)
    · exact ⟨by decide, by constructor <;> decide⟩)

end CAddrMan

end Morcochain
