import Morcochain.AddrMan
import Morcochain.Lib.Shuffle

/-!
# Eviction from tried buckets

`SelectTried` draws a few entries of a bucket to its first places and returns the place that the least recently
successful of them was drawn from, for `MakeTried` to put another entry there. The entry itself is at the place it was
drawn for.

* `selectTried_eq` : **what the bucket is after the call, and the position that is returned.**
* `selectsOldest_iff` : when the position is that of the entry that was looked for.
* `makeTried_full` : what is evicted from a full bucket.
-/

set_option autoImplicit false

namespace Morcochain

open OrderedStore Guard Shuffle

namespace CAddrMan

/-! ## Selection -/

/-- The time of the last success of an entry. -/
def lastSuccess (m : CAddrMan) (nId : Int) : Int := ((m.mapInfo.find? nId).map (·.nLastSuccess)).getD 0

/-- The places that `SelectTried` draws from, in a bucket of a size. -/
def triedDraw (rand : Nat → Nat) (nSize i : Nat) : Nat := getRandInt (nSize - i) (rand i) + i

/-- The entries that `SelectTried` inspects: those that it draws. -/
def inspected (rand : Nat → Nat) (vTried : List Int) : List Int :=
  (List.range (min triedEntriesInspectOnEvict vTried.length)).filterMap
    (drawn (triedDraw rand vTried.length) vTried)

section Select

variable {m : CAddrMan} {rand : Nat → Nat} {vTried : List Int}

theorem draws_triedDraw {n : Nat} (h : n ≤ vTried.length) : Draws (triedDraw rand vTried.length) vTried n := by
  intro i hi
  have hlt := getRandInt_lt (show 0 < vTried.length - i by omega) (rand i)
  unfold triedDraw
  omega

/-- What is noted after some draws: the first of the oldest entries drawn, with the place it was drawn from. -/
def Noted (m : CAddrMan) (rand : Nat → Nat) (vTried : List Int) (n : Nat) : Option (Int × Nat) → Prop
  | none => n = 0
  | some (nOldest, nOldestPos) => ∃ k,
    FirstLeast m.lastSuccess ((shuffled (triedDraw rand vTried.length) vTried n).take n) k nOldest ∧
    nOldestPos = triedDraw rand vTried.length k

/-- The entry of an id that is known. -/
theorem entry_of_isSome {nId : Int} (h : (m.mapInfo.find? nId).isSome) :
    ∃ info, m.entry nId = .ok info ∧ info.nLastSuccess = m.lastSuccess nId := by
  obtain ⟨info, hinfo⟩ := Option.isSome_iff_exists.mp h
  unfold entry lastSuccess
  rw [hinfo]
  exact ⟨info, rfl, rfl⟩

/-- **A turn of the loop** draws an entry, and notes it when it is older than the one noted. -/
theorem inspectTried_eq (hknown : ∀ nId ∈ vTried, (m.mapInfo.find? nId).isSome) {n : Nat} (h : n < vTried.length)
    {oldest : Option (Int × Nat)} (hnoted : Noted m rand vTried n oldest) :
    ∃ oldest', m.inspectTried rand (shuffled (triedDraw rand vTried.length) vTried n, oldest) n =
      .ok (shuffled (triedDraw rand vTried.length) vTried (n + 1), oldest') ∧ Noted m rand vTried (n + 1) oldest' := by
  have hdraws : Draws (triedDraw rand vTried.length) vTried (n + 1) := draws_triedDraw h
  obtain ⟨x, hx, htake⟩ := take_shuffled_succ hdraws
  obtain ⟨y, hy⟩ : ∃ y, (shuffled (triedDraw rand vTried.length) vTried n)[n]? = some y :=
    ⟨_, List.getElem?_eq_getElem (h.trans_eq (length_shuffled n).symm)⟩
  have hx' : (shuffled (triedDraw rand vTried.length) vTried n)[triedDraw rand vTried.length n]? = some x := hx
  have hnext : shuffled (triedDraw rand vTried.length) vTried (n + 1) =
      ((shuffled (triedDraw rand vTried.length) vTried n).set (triedDraw rand vTried.length n) y).set n x := by
    rw [shuffled, exchange, hx', hy]
  have hpos : getRandInt ((shuffled (triedDraw rand vTried.length) vTried n).length - n) (rand n) + n =
      triedDraw rand vTried.length n := by
    rw [length_shuffled]
    rfl
  unfold inspectTried
  dsimp only
  rw [hpos, hx', hy, hnext]
  dsimp only
  rw [← hnext]
  cases oldest with
  | none =>
    refine ⟨_, rfl, 0, ?_, ?_⟩
    · rw [htake, show n = 0 from hnoted]
      exact firstLeast_singleton _ x
    · rw [show n = 0 from hnoted]
  | some noted =>
    obtain ⟨nOldest, nOldestPos⟩ := noted
    obtain ⟨k, hleast, rfl⟩ := hnoted
    have hmem : x ∈ vTried := (shuffled_perm n).mem_iff.mp (List.mem_of_getElem? hx')
    have hmemOldest : nOldest ∈ vTried :=
      (shuffled_perm n).mem_iff.mp (List.mem_of_mem_take (List.mem_of_getElem? hleast.at_place))
    obtain ⟨info, hinfo, hlast⟩ := entry_of_isSome (hknown x hmem)
    obtain ⟨infoOldest, hinfoOldest, hlastOldest⟩ := entry_of_isSome (hknown nOldest hmemOldest)
    have hconcat := hleast.concat x
    have hlen : ((shuffled (triedDraw rand vTried.length) vTried n).take n).length = n :=
      List.length_take_of_le (h.le.trans_eq (length_shuffled n).symm)
    dsimp only
    rw [hinfo, ok_bind, hinfoOldest, ok_bind, hlast, hlastOldest]
    refine ⟨_, rfl, ?_⟩
    by_cases holder : m.lastSuccess x < m.lastSuccess nOldest
    · rw [if_pos holder, hlen, ← htake] at hconcat
      rw [if_pos holder]
      exact ⟨n, hconcat, rfl⟩
    · rw [if_neg holder, ← htake] at hconcat
      rw [if_neg holder]
      exact ⟨k, hconcat, rfl⟩

/-- The loop. -/
theorem foldlM_inspectTried (hknown : ∀ nId ∈ vTried, (m.mapInfo.find? nId).isSome) : ∀ {n : Nat}, n ≤ vTried.length →
    ∃ oldest, (List.range n).foldlM (m.inspectTried rand) (vTried, none) =
      .ok (shuffled (triedDraw rand vTried.length) vTried n, oldest) ∧ Noted m rand vTried n oldest
  | 0, _ => ⟨none, rfl, rfl⟩
  | n + 1, h => by
    obtain ⟨oldest, hok, hnoted⟩ := foldlM_inspectTried hknown (Nat.le_of_succ_le h)
    obtain ⟨oldest', hstep, hnoted'⟩ := inspectTried_eq hknown h hnoted
    refine ⟨oldest', ?_, hnoted'⟩
    rw [List.range_succ, List.foldlM_append, hok, ok_bind, List.foldlM_cons, hstep]
    rfl

theorem inspected_eq : inspected rand vTried =
    (shuffled (triedDraw rand vTried.length) vTried (min triedEntriesInspectOnEvict vTried.length)).take
      (min triedEntriesInspectOnEvict vTried.length) :=
  (take_shuffled (draws_triedDraw (Nat.min_le_right _ _))).symm

variable {nKBucket : Fin triedBucketCount}

/-- **What `SelectTried` leaves and returns**: the drawn entries are at the first places, and the position is the one
that the first of the oldest of them was drawn from. -/
theorem selectTried_eq (hknown : ∀ nId ∈ m.vvTried nKBucket, (m.mapInfo.find? nId).isSome) :
    ∃ nPos, m.selectTried rand nKBucket =
      .ok (shuffled (triedDraw rand (m.vvTried nKBucket).length) (m.vvTried nKBucket)
      (min triedEntriesInspectOnEvict (m.vvTried nKBucket).length), nPos) ∧
      (nPos = none → inspected rand (m.vvTried nKBucket) = []) ∧
      ∀ p, nPos = some p → ∃ k nId, FirstLeast m.lastSuccess (inspected rand (m.vvTried nKBucket)) k nId ∧
        p = triedDraw rand (m.vvTried nKBucket).length k := by
  obtain ⟨oldest, hok, hnoted⟩ := @foldlM_inspectTried m rand _ hknown _
    (Nat.min_le_right triedEntriesInspectOnEvict (m.vvTried nKBucket).length)
  refine ⟨oldest.map (·.2), ?_, ?_, ?_⟩
  · unfold selectTried
    dsimp only
    rw [hok]
    rfl
  · intro hnone
    rw [Option.map_eq_none_iff.mp hnone] at hnoted
    rw [inspected, show min triedEntriesInspectOnEvict (m.vvTried nKBucket).length = 0 from hnoted]
    rfl
  · rintro p hp
    obtain ⟨⟨nOldest, nOldestPos⟩, rfl, rfl⟩ := Option.map_eq_some_iff.mp hp
    rw [inspected_eq]
    obtain ⟨k, hleast, hplace⟩ := hnoted
    exact ⟨k, nOldest, hleast, hplace⟩

end Select

/-! ## Eviction -/

/-- An entry is inspected, and no inspected entry succeeded less recently. -/
def IsOldest (m : CAddrMan) (rand : Nat → Nat) (vTried : List Int) (nId : Int) : Prop :=
  nId ∈ inspected rand vTried ∧ ∀ nId' ∈ inspected rand vTried, m.lastSuccess nId ≤ m.lastSuccess nId'

/-- `SelectTried` returns the position, in the bucket as it is after the call, of the least recently successful of the
entries it inspects. -/
def SelectsOldest (m : CAddrMan) (rand : Nat → Nat) (nKBucket : Fin triedBucketCount) : Prop :=
  ∃ vTried nPos nId, m.selectTried rand nKBucket = .ok (vTried, some nPos) ∧ vTried[nPos]? = some nId ∧
    IsOldest m rand (m.vvTried nKBucket) nId

/-- The entry that leaves a tried bucket is the least recently successful of those that are inspected. -/
def EvictsOldest (m m' : CAddrMan) (rand : Nat → Nat) (nKBucket : Fin triedBucketCount) : Prop :=
  ∃ nId, IsOldest m rand (m.vvTried nKBucket) nId ∧ nId ∉ m'.vvTried nKBucket

/-- The random choice that draws the least recently successful of the inspected entries, the first of them if there are
several, draws it from a place that is itself inspected, and whose entry is just as old. It is so when the choice leaves
the entry where it is. -/
def DrawnInPlace (m : CAddrMan) (rand : Nat → Nat) (vTried : List Int) : Prop :=
  ∃ k nId nId', FirstLeast m.lastSuccess (inspected rand vTried) k nId ∧
    (inspected rand vTried)[triedDraw rand vTried.length k]? = some nId' ∧ m.lastSuccess nId' = m.lastSuccess nId

section Evict

variable {cr : Crypto} {m : CAddrMan} {rand : Nat → Nat} {nKBucket : Fin triedBucketCount}

/-- The entry at the returned position is the least recently successful one. -/
theorem isOldest_at_iff (hnodup : (m.vvTried nKBucket).Nodup) {k : Nat} {nOldest : Int}
    (hleast : FirstLeast m.lastSuccess (inspected rand (m.vvTried nKBucket)) k nOldest) :
    (∃ nId, (shuffled (triedDraw rand (m.vvTried nKBucket).length) (m.vvTried nKBucket)
        (min triedEntriesInspectOnEvict (m.vvTried nKBucket).length))[triedDraw rand (m.vvTried nKBucket).length k]? =
          some nId ∧
        IsOldest m rand (m.vvTried nKBucket) nId) ↔ DrawnInPlace m rand (m.vvTried nKBucket) := by
  have hnodup' := (@shuffled_perm _ (triedDraw rand (m.vvTried nKBucket).length) (m.vvTried nKBucket)
    (min triedEntriesInspectOnEvict (m.vvTried nKBucket).length)).nodup_iff.mpr hnodup
  unfold IsOldest DrawnInPlace
  rw [inspected_eq] at hleast ⊢
  rw [least_at_iff hnodup' hleast]
  constructor
  · rintro ⟨nId, hat, hlast⟩
    exact ⟨k, nOldest, nId, hleast, hat, hlast⟩
  · rintro ⟨k', nOldest', nId, hleast', hat, hlast⟩
    obtain ⟨rfl, rfl⟩ := hleast.unique hleast'
    exact ⟨nId, hat, hlast⟩

/-- **When the position is that of the least recently successful of the inspected entries.** -/
theorem selectsOldest_iff (hnodup : (m.vvTried nKBucket).Nodup)
    (hknown : ∀ nId ∈ m.vvTried nKBucket, (m.mapInfo.find? nId).isSome) :
    SelectsOldest m rand nKBucket ↔ DrawnInPlace m rand (m.vvTried nKBucket) := by
  obtain ⟨nPos, hok, hnone, hsome⟩ := @selectTried_eq m rand nKBucket hknown
  unfold SelectsOldest
  cases nPos with
  | none =>
    have hnil := hnone rfl
    refine iff_of_false ?_ ?_
    · rintro ⟨vTried, nPos, nId, -, -, hmem, -⟩
      rw [hnil] at hmem
      cases hmem
    · rintro ⟨k, nId, -, hleast, -⟩
      have hat := hleast.at_place
      rw [hnil] at hat
      cases hat
  | some nPos =>
    obtain ⟨k, nOldest, hleast, rfl⟩ := hsome nPos rfl
    rw [← isOldest_at_iff hnodup hleast]
    constructor
    · rintro ⟨vTried, nPos, nId, hok', hat, holdest⟩
      cases hok.symm.trans hok'
      exact ⟨nId, hat, holdest⟩
    · rintro ⟨nId, hat, holdest⟩
      exact ⟨_, _, nId, hok, hat, holdest⟩

/-- The entries of new buckets do not tell when an address was last reached. -/
theorem lastSuccess_clearNew (nId : Int) : (m.clearNew nId).lastSuccess = m.lastSuccess := by
  funext nId'
  unfold lastSuccess clearNew
  dsimp only [modify]
  rw [Store.find?_modify]
  split
  · cases m.mapInfo.find? nId' with
    | none => rfl
    | some info => rfl
  · rfl

/-- **What is evicted from a full bucket**: the entry at the position that is returned. -/
theorem makeTried_full {nId : Int} {nOrigin : Fin newBucketCount} {m' : CAddrMan} {info : CAddrInfo}
    (h : m.makeTried cr rand nId nOrigin = .ok m') (hinfo : m.mapInfo.find? nId = some info)
    (hbucket : info.getTriedBucket cr m.nKey = nKBucket) (hfull : triedBucketSize ≤ (m.vvTried nKBucket).length) :
    ∃ vTried nPos nIdOld, (m.clearNew nId).selectTried rand nKBucket = .ok (vTried, some nPos) ∧
      vTried[nPos]? = some nIdOld ∧ m'.vvTried nKBucket = vTried.set nPos nId := by
  unfold makeTried at h
  obtain ⟨_, -, h⟩ := bind_eq_ok.mp h
  obtain ⟨info', hentry, h⟩ := bind_eq_ok.mp h
  obtain ⟨_, -, h⟩ := bind_eq_ok.mp h
  have hbucket' : info'.getTriedBucket cr (m.clearNew nId).nKey = nKBucket := by
    have hfind : (m.clearNew nId).mapInfo.find? nId =
        some { info with nRefCount := info.nRefCount - m.newCount nId } := by
      unfold clearNew
      dsimp only [modify]
      rw [Store.find?_modify, if_pos rfl, hinfo]
      rfl
    unfold entry at hentry
    rw [hfind] at hentry
    cases hentry
    exact hbucket
  dsimp only at h
  rw [hbucket'] at h
  have hfull' : ¬ ((m.clearNew nId).vvTried nKBucket).length < triedBucketSize := Nat.not_lt.mpr hfull
  rw [if_neg hfull'] at h
  obtain ⟨⟨vTried, nPos⟩, hselect, h⟩ := bind_eq_ok.mp h
  dsimp only at h
  split at h
  · cases h
  · rename_i nPos' nIdOld hat
    obtain ⟨infoOld, -, h⟩ := bind_eq_ok.mp h
    obtain ⟨nPos'', rfl, hmap⟩ := Option.bind_eq_some_iff.mp hat
    obtain ⟨nIdOld', hget, heq⟩ := Option.map_eq_some_iff.mp hmap
    obtain ⟨rfl, rfl⟩ := Prod.mk.inj heq
    cases h
    exact ⟨vTried, nPos'', nIdOld', hselect, hget, Function.update_self ..⟩

/-- **When the least recently successful of the inspected entries is evicted.** -/
theorem evictsOldest_iff {nId : Int} {nOrigin : Fin newBucketCount} {m' : CAddrMan} {info : CAddrInfo}
    (hnodup : (m.vvTried nKBucket).Nodup) (hknown : ∀ nId ∈ m.vvTried nKBucket, (m.mapInfo.find? nId).isSome)
    (h : m.makeTried cr rand nId nOrigin = .ok m') (hinfo : m.mapInfo.find? nId = some info)
    (hbucket : info.getTriedBucket cr m.nKey = nKBucket) (hfull : triedBucketSize ≤ (m.vvTried nKBucket).length)
    (hnew : nId ∉ m.vvTried nKBucket) : EvictsOldest m m' rand nKBucket ↔ DrawnInPlace m rand (m.vvTried nKBucket) := by
  obtain ⟨vTried, nPos, nIdOld, hselect, hat, hbucket'⟩ := makeTried_full h hinfo hbucket hfull
  have hknown' : ∀ nId' ∈ (m.clearNew nId).vvTried nKBucket, ((m.clearNew nId).mapInfo.find? nId').isSome := by
    intro nId' hmem
    have := hknown nId' hmem
    unfold clearNew
    dsimp only [modify]
    rw [Store.find?_modify]
    split
    · rw [Option.isSome_map]
      exact this
    · exact this
  obtain ⟨nPos', hok, -, hsome⟩ := @selectTried_eq (m.clearNew nId) rand nKBucket hknown'
  cases hok.symm.trans hselect
  obtain ⟨k, nOldest, hleast, rfl⟩ := hsome nPos rfl
  rw [lastSuccess_clearNew] at hleast
  rw [← isOldest_at_iff hnodup hleast]
  have hperm := @shuffled_perm _ (triedDraw rand (m.vvTried nKBucket).length) (m.vvTried nKBucket)
    (min triedEntriesInspectOnEvict (m.vvTried nKBucket).length)
  have hgone : ∀ {nId' : Int}, nId' ∈ inspected rand (m.vvTried nKBucket) →
      (nId' ∉ m'.vvTried nKBucket ↔ nId' = nIdOld) := by
    intro nId' hmem
    rw [inspected_eq] at hmem
    rw [hbucket']
    exact notMem_set_iff (hperm.nodup_iff.mpr hnodup) hat (fun hold => hnew (hperm.mem_iff.mp hold)) (List.mem_of_mem_take hmem)
  constructor
  · rintro ⟨nId', holdest, hnot⟩
    obtain rfl := (hgone holdest.1).mp hnot
    exact ⟨nId', hat, holdest⟩
  · rintro ⟨nId', hat', holdest⟩
    obtain rfl : nIdOld = nId' := Option.some.inj (hat.symm.trans hat')
    exact ⟨nIdOld, holdest, (hgone holdest.1).mpr rfl⟩

/-- When no two inspected entries are as old as each other, the choice has to leave the oldest one where it is. -/
theorem drawnInPlace_iff (hnodup : (m.vvTried nKBucket).Nodup)
    (hdiff : ∀ nId ∈ inspected rand (m.vvTried nKBucket), ∀ nId' ∈ inspected rand (m.vvTried nKBucket),
      m.lastSuccess nId = m.lastSuccess nId' → nId = nId') :
    DrawnInPlace m rand (m.vvTried nKBucket) ↔ ∃ k nId,
      FirstLeast m.lastSuccess (inspected rand (m.vvTried nKBucket)) k nId ∧
      getRandInt ((m.vvTried nKBucket).length - k) (rand k) = 0 := by
  have hnodup' : (inspected rand (m.vvTried nKBucket)).Nodup := by
    rw [inspected_eq]
    exact (List.take_sublist _ _).nodup ((shuffled_perm _).nodup_iff.mpr hnodup)
  constructor
  · rintro ⟨k, nId, nId', hleast, hat, hlast⟩
    obtain rfl := hdiff nId' (List.mem_of_getElem? hat) nId (List.mem_of_getElem? hleast.at_place) hlast
    obtain ⟨hk, hget⟩ := List.getElem?_eq_some_iff.mp hleast.at_place
    obtain ⟨hd, hget'⟩ := List.getElem?_eq_some_iff.mp hat
    have hplace := hnodup'.getElem_inj_iff.mp (hget'.trans hget.symm)
    exact ⟨k, nId', hleast, by unfold triedDraw at hplace; omega⟩
  · rintro ⟨k, nId, hleast, hzero⟩
    refine ⟨k, nId, nId, hleast, ?_, rfl⟩
    rw [triedDraw, hzero, Nat.zero_add]
    exact hleast.at_place

end Evict

/-- **Eviction from tried buckets.** For a bucket of different entries that are known, `SelectTried` returns the
position of the least recently successful of the entries that it inspects exactly when the random choice that drew it
drew it in place, and so it is with what `MakeTried` evicts from a full bucket. -/
theorem triedEviction_iff {m : CAddrMan} {rand : Nat → Nat} {nKBucket : Fin triedBucketCount}
    (hnodup : (m.vvTried nKBucket).Nodup) (hknown : ∀ nId ∈ m.vvTried nKBucket, (m.mapInfo.find? nId).isSome) :
    (SelectsOldest m rand nKBucket ↔ DrawnInPlace m rand (m.vvTried nKBucket)) ∧
    ∀ (cr : Crypto) (nId : Int) (nOrigin : Fin newBucketCount) (m' : CAddrMan) (info : CAddrInfo),
      m.makeTried cr rand nId nOrigin = .ok m' → m.mapInfo.find? nId = some info →
      info.getTriedBucket cr m.nKey = nKBucket → triedBucketSize ≤ (m.vvTried nKBucket).length →
      nId ∉ m.vvTried nKBucket →
      (EvictsOldest m m' rand nKBucket ↔ DrawnInPlace m rand (m.vvTried nKBucket)) :=
  ⟨selectsOldest_iff hnodup hknown, fun _ _ _ _ _ h hinfo hbucket hfull hnew =>
    evictsOldest_iff hnodup hknown h hinfo hbucket hfull hnew⟩

/-- The first of the tried buckets. -/
def firstTried : Fin triedBucketCount := ⟨0, by decide⟩

/-- The first of the new buckets. -/
def firstNew : Fin newBucketCount := ⟨0, by decide⟩

/-- An entry that succeeded at a time. -/
def triedEntry (nId : Int) : CAddrInfo :=
  { (default : CAddrInfo) with
    nLastSuccess := if nId = 1 then 50 else 100 + nId
    nRefCount := if nId = 64 then 1 else 0 }

/-- A full tried bucket, whose second entry succeeded least recently, and a new entry for it. -/
def triedSample : CAddrMan where
  nKey := []
  mapInfo := ((List.range 65).map Int.ofNat).foldl (fun mapInfo nId => mapInfo.insert nId (triedEntry nId)) .empty
  vvTried := fun nKBucket => if nKBucket = firstTried then (List.range 64).map Int.ofNat else []
  vvNew := fun nUBucket => if nUBucket = firstNew then Store.empty.insert 64 () else .empty

/-- Random choices of which the first takes the second entry of the bucket, and each other one the entry at its place. -/
def triedRand (i : Nat) : Nat := if i = 0 then 1 else 0

/-- What is evicted from the sample. -/
theorem triedEviction_sample : ∃ m', triedSample.makeTried Crypto.sample triedRand 64 firstNew = .ok m' ∧
    (EvictsOldest triedSample m' triedRand firstTried ↔
      DrawnInPlace triedSample triedRand (triedSample.vvTried firstTried)) := by
  have hok : (triedSample.makeTried Crypto.sample triedRand 64 firstNew).isOk = true := by decide +kernel
  have hknown : (triedSample.mapInfo.find? 64).isSome = true := by decide +kernel
  have hbucket : (triedSample.mapInfo.find? 64).map (fun info => info.getTriedBucket Crypto.sample triedSample.nKey) =
      some firstTried := by decide +kernel
  obtain ⟨m', h⟩ := exists_of_isOk hok
  obtain ⟨info, hinfo⟩ := Option.isSome_iff_exists.mp hknown
  rw [hinfo] at hbucket
  exact ⟨m', h, (triedEviction_iff (by decide +kernel) (by decide +kernel)).2 Crypto.sample 64 firstNew m' info h hinfo
    (Option.some.inj hbucket) (by decide +kernel) (by decide +kernel)⟩

/-- The second entry is the least recently successful of those that are inspected, but `SelectTried` returns the
position that holds the first one afterwards, and `MakeTried` evicts that one. -/
theorem selectTried_moved :
    inspected triedRand (triedSample.vvTried firstTried) = [1, 0, 2, 3] ∧
    (inspected triedRand (triedSample.vvTried firstTried)).map triedSample.lastSuccess = [50, 100, 102, 103] ∧
    ((triedSample.selectTried triedRand firstTried).toOption.map fun r => (r.1.take 4, r.2)) =
      some ([1, 0, 2, 3], some 1) ∧
    ((triedSample.makeTried Crypto.sample triedRand 64 firstNew).toOption.map fun m' => (m'.vvTried firstTried).take 4) =
      some [1, 64, 2, 3] ∧
    ¬ SelectsOldest triedSample triedRand firstTried := by
  have hselect : ((triedSample.selectTried triedRand firstTried).toOption.map fun r => (r.1.take 4, r.2)) =
      some ([1, 0, 2, 3], some 1) := by decide +kernel
  refine ⟨by decide +kernel, by decide +kernel, hselect, by decide +kernel, ?_⟩
  rintro ⟨vTried, nPos, nId, hok, hat, hmem, hleast⟩
  rw [hok] at hselect
  obtain ⟨htake, hpos⟩ := Prod.mk.inj (Option.some.inj hselect)
  obtain rfl := Option.some.inj hpos
  have hzero : nId = 0 := by
    have hplace : (vTried.take 4)[1]? = some nId := by rw [List.getElem?_take, if_pos (by decide), hat]
    rw [htake] at hplace
    exact (Option.some.inj hplace).symm
  have hle := hleast 1 (by decide +kernel)
  rw [hzero] at hle
  exact absurd hle (by decide +kernel)

end CAddrMan

end Morcochain
