import Morcochain.AddrMan
import Morcochain.Lib.Positions

/-!
# The tables of the address manager

What ties the tables of `CAddrMan` together (`Consistent`), and that the calls keep it. In the course of a call an entry
may be held: a new bucket that it is counted for does not have it yet.

* `Consistent.modify` : an entry may change what the tables do not depend on.
* `swapRandom_ok`, `removeNew_ok`, `makeTried_ok` : the steps that the calls are made of.
* `consistent_call` : **every call succeeds and keeps the tables consistent**.
-/

set_option autoImplicit false

namespace Morcochain

open OrderedStore Guard Positions

namespace CAddrMan

/-! ## Consistent tables -/

/-- A new entry, or a tried one. -/
def EntryKind (info : CAddrInfo) : Prop :=
  if info.fInTried = true then info.nRefCount = 0 ∧ 0 < info.nLastSuccess
  else 1 ≤ info.nRefCount ∧ info.nRefCount ≤ newBucketsPerAddress

/-- What holds of an entry by itself, that of its kind unless it is held. -/
structure EntryOk (held : Option Nat) (info : CAddrInfo) : Prop where
  placed : info.nRandomPos.isSome = true
  kind : held = none → EntryKind info
  lastTry : 0 ≤ info.nLastTry
  lastSuccess : 0 ≤ info.nLastSuccess
  /-- The numbers fit their types. -/
  fits : info.toCAddress.Fits ∧ IntFits 8 info.nLastSuccess

/-- The tables are consistent; the entries that are held are counted for more buckets than have them. -/
structure Consistent (cr : Crypto) (m : CAddrMan) (held : Int → Option Nat) : Prop where
  fresh : ∀ nId info, m.mapInfo.find? nId = some info → nId < m.nIdCount
  entryOk : ∀ nId info, m.mapInfo.find? nId = some info → EntryOk (held nId) info
  /-- The two maps are inverse. -/
  inverse : ∀ addr nId, m.mapAddr.find? addr = some nId ↔ ∃ info, m.mapInfo.find? nId = some info ∧
    info.toCNetAddr = addr
  random : Indexes m.vRandom fun nId => (m.mapInfo.find? nId).bind (·.nRandomPos)
  /-- The reference count is the number of the new buckets. -/
  counts : ∀ nId info, m.mapInfo.find? nId = some info → info.nRefCount = m.newCount nId + (held nId).getD 0
  known : ∀ nUBucket nId, (m.vvNew nUBucket).contains nId = true → (m.mapInfo.find? nId).isSome = true
  tried : ∀ nKBucket nId, nId ∈ m.vvTried nKBucket ↔ ∃ info, m.mapInfo.find? nId = some info ∧ info.fInTried = true ∧
    info.getTriedBucket cr m.nKey = nKBucket
  once : ∀ nKBucket, (m.vvTried nKBucket).Nodup
  nTried : m.nTried = (m.mapInfo.entries.countP (·.2.fInTried) : Nat)
  nNew : m.nNew = (m.mapInfo.entries.countP (!·.2.fInTried) : Nat)

/-- Between two calls no entry is held. -/
def settled : Int → Option Nat := fun _ => none

/-- No bucket is larger than it may be. -/
structure Bounded (m : CAddrMan) : Prop where
  tried : ∀ nKBucket, (m.vvTried nKBucket).length ≤ triedBucketSize
  new : ∀ nUBucket, (m.vvNew nUBucket).size ≤ newBucketSize

section Entries

variable {cr : Crypto} {m : CAddrMan} {held held' : Int → Option Nat} {nId nId' : Int} {info : CAddrInfo}

@[simp] theorem find?_modify (m : CAddrMan) (nId nId' : Int) (f : CAddrInfo → CAddrInfo) :
    (m.modify nId f).mapInfo.find? nId' = if nId' = nId then (m.mapInfo.find? nId').map f else m.mapInfo.find? nId' :=
  Store.find?_modify ..

@[simp] theorem vRandom_modify (m : CAddrMan) (nId : Int) (f : CAddrInfo → CAddrInfo) :
    (m.modify nId f).vRandom = m.vRandom := rfl

@[simp] theorem vvNew_modify (m : CAddrMan) (nId : Int) (f : CAddrInfo → CAddrInfo) : (m.modify nId f).vvNew =
  m.vvNew := rfl

@[simp] theorem vvTried_modify (m : CAddrMan) (nId : Int) (f : CAddrInfo → CAddrInfo) :
    (m.modify nId f).vvTried = m.vvTried := rfl

theorem entry_of_find (h : m.mapInfo.find? nId = some info) : m.entry nId = .ok info := by
  unfold entry
  rw [h]

theorem find_ok {addr : CNetAddr} (hfind : m.find addr = some (nId, info)) : m.mapInfo.find? nId = some info := by
  unfold find at hfind
  obtain ⟨nId', -, hinfo⟩ := Option.bind_eq_some_iff.mp hfind
  obtain ⟨info', hinfo, heq⟩ := Option.map_eq_some_iff.mp hinfo
  cases heq
  exact hinfo

/-- An address that is not found is not known. -/
theorem not_known_of_find (h : Consistent cr m held) {addr : CNetAddr} (hfind : m.find addr = none) :
    m.mapAddr.find? addr = none := by
  unfold find at hfind
  cases hid : m.mapAddr.find? addr with
  | none => rfl
  | some nId =>
    obtain ⟨info, hinfo, -⟩ := (h.inverse addr nId).mp hid
    rw [hid, Option.bind_some, hinfo] at hfind
    cases hfind

/-- What the tables depend on, but for the position and the reference count. -/
structure SameShape (info info' : CAddrInfo) : Prop where
  service : info'.toCService = info.toCService
  fInTried : info'.fInTried = info.fInTried

theorem SameShape.refl (info : CAddrInfo) : SameShape info info := ⟨rfl, rfl⟩

theorem SameShape.trans {a b c : CAddrInfo} (h : SameShape a b) (h' : SameShape b c) : SameShape a c :=
  ⟨h'.service.trans h.service, h'.fInTried.trans h.fInTried⟩

theorem getTriedBucket_congr {info info' : CAddrInfo} (h : info'.toCService = info.toCService) (nKey : Bytes) :
    info'.getTriedBucket cr nKey = info.getTriedBucket cr nKey := by
  simp only [CAddrInfo.getTriedBucket, h]

/-- The store has the same entries, up to what the tables do not depend on. -/
structure Reshaped (mapInfo mapInfo' : Store Int CAddrInfo) : Prop where
  of_new : ∀ nId info', mapInfo'.find? nId = some info' → ∃ info, mapInfo.find? nId = some info ∧ SameShape info info'
  of_old : ∀ nId info, mapInfo.find? nId = some info → ∃ info', mapInfo'.find? nId = some info' ∧ SameShape info info'
  counts : ∀ p : Bool → Bool, mapInfo'.entries.countP (fun e => p e.2.fInTried) =
    mapInfo.entries.countP fun e => p e.2.fInTried

theorem Reshaped.refl (mapInfo : Store Int CAddrInfo) : Reshaped mapInfo mapInfo :=
  ⟨fun _ info h => ⟨info, h, .refl _⟩, fun _ info h => ⟨info, h, .refl _⟩, fun _ => rfl⟩

theorem Reshaped.trans {a b c : Store Int CAddrInfo} (h : Reshaped a b) (h' : Reshaped b c) : Reshaped a c := by
  refine ⟨fun k info' hinfo' => ?_, fun k info hinfo => ?_, fun p => (h'.counts p).trans (h.counts p)⟩
  · obtain ⟨info₁, h₁, hs₁⟩ := h'.of_new k info' hinfo'
    obtain ⟨info, h₀, hs₀⟩ := h.of_new k info₁ h₁
    exact ⟨info, h₀, hs₀.trans hs₁⟩
  · obtain ⟨info₁, h₁, hs₁⟩ := h.of_old k info hinfo
    obtain ⟨info', h₂, hs₂⟩ := h'.of_old k info₁ h₁
    exact ⟨info', h₂, hs₁.trans hs₂⟩

/-- An entry that is changed. -/
theorem reshaped_modify {mapInfo : Store Int CAddrInfo} {f : CAddrInfo → CAddrInfo}
    (hf : ∀ info, mapInfo.find? nId = some info → SameShape info (f info)) :
    Reshaped mapInfo (mapInfo.modify nId f) := by
  refine ⟨fun k info' h => ?_, fun k info h => ?_, fun p => ?_⟩
  · rw [Store.find?_modify] at h
    split at h
    · rename_i hk
      obtain ⟨info, hinfo, rfl⟩ := Option.map_eq_some_iff.mp h
      exact ⟨info, hinfo, hf info (hk ▸ hinfo)⟩
    · exact ⟨info', h, .refl _⟩
  · rw [Store.find?_modify]
    split
    · rename_i hk
      exact ⟨f info, by rw [h]; rfl, hf info (hk ▸ h)⟩
    · exact ⟨info, h, .refl _⟩
  · cases h : mapInfo.find? nId with
    | none =>
      unfold Store.modify
      rw [h]
    | some info =>
      have hcount := Store.countP_modify (fun e => p e.2.fInTried) f h
      dsimp only at hcount
      rw [(hf info h).fInTried] at hcount
      omega

theorem Reshaped.isSome_iff {a b : Store Int CAddrInfo} (h : Reshaped a b) (nId : Int) :
    (b.find? nId).isSome = true ↔ (a.find? nId).isSome = true := by
  rw [Option.isSome_iff_exists, Option.isSome_iff_exists]
  constructor
  · rintro ⟨info', hinfo'⟩
    obtain ⟨info, hinfo, -⟩ := h.of_new nId info' hinfo'
    exact ⟨info, hinfo⟩
  · rintro ⟨info, hinfo⟩
    obtain ⟨info', hinfo', -⟩ := h.of_old nId info hinfo
    exact ⟨info', hinfo'⟩

/-- **Entries may change what the tables do not depend on**, and the rest when it stays right. -/
theorem Consistent.reshape (h : Consistent cr m held) {mapInfo : Store Int CAddrInfo} {vRandom : List Int}
    (hshape : Reshaped m.mapInfo mapInfo) (hok : ∀ nId info, mapInfo.find? nId = some info → EntryOk (held' nId) info)
    (hrandom : Indexes vRandom fun nId => (mapInfo.find? nId).bind (·.nRandomPos))
    (hcounts : ∀ nId info, mapInfo.find? nId = some info → info.nRefCount = m.newCount nId + (held' nId).getD 0) :
    Consistent cr { m with mapInfo := mapInfo, vRandom := vRandom } held' := by
  refine ⟨fun nId info hinfo => ?_, hok, fun addr nId => ?_, hrandom, hcounts, fun nUBucket nId hmem => ?_,
    fun nKBucket nId => ?_, h.once, ?_, ?_⟩
  · obtain ⟨info₀, hinfo₀, -⟩ := hshape.of_new nId info hinfo
    exact h.fresh nId info₀ hinfo₀
  · rw [h.inverse]
    constructor
    · rintro ⟨info, hinfo, rfl⟩
      obtain ⟨info', hinfo', hs⟩ := hshape.of_old nId info hinfo
      exact ⟨info', hinfo', congrArg CService.toCNetAddr hs.service⟩
    · rintro ⟨info', hinfo', rfl⟩
      obtain ⟨info, hinfo, hs⟩ := hshape.of_new nId info' hinfo'
      exact ⟨info, hinfo, (congrArg CService.toCNetAddr hs.service).symm⟩
  · exact (hshape.isSome_iff nId).mpr (h.known nUBucket nId hmem)
  · rw [h.tried]
    constructor
    · rintro ⟨info, hinfo, htried, rfl⟩
      obtain ⟨info', hinfo', hs⟩ := hshape.of_old nId info hinfo
      exact ⟨info', hinfo', hs.fInTried.trans htried, getTriedBucket_congr hs.service _⟩
    · rintro ⟨info', hinfo', htried, rfl⟩
      obtain ⟨info, hinfo, hs⟩ := hshape.of_new nId info' hinfo'
      exact ⟨info, hinfo, hs.fInTried.symm.trans htried, (getTriedBucket_congr hs.service _).symm⟩
  · exact h.nTried.trans (congrArg Nat.cast (hshape.counts id).symm)
  · exact h.nNew.trans (congrArg Nat.cast (hshape.counts not).symm)

/-- **An entry may change** what the tables do not depend on. -/
theorem Consistent.modify (h : Consistent cr m held) (nId : Int) (f : CAddrInfo → CAddrInfo) (held' : Int → Option Nat)
    (hf : ∀ info, m.mapInfo.find? nId = some info → SameShape info (f info))
    (hpos : ∀ info, (f info).nRandomPos = info.nRandomPos)
    (hok : ∀ info, m.mapInfo.find? nId = some info → EntryOk (held nId) info → EntryOk (held' nId) (f info))
    (hcounts : ∀ info, m.mapInfo.find? nId = some info → info.nRefCount = m.newCount nId + (held nId).getD 0 →
      (f info).nRefCount = m.newCount nId + (held' nId).getD 0)
    (hheld : ∀ k, k ≠ nId → held' k = held k) : Consistent cr (m.modify nId f) held' := by
  have hcases : ∀ k info, (m.mapInfo.modify nId f).find? k = some info →
      k ≠ nId ∧ m.mapInfo.find? k = some info ∨ k = nId ∧ ∃ info₀, m.mapInfo.find? nId = some info₀ ∧
        f info₀ = info := by
    intro k info hinfo
    rw [Store.find?_modify] at hinfo
    split at hinfo
    · rename_i hk
      obtain ⟨info₀, hinfo₀, hf⟩ := Option.map_eq_some_iff.mp hinfo
      exact .inr ⟨hk, info₀, hk ▸ hinfo₀, hf⟩
    · rename_i hk
      exact .inl ⟨hk, hinfo⟩
  refine h.reshape (reshaped_modify hf) (fun k info hinfo => ?_) (h.random.congr fun k => ?_) fun k info hinfo => ?_
  · rcases hcases k info hinfo with ⟨hk, hinfo⟩ | ⟨rfl, info₀, hinfo₀, rfl⟩
    · rw [hheld k hk]
      exact h.entryOk k info hinfo
    · exact hok info₀ hinfo₀ (h.entryOk k info₀ hinfo₀)
  · rw [Store.find?_modify]
    split
    · cases m.mapInfo.find? k with
      | none => rfl
      | some info => exact hpos info
    · rfl
  · rcases hcases k info hinfo with ⟨hk, hinfo⟩ | ⟨rfl, info₀, hinfo₀, rfl⟩
    · rw [hheld k hk]
      exact h.counts k info hinfo
    · exact hcounts info₀ hinfo₀ (h.counts k info₀ hinfo₀)

/-! ## Positions -/

/-- The ids are those that stand in the list. -/
theorem Consistent.mem_vRandom (h : Consistent cr m held) : nId ∈ m.vRandom ↔ (m.mapInfo.find? nId).isSome = true := by
  rw [h.random.mem_iff]
  cases hinfo : m.mapInfo.find? nId with
  | none => exact Iff.rfl
  | some info =>
    rw [Option.bind_some]
    exact iff_of_true (h.entryOk nId info hinfo).placed rfl

/-- **Two entries change places.** -/
theorem swapRandom_ok (h : Consistent cr m held) (nRndPos1 nRndPos2 : Nat) (h₁ : nRndPos1 < m.vRandom.length)
    (h₂ : nRndPos2 < m.vRandom.length) : ∃ mapInfo vRandom,
      m.swapRandom nRndPos1 nRndPos2 = .ok { m with mapInfo := mapInfo, vRandom := vRandom } ∧
      Consistent cr { m with mapInfo := mapInfo, vRandom := vRandom } held ∧ Reshaped m.mapInfo mapInfo ∧
      vRandom.length = m.vRandom.length ∧ vRandom[nRndPos2]? = m.vRandom[nRndPos1]? := by
  unfold swapRandom
  by_cases heq : nRndPos1 = nRndPos2
  · rw [if_pos heq]
    exact ⟨m.mapInfo, m.vRandom, rfl, h, .refl _, rfl, by rw [heq]⟩
  · rw [if_neg heq]
    have hid : ∀ {i}, i < m.vRandom.length → ∃ nId info, m.vRandom[i]? = some nId ∧
      m.mapInfo.find? nId = some info := by
      intro i hi
      have hplace := List.getElem?_eq_getElem hi
      obtain ⟨info, hinfo⟩ := Option.isSome_iff_exists.mp (h.mem_vRandom.mp (List.mem_of_getElem? hplace))
      exact ⟨_, info, hplace, hinfo⟩
    obtain ⟨nId1, info1, hplace1, hinfo1⟩ := hid h₁
    obtain ⟨nId2, info2, hplace2, hinfo2⟩ := hid h₂
    have hne : nId1 ≠ nId2 := fun hsame => by
      have hpos := (h.random nId1 nRndPos1).mp hplace1
      rw [hsame, (h.random nId2 nRndPos2).mp hplace2] at hpos
      exact heq (Option.some.inj hpos).symm
    have hmove : ∀ (mapInfo : Store Int CAddrInfo) (nId : Int) (nRndPos : Nat),
        Reshaped mapInfo (mapInfo.modify nId fun info => { info with nRandomPos := some nRndPos }) :=
      fun _ _ _ => reshaped_modify fun _ _ => ⟨rfl, rfl⟩
    have hshape := (hmove m.mapInfo nId1 nRndPos2).trans (hmove _ nId2 nRndPos1)
    rw [hplace1, hplace2]
    dsimp only
    rw [entry_of_find hinfo1, ok_bind, entry_of_find hinfo2, ok_bind]
    -- only the positions of the two entries are others
    have hsame : ∀ k info, ((m.modify nId1 fun info => { info with nRandomPos := some nRndPos2 }).modify nId2
        fun info => { info with nRandomPos := some nRndPos1 }).mapInfo.find? k = some info →
        ∃ info₀, m.mapInfo.find? k = some info₀ ∧ ∃ nRandomPos, nRandomPos.isSome = true ∧
          info = { info₀ with nRandomPos := nRandomPos } := by
      intro k info hinfo
      rw [find?_modify, find?_modify] at hinfo
      cases hk : m.mapInfo.find? k with
      | none =>
        rw [hk] at hinfo
        split at hinfo <;> split at hinfo <;> cases hinfo
      | some info₀ =>
        have hplaced := (h.entryOk k info₀ hk).placed
        rw [hk] at hinfo
        split at hinfo <;> split at hinfo <;> cases hinfo
        · exact ⟨info₀, rfl, some nRndPos1, rfl, rfl⟩
        · exact ⟨info₀, rfl, some nRndPos1, rfl, rfl⟩
        · exact ⟨info₀, rfl, some nRndPos2, rfl, rfl⟩
        · exact ⟨_, rfl, _, hplaced, rfl⟩
    refine ⟨_, _, rfl, h.reshape hshape (fun k info hinfo => ?_) ((h.random.swap hplace1 hplace2 heq).congr fun k => ?_)
      (fun k info hinfo => ?_), hshape, ?_, ?_⟩
    · obtain ⟨info₀, hinfo₀, nRandomPos, hplaced, rfl⟩ := hsame k info hinfo
      have hok := h.entryOk k info₀ hinfo₀
      exact ⟨hplaced, hok.kind, hok.lastTry, hok.lastSuccess, hok.fits⟩
    · rw [find?_modify, find?_modify, Function.update_apply, Function.update_apply]
      by_cases hk2 : k = nId2
      · rw [if_pos hk2, if_pos hk2, hk2, if_neg (Ne.symm hne), hinfo2]
        rfl
      · rw [if_neg hk2, if_neg hk2]
        by_cases hk1 : k = nId1
        · rw [if_pos hk1, if_pos hk1, hk1, hinfo1]
          rfl
        · rw [if_neg hk1, if_neg hk1]
    · obtain ⟨info₀, hinfo₀, nRandomPos, -, rfl⟩ := hsame k info hinfo
      exact h.counts k info₀ hinfo₀
    · rw [vRandom_modify, vRandom_modify, List.length_set, List.length_set]
    · rw [vRandom_modify, vRandom_modify, List.getElem?_set_self (by rw [List.length_set]; exact h₂)]

/-! ## Buckets -/

/-- The number of buckets, when one of them comes to hold an id. -/
theorem newCount_insertNew {nUBucket : Fin newBucketCount} (hnot : (m.vvNew nUBucket).contains nId = false) (k : Int) :
    (m.insertNew nUBucket nId).newCount k = m.newCount k + if k = nId then 1 else 0 := by
  have hset : (Finset.univ.filter fun b => ((m.insertNew nUBucket nId).vvNew b).contains k = true) =
      if k = nId then insert nUBucket (Finset.univ.filter fun b => (m.vvNew b).contains k = true)
      else Finset.univ.filter fun b => (m.vvNew b).contains k = true := by
    ext b
    unfold insertNew
    by_cases hb : b = nUBucket <;> by_cases hk : k = nId <;>
      simp [Function.update_apply, OrderedSet.contains_insert, hb, hk]
  unfold newCount
  rw [hset]
  split
  · rename_i hk
    rw [Finset.card_insert_of_notMem (by simp [hk, hnot])]
  · rfl

/-- The number of buckets, when one of them loses an id. -/
theorem newCount_eraseNew {nUBucket : Fin newBucketCount} (hmem : (m.vvNew nUBucket).contains nId = true) (k : Int) :
    (m.eraseNew nUBucket nId).newCount k + (if k = nId then 1 else 0) = m.newCount k := by
  have hset : (Finset.univ.filter fun b => ((m.eraseNew nUBucket nId).vvNew b).contains k = true) =
      if k = nId then (Finset.univ.filter fun b => (m.vvNew b).contains k = true).erase nUBucket
      else Finset.univ.filter fun b => (m.vvNew b).contains k = true := by
    ext b
    unfold eraseNew
    by_cases hb : b = nUBucket <;> by_cases hk : k = nId <;>
      simp [Function.update_apply, OrderedSet.contains_erase, hb, hk]
  unfold newCount
  rw [hset]
  split
  · rename_i hk
    have hcard := Finset.card_erase_add_one (a := nUBucket)
      (s := Finset.univ.filter fun b => (m.vvNew b).contains k = true)
      (by simp [hk, hmem])
    exact hcard
  · rfl

theorem newCount_eq_zero_iff : m.newCount nId = 0 ↔ ∀ nUBucket, (m.vvNew nUBucket).contains nId = false := by
  unfold newCount
  rw [Finset.card_eq_zero, Finset.filter_eq_empty_iff]
  simp

theorem EntryOk.of_held {a b : Option Nat} (h : EntryOk a info) (hab : b = none → a = none) : EntryOk b info :=
  ⟨h.placed, fun hb => h.kind (hab hb), h.lastTry, h.lastSuccess, h.fits⟩

/-- The new buckets may change, when the entries are counted for them. -/
theorem Consistent.rebucket (h : Consistent cr m held) (vvNew : Fin newBucketCount → OrderedSet Int)
    (hheld : ∀ k, held' k = none → held k = none)
    (hcounts : ∀ k info, m.mapInfo.find? k = some info → m.newCount k + (held k).getD 0 =
      ({ m with vvNew := vvNew } : CAddrMan).newCount k + (held' k).getD 0)
    (hknown : ∀ nUBucket k, (vvNew nUBucket).contains k = true → (m.mapInfo.find? k).isSome = true) :
    Consistent cr { m with vvNew := vvNew } held' := by
  refine ⟨h.fresh, fun k info hinfo => ?_, h.inverse, h.random, fun k info hinfo => ?_, hknown, h.tried, h.once,
    h.nTried,
    h.nNew⟩
  · exact (h.entryOk k info hinfo).of_held (hheld k)
  · have hcount := hcounts k info hinfo
    rw [h.counts k info hinfo]
    omega

/-- An entry that is counted for one bucket too many is put into a bucket. -/
theorem Consistent.insertNew (h : Consistent cr m held) {n : Nat} (nUBucket : Fin newBucketCount)
    (held' : Int → Option Nat)
    (hfind : (m.mapInfo.find? nId).isSome = true) (hnot : (m.vvNew nUBucket).contains nId = false)
    (hnow : held nId = some (n + 1)) (hthen : held' nId = some n) (hrest : ∀ k, k ≠ nId → held' k = held k) :
    Consistent cr (m.insertNew nUBucket nId) held' := by
  refine h.rebucket _ (fun k hk => ?_) (fun k info hinfo => ?_) fun b k hmem => ?_
  · by_cases heq : k = nId
    · rw [heq, hthen] at hk
      cases hk
    · rwa [hrest k heq] at hk
  · have hcount := newCount_insertNew hnot k
    unfold CAddrMan.insertNew at hcount
    rw [hcount]
    by_cases heq : k = nId
    · rw [if_pos heq, heq, hnow, hthen]
      simp only [Option.getD_some]
      omega
    · rw [if_neg heq, hrest k heq, Nat.add_zero]
  · rw [Function.update_apply] at hmem
    split at hmem
    · rw [OrderedSet.contains_insert, Bool.or_eq_true, decide_eq_true_eq] at hmem
      rcases hmem with hk | hmem
      · rw [hk]
        exact hfind
      · exact h.known _ k hmem
    · exact h.known b k hmem

/-- An entry is taken out of a bucket, and is counted for one bucket too many. -/
theorem Consistent.eraseNew (h : Consistent cr m held) {nUBucket : Fin newBucketCount} (held' : Int → Option Nat)
    (hmem : (m.vvNew nUBucket).contains nId = true) (hthen : held' nId = some ((held nId).getD 0 + 1))
    (hrest : ∀ k, k ≠ nId → held' k = held k) : Consistent cr (m.eraseNew nUBucket nId) held' := by
  refine h.rebucket _ (fun k hk => ?_) (fun k info hinfo => ?_) fun b k hmem => ?_
  · by_cases heq : k = nId
    · rw [heq, hthen] at hk
      cases hk
    · rwa [hrest k heq] at hk
  · have hcount := newCount_eraseNew hmem k
    unfold CAddrMan.eraseNew at hcount
    rw [← hcount]
    by_cases heq : k = nId
    · rw [if_pos heq, heq, hthen]
      simp only [Option.getD_some]
      omega
    · rw [if_neg heq, hrest k heq, Nat.add_zero]
  · rw [Function.update_apply] at hmem
    split at hmem
    · rw [OrderedSet.contains_erase, Bool.and_eq_true] at hmem
      exact h.known _ k hmem.2
    · exact h.known b k hmem

theorem newCount_clear (m : CAddrMan) (nId k : Int) :
    ({ m with vvNew := fun nUBucket => (m.vvNew nUBucket).erase nId } : CAddrMan).newCount k =
      if k = nId then 0 else m.newCount k := by
  split
  · rename_i hk
    refine newCount_eq_zero_iff.mpr fun b => ?_
    dsimp only
    rw [OrderedSet.contains_erase, hk]
    simp
  · rename_i hk
    unfold newCount
    congr 2
    funext b
    dsimp only
    rw [OrderedSet.contains_erase]
    simp [hk]

/-- An entry leaves all the new buckets; the number of new entries is not right any more. -/
theorem Consistent.clearNew (h : Consistent cr m held) (nId : Int) (held' : Int → Option Nat) (hnow : held nId = none)
    (hthen : held' nId = some 0)
    (hrest : ∀ k, k ≠ nId → held' k = held k) : Consistent cr { m.clearNew nId with nNew := m.nNew } held' := by
  have hout : Consistent cr { m with vvNew := fun nUBucket => (m.vvNew nUBucket).erase nId }
      (Function.update held nId (some (m.newCount nId))) := by
    refine h.rebucket _ (fun k hk => ?_) (fun k info hinfo => ?_) fun b k hmem => ?_
    · rw [Function.update_apply] at hk
      split at hk
      · cases hk
      · exact hk
    · rw [newCount_clear, Function.update_apply]
      by_cases heq : k = nId
      · rw [if_pos heq, if_pos heq, heq, hnow]
        simp only [Option.getD_some, Option.getD_none]
        omega
      · rw [if_neg heq, if_neg heq]
    · rw [OrderedSet.contains_erase, Bool.and_eq_true] at hmem
      exact h.known b k hmem.2
  refine hout.modify nId (fun info => { info with nRefCount := info.nRefCount - m.newCount nId }) held'
    (fun _ _ => ⟨rfl, rfl⟩) (fun _ => rfl) (fun info hinfo hok => ?_) (fun info hinfo hcount => ?_) fun k hk => ?_
  · refine ⟨hok.placed, fun hheld => ?_, hok.lastTry, hok.lastSuccess, hok.fits⟩
    rw [hthen] at hheld
    cases hheld
  · rw [newCount_clear, if_pos rfl, Function.update_self] at hcount
    rw [newCount_clear, if_pos rfl, hthen]
    simp only [Option.getD_some] at hcount ⊢
    omega
  · rw [hrest k hk, Function.update_of_ne hk]

/-- An entry is not held any more. -/
theorem Consistent.settle (h : Consistent cr m held) (hkind : ∀ info, m.mapInfo.find? nId = some info → EntryKind info)
    (hnow : held nId = some 0) (hthen : held' nId = none) (hrest : ∀ k, k ≠ nId → held' k = held k) :
    Consistent cr m held' := by
  refine ⟨h.fresh, fun k info hinfo => ?_, h.inverse, h.random, fun k info hinfo => ?_, h.known, h.tried, h.once,
    h.nTried,
    h.nNew⟩
  · have hok := h.entryOk k info hinfo
    by_cases heq : k = nId
    · exact ⟨hok.placed, fun _ => hkind info (heq ▸ hinfo), hok.lastTry, hok.lastSuccess, hok.fits⟩
    · rwa [hrest k heq]
  · rw [h.counts k info hinfo]
    by_cases heq : k = nId
    · rw [heq, hnow, hthen]
      rfl
    · rw [hrest k heq]

/-! ## Entries that come and go -/

/-- An entry without buckets is deleted. -/
theorem Consistent.delete (h : Consistent cr m held) (held' : Int → Option Nat)
    (hfind : m.mapInfo.find? nId = some info) (hcount : m.newCount nId = 0)
    (hnew : info.fInTried = false) (hlast : m.vRandom[m.vRandom.length - 1]? = some nId)
    (hrest : ∀ k, k ≠ nId → held' k = held k) :
    Consistent cr { m with
      vRandom := m.vRandom.dropLast
      mapAddr := m.mapAddr.erase info.toCNetAddr
      mapInfo := m.mapInfo.erase nId
      nNew := m.nNew - 1 } held' := by
  have hgone : ∀ {k info'}, (m.mapInfo.erase nId).find? k = some info' → k ≠ nId ∧ m.mapInfo.find? k = some info' := by
    intro k info' hk
    rw [Store.find?_erase] at hk
    split at hk
    · cases hk
    · rename_i hne
      exact ⟨hne, hk⟩
  have hstays : ∀ {k info'}, k ≠ nId → m.mapInfo.find? k = some info' → (m.mapInfo.erase nId).find? k = some info' :=
    fun hne hk => by rwa [Store.find?_erase, if_neg hne]
  have hcounts := fun p : Bool → Bool => Store.countP_erase (fun e : Int × CAddrInfo => p e.2.fInTried) hfind
  refine ⟨fun k info' hk => h.fresh k info' (hgone hk).2, fun k info' hk => ?_, fun addr k => ?_, ?_,
    fun k info' hk => ?_,
    fun b k hmem => ?_, fun b k => ?_, h.once, ?_, ?_⟩
  · obtain ⟨hne, hk⟩ := hgone hk
    rw [hrest k hne]
    exact h.entryOk k info' hk
  · rw [Store.find?_erase]
    constructor
    · intro hk
      split at hk
      · cases hk
      · rename_i hne
        obtain ⟨info', hinfo', rfl⟩ := (h.inverse addr k).mp hk
        refine ⟨info', hstays (fun heq => hne ?_) hinfo', rfl⟩
        rw [heq, hfind] at hinfo'
        cases hinfo'
        rfl
    · rintro ⟨info', hk, rfl⟩
      obtain ⟨hne, hk⟩ := hgone hk
      have haddr := (h.inverse _ k).mpr ⟨info', hk, rfl⟩
      rw [if_neg, haddr]
      intro heq
      rw [heq, (h.inverse _ nId).mpr ⟨info, hfind, rfl⟩] at haddr
      exact hne (Option.some.inj haddr).symm
  · refine (h.random.pop hlast).congr fun k => ?_
    rw [Function.update_apply, Store.find?_erase]
    split <;> rfl
  · obtain ⟨hne, hk⟩ := hgone hk
    rw [hrest k hne]
    exact h.counts k info' hk
  · have hne : k ≠ nId := fun heq => by
      have hzero := newCount_eq_zero_iff.mp hcount b
      rw [← heq, hmem] at hzero
      cases hzero
    rw [Store.find?_erase, if_neg hne]
    exact h.known b k hmem
  · rw [h.tried]
    constructor
    · rintro ⟨info', hk, htried, hb⟩
      refine ⟨info', hstays (fun heq => ?_) hk, htried, hb⟩
      rw [heq, hfind] at hk
      cases hk
      rw [hnew] at htried
      cases htried
    · rintro ⟨info', hk, htried, hb⟩
      exact ⟨info', (hgone hk).2, htried, hb⟩
  · have hcount := hcounts id
    rw [hnew] at hcount
    rw [h.nTried]
    exact congrArg Nat.cast hcount
  · have hcount := hcounts not
    rw [hnew, Bool.not_false, if_pos rfl] at hcount
    rw [h.nNew, hcount]
    dsimp only
    omega

/-- **An entry is added**, a new one or a tried one. -/
theorem Consistent.add (h : Consistent cr m held) (info : CAddrInfo) (held' : Int → Option Nat)
    (vvTried : Fin triedBucketCount → List Int) (nTried nNew : Int)
    (hunused : m.mapAddr.find? info.toCNetAddr = none) (hpos : info.nRandomPos = some m.vRandom.length)
    (hok : EntryOk (held' m.nIdCount) info) (hcount : info.nRefCount = (held' m.nIdCount).getD 0)
    (hrest : ∀ k, k ≠ m.nIdCount → held' k = held k)
    (htried : ∀ b k, k ∈ vvTried b ↔
      k ∈ m.vvTried b ∨ k = m.nIdCount ∧ info.fInTried = true ∧ info.getTriedBucket cr m.nKey = b)
    (honce : ∀ b, (vvTried b).Nodup) (hnTried : nTried = m.nTried + if info.fInTried then 1 else 0)
    (hnNew : nNew = m.nNew + if info.fInTried then 0 else 1) :
    Consistent cr { m with
      nIdCount := m.nIdCount + 1
      mapInfo := m.mapInfo.insert m.nIdCount info
      mapAddr := m.mapAddr.insert info.toCNetAddr m.nIdCount
      vRandom := m.vRandom ++ [m.nIdCount]
      vvTried := vvTried
      nTried := nTried
      nNew := nNew } held' := by
  have hunknown : m.mapInfo.find? m.nIdCount = none := by
    cases hk : m.mapInfo.find? m.nIdCount with
    | none => rfl
    | some info => exact absurd (h.fresh _ info hk) (Int.lt_irrefl _)
  have hne : ∀ {k info'}, m.mapInfo.find? k = some info' → k ≠ m.nIdCount := fun hk heq => by
    rw [heq, hunknown] at hk
    cases hk
  have hself : (m.mapInfo.insert m.nIdCount info).find? m.nIdCount = some info := by rw [Store.find?_insert, if_pos rfl]
  have hother : ∀ {k}, k ≠ m.nIdCount → (m.mapInfo.insert m.nIdCount info).find? k = m.mapInfo.find? k := fun hk => by
    rw [Store.find?_insert, if_neg hk]
  have hcases : ∀ {k info'}, (m.mapInfo.insert m.nIdCount info).find? k = some info' → k = m.nIdCount ∧ info' = info ∨
      k ≠ m.nIdCount ∧ m.mapInfo.find? k = some info' := by
    intro k info' hk
    by_cases heq : k = m.nIdCount
    · rw [heq, hself] at hk
      exact .inl ⟨heq, (Option.some.inj hk).symm⟩
    · rw [hother heq] at hk
      exact .inr ⟨heq, hk⟩
  have hzero : m.newCount m.nIdCount = 0 := newCount_eq_zero_iff.mpr fun b => by
    by_contra hmem
    have hknown := h.known b _ (Bool.not_eq_false _ ▸ hmem)
    rw [hunknown] at hknown
    cases hknown
  have hnumber := fun p : Bool → Bool =>
    Store.countP_insert (fun e : Int × CAddrInfo => p e.2.fInTried) m.mapInfo m.nIdCount info
  refine ⟨fun k info' hk => ?_, fun k info' hk => ?_, fun a k => ?_, ?_, fun k info' hk => ?_, fun b k hmem => ?_,
    fun b k => ?_, honce, ?_, ?_⟩
  · rcases hcases hk with ⟨rfl, -⟩ | ⟨-, hk⟩
    · exact Int.lt_succ _
    · exact Int.lt_trans (h.fresh k info' hk) (Int.lt_succ _)
  · rcases hcases hk with ⟨rfl, rfl⟩ | ⟨hk', hk⟩
    · exact hok
    · rw [hrest k hk']
      exact h.entryOk k info' hk
  · dsimp only
    rw [Store.find?_insert]
    constructor
    · intro hk
      split at hk
      · rename_i ha
        cases hk
        exact ⟨info, hself, ha.symm⟩
      · obtain ⟨info', hinfo', rfl⟩ := (h.inverse a k).mp hk
        exact ⟨info', (hother (hne hinfo')).trans hinfo', rfl⟩
    · rintro ⟨info', hk, rfl⟩
      rcases hcases hk with ⟨rfl, rfl⟩ | ⟨-, hk⟩
      · exact if_pos rfl
      · have haddr := (h.inverse _ k).mpr ⟨info', hk, rfl⟩
        rw [if_neg, haddr]
        intro heq
        rw [heq, hunused] at haddr
        cases haddr
  · refine (h.random.push (a := m.nIdCount) (by rw [hunknown]; rfl)).congr fun k => ?_
    rw [Function.update_apply]
    split
    · rename_i hk
      rw [hk, hself]
      exact hpos
    · rename_i hk
      rw [hother hk]
  · rcases hcases hk with ⟨rfl, rfl⟩ | ⟨hk', hk⟩
    · show info'.nRefCount = m.newCount m.nIdCount + _
      rw [hzero, hcount]
      exact (Int.zero_add _).symm
    · rw [hrest k hk']
      exact h.counts k info' hk
  · obtain ⟨info', hk⟩ := Option.isSome_iff_exists.mp (h.known b k hmem)
    exact Option.isSome_of_eq_some ((hother (hne hk)).trans hk)
  · dsimp only
    rw [htried, h.tried]
    constructor
    · rintro (⟨info', hk, ht, hb⟩ | ⟨rfl, ht, hb⟩)
      · exact ⟨info', (hother (hne hk)).trans hk, ht, hb⟩
      · exact ⟨info, hself, ht, hb⟩
    · rintro ⟨info', hk, ht, hb⟩
      rcases hcases hk with ⟨rfl, rfl⟩ | ⟨-, hk⟩
      · exact .inr ⟨rfl, ht, hb⟩
      · exact .inl ⟨info', hk, ht, hb⟩
  · have hnum := hnumber id
    rw [Store.erase_of_none hunknown] at hnum
    show nTried = (((m.mapInfo.insert m.nIdCount info).entries.countP fun e => id e.2.fInTried : Nat) : Int)
    rw [hnum, hnTried, h.nTried]
    cases info.fInTried <;> rfl
  · have hnum := hnumber not
    rw [Store.erase_of_none hunknown] at hnum
    show nNew = (((m.mapInfo.insert m.nIdCount info).entries.countP fun e => !e.2.fInTried : Nat) : Int)
    rw [hnum, hnNew, h.nNew]
    cases info.fInTried <;> rfl

/-- A new entry without buckets. -/
theorem Consistent.create (h : Consistent cr m held) {addr : CAddress} (source : CNetAddr) (held' : Int → Option Nat)
    (hunused : m.mapAddr.find? addr.toCNetAddr = none) (hfits : addr.Fits) (hthen : held' m.nIdCount = some 0)
    (hrest : ∀ k, k ≠ m.nIdCount → held' k = held k) :
    Consistent cr { m.create addr source with nNew := m.nNew + 1 } held' := by
  have hzero : IntFits 8 0 := by constructor <;> decide
  refine h.add (.ofAddress addr source m.vRandom.length) held' _ _ _ hunused rfl
    ⟨rfl, fun hheld => ?_, le_rfl, le_rfl, ⟨hfits.port, hfits.nServices, hfits.nTime⟩, hzero⟩ ?_ hrest (fun b k => ?_)
    h.once (Int.add_zero _).symm rfl
  · rw [hthen] at hheld
    cases hheld
  · rw [hthen]
    rfl
  · exact ⟨.inl, fun hmem => hmem.elim id fun ⟨_, hfalse, _⟩ => Bool.noConfusion hfalse⟩

/-! ## Tried entries -/

/-- The numbers of entries, when one of them comes to the tried ones. -/
theorem countP_tried {f : CAddrInfo → CAddrInfo} (hfind : m.mapInfo.find? nId = some info) (b : Bool)
    (hold : info.fInTried = b) (hnew : (f info).fInTried = !b) (p : Bool → Bool) :
    ((m.mapInfo.modify nId f).entries.countP fun e => p e.2.fInTried) + (if p b then 1 else 0) =
      (m.mapInfo.entries.countP fun e => p e.2.fInTried) + if p (!b) then 1 else 0 := by
  have hcount := Store.countP_modify (fun e : Int × CAddrInfo => p e.2.fInTried) f hfind
  dsimp only at hcount
  rwa [hold, hnew] at hcount

/-- **An entry that moves between the new and the tried ones**: the tried buckets change as it does. -/
theorem Consistent.move (h : Consistent cr m held) (f : CAddrInfo → CAddrInfo) (held' : Int → Option Nat)
    (vvTried : Fin triedBucketCount → List Int) (nTried nNew : Int) (hfind : m.mapInfo.find? nId = some info)
    (hservice : (f info).toCService = info.toCService)
    (hpos : (f info).nRandomPos = info.nRandomPos) (hmove : (f info).fInTried = !info.fInTried)
    (hok : EntryOk (held' nId) (f info)) (hcount : (f info).nRefCount = m.newCount nId + (held' nId).getD 0)
    (hrest : ∀ k, k ≠ nId → held' k = held k)
    (htried : ∀ b k, k ∈ vvTried b ↔
      k ≠ nId ∧ k ∈ m.vvTried b ∨ k = nId ∧ (f info).fInTried = true ∧ info.getTriedBucket cr m.nKey = b)
    (honce : ∀ b, (vvTried b).Nodup)
    (hnTried : nTried = m.nTried + if (f info).fInTried then 1 else -1)
    (hnNew : nNew = m.nNew + if (f info).fInTried then -1 else 1) :
    Consistent cr { m.modify nId f with vvTried := vvTried, nTried := nTried, nNew := nNew } held' := by
  have hself : (m.modify nId f).mapInfo.find? nId =
    some (f info) := by rw [find?_modify, if_pos rfl, hfind, Option.map_some]
  have hother : ∀ {k}, k ≠ nId → (m.modify nId f).mapInfo.find? k = m.mapInfo.find? k := fun hk => by
    rw [find?_modify, if_neg hk]
  have hcases : ∀ {k info'}, (m.modify nId f).mapInfo.find? k = some info' →
      k ≠ nId ∧ m.mapInfo.find? k = some info' ∨ k = nId ∧ info' = f info := by
    intro k info' hk
    by_cases heq : k = nId
    · rw [heq, hself] at hk
      exact .inr ⟨heq, (Option.some.inj hk).symm⟩
    · rw [hother heq] at hk
      exact .inl ⟨heq, hk⟩
  have hisSome : ∀ k, (m.mapInfo.find? k).isSome = true → ((m.modify nId f).mapInfo.find? k).isSome = true := by
    intro k hk
    by_cases heq : k = nId
    · rw [heq, hself]
      rfl
    · rwa [hother heq]
  refine ⟨fun k info' hk => ?_, fun k info' hk => ?_, fun addr k => ?_, h.random.congr fun k => ?_,
    fun k info' hk => ?_,
    fun b k hmem => hisSome k (h.known b k hmem), fun b k => ?_, honce, ?_, ?_⟩
  · rcases hcases hk with ⟨-, hk⟩ | ⟨rfl, -⟩
    · exact h.fresh k info' hk
    · exact h.fresh _ info hfind
  · rcases hcases hk with ⟨hne, hk⟩ | ⟨rfl, rfl⟩
    · rw [hrest k hne]
      exact h.entryOk k info' hk
    · exact hok
  · rw [show (m.modify nId f).mapAddr = m.mapAddr from rfl, h.inverse]
    constructor
    · rintro ⟨info', hk, rfl⟩
      by_cases heq : k = nId
      · rw [heq, hfind] at hk
        cases hk
        exact ⟨f info, heq ▸ hself, congrArg CService.toCNetAddr hservice⟩
      · exact ⟨info', (hother heq).trans hk, rfl⟩
    · rintro ⟨info', hk, rfl⟩
      rcases hcases hk with ⟨-, hk⟩ | ⟨rfl, rfl⟩
      · exact ⟨info', hk, rfl⟩
      · exact ⟨info, hfind, (congrArg CService.toCNetAddr hservice).symm⟩
  · show ((m.modify nId f).mapInfo.find? k).bind _ = _
    by_cases heq : k = nId
    · rw [heq, hself, hfind, Option.bind_some, Option.bind_some, hpos]
    · rw [hother heq]
  · rcases hcases hk with ⟨hne, hk⟩ | ⟨rfl, rfl⟩
    · rw [hrest k hne]
      exact h.counts k info' hk
    · exact hcount
  · dsimp only
    rw [htried, h.tried]
    constructor
    · rintro (⟨hne, info', hk, ht, hb⟩ | ⟨rfl, ht, hb⟩)
      · exact ⟨info', (hother hne).trans hk, ht, hb⟩
      · exact ⟨f info, hself, ht, (getTriedBucket_congr hservice _).trans hb⟩
    · rintro ⟨info', hk, ht, hb⟩
      rcases hcases hk with ⟨hne, hk⟩ | ⟨rfl, rfl⟩
      · exact .inl ⟨hne, info', hk, ht, hb⟩
      · exact .inr ⟨rfl, ht, (getTriedBucket_congr hservice _).symm.trans hb⟩
  · have hnum := countP_tried hfind info.fInTried rfl hmove id
    rw [hnTried, hmove, h.nTried]
    show _ = (((m.mapInfo.modify nId f).entries.countP fun e => id e.2.fInTried : Nat) : Int)
    cases ht : info.fInTried <;> rw [ht] at hnum <;> simp at hnum ⊢ <;> omega
  · have hnum := countP_tried hfind info.fInTried rfl hmove not
    rw [hnNew, hmove, h.nNew]
    show _ = (((m.mapInfo.modify nId f).entries.countP fun e => !e.2.fInTried : Nat) : Int)
    cases ht : info.fInTried <;> rw [ht] at hnum <;> simp at hnum ⊢ <;> omega

/-- The order of the entries in a tried bucket does not matter. -/
theorem Consistent.permute (h : Consistent cr m held) (vvTried : Fin triedBucketCount → List Int)
    (hperm : ∀ b, (vvTried b).Perm (m.vvTried b)) : Consistent cr { m with vvTried := vvTried } held :=
  ⟨h.fresh, h.entryOk, h.inverse, h.random, h.counts, h.known, fun b k => (hperm b).mem_iff.trans (h.tried b k),
    fun b => (hperm b).nodup_iff.mpr (h.once b), h.nTried, h.nNew⟩

/-! ## Removal from a bucket -/

/-- The new buckets do not matter to `SwapRandom`. -/
theorem swapRandom_rebucket (m : CAddrMan) (vvNew : Fin newBucketCount → OrderedSet Int) (nRndPos1 nRndPos2 : Nat) :
    ({ m with vvNew := vvNew } : CAddrMan).swapRandom nRndPos1 nRndPos2 =
      (m.swapRandom nRndPos1 nRndPos2).map fun m => { m with vvNew := vvNew } := by
  unfold swapRandom
  dsimp only
  split
  · rfl
  · cases m.vRandom[nRndPos1]? with
    | none => rfl
    | some nId1 =>
      cases m.vRandom[nRndPos2]? with
      | none => rfl
      | some nId2 =>
        dsimp only
        unfold entry
        dsimp only
        cases m.mapInfo.find? nId1 with
        | none => rfl
        | some info1 => cases m.mapInfo.find? nId2 <;> rfl

/-- An entry of a bucket is known, and it is a new one. -/
theorem Consistent.of_contains (h : Consistent cr m held) {nUBucket : Fin newBucketCount}
    (hmem : (m.vvNew nUBucket).contains nId = true) (hnow : held nId = none) : ∃ info, m.mapInfo.find? nId = some info ∧
      info.fInTried = false ∧ info.nRefCount = m.newCount nId ∧ 1 ≤ info.nRefCount ∧
      info.nRefCount ≤ newBucketsPerAddress := by
  obtain ⟨info, hinfo⟩ := Option.isSome_iff_exists.mp (h.known nUBucket nId hmem)
  have hcount := h.counts nId info hinfo
  rw [hnow, Option.getD_none, Int.natCast_zero, Int.add_zero] at hcount
  have hpos : m.newCount nId ≠ 0 := fun hzero => by
    rw [newCount_eq_zero_iff.mp hzero nUBucket] at hmem
    cases hmem
  have hkind := (h.entryOk nId info hinfo).kind hnow
  unfold EntryKind at hkind
  refine ⟨info, hinfo, ?_⟩
  split at hkind
  · omega
  · rename_i hnew
    exact ⟨Bool.not_eq_true _ ▸ hnew, hcount, hkind⟩

/-- **An entry is removed from a bucket.** -/
theorem removeNew_ok (h : Consistent cr m held) {nUBucket : Fin newBucketCount}
    (hmem : (m.vvNew nUBucket).contains nId = true) (hnow : held nId = none) : ∃ m', m.removeNew nUBucket nId = .ok m' ∧
      Consistent cr m' held ∧ m'.vvNew = (m.eraseNew nUBucket nId).vvNew ∧ m'.vvTried = m.vvTried ∧
      ∀ k, k ≠ nId → (m.mapInfo.find? k).isSome = true → (m'.mapInfo.find? k).isSome = true := by
  obtain ⟨info, hinfo, hnew, hcount, hlow, hhigh⟩ := h.of_contains hmem hnow
  have herased := h.eraseNew (Function.update held nId (some 1)) hmem
    (by rw [Function.update_self, hnow]; rfl) fun k hk => Function.update_of_ne hk ..
  have hmod := herased.modify nId (fun info => { info with nRefCount := info.nRefCount - 1 })
    (Function.update held nId (some 0)) (fun _ _ => ⟨rfl, rfl⟩) (fun _ => rfl)
    (fun info _ hok => ⟨hok.placed, fun hheld => by simp at hheld, hok.lastTry, hok.lastSuccess, hok.fits⟩)
    (fun info _ hcount => by
      simp only [Function.update_self, Option.getD_some] at hcount ⊢
      omega)
    (fun k hk => by rw [Function.update_of_ne hk, Function.update_of_ne hk])
  have hself : ((m.eraseNew nUBucket nId).modify nId fun info => { info with
      nRefCount := info.nRefCount - 1 }).mapInfo.find? nId =
      some { info with nRefCount := info.nRefCount - 1 } := by
    rw [find?_modify, if_pos rfl, show (m.eraseNew nUBucket nId).mapInfo.find? nId = some info from hinfo]
    rfl
  unfold removeNew
  rw [entry_of_find hinfo, ok_bind]
  dsimp only
  by_cases hzero : info.nRefCount - 1 = 0
  · -- no other bucket holds the entry
    rw [if_pos hzero]
    obtain ⟨nRandomPos, hpos⟩ := Option.isSome_iff_exists.mp (h.entryOk nId info hinfo).placed
    have hplace : m.vRandom[nRandomPos]? = some nId :=
      (h.random nId nRandomPos).mpr (by dsimp only; rw [hinfo]; exact hpos)
    have hlt := (List.getElem?_eq_some_iff.mp hplace).1
    obtain ⟨mapInfo, vRandom, hswap, hswapped, hshape, hlen, hlast⟩ :=
      swapRandom_ok hmod nRandomPos (m.vRandom.length - 1) hlt (by show _ < m.vRandom.length; omega)
    have hswap' : (m.modify nId fun info => { info with nRefCount := info.nRefCount - 1 }).swapRandom nRandomPos
        (m.vRandom.length - 1) = .ok { m with mapInfo := mapInfo, vRandom := vRandom } := by
      have hback := swapRandom_rebucket ((m.eraseNew nUBucket nId).modify nId fun info =>
        { info with nRefCount := info.nRefCount - 1 }) m.vvNew nRandomPos (m.vRandom.length - 1)
      rw [hswap] at hback
      exact hback
    obtain ⟨info', hinfo', hs⟩ := hshape.of_old nId _ hself
    have hgone := hswapped.delete held hinfo' (by
        have hcount' := hmod.counts nId _ hself
        simp only [Function.update_self, Option.getD_some] at hcount'
        show (m.eraseNew nUBucket nId).newCount nId = 0
        have : ((m.eraseNew nUBucket nId).modify nId fun info => { info with
            nRefCount := info.nRefCount - 1 }).newCount nId =
          (m.eraseNew nUBucket nId).newCount nId := rfl
        omega) (hs.fInTried.trans hnew) (by
        show vRandom[vRandom.length - 1]? = some nId
        rw [hlen]
        exact hlast.trans hplace) fun k hk => (Function.update_of_ne hk ..).symm
    rw [hpos]
    dsimp only
    rw [vRandom_modify, hswap', ok_bind, pure_eq_ok, ok_bind]
    refine ⟨_, rfl, ?_, rfl, rfl, fun k hk hsome => ?_⟩
    · rw [show info.toCNetAddr = info'.toCNetAddr from (congrArg CService.toCNetAddr hs.service).symm]
      exact hgone
    · show ((mapInfo.erase nId).find? k).isSome = true
      rw [Store.find?_erase, if_neg hk, hshape.isSome_iff, find?_modify, if_neg hk]
      exact hsome
  · rw [if_neg hzero, pure_eq_ok, ok_bind]
    refine ⟨_, rfl, hmod.settle (fun info' hinfo' => ?_) (Function.update_self ..) hnow
      (fun k hk => (Function.update_of_ne hk ..).symm), rfl, rfl, fun k hk hsome => ?_⟩
    · rw [hself] at hinfo'
      cases hinfo'
      unfold EntryKind
      rw [if_neg (by rw [hnew]; exact Bool.false_ne_true)]
      dsimp only
      omega
    · show ((m.modify nId _).mapInfo.find? k).isSome = true
      rwa [find?_modify, if_neg hk]

/-- The entries of a list of known ids can be looked at. -/
theorem firstTerrible_ok (nNow : Int) : ∀ {vNew : List Int}, (∀ k ∈ vNew, (m.mapInfo.find? k).isSome = true) →
    ∃ r, m.firstTerrible nNow vNew = .ok r ∧ ∀ k ∈ r, k ∈ vNew
  | [], _ => ⟨none, rfl, fun _ hk => (by cases hk)⟩
  | k :: vNew, hknown => by
    obtain ⟨hk, hrest⟩ := List.forall_mem_cons.mp hknown
    obtain ⟨info, hinfo⟩ := Option.isSome_iff_exists.mp hk
    unfold firstTerrible
    rw [entry_of_find hinfo, ok_bind]
    split
    · refine ⟨some k, rfl, fun x hx => ?_⟩
      cases hx
      exact List.mem_cons_self
    · obtain ⟨r, hr, hmem⟩ := firstTerrible_ok nNow hrest
      exact ⟨r, hr, fun x hx => List.mem_cons_of_mem _ (hmem x hx)⟩

/-- A turn of the loop that looks for the oldest entry. -/
def olderOf (m : CAddrMan) (n : List Nat) (nOldest : Option Int) (e : Int × Nat) : Check (Option Int) :=
  if e.2 ∈ n then
    match nOldest with
    | none => .ok (some e.1)
    | some nOld => do
      let info ← m.entry e.1
      let infoOld ← m.entry nOld
      return some (if info.nTime < infoOld.nTime then e.1 else nOld)
  else .ok nOldest

theorem oldestOf_eq (n : List Nat) (vNew : List Int) : m.oldestOf n vNew = vNew.zipIdx.foldlM (m.olderOf n) none := rfl

/-- One of the entries at the places is the oldest. -/
theorem oldestOf_ok {n : List Nat} {vNew : List Int} (hknown : ∀ k ∈ vNew, (m.mapInfo.find? k).isSome = true)
    (hplace : ∃ i ∈ n, i < vNew.length) : ∃ nOldest ∈ vNew, m.oldestOf n vNew = .ok (some nOldest) := by
  have hloop : ∀ {l : List (Int × Nat)} {nOldest : Option Int}, (∀ e ∈ l, e.1 ∈ vNew) → (∀ k ∈ nOldest, k ∈ vNew) →
      (nOldest.isSome = true ∨ ∃ e ∈ l, e.2 ∈ n) → ∃ k ∈ vNew, l.foldlM (m.olderOf n) nOldest = Except.ok (some k) := by
    intro l
    induction l with
    | nil =>
      intro nOldest _ hold hsome
      obtain ⟨k, hk⟩ := Option.isSome_iff_exists.mp (hsome.resolve_right (by rintro ⟨e, he, -⟩; cases he))
      exact ⟨k, hold k hk, by rw [hk]; rfl⟩
    | cons e l ih =>
      intro nOldest hall hold hsome
      obtain ⟨he, hall⟩ := List.forall_mem_cons.mp hall
      rw [List.foldlM_cons]
      unfold olderOf
      by_cases hin : e.2 ∈ n
      · rw [if_pos hin]
        cases nOldest with
        | none => exact ih hall (fun k hk => by cases hk; exact he) (.inl rfl)
        | some nOld =>
          obtain ⟨info, hinfo⟩ := Option.isSome_iff_exists.mp (hknown _ he)
          obtain ⟨infoOld, hinfoOld⟩ := Option.isSome_iff_exists.mp (hknown _ (hold nOld rfl))
          dsimp only
          rw [entry_of_find hinfo, ok_bind, entry_of_find hinfoOld, ok_bind]
          refine ih hall (fun k hk => ?_) (.inl rfl)
          cases hk
          split
          · exact he
          · exact hold nOld rfl
      · rw [if_neg hin]
        refine ih hall hold (hsome.imp_right fun ⟨e', he', hin'⟩ => ?_)
        rcases List.mem_cons.mp he' with rfl | he'
        · exact absurd hin' hin
        · exact ⟨e', he', hin'⟩
  rw [oldestOf_eq]
  refine hloop (fun e he => (List.mem_zipIdx' he).2 ▸ List.getElem_mem _) (fun _ hk => by cases hk) (.inr ?_)
  obtain ⟨i, hi, hlt⟩ := hplace
  exact ⟨(vNew[i], i), List.mk_mem_zipIdx_iff_getElem?.mpr (List.getElem?_eq_getElem hlt), hi⟩

/-- **Some entry is removed from a bucket that is full.** -/
theorem shrinkNew_ok (h : Consistent cr m held) (nNow : Int) (rand : Nat → Nat) (nUBucket : Fin newBucketCount)
    (hfull : (m.vvNew nUBucket).size ≠ 0) (hnow : ∀ k, (m.vvNew nUBucket).contains k = true → held k = none) :
    ∃ m' k, m.shrinkNew nNow rand nUBucket = .ok m' ∧ Consistent cr m' held ∧ (m.vvNew nUBucket).contains k = true ∧
      m'.vvNew = (m.eraseNew nUBucket k).vvNew ∧ m'.vvTried = m.vvTried ∧
      ∀ k', k' ≠ k → (m.mapInfo.find? k').isSome = true → (m'.mapInfo.find? k').isSome = true := by
  have hknown : ∀ k ∈ (m.vvNew nUBucket).elems, (m.mapInfo.find? k).isSome = true :=
    fun k hk => h.known nUBucket k (OrderedSet.mem_elems.mp hk)
  have hremove : ∀ k ∈ (m.vvNew nUBucket).elems, ∃ m', m.removeNew nUBucket k = .ok m' ∧ Consistent cr m' held ∧
      (m.vvNew nUBucket).contains k = true ∧ m'.vvNew = (m.eraseNew nUBucket k).vvNew ∧ m'.vvTried = m.vvTried ∧
      ∀ k', k' ≠ k → (m.mapInfo.find? k').isSome = true → (m'.mapInfo.find? k').isSome = true := by
    intro k hk
    have hmem := OrderedSet.mem_elems.mp hk
    obtain ⟨m', hm', hcons, hrest⟩ := removeNew_ok h hmem (hnow k hmem)
    exact ⟨m', hm', hcons, hmem, hrest⟩
  unfold shrinkNew
  dsimp only
  obtain ⟨r, hr, hmem⟩ := firstTerrible_ok nNow hknown
  rw [hr, ok_bind]
  cases r with
  | some k =>
    obtain ⟨m', hm'⟩ := hremove k (hmem k rfl)
    exact ⟨m', k, hm'⟩
  | none =>
    have hlen : 0 < (m.vvNew nUBucket).elems.length := by
      rw [OrderedSet.length_elems]
      exact Nat.pos_of_ne_zero hfull
    obtain ⟨k, hk, hold⟩ :=
      oldestOf_ok (n := (List.range 4).map fun i => getRandInt (m.vvNew nUBucket).elems.length (rand i))
      hknown ⟨_, List.mem_map_of_mem (List.mem_range.mpr (by decide : 0 < 4)), getRandInt_lt hlen _⟩
    dsimp only
    rw [hold, ok_bind]
    obtain ⟨m', hm'⟩ := hremove k hk
    exact ⟨m', k, hm'⟩

/-! ## The tried entries -/

/-- **An entry of a tried bucket is selected**; the bucket is shuffled. -/
theorem selectTried_ok (rand : Nat → Nat) (nKBucket : Fin triedBucketCount)
    (hknown : ∀ k ∈ m.vvTried nKBucket, (m.mapInfo.find? k).isSome = true) (hne : 0 < (m.vvTried nKBucket).length) :
    ∃ vTried nPos, m.selectTried rand nKBucket = .ok (vTried, some nPos) ∧ vTried.Perm (m.vvTried nKBucket) ∧
      nPos < vTried.length := by
  have hloop : ∀ {places : List Nat} {s : List Int × Option (Int × Nat)}, (∀ i ∈ places, i < s.1.length) →
      s.1.Perm (m.vvTried nKBucket) → (∀ e ∈ s.2, e.1 ∈ s.1 ∧ e.2 < s.1.length) → (s.2.isSome = true ∨ places ≠ []) →
      ∃ vTried e, places.foldlM (m.inspectTried rand) s = .ok (vTried, some e) ∧ vTried.Perm (m.vvTried nKBucket) ∧
        e.2 < vTried.length := by
    intro places
    induction places with
    | nil =>
      intro s _ hperm hold hsome
      obtain ⟨e, he⟩ := Option.isSome_iff_exists.mp (hsome.resolve_right fun h => h rfl)
      exact ⟨s.1, e, by rw [← he]; rfl, hperm, (hold e he).2⟩
    | cons i places ih =>
      rintro ⟨vTried, oldest⟩ hplaces hperm hold -
      obtain ⟨hi, hrest⟩ := List.forall_mem_cons.mp hplaces
      dsimp only at hi hrest hperm hold
      have hnPos : getRandInt (vTried.length - i) (rand i) + i < vTried.length := by
        have := @getRandInt_lt (vTried.length - i) (by omega) (rand i)
        omega
      rw [List.foldlM_cons]
      unfold inspectTried
      dsimp only
      generalize getRandInt (vTried.length - i) (rand i) + i = nPos at hnPos
      rw [List.getElem?_eq_getElem hnPos, List.getElem?_eq_getElem hi]
      dsimp only
      have hshuffled := (List.set_set_perm hnPos hi).trans hperm
      have hlen : ((vTried.set nPos vTried[i]).set i vTried[nPos]).length = vTried.length := by
        rw [List.length_set, List.length_set]
      have hsame : ∀ k, k ∈ (vTried.set nPos vTried[i]).set i vTried[nPos] ↔ k ∈ vTried :=
        fun k => hshuffled.mem_iff.trans hperm.mem_iff.symm
      have hmem : vTried[nPos] ∈ vTried := List.getElem_mem hnPos
      cases oldest with
      | none =>
        refine ih (fun j hj => ?_) hshuffled (fun e he => ?_) (.inl rfl)
        · dsimp only
          rw [hlen]
          exact hrest j hj
        · cases he
          exact ⟨(hsame _).mpr hmem, hlen.symm ▸ hnPos⟩
      | some e =>
        obtain ⟨nOldest, nOldestPos⟩ := e
        obtain ⟨hold, holdPos⟩ := hold _ rfl
        obtain ⟨info, hinfo⟩ := Option.isSome_iff_exists.mp (hknown _ (hperm.mem_iff.mp hmem))
        obtain ⟨infoOldest, hinfoOldest⟩ := Option.isSome_iff_exists.mp (hknown _ (hperm.mem_iff.mp hold))
        dsimp only
        rw [entry_of_find hinfo, ok_bind, entry_of_find hinfoOldest, ok_bind]
        refine ih (fun j hj => ?_) hshuffled (fun e he => ?_) (.inl rfl)
        · dsimp only
          rw [hlen]
          exact hrest j hj
        · cases he
          dsimp only
          rw [hlen]
          split
          · exact ⟨(hsame _).mpr hmem, hnPos⟩
          · exact ⟨(hsame _).mpr hold, holdPos⟩
  obtain ⟨vTried, e, hrun, hperm, hlt⟩ :=
    @hloop (List.range (min triedEntriesInspectOnEvict (m.vvTried nKBucket).length))
    (m.vvTried nKBucket, none) (fun i hi => lt_of_lt_of_le (List.mem_range.mp hi) (Nat.min_le_right ..)) (.refl _)
    (fun e he => by cases he) (.inr (by
      rw [Ne, List.range_eq_nil]
      have : 0 < triedEntriesInspectOnEvict := by decide
      omega))
  refine ⟨vTried, e.2, ?_, hperm, hlt⟩
  unfold selectTried
  dsimp only
  rw [hrun]
  rfl

/-- An entry that is replaced in a tried bucket. -/
theorem set_perm {vTried : List Int} {nPos : Nat} (hlt : nPos < vTried.length) (nId : Int) :
    (vTried.set nPos nId).Perm (vTried.erase vTried[nPos] ++ [nId]) := by
  have hset : (vTried.set nPos nId).Perm (nId :: vTried.eraseIdx nPos) := List.set_perm_cons_eraseIdx hlt nId
  have herase : (vTried.eraseIdx nPos).Perm (vTried.erase vTried[nPos]) := by
    refine (List.perm_cons vTried[nPos]).mp ?_
    exact (List.getElem_cons_eraseIdx_perm hlt).trans (List.perm_cons_erase (List.getElem_mem hlt))
  exact hset.trans ((herase.cons nId).trans (List.perm_append_singleton nId _).symm)

/-- An entry without buckets becomes a tried one. -/
theorem Consistent.appendTried (h : Consistent cr m held) (hfind : m.mapInfo.find? nId = some info)
    (hnew : info.fInTried = false) (hzero : info.nRefCount = 0) (hsuccess : 0 < info.nLastSuccess)
    (hnow : held nId = some 0) (hthen : held' nId = none) (hrest : ∀ k, k ≠ nId → held' k = held k) :
    Consistent cr { m.appendTried (info.getTriedBucket cr m.nKey) nId with nNew := m.nNew - 1 } held' := by
  have hcount := h.counts nId info hfind
  have hok := h.entryOk nId info hfind
  have hout : ∀ b, nId ∉ m.vvTried b := fun b hmem => by
    obtain ⟨info', hinfo', htried, -⟩ := (h.tried b nId).mp hmem
    rw [hfind] at hinfo'
    cases hinfo'
    rw [hnew] at htried
    cases htried
  refine h.move (fun info => { info with fInTried := true }) held' _ _ _ hfind rfl rfl (by rw [hnew]; rfl)
    ⟨hok.placed, fun _ => ?_, hok.lastTry, hok.lastSuccess, hok.fits⟩ ?_ hrest (fun b k => ?_) (fun b => ?_) rfl
    (Int.sub_eq_add_neg ..)
  · unfold EntryKind
    rw [if_pos rfl]
    exact ⟨hzero, hsuccess⟩
  · rw [hthen]
    rw [hnow] at hcount
    exact hcount
  · show k ∈ Function.update m.vvTried _ (m.vvTried (info.getTriedBucket cr m.nKey) ++ [nId]) b ↔ _
    rw [Function.update_apply]
    have hne : k ∈ m.vvTried b → k ≠ nId := fun hmem heq => hout b (heq ▸ hmem)
    split
    · rename_i hb
      rw [List.mem_append, List.mem_singleton, ← hb]
      exact or_congr ⟨fun hmem => ⟨hne hmem, hmem⟩, And.right⟩ ⟨fun hk => ⟨hk, rfl, rfl⟩, And.left⟩
    · rename_i hb
      exact ⟨fun hmem => .inl ⟨hne hmem, hmem⟩, fun hmem => hmem.elim And.right fun ⟨_, _, heq⟩ => absurd heq.symm hb⟩
  · show (Function.update m.vvTried _ (m.vvTried (info.getTriedBucket cr m.nKey) ++ [nId]) b).Nodup
    rw [Function.update_apply]
    split
    · exact List.nodup_append.mpr ⟨h.once _, List.nodup_singleton _, fun a ha c hc heq =>
        hout _ (List.mem_singleton.mp hc ▸ heq ▸ ha)⟩
    · exact h.once b

/-- A tried entry is put back into a new bucket. -/
theorem Consistent.moveBack (h : Consistent cr m held) (hfind : m.mapInfo.find? nId = some info)
    (htried : info.fInTried = true)
    (hnow : held nId = none) (nUBucket : Fin newBucketCount) :
    Consistent cr (({ m.modify nId (fun info => { info with fInTried := false, nRefCount := 1 }) with
      vvTried := fun nKBucket => (m.vvTried nKBucket).erase nId
      nTried := m.nTried - 1
      nNew := m.nNew + 1 } : CAddrMan).insertNew nUBucket nId) held := by
  have hok := h.entryOk nId info hfind
  have hkind := hok.kind hnow
  unfold EntryKind at hkind
  rw [if_pos htried] at hkind
  have hcount := h.counts nId info hfind
  rw [hnow, Option.getD_none] at hcount
  have hout : m.newCount nId = 0 := by omega
  have hmoved := h.move (fun info => { info with fInTried := false, nRefCount := 1 })
    (Function.update held nId (some 1)) (fun nKBucket => (m.vvTried nKBucket).erase nId) (m.nTried - 1) (m.nNew + 1)
    hfind rfl rfl (by rw [htried]; rfl)
    ⟨hok.placed, fun hheld => by simp at hheld, hok.lastTry, hok.lastSuccess, hok.fits⟩
    (by rw [hout, Function.update_self]; rfl) (fun k hk => Function.update_of_ne hk ..)
    (fun b k => by
      rw [(h.once b).mem_erase_iff]
      exact ⟨.inl, fun hmem => hmem.elim id fun ⟨_, hfalse, _⟩ => Bool.noConfusion hfalse⟩)
    (fun b => (h.once b).erase _) (Int.sub_eq_add_neg ..) rfl
  have hself : (m.modify nId fun info => { info with fInTried := false, nRefCount := 1 }).mapInfo.find? nId =
      some { info with fInTried := false, nRefCount := 1 } := by rw [find?_modify, if_pos rfl, hfind, Option.map_some]
  have hput := hmoved.insertNew (n := 0) nUBucket (Function.update held nId (some 0))
    (Option.isSome_of_eq_some hself) (newCount_eq_zero_iff.mp hout nUBucket) (Function.update_self ..)
    (Function.update_self ..) fun k hk => by rw [Function.update_of_ne hk, Function.update_of_ne hk]
  refine hput.settle (fun info' hinfo' => ?_) (Function.update_self ..) hnow
    fun k hk => (Function.update_of_ne hk ..).symm
  cases hself.symm.trans hinfo'
  unfold EntryKind
  rw [if_neg Bool.false_ne_true]
  exact ⟨le_rfl, (by decide : (1 : Int) ≤ newBucketsPerAddress)⟩

/-- **An entry without buckets takes the place of a tried one**, which moves back to a new bucket. -/
theorem Consistent.replaceTried (h : Consistent cr m held) (hfind : m.mapInfo.find? nId = some info)
    (hnew : info.fInTried = false) (hzero : info.nRefCount = 0) (hsuccess : 0 < info.nLastSuccess)
    (hnow : held nId = some 0) (hthen : held' nId = none) (hrest : ∀ k, k ≠ nId → held' k = held k)
    {vTried : List Int} (hperm : vTried.Perm (m.vvTried (info.getTriedBucket cr m.nKey))) {nPos : Nat}
    (hlt : nPos < vTried.length) (hothers : held vTried[nPos] = none) (nUBucket : Fin newBucketCount) :
    Consistent cr { m.replaceTried (info.getTriedBucket cr m.nKey) vTried nPos vTried[nPos] nId nUBucket with
      nNew := m.nNew } held' := by
  have hin := hperm.mem_iff.mp (List.getElem_mem hlt)
  obtain ⟨infoOld, hinfoOld, htried, hbucket⟩ := (h.tried _ _).mp hin
  have hne : nId ≠ vTried[nPos] := fun heq => by
    rw [← heq, hfind] at hinfoOld
    cases hinfoOld
    rw [hnew] at htried
    cases htried
  have hback := h.moveBack hinfoOld htried hothers nUBucket
  have hself : (m.modify vTried[nPos] fun info => { info with fInTried := false, nRefCount := 1 }).mapInfo.find? nId =
      some info := by rw [find?_modify, if_neg hne, hfind]
  have hput := (hback.appendTried hself hnew hzero hsuccess hnow hthen hrest).permute
    (Function.update m.vvTried (info.getTriedBucket cr m.nKey) (vTried.set nPos nId)) fun b => by
      show (Function.update m.vvTried (info.getTriedBucket cr m.nKey) (vTried.set nPos nId) b).Perm
        (Function.update (fun b => (m.vvTried b).erase vTried[nPos]) (info.getTriedBucket cr m.nKey)
          ((m.vvTried (info.getTriedBucket cr m.nKey)).erase vTried[nPos] ++ [nId]) b)
      rw [Function.update_apply, Function.update_apply]
      split
      · exact (set_perm hlt nId).trans ((hperm.erase _).append_right _)
      · rename_i hb
        rw [List.erase_of_not_mem]
        intro hmem
        obtain ⟨info', hinfo', -, hb'⟩ := (h.tried _ _).mp hmem
        cases hinfoOld.symm.trans hinfo'
        exact hb (hb'.symm.trans hbucket)
  have hnTried : m.nTried - 1 + 1 = m.nTried := by omega
  have hnNew : m.nNew + 1 - 1 = m.nNew := by omega
  simpa only [CAddrMan.appendTried, CAddrMan.insertNew, CAddrMan.modify, CAddrMan.replaceTried, hnTried, hnNew]
    using hput

end Entries

end CAddrMan

end Morcochain
