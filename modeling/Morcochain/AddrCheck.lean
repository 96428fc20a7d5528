import Morcochain.AddrTables

/-!
# The check of the address manager

`Check_` of `CAddrMan` goes over the tables and counts down what it has collected. When the tables are consistent it
finds nothing wrong, so that none of its conditions can fail in a debug build.

* `collect_ok` : what is collected from the entries.
* `countTried_ok`, `countNew_ok` : the buckets use up what was collected.
* `check_ok` : **consistent tables pass the check**.
-/

set_option autoImplicit false

namespace Morcochain

open OrderedStore Guard Positions

namespace CAddrMan

variable {cr : Crypto} {m : CAddrMan}

/-! ## Entries -/

/-- The entries are listed once each. -/
theorem nodup_ids (mapInfo : Store Int CAddrInfo) : (mapInfo.entries.map (·.1)).Nodup := by
  refine List.Pairwise.imp (R := (· < ·)) (fun h heq => ?_) (mapInfo.sorted.map _ fun _ _ h => h)
  rw [heq] at h
  exact Int.lt_irrefl _ h

/-- **The number of the ids** is that of the tried entries and of the new ones. -/
theorem length_vRandom (h : Consistent cr m settled) : (m.vRandom.length : Int) = m.nTried + m.nNew := by
  have hperm : m.vRandom.Perm (m.mapInfo.entries.map (·.1)) := by
    refine (List.perm_ext_iff_of_nodup h.random.nodup (nodup_ids _)).mpr fun nId => ?_
    rw [h.mem_vRandom, Option.isSome_iff_exists, List.mem_map]
    constructor
    · rintro ⟨info, hinfo⟩
      exact ⟨(nId, info), Store.find?_eq_some.mp hinfo, rfl⟩
    · rintro ⟨⟨nId', info⟩, hmem, rfl⟩
      exact ⟨info, Store.find?_eq_some.mpr hmem⟩
  have hcount := List.length_eq_countP_add_countP (l := m.mapInfo.entries) (·.2.fInTried)
  rw [h.nTried, h.nNew, hperm.length_eq, List.length_map, hcount]
  push_cast
  congr 3
  funext e
  cases e.2.fInTried <;> rfl

/-- What is collected from the entries that were looked at. -/
structure Collects (done : List (Int × CAddrInfo)) (c : Collected) : Prop where
  tried : ∀ nId, c.setTried.contains nId = true ↔ ∃ info, (nId, info) ∈ done ∧ info.fInTried = true
  new : ∀ nId nRefCount, c.mapNew.find? nId = some nRefCount ↔
    ∃ info, (nId, info) ∈ done ∧ info.fInTried = false ∧ info.nRefCount = nRefCount
  nTried : c.setTried.size = done.countP (·.2.fInTried)
  nNew : c.mapNew.entries.length = done.countP (!·.2.fInTried)

/-- A tried entry is put into the set. -/
theorem Collects.tried_step {done : List (Int × CAddrInfo)} {c : Collected} (h : Collects done c) {nId : Int}
    {info : CAddrInfo} (hfresh : nId ∉ done.map (·.1)) (htried : info.fInTried = true) :
    Collects (done ++ [(nId, info)]) { c with setTried := c.setTried.insert nId () } := by
  have hnot : c.setTried.contains nId = false := by
    refine Bool.eq_false_iff.mpr fun hin => ?_
    obtain ⟨info', hmem, -⟩ := (h.tried nId).mp hin
    exact hfresh (List.mem_map_of_mem hmem)
  refine ⟨fun k => ?_, fun k r => ?_, ?_, ?_⟩
  · rw [OrderedSet.contains_insert, Bool.or_eq_true, decide_eq_true_eq, h.tried]
    constructor
    · rintro (rfl | ⟨info', hmem, ht⟩)
      · exact ⟨info, List.mem_append_right _ List.mem_cons_self, htried⟩
      · exact ⟨info', List.mem_append_left _ hmem, ht⟩
    · rintro ⟨info', hmem, ht⟩
      rcases List.mem_append.mp hmem with hmem | hmem
      · exact .inr ⟨info', hmem, ht⟩
      · exact .inl (congrArg Prod.fst (List.mem_singleton.mp hmem))
  · rw [h.new]
    refine exists_congr fun info' => and_congr_left fun hinfo' => ?_
    rw [List.mem_append, List.mem_singleton]
    refine (or_iff_left fun heq => ?_).symm
    rw [(Prod.mk.inj heq).2, htried] at hinfo'
    exact Bool.noConfusion hinfo'.1
  · rw [OrderedSet.size_insert hnot, h.nTried, List.countP_append, List.countP_singleton, if_pos htried]
  · rw [h.nNew, List.countP_append, List.countP_singleton, if_neg (by rw [htried]; exact Bool.false_ne_true),
      Nat.add_zero]

/-- A new entry is put into the map. -/
theorem Collects.new_step {done : List (Int × CAddrInfo)} {c : Collected} (h : Collects done c) {nId : Int}
    {info : CAddrInfo} (hfresh : nId ∉ done.map (·.1)) (hnew : info.fInTried = false) :
    Collects (done ++ [(nId, info)]) { c with mapNew := c.mapNew.insert nId info.nRefCount } := by
  have hnone : c.mapNew.find? nId = none := by
    refine Option.eq_none_iff_forall_ne_some.mpr fun r hr => ?_
    obtain ⟨info', hmem, -⟩ := (h.new nId r).mp hr
    exact hfresh (List.mem_map_of_mem hmem)
  refine ⟨fun k => ?_, fun k r => ?_, ?_, ?_⟩
  · rw [h.tried]
    refine exists_congr fun info' => and_congr_left fun htried => ?_
    rw [List.mem_append, List.mem_singleton]
    refine (or_iff_left fun heq => ?_).symm
    rw [(Prod.mk.inj heq).2, hnew] at htried
    exact Bool.noConfusion htried
  · rw [Store.find?_insert]
    constructor
    · intro hr
      split at hr
      · rename_i hk
        rw [hk]
        exact ⟨info, List.mem_append_right _ List.mem_cons_self, hnew, Option.some.inj hr⟩
      · obtain ⟨info', hmem, hinfo'⟩ := (h.new k r).mp hr
        exact ⟨info', List.mem_append_left _ hmem, hinfo'⟩
    · rintro ⟨info', hmem, hinfo'⟩
      rcases List.mem_append.mp hmem with hmem | hmem
      · have hne : k ≠ nId := fun hk => hfresh (hk ▸ List.mem_map_of_mem hmem)
        rw [if_neg hne]
        exact (h.new k r).mpr ⟨info', hmem, hinfo'⟩
      · obtain ⟨rfl, rfl⟩ := Prod.mk.inj (List.mem_singleton.mp hmem)
        rw [if_pos rfl, hinfo'.2]
  · rw [h.nTried, List.countP_append, List.countP_singleton, if_neg (by rw [hnew]; exact Bool.false_ne_true),
      Nat.add_zero]
  · rw [Store.length_insert hnone, h.nNew, List.countP_append, List.countP_singleton, if_pos (by rw [hnew]; rfl)]

/-- **Nothing is wrong with an entry.** -/
theorem checkEntry_ok (h : Consistent cr m settled) {done : List (Int × CAddrInfo)} {c : Collected}
    (hc : Collects done c)
    {nId : Int} {info : CAddrInfo} (hfind : m.mapInfo.find? nId = some info) (hfresh : nId ∉ done.map (·.1)) :
    ∃ c', m.checkEntry c (nId, info) = .ok c' ∧ Collects (done ++ [(nId, info)]) c' := by
  have hok := h.entryOk nId info hfind
  have hkind := hok.kind rfl
  obtain ⟨nRandomPos, hpos⟩ := Option.isSome_iff_exists.mp hok.placed
  have hplace : m.vRandom[nRandomPos]? = some nId :=
    (h.random nId nRandomPos).mpr (by dsimp only; rw [hfind]; exact hpos)
  have haddr : m.mapAddr.find? info.toCNetAddr = some nId := (h.inverse _ nId).mpr ⟨info, hfind, rfl⟩
  have hrest : ∀ {c' : Collected}, (do
      rejectIf ((m.mapAddr.find? info.toCNetAddr).getD 0 ≠ nId) (-5)
      rejectIf ((info.nRandomPos.bind fun nRandomPos => m.vRandom[nRandomPos]?) ≠ some nId) (-14)
      rejectIf (info.nLastTry < 0) (-6)
      rejectIf (info.nLastSuccess < 0) (-8)
      return c' : Except Int Collected) = .ok c' := by
    intro c'
    rw [rejectIf_neg (by rw [haddr]; exact fun hne => hne rfl), ok_bind,
      rejectIf_neg (by rw [hpos, Option.bind_some, hplace]; exact fun hne => hne rfl), ok_bind,
      rejectIf_neg (Int.not_lt.mpr hok.lastTry), ok_bind, rejectIf_neg (Int.not_lt.mpr hok.lastSuccess), ok_bind]
    rfl
  unfold EntryKind at hkind
  unfold checkEntry
  dsimp only
  by_cases htried : info.fInTried = true
  · rw [if_pos htried] at hkind ⊢
    refine ⟨_, ?_, hc.tried_step hfresh htried⟩
    rw [rejectIf_neg (by omega), ok_bind, rejectIf_neg (by omega), ok_bind, pure_eq_ok, ok_bind]
    exact hrest
  · rw [if_neg htried] at hkind ⊢
    refine ⟨_, ?_, hc.new_step hfresh (Bool.eq_false_iff.mpr htried)⟩
    rw [rejectIf_neg (by omega), ok_bind, rejectIf_neg (by omega), ok_bind, pure_eq_ok, ok_bind]
    exact hrest

/-- **What is collected from all entries.** -/
theorem collect_ok (h : Consistent cr m settled) :
    ∃ c, m.mapInfo.entries.foldlM m.checkEntry {} = .ok c ∧ Collects m.mapInfo.entries c := by
  refine foldlM_ok_prefix (fun done e rest c hall hc => ?_) ⟨fun nId => ?_, fun nId r => ?_, rfl, rfl⟩
  · have hids := nodup_ids m.mapInfo
    rw [hall, List.map_append, List.map_cons] at hids
    have hmem : e ∈ m.mapInfo.entries := hall ▸ List.mem_append_right _ List.mem_cons_self
    refine checkEntry_ok h hc (Store.find?_eq_some.mpr hmem) fun hmem => ?_
    exact (List.nodup_append.mp hids).2.2 _ hmem _ List.mem_cons_self rfl
  · exact ⟨(by cases ·), fun ⟨_, hmem, _⟩ => (by cases hmem)⟩
  · exact ⟨(by cases ·), fun ⟨_, hmem, _⟩ => (by cases hmem)⟩

/-! ## Buckets -/

/-- **A set is used up** by the list of its elements. -/
theorem countTried_ok {setTried : OrderedSet Int} {l : List Int} (hnodup : l.Nodup)
    (hmem : ∀ nId, setTried.contains nId = true ↔ nId ∈ l) :
    ∃ s, l.foldlM checkTried setTried = .ok s ∧ s.size = 0 := by
  obtain ⟨s, hs, hrest⟩ := foldlM_ok_prefix (f := checkTried) (l := l) (s := setTried)
    (I := fun done s => ∀ nId, s.contains nId = true ↔ nId ∈ l ∧ nId ∉ done) (fun done nId rest s hall hI => by
      have hnot : nId ∉ done := fun hin => by
        rw [hall] at hnodup
        exact (List.nodup_append.mp hnodup).2.2 _ hin _ List.mem_cons_self rfl
      have hin := (hI nId).mpr ⟨hall ▸ List.mem_append_right _ List.mem_cons_self, hnot⟩
      refine ⟨s.erase nId, ?_, fun k => ?_⟩
      · unfold checkTried
        rw [rejectIf_neg (by rw [hin]; exact Bool.noConfusion), ok_bind]
        rfl
      · rw [OrderedSet.contains_erase, Bool.and_eq_true, decide_eq_true_eq, hI, List.mem_append, List.mem_singleton]
        tauto) fun nId => by rw [hmem, and_iff_left List.not_mem_nil]
  refine ⟨s, hs, OrderedSet.size_eq_zero fun nId => Bool.eq_false_iff.mpr fun hin => ?_⟩
  obtain ⟨hl, hnot⟩ := (hrest nId).mp hin
  exact hnot hl

/-- **Numbers are used up** by a list that holds each element that often. -/
theorem countNew_ok {mapNew : Store Int Int} {l : List Int}
    (hcount : ∀ nId, mapNew.find? nId = if l.count nId = 0 then none else some (l.count nId : Int)) :
    ∃ s, l.foldlM checkNew mapNew = .ok s ∧ s.entries.length = 0 := by
  obtain ⟨s, hs, hrest⟩ := foldlM_ok_prefix (f := checkNew) (l := l) (s := mapNew)
    (I := fun done s => ∀ nId, s.find? nId =
      if l.count nId - done.count nId = 0 then none else some ((l.count nId - done.count nId : Nat) : Int))
    (fun done nId rest s hall hI => by
      have hmore : done.count nId < l.count nId := by
        rw [hall, List.count_append, List.count_cons_self]
        omega
      have hfind := hI nId
      rw [if_neg (by omega)] at hfind
      unfold checkNew
      rw [hfind]
      refine ⟨_, rfl, fun k => ?_⟩
      rw [List.count_append, List.count_singleton]
      by_cases hk : k = nId
      · subst hk
        rw [if_pos (beq_self_eq_true _)]
        split
        · rw [Store.find?_erase, if_pos rfl, if_pos (by omega)]
        · rw [Store.find?_insert, if_pos rfl, if_neg (by omega)]
          exact congrArg some (by omega)
      · have hne : ¬ (nId == k) = true := fun heq => hk (eq_of_beq heq).symm
        rw [if_neg hne, Nat.add_zero, ← hI k]
        split
        · rw [Store.find?_erase, if_neg hk]
        · rw [Store.find?_insert, if_neg hk]) fun nId => by rw [List.count_nil, Nat.sub_zero]; exact hcount nId
  refine ⟨s, hs, Store.length_eq_zero fun nId => ?_⟩
  rw [hrest nId, Nat.sub_self, if_pos rfl]

/-- The tried buckets have each tried entry once. -/
theorem nodup_tried (h : Consistent cr m settled) : ((List.finRange triedBucketCount).flatMap m.vvTried).Nodup := by
  refine List.nodup_flatMap.mpr ⟨fun b _ => h.once b, (List.nodup_finRange _).imp fun {a b} hne nId ha hb => hne ?_⟩
  obtain ⟨info, hinfo, -, hbucket⟩ := (h.tried a nId).mp ha
  obtain ⟨info', hinfo', -, hbucket'⟩ := (h.tried b nId).mp hb
  cases hinfo.symm.trans hinfo'
  exact hbucket.symm.trans hbucket'

/-- The new buckets have each new entry as often as it is counted. -/
theorem count_new (m : CAddrMan) (nId : Int) :
    ((List.finRange newBucketCount).flatMap fun nUBucket => (m.vvNew nUBucket).elems).count nId = m.newCount nId := by
  unfold newCount
  rw [List.count_flatMap, Finset.card_filter, Fin.sum_univ_def]
  refine congrArg List.sum (List.map_congr_left fun nUBucket _ => ?_)
  exact OrderedSet.count_elems ..

/-- **Consistent tables pass the check.** -/
theorem check_ok (h : Consistent cr m settled) : m.check = .ok () := by
  obtain ⟨c, hc, hcollects⟩ := collect_ok h
  have hentry : ∀ {nId info}, (nId, info) ∈ m.mapInfo.entries ↔ m.mapInfo.find? nId = some info :=
    Store.find?_eq_some.symm
  obtain ⟨setTried, hsetTried, hemptyTried⟩ := @countTried_ok c.setTried _ (nodup_tried h) fun nId => by
    rw [hcollects.tried, List.mem_flatMap]
    constructor
    · rintro ⟨info, hmem, htried⟩
      exact ⟨_, List.mem_finRange _, (h.tried _ nId).mpr ⟨info, hentry.mp hmem, htried, rfl⟩⟩
    · rintro ⟨b, -, hmem⟩
      obtain ⟨info, hinfo, htried, -⟩ := (h.tried b nId).mp hmem
      exact ⟨info, hentry.mpr hinfo, htried⟩
  obtain ⟨mapNew, hmapNew, hemptyNew⟩ := @countNew_ok c.mapNew
    ((List.finRange newBucketCount).flatMap fun nUBucket => (m.vvNew nUBucket).elems) fun nId => by
    rw [count_new]
    split
    · rename_i hzero
      refine Option.eq_none_iff_forall_ne_some.mpr fun r hr => ?_
      obtain ⟨info, hmem, hnew, rfl⟩ := (hcollects.new nId r).mp hr
      have hkind := (h.entryOk nId info (hentry.mp hmem)).kind rfl
      have hcount : info.nRefCount = 0 := by
        rw [h.counts nId info (hentry.mp hmem), hzero]
        rfl
      unfold EntryKind at hkind
      rw [if_neg (by rw [hnew]; exact Bool.false_ne_true)] at hkind
      omega
    · rename_i hne
      obtain ⟨b, hb⟩ : ∃ b, (m.vvNew b).contains nId = true := by
        by_contra hnone
        exact hne (newCount_eq_zero_iff.mpr fun b => Bool.eq_false_iff.mpr fun hb => hnone ⟨b, hb⟩)
      obtain ⟨info, hinfo, hnew, hcount, -, -⟩ := h.of_contains hb rfl
      exact (hcollects.new nId _).mpr ⟨info, hentry.mpr hinfo, hnew, hcount⟩
  unfold check
  rw [rejectIf_neg (by rw [length_vRandom h]; exact fun hne => hne rfl), ok_bind, hc, ok_bind,
    rejectIf_neg (by rw [hcollects.nTried, h.nTried]; exact fun hne => hne rfl), ok_bind,
    rejectIf_neg (by rw [hcollects.nNew, h.nNew]; exact fun hne => hne rfl), ok_bind]
  rw [hsetTried, ok_bind, hmapNew, ok_bind, rejectIf_neg (fun hne => hne hemptyTried), ok_bind,
    rejectIf_neg fun hne => hne hemptyNew]

end CAddrMan

end Morcochain
