import Morcochain.Lib.OrderedSet
import Morcochain.Lib.Run

/-!
# Limited maps

The template `limitedmap` (`limitedmap.h`): a map with a multimap beside it that lists its entries by value, so that the
entry with the least value can be evicted when the map is full. An operation fails where it erases from the empty
multimap, uses an iterator to an entry that is gone, or runs into `assert(0)`.

* `Agree.evict`, `Agree.insert`, `Agree.erase`, `Agree.update`, `Agree.shrink` : the two maps describe the same entries.
* `good_step_iff` : **which steps keep the promises**: a new key needs a limit of at least two that is not reached.
* `holdsHighest_iff` : **when the highest values are held** after insertions.
-/

set_option autoImplicit false
set_option linter.unusedSectionVars false

namespace Morcochain

open OrderedStore Run

variable {K V : Type} [LinearOrder K] [LinearOrder V]

/-- A `limitedmap`. An iterator into `map` is told by the key it points to. -/
structure LimitedMap (K V : Type) [LinearOrder K] where
  map : Store K V
  rmap : List (V × K)
  nMaxSize : Nat

namespace LimitedMap

/-! ## Operations -/

/-- An empty map with a limit. -/
def new (nMaxSizeIn : Nat) : LimitedMap K V := { map := Store.empty, rmap := [], nMaxSize := nMaxSizeIn }

/-- The number of entries. -/
def size (m : LimitedMap K V) : Nat := m.map.entries.length

/-- `rmap.insert`: behind the entries with the same value. -/
def rmapInsert (v : V) (k : K) : List (V × K) → List (V × K)
  | [] => [(v, k)]
  | e :: rmap => if v < e.1 then (v, k) :: e :: rmap else e :: rmapInsert v k rmap

/-- Erase the first entry of the range of a value (`equal_range`) that points to a key. -/
def rmapErase (v : V) (k : K) : List (V × K) → Option (List (V × K))
  | [] => none
  | e :: rmap =>
    if ¬ e.1 < v ∧ ¬ v < e.1 ∧ e.2 = k then some rmap else (rmapErase v k rmap).map (e :: ·)

/-- Erase the entry with the least value: `map.erase(rmap.begin()->second)` and `rmap.erase(rmap.begin())`. -/
def evict (m : LimitedMap K V) : Option (LimitedMap K V) :=
  match m.rmap with
  | [] => none
  | (_, k) :: rmap => if (m.map.find? k).isSome then some { m with map := m.map.erase k, rmap := rmap } else none

/-- `insert`. -/
def insert (k : K) (v : V) (m : LimitedMap K V) : Option (LimitedMap K V) :=
  if (m.map.find? k).isSome then some m
  else
    let m := { m with map := m.map.insert k v }
    (if m.nMaxSize ≠ 0 ∧ m.size = m.nMaxSize then m.evict else some m).map fun m =>
      { m with rmap := rmapInsert v k m.rmap }

/-- `erase`. -/
def erase (k : K) (m : LimitedMap K V) : Option (LimitedMap K V) :=
  match m.map.find? k with
  | none => some m
  | some v => (rmapErase v k m.rmap).map fun rmap => { m with map := m.map.erase k, rmap := rmap }

/-- `update`, through an iterator to a key. -/
def update (k : K) (v : V) (m : LimitedMap K V) : Option (LimitedMap K V) :=
  match m.map.find? k with
  | none => some m
  | some old =>
    (rmapErase old k m.rmap).map fun rmap => { m with map := m.map.insert k v, rmap := rmapInsert v k rmap }

/-- The loop of `max_size`, which runs at most `n` times. -/
def shrink (s : Nat) : Nat → LimitedMap K V → Option (LimitedMap K V)
  | 0, m => some m
  | n + 1, m => if s < m.size then m.evict.bind (shrink s n) else some m

/-- `max_size`, with a new limit. -/
def maxSize (s : Nat) (m : LimitedMap K V) : Option (LimitedMap K V) :=
  (if s ≠ 0 then shrink s m.size m else some m).map fun m => { m with nMaxSize := s }

/-- The calls of a limited map. -/
inductive Call (K V : Type)
  | insert (k : K) (v : V)
  | erase (k : K)
  | update (k : K) (v : V)
  | maxSize (s : Nat)

/-- What a call makes of a map. -/
def call (m : LimitedMap K V) : Call K V → Option (LimitedMap K V)
  | .insert k v => m.insert k v
  | .erase k => m.erase k
  | .update k v => m.update k v
  | .maxSize s => m.maxSize s

/-- A call after others. Nothing follows a call that has failed. -/
def step (m : Option (LimitedMap K V)) (c : Call K V) : Option (LimitedMap K V) := m.bind fun m => m.call c

/-! ## The promises -/

/-- The two maps describe the same entries, the second one by value. -/
structure Agree (map : Store K V) (rmap : List (V × K)) : Prop where
  perm : rmap.Perm (map.entries.map Prod.swap)
  sorted : rmap.Pairwise fun a b => ¬ b.1 < a.1

/-- What holds of a map all along: no operation has failed, the maps agree, and the limit is kept. -/
def Good (m : Option (LimitedMap K V)) : Prop :=
  ∃ m', m = some m' ∧ Agree m'.map m'.rmap ∧ (m'.nMaxSize ≠ 0 → m'.size ≤ m'.nMaxSize)

/-- The condition on a call: a new key is inserted only when there is no limit, or a limit of at least two that is not
reached. -/
def Room (m : Option (LimitedMap K V)) : Call K V → Prop
  | .insert k _ => ∀ m' ∈ m, m'.map.find? k = none → m'.nMaxSize ≠ 0 → 2 ≤ m'.nMaxSize ∧ m'.size < m'.nMaxSize
  | _ => True

/-- A map holds the `n` entries with the highest values of a list. -/
structure HoldsHighest (n : Nat) (l : List (K × V)) (map : Store K V) : Prop where
  size : map.entries.length = min n l.length
  inserted : ∀ e ∈ map.entries, e ∈ l
  highest : ∀ e ∈ map.entries, ∀ e' ∈ l, e' ∉ map.entries → ¬ e.2 < e'.2

/-- Insert the entries of a list, from the first to the last. -/
def insertAll (m : LimitedMap K V) (l : List (K × V)) : Option (LimitedMap K V) :=
  l.foldlM (fun m e => m.insert e.1 e.2) m

/-! ## The reverse map -/

section Rmap

variable {v : V} {k : K} {rmap rest : List (V × K)} {map : Store K V}

theorem perm_rmapInsert (v : V) (k : K) : ∀ rmap : List (V × K), (rmapInsert v k rmap).Perm ((v, k) :: rmap)
  | [] => List.Perm.refl _
  | e :: rmap => by
    rw [rmapInsert]
    split
    · exact List.Perm.refl _
    · exact ((perm_rmapInsert v k rmap).cons e).trans (List.Perm.swap _ _ _)

theorem sorted_rmapInsert : ∀ {rmap : List (V × K)}, rmap.Pairwise (fun a b => ¬ b.1 < a.1) →
    (rmapInsert v k rmap).Pairwise fun a b => ¬ b.1 < a.1
  | [], _ => List.pairwise_singleton _ _
  | e :: rmap, h => by
    obtain ⟨he, hrmap⟩ := List.pairwise_cons.mp h
    rw [rmapInsert]
    split
    · rename_i hlt
      refine List.pairwise_cons.mpr ⟨fun a ha => ?_, h⟩
      rcases List.mem_cons.mp ha with rfl | ha
      · exact not_lt.mpr (le_of_lt hlt)
      · exact fun hav => he a ha (lt_trans hav hlt)
    · rename_i hle
      refine List.pairwise_cons.mpr ⟨fun a ha => ?_, sorted_rmapInsert hrmap⟩
      rcases List.mem_cons.mp ((perm_rmapInsert v k rmap).mem_iff.mp ha) with rfl | ha
      · exact hle
      · exact he a ha

/-- An entry of the reverse map is found there and taken out. -/
theorem rmapErase_spec : ∀ {rmap : List (V × K)}, (v, k) ∈ rmap →
    ∃ rest, rmapErase v k rmap = some rest ∧ rmap.Perm ((v, k) :: rest) ∧ rest.Sublist rmap
  | e :: rmap, h => by
    rw [rmapErase]
    by_cases he : ¬ e.1 < v ∧ ¬ v < e.1 ∧ e.2 = k
    · obtain rfl : e = (v, k) := Prod.ext (le_antisymm (not_lt.mp he.2.1) (not_lt.mp he.1)) he.2.2
      rw [if_pos he]
      exact ⟨rmap, rfl, List.Perm.refl _, List.sublist_cons_self _ _⟩
    · rw [if_neg he]
      rcases List.mem_cons.mp h with rfl | h
      · exact absurd ⟨lt_irrefl _, lt_irrefl _, rfl⟩ he
      · obtain ⟨rest, hrest, hperm, hsub⟩ := rmapErase_spec h
        refine ⟨e :: rest, by rw [hrest]; rfl, ?_, hsub.cons_cons e⟩
        exact (hperm.cons e).trans (List.Perm.swap _ _ _)

/-- What the reverse map lists is stored. -/
theorem Agree.mem_iff (h : Agree map rmap) : (v, k) ∈ rmap ↔ map.find? k = some v := by
  rw [h.perm.mem_iff, Store.find?_eq_some, List.mem_map]
  constructor
  · rintro ⟨⟨k', v'⟩, hmem, heq⟩
    cases heq
    exact hmem
  · exact fun hmem => ⟨(k, v), hmem, rfl⟩

theorem Agree.length_eq (h : Agree map rmap) : rmap.length = map.entries.length := by
  rw [h.perm.length_eq, List.length_map]

/-- The entries of a map, one of them apart. -/
theorem perm_erase (h : map.find? k = some v) : map.entries.Perm ((k, v) :: (map.erase k).entries) := by
  have hsame : map.insert k v = map := Store.ext_find? fun k' => by
    rw [Store.find?_insert]
    split
    · rename_i hk
      rw [hk, h]
    · rfl
  have hperm := map.perm_insert k v
  rwa [hsame] at hperm

/-- **Taking an entry out** of both maps. -/
theorem Agree.of_erase (h : Agree map rmap) (hfind : map.find? k = some v) (hperm : rmap.Perm ((v, k) :: rest))
    (hsub : rest.Sublist rmap) : Agree (map.erase k) rest := by
  refine ⟨?_, h.sorted.sublist hsub⟩
  have hentries := ((perm_erase hfind).map Prod.swap).symm.trans h.perm.symm
  exact (List.perm_cons _).mp (hentries.trans hperm).symm

/-- **Putting a new entry** into both maps. -/
theorem Agree.of_insert (h : Agree map rmap) (hnew : map.find? k = none) :
    Agree (map.insert k v) (rmapInsert v k rmap) := by
  refine ⟨?_, sorted_rmapInsert h.sorted⟩
  have hentries := (map.perm_insert k v).map Prod.swap
  rw [Store.erase_of_none hnew, List.map_cons] at hentries
  exact (perm_rmapInsert v k rmap).trans ((h.perm.cons _).trans hentries.symm)

theorem length_insert (hnew : map.find? k = none) : (map.insert k v).entries.length = map.entries.length + 1 := by
  rw [(map.perm_insert k v).length_eq, Store.erase_of_none hnew, List.length_cons]

/-- The entry with the least value, when there is one. -/
theorem Agree.exists_least (h : Agree map rmap) (hpos : 0 < map.entries.length) :
    ∃ v k rest, rmap = (v, k) :: rest ∧ map.find? k = some v ∧ Agree (map.erase k) rest := by
  cases rmap with
  | nil =>
    have hlen := h.length_eq
    rw [List.length_nil] at hlen
    omega
  | cons e rest =>
    obtain ⟨v, k⟩ := e
    have hfind := h.mem_iff.mp (List.mem_cons_self : (v, k) ∈ (v, k) :: rest)
    exact ⟨v, k, rest, rfl, hfind, h.of_erase hfind (List.Perm.refl _) (List.sublist_cons_self _ _)⟩

end Rmap

/-! ## What each operation does -/

section Operations

variable {m : LimitedMap K V} {k : K} {v : V}

/-- Evicting from a map that has an entry. -/
theorem Agree.evict (h : Agree m.map m.rmap) (hpos : 0 < m.size) :
    ∃ m', m.evict = some m' ∧ Agree m'.map m'.rmap ∧ m'.size + 1 = m.size ∧ m'.nMaxSize = m.nMaxSize := by
  obtain ⟨v, k, rest, hrmap, hfind, hrest⟩ := h.exists_least hpos
  refine ⟨{ m with map := m.map.erase k, rmap := rest }, ?_, hrest, Store.length_erase hfind, rfl⟩
  rw [LimitedMap.evict, hrmap]
  exact if_pos (by rw [hfind]; rfl)

/-- A key that is there stays as it is. -/
theorem insert_of_some (hold : (m.map.find? k).isSome = true) : m.insert k v = some m := if_pos hold

/-- A new key while the map does not become full. -/
theorem Agree.insert_grows (h : Agree m.map m.rmap) (hnew : m.map.find? k = none)
    (hroom : m.nMaxSize = 0 ∨ m.size + 1 ≠ m.nMaxSize) : ∃ m', m.insert k v = some m' ∧ Agree m'.map m'.rmap ∧
      m'.size = m.size + 1 ∧ m'.nMaxSize = m.nMaxSize ∧ m'.map = m.map.insert k v := by
  have hsize : (m.map.insert k v).entries.length = m.size + 1 := length_insert hnew
  refine ⟨{ m with map := m.map.insert k v, rmap := rmapInsert v k m.rmap }, ?_, h.of_insert hnew, hsize, rfl, rfl⟩
  rw [LimitedMap.insert, if_neg (by rw [hnew]; exact Bool.false_ne_true)]
  dsimp only
  rw [if_neg]
  · rfl
  · rintro ⟨hlimit, hfull⟩
    exact hroom.elim hlimit fun hne => hne (hsize.symm.trans hfull)

/-- A new key that makes the map full: the least of the other entries goes. -/
theorem Agree.insert_evicts (h : Agree m.map m.rmap) (hnew : m.map.find? k = none) (hfull : m.size + 1 = m.nMaxSize)
    (hpos : 0 < m.size) : ∃ m', m.insert k v = some m' ∧ Agree m'.map m'.rmap ∧ m'.size = m.size ∧
      m'.nMaxSize = m.nMaxSize := by
  obtain ⟨v₀, k₀, rest, hrmap, hfind, hrest⟩ := h.exists_least hpos
  have hne : k₀ ≠ k := by
    rintro rfl
    rw [hnew] at hfind
    cases hfind
  have hcomm : (m.map.insert k v).erase k₀ = (m.map.erase k₀).insert k v := Store.ext_find? fun k' => by
    rw [Store.find?_erase, Store.find?_insert, Store.find?_insert, Store.find?_erase]
    by_cases hk : k' = k
    · rw [if_neg (fun h => hne (h.symm.trans hk)), if_pos hk, if_pos hk]
    · rw [if_neg hk, if_neg hk]
  have hnew' : (m.map.erase k₀).find? k = none := by rw [Store.find?_erase, if_neg (Ne.symm hne), hnew]
  have hsize : ((m.map.erase k₀).insert k v).entries.length = m.size := by
    rw [length_insert hnew', Store.length_erase hfind]
    rfl
  refine ⟨{ m with map := (m.map.erase k₀).insert k v, rmap := rmapInsert v k rest }, ?_, hrest.of_insert hnew', hsize,
    rfl⟩
  rw [LimitedMap.insert, if_neg (by rw [hnew]; exact Bool.false_ne_true)]
  dsimp only
  rw [if_pos ⟨by omega, (length_insert hnew).trans hfull⟩, LimitedMap.evict]
  dsimp only
  rw [hrmap]
  dsimp only
  rw [if_pos (by rw [Store.find?_insert, if_neg hne, hfind]; rfl), hcomm]
  rfl

/-- A new key in an empty map with a limit of one: the empty reverse map is erased from. -/
theorem Agree.insert_fails (h : Agree m.map m.rmap) (hfull : m.size + 1 = m.nMaxSize) (hempty : m.size = 0) :
    m.insert k v = none := by
  have hnil : m.map.entries = [] := List.length_eq_zero_iff.mp hempty
  have hrmap : m.rmap = [] := List.length_eq_zero_iff.mp (h.length_eq.trans hempty)
  have hnew : m.map.find? k = none := Store.entries_eq_nil_iff.mp hnil k
  rw [LimitedMap.insert, if_neg (by rw [hnew]; exact Bool.false_ne_true)]
  dsimp only
  rw [if_pos ⟨by omega, (length_insert hnew).trans hfull⟩, LimitedMap.evict]
  dsimp only
  rw [hrmap]
  rfl

/-- Erasing a key. -/
theorem Agree.erase (h : Agree m.map m.rmap) (k : K) :
    ∃ m', m.erase k = some m' ∧ Agree m'.map m'.rmap ∧ m'.size ≤ m.size ∧ m'.nMaxSize = m.nMaxSize := by
  unfold LimitedMap.erase
  cases hfind : m.map.find? k with
  | none => exact ⟨m, rfl, h, Nat.le_refl _, rfl⟩
  | some v =>
    obtain ⟨rest, hrest, hperm, hsub⟩ := rmapErase_spec (h.mem_iff.mpr hfind)
    have hlength : (m.map.erase k).entries.length + 1 = m.size := Store.length_erase hfind
    refine ⟨{ m with map := m.map.erase k, rmap := rest }, ?_, h.of_erase hfind hperm hsub, ?_, rfl⟩
    · dsimp only
      rw [hrest]
      rfl
    · unfold size at hlength ⊢
      dsimp only
      omega

/-- Changing the value of a key. -/
theorem Agree.update (h : Agree m.map m.rmap) (k : K) (v : V) :
    ∃ m', m.update k v = some m' ∧ Agree m'.map m'.rmap ∧ m'.size = m.size ∧ m'.nMaxSize = m.nMaxSize := by
  unfold LimitedMap.update
  cases hfind : m.map.find? k with
  | none => exact ⟨m, rfl, h, rfl, rfl⟩
  | some old =>
    obtain ⟨rest, hrest, hperm, hsub⟩ := rmapErase_spec (h.mem_iff.mpr hfind)
    have herased : (m.map.erase k).find? k = none := by rw [Store.find?_erase, if_pos rfl]
    have hover : (m.map.erase k).insert k v = m.map.insert k v := Store.ext_find? fun k' => by
      rw [Store.find?_insert, Store.find?_insert, Store.find?_erase]
      split <;> rfl
    refine ⟨{ m with map := m.map.insert k v, rmap := rmapInsert v k rest }, ?_, ?_, ?_, rfl⟩
    · dsimp only
      rw [hrest]
      rfl
    · rw [← hover]
      exact (h.of_erase hfind hperm hsub).of_insert herased
    · unfold size
      dsimp only
      rw [← hover, length_insert herased, Store.length_erase hfind]

/-- The loop of `max_size` ends with a map that is small enough. -/
theorem Agree.shrink {s : Nat} : ∀ {n : Nat} {m : LimitedMap K V}, Agree m.map m.rmap → m.size ≤ n + s →
    ∃ m', shrink s n m = some m' ∧ Agree m'.map m'.rmap ∧ m'.size ≤ s ∧ m'.nMaxSize = m.nMaxSize
  | 0, m, h, hn => ⟨m, rfl, h, by omega, rfl⟩
  | n + 1, m, h, hn => by
    rw [LimitedMap.shrink]
    by_cases hs : s < m.size
    · obtain ⟨m₁, hevict, h₁, hsize, hlimit⟩ := h.evict (by omega)
      obtain ⟨m', hshrink, h', hle, hlimit'⟩ := h₁.shrink (n := n) (s := s) (by omega)
      rw [if_pos hs, hevict]
      exact ⟨m', hshrink, h', hle, hlimit'.trans hlimit⟩
    · rw [if_neg hs]
      exact ⟨m, rfl, h, by omega, rfl⟩

/-- Setting a limit. -/
theorem Agree.maxSize (h : Agree m.map m.rmap) (s : Nat) :
    ∃ m', m.maxSize s = some m' ∧ Agree m'.map m'.rmap ∧ (s ≠ 0 → m'.size ≤ s) ∧ m'.nMaxSize = s := by
  unfold LimitedMap.maxSize
  by_cases hs : s = 0
  · rw [if_neg (not_not.mpr hs)]
    exact ⟨{ m with nMaxSize := s }, rfl, h, fun hne => absurd hs hne, rfl⟩
  · obtain ⟨m', hshrink, h', hle, -⟩ := h.shrink (n := m.size) (s := s) (by omega)
    rw [if_pos hs, hshrink]
    exact ⟨{ m' with nMaxSize := s }, rfl, h', fun _ => hle, rfl⟩

end Operations

/-! ## Runs -/

section Runs

variable {m m' : LimitedMap K V} {l : List (K × V)} {N : Nat}

theorem agree_new (N : Nat) : Agree (new N : LimitedMap K V).map (new N : LimitedMap K V).rmap :=
  ⟨List.Perm.refl _, List.Pairwise.nil⟩

theorem good_new (N : Nat) : Good (some (new N : LimitedMap K V)) := ⟨_, rfl, agree_new N, fun _ => Nat.zero_le _⟩

/-- A call that leaves a map with the promises. -/
theorem good_of_call {c : Call K V} (h : ∃ m', m.call c = some m' ∧ Agree m'.map m'.rmap ∧
    (m'.nMaxSize ≠ 0 → m'.size ≤ m'.nMaxSize)) : Good (step (some m) c) := h

/-- **Which steps keep the promises.** -/
theorem good_step_iff {s : Option (LimitedMap K V)} {c : Call K V} (h : Good s) : Good (step s c) ↔ Room s c := by
  obtain ⟨m, rfl, hagree, hlimit⟩ := h
  cases c with
  | erase k =>
    obtain ⟨m', hcall, hagree', hsize, hmax⟩ := hagree.erase k
    refine iff_of_true (good_of_call ⟨m', hcall, hagree', fun hne => ?_⟩) trivial
    have := hlimit (hmax ▸ hne)
    omega
  | update k v =>
    obtain ⟨m', hcall, hagree', hsize, hmax⟩ := hagree.update k v
    refine iff_of_true (good_of_call ⟨m', hcall, hagree', fun hne => ?_⟩) trivial
    have := hlimit (hmax ▸ hne)
    omega
  | maxSize s =>
    obtain ⟨m', hcall, hagree', hsize, hmax⟩ := hagree.maxSize s
    refine iff_of_true (good_of_call ⟨m', hcall, hagree', fun hne => ?_⟩) trivial
    rw [hmax] at hne ⊢
    exact hsize hne
  | insert k v =>
    have hroom : Room (some m) (.insert k v) ↔ (m.map.find? k = none → m.nMaxSize ≠ 0 →
        2 ≤ m.nMaxSize ∧ m.size < m.nMaxSize) :=
      ⟨fun h => h m rfl, fun h m' hm' => Option.some.inj hm' ▸ h⟩
    rw [hroom]
    cases hfind : m.map.find? k with
    | some old =>
      have hcall : m.insert k v = some m := insert_of_some (by rw [hfind]; rfl)
      exact iff_of_true (good_of_call ⟨m, hcall, hagree, hlimit⟩) fun h => nomatch h
    | none =>
      by_cases hgrows : m.nMaxSize = 0 ∨ m.size + 1 ≠ m.nMaxSize
      · obtain ⟨m', hcall, hagree', hsize, hmax, -⟩ := hagree.insert_grows (v := v) hfind hgrows
        constructor
        · rintro ⟨m'', hstep, -, hle⟩ - hne
          obtain rfl : m' = m'' := Option.some.inj (hcall.symm.trans hstep)
          have := hle (hmax ▸ hne)
          omega
        · intro h
          refine good_of_call ⟨m', hcall, hagree', fun hne => ?_⟩
          have := h rfl (hmax ▸ hne)
          omega
      · obtain ⟨hne, hfull⟩ := not_or.mp hgrows
        have hfull := not_not.mp hfull
        by_cases hempty : m.size = 0
        · refine iff_of_false ?_ fun h => by have := (h rfl hne).1; omega
          rintro ⟨m'', hstep, -⟩
          have hcall : step (some m) (.insert k v) = none := hagree.insert_fails hfull hempty
          rw [hcall] at hstep
          cases hstep
        · obtain ⟨m', hcall, hagree', hsize, hmax⟩ := hagree.insert_evicts (v := v) hfind hfull (by omega)
          refine iff_of_true (good_of_call ⟨m', hcall, hagree', fun _ => by omega⟩) fun _ _ => ⟨by omega, by omega⟩

/-- New keys that stay below the limit are all kept. -/
theorem Agree.insertAll : ∀ {l : List (K × V)} {m : LimitedMap K V}, Agree m.map m.rmap → (l.map (·.1)).Nodup →
    (∀ e ∈ l, m.map.find? e.1 = none) → m.size + l.length < m.nMaxSize →
    ∃ m', m.insertAll l = some m' ∧ m'.size = m.size + l.length ∧
      ∀ e, e ∈ m'.map.entries ↔ e ∈ m.map.entries ∨ e ∈ l
  | [], m, _, _, _, _ => ⟨m, rfl, rfl, fun e => by simp⟩
  | (k, v) :: l, m, h, hnodup, hnew, hlt => by
    obtain ⟨hk, hl⟩ := List.nodup_cons.mp hnodup
    rw [List.length_cons] at hlt
    obtain ⟨m₁, hcall, h₁, hsize, hmax, hmap⟩ := h.insert_grows (v := v) (hnew (k, v) List.mem_cons_self) (by omega)
    have hnew₁ : ∀ e ∈ l, m₁.map.find? e.1 = none := by
      intro e he
      have hne : e.1 ≠ k := fun heq => hk (List.mem_map.mpr ⟨e, he, heq⟩)
      rw [hmap, Store.find?_insert, if_neg hne]
      exact hnew e (List.mem_cons_of_mem _ he)
    obtain ⟨m', hall, hsize', hmem⟩ := h₁.insertAll hl hnew₁ (by omega)
    refine ⟨m', ?_, by rw [List.length_cons]; omega, fun e => ?_⟩
    · rw [LimitedMap.insertAll, List.foldlM_cons, hcall]
      exact hall
    · have hinsert : e ∈ m₁.map.entries ↔ e = (k, v) ∨ e ∈ m.map.entries := by
        rw [hmap, (m.map.perm_insert k v).mem_iff, Store.erase_of_none (hnew (k, v) List.mem_cons_self), List.mem_cons]
      rw [hmem, hinsert, List.mem_cons, or_comm (a := e = (k, v)), or_assoc]

/-- A map that is below its limit stays below it. -/
theorem Agree.insertAll_lt : ∀ {l : List (K × V)} {m m' : LimitedMap K V}, Agree m.map m.rmap → m.size < m.nMaxSize →
    m.insertAll l = some m' → m'.size < m.nMaxSize
  | [], m, m', _, hlt, hall => by
    obtain rfl : m = m' := Option.some.inj hall
    exact hlt
  | (k, v) :: l, m, m', h, hlt, hall => by
    rw [LimitedMap.insertAll, List.foldlM_cons] at hall
    obtain ⟨m₁, hcall, hall⟩ := Option.bind_eq_some_iff.mp hall
    have hstep : Agree m₁.map m₁.rmap ∧ m₁.size < m₁.nMaxSize ∧ m₁.nMaxSize = m.nMaxSize := by
      cases hfind : m.map.find? k with
      | some old =>
        rw [insert_of_some (by rw [hfind]; rfl)] at hcall
        obtain rfl := Option.some.inj hcall
        exact ⟨h, hlt, rfl⟩
      | none =>
        by_cases hfull : m.size + 1 = m.nMaxSize
        · by_cases hempty : m.size = 0
          · rw [h.insert_fails hfull hempty] at hcall
            cases hcall
          · obtain ⟨m₂, hcall₂, h₂, hsize, hmax⟩ := h.insert_evicts (v := v) hfind hfull (by omega)
            obtain rfl := Option.some.inj (hcall₂.symm.trans hcall)
            exact ⟨h₂, by omega, hmax⟩
        · obtain ⟨m₂, hcall₂, h₂, hsize, hmax, -⟩ := h.insert_grows (v := v) hfind (.inr hfull)
          obtain rfl := Option.some.inj (hcall₂.symm.trans hcall)
          exact ⟨h₂, by omega, hmax⟩
    obtain ⟨h₁, hlt₁, hmax⟩ := hstep
    rw [← hmax]
    exact h₁.insertAll_lt hlt₁ hall

/-- **When the highest values are held**: while fewer entries are inserted than the limit allows. -/
theorem holdsHighest_iff (hN : 1 ≤ N) (hl : (l.map (·.1)).Nodup) :
    (∃ m, (new N).insertAll l = some m ∧ HoldsHighest N l m.map) ↔ l.length < N := by
  constructor
  · rintro ⟨m, hall, hholds⟩
    have hlt := (agree_new N).insertAll_lt (show 0 < N from hN) hall
    have hsize := hholds.size
    have hmin : min N l.length < N := hsize ▸ hlt
    omega
  · intro hlt
    obtain ⟨m, hall, hsize, hmem⟩ := (agree_new N).insertAll (l := l) hl (fun _ _ => rfl)
      (show 0 + l.length < N by omega)
    have hentries : ∀ e, e ∈ m.map.entries ↔ e ∈ l := fun e =>
      (hmem e).trans (or_iff_right (fun h => nomatch h))
    refine ⟨m, hall, ?_, fun e he => (hentries e).mp he, fun e _ e' he' hout => absurd ((hentries e').mpr he') hout⟩
    rw [Nat.min_eq_right (Nat.le_of_lt hlt)]
    exact hsize.trans (Nat.zero_add _)

end Runs

/-- **Limited maps keep their promises exactly** while new keys find room: along a run, the maps agree, nothing is
erased from the empty reverse map and the limit is kept when every new key is inserted below a limit of at least two (or
without one), and the highest values are held while fewer entries are inserted than the limit. -/
theorem limitedMap_iff (N : Nat) (hN : 1 ≤ N) :
    (∀ calls : List (Call K V), Always step Good (some (new N)) calls ↔ Meets step Room (some (new N)) calls) ∧
    ∀ l : List (K × V), (l.map (·.1)).Nodup →
      ((∃ m, (new N).insertAll l = some m ∧ HoldsHighest N l m.map) ↔ l.length < N) :=
  ⟨fun _ => always_iff_meets (I := fun _ => True) (P := Good) (C := Room) (fun _ _ _ => trivial)
    (fun _ _ _ h => good_step_iff h) trivial (good_new N), fun _ hl => holdsHighest_iff hN hl⟩

theorem limitedMap_sample :
    (∃ m, (new 2).insertAll [((1 : Nat), (10 : Nat))] = some m ∧ HoldsHighest 2 [(1, 10)] m.map) ∧
    Always step Good (some (new 2 : LimitedMap Nat Nat)) [.insert 1 10, .insert 2 20, .erase 2] :=
  ⟨((limitedMap_iff 2 (by decide)).2 [(1, 10)] (by decide)).mpr (by decide),
    ((limitedMap_iff 2 (by decide)).1 [.insert 1 10, .insert 2 20, .erase 2]).mpr
      ⟨fun _ h _ _ => by cases h; decide, fun _ h _ _ => by cases h; decide, trivial, trivial⟩⟩

/-- With a limit of two only one of two entries is held; with a limit of one the first insertion erases from the empty
reverse map; and a map that is full after its limit was lowered grows beyond it. -/
theorem limitedMap_counterexample :
    (¬ ∃ m, (new 2).insertAll [((1 : Nat), (10 : Nat)), (2, 20)] = some m ∧ HoldsHighest 2 [(1, 10), (2, 20)] m.map) ∧
    (new 1 : LimitedMap Nat Nat).insert 1 10 = none ∧
    ((((new 3 : LimitedMap Nat Nat).insertAll [(1, 10), (2, 20)]).bind (·.maxSize 2)).bind
      (·.insert 3 30)).map (fun m => (m.nMaxSize, m.size)) = some (2, 3) := by
  refine ⟨?_, by decide +kernel, by decide +kernel⟩
  rintro ⟨m, hall, hholds⟩
  have hone : ((new 2).insertAll [((1 : Nat), (10 : Nat)), (2, 20)]).map (fun m => m.map.entries.length) = some 1 := by
    decide +kernel
  rw [hall, Option.map_some, hholds.size] at hone
  exact absurd hone (by decide)

end LimitedMap

end Morcochain
