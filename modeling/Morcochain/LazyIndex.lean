import Morcochain.BlockIndex
import Morcochain.Lib.Guard
import Morcochain.Lib.OrderedStore
import Morcochain.Lib.Run

/-!
# Block indexes that are loaded on demand

`BlockMap` (`blockmap.h`, `blockmap.cpp`): the entries that are in memory, the hashes of all entries, and the
predecessors of those that were unloaded. An entry is an object at an address; a lock keeps it in memory.

* `plainMap_step_iff` : **when a step keeps the picture of a plain map**: it must not clear the map while an entry is
  locked, and not load an entry that is loaded.
* `keepsObjects_step` : what such a step leaves alone.
* `blockMap_refines_iff` : the same for runs.
-/

set_option autoImplicit false

namespace Morcochain

open Guard OrderedStore

/-- A `CBlockIndex` in memory: the key of the map that `phashBlock` points to, the number of locks, and its data. -/
structure IndexObject where
  phashBlock : Option Uint256 := none
  nLocks : Int := 0
  entry : CBlockIndex := {}

/-- The data of an entry that `BlockMap::load` copies from its record. -/
def CBlockIndex.ofDisk (diskindex : CBlockIndex) (hashNext : Option Uint256) : CBlockIndex :=
  { diskindex with
    vote := { diskindex.vote with nCoinAgeDestroyed := diskindex.nCoinAgeDestroyed }
    mapTotalParked := {}
    pnext := hashNext }

/-- `BlockMap`, with the objects in memory and the `'b'` and `'n'` records of the database. -/
structure LazyBlockMap where
  mapLoaded : Store Uint256 Nat := Store.empty
  setKnown : Uint256 → Bool := fun _ => false
  mapPrev : Uint256 → Option Uint256 := fun _ => none
  /-- The objects by their addresses. -/
  heap : Nat → Option IndexObject := fun _ => none
  /-- The address of the next object. -/
  nNew : Nat := 0
  records : Uint256 → Option CBlockIndex := fun _ => none
  nextRecords : Uint256 → Option Uint256 := fun _ => none

namespace LazyBlockMap

variable (s : LazyBlockMap)

/-! ## Operations -/

def blockMapKeptHeight : Int := 10100

/-- `BlockMap::lazy_insert`. -/
def lazyInsert (hash : Uint256) : LazyBlockMap := { s with setKnown := Function.update s.setKnown hash true }

/-- `BlockMap::count`. -/
def count (hash : Uint256) : Nat := if s.setKnown hash then 1 else 0

/-- `BlockMap::load`, from a record: the map, and the address of the object. -/
def loadFrom (hash : Uint256) (diskindex : CBlockIndex) : LazyBlockMap × Nat :=
  let entry := CBlockIndex.ofDisk diskindex (s.nextRecords hash)
  let s := { s with
    setKnown := Function.update s.setKnown hash true
    mapPrev := Function.update s.mapPrev hash none }
  match s.mapLoaded.find? hash with
  | none =>
    ({ s with
      mapLoaded := s.mapLoaded.insert hash s.nNew
      heap := Function.update s.heap s.nNew (some { phashBlock := some hash, entry := entry })
      nNew := s.nNew + 1 }, s.nNew)
  -- the object is overwritten with a new one, which belongs to no key
  | some a => ({ s with heap := Function.update s.heap a (some { entry := entry }) }, a)

/-- `BlockMap::load`. -/
def load (hash : Uint256) : Check (LazyBlockMap × Nat) :=
  match s.records hash with
  | none => .error (.exception "Failed to load block")
  | some diskindex => .ok (s.loadFrom hash diskindex)

/-- `BlockMap::find`: no address is `end()`. `BlockMap::operator[]` is the same, with `NULL` in the place of `end()`. -/
def find (hash : Uint256) : Check (LazyBlockMap × Option Nat) :=
  match s.mapLoaded.find? hash with
  | some a => .ok (s, some a)
  | none =>
    if s.setKnown hash then do
      let (s', a) ← s.load hash
      return (s', some a)
    else .ok (s, none)

/-- `BlockMap::insert` of a new object, whose `phashBlock` is then set to the key in the map. -/
def insert (hash : Uint256) (pindexNew : CBlockIndex) : LazyBlockMap :=
  { s with
    setKnown := Function.update s.setKnown hash true
    mapLoaded := if (s.mapLoaded.find? hash).isSome then s.mapLoaded else s.mapLoaded.insert hash s.nNew
    heap := Function.update s.heap s.nNew (some { phashBlock := some hash, entry := pindexNew })
    nNew := s.nNew + 1 }

/-- `BlockMap::unload`, of the entry of a hash. An object without a key ends the process. -/
def unload (hash : Uint256) : LazyBlockMap :=
  match s.mapLoaded.find? hash with
  | none => s
  | some a =>
    match s.heap a with
    | none => s
    | some pindex =>
      if pindex.nLocks ≠ 0 then s
      else
        match pindex.phashBlock with
        | none => s
        | some key =>
          { s with
            mapPrev := if pindex.entry.pprev.isSome then Function.update s.mapPrev key pindex.entry.pprev else s.mapPrev
            heap := Function.update s.heap a none
            mapLoaded := s.mapLoaded.erase hash }

/-- `BlockMap::unload(CBlockIndex*)`. -/
def unloadIndex (a : Nat) : LazyBlockMap :=
  match (s.heap a).bind (·.phashBlock) with
  | none => s
  | some hash => s.unload hash

/-- Unload the entries of a list that meet a test, one after the other. -/
def unloadWhere (fUnload : LazyBlockMap → Nat → Bool) : LazyBlockMap → List (Uint256 × Nat) → LazyBlockMap
  | s, [] => s
  | s, (hash, a) :: rest => unloadWhere fUnload (if fUnload s a then s.unload hash else s) rest

/-- `BlockMap::clear`. -/
def clear : LazyBlockMap :=
  { unloadWhere (fun _ _ => true) s s.mapLoaded.entries with setKnown := fun _ => false, mapPrev := fun _ => none }

/-- `BlockMap::cleanup`, given the height of the best block and the genesis block. -/
def cleanup (nBestHeight : Int) (pindexGenesisBlock : Option Nat) : LazyBlockMap :=
  unloadWhere (fun s a => !((s.heap a).any fun pindex => nBestHeight - blockMapKeptHeight ≤ pindex.entry.nHeight) &&
    pindexGenesisBlock ≠ some a) s s.mapLoaded.entries

/-- Change the number of locks of an object. -/
def addLocks (a : Nat) (n : Int) : LazyBlockMap :=
  { s with heap := Function.update s.heap a ((s.heap a).map fun pindex => { pindex with nLocks := pindex.nLocks + n }) }

/-- `BlockMap::lock`. -/
def lock (a : Nat) : LazyBlockMap := s.addLocks a 1

/-- `BlockMap::unlock`. -/
def unlock (a : Nat) : LazyBlockMap := s.addLocks a (-1)

/-- `BlockMap::prev`. -/
def prev (hash : Uint256) : Option Uint256 :=
  match (s.mapLoaded.find? hash).bind s.heap with
  | some pindex => pindex.entry.pprev
  | none => s.mapPrev hash

/-! ## Runs -/

/-- What the node does with the map and the database. -/
inductive Event where
  | lazyInsert (hash : Uint256)
  | insert (hash : Uint256) (pindexNew : CBlockIndex)
  /-- `find` or `operator[]` -/
  | find (hash : Uint256)
  | load (hash : Uint256)
  | loadFrom (hash : Uint256) (diskindex : CBlockIndex)
  | unload (hash : Uint256)
  | unloadIndex (a : Nat)
  | cleanup (nBestHeight : Int) (pindexGenesisBlock : Option Nat)
  | clear
  | lock (a : Nat)
  | unlock (a : Nat)
  | writeBlockIndex (hash : Uint256) (diskindex : CBlockIndex)
  | writeNext (hash : Uint256) (hashNext : Option Uint256)

/-- One step; an operation that throws leaves the map as it was. -/
def step : Event → LazyBlockMap
  | .lazyInsert hash => s.lazyInsert hash
  | .insert hash pindexNew => s.insert hash pindexNew
  | .find hash => match s.find hash with
    | .ok (s', _) => s'
    | .error _ => s
  | .load hash => match s.load hash with
    | .ok (s', _) => s'
    | .error _ => s
  | .loadFrom hash diskindex => (s.loadFrom hash diskindex).1
  | .unload hash => s.unload hash
  | .unloadIndex a => s.unloadIndex a
  | .cleanup nBestHeight pindexGenesisBlock => s.cleanup nBestHeight pindexGenesisBlock
  | .clear => s.clear
  | .lock a => s.lock a
  | .unlock a => s.unlock a
  | .writeBlockIndex hash diskindex => { s with records := Function.update s.records hash (some diskindex) }
  | .writeNext hash hashNext => { s with nextRecords := Function.update s.nextRecords hash hashNext }

/-- The hash that an event marks as known has a record. -/
def Recorded : Event → Prop
  | .lazyInsert hash | .insert hash _ | .loadFrom hash _ => (s.records hash).isSome = true
  | _ => True

/-! ## The picture of a plain map -/

/-- The hashes that the map knows. -/
def known : Set Uint256 := {hash | s.count hash = 1}

/-- The map looks like a plain map: what it finds is what it counts, what is loaded is counted, and the entry of a hash
points to it. -/
structure PlainMap : Prop where
  find_iff : ∀ h, (∃ s' a, s.find h = .ok (s', some a)) ↔ s.count h = 1
  known : ∀ h a, s.mapLoaded.find? h = some a → s.count h = 1
  key : ∀ h a, s.mapLoaded.find? h = some a → ∃ pindex, s.heap a = some pindex ∧ pindex.phashBlock = some h

/-- The keys of a plain map after an event. -/
def plainStep (known : Set Uint256) : Event → Set Uint256
  | .lazyInsert hash | .insert hash _ | .loadFrom hash _ => Insert.insert hash known
  | .load hash => if (s.records hash).isSome then Insert.insert hash known else known
  | .clear => ∅
  | _ => known

/-- The event locks or unlocks the object. -/
def Event.Locks (a : Nat) (e : Event) : Prop := e = .lock a ∨ e = .unlock a

/-- The event unloads entries. -/
def Event.Unloads : Event → Prop
  | .unload _ | .unloadIndex _ | .cleanup _ _ | .clear => True
  | _ => False

/-- What an event leaves of a loaded entry: the object with its key and data, and the locks but for the event's own;
only an entry without locks is unloaded, by an event that does so. -/
def KeepsObjects (e : Event) (s' : LazyBlockMap) : Prop :=
  ∀ h a pindex, s.mapLoaded.find? h = some a → s.heap a = some pindex →
    (s'.mapLoaded.find? h = some a ∧ ∃ pindex', s'.heap a = some pindex' ∧ pindex'.phashBlock = pindex.phashBlock ∧
      pindex'.entry = pindex.entry ∧ (pindex'.nLocks = pindex.nLocks ∨ e.Locks a)) ∨
    (e.Unloads ∧ pindex.nLocks = 0 ∧ s'.mapLoaded.find? h = none ∧ s'.heap a = none)

/-- The step is one of a plain map whose entries are objects. -/
structure Refines (e : Event) (s' : LazyBlockMap) : Prop where
  plain : s'.PlainMap
  known : s'.known = s.plainStep s.known e
  objects : s.KeepsObjects e s'

/-- The step does not clear the map while an entry is locked, and does not load an entry that is loaded. -/
def Safe : Event → Prop
  | .clear => ∀ h a pindex, s.mapLoaded.find? h = some a → s.heap a = some pindex → pindex.nLocks = 0
  | .load hash | .loadFrom hash _ => s.mapLoaded.find? hash = none
  | _ => True

/-- What holds of the map and the objects between two events. -/
structure Consistent : Prop where
  known : ∀ h a, s.mapLoaded.find? h = some a → s.setKnown h = true
  key : ∀ h a, s.mapLoaded.find? h = some a → ∃ pindex, s.heap a = some pindex ∧ pindex.phashBlock = some h
  recorded : ∀ h, s.setKnown h = true → (s.records h).isSome = true
  fresh : ∀ a pindex, s.heap a = some pindex → a < s.nNew

/-- What is loaded has its key. -/
def Keyed : Prop := ∀ h a, s.mapLoaded.find? h = some a → ∃ pindex, s.heap a = some pindex ∧ pindex.phashBlock = some h

section Find

variable {s}

theorem count_eq_one {h : Uint256} : s.count h = 1 ↔ s.setKnown h = true := by
  unfold count
  split <;> simp_all

/-- A loaded entry is found. -/
theorem find_of_loaded {h : Uint256} {a : Nat} (ha : s.mapLoaded.find? h = some a) : s.find h = .ok (s, some a) := by
  rw [find, ha]

/-- A known entry is loaded and found. -/
theorem find_of_known {h : Uint256} {diskindex : CBlockIndex} (ha : s.mapLoaded.find? h = none)
    (hknown : s.setKnown h = true) (hdisk : s.records h = some diskindex) :
    s.find h = .ok ((s.loadFrom h diskindex).1, some (s.loadFrom h diskindex).2) := by
  simp only [find, ha, if_pos hknown, load, hdisk]
  rfl

theorem find_of_unknown {h : Uint256} (ha : s.mapLoaded.find? h = none) (hknown : ¬ s.setKnown h = true) :
    s.find h = .ok (s, none) := by
  simp only [find, ha, if_neg hknown]

/-- What is found is loaded or known. -/
theorem find_isSome_iff (hrec : ∀ h, s.setKnown h = true → (s.records h).isSome = true) {h : Uint256} :
    (∃ s' a, s.find h = .ok (s', some a)) ↔ (∃ a, s.mapLoaded.find? h = some a) ∨ s.setKnown h = true := by
  cases ha : s.mapLoaded.find? h with
  | some a => exact iff_of_true ⟨s, a, find_of_loaded ha⟩ (.inl ⟨a, rfl⟩)
  | none =>
    by_cases hknown : s.setKnown h = true
    · obtain ⟨diskindex, hdisk⟩ := Option.isSome_iff_exists.mp (hrec h hknown)
      exact iff_of_true ⟨_, _, find_of_known ha hknown hdisk⟩ (.inr hknown)
    · rw [find_of_unknown ha hknown]
      refine iff_of_false ?_ ?_
      · rintro ⟨s', a, h⟩
        cases h
      · rintro (⟨a, h⟩ | h)
        · cases h
        · exact hknown h

/-- **A map with records for what it knows is a plain map** exactly when what is loaded is known and has its key. -/
theorem plainMap_iff (hrec : ∀ h, s.setKnown h = true → (s.records h).isSome = true) :
    s.PlainMap ↔ (∀ h a, s.mapLoaded.find? h = some a → s.setKnown h = true) ∧
      ∀ h a, s.mapLoaded.find? h = some a → ∃ pindex, s.heap a = some pindex ∧ pindex.phashBlock = some h := by
  constructor
  · exact fun h => ⟨fun x a ha => count_eq_one.mp (h.known x a ha), h.key⟩
  · rintro ⟨hknown, hkey⟩
    refine ⟨fun x => ?_, fun x a ha => count_eq_one.mpr (hknown x a ha), hkey⟩
    rw [find_isSome_iff hrec, count_eq_one]
    exact or_iff_right_of_imp fun ⟨a, ha⟩ => hknown x a ha

theorem Consistent.plainMap (h : s.Consistent) : s.PlainMap := (plainMap_iff h.recorded).mpr ⟨h.known, h.key⟩

end Find

/-! ## Unloading -/

/-- Entries without locks were taken away, and nothing else was done. -/
structure Shrinks (s' : LazyBlockMap) : Prop where
  known : s'.setKnown = s.setKnown
  records : s'.records = s.records
  next : s'.nNew = s.nNew
  loaded : ∀ h a, s'.mapLoaded.find? h = some a → s.mapLoaded.find? h = some a ∧ s'.heap a = s.heap a
  heap : ∀ a pindex, s'.heap a = some pindex → s.heap a = some pindex
  kept : ∀ h a pindex, s.mapLoaded.find? h = some a → s.heap a = some pindex →
    (s'.mapLoaded.find? h = some a ∧ s'.heap a = some pindex) ∨
      (pindex.nLocks = 0 ∧ s'.mapLoaded.find? h = none ∧ s'.heap a = none)

section Unload

variable {s} {s' s'' : LazyBlockMap}

theorem Shrinks.refl : s.Shrinks s :=
  ⟨rfl, rfl, rfl, fun _ _ h => ⟨h, rfl⟩, fun _ _ h => h, fun _ _ _ h hp => .inl ⟨h, hp⟩⟩

theorem Shrinks.trans (h : s.Shrinks s') (h' : s'.Shrinks s'') : s.Shrinks s'' := by
  refine ⟨h'.known.trans h.known, h'.records.trans h.records, h'.next.trans h.next, fun x a hx => ?_,
    fun a p hp => h.heap a p (h'.heap a p hp), fun x a p hx hp => ?_⟩
  · obtain ⟨hx', heap'⟩ := h'.loaded x a hx
    obtain ⟨hx, heap⟩ := h.loaded x a hx'
    exact ⟨hx, heap'.trans heap⟩
  · rcases h.kept x a p hx hp with ⟨hx', hp'⟩ | ⟨hlocks, hx', hp'⟩
    · exact h'.kept x a p hx' hp'
    · refine .inr ⟨hlocks, ?_, ?_⟩
      · cases hx'' : s''.mapLoaded.find? x with
        | none => rfl
        | some b =>
          rw [(h'.loaded x b hx'').1] at hx'
          cases hx'
      · cases hp'' : s''.heap a with
        | none => rfl
        | some q =>
          rw [h'.heap a q hp''] at hp'
          cases hp'

/-- What is left of a consistent map is consistent. -/
theorem Shrinks.consistent (h : s.Shrinks s') (hs : s.Consistent) : s'.Consistent := by
  refine ⟨fun x a hx => ?_, fun x a hx => ?_, fun x hx => ?_, fun a p hp => ?_⟩
  · rw [h.known]
    exact hs.known x a (h.loaded x a hx).1
  · obtain ⟨hx', heap⟩ := h.loaded x a hx
    rw [heap]
    exact hs.key x a hx'
  · rw [h.records]
    exact hs.recorded x (h.known ▸ hx)
  · rw [h.next]
    exact hs.fresh a p (h.heap a p hp)

theorem Shrinks.keyed (h : s.Shrinks s') (hs : s.Keyed) : s'.Keyed := by
  intro x a hx
  obtain ⟨hx', heap⟩ := h.loaded x a hx
  rw [heap]
  exact hs x a hx'

/-- **Unloading an entry** takes it away when it has no locks. -/
theorem shrinks_unload (hs : s.Keyed) (hash : Uint256) : s.Shrinks (s.unload hash) ∧
    ∀ a pindex, s.mapLoaded.find? hash = some a → s.heap a = some pindex → pindex.nLocks = 0 →
      (s.unload hash).mapLoaded.find? hash = none := by
  unfold unload
  cases hload : s.mapLoaded.find? hash with
  | none => exact ⟨.refl, fun _ _ h => absurd h nofun⟩
  | some a =>
    obtain ⟨pindex, hp, hkey⟩ := hs hash a hload
    simp only [hp, hkey]
    by_cases hlocks : pindex.nLocks = 0
    swap
    · rw [if_pos hlocks]
      refine ⟨.refl, fun b q hb hq hzero => absurd ?_ hlocks⟩
      cases hb
      rw [hp, Option.some.injEq] at hq
      rw [hq]
      exact hzero
    rw [if_neg (not_not.mpr hlocks)]
    -- no other entry is at the address
    have hother : ∀ h b, h ≠ hash → s.mapLoaded.find? h = some b → b ≠ a := by
      rintro h b hne hb rfl
      obtain ⟨q, hq, hqkey⟩ := hs h b hb
      rw [hp, Option.some.injEq] at hq
      rw [← hq, hkey, Option.some.injEq] at hqkey
      exact hne hqkey.symm
    refine ⟨⟨rfl, rfl, rfl, fun x b hb => ?_, fun b q hq => ?_, fun x b q hb hq => ?_⟩, fun _ _ _ _ _ => ?_⟩
    · simp only [Store.find?_erase] at hb
      split at hb
      · cases hb
      · rename_i hne
        exact ⟨hb, Function.update_of_ne (hother x b hne hb) _ _⟩
    · replace hq : Function.update s.heap a none b = some q := hq
      by_cases hb : b = a
      · rw [hb, Function.update_self] at hq
        cases hq
      · rwa [Function.update_of_ne hb] at hq
    · by_cases hx : x = hash
      · subst hx
        rw [hload, Option.some.injEq] at hb
        subst hb
        rw [hp, Option.some.injEq] at hq
        subst hq
        exact .inr ⟨hlocks, by rw [Store.find?_erase, if_pos rfl], Function.update_self _ _ _⟩
      · refine .inl ⟨by rw [Store.find?_erase, if_neg hx, hb], ?_⟩
        show Function.update s.heap a none b = some q
        rw [Function.update_of_ne (hother x b hx hb), hq]
    · rw [Store.find?_erase, if_pos rfl]

/-- Unloading an entry leaves the others. -/
theorem find?_unload_of_ne (hs : s.Keyed) {hash h : Uint256} (hne : hash ≠ h) :
    (s.unload hash).mapLoaded.find? h = s.mapLoaded.find? h := by
  unfold unload
  cases hload : s.mapLoaded.find? hash with
  | none => rfl
  | some a =>
    obtain ⟨pindex, hp, hkey⟩ := hs hash a hload
    simp only [hp, hkey]
    split
    · rfl
    · exact (Store.find?_erase _ _ _).trans (if_neg (Ne.symm hne))

/-- Unloading several entries. -/
theorem shrinks_unloadWhere (fUnload : LazyBlockMap → Nat → Bool) : ∀ (l : List (Uint256 × Nat)) {s : LazyBlockMap},
    s.Keyed → s.Shrinks (unloadWhere fUnload s l)
  | [], _, _ => .refl
  | (hash, a) :: rest, s, hs => by
    have hfirst : s.Shrinks (if fUnload s a then s.unload hash else s) := by
      split
      · exact (shrinks_unload hs hash).1
      · exact .refl
    exact hfirst.trans (shrinks_unloadWhere fUnload rest (hfirst.keyed hs))

theorem nextRecords_unload (s : LazyBlockMap) (hash : Uint256) : (s.unload hash).nextRecords = s.nextRecords := by
  unfold unload
  split
  · rfl
  split
  · rfl
  split
  · rfl
  split <;> rfl

theorem nextRecords_unloadWhere (fUnload : LazyBlockMap → Nat → Bool) : ∀ (l : List (Uint256 × Nat)) {s : LazyBlockMap},
    (unloadWhere fUnload s l).nextRecords = s.nextRecords
  | [], _ => rfl
  | (hash, a) :: rest, s => by
    refine (nextRecords_unloadWhere fUnload rest).trans ?_
    split
    · exact nextRecords_unload s hash
    · rfl

/-- An entry without locks that meets the test is unloaded. -/
theorem unloadWhere_gone {fUnload : LazyBlockMap → Nat → Bool} {h : Uint256} {a : Nat} {pindex : IndexObject}
    (htest : ∀ t : LazyBlockMap, t.heap a = some pindex → fUnload t a = true) (hlocks : pindex.nLocks = 0) :
    ∀ (l : List (Uint256 × Nat)) {s : LazyBlockMap}, s.Keyed → (h, a) ∈ l → s.mapLoaded.find? h = some a →
      s.heap a = some pindex → (unloadWhere fUnload s l).mapLoaded.find? h = none
  | [], _, _ => fun hmem => absurd hmem List.not_mem_nil
  | (hash, b) :: rest, s, hs => by
    intro hmem hload hp
    have hstep : s.Shrinks (if fUnload s b then s.unload hash else s) := by
      split
      · exact (shrinks_unload hs hash).1
      · exact .refl
    have hs' := hstep.keyed hs
    have hstay : ∀ t : LazyBlockMap, (if fUnload s b then s.unload hash else s).Shrinks t →
        (if fUnload s b then s.unload hash else s).mapLoaded.find? h = none → t.mapLoaded.find? h = none := by
      intro t ht hnone
      cases hx : t.mapLoaded.find? h with
      | none => rfl
      | some c =>
        rw [(ht.loaded h c hx).1] at hnone
        cases hnone
    have hrest := shrinks_unloadWhere fUnload rest hs'
    show (unloadWhere fUnload (if fUnload s b then s.unload hash else s) rest).mapLoaded.find? h = none
    rcases hstep.kept h a pindex hload hp with ⟨hload', hp'⟩ | ⟨-, hnone, -⟩
    · rcases List.mem_cons.mp hmem with heq | hmem
      · cases heq
        refine hstay _ hrest ?_
        rw [if_pos (htest s hp)]
        exact (shrinks_unload hs h).2 a pindex hload hp hlocks
      · exact unloadWhere_gone htest hlocks rest hs' hmem hload' hp'
    · exact hstay _ hrest hnone

/-- An entry that does not meet the test stays. -/
theorem unloadWhere_stays {fUnload : LazyBlockMap → Nat → Bool} {h : Uint256} {a : Nat} {pindex : IndexObject}
    (htest : ∀ t : LazyBlockMap, t.heap a = some pindex → fUnload t a = false) :
    ∀ (l : List (Uint256 × Nat)) {s : LazyBlockMap}, s.Keyed → (∀ e ∈ l, e.1 = h → e.2 = a) →
      s.mapLoaded.find? h = some a → s.heap a = some pindex →
        (unloadWhere fUnload s l).mapLoaded.find? h = some a ∧ (unloadWhere fUnload s l).heap a = some pindex
  | [], _, _ => fun _ hload hp => ⟨hload, hp⟩
  | (hash, b) :: rest, s, hs => by
    intro hmem hload hp
    have hstep : s.Shrinks (if fUnload s b then s.unload hash else s) := by
      split
      · exact (shrinks_unload hs hash).1
      · exact .refl
    show (unloadWhere fUnload (if fUnload s b then s.unload hash else s) rest).mapLoaded.find? h = some a ∧
      (unloadWhere fUnload (if fUnload s b then s.unload hash else s) rest).heap a = some pindex
    have hkeep : (if fUnload s b then s.unload hash else s).mapLoaded.find? h = some a ∧
        (if fUnload s b then s.unload hash else s).heap a = some pindex := by
      by_cases hh : hash = h
      · obtain rfl : b = a := hmem _ List.mem_cons_self hh
        rw [htest s hp]
        exact ⟨hload, hp⟩
      · refine (hstep.kept h a pindex hload hp).resolve_right ?_
        rintro ⟨-, hnone, -⟩
        split at hnone
        · rw [find?_unload_of_ne hs hh, hload] at hnone
          cases hnone
        · rw [hload] at hnone
          cases hnone
    exact unloadWhere_stays htest rest (hstep.keyed hs) (fun e he => hmem e (List.mem_cons_of_mem _ he)) hkeep.1 hkeep.2

/-- **`clear`** is right exactly when no entry is locked. -/
theorem clear_consistent_iff (hs : s.Consistent) : s.clear.PlainMap ↔ s.Safe .clear := by
  have hshrinks := shrinks_unloadWhere (fun _ _ => true) s.mapLoaded.entries hs.key
  have hload : s.clear.mapLoaded = (unloadWhere (fun _ _ => true) s s.mapLoaded.entries).mapLoaded := rfl
  constructor
  · intro h x a pindex hx hp
    rcases hshrinks.kept x a pindex hx hp with ⟨hx', -⟩ | ⟨hlocks, -⟩
    · have hknown := count_eq_one.mp (h.known x a (hload ▸ hx'))
      cases hknown
    · exact hlocks
  · intro hsafe
    have hempty : ∀ x a, s.clear.mapLoaded.find? x ≠ some a := by
      intro x a hx
      rw [hload] at hx
      obtain ⟨hx', -⟩ := hshrinks.loaded x a hx
      obtain ⟨pindex, hp, -⟩ := hs.key x a hx'
      rw [unloadWhere_gone (fun _ _ => rfl) (hsafe x a pindex hx' hp) _ hs.key (Store.find?_eq_some.mp hx') hx' hp] at hx
      cases hx
    refine (plainMap_iff (s := s.clear) fun x hx => absurd hx Bool.false_ne_true).mpr ⟨fun x a hx => ?_,
      fun x a hx => ?_⟩
    · exact absurd hx (hempty x a)
    · exact absurd hx (hempty x a)

end Unload

/-! ## Loading and inserting -/

/-- All loaded entries are there with their objects. -/
def Keeps (s' : LazyBlockMap) : Prop :=
  ∀ h a pindex, s.mapLoaded.find? h = some a → s.heap a = some pindex →
    s'.mapLoaded.find? h = some a ∧ s'.heap a = some pindex

section Load

variable {s} {s' : LazyBlockMap} {hash : Uint256}

theorem Keeps.keepsObjects (h : s.Keeps s') (e : Event) : s.KeepsObjects e s' := by
  intro x a pindex hx hp
  obtain ⟨hx', hp'⟩ := h x a pindex hx hp
  exact .inl ⟨hx', pindex, hp', rfl, rfl, .inl rfl⟩

theorem Shrinks.keepsObjects (h : s.Shrinks s') {e : Event} (he : e.Unloads) : s.KeepsObjects e s' := by
  intro x a pindex hx hp
  rcases h.kept x a pindex hx hp with ⟨hx', hp'⟩ | hgone
  · exact .inl ⟨hx', pindex, hp', rfl, rfl, .inl rfl⟩
  · exact .inr ⟨he, hgone⟩

/-- A hash is marked as known, and a new object is allocated for it; it is loaded, unless an entry of the hash was. -/
theorem Consistent.allocate (hs : s.Consistent) (pindexNew : IndexObject) (mapPrev : Uint256 → Option Uint256)
    (mapLoaded : Store Uint256 Nat) (hkey : pindexNew.phashBlock = some hash) (hrec : (s.records hash).isSome = true)
    (hload : mapLoaded = s.mapLoaded.insert hash s.nNew ∧ s.mapLoaded.find? hash = none ∨ mapLoaded = s.mapLoaded)
    (hs' : s' = { s with
      setKnown := Function.update s.setKnown hash true
      mapPrev := mapPrev
      mapLoaded := mapLoaded
      heap := Function.update s.heap s.nNew (some pindexNew)
      nNew := s.nNew + 1 }) :
    s'.Consistent ∧ s.Keeps s' := by
  subst hs'
  have hold : ∀ a pindex, s.heap a = some pindex → Function.update s.heap s.nNew (some pindexNew) a = some pindex := by
    intro a pindex hp
    rw [Function.update_of_ne (Nat.ne_of_lt (hs.fresh a pindex hp)), hp]
  have hfind : ∀ h a, mapLoaded.find? h = some a → s.mapLoaded.find? h = some a ∨ h = hash ∧ a = s.nNew := by
    intro h a ha
    rcases hload with ⟨rfl, -⟩ | rfl
    · rw [Store.find?_insert] at ha
      split at ha
      · exact .inr ⟨‹_›, (Option.some.inj ha).symm⟩
      · exact .inl ha
    · exact .inl ha
  refine ⟨⟨fun h a ha => ?_, fun h a ha => ?_, fun h hh => ?_, fun a pindex hp => ?_⟩, fun h a pindex ha hp => ?_⟩
  · show Function.update s.setKnown hash true h = true
    by_cases hh : h = hash
    · rw [hh, Function.update_self]
    · rw [Function.update_of_ne hh]
      exact hs.known h a ((hfind h a ha).resolve_right fun heq => hh heq.1)
  · rcases hfind h a ha with ha | ⟨rfl, rfl⟩
    · obtain ⟨pindex, hp, hpkey⟩ := hs.key h a ha
      exact ⟨pindex, hold a pindex hp, hpkey⟩
    · exact ⟨pindexNew, Function.update_self _ _ _, hkey⟩
  · show (s.records h).isSome = true
    by_cases hh' : h = hash
    · rw [hh', hrec]
    · exact hs.recorded h ((Function.update_of_ne hh' _ _).symm.trans hh)
  · show a < s.nNew + 1
    by_cases ha : a = s.nNew
    · omega
    · have hp' : s.heap a = some pindex := (Function.update_of_ne ha _ _).symm.trans hp
      exact Nat.lt_succ_of_lt (hs.fresh a pindex hp')
  · refine ⟨?_, hold a pindex hp⟩
    show mapLoaded.find? h = some a
    rcases hload with ⟨rfl, hnew⟩ | rfl
    · rw [Store.find?_insert, if_neg, ha]
      rintro rfl
      rw [hnew] at ha
      cases ha
    · exact ha

/-- **A record that is loaded** for a hash that is not. -/
theorem Consistent.loadFrom (hs : s.Consistent) (hnew : s.mapLoaded.find? hash = none)
    (hrec : (s.records hash).isSome = true) (diskindex : CBlockIndex) :
    (s.loadFrom hash diskindex).1.Consistent ∧ s.Keeps (s.loadFrom hash diskindex).1 := by
  refine hs.allocate { phashBlock := some hash, entry := CBlockIndex.ofDisk diskindex (s.nextRecords hash) }
    (Function.update s.mapPrev hash none) _ rfl hrec (.inl ⟨rfl, hnew⟩) ?_
  simp only [LazyBlockMap.loadFrom, hnew]

/-- **A new entry.** -/
theorem Consistent.insert (hs : s.Consistent) (hrec : (s.records hash).isSome = true) (pindexNew : CBlockIndex) :
    (s.insert hash pindexNew).Consistent ∧ s.Keeps (s.insert hash pindexNew) := by
  refine hs.allocate { phashBlock := some hash, entry := pindexNew } s.mapPrev
    (if (s.mapLoaded.find? hash).isSome then s.mapLoaded else s.mapLoaded.insert hash s.nNew) rfl hrec ?_ rfl
  split
  · exact .inr rfl
  · rename_i hload
    exact .inl ⟨rfl, Option.not_isSome_iff_eq_none.mp hload⟩

/-- A lookup that throws leaves the map as it is. -/
theorem step_find_eq (hash : Uint256) : s.step (.find hash) = match s.find hash with
    | .ok (s', _) => s'
    | .error _ => s := rfl

/-- What `find` does to the map: nothing, or it loads the entry of a known hash. -/
theorem find_effect (hs : s.Consistent) (hash : Uint256) : s.step (.find hash) = s ∨
    s.mapLoaded.find? hash = none ∧ s.setKnown hash = true ∧
      ∃ diskindex, s.step (.find hash) = (s.loadFrom hash diskindex).1 := by
  rw [step_find_eq]
  cases ha : s.mapLoaded.find? hash with
  | some a =>
    rw [find_of_loaded ha]
    exact .inl rfl
  | none =>
    by_cases hknown : s.setKnown hash = true
    · obtain ⟨diskindex, hdisk⟩ := Option.isSome_iff_exists.mp (hs.recorded hash hknown)
      refine .inr ⟨rfl, hknown, diskindex, ?_⟩
      rw [find_of_known ha hknown hdisk]
    · rw [find_of_unknown ha hknown]
      exact .inl rfl

/-- **An entry that is loaded again** loses its key. -/
theorem loadFrom_again {a : Nat} (hload : s.mapLoaded.find? hash = some a) (diskindex : CBlockIndex) :
    ¬ (s.loadFrom hash diskindex).1.PlainMap := by
  intro h
  have hkey := h.key hash a
  unfold LazyBlockMap.loadFrom at hkey
  simp only [hload] at hkey
  obtain ⟨pindex, hp, hpkey⟩ := hkey trivial
  rw [Function.update_self, Option.some.injEq] at hp
  rw [← hp] at hpkey
  cases hpkey

/-- Locks change nothing else. -/
theorem Consistent.addLocks (hs : s.Consistent) (a : Nat) (n : Int) : (s.addLocks a n).Consistent ∧
    ∀ h b pindex, s.mapLoaded.find? h = some b → s.heap b = some pindex → ∃ pindex',
      (s.addLocks a n).heap b = some pindex' ∧ pindex'.phashBlock = pindex.phashBlock ∧ pindex'.entry = pindex.entry ∧
        (pindex'.nLocks = pindex.nLocks ∨ b = a) := by
  have hheap : ∀ b pindex, s.heap b = some pindex → ∃ pindex', (s.addLocks a n).heap b = some pindex' ∧
      pindex'.phashBlock = pindex.phashBlock ∧ pindex'.entry = pindex.entry ∧
        (pindex'.nLocks = pindex.nLocks ∨ b = a) := by
    intro b pindex hp
    by_cases hb : b = a
    · subst hb
      refine ⟨{ pindex with nLocks := pindex.nLocks + n }, ?_, rfl, rfl, .inr rfl⟩
      show Function.update s.heap b _ b = _
      rw [Function.update_self, hp]
      rfl
    · refine ⟨pindex, ?_, rfl, rfl, .inl rfl⟩
      show Function.update s.heap a _ b = _
      rw [Function.update_of_ne hb, hp]
  refine ⟨⟨hs.known, fun h b hb => ?_, hs.recorded, fun b pindex hp => ?_⟩, fun h b pindex _ hp => hheap b pindex hp⟩
  · obtain ⟨pindex, hp, hkey⟩ := hs.key h b hb
    obtain ⟨pindex', hp', hkey', -⟩ := hheap b pindex hp
    exact ⟨pindex', hp', hkey'.trans hkey⟩
  · replace hp : Function.update s.heap a ((s.heap a).map fun q => { q with nLocks := q.nLocks + n }) b =
      some pindex := hp
    show b < s.nNew
    by_cases hb : b = a
    · subst hb
      rw [Function.update_self, Option.map_eq_some_iff] at hp
      obtain ⟨q, hq, -⟩ := hp
      exact hs.fresh b q hq
    · rw [Function.update_of_ne hb] at hp
      exact hs.fresh b pindex hp

end Load

/-! ## Every step -/

section Step

variable {s} {e : Event}

theorem step_load_none {hash : Uint256} (hdisk : s.records hash = none) : s.step (.load hash) = s := by
  simp only [step, load, hdisk]

theorem step_load_some {hash : Uint256} {diskindex : CBlockIndex} (hdisk : s.records hash = some diskindex) :
    s.step (.load hash) = (s.loadFrom hash diskindex).1 := by
  simp only [step, load, hdisk]

/-- An entry is unloaded by its hash. -/
theorem unloadIndex_cases (a : Nat) : s.unloadIndex a = s ∨ ∃ hash, s.unloadIndex a = s.unload hash := by
  unfold unloadIndex
  cases (s.heap a).bind (·.phashBlock) with
  | none => exact .inl rfl
  | some hash => exact .inr ⟨hash, rfl⟩

/-- **What each step does to the known hashes.** -/
theorem known_step (hs : s.Consistent) (e : Event) : (s.step e).known = s.plainStep s.known e := by
  have hadd : ∀ (t : LazyBlockMap) (hash : Uint256), t.setKnown = Function.update s.setKnown hash true →
      t.known = Insert.insert hash s.known := by
    intro t hash ht
    ext x
    show t.count x = 1 ↔ x = hash ∨ s.count x = 1
    rw [count_eq_one, count_eq_one, ht]
    by_cases hx : x = hash
    · simp [hx]
    · simp [hx]
  have hsame : ∀ t : LazyBlockMap, t.setKnown = s.setKnown → t.known = s.known := by
    intro t ht
    ext x
    show t.count x = 1 ↔ s.count x = 1
    rw [count_eq_one, count_eq_one, ht]
  have hfrom : ∀ hash diskindex, (s.loadFrom hash diskindex).1.setKnown = Function.update s.setKnown hash true := by
    intro hash diskindex
    simp only [loadFrom]
    split <;> rfl
  cases e with
  | lazyInsert hash => exact hadd _ hash rfl
  | insert hash pindexNew => exact hadd _ hash rfl
  | find hash =>
    refine hsame _ ?_
    rcases find_effect hs hash with heq | ⟨-, hknown, diskindex, heq⟩
    · rw [heq]
    · rw [heq, hfrom, Function.update_eq_self_iff.mpr hknown.symm]
  | load hash =>
    show _ = if (s.records hash).isSome then Insert.insert hash s.known else s.known
    cases hdisk : s.records hash with
    | none =>
      rw [step_load_none hdisk]
      rfl
    | some diskindex =>
      rw [step_load_some hdisk]
      exact hadd _ hash (hfrom hash diskindex)
  | loadFrom hash diskindex => exact hadd _ hash (hfrom hash diskindex)
  | unload hash => exact hsame _ (shrinks_unload hs.key hash).1.known
  | unloadIndex a =>
    refine hsame _ ?_
    show (s.unloadIndex a).setKnown = s.setKnown
    rcases unloadIndex_cases (s := s) a with heq | ⟨hash, heq⟩
    · rw [heq]
    · rw [heq, (shrinks_unload hs.key hash).1.known]
  | cleanup nBestHeight pindexGenesisBlock => exact hsame _ (shrinks_unloadWhere _ _ hs.key).known
  | clear =>
    ext x
    exact iff_of_false (fun h => Bool.false_ne_true (count_eq_one.mp h)) id
  | lock a => exact hsame _ rfl
  | unlock a => exact hsame _ rfl
  | writeBlockIndex hash diskindex => exact hsame _ rfl
  | writeNext hash hashNext => exact hsame _ rfl

/-- **What a step that is safe leaves.** -/
theorem keepsObjects_step (hs : s.Consistent) (hrec : s.Recorded e) (hsafe : s.Safe e) :
    (s.step e).Consistent ∧ s.KeepsObjects e (s.step e) := by
  have hlocks : ∀ a n, s.KeepsObjects (if n = (1 : Int) then .lock a else .unlock a) (s.addLocks a n) := by
    intro a n x b pindex hx hp
    obtain ⟨pindex', hp', hkey, hentry, hn⟩ := (hs.addLocks a n).2 x b pindex hx hp
    refine .inl ⟨hx, pindex', hp', hkey, hentry, hn.imp_right ?_⟩
    rintro rfl
    split
    · exact .inl rfl
    · exact .inr rfl
  have hkept : ∀ t : LazyBlockMap, t.Consistent ∧ s.Keeps t → t.Consistent ∧ s.KeepsObjects e t :=
    fun t ht => ⟨ht.1, ht.2.keepsObjects e⟩
  have hself : s.Keeps s := fun _ _ _ hx hp => ⟨hx, hp⟩
  cases e with
  | lazyInsert hash =>
    refine hkept _ ⟨⟨fun x a hx => ?_, hs.key, fun x hx => ?_, hs.fresh⟩, hself⟩
    · show Function.update s.setKnown hash true x = true
      by_cases hxh : x = hash
      · rw [hxh, Function.update_self]
      · rw [Function.update_of_ne hxh]
        exact hs.known x a hx
    · by_cases hxh : x = hash
      · rw [hxh]
        exact hrec
      · exact hs.recorded x ((Function.update_of_ne hxh _ _).symm.trans hx)
  | insert hash pindexNew => exact hkept _ (hs.insert hrec pindexNew)
  | find hash =>
    refine hkept _ ?_
    rcases find_effect hs hash with heq | ⟨hnew, hknown, diskindex, heq⟩
    · rw [heq]
      exact ⟨hs, hself⟩
    · rw [heq]
      exact hs.loadFrom hnew (hs.recorded hash hknown) diskindex
  | load hash =>
    refine hkept _ ?_
    cases hdisk : s.records hash with
    | none =>
      rw [step_load_none hdisk]
      exact ⟨hs, hself⟩
    | some diskindex =>
      rw [step_load_some hdisk]
      exact hs.loadFrom hsafe (by rw [hdisk]; rfl) diskindex
  | loadFrom hash diskindex => exact hkept _ (hs.loadFrom hsafe hrec diskindex)
  | unload hash =>
    obtain ⟨hshrinks, -⟩ := shrinks_unload hs.key hash
    exact ⟨hshrinks.consistent hs, hshrinks.keepsObjects trivial⟩
  | unloadIndex a =>
    show (s.unloadIndex a).Consistent ∧ s.KeepsObjects _ (s.unloadIndex a)
    rcases unloadIndex_cases (s := s) a with heq | ⟨hash, heq⟩
    · rw [heq]
      exact ⟨hs, Keeps.keepsObjects hself _⟩
    · rw [heq]
      obtain ⟨hshrinks, -⟩ := shrinks_unload hs.key hash
      exact ⟨hshrinks.consistent hs, hshrinks.keepsObjects trivial⟩
  | cleanup nBestHeight pindexGenesisBlock =>
    have hshrinks : s.Shrinks (s.cleanup nBestHeight pindexGenesisBlock) := shrinks_unloadWhere _ _ hs.key
    exact ⟨hshrinks.consistent hs, hshrinks.keepsObjects trivial⟩
  | clear =>
    have hshrinks := shrinks_unloadWhere (fun _ _ => true) s.mapLoaded.entries hs.key
    have hplain := (clear_consistent_iff hs).mpr hsafe
    refine ⟨⟨fun x a hx => count_eq_one.mp (hplain.known x a hx), hplain.key, fun x hx => absurd hx Bool.false_ne_true,
      fun a pindex hp => ?_⟩, fun x a pindex hx hp => ?_⟩
    · rw [show s.step .clear = s.clear from rfl, show s.clear.nNew = s.nNew from hshrinks.next]
      exact hs.fresh a pindex (hshrinks.heap a pindex hp)
    · have hkeeps : s.KeepsObjects .clear _ := hshrinks.keepsObjects trivial
      exact hkeeps x a pindex hx hp
  | lock a => exact ⟨(hs.addLocks a 1).1, hlocks a 1⟩
  | unlock a => exact ⟨(hs.addLocks a (-1)).1, hlocks a (-1)⟩
  | writeBlockIndex hash diskindex =>
    refine hkept _ ⟨⟨hs.known, hs.key, fun x hx => ?_, hs.fresh⟩, hself⟩
    show (Function.update s.records hash (some diskindex) x).isSome = true
    by_cases hxh : x = hash
    · rw [hxh, Function.update_self]
      rfl
    · rw [Function.update_of_ne hxh]
      exact hs.recorded x hx
  | writeNext hash hashNext => exact hkept _ ⟨⟨hs.known, hs.key, hs.recorded, hs.fresh⟩, hself⟩

/-- **When a step keeps the picture of a plain map.** -/
theorem plainMap_step_iff (hs : s.Consistent) (hrec : s.Recorded e) : s.Safe e ↔ s.Refines e (s.step e) := by
  constructor
  · intro hsafe
    obtain ⟨hs', hobjects⟩ := keepsObjects_step hs hrec hsafe
    exact ⟨hs'.plainMap, known_step hs e, hobjects⟩
  · intro h
    have hplain := h.plain
    cases e with
    | clear => exact (clear_consistent_iff hs).mp hplain
    | load hash =>
      show s.mapLoaded.find? hash = none
      by_contra hne
      obtain ⟨a, ha⟩ := Option.ne_none_iff_exists'.mp hne
      obtain ⟨diskindex, hdisk⟩ := Option.isSome_iff_exists.mp (hs.recorded hash (hs.known hash a ha))
      rw [step_load_some hdisk] at hplain
      exact loadFrom_again ha diskindex hplain
    | loadFrom hash diskindex =>
      show s.mapLoaded.find? hash = none
      by_contra hne
      obtain ⟨a, ha⟩ := Option.ne_none_iff_exists'.mp hne
      exact loadFrom_again ha diskindex hplain
    | _ => exact trivial

end Step

/-- **When `BlockMap` refines a plain map**: in a run whose hashes have records when they are marked as known, every
step is one of a plain map whose entries are objects exactly when no step clears the map while an entry is locked, or
loads an entry that is loaded. -/
theorem blockMap_refines_iff {s : LazyBlockMap} {es : List Event} (hs : s.Consistent)
    (hrec : Run.Meets step Recorded s es) :
    Run.Meets step (fun s e => s.Refines e (s.step e)) s es ↔ Run.Meets step Safe s es := by
  have hiff : ∀ (s : LazyBlockMap) (e : Event), s.Consistent → s.Recorded e → (s.Safe e ↔ s.Refines e (s.step e)) :=
    fun _ _ hs hrec => plainMap_step_iff hs hrec
  have hstep : ∀ (s : LazyBlockMap) (e : Event), s.Consistent → s.Recorded e → s.Safe e → (s.step e).Consistent :=
    fun _ _ hs hrec hsafe => (keepsObjects_step hs hrec hsafe).1
  exact Run.meets_iff_of_inv hiff hstep hs hrec

/-! ## A map that is cleared -/

/-- A map without entries, and a database with the record of the genesis block. -/
def emptyMap : LazyBlockMap where
  records h := if h = hashGenesisBlockOfficial then some {} else none

theorem emptyMap_consistent : emptyMap.Consistent where
  known _ _ h := by
    cases h
  key _ _ h := by
    cases h
  recorded _ h := by
    cases h
  fresh _ _ h := by
    cases h

/-- The genesis block is inserted, and locked as `pindexGenesisBlock` and as `pindexBest`. -/
def genesisEvents : List Event := [.insert hashGenesisBlockOfficial {}, .lock 0, .lock 0]

/-- `UnloadBlockIndex`, and `LoadBlockIndexGuts` for the record of the genesis block. -/
def reloadEvents : List Event := [.clear, .unlock 0, .unlock 0, .loadFrom hashGenesisBlockOfficial {}]

/-- **A locked entry survives `clear` as one that is not counted, and is then loaded over**: after `clear` the genesis
block is found but not counted, and once it is loaded again its object has no key. -/
theorem cleared_entry_found :
    Run.Meets step Recorded emptyMap (genesisEvents ++ reloadEvents) ∧
    (∃ s', (Run.exec step emptyMap (genesisEvents ++ [.clear])).find hashGenesisBlockOfficial = .ok (s', some 0)) ∧
    (Run.exec step emptyMap (genesisEvents ++ [.clear])).count hashGenesisBlockOfficial = 0 ∧
    ((Run.exec step emptyMap (genesisEvents ++ reloadEvents)).mapLoaded.find? hashGenesisBlockOfficial = some 0 ∧
      ((Run.exec step emptyMap (genesisEvents ++ reloadEvents)).heap 0).map (·.phashBlock) = some none) ∧
    ¬ Run.Meets step (fun s e => s.Refines e (s.step e)) emptyMap (genesisEvents ++ reloadEvents) := by
  have hload : (Run.exec step emptyMap (genesisEvents ++ [.clear])).mapLoaded.find? hashGenesisBlockOfficial =
    some 0 := by
    decide +kernel
  have hcount : (Run.exec step emptyMap (genesisEvents ++ [.clear])).count hashGenesisBlockOfficial = 0 := by
    decide +kernel
  refine ⟨⟨rfl, trivial, trivial, trivial, trivial, trivial, rfl, trivial⟩, ⟨_, find_of_loaded hload⟩, hcount,
    by decide +kernel, fun h => ?_⟩
  have hknown := h.2.2.2.1.plain.known _ _ hload
  exact absurd (hcount.symm.trans hknown) nofun

/-- An entry is loaded on demand, locked, unlocked and unloaded. -/
theorem blockMap_refines_sample :
    Run.Meets step (fun s e => s.Refines e (s.step e)) emptyMap (genesisEvents ++
        [.cleanup 20000 none, .unlock 0, .unlock 0, .unload hashGenesisBlockOfficial, .find hashGenesisBlockOfficial]) ↔
      Run.Meets step Safe emptyMap (genesisEvents ++
        [.cleanup 20000 none, .unlock 0, .unlock 0, .unload hashGenesisBlockOfficial, .find hashGenesisBlockOfficial]) :=
  blockMap_refines_iff emptyMap_consistent ⟨rfl, trivial, trivial, trivial, trivial, trivial, trivial, trivial, trivial⟩

end LazyBlockMap

end Morcochain
