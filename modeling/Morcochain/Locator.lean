import Morcochain.CoinStake
import Morcochain.LazyIndex

/-!
# Block locators

`CBlockLocator` (`main.h`): a block is described by its own hash and those of ancestors farther and farther back, found
through `BlockMap::prev`, with the genesis block at the end. `Set` doubles its step by the number of entries, and
`GetDistanceBack` by the distance that it has come.

* `back_succ`, `stride_succ`, `ten_lt_back` : **the two counters agree** at every entry.
* `Follows.step`, `prev_step` : what a step of the map does to the predecessors that it tells.
* `set_spec` : the entries that `Set` lists.
* `distanceLoop_spec` : how far back `GetDistanceBack` goes.
* `locator_law` : both, for every history of two nodes with blocks of one tree.
-/

set_option autoImplicit false

namespace Morcochain

open OrderedStore

/-! ## The code -/

namespace LazyBlockMap

variable (s : LazyBlockMap)

/-- `phash = mapBlockIndex.prev(*phash)`, so many times or until `phash` is `NULL`. -/
def stepBack : Nat → Option Uint256 → Option Uint256
  | 0, phash => phash
  | _ + 1, none => none
  | n + 1, some hash => stepBack n (s.prev hash)

/-- `CBlockIndex::IsInMainChain`, of the object at an address. Reading `pnext` loads the next block. -/
def isInMainChain (pindexBest : Option Nat) (a : Nat) : Check (LazyBlockMap × Bool) :=
  match (s.heap a).bind (·.entry.pnext) with
  | none => .ok (s, pindexBest = some a)
  | some hashNext => do
    let (s, pnext) ← s.find hashNext
    return (s, pnext.isSome || pindexBest = some a)

/-- The test of a hash: it is found, and in the main chain. -/
def findInMainChain (pindexBest : Option Nat) (hash : Uint256) : Check (LazyBlockMap × Bool) := do
  let (s, mi) ← s.find hash
  match mi with
  | none => return (s, false)
  | some pindex => s.isInMainChain pindexBest pindex

end LazyBlockMap

/-- `CBlockLocator`. -/
structure CBlockLocator where
  vHave : List Uint256 := []
deriving DecidableEq, Repr

namespace CBlockLocator

/-- The loop of `Set`, for at most `fuel` entries. -/
def setLoop (s : LazyBlockMap) : Nat → List Uint256 → Int → Option Uint256 → Option (List Uint256)
  | _, vHave, _, none => some vHave
  | 0, _, _, some _ => none
  | fuel + 1, vHave, nStep, some hash =>
    let vHave := vHave ++ [hash]
    -- exponentially larger steps back
    let phash := s.stepBack nStep.toNat (some hash)
    let nStep := if vHave.length > 10 then toInt32 (nStep * 2) else nStep
    setLoop s fuel vHave nStep phash

/-- `CBlockLocator::Set`. -/
def set (hashGenesisBlock : Uint256) (s : LazyBlockMap) (fuel : Nat) (pindex : IndexObject) : Option CBlockLocator := do
  let vHave ← setLoop s fuel [] 1 pindex.phashBlock
  return { vHave := vHave ++ [hashGenesisBlock] }

/-- The loop of `GetDistanceBack`. -/
def distanceLoop (pindexBest : Option Nat) : LazyBlockMap → Int → Int → List Uint256 → Check (LazyBlockMap × Int)
  | s, nDistance, _, [] => .ok (s, nDistance)
  | s, nDistance, nStep, hash :: rest => do
    let (s, fMain) ← s.findInMainChain pindexBest hash
    if fMain then return (s, nDistance)
    let nDistance := toInt32 (nDistance + nStep)
    distanceLoop pindexBest s nDistance (if nDistance > 10 then toInt32 (nStep * 2) else nStep) rest

/-- `CBlockLocator::GetDistanceBack`. -/
def getDistanceBack (pindexBest : Option Nat) (s : LazyBlockMap) (locator : CBlockLocator) :
    Check (LazyBlockMap × Int) :=
  distanceLoop pindexBest s 0 1 locator.vHave

end CBlockLocator

/-! ## The two step counters -/

namespace CBlockLocator

/-- The step that is taken from an entry. -/
def stride (j : Nat) : Nat := 2 ^ (j - 10)

/-- How far back an entry is. -/
def back (j : Nat) : Nat := if j ≤ 10 then j else 9 + 2 ^ (j - 10)

theorem stride_pos (j : Nat) : 0 < stride j := Nat.two_pow_pos _

theorem back_of_le {j : Nat} (h : j ≤ 10) : back j = j := if_pos h

theorem back_of_ge {j : Nat} (h : 10 ≤ j) : back j = 9 + stride j := by
  unfold back stride
  split
  · obtain rfl : j = 10 := by omega
    rfl
  · rfl

/-- The step of `Set` doubles with the number of entries. -/
theorem stride_succ (j : Nat) : stride (j + 1) = if j + 1 > 10 then stride j * 2 else stride j := by
  unfold stride
  split
  · rw [show j + 1 - 10 = j - 10 + 1 by omega, Nat.pow_succ]
  · rw [show j + 1 - 10 = j - 10 by omega]

theorem back_succ (j : Nat) : back (j + 1) = back j + stride j := by
  by_cases h : 10 ≤ j
  · rw [back_of_ge h, back_of_ge (by omega), stride_succ, if_pos (by omega)]
    omega
  · rw [back_of_le (by omega), back_of_le (by omega), stride, show j - 10 = 0 by omega, Nat.pow_zero]

theorem back_strictMono : StrictMono back := by
  refine strictMono_nat_of_lt_succ fun j => ?_
  rw [back_succ]
  exact Nat.lt_add_of_pos_right (stride_pos j)

theorem le_back (j : Nat) : j ≤ back j := back_strictMono.le_apply

/-- **The counters agree**: the distance is above 10 when the number of entries is. -/
theorem ten_lt_back {j : Nat} : back j > 10 ↔ j > 10 := by
  by_cases h : j ≤ 10
  · rw [back_of_le h]
  · have hpos := le_back j
    omega

theorem stride_le_back {j : Nat} (h : 0 < j) : stride j ≤ back j := by
  by_cases hj : 10 ≤ j
  · rw [back_of_ge hj]
    omega
  · rw [back_of_le (by omega), stride, show j - 10 = 0 by omega]
    exact h

end CBlockLocator

theorem toInt32_of_lt {n : Nat} (h : n < 2 ^ 31) : toInt32 n = n := by
  unfold toInt32
  exact Int.bmod_eq_of_le (by omega) (by omega)

namespace CBlockLocator

/-- The next step, as long as the next entry is not too far back for an `int`. -/
theorem nStep_succ {j : Nat} (h : back (j + 1) < 2 ^ 31) {n : Nat} (hn : n > 10 ↔ j + 1 > 10) :
    (if n > 10 then toInt32 ((stride j : Int) * 2) else (stride j : Int)) = stride (j + 1) := by
  have hle : stride (j + 1) ≤ back (j + 1) := stride_le_back (Nat.succ_pos j)
  rw [stride_succ] at hle ⊢
  by_cases hj : j + 1 > 10
  · rw [if_pos (hn.mpr hj), if_pos hj]
    rw [if_pos hj] at hle
    exact toInt32_of_lt (n := stride j * 2) (by omega)
  · rw [if_neg (mt hn.mp hj), if_neg hj]

end CBlockLocator

/-! ## The predecessors that the map tells -/

/-- The hash of the predecessor of a block of a tree. -/
def BlockMap.prevHash (tree : BlockMap) (hash : Uint256) : Option Uint256 := (tree.find hash).bind (·.pprev)

/-- An entry has the predecessor and the height of a block of a tree. -/
def BlockMap.HasEntry (tree : BlockMap) (hash : Uint256) (pindex : CBlockIndex) : Prop :=
  ∃ p, tree.find hash = some p ∧ pindex.pprev = p.pprev ∧ pindex.nHeight = p.nHeight

theorem BlockMap.HasEntry.prevHash {tree : BlockMap} {hash : Uint256} {pindex : CBlockIndex}
    (h : tree.HasEntry hash pindex) : tree.prevHash hash = pindex.pprev := by
  obtain ⟨p, hp, hprev, -⟩ := h
  rw [BlockMap.prevHash, hp, hprev]
  rfl

namespace LazyBlockMap

/-- What an event inserts, loads or records is the entry of a block of the tree. -/
def Event.OfTree (tree : BlockMap) : Event → Prop
  | .insert hash pindex | .loadFrom hash pindex | .writeBlockIndex hash pindex => tree.HasEntry hash pindex
  | _ => True

/-- The objects, the records and the kept predecessors are those of a tree. -/
structure Follows (tree : BlockMap) (s : LazyBlockMap) : Prop where
  object : ∀ h a, s.mapLoaded.find? h = some a → ∃ pindex, s.heap a = some pindex ∧
    (∀ key, pindex.phashBlock = some key → key = h) ∧ tree.HasEntry h pindex.entry
  unique : ∀ h h' a, s.mapLoaded.find? h = some a → s.mapLoaded.find? h' = some a → h = h'
  prev : ∀ h q, s.mapPrev h = some q → tree.prevHash h = some q
  record : ∀ h diskindex, s.records h = some diskindex → tree.HasEntry h diskindex
  fresh : ∀ a pindex, s.heap a = some pindex → a < s.nNew

/-- The map still follows the tree, and tells each predecessor that it told. -/
def KeepsPrev (tree : BlockMap) (s s' : LazyBlockMap) : Prop :=
  s'.Follows tree ∧ ∀ h, s.prev h = tree.prevHash h → s'.prev h = tree.prevHash h

section History

variable {tree : BlockMap} {s s' s'' : LazyBlockMap} {hash : Uint256}

theorem KeepsPrev.trans (h : KeepsPrev tree s s') (h' : KeepsPrev tree s' s'') : KeepsPrev tree s s'' :=
  ⟨h'.1, fun x hx => h'.2 x (h.2 x hx)⟩

theorem Follows.refl (hs : s.Follows tree) : KeepsPrev tree s s := ⟨hs, fun _ hx => hx⟩

theorem prev_of_loaded {a : Nat} {pindex : IndexObject} (ha : s.mapLoaded.find? hash = some a)
    (hp : s.heap a = some pindex) : s.prev hash = pindex.entry.pprev := by
  rw [prev, ha, Option.bind_some, hp]

theorem prev_of_unloaded (ha : s.mapLoaded.find? hash = none) : s.prev hash = s.mapPrev hash := by
  rw [prev, ha, Option.bind_none]

/-- What is told of a block depends on its object, or else on its kept predecessor. -/
theorem prev_congr (hfind : s'.mapLoaded.find? hash = s.mapLoaded.find? hash)
    (hheap : ∀ a, s.mapLoaded.find? hash = some a → s'.heap a = s.heap a)
    (hprev : s'.mapPrev hash = s.mapPrev hash) : s'.prev hash = s.prev hash := by
  cases ha : s.mapLoaded.find? hash with
  | some a =>
    rw [LazyBlockMap.prev, LazyBlockMap.prev, hfind, ha, Option.bind_some, Option.bind_some, hheap a ha, hprev]
  | none => rw [prev_of_unloaded ha, prev_of_unloaded (hfind.trans ha), hprev]

/-- The predecessor of a loaded block is told. -/
theorem Follows.prev_loaded (hs : s.Follows tree) {a : Nat} (ha : s.mapLoaded.find? hash = some a) :
    s.prev hash = tree.prevHash hash := by
  obtain ⟨pindex, hp, -, hentry⟩ := hs.object hash a ha
  rw [prev_of_loaded ha hp, hentry.prevHash]

/-- What the map tells is right. -/
theorem Follows.prev_sound (hs : s.Follows tree) {q : Uint256} (hq : s.prev hash = some q) :
    tree.prevHash hash = some q := by
  cases ha : s.mapLoaded.find? hash with
  | some a => rw [← hs.prev_loaded ha, hq]
  | none => exact hs.prev hash q ((prev_of_unloaded ha).symm.trans hq)

/-- **An object is put under its hash**: a new one, or one in the place of the object that was there. -/
theorem Follows.put (hs : s.Follows tree) {a : Nat} {pindex : IndexObject}
    (hload : s.mapLoaded.find? hash = some a ∨ a = s.nNew)
    (hkey : ∀ key, pindex.phashBlock = some key → key = hash) (hentry : tree.HasEntry hash pindex.entry)
    (hloaded : ∀ h, s'.mapLoaded.find? h = if h = hash then some a else s.mapLoaded.find? h)
    (hheap : s'.heap = Function.update s.heap a (some pindex)) (hnew : s.nNew ≤ s'.nNew ∧ a < s'.nNew)
    (hrecords : s'.records = s.records) (hprev : ∀ h q, s'.mapPrev h = some q → s.mapPrev h = some q)
    (hother : ∀ h, h ≠ hash → s'.mapPrev h = s.mapPrev h) : KeepsPrev tree s s' := by
  -- no other hash is at the address
  have hne : ∀ h b, h ≠ hash → s.mapLoaded.find? h = some b → b ≠ a := by
    rintro h b hh hb rfl
    rcases hload with hload | rfl
    · exact hh (hs.unique h hash b hb hload)
    · obtain ⟨q, hq, -⟩ := hs.object h _ hb
      exact Nat.lt_irrefl _ (hs.fresh _ q hq)
  have hkept : ∀ h b, h ≠ hash → s.mapLoaded.find? h = some b → s'.heap b = s.heap b := by
    intro h b hh hb
    rw [hheap, Function.update_of_ne (hne h b hh hb)]
  have hself : s'.heap a = some pindex := by rw [hheap, Function.update_self]
  refine ⟨⟨fun h b hb => ?_, fun h h' b hb hb' => ?_, fun h q hq => hs.prev h q (hprev h q hq), ?_, ?_⟩, fun h hh => ?_⟩
  · rw [hloaded] at hb
    split at hb
    · rename_i heq
      cases hb
      exact ⟨pindex, hself, heq ▸ hkey, heq ▸ hentry⟩
    · rename_i hh
      rw [hkept h b hh hb]
      exact hs.object h b hb
  · rw [hloaded] at hb hb'
    split at hb <;> split at hb'
    · rename_i heq heq'
      rw [heq, heq']
    · rename_i hh'
      cases hb
      exact absurd rfl (hne h' _ hh' hb')
    · rename_i hh _
      cases hb'
      exact absurd rfl (hne h _ hh hb)
    · exact hs.unique h h' b hb hb'
  · rw [hrecords]
    exact hs.record
  · intro b q hq
    rw [hheap] at hq
    by_cases hb : b = a
    · omega
    · rw [Function.update_of_ne hb] at hq
      have hlt := hs.fresh b q hq
      omega
  · by_cases heq : h = hash
    · subst heq
      rw [prev_of_loaded (by rw [hloaded, if_pos rfl]) hself, hentry.prevHash]
    · rw [← hh]
      exact prev_congr (by rw [hloaded, if_neg heq]) (fun b hb => hkept h b heq hb) (hother h heq)

/-- Loading an entry of the tree. -/
theorem Follows.loadFrom (hs : s.Follows tree) {diskindex : CBlockIndex} (hdisk : tree.HasEntry hash diskindex) :
    KeepsPrev tree s (s.loadFrom hash diskindex).1 := by
  have hentry : tree.HasEntry hash (CBlockIndex.ofDisk diskindex (s.nextRecords hash)) := hdisk
  have herase : ∀ h q, Function.update s.mapPrev hash none h = some q → s.mapPrev h = some q := by
    intro h q hq
    by_cases heq : h = hash
    · rw [heq, Function.update_self] at hq
      cases hq
    · rwa [Function.update_of_ne heq] at hq
  have hother : ∀ h, h ≠ hash → Function.update s.mapPrev hash none h = s.mapPrev h :=
    fun h hh => Function.update_of_ne hh _ _
  cases hload : s.mapLoaded.find? hash with
  | none =>
    simp only [LazyBlockMap.loadFrom, hload]
    refine hs.put (a := s.nNew) (.inr rfl) (fun key hkey => (Option.some.inj hkey).symm) hentry (fun h => ?_) rfl
      ⟨Nat.le_succ _, Nat.lt_succ_self _⟩ rfl herase hother
    exact Store.find?_insert _ _ _ _
  | some a =>
    obtain ⟨pindex, hp, -⟩ := hs.object hash a hload
    simp only [LazyBlockMap.loadFrom, hload]
    refine hs.put (a := a) (.inl hload) (fun _ hkey => absurd hkey (by simp)) hentry (fun h => ?_) rfl
      ⟨Nat.le_refl _, hs.fresh a pindex hp⟩ rfl herase hother
    by_cases heq : h = hash
    · rw [if_pos heq, heq]
      exact hload
    · rw [if_neg heq]

/-- Inserting an entry of the tree. -/
theorem Follows.insert (hs : s.Follows tree) {pindexNew : CBlockIndex} (hentry : tree.HasEntry hash pindexNew) :
    KeepsPrev tree s (s.insert hash pindexNew) := by
  cases hload : s.mapLoaded.find? hash with
  | none =>
    refine hs.put (a := s.nNew) (.inr rfl) (fun key hkey => (Option.some.inj hkey).symm) hentry (fun h => ?_) rfl
      ⟨Nat.le_succ _, Nat.lt_succ_self _⟩ rfl (fun _ _ hq => hq) (fun _ _ => rfl)
    rw [LazyBlockMap.insert, hload]
    exact Store.find?_insert _ _ _ _
  | some a =>
    -- the map keeps the old object, and the new one belongs to nothing
    have hloaded : (s.insert hash pindexNew).mapLoaded = s.mapLoaded := by
      rw [LazyBlockMap.insert, hload]
      rfl
    have hkept : ∀ h b, s.mapLoaded.find? h = some b → (s.insert hash pindexNew).heap b = s.heap b := by
      intro h b hb
      obtain ⟨q, hq, -⟩ := hs.object h b hb
      exact Function.update_of_ne (Nat.ne_of_lt (hs.fresh b q hq)) _ _
    refine ⟨⟨fun h b hb => ?_, fun h h' b hb hb' => ?_, hs.prev, hs.record, fun b q hq => ?_⟩, fun h hh => ?_⟩
    · rw [hloaded] at hb
      rw [hkept h b hb]
      exact hs.object h b hb
    · rw [hloaded] at hb hb'
      exact hs.unique h h' b hb hb'
    · show b < s.nNew + 1
      by_cases hb : b = s.nNew
      · omega
      · exact Nat.lt_succ_of_lt (hs.fresh b q ((Function.update_of_ne hb _ _).symm.trans hq))
    · rw [← hh]
      exact prev_congr (by rw [hloaded]) (hkept h) rfl

/-- What `unload` does: nothing, or it takes the entry away and notes its predecessor, if it has one. -/
theorem unload_cases (s : LazyBlockMap) (hash : Uint256) : s.unload hash = s ∨ ∃ a pindex key,
    s.mapLoaded.find? hash = some a ∧ s.heap a = some pindex ∧ pindex.phashBlock = some key ∧
      s.unload hash = { s with
        mapPrev := if pindex.entry.pprev.isSome then Function.update s.mapPrev key pindex.entry.pprev else s.mapPrev
        heap := Function.update s.heap a none
        mapLoaded := s.mapLoaded.erase hash } := by
  unfold LazyBlockMap.unload
  cases s.mapLoaded.find? hash with
  | none => exact .inl rfl
  | some a =>
    dsimp only
    cases hp : s.heap a with
    | none => exact .inl rfl
    | some pindex =>
      by_cases hlocks : pindex.nLocks ≠ 0
      · exact .inl (if_pos hlocks)
      · cases hkey : pindex.phashBlock with
        | none =>
          simp only [hkey, if_neg hlocks]
          exact .inl trivial
        | some key =>
          simp only [hkey, if_neg hlocks]
          exact .inr ⟨a, pindex, key, rfl, hp, hkey, rfl⟩

/-- **Unloading an entry** notes its predecessor. -/
theorem Follows.unload (hs : s.Follows tree) (hash : Uint256) : KeepsPrev tree s (s.unload hash) := by
  obtain heq | ⟨a, pindex, key, hload, hp, hkey, heq⟩ := unload_cases s hash
  · rw [heq]
    exact hs.refl
  obtain ⟨pindex', hp', hkeys, hentry⟩ := hs.object hash a hload
  obtain rfl : pindex = pindex' := Option.some.inj (hp.symm.trans hp')
  obtain rfl : key = hash := hkeys key hkey
  have hparent := hentry.prevHash
  have hne : ∀ h b, h ≠ key → s.mapLoaded.find? h = some b → b ≠ a := by
    rintro h b hh hb rfl
    exact hh (hs.unique h key b hb hload)
  rw [heq]
  -- the predecessor of the entry is noted, unless it has none
  generalize hmap : (if pindex.entry.pprev.isSome then Function.update s.mapPrev key pindex.entry.pprev
    else s.mapPrev) = mapPrev
  have hself : mapPrev key = tree.prevHash key := by
    rw [hparent, ← hmap]
    cases hprev : pindex.entry.pprev with
    | some q => rw [Option.isSome_some, if_pos rfl, Function.update_self]
    | none =>
      rw [Option.isSome_none, if_neg Bool.false_ne_true]
      cases hq : s.mapPrev key with
      | none => rfl
      | some q =>
        have hbad := hs.prev key q hq
        rw [hparent, hprev] at hbad
        cases hbad
  have hother : ∀ h, h ≠ key → mapPrev h = s.mapPrev h := by
    intro h hh
    rw [← hmap]
    split
    · exact Function.update_of_ne hh _ _
    · rfl
  have hheap : ∀ h b, h ≠ key → s.mapLoaded.find? h = some b → Function.update s.heap a none b = s.heap b :=
    fun h b hh hb => Function.update_of_ne (hne h b hh hb) _ _
  refine ⟨⟨fun h b hb => ?_, fun h h' b hb hb' => ?_, fun h q hq => ?_, hs.record, fun b q hq => ?_⟩, fun h hh => ?_⟩
  · rw [Store.find?_erase] at hb
    split at hb
    · cases hb
    · rename_i hh
      obtain ⟨q, hq, hrest⟩ := hs.object h b hb
      exact ⟨q, (hheap h b hh hb).trans hq, hrest⟩
  · rw [Store.find?_erase] at hb hb'
    split at hb
    · cases hb
    split at hb'
    · cases hb'
    exact hs.unique h h' b hb hb'
  · by_cases hh : h = key
    · rw [hh, ← hself, ← hh]
      exact hq
    · exact hs.prev h q ((hother h hh).symm.trans hq)
  · by_cases hb : b = a
    · rw [hb]
      exact hs.fresh a pindex hp
    · exact hs.fresh b q ((Function.update_of_ne hb _ _).symm.trans hq)
  · by_cases hkeyed : h = key
    · rw [hkeyed]
      exact (prev_of_unloaded (by rw [Store.find?_erase, if_pos rfl])).trans hself
    · rw [← hh]
      exact prev_congr (by rw [Store.find?_erase, if_neg hkeyed]) (fun b hb => hheap h b hkeyed hb) (hother h hkeyed)

/-- Unloading several entries. -/
theorem Follows.unloadWhere (fUnload : LazyBlockMap → Nat → Bool) : ∀ (l : List (Uint256 × Nat)) {s : LazyBlockMap},
    s.Follows tree → KeepsPrev tree s (unloadWhere fUnload s l)
  | [], _, hs => hs.refl
  | (hash, a) :: rest, s, hs => by
    have hfirst : KeepsPrev tree s (if fUnload s a then s.unload hash else s) := by
      split
      · exact hs.unload hash
      · exact hs.refl
    exact hfirst.trans (Follows.unloadWhere fUnload rest hfirst.1)

/-- Locks change no predecessor. -/
theorem Follows.addLocks (hs : s.Follows tree) (a : Nat) (n : Int) : KeepsPrev tree s (s.addLocks a n) := by
  have hheap : ∀ b, ((s.addLocks a n).heap b).map (fun q => (q.phashBlock, q.entry)) =
      (s.heap b).map (fun q => (q.phashBlock, q.entry)) := by
    intro b
    show (Function.update s.heap a _ b).map _ = _
    by_cases hb : b = a
    · rw [hb, Function.update_self, Option.map_map]
      rfl
    · rw [Function.update_of_ne hb]
  refine ⟨⟨fun h b hb => ?_, hs.unique, hs.prev, hs.record, fun b q hq => ?_⟩, fun h hh => ?_⟩
  · obtain ⟨pindex, hp, hkeys, hentry⟩ := hs.object h b hb
    have hsame := hheap b
    rw [hp, Option.map_some, Option.map_eq_some_iff] at hsame
    obtain ⟨q, hq, heq⟩ := hsame
    rw [Prod.mk.injEq] at heq
    exact ⟨q, hq, fun key hkey => hkeys key (heq.1.symm.trans hkey), heq.2 ▸ hentry⟩
  · have hsame := hheap b
    rw [hq, Option.map_some] at hsame
    obtain ⟨q', hq', -⟩ := Option.map_eq_some_iff.mp hsame.symm
    exact hs.fresh b q' hq'
  · cases ha : s.mapLoaded.find? h with
    | some b =>
      obtain ⟨pindex, hp, -, hentry⟩ := hs.object h b ha
      have hsame := hheap b
      rw [hp, Option.map_some, Option.map_eq_some_iff] at hsame
      obtain ⟨q, hq, heq⟩ := hsame
      rw [Prod.mk.injEq] at heq
      rw [prev_of_loaded (s := s.addLocks a n) ha hq, heq.2, hentry.prevHash]
    | none => exact (prev_of_unloaded (s := s.addLocks a n) ha).trans ((prev_of_unloaded ha).symm.trans hh)

/-- What `find` does: nothing, or it loads a record. -/
theorem step_find_cases (s : LazyBlockMap) (hash : Uint256) : s.step (.find hash) = s ∨
    ∃ diskindex, s.records hash = some diskindex ∧ s.step (.find hash) = (s.loadFrom hash diskindex).1 := by
  rw [step_find_eq]
  cases ha : s.mapLoaded.find? hash with
  | some a =>
    rw [find_of_loaded ha]
    exact .inl rfl
  | none =>
    by_cases hknown : s.setKnown hash = true
    · cases hdisk : s.records hash with
      | none =>
        simp only [find, ha, if_pos hknown, load, hdisk]
        exact .inl rfl
      | some diskindex =>
        rw [find_of_known ha hknown hdisk]
        exact .inr ⟨diskindex, rfl, rfl⟩
    · rw [find_of_unknown ha hknown]
      exact .inl rfl

/-- What `load` does: nothing, or it loads a record. -/
theorem step_load_cases (s : LazyBlockMap) (hash : Uint256) : s.step (.load hash) = s ∨
    ∃ diskindex, s.records hash = some diskindex ∧ s.step (.load hash) = (s.loadFrom hash diskindex).1 := by
  cases hdisk : s.records hash with
  | none => exact .inl (step_load_none hdisk)
  | some diskindex => exact .inr ⟨diskindex, rfl, step_load_some hdisk⟩

/-- **What a step keeps**: unless it clears the map, each predecessor that was told is told. -/
theorem prev_step (hs : s.Follows tree) {e : Event} (he : e.OfTree tree) (hclear : e ≠ .clear) :
    KeepsPrev tree s (s.step e) := by
  have hloads : ∀ hash, (s.step e = s ∨ ∃ diskindex, s.records hash = some diskindex ∧
      s.step e = (s.loadFrom hash diskindex).1) → KeepsPrev tree s (s.step e) := by
    rintro hash (heq | ⟨diskindex, hdisk, heq⟩)
    · rw [heq]
      exact hs.refl
    · rw [heq]
      exact hs.loadFrom (hs.record hash diskindex hdisk)
  cases e with
  | lazyInsert hash => exact ⟨⟨hs.object, hs.unique, hs.prev, hs.record, hs.fresh⟩, fun _ hh => hh⟩
  | insert hash pindexNew => exact hs.insert he
  | find hash => exact hloads hash (step_find_cases s hash)
  | load hash => exact hloads hash (step_load_cases s hash)
  | loadFrom hash diskindex => exact hs.loadFrom he
  | unload hash => exact hs.unload hash
  | unloadIndex a =>
    show KeepsPrev tree s (s.unloadIndex a)
    obtain heq | ⟨hash, heq⟩ := unloadIndex_cases (s := s) a
    · rw [heq]
      exact hs.refl
    · rw [heq]
      exact hs.unload hash
  | cleanup nBestHeight pindexGenesisBlock => exact hs.unloadWhere _ _
  | clear => exact absurd rfl hclear
  | lock a => exact hs.addLocks a 1
  | unlock a => exact hs.addLocks a (-1)
  | writeBlockIndex hash diskindex =>
    refine ⟨⟨hs.object, hs.unique, hs.prev, fun h d hd => ?_, hs.fresh⟩, fun _ hh => hh⟩
    replace hd : Function.update s.records hash (some diskindex) h = some d := hd
    by_cases heq : h = hash
    · rw [heq, Function.update_self, Option.some.injEq] at hd
      rw [heq, ← hd]
      exact he
    · exact hs.record h d ((Function.update_of_ne heq _ _).symm.trans hd)
  | writeNext hash hashNext => exact ⟨⟨hs.object, hs.unique, hs.prev, hs.record, hs.fresh⟩, fun _ hh => hh⟩

/-- Every step follows the tree. -/
theorem follows_step (hs : s.Follows tree) {e : Event} (he : e.OfTree tree) : (s.step e).Follows tree := by
  by_cases hclear : e = .clear
  · obtain ⟨h, -⟩ : KeepsPrev tree s (unloadWhere (fun _ _ => true) s s.mapLoaded.entries) := hs.unloadWhere _ _
    rw [hclear]
    exact ⟨h.object, h.unique, fun _ _ hq => absurd hq nofun, h.record, h.fresh⟩
  · exact (prev_step hs he hclear).1

/-- A run follows the tree, and tells each predecessor that it told, unless it clears the map. -/
theorem follows_exec {es : List Event} (hs : s.Follows tree) (hes : ∀ e ∈ es, e.OfTree tree) :
    (Run.exec step s es).Follows tree ∧ (Event.clear ∉ es → KeepsPrev tree s (Run.exec step s es)) := by
  induction es generalizing s with
  | nil => exact ⟨hs, fun _ => hs.refl⟩
  | cons e es ih =>
    obtain ⟨hfollows, hkeeps⟩ := ih (follows_step hs (hes e List.mem_cons_self))
      fun e' he' => hes e' (List.mem_cons_of_mem _ he')
    refine ⟨hfollows, fun hclear => ?_⟩
    have hfirst := prev_step hs (hes e List.mem_cons_self) fun heq => hclear (heq ▸ List.mem_cons_self)
    exact hfirst.trans (hkeeps fun hmem => hclear (List.mem_cons_of_mem _ hmem))

/-- A map without entries, over a block tree database. -/
def opened (records : Uint256 → Option CBlockIndex) (nextRecords : Uint256 → Option Uint256) : LazyBlockMap where
  records := records
  nextRecords := nextRecords

/-- The block was in memory at some time of the history, and the map has not been cleared since. -/
def WasLoaded (s : LazyBlockMap) (es : List Event) (hash : Uint256) : Prop :=
  ∃ es₁ es₂, es = es₁ ++ es₂ ∧ Event.clear ∉ es₂ ∧ ((Run.exec step s es₁).mapLoaded.find? hash).isSome = true

theorem opened_follows {records : Uint256 → Option CBlockIndex} (nextRecords : Uint256 → Option Uint256)
    (hrecords : ∀ h diskindex, records h = some diskindex → tree.HasEntry h diskindex) :
    (opened records nextRecords).Follows tree where
  object _ _ h := by
    cases h
  unique _ _ _ h := by
    cases h
  prev _ _ h := by
    cases h
  record := hrecords
  fresh _ _ h := by
    cases h

/-- **`BlockMap::prev` gives the predecessor of every block that was inserted or loaded.** -/
theorem prev_wasLoaded {es : List Event} (hs : s.Follows tree) (hes : ∀ e ∈ es, e.OfTree tree)
    (h : s.WasLoaded es hash) : (Run.exec step s es).prev hash = tree.prevHash hash := by
  obtain ⟨es₁, es₂, rfl, hclear, hloaded⟩ := h
  obtain ⟨a, ha⟩ := Option.isSome_iff_exists.mp hloaded
  have hfirst := (follows_exec hs fun e he => hes e (List.mem_append_left _ he)).1
  obtain ⟨-, hkeeps⟩ := (follows_exec hfirst fun e he => hes e (List.mem_append_right _ he)).2 hclear
  rw [Run.exec_append]
  exact hkeeps hash (hfirst.prev_loaded ha)

end History

end LazyBlockMap

/-! ## The entries of a locator -/

namespace BlockMap

variable {tree : BlockMap}

/-- From a block of a chain on down stands the chain of that block. -/
theorem drop_chain : ∀ (n : Nat) {h : Uint256} {p : CBlockIndex}, (tree.chain h)[n]? = some p →
    (tree.chain h).drop n = tree.chain p.phashBlock
  | n, h, p, hn => by
    cases hq : tree.find h with
    | none =>
      rw [chain_of_none hq, List.getElem?_nil] at hn
      cases hn
    | some q =>
      rw [chain_of_find hq] at hn ⊢
      cases n with
      | zero =>
        obtain rfl : q = p := Option.some.inj hn
        rw [List.drop_zero, tree.hash_eq h q hq, chain_of_find hq]
      | succ n =>
        rw [List.getElem?_cons_succ, prevChain] at hn
        rw [List.drop_succ_cons, prevChain]
        cases hprev : q.pprev with
        | none =>
          rw [hprev, Option.map_none, Option.getD_none, List.getElem?_nil] at hn
          cases hn
        | some r =>
          rw [hprev, Option.map_some, Option.getD_some] at hn
          rw [Option.map_some, Option.getD_some]
          exact drop_chain n hn

/-- Each block back is one lower. -/
theorem nHeight_getElem? {n : Nat} {h : Uint256} {p q : CBlockIndex} (hp : tree.find h = some p)
    (hn : (tree.chain h)[n]? = some q) : q.nHeight + n = p.nHeight := by
  have hlen := congrArg List.length (drop_chain n hn)
  have hq := find_of_mem_chain (List.mem_of_getElem? hn)
  have hlt := (List.getElem?_eq_some_iff.mp hn).1
  rw [List.length_drop, length_chain hp, length_chain hq] at hlen
  rw [length_chain hp] at hlt
  omega

end BlockMap

namespace CBlockLocator

section Set

variable {tree : BlockMap} {s : LazyBlockMap}

theorem stepBack_none (n : Nat) : s.stepBack n none = none := by
  cases n <;> rfl

/-- Steps back lead to an ancestor. -/
theorem stepBack_sound (hs : s.Follows tree) : ∀ {n : Nat} {h : Uint256} {p : CBlockIndex} {y : Uint256},
    tree.find h = some p → s.stepBack n (some h) = some y → ∃ q, (tree.chain h)[n]? = some q ∧ q.phashBlock = y
  | 0, h, p, y, hp, hy => by
    obtain rfl : h = y := Option.some.inj hy
    exact ⟨p, by rw [BlockMap.chain_of_find hp]; rfl, tree.hash_eq h p hp⟩
  | n + 1, h, p, y, hp, hy => by
    rw [LazyBlockMap.stepBack] at hy
    cases hr : s.prev h with
    | none =>
      rw [hr, stepBack_none] at hy
      cases hy
    | some r =>
      have hprev : p.pprev = some r := by
        have hparent := hs.prev_sound hr
        rwa [BlockMap.prevHash, hp, Option.bind_some] at hparent
      obtain ⟨hnone, -⟩ | ⟨r', pprev, hr', hpprev, -⟩ := tree.prev_in h p hp
      · rw [hprev] at hnone
        cases hnone
      obtain rfl : r = r' := Option.some.inj (hprev.symm.trans hr')
      rw [hr] at hy
      obtain ⟨q, hq, hqy⟩ := stepBack_sound hs hpprev hy
      refine ⟨q, ?_, hqy⟩
      rw [BlockMap.chain_of_find hp, List.getElem?_cons_succ, BlockMap.prevChain_of_find hprev hpprev,
        ← BlockMap.chain_of_find hpprev, hq]

/-- Where the steps back come to an end, so does the chain, when every predecessor is told. -/
theorem stepBack_complete : ∀ {n : Nat} {h : Uint256} {p : CBlockIndex}, tree.find h = some p →
    (∀ q ∈ tree.chain h, s.prev q.phashBlock = tree.prevHash q.phashBlock) → s.stepBack n (some h) = none →
      (tree.chain h).length ≤ n
  | 0, _, _, _, _, hn => absurd hn nofun
  | n + 1, h, p, hp, htold, hn => by
    rw [LazyBlockMap.stepBack] at hn
    have hself := htold p (by rw [BlockMap.chain_of_find hp]; exact List.mem_cons_self)
    rw [tree.hash_eq h p hp, BlockMap.prevHash, hp, Option.bind_some] at hself
    rw [hself] at hn
    rw [BlockMap.chain_of_find hp, List.length_cons]
    obtain ⟨hnone, -⟩ | ⟨r, pprev, hr, hpprev, -⟩ := tree.prev_in h p hp
    · rw [BlockMap.prevChain_of_root hnone]
      exact Nat.le_add_left 1 n
    · have hchain : tree.prevChain p = tree.chain r := by
        rw [BlockMap.prevChain_of_find hr hpprev, ← BlockMap.chain_of_find hpprev]
      rw [hchain]
      rw [hr] at hn
      refine Nat.succ_le_succ (stepBack_complete hpprev (fun q hq => htold q ?_) hn)
      rw [BlockMap.chain_of_find hp, hchain]
      exact List.mem_cons_of_mem _ hq

theorem setLoop_none (fuel : Nat) (vHave : List Uint256) (nStep : Int) :
    setLoop s fuel vHave nStep none = some vHave := by
  cases fuel <;> rfl

/-- **What `Set` lists**: from each entry on, ancestors at the distances of the following entries, up to the end of the
chain when every predecessor is told. -/
theorem setLoop_spec (hs : s.Follows tree) {h : Uint256} {p : CBlockIndex} (hp : tree.find h = some p)
    (hheight : p.nHeight < 2 ^ 31) : ∀ (fuel : Nat) {vHave : List Uint256} {q : CBlockIndex},
      (tree.chain h)[back vHave.length]? = some q → p.nHeight < fuel + vHave.length → ∃ ps : List CBlockIndex,
        0 < ps.length ∧
        setLoop s fuel vHave (stride vHave.length) (some q.phashBlock) = some (vHave ++ ps.map (·.phashBlock)) ∧
        (∀ i (hi : i < ps.length), (tree.chain h)[back (vHave.length + i)]? = some ps[i]) ∧
        ((∀ q ∈ tree.chain h, s.prev q.phashBlock = tree.prevHash q.phashBlock) →
          p.nHeight < back (vHave.length + ps.length))
  | 0, vHave, q, hq, hfuel => by
    have hdown := BlockMap.nHeight_getElem? hp hq
    have hle := le_back vHave.length
    omega
  | fuel + 1, vHave, q, hq, hfuel => by
    have hdrop := BlockMap.drop_chain _ hq
    have hqfind := BlockMap.find_of_mem_chain (List.mem_of_getElem? hq)
    have hlen : (vHave ++ [q.phashBlock]).length = vHave.length + 1 := List.length_append
    rw [setLoop]
    rw [Int.toNat_natCast]
    cases hy : s.stepBack (stride vHave.length) (some q.phashBlock) with
    | none =>
      refine ⟨[q], Nat.one_pos, setLoop_none _ _ _, fun i hi => ?_, fun htold => ?_⟩
      · obtain rfl : i = 0 := Nat.lt_one_iff.mp hi
        exact hq
      · have hle := stepBack_complete hqfind (fun r hr => htold r (List.mem_of_mem_drop (hdrop ▸ hr))) hy
        rw [← hdrop, List.length_drop, BlockMap.length_chain hp] at hle
        rw [List.length_singleton, back_succ]
        omega
    | some y =>
      obtain ⟨r, hr, rfl⟩ := stepBack_sound hs hqfind hy
      rw [← hdrop, List.getElem?_drop, ← back_succ] at hr
      have hdown := BlockMap.nHeight_getElem? hp hr
      rw [nStep_succ (by omega) (by rw [hlen]), ← hlen]
      rw [← hlen] at hr
      obtain ⟨ps, -, heq, hps, hend⟩ := setLoop_spec hs hp hheight fuel hr (by rw [hlen]; omega)
      refine ⟨q :: ps, Nat.succ_pos _, ?_, fun i hi => ?_, fun htold => ?_⟩
      · rw [heq, List.map_cons, List.append_assoc, List.singleton_append]
      · cases i with
        | zero => exact hq
        | succ i =>
          have hi' := hps i (Nat.lt_of_succ_lt_succ hi)
          rwa [hlen, Nat.add_right_comm] at hi'
      · have hlt := hend htold
        rwa [hlen, Nat.add_right_comm] at hlt

end Set

end CBlockLocator

/-! ## The way back to the main chain -/

namespace LazyBlockMap

/-- The entry that `find` gives for a hash. -/
def entryOf (s : LazyBlockMap) (hash : Uint256) : Option CBlockIndex :=
  match s.mapLoaded.find? hash with
  | some a => (s.heap a).map (·.entry)
  | none => if s.setKnown hash then (s.records hash).map (CBlockIndex.ofDisk · (s.nextRecords hash)) else none

/-- A block is in the main chain: its entry names a successor that is in the index, or is the best block's. -/
def InMainChain (s : LazyBlockMap) (pindexBest : Option Nat) (hash : Uint256) : Prop :=
  (∃ entry hashNext, s.entryOf hash = some entry ∧ entry.pnext = some hashNext ∧
    (s.entryOf hashNext).isSome = true) ∨ ∃ a, s.mapLoaded.find? hash = some a ∧ pindexBest = some a

/-- Every entry can be read: the loaded ones are objects, the others have records. -/
structure Readable (s : LazyBlockMap) : Prop where
  object : ∀ h a, s.mapLoaded.find? h = some a → (s.heap a).isSome = true
  recorded : ∀ h, s.setKnown h = true → (s.records h).isSome = true
  fresh : ∀ a pindex, s.heap a = some pindex → a < s.nNew

/-- Entries were loaded, and nothing else was done. -/
structure SameView (s s' : LazyBlockMap) : Prop where
  readable : s'.Readable
  entryOf : ∀ h, s'.entryOf h = s.entryOf h
  loaded : ∀ h a, a < s.nNew → (s'.mapLoaded.find? h = some a ↔ s.mapLoaded.find? h = some a)
  next : s.nNew ≤ s'.nNew

section Records

variable {s : LazyBlockMap} {hash : Uint256}

/-- Every block that is known has a record in the database. -/
def AllRecorded (s : LazyBlockMap) : Prop := ∀ h, s.setKnown h = true → (s.records h).isSome = true

/-- A map that follows a tree, with records of what it knows, can be read. -/
theorem Follows.readable {tree : BlockMap} (hs : s.Follows tree) (h : s.AllRecorded) : s.Readable where
  object x a ha := by
    obtain ⟨pindex, hp, -⟩ := hs.object x a ha
    rw [hp]
    rfl
  recorded := h
  fresh := hs.fresh

/-- The entry that is found for a block is that of the tree. -/
theorem Follows.entryOf {tree : BlockMap} (hs : s.Follows tree) {entry : CBlockIndex}
    (h : s.entryOf hash = some entry) : tree.HasEntry hash entry := by
  unfold LazyBlockMap.entryOf at h
  split at h
  · rename_i a ha
    obtain ⟨pindex, hp, -, hentry⟩ := hs.object hash a ha
    rw [hp, Option.map_some, Option.some.injEq] at h
    exact h ▸ hentry
  · split at h
    · obtain ⟨diskindex, hdisk, rfl⟩ := Option.map_eq_some_iff.mp h
      exact hs.record hash diskindex hdisk
    · cases h

end Records

section View

variable {s s' s'' : LazyBlockMap} {hash : Uint256} {pindexBest : Option Nat}

theorem SameView.refl (hs : s.Readable) : s.SameView s := ⟨hs, fun _ => rfl, fun _ _ _ => Iff.rfl, Nat.le_refl _⟩

theorem SameView.trans (h : s.SameView s') (h' : s'.SameView s'') : s.SameView s'' :=
  ⟨h'.readable, fun x => (h'.entryOf x).trans (h.entryOf x),
    fun x a ha => (h'.loaded x a (Nat.lt_of_lt_of_le ha h.next)).trans (h.loaded x a ha), h.next.trans h'.next⟩

/-- The main chain stays when entries are loaded. -/
theorem SameView.inMainChain_iff (h : s.SameView s') (hbest : ∀ a, pindexBest = some a → a < s.nNew) :
    s'.InMainChain pindexBest hash ↔ s.InMainChain pindexBest hash := by
  unfold InMainChain
  simp only [h.entryOf]
  refine or_congr_right (exists_congr fun a => ?_)
  constructor
  · rintro ⟨hload, ha⟩
    exact ⟨(h.loaded hash a (hbest a ha)).mp hload, ha⟩
  · rintro ⟨hload, ha⟩
    exact ⟨(h.loaded hash a (hbest a ha)).mpr hload, ha⟩

theorem entryOf_of_loaded {a : Nat} (ha : s.mapLoaded.find? hash = some a) :
    s.entryOf hash = (s.heap a).map (·.entry) := by
  rw [entryOf, ha]

theorem entryOf_of_unloaded (ha : s.mapLoaded.find? hash = none) : s.entryOf hash =
    if s.setKnown hash then (s.records hash).map (CBlockIndex.ofDisk · (s.nextRecords hash)) else none := by
  rw [entryOf, ha]

/-- Loading the record of an entry shows the same entry. -/
theorem Readable.loadFrom (hs : s.Readable) {diskindex : CBlockIndex} (hnew : s.mapLoaded.find? hash = none)
    (hknown : s.setKnown hash = true) (hdisk : s.records hash = some diskindex) :
    s.SameView (s.loadFrom hash diskindex).1 ∧
      (s.loadFrom hash diskindex).1.mapLoaded.find? hash = some (s.loadFrom hash diskindex).2 := by
  simp only [LazyBlockMap.loadFrom, hnew]
  have hold : ∀ h a, s.mapLoaded.find? h = some a → a < s.nNew := by
    intro h a ha
    obtain ⟨pindex, hp⟩ := Option.isSome_iff_exists.mp (hs.object h a ha)
    exact hs.fresh a pindex hp
  refine ⟨⟨⟨fun h a ha => ?_, fun h hh => ?_, fun a pindex hp => ?_⟩, fun h => ?_, fun h a ha => ?_, Nat.le_succ _⟩, ?_⟩
  · show (Function.update s.heap s.nNew _ a).isSome = true
    rw [Store.find?_insert] at ha
    split at ha
    · cases ha
      rw [Function.update_self]
      rfl
    · rw [Function.update_of_ne (Nat.ne_of_lt (hold h a ha))]
      exact hs.object h a ha
  · by_cases heq : h = hash
    · rw [heq]
      show (s.records hash).isSome = true
      rw [hdisk]
      rfl
    · exact hs.recorded h ((Function.update_of_ne heq _ _).symm.trans hh)
  · show a < s.nNew + 1
    by_cases ha : a = s.nNew
    · omega
    · exact Nat.lt_succ_of_lt (hs.fresh a pindex ((Function.update_of_ne ha _ _).symm.trans hp))
  · by_cases heq : h = hash
    · rw [heq, entryOf_of_loaded (a := s.nNew) (by rw [Store.find?_insert, if_pos rfl]), entryOf_of_unloaded hnew,
        if_pos hknown, hdisk]
      show (Function.update s.heap s.nNew _ s.nNew).map _ = _
      rw [Function.update_self]
      rfl
    · unfold LazyBlockMap.entryOf
      rw [Store.find?_insert, if_neg heq]
      cases ha : s.mapLoaded.find? h with
      | some a =>
        show (Function.update s.heap s.nNew _ a).map _ = _
        rw [Function.update_of_ne (Nat.ne_of_lt (hold h a ha))]
      | none =>
        show (if Function.update s.setKnown hash true h = true then _ else _) = _
        rw [Function.update_of_ne heq]
  · rw [Store.find?_insert]
    split
    · rename_i heq
      refine iff_of_false (fun hsome => ?_) (fun hsome => ?_)
      · rw [Option.some.injEq] at hsome
        omega
      · rw [heq, hnew] at hsome
        cases hsome
    · exact Iff.rfl
  · rw [Store.find?_insert, if_pos rfl]

/-- **`find` gives what is there**, and shows the same entries afterwards. -/
theorem Readable.find (hs : s.Readable) (hash : Uint256) : ∃ s' mi, s.find hash = .ok (s', mi) ∧ s.SameView s' ∧
    mi.isSome = (s.entryOf hash).isSome ∧ ∀ a, mi = some a → s'.mapLoaded.find? hash = some a := by
  cases ha : s.mapLoaded.find? hash with
  | some a =>
    refine ⟨s, some a, find_of_loaded ha, .refl hs, ?_, fun b hb => hb ▸ ha⟩
    rw [entryOf_of_loaded ha, Option.isSome_map, hs.object hash a ha]
    rfl
  | none =>
    by_cases hknown : s.setKnown hash = true
    · obtain ⟨diskindex, hdisk⟩ := Option.isSome_iff_exists.mp (hs.recorded hash hknown)
      obtain ⟨hview, hload⟩ := hs.loadFrom ha hknown hdisk
      refine ⟨_, _, find_of_known ha hknown hdisk, hview, ?_, fun b hb => by rw [← hb]; exact hload⟩
      rw [entryOf_of_unloaded ha, if_pos hknown, hdisk]
      rfl
    · refine ⟨s, none, find_of_unknown ha hknown, .refl hs, ?_, fun b hb => absurd hb nofun⟩
      rw [entryOf_of_unloaded ha, if_neg hknown]
      rfl

/-- **`IsInMainChain` tells whether a block is in the main chain.** -/
theorem Readable.isInMainChain (hs : s.Readable) (pindexBest : Option Nat) {a : Nat}
    (ha : s.mapLoaded.find? hash = some a) :
    ∃ s' fMain, s.isInMainChain pindexBest a = .ok (s', fMain) ∧ s.SameView s' ∧
      (fMain = true ↔ s.InMainChain pindexBest hash) := by
  obtain ⟨pindex, hp⟩ := Option.isSome_iff_exists.mp (hs.object hash a ha)
  have hentry : s.entryOf hash = some pindex.entry := by
    rw [entryOf_of_loaded ha, hp]
    rfl
  have hbest : (∃ b, s.mapLoaded.find? hash = some b ∧ pindexBest = some b) ↔ pindexBest = some a := by
    constructor
    · rintro ⟨b, hb, heq⟩
      rw [ha, Option.some.injEq] at hb
      rw [heq, hb]
    · exact fun heq => ⟨a, ha, heq⟩
  unfold LazyBlockMap.isInMainChain
  rw [hp, Option.bind_some]
  cases hnext : pindex.entry.pnext with
  | none =>
    refine ⟨s, _, rfl, .refl hs, ?_⟩
    rw [decide_eq_true_iff, ← hbest]
    refine (or_iff_right ?_).symm
    rintro ⟨entry, q, hentry', hq, -⟩
    rw [hentry, Option.some.injEq] at hentry'
    rw [← hentry', hnext] at hq
    cases hq
  | some q =>
    obtain ⟨s', pnext, hfind, hview, hsome, -⟩ := hs.find q
    refine ⟨s', pnext.isSome || pindexBest = some a, ?_, hview, ?_⟩
    · simp only [hfind]
      rfl
    · rw [Bool.or_eq_true, decide_eq_true_iff, hsome, ← hbest]
      refine or_congr_left ?_
      constructor
      · exact fun h => ⟨pindex.entry, q, hentry, hnext, h⟩
      · rintro ⟨entry, q', hentry', hq', h⟩
        rw [hentry, Option.some.injEq] at hentry'
        rw [← hentry', hnext, Option.some.injEq] at hq'
        rwa [hq']

/-- The test of a hash tells whether its block is in the main chain. -/
theorem Readable.findInMainChain (hs : s.Readable) (hbest : ∀ a, pindexBest = some a → a < s.nNew) (hash : Uint256) :
    ∃ s' fMain, s.findInMainChain pindexBest hash = .ok (s', fMain) ∧ s.SameView s' ∧
      (fMain = true ↔ s.InMainChain pindexBest hash) := by
  obtain ⟨s₁, mi, hfind, hview₁, hsome, hload⟩ := hs.find hash
  cases mi with
  | none =>
    refine ⟨s₁, false, ?_, hview₁, iff_of_false Bool.false_ne_true ?_⟩
    · simp only [LazyBlockMap.findInMainChain, hfind]
      rfl
    have hnone : s.entryOf hash = none := by
      rw [Option.isSome_none] at hsome
      exact Option.not_isSome_iff_eq_none.mp (by rw [← hsome]; exact Bool.false_ne_true)
    rintro (⟨entry, q, hentry, -⟩ | ⟨a, ha, -⟩)
    · rw [hnone] at hentry
      cases hentry
    · rw [entryOf_of_loaded ha, Option.map_eq_none_iff] at hnone
      have hobject := hs.object hash a ha
      rw [hnone] at hobject
      cases hobject
  | some a =>
    obtain ⟨s₂, fMain, htest, hview₂, hiff⟩ := hview₁.readable.isInMainChain pindexBest (hload a rfl)
    refine ⟨s₂, fMain, ?_, hview₁.trans hview₂, hiff.trans (hview₁.inMainChain_iff hbest)⟩
    simp only [LazyBlockMap.findInMainChain, hfind]
    exact htest

end View

end LazyBlockMap

namespace CBlockLocator

/-- **How far back `GetDistanceBack` goes**: to the first entry in the main chain, by the distances of `Set`. -/
theorem distanceLoop_spec {pindexBest : Option Nat} : ∀ (k : Nat) {s : LazyBlockMap} {j : Nat} {vs : List Uint256}
    {x : Uint256}, s.Readable → (∀ a, pindexBest = some a → a < s.nNew) → vs[k]? = some x →
      s.InMainChain pindexBest x → (∀ i < k, ∀ y, vs[i]? = some y → ¬ s.InMainChain pindexBest y) →
        back (j + k) < 2 ^ 31 → ∃ s', distanceLoop pindexBest s (back j) (stride j) vs = .ok (s', (back (j + k) : Int))
  | k, s, j, [], x, _, _, hx, _, _, _ => absurd hx (by simp)
  | k, s, j, hash :: rest, x, hs, hbest, hx, hmain, hfirst, hlt => by
    obtain ⟨s₂, fMain, htest, hview, hiff⟩ := hs.findInMainChain hbest hash
    rw [distanceLoop]
    simp only [htest, bind, Except.bind]
    cases k with
    | zero =>
      obtain rfl : hash = x := Option.some.inj hx
      rw [hiff.mpr hmain]
      exact ⟨s₂, rfl⟩
    | succ k =>
      have hno : fMain = false := by
        rw [← Bool.not_eq_true, hiff]
        exact hfirst 0 (Nat.succ_pos k) hash rfl
      have hback : back (j + 1) ≤ back (j + (k + 1)) := back_strictMono.monotone (by omega)
      have hnext : toInt32 ((back j : Int) + (stride j : Int)) = (back (j + 1) : Int) := by
        rw [back_succ] at hback
        rw [back_succ, ← Int.natCast_add]
        exact toInt32_of_lt (by omega)
      have hstep : (if (back (j + 1) : Int) > 10 then toInt32 ((stride j : Int) * 2) else (stride j : Int)) =
          stride (j + 1) := by
        rw [← nStep_succ (j := j) (by omega) ten_lt_back]
        exact if_congr (by omega) rfl rfl
      rw [hno, if_neg Bool.false_ne_true, hnext, hstep, show j + (k + 1) = j + 1 + k by omega]
      refine distanceLoop_spec k hview.readable (fun a ha => Nat.lt_of_lt_of_le (hbest a ha) hview.next) hx
        ((hview.inMainChain_iff hbest).mpr hmain) (fun i hi y hy => ?_) (by rwa [show j + 1 + k = j + (k + 1) by omega])
      rw [hview.inMainChain_iff hbest]
      exact hfirst (i + 1) (Nat.succ_lt_succ hi) y hy

/-- A block of the main chain has an entry. -/
theorem entryOf_inMainChain {s : LazyBlockMap} {pindexBest : Option Nat} {hash : Uint256} (hs : s.Readable)
    (h : s.InMainChain pindexBest hash) : ∃ entry, s.entryOf hash = some entry := by
  obtain ⟨entry, -, hentry, -⟩ | ⟨a, ha, -⟩ := h
  · exact ⟨entry, hentry⟩
  · obtain ⟨pindex, hp⟩ := Option.isSome_iff_exists.mp (hs.object hash a ha)
    exact ⟨pindex.entry, by rw [LazyBlockMap.entryOf_of_loaded ha, hp]; rfl⟩

open LazyBlockMap

section Law

variable {tree : BlockMap} {s : LazyBlockMap} {h : Uint256} {p : CBlockIndex} {pindex : IndexObject}

/-- **What `Set` makes** of a block of the tree. -/
theorem set_spec (hashGenesisBlock : Uint256) (hs : s.Follows tree) (hp : tree.find h = some p)
    (hheight : p.nHeight < 2 ^ 31)
    (hkey : pindex.phashBlock = some h) {fuel : Nat} (hfuel : p.nHeight < fuel) : ∃ ps : List CBlockIndex,
      set hashGenesisBlock s fuel pindex = some { vHave := ps.map (·.phashBlock) ++ [hashGenesisBlock] } ∧
      0 < ps.length ∧ (∀ j (hj : j < ps.length), (tree.chain h)[back j]? = some ps[j]) ∧
      ((∀ q ∈ tree.chain h, s.prev q.phashBlock = tree.prevHash q.phashBlock) → p.nHeight < back ps.length) := by
  have hfirst : (tree.chain h)[back ([] : List Uint256).length]? = some p := by
    rw [BlockMap.chain_of_find hp]
    rfl
  obtain ⟨ps, hpos, hloop, hps, hend⟩ := setLoop_spec hs hp hheight fuel hfirst hfuel
  simp only [List.length_nil, Nat.zero_add, List.nil_append] at hloop hps hend
  refine ⟨ps, ?_, hpos, hps, hend⟩
  rw [tree.hash_eq h p hp] at hloop
  rw [set, hkey, show (1 : Int) = (stride 0 : Int) from rfl, hloop]
  rfl

/-- **What `GetDistanceBack` makes** of a locator: the height from the block down to the first entry in the main
chain. -/
theorem getDistanceBack_spec {ps : List CBlockIndex} {pindexBest : Option Nat} {hashGenesisBlock : Uint256}
    (hs : s.Readable) (htree : s.Follows tree)
    (hbest : ∀ a, pindexBest = some a → (s.heap a).isSome = true) (hp : tree.find h = some p)
    (hheight : p.nHeight < 2 ^ 31) (hps : ∀ j (hj : j < ps.length), (tree.chain h)[back j]? = some ps[j]) {k : Nat}
    (hk : k < ps.length) (hmain : s.InMainChain pindexBest ps[k].phashBlock)
    (hfirst : ∀ i (hi : i < k), ¬ s.InMainChain pindexBest ps[i].phashBlock) : ∃ s' entry,
      s.entryOf ps[k].phashBlock = some entry ∧
      getDistanceBack pindexBest s { vHave := ps.map (·.phashBlock) ++ [hashGenesisBlock] } =
        .ok (s', (p.nHeight : Int) - entry.nHeight) := by
  obtain ⟨entry, hentry⟩ := entryOf_inMainChain hs hmain
  have hdown := BlockMap.nHeight_getElem? hp (hps k hk)
  -- the entry has the height of the ancestor
  obtain ⟨q, hq, -, hqheight⟩ := htree.entryOf hentry
  rw [BlockMap.find_of_mem_chain (List.mem_of_getElem? (hps k hk)), Option.some.injEq] at hq
  rw [← hq] at hqheight
  have hget : ∀ i (hi : i < ps.length), (ps.map (·.phashBlock) ++ [hashGenesisBlock])[i]? = some ps[i].phashBlock := by
    intro i hi
    rw [List.getElem?_append_left (by rwa [List.length_map]), List.getElem?_map, List.getElem?_eq_getElem hi]
    rfl
  have hbound : ∀ a, pindexBest = some a → a < s.nNew := by
    intro a ha
    obtain ⟨pindex, hpindex⟩ := Option.isSome_iff_exists.mp (hbest a ha)
    exact hs.fresh a pindex hpindex
  obtain ⟨s', hloop⟩ := distanceLoop_spec k (j := 0) hs hbound (hget k hk) hmain
    (fun i hi y hy => by
      rw [hget i (Nat.lt_trans hi hk), Option.some.injEq] at hy
      exact hy ▸ hfirst i hi)
    (by rw [Nat.zero_add]; omega)
  refine ⟨s', entry, hentry, ?_⟩
  rw [Nat.zero_add] at hloop
  rw [show (p.nHeight : Int) - entry.nHeight = back k by omega, ← hloop]
  rfl

/-- **Block locators**: after every history of a node's map with the blocks of a tree, `BlockMap::prev` gives the
predecessor of every block that was inserted or loaded since the map was last cleared. `Set` ends, and lists the block
and ancestors of it at the growing distances `back 0`, `back 1`, … – all those that the tree has, when all of the
block's ancestors were inserted or loaded – and then the genesis block. And whatever the history of the node that reads
it, `GetDistanceBack` gives the height from the block down to the first entry that is in the main chain there, when that
is not the genesis block at the end and the known blocks have records. -/
theorem locator_law (hheight : ∀ h p, tree.find h = some p → p.nHeight < 2 ^ 31) (hashGenesisBlock : Uint256)
    (records : Uint256 → Option CBlockIndex) (nextRecords : Uint256 → Option Uint256) {es : List Event}
    (hrecords : ∀ h diskindex, records h = some diskindex → tree.HasEntry h diskindex)
    (hes : ∀ e ∈ es, e.OfTree tree) (hs : s = Run.exec step (opened records nextRecords) es) :
    (∀ h, (opened records nextRecords).WasLoaded es h → s.prev h = tree.prevHash h) ∧ StrictMono back ∧
      ∀ h a pindex, s.mapLoaded.find? h = some a → s.heap a = some pindex → pindex.phashBlock = some h →
        ∀ fuel, pindex.entry.nHeight < fuel → ∃ ps : List CBlockIndex,
          set hashGenesisBlock s fuel pindex = some { vHave := ps.map (·.phashBlock) ++ [hashGenesisBlock] } ∧
          0 < ps.length ∧ (∀ j (hj : j < ps.length), (tree.chain h)[back j]? = some ps[j]) ∧
          ((∀ q ∈ tree.chain h, (opened records nextRecords).WasLoaded es q.phashBlock) →
            pindex.entry.nHeight < back ps.length) ∧
          ∀ (records' : Uint256 → Option CBlockIndex) (nextRecords' : Uint256 → Option Uint256) (es' : List Event)
            (s' : LazyBlockMap) (pindexBest : Option Nat) (k : Nat) (hk : k < ps.length),
            (∀ h diskindex, records' h = some diskindex → tree.HasEntry h diskindex) → (∀ e ∈ es', e.OfTree tree) →
            s' = Run.exec step (opened records' nextRecords') es' → s'.AllRecorded →
            (∀ b, pindexBest = some b → (s'.heap b).isSome = true) →
            s'.InMainChain pindexBest ps[k].phashBlock →
            (∀ i (hi : i < k), ¬ s'.InMainChain pindexBest ps[i].phashBlock) → ∃ s'' entry,
              s'.entryOf ps[k].phashBlock = some entry ∧
              getDistanceBack pindexBest s' { vHave := ps.map (·.phashBlock) ++ [hashGenesisBlock] } =
                .ok (s'', (pindex.entry.nHeight : Int) - entry.nHeight) := by
  have hopened := opened_follows nextRecords hrecords
  have hfollows : s.Follows tree := hs ▸ (follows_exec hopened hes).1
  have htold : ∀ h, (opened records nextRecords).WasLoaded es h → s.prev h = tree.prevHash h :=
    fun h hloaded => hs ▸ prev_wasLoaded hopened hes hloaded
  refine ⟨htold, back_strictMono, fun h a pindex hload hheap hkey fuel hfuel => ?_⟩
  obtain ⟨pindex', hheap', -, p, hp, -, heq⟩ := hfollows.object h a hload
  obtain rfl : pindex = pindex' := Option.some.inj (hheap.symm.trans hheap')
  rw [heq] at hfuel ⊢
  obtain ⟨ps, hset, hpos, hps, hend⟩ := set_spec hashGenesisBlock hfollows hp (hheight h p hp) hkey hfuel
  refine ⟨ps, hset, hpos, hps, fun hall => hend fun q hq => htold _ (hall q hq), ?_⟩
  intro records' nextRecords' es' s' pindexBest k hk hrecords' hes' hs' hrecorded hbest hmain hfirst
  have hfollows' : s'.Follows tree := hs' ▸ (follows_exec (opened_follows nextRecords' hrecords') hes').1
  exact getDistanceBack_spec (hfollows'.readable hrecorded) hfollows' hbest hp (hheight h p hp) hps hk hmain hfirst

end Law

/-! ## A node that is one block behind -/

/-- The entries of a chain of three blocks. -/
def lineEntry (h : Uint256) : CBlockIndex :=
  { phashBlock := h, pprev := if h = 1 then none else some (h - 1), nHeight := h - 1 }

/-- The first blocks of the chain are inserted and recorded. -/
def insertLine (hashes : List Uint256) : List Event :=
  hashes.flatMap fun h => [.insert h (lineEntry h), .writeBlockIndex h (lineEntry h)]

/-- A node with three blocks that has unloaded the second. -/
def aheadEvents : List Event := insertLine [1, 2, 3] ++ [.unload 2]

/-- A node without entries. -/
def noEntries : LazyBlockMap := opened (fun _ => none) fun _ => none

theorem insertLine_ofTree {hashes : List Uint256} (h : ∀ x ∈ hashes, 1 ≤ x ∧ x ≤ 3) :
    ∀ e ∈ insertLine hashes, e.OfTree (BlockMap.line 2 fun _ => {}) := by
  intro e he
  obtain ⟨x, hx, he⟩ := List.mem_flatMap.mp he
  have hentry : (BlockMap.line 2 fun _ => {}).HasEntry x (lineEntry x) := ⟨_, if_pos (h x hx), rfl, rfl⟩
  rcases List.mem_cons.mp he with rfl | he
  · exact hentry
  · rw [List.mem_singleton] at he
    rw [he]
    exact hentry

theorem aheadEvents_wasLoaded {h : Uint256} (hh : 1 ≤ h ∧ h ≤ 3) : noEntries.WasLoaded aheadEvents h := by
  refine ⟨aheadEvents.take (2 * h), aheadEvents.drop (2 * h), (List.take_append_drop _ _).symm, fun hmem => ?_, ?_⟩
  · have hall : Event.clear ∈ aheadEvents := List.mem_of_mem_drop hmem
    simp [aheadEvents, insertLine] at hall
  · obtain rfl | rfl | rfl : h = 1 ∨ h = 2 ∨ h = 3 := by
      unfold Uint256 at *
      omega
    · decide +kernel
    · decide +kernel
    · decide +kernel

/-- A node that has the first two of the blocks is one block behind. -/
theorem locator_law_sample : (Run.exec step noEntries aheadEvents).prev 2 = some 1 ∧ ∃ ps : List CBlockIndex,
    set 1 (Run.exec step noEntries aheadEvents) 3 { phashBlock := some 3, entry := lineEntry 3 } =
      some { vHave := ps.map (·.phashBlock) ++ [1] } ∧ ∃ s'' entry,
    (Run.exec step noEntries (insertLine [1, 2])).entryOf 2 = some entry ∧
    getDistanceBack (some 1) (Run.exec step noEntries (insertLine [1, 2]))
      { vHave := ps.map (·.phashBlock) ++ [1] } = .ok (s'', (2 : Int) - entry.nHeight) := by
  have hheight : ∀ h p, (BlockMap.line 2 fun _ => {}).find h = some p → p.nHeight < 2 ^ 31 := by
    intro h p hp
    obtain ⟨hh, heq⟩ := Option.ite_none_right_eq_some.mp hp
    rw [← Option.some.inj heq]
    show h - 1 < 2 ^ 31
    unfold Uint256 at *
    omega
  have hahead : ∀ e ∈ aheadEvents, e.OfTree (BlockMap.line 2 fun _ => {}) := by
    intro e he
    rcases List.mem_append.mp he with he | he
    · exact insertLine_ofTree (by decide) e he
    · rw [List.mem_singleton.mp he]
      trivial
  obtain ⟨hprev, -, hset⟩ := locator_law hheight 1 (fun _ => none) (fun _ => none) (fun _ _ h => by cases h) hahead rfl
  obtain ⟨ps, heq, -, hps, hall, hback⟩ := hset 3 2 { phashBlock := some 3, entry := lineEntry 3 } (by decide +kernel)
    rfl rfl 3 (by decide)
  refine ⟨hprev 2 (aheadEvents_wasLoaded (by decide)), ps, heq, ?_⟩
  have hlen : 2 < ps.length := by
    refine back_strictMono.lt_iff_lt.mp (hall fun q hq => aheadEvents_wasLoaded ?_)
    obtain ⟨hh, -⟩ := Option.ite_none_right_eq_some.mp (BlockMap.find_of_mem_chain hq)
    exact hh
  have hhash : ∀ j (hj : j < ps.length), ((BlockMap.line 2 fun _ => {}).chain 3)[back j]?.map (·.phashBlock) =
      some ps[j].phashBlock := by
    intro j hj
    rw [hps j hj]
    rfl
  have hfirst : ps[0].phashBlock = 3 := Option.some.inj ((hhash 0 (by omega)).symm.trans (by decide +kernel))
  have hsecond : ps[1].phashBlock = 2 := Option.some.inj ((hhash 1 (by omega)).symm.trans (by decide +kernel))
  have hrecorded : (Run.exec step noEntries (insertLine [1, 2])).AllRecorded := by
    intro h hh
    by_cases h1 : h = 1
    · subst h1
      decide +kernel
    by_cases h2 : h = 2
    · subst h2
      decide +kernel
    · replace hh : Function.update (Function.update (fun _ => false) 1 true) 2 true h = true := hh
      rw [Function.update_of_ne h2, Function.update_of_ne h1] at hh
      cases hh
  have hbest : ∀ b, some 1 = some b → ((Run.exec step noEntries (insertLine [1, 2])).heap b).isSome = true := by
    rintro b ⟨⟩
    decide +kernel
  have hmain : (Run.exec step noEntries (insertLine [1, 2])).InMainChain (some 1) 2 := .inr ⟨1, by decide +kernel, rfl⟩
  have hunknown : ¬ (Run.exec step noEntries (insertLine [1, 2])).InMainChain (some 1) 3 := by
    rintro (⟨entry, q, hentry, -⟩ | ⟨a, ha, -⟩)
    · cases hentry
    · cases ha
  obtain ⟨s'', entry, hentry, hdistance⟩ := hback (fun _ => none) (fun _ => none) (insertLine [1, 2]) _ (some 1) 1
    (by omega) (fun _ _ h => by cases h) (insertLine_ofTree (by decide)) rfl hrecorded hbest
    (by rw [hsecond]; exact hmain)
    fun i hi => by
      obtain rfl : i = 0 := by omega
      rw [hfirst]
      exact hunknown
  rw [hsecond] at hentry
  exact ⟨s'', entry, hentry, hdistance⟩

end CBlockLocator

end Morcochain
