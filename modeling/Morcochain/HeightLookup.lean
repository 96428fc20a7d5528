import Morcochain.LazyIndex
import Morcochain.MainChain

/-!
# Looking up a block by its height

`FindBlockByHeight` (`main.cpp`) walks from the best block, the genesis block or the block that it found last, whose
pointer it keeps. The entries that it walks along are objects that are loaded on demand, and `BlockMap::cleanup` takes
old ones away.

* `Pictures` : the objects in memory and their records show the entries of the index.
* `findBlockByHeight_found` : **a lookup finds the block of the best chain**, from a pointer that may be read.
* `cacheValid_cleanup_iff` : **when a cleanup leaves the kept pointer valid**.
* `heightLookup_safe` : **so it is in every run** whose cleanups do.
-/

set_option autoImplicit false

namespace Morcochain

open Guard Mirror OrderedStore

/-! ## Objects in memory -/

namespace LazyBlockMap

variable (s : LazyBlockMap)

/-- `mapBlockIndex[hash]`, where the pointer is read afterwards: `none` where it is `NULL` or an exception is thrown. -/
def fetch (hash : Uint256) : Option (LazyBlockMap × Nat) :=
  match s.find hash with
  | .ok (s', some a) => some (s', a)
  | _ => none

/-- `*pindex`: `none` where there is no object at the address. -/
def entryAt (a : Nat) : Option CBlockIndex := (s.heap a).map (·.entry)

/-- Set `pnext` of the entry of a hash, and its `'n'` record. -/
def setNextOf (hash : Uint256) (hashNext : Option Uint256) : Option LazyBlockMap := do
  let (s, a) ← s.fetch hash
  let pindex ← s.heap a
  return { s with
    heap := Function.update s.heap a (some { pindex with entry := { pindex.entry with pnext := hashNext } })
    nextRecords := Function.update s.nextRecords hash hashNext }

/-- `pindex->pprev->pnext = NULL`, and the `'n'` record is erased. -/
def eraseNextOf (pindex : CBlockIndex) : Option LazyBlockMap :=
  match pindex.pprev with
  | none => some s
  | some q => s.setNextOf q none

/-- `pindex->pprev->pnext = pindex`, and the `'n'` record is written. -/
def writeNextOf (pindex : CBlockIndex) : Option LazyBlockMap :=
  match pindex.pprev with
  | none => some s
  | some q => s.setNextOf q (some pindex.phashBlock)

/-- One block that `SetBestChain` connects: its entry is read, and `ConnectBlock` leaves a record of it, unless it is
the genesis block. -/
def connectRecord (cfg : Settings) (s : LazyBlockMap) (pindex : CBlockIndex) : Option LazyBlockMap := do
  let (s, a) ← s.fetch pindex.phashBlock
  let entry ← s.entryAt a
  if pindex.phashBlock = cfg.hashGenesisBlock then return s
  return { s with records := Function.update s.records pindex.phashBlock (some entry) }

/-- What `SetBestChain` does to the objects and records, and the address of the new best block. -/
def connectChain (cfg : Settings) (hashNew : Uint256) (vDisconnect vConnect : List CBlockIndex) :
    Option (LazyBlockMap × Nat) := do
  let (s, pindexNew) ← s.fetch hashNew
  let s ← vConnect.foldlM (connectRecord cfg) s
  let s ← vDisconnect.foldlM eraseNextOf s
  let s ← vConnect.foldlM writeNextOf s
  return (s, pindexNew)

/-- Walk along a link while the entries meet a test, for at most `fuel` reads. -/
def walkWhile (again : CBlockIndex → Bool) (link : CBlockIndex → Option Uint256) :
    Nat → LazyBlockMap → Nat → Option (LazyBlockMap × Nat)
  | 0, _, _ => none
  | fuel + 1, s, pblockindex => do
    let entry ← s.entryAt pblockindex
    if again entry then
      let hash ← link entry
      let (s, pblockindex) ← s.fetch hash
      walkWhile again link fuel s pblockindex
    else return (s, pblockindex)

end LazyBlockMap

/-! ## The node -/

/-- The node with the entries that are in memory, and the globals that point to them. -/
structure LookupNode extends MainChainState where
  memory : LazyBlockMap
  pindexGenesisAt : Option Nat := none
  pindexBestAt : Option Nat := none
  nBestHeight : Int := -1
  pblockindexFBBHLast : Option Nat := none

namespace LookupNode

variable (s : LookupNode)

/-- The block that `FindBlockByHeight` starts from: the genesis block or the best block, or the block found last where
that one is nearer. -/
def lookupFrom (nHeight : Int) : Option Nat := do
  let pblockindex ← (if nHeight < s.nBestHeight.tdiv 2 then s.pindexGenesisAt else s.pindexBestAt : Option Nat)
  let entry ← s.memory.entryAt pblockindex
  match s.pblockindexFBBHLast with
  | none => return pblockindex
  | some last =>
    let lastEntry ← s.memory.entryAt last
    return if |nHeight - entry.nHeight| > |nHeight - lastEntry.nHeight| then last else pblockindex

/-- `FindBlockByHeight`, where each loop reads at most `fuel` entries. It returns an address; `none` where it reads an
object that is not there. -/
def findBlockByHeight (fuel : Nat) (nHeight : Int) : Option (LookupNode × Nat) := do
  let pblockindex ← s.lookupFrom nHeight
  let (m, pblockindex) ← LazyBlockMap.walkWhile (fun entry => entry.nHeight > nHeight) (·.pprev) fuel s.memory pblockindex
  let (m, pblockindex) ← LazyBlockMap.walkWhile (fun entry => entry.nHeight < nHeight) (·.pnext) fuel m pblockindex
  return ({ s with memory := m, pblockindexFBBHLast := some pblockindex }, pblockindex)

/-- `BlockMap::cleanup`, for the globals of the node. -/
def cleanup : Option LookupNode := do
  let best ← s.pindexBestAt.bind s.memory.entryAt
  return { s with memory := s.memory.cleanup best.nHeight s.pindexGenesisAt }

/-- The node with the entry of a block that `AddToBlockIndex` has filled in, and a record of it where the block passes. -/
def addEntry (cfg : Settings) (cr : Crypto) (e : AcceptEvent) (r : Except Failure Unit) (pindex : CBlockIndex) :
    LookupNode :=
  let hash := e.block.getHash cr
  let memory := s.memory.insert hash pindex
  { s with
    toMainChainState := s.withEntry cfg cr e pindex
    memory := if r.isOk then { memory with records := Function.update memory.records hash (some pindex) } else memory }

/-- `CLockedBlockIndex::operator=`. -/
def relock (m : LazyBlockMap) (old new : Option Nat) : LazyBlockMap :=
  let m := match old with
    | none => m
    | some a => m.unlock a
  match new with
  | none => m
  | some a => m.lock a

/-- The node after a `SetBestChain` that succeeds. Connecting the genesis block sets `pindexGenesisBlock`. -/
def connectBest (cfg : Settings) (env : NodeContext) (reorg : ChainState → ChainState) (hashNew : Uint256) :
    Option LookupNode := do
  let vDisconnect := disconnected s.tipChain (s.mapBlockIndex.chain hashNew)
  let vConnect := connected s.tipChain (s.mapBlockIndex.chain hashNew)
  let (m, pindexNew) ← s.memory.connectChain cfg hashNew vDisconnect vConnect
  let best ← m.entryAt pindexNew
  let genesisAt :=
    if cfg.hashGenesisBlock ∈ vConnect.map (·.phashBlock) then m.mapLoaded.find? cfg.hashGenesisBlock
    else s.pindexGenesisAt
  return {
    toMainChainState := s.connectTo env reorg hashNew
    memory := relock (relock m s.pindexGenesisAt genesisAt) s.pindexBestAt (some pindexNew)
    pindexGenesisAt := genesisAt
    pindexBestAt := some pindexNew
    nBestHeight := best.nHeight
    pblockindexFBBHLast := none }

/-- The kept pointer is `NULL`, or points to a loaded entry of the best chain. -/
def CacheValid : Prop :=
  ∀ a, s.pblockindexFBBHLast = some a → ∃ p ∈ s.tipChain, s.memory.mapLoaded.find? p.phashBlock = some a

/-- A cleanup does not unload the entry that the kept pointer points to: it is the genesis block, locked, or not too far
below the best block. -/
def KeepsCached : Prop := ∀ a, s.pblockindexFBBHLast = some a → ∃ pindex, s.memory.heap a = some pindex ∧
  (s.nBestHeight - LazyBlockMap.blockMapKeptHeight ≤ pindex.entry.nHeight ∨ s.pindexGenesisAt = some a ∨
    pindex.nLocks ≠ 0)

end LookupNode

/-- What happens to the node. -/
inductive LookupEvent where
  | addToBlockIndex
  | setBestChain
  | load
  | lock
  | cleanup
  | lookup
deriving DecidableEq, Repr

/-- One step: a block gets its entry, an entry of the index becomes the best block, an entry is loaded, locked or
unlocked, old entries are unloaded, a block is looked up. The new blocks are among those of `B`. -/
inductive LookupStep (cfg : Settings) (cr : Crypto) (B : CBlock → Prop) (s : LookupNode) :
    LookupEvent → LookupNode → Prop
  where
  | addToBlockIndex (e : AcceptEvent) (r : Except Failure Unit) (pindex : CBlockIndex)
      (hfills : s.Fills cfg cr e r pindex) (hB : B e.block) :
      LookupStep cfg cr B s .addToBlockIndex (s.addEntry cfg cr e r pindex)
  | setBestChain (env : NodeContext) (reorg : ChainState → ChainState) (hashNew : Uint256) (p : CBlockIndex)
      (hp : s.mapBlockIndex.find hashNew = some p) (hset : (s.setBestChain env reorg hashNew).2 = none)
      (s' : LookupNode) (hs' : s.connectBest cfg env reorg hashNew = some s') : LookupStep cfg cr B s .setBestChain s'
  | load (hash : Uint256) (m : LazyBlockMap) (a : Nat) (hm : s.memory.fetch hash = some (m, a)) :
      LookupStep cfg cr B s .load { s with memory := m }
  | lock (a : Nat) (n : Int) : LookupStep cfg cr B s .lock { s with memory := s.memory.addLocks a n }
  | cleanup (s' : LookupNode) (hs' : s.cleanup = some s') : LookupStep cfg cr B s .cleanup s'
  | lookup (fuel : Nat) (nHeight : Int) (s' : LookupNode) (a : Nat)
      (hs' : s.findBlockByHeight fuel nHeight = some (s', a)) : LookupStep cfg cr B s .lookup s'

/-- Any number of steps, in which no cleanup unloads the entry that the kept pointer points to. -/
abbrev LookupSteps (cfg : Settings) (cr : Crypto) (B : CBlock → Prop) : LookupNode → LookupNode → Prop :=
  Relation.ReflTransGen fun s s' => ∃ e, LookupStep cfg cr B s e s' ∧ (e = .cleanup → s.KeepsCached)

/-! ## What the memory shows -/

namespace LazyBlockMap

/-- The loaded objects and the records show the entries of an index, and the objects have the successors of the `'n'`
records. -/
structure Pictures (m : LazyBlockMap) (index : BlockMap) : Prop where
  object : ∀ h a, m.mapLoaded.find? h = some a → ∃ pindex p, m.heap a = some pindex ∧ pindex.phashBlock = some h ∧
    index.find h = some p ∧ pindex.entry.pprev = p.pprev ∧ pindex.entry.nHeight = p.nHeight ∧
      pindex.entry.pnext = m.nextRecords h
  record : ∀ h d, m.records h = some d → ∃ p, index.find h = some p ∧ d.pprev = p.pprev ∧ d.nHeight = p.nHeight
  known : ∀ h p, index.find h = some p → m.setKnown h = true
  fresh : ∀ a pindex, m.heap a = some pindex → a < m.nNew

/-- What is loaded and what is recorded stays so. -/
structure Grows (m m' : LazyBlockMap) : Prop where
  loaded : ∀ h a, m.mapLoaded.find? h = some a → m'.mapLoaded.find? h = some a
  recorded : ∀ h, (m.records h).isSome = true → (m'.records h).isSome = true

section Memory

variable {m m' m'' : LazyBlockMap} {index index' : BlockMap} {hash : Uint256} {a : Nat} {cfg : Settings}

theorem Grows.refl (m : LazyBlockMap) : Grows m m := ⟨fun _ _ h => h, fun _ h => h⟩

theorem Grows.trans (h : Grows m m') (h' : Grows m' m'') : Grows m m'' :=
  ⟨fun x b hx => h'.loaded x b (h.loaded x b hx), fun x hx => h'.recorded x (h.recorded x hx)⟩

theorem Pictures.keyed (h : Pictures m index) : m.Keyed := fun x b hx =>
  have ⟨pindex, _, hp, hkey, _⟩ := h.object x b hx
  ⟨pindex, hp, hkey⟩

/-- No two loaded entries are at one address. -/
theorem Pictures.unique (h : Pictures m index) {x y : Uint256} (hx : m.mapLoaded.find? x = some a)
    (hy : m.mapLoaded.find? y = some a) : x = y := by
  obtain ⟨pindex, hp, hkey⟩ := h.keyed x a hx
  obtain ⟨pindex', hp', hkey'⟩ := h.keyed y a hy
  rw [hp, Option.some.injEq] at hp'
  rw [← hp', hkey, Option.some.injEq] at hkey'
  exact hkey'

/-- The index may be replaced by one with the same predecessors and heights. -/
theorem Pictures.congr (h : Pictures m index) (hto : ∀ x p, index.find x = some p →
      ∃ p', index'.find x = some p' ∧ p'.pprev = p.pprev ∧ p'.nHeight = p.nHeight)
    (hfrom : ∀ x p', index'.find x = some p' → ∃ p, index.find x = some p) : Pictures m index' where
  object x b hx := by
    obtain ⟨pindex, p, hp, hkey, hfind, hprev, hheight, hnext⟩ := h.object x b hx
    obtain ⟨p', hp', hprev', hheight'⟩ := hto x p hfind
    exact ⟨pindex, p', hp, hkey, hp', hprev.trans hprev'.symm, hheight.trans hheight'.symm, hnext⟩
  record x d hd := by
    obtain ⟨p, hfind, hprev, hheight⟩ := h.record x d hd
    obtain ⟨p', hp', hprev', hheight'⟩ := hto x p hfind
    exact ⟨p', hp', hprev.trans hprev'.symm, hheight.trans hheight'.symm⟩
  known x p' hp' := by
    obtain ⟨p, hp⟩ := hfrom x p' hp'
    exact h.known x p hp
  fresh := h.fresh

/-- A new object is allocated for an entry that is not loaded, and that may be new to the index. -/
theorem Pictures.allocate (h : Pictures m index) {p : CBlockIndex} (pindexNew : IndexObject)
    (mapPrev : Uint256 → Option Uint256) (hindex : ∀ x, x ≠ hash → index'.find x = index.find x)
    (hp : index'.find hash = some p) (hrec : ∀ d, m.records hash = some d → d.pprev = p.pprev ∧ d.nHeight = p.nHeight)
    (hnew : m.mapLoaded.find? hash = none) (hkey : pindexNew.phashBlock = some hash)
    (hprev : pindexNew.entry.pprev = p.pprev) (hheight : pindexNew.entry.nHeight = p.nHeight)
    (hnext : pindexNew.entry.pnext = m.nextRecords hash)
    (hm' : m' = { m with
      setKnown := Function.update m.setKnown hash true
      mapPrev := mapPrev
      mapLoaded := m.mapLoaded.insert hash m.nNew
      heap := Function.update m.heap m.nNew (some pindexNew)
      nNew := m.nNew + 1 }) : Pictures m' index' ∧ Grows m m' := by
  subst hm'
  refine ⟨⟨fun x b hx => ?_, fun x d hd => ?_, fun x q hq => ?_, fun b pindex hb => ?_⟩, fun x b hx => ?_,
    fun _ hx => hx⟩
  · simp only [Store.find?_insert] at hx
    split at hx
    · rename_i hxh
      subst hxh
      cases hx
      exact ⟨pindexNew, p, Function.update_self _ _ _, hkey, hp, hprev, hheight, hnext⟩
    · rename_i hxh
      obtain ⟨pindex, q, hq, hrest⟩ := h.object x b hx
      rw [hindex x hxh]
      exact ⟨pindex, q, (Function.update_of_ne (Nat.ne_of_lt (h.fresh b pindex hq)) _ _).trans hq, hrest⟩
  · by_cases hxh : x = hash
    · subst hxh
      exact ⟨p, hp, hrec d hd⟩
    · rw [hindex x hxh]
      exact h.record x d hd
  · show Function.update m.setKnown hash true x = true
    by_cases hxh : x = hash
    · rw [hxh, Function.update_self]
    · rw [Function.update_of_ne hxh]
      exact h.known x q ((hindex x hxh).symm.trans hq)
  · show b < m.nNew + 1
    by_cases hbn : b = m.nNew
    · omega
    · exact Nat.lt_succ_of_lt (h.fresh b pindex ((Function.update_of_ne hbn _ _).symm.trans hb))
  · refine (Store.find?_insert _ _ _ _).trans ?_
    rw [if_neg, hx]
    rintro rfl
    rw [hnew] at hx
    cases hx

/-- **Reading an entry** loads it where it is not loaded. -/
theorem fetch_spec (h : Pictures m index) (hfetch : m.fetch hash = some (m', a)) :
    Pictures m' index ∧ Grows m m' ∧ m'.mapLoaded.find? hash = some a ∧ m'.nextRecords = m.nextRecords := by
  unfold fetch at hfetch
  cases hload : m.mapLoaded.find? hash with
  | some b =>
    rw [find_of_loaded hload] at hfetch
    cases hfetch
    exact ⟨h, .refl m, hload, rfl⟩
  | none =>
    by_cases hknown : m.setKnown hash = true
    · cases hdisk : m.records hash with
      | none =>
        simp only [find, hload, if_pos hknown, load, hdisk] at hfetch
        cases hfetch
      | some d =>
        rw [find_of_known hload hknown hdisk] at hfetch
        obtain ⟨p, hp, hprev, hheight⟩ := h.record hash d hdisk
        have hfrom : m.loadFrom hash d = ({ m with
            setKnown := Function.update m.setKnown hash true
            mapPrev := Function.update m.mapPrev hash none
            mapLoaded := m.mapLoaded.insert hash m.nNew
            heap := Function.update m.heap m.nNew (some
              { phashBlock := some hash, entry := CBlockIndex.ofDisk d (m.nextRecords hash) })
            nNew := m.nNew + 1 }, m.nNew) := by simp only [loadFrom, hload]
        rw [hfrom] at hfetch
        cases hfetch
        obtain ⟨hpictures, hgrows⟩ := h.allocate
          { phashBlock := some hash, entry := CBlockIndex.ofDisk d (m.nextRecords hash) } _ (fun _ _ => rfl) hp
            (fun d' hd' => Option.some.inj (hdisk.symm.trans hd') ▸ ⟨hprev, hheight⟩) hload rfl hprev hheight rfl rfl
        exact ⟨hpictures, hgrows, (Store.find?_insert _ _ _ _).trans (if_pos rfl), rfl⟩
    · rw [find_of_unknown hload hknown] at hfetch
      cases hfetch

/-- An entry with a record can be read. -/
theorem fetch_isSome (h : Pictures m index) {p : CBlockIndex} (hp : index.find hash = some p)
    (hrec : (m.records hash).isSome = true ∨ ∃ b, m.mapLoaded.find? hash = some b) : ∃ r, m.fetch hash = some r := by
  unfold fetch
  cases hload : m.mapLoaded.find? hash with
  | some b => exact ⟨_, by rw [find_of_loaded hload]⟩
  | none =>
    obtain ⟨d, hd⟩ := Option.isSome_iff_exists.mp (hrec.resolve_right fun ⟨b, hb⟩ => by rw [hload] at hb; cases hb)
    exact ⟨_, by rw [find_of_known hload (h.known hash p hp) hd]⟩

/-- A record is written for an entry of the index. -/
theorem Pictures.writeRecord (h : Pictures m index) {p d : CBlockIndex} (hp : index.find hash = some p)
    (hprev : d.pprev = p.pprev) (hheight : d.nHeight = p.nHeight) :
    Pictures { m with records := Function.update m.records hash (some d) } index ∧
      Grows m { m with records := Function.update m.records hash (some d) } := by
  refine ⟨⟨h.object, fun x d' hd => ?_, h.known, h.fresh⟩, fun _ _ hx => hx, fun x hx => ?_⟩
  · replace hd : Function.update m.records hash (some d) x = some d' := hd
    by_cases hxh : x = hash
    · subst hxh
      rw [Function.update_self, Option.some.injEq] at hd
      subst hd
      exact ⟨p, hp, hprev, hheight⟩
    · rw [Function.update_of_ne hxh] at hd
      exact h.record x d' hd
  · show (Function.update m.records hash (some d) x).isSome = true
    by_cases hxh : x = hash
    · rw [hxh, Function.update_self]
      rfl
    · rwa [Function.update_of_ne hxh]

/-- **Setting a successor**, in the object and in the record. -/
theorem setNextOf_spec (h : Pictures m index) {hashNext : Option Uint256} (hset : m.setNextOf hash hashNext = some m') :
    Pictures m' index ∧ Grows m m' ∧ m'.nextRecords = Function.update m.nextRecords hash hashNext := by
  obtain ⟨⟨m₁, a⟩, hfetch, hset⟩ := Option.bind_eq_some_iff.mp hset
  obtain ⟨pindex, hp, hset⟩ := Option.bind_eq_some_iff.mp hset
  cases hset
  obtain ⟨h₁, hgrows, hload, hnext⟩ := fetch_spec h hfetch
  refine ⟨⟨fun x b hx => ?_, h₁.record, h₁.known, fun b q hb => ?_⟩, ⟨hgrows.loaded, hgrows.recorded⟩, by
    show Function.update m₁.nextRecords hash hashNext = _
    rw [hnext]⟩
  · obtain ⟨q, p, hq, hkey, hrest⟩ := h₁.object x b hx
    show ∃ pindex' p, Function.update m₁.heap a _ b = some pindex' ∧ pindex'.phashBlock = some x ∧ _ ∧ _ ∧ _ ∧
      pindex'.entry.pnext = Function.update m₁.nextRecords hash hashNext x
    by_cases hb : b = a
    · subst hb
      obtain rfl := h₁.unique hx hload
      rw [hp, Option.some.injEq] at hq
      subst hq
      refine ⟨_, p, Function.update_self _ _ _, hkey, hrest.1, hrest.2.1, hrest.2.2.1, ?_⟩
      rw [Function.update_self]
    · have hxh : x ≠ hash := by
        rintro rfl
        exact hb (Option.some.inj (hx.symm.trans hload))
      rw [Function.update_of_ne hb, Function.update_of_ne hxh]
      exact ⟨q, p, hq, hkey, hrest⟩
  · by_cases hba : b = a
    · exact h₁.fresh b pindex (hba ▸ hp)
    · exact h₁.fresh b q ((Function.update_of_ne hba _ _).symm.trans hb)

/-- What connecting a block does: its entry is loaded, and has a record unless it is the genesis block. -/
theorem connectRecord_spec (h : Pictures m index) {pindex : CBlockIndex} (hrec : connectRecord cfg m pindex = some m') :
    Pictures m' index ∧ Grows m m' ∧ m'.nextRecords = m.nextRecords ∧
      (∃ a, m'.mapLoaded.find? pindex.phashBlock = some a) ∧
      (pindex.phashBlock ≠ cfg.hashGenesisBlock → (m'.records pindex.phashBlock).isSome = true) := by
  obtain ⟨⟨m₁, a⟩, hfetch, hrec⟩ := Option.bind_eq_some_iff.mp hrec
  obtain ⟨entry, hentry, hrec⟩ := Option.bind_eq_some_iff.mp hrec
  obtain ⟨h₁, hgrows, hload, hnext⟩ := fetch_spec h hfetch
  split at hrec
  · rename_i hgenesis
    cases hrec
    exact ⟨h₁, hgrows, hnext, ⟨a, hload⟩, fun hne => absurd hgenesis hne⟩
  · cases hrec
    obtain ⟨q, p, hq, -, hfind, hprev, hheight, -⟩ := h₁.object _ a hload
    rw [entryAt, hq, Option.map_some, Option.some.injEq] at hentry
    subst hentry
    obtain ⟨hpictures, hgrows'⟩ := h₁.writeRecord (d := q.entry) hfind hprev hheight
    exact ⟨hpictures, hgrows.trans hgrows', hnext, ⟨a, hload⟩, fun _ => by
      simp only [Function.update_self, Option.isSome_some]⟩

/-- Connecting several blocks. -/
theorem connectRecords_spec : ∀ {l : List CBlockIndex} {m m' : LazyBlockMap}, Pictures m index →
    l.foldlM (connectRecord cfg) m = some m' → Pictures m' index ∧ Grows m m' ∧ m'.nextRecords = m.nextRecords ∧
      ∀ p ∈ l, (∃ a, m'.mapLoaded.find? p.phashBlock = some a) ∧
        (p.phashBlock ≠ cfg.hashGenesisBlock → (m'.records p.phashBlock).isSome = true)
  | [], m, _, h, hok => by
    cases hok
    exact ⟨h, .refl m, rfl, List.forall_mem_nil _⟩
  | p :: l, m, m', h, hok => by
    rw [List.foldlM_cons] at hok
    obtain ⟨m₁, h₁, h₂⟩ := Option.bind_eq_some_iff.mp hok
    obtain ⟨hpictures, hgrows, hnext, ⟨a, hload⟩, hrec⟩ := connectRecord_spec h h₁
    obtain ⟨hpictures', hgrows', hnext', hall⟩ := connectRecords_spec hpictures h₂
    refine ⟨hpictures', hgrows.trans hgrows', hnext'.trans hnext,
      List.forall_mem_cons.mpr ⟨⟨⟨a, hgrows'.loaded _ a hload⟩,
      fun hne => hgrows'.recorded _ (hrec hne)⟩, hall⟩⟩

/-- Changes of successors, one block after the other. -/
theorem relinks_spec {f : LazyBlockMap → CBlockIndex → Option LazyBlockMap}
    {g : (Uint256 → Option Uint256) → CBlockIndex → Uint256 → Option Uint256}
    (hf : ∀ m m' p, Pictures m index → f m p = some m' →
      Pictures m' index ∧ Grows m m' ∧ m'.nextRecords = g m.nextRecords p) :
    ∀ {l : List CBlockIndex} {m m' : LazyBlockMap}, Pictures m index → l.foldlM f m = some m' →
      Pictures m' index ∧ Grows m m' ∧ m'.nextRecords = l.foldl g m.nextRecords
  | [], m, _, h, hok => by
    cases hok
    exact ⟨h, .refl m, rfl⟩
  | p :: l, m, m', h, hok => by
    rw [List.foldlM_cons] at hok
    obtain ⟨m₁, h₁, h₂⟩ := Option.bind_eq_some_iff.mp hok
    obtain ⟨hpictures, hgrows, hnext⟩ := hf m m₁ p h h₁
    obtain ⟨hpictures', hgrows', hnext'⟩ := relinks_spec hf hpictures h₂
    exact ⟨hpictures', hgrows.trans hgrows', by rw [hnext', hnext, List.foldl_cons]⟩

theorem eraseNextOf_spec (m m' : LazyBlockMap) (p : CBlockIndex) (h : Pictures m index)
    (hok : m.eraseNextOf p = some m') :
    Pictures m' index ∧ Grows m m' ∧ m'.nextRecords = eraseNext m.nextRecords p := by
  unfold eraseNextOf at hok
  unfold eraseNext
  cases hq : p.pprev with
  | none =>
    rw [hq] at hok
    cases hok
    exact ⟨h, .refl m, rfl⟩
  | some q =>
    rw [hq] at hok
    exact setNextOf_spec h hok

theorem writeNextOf_spec (m m' : LazyBlockMap) (p : CBlockIndex) (h : Pictures m index)
    (hok : m.writeNextOf p = some m') :
    Pictures m' index ∧ Grows m m' ∧ m'.nextRecords = writeNext m.nextRecords p := by
  unfold writeNextOf at hok
  unfold writeNext
  cases hq : p.pprev with
  | none =>
    rw [hq] at hok
    cases hok
    exact ⟨h, .refl m, rfl⟩
  | some q =>
    rw [hq] at hok
    exact setNextOf_spec h hok

/-- **What `SetBestChain` does to the objects and records.** -/
theorem connectChain_spec (h : Pictures m index) {hashNew : Uint256} {vDisconnect vConnect : List CBlockIndex}
    (hok : m.connectChain cfg hashNew vDisconnect vConnect = some (m', a)) :
    Pictures m' index ∧ Grows m m' ∧ m'.nextRecords = relinkRecords m.nextRecords vDisconnect vConnect ∧
      m'.mapLoaded.find? hashNew = some a ∧ ∀ p ∈ vConnect, (∃ b, m'.mapLoaded.find? p.phashBlock = some b) ∧
        (p.phashBlock ≠ cfg.hashGenesisBlock → (m'.records p.phashBlock).isSome = true) := by
  obtain ⟨⟨m₁, a₁⟩, hfetch, hok⟩ := Option.bind_eq_some_iff.mp hok
  obtain ⟨m₂, hrecord, hok⟩ := Option.bind_eq_some_iff.mp hok
  obtain ⟨m₃, herase, hok⟩ := Option.bind_eq_some_iff.mp hok
  obtain ⟨m₄, hwrite, hok⟩ := Option.bind_eq_some_iff.mp hok
  cases hok
  obtain ⟨h₁, hgrows₁, hload, hnext₁⟩ := fetch_spec h hfetch
  obtain ⟨h₂, hgrows₂, hnext₂, hall⟩ := connectRecords_spec h₁ hrecord
  obtain ⟨h₃, hgrows₃, hnext₃⟩ := relinks_spec eraseNextOf_spec h₂ herase
  obtain ⟨h₄, hgrows₄, hnext₄⟩ := relinks_spec writeNextOf_spec h₃ hwrite
  have hlater := hgrows₃.trans hgrows₄
  refine ⟨h₄, hgrows₁.trans (hgrows₂.trans hlater), ?_, (hgrows₂.trans hlater).loaded _ _ hload, fun p hp => ?_⟩
  · rw [hnext₄, hnext₃, hnext₂, hnext₁, relinkRecords]
  · obtain ⟨⟨b, hb⟩, hrec⟩ := hall p hp
    exact ⟨⟨b, hlater.loaded _ b hb⟩, fun hne => hlater.recorded _ (hrec hne)⟩

/-- Locks change nothing of what is shown. -/
theorem addLocks_spec (h : Pictures m index) (b : Nat) (n : Int) :
    Pictures (m.addLocks b n) index ∧ Grows m (m.addLocks b n) := by
  have hheap : ∀ c pindex, m.heap c = some pindex → ∃ pindex', (m.addLocks b n).heap c = some pindex' ∧
      pindex'.phashBlock = pindex.phashBlock ∧ pindex'.entry = pindex.entry := by
    intro c pindex hc
    by_cases hcb : c = b
    · subst hcb
      refine ⟨{ pindex with nLocks := pindex.nLocks + n }, ?_, rfl, rfl⟩
      show Function.update m.heap c _ c = _
      rw [Function.update_self, hc]
      rfl
    · exact ⟨pindex, (Function.update_of_ne hcb _ _).trans hc, rfl, rfl⟩
  refine ⟨⟨fun x c hx => ?_, h.record, h.known, fun c pindex hc => ?_⟩, fun _ _ hx => hx, fun _ hx => hx⟩
  · obtain ⟨pindex, p, hp, hkey, hfind, hrest⟩ := h.object x c hx
    obtain ⟨pindex', hp', hkey', hentry⟩ := hheap c pindex hp
    exact ⟨pindex', p, hp', hkey'.trans hkey, hfind, hentry ▸ hrest⟩
  · by_cases hcb : c = b
    · subst hcb
      replace hc : Function.update m.heap c ((m.heap c).map fun q => { q with nLocks := q.nLocks + n }) c =
        some pindex := hc
      rw [Function.update_self, Option.map_eq_some_iff] at hc
      obtain ⟨q, hq, -⟩ := hc
      exact h.fresh c q hq
    · exact h.fresh c pindex ((Function.update_of_ne hcb _ _).symm.trans hc)

/-- **What is left after a cleanup.** -/
theorem cleanup_spec (h : Pictures m index) (nBestHeight : Int) (pindexGenesisBlock : Option Nat) :
    Pictures (m.cleanup nBestHeight pindexGenesisBlock) index ∧
      (m.cleanup nBestHeight pindexGenesisBlock).records = m.records ∧
      (m.cleanup nBestHeight pindexGenesisBlock).nextRecords = m.nextRecords ∧
      ∀ x b pindex, m.mapLoaded.find? x = some b → m.heap b = some pindex →
        ((m.cleanup nBestHeight pindexGenesisBlock).mapLoaded.find? x = some b ↔
          nBestHeight - blockMapKeptHeight ≤ pindex.entry.nHeight ∨ pindexGenesisBlock = some b ∨
            pindex.nLocks ≠ 0) := by
  have hkeyed := h.keyed
  have hshrinks : m.Shrinks (m.cleanup nBestHeight pindexGenesisBlock) := shrinks_unloadWhere _ _ hkeyed
  have hnext : (m.cleanup nBestHeight pindexGenesisBlock).nextRecords = m.nextRecords := nextRecords_unloadWhere _ _
  refine ⟨⟨fun x b hx => ?_, fun x d hd => ?_, fun x p hp => ?_, fun b pindex hb => ?_⟩, hshrinks.records, hnext,
    fun x b pindex hx hb => ?_⟩
  · obtain ⟨hx', hheap⟩ := hshrinks.loaded x b hx
    rw [hheap, hnext]
    exact h.object x b hx'
  · rw [hshrinks.records] at hd
    exact h.record x d hd
  · rw [hshrinks.known]
    exact h.known x p hp
  · rw [hshrinks.next]
    exact h.fresh b pindex (hshrinks.heap b pindex hb)
  · have hmem := Store.find?_eq_some.mp hx
    -- the test of `cleanup` reads the object only
    have htest : ∀ t : LazyBlockMap, t.heap b = some pindex →
        (!((t.heap b).any fun pindex => decide (nBestHeight - blockMapKeptHeight ≤ pindex.entry.nHeight)) &&
          decide (pindexGenesisBlock ≠ some b)) =
        !(decide (nBestHeight - blockMapKeptHeight ≤ pindex.entry.nHeight) || decide (pindexGenesisBlock = some b)) := by
      intro t ht
      rw [ht, Option.any_some, Bool.not_or, decide_not]
    by_cases hkept : nBestHeight - blockMapKeptHeight ≤ pindex.entry.nHeight ∨ pindexGenesisBlock = some b
    · refine iff_of_true (unloadWhere_stays (fun t ht => ?_) _ hkeyed (fun e he hex => ?_) hx hb).1 ?_
      · rw [htest t ht, Bool.not_eq_false', Bool.or_eq_true, decide_eq_true_eq, decide_eq_true_eq]
        exact hkept
      · obtain ⟨y, c⟩ := e
        obtain rfl : y = x := hex
        exact Option.some.inj ((Store.find?_eq_some.mpr he).symm.trans hx)
      · exact hkept.imp_right .inl
    · by_cases hlocks : pindex.nLocks = 0
      · refine iff_of_false (fun hstays => ?_) ?_
        · have hgone : (m.cleanup nBestHeight pindexGenesisBlock).mapLoaded.find? x = none := by
            refine unloadWhere_gone (fun t ht => ?_) hlocks m.mapLoaded.entries hkeyed hmem hx hb
            rw [htest t ht, Bool.not_eq_true', Bool.or_eq_false_iff, decide_eq_false_iff_not, decide_eq_false_iff_not]
            exact not_or.mp hkept
          rw [hgone] at hstays
          cases hstays
        · rintro (hle | hgenesis | hne)
          · exact hkept (.inl hle)
          · exact hkept (.inr hgenesis)
          · exact hne hlocks
      · refine iff_of_true ?_ (.inr (.inr hlocks))
        exact ((hshrinks.kept x b pindex hx hb).resolve_right fun hgone => hlocks hgone.1).1

end Memory

/-! ## Walking along a chain -/

/-- The memory shows the blocks of a chain: each can be read, and has the successor that its entry has. -/
structure ShowsChain (m : LazyBlockMap) (index : BlockMap) (chain : List CBlockIndex) : Prop where
  pictures : Pictures m index
  found : ∀ p ∈ chain, index.find p.phashBlock = some p
  there : ∀ p ∈ chain, (m.records p.phashBlock).isSome = true ∨ ∃ a, m.mapLoaded.find? p.phashBlock = some a
  next : ∀ p ∈ chain, m.nextRecords p.phashBlock = p.pnext

/-- The entry has the links and the height of a block. -/
def Agrees (entry p : CBlockIndex) : Prop :=
  entry.pprev = p.pprev ∧ entry.nHeight = p.nHeight ∧ entry.pnext = p.pnext

section Walk

variable {m m' : LazyBlockMap} {index : BlockMap} {chain : List CBlockIndex} {a a' : Nat}

theorem ShowsChain.grows (h : ShowsChain m index chain) (hpictures : Pictures m' index) (hgrows : Grows m m')
    (hnext : m'.nextRecords = m.nextRecords) : ShowsChain m' index chain where
  pictures := hpictures
  found := h.found
  there p hp := (h.there p hp).imp (hgrows.recorded _) fun ⟨a, ha⟩ => ⟨a, hgrows.loaded _ a ha⟩
  next p hp := by rw [hnext, h.next p hp]

/-- The object of a block of the chain. -/
theorem ShowsChain.entryAt (h : ShowsChain m index chain) {p : CBlockIndex} (hp : p ∈ chain)
    (hload : m.mapLoaded.find? p.phashBlock = some a) : ∃ entry, m.entryAt a = some entry ∧ Agrees entry p := by
  obtain ⟨pindex, q, hheap, -, hq, hprev, hheight, hnext⟩ := h.pictures.object _ a hload
  rw [h.found p hp, Option.some.injEq] at hq
  subst hq
  exact ⟨pindex.entry, by rw [LazyBlockMap.entryAt, hheap]; rfl, hprev, hheight, hnext.trans (h.next p hp)⟩

/-- What a walk needs to know of its test and its link: they read the links and the height only, and from a block of the
chain that meets an invariant the link leads to another one. -/
structure StaysOn (chain : List CBlockIndex) (Q : CBlockIndex → Prop) (again : CBlockIndex → Bool)
    (link : CBlockIndex → Option Uint256) : Prop where
  again_eq : ∀ e p, Agrees e p → again e = again p
  link_eq : ∀ e p, Agrees e p → link e = link p
  stays : ∀ p ∈ chain, Q p → again p = true → ∀ q, link p = some q → ∃ r ∈ chain, r.phashBlock = q ∧ Q r

/-- **Where a walk ends**: at a block of the chain that meets the invariant and not the test. -/
theorem walkWhile_spec {Q : CBlockIndex → Prop} {again : CBlockIndex → Bool} {link : CBlockIndex → Option Uint256}
    (hon : StaysOn chain Q again link) : ∀ {fuel : Nat} {m : LazyBlockMap} {a : Nat} {p : CBlockIndex},
      ShowsChain m index chain → p ∈ chain → Q p → m.mapLoaded.find? p.phashBlock = some a →
        walkWhile again link fuel m a = some (m', a') →
          ShowsChain m' index chain ∧ Grows m m' ∧ m'.nextRecords = m.nextRecords ∧
            ∃ p' ∈ chain, m'.mapLoaded.find? p'.phashBlock = some a' ∧ Q p' ∧ again p' = false
  | 0, _, _, _, _, _, _, _, h => by cases h
  | fuel + 1, m, a, p, hshows, hp, hQ, hload, h => by
    obtain ⟨entry, hentry, hagrees⟩ := hshows.entryAt hp hload
    unfold walkWhile at h
    simp only [hentry, Option.bind_eq_bind, Option.bind_some, hon.again_eq entry p hagrees,
      hon.link_eq entry p hagrees] at h
    split at h
    · rename_i hagain
      obtain ⟨q, hlink, h'⟩ := Option.bind_eq_some_iff.mp h
      obtain ⟨⟨m₁, a₁⟩, hfetch, hrest⟩ := Option.bind_eq_some_iff.mp h'
      obtain ⟨hpictures, hgrows, hload₁, hnext⟩ := fetch_spec hshows.pictures hfetch
      obtain ⟨r, hr, rfl, hQr⟩ := hon.stays p hp hQ hagain q hlink
      obtain ⟨hshows', hgrows', hnext', hend⟩ :=
        walkWhile_spec hon (hshows.grows hpictures hgrows hnext) hr hQr hload₁ hrest
      exact ⟨hshows', hgrows.trans hgrows', hnext'.trans hnext, hend⟩
    · rename_i hagain
      cases h
      exact ⟨hshows, .refl _, rfl, p, hp, hload, hQ, Bool.eq_false_iff.mpr hagain⟩

/-- **A walk ends** when every block that meets the test has a link that leads nearer to the end. -/
theorem walkWhile_isSome {Q : CBlockIndex → Prop} {again : CBlockIndex → Bool} {link : CBlockIndex → Option Uint256}
    (hon : StaysOn chain Q again link) {μ : CBlockIndex → Nat}
    (hnear : ∀ p ∈ chain, again p = true → ∃ r ∈ chain, link p = some r.phashBlock ∧ μ r < μ p) :
    ∀ {fuel : Nat} {m : LazyBlockMap} {a : Nat} {p : CBlockIndex}, ShowsChain m index chain → p ∈ chain →
      m.mapLoaded.find? p.phashBlock = some a → μ p < fuel → ∃ r, walkWhile again link fuel m a = some r
  | 0, _, _, _, _, _, _, h => absurd h (Nat.not_lt_zero _)
  | fuel + 1, m, a, p, hshows, hp, hload, hfuel => by
    obtain ⟨entry, hentry, hagrees⟩ := hshows.entryAt hp hload
    unfold walkWhile
    simp only [hentry, Option.bind_eq_bind, Option.bind_some, hon.again_eq entry p hagrees, hon.link_eq entry p hagrees]
    split
    · rename_i hagain
      obtain ⟨r, hr, hlink, hlt⟩ := hnear p hp hagain
      obtain ⟨⟨m₁, a₁⟩, hfetch⟩ := fetch_isSome hshows.pictures (hshows.found r hr) (hshows.there r hr)
      obtain ⟨hpictures, hgrows, hload₁, hnext⟩ := fetch_spec hshows.pictures hfetch
      simp only [hlink, hfetch, Option.bind_some]
      exact walkWhile_isSome hon hnear (hshows.grows hpictures hgrows hnext) hr hload₁ (by omega)
    · exact ⟨_, rfl⟩

end Walk

end LazyBlockMap

/-! ## Lookups -/

/-- What holds of the node: the best chain is linked and goes down to the genesis block, the memory shows the index, the
blocks of the best chain have records, and the best block and the genesis block are loaded. -/
structure LookupInv (cfg : Settings) (s : LookupNode) : Prop where
  linked : LinkedInv s.toMainChainState
  roots : ∀ h p, s.mapBlockIndex.find h = some p → p.pprev = none → h = cfg.hashGenesisBlock
  pictures : s.memory.Pictures s.mapBlockIndex
  next : s.memory.nextRecords = s.nextRecords
  recorded : ∀ p ∈ s.tipChain, p.phashBlock ≠ cfg.hashGenesisBlock → (s.memory.records p.phashBlock).isSome = true
  genesis : ∀ b, s.pindexBest = some b → ∃ a, s.pindexGenesisAt = some a ∧
    s.memory.mapLoaded.find? cfg.hashGenesisBlock = some a
  best : ∀ b, s.pindexBest = some b → ∃ a p, s.pindexBestAt = some a ∧ s.memory.mapLoaded.find? b = some a ∧
    s.mapBlockIndex.find b = some p ∧ s.nBestHeight = p.nHeight
  start : s.pindexBest = none → s.pindexGenesisAt = none ∧ s.pindexBestAt = none ∧ s.nBestHeight = -1

section Lookup

open LazyBlockMap

variable {cfg : Settings} {s s' : LookupNode} {fuel : Nat} {nHeight : Int} {a : Nat}

theorem LookupInv.tipChain_eq (h : LookupInv cfg s) {b : Uint256} (hb : s.pindexBest = some b) :
    s.tipChain = s.mapBlockIndex.chain b := by
  rw [ChainState.tipChain, h.linked.best, hb]
  rfl

/-- A block of the best chain, and the best block, which is not below it. -/
theorem LookupInv.mem_tipChain (h : LookupInv cfg s) {p : CBlockIndex} (hp : p ∈ s.tipChain) :
    ∃ b top, s.pindexBest = some b ∧ s.mapBlockIndex.find b = some top ∧
      s.tipChain = top :: s.mapBlockIndex.prevChain top ∧
      s.nBestHeight = top.nHeight ∧ p.nHeight ≤ top.nHeight ∧ (p.nHeight = top.nHeight → p = top) := by
  cases hb : s.pindexBest with
  | none =>
    rw [ChainState.tipChain, h.linked.best, hb] at hp
    cases hp
  | some b =>
    obtain ⟨a, top, -, -, htop, hheight⟩ := h.best b hb
    have hchain := (h.tipChain_eq hb).trans (BlockMap.chain_of_find htop)
    have hheights := s.mapBlockIndex.chain_heights b
    rw [BlockMap.chain_of_find htop] at hheights
    refine ⟨b, top, rfl, htop, hchain, hheight, ?_⟩
    rw [hchain] at hp
    rcases List.mem_cons.mp hp with rfl | hp
    · exact ⟨le_refl _, fun _ => rfl⟩
    · have hlt := (List.pairwise_cons.mp hheights).1 p hp
      exact ⟨hlt.le, fun heq => absurd heq (Nat.ne_of_lt hlt)⟩

theorem LookupInv.find_of_mem (h : LookupInv cfg s) {p : CBlockIndex} (hp : p ∈ s.tipChain) :
    s.mapBlockIndex.find p.phashBlock = some p := by
  obtain ⟨b, -, hb, -⟩ := h.mem_tipChain hp
  rw [h.tipChain_eq hb] at hp
  exact BlockMap.find_of_mem_chain hp

/-- The memory shows the best chain. -/
theorem LookupInv.shows (h : LookupInv cfg s) : s.memory.ShowsChain s.mapBlockIndex s.tipChain where
  pictures := h.pictures
  found _ hp := h.find_of_mem hp
  there p hp := by
    by_cases hgenesis : p.phashBlock = cfg.hashGenesisBlock
    · obtain ⟨b, -, hb, -⟩ := h.mem_tipChain hp
      obtain ⟨a, -, ha⟩ := h.genesis b hb
      exact .inr ⟨a, hgenesis ▸ ha⟩
    · exact .inl (h.recorded p hp hgenesis)
  next p hp := by rw [h.next, h.linked.records_eq, BlockMap.nextLinks, h.find_of_mem hp, Option.bind_some]

/-- The predecessor of a block of the best chain is one. -/
theorem LookupInv.prev (h : LookupInv cfg s) {p : CBlockIndex} (hp : p ∈ s.tipChain) {q : Uint256}
    (hq : p.pprev = some q) : ∃ r ∈ s.tipChain, r.phashBlock = q := by
  obtain ⟨b, -, hb, -⟩ := h.mem_tipChain hp
  rw [h.tipChain_eq hb] at hp ⊢
  exact List.mem_map.mp (List.mem_of_mem_tail (BlockMap.prev_mem_tail hp hq))

/-- The successor of a block of the best chain is one, and one higher. -/
theorem LookupInv.succ (h : LookupInv cfg s) {p : CBlockIndex} (hp : p ∈ s.tipChain) {q : Uint256}
    (hq : p.pnext = some q) : ∃ r ∈ s.tipChain, r.phashBlock = q ∧ r.nHeight = p.nHeight + 1 := by
  have hfind := h.find_of_mem hp
  have hlink : s.mapBlockIndex.nextLinks p.phashBlock = some q := by
    rw [BlockMap.nextLinks, hfind, Option.bind_some, hq]
  obtain ⟨r, hr, hprev, hhash⟩ := (h.linked.memory p.phashBlock q).mp hlink
  refine ⟨r, hr, hhash, ?_⟩
  obtain ⟨hnone, -⟩ | ⟨q', pprev, hq', hpprev, hheight⟩ := s.mapBlockIndex.prev_in _ r (h.find_of_mem hr)
  · rw [hprev] at hnone
    cases hnone
  · rw [hprev, Option.some.injEq] at hq'
    rw [← hq', hfind, Option.some.injEq] at hpprev
    rw [hheight, hpprev]

/-- The walk down, for a height. -/
theorem LookupInv.staysOn_prev (h : LookupInv cfg s) (nHeight : Int) : StaysOn s.tipChain (fun _ => True)
    (fun entry => entry.nHeight > nHeight) (·.pprev) where
  again_eq e p hagrees := by simp only [hagrees.2.1]
  link_eq e p hagrees := hagrees.1
  stays p hp _ _ q hq := by
    obtain ⟨r, hr, hhash⟩ := h.prev hp hq
    exact ⟨r, hr, hhash, trivial⟩

/-- The walk up, to a height. -/
theorem LookupInv.staysOn_next (h : LookupInv cfg s) (nHeight : Int) : StaysOn s.tipChain (fun p => p.nHeight ≤ nHeight)
    (fun entry => entry.nHeight < nHeight) (·.pnext) where
  again_eq e p hagrees := by simp only [hagrees.2.1]
  link_eq e p hagrees := hagrees.2.2
  stays p hp _ hagain q hq := by
    obtain ⟨r, hr, hhash, hheight⟩ := h.succ hp hq
    have hlt : (p.nHeight : Int) < nHeight := of_decide_eq_true hagain
    exact ⟨r, hr, hhash, by omega⟩

/-- The genesis block and the best block are blocks of the best chain. -/
theorem LookupInv.ends (h : LookupInv cfg s) {b : Uint256} (hb : s.pindexBest = some b) (nHeight : Int) :
    ∃ start, (if nHeight < s.nBestHeight.tdiv 2 then s.pindexGenesisAt else s.pindexBestAt) = some start ∧
      ∃ p ∈ s.tipChain, s.memory.mapLoaded.find? p.phashBlock = some start := by
  obtain ⟨ag, hag, hgenesis⟩ := h.genesis b hb
  obtain ⟨ab, top, hab, hbest, htop, -⟩ := h.best b hb
  split
  · obtain ⟨r, hr, hroot⟩ := BlockMap.exists_root htop
    rw [← h.tipChain_eq hb] at hr
    exact ⟨ag, hag, r, hr, by rw [h.roots _ r (h.find_of_mem hr) hroot, hgenesis]⟩
  · refine ⟨ab, hab, top, ?_, by rw [s.mapBlockIndex.hash_eq b top htop, hbest]⟩
    rw [h.tipChain_eq hb, BlockMap.chain_of_find htop]
    exact List.mem_cons_self

/-- The block that a lookup starts from is one of the best chain. -/
theorem lookupFrom_spec (h : LookupInv cfg s) (hcache : s.CacheValid) (hfrom : s.lookupFrom nHeight = some a) :
    ∃ p ∈ s.tipChain, s.memory.mapLoaded.find? p.phashBlock = some a := by
  obtain ⟨start, hstart, hfrom⟩ := Option.bind_eq_some_iff.mp hfrom
  obtain ⟨entry, -, hfrom⟩ := Option.bind_eq_some_iff.mp hfrom
  have hon : ∃ p ∈ s.tipChain, s.memory.mapLoaded.find? p.phashBlock = some start := by
    cases hb : s.pindexBest with
    | none =>
      obtain ⟨hgenesis, hbest, -⟩ := h.start hb
      rw [hgenesis, hbest, ite_self] at hstart
      cases hstart
    | some b =>
      obtain ⟨start', hstart', hon⟩ := h.ends hb nHeight
      rw [Option.some.inj (hstart.symm.trans hstart')]
      exact hon
  cases hlast : s.pblockindexFBBHLast with
  | none =>
    rw [hlast] at hfrom
    cases hfrom
    exact hon
  | some last =>
    rw [hlast] at hfrom
    obtain ⟨lastEntry, -, hfrom⟩ := Option.bind_eq_some_iff.mp hfrom
    have hor := Option.some.inj hfrom
    split at hor
    · rw [← hor]
      exact hcache last hlast
    · rw [← hor]
      exact hon

/-- **What a lookup finds**: the block of the best chain with the height. -/
theorem findBlockByHeight_spec (h : LookupInv cfg s) (hcache : s.CacheValid)
    (hfind : s.findBlockByHeight fuel nHeight = some (s', a)) :
    ∃ m, s' = { s with memory := m, pblockindexFBBHLast := some a } ∧ m.Pictures s.mapBlockIndex ∧ s.memory.Grows m ∧
      m.nextRecords = s.memory.nextRecords ∧
      ∃ p ∈ s.tipChain, (p.nHeight : Int) = nHeight ∧ m.mapLoaded.find? p.phashBlock = some a := by
  obtain ⟨start, hfrom, hfind⟩ := Option.bind_eq_some_iff.mp hfind
  obtain ⟨⟨m₁, a₁⟩, hback, hfind⟩ := Option.bind_eq_some_iff.mp hfind
  obtain ⟨⟨m₂, a₂⟩, hforth, hfind⟩ := Option.bind_eq_some_iff.mp hfind
  cases hfind
  obtain ⟨p, hp, hload⟩ := lookupFrom_spec h hcache hfrom
  obtain ⟨hshows₁, hgrows₁, hnext₁, p₁, hp₁, hload₁, -, hend₁⟩ :=
    walkWhile_spec (h.staysOn_prev nHeight) h.shows hp trivial hload hback
  have hle : (p₁.nHeight : Int) ≤ nHeight := Int.not_lt.mp (of_decide_eq_false hend₁)
  obtain ⟨hshows₂, hgrows₂, hnext₂, p₂, hp₂, hload₂, hle₂, hend₂⟩ :=
    walkWhile_spec (h.staysOn_next nHeight) hshows₁ hp₁ hle hload₁ hforth
  have hge : nHeight ≤ p₂.nHeight := Int.not_lt.mp (of_decide_eq_false hend₂)
  exact ⟨m₂, rfl, hshows₂.pictures, hgrows₁.trans hgrows₂, hnext₂.trans hnext₁, p₂, hp₂, Int.le_antisymm hle₂ hge,
    hload₂⟩

/-- There is a block that a lookup starts from. -/
theorem lookupFrom_isSome (h : LookupInv cfg s) (hcache : s.CacheValid) {b : Uint256} (hb : s.pindexBest = some b)
    (nHeight : Int) : ∃ a, s.lookupFrom nHeight = some a := by
  obtain ⟨start, hstart, p, hp, hload⟩ := h.ends hb nHeight
  obtain ⟨entry, hentry, -⟩ := h.shows.entryAt hp hload
  unfold LookupNode.lookupFrom
  rw [hstart]
  simp only [Option.bind_eq_bind, Option.bind_some, hentry]
  cases hlast : s.pblockindexFBBHLast with
  | none => exact ⟨start, rfl⟩
  | some last =>
    obtain ⟨q, hq, hloadq⟩ := hcache last hlast
    obtain ⟨lastEntry, hlastEntry, -⟩ := h.shows.entryAt hq hloadq
    simp only [hlastEntry, Option.bind_some]
    exact ⟨_, rfl⟩

/-- **A lookup finds the block of the best chain** with the height, for each height up to that of the best block. -/
theorem findBlockByHeight_found (h : LookupInv cfg s) (hcache : s.CacheValid) (hlow : 0 ≤ nHeight)
    (hhigh : nHeight ≤ s.nBestHeight) (hfuel : s.nBestHeight < fuel) :
    ∃ s' a, s.findBlockByHeight fuel nHeight = some (s', a) ∧ ∃ p ∈ s.tipChain, (p.nHeight : Int) = nHeight ∧
      s'.memory.mapLoaded.find? p.phashBlock = some a := by
  cases hb : s.pindexBest with
  | none =>
    have hnone := (h.start hb).2.2
    omega
  | some b =>
    obtain ⟨start, hfrom⟩ := lookupFrom_isSome h hcache hb nHeight
    obtain ⟨p, hp, hload⟩ := lookupFrom_spec h hcache hfrom
    have hback : ∃ r, walkWhile (fun entry => entry.nHeight > nHeight) (·.pprev) fuel s.memory start = some r := by
      refine walkWhile_isSome (μ := fun p => p.nHeight) (h.staysOn_prev nHeight) (fun p hp hagain => ?_) h.shows hp hload ?_
      · have hlt : nHeight < (p.nHeight : Int) := of_decide_eq_true hagain
        obtain ⟨-, hzero⟩ | ⟨q, pprev, hq, hpprev, hheight⟩ := s.mapBlockIndex.prev_in _ p (h.find_of_mem hp)
        · omega
        · obtain ⟨r, hr, rfl⟩ := h.prev hp hq
          refine ⟨r, hr, hq, ?_⟩
          rw [h.find_of_mem hr, Option.some.injEq] at hpprev
          show r.nHeight < p.nHeight
          rw [hheight, hpprev]
          exact Nat.lt_succ_self _
      · obtain ⟨-, top, -, -, -, hbest, hle, -⟩ := h.mem_tipChain hp
        show p.nHeight < fuel
        omega
    obtain ⟨⟨m₁, a₁⟩, hback⟩ := hback
    obtain ⟨hshows₁, -, -, p₁, hp₁, hload₁, -, -⟩ :=
      walkWhile_spec (h.staysOn_prev nHeight) h.shows hp trivial hload hback
    have hforth : ∃ r, walkWhile (fun entry => entry.nHeight < nHeight) (·.pnext) fuel m₁ a₁ = some r := by
      refine walkWhile_isSome (μ := fun p => (nHeight - p.nHeight).toNat) (h.staysOn_next nHeight) (fun p hp hagain => ?_)
        hshows₁ hp₁ hload₁ ?_
      · have hlt : (p.nHeight : Int) < nHeight := of_decide_eq_true hagain
        obtain ⟨b', top, hb', htop, hchain, hbest, -, heq⟩ := h.mem_tipChain hp
        have hmem : p.phashBlock ∈ ((s.mapBlockIndex.chain b').map (·.phashBlock)).tail := by
          rw [← h.tipChain_eq hb', hchain, List.map_cons, List.tail_cons]
          rw [hchain] at hp
          refine List.mem_map_of_mem ((List.mem_cons.mp hp).resolve_left fun hpt => ?_)
          subst hpt
          omega
        obtain ⟨r, hr, hprev⟩ := BlockMap.exists_next_of_mem_tail hmem
        rw [← h.tipChain_eq hb'] at hr
        have hnext : p.pnext = some r.phashBlock := by
          have hlink := (h.linked.memory p.phashBlock r.phashBlock).mpr ⟨r, hr, hprev, rfl⟩
          rwa [BlockMap.nextLinks, h.find_of_mem hp, Option.bind_some] at hlink
        obtain ⟨r', hr', hhash, hheight⟩ := h.succ hp hnext
        refine ⟨r', hr', hnext.trans (congrArg some hhash.symm), ?_⟩
        show (nHeight - r'.nHeight).toNat < (nHeight - p.nHeight).toNat
        omega
      · show (nHeight - p₁.nHeight).toNat < fuel
        omega
    obtain ⟨⟨m₂, a₂⟩, hforth⟩ := hforth
    have hfind : s.findBlockByHeight fuel nHeight =
      some ({ s with memory := m₂, pblockindexFBBHLast := some a₂ }, a₂) := by
      unfold LookupNode.findBlockByHeight
      simp only [hfrom, Option.bind_eq_bind, Option.bind_some, hback, hforth]
      rfl
    obtain ⟨m, hs', -, -, -, q, hq, hheight, hloadq⟩ := findBlockByHeight_spec h hcache hfind
    obtain rfl : m₂ = m := congrArg LookupNode.memory hs'
    exact ⟨_, a₂, hfind, q, hq, hheight, hloadq⟩

end Lookup

/-! ## Every step -/

section Step

open LazyBlockMap

variable {cfg : Settings} {cr : Crypto} {B : CBlock → Prop} {s s' : LookupNode}

/-- Where the memory grows and nothing else happens to the node. -/
theorem LookupInv.grows (h : LookupInv cfg s) {m : LazyBlockMap} {last : Option Nat}
    (hpictures : m.Pictures s.mapBlockIndex) (hgrows : s.memory.Grows m) (hnext : m.nextRecords = s.memory.nextRecords) :
    LookupInv cfg { s with memory := m, pblockindexFBBHLast := last } where
  linked := h.linked
  roots := h.roots
  pictures := hpictures
  next := hnext.trans h.next
  recorded p hp hne := hgrows.recorded _ (h.recorded p hp hne)
  genesis b hb := by
    obtain ⟨a, ha, hload⟩ := h.genesis b hb
    exact ⟨a, ha, hgrows.loaded _ a hload⟩
  best b hb := by
    obtain ⟨a, p, ha, hload, hrest⟩ := h.best b hb
    exact ⟨a, p, ha, hgrows.loaded _ a hload, hrest⟩
  start := h.start

/-- The kept pointer stays valid where the memory grows. -/
theorem cacheValid_grows {m : LazyBlockMap} (hcache : s.CacheValid) (hgrows : s.memory.Grows m) :
    ({ s with memory := m } : LookupNode).CacheValid := by
  intro a ha
  obtain ⟨p, hp, hload⟩ := hcache a ha
  exact ⟨p, hp, hgrows.loaded _ a hload⟩

/-- A block without a predecessor in the index is the genesis block. -/
theorem root_of_fills {e : AcceptEvent} {r : Except Failure Unit} {pindex : CBlockIndex}
    (hfills : s.Fills cfg cr e r pindex) (hroot : pindex.pprev = none) : e.block.getHash cr = cfg.hashGenesisBlock := by
  have hplace : pindex.pprev = ((s.before e).startIndex (e.context cfg cr) e.block).pprev := by
    show pindex.place.pprev = _
    rw [NodeState.startIndex_place hfills.2]
    rfl
  have hprev : s.mapBlockIndex.find e.block.hashPrevBlock = none := by
    cases hfind : s.mapBlockIndex.find e.block.hashPrevBlock with
    | none => rfl
    | some pprev =>
      rw [hroot, NodeState.startIndex, BlockMap.linked,
        show (s.before e).mapBlockIndex.find e.block.hashPrevBlock = some pprev from hfind] at hplace
      cases hplace
  have hbefore := hfills.1
  unfold NodeState.checkBefore at hbefore
  split at hbefore
  · cases hbefore
  split at hbefore
  · rename_i hgenesis
    exact hgenesis
  · rw [show (s.before e).mapBlockIndex.find e.block.hashPrevBlock = none from hprev] at hbefore
    cases hbefore

/-- **A block gets its entry.** -/
theorem LookupInv.addEntry (h : LookupInv cfg s) {e : AcceptEvent} {r : Except Failure Unit} {pindex : CBlockIndex}
    (hfills : s.Fills cfg cr e r pindex) :
    LookupInv cfg (s.addEntry cfg cr e r pindex) ∧ (s.CacheValid → (s.addEntry cfg cr e r pindex).CacheValid) := by
  have hlinked := h.linked.addToBlockIndex hfills
  have hnew : s.mapBlockIndex.find (e.block.getHash cr) = none := NodeState.find_of_checkBefore hfills.1
  have hfind := find_withEntry (s := s.toMainChainState) hfills
  have hload : s.memory.mapLoaded.find? (e.block.getHash cr) = none := by
    cases hload : s.memory.mapLoaded.find? (e.block.getHash cr) with
    | none => rfl
    | some a =>
      obtain ⟨-, p, -, -, hp, -⟩ := h.pictures.object _ a hload
      rw [hnew] at hp
      cases hp
  have hnext : pindex.pnext = s.memory.nextRecords (e.block.getHash cr) := by
    have hlink := congrFun (nextLinks_withEntry (s := s.toMainChainState) hfills) (e.block.getHash cr)
    rw [BlockMap.nextLinks, BlockMap.nextLinks, hfind, if_pos rfl, hnew, Option.bind_some, Option.bind_none] at hlink
    rw [hlink, h.next, h.linked.records_eq, BlockMap.nextLinks, hnew, Option.bind_none]
  have hunrecorded : s.memory.records (e.block.getHash cr) = none := by
    cases hrec : s.memory.records (e.block.getHash cr) with
    | none => rfl
    | some d =>
      obtain ⟨p, hp, -⟩ := h.pictures.record _ d hrec
      rw [hnew] at hp
      cases hp
  have hself : (s.withEntry cfg cr e pindex).mapBlockIndex.find (e.block.getHash cr) = some pindex := by
    rw [hfind, if_pos rfl]
  obtain ⟨hpictures, hgrows⟩ : (s.memory.insert (e.block.getHash cr) pindex).Pictures _ ∧ s.memory.Grows _ :=
    h.pictures.allocate { phashBlock := some (e.block.getHash cr), entry := pindex } s.memory.mapPrev
      (fun x hx => (hfind x).trans (if_neg hx)) hself (fun d hd => by rw [hunrecorded] at hd; cases hd) hload rfl rfl rfl
      hnext (by rw [LazyBlockMap.insert, hload]; rfl)
  have hall : (s.addEntry cfg cr e r pindex).memory.Pictures (s.withEntry cfg cr e pindex).mapBlockIndex ∧
      s.memory.Grows (s.addEntry cfg cr e r pindex).memory ∧
      (s.addEntry cfg cr e r pindex).memory.nextRecords = s.memory.nextRecords := by
    unfold LookupNode.addEntry
    simp only
    split
    · obtain ⟨hpictures', hgrows'⟩ := hpictures.writeRecord (d := pindex) hself rfl rfl
      exact ⟨hpictures', hgrows.trans hgrows', rfl⟩
    · exact ⟨hpictures, hgrows, rfl⟩
  have htip : (s.addEntry cfg cr e r pindex).tipChain = s.tipChain := h.linked.tipChain_withEntry hfills
  refine ⟨⟨hlinked, fun x p hp hroot => ?_, hall.1, hall.2.2.trans h.next, fun p hp hne => ?_, fun b hb => ?_,
    fun b hb => ?_, h.start⟩, fun hcache a ha => ?_⟩
  · replace hp : (s.withEntry cfg cr e pindex).mapBlockIndex.find x = some p := hp
    rw [hfind] at hp
    split at hp
    · rename_i hx
      cases hp
      exact hx.trans (root_of_fills hfills hroot)
    · exact h.roots x p hp hroot
  · exact hall.2.1.recorded _ (h.recorded p (htip ▸ hp) hne)
  · obtain ⟨a, ha, hload⟩ := h.genesis b hb
    exact ⟨a, ha, hall.2.1.loaded _ a hload⟩
  · obtain ⟨a, p, ha, hload, hp, hheight⟩ := h.best b hb
    exact ⟨a, p, ha, hall.2.1.loaded _ a hload, grown_withEntry hfills hp, hheight⟩
  · obtain ⟨p, hp, hload⟩ := hcache a ha
    exact ⟨p, htip ▸ hp, hall.2.1.loaded _ a hload⟩

/-- Locks that move from one object to another. -/
theorem relock_spec {m : LazyBlockMap} {index : BlockMap} (h : m.Pictures index) (old new : Option Nat) :
    (LookupNode.relock m old new).Pictures index ∧ m.Grows (LookupNode.relock m old new) ∧
      (LookupNode.relock m old new).nextRecords = m.nextRecords ∧
      (LookupNode.relock m old new).mapLoaded = m.mapLoaded := by
  cases old with
  | none =>
    cases new with
    | none => exact ⟨h, .refl m, rfl, rfl⟩
    | some b =>
      obtain ⟨h', hgrows⟩ := addLocks_spec h b 1
      exact ⟨h', hgrows, rfl, rfl⟩
  | some a =>
    obtain ⟨h', hgrows⟩ := addLocks_spec h a (-1)
    cases new with
    | none => exact ⟨h', hgrows, rfl, rfl⟩
    | some b =>
      obtain ⟨h'', hgrows'⟩ := addLocks_spec h' b 1
      exact ⟨h'', hgrows.trans hgrows', rfl, rfl⟩

/-- The link and the height of an entry are part of what a reorganisation keeps. -/
theorem place_of_accepted {p q : CBlockIndex} (h : p.accepted = q.accepted) :
    p.phashBlock = q.phashBlock ∧ p.pprev = q.pprev ∧ p.nHeight = q.nHeight :=
  ⟨(accepted_fields h).1, (accepted_fields h).2.1, show p.accepted.nHeight = _ by rw [h]; rfl⟩

section Connect

variable {env : NodeContext} {reorg : ChainState → ChainState} {hashNew : Uint256} {p : CBlockIndex}

/-- A block of the new best chain was connected, or is one of the best chain before. -/
theorem mem_tipChain_connectTo (hp : s.mapBlockIndex.find hashNew = some p)
    (hset : (s.setBestChain env reorg hashNew).2 = none) {q : CBlockIndex}
    (hq : q ∈ (s.connectTo env reorg hashNew).tipChain) :
    (∃ r ∈ connected s.tipChain (s.mapBlockIndex.chain hashNew), r.phashBlock = q.phashBlock) ∨
      ∃ r ∈ s.tipChain, r.phashBlock = q.phashBlock := by
  rw [(tip_connectTo hp hset).2] at hq
  obtain ⟨r, hr, haccepted⟩ := (sameEntries_connectTo hp hset).mem_chain hq
  have hhash := (place_of_accepted haccepted).1
  obtain ⟨base, htip, hchain⟩ := chain_connectTo hp hset
  rw [hchain, List.mem_append, List.mem_reverse] at hr
  rcases hr with hr | hr
  · exact .inl ⟨r, hr, hhash⟩
  · exact .inr ⟨r, htip ▸ List.mem_append_right _ hr, hhash⟩

/-- The genesis block is connected, or was in the best chain before. -/
theorem LookupInv.genesis_connectTo (h : LookupInv cfg s) (hp : s.mapBlockIndex.find hashNew = some p)
    (hset : (s.setBestChain env reorg hashNew).2 = none) :
    cfg.hashGenesisBlock ∈ (connected s.tipChain (s.mapBlockIndex.chain hashNew)).map (·.phashBlock) ∨
      ∃ b, s.pindexBest = some b := by
  obtain ⟨r, hr, hroot⟩ := BlockMap.exists_root hp
  have hgenesis := h.roots _ r (BlockMap.find_of_mem_chain hr) hroot
  obtain ⟨base, htip, hchain⟩ := chain_connectTo hp hset
  rw [hchain, List.mem_append, List.mem_reverse] at hr
  rcases hr with hr | hr
  · exact .inl (hgenesis ▸ List.mem_map_of_mem hr)
  · obtain ⟨b, -, hb, -⟩ := h.mem_tipChain (htip ▸ List.mem_append_right _ hr)
    exact .inr ⟨b, hb⟩

/-- **An entry becomes the best block.** -/
theorem LookupInv.connectBest (h : LookupInv cfg s) (hp : s.mapBlockIndex.find hashNew = some p)
    (hset : (s.setBestChain env reorg hashNew).2 = none) (hok : s.connectBest cfg env reorg hashNew = some s') :
    LookupInv cfg s' ∧ s'.pblockindexFBBHLast = none := by
  obtain ⟨⟨m, pindexNew⟩, hconnect, hok⟩ := Option.bind_eq_some_iff.mp hok
  obtain ⟨best, hbest, hok⟩ := Option.bind_eq_some_iff.mp hok
  cases hok
  have hentries := sameEntries_connectTo hp hset
  obtain ⟨hpictures, hgrows, hnext, hload, hall⟩ := connectChain_spec h.pictures hconnect
  replace hpictures : m.Pictures (s.connectTo env reorg hashNew).mapBlockIndex := hpictures.congr
    (fun x q hq => have ⟨q', hq', haccepted⟩ := hentries.symm.find hq
      ⟨q', hq', (place_of_accepted haccepted).2⟩)
    (fun x q' hq' => have ⟨q, hq, _⟩ := hentries.find hq'
      ⟨q, hq⟩)
  have hgenesis : ∃ a, (if cfg.hashGenesisBlock ∈
      (connected s.tipChain (s.mapBlockIndex.chain hashNew)).map (·.phashBlock)
      then m.mapLoaded.find? cfg.hashGenesisBlock else s.pindexGenesisAt) = some a ∧
        m.mapLoaded.find? cfg.hashGenesisBlock = some a := by
    split
    · rename_i hmem
      obtain ⟨r, hr, hhash⟩ := List.mem_map.mp hmem
      obtain ⟨a, ha⟩ := (hall r hr).1
      rw [hhash] at ha
      exact ⟨a, ha, ha⟩
    · rename_i hmem
      obtain ⟨b, hb⟩ := (h.genesis_connectTo hp hset).resolve_left hmem
      obtain ⟨a, ha, hloaded⟩ := h.genesis b hb
      exact ⟨a, ha, hgrows.loaded _ a hloaded⟩
  obtain ⟨genesisAt, hat, hloaded⟩ := hgenesis
  obtain ⟨hpictures₁, hgrows₁, hnext₁, hmap₁⟩ := relock_spec hpictures s.pindexGenesisAt (some genesisAt)
  obtain ⟨hpictures₂, hgrows₂, hnext₂, hmap₂⟩ := relock_spec hpictures₁ s.pindexBestAt (some pindexNew)
  have hlater := hgrows₁.trans hgrows₂
  obtain ⟨pindex, top, hheap, -, htop, -, hheight, -⟩ := hpictures.object hashNew pindexNew hload
  rw [entryAt, hheap, Option.map_some, Option.some.injEq] at hbest
  subst hbest
  refine ⟨?_, rfl⟩
  simp only [hat]
  refine ⟨h.linked.setBestChain hp hset, fun x q hq hroot => ?_, hpictures₂, ?_, fun q hq hne => ?_, fun b _ => ?_,
    fun b hb => ?_, fun hb => ?_⟩
  · obtain ⟨q', hq', haccepted⟩ := hentries.find hq
    exact h.roots x q' hq' ((place_of_accepted haccepted).2.1.trans hroot)
  · exact hnext₂.trans (hnext₁.trans (hnext.trans (by rw [h.next]; rfl)))
  · rcases mem_tipChain_connectTo hp hset hq with ⟨r, hr, hhash⟩ | ⟨r, hr, hhash⟩
    · exact hlater.recorded _ (hhash ▸ (hall r hr).2 (hhash ▸ hne))
    · exact hlater.recorded _ (hgrows.recorded _ (hhash ▸ h.recorded r hr (hhash ▸ hne)))
  · exact ⟨genesisAt, rfl, hlater.loaded _ _ hloaded⟩
  · rw [show _ = some hashNew from (tip_connectTo hp hset).1, Option.some.injEq] at hb
    subst hb
    exact ⟨pindexNew, top, rfl, hlater.loaded _ _ hload, htop, congrArg Nat.cast hheight⟩
  · rw [show _ = some hashNew from (tip_connectTo hp hset).1] at hb
    cases hb

end Connect

section Cleanup

variable (h : LookupInv cfg s) (hok : s.cleanup = some s')

include h hok

/-- What a cleanup unloads is told by the height of the best block. -/
theorem LookupInv.cleanup_eq : s' = { s with memory := s.memory.cleanup s.nBestHeight s.pindexGenesisAt } := by
  obtain ⟨entry, hentry, hok⟩ := Option.bind_eq_some_iff.mp hok
  obtain ⟨ab, hab, hentry⟩ := Option.bind_eq_some_iff.mp hentry
  cases hok
  cases hb : s.pindexBest with
  | none =>
    rw [(h.start hb).2.1] at hab
    cases hab
  | some b =>
    obtain ⟨ab', top, hab', hload, htop, hbest⟩ := h.best b hb
    rw [hab, Option.some.injEq] at hab'
    subst hab'
    obtain ⟨pindex, q, hheap, -, hq, -, hheight, -⟩ := h.pictures.object b ab hload
    rw [entryAt, hheap, Option.map_some, Option.some.injEq] at hentry
    rw [htop, Option.some.injEq] at hq
    rw [hbest, ← hentry, hheight, hq]

/-- **A cleanup** keeps the best block and the genesis block. -/
theorem LookupInv.cleanup : LookupInv cfg s' := by
  rw [h.cleanup_eq hok]
  obtain ⟨hpictures, hrecords, hnext, hstays⟩ := cleanup_spec h.pictures s.nBestHeight s.pindexGenesisAt
  refine ⟨h.linked, h.roots, hpictures, hnext.trans h.next, fun p hp hne => ?_, fun b hb => ?_, fun b hb => ?_, h.start⟩
  · show ((s.memory.cleanup s.nBestHeight s.pindexGenesisAt).records p.phashBlock).isSome = true
    rw [hrecords]
    exact h.recorded p hp hne
  · obtain ⟨a, ha, hload⟩ := h.genesis b hb
    obtain ⟨pindex, -, hheap, -⟩ := h.pictures.object _ a hload
    exact ⟨a, ha, (hstays _ a pindex hload hheap).mpr (.inr (.inl ha))⟩
  · obtain ⟨a, p, ha, hload, hp, hbest⟩ := h.best b hb
    obtain ⟨pindex, q, hheap, -, hq, -, hheight, -⟩ := h.pictures.object _ a hload
    rw [hp, Option.some.injEq] at hq
    subst hq
    refine ⟨a, p, ha, (hstays _ a pindex hload hheap).mpr (.inl ?_), hp, hbest⟩
    rw [hbest, hheight]
    exact sub_le_self _ (by decide)

/-- **When a cleanup leaves the kept pointer valid.** -/
theorem cacheValid_cleanup_iff (hcache : s.CacheValid) : s'.CacheValid ↔ s.KeepsCached := by
  rw [h.cleanup_eq hok]
  obtain ⟨hpictures, -, -, hstays⟩ := cleanup_spec h.pictures s.nBestHeight s.pindexGenesisAt
  constructor
  · intro hvalid a ha
    obtain ⟨p, hp, hload⟩ := hcache a ha
    obtain ⟨q, hq, hload'⟩ := hvalid a ha
    obtain ⟨pindex, -, hheap, hkey, -⟩ := h.pictures.object _ a hload
    -- the address belongs to one block, before and after
    have hsame : q.phashBlock = p.phashBlock := by
      obtain ⟨pindex', -, hheap', hkey', -⟩ := hpictures.object _ a hload'
      have hbefore := (shrinks_unloadWhere _ s.memory.mapLoaded.entries h.pictures.keyed).heap a pindex' hheap'
      rw [hheap, Option.some.injEq] at hbefore
      rw [← hbefore, hkey, Option.some.injEq] at hkey'
      exact hkey'.symm
    rw [hsame] at hload'
    exact ⟨pindex, hheap, (hstays _ a pindex hload hheap).mp hload'⟩
  · intro hkeeps a ha
    obtain ⟨p, hp, hload⟩ := hcache a ha
    obtain ⟨pindex, hheap, hkept⟩ := hkeeps a ha
    exact ⟨p, hp, (hstays _ a pindex hload hheap).mpr hkept⟩

end Cleanup

/-- **Each step keeps the invariant**, and the kept pointer valid where a cleanup keeps its entry. -/
theorem lookupInv_step {e : LookupEvent} (h : LookupInv cfg s) (hcache : s.CacheValid)
    (hstep : LookupStep cfg cr B s e s') (hkeeps : e = .cleanup → s.KeepsCached) : LookupInv cfg s' ∧
      s'.CacheValid := by
  cases hstep with
  | addToBlockIndex e r pindex hfills hB => exact (h.addEntry hfills).imp_right fun hkept => hkept hcache
  | setBestChain env reorg hashNew p hp hset s' hs' =>
    obtain ⟨hinv, hnone⟩ := h.connectBest hp hset hs'
    refine ⟨hinv, fun a ha => ?_⟩
    rw [hnone] at ha
    cases ha
  | load hash m a hm =>
    obtain ⟨hpictures, hgrows, -, hnext⟩ := fetch_spec h.pictures hm
    exact ⟨h.grows hpictures hgrows hnext, cacheValid_grows hcache hgrows⟩
  | lock a n =>
    obtain ⟨hpictures, hgrows⟩ := addLocks_spec h.pictures a n
    exact ⟨h.grows hpictures hgrows rfl, cacheValid_grows hcache hgrows⟩
  | cleanup s' hs' => exact ⟨h.cleanup hs', (cacheValid_cleanup_iff h hs' hcache).mpr (hkeeps rfl)⟩
  | lookup fuel nHeight s' a hs' =>
    obtain ⟨m, rfl, hpictures, hgrows, hnext, p, hp, -, hload⟩ := findBlockByHeight_spec h hcache hs'
    refine ⟨h.grows hpictures hgrows hnext, fun b hb => ?_⟩
    cases hb
    exact ⟨p, hp, hload⟩

theorem lookupInv_run (h : LookupInv cfg s) (hcache : s.CacheValid) (hrun : LookupSteps cfg cr B s s') :
    LookupInv cfg s' ∧ s'.CacheValid := by
  induction hrun with
  | refl => exact ⟨h, hcache⟩
  | tail _ hstep ih =>
    obtain ⟨e, hstep, hkeeps⟩ := hstep
    exact lookupInv_step ih.1 ih.2 hstep hkeeps

end Step

/-- A node without a best block, which has loaded nothing. -/
theorem lookupInv_of_fresh {cfg : Settings} {s : LookupNode} (h : s.Fresh)
    (hroots : ∀ x p, s.mapBlockIndex.find x = some p → p.pprev = none → x = cfg.hashGenesisBlock)
    (hpictures : s.memory.Pictures s.mapBlockIndex) (hnext : s.memory.nextRecords = s.nextRecords)
    (hnone : s.pindexGenesisAt = none ∧ s.pindexBestAt = none ∧ s.nBestHeight = -1) : LookupInv cfg s := by
  have hchain : s.tipChain = [] := by rw [ChainState.tipChain, h.coins]; rfl
  refine ⟨h.linkedInv, hroots, hpictures, hnext, fun p hp => ?_, fun b hb => ?_, fun b hb => ?_, fun _ => hnone⟩
  · rw [hchain] at hp
    cases hp
  · rw [h.best] at hb
    cases hb
  · rw [h.best] at hb
    cases hb

/-! ## A line of blocks -/

/-- The entry with a height of a line of blocks, whose hashes count up from that of the first one. -/
def lineEntry (g : Uint256) (n k : Nat) : CBlockIndex :=
  { phashBlock := g + k
    pprev := if k = 0 then none else some (g + (k - 1))
    pnext := if k = n then none else some (g + (k + 1))
    nHeight := k }

theorem lineEntry_pprev (g : Uint256) (n k : Nat) : (lineEntry g n (k + 1)).pprev = some (g + k) := by
  rw [lineEntry, if_neg (Nat.succ_ne_zero k), Nat.add_sub_cancel]

theorem lineEntry_pnext {g : Uint256} {n k : Nat} (h : k ≠ n) : (lineEntry g n k).pnext = some (g + (k + 1)) := by
  rw [lineEntry, if_neg h]

theorem line_find {g : Uint256} {n : Nat} {h : Uint256} {p : CBlockIndex} :
    (if g ≤ h ∧ h ≤ g + n
      then some (lineEntry g n (h - g)) else none) = some p ↔
    ∃ k, k ≤ n ∧ h = g + k ∧ p = lineEntry g n k := by
  constructor
  · intro hp
    split at hp
    · rename_i hbetween
      cases hp
      exact ⟨h - g, Nat.sub_le_iff_le_add'.mpr hbetween.2,
        (Nat.add_sub_cancel' hbetween.1).symm, rfl⟩
    · cases hp
  · rintro ⟨k, hk, rfl, rfl⟩
    rw [if_pos ⟨Nat.le_add_right _ _, Nat.add_le_add_left hk _⟩, Nat.add_sub_cancel_left]

/-- The index of a line of blocks up to a height. -/
def lineIndex (g : Uint256) (n : Nat) : BlockMap where
  find h := if g ≤ h ∧ h ≤ g + n
    then some (lineEntry g n (h - g)) else none
  hash_eq h p hp := by
    obtain ⟨k, -, rfl, rfl⟩ := line_find.mp hp
    rfl
  prev_in h p hp := by
    obtain ⟨k, hk, rfl, rfl⟩ := line_find.mp hp
    cases k with
    | zero => exact .inl ⟨rfl, rfl⟩
    | succ k => exact .inr ⟨_, lineEntry g n k, lineEntry_pprev g n k, line_find.mpr ⟨k, Nat.le_of_succ_le hk, rfl, rfl⟩, rfl⟩

/-- A node with the line, where only the genesis block and the best block are loaded. -/
def lineNode (g : Uint256) (n : Nat) : LookupNode where
  mapBlockIndex := lineIndex g n
  pindexBest := some (g + n)
  pblocktree := genesisNode.pblocktree
  pcoinsTip := { getCoins := fun _ => none, bestBlock := some (g + n) }
  blocks _ := none
  nextRecords := (lineIndex g n).nextLinks
  memory := {
    mapLoaded := (Store.empty.insert g 0).insert (g + n) 1
    setKnown := fun h => ((lineIndex g n).find h).isSome
    heap := fun a => if a = 0 then some { phashBlock := some g, entry := lineEntry g n 0, nLocks := 1 }
      else if a = 1 then some { phashBlock := some (g + n), entry := lineEntry g n n, nLocks := 1 }
      else none
    nNew := 2
    records := (lineIndex g n).find
    nextRecords := (lineIndex g n).nextLinks }
  pindexGenesisAt := some 0
  pindexBestAt := some 1
  nBestHeight := n

section Line

variable {g : Uint256} {n : Nat}

theorem mem_chain_lineIndex {p : CBlockIndex} :
    p ∈ (lineIndex g n).chain (g + n) ↔ ∃ k, k ≤ n ∧ p = lineEntry g n k := by
  constructor
  · intro hp
    obtain ⟨k, hk, -, rfl⟩ := line_find.mp (BlockMap.find_of_mem_chain hp)
    exact ⟨k, hk, rfl⟩
  · rintro ⟨k, hk, rfl⟩
    -- down from the best block
    induction hk using Nat.decreasingInduction with
    | self =>
      rw [BlockMap.chain_of_find (line_find.mpr ⟨n, le_refl n, rfl, rfl⟩)]
      exact List.mem_cons_self
    | of_succ k hk ih =>
      obtain ⟨q, hq, hhash⟩ :=
        List.mem_map.mp (List.mem_of_mem_tail (BlockMap.prev_mem_tail ih (lineEntry_pprev g n k)))
      obtain ⟨j, hj, hfind, rfl⟩ := line_find.mp (BlockMap.find_of_mem_chain hq)
      obtain rfl : j = k := Nat.add_left_cancel hhash
      exact hq

theorem lookupInv_lineNode {cfg : Settings} (hg : cfg.hashGenesisBlock = g) (hn : 0 < n) :
    LookupInv cfg (lineNode g n) := by
  have htip : (lineNode g n).tipChain = (lineIndex g n).chain (g + n) := rfl
  have hmirrors : Mirrors CBlockIndex.pprev CBlockIndex.phashBlock (lineIndex g n).nextLinks (lineNode g n).tipChain := by
    intro x y
    rw [htip, BlockMap.nextLinks, Option.bind_eq_some_iff]
    constructor
    · rintro ⟨p, hp, hnext⟩
      obtain ⟨k, hk, rfl, rfl⟩ := line_find.mp hp
      by_cases hkn : k = n
      · rw [lineEntry, if_pos hkn] at hnext
        cases hnext
      · rw [lineEntry_pnext hkn, Option.some.injEq] at hnext
        exact ⟨lineEntry g n (k + 1), mem_chain_lineIndex.mpr ⟨k + 1, by omega, rfl⟩, lineEntry_pprev g n k, hnext⟩
    · rintro ⟨q, hq, hprev, rfl⟩
      obtain ⟨k, hk, rfl⟩ := mem_chain_lineIndex.mp hq
      cases k with
      | zero => cases hprev
      | succ k =>
        rw [lineEntry_pprev, Option.some.injEq] at hprev
        subst hprev
        exact ⟨lineEntry g n k, line_find.mpr ⟨k, Nat.le_of_succ_le hk, rfl, rfl⟩, lineEntry_pnext (Nat.ne_of_lt hk)⟩
  have hgenesis : (lineNode g n).memory.mapLoaded.find? g = some 0 := by
    refine (Store.find?_insert _ _ _ _).trans ?_
    rw [if_neg (Nat.ne_of_lt (Nat.lt_add_of_pos_right hn)), Store.find?_insert, if_pos rfl]
  have hbest : (lineNode g n).memory.mapLoaded.find? (g + n) = some 1 :=
    (Store.find?_insert _ _ _ _).trans (if_pos rfl)
  have hfind : ∀ k, k ≤ n → (lineIndex g n).find (g + k) = some (lineEntry g n k) := fun k hk =>
    line_find.mpr ⟨k, hk, rfl, rfl⟩
  refine ⟨⟨rfl, fun b hb => ?_, hmirrors, hmirrors⟩, fun x p hp hroot => ?_, ⟨fun x a hx => ?_, fun x d hd => ?_,
    fun x p hp => ?_, fun a pindex ha => ?_⟩, rfl, fun p hp _ => ?_, fun b _ => ⟨0, rfl, hg ▸ hgenesis⟩, fun b hb => ?_,
      fun hnone => by cases hnone⟩
  · cases hb
    exact ⟨_, hfind n (le_refl n)⟩
  · obtain ⟨k, hk, rfl, rfl⟩ := line_find.mp hp
    cases k with
    | zero => exact hg.symm
    | succ k =>
      rw [lineEntry_pprev] at hroot
      cases hroot
  · by_cases hxn : x = g + n
    · subst hxn
      rw [hbest, Option.some.injEq] at hx
      subst hx
      exact ⟨_, _, rfl, rfl, hfind n (le_refl n), rfl, rfl, by
        rw [show (lineNode g n).memory.nextRecords = (lineIndex g n).nextLinks from rfl, BlockMap.nextLinks,
          hfind n (le_refl n), Option.bind_some]⟩
    · have hx' : (Store.empty.insert g 0).find? x = some a := by
        refine Eq.trans ?_ hx
        exact ((Store.find?_insert _ _ _ _).trans (if_neg hxn)).symm
      rw [Store.find?_insert] at hx'
      split at hx'
      · rename_i hxg
        subst hxg
        cases hx'
        exact ⟨_, _, rfl, rfl, hfind 0 (Nat.zero_le n), rfl, rfl, by
          rw [show (lineNode x n).memory.nextRecords = (lineIndex x n).nextLinks from rfl, BlockMap.nextLinks,
            show (lineIndex x n).find x = _ from hfind 0 (Nat.zero_le n), Option.bind_some]⟩
      · cases hx'
  · exact ⟨d, hd, rfl, rfl⟩
  · exact Option.isSome_iff_exists.mpr ⟨p, hp⟩
  · show a < 2
    by_contra hle
    replace ha : (if a = 0 then _ else if a = 1 then _ else none) = some pindex := ha
    rw [if_neg (by omega), if_neg (by omega)] at ha
    cases ha
  · obtain ⟨k, hk, rfl⟩ := mem_chain_lineIndex.mp hp
    exact Option.isSome_iff_exists.mpr ⟨_, hfind k hk⟩
  · cases hb
    exact ⟨1, _, rfl, hbest, hfind n (le_refl n), rfl⟩

end Line

/-! ## Every run -/

section Runs

open LazyBlockMap

variable {cfg : Settings} {cr : Crypto} {B : CBlock → Prop} {s₀ s s' : LookupNode}

/-- **Looking up a block by its height.** From a node that has looked up no block yet, after any number of blocks, best
blocks, entries that are loaded and locked, lookups, and cleanups that keep the entry of the kept pointer: the kept
pointer is `NULL` or points to a loaded entry of the best chain, and every lookup up to the height of the best block
returns the block of the best chain with the height. A further cleanup leaves the pointer so exactly when it keeps the
entry too. -/
theorem heightLookup_safe (hstart : LookupInv cfg s₀) (hnone : s₀.pblockindexFBBHLast = none)
    (hrun : LookupSteps cfg cr B s₀ s) :
    s.CacheValid ∧
    (∀ (nHeight : Int) (fuel : Nat), 0 ≤ nHeight → nHeight ≤ s.nBestHeight → s.nBestHeight < fuel →
      ∃ s' a, s.findBlockByHeight fuel nHeight = some (s', a) ∧ ∃ p ∈ s.tipChain, (p.nHeight : Int) = nHeight ∧
        s'.memory.mapLoaded.find? p.phashBlock = some a) ∧
    ∀ s', s.cleanup = some s' → (s'.CacheValid ↔ s.KeepsCached) := by
  obtain ⟨hinv, hcache⟩ := lookupInv_run hstart (fun a ha => by rw [hnone] at ha; cases ha) hrun
  exact ⟨hcache, fun nHeight fuel hlow hhigh hfuel => findBlockByHeight_found hinv hcache hlow hhigh hfuel,
    fun s' hs' => cacheValid_cleanup_iff hinv hs' hcache⟩

/-- The node after a lookup of the block with height 1. -/
def lookedUp (n : Nat) : Option LookupNode := ((lineNode hashGenesisBlockOfficial n).findBlockByHeight 2 1).map (·.1)

theorem lookedUp_step {n : Nat} (h : lookedUp n = some s) :
    LookupStep cfg cr B (lineNode hashGenesisBlockOfficial n) .lookup s := by
  obtain ⟨⟨s', a⟩, hfind, rfl⟩ := Option.map_eq_some_iff.mp h
  exact .lookup 2 1 s' a hfind

/-- With few blocks, a cleanup keeps the entry of a block that was looked up. -/
theorem heightLookup_safe_sample : ∃ s₁ s₂, lookedUp 4 = some s₁ ∧ s₁.cleanup = some s₂ ∧
    s₂.pblockindexFBBHLast = some 2 ∧
    s₂.CacheValid ∧
    (∀ (nHeight : Int) (fuel : Nat), 0 ≤ nHeight → nHeight ≤ s₂.nBestHeight → s₂.nBestHeight < fuel →
      ∃ s' a, s₂.findBlockByHeight fuel nHeight = some (s', a) ∧ ∃ p ∈ s₂.tipChain, (p.nHeight : Int) = nHeight ∧
        s'.memory.mapLoaded.find? p.phashBlock = some a) ∧
    ∀ s', s₂.cleanup = some s' → (s'.CacheValid ↔ s₂.KeepsCached) := by
  obtain ⟨s₂, hs₂⟩ := Option.isSome_iff_exists.mp
    (show ((lookedUp 4).bind (·.cleanup)).isSome = true by decide +kernel)
  have hlast : ((lookedUp 4).bind (·.cleanup)).map (·.pblockindexFBBHLast) = some (some 2) := by decide +kernel
  rw [hs₂, Option.map_some, Option.some.injEq] at hlast
  obtain ⟨s₁, hs₁, hcleanup⟩ := Option.bind_eq_some_iff.mp hs₂
  have hbefore : (lookedUp 4).map (fun s => (s.pblockindexFBBHLast, s.nBestHeight, (s.memory.heap 2).map (·.entry.nHeight)))
      = some (some 2, 4, some 1) := by decide +kernel
  rw [hs₁, Option.map_some, Option.some.injEq, Prod.mk.injEq, Prod.mk.injEq] at hbefore
  have hkeeps : s₁.KeepsCached := by
    intro a ha
    rw [hbefore.1, Option.some.injEq] at ha
    subst ha
    obtain ⟨pindex, hheap, hheight⟩ := Option.map_eq_some_iff.mp hbefore.2.2
    refine ⟨pindex, hheap, .inl ?_⟩
    rw [hbefore.2.1, hheight]
    decide
  have hrun : LookupSteps noCheckpoints Crypto.sample (fun _ => True) (lineNode hashGenesisBlockOfficial 4) s₂ :=
    .tail (.tail .refl ⟨_, lookedUp_step hs₁, nofun⟩) ⟨_, .cleanup s₂ hcleanup, fun _ => hkeeps⟩
  exact ⟨s₁, s₂, hs₁, hcleanup, hlast, heightLookup_safe (lookupInv_lineNode rfl (by decide)) rfl hrun⟩

/-- A lookup reads the entry of the kept pointer, also where it is not there any more. -/
theorem findBlockByHeight_of_unloaded {a : Nat} (hlast : s.pblockindexFBBHLast = some a)
    (hgone : s.memory.heap a = none) (nHeight : Int) (fuel : Nat) : s.findBlockByHeight fuel nHeight = none := by
  have hfrom : s.lookupFrom nHeight = none := by
    unfold LookupNode.lookupFrom
    cases hstart : (if nHeight < s.nBestHeight.tdiv 2 then s.pindexGenesisAt else s.pindexBestAt) with
    | none => rfl
    | some start =>
      simp only [Option.bind_eq_bind, hlast, LazyBlockMap.entryAt, hgone, Option.map_none, Option.bind_none,
        Option.bind_fun_none]
  unfold LookupNode.findBlockByHeight
  rw [hfrom]
  rfl

/-- With more blocks, a lookup and a cleanup leave a pointer to an entry that was unloaded, and every lookup reads it. -/
theorem cleanup_unloads_cached : LookupInv noCheckpoints (lineNode hashGenesisBlockOfficial 10102) ∧
    (lineNode hashGenesisBlockOfficial 10102).pblockindexFBBHLast = none ∧
    ∃ s₁ s₂, LookupStep noCheckpoints Crypto.sample (fun _ => True) (lineNode hashGenesisBlockOfficial 10102) .lookup s₁ ∧
      LookupStep noCheckpoints Crypto.sample (fun _ => True) s₁ .cleanup s₂ ∧
      s₂.nBestHeight = 10102 ∧ ¬ s₂.CacheValid ∧ ∀ nHeight fuel, s₂.findBlockByHeight fuel nHeight = none := by
  have hinv : LookupInv noCheckpoints (lineNode hashGenesisBlockOfficial 10102) :=
    lookupInv_lineNode rfl (Nat.succ_pos _)
  obtain ⟨s₂, hs₂⟩ := Option.isSome_iff_exists.mp
    (show ((lookedUp 10102).bind (·.cleanup)).isSome = true by decide +kernel)
  have hafter : ((lookedUp 10102).bind (·.cleanup)).map
      (fun s => (s.pblockindexFBBHLast, s.nBestHeight, (s.memory.heap 2).isNone)) = some (some 2, 10102, true) := by
    decide +kernel
  rw [hs₂, Option.map_some, Option.some.injEq, Prod.mk.injEq, Prod.mk.injEq, Option.isNone_iff_eq_none] at hafter
  obtain ⟨s₁, hs₁, hcleanup⟩ := Option.bind_eq_some_iff.mp hs₂
  have hlookup : LookupStep noCheckpoints Crypto.sample (fun _ => True) _ .lookup s₁ := lookedUp_step hs₁
  have hclean : LookupStep noCheckpoints Crypto.sample (fun _ => True) s₁ .cleanup s₂ := .cleanup s₂ hcleanup
  have hinv₂ : LookupInv noCheckpoints s₂ := by
    have hfirst := lookupInv_step hinv (fun a ha => by cases ha) hlookup nofun
    exact hfirst.1.cleanup hcleanup
  refine ⟨hinv, rfl, s₁, s₂, hlookup, hclean, hafter.2.1, fun hvalid => ?_,
    findBlockByHeight_of_unloaded hafter.1 hafter.2.2⟩
  obtain ⟨p, -, hload⟩ := hvalid 2 hafter.1
  obtain ⟨pindex, -, hheap, -⟩ := hinv₂.pictures.object _ 2 hload
  rw [hafter.2.2] at hheap
  cases hheap

end Runs

end Morcochain
