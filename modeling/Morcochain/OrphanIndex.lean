import Morcochain.Orphans
import Morcochain.Lib.Run

/-!
# The index of the orphan transactions

`mapOrphanTransactionsByPrev` of `main.cpp` with the keys it has: looking a key up makes it, and erasing the last orphan
under a key takes the key away.

* `refines_processTx` : but for the keys, the maps are those of an `OrphanPool`.
* `keyed_processTx` : what a `tx` message makes of the keys. An accepted transaction that no orphan waits for leaves a
  key behind with nothing under it.
* `orphanIndex_iff` : **when the index has exactly the keys of the orphans**.
-/

set_option autoImplicit false

namespace Morcochain

open Guard OrderedStore

/-! ## The maps and their keys -/

/-- `mapOrphanTransactions` and `mapOrphanTransactionsByPrev`. -/
structure OrphanMaps where
  mapOrphanTransactions : Store Uint256 CTransaction
  mapOrphanTransactionsByPrev : Uint256 → Option HashSet

namespace OrphanMaps

/-- No orphans, and no keys. -/
def empty : OrphanMaps := ⟨Store.empty, fun _ => none⟩

/-- The orphan stored under a hash. -/
def find? (m : OrphanMaps) (h : Uint256) : Option CTransaction := m.mapOrphanTransactions.find? h

/-- The value of `mapOrphanTransactionsByPrev[p]`. -/
def prevs (m : OrphanMaps) (p : Uint256) : HashSet := (m.mapOrphanTransactionsByPrev p).getD Store.empty

/-- `mapOrphanTransactionsByPrev[p]`, which makes the key where it is not there. -/
def lookup (m : OrphanMaps) (p : Uint256) : OrphanMaps :=
  { m with mapOrphanTransactionsByPrev := Function.update m.mapOrphanTransactionsByPrev p (some (m.prevs p)) }

/-- `mapOrphanTransactions[h]`, which makes the key where it is not there. -/
def lookupTx (m : OrphanMaps) (h : Uint256) : OrphanMaps :=
  match m.find? h with
  | some _ => m
  | none => { m with mapOrphanTransactions := m.mapOrphanTransactions.insert h {} }

/-- Change what stands under the transactions that the inputs name, one input after the other. -/
def updateKeys (f : Option HashSet → Option HashSet) (vin : List CTxIn) (m : Uint256 → Option HashSet) :
    Uint256 → Option HashSet :=
  vin.foldl (fun m txin => Function.update m txin.prevout.hash (f (m txin.prevout.hash))) m

/-- `[p].insert(hash)`. -/
def insertHash (hash : Uint256) (s : Option HashSet) : Option HashSet := some ((s.getD Store.empty).insert hash ())

/-- `[p].erase(hash)`, and the key is erased when nothing is left under it. -/
def eraseHash (hash : Uint256) (s : Option HashSet) : Option HashSet :=
  let s := (s.getD Store.empty).erase hash
  if s.entries.isEmpty then none else some s

/-- `AddOrphanTx`. -/
def addOrphanTx (cr : Crypto) (m : OrphanMaps) (tx : CTransaction) : OrphanMaps :=
  let hash := tx.getHash cr
  if (m.find? hash).isSome then m
  else if tx.serializeSize > 5000 then m
  else
    { mapOrphanTransactions := m.mapOrphanTransactions.insert hash tx
      mapOrphanTransactionsByPrev := updateKeys (insertHash hash) tx.vin m.mapOrphanTransactionsByPrev }

/-- `EraseOrphanTx`. -/
def eraseOrphanTx (m : OrphanMaps) (hash : Uint256) : OrphanMaps :=
  match m.find? hash with
  | none => m
  | some tx =>
    { mapOrphanTransactions := m.mapOrphanTransactions.erase hash
      mapOrphanTransactionsByPrev := updateKeys (eraseHash hash) tx.vin m.mapOrphanTransactionsByPrev }

/-- Evict the first orphan from a random hash on. -/
def evict (m : OrphanMaps) (randomhash : Uint256) : OrphanMaps :=
  match (m.mapOrphanTransactions.seek randomhash).or m.mapOrphanTransactions.entries.head? with
  | none => m
  | some e => m.eraseOrphanTx e.1

/-- `LimitOrphanTxSize`, given the random hashes. Every eviction removes one orphan. -/
def limitOrphanTxSize (m : OrphanMaps) (nMaxOrphans : Nat) (randomhash : Nat → Uint256) : OrphanMaps :=
  (List.range (m.mapOrphanTransactions.entries.length - nMaxOrphans)).foldl (fun m i => m.evict (randomhash i)) m

end OrphanMaps

/-! ## The `tx` message -/

section ProcessTx

variable (tip : ChainTip) (tx : CTransaction)

/-- One orphan in the inner loop, which looks it up. -/
def considerKeyed (w : OrphanPass × OrphanMaps) (orphanHash : Uint256) : OrphanPass × OrphanMaps :=
  (considerOrphan tip tx w.1 orphanHash, w.2.lookupTx orphanHash)

/-- The outer loop from position `i` of the work queue on, for at most `fuel` rounds. Each round looks its key up. -/
def workKeyed : Nat → Nat → OrphanPass × OrphanMaps → OrphanPass × OrphanMaps
  | 0, _, w => w
  | fuel + 1, i, w =>
    match w.1.vWorkQueue[i]? with
    | none => w
    | some hashPrev =>
      let m := w.2.lookup hashPrev
      workKeyed fuel (i + 1) (((m.prevs hashPrev).entries.map (·.1)).foldl (considerKeyed tip tx) (w.1, m))

/-- The memory pool and the maps of the orphans. -/
structure LooseMaps where
  mempool : CTxMemPool
  orphans : OrphanMaps

/-- The `tx` branch of `ProcessMessage`: what it makes of the memory pool and of the maps. -/
def processTxKeyed (randomhash : Nat → Uint256) (s : LooseMaps) : LooseMaps :=
  match acceptToMemoryPool tip s.mempool tx true with
  | .ok mempool =>
    let w := workKeyed tip tx (s.orphans.mapOrphanTransactions.entries.length + 2) 0
      ({ mempool := mempool, vWorkQueue := [tx.getHash tip.cr], vEraseQueue := [tx.getHash tip.cr] }, s.orphans)
    ⟨w.1.mempool, w.1.vEraseQueue.foldl OrphanMaps.eraseOrphanTx w.2⟩
  | .error .missingInputs =>
    ⟨s.mempool, (s.orphans.addOrphanTx tip.cr tx).limitOrphanTxSize maxOrphanTransactions randomhash⟩
  | .error (.failed _) => s

end ProcessTx

/-! ## The maps without their keys -/

namespace OrphanMaps

variable {cr : Crypto} {m : OrphanMaps} {orphans : OrphanPool cr}

/-- The maps hold what an `OrphanPool` holds. -/
structure Refines (m : OrphanMaps) (orphans : OrphanPool cr) : Prop where
  txs : m.mapOrphanTransactions = orphans.mapOrphanTransactions
  prevs : m.prevs = orphans.mapOrphanTransactionsByPrev

theorem refines_empty (cr : Crypto) : Refines OrphanMaps.empty (OrphanPool.empty cr) := ⟨rfl, rfl⟩

theorem Refines.find? (h : Refines m orphans) (hash : Uint256) : m.find? hash = orphans.find? hash := by
  rw [OrphanMaps.find?, h.txs]
  rfl

@[simp] theorem lookup_self (m : OrphanMaps) (p : Uint256) :
    (m.lookup p).mapOrphanTransactionsByPrev p = some (m.prevs p) := Function.update_self _ _ _

@[simp] theorem lookup_of_ne (m : OrphanMaps) {p q : Uint256} (h : q ≠ p) :
    (m.lookup p).mapOrphanTransactionsByPrev q = m.mapOrphanTransactionsByPrev q := Function.update_of_ne h _ _

theorem prevs_lookup (m : OrphanMaps) (p : Uint256) : (m.lookup p).prevs = m.prevs := by
  funext q
  by_cases hq : q = p
  · subst hq
    rw [OrphanMaps.prevs, lookup_self, Option.getD_some]
  · rw [OrphanMaps.prevs, lookup_of_ne m hq, OrphanMaps.prevs]

theorem Refines.lookup (h : Refines m orphans) (p : Uint256) : Refines (m.lookup p) orphans :=
  ⟨h.txs, (prevs_lookup m p).trans h.prevs⟩

/-- A change of the keys, seen without them. -/
theorem getD_updateKeys {f : Option HashSet → Option HashSet} {g : HashSet → HashSet}
    (hfg : ∀ x, (f x).getD Store.empty = g (x.getD Store.empty)) : ∀ (vin : List CTxIn) (m : Uint256 → Option HashSet),
      (fun p => (updateKeys f vin m p).getD Store.empty) = updatePrevs g vin fun p => (m p).getD Store.empty
  | [], _ => rfl
  | txin :: vin, m => by
    rw [updateKeys, List.foldl_cons, ← updateKeys, getD_updateKeys hfg, updatePrevs, updatePrevs, List.foldl_cons]
    congr 1
    funext p
    by_cases hp : p = txin.prevout.hash
    · rw [hp, Function.update_self, Function.update_self, hfg]
    · rw [Function.update_of_ne hp, Function.update_of_ne hp]

theorem getD_insertHash (hash : Uint256) (x : Option HashSet) :
    (insertHash hash x).getD Store.empty = (x.getD Store.empty).insert hash () := rfl

theorem getD_eraseHash (hash : Uint256) (x : Option HashSet) :
    (eraseHash hash x).getD Store.empty = (x.getD Store.empty).erase hash := by
  unfold eraseHash
  simp only
  split
  · rename_i hempty
    refine Store.ext_find? fun k => ?_
    rw [Store.entries_eq_nil_iff.mp (List.isEmpty_iff.mp hempty) k]
    rfl
  · rfl

theorem Refines.addOrphanTx (h : Refines m orphans) (tx : CTransaction) :
    Refines (m.addOrphanTx cr tx) (orphans.addOrphanTx tx) := by
  unfold OrphanMaps.addOrphanTx OrphanPool.addOrphanTx
  simp only [h.find?]
  by_cases hnew : orphans.find? (tx.getHash cr) = none
  · rw [dif_pos hnew, if_neg (by rw [hnew]; exact Bool.false_ne_true)]
    split
    · exact h
    · refine ⟨by rw [h.txs]; rfl, ?_⟩
      exact (getD_updateKeys (getD_insertHash _) _ _).trans
        (congrArg (updatePrevs (·.insert (tx.getHash cr) ()) tx.vin) h.prevs)
  · rw [dif_neg hnew, if_pos (Option.isSome_iff_ne_none.mpr hnew)]
    exact h

theorem Refines.eraseOrphanTx (h : Refines m orphans) (hash : Uint256) :
    Refines (m.eraseOrphanTx hash) (orphans.eraseOrphanTx hash) := by
  unfold OrphanMaps.eraseOrphanTx OrphanPool.eraseOrphanTx
  rw [h.find?]
  split
  · split
    · exact h
    · rename_i hnone tx hsome
      rw [hnone] at hsome
      cases hsome
  · rename_i tx hsome
    split
    · rename_i hnone
      rw [hnone] at hsome
      cases hsome
    · rename_i tx' hsome'
      obtain rfl := Option.some.inj (hsome.symm.trans hsome')
      refine ⟨by rw [h.txs]; rfl, ?_⟩
      exact (getD_updateKeys (getD_eraseHash _) _ _).trans (congrArg (updatePrevs (·.erase hash) tx.vin) h.prevs)

theorem Refines.eraseOrphanTxs : ∀ (l : List Uint256) {m : OrphanMaps} {orphans : OrphanPool cr}, Refines m orphans →
    Refines (l.foldl OrphanMaps.eraseOrphanTx m) (l.foldl OrphanPool.eraseOrphanTx orphans)
  | [], _, _, h => h
  | a :: l, _, _, h => eraseOrphanTxs l (h.eraseOrphanTx a)

theorem Refines.evict (h : Refines m orphans) (randomhash : Uint256) :
    Refines (m.evict randomhash) (orphans.evict randomhash) := by
  unfold OrphanMaps.evict OrphanPool.evict
  rw [h.txs]
  cases (orphans.mapOrphanTransactions.seek randomhash).or orphans.mapOrphanTransactions.entries.head? with
  | none => exact h
  | some e => exact h.eraseOrphanTx e.1

theorem Refines.limitOrphanTxSize (h : Refines m orphans) (nMaxOrphans : Nat) (randomhash : Nat → Uint256) :
    Refines (m.limitOrphanTxSize nMaxOrphans randomhash) (orphans.limitOrphanTxSize nMaxOrphans randomhash) := by
  have hloop : ∀ (l : List Nat) {m : OrphanMaps} {orphans : OrphanPool cr}, Refines m orphans →
      Refines (l.foldl (fun m i => m.evict (randomhash i)) m)
        (l.foldl (fun orphans i => orphans.evict (randomhash i)) orphans) := by
    intro l
    induction l with
    | nil => exact fun h => h
    | cons i l ih => exact fun h => ih (h.evict _)
  unfold OrphanMaps.limitOrphanTxSize OrphanPool.limitOrphanTxSize
  rw [h.txs]
  exact hloop _ h

/-- Looking up an orphan that is stored leaves the maps as they are. -/
theorem lookupTx_of_stored {h : Uint256} {tx : CTransaction} (hfind : m.find? h = some tx) : m.lookupTx h = m := by
  rw [lookupTx, hfind]

end OrphanMaps

section Pass

open OrphanMaps

variable {tip : ChainTip} {tx : CTransaction} {m : OrphanMaps} {orphans : OrphanPool tip.cr}

/-- A list of stored orphans. -/
theorem considerKeyeds_eq : ∀ {l : List Uint256} {pass : OrphanPass}, (∀ h ∈ l, ∃ tx, m.find? h = some tx) →
    l.foldl (considerKeyed tip tx) (pass, m) = (l.foldl (considerOrphan tip tx) pass, m)
  | [], _, _ => rfl
  | a :: l, pass, h => by
    obtain ⟨t, ht⟩ := h a List.mem_cons_self
    rw [List.foldl_cons, List.foldl_cons, considerKeyed, lookupTx_of_stored ht]
    exact considerKeyeds_eq fun b hb => h b (List.mem_cons_of_mem _ hb)

/-- The loop ends after the received transaction, and has looked up its key. -/
theorem workKeyed_eq {fuel : Nat} {mempool : CTxMemPool} (href : m.Refines orphans)
    (h : mempool.contains (tx.getHash tip.cr) = true) :
    workKeyed tip tx (fuel + 2) 0
        ({ mempool := mempool, vWorkQueue := [tx.getHash tip.cr], vEraseQueue := [tx.getHash tip.cr] }, m) =
      ({ mempool := mempool
         vWorkQueue := [tx.getHash tip.cr]
         vEraseQueue := tx.getHash tip.cr :: orphansOf tip orphans (tx.getHash tip.cr)
         considered := ((orphansOf tip orphans (tx.getHash tip.cr)).map (·, mempool)).reverse },
        m.lookup (tx.getHash tip.cr)) := by
  have href' := href.lookup (tx.getHash tip.cr)
  have hprevs : ((m.lookup (tx.getHash tip.cr)).prevs (tx.getHash tip.cr)).entries.map (·.1) =
      orphansOf tip orphans (tx.getHash tip.cr) := by
    rw [href'.prevs]
    rfl
  have hstored : ∀ h ∈ orphansOf tip orphans (tx.getHash tip.cr),
      ∃ t, (m.lookup (tx.getHash tip.cr)).find? h = some t := by
    intro h hh
    obtain ⟨t, ht, -⟩ := mem_orphansOf.mp hh
    exact ⟨t, (href'.find? h).trans ht⟩
  rw [workKeyed, List.getElem?_cons_zero]
  simp only
  rw [hprevs, considerKeyeds_eq hstored, considerOrphans_eq h, workKeyed]
  simp

/-- The maps after an accepted transaction: its key is looked up, and the orphans that spend it are erased. -/
theorem processTxKeyed_ok {randomhash : Nat → Uint256} {s : LooseMaps} {pool : CTxMemPool}
    (href : s.orphans.Refines orphans) (h : acceptToMemoryPool tip s.mempool tx true = .ok pool) :
    processTxKeyed tip tx randomhash s = ⟨pool, (tx.getHash tip.cr :: orphansOf tip orphans (tx.getHash tip.cr)).foldl
      OrphanMaps.eraseOrphanTx (s.orphans.lookup (tx.getHash tip.cr))⟩ := by
  have hin : pool.contains (tx.getHash tip.cr) = true := by
    rw [(accept_eq_ok (acceptToMemoryPool_eq_ok.mp h)).2, contains_addUnchecked]
    simp
  unfold processTxKeyed
  simp only [h]
  rw [workKeyed_eq href hin]

/-- **But for the keys**, a `tx` message does what it does to an `OrphanPool`. -/
theorem refines_processTx (tip : ChainTip) (tx : CTransaction) {orphans : OrphanPool tip.cr}
    (randomhash : Nat → Uint256)
    {s : LooseMaps} (href : s.orphans.Refines orphans) :
    (processTxKeyed tip tx randomhash s).orphans.Refines (processTx tip tx randomhash ⟨s.mempool, orphans⟩).after.orphans ∧
      (processTxKeyed tip tx randomhash s).mempool =
        (processTx tip tx randomhash ⟨s.mempool, orphans⟩).after.mempool := by
  cases haccept : acceptToMemoryPool tip s.mempool tx true with
  | ok pool =>
    rw [processTxKeyed_ok href haccept]
    have hafter : (processTx tip tx randomhash ⟨s.mempool, orphans⟩).after = ⟨pool,
        (tx.getHash tip.cr :: orphansOf tip orphans (tx.getHash tip.cr)).foldl OrphanPool.eraseOrphanTx orphans⟩ := by
      unfold processTx
      simp only [haccept]
      rw [orphanPass_eq (acceptToMemoryPool_eq_ok.mp haccept)]
    rw [hafter]
    exact ⟨Refines.eraseOrphanTxs _ (href.lookup _), rfl⟩
  | error e =>
    cases e with
    | missingInputs =>
      simp only [processTxKeyed, processTx, haccept]
      exact ⟨(href.addOrphanTx tx).limitOrphanTxSize maxOrphanTransactions randomhash, trivial⟩
    | failed e =>
      simp only [processTxKeyed, processTx, haccept]
      exact ⟨href, trivial⟩

end Pass

/-! ## The keys -/

namespace OrphanMaps

variable {cr : Crypto} {m : OrphanMaps} {orphans : OrphanPool cr} {p : Uint256}

/-- The index has a key exactly for each transaction that an orphan spends, and under it exactly the orphans that do. -/
structure Indexed (m : OrphanMaps) : Prop where
  key_iff : ∀ p, (m.mapOrphanTransactionsByPrev p).isSome = true ↔ ∃ h tx, m.find? h = some tx ∧ tx.Spends p
  set_iff : ∀ p s, m.mapOrphanTransactionsByPrev p = some s → ∀ h, HashSet.Has s h ↔
    ∃ tx, m.find? h = some tx ∧ tx.Spends p

/-- The number of inputs of the orphans. -/
def nInputs (m : OrphanMaps) : Nat := (m.mapOrphanTransactions.entries.map (·.2.vin.length)).sum

/-- What is promised of the maps: the index is exact, it has no more keys than the orphans have inputs, and the number
of orphans can be limited. -/
structure InOrder (m : OrphanMaps) : Prop where
  indexed : m.Indexed
  bounded : {p | (m.mapOrphanTransactionsByPrev p).isSome = true}.ncard ≤ m.nInputs
  limited : ∀ nMaxOrphans randomhash,
    (m.limitOrphanTxSize nMaxOrphans randomhash).mapOrphanTransactions.entries.length ≤ nMaxOrphans

/-- Where there is a key, something stands under it. -/
def KeyedAt (m : OrphanMaps) (p : Uint256) : Prop := ∀ s, m.mapOrphanTransactionsByPrev p = some s → s.entries ≠ []

theorem updateKeys_of_not_spent {f : Option HashSet → Option HashSet} :
    ∀ {vin : List CTxIn} {m : Uint256 → Option HashSet}, (¬ ∃ txin ∈ vin, txin.prevout.hash = p) →
      updateKeys f vin m p = m p
  | [], _, _ => rfl
  | txin :: vin, m, h => by
    rw [updateKeys, List.foldl_cons, ← updateKeys,
      updateKeys_of_not_spent fun ⟨i, hi, hp⟩ => h ⟨i, List.mem_cons_of_mem _ hi, hp⟩]
    exact Function.update_of_ne (fun hp => h ⟨txin, List.mem_cons_self, hp.symm⟩) _ _

theorem updateKeys_of_spent {f : Option HashSet → Option HashSet} :
    ∀ {vin : List CTxIn} {m : Uint256 → Option HashSet}, (∃ txin ∈ vin, txin.prevout.hash = p) →
      ∃ x, updateKeys f vin m p = f x
  | [], _, ⟨_, h, _⟩ => absurd h List.not_mem_nil
  | txin :: vin, m, h => by
    rw [updateKeys, List.foldl_cons, ← updateKeys]
    by_cases hrest : ∃ txin ∈ vin, txin.prevout.hash = p
    · exact updateKeys_of_spent hrest
    · rw [updateKeys_of_not_spent hrest]
      obtain ⟨i, hi, rfl⟩ := h
      rcases List.mem_cons.mp hi with rfl | hi
      · exact ⟨_, Function.update_self _ _ _⟩
      · exact absurd ⟨i, hi, rfl⟩ hrest

/-- Erasing an orphan that spends a transaction leaves something under its key, or no key. -/
theorem keyedAt_of_erased {hash : Uint256} {tx : CTransaction} (hfind : m.find? hash = some tx) (hs : tx.Spends p) :
    KeyedAt (m.eraseOrphanTx hash) p := by
  obtain ⟨x, hx⟩ := updateKeys_of_spent (f := eraseHash hash) (m := m.mapOrphanTransactionsByPrev) hs
  have hkeys : (m.eraseOrphanTx hash).mapOrphanTransactionsByPrev p = eraseHash hash x := by
    rw [eraseOrphanTx, hfind]
    exact hx
  intro s hkey
  rw [hkeys, eraseHash] at hkey
  split at hkey
  · cases hkey
  · rename_i hne
    cases hkey
    exact fun hnil => hne (List.isEmpty_iff.mpr hnil)

/-- Erasing what does not spend a transaction leaves its key as it is. -/
theorem key_of_not_spends {hash : Uint256} (h : ∀ tx, m.find? hash = some tx → ¬ tx.Spends p) :
    (m.eraseOrphanTx hash).mapOrphanTransactionsByPrev p = m.mapOrphanTransactionsByPrev p := by
  unfold eraseOrphanTx
  cases hfind : m.find? hash with
  | none => rfl
  | some tx => exact updateKeys_of_not_spent (h tx hfind)

theorem KeyedAt.eraseOrphanTx (h : KeyedAt m p) (hash : Uint256) : KeyedAt (m.eraseOrphanTx hash) p := by
  by_cases hs : ∃ tx, m.find? hash = some tx ∧ tx.Spends p
  · obtain ⟨tx, hfind, hs⟩ := hs
    exact keyedAt_of_erased hfind hs
  · intro s hkey
    rw [key_of_not_spends fun tx hfind hspends => hs ⟨tx, hfind, hspends⟩] at hkey
    exact h s hkey

theorem find?_eraseOrphanTx (m : OrphanMaps) (hash h : Uint256) :
    (m.eraseOrphanTx hash).find? h = if h = hash then none else m.find? h := by
  unfold eraseOrphanTx
  cases hfind : m.find? hash with
  | none =>
    by_cases hh : h = hash
    · rw [if_pos hh, hh, hfind]
    · rw [if_neg hh]
  | some tx => exact Store.find?_erase _ _ _

theorem KeyedAt.eraseOrphanTxs : ∀ {l : List Uint256} {m : OrphanMaps}, KeyedAt m p →
    KeyedAt (l.foldl OrphanMaps.eraseOrphanTx m) p
  | [], _, h => h
  | a :: l, _, h => KeyedAt.eraseOrphanTxs (l := l) (h.eraseOrphanTx a)

/-- Erasing several orphans, one of which spends a transaction. -/
theorem keyedAt_of_mem_erased {h : Uint256} {tx : CTransaction} (hs : tx.Spends p) : ∀ {l : List Uint256}
    {m : OrphanMaps}, h ∈ l → m.find? h = some tx → KeyedAt (l.foldl OrphanMaps.eraseOrphanTx m) p
  | [], _, hl, _ => absurd hl List.not_mem_nil
  | a :: l, m, hl, hfind => by
    rw [List.foldl_cons]
    by_cases ha : h = a
    · subst ha
      exact KeyedAt.eraseOrphanTxs (keyedAt_of_erased hfind hs)
    · refine keyedAt_of_mem_erased hs ((List.mem_cons.mp hl).resolve_left ha) ?_
      rw [find?_eraseOrphanTx, if_neg ha, hfind]

/-- Erasing several orphans where none spends a transaction. -/
theorem key_of_none_spends : ∀ {l : List Uint256} {m : OrphanMaps}, (∀ h tx, m.find? h = some tx → ¬ tx.Spends p) →
    (l.foldl OrphanMaps.eraseOrphanTx m).mapOrphanTransactionsByPrev p = m.mapOrphanTransactionsByPrev p
  | [], _, _ => rfl
  | a :: l, m, h => by
    rw [List.foldl_cons, key_of_none_spends fun h' tx hfind => ?_, key_of_not_spends (h a)]
    rw [find?_eraseOrphanTx] at hfind
    split at hfind
    · cases hfind
    · exact h h' tx hfind

theorem KeyedAt.addOrphanTx (h : KeyedAt m p) (tx : CTransaction) : KeyedAt (m.addOrphanTx cr tx) p := by
  unfold OrphanMaps.addOrphanTx
  simp only
  split
  · exact h
  split
  · exact h
  intro s hkey
  replace hkey : updateKeys (insertHash (tx.getHash cr)) tx.vin m.mapOrphanTransactionsByPrev p = some s := hkey
  by_cases hs : tx.Spends p
  · obtain ⟨x, hx⟩ := updateKeys_of_spent (f := insertHash (tx.getHash cr)) (m := m.mapOrphanTransactionsByPrev) hs
    rw [hx, insertHash, Option.some.injEq] at hkey
    intro hnil
    have hhas := HashSet.has_insert (s := x.getD Store.empty) (h := tx.getHash cr) |>.mpr (.inl rfl)
    rw [hkey, HashSet.Has, Store.entries_eq_nil_iff.mp hnil] at hhas
    cases hhas
  · rw [updateKeys_of_not_spent hs] at hkey
    exact h s hkey

theorem KeyedAt.evict (h : KeyedAt m p) (randomhash : Uint256) : KeyedAt (m.evict randomhash) p := by
  unfold OrphanMaps.evict
  cases (m.mapOrphanTransactions.seek randomhash).or m.mapOrphanTransactions.entries.head? with
  | none => exact h
  | some e => exact h.eraseOrphanTx e.1

theorem KeyedAt.limitOrphanTxSize (h : KeyedAt m p) (nMaxOrphans : Nat) (randomhash : Nat → Uint256) :
    KeyedAt (m.limitOrphanTxSize nMaxOrphans randomhash) p := by
  have hloop : ∀ (l : List Nat) {m : OrphanMaps}, KeyedAt m p →
    KeyedAt (l.foldl (fun m i => m.evict (randomhash i)) m) p := by
    intro l
    induction l with
    | nil => exact fun h => h
    | cons i l ih => exact fun h => ih (h.evict _)
  exact hloop _ h

/-- Every eviction removes one orphan. -/
theorem length_evict (m : OrphanMaps) (randomhash : Uint256) :
    (m.evict randomhash).mapOrphanTransactions.entries.length = m.mapOrphanTransactions.entries.length - 1 := by
  unfold evict
  cases hentry : (m.mapOrphanTransactions.seek randomhash).or m.mapOrphanTransactions.entries.head? with
  | none =>
    have hnil := List.head?_eq_none_iff.mp (Option.or_eq_none_iff.mp hentry).2
    simp [hnil]
  | some e =>
    have hfind : m.find? e.1 = some e.2 := by
      rcases Option.or_eq_some_iff.mp hentry with hseek | ⟨-, hhead⟩
      · exact (Store.seek_eq_some.mp hseek).1
      · exact Store.find?_eq_some.mpr (List.mem_of_head? hhead)
    have hlength := Store.length_erase hfind
    simp only [eraseOrphanTx, hfind]
    omega

/-- **`LimitOrphanTxSize` leaves at most that many orphans**, whatever is evicted. -/
theorem length_limitOrphanTxSize (m : OrphanMaps) (nMaxOrphans : Nat) (randomhash : Nat → Uint256) :
    (m.limitOrphanTxSize nMaxOrphans randomhash).mapOrphanTransactions.entries.length ≤ nMaxOrphans := by
  have hloop : ∀ (l : List Nat) (m : OrphanMaps), (l.foldl (fun m i => m.evict (randomhash i))
      m).mapOrphanTransactions.entries.length = m.mapOrphanTransactions.entries.length - l.length := by
    intro l
    induction l with
    | nil => exact fun m => rfl
    | cons i l ih =>
      intro m
      rw [List.foldl_cons, ih, length_evict, List.length_cons]
      omega
  rw [limitOrphanTxSize, hloop, List.length_range]
  omega

/-- The index is exact when something stands under each of its keys. -/
theorem Refines.indexed_iff (h : Refines m orphans) : m.Indexed ↔ ∀ p, KeyedAt m p := by
  have hset : ∀ p s, m.mapOrphanTransactionsByPrev p = some s → ∀ h, HashSet.Has s h ↔
      ∃ tx, m.find? h = some tx ∧ tx.Spends p := by
    intro p s hkey hash
    have hprevs : m.prevs p = s := by rw [OrphanMaps.prevs, hkey, Option.getD_some]
    rw [← hprevs, h.prevs, orphans.byPrev_iff, h.find?]
    rfl
  constructor
  · intro hindexed p s hkey
    obtain ⟨hash, htx⟩ := (hindexed.key_iff p).mp (Option.isSome_iff_exists.mpr ⟨s, hkey⟩)
    have hhas := (hset p s hkey hash).mpr htx
    intro hnil
    rw [HashSet.Has, Store.entries_eq_nil_iff.mp hnil] at hhas
    cases hhas
  · refine fun hkeyed => ⟨fun p => ⟨fun hsome => ?_, ?_⟩, hset⟩
    · obtain ⟨s, hkey⟩ := Option.isSome_iff_exists.mp hsome
      obtain ⟨e, he⟩ := List.exists_mem_of_ne_nil _ (hkeyed p s hkey)
      exact ⟨e.1, (hset p s hkey e.1).mp (Store.find?_eq_some.mpr he)⟩
    · rintro ⟨hash, tx, hfind, hs⟩
      have hhas := (orphans.byPrev_iff p hash).mpr ⟨tx, (h.find? hash).symm.trans hfind, hs⟩
      rw [← h.prevs, OrphanMaps.prevs] at hhas
      cases hkey : m.mapOrphanTransactionsByPrev p with
      | none =>
        rw [hkey] at hhas
        cases hhas
      | some s => rfl

/-- An exact index has no more keys than the orphans have inputs. -/
theorem Indexed.bounded (h : m.Indexed) : {p | (m.mapOrphanTransactionsByPrev p).isSome = true}.ncard ≤ m.nInputs := by
  let hashes := m.mapOrphanTransactions.entries.flatMap fun e => e.2.vin.map (·.prevout.hash)
  have hsub : {p | (m.mapOrphanTransactionsByPrev p).isSome = true} ⊆ (hashes.toFinset : Set Uint256) := by
    intro p hp
    obtain ⟨hash, tx, hfind, txin, htxin, rfl⟩ := (h.key_iff p).mp hp
    exact Finset.mem_coe.mpr (List.mem_toFinset.mpr (List.mem_flatMap.mpr
      ⟨(hash, tx), Store.find?_eq_some.mp hfind, List.mem_map.mpr ⟨txin, htxin, rfl⟩⟩))
  calc {p | (m.mapOrphanTransactionsByPrev p).isSome = true}.ncard
      ≤ (hashes.toFinset : Set Uint256).ncard := Set.ncard_le_ncard hsub hashes.toFinset.finite_toSet
    _ = hashes.toFinset.card := Set.ncard_coe_finset _
    _ ≤ hashes.length := List.toFinset_card_le _
    _ = m.nInputs := by simp [hashes, nInputs, List.length_flatMap]

/-- What is promised of the maps holds exactly when something stands under each key. -/
theorem Refines.inOrder_iff (h : Refines m orphans) : m.InOrder ↔ ∀ p, KeyedAt m p := by
  rw [← h.indexed_iff]
  exact ⟨fun hm => hm.indexed, fun hm => ⟨hm, hm.bounded, m.length_limitOrphanTxSize⟩⟩

end OrphanMaps

/-! ## Runs -/

section Runs

open OrphanMaps

/-- An orphan spends an output of the transaction, when the transaction is accepted. -/
def Awaited (tip : ChainTip) (s : LooseMaps) (tx : CTransaction) : Prop :=
  (∃ pool, acceptToMemoryPool tip s.mempool tx true = .ok pool) →
    ∃ h orphan, s.orphans.find? h = some orphan ∧ orphan.Spends (tx.getHash tip.cr)

/-- **What a `tx` message makes of the keys**: where something stood under each, so it does afterwards, unless a
transaction is accepted that no orphan waits for. -/
theorem keyed_processTx (tip : ChainTip) {tx : CTransaction} {orphans : OrphanPool tip.cr} {s : LooseMaps}
    (randomhash : Nat → Uint256) (href : s.orphans.Refines orphans) (hkeyed : ∀ p, KeyedAt s.orphans p) :
    (∀ p, KeyedAt (processTxKeyed tip tx randomhash s).orphans p) ↔ Awaited tip s tx := by
  cases haccept : acceptToMemoryPool tip s.mempool tx true with
  | error e =>
    refine iff_of_true (fun p => ?_) fun ⟨pool, hok⟩ => by rw [haccept] at hok; cases hok
    cases e with
    | missingInputs =>
      simp only [processTxKeyed, haccept]
      exact ((hkeyed p).addOrphanTx tx).limitOrphanTxSize maxOrphanTransactions randomhash
    | failed e =>
      simp only [processTxKeyed, haccept]
      exact hkeyed p
  | ok pool =>
    rw [processTxKeyed_ok href haccept]
    constructor
    · rintro h -
      by_contra hnone
      -- the key that was looked up is left behind
      have hkey := key_of_none_spends (p := tx.getHash tip.cr)
        (l := tx.getHash tip.cr :: orphansOf tip orphans (tx.getHash tip.cr))
        (m := s.orphans.lookup (tx.getHash tip.cr)) fun hash orphan hfind hs => hnone ⟨hash, orphan, hfind, hs⟩
      rw [lookup_self] at hkey
      obtain ⟨e, he⟩ := List.exists_mem_of_ne_nil _ (h _ _ hkey)
      have hhas : HashSet.Has (s.orphans.prevs (tx.getHash tip.cr)) e.1 := Store.find?_eq_some.mpr he
      rw [href.prevs, orphans.byPrev_iff] at hhas
      obtain ⟨orphan, hfind, hs⟩ := hhas
      exact hnone ⟨e.1, orphan, (href.find? e.1).trans hfind, hs⟩
    · intro hawaited p
      by_cases hp : p = tx.getHash tip.cr
      · obtain ⟨hash, orphan, hfind, hs⟩ := hawaited ⟨pool, haccept⟩
        rw [hp]
        exact keyedAt_of_mem_erased hs (List.mem_cons_of_mem _ (mem_orphansOf.mpr
          ⟨orphan, (href.find? hash).symm.trans hfind, hs⟩)) hfind
      · refine KeyedAt.eraseOrphanTxs fun s' hkey => hkeyed p s' ?_
        rwa [lookup_of_ne _ hp] at hkey

/-- What happens to the memory pool and the orphans: a `tx` message, with the random hashes, or a change of the pool
that the orphans have no part in. -/
inductive OrphanEvent where
  | received (tip : ChainTip) (tx : CTransaction) (randomhash : Nat → Uint256)
  | poolChanged (mempool : CTxMemPool)

namespace OrphanEvent

variable (cr : Crypto)

/-- One event. -/
def step (s : LooseMaps) : OrphanEvent → LooseMaps
  | received tip tx randomhash => processTxKeyed { tip with cr := cr } tx randomhash s
  | poolChanged mempool => { s with mempool := mempool }

/-- The condition of one event: a transaction that is accepted is one that a stored orphan spends. -/
def Awaits (s : LooseMaps) : OrphanEvent → Prop
  | received tip tx _ => Awaited { tip with cr := cr } s tx
  | poolChanged _ => True

end OrphanEvent

/-- **When the index of the orphans is exact.** In every run that starts without orphans, the index has a key exactly
for each transaction that an orphan spends, with exactly the orphans that spend it under it, no more keys than the
orphans have inputs, and the orphans can be limited, in every state reached exactly when every transaction that is
accepted is one that a stored orphan spends. -/
theorem orphanIndex_iff (cr : Crypto) (mempool : CTxMemPool) (es : List OrphanEvent) :
    Run.Always (OrphanEvent.step cr) (fun s => s.orphans.InOrder) ⟨mempool, OrphanMaps.empty⟩ es ↔
      Run.Meets (OrphanEvent.step cr) (OrphanEvent.Awaits cr) ⟨mempool, OrphanMaps.empty⟩ es := by
  refine Run.always_iff_meets (I := fun s => ∃ orphans : OrphanPool cr, s.orphans.Refines orphans) ?_ ?_
    ⟨_, refines_empty cr⟩ ?_
  · rintro s e ⟨orphans, href⟩
    cases e with
    | received tip tx randomhash =>
      exact ⟨_, (refines_processTx { tip with cr := cr } tx randomhash href).1⟩
    | poolChanged mempool => exact ⟨orphans, href⟩
  · rintro s e ⟨orphans, href⟩ hs
    cases e with
    | received tip tx randomhash =>
      have href' := (refines_processTx { tip with cr := cr } tx randomhash href).1
      refine (href'.inOrder_iff).trans ?_
      exact keyed_processTx { tip with cr := cr } randomhash href (href.inOrder_iff.mp hs)
    | poolChanged mempool => exact iff_of_true hs trivial
  · exact (refines_empty cr).inOrder_iff.mpr fun _ _ h => nomatch h

/-- **A key that is left behind**: a transaction is accepted that no orphan waits for, and the index has a key while
there are no orphans. -/
theorem acceptedTx_leaves_key : ¬ Run.Always (OrphanEvent.step orphanCrypto) (fun s => s.orphans.InOrder)
    ⟨CTxMemPool.empty, OrphanMaps.empty⟩ [.received orphanTip (spendBefore 2 800) id] := by
  intro h
  have hkey : ((OrphanEvent.step orphanCrypto ⟨CTxMemPool.empty, OrphanMaps.empty⟩
      (.received orphanTip (spendBefore 2 800) id)).orphans.mapOrphanTransactionsByPrev 2).isSome = true ∧
      (OrphanEvent.step orphanCrypto ⟨CTxMemPool.empty, OrphanMaps.empty⟩
        (.received orphanTip (spendBefore 2 800) id)).orphans.mapOrphanTransactions.entries = [] := by decide +kernel
  obtain ⟨hash, tx, hfind, -⟩ := ((h _ (List.prefix_refl _)).indexed.key_iff 2).mp hkey.1
  cases hfind.symm.trans (Store.entries_eq_nil_iff.mp hkey.2 hash)

end Runs

end Morcochain
