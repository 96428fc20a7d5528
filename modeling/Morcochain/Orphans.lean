import Morcochain.Mempool
import Morcochain.Lib.OrderedStore

/-!
# Orphan transactions

The transactions that wait for the transactions their inputs name (`mapOrphanTransactions` of `main.cpp`), and the `tx`
branch of `ProcessMessage`. An `OrphanPool` carries the agreement of its two maps: an orphan is listed under each
transaction that its inputs name.

* `orphanPass_eq` : what the pass over the orphans does. It asks again for the received transaction, which is in the
  pool by then, so every orphan that spends it is erased without being looked at.
* `orphansResolved_iff` : **when the orphans are resolved** as they should be.
-/

set_option autoImplicit false

namespace Morcochain

open Guard OrderedStore

/-- The transaction spends an output of another one. -/
def CTransaction.Spends (tx : CTransaction) (hashPrev : Uint256) : Prop := ∃ txin ∈ tx.vin, txin.prevout.hash = hashPrev

instance (tx : CTransaction) (hashPrev : Uint256) : Decidable (tx.Spends hashPrev) :=
  inferInstanceAs (Decidable (∃ txin ∈ tx.vin, _))

/-- A set of hashes, in their order. -/
abbrev HashSet := Store Uint256 Unit

namespace HashSet

/-- The hash is in the set. -/
def Has (s : HashSet) (h : Uint256) : Prop := s.find? h = some ()

theorem has_insert {s : HashSet} {h h' : Uint256} : Has (s.insert h ()) h' ↔ h' = h ∨ Has s h' := by
  unfold Has
  rw [Store.find?_insert]
  by_cases hh : h' = h <;> simp [hh]

theorem has_erase {s : HashSet} {h h' : Uint256} : Has (s.erase h) h' ↔ h' ≠ h ∧ Has s h' := by
  unfold Has
  rw [Store.find?_erase]
  by_cases hh : h' = h <;> simp [hh]

theorem has_iff_mem {s : HashSet} {h : Uint256} : Has s h ↔ h ∈ s.entries.map (·.1) := by
  rw [Has, Store.find?_eq_some, List.mem_map]
  constructor
  · exact fun hm => ⟨_, hm, rfl⟩
  · rintro ⟨⟨a, u⟩, hm, rfl⟩
    exact hm

end HashSet

/-- Change the sets of the transactions that the inputs name, one input after the other. -/
def updatePrevs (f : HashSet → HashSet) (vin : List CTxIn) (m : Uint256 → HashSet) : Uint256 → HashSet :=
  vin.foldl (fun m txin => Function.update m txin.prevout.hash (f (m txin.prevout.hash))) m

/-- Whether a hash is in a set after the change is told by whether the set is changed at all, if changing a set twice is
changing it once. -/
theorem has_updatePrevs {f : HashSet → HashSet} {h : Uint256} (hf : ∀ s, HashSet.Has (f (f s)) h ↔ HashSet.Has (f s) h)
    {p : Uint256} : ∀ {vin : List CTxIn} {m : Uint256 → HashSet}, HashSet.Has (updatePrevs f vin m p) h ↔
      HashSet.Has (if ∃ txin ∈ vin, txin.prevout.hash = p then f (m p) else m p) h
  | [], m => by simp [updatePrevs]
  | txin :: vin, m => by
    rw [updatePrevs, List.foldl_cons, ← updatePrevs, has_updatePrevs hf]
    by_cases hp : txin.prevout.hash = p
    · subst hp
      have hex : ∃ i ∈ txin :: vin, i.prevout.hash = txin.prevout.hash := ⟨txin, List.mem_cons_self, rfl⟩
      rw [Function.update_self, if_pos hex]
      split
      · exact hf _
      · rfl
    · rw [Function.update_of_ne (Ne.symm hp)]
      simp [hp]

/-- `mapOrphanTransactions` and `mapOrphanTransactionsByPrev`. A transaction under which no orphan is listed has no
entry in the source, and the empty set here. -/
structure OrphanPool (cr : Crypto) where
  mapOrphanTransactions : Store Uint256 CTransaction
  mapOrphanTransactionsByPrev : Uint256 → HashSet
  hash_eq : ∀ h tx, mapOrphanTransactions.find? h = some tx → tx.getHash cr = h
  byPrev_iff : ∀ p h, HashSet.Has (mapOrphanTransactionsByPrev p) h ↔
    ∃ tx, mapOrphanTransactions.find? h = some tx ∧ tx.Spends p

namespace OrphanPool

variable {cr : Crypto}

/-- No orphans. -/
def empty (cr : Crypto) : OrphanPool cr where
  mapOrphanTransactions := Store.empty
  mapOrphanTransactionsByPrev _ := Store.empty
  hash_eq _ _ h := nomatch h
  byPrev_iff _ _ := by
    constructor
    · intro h
      cases h
    · rintro ⟨_, h, -⟩
      cases h

/-- The orphan stored under a hash. -/
def find? (orphans : OrphanPool cr) (h : Uint256) : Option CTransaction := orphans.mapOrphanTransactions.find? h

/-- The part of `AddOrphanTx` that stores a transaction. -/
def store (orphans : OrphanPool cr) (tx : CTransaction) (hnew : orphans.find? (tx.getHash cr) = none) :
    OrphanPool cr where
  mapOrphanTransactions := orphans.mapOrphanTransactions.insert (tx.getHash cr) tx
  mapOrphanTransactionsByPrev :=
    updatePrevs (·.insert (tx.getHash cr) ()) tx.vin orphans.mapOrphanTransactionsByPrev
  hash_eq h t ht := by
    rw [Store.find?_insert] at ht
    split at ht
    · rename_i hh
      cases ht
      exact hh.symm
    · exact orphans.hash_eq h t ht
  byPrev_iff p h := by
    rw [has_updatePrevs (by simp [HashSet.has_insert]), Store.find?_insert]
    by_cases hh : h = tx.getHash cr
    · subst hh
      have hold : ¬ HashSet.Has (orphans.mapOrphanTransactionsByPrev p) (tx.getHash cr) := by
        rw [orphans.byPrev_iff]
        rintro ⟨t, ht, -⟩
        rw [find?, ht] at hnew
        cases hnew
      rw [if_pos rfl]
      split
      · rename_i hs
        exact ⟨fun _ => ⟨tx, rfl, hs⟩, fun _ => HashSet.has_insert.mpr (.inl rfl)⟩
      · rename_i hs
        exact ⟨fun h => absurd h hold, fun ⟨t, ht, hs'⟩ => absurd (Option.some.inj ht ▸ hs') hs⟩
    · rw [if_neg hh, ← orphans.byPrev_iff]
      split
      · rw [HashSet.has_insert]
        simp [hh]
      · rfl

/-- `AddOrphanTx`. -/
def addOrphanTx (orphans : OrphanPool cr) (tx : CTransaction) : OrphanPool cr :=
  if hnew : orphans.find? (tx.getHash cr) = none then
    if tx.serializeSize > 5000 then orphans else orphans.store tx hnew
  else orphans

/-- The part of `EraseOrphanTx` that erases a transaction. -/
def unstore (orphans : OrphanPool cr) (hash : Uint256) (tx : CTransaction) (hold : orphans.find? hash = some tx) :
    OrphanPool cr where
  mapOrphanTransactions := orphans.mapOrphanTransactions.erase hash
  mapOrphanTransactionsByPrev := updatePrevs (·.erase hash) tx.vin orphans.mapOrphanTransactionsByPrev
  hash_eq h t ht := by
    rw [Store.find?_erase] at ht
    split at ht
    · cases ht
    · exact orphans.hash_eq h t ht
  byPrev_iff p h := by
    rw [has_updatePrevs (by simp [HashSet.has_erase]), Store.find?_erase]
    by_cases hh : h = hash
    · subst hh
      rw [if_pos rfl]
      refine ⟨fun hhas => ?_, fun ⟨_, ht, _⟩ => nomatch ht⟩
      split at hhas
      · exact absurd rfl (HashSet.has_erase.mp hhas).1
      · rename_i hs
        obtain ⟨t, ht, hs'⟩ := (orphans.byPrev_iff p h).mp hhas
        exact absurd (Option.some.inj (hold.symm.trans ht) ▸ hs') hs
    · rw [if_neg hh, ← orphans.byPrev_iff]
      split
      · rw [HashSet.has_erase]
        simp [hh]
      · rfl

/-- `EraseOrphanTx`. -/
def eraseOrphanTx (orphans : OrphanPool cr) (hash : Uint256) : OrphanPool cr :=
  match h : orphans.find? hash with
  | none => orphans
  | some tx => orphans.unstore hash tx h

/-- Evict the first orphan from a random hash on. -/
def evict (orphans : OrphanPool cr) (randomhash : Uint256) : OrphanPool cr :=
  match (orphans.mapOrphanTransactions.seek randomhash).or orphans.mapOrphanTransactions.entries.head? with
  | none => orphans
  | some e => orphans.eraseOrphanTx e.1

/-- `LimitOrphanTxSize`, given the random hashes. Every eviction removes one orphan. -/
def limitOrphanTxSize (orphans : OrphanPool cr) (nMaxOrphans : Nat) (randomhash : Nat → Uint256) : OrphanPool cr :=
  (List.range (orphans.mapOrphanTransactions.entries.length - nMaxOrphans)).foldl
    (fun orphans i => orphans.evict (randomhash i)) orphans

theorem find?_eraseOrphanTx (orphans : OrphanPool cr) (hash h : Uint256) :
    (orphans.eraseOrphanTx hash).find? h = if h = hash then none else orphans.find? h := by
  unfold eraseOrphanTx
  split
  · rename_i hnone
    by_cases hh : h = hash
    · rw [if_pos hh, hh, hnone]
    · rw [if_neg hh]
  · exact Store.find?_erase _ _ _

theorem find?_foldl_eraseOrphanTx {h : Uint256} : ∀ {l : List Uint256} {orphans : OrphanPool cr},
    (l.foldl eraseOrphanTx orphans).find? h = if h ∈ l then none else orphans.find? h
  | [], _ => by simp
  | a :: l, orphans => by
    rw [List.foldl_cons, find?_foldl_eraseOrphanTx, find?_eraseOrphanTx]
    by_cases hl : h ∈ l <;> by_cases ha : h = a <;> simp [hl, ha]

end OrphanPool

/-! ## The `tx` message -/

/-- The state of the pass over the orphans. The memory pool at the moment when an orphan is considered is recorded, the
last one first. -/
structure OrphanPass where
  mempool : CTxMemPool
  vWorkQueue : List Uint256
  vEraseQueue : List Uint256
  considered : List (Uint256 × CTxMemPool) := []

/-- The memory pool and the orphans. -/
structure LooseTransactions (cr : Crypto) where
  mempool : CTxMemPool
  orphans : OrphanPool cr

/-- What a `tx` message does: the new state, the transactions relayed and the misbehaviour of the sender. -/
structure TxOutcome (cr : Crypto) where
  after : LooseTransactions cr
  relayed : List Uint256
  nMisbehaving : Nat

section ProcessTx

variable (tip : ChainTip) (tx : CTransaction)

/-- One orphan in the inner loop. -/
def considerOrphan (pass : OrphanPass) (orphanHash : Uint256) : OrphanPass :=
  let pass := { pass with considered := (orphanHash, pass.mempool) :: pass.considered }
  -- `tx` is the received transaction, not the orphan
  match acceptToMemoryPool tip pass.mempool tx true with
  | .ok mempool => { pass with
      mempool := mempool
      vWorkQueue := pass.vWorkQueue ++ [orphanHash]
      vEraseQueue := pass.vEraseQueue ++ [orphanHash] }
  | .error .missingInputs => pass
  | .error (.failed _) => { pass with vEraseQueue := pass.vEraseQueue ++ [orphanHash] }

/-- The orphans listed under a transaction. -/
def orphansOf (orphans : OrphanPool tip.cr) (hashPrev : Uint256) : List Uint256 :=
  (orphans.mapOrphanTransactionsByPrev hashPrev).entries.map (·.1)

/-- The outer loop from position `i` of the work queue on, for at most `fuel` rounds. -/
def workLoop (orphans : OrphanPool tip.cr) : Nat → Nat → OrphanPass → OrphanPass
  | 0, _, pass => pass
  | fuel + 1, i, pass =>
    match pass.vWorkQueue[i]? with
    | none => pass
    | some hashPrev => workLoop orphans fuel (i + 1) ((orphansOf tip orphans hashPrev).foldl (considerOrphan tip tx) pass)

/-- The pass over the orphans, after the transaction has entered the pool; each orphan is put in the work queue at most
once. -/
def orphanPass (mempool : CTxMemPool) (orphans : OrphanPool tip.cr) : OrphanPass :=
  workLoop tip tx orphans (orphans.mapOrphanTransactions.entries.length + 2) 0
    { mempool := mempool, vWorkQueue := [tx.getHash tip.cr], vEraseQueue := [tx.getHash tip.cr] }

/-- The `tx` branch of `ProcessMessage`. -/
def processTx (randomhash : Nat → Uint256) (s : LooseTransactions tip.cr) : TxOutcome tip.cr :=
  match acceptToMemoryPool tip s.mempool tx true with
  | .ok mempool =>
    let pass := orphanPass tip tx mempool s.orphans
    { after := ⟨pass.mempool, pass.vEraseQueue.foldl OrphanPool.eraseOrphanTx s.orphans⟩
      relayed := pass.vWorkQueue, nMisbehaving := 0 }
  | .error .missingInputs =>
    { after := ⟨s.mempool, (s.orphans.addOrphanTx tx).limitOrphanTxSize maxOrphanTransactions randomhash⟩
      relayed := [], nMisbehaving := 0 }
  | .error (.failed e) =>
    let state := CValidationState.apply {} e
    { after := s, relayed := [], nMisbehaving := if state.isInvalid then state.nDoS else 0 }

end ProcessTx

/-! ## What the pass does -/

section Pass

variable {tip : ChainTip} {tx : CTransaction} {orphans : OrphanPool tip.cr}

/-- One orphan, when the received transaction is in the pool: it is put in the queue of the orphans to erase. -/
theorem considerOrphan_eq {pass : OrphanPass} (h : pass.mempool.contains (tx.getHash tip.cr) = true)
    (orphanHash : Uint256) : considerOrphan tip tx pass orphanHash = { pass with
      considered := (orphanHash, pass.mempool) :: pass.considered
      vEraseQueue := pass.vEraseQueue ++ [orphanHash] } := by
  obtain ⟨e, he⟩ := accept_of_contains (f := true) h
  have hcaught : ∃ e', acceptToMemoryPool tip pass.mempool tx true = .error (.failed e') := by
    unfold acceptToMemoryPool
    rw [he]
    cases e <;> exact ⟨_, rfl⟩
  obtain ⟨e', he'⟩ := hcaught
  unfold considerOrphan
  simp only [he']

/-- A list of orphans, when the received transaction is in the pool. -/
theorem considerOrphans_eq : ∀ {l : List Uint256} {pass : OrphanPass},
    pass.mempool.contains (tx.getHash tip.cr) = true → l.foldl (considerOrphan tip tx) pass = { pass with
      considered := (l.map (·, pass.mempool)).reverse ++ pass.considered
      vEraseQueue := pass.vEraseQueue ++ l }
  | [], pass, _ => by simp
  | a :: l, pass, h => by
    rw [List.foldl_cons, considerOrphan_eq h]
    refine (considerOrphans_eq ?_).trans ?_
    · exact h
    · simp

/-- The loop ends after the received transaction. -/
theorem workLoop_eq {fuel : Nat} {mempool : CTxMemPool} (h : mempool.contains (tx.getHash tip.cr) = true) :
    workLoop tip tx orphans (fuel + 2) 0
        { mempool := mempool, vWorkQueue := [tx.getHash tip.cr], vEraseQueue := [tx.getHash tip.cr] } =
      { mempool := mempool
        vWorkQueue := [tx.getHash tip.cr]
        vEraseQueue := tx.getHash tip.cr :: orphansOf tip orphans (tx.getHash tip.cr)
        considered := ((orphansOf tip orphans (tx.getHash tip.cr)).map (·, mempool)).reverse } := by
  rw [workLoop, List.getElem?_cons_zero]
  simp only
  rw [considerOrphans_eq h, workLoop]
  simp

/-- **What the pass does**: the pool stays as it is, and all orphans that spend the received transaction are erased. -/
theorem orphanPass_eq {mempool pool : CTxMemPool} (h : accept tip mempool tx true = .ok pool) :
    orphanPass tip tx pool orphans =
      { mempool := pool
        vWorkQueue := [tx.getHash tip.cr]
        vEraseQueue := tx.getHash tip.cr :: orphansOf tip orphans (tx.getHash tip.cr)
        considered := ((orphansOf tip orphans (tx.getHash tip.cr)).map (·, pool)).reverse } := by
  refine workLoop_eq ?_
  rw [(accept_eq_ok h).2, contains_addUnchecked]
  simp

theorem mem_orphansOf {h hashPrev : Uint256} :
    h ∈ orphansOf tip orphans hashPrev ↔ ∃ tx, orphans.find? h = some tx ∧ tx.Spends hashPrev := by
  rw [orphansOf, ← HashSet.has_iff_mem, orphans.byPrev_iff]
  rfl

end Pass

/-! ## Whether orphans are resolved -/

section Resolved

variable {tip : ChainTip} {tx : CTransaction} {s : LooseTransactions tip.cr} {pool : CTxMemPool}
  {randomhash : Nat → Uint256}

/-- What is promised of one orphan that was considered when the memory pool was `pool`: it is moved to the pool if it is
acceptable there, it stays if one of its inputs is missing, and it is dropped only when its inputs are present and it is
not acceptable. -/
structure OrphanResolved (tip : ChainTip) (after : LooseTransactions tip.cr) (h : Uint256) (orphan : CTransaction)
    (pool : CTxMemPool) : Prop where
  moved : ∀ pool', accept tip pool orphan true = .ok pool' → after.mempool.contains h = true
  stays : ¬ tip.InputsPresent pool orphan → after.orphans.find? h = some orphan
  dropped : after.orphans.find? h = none → after.mempool.contains h = false →
    tip.InputsPresent pool orphan ∧ ∀ pool', accept tip pool orphan true ≠ .ok pool'

/-- Every stored orphan that depends on the received transaction, or on an orphan accepted in the same pass, is resolved
in the memory pool of the moment when it was considered last. -/
def OrphansResolved (tip : ChainTip) (s : LooseTransactions tip.cr) (after : LooseTransactions tip.cr)
    (pass : OrphanPass) : Prop :=
  ∀ h orphan, s.orphans.find? h = some orphan → (∃ hashPrev ∈ pass.vWorkQueue, orphan.Spends hashPrev) →
    ∃ pool, pass.considered.find? (fun c => c.1 = h) = some (h, pool) ∧ OrphanResolved tip after h orphan pool

/-- The last moment of an orphan that was considered. -/
theorem find?_considered {h : Uint256} {l : List Uint256} (hl : h ∈ l) :
    ((l.map (·, pool)).reverse).find? (fun c => c.1 = h) = some (h, pool) := by
  have hmem : (h, pool) ∈ (l.map (·, pool)).reverse :=
    List.mem_reverse.mpr (List.mem_map.mpr ⟨h, hl, rfl⟩)
  cases hf : ((l.map (·, pool)).reverse).find? (fun c => c.1 = h) with
  | none => exact absurd (decide_eq_true rfl) (List.find?_eq_none.mp hf _ hmem)
  | some c =>
    have hc : c.1 = h := by simpa using List.find?_some hf
    obtain ⟨a, -, rfl⟩ := List.mem_map.mp (List.mem_reverse.mp (List.mem_of_find?_eq_some hf))
    rw [← hc]

/-- An orphan that is erased while the pool stays as it is is resolved exactly when it is refused with its inputs
present. -/
theorem orphanResolved_erased {after : LooseTransactions tip.cr} {h : Uint256} {orphan : CTransaction}
    (hhash : orphan.getHash tip.cr = h) (hpool : after.mempool = pool) (herased : after.orphans.find? h = none) :
    OrphanResolved tip after h orphan pool ↔
      tip.InputsPresent pool orphan ∧ ∀ pool', accept tip pool orphan true ≠ .ok pool' := by
  subst hpool
  constructor
  · rintro ⟨hmoved, hstays, -⟩
    refine ⟨?_, fun pool' hok => ?_⟩
    · by_contra hmissing
      rw [hstays hmissing] at herased
      cases herased
    · have hin := hmoved pool' hok
      rw [← hhash] at hin
      obtain ⟨e, he⟩ := accept_of_contains (f := true) hin
      rw [he] at hok
      cases hok
  · rintro ⟨hpresent, hrefused⟩
    exact ⟨fun pool' hok => absurd hok (hrefused pool'), fun h => absurd hpresent h, fun _ _ => ⟨hpresent, hrefused⟩⟩

/-- **When the orphans are resolved**: exactly when every stored orphan that spends the received transaction is refused
with its inputs present, in the pool that the transaction has entered. -/
theorem orphansResolved_iff (h : accept tip s.mempool tx true = .ok pool) :
    OrphansResolved tip s (processTx tip tx randomhash s).after (orphanPass tip tx pool s.orphans) ↔
      ∀ h orphan, s.orphans.find? h = some orphan → orphan.Spends (tx.getHash tip.cr) →
        tip.InputsPresent pool orphan ∧ ∀ pool', accept tip pool orphan true ≠ .ok pool' := by
  have hafter : (processTx tip tx randomhash s).after =
      ⟨pool, (tx.getHash tip.cr :: orphansOf tip s.orphans (tx.getHash tip.cr)).foldl OrphanPool.eraseOrphanTx
        s.orphans⟩ := by
    unfold processTx
    rw [acceptToMemoryPool_eq_ok.mpr h]
    simp only
    rw [orphanPass_eq h]
  rw [hafter, OrphansResolved, orphanPass_eq h]
  simp only [List.mem_singleton, exists_eq_left]
  refine forall_congr' fun ho => forall_congr' fun orphan => forall_congr' fun hfind => forall_congr' fun hspends => ?_
  have hmem : ho ∈ orphansOf tip s.orphans (tx.getHash tip.cr) := mem_orphansOf.mpr ⟨orphan, hfind, hspends⟩
  have herased : ((tx.getHash tip.cr :: orphansOf tip s.orphans (tx.getHash tip.cr)).foldl OrphanPool.eraseOrphanTx
      s.orphans).find? ho = none := by
    rw [OrphanPool.find?_foldl_eraseOrphanTx, if_pos (List.mem_cons_of_mem _ hmem)]
  rw [find?_considered hmem]
  simp only [Option.some.injEq, Prod.mk.injEq, true_and, exists_eq_left']
  exact orphanResolved_erased (s.orphans.hash_eq ho orphan hfind) rfl herased

/-! ## An orphan that is lost -/

/-- A signature verifies when it ends as the public key does. -/
def orphanCrypto : Crypto := { Crypto.sample with verify := fun pubKey _ sig => sig.getLast? = pubKey.getLast? }

/-- A public key and its script. -/
def orphanScript : CScript := pushData (0x02 :: List.replicate 32 0x05) ++ [opChecksig]

/-- A signature of that key. -/
def orphanSig : CScript := pushData [0x30, 0x06, 0x02, 0x01, 0x01, 0x02, 0x01, 0x05, 0x01]

/-- A transaction with hash `n` that spends the first output of the transaction with hash `n - 1`. -/
def spendBefore (n : Nat) (nValue : Int) : CTransaction where
  vin := [{ prevout := ⟨n - 1, 0⟩, scriptSig := orphanSig }]
  vout := [{ nValue := nValue, scriptPubKey := orphanScript }]
  nLockTime := n
  cUnit := unitCurrency

/-- A chain of six blocks with one unspent output. -/
def orphanTip : ChainTip where
  cfg := {}
  cr := orphanCrypto
  pcoinsTip :=
    { getCoins := fun h => if h = 1 then
        some { vout := [{ nValue := 1000, scriptPubKey := orphanScript }], nHeight := 1, cUnit := unitCurrency } else none
      bestBlock := some 6 }
  mapBlockIndex := BlockMap.line 5 (fun _ => {})
  pindexBest := some 6
  nBestHeight := 5
  nAdjustedTime := 0

/-- No transactions. -/
def noTransactions : LooseTransactions orphanTip.cr := ⟨CTxMemPool.empty, OrphanPool.empty _⟩

/-- The state after the second of two dependent transactions was received first: it is stored as an orphan. -/
def orphanStored : LooseTransactions orphanTip.cr := (processTx orphanTip (spendBefore 3 600) id noTransactions).after

theorem orphansResolved_sample : ∃ pool, accept orphanTip noTransactions.mempool (spendBefore 2 800) true = .ok pool ∧
    OrphansResolved orphanTip noTransactions (processTx orphanTip (spendBefore 2 800) id noTransactions).after
      (orphanPass orphanTip (spendBefore 2 800) pool noTransactions.orphans) := by
  have haccepted : (accept orphanTip noTransactions.mempool (spendBefore 2 800) true).isOk = true := by decide +kernel
  cases h : accept orphanTip noTransactions.mempool (spendBefore 2 800) true with
  | error e =>
    rw [h] at haccepted
    cases haccepted
  | ok pool => exact ⟨pool, rfl, (orphansResolved_iff h).mpr fun _ _ hf => nomatch hf⟩

/-- **An orphan that is lost**: it is stored, the transaction it waits for enters the pool, and the orphan is neither
moved to the pool nor kept, although it is acceptable. -/
theorem orphan_lost :
    orphanStored.orphans.find? 3 = some (spendBefore 3 600) ∧
    (∃ pool, accept orphanTip orphanStored.mempool (spendBefore 2 800) true = .ok pool ∧
      ¬ OrphansResolved orphanTip orphanStored (processTx orphanTip (spendBefore 2 800) id orphanStored).after
        (orphanPass orphanTip (spendBefore 2 800) pool orphanStored.orphans)) := by
  have hstored : orphanStored.orphans.find? 3 = some (spendBefore 3 600) := by decide +kernel
  have hafter : (processTx orphanTip (spendBefore 2 800) id orphanStored).after.mempool.contains 3 = false := by
    decide +kernel
  have haccepted : (accept orphanTip orphanStored.mempool (spendBefore 2 800) true).toOption.any (fun pool =>
      ((orphanPass orphanTip (spendBefore 2 800) pool orphanStored.orphans).considered.find? (fun c => c.1 = 3)).any
        (fun c => (accept orphanTip c.2 (spendBefore 3 600) true).isOk)) = true := by decide +kernel
  refine ⟨hstored, ?_⟩
  cases h : accept orphanTip orphanStored.mempool (spendBefore 2 800) true with
  | error e =>
    rw [h] at haccepted
    cases haccepted
  | ok pool =>
    refine ⟨pool, rfl, fun hresolved => ?_⟩
    have hqueue : ∃ hashPrev ∈ (orphanPass orphanTip (spendBefore 2 800) pool orphanStored.orphans).vWorkQueue,
        (spendBefore 3 600).Spends hashPrev := by
      rw [orphanPass_eq h]
      exact ⟨_, List.mem_singleton_self _, by decide⟩
    obtain ⟨pool', hconsidered, hmoved, -, -⟩ := hresolved 3 _ hstored hqueue
    rw [h, Except.toOption, Option.any_some, hconsidered, Option.any_some] at haccepted
    cases hok : accept orphanTip pool' (spendBefore 3 600) true with
    | error e =>
      rw [hok] at haccepted
      cases haccepted
    | ok pool'' =>
      rw [hmoved pool'' hok] at hafter
      cases hafter

end Resolved

end Morcochain
