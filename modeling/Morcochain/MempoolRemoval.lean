import Morcochain.Mempool
import Morcochain.Lib.Support

/-!
# Removing transactions from the memory pool

`CTxMemPool::remove` and `CTxMemPool::removeConflicts` (`main.cpp`). The pool keeps for every outpoint which of its
transactions spends it; a removal may follow these references to all that depends on the removed transaction.

* `CTxMemPool.Linked` : what holds of the two maps of the pool, for transactions with different hashes.
* `linked_addUnchecked`, `linked_erase` : adding and erasing a transaction keep it.
* `remove_spec` : **a recursive removal takes a transaction and all that depends on it**, and keeps the rest.
* `removeConflicts_spec` : **nothing left spends what a given transaction spends**.
-/

set_option autoImplicit false

namespace Morcochain

open Support

/-! ## What a transaction needs and gives -/

namespace CTransaction

/-- The outpoints that the inputs name. -/
def needs (tx : CTransaction) : Set COutPoint := {o | ∃ txin ∈ tx.vin, txin.prevout = o}

/-- The outpoints of the outputs. -/
def gives (cr : Crypto) (tx : CTransaction) : Set COutPoint := {o | o.hash = tx.getHash cr ∧ o.n < tx.vout.length}

/-- The outpoints of the outputs, in order. -/
def outPoints (cr : Crypto) (tx : CTransaction) : List COutPoint :=
  (List.range tx.vout.length).map fun i => ⟨tx.getHash cr, i⟩

theorem mem_outPoints {cr : Crypto} {tx : CTransaction} {o : COutPoint} : o ∈ tx.outPoints cr ↔ o ∈ tx.gives cr := by
  constructor
  · intro h
    obtain ⟨i, hi, rfl⟩ := List.mem_map.mp h
    exact ⟨rfl, List.mem_range.mp hi⟩
  · rintro ⟨hhash, hn⟩
    exact List.mem_map.mpr ⟨o.n, List.mem_range.mpr hn, by rw [← hhash]⟩

end CTransaction

/-! ## The removals -/

namespace CTxMemPool

/-- The part of `CTxMemPool::remove` that takes a transaction out of the two maps. -/
def erase (cr : Crypto) (pool : CTxMemPool) (tx : CTransaction) : CTxMemPool :=
  if pool.contains (tx.getHash cr) then
    { mapTx := fun h => if h = tx.getHash cr then none else pool.mapTx h
      mapNextTx := fun o => if o ∈ tx.vin.map (·.prevout) then none else pool.mapNextTx o }
  else pool

/-- Remove the transaction that spends an outpoint, given how to remove a transaction. -/
def removeNext (remove : CTxMemPool → CTransaction → Option CTxMemPool) (pool : CTxMemPool) (out : COutPoint) :
    Option CTxMemPool :=
  match pool.mapNextTx out with
  | none => some pool
  | some next => (pool.mapTx next.ptx).bind (remove pool)

/-- `CTxMemPool::remove`, with the depth of the recursion that is left; `none` where that does not suffice. -/
def remove (cr : Crypto) : Nat → CTxMemPool → CTransaction → Bool → Option CTxMemPool
  | 0, _, _, _ => none
  | fuel + 1, pool, tx, fRecursive => do
    let pool ← if fRecursive then (tx.outPoints cr).foldlM (removeNext fun pool tx => remove cr fuel pool tx true) pool
      else some pool
    return pool.erase cr tx

/-- One input in `CTxMemPool::removeConflicts`. -/
def removeConflict (cr : Crypto) (fuel : Nat) (tx : CTransaction) (pool : CTxMemPool) (txin : CTxIn) :
    Option CTxMemPool :=
  removeNext (fun pool txConflict => if txConflict ≠ tx then remove cr fuel pool txConflict true else some pool)
    pool txin.prevout

/-- `CTxMemPool::removeConflicts`. -/
def removeConflicts (cr : Crypto) (fuel : Nat) (pool : CTxMemPool) (tx : CTransaction) : Option CTxMemPool :=
  tx.vin.foldlM (removeConflict cr fuel tx) pool

/-! ## The maps of the pool -/

/-- The transactions of the pool. -/
def txs (pool : CTxMemPool) : Set CTransaction := {tx | ∃ h, pool.mapTx h = some tx}

/-- The transactions of the pool stand under their hashes and belong to a given set, and the pool knows for each
outpoint which of them spends it. -/
structure Linked (cr : Crypto) (U : Set CTransaction) (pool : CTxMemPool) : Prop where
  entry : ∀ h tx, pool.mapTx h = some tx → tx.getHash cr = h ∧ tx ∈ U
  next : ∀ h tx, pool.mapTx h = some tx → ∀ o ∈ tx.needs, ∃ p, pool.mapNextTx o = some p ∧ p.ptx = h
  spender : ∀ o p, pool.mapNextTx o = some p → ∃ tx, pool.mapTx p.ptx = some tx ∧ o ∈ tx.needs

end CTxMemPool

section Maps

open CTxMemPool

variable {cr : Crypto} {U : Set CTransaction} {pool pool' : CTxMemPool} {tx : CTransaction} {fuel : Nat}

theorem mapTx_of_mem (h : pool.Linked cr U) (htx : tx ∈ pool.txs) : pool.mapTx (tx.getHash cr) = some tx := by
  obtain ⟨hash, hmap⟩ := htx
  rw [(h.entry hash tx hmap).1]
  exact hmap

theorem mem_of_contains (h : pool.Linked cr U) (hU : U.InjOn (·.getHash cr)) (htx : tx ∈ U)
    (hin : pool.contains (tx.getHash cr) = true) : tx ∈ pool.txs := by
  obtain ⟨tx', hmap⟩ := Option.isSome_iff_exists.mp hin
  obtain ⟨hhash, hmem⟩ := h.entry _ _ hmap
  rw [hU hmem htx hhash] at hmap
  exact ⟨_, hmap⟩

/-- The transaction of the pool that spends an outpoint is the one the pool knows. -/
theorem spends_iff (h : pool.Linked cr U) {o : COutPoint} {p : CInPoint} (hnext : pool.mapNextTx o = some p)
    {a : CTransaction} (ha : a ∈ pool.txs) (ho : o ∈ a.needs) : pool.mapTx p.ptx = some a := by
  obtain ⟨hash, hmap⟩ := ha
  obtain ⟨p', hp', rfl⟩ := h.next hash a hmap o ho
  rw [hnext, Option.some.injEq] at hp'
  rw [hp']
  exact hmap

/-- An outpoint that the pool knows no spender of is spent by none of its transactions. -/
theorem not_needs_of_none (h : pool.Linked cr U) {o : COutPoint} (hnext : pool.mapNextTx o = none) {a : CTransaction}
    (ha : a ∈ pool.txs) : o ∉ a.needs := by
  intro ho
  obtain ⟨hash, hmap⟩ := ha
  obtain ⟨p, hp, -⟩ := h.next hash a hmap o ho
  rw [hnext] at hp
  cases hp

theorem linked_empty : CTxMemPool.empty.Linked cr U where
  entry := fun _ _ h => nomatch h
  next := fun _ _ h => nomatch h
  spender := fun _ _ h => nomatch h

/-- What erasing a transaction of the pool leaves of its transactions. -/
theorem erase_mapTx (hin : pool.contains (tx.getHash cr) = true) {hash : Uint256} {a : CTransaction} :
    (pool.erase cr tx).mapTx hash = some a ↔ hash ≠ tx.getHash cr ∧ pool.mapTx hash = some a := by
  rw [erase, if_pos hin]
  by_cases hh : hash = tx.getHash cr <;> simp [hh]

/-- What erasing a transaction of the pool leaves of the spenders. -/
theorem erase_mapNextTx (hin : pool.contains (tx.getHash cr) = true) {o : COutPoint} {p : CInPoint} :
    (pool.erase cr tx).mapNextTx o = some p ↔ o ∉ tx.needs ∧ pool.mapNextTx o = some p := by
  have hneeds : o ∈ tx.vin.map (·.prevout) ↔ o ∈ tx.needs := List.mem_map
  rw [erase, if_pos hin, ← hneeds]
  by_cases ho : o ∈ tx.vin.map (·.prevout) <;> simp [ho]

/-- Erasing a transaction keeps the maps, and takes that transaction only. -/
theorem linked_erase (h : pool.Linked cr U) (hU : U.InjOn (·.getHash cr)) (htx : tx ∈ U) :
    (pool.erase cr tx).Linked cr U ∧ (pool.erase cr tx).txs = pool.txs \ {tx} := by
  by_cases hin : pool.contains (tx.getHash cr) = true
  · have hmem := mem_of_contains h hU htx hin
    have hmap := mapTx_of_mem h hmem
    have hother : ∀ hash a, pool.mapTx hash = some a → hash ≠ tx.getHash cr → ∀ o ∈ a.needs, o ∉ tx.needs := by
      intro hash a ha hne o ho ho'
      obtain ⟨p, hp, rfl⟩ := h.next _ _ ha o ho
      obtain ⟨p', hp', hptx⟩ := h.next _ _ hmap o ho'
      rw [hp, Option.some.injEq] at hp'
      exact hne (hp' ▸ hptx)
    refine ⟨⟨fun hash a ha => h.entry hash a ((erase_mapTx hin).mp ha).2, fun hash a ha o ho => ?_, fun o p hp => ?_⟩, ?_⟩
    · obtain ⟨hne, ha⟩ := (erase_mapTx hin).mp ha
      obtain ⟨p, hp, hptx⟩ := h.next hash a ha o ho
      exact ⟨p, (erase_mapNextTx hin).mpr ⟨hother hash a ha hne o ho, hp⟩, hptx⟩
    · obtain ⟨ho, hp⟩ := (erase_mapNextTx hin).mp hp
      obtain ⟨a, ha, hoa⟩ := h.spender o p hp
      refine ⟨a, (erase_mapTx hin).mpr ⟨fun hptx => ho ?_, ha⟩, hoa⟩
      rw [hptx, hmap, Option.some.injEq] at ha
      exact ha ▸ hoa
    · ext a
      constructor
      · rintro ⟨hash, ha⟩
        obtain ⟨hne, ha⟩ := (erase_mapTx hin).mp ha
        exact ⟨⟨hash, ha⟩, fun heq => hne (by rw [← (h.entry hash a ha).1, heq])⟩
      · rintro ⟨ha, hne⟩
        refine ⟨a.getHash cr, (erase_mapTx hin).mpr ⟨fun hhash => hne ?_, mapTx_of_mem h ha⟩⟩
        obtain ⟨hash, ha'⟩ := ha
        exact hU (h.entry _ _ ha').2 htx hhash
  · rw [erase, if_neg hin]
    refine ⟨h, (Set.sdiff_singleton_eq_self fun hmem => hin ?_).symm⟩
    rw [contains, mapTx_of_mem h hmem]
    rfl

/-- The loop of `addUnchecked` over the inputs. -/
theorem setNextTx_foldl (hash : Uint256) (o : COutPoint) : ∀ (vin : List (CTxIn × Nat))
    (m : COutPoint → Option CInPoint),
    (∃ txin ∈ vin, txin.1.prevout = o ∧ vin.foldl (setNextTx hash) m o = some ⟨hash, txin.2⟩) ∨
      ((∀ txin ∈ vin, txin.1.prevout ≠ o) ∧ vin.foldl (setNextTx hash) m o = m o)
  | [], m => .inr ⟨List.forall_mem_nil _, rfl⟩
  | txin :: vin, m => by
    rw [List.foldl_cons]
    rcases setNextTx_foldl hash o vin (setNextTx hash m txin) with ⟨txin', hmem, ho, h⟩ | ⟨ho, h⟩
    · exact .inl ⟨txin', List.mem_cons_of_mem _ hmem, ho, h⟩
    · rw [h, setNextTx]
      by_cases heq : o = txin.1.prevout
      · exact .inl ⟨txin, List.mem_cons_self, heq.symm, if_pos heq⟩
      · exact .inr ⟨List.forall_mem_cons.mpr ⟨fun h => heq h.symm, ho⟩, if_neg heq⟩

/-- What adding a transaction makes of the transactions. -/
theorem addUnchecked_mapTx {hash hash' : Uint256} {a : CTransaction} :
    (pool.addUnchecked hash tx).mapTx hash' = some a ↔ hash' = hash ∧ a = tx ∨ hash' ≠ hash ∧
      pool.mapTx hash' = some a := by
  unfold addUnchecked
  by_cases hh : hash' = hash
  · simp [hh, eq_comm]
  · simp [hh]

/-- What adding a transaction makes of the spenders: it is the one at each of its inputs. -/
theorem addUnchecked_mapNextTx (pool : CTxMemPool) (tx : CTransaction) (hash : Uint256) (o : COutPoint) :
    (∃ n, (tx.vin[n]?).map (·.prevout) = some o ∧ (pool.addUnchecked hash tx).mapNextTx o = some ⟨hash, n⟩) ∨
      (o ∉ tx.needs ∧ (pool.addUnchecked hash tx).mapNextTx o = pool.mapNextTx o) := by
  rcases setNextTx_foldl hash o tx.vin.zipIdx pool.mapNextTx with ⟨⟨txin, n⟩, hmem, ho, h⟩ | ⟨hno, h⟩
  · rw [List.mem_zipIdx_iff_getElem?] at hmem
    exact .inl ⟨n, by rw [hmem, ← ho]; rfl, h⟩
  · refine .inr ⟨?_, h⟩
    rintro ⟨txin, htxin, rfl⟩
    obtain ⟨n, hn⟩ := List.mem_iff_getElem?.mp htxin
    exact hno (txin, n) (List.mem_zipIdx_iff_getElem?.mpr hn) rfl

/-- The outpoint at a position is needed. -/
theorem needs_of_getElem? {n : Nat} {o : COutPoint} (h : (tx.vin[n]?).map (·.prevout) = some o) : o ∈ tx.needs := by
  obtain ⟨txin, htxin, rfl⟩ := Option.map_eq_some_iff.mp h
  exact ⟨txin, List.mem_of_getElem? htxin, rfl⟩

/-- Adding a transaction that is not there, none of whose inputs is spent in the pool, keeps the maps. -/
theorem linked_addUnchecked (h : pool.Linked cr U) (htx : tx ∈ U) (hnew : pool.mapTx (tx.getHash cr) = none)
    (hfree : ∀ o ∈ tx.needs, pool.mapNextTx o = none) :
    (pool.addUnchecked (tx.getHash cr) tx).Linked cr U ∧
      (pool.addUnchecked (tx.getHash cr) tx).txs = insert tx pool.txs := by
  have hnextIn : ∀ o, o ∈ tx.needs →
      ∃ n, (pool.addUnchecked (tx.getHash cr) tx).mapNextTx o = some ⟨tx.getHash cr, n⟩ := by
    intro o ho
    rcases addUnchecked_mapNextTx _ _ (tx.getHash cr) o with ⟨n, -, h⟩ | ⟨hno, -⟩
    · exact ⟨n, h⟩
    · exact absurd ho hno
  have hnextOut : ∀ o, o ∉ tx.needs →
      (pool.addUnchecked (tx.getHash cr) tx).mapNextTx o = pool.mapNextTx o := by
    intro o ho
    rcases addUnchecked_mapNextTx _ _ (tx.getHash cr) o with ⟨n, hn, -⟩ | ⟨-, h⟩
    · exact absurd (needs_of_getElem? hn) ho
    · exact h
  refine ⟨⟨fun hash a ha => ?_, fun hash a ha o ho => ?_, fun o p hp => ?_⟩, ?_⟩
  · rcases addUnchecked_mapTx.mp ha with ⟨rfl, rfl⟩ | ⟨-, ha⟩
    · exact ⟨rfl, htx⟩
    · exact h.entry hash a ha
  · rcases addUnchecked_mapTx.mp ha with ⟨rfl, rfl⟩ | ⟨-, ha⟩
    · obtain ⟨n, hn⟩ := hnextIn o ho
      exact ⟨_, hn, rfl⟩
    · obtain ⟨p, hp, hptx⟩ := h.next hash a ha o ho
      refine ⟨p, (hnextOut o fun ho' => ?_).trans hp, hptx⟩
      rw [hfree o ho'] at hp
      cases hp
  · by_cases ho : o ∈ tx.needs
    · obtain ⟨n, hn⟩ := hnextIn o ho
      rw [hn, Option.some.injEq] at hp
      subst hp
      exact ⟨tx, addUnchecked_mapTx.mpr (.inl ⟨rfl, rfl⟩), ho⟩
    · rw [hnextOut o ho] at hp
      obtain ⟨a, ha, hoa⟩ := h.spender o p hp
      refine ⟨a, addUnchecked_mapTx.mpr (.inr ⟨fun hptx => ?_, ha⟩), hoa⟩
      rw [hptx, hnew] at ha
      cases ha
  · ext a
    constructor
    · rintro ⟨hash, ha⟩
      rcases addUnchecked_mapTx.mp ha with ⟨-, rfl⟩ | ⟨-, ha⟩
      · exact Set.mem_insert _ _
      · exact Set.mem_insert_of_mem _ ⟨hash, ha⟩
    · rintro (rfl | ⟨hash, ha⟩)
      · exact ⟨_, addUnchecked_mapTx.mpr (.inl ⟨rfl, rfl⟩)⟩
      · refine ⟨hash, addUnchecked_mapTx.mpr (.inr ⟨fun hh => ?_, ha⟩)⟩
        rw [hh, hnew] at ha
        cases ha

end Maps

/-! ## What a removal leaves -/

section Removal

open CTxMemPool

variable {cr : Crypto} {U : Set CTransaction} {pool pool' : CTxMemPool} {tx : CTransaction} {fuel : Nat}

/-- What a removal may do to the pool: its maps stay in order, and what it takes it takes with all that depends on it. -/
structure Prunes (cr : Crypto) (U : Set CTransaction) (pool pool' : CTxMemPool) : Prop where
  linked : pool'.Linked cr U
  pruned : Pruned CTransaction.needs (CTransaction.gives cr) pool.txs pool'.txs

theorem Prunes.refl (h : pool.Linked cr U) : Prunes cr U pool pool := ⟨h, .refl _⟩

theorem Prunes.trans {pool'' : CTxMemPool} (h : Prunes cr U pool pool') (h' : Prunes cr U pool' pool'') :
    Prunes cr U pool pool'' := ⟨h'.linked, h.pruned.trans h'.pruned⟩

/-- What `removeNext` does, given what the removal does: nothing left spends the outpoint. -/
theorem removeNext_spec {remove : CTxMemPool → CTransaction → Option CTxMemPool} {o : COutPoint}
    (h : pool.Linked cr U)
    (hremove : ∀ a ∈ pool.txs, o ∈ a.needs → remove pool a = some pool' → Prunes cr U pool pool' ∧ a ∉ pool'.txs)
    (hok : removeNext remove pool o = some pool') : Prunes cr U pool pool' ∧ ∀ a ∈ pool'.txs, o ∉ a.needs := by
  unfold removeNext at hok
  cases hnext : pool.mapNextTx o with
  | none =>
    rw [hnext, Option.some.injEq] at hok
    subst hok
    exact ⟨.refl h, fun a ha => not_needs_of_none h hnext ha⟩
  | some p =>
    rw [hnext] at hok
    obtain ⟨a, ha, hok⟩ := Option.bind_eq_some_iff.mp hok
    obtain ⟨a', ha', ho⟩ := h.spender o p hnext
    rw [ha, Option.some.injEq] at ha'
    subst ha'
    obtain ⟨hprunes, hgone⟩ := hremove a ⟨p.ptx, ha⟩ ho hok
    refine ⟨hprunes, fun b hb hob => hgone ?_⟩
    -- the spender of the outpoint is unique
    have hb' := spends_iff h hnext (hprunes.pruned.subset hb) hob
    rw [ha, Option.some.injEq] at hb'
    rwa [hb']

/-- What a loop of removals does: nothing left spends any of the outpoints. -/
theorem removeNexts_spec {β : Type} {out : β → COutPoint} {step : CTxMemPool → β → Option CTxMemPool}
    {S : Set CTransaction} (hstep : ∀ pool pool' b, pool.Linked cr U → pool.txs ⊆ S → step pool b = some pool' →
      Prunes cr U pool pool' ∧ ∀ a ∈ pool'.txs, out b ∉ a.needs) :
    ∀ {bs : List β} {pool pool' : CTxMemPool}, pool.Linked cr U → pool.txs ⊆ S → bs.foldlM step pool = some pool' →
      Prunes cr U pool pool' ∧ ∀ b ∈ bs, ∀ a ∈ pool'.txs, out b ∉ a.needs
  | [], pool, pool', h, _, hok => by
    rw [List.foldlM_nil] at hok
    cases hok
    exact ⟨.refl h, fun b hb => absurd hb List.not_mem_nil⟩
  | b :: bs, pool, pool', h, hS, hok => by
    rw [List.foldlM_cons] at hok
    obtain ⟨pool₁, h₁, h₂⟩ := Option.bind_eq_some_iff.mp hok
    obtain ⟨hprunes, hfree⟩ := hstep pool pool₁ b h hS h₁
    obtain ⟨hprunes', hfree'⟩ := removeNexts_spec hstep hprunes.linked (hprunes.pruned.subset.trans hS) h₂
    refine ⟨hprunes.trans hprunes', fun b' hb' a ha => ?_⟩
    rcases List.mem_cons.mp hb' with rfl | hb'
    · exact hfree a (hprunes'.pruned.subset ha)
    · exact hfree' b' hb' a ha

/-- **A recursive removal** takes the transaction with all that depends on it. -/
theorem remove_spec (hU : U.InjOn (·.getHash cr)) : ∀ {fuel : Nat} {pool pool' : CTxMemPool} {tx : CTransaction},
    pool.Linked cr U → tx ∈ U → pool.remove cr fuel tx true = some pool' →
      Prunes cr U pool pool' ∧ tx ∉ pool'.txs ∧ ∀ a ∈ pool'.txs, Disjoint a.needs (tx.gives cr)
  | 0, _, _, _, _, _, h => by cases h
  | fuel + 1, pool, pool', tx, hlinked, htx, h => by
    unfold CTxMemPool.remove at h
    rw [if_pos rfl] at h
    obtain ⟨pool₁, hloop, h⟩ := Option.bind_eq_some_iff.mp h
    cases h
    -- first all that spends an output of the transaction goes, by induction on the depth
    have hstep : ∀ pool pool' o, pool.Linked cr U → pool.txs ⊆ Set.univ →
        removeNext (fun pool tx => pool.remove cr fuel tx true) pool o = some pool' →
          Prunes cr U pool pool' ∧ ∀ a ∈ pool'.txs, id o ∉ a.needs := by
      intro pool pool' o hl _ hok
      refine removeNext_spec hl (fun a ⟨hash, hmap⟩ _ hrem => ?_) hok
      obtain ⟨hp, hgone, -⟩ := remove_spec hU hl (hl.entry hash a hmap).2 hrem
      exact ⟨hp, hgone⟩
    obtain ⟨hprunes, hfree⟩ := removeNexts_spec hstep hlinked (Set.subset_univ _) hloop
    obtain ⟨hlinked', htxs⟩ := linked_erase hprunes.linked hU htx
    have hdisjoint : ∀ a ∈ pool₁.txs, Disjoint a.needs (tx.gives cr) := fun a ha =>
      Set.disjoint_left.mpr fun o ho hgives => hfree o (CTransaction.mem_outPoints.mpr hgives) a ha ho
    refine ⟨hprunes.trans ⟨hlinked', ?_, fun b hb hb' a ha => ?_⟩, ?_, fun a ha => ?_⟩
    · rw [htxs]
      exact Set.sdiff_subset
    · rw [htxs] at hb' ha
      have hbt : b = tx := by
        by_contra hne
        exact hb' ⟨hb, hne⟩
      rw [hbt]
      exact hdisjoint a ha.1
    · rw [htxs]
      exact fun hmem => hmem.2 rfl
    · rw [htxs] at ha
      exact hdisjoint a ha.1

/-- A removal that is not recursive takes the transaction only. -/
theorem remove_alone (hU : U.InjOn (·.getHash cr)) (hlinked : pool.Linked cr U) (htx : tx ∈ U)
    (h : pool.remove cr fuel tx false = some pool') : pool'.Linked cr U ∧ pool'.txs = pool.txs \ {tx} := by
  cases fuel with
  | zero => cases h
  | succ fuel =>
    unfold CTxMemPool.remove at h
    cases h
    exact linked_erase hlinked hU htx

/-- **What `removeConflicts` leaves**: nothing that spends what the transaction spends, unless it is the transaction. -/
theorem removeConflicts_spec (hU : U.InjOn (·.getHash cr)) (hlinked : pool.Linked cr U) (hgone : tx ∉ pool.txs)
    (h : pool.removeConflicts cr fuel tx = some pool') :
    Prunes cr U pool pool' ∧ ∀ a ∈ pool'.txs, Disjoint a.needs tx.needs := by
  have hstep : ∀ pool₁ pool₂ txin, pool₁.Linked cr U → pool₁.txs ⊆ pool.txs →
      removeConflict cr fuel tx pool₁ txin = some pool₂ →
        Prunes cr U pool₁ pool₂ ∧ ∀ a ∈ pool₂.txs, CTxIn.prevout txin ∉ a.needs := by
    intro pool₁ pool₂ txin hl hsub hok
    refine removeNext_spec hl (fun a ha _ hrem => ?_) hok
    have hne : a ≠ tx := fun heq => hgone (hsub (heq ▸ ha))
    rw [if_pos hne] at hrem
    obtain ⟨hash, hmap⟩ := ha
    obtain ⟨hp, hgone', -⟩ := remove_spec hU hl (hl.entry hash a hmap).2 hrem
    exact ⟨hp, hgone'⟩
  obtain ⟨hprunes, hfree⟩ := removeNexts_spec hstep hlinked Set.Subset.rfl h
  refine ⟨hprunes, fun a ha => Set.disjoint_left.mpr fun o ho hneeds => ?_⟩
  obtain ⟨txin, htxin, rfl⟩ := hneeds
  exact hfree txin htxin a ha ho

end Removal

end Morcochain
