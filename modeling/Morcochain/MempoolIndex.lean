import Morcochain.MempoolClosure

/-!
# The index of the memory pool

The pool keeps for every outpoint which of its transactions spends it, and at which input. The removals walk this index
while they change it (`CTxMemPool::remove`, `CTxMemPool::removeConflicts` of `main.cpp`).

* `CTxMemPool.Indexed` : the index is exactly the map from the inputs of the transactions.
* `InOrder.addUnchecked`, `InOrder.erase` : adding and erasing a transaction keep it.
* `remove_exact` : **a recursive removal ends, and takes the transaction with all that depends on it and nothing else**.
* `removeConflicts_exact` : **a removal of conflicts takes them with all that depends on them and nothing else**.
* `mempoolIndex_law` : **so it is in every run** that starts with an empty pool.
-/

set_option autoImplicit false

namespace Morcochain

open Guard Support

/-! ## The index -/

namespace CTxMemPool

/-- `mapNextTx` is exactly the map from the outpoint of each input of each transaction to that transaction and position. -/
def Indexed (pool : CTxMemPool) : Prop := ∀ o p, pool.mapNextTx o = some p ↔
  ∃ tx, pool.mapTx p.ptx = some tx ∧ (tx.vin[p.n]?).map (·.prevout) = some o

/-- The transactions of the pool stand under their hashes and belong to a given set, and the index is exact. -/
structure InOrder (cr : Crypto) (U : Set CTransaction) (pool : CTxMemPool) : Prop where
  entry : ∀ h tx, pool.mapTx h = some tx → tx.getHash cr = h ∧ tx ∈ U
  index : pool.Indexed

/-- What spends an output of the transaction, directly or through others of the pool. -/
abbrev dependents (cr : Crypto) (pool : CTxMemPool) (tx : CTransaction) : Set CTransaction :=
  Dependents CTransaction.needs (CTransaction.gives cr) pool.txs tx

/-- What spends an outpoint that the transaction spends, and is not the transaction. -/
def conflicts (pool : CTxMemPool) (tx : CTransaction) : Set CTransaction :=
  {a | a ∈ pool.txs ∧ a ≠ tx ∧ ¬ Disjoint a.needs tx.needs}

end CTxMemPool

section Index

open CTxMemPool

variable {cr : Crypto} {U : Set CTransaction} {pool pool' : CTxMemPool} {tx : CTransaction} {fuel : Nat}

theorem getElem?_of_needs {o : COutPoint} (h : o ∈ tx.needs) : ∃ n : Nat, (tx.vin[n]?).map (·.prevout) = some o := by
  obtain ⟨txin, htxin, rfl⟩ := h
  obtain ⟨n, hn⟩ := List.mem_iff_getElem?.mp htxin
  exact ⟨n, by rw [hn]; rfl⟩

/-- Different inputs stand at different positions. -/
theorem position_unique (hnodup : (tx.vin.map (·.prevout)).Nodup) {o : COutPoint} {m n : Nat}
    (hm : (tx.vin[m]?).map (·.prevout) = some o) (hn : (tx.vin[n]?).map (·.prevout) = some o) : m = n := by
  rw [← List.getElem?_map] at hm hn
  obtain ⟨hm', heq⟩ := List.getElem?_eq_some_iff.mp hm
  obtain ⟨hn', heq'⟩ := List.getElem?_eq_some_iff.mp hn
  exact (hnodup.getElem_inj_iff).mp (heq.trans heq'.symm)

theorem inOrder_empty : CTxMemPool.empty.InOrder cr U where
  entry := fun _ _ h => nomatch h
  index := fun _ _ => ⟨fun h => (nomatch h), fun ⟨_, h, _⟩ => nomatch h⟩

theorem CTxMemPool.InOrder.linked (h : pool.InOrder cr U) : pool.Linked cr U where
  entry := h.entry
  next := by
    intro hash a ha o ho
    obtain ⟨n, hn⟩ := getElem?_of_needs ho
    exact ⟨⟨hash, n⟩, (h.index o ⟨hash, n⟩).mpr ⟨a, ha, hn⟩, rfl⟩
  spender := by
    intro o p hp
    obtain ⟨a, ha, ho⟩ := (h.index o p).mp hp
    exact ⟨a, ha, needs_of_getElem? ho⟩

/-- **No two transactions of the pool share an input**, when the index is exact. -/
theorem CTxMemPool.InOrder.apart (h : pool.InOrder cr U) {a b : CTransaction} (ha : a ∈ pool.txs) (hb : b ∈ pool.txs)
    (hne : a ≠ b) :
    Disjoint a.needs b.needs := by
  refine Set.disjoint_left.mpr fun o hoa hob => hne ?_
  obtain ⟨p, hp, -⟩ := h.linked.next _ _ (mapTx_of_mem h.linked ha) o hoa
  exact Option.some.inj ((spends_iff h.linked hp ha hoa).symm.trans (spends_iff h.linked hp hb hob))

/-- **Adding a transaction** that is not there, and whose inputs differ and are not spent in the pool. -/
theorem CTxMemPool.InOrder.addUnchecked (h : pool.InOrder cr U) (htx : tx ∈ U) (hnodup : (tx.vin.map (·.prevout)).Nodup)
    (hnew : pool.mapTx (tx.getHash cr) = none) (hfree : ∀ o ∈ tx.needs, pool.mapNextTx o = none) :
    (pool.addUnchecked (tx.getHash cr) tx).InOrder cr U where
  entry := (linked_addUnchecked h.linked htx hnew hfree).1.entry
  index := by
    intro o p
    rcases addUnchecked_mapNextTx pool tx (tx.getHash cr) o with ⟨n, hn, heq⟩ | ⟨hno, heq⟩
    · rw [heq, Option.some.injEq]
      constructor
      · rintro rfl
        exact ⟨tx, addUnchecked_mapTx.mpr (.inl ⟨rfl, rfl⟩), hn⟩
      · rintro ⟨a, ha, ho⟩
        rcases addUnchecked_mapTx.mp ha with ⟨hhash, rfl⟩ | ⟨-, ha⟩
        · rw [← hhash, position_unique hnodup hn ho]
        · have hnext := (h.index o p).mpr ⟨a, ha, ho⟩
          rw [hfree o (needs_of_getElem? hn)] at hnext
          cases hnext
    · rw [heq, h.index]
      constructor
      · rintro ⟨a, ha, ho⟩
        refine ⟨a, addUnchecked_mapTx.mpr (.inr ⟨fun hhash => ?_, ha⟩), ho⟩
        rw [hhash, hnew] at ha
        cases ha
      · rintro ⟨a, ha, ho⟩
        rcases addUnchecked_mapTx.mp ha with ⟨-, rfl⟩ | ⟨-, ha⟩
        · exact absurd (needs_of_getElem? ho) hno
        · exact ⟨a, ha, ho⟩

/-- **Erasing a transaction.** -/
theorem CTxMemPool.InOrder.erase (h : pool.InOrder cr U) (hU : U.InjOn (·.getHash cr)) (htx : tx ∈ U) :
    (pool.erase cr tx).InOrder cr U where
  entry := (linked_erase h.linked hU htx).1.entry
  index := by
    by_cases hin : pool.contains (tx.getHash cr) = true
    · have hmap := mapTx_of_mem h.linked (mem_of_contains h.linked hU htx hin)
      intro o p
      rw [erase_mapNextTx hin, h.index]
      constructor
      · rintro ⟨hno, a, ha, ho⟩
        refine ⟨a, (erase_mapTx hin).mpr ⟨fun hhash => hno ?_, ha⟩, ho⟩
        rw [hhash, hmap, Option.some.injEq] at ha
        exact ha ▸ needs_of_getElem? ho
      · rintro ⟨a, ha, ho⟩
        obtain ⟨hne, ha⟩ := (erase_mapTx hin).mp ha
        refine ⟨fun hno => hne ?_, a, ha, ho⟩
        -- the index has one entry for the outpoint
        obtain ⟨n, hn⟩ := getElem?_of_needs hno
        have hnext := (h.index o ⟨_, n⟩).mpr ⟨tx, hmap, hn⟩
        rw [(h.index o p).mpr ⟨a, ha, ho⟩, Option.some.injEq] at hnext
        exact congrArg CInPoint.ptx hnext
    · rw [CTxMemPool.erase, if_neg hin]
      exact h.index

end Index

/-! ## What a removal takes -/

section Removal

open CTxMemPool

variable {cr : Crypto} {U : Set CTransaction} {pool pool' : CTxMemPool} {tx : CTransaction} {fuel : Nat}

/-- A removal that ends: the index stays exact, what it takes it takes with all that depends on it, and it takes nothing
outside of a given set. -/
structure Takes (cr : Crypto) (U D : Set CTransaction) (pool pool' : CTxMemPool) : Prop where
  inOrder : pool'.InOrder cr U
  pruned : Pruned CTransaction.needs (CTransaction.gives cr) pool.txs pool'.txs
  only : ∀ a ∈ pool.txs, a ∉ pool'.txs → a ∈ D

theorem Takes.refl {D : Set CTransaction} (h : pool.InOrder cr U) : Takes cr U D pool pool :=
  ⟨h, .refl _, fun _ ha ha' => absurd ha ha'⟩

theorem Takes.trans {D : Set CTransaction} {pool'' : CTxMemPool} (h : Takes cr U D pool pool')
    (h' : Takes cr U D pool' pool'') : Takes cr U D pool pool'' := by
  refine ⟨h'.inOrder, h.pruned.trans h'.pruned, fun a ha ha'' => ?_⟩
  by_cases ha' : a ∈ pool'.txs
  · exact h'.only a ha' ha''
  · exact h.only a ha ha'

theorem Takes.mono {D D' : Set CTransaction} (h : Takes cr U D pool pool') (hsub : D ⊆ D') : Takes cr U D' pool pool' :=
  ⟨h.inOrder, h.pruned, fun a ha ha' => hsub (h.only a ha ha')⟩

/-- `removeNext` ends, when the removal of the spender does. -/
theorem removeNext_takes {remove : CTxMemPool → CTransaction → Option CTxMemPool} {o : COutPoint}
    {D : Set CTransaction} (h : pool.InOrder cr U)
    (hremove : ∀ a ∈ pool.txs, o ∈ a.needs → ∃ pool', remove pool a = some pool' ∧ Takes cr U D pool pool') :
    ∃ pool', removeNext remove pool o = some pool' ∧ Takes cr U D pool pool' := by
  unfold removeNext
  cases hnext : pool.mapNextTx o with
  | none => exact ⟨pool, rfl, .refl h⟩
  | some p =>
    obtain ⟨a, ha, ho⟩ := h.linked.spender o p hnext
    obtain ⟨pool', hok, htakes⟩ := hremove a ⟨p.ptx, ha⟩ ho
    exact ⟨pool', by simp only [ha, Option.bind_some, hok], htakes⟩

/-- A loop of removals ends, when each of them does. -/
theorem removeNexts_takes {β : Type} {step : CTxMemPool → β → Option CTxMemPool} {S D : Set CTransaction} :
    ∀ {bs : List β} {pool : CTxMemPool}, (∀ b ∈ bs, ∀ pool : CTxMemPool, pool.InOrder cr U → pool.txs ⊆ S →
      ∃ pool', step pool b = some pool' ∧ Takes cr U D pool pool') → pool.InOrder cr U → pool.txs ⊆ S →
        ∃ pool', bs.foldlM step pool = some pool' ∧ Takes cr U D pool pool'
  | [], pool, _, h, _ => ⟨pool, rfl, .refl h⟩
  | b :: bs, pool, hstep, h, hS => by
    obtain ⟨pool₁, h₁, htakes₁⟩ := hstep b List.mem_cons_self pool h hS
    obtain ⟨pool₂, h₂, htakes₂⟩ := removeNexts_takes (fun b hb => hstep b (List.mem_cons_of_mem _ hb)) htakes₁.inOrder
      (htakes₁.pruned.subset.trans hS)
    exact ⟨pool₂, by rw [List.foldlM_cons, h₁]; exact h₂, htakes₁.trans htakes₂⟩

/-- **A recursive removal ends**, within a depth that exceeds the number of those that depend on the transaction, and
takes none but the transaction and these. The induction is on the depth: fewer depend on a dependent. -/
theorem remove_takes (hU : U.InjOn (·.getHash cr)) (hacyclic : Acyclic CTransaction.needs (CTransaction.gives cr) U) :
    ∀ {fuel : Nat} {pool : CTxMemPool} {tx : CTransaction}, pool.InOrder cr U → pool.txs.Finite → tx ∈ U →
      (pool.dependents cr tx).ncard < fuel →
        ∃ pool', pool.remove cr fuel tx true = some pool' ∧ Takes cr U (insert tx (pool.dependents cr tx)) pool pool'
  | 0, _, _, _, _, _, h => absurd h (Nat.not_lt_zero _)
  | fuel + 1, pool, tx, hinv, hfin, htx, hfuel => by
    have hstep : ∀ o ∈ tx.outPoints cr, ∀ pool₁ : CTxMemPool, pool₁.InOrder cr U → pool₁.txs ⊆ pool.txs →
        ∃ pool₂, removeNext (fun pool tx => pool.remove cr fuel tx true) pool₁ o = some pool₂ ∧
          Takes cr U (pool.dependents cr tx) pool₁ pool₂ := by
      intro o ho pool₁ hinv₁ hsub
      refine removeNext_takes hinv₁ fun a ha hoa => ?_
      have hfeeds : Feeds CTransaction.needs (CTransaction.gives cr) tx a := ⟨o, hoa, CTransaction.mem_outPoints.mp ho⟩
      have hU' : pool.txs ⊆ U := fun b ⟨hash, hb⟩ => (hinv.entry hash b hb).2
      have hle : (pool₁.dependents cr a).ncard ≤ (pool.dependents cr a).ncard :=
        Set.ncard_le_ncard (dependents_mono hsub) (hfin.subset dependents_subset)
      have hlt := ncard_dependents_lt hacyclic hU' hfin (hsub ha) hfeeds
      obtain ⟨pool₂, hok, htakes⟩ := remove_takes hU hacyclic hinv₁ (hfin.subset hsub) (hU' (hsub ha))
        (show (pool₁.dependents cr a).ncard < fuel by unfold CTxMemPool.dependents at *; omega)
      refine ⟨pool₂, hok, htakes.mono ?_⟩
      have hmem := mem_dependents (hsub ha) hfeeds
      exact Set.insert_subset hmem ((dependents_mono hsub).trans (dependents_trans hmem))
    obtain ⟨pool₁, hloop, htakes⟩ := removeNexts_takes hstep hinv Set.Subset.rfl
    have hok : pool.remove cr (fuel + 1) tx true = some (pool₁.erase cr tx) := by
      unfold CTxMemPool.remove
      rw [if_pos rfl, hloop]
      rfl
    refine ⟨_, hok, htakes.inOrder.erase hU htx, (remove_spec hU hinv.linked htx hok).1.pruned, fun a ha ha' => ?_⟩
    by_cases ha₁ : a ∈ pool₁.txs
    · rw [(linked_erase htakes.inOrder.linked hU htx).2] at ha'
      refine .inl ?_
      by_contra hne
      exact ha' ⟨ha₁, hne⟩
    · exact .inr (htakes.only a ha ha₁)

/-- **What a recursive removal does exactly.** -/
theorem remove_exact (hU : U.InjOn (·.getHash cr)) (hacyclic : Acyclic CTransaction.needs (CTransaction.gives cr) U)
    (hinv : pool.InOrder cr U) (hfin : pool.txs.Finite) (htx : tx ∈ U) (hfuel : pool.txs.ncard < fuel) :
    ∃ pool', pool.remove cr fuel tx true = some pool' ∧ pool'.InOrder cr U ∧
      pool'.txs = pool.txs \ insert tx (pool.dependents cr tx) := by
  obtain ⟨pool', hok, htakes⟩ := remove_takes hU hacyclic hinv hfin htx
    (lt_of_le_of_lt (Set.ncard_le_ncard dependents_subset hfin) hfuel)
  obtain ⟨-, hgone, hfree⟩ := remove_spec hU hinv.linked htx hok
  refine ⟨pool', hok, htakes.inOrder, htakes.pruned.eq_sdiff hgone ?_ htakes.only⟩
  rintro a ha ⟨o, ho, hgives⟩
  exact Set.disjoint_left.mp (hfree a ha) ho hgives

/-- A removal that is not recursive. -/
theorem remove_alone_exact (hU : U.InjOn (·.getHash cr)) (hinv : pool.InOrder cr U) (htx : tx ∈ U) (hfuel : 0 < fuel) :
    ∃ pool', pool.remove cr fuel tx false = some pool' ∧ pool'.InOrder cr U ∧ pool'.txs = pool.txs \ {tx} := by
  cases fuel with
  | zero => exact absurd hfuel (Nat.lt_irrefl 0)
  | succ fuel => exact ⟨pool.erase cr tx, rfl, hinv.erase hU htx, (linked_erase hinv.linked hU htx).2⟩

/-- The conflicts of a transaction, with all that depends on them. -/
def conflictClosure (cr : Crypto) (pool : CTxMemPool) (tx : CTransaction) : Set CTransaction :=
  {b | ∃ a ∈ pool.conflicts tx, b ∈ insert a (pool.dependents cr a)}

/-- A transaction of the pool has no conflicts. -/
theorem conflicts_of_mem (hinv : pool.InOrder cr U) (htx : tx ∈ pool.txs) : conflictClosure cr pool tx = ∅ := by
  refine Set.eq_empty_of_forall_notMem ?_
  rintro b ⟨a, ⟨ha, hne, hnot⟩, -⟩
  exact hnot (hinv.apart ha htx hne)

/-- **What a removal of conflicts does exactly.** Nothing that is left spends what the transaction spends, unless it is
the transaction. -/
theorem removeConflicts_exact (tx : CTransaction) (hU : U.InjOn (·.getHash cr))
    (hacyclic : Acyclic CTransaction.needs (CTransaction.gives cr) U) (hinv : pool.InOrder cr U) (hfin : pool.txs.Finite)
    (hfuel : pool.txs.ncard < fuel) : ∃ pool', pool.removeConflicts cr fuel tx = some pool' ∧ pool'.InOrder cr U ∧
      pool'.txs = pool.txs \ conflictClosure cr pool tx ∧ (∀ a ∈ pool'.txs, a ≠ tx → Disjoint a.needs tx.needs) ∧
      ∀ b ∈ pool.txs, b ∉ pool'.txs → Disjoint (pool.dependents cr b) pool'.txs := by
  have hstep : ∀ txin ∈ tx.vin, ∀ pool₁ : CTxMemPool, pool₁.InOrder cr U → pool₁.txs ⊆ pool.txs →
      ∃ pool₂, removeConflict cr fuel tx pool₁ txin = some pool₂ ∧
        Takes cr U (conflictClosure cr pool tx) pool₁ pool₂ := by
    intro txin htxin pool₁ hinv₁ hsub
    refine removeNext_takes hinv₁ fun a ha ho => ?_
    by_cases hne : a = tx
    · exact ⟨pool₁, if_neg (not_not.mpr hne), .refl hinv₁⟩
    · have hconflict : a ∈ pool.conflicts tx := ⟨hsub ha, hne, Set.not_disjoint_iff.mpr ⟨_, ho, txin, htxin, rfl⟩⟩
      have hle : (pool₁.dependents cr a).ncard ≤ pool.txs.ncard :=
        Set.ncard_le_ncard (dependents_subset.trans hsub) hfin
      obtain ⟨hash, hmap⟩ := ha
      obtain ⟨pool₂, hok, htakes⟩ := remove_takes hU hacyclic hinv₁ (hfin.subset hsub) (hinv₁.entry hash a hmap).2
        (lt_of_le_of_lt hle hfuel)
      refine ⟨pool₂, (if_pos hne).trans hok, htakes.mono fun b hb => ⟨a, hconflict, ?_⟩⟩
      exact Set.insert_subset_insert (dependents_mono hsub) hb
  obtain ⟨pool', hok, htakes⟩ := removeNexts_takes hstep hinv Set.Subset.rfl
  have hfree : ∀ a ∈ pool'.txs, a ≠ tx → Disjoint a.needs tx.needs := by
    intro a ha hne
    by_cases htx : tx ∈ pool.txs
    · exact hinv.apart (htakes.pruned.subset ha) htx hne
    · exact (removeConflicts_spec hU hinv.linked htx hok).2 a ha
  have hgone : ∀ a ∈ pool.conflicts tx, a ∉ pool'.txs := fun a ⟨_, hne, hnot⟩ ha => hnot (hfree a ha hne)
  refine ⟨pool', hok, htakes.inOrder, Set.Subset.antisymm (fun b hb => ⟨htakes.pruned.subset hb, ?_⟩) fun b hb => ?_,
    hfree,
    fun b hb hb' => htakes.pruned.dependents hb hb'⟩
  · rintro ⟨a, ha, rfl | hdep⟩
    · exact hgone _ ha hb
    · exact Set.disjoint_left.mp (htakes.pruned.dependents ha.1 (hgone a ha)) hdep hb
  · by_contra hb'
    exact hb.2 (htakes.only b hb.1 hb')

end Removal

/-! ## Runs -/

/-- What happens to the pool. -/
inductive PoolEvent where
  | accept (tip : ChainTip) (tx : CTransaction) (fCheckInputs : Bool)
  | remove (tx : CTransaction) (fRecursive : Bool)
  | removeConflicts (tx : CTransaction)

namespace PoolEvent

/-- The transaction of an event. -/
def tx : PoolEvent → CTransaction
  | accept _ tx _ => tx
  | remove tx _ => tx
  | removeConflicts tx => tx

/-- One event; a transaction that is refused leaves the pool as it is. -/
def step (cr : Crypto) (fuel : Nat) (pool : CTxMemPool) : PoolEvent → Option CTxMemPool
  | accept tip tx fCheckInputs =>
    match acceptToMemoryPool { tip with cr := cr } pool tx fCheckInputs with
    | .ok pool' => some pool'
    | .error _ => some pool
  | remove tx fRecursive => pool.remove cr fuel tx fRecursive
  | removeConflicts tx => pool.removeConflicts cr fuel tx

end PoolEvent

section Runs

open CTxMemPool

variable {cr : Crypto} {U : Set CTransaction} {pool : CTxMemPool} {fuel : Nat}

/-- Accepting a transaction keeps the pool in order, and adds at most that transaction. -/
theorem accept_inOrder (tip : ChainTip) {tx : CTransaction} {f : Bool} {pool' : CTxMemPool}
    (hinv : pool.InOrder tip.cr U) (htx : tx ∈ U) (h : acceptToMemoryPool tip pool tx f = .ok pool') :
    pool'.InOrder tip.cr U ∧ pool'.txs = insert tx pool.txs := by
  obtain ⟨hloose, rfl⟩ := accept_eq_ok (acceptToMemoryPool_eq_ok.mp h)
  obtain ⟨-, -, hnew, hfree⟩ := acceptLoose_ok hloose
  have hnodup : (tx.vin.map (·.prevout)).Nodup := by
    unfold acceptLoose at hloose
    obtain ⟨_, hcheck, -⟩ := bind_eq_ok.mp hloose
    exact CTransaction.checkTransaction_vin hcheck
  exact ⟨hinv.addUnchecked htx hnodup hnew hfree, (linked_addUnchecked hinv.linked htx hnew hfree).2⟩

/-- **One event** ends, keeps the pool in order, and adds at most one transaction. -/
theorem poolEvent_step (hU : U.InjOn (·.getHash cr)) (hacyclic : Acyclic CTransaction.needs (CTransaction.gives cr) U)
    {e : PoolEvent} (he : e.tx ∈ U) (hinv : pool.InOrder cr U) (hfin : pool.txs.Finite) (hfuel : pool.txs.ncard < fuel) :
    ∃ pool', e.step cr fuel pool = some pool' ∧ pool'.InOrder cr U ∧ pool'.txs ⊆ insert e.tx pool.txs := by
  cases e with
  | accept tip tx f =>
    cases haccept : acceptToMemoryPool { tip with cr := cr } pool tx f with
    | ok pool' =>
      obtain ⟨hinv', htxs⟩ := accept_inOrder { tip with cr := cr } hinv he haccept
      exact ⟨pool', by simp only [PoolEvent.step, haccept], hinv', htxs.subset⟩
    | error e => exact ⟨pool, by simp only [PoolEvent.step, haccept], hinv, Set.subset_insert _ _⟩
  | remove tx fRecursive =>
    cases fRecursive with
    | true =>
      obtain ⟨pool', hok, hinv', htxs⟩ := remove_exact hU hacyclic hinv hfin he hfuel
      exact ⟨pool', hok, hinv', htxs ▸ Set.sdiff_subset.trans (Set.subset_insert _ _)⟩
    | false =>
      obtain ⟨pool', hok, hinv', htxs⟩ := remove_alone_exact hU hinv he (Nat.zero_lt_of_lt hfuel)
      exact ⟨pool', hok, hinv', htxs ▸ Set.sdiff_subset.trans (Set.subset_insert _ _)⟩
  | removeConflicts tx =>
    obtain ⟨pool', hok, hinv', htxs, -⟩ := removeConflicts_exact tx hU hacyclic hinv hfin hfuel
    exact ⟨pool', hok, hinv', htxs ▸ Set.sdiff_subset.trans (Set.subset_insert _ _)⟩

/-- **A run** ends, keeps the pool in order, and adds at most one transaction with every event. -/
theorem poolEvent_run (fuel : Nat) (hU : U.InjOn (·.getHash cr))
    (hacyclic : Acyclic CTransaction.needs (CTransaction.gives cr) U) :
    ∀ {es : List PoolEvent} {pool : CTxMemPool}, (∀ e ∈ es, e.tx ∈ U) → pool.InOrder cr U → pool.txs.Finite →
      pool.txs.ncard + es.length < fuel →
        ∃ pool', es.foldlM (PoolEvent.step cr fuel) pool = some pool' ∧ pool'.InOrder cr U ∧ pool'.txs.Finite ∧
          pool'.txs.ncard < fuel
  | [], pool, _, hinv, hfin, hfuel => ⟨pool, rfl, hinv, hfin, hfuel⟩
  | e :: es, pool, hes, hinv, hfin, hfuel => by
    rw [List.length_cons] at hfuel
    obtain ⟨pool₁, h₁, hinv₁, hsub⟩ := poolEvent_step hU hacyclic (hes e List.mem_cons_self) hinv hfin
      (show pool.txs.ncard < fuel by omega)
    have hfin' := hfin.insert e.tx
    have hle : pool₁.txs.ncard ≤ pool.txs.ncard + 1 :=
      (Set.ncard_le_ncard hsub hfin').trans (Set.ncard_insert_le _ _)
    obtain ⟨pool₂, h₂, hrest⟩ := poolEvent_run fuel hU hacyclic (fun e he => hes e (List.mem_cons_of_mem _ he)) hinv₁
      (hfin'.subset hsub) (show pool₁.txs.ncard + es.length < fuel by omega)
    exact ⟨pool₂, by rw [List.foldlM_cons, h₁]; exact h₂, hrest⟩

/-- **The index of the memory pool.** After every sequence of accepted, removed and conflicting transactions that starts
with an empty pool, the index is exactly the map from the inputs to transactions and positions, and no two transactions
share an input. A recursive removal takes the transaction, in the pool or not, with all that depends on it and nothing
else; after a removal of conflicts nothing but the transaction spends what it spends, and nothing is left that depends
on what was taken. No two of the transactions have the same hash, and none of them spends its own outputs through
others. -/
theorem mempoolIndex_law (cr : Crypto) (U : Set CTransaction) (es : List PoolEvent) (fuel : Nat)
    (hcollision : U.InjOn (·.getHash cr)) (hacyclic : Acyclic CTransaction.needs (CTransaction.gives cr) U)
    (hes : ∀ e ∈ es, e.tx ∈ U) (hfuel : es.length < fuel) :
    ∃ pool, es.foldlM (PoolEvent.step cr fuel) CTxMemPool.empty = some pool ∧ pool.Indexed ∧
      (∀ h tx, pool.mapTx h = some tx → tx.getHash cr = h) ∧
      (∀ a ∈ pool.txs, ∀ b ∈ pool.txs, a ≠ b → Disjoint a.needs b.needs) ∧
      ∀ tx ∈ U,
        (∃ pool', pool.remove cr fuel tx true = some pool' ∧ pool'.Indexed ∧
          pool'.txs = pool.txs \ insert tx (pool.dependents cr tx)) ∧
        (∃ pool', pool.remove cr fuel tx false = some pool' ∧ pool'.Indexed ∧ pool'.txs = pool.txs \ {tx}) ∧
        ∃ pool', pool.removeConflicts cr fuel tx = some pool' ∧ pool'.Indexed ∧
          pool'.txs = pool.txs \ conflictClosure cr pool tx ∧ (∀ a ∈ pool'.txs, a ≠ tx → Disjoint a.needs tx.needs) ∧
          ∀ b ∈ pool.txs, b ∉ pool'.txs → Disjoint (pool.dependents cr b) pool'.txs := by
  have htxs : CTxMemPool.empty.txs = ∅ := Set.eq_empty_of_forall_notMem fun _ ⟨_, h⟩ => nomatch h
  obtain ⟨pool, hrun, hinv, hfin, hcard⟩ := poolEvent_run fuel hcollision hacyclic hes inOrder_empty
    (htxs ▸ Set.finite_empty) (by rw [htxs, Set.ncard_empty]; omega)
  refine ⟨pool, hrun, hinv.index, fun h tx hmap => (hinv.entry h tx hmap).1, fun a ha b hb => hinv.apart ha hb,
    fun tx htx => ⟨?_, ?_, ?_⟩⟩
  · obtain ⟨pool', hok, hinv', htxs⟩ := remove_exact hcollision hacyclic hinv hfin htx hcard
    exact ⟨pool', hok, hinv'.index, htxs⟩
  · obtain ⟨pool', hok, hinv', htxs⟩ := remove_alone_exact hcollision hinv htx (Nat.zero_lt_of_lt hcard)
    exact ⟨pool', hok, hinv'.index, htxs⟩
  · obtain ⟨pool', hok, hinv', hrest⟩ := removeConflicts_exact tx hcollision hacyclic hinv hfin hcard
    exact ⟨pool', hok, hinv'.index, hrest⟩

/-- Two transactions, the second of which spends an output of the first, are accepted. -/
theorem mempoolIndex_law_sample :
    (([.accept orphanTip (spendBefore 2 800) true, .accept orphanTip (spendBefore 3 600) true] : List PoolEvent).foldlM
        (PoolEvent.step orphanCrypto 3) CTxMemPool.empty).any
      (fun pool => decide (pool.mapNextTx ⟨2, 0⟩ = some ⟨3, 0⟩)) = true ∧
      ∃ pool, ([.accept orphanTip (spendBefore 2 800) true, .accept orphanTip (spendBefore 3 600) true] :
        List PoolEvent).foldlM (PoolEvent.step orphanCrypto 3) CTxMemPool.empty = some pool ∧ pool.Indexed := by
  refine ⟨by decide +kernel, (mempoolIndex_law orphanCrypto {tx | tx ∈ [spendBefore 2 800, spendBefore 3 600]}
    [.accept orphanTip (spendBefore 2 800) true, .accept orphanTip (spendBefore 3 600) true] 3 ?_ ?_ ?_ ?_).imp
    fun _ h => ⟨h.1, h.2.1⟩⟩
  · have hnodup : ([spendBefore 2 800, spendBefore 3 600].map (·.getHash orphanCrypto)).Nodup := by decide +kernel
    exact fun a ha b hb hab => List.inj_on_of_nodup_map hnodup ha hb hab
  · refine acyclic_of_rank (·.nLockTime) ?_
    rintro a b hb ⟨o, ⟨txin, htxin, rfl⟩, hhash, -⟩
    replace hhash : txin.prevout.hash = a.nLockTime := hhash
    have hprev : ∀ b ∈ [spendBefore 2 800, spendBefore 3 600], ∀ txin ∈ b.vin, txin.prevout.hash < b.nLockTime := by
      decide +kernel
    exact hhash ▸ hprev b hb txin htxin
  · exact List.forall_mem_cons.mpr ⟨List.mem_cons_self, List.forall_mem_singleton.mpr (List.mem_cons_of_mem _
      List.mem_cons_self)⟩
  · decide

end Runs

end Morcochain
