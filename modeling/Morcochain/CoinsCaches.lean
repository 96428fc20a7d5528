import Morcochain.CoinsRecord
import Morcochain.Lib.Overlay
import Morcochain.Lib.Run

/-!
# Caches of the unspent outputs

`CCoinsViewCache` and `CCoinsViewDB` (`main.cpp`, `txdb.cpp`): caches stacked over the coin database. Reads fill the
caches that they pass, writes stay in the cache that they are made in until it is flushed into the view below, and the
database keeps no record of coins that are spent entirely. What a stack answers is one of the views `CCoinsView` that
validation works on (`CoinsStack.view`), up to coins that are spent entirely (`Alike`).

* `view_getCoins`, `view_getBestBlock` : **reads change no answer**, although they fill caches.
* `alike_flush`, `alike_base_of_flush` : **a flush changes no answer**, and leaves them all to the view below.
* `alike_step` : **every operation at every level** is the write that it stands for.
-/

set_option autoImplicit false

namespace Morcochain

open OrderedStore Overlay

/-! ## The views -/

/-- `CCoinsViewDB`: the records of coins and of the best block. -/
structure CCoinsViewDB where
  coins : Store Uint256 Bytes := .empty
  hashBestChain : Option Uint256 := none

/-- The data of a `CCoinsViewCache`. -/
structure CCoinsViewCache where
  pindexTip : Option Uint256 := none
  cacheCoins : Store Uint256 CCoins := .empty

/-- Caches over the coin database, each with the view that it is backed by. -/
inductive CoinsStack where
  | db (d : CCoinsViewDB)
  | cache (c : CCoinsViewCache) (base : CoinsStack)

/-- The key library, and the block index that the best block is looked up in. -/
structure CoinsContext where
  cr : Crypto
  uncompressed : Bytes → Bytes
  mapBlockIndex : BlockMap

section Operations

variable (ctx : CoinsContext)

/-- The change that `BatchWriteCoins` makes to the records. -/
def batchWriteCoins (coins : CCoins) : Option Bytes := if coins.isPruned then none else some (coins.serialize ctx.cr)

/-- The block is in the index. -/
def CoinsContext.known (hash : Uint256) : Bool := (ctx.mapBlockIndex.find hash).isSome

namespace CCoinsViewDB

/-- `CCoinsViewDB::GetCoins`. -/
def getCoins (d : CCoinsViewDB) (txid : Uint256) : Option CCoins :=
  (d.coins.find? txid).bind (CCoins.ofRecord ctx.cr ctx.uncompressed)

/-- `CCoinsViewDB::SetCoins`. -/
def setCoins (d : CCoinsViewDB) (txid : Uint256) (coins : CCoins) : CCoinsViewDB :=
  { d with coins := d.coins.applyChanges [(txid, batchWriteCoins ctx coins)] }

/-- `CCoinsViewDB::HaveCoins`. -/
def haveCoins (d : CCoinsViewDB) (txid : Uint256) : Bool := (d.coins.find? txid).isSome

/-- `CCoinsViewDB::GetBestBlock`. -/
def getBestBlock (d : CCoinsViewDB) : Option Uint256 := d.hashBestChain.filter ctx.known

/-- `CCoinsViewDB::BatchWrite`. -/
def batchWrite (d : CCoinsViewDB) (mapCoins : Store Uint256 CCoins) (pindex : Option Uint256) : CCoinsViewDB where
  coins := d.coins.applyChanges (mapCoins.entries.map fun e => (e.1, batchWriteCoins ctx e.2))
  hashBestChain := pindex.or d.hashBestChain

end CCoinsViewDB

namespace CoinsStack

/-- `GetCoins`: the answer, and the views after it. -/
def getCoins (txid : Uint256) : CoinsStack → Option CCoins × CoinsStack
  | db d => (d.getCoins ctx txid, db d)
  | cache c base =>
    match c.cacheCoins.find? txid with
    | some coins => (some coins, cache c base)
    | none =>
      match base.getCoins txid with
      | (some coins, base') => (some coins, cache { c with cacheCoins := c.cacheCoins.insert txid coins } base')
      | (none, base') => (none, cache c base')

/-- `HaveCoins`; a cache fetches the coins (`FetchCoins`), as `GetCoins` does. -/
def haveCoins (txid : Uint256) : CoinsStack → Bool × CoinsStack
  | db d => (d.haveCoins txid, db d)
  | cache c base => (((cache c base).getCoins ctx txid).1.isSome, ((cache c base).getCoins ctx txid).2)

/-- `SetCoins`. -/
def setCoins (txid : Uint256) (coins : CCoins) : CoinsStack → CoinsStack
  | db d => db (d.setCoins ctx txid coins)
  | cache c base => cache { c with cacheCoins := c.cacheCoins.insert txid coins } base

/-- A caller changes coins through the reference that `CCoins &GetCoins(const uint256&)` of a cache gives. The member
asserts that there are coins; the database has no such member. -/
def modifyCoins (txid : Uint256) (coins : CCoins) : CoinsStack → CoinsStack
  | db d => db d
  | cache c base =>
    match (cache c base).getCoins ctx txid with
    | (some _, s) => s.setCoins ctx txid coins
    | (none, s) => s

/-- `GetBestBlock`: the answer, and the views after it. -/
def getBestBlock : CoinsStack → Option Uint256 × CoinsStack
  | db d => (d.getBestBlock ctx, db d)
  | cache c base =>
    match c.pindexTip with
    | some pindex => (some pindex, cache c base)
    | none => (base.getBestBlock.1, cache { c with pindexTip := base.getBestBlock.1 } base.getBestBlock.2)

/-- `SetBestBlock`; the database takes no null pointer. -/
def setBestBlock (pindex : Option Uint256) : CoinsStack → CoinsStack
  | db d => db { d with hashBestChain := pindex.or d.hashBestChain }
  | cache c base => cache { c with pindexTip := pindex } base

/-- `BatchWrite`. -/
def batchWrite (mapCoins : Store Uint256 CCoins) (pindex : Option Uint256) : CoinsStack → CoinsStack
  | db d => db (d.batchWrite ctx mapCoins pindex)
  | cache c base =>
    cache ⟨pindex, c.cacheCoins.applyChanges (mapCoins.entries.map fun e => (e.1, some e.2))⟩ base

/-- `CCoinsViewCache::Flush`. -/
def flush : CoinsStack → CoinsStack
  | db d => db d
  | cache c base => cache { c with cacheCoins := .empty } (base.batchWrite ctx c.cacheCoins c.pindexTip)

end CoinsStack

/-! ## Operations at any level -/

/-- An operation on the view at a level of the stack, counted from the top. -/
inductive ViewEvent where
  | getCoins (n : Nat) (txid : Uint256)
  | haveCoins (n : Nat) (txid : Uint256)
  | setCoins (n : Nat) (txid : Uint256) (coins : CCoins)
  | modifyCoins (n : Nat) (txid : Uint256) (coins : CCoins)
  | getBestBlock (n : Nat)
  | setBestBlock (n : Nat) (pindex : Option Uint256)
  | flush (n : Nat)

namespace CoinsStack

/-- The view at a level. -/
def viewAt : Nat → CoinsStack → Option CoinsStack
  | 0, s => some s
  | _ + 1, db _ => none
  | n + 1, cache _ base => base.viewAt n

/-- Change the view at a level. -/
def atLevel (f : CoinsStack → CoinsStack) : Nat → CoinsStack → CoinsStack
  | 0, s => f s
  | _ + 1, db d => db d
  | n + 1, cache c base => cache c (base.atLevel f n)

/-- The stack after an operation. -/
def step (s : CoinsStack) : ViewEvent → CoinsStack
  | .getCoins n txid => s.atLevel (fun t => (t.getCoins ctx txid).2) n
  | .haveCoins n txid => s.atLevel (fun t => (t.haveCoins ctx txid).2) n
  | .setCoins n txid coins => s.atLevel (·.setCoins ctx txid coins) n
  | .modifyCoins n txid coins => s.atLevel (·.modifyCoins ctx txid coins) n
  | .getBestBlock n => s.atLevel (fun t => (t.getBestBlock ctx).2) n
  | .setBestBlock n pindex => s.atLevel (·.setBestBlock pindex) n
  | .flush n => s.atLevel (·.flush ctx) n

end CoinsStack

end Operations

/-! ## What a stack answers -/

/-- The write that an operation stands for. -/
def CCoinsView.write (view : CCoinsView) : ViewEvent → CCoinsView
  | .setCoins _ txid coins => view.setCoins txid coins
  | .modifyCoins _ txid coins => view.setCoins txid coins
  | .setBestBlock _ pindex => view.setBestBlock pindex
  | _ => view

/-- Coins of which not all is spent. -/
def CCoins.unspent (coins : CCoins) : Bool := ! coins.isPruned

/-- The views answer alike, when coins that are spent entirely count as none. -/
structure CCoinsView.Alike (view view' : CCoinsView) : Prop where
  coins : kept CCoins.unspent view.getCoins = kept CCoins.unspent view'.getCoins
  best : view.bestBlock = view'.bestBlock

section Answers

variable (ctx : CoinsContext)

namespace CoinsStack

/-- The coins that a stack answers. -/
def lookup : CoinsStack → Uint256 → Option CCoins
  | db d => d.getCoins ctx
  | cache c base => overlay c.cacheCoins.find? base.lookup

/-- The best block that a stack answers. -/
def best : CoinsStack → Option Uint256
  | db d => d.getBestBlock ctx
  | cache c base => c.pindexTip.or base.best

/-- The view that a stack stands for. -/
def view (s : CoinsStack) : CCoinsView := { getCoins := s.lookup ctx, bestBlock := s.best ctx }

end CoinsStack

/-- The coins are spent entirely, or a record gives them back. -/
def CCoins.Keepable (coins : CCoins) : Prop := coins.isPruned = true ∨ coins.Recorded ctx.cr ctx.uncompressed

instance (coins : CCoins) : Decidable (coins.Keepable ctx) := by
  unfold CCoins.Keepable
  infer_instance

/-- What every stack keeps: the caches hold coins that a record gives back, and blocks of the index; the records are
those of coins that they give back. -/
def CoinsStack.Sound : CoinsStack → Prop
  | .db d => ∀ txid record, d.coins.find? txid = some record → ∃ coins : CCoins,
      CCoins.ofRecord ctx.cr ctx.uncompressed record = some coins ∧ coins.Keepable ctx
  | .cache c base => (∀ txid coins, c.cacheCoins.find? txid = some coins → coins.Keepable ctx) ∧
      (∀ pindex, c.pindexTip = some pindex → ctx.known pindex = true) ∧ base.Sound

/-- The caches above a level meet a condition. -/
def CoinsStack.Above (P : CCoinsViewCache → Prop) : Nat → CoinsStack → Prop
  | 0, _ => True
  | _ + 1, .db _ => True
  | n + 1, .cache c base => P c ∧ base.Above P n

instance CoinsStack.decidableAbove (P : CCoinsViewCache → Prop) [DecidablePred P] : ∀ (n : Nat) (s : CoinsStack),
    Decidable (s.Above P n)
  | 0, .db _ => .isTrue trivial
  | 0, .cache _ _ => .isTrue trivial
  | _ + 1, .db _ => .isTrue trivial
  | n + 1, .cache c base =>
    have := decidableAbove P n base
    inferInstanceAs (Decidable (P c ∧ base.Above P n))

/-- The operation is made on a view of the stack. A write below the top concerns coins, or a best block, that no cache
above holds; the coins written can be recorded; a reference is asked for where there are coins; the best block set is
one of the index; a cache that is flushed holds the best block that it would answer. -/
def CoinsStack.Legal (s : CoinsStack) : ViewEvent → Prop
  | .setCoins n txid coins => (s.viewAt n).isSome = true ∧ coins.Keepable ctx ∧
      s.Above (fun c => c.cacheCoins.find? txid = none) n
  | .modifyCoins n txid coins =>
    match s.viewAt n with
    | some (.cache c base) => coins.Keepable ctx ∧ s.Above (fun c => c.cacheCoins.find? txid = none) n ∧
        ((((CoinsStack.cache c base).lookup ctx txid).any CCoins.unspent) = true ∨ coins.isPruned = true)
    | _ => False
  | .setBestBlock n pindex => (s.viewAt n).isSome = true ∧ pindex.any ctx.known = true ∧
      s.Above (fun c => c.pindexTip = none) n
  | .flush n =>
    match s.viewAt n with
    | some (.cache c base) => c.pindexTip = (CoinsStack.cache c base).best ctx
    | _ => False
  | _ => True

instance (s : CoinsStack) (e : ViewEvent) : Decidable (s.Legal ctx e) := by
  unfold CoinsStack.Legal
  split <;> try infer_instance
  all_goals split <;> infer_instance

end Answers

/-! ## Views that answer alike -/

namespace CCoinsView.Alike

theorem refl (view : CCoinsView) : view.Alike view := ⟨rfl, rfl⟩

theorem trans {view view' view'' : CCoinsView} (h : view.Alike view') (h' : view'.Alike view'') : view.Alike view'' :=
  ⟨h.coins.trans h'.coins, h.best.trans h'.best⟩

theorem symm {view view' : CCoinsView} (h : view.Alike view') : view'.Alike view := ⟨h.coins.symm, h.best.symm⟩

end CCoinsView.Alike

/-- `SetCoins` on a view changes its map in one place. -/
theorem getCoins_setCoins_eq (view : CCoinsView) (txid : Uint256) (coins : CCoins) :
    (view.setCoins txid coins).getCoins = Function.update view.getCoins txid (some coins) := by
  funext h
  rw [Function.update_apply]
  exact CCoinsView.getCoins_setCoins view txid h coins

/-- Views that answer alike do so after a write. -/
theorem CCoinsView.Alike.write {view view' : CCoinsView} (h : view.Alike view') (e : ViewEvent) :
    (view.write e).Alike (view'.write e) := by
  have hset : ∀ txid coins, (view.setCoins txid coins).Alike (view'.setCoins txid coins) := by
    intro txid coins
    refine ⟨?_, h.best⟩
    rw [getCoins_setCoins_eq, getCoins_setCoins_eq]
    exact kept_update_congr h.coins txid (some coins)
  cases e with
  | setCoins n txid coins => exact hset txid coins
  | modifyCoins n txid coins => exact hset txid coins
  | setBestBlock n pindex => exact ⟨h.coins, rfl⟩
  | getCoins n txid => exact h
  | haveCoins n txid => exact h
  | getBestBlock n => exact h
  | flush n => exact h

theorem foldl_write {view view' : CCoinsView} : ∀ es : List ViewEvent, view.Alike view' →
    (es.foldl CCoinsView.write view).Alike (es.foldl CCoinsView.write view')
  | [], h => h
  | e :: es, h => foldl_write es (h.write e)

/-! ## Operations on one view -/

theorem find?_insert_eq (m : Store Uint256 CCoins) (txid : Uint256) (coins : CCoins) :
    (m.insert txid coins).find? = Function.update m.find? txid (some coins) := by
  funext h
  rw [Store.find?_insert, Function.update_apply]

section Operations

variable {ctx : CoinsContext} {txid : Uint256} {coins : CCoins} {pindex : Option Uint256}

/-- What a record of coins gives back, if they have one. -/
theorem filter_batchWriteCoins (h : coins.Keepable ctx) :
    ((batchWriteCoins ctx coins).bind (CCoins.ofRecord ctx.cr ctx.uncompressed)).filter CCoins.unspent =
      (some coins).filter CCoins.unspent := by
  unfold batchWriteCoins
  cases hp : coins.isPruned with
  | true =>
    have hu : coins.unspent = false := by rw [CCoins.unspent, hp]; rfl
    rw [if_pos rfl, Option.bind_none, Option.filter_none, Option.filter_some, hu]
    rfl
  | false =>
    rcases h with h | h
    · rw [h] at hp
      cases hp
    · rw [if_neg (by simp), Option.bind_some, h]

theorem CCoinsViewDB.getCoins_setCoins (d : CCoinsViewDB) (h : Uint256) :
    (d.setCoins ctx txid coins).getCoins ctx h =
      if h = txid then (batchWriteCoins ctx coins).bind (CCoins.ofRecord ctx.cr ctx.uncompressed) else d.getCoins ctx h := by
  unfold getCoins setCoins
  rw [Store.find?_applyChanges, Store.lastChange, List.reverse_singleton]
  by_cases hh : h = txid
  · subst hh
    rw [List.find?_cons_of_pos (by simp), if_pos rfl]
    rfl
  · rw [List.find?_cons_of_neg (by simpa using Ne.symm hh), if_neg hh]
    rfl

theorem CCoinsViewDB.getCoins_batchWrite (d : CCoinsViewDB) (mapCoins : Store Uint256 CCoins) (h : Uint256) :
    (d.batchWrite ctx mapCoins pindex).getCoins ctx h =
      match mapCoins.find? h with
      | some coins => (batchWriteCoins ctx coins).bind (CCoins.ofRecord ctx.cr ctx.uncompressed)
      | none => d.getCoins ctx h := by
  unfold getCoins batchWrite
  rw [Store.find?_applyChanges, Store.lastChange_entries]
  cases mapCoins.find? h <;> rfl

namespace CoinsStack

variable {s base : CoinsStack} {c : CCoinsViewCache}

/-! ### Reads -/

theorem getCoins_fst : ∀ s : CoinsStack, (s.getCoins ctx txid).1 = s.lookup ctx txid
  | db d => rfl
  | cache c base => by
    have ih := getCoins_fst base
    rw [getCoins, lookup]
    cases hc : c.cacheCoins.find? txid with
    | some coins => rw [overlay_of_some hc]
    | none =>
      rw [overlay_of_none hc, ← ih]
      cases base.getCoins ctx txid with
      | mk answer base' => cases answer <;> rfl

/-- **Reading coins changes no answer.** -/
theorem view_getCoins : ∀ s : CoinsStack, (s.getCoins ctx txid).2.view ctx = s.view ctx
  | db d => rfl
  | cache c base => by
    have ih := view_getCoins base
    have hfst : (base.getCoins ctx txid).1 = base.lookup ctx txid := getCoins_fst base
    rw [getCoins]
    cases hc : c.cacheCoins.find? txid with
    | some coins => rfl
    | none =>
      cases hb : base.getCoins ctx txid with
      | mk answer base' =>
        rw [hb] at ih hfst
        have hl : base'.lookup ctx = base.lookup ctx := congrArg CCoinsView.getCoins ih
        have hbest : base'.best ctx = base.best ctx := congrArg CCoinsView.bestBlock ih
        cases answer with
        | none =>
          simp only [view, lookup, best]
          rw [hl, hbest]
        | some coins =>
          simp only [view, lookup, best, find?_insert_eq]
          rw [hl, hbest, overlay_fill hc hfst.symm]

/-- **Asking for coins changes no answer.** -/
theorem view_haveCoins : ∀ s : CoinsStack, (s.haveCoins ctx txid).2.view ctx = s.view ctx
  | db _ => rfl
  | cache c base => view_getCoins (cache c base)

theorem getBestBlock_fst : ∀ s : CoinsStack, (s.getBestBlock ctx).1 = s.best ctx
  | db _ => rfl
  | cache c base => by
    have ih := getBestBlock_fst base
    rw [getBestBlock, best]
    cases c.pindexTip with
    | some pindex => rfl
    | none => exact ih

/-- **Reading the best block changes no answer.** -/
theorem view_getBestBlock : ∀ s : CoinsStack, (s.getBestBlock ctx).2.view ctx = s.view ctx
  | db _ => rfl
  | cache c base => by
    have ih := view_getBestBlock base
    have hfst : (base.getBestBlock ctx).1 = base.best ctx := getBestBlock_fst base
    rw [getBestBlock]
    cases hc : c.pindexTip with
    | some pindex => rfl
    | none =>
      have hl : (base.getBestBlock ctx).2.lookup ctx = base.lookup ctx := congrArg CCoinsView.getCoins ih
      have hbest : (base.getBestBlock ctx).2.best ctx = base.best ctx := congrArg CCoinsView.bestBlock ih
      simp only [view, lookup, best, hc]
      rw [hl, hbest, hfst, Option.or_self, Option.none_or]

/-! ### Writes -/

/-- `SetCoins` on a stack is a write to what it answers. -/
theorem kept_setCoins (h : coins.Keepable ctx) : ∀ s : CoinsStack,
    kept CCoins.unspent ((s.setCoins ctx txid coins).lookup ctx) =
      kept CCoins.unspent (Function.update (s.lookup ctx) txid (some coins))
  | cache c base => by
    rw [setCoins, lookup, find?_insert_eq, overlay_update]
    rfl
  | db d => by
    funext j
    simp only [kept, setCoins, lookup, CCoinsViewDB.getCoins_setCoins]
    by_cases hj : j = txid
    · rw [if_pos hj, hj, Function.update_self]
      exact filter_batchWriteCoins h
    · rw [if_neg hj, Function.update_of_ne hj]

theorem best_setCoins : ∀ s : CoinsStack, (s.setCoins ctx txid coins).best ctx = s.best ctx
  | cache _ _ => rfl
  | db _ => rfl

theorem exists_known (h : pindex.any ctx.known = true) : ∃ hash, pindex = some hash ∧ ctx.known hash = true := by
  cases pindex with
  | none => cases h
  | some hash => exact ⟨hash, rfl, h⟩

/-- `SetBestBlock` of a block of the index. -/
theorem best_setBestBlock (h : pindex.any ctx.known = true) : ∀ s : CoinsStack,
    (s.setBestBlock pindex).best ctx = pindex
  | cache c base => by
    obtain ⟨hash, rfl, -⟩ := exists_known h
    rfl
  | db d => by
    obtain ⟨hash, rfl, hk⟩ := exists_known h
    simp only [setBestBlock, best, CCoinsViewDB.getBestBlock, Option.some_or, Option.filter_some, hk, if_true]

theorem lookup_setBestBlock : ∀ s : CoinsStack, (s.setBestBlock pindex).lookup ctx = s.lookup ctx
  | cache _ _ => rfl
  | db _ => rfl

/-- A write through a reference, where there are coins or none are written. -/
theorem alike_modifyCoins (h : coins.Keepable ctx)
    (hfound : ((cache c base).lookup ctx txid).any CCoins.unspent = true ∨ coins.isPruned = true) :
    (((cache c base).modifyCoins ctx txid coins).view ctx).Alike (((cache c base).view ctx).setCoins txid coins) := by
  have hfst : ((cache c base).getCoins ctx txid).1 = (cache c base).lookup ctx txid := getCoins_fst (cache c base)
  have hview : ((cache c base).getCoins ctx txid).2.view ctx = (cache c base).view ctx := view_getCoins (cache c base)
  rw [modifyCoins]
  cases hg : (cache c base).getCoins ctx txid with
  | mk answer s =>
    rw [hg] at hfst hview
    cases answer with
    | some old =>
      refine ⟨?_, (best_setCoins s).trans (congrArg CCoinsView.bestBlock hview)⟩
      rw [getCoins_setCoins_eq, ← congrArg CCoinsView.getCoins hview]
      exact kept_setCoins h s
    | none =>
      refine ⟨?_, show s.best ctx = (cache c base).best ctx from congrArg CCoinsView.bestBlock hview⟩
      rw [getCoins_setCoins_eq]
      show kept CCoins.unspent (s.view ctx).getCoins = _
      rw [hview]
      funext j
      by_cases hj : j = txid
      · have hp : coins.unspent = false := by
          rcases hfound with hsome | hp
          · rw [← hfst] at hsome
            cases hsome
          · rw [CCoins.unspent, hp]
            rfl
        rw [hj, kept, kept, Function.update_self, Option.filter_some, hp,
          show ((cache c base).view ctx).getCoins txid = none
          from hfst.symm]
        rfl
      · simp only [kept, Function.update_of_ne hj]

/-! ### Flushes -/

/-- A batch of coins is a layer over what the stack answers. -/
theorem kept_batchWrite {mapCoins : Store Uint256 CCoins}
    (h : ∀ txid coins, mapCoins.find? txid = some coins → coins.Keepable ctx) : ∀ s : CoinsStack,
    kept CCoins.unspent ((s.batchWrite ctx mapCoins pindex).lookup ctx) =
      kept CCoins.unspent (overlay mapCoins.find? (s.lookup ctx))
  | cache c base => by
    refine congrArg _ (funext fun j => ?_)
    simp only [batchWrite, lookup, overlay, Store.find?_applyChanges, Store.lastChange_entries]
    cases mapCoins.find? j <;> rfl
  | db d => by
    funext j
    simp only [kept, batchWrite, lookup, CCoinsViewDB.getCoins_batchWrite]
    cases hj : mapCoins.find? j with
    | some coins =>
      rw [overlay_of_some hj]
      exact filter_batchWriteCoins (h j coins hj)
    | none => rw [overlay_of_none hj]

/-- The best block of a batch is the one that is answered from then on. -/
theorem best_batchWrite {mapCoins : Store Uint256 CCoins} (h : ∀ hash, pindex = some hash → ctx.known hash = true) :
    ∀ s : CoinsStack, pindex.or (s.best ctx) = pindex → (s.batchWrite ctx mapCoins pindex).best ctx = pindex
  | cache c base, hor => by
    cases pindex with
    | some hash => rfl
    | none =>
      rw [Option.none_or] at hor
      exact (Option.or_eq_none_iff.mp hor).2
  | db d, hor => by
    cases pindex with
    | some hash =>
      simp only [batchWrite, best, CCoinsViewDB.getBestBlock, CCoinsViewDB.batchWrite, Option.some_or,
        Option.filter_some, h hash rfl, if_true]
    | none => exact hor

/-- The view below a cache that is flushed answers as the cache did. -/
theorem alike_batchWrite (hs : (cache c base).Sound ctx) (hbest : c.pindexTip = (cache c base).best ctx) :
    ((base.batchWrite ctx c.cacheCoins c.pindexTip).view ctx).Alike ((cache c base).view ctx) :=
  ⟨kept_batchWrite hs.1 base, (best_batchWrite hs.2.1 base hbest.symm).trans hbest⟩

/-- **After a flush the view below answers alone as the flushed one did.** -/
theorem alike_base_of_flush (hs : (cache c base).Sound ctx) (hbest : c.pindexTip = (cache c base).best ctx) :
    ∃ c' base', (cache c base).flush ctx = cache c' base' ∧ (base'.view ctx).Alike ((cache c base).view ctx) :=
  ⟨_, _, rfl, alike_batchWrite hs hbest⟩

/-- **A flush changes no answer.** -/
theorem alike_flush (hs : (cache c base).Sound ctx) (hbest : c.pindexTip = (cache c base).best ctx) :
    (((cache c base).flush ctx).view ctx).Alike ((cache c base).view ctx) := by
  have h := alike_batchWrite hs hbest
  refine ⟨?_, ?_⟩
  · show kept _ (overlay (Store.empty : Store Uint256 CCoins).find? _) = _
    rw [overlay_empty fun k => Store.find?_empty k]
    exact h.coins
  · show c.pindexTip.or ((base.batchWrite ctx c.cacheCoins c.pindexTip).best ctx) = _
    rw [show (base.batchWrite ctx c.cacheCoins c.pindexTip).best ctx = (cache c base).best ctx from h.best, ← hbest,
      Option.or_self]
    exact hbest

end CoinsStack

end Operations

/-! ## Operations at a level -/

/-- A view read through a cache. -/
def CCoinsViewCache.over (c : CCoinsViewCache) (view : CCoinsView) : CCoinsView :=
  { getCoins := overlay c.cacheCoins.find? view.getCoins, bestBlock := c.pindexTip.or view.bestBlock }

section Levels

variable {ctx : CoinsContext} {f : CoinsStack → CoinsStack}

theorem CCoinsView.Alike.over {view view' : CCoinsView} (h : view.Alike view') (c : CCoinsViewCache) :
    (c.over view).Alike (c.over view') :=
  ⟨kept_overlay_congr h.coins, congrArg c.pindexTip.or h.best⟩

theorem over_setCoins {c : CCoinsViewCache} {txid : Uint256} (h : c.cacheCoins.find? txid = none) (view : CCoinsView)
    (coins : CCoins) : c.over (view.setCoins txid coins) = (c.over view).setCoins txid coins := by
  have hcoins : (c.over (view.setCoins txid coins)).getCoins = ((c.over view).setCoins txid coins).getCoins := by
    rw [getCoins_setCoins_eq]
    show overlay c.cacheCoins.find? (view.setCoins txid coins).getCoins = _
    rw [getCoins_setCoins_eq]
    exact overlay_update_base h (some coins)
  exact congrArg (fun g => ({ getCoins := g, bestBlock := c.pindexTip.or view.bestBlock } : CCoinsView)) hcoins

theorem over_setBestBlock {c : CCoinsViewCache} (h : c.pindexTip = none) (view : CCoinsView) (pindex : Option Uint256) :
    c.over (view.setBestBlock pindex) = (c.over view).setBestBlock pindex := by
  rw [CCoinsViewCache.over, h, Option.none_or]
  rfl

namespace CoinsStack

/-- What changes no answer at a level changes none at the top. -/
theorem alike_atLevel : ∀ {n : Nat} {s : CoinsStack},
    (∀ t, s.viewAt n = some t → ((f t).view ctx).Alike (t.view ctx)) → ((s.atLevel f n).view ctx).Alike (s.view ctx)
  | 0, s, h => h s rfl
  | _ + 1, db _, _ => .refl _
  | n + 1, cache c base, h => (alike_atLevel (n := n) (s := base) h).over c

/-- A write at a level is a write at the top, when each cache above leaves it to the view below. -/
theorem alike_atLevel_write {P : CCoinsViewCache → Prop} {w : CCoinsView → CCoinsView}
    (hover : ∀ c, P c → ∀ view, c.over (w view) = w (c.over view)) : ∀ {n : Nat} {s : CoinsStack},
    (s.viewAt n).isSome = true → s.Above P n →
    (∀ t, s.viewAt n = some t → ((f t).view ctx).Alike (w (t.view ctx))) →
      ((s.atLevel f n).view ctx).Alike (w (s.view ctx))
  | 0, s, _, _, h => h s rfl
  | n + 1, cache c base, hat, habove, h => by
    have ih := (alike_atLevel_write hover (n := n) (s := base) hat habove.2 h).over c
    rw [hover c habove.1] at ih
    exact ih

/-- A view at a level is sound. -/
theorem Sound.viewAt : ∀ {n : Nat} {s t : CoinsStack}, s.Sound ctx → s.viewAt n = some t → t.Sound ctx
  | 0, _, _, hs, h => by
    cases h
    exact hs
  | _ + 1, cache _ _, _, hs, h => hs.2.2.viewAt h

theorem Sound.atLevel : ∀ {n : Nat} {s : CoinsStack}, s.Sound ctx →
    (∀ t, s.viewAt n = some t → t.Sound ctx → (f t).Sound ctx) → (s.atLevel f n).Sound ctx
  | 0, s, hs, h => h s rfl hs
  | _ + 1, db _, hs, _ => hs
  | n + 1, cache _ _, hs, h => ⟨hs.1, hs.2.1, hs.2.2.atLevel (n := n) h⟩

end CoinsStack

end Levels

/-! ## What every operation keeps -/

section Soundness

variable {ctx : CoinsContext} {txid : Uint256} {coins : CCoins} {pindex : Option Uint256}

namespace CoinsStack

/-- The coins that a sound stack answers can be recorded. -/
theorem Sound.lookup : ∀ {s : CoinsStack}, s.Sound ctx → ∀ {coins : CCoins}, s.lookup ctx txid = some coins →
    coins.Keepable ctx
  | db d, hs, coins, h => by
    obtain ⟨record, hrecord, hof⟩ := Option.bind_eq_some_iff.mp h
    obtain ⟨coins', hof', hk⟩ := hs txid record hrecord
    rw [hof] at hof'
    cases hof'
    exact hk
  | cache c base, hs, coins, h => by
    rcases overlay_eq_some h with h | h
    · exact hs.1 txid coins h
    · exact hs.2.2.lookup h

/-- The best block that a sound stack answers is one of the index. -/
theorem Sound.best : ∀ {s : CoinsStack}, s.Sound ctx → ∀ {hash : Uint256}, s.best ctx = some hash →
    ctx.known hash = true
  | db d, _, hash, h => (Option.filter_eq_some_iff.mp h).2
  | cache c base, hs, hash, h => by
    rcases Option.or_eq_some_iff.mp h with h | ⟨-, h⟩
    · exact hs.2.1 hash h
    · exact hs.2.2.best h

theorem find?_insert_keepable {m : Store Uint256 CCoins}
    (hm : ∀ txid coins, m.find? txid = some coins → coins.Keepable ctx)
    (h : coins.Keepable ctx) (txid' : Uint256) (coins' : CCoins) (h' : (m.insert txid coins).find? txid' = some coins') :
    coins'.Keepable ctx := by
  rw [Store.find?_insert] at h'
  split at h'
  · cases h'
    exact h
  · exact hm txid' coins' h'

theorem sound_getCoins : ∀ {s : CoinsStack}, s.Sound ctx → (s.getCoins ctx txid).2.Sound ctx
  | db _, hs => hs
  | cache c base, hs => by
    have ih := sound_getCoins hs.2.2
    have hfst : (base.getCoins ctx txid).1 = base.lookup ctx txid := getCoins_fst base
    rw [getCoins]
    cases c.cacheCoins.find? txid with
    | some coins => exact hs
    | none =>
      cases hb : base.getCoins ctx txid with
      | mk answer base' =>
        rw [hb] at ih hfst
        cases answer with
        | none => exact ⟨hs.1, hs.2.1, ih⟩
        | some coins => exact ⟨find?_insert_keepable hs.1 (hs.2.2.lookup hfst.symm), hs.2.1, ih⟩

theorem sound_haveCoins {s : CoinsStack} (hs : s.Sound ctx) : (s.haveCoins ctx txid).2.Sound ctx := by
  cases s with
  | db d => exact hs
  | cache c base => exact sound_getCoins hs

theorem sound_getBestBlock : ∀ {s : CoinsStack}, s.Sound ctx → (s.getBestBlock ctx).2.Sound ctx
  | db _, hs => hs
  | cache c base, hs => by
    have ih := sound_getBestBlock hs.2.2
    rw [getBestBlock]
    cases c.pindexTip with
    | some pindex => exact hs
    | none =>
      refine ⟨hs.1, fun hash hhash => hs.2.2.best ?_, ih⟩
      rw [← getBestBlock_fst]
      exact hhash

theorem sound_applyChanges_db {d : CCoinsViewDB} (hs : (db d).Sound ctx) {changes : List (Uint256 × Option Bytes)}
    (h : ∀ txid x, Store.lastChange changes txid = some x → ∃ coins : CCoins, coins.Keepable ctx ∧ x = batchWriteCoins ctx coins)
    (hash : Option Uint256) : (db { coins := d.coins.applyChanges changes, hashBestChain := hash }).Sound ctx := by
  intro txid record hrecord
  rw [Store.find?_applyChanges] at hrecord
  cases hlast : Store.lastChange changes txid with
  | none =>
    rw [hlast] at hrecord
    exact hs txid record hrecord
  | some x =>
    rw [hlast, Option.getD_some] at hrecord
    obtain ⟨coins, hk, hx⟩ := h txid x hlast
    rw [hx, batchWriteCoins] at hrecord
    split at hrecord
    · cases hrecord
    · cases hrecord
      rcases hk with hp | hr
      · contradiction
      · exact ⟨coins, hr, .inr hr⟩

theorem sound_setCoins (h : coins.Keepable ctx) :
    ∀ {s : CoinsStack}, s.Sound ctx → (s.setCoins ctx txid coins).Sound ctx
  | cache _ _, hs => ⟨find?_insert_keepable hs.1 h, hs.2⟩
  | db d, hs => by
    refine sound_applyChanges_db hs (fun txid' x hx => ⟨coins, h, ?_⟩) _
    rw [Store.lastChange, List.reverse_singleton, List.find?_singleton] at hx
    split at hx
    · cases hx
      rfl
    · cases hx

theorem sound_modifyCoins (h : coins.Keepable ctx) {s : CoinsStack} (hs : s.Sound ctx) :
    (s.modifyCoins ctx txid coins).Sound ctx := by
  cases s with
  | db d => exact hs
  | cache c base =>
    have hget : ((cache c base).getCoins ctx txid).2.Sound ctx := sound_getCoins hs
    rw [modifyCoins]
    cases hg : (cache c base).getCoins ctx txid with
    | mk answer t =>
      rw [hg] at hget
      cases answer with
      | none => exact hget
      | some old => exact sound_setCoins h hget

theorem sound_setBestBlock (h : pindex.any ctx.known = true) : ∀ {s : CoinsStack}, s.Sound ctx →
    (s.setBestBlock pindex).Sound ctx
  | db _, hs => hs
  | cache _ _, hs => by
    refine ⟨hs.1, fun hash hhash => ?_, hs.2.2⟩
    rw [show pindex = some hash from hhash] at h
    exact h

theorem sound_batchWrite {mapCoins : Store Uint256 CCoins}
    (h : ∀ txid coins, mapCoins.find? txid = some coins → coins.Keepable ctx)
    (hp : ∀ hash, pindex = some hash → ctx.known hash = true) : ∀ {s : CoinsStack}, s.Sound ctx →
    (s.batchWrite ctx mapCoins pindex).Sound ctx
  | db d, hs => by
    refine sound_applyChanges_db hs (fun txid x hx => ?_) _
    rw [Store.lastChange_entries] at hx
    obtain ⟨coins, hcoins, rfl⟩ := Option.map_eq_some_iff.mp hx
    exact ⟨coins, h txid coins hcoins, rfl⟩
  | cache c base, hs => by
    refine ⟨fun txid coins hcoins => ?_, hp, hs.2.2⟩
    rw [Store.find?_applyChanges, Store.lastChange_entries] at hcoins
    cases hm : mapCoins.find? txid with
    | none =>
      rw [hm] at hcoins
      exact hs.1 txid coins hcoins
    | some coins' =>
      rw [hm] at hcoins
      cases hcoins
      exact h txid _ hm

theorem sound_flush {s : CoinsStack} (hs : s.Sound ctx) : (s.flush ctx).Sound ctx := by
  cases s with
  | db d => exact hs
  | cache c base =>
    refine ⟨fun txid coins h => ?_, hs.2.1, sound_batchWrite hs.1 hs.2.1 hs.2.2⟩
    rw [Store.find?_empty] at h
    cases h

end CoinsStack

end Soundness

/-! ## Runs -/

section Runs

variable {ctx : CoinsContext} {s : CoinsStack}

namespace CoinsStack

/-- A reference is taken from a cache. -/
theorem Legal.of_modifyCoins {n : Nat} {txid : Uint256} {coins : CCoins} (h : s.Legal ctx (.modifyCoins n txid coins)) :
    coins.Keepable ctx ∧ s.Above (fun c => c.cacheCoins.find? txid = none) n ∧
      ∃ c base, s.viewAt n = some (cache c base) ∧
        (((cache c base).lookup ctx txid).any CCoins.unspent = true ∨ coins.isPruned = true) := by
  simp only [Legal] at h
  split at h
  · rename_i c base hat
    exact ⟨h.1, h.2.1, c, base, hat, h.2.2⟩
  · exact h.elim

/-- A cache is flushed. -/
theorem Legal.of_flush {n : Nat} (h : s.Legal ctx (.flush n)) :
    ∃ c base, s.viewAt n = some (cache c base) ∧ c.pindexTip = (cache c base).best ctx := by
  simp only [Legal] at h
  split at h
  · rename_i c base hat
    exact ⟨c, base, hat, h⟩
  · exact h.elim

/-- **Every operation keeps the stack sound.** -/
theorem sound_step (hs : s.Sound ctx) {e : ViewEvent} (h : s.Legal ctx e) : (s.step ctx e).Sound ctx := by
  cases e with
  | getCoins n txid => exact hs.atLevel fun t _ ht => sound_getCoins ht
  | haveCoins n txid => exact hs.atLevel fun t _ ht => sound_haveCoins ht
  | setCoins n txid coins => exact hs.atLevel fun t _ ht => sound_setCoins h.2.1 ht
  | modifyCoins n txid coins => exact hs.atLevel fun t _ ht => sound_modifyCoins h.of_modifyCoins.1 ht
  | getBestBlock n => exact hs.atLevel fun t _ ht => sound_getBestBlock ht
  | setBestBlock n pindex => exact hs.atLevel fun t _ ht => sound_setBestBlock h.2.1 ht
  | flush n => exact hs.atLevel fun t _ ht => sound_flush ht

/-- **Every operation at every level** is the write that it stands for. -/
theorem alike_step (hs : s.Sound ctx) {e : ViewEvent} (h : s.Legal ctx e) :
    ((s.step ctx e).view ctx).Alike ((s.view ctx).write e) := by
  cases e with
  | getCoins n txid => exact alike_atLevel fun t _ => (view_getCoins t).symm ▸ .refl _
  | haveCoins n txid => exact alike_atLevel fun t _ => (view_haveCoins t).symm ▸ .refl _
  | getBestBlock n => exact alike_atLevel fun t _ => (view_getBestBlock t).symm ▸ .refl _
  | setCoins n txid coins =>
    refine alike_atLevel_write (fun c hc view => over_setCoins hc view coins)
      h.1 h.2.2 fun t _ => ⟨?_, best_setCoins t⟩
    rw [getCoins_setCoins_eq]
    exact kept_setCoins h.2.1 t
  | setBestBlock n pindex =>
    refine alike_atLevel_write (fun c hc view => over_setBestBlock hc view pindex)
      h.1 h.2.2 fun t _ => ⟨?_, best_setBestBlock h.2.1 t⟩
    show kept _ ((t.setBestBlock pindex).lookup ctx) = _
    rw [lookup_setBestBlock]
    rfl
  | modifyCoins n txid coins =>
    obtain ⟨hk, habove, c, base, hat, hfound⟩ := h.of_modifyCoins
    refine alike_atLevel_write (fun c hc view => over_setCoins hc view coins)
      (by rw [hat]; rfl) habove fun t ht => ?_
    rw [hat] at ht
    cases ht
    exact alike_modifyCoins hk hfound
  | flush n =>
    obtain ⟨c, base, hat, hbest⟩ := h.of_flush
    refine alike_atLevel fun t ht => ?_
    rw [hat] at ht
    cases ht
    exact alike_flush (hs.viewAt hat) hbest

/-- A run of operations is the list of writes that they stand for. -/
theorem alike_run : ∀ {es : List ViewEvent} {s : CoinsStack}, s.Sound ctx → Run.Meets (step ctx) (Legal ctx) s es →
    (Run.exec (step ctx) s es).Sound ctx ∧
      ((Run.exec (step ctx) s es).view ctx).Alike (es.foldl CCoinsView.write (s.view ctx))
  | [], s, hs, _ => ⟨hs, .refl _⟩
  | e :: es, s, hs, h => by
    obtain ⟨hsound, hrun⟩ := alike_run (sound_step hs h.1) h.2
    exact ⟨hsound, hrun.trans (foldl_write es (alike_step hs h.1))⟩

/-- A sound stack has coins exactly when it answers some. -/
theorem haveCoins_fst {txid : Uint256} (hs : s.Sound ctx) : (s.haveCoins ctx txid).1 = (s.lookup ctx txid).isSome := by
  cases s with
  | cache c base =>
    rw [← getCoins_fst]
    rfl
  | db d =>
    show (d.coins.find? txid).isSome = ((d.coins.find? txid).bind (CCoins.ofRecord ctx.cr ctx.uncompressed)).isSome
    cases hd : d.coins.find? txid with
    | none => rfl
    | some record =>
      obtain ⟨coins, hcoins, -⟩ := hs txid record hd
      rw [Option.bind_some, hcoins]
      rfl

end CoinsStack

/-- **The caches are a map.** After any operations at any level on a sound stack: the top view answers as the map does
that the writes in their order give, coins that are spent entirely counting as none. `HaveCoins` is true wherever the
map has coins, and only where the top view answers some. To flush a cache at any level that holds the best block it
would answer changes no answer of the top view; when it is the top one, the view below answers alone from then on. -/
theorem coinsCaches_refine {es : List ViewEvent} (hs : s.Sound ctx)
    (hlegal : Run.Meets (CoinsStack.step ctx) (CoinsStack.Legal ctx) s es) :
    let top := Run.exec (CoinsStack.step ctx) s es
    let map := es.foldl CCoinsView.write (s.view ctx)
    (∀ txid, (top.getCoins ctx txid).1.filter CCoins.unspent = (map.getCoins txid).filter CCoins.unspent) ∧
    (∀ txid, (top.haveCoins ctx txid).1 = (top.getCoins ctx txid).1.isSome) ∧
    (top.getBestBlock ctx).1 = map.bestBlock ∧
    (∀ n c base, top.viewAt n = some (.cache c base) → c.pindexTip = (CoinsStack.cache c base).best ctx →
      ((top.step ctx (.flush n)).view ctx).Alike (top.view ctx)) ∧
    ∀ c base, top = .cache c base → c.pindexTip = top.best ctx →
      ∃ c' base', top.step ctx (.flush 0) = .cache c' base' ∧ (base'.view ctx).Alike (top.view ctx) := by
  intro top map
  obtain ⟨hsound, halike⟩ : top.Sound ctx ∧ (top.view ctx).Alike map := CoinsStack.alike_run hs hlegal
  refine ⟨fun txid => ?_, fun txid => ?_, ?_, fun n c base hat hbest => ?_, fun c base htop hbest => ?_⟩
  · rw [CoinsStack.getCoins_fst]
    exact congrFun halike.coins txid
  · rw [CoinsStack.haveCoins_fst hsound, CoinsStack.getCoins_fst]
  · rw [CoinsStack.getBestBlock_fst]
    exact halike.best
  · refine CoinsStack.alike_atLevel fun t ht => ?_
    rw [hat] at ht
    cases ht
    exact CoinsStack.alike_flush (hsound.viewAt hat) hbest
  · rw [htop] at hsound hbest ⊢
    exact CoinsStack.alike_base_of_flush hsound hbest

end Runs

/-! ## Runs on two caches -/

/-- A context with the genesis block in the index. -/
def CoinsContext.sample : CoinsContext := ⟨Crypto.sample, id, BlockMap.empty.insert 1 0 {}⟩

/-- Two caches without entries over an empty database. -/
def emptyCaches : CoinsStack := .cache {} (.cache {} (.db {}))

theorem emptyCaches_sound (ctx : CoinsContext) : emptyCaches.Sound ctx :=
  ⟨fun _ _ h => (nomatch h), fun _ h => (nomatch h), fun _ _ h => (nomatch h), fun _ h => (nomatch h), fun _ _ h => (nomatch h)⟩

/-- Coins with one output. -/
def sampleCoins (nValue : Int) : CCoins :=
  { vout := [{ nValue := nValue, scriptPubKey := [opDup] }], nHeight := 7, nVersion := 1, nTime := 1400000000
    cUnit := unitShare }

/-- Coins are written, flushed through both caches and spent. -/
def cachedRun : List ViewEvent :=
  [.setCoins 0 5 (sampleCoins 600), .setBestBlock 0 (some 1), .flush 0, .getBestBlock 1, .flush 1, .getCoins 0 5,
    .setCoins 1 6 (sampleCoins 700), .modifyCoins 0 5 ((sampleCoins 600).spent 0), .haveCoins 0 6, .flush 0]

/-- The run leaves the spent coins out and the others in the lower cache. -/
theorem coinsCaches_refine_sample :
    let top := Run.exec (CoinsStack.step CoinsContext.sample) emptyCaches cachedRun
    let map := cachedRun.foldl CCoinsView.write (emptyCaches.view CoinsContext.sample)
    (map.getCoins 6 = some (sampleCoins 700) ∧ map.getCoins 5 = some ((sampleCoins 600).spent 0) ∧ map.bestBlock = some 1) ∧
    (∀ txid, (top.getCoins CoinsContext.sample txid).1.filter CCoins.unspent = (map.getCoins txid).filter CCoins.unspent) ∧
    (top.getBestBlock CoinsContext.sample).1 = map.bestBlock := by
  intro top map
  have h := @coinsCaches_refine CoinsContext.sample emptyCaches cachedRun (emptyCaches_sound _) (by decide +kernel)
  exact ⟨⟨rfl, rfl, rfl⟩, h.1, h.2.2.1⟩

/-- Where the conditions on the operations fail. Coins written below a cache that has read others stay hidden; a null
best block does not hide one below; a cache that has read a null best block flushes it over one set below since; coins
with a spent output at the end do not come back from their record. -/
theorem caches_hide_writes :
    let after := Run.exec (CoinsStack.step CoinsContext.sample) emptyCaches
    let map := fun es : List ViewEvent => es.foldl CCoinsView.write (emptyCaches.view CoinsContext.sample)
    let hidden := [.setCoins 1 5 (sampleCoins 600), .getCoins 0 5, .setCoins 1 5 (sampleCoins 700)]
    let nullBest := [.setBestBlock 1 (some 1), .setBestBlock 0 none]
    let readBefore := [.getBestBlock 0, .setBestBlock 1 (some 1)]
    let untidy : CCoins := { sampleCoins 600 with vout := (sampleCoins 600).vout ++ [CTxOut.null] }
    let unflushed := [.getBestBlock 0, .setCoins 1 5 untidy]
    (((after hidden).getCoins CoinsContext.sample 5).1 = some (sampleCoins 600) ∧
      (map hidden).getCoins 5 = some (sampleCoins 700)) ∧
    (((after nullBest).getBestBlock CoinsContext.sample).1 = some 1 ∧ (map nullBest).bestBlock = none) ∧
    (((after readBefore).getBestBlock CoinsContext.sample).1 = some 1 ∧
      ((after (readBefore ++ [.flush 0])).getBestBlock CoinsContext.sample).1 = none) ∧
    (((after unflushed).getCoins CoinsContext.sample 5).1 = some untidy ∧
      ((after (unflushed ++ [.flush 1])).getCoins CoinsContext.sample 5).1 = some (sampleCoins 600)) := by
  decide +kernel

end Morcochain
