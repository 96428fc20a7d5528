import Morcochain.Lib.OrderedStore

/-!
# Stores from which the oldest entries are evicted

Every key has an owner and every value a time. A write replaces older values only, and an owner with more entries than
the capacity loses one of the oldest of them.

* `Writes.bounded` : no owner has more entries than the capacity.
* `Writes.notBefore` : **the time of a key does not go back**, not even when its entry is evicted and an older value is
  written again: an owner that has lost an entry stays full, and its entries are not older than the lost one.
-/

set_option autoImplicit false

namespace OrderedStore

universe u v w

variable {κ : Type u} {ν : Type v} {ω : Type w} [LE κ] [LT κ] [DecidableLE κ] [DecidableLT κ] [DecidableEq κ]
  [Std.IsLinearOrder κ] [Std.LawfulOrderLT κ] [DecidableEq ω]

/-! ## The entries of an owner -/

section Owner

variable (owner : κ → ω)

/-- The number of the entries of an owner. -/
def countOf (s : Store κ ν) (o : ω) : Nat := (s.entries.filter fun e => owner e.1 = o).length

variable {owner} {s s' : Store κ ν} {k : κ} {v : ν} {o : ω}

theorem countOf_insert (owner : κ → ω) (s : Store κ ν) (k : κ) (v : ν) (o : ω) :
    countOf owner (s.insert k v) o = countOf owner (s.erase k) o + if owner k = o then 1 else 0 := by
  rw [countOf, ((s.perm_insert k v).filter _).length_eq, List.filter_cons]
  by_cases ho : owner k = o
  · rw [if_pos (by simpa using ho), if_pos ho, List.length_cons]
    rfl
  · rw [if_neg (by simpa using ho), if_neg ho]
    rfl

/-- The count, with and without one of the entries. -/
theorem countOf_eq (owner : κ → ω) (h : s.find? k = some v) (o : ω) :
    countOf owner s o = countOf owner (s.erase k) o + if owner k = o then 1 else 0 := by
  have := countOf_insert owner (s.erase k) k v o
  rw [Store.insert_erase h] at this
  rw [this]
  congr 2
  refine Store.ext_find? fun k' => ?_
  rw [Store.find?_erase, Store.find?_erase]
  split <;> rfl

theorem countOf_erase_of_none (h : s.find? k = none) (o : ω) : countOf owner (s.erase k) o = countOf owner s o := by
  congr 1
  refine Store.ext_find? fun k' => ?_
  rw [Store.find?_erase]
  split
  · rename_i hk
    rw [hk, h]
  · rfl

/-- The writing of an entry, when it replaces another one and when it does not. -/
theorem countOf_insert_of_some (h : s.find? k = some v) (v' : ν) (o : ω) :
    countOf owner (s.insert k v') o = countOf owner s o := by rw [countOf_insert, countOf_eq owner h]

theorem countOf_insert_of_none (h : s.find? k = none) (v : ν) (o : ω) :
    countOf owner (s.insert k v) o = countOf owner s o + if owner k = o then 1 else 0 := by
  rw [countOf_insert, countOf_erase_of_none h]

end Owner

/-! ## Writes -/

section Writes

variable (owner : κ → ω) (time : ν → Int) (capacity : Nat)

/-- One of the oldest entries of its owner. -/
structure IsOldest (s : Store κ ν) (k : κ) (v : ν) : Prop where
  entry : s.find? k = some v
  least : ∀ k' v', owner k' = owner k → s.find? k' = some v' → time v ≤ time v'

/-- A write: a newer value, after which the owner is within the capacity or loses an oldest entry. -/
structure Writes (s : Store κ ν) (k : κ) (v : ν) (s' : Store κ ν) : Prop where
  newer : ∀ v', s.find? k = some v' → time v' < time v
  evicts : (countOf owner (s.insert k v) (owner k) ≤ capacity ∧ s' = s.insert k v) ∨
    (capacity < countOf owner (s.insert k v) (owner k) ∧ ∃ old w, owner old = owner k ∧
      IsOldest owner time (s.insert k v) old w ∧ s' = (s.insert k v).erase old)

/-- No owner has more entries than the capacity. -/
def Bounded (s : Store κ ν) : Prop := ∀ o, countOf owner s o ≤ capacity

/-- A key is not written again with a time before `t`: its value is not older, or it has none, and the owner is full of
entries that are not older. -/
def NotBefore (t : Int) (k : κ) (s : Store κ ν) : Prop :=
  match s.find? k with
  | some v => t ≤ time v
  | none => capacity ≤ countOf owner s (owner k) ∧ ∀ k' v', owner k' = owner k → s.find? k' = some v' → t ≤ time v'

variable {owner time capacity} {s s' : Store κ ν} {k : κ} {v : ν}

/-- The entries of the other owners are untouched. -/
theorem Writes.untouched (h : Writes owner time capacity s k v s') {k' : κ} (hk : owner k' ≠ owner k) :
    s'.find? k' = s.find? k' := by
  have hne : k' ≠ k := fun heq => hk (heq ▸ rfl)
  rcases h.evicts with ⟨-, rfl⟩ | ⟨-, old, w, hold, -, rfl⟩
  · rw [Store.find?_insert, if_neg hne]
  · rw [Store.find?_erase, if_neg fun heq : k' = old => hk (heq ▸ hold), Store.find?_insert, if_neg hne]

/-- What is found after a write was there before, or is written. -/
theorem Writes.find?_eq (h : Writes owner time capacity s k v s') {k' : κ} {v' : ν} (hfind : s'.find? k' = some v') :
    s.find? k' = some v' ∨ v' = v := by
  have hinsert : (s.insert k v).find? k' = some v' := by
    rcases h.evicts with ⟨-, rfl⟩ | ⟨-, old, w, -, -, rfl⟩
    · exact hfind
    · rw [Store.find?_erase] at hfind
      split at hfind
      · cases hfind
      · exact hfind
  rw [Store.find?_insert] at hinsert
  split at hinsert
  · exact Or.inr (Option.some.inj hinsert).symm
  · exact Or.inl hinsert

/-- What is lost in a write is one of the oldest entries of the owner. -/
theorem Writes.lost (h : Writes owner time capacity s k v s') {k' : κ} {v' : ν}
    (hwritten : (s.insert k v).find? k' = some v') (hlost : s'.find? k' ≠ some v') :
    owner k' = owner k ∧ IsOldest owner time (s.insert k v) k' v' := by
  rcases h.evicts with ⟨-, rfl⟩ | ⟨-, old, w, hold, holdest, rfl⟩
  · exact absurd hwritten hlost
  · rw [Store.find?_erase] at hlost
    by_cases hk : k' = old
    · subst hk
      obtain rfl : w = v' := Option.some.inj (holdest.entry.symm.trans hwritten)
      exact ⟨hold, holdest⟩
    · rw [if_neg hk] at hlost
      exact absurd hwritten hlost

/-- The other owners have as many entries as before. -/
theorem Writes.countOf_other (h : Writes owner time capacity s k v s') {o : ω} (ho : owner k ≠ o) :
    countOf owner s' o = countOf owner s o := by
  have hinsert : countOf owner (s.insert k v) o = countOf owner s o := by
    cases hfind : s.find? k with
    | none => rw [countOf_insert_of_none hfind, if_neg ho, Nat.add_zero]
    | some v' => rw [countOf_insert_of_some hfind]
  rcases h.evicts with ⟨-, rfl⟩ | ⟨-, old, w, hold, holdest, rfl⟩
  · exact hinsert
  · have hcount := countOf_eq owner holdest.entry o
    rw [if_neg (by rwa [hold])] at hcount
    omega

/-- **No owner has more entries than the capacity.** -/
theorem Writes.bounded (h : Writes owner time capacity s k v s') (hs : Bounded owner capacity s) :
    Bounded owner capacity s' := by
  intro o
  by_cases ho : owner k = o
  · subst ho
    rcases h.evicts with ⟨hle, rfl⟩ | ⟨-, old, w, hold, holdest, rfl⟩
    · exact hle
    · have hcount := countOf_eq owner holdest.entry (owner k)
      rw [if_pos hold] at hcount
      have hsize := hs (owner k)
      cases hfind : s.find? k with
      | none =>
        rw [countOf_insert_of_none hfind, if_pos rfl] at hcount
        omega
      | some v' =>
        rw [countOf_insert_of_some hfind] at hcount
        omega
  · rw [h.countOf_other ho]
    exact hs o

/-- When an entry is lost, its owner is left full. -/
theorem full_of_evicted {old : κ} {w : ν} (hcount : capacity < countOf owner s (owner old))
    (hold : s.find? old = some w) :
    capacity ≤ countOf owner (s.erase old) (owner old) := by
  rw [countOf_eq owner hold, if_pos rfl] at hcount
  omega

/-- A write keeps an owner full, and the lower bound of its entries. -/
theorem Writes.full (h : Writes owner time capacity s k v s') {t : Int} {o : ω} (hfull : capacity ≤ countOf owner s o)
    (hle : ∀ k' v', owner k' = o → s.find? k' = some v' → t ≤ time v') :
    capacity ≤ countOf owner s' o ∧ ∀ k' v', owner k' = o → s'.find? k' = some v' → t ≤ time v' := by
  by_cases ho : owner k = o
  · subst ho
    rcases h.evicts with ⟨hcount, rfl⟩ | ⟨hcount, old, w, hold, holdest, rfl⟩
    · -- the owner is full, so the entry was there already
      cases hfind : s.find? k with
      | none =>
        rw [countOf_insert_of_none hfind, if_pos rfl] at hcount
        omega
      | some v₀ =>
        refine ⟨by rwa [countOf_insert_of_some hfind], fun k' v' hk' hfind' => ?_⟩
        rw [Store.find?_insert] at hfind'
        split at hfind'
        · cases hfind'
          exact Int.le_trans (hle k v₀ rfl hfind) (Int.le_of_lt (h.newer v₀ hfind))
        · exact hle k' v' hk' hfind'
    · refine ⟨?_, fun k' v' hk' hfind' => ?_⟩
      · rw [← hold]
        rw [← hold] at hcount
        exact full_of_evicted hcount holdest.entry
      · rw [Store.find?_erase, Store.find?_insert] at hfind'
        split at hfind'
        · cases hfind'
        · rename_i hne
          split at hfind'
          · -- the new entry is kept, so it is not older than the one that is lost
            rename_i hkk
            cases hfind'
            have hlost := holdest.entry
            rw [Store.find?_insert, if_neg fun heq : old = k => hne (hkk.trans heq.symm)] at hlost
            have hkept : (s.insert k v).find? k = some v := by rw [Store.find?_insert, if_pos rfl]
            exact Int.le_trans (hle old w hold hlost) (holdest.least k v hold.symm hkept)
          · exact hle k' v' hk' hfind'
  · have hsame : ∀ k', owner k' = o → s'.find? k' = s.find? k' := fun k' hk' =>
      h.untouched fun heq => ho (heq.symm.trans hk')
    refine ⟨?_, fun k' v' hk' hfind => hle k' v' hk' (hsame k' hk' ▸ hfind)⟩
    rwa [h.countOf_other ho]

/-- **The time of a key does not go back.** -/
theorem Writes.notBefore (h : Writes owner time capacity s k v s') {t : Int} {k₀ : κ}
    (hs : NotBefore owner time capacity t k₀ s) : NotBefore owner time capacity t k₀ s' := by
  unfold NotBefore at hs ⊢
  cases hfind : s.find? k₀ with
  | none =>
    rw [hfind] at hs
    obtain ⟨hfull, hle⟩ := h.full hs.1 hs.2
    cases hfind' : s'.find? k₀ with
    | none => exact ⟨hfull, hle⟩
    | some v' => exact hle k₀ v' rfl hfind'
  | some v₀ =>
    rw [hfind] at hs
    -- the write leaves a value that is not older
    obtain ⟨v₁, hwritten, hnewer⟩ : ∃ v₁, (s.insert k v).find? k₀ = some v₁ ∧ t ≤ time v₁ := by
      rw [Store.find?_insert]
      split
      · rename_i heq
        exact ⟨v, rfl, Int.le_trans hs (Int.le_of_lt (h.newer v₀ (heq ▸ hfind)))⟩
      · exact ⟨v₀, hfind, hs⟩
    rcases h.evicts with ⟨-, rfl⟩ | ⟨hcount, old, w, hold, holdest, rfl⟩
    · rw [hwritten]
      exact hnewer
    · by_cases hk₀ : k₀ = old
      · subst hk₀
        rw [Store.find?_erase, if_pos rfl]
        obtain rfl : w = v₁ := Option.some.inj (holdest.entry.symm.trans hwritten)
        refine ⟨full_of_evicted (hold ▸ hcount) hwritten, fun k' v' hk' hfind' => ?_⟩
        rw [Store.find?_erase] at hfind'
        split at hfind'
        · cases hfind'
        · exact Int.le_trans hnewer (holdest.least k' v' hk' hfind')
      · rw [Store.find?_erase, if_neg hk₀, hwritten]
        exact hnewer

end Writes

end OrderedStore
