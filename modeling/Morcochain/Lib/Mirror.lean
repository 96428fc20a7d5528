import Mathlib

/-!
# Tables that mirror a list

Some members of a list have a key. A table with one record for each of them is kept up to date when members are taken
off the front of the list and others are put there.

* `Mirrors.eraseKey`, `Mirrors.writeKey` : one member is taken off, one is put in front.
* `Mirrors.switch` : **a table that mirrors one list mirrors the other one** after the records of what is above their
  common end were erased, and those of the other list were written.
* `Mirrors.unique` : two tables that mirror the same list are the same.
-/

set_option autoImplicit false

namespace Mirror

universe u v w x

variable {β : Type u} {κ : Type v} {ν : Type w} [DecidableEq κ] (key : β → Option κ) (val : β → ν)

/-- Erase the record of a member. -/
def eraseKey (t : κ → Option ν) (b : β) : κ → Option ν :=
  match key b with
  | none => t
  | some k => Function.update t k none

/-- Write the record of a member. -/
def writeKey (t : κ → Option ν) (b : β) : κ → Option ν :=
  match key b with
  | none => t
  | some k => Function.update t k (some (val b))

/-- The records are exactly those of the members. -/
def Mirrors (t : κ → Option ν) (l : List β) : Prop :=
  ∀ k v, t k = some v ↔ ∃ b ∈ l, key b = some k ∧ val b = v

/-- No two members have the same key. -/
def DistinctKeys (l : List β) : Prop := l.Pairwise fun a b => ∀ k, key a = some k → key b ≠ some k

variable {key val} {t : κ → Option ν} {l : List β} {b : β}

theorem eraseKey_of_none (hb : key b = none) : eraseKey key t b = t := by rw [eraseKey, hb]

theorem eraseKey_of_some {k : κ} (hb : key b = some k) : eraseKey key t b = Function.update t k none := by
  rw [eraseKey, hb]

theorem writeKey_of_none (hb : key b = none) : writeKey key val t b = t := by rw [writeKey, hb]

theorem writeKey_of_some {k : κ} (hb : key b = some k) :
    writeKey key val t b = Function.update t k (some (val b)) := by rw [writeKey, hb]

omit [DecidableEq κ] in
theorem mirrors_nil (h : ∀ k, t k = none) : Mirrors key val t [] := by
  intro k v
  simp [h k]

/-- The first member is taken off. -/
theorem Mirrors.eraseKey (h : Mirrors key val t (b :: l)) (hkeys : DistinctKeys key (b :: l)) :
    Mirrors key val (eraseKey key t b) l := by
  intro k v
  have hother := (List.pairwise_cons.mp hkeys).1
  cases hb : key b with
  | none =>
    rw [eraseKey_of_none hb, h k v]
    simp [hb]
  | some k' =>
    rw [eraseKey_of_some hb]
    by_cases hk : k = k'
    · subst hk
      rw [Function.update_self]
      refine iff_of_false nofun ?_
      rintro ⟨a, ha, hak, -⟩
      exact hother a ha k hb hak
    · rw [Function.update_of_ne hk, h k v]
      simp [hb, Ne.symm hk]

/-- A member is put in front. -/
theorem Mirrors.writeKey (h : Mirrors key val t l) (hkeys : DistinctKeys key (b :: l)) :
    Mirrors key val (writeKey key val t b) (b :: l) := by
  intro k v
  have hother := (List.pairwise_cons.mp hkeys).1
  cases hb : key b with
  | none =>
    rw [writeKey_of_none hb, h k v]
    simp [hb]
  | some k' =>
    rw [writeKey_of_some hb]
    by_cases hk : k = k'
    · subst hk
      rw [Function.update_self, Option.some.injEq]
      refine ⟨fun hv => ⟨b, List.mem_cons_self, hb, hv⟩, ?_⟩
      rintro ⟨a, ha, hak, hv⟩
      rcases List.mem_cons.mp ha with rfl | ha
      · exact hv
      · exact absurd hak (hother a ha k hb)
    · rw [Function.update_of_ne hk, h k v]
      simp [hb, Ne.symm hk]

/-- What is above the common end is taken off. -/
theorem Mirrors.eraseAll {above base : List β} (h : Mirrors key val t (above ++ base))
    (hkeys : DistinctKeys key (above ++ base)) : Mirrors key val (above.foldl (Mirror.eraseKey key) t) base := by
  induction above generalizing t with
  | nil => exact h
  | cons b above ih =>
    rw [List.cons_append] at h hkeys
    exact ih (h.eraseKey hkeys) (List.pairwise_cons.mp hkeys).2

/-- What is above the common end is put there, from the lowest member on. -/
theorem Mirrors.writeAll {new base : List β} (h : Mirrors key val t base)
    (hkeys : DistinctKeys key (new.reverse ++ base)) :
    Mirrors key val (new.foldl (Mirror.writeKey key val) t) (new.reverse ++ base) := by
  induction new generalizing t base with
  | nil => exact h
  | cons b new ih =>
    rw [List.reverse_cons, List.append_assoc, List.singleton_append] at hkeys ⊢
    exact ih (h.writeKey (List.pairwise_append.mp hkeys).2.1) hkeys

/-- **A table that mirrors one list mirrors the other one** once the records above their common end were replaced. -/
theorem Mirrors.switch {above new base : List β} (h : Mirrors key val t (above ++ base))
    (hkeys : DistinctKeys key (above ++ base)) (hkeys' : DistinctKeys key (new.reverse ++ base)) :
    Mirrors key val (new.foldl (Mirror.writeKey key val) (above.foldl (Mirror.eraseKey key) t)) (new.reverse ++ base) :=
  (h.eraseAll hkeys).writeAll hkeys'

omit [DecidableEq κ] in
/-- Two tables that mirror the same list are the same. -/
theorem Mirrors.unique {t' : κ → Option ν} (h : Mirrors key val t l) (h' : Mirrors key val t' l) : t = t' := by
  funext k
  apply Option.ext
  intro v
  exact (h k v).trans (h' k v).symm

omit [DecidableEq κ] in
/-- The list may be replaced by one whose members have the same keys and values. -/
theorem Mirrors.congr {γ : Type x} {f : β → γ} {l' : List β} (hf : ∀ a b, f a = f b → key a = key b ∧ val a = val b)
    (hl : l'.map f = l.map f) (h : Mirrors key val t l) : Mirrors key val t l' := by
  have hsub : ∀ {l₁ l₂ : List β}, l₁.map f = l₂.map f → ∀ a ∈ l₁, ∃ b ∈ l₂, key b = key a ∧ val b = val a := by
    intro l₁ l₂ heq a ha
    have hmem : f a ∈ l₂.map f := heq ▸ List.mem_map_of_mem ha
    obtain ⟨b, hb, hfb⟩ := List.mem_map.mp hmem
    exact ⟨b, hb, hf b a hfb⟩
  intro k v
  rw [h k v]
  constructor
  · rintro ⟨a, ha, hk, hv⟩
    obtain ⟨b, hb, hkb, hvb⟩ := hsub hl.symm a ha
    exact ⟨b, hb, hkb.trans hk, hvb.trans hv⟩
  · rintro ⟨a, ha, hk, hv⟩
    obtain ⟨b, hb, hkb, hvb⟩ := hsub hl a ha
    exact ⟨b, hb, hkb.trans hk, hvb.trans hv⟩

end Mirror
