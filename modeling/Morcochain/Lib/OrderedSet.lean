import Morcochain.Lib.OrderedStore

/-!
# Ordered sets and numbers of entries

The number of the entries of a store that meet a condition, the change of one entry, and a set that is iterated in
order, as a store without values.

* `countP_insert`, `countP_erase`, `countP_modify` : what a write changes about a number of entries.
* `contains_insert`, `contains_erase`, `size_insert`, `size_erase` : the set as a set.
-/

set_option autoImplicit false
set_option linter.unusedSectionVars false

namespace OrderedStore

universe u v

variable {κ : Type u} {ν : Type v} [LE κ] [LT κ] [DecidableLE κ] [DecidableLT κ] [DecidableEq κ]

/-! ## Numbers of entries -/

namespace Store

variable [Std.IsLinearOrder κ] [Std.LawfulOrderLT κ] {s : Store κ ν} {k : κ} {v : ν}

theorem erase_of_none (h : s.find? k = none) : s.erase k = s := by
  refine ext_find? fun k' => ?_
  rw [find?_erase]
  split
  · rename_i hk
    rw [hk, h]
  · rfl

/-- An entry that is written counts beside the entries of the other keys. -/
theorem countP_insert (p : κ × ν → Bool) (s : Store κ ν) (k : κ) (v : ν) :
    (s.insert k v).entries.countP p = (s.erase k).entries.countP p + if p (k, v) then 1 else 0 := by
  rw [(s.perm_insert k v).countP_eq, List.countP_cons]

/-- An entry counts for itself. -/
theorem countP_erase (p : κ × ν → Bool) (h : s.find? k = some v) :
    s.entries.countP p = (s.erase k).entries.countP p + if p (k, v) then 1 else 0 := by
  have herase : (s.erase k).erase k = s.erase k := erase_of_none (by rw [find?_erase, if_pos rfl])
  have := countP_insert p (s.erase k) k v
  rwa [insert_erase h, herase] at this

/-- A new key makes the store larger by one. -/
theorem length_insert (h : s.find? k = none) : (s.insert k v).entries.length = s.entries.length + 1 := by
  rw [(s.perm_insert k v).length_eq, List.length_cons, erase_of_none h]

/-- A store in which nothing is found is empty. -/
theorem length_eq_zero (h : ∀ k, s.find? k = none) : s.entries.length = 0 := by
  rw [List.length_eq_zero_iff, List.eq_nil_iff_forall_not_mem]
  rintro ⟨k, v⟩ hmem
  have hfind := h k
  rw [find?_eq_some.mpr hmem] at hfind
  cases hfind

/-- Change the value of a key, if there is one. -/
def modify (s : Store κ ν) (k : κ) (f : ν → ν) : Store κ ν :=
  match s.find? k with
  | none => s
  | some v => s.insert k (f v)

theorem find?_modify (s : Store κ ν) (k k' : κ) (f : ν → ν) :
    (s.modify k f).find? k' = if k' = k then (s.find? k').map f else s.find? k' := by
  unfold modify
  cases h : s.find? k with
  | none =>
    dsimp only
    split
    · rename_i hk
      rw [hk, h]
      rfl
    · rfl
  | some v =>
    dsimp only
    rw [find?_insert]
    split
    · rename_i hk
      rw [hk, h]
      rfl
    · rfl

/-- A value that is changed counts as before, or not. -/
theorem countP_modify (p : κ × ν → Bool) (f : ν → ν) (h : s.find? k = some v) :
    (s.modify k f).entries.countP p + (if p (k, v) then 1 else 0) =
      s.entries.countP p + if p (k, f v) then 1 else 0 := by
  unfold modify
  rw [h]
  dsimp only
  rw [countP_insert, countP_erase p h]
  omega

end Store

/-! ## Sets -/

/-- A set that is iterated in order. -/
abbrev OrderedSet (κ : Type u) [LT κ] := Store κ Unit

namespace OrderedSet

/-- The elements, in order. -/
def elems (s : OrderedSet κ) : List κ := s.entries.map (·.1)

/-- The set holds the element. -/
def contains (s : OrderedSet κ) (k : κ) : Bool := (s.find? k).isSome

def size (s : OrderedSet κ) : Nat := s.entries.length

variable [Std.IsLinearOrder κ] [Std.LawfulOrderLT κ] {s : OrderedSet κ} {k k' : κ}

theorem mem_elems : k ∈ elems s ↔ contains s k = true := by
  unfold elems contains
  rw [Option.isSome_iff_exists, List.mem_map]
  constructor
  · rintro ⟨⟨k', u⟩, hmem, rfl⟩
    exact ⟨u, Store.find?_eq_some.mpr hmem⟩
  · rintro ⟨u, hfind⟩
    exact ⟨(k, u), Store.find?_eq_some.mp hfind, rfl⟩

theorem sorted_elems (s : OrderedSet κ) : (elems s).Pairwise (· < ·) := s.sorted.map _ fun _ _ h => h

theorem nodup_elems (s : OrderedSet κ) : (elems s).Nodup := by
  refine (sorted_elems s).imp (S := fun a b => a ≠ b) fun {a b} hlt heq => ?_
  rw [heq] at hlt
  exact Std.lt_irrefl hlt

theorem contains_empty (k : κ) : contains (Store.empty : OrderedSet κ) k = false := rfl

theorem contains_insert (s : OrderedSet κ) (k k' : κ) :
    contains (s.insert k ()) k' = (decide (k' = k) || contains s k') := by
  unfold contains
  rw [Store.find?_insert]
  by_cases h : k' = k <;> simp [h]

theorem contains_erase (s : OrderedSet κ) (k k' : κ) :
    contains (s.erase k) k' = (decide (k' ≠ k) && contains s k') := by
  unfold contains
  rw [Store.find?_erase]
  by_cases h : k' = k <;> simp [h]

/-- **An element that is put in** makes the set larger by one. -/
theorem size_insert (h : contains s k = false) : size (s.insert k ()) = size s + 1 :=
  Store.length_insert (Option.isSome_eq_false_iff.mp h |> Option.isNone_iff_eq_none.mp)

theorem size_eq_zero (h : ∀ k, contains s k = false) : size s = 0 :=
  Store.length_eq_zero fun k => Option.isSome_eq_false_iff.mp (h k) |> Option.isNone_iff_eq_none.mp

/-- An element is listed once. -/
theorem count_elems (s : OrderedSet κ) (k : κ) : (elems s).count k = if contains s k = true then 1 else 0 := by
  rw [(nodup_elems s).count]
  exact if_congr mem_elems rfl rfl

/-- **An element that is taken out** makes the set smaller by one. -/
theorem size_erase (h : contains s k = true) : size s = size (s.erase k) + 1 := by
  obtain ⟨u, hu⟩ := Option.isSome_iff_exists.mp h
  have hcount := Store.countP_erase (fun _ => true) hu
  unfold size
  simpa only [List.countP_true, if_pos] using hcount

theorem size_erase_le (s : OrderedSet κ) (k : κ) : size (s.erase k) ≤ size s := List.length_filter_le ..

theorem size_insert_le (s : OrderedSet κ) (k : κ) : size (s.insert k ()) ≤ size s + 1 := by
  refine le_trans (le_of_eq ?_) (Nat.succ_le_succ (size_erase_le s k))
  unfold size
  rw [(s.perm_insert k ()).length_eq, List.length_cons]

/-- The elements are those of the set, without order. -/
theorem length_elems (s : OrderedSet κ) : (elems s).length = size s := List.length_map ..

end OrderedSet

end OrderedStore
