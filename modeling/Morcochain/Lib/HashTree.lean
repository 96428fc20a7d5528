import Mathlib

/-!
# Trees of hashes over a list

Neighbours are combined level by level; the last entry of a level of odd length is combined with itself. An entry of a
level is known by its height above the list and its place in the level.

* `above` : the level above a level.
* `iterate_above` : **the entries of each level**, by recursion on the height.
* `above_half` : an entry and its sibling give the entry above both.
* `places` : the places of the list that are below an entry.
* `prunedFlags`, `prunedHashes` : what is written for a tree of which only some places are of interest.
-/

set_option autoImplicit false

namespace HashTree

universe u

variable {α : Type u}

/-! ## Widths -/

/-- The number of entries at a height above a list of a length. -/
def width (n h : Nat) : Nat := (n + 2 ^ h - 1) / 2 ^ h

theorem width_zero (n : Nat) : width n 0 = n := by
  rw [width, pow_zero, Nat.div_one, Nat.add_sub_cancel]

theorem width_succ (n h : Nat) : width n (h + 1) = (width n h + 1) / 2 := by
  have hpos : 0 < 2 ^ h := Nat.two_pow_pos h
  have hsum : n + 2 ^ (h + 1) - 1 = n + 2 ^ h - 1 + 2 ^ h := by
    rw [pow_succ]
    omega
  rw [width, width, hsum, pow_succ, ← Nat.div_div_eq_div_mul, Nat.add_div_right _ hpos]

/-- An entry exists when the first place below it does. -/
theorem lt_width {n h pos : Nat} : pos < width n h ↔ pos * 2 ^ h < n := by
  have hpos : 0 < 2 ^ h := Nat.two_pow_pos h
  rw [width, Nat.lt_iff_add_one_le, Nat.le_div_iff_mul_le hpos, Nat.succ_mul]
  omega

theorem width_pos {n h : Nat} (hn : 0 < n) : 0 < width n h := lt_width.mpr (by omega)

/-- The widths fall to one. -/
theorem width_le_one {n h : Nat} : width n h ≤ 1 ↔ n ≤ 2 ^ h := by
  have hiff := @lt_width n h 1
  rw [one_mul] at hiff
  omega

/-! ## Levels -/

section Levels

variable (pair : α → α → α)

/-- The level above a level. -/
def above : List α → List α
  | [] => []
  | [a] => [pair a a]
  | a :: b :: l => pair a b :: above l

theorem length_above : ∀ l : List α, (above pair l).length = (l.length + 1) / 2
  | [] => by simp [above]
  | [_] => by simp [above]
  | _ :: _ :: l => by
    rw [above, List.length_cons, length_above l, List.length_cons, List.length_cons]
    omega

/-- An entry comes from the two entries below it, or twice from the one. -/
theorem getElem?_above : ∀ (l : List α) (p : Nat),
    (above pair l)[p]? = (l[2 * p]?).map fun a => pair a ((l[2 * p + 1]?).getD a)
  | [], _ => rfl
  | [_], 0 => rfl
  | [_], _ + 1 => rfl
  | _ :: _ :: _, 0 => rfl
  | _ :: _ :: l, p + 1 => by
    rw [above, List.getElem?_cons_succ, getElem?_above l p, show 2 * (p + 1) = 2 * p + 1 + 1 from rfl,
      show 2 * p + 1 + 1 + 1 = (2 * p + 1) + 1 + 1 from rfl]
    simp only [List.getElem?_cons_succ]

/-- The entry at a height and a place, over a list of length `n`. -/
def node (leaf : Nat → α) (n : Nat) : Nat → Nat → α
  | 0, pos => leaf pos
  | h + 1, pos =>
    pair (node leaf n h (2 * pos))
      (if 2 * pos + 1 < width n h then node leaf n h (2 * pos + 1) else node leaf n h (2 * pos))

/-- **The entries of each level.** -/
theorem iterate_above (leaf : Nat → α) (n : Nat) : ∀ h : Nat,
    (above pair)^[h] ((List.range n).map leaf) = (List.range (width n h)).map (node pair leaf n h)
  | 0 => by rw [width_zero]; rfl
  | h + 1 => by
    rw [Function.iterate_succ_apply', iterate_above leaf n h]
    apply List.ext_getElem?
    intro p
    rw [getElem?_above, width_succ]
    simp only [List.getElem?_map]
    by_cases hp : 2 * p < width n h
    · have hlt : p < (width n h + 1) / 2 := by omega
      rw [List.getElem?_range hp, List.getElem?_range hlt]
      simp only [Option.map_some, node]
      split
      · rename_i hsibling
        rw [List.getElem?_range hsibling, Option.map_some, Option.getD_some]
      · rename_i hlast
        rw [List.getElem?_eq_none (by rw [List.length_range]; omega), Option.map_none, Option.getD_none]
    · rw [List.getElem?_eq_none (l := List.range (width n h)) (i := 2 * p) (by rw [List.length_range]; omega),
        List.getElem?_eq_none (l := List.range ((width n h + 1) / 2)) (by rw [List.length_range]; omega)]
      rfl

/-- The sibling of a place in a level. -/
def sibling (length i : Nat) : Nat := min (i ^^^ 1) (length - 1)

theorem xor_one (i : Nat) : i ^^^ 1 = if i % 2 = 1 then i - 1 else i + 1 := by
  have hodd : i % 2 = 0 ∨ i % 2 = 1 := Nat.mod_two_eq_zero_or_one i
  rcases hodd with h | h
  · rw [if_neg (by omega), Nat.xor_one_of_even (Nat.even_iff.mpr h)]
  · rw [if_pos h, Nat.xor_one_of_odd (Nat.odd_iff.mpr h)]

/-- **An entry and its sibling** give the entry above both. -/
theorem above_half {l : List α} {i : Nat} {a : α} (ha : l[i]? = some a) : ∃ b, l[sibling l.length i]? = some b ∧
    (above pair l)[i / 2]? = some (if i % 2 = 1 then pair b a else pair a b) := by
  obtain ⟨hi, -⟩ := List.getElem?_eq_some_iff.mp ha
  rw [getElem?_above, sibling, xor_one]
  by_cases hodd : i % 2 = 1
  · simp only [if_pos hodd]
    rw [min_eq_left (by omega), show 2 * (i / 2) = i - 1 by omega,
      show i - 1 + 1 = i by omega, ha]
    exact ⟨_, List.getElem?_eq_getElem (by omega), by rw [List.getElem?_eq_getElem (by omega)]; rfl⟩
  · simp only [if_neg hodd]
    rw [show 2 * (i / 2) = i by omega, ha]
    by_cases hlast : i + 1 < l.length
    · rw [min_eq_left (by omega)]
      exact ⟨_, List.getElem?_eq_getElem hlast, by rw [List.getElem?_eq_getElem hlast]; rfl⟩
    · rw [min_eq_right (by omega), show l.length - 1 = i by omega, ha, List.getElem?_eq_none (by omega)]
      exact ⟨a, rfl, rfl⟩

end Levels

/-! ## Pruned trees -/

/-- The places of the list that are below an entry. -/
def places (n h pos : Nat) : List Nat := List.range' (pos * 2 ^ h) (min ((pos + 1) * 2 ^ h) n - pos * 2 ^ h)

theorem places_zero {n pos : Nat} (hpos : pos < n) : places n 0 pos = [pos] := by
  rw [places, pow_zero, mul_one, mul_one, min_eq_left hpos, Nat.add_sub_cancel_left]
  rfl

/-- The places below an entry are those below the two entries under it. -/
theorem places_succ (n h pos : Nat) : places n (h + 1) pos =
    places n h (2 * pos) ++ if 2 * pos + 1 < width n h then places n h (2 * pos + 1) else [] := by
  have hstart : pos * 2 ^ (h + 1) = 2 * pos * 2 ^ h := by ring
  have hmid : (2 * pos + 1) * 2 ^ h = 2 * pos * 2 ^ h + 2 ^ h := by ring
  have hend : (pos + 1) * 2 ^ (h + 1) = 2 * pos * 2 ^ h + 2 ^ h + 2 ^ h := by ring
  have hend' : (2 * pos + 1 + 1) * 2 ^ h = 2 * pos * 2 ^ h + 2 ^ h + 2 ^ h := by ring
  unfold places
  simp only [lt_width, hstart, hmid, hend, hend']
  generalize 2 * pos * 2 ^ h = first
  generalize 2 ^ h = size
  split
  · rw [show min (first + size) n - first = size by omega, show first + size = first + 1 * size by rw [one_mul],
      List.range'_append]
    congr 1
    omega
  · rw [List.append_nil]
    congr 1
    omega

theorem length_places_pos {n h pos : Nat} (hpos : pos < width n h) : 0 < (places n h pos).length := by
  have hsize : 0 < 2 ^ h := Nat.two_pow_pos h
  rw [lt_width] at hpos
  rw [places, List.length_range', Nat.succ_mul]
  omega

theorem mem_places_lt {n h pos p : Nat} (hp : p ∈ places n h pos) : p < n := by
  rw [places, List.mem_range'_1] at hp
  omega

/-- The places below the root are all places. -/
theorem places_root {n h : Nat} (hroot : width n h ≤ 1) : places n h 0 = List.range n := by
  rw [places, zero_mul, zero_add, one_mul, min_eq_right (width_le_one.mp hroot), Nat.sub_zero, List.range_eq_range']

section Pruned

variable (pair : α → α → α) (leaf : Nat → α) (mask : Nat → Bool) (n : Nat)

/-- For each entry that is visited, whether a place of interest is below it. What is below the others is not visited. -/
def prunedFlags : Nat → Nat → List Bool
  | 0, pos => [(places n 0 pos).any mask]
  | h + 1, pos =>
    (places n (h + 1) pos).any mask ::
      if (places n (h + 1) pos).any mask then
        prunedFlags h (2 * pos) ++ if 2 * pos + 1 < width n h then prunedFlags h (2 * pos + 1) else []
      else []

/-- The entries at which a visit ends. -/
def prunedHashes : Nat → Nat → List α
  | 0, pos => [node pair leaf n 0 pos]
  | h + 1, pos =>
    if (places n (h + 1) pos).any mask then
      prunedHashes h (2 * pos) ++ if 2 * pos + 1 < width n h then prunedHashes h (2 * pos + 1) else []
    else [node pair leaf n (h + 1) pos]

/-- The leaves of interest below an entry. -/
def marked (h pos : Nat) : List α := ((places n h pos).filter mask).map leaf

theorem marked_succ (h pos : Nat) : marked leaf mask n (h + 1) pos = marked leaf mask n h (2 * pos) ++
    if 2 * pos + 1 < width n h then marked leaf mask n h (2 * pos + 1) else [] := by
  unfold marked
  rw [places_succ, List.filter_append, List.map_append]
  split
  · rfl
  · rfl

theorem marked_of_not_any {h pos : Nat} (hany : (places n h pos).any mask = false) : marked leaf mask n h pos = [] := by
  unfold marked
  rw [List.filter_eq_nil_iff.mpr (List.any_eq_false.mp hany), List.map_nil]

/-- There is a flag for each hash. -/
theorem length_prunedHashes_le_flags : ∀ h pos : Nat,
    (prunedHashes pair leaf mask n h pos).length ≤ (prunedFlags mask n h pos).length
  | 0, _ => le_refl _
  | h + 1, pos => by
    have hleft := length_prunedHashes_le_flags h (2 * pos)
    have hright := length_prunedHashes_le_flags h (2 * pos + 1)
    rw [prunedHashes, prunedFlags, List.length_cons]
    split
    · split
      · rw [List.length_append, List.length_append]
        omega
      · rw [List.append_nil, List.append_nil]
        omega
    · rw [List.length_singleton]
      omega

/-- There is a place below each hash, and no place below two of them. -/
theorem length_prunedHashes_le : ∀ {h pos : Nat}, pos < width n h →
    (prunedHashes pair leaf mask n h pos).length ≤ (places n h pos).length
  | 0, _, hpos => length_places_pos hpos
  | h + 1, pos, hpos => by
    have hchild : 2 * pos < width n h := by
      rw [width_succ] at hpos
      omega
    have hleft := length_prunedHashes_le hchild
    rw [prunedHashes]
    split
    · rw [places_succ]
      split
      · rename_i hsibling
        have hright := length_prunedHashes_le hsibling
        rw [List.length_append, List.length_append]
        omega
      · rw [List.append_nil, List.append_nil]
        exact hleft
    · exact length_places_pos hpos

/-- There are at most as many flags as there are levels above the places. -/
theorem length_prunedFlags_le : ∀ {h pos : Nat}, pos < width n h →
    (prunedFlags mask n h pos).length ≤ (places n h pos).length * (h + 1)
  | 0, _, hpos => by
    rw [prunedFlags, List.length_singleton, zero_add, mul_one]
    exact length_places_pos hpos
  | h + 1, pos, hpos => by
    have hchild : 2 * pos < width n h := by
      rw [width_succ] at hpos
      omega
    have hleft := length_prunedFlags_le hchild
    have hsome := length_places_pos hpos
    rw [prunedFlags, List.length_cons]
    split
    · rw [places_succ] at hsome ⊢
      split at hsome
      · rename_i hsibling
        have hright := length_prunedFlags_le hsibling
        rw [if_pos hsibling, if_pos hsibling]
        rw [List.length_append] at hsome ⊢
        rw [List.length_append, Nat.mul_succ, Nat.add_mul]
        omega
      · rename_i hlast
        rw [if_neg hlast, if_neg hlast, List.append_nil, List.append_nil, Nat.mul_succ]
        rw [List.append_nil] at hsome
        omega
    · rw [List.length_nil, zero_add]
      exact Nat.mul_pos hsome (Nat.succ_pos _)

variable {pair leaf n} in
/-- What holds of the leaves and of every combination holds of every entry. -/
theorem node_of {P : α → Prop} (hleaf : ∀ p < n, P (leaf p)) (hpair : ∀ a b, P (pair a b)) :
    ∀ {h pos : Nat}, pos < width n h → P (node pair leaf n h pos)
  | 0, pos, hpos => hleaf pos (by rwa [width_zero] at hpos)
  | _ + 1, _, _ => hpair _ _

variable {pair leaf mask n} in
/-- The hashes of a pruned tree are entries of the tree. -/
theorem prunedHashes_of {P : α → Prop} (hP : ∀ h pos, pos < width n h → P (node pair leaf n h pos)) :
    ∀ {h pos : Nat}, pos < width n h → ∀ a ∈ prunedHashes pair leaf mask n h pos, P a
  | 0, pos, hpos, a, ha => List.mem_singleton.mp ha ▸ hP 0 pos hpos
  | h + 1, pos, hpos, a, ha => by
    have hchild : 2 * pos < width n h := by
      rw [width_succ] at hpos
      omega
    rw [prunedHashes] at ha
    split at ha
    · rcases List.mem_append.mp ha with ha | ha
      · exact prunedHashes_of hP hchild a ha
      · split at ha
        · exact prunedHashes_of hP ‹_› a ha
        · cases ha
    · exact List.mem_singleton.mp ha ▸ hP (h + 1) pos hpos

end Pruned

end HashTree
