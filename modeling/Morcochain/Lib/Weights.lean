import Morcochain.Lib.OrderedStore

/-!
# Weights by key

A store of weights gives each key a weight. `weightFrom` is the weight of the keys from a given one on: it falls as the
key grows, so the keys whose weight from them on exceeds a threshold are the first ones.

* `weightFrom_insert` : what one write changes.
* `isGreatest_cons` : **the greatest key above a threshold**, entry by entry.
-/

set_option linter.unusedSectionVars false

namespace OrderedStore

universe u

variable {κ : Type u} [LE κ] [LT κ] [DecidableLE κ] [DecidableLT κ] [DecidableEq κ]

/-- The weight of the entries whose key is not below `k`. -/
def weightFrom (l : List (κ × Int)) (k : κ) : Int := ((l.filter (fun e => k ≤ e.1)).map (·.2)).sum

/-- The weight of all entries. -/
def weightOf (l : List (κ × Int)) : Int := (l.map (·.2)).sum

@[simp] theorem weightFrom_nil (k : κ) : weightFrom ([] : List (κ × Int)) k = 0 := rfl

@[simp] theorem weightOf_nil : weightOf ([] : List (κ × Int)) = 0 := rfl

theorem weightFrom_cons (e : κ × Int) (l : List (κ × Int)) (k : κ) :
    weightFrom (e :: l) k = (if k ≤ e.1 then e.2 else 0) + weightFrom l k := by
  unfold weightFrom
  by_cases h : k ≤ e.1
  · rw [List.filter_cons_of_pos (by simpa using h), List.map_cons, List.sum_cons, if_pos h]
  · rw [List.filter_cons_of_neg (by simpa using h), if_neg h, zero_add]

@[simp] theorem weightOf_cons (e : κ × Int) (l : List (κ × Int)) : weightOf (e :: l) = e.2 + weightOf l := rfl

theorem weightOf_nonneg {l : List (κ × Int)} (h : ∀ e ∈ l, 0 ≤ e.2) : 0 ≤ weightOf l :=
  List.sum_nonneg fun x hx => by
    obtain ⟨e, he, rfl⟩ := List.mem_map.mp hx
    exact h e he

theorem weightFrom_le {l : List (κ × Int)} (h : ∀ e ∈ l, 0 ≤ e.2) (k : κ) : weightFrom l k ≤ weightOf l := by
  induction l with
  | nil => exact le_refl 0
  | cons e l ih =>
    have hl := ih fun e' he' => h e' (List.mem_cons_of_mem _ he')
    have he := h e List.mem_cons_self
    rw [weightFrom_cons, weightOf_cons]
    split <;> omega

/-- All entries count where no key is below the given one. -/
theorem weightFrom_eq {l : List (κ × Int)} {k : κ} (h : ∀ e ∈ l, k ≤ e.1) : weightFrom l k = weightOf l := by
  unfold weightFrom weightOf
  rw [List.filter_eq_self.mpr fun e he => by simpa using h e he]

section Order

variable [Std.IsLinearOrder κ] [Std.LawfulOrderLT κ]

/-- What putting an entry among sorted ones adds. -/
theorem weightFrom_insertEntry {k : κ} {v : Int} {l : List (κ × Int)} (hl : l.Pairwise (fun a b => a.1 < b.1))
    (r : κ) : weightFrom (Store.insertEntry k v l) r =
      weightFrom l r + if r ≤ k then v - ((l.find? (fun e => e.1 = k)).map (·.2)).getD 0 else 0 := by
  induction l with
  | nil =>
    rw [Store.insertEntry, weightFrom_cons]
    simp
  | cons a l ih =>
    obtain ⟨ha, hl⟩ := List.pairwise_cons.mp hl
    rw [Store.insertEntry]
    split
    · rename_i hk
      -- the key is below all entries, so none has it
      have hnone : (a :: l).find? (fun e => e.1 = k) = none := by
        rw [List.find?_eq_none]
        intro e he hek
        have hek : e.1 = k := by simpa using hek
        rcases List.mem_cons.mp he with rfl | he
        · exact Std.lt_irrefl (hek ▸ hk)
        · exact Std.lt_irrefl (hek ▸ Std.lt_trans hk (ha e he))
      rw [hnone, weightFrom_cons]
      simp [add_comm]
    · rename_i hk
      split
      · rename_i hk'
        have hne : ¬ a.1 = k := fun h => Std.lt_irrefl (h ▸ hk' : k < k)
        rw [weightFrom_cons, weightFrom_cons, ih hl, List.find?_cons_of_neg (by simpa using hne), add_assoc]
      · rename_i hk'
        have hak : a.1 = k := Store.eq_of_not_lt hk' hk
        rw [weightFrom_cons, weightFrom_cons, List.find?_cons_of_pos (by simpa using hak), hak]
        simp only [Option.map_some, Option.getD_some]
        split <;> omega

/-- What a write adds to the weights: the change at the key, for the keys up to it. -/
theorem weightFrom_insert (s : Store κ Int) (k r : κ) (v : Int) :
    weightFrom (s.insert k v).entries r =
      weightFrom s.entries r + if r ≤ k then v - (s.find? k).getD 0 else 0 :=
  weightFrom_insertEntry s.sorted r

/-- The keys after a write. -/
theorem mem_keys_insert {s : Store κ Int} {k k' : κ} {v : Int} :
    k' ∈ (s.insert k v).entries.map (·.1) ↔ k' ∈ s.entries.map (·.1) ∨ k' = k := by
  simp only [List.mem_map, Store.insert, Store.mem_insertEntry_iff s.sorted]
  constructor
  · rintro ⟨e, rfl | ⟨he, -⟩, rfl⟩
    · exact .inr rfl
    · exact .inl ⟨e, he, rfl⟩
  · rintro (⟨e, he, rfl⟩ | rfl)
    · by_cases hk : e.1 = k
      · exact ⟨(k, v), .inl rfl, hk.symm⟩
      · exact ⟨e, .inr ⟨he, hk⟩, rfl⟩
    · exact ⟨(k', v), .inl rfl, rfl⟩

/-- The weight at a key is part of the weight from it on. -/
theorem find?_le_weightFrom {s : Store κ Int} (h : ∀ e ∈ s.entries, 0 ≤ e.2) (k : κ) :
    0 ≤ (s.find? k).getD 0 ∧ (s.find? k).getD 0 ≤ weightFrom s.entries k := by
  have hfrom : 0 ≤ weightFrom s.entries k :=
    weightOf_nonneg fun e he => h e (List.mem_of_mem_filter he)
  cases hs : s.find? k with
  | none => exact ⟨Int.le_refl 0, hfrom⟩
  | some w =>
    have hmem := Store.find?_eq_some.mp hs
    refine ⟨h _ hmem, ?_⟩
    unfold weightFrom
    refine List.single_le_sum (fun x hx => ?_) w (List.mem_map.mpr ⟨(k, w), ?_, rfl⟩)
    · obtain ⟨e, he, rfl⟩ := List.mem_map.mp hx
      exact h e (List.mem_of_mem_filter he)
    · exact List.mem_filter.mpr ⟨hmem, by simp⟩

/-! ## The greatest key above a threshold -/

/-- The keys of a list whose weight from them on exceeds a threshold. -/
def KeyAbove (l : List (κ × Int)) (threshold : Int) : Set κ := {k | k ∈ l.map (·.1) ∧ threshold < weightFrom l k}

/-- No key is above the threshold where the weight of all entries is not. -/
theorem keyAbove_of_le {l : List (κ × Int)} {threshold : Int} (hw : ∀ e ∈ l, 0 ≤ e.2)
    (h : weightOf l ≤ threshold) : KeyAbove l threshold = ∅ := by
  ext k
  refine ⟨fun ⟨_, hk⟩ => ?_, fun hk => absurd hk (Set.notMem_empty k)⟩
  have := weightFrom_le hw k
  omega

/-- **The greatest key above a threshold, entry by entry**: the first key is above it when the weight of all entries is,
and it is the greatest one unless a later key is. -/
theorem isGreatest_cons {k : κ} {w threshold : Int} {l : List (κ × Int)}
    (hl : ((k, w) :: l).Pairwise (fun a b => a.1 < b.1)) (h : threshold < weightOf ((k, w) :: l)) :
    (KeyAbove l threshold = ∅ → IsGreatest (KeyAbove ((k, w) :: l) threshold) k) ∧
      ∀ m, IsGreatest (KeyAbove l threshold) m → IsGreatest (KeyAbove ((k, w) :: l) threshold) m := by
  obtain ⟨hlt, _⟩ := List.pairwise_cons.mp hl
  have hfirst : k ∈ KeyAbove ((k, w) :: l) threshold := by
    refine ⟨List.mem_cons_self, ?_⟩
    rw [weightFrom_eq fun e he => ?_]
    · exact h
    · rcases List.mem_cons.mp he with rfl | he
      · exact Std.le_refl k
      · exact Std.le_of_lt (hlt e he)
  -- the first entry does not count for a later key
  have hrest : ∀ k' ∈ l.map (·.1), k < k' ∧ weightFrom ((k, w) :: l) k' = weightFrom l k' := by
    intro k' hk'
    obtain ⟨e, he, rfl⟩ := List.mem_map.mp hk'
    refine ⟨hlt e he, ?_⟩
    rw [weightFrom_cons, if_neg (Std.not_le.mpr (hlt e he)), zero_add]
  constructor
  · intro hnone
    refine ⟨hfirst, fun k' hk' => ?_⟩
    rcases List.mem_cons.mp hk'.1 with rfl | hmem
    · exact Std.le_refl _
    · refine absurd (show k' ∈ KeyAbove l threshold from ⟨hmem, ?_⟩) (hnone ▸ Set.notMem_empty k')
      exact (hrest k' hmem).2 ▸ hk'.2
  · rintro m ⟨hm, hmax⟩
    refine ⟨⟨List.mem_cons_of_mem _ hm.1, (hrest m hm.1).2 ▸ hm.2⟩, fun k' hk' => ?_⟩
    rcases List.mem_cons.mp hk'.1 with rfl | hmem
    · exact Std.le_of_lt (hrest m hm.1).1
    · exact hmax ⟨hmem, (hrest k' hmem).2 ▸ hk'.2⟩

end Order

end OrderedStore
