import Mathlib

/-!
# Ordered key-value stores

A store keeps its entries sorted by key, as an ordered database iterates them. `find?` reads one key, `seek` positions
a cursor at the first entry whose key is not below a given one.

* `find?_insert`, `find?_erase` : the store is a map.
* `seek_eq_some`, `seek_eq_none` : **what a seek finds**, in terms of `find?` alone.
* `seek_applyChanges_iff` : **exactly when** a list of changes leaves the entry that a seek finds.
* `Image` : a store over encoded keys represents a store over plain keys. `Image.seek_iff` says **exactly when** a seek
  over the encoded keys finds what the seek over the plain keys finds.
* `OrderedBy` : an order that a key gives is linear when the order of the keys is.
-/

set_option linter.unusedSectionVars false

namespace OrderedStore

universe u v w

variable {κ : Type u} {ν : Type v} [LE κ] [LT κ] [DecidableLE κ] [DecidableLT κ] [DecidableEq κ]

/-- A key-value store sorted by key. -/
structure Store (κ : Type u) (ν : Type v) [LT κ] where
  entries : List (κ × ν)
  sorted : entries.Pairwise (fun a b => a.1 < b.1)

namespace Store

/-- The store without entries. -/
def empty : Store κ ν := ⟨[], List.Pairwise.nil⟩

/-- The value stored at `k`. -/
def find? (s : Store κ ν) (k : κ) : Option ν := (s.entries.find? (fun e => e.1 = k)).map (·.2)

/-- The first entry whose key is not below `k`. -/
def seek (s : Store κ ν) (k : κ) : Option (κ × ν) := s.entries.find? (fun e => k ≤ e.1)

/-- Erase the entry at `k`. -/
def erase (s : Store κ ν) (k : κ) : Store κ ν := ⟨s.entries.filter (fun e => e.1 ≠ k), s.sorted.filter _⟩

/-- Put an entry in its place among sorted entries, over an entry with the same key. -/
def insertEntry (k : κ) (v : ν) : List (κ × ν) → List (κ × ν)
  | [] => [(k, v)]
  | e :: l => if k < e.1 then (k, v) :: e :: l else if e.1 < k then e :: insertEntry k v l else (k, v) :: l

/-- Membership in the list with one entry put in. -/
theorem mem_insertEntry {k : κ} {v : ν} {e : κ × ν} :
    ∀ {l : List (κ × ν)}, e ∈ insertEntry k v l → e = (k, v) ∨ e ∈ l
  | [], h => by
    rw [insertEntry, List.mem_singleton] at h
    exact .inl h
  | a :: l, h => by
    rw [insertEntry] at h
    split at h
    · exact List.mem_cons.mp h
    · split at h
      · rcases List.mem_cons.mp h with h | h
        · exact .inr (h ▸ List.mem_cons_self)
        · exact (mem_insertEntry h).imp_right (List.mem_cons_of_mem _)
      · exact (List.mem_cons.mp h).imp_right (List.mem_cons_of_mem _)

section Order

variable [Std.IsLinearOrder κ] [Std.LawfulOrderLT κ]

/-- Two keys of which neither is below the other are equal. -/
theorem eq_of_not_lt {a b : κ} (h₁ : ¬ a < b) (h₂ : ¬ b < a) : a = b :=
  Std.le_antisymm (Std.not_lt.mp h₂) (Std.not_lt.mp h₁)

theorem sorted_insertEntry {k : κ} {v : ν} :
    ∀ {l : List (κ × ν)}, l.Pairwise (fun a b => a.1 < b.1) → (insertEntry k v l).Pairwise (fun a b => a.1 < b.1)
  | [], _ => by
    rw [insertEntry]
    exact List.pairwise_singleton _ _
  | a :: l, h => by
    obtain ⟨ha, hl⟩ := List.pairwise_cons.mp h
    rw [insertEntry]
    split
    · rename_i hk
      refine List.pairwise_cons.mpr ⟨fun b hb => ?_, h⟩
      rcases List.mem_cons.mp hb with rfl | hb
      · exact hk
      · exact Std.lt_trans hk (ha b hb)
    · rename_i hk
      split
      · rename_i hk'
        refine List.pairwise_cons.mpr ⟨fun b hb => ?_, sorted_insertEntry hl⟩
        rcases mem_insertEntry hb with rfl | hb
        · exact hk'
        · exact ha b hb
      · rename_i hk'
        have hka : k = a.1 := eq_of_not_lt hk hk'
        exact List.pairwise_cons.mpr ⟨fun b hb => hka ▸ ha b hb, hl⟩

/-- Put `v` at `k`. -/
def insert (s : Store κ ν) (k : κ) (v : ν) : Store κ ν := ⟨insertEntry k v s.entries, sorted_insertEntry s.sorted⟩

/-! ## The store as a map -/

/-- An entry of a sorted list is the one found at its key. -/
theorem find?_entries {l : List (κ × ν)} (hl : l.Pairwise (fun a b => a.1 < b.1)) {e : κ × ν} (he : e ∈ l) :
    l.find? (fun a => a.1 = e.1) = some e := by
  induction l with
  | nil => cases he
  | cons a l ih =>
    obtain ⟨ha, hl'⟩ := List.pairwise_cons.mp hl
    rcases List.mem_cons.mp he with rfl | he'
    · rw [List.find?_cons_of_pos (by simp)]
    · have hne : a.1 ≠ e.1 := fun h => Std.lt_irrefl (h ▸ ha e he' : a.1 < a.1)
      rw [List.find?_cons_of_neg (by simpa using hne)]
      exact ih hl' he'

/-- A value is stored at a key exactly when the pair is an entry. -/
theorem find?_eq_some {s : Store κ ν} {k : κ} {v : ν} : s.find? k = some v ↔ (k, v) ∈ s.entries := by
  unfold find?
  constructor
  · intro h
    obtain ⟨e, he, hv⟩ := Option.map_eq_some_iff.mp h
    have hk : e.1 = k := by simpa using List.find?_some he
    have : e = (k, v) := Prod.ext hk hv
    exact this ▸ List.mem_of_find?_eq_some he
  · intro h
    rw [find?_entries s.sorted h]
    rfl

/-- Stores with the same values have the same entries. -/
theorem ext_find? {s s' : Store κ ν} (h : ∀ k, s.find? k = s'.find? k) : s = s' := by
  have hmem : ∀ e, e ∈ s.entries ↔ e ∈ s'.entries := fun e => by
    rw [← find?_eq_some (k := e.1) (v := e.2), ← find?_eq_some (k := e.1) (v := e.2), h]
  have hnodup : ∀ t : Store κ ν, t.entries.Nodup := fun t => by
    refine t.sorted.imp (S := fun a b => a ≠ b) fun {a b} hlt heq => ?_
    rw [heq] at hlt
    exact Std.lt_irrefl hlt
  have hperm : s.entries.Perm s'.entries := (List.perm_ext_iff_of_nodup (hnodup s) (hnodup s')).mpr hmem
  obtain ⟨l, hl⟩ := s
  obtain ⟨l', hl'⟩ := s'
  obtain rfl : l = l' := hperm.eq_of_pairwise
    (fun a b _ _ hab hba => absurd (Std.lt_trans hab hba) Std.lt_irrefl) hl hl'
  rfl

/-- Nothing is stored at a key exactly when no entry has it. -/
theorem find?_eq_none {s : Store κ ν} {k : κ} : s.find? k = none ↔ ∀ v, (k, v) ∉ s.entries := by
  rw [Option.eq_none_iff_forall_ne_some]
  exact forall_congr' fun v => not_congr find?_eq_some

omit [DecidableLE κ] [DecidableLT κ] [DecidableEq κ] [Std.IsLinearOrder κ] in
/-- A store has no entry twice. -/
theorem nodup_entries (s : Store κ ν) : s.entries.Nodup := by
  refine s.sorted.imp (S := fun a b => a ≠ b) fun {a b} hlt heq => ?_
  rw [heq] at hlt
  exact Std.lt_irrefl hlt

theorem mem_insertEntry_iff {k : κ} {v : ν} {e : κ × ν} :
    ∀ {l : List (κ × ν)}, l.Pairwise (fun a b => a.1 < b.1) →
      (e ∈ insertEntry k v l ↔ e = (k, v) ∨ e ∈ l ∧ e.1 ≠ k)
  | [], _ => by simp [insertEntry]
  | a :: l, h => by
    obtain ⟨ha, hl⟩ := List.pairwise_cons.mp h
    rw [insertEntry]
    split
    · rename_i hk
      have hne : ∀ b ∈ a :: l, b.1 ≠ k := by
        intro b hb hbk
        rcases List.mem_cons.mp hb with rfl | hb
        · exact Std.lt_irrefl (hbk ▸ hk)
        · exact Std.lt_irrefl (hbk ▸ Std.lt_trans hk (ha b hb))
      rw [List.mem_cons]
      exact ⟨fun h => h.imp_right fun h => ⟨h, hne e h⟩, fun h => h.imp_right (·.1)⟩
    · rename_i hk
      split
      · rename_i hk'
        have hak : a.1 ≠ k := fun h => Std.lt_irrefl (h ▸ hk')
        rw [List.mem_cons, mem_insertEntry_iff hl, List.mem_cons]
        constructor
        · rintro (rfl | h | ⟨h, hne⟩)
          · exact .inr ⟨.inl rfl, hak⟩
          · exact .inl h
          · exact .inr ⟨.inr h, hne⟩
        · rintro (h | ⟨rfl | h, hne⟩)
          · exact .inr (.inl h)
          · exact .inl rfl
          · exact .inr (.inr ⟨h, hne⟩)
      · rename_i hk'
        have hka : k = a.1 := eq_of_not_lt hk hk'
        rw [List.mem_cons, List.mem_cons]
        constructor
        · rintro (h | h)
          · exact .inl h
          · refine .inr ⟨.inr h, fun hek => ?_⟩
            have hlt := ha e h
            rw [hek, ← hka] at hlt
            exact Std.lt_irrefl hlt
        · rintro (h | ⟨rfl | h, hne⟩)
          · exact .inl h
          · exact absurd hka.symm hne
          · exact .inr h

theorem find?_empty (k : κ) : (empty : Store κ ν).find? k = none := rfl

/-- Reading after a write. -/
theorem find?_insert (s : Store κ ν) (k k' : κ) (v : ν) :
    (s.insert k v).find? k' = if k' = k then some v else s.find? k' := by
  apply Option.ext
  intro v'
  rw [find?_eq_some, insert, mem_insertEntry_iff s.sorted]
  by_cases h : k' = k
  · subst h
    simp [eq_comm]
  · simp [h, find?_eq_some]

/-- Reading after an erasure. -/
theorem find?_erase (s : Store κ ν) (k k' : κ) :
    (s.erase k).find? k' = if k' = k then none else s.find? k' := by
  apply Option.ext
  intro v'
  rw [find?_eq_some, erase, List.mem_filter]
  by_cases h : k' = k
  · simp [h]
  · simp [h, find?_eq_some]

/-- An entry that is written stands beside the entries of the other keys. -/
theorem perm_insert (s : Store κ ν) (k : κ) (v : ν) : (s.insert k v).entries.Perm ((k, v) :: (s.erase k).entries) := by
  have hself : (k, v) ∉ (s.erase k).entries := fun hmem => by
    have := find?_eq_some.mpr hmem
    rw [find?_erase, if_pos rfl] at this
    cases this
  refine (List.perm_ext_iff_of_nodup (nodup_entries _) (List.nodup_cons.mpr ⟨hself, nodup_entries _⟩)).mpr fun e => ?_
  obtain ⟨k', v'⟩ := e
  rw [List.mem_cons, ← find?_eq_some, ← find?_eq_some, find?_insert, find?_erase]
  by_cases hk : k' = k
  · subst hk
    simp [eq_comm]
  · simp [hk]

/-- An entry that is read may as well be written. -/
theorem insert_erase {s : Store κ ν} {k : κ} {v : ν} (h : s.find? k = some v) : (s.erase k).insert k v = s := by
  refine ext_find? fun k' => ?_
  rw [find?_insert, find?_erase]
  by_cases hk : k' = k
  · subst hk
    rw [if_pos rfl, h]
  · rw [if_neg hk, if_neg hk]

theorem length_erase {s : Store κ ν} {k : κ} {v : ν} (h : s.find? k = some v) :
    (s.erase k).entries.length + 1 = s.entries.length := by
  have hlength := (perm_insert s k v).length_eq
  have hsame : s.insert k v = s := ext_find? fun k' => by
    rw [find?_insert]
    split
    · rename_i hk
      rw [hk, h]
    · rfl
  rw [hsame, List.length_cons] at hlength
  exact hlength.symm

theorem entries_eq_nil_iff {s : Store κ ν} : s.entries = [] ↔ ∀ k, s.find? k = none := by
  constructor
  · intro h k
    rw [find?, h]
    rfl
  · intro h
    refine List.eq_nil_iff_forall_not_mem.mpr fun e he => ?_
    have hfind := find?_eq_some.mpr he
    rw [h] at hfind
    cases hfind

/-! ## Seeking -/

/-- **What a seek finds**: the entry with the least key among those that are not below the key sought. -/
theorem seek_eq_some {s : Store κ ν} {k k' : κ} {v : ν} :
    s.seek k = some (k', v) ↔
      s.find? k' = some v ∧ k ≤ k' ∧ ∀ k'' v'', s.find? k'' = some v'' → k ≤ k'' → k' ≤ k'' := by
  obtain ⟨l, hl⟩ := s
  simp only [find?_eq_some, seek]
  induction l with
  | nil => simp
  | cons a l ih =>
    obtain ⟨ha, hl'⟩ := List.pairwise_cons.mp hl
    by_cases h : k ≤ a.1
    · rw [List.find?_cons_of_pos (by simpa using h), Option.some.injEq]
      constructor
      · rintro rfl
        refine ⟨List.mem_cons_self, h, fun k'' v'' hm _ => ?_⟩
        rcases List.mem_cons.mp hm with he | hm
        · exact Std.le_of_eq (congrArg Prod.fst he).symm
        · exact Std.le_of_lt (ha _ hm)
      · rintro ⟨hm, hk, hmin⟩
        rcases List.mem_cons.mp hm with he | hm
        · exact he.symm
        · have := hmin a.1 a.2 List.mem_cons_self h
          exact absurd (ha _ hm) (Std.not_lt.mpr this)
    · rw [List.find?_cons_of_neg (by simpa using h), ih hl']
      constructor
      · rintro ⟨hm, hk, hmin⟩
        refine ⟨List.mem_cons_of_mem _ hm, hk, fun k'' v'' hm' hk' => ?_⟩
        rcases List.mem_cons.mp hm' with he | hm'
        · exact absurd (congrArg Prod.fst he ▸ hk') h
        · exact hmin k'' v'' hm' hk'
      · rintro ⟨hm, hk, hmin⟩
        rcases List.mem_cons.mp hm with he | hm
        · exact absurd (congrArg Prod.fst he ▸ hk) h
        · exact ⟨hm, hk, fun k'' v'' hm' => hmin k'' v'' (List.mem_cons_of_mem _ hm')⟩

/-- A seek fails exactly when every key is below the key sought. -/
theorem seek_eq_none {s : Store κ ν} {k : κ} : s.seek k = none ↔ ∀ k' v, s.find? k' = some v → k' < k := by
  simp only [find?_eq_some, seek, List.find?_eq_none, decide_eq_true_eq]
  constructor
  · intro h k' v hm
    exact Std.not_le.mp (h _ hm)
  · intro h e hm
    exact Std.not_le.mpr (h e.1 e.2 hm)

/-! ## Changes -/

/-- Make a list of changes, from the first to the last: a value to insert at a key, or none to erase it. -/
def applyChanges (s : Store κ ν) (changes : List (κ × Option ν)) : Store κ ν :=
  changes.foldl (fun s c => match c.2 with | some v => s.insert c.1 v | none => s.erase c.1) s

/-- The last change made to a key. -/
def lastChange (changes : List (κ × Option ν)) (k : κ) : Option (Option ν) :=
  (changes.reverse.find? (fun c => c.1 = k)).map (·.2)

theorem find?_applyChanges (s : Store κ ν) (changes : List (κ × Option ν)) (k : κ) :
    (s.applyChanges changes).find? k = (lastChange changes k).getD (s.find? k) := by
  unfold applyChanges lastChange
  induction changes using List.reverseRecOn with
  | nil => rfl
  | append_singleton l c ih =>
    obtain ⟨k', x⟩ := c
    rw [List.foldl_concat, List.reverse_concat]
    by_cases h : k' = k
    · rw [List.find?_cons_of_pos (by simpa using h), Option.map_some, Option.getD_some]
      cases x with
      | none => rw [find?_erase, if_pos h.symm]
      | some v => rw [find?_insert, if_pos h.symm]
    · rw [List.find?_cons_of_neg (by simpa using h), ← ih]
      cases x with
      | none => rw [find?_erase, if_neg (Ne.symm h)]
      | some v => rw [find?_insert, if_neg (Ne.symm h)]

/-- The changes that the entries of another store give: one for each of its keys. -/
theorem lastChange_entries {ω : Type w} (m : Store κ ω) (f : ω → Option ν) (k : κ) :
    lastChange (m.entries.map fun e => (e.1, f e.2)) k = (m.find? k).map f := by
  unfold lastChange
  cases h : (m.entries.map fun e => (e.1, f e.2)).reverse.find? (fun c => c.1 = k) with
  | none =>
    have hnone : m.find? k = none := find?_eq_none.mpr fun v hv => by
      have := List.find?_eq_none.mp h (k, f v) (List.mem_reverse.mpr (List.mem_map.mpr ⟨(k, v), hv, rfl⟩))
      simp at this
    rw [hnone]
    rfl
  | some c =>
    obtain ⟨e, he, rfl⟩ := List.mem_map.mp (List.mem_reverse.mp (List.mem_of_find?_eq_some h))
    obtain rfl : e.1 = k := by simpa using List.find?_some h
    rw [find?_eq_some.mpr (show (e.1, e.2) ∈ m.entries from he)]
    rfl

/-- The changes leave `(k', v)` the first entry from `k` on: it is not erased for good and nothing is inserted before
it. -/
def KeepsFirst (changes : List (κ × Option ν)) (k k' : κ) (v : ν) : Prop :=
  (lastChange changes k').getD (some v) = some v ∧
    ∀ a, k ≤ a → a < k' → ∀ v', lastChange changes a ≠ some (some v')

/-- **Exactly when** changes leave the entry that a seek finds. -/
theorem seek_applyChanges_iff {s : Store κ ν} {changes : List (κ × Option ν)} {k k' : κ} {v : ν}
    (h : s.seek k = some (k', v)) : (s.applyChanges changes).seek k = some (k', v) ↔ KeepsFirst changes k k' v := by
  obtain ⟨hv, hk, hmin⟩ := seek_eq_some.mp h
  -- below the entry found there is nothing before the changes
  have hnone : ∀ a, k ≤ a → a < k' → s.find? a = none := by
    intro a hka hak
    cases ha : s.find? a with
    | none => rfl
    | some w => exact absurd hak (Std.not_lt.mpr (hmin a w ha hka))
  rw [seek_eq_some, find?_applyChanges, hv]
  refine and_congr_right fun _ => ?_
  constructor
  · rintro ⟨-, hmin'⟩ a hka hak v' hc
    exact Std.not_lt.mpr (hmin' a v' (by rw [find?_applyChanges, hc, Option.getD_some]) hka) hak
  · intro hbefore
    refine ⟨hk, fun a w ha hka => Std.not_lt.mp fun hak => ?_⟩
    rw [find?_applyChanges, hnone a hka hak] at ha
    cases hc : lastChange changes a with
    | none => exact absurd ((congrArg (·.getD none) hc).symm.trans ha) nofun
    | some x =>
      rw [hc, Option.getD_some] at ha
      exact hbefore a hka hak w (hc.trans (congrArg some ha))

end Order

end Store

/-! ## Stores over encoded keys -/

section Image

variable {μ : Type w} [LE μ] [LT μ] [DecidableLE μ] [DecidableLT μ] [DecidableEq μ] {ω : Type v}
variable [Std.IsLinearOrder κ] [Std.LawfulOrderLT κ] [Std.IsLinearOrder μ] [Std.LawfulOrderLT μ]
variable {enc : κ → μ} {val : ν → ω} {K : κ → Prop} {D : μ → Prop}

/-- The entries of `d` whose keys lie in the key space `D` are those of `s`, with keys encoded by `enc` and values by
`val`. The keys of `s` lie in `K`, on which `enc` is one-to-one. -/
structure Image (enc : κ → μ) (val : ν → ω) (K : κ → Prop) (D : μ → Prop) (s : Store κ ν) (d : Store μ ω) : Prop where
  inj : ∀ a b, K a → K b → enc a = enc b → a = b
  dom : ∀ k v, s.find? k = some v → K k
  fwd : ∀ k v, s.find? k = some v → d.find? (enc k) = some (val v)
  bwd : ∀ e w, D e → d.find? e = some w → ∃ k v, s.find? k = some v ∧ e = enc k ∧ w = val v

theorem Image.insert {s : Store κ ν} {d : Store μ ω} (h : Image enc val K D s d) {k : κ} (hk : K k) (v : ν) :
    Image enc val K D (s.insert k v) (d.insert (enc k) (val v)) where
  inj := h.inj
  dom a w ha := by
    rw [Store.find?_insert] at ha
    split at ha
    · rename_i hak
      exact hak ▸ hk
    · exact h.dom a w ha
  fwd a w ha := by
    have haK : K a := by
      rw [Store.find?_insert] at ha
      split at ha
      · rename_i hak
        exact hak ▸ hk
      · exact h.dom a w ha
    rw [Store.find?_insert] at ha ⊢
    by_cases hak : a = k
    · rw [if_pos hak] at ha
      cases ha
      rw [if_pos (congrArg enc hak)]
    · rw [if_neg hak] at ha
      rw [if_neg (fun he => hak (h.inj a k haK hk he))]
      exact h.fwd a w ha
  bwd e w he hw := by
    rw [Store.find?_insert] at hw
    by_cases hek : e = enc k
    · rw [if_pos hek] at hw
      cases hw
      exact ⟨k, v, by rw [Store.find?_insert, if_pos rfl], hek, rfl⟩
    · rw [if_neg hek] at hw
      obtain ⟨a, u, ha, rfl, rfl⟩ := h.bwd e w he hw
      refine ⟨a, u, ?_, rfl, rfl⟩
      rw [Store.find?_insert, if_neg (fun hak => hek (congrArg enc hak))]
      exact ha

theorem Image.erase {s : Store κ ν} {d : Store μ ω} (h : Image enc val K D s d) {k : κ} (hk : K k) :
    Image enc val K D (s.erase k) (d.erase (enc k)) where
  inj := h.inj
  dom a w ha := by
    rw [Store.find?_erase] at ha
    split at ha
    · cases ha
    · exact h.dom a w ha
  fwd a w ha := by
    rw [Store.find?_erase] at ha ⊢
    by_cases hak : a = k
    · rw [if_pos hak] at ha
      cases ha
    · rw [if_neg hak] at ha
      rw [if_neg (fun he => hak (h.inj a k (h.dom a w ha) hk he))]
      exact h.fwd a w ha
  bwd e w he hw := by
    rw [Store.find?_erase] at hw
    by_cases hek : e = enc k
    · rw [if_pos hek] at hw
      cases hw
    · rw [if_neg hek] at hw
      obtain ⟨a, u, ha, rfl, rfl⟩ := h.bwd e w he hw
      refine ⟨a, u, ?_, rfl, rfl⟩
      rw [Store.find?_erase, if_neg (fun hak => hek (congrArg enc hak))]
      exact ha

/-- The entry that a cursor placed at `e` shows, if its key lies in the key space `D`. -/
def Store.seekIn (D : μ → Prop) [DecidablePred D] (d : Store μ ω) (e : μ) : Option (μ × ω) :=
  (d.seek e).filter (fun a => D a.1)

/-- A seek within a key space without gaps finds the least of its keys that are not below the one sought. -/
theorem Store.seekIn_eq_some [DecidablePred D] (hD : ∀ a b c, D a → D c → a ≤ b → b ≤ c → D b) {d : Store μ ω}
    {e e' : μ} {w : ω} (he : D e) :
    d.seekIn D e = some (e', w) ↔
      d.find? e' = some w ∧ D e' ∧ e ≤ e' ∧ ∀ x u, d.find? x = some u → D x → e ≤ x → e' ≤ x := by
  unfold seekIn
  rw [Option.filter_eq_some_iff, seek_eq_some, decide_eq_true_eq]
  constructor
  · rintro ⟨⟨h, hle, hmin⟩, hDe⟩
    exact ⟨h, hDe, hle, fun x u hx _ => hmin x u hx⟩
  · rintro ⟨h, hDe, hle, hmin⟩
    refine ⟨⟨h, hle, fun x u hx hex => ?_⟩, hDe⟩
    rcases Std.le_total (a := x) (b := e') with hx' | hx'
    · exact hmin x u hx (hD e x e' he hDe hex hx') hex
    · exact hx'

theorem Store.seekIn_eq_none [DecidablePred D] (hD : ∀ a b c, D a → D c → a ≤ b → b ≤ c → D b) {d : Store μ ω}
    {e : μ} (he : D e) : d.seekIn D e = none ↔ ∀ x u, d.find? x = some u → D x → x < e := by
  constructor
  · intro h x u hx hDx
    by_contra hlt
    have hex : e ≤ x := Std.not_lt.mp hlt
    cases hs : d.seek e with
    | none => exact hlt (seek_eq_none.mp hs x u hx)
    | some a =>
      obtain ⟨_, hle, hmin⟩ := seek_eq_some.mp hs
      have hDa : D a.1 := hD e a.1 x he hDx hle (hmin x u hx hex)
      rw [seekIn, hs, Option.filter_some, if_pos (by simpa using hDa)] at h
      cases h
  · intro h
    rw [seekIn, Option.filter_eq_none_iff]
    rintro ⟨x, u⟩ hx hDx
    obtain ⟨hfind, hle, _⟩ := seek_eq_some.mp hx
    exact Std.not_lt.mpr hle (h x u hfind (by simpa using hDx))

/-- The encoded keys are in place for a seek that looks for `k` at the encoded key `e`: the first entry from `k` on is
not before `e`, and every other entry is before `e` or after that one; without such an entry, all are before `e`. -/
def InPlace (enc : κ → μ) (s : Store κ ν) (k : κ) (e : μ) : Prop :=
  (∀ k' v, s.seek k = some (k', v) →
    e ≤ enc k' ∧ ∀ a u, s.find? a = some u → a ≠ k' → enc a < e ∨ enc k' < enc a) ∧
  (s.seek k = none → ∀ a u, s.find? a = some u → enc a < e)

/-- **Exactly when** a seek over encoded keys finds the entry that a seek over the plain keys finds. -/
theorem Image.seek_iff [DecidablePred D] (hD : ∀ a b c, D a → D c → a ≤ b → b ≤ c → D b)
    (hencD : ∀ k, K k → D (enc k)) {s : Store κ ν} {d : Store μ ω} (h : Image enc val K D s d) {k : κ} {e : μ}
    (he : D e) :
    d.seekIn D e = (s.seek k).map (fun a => (enc a.1, val a.2)) ↔ InPlace enc s k e := by
  cases hs : s.seek k with
  | none =>
    rw [Option.map_none, Store.seekIn_eq_none hD he]
    constructor
    · intro hlt
      refine ⟨fun k' v hk' => absurd (hs.symm.trans hk') nofun, fun _ a u ha => ?_⟩
      exact hlt _ _ (h.fwd a u ha) (hencD a (h.dom a u ha))
    · rintro ⟨-, hlt⟩ x u hx hDx
      obtain ⟨a, v, ha, rfl, -⟩ := h.bwd x u hDx hx
      exact hlt hs a v ha
  | some b =>
    obtain ⟨k', v⟩ := b
    have hb := (Store.seek_eq_some.mp hs).1
    rw [Option.map_some, Store.seekIn_eq_some hD he]
    constructor
    · rintro ⟨hfind, -, hle, hmin⟩
      refine ⟨fun k'' v' hk'' => ?_, fun hn => absurd (hs.symm.trans hn) nofun⟩
      rw [hs] at hk''
      cases hk''
      refine ⟨hle, fun a u ha hne => ?_⟩
      by_cases hae : enc a < e
      · exact .inl hae
      · refine .inr (Std.not_le.mp fun hak => hne ?_)
        have := hmin _ _ (h.fwd a u ha) (hencD a (h.dom a u ha)) (Std.not_lt.mp hae)
        exact h.inj a k' (h.dom a u ha) (h.dom k' v hb) (Std.le_antisymm hak this)
    · rintro ⟨hin, -⟩
      obtain ⟨hle, hothers⟩ := hin k' v hs
      refine ⟨h.fwd k' v hb, hencD k' (h.dom k' v hb), hle, fun x u hx hDx hex => ?_⟩
      obtain ⟨a, w, ha, rfl, -⟩ := h.bwd x u hDx hx
      by_cases hak : a = k'
      · rw [hak]
        exact Std.le_refl _
      · rcases hothers a w ha hak with hlt | hlt
        · exact absurd hex (Std.not_le.mpr hlt)
        · exact Std.le_of_lt hlt

end Image

/-! ## Orders by a key -/

/-- A type is ordered as the keys of its values are. -/
structure OrderedBy (α : Type) (κ : Type) [LE κ] [LT κ] [LE α] [LT α] (key : α → κ) : Prop where
  inj : ∀ a b, key a = key b → a = b
  le_iff : ∀ a b, a ≤ b ↔ key a ≤ key b
  lt_iff : ∀ a b, a < b ↔ key a < key b

section OrderedBy

variable {α κ : Type} [LE κ] [LT κ] [LE α] [LT α] [Std.IsLinearOrder κ] [Std.LawfulOrderLT κ] {key : α → κ}

theorem OrderedBy.isLinearOrder (h : OrderedBy α κ key) : Std.IsLinearOrder α where
  le_refl a := (h.le_iff a a).mpr (Std.le_refl _)
  le_trans a b c hab hbc := (h.le_iff a c).mpr (Std.le_trans ((h.le_iff a b).mp hab) ((h.le_iff b c).mp hbc))
  le_antisymm a b hab hba := h.inj a b (Std.le_antisymm ((h.le_iff a b).mp hab) ((h.le_iff b a).mp hba))
  le_total a b := by
    rw [h.le_iff, h.le_iff]
    exact Std.le_total

theorem OrderedBy.lawfulOrderLT (h : OrderedBy α κ key) : Std.LawfulOrderLT α where
  lt_iff a b := by
    rw [h.lt_iff, h.le_iff, h.le_iff]
    exact Std.LawfulOrderLT.lt_iff (key a) (key b)

end OrderedBy

end OrderedStore
