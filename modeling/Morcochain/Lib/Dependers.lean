import Mathlib

/-!
# Items that wait for others

Items are taken off a board in any order, but an item that needs others is put on it only when they have all been
accepted. The board holds what is ready, what each waiting item still needs, and for each item those that wait for it.

* `release` : an item has been accepted; those that waited for nothing else become ready.
* `Sound` : what the board stands for, given what was taken and what was accepted.
* `sound_add`, `sound_take`, `sound_release` : what the operations keep.
* `Sound.taken_iff` : **at the end an item was taken exactly when all that it needs was accepted**.
-/

set_option autoImplicit false

namespace Dependers

universe u

variable {κ : Type u} [DecidableEq κ]

/-- What is ready, what the waiting items still need, and who waits for whom. -/
structure Board (κ : Type u) where
  ready : List κ
  waits : κ → Option (Finset κ)
  dependers : κ → List κ

namespace Board

/-- The board without items. -/
def empty : Board κ := ⟨[], fun _ => none, fun _ => []⟩

/-- An item waits for another one. -/
def wait (k : κ) (board : Board κ) (h : κ) : Board κ :=
  { board with dependers := fun x => if x = h then board.dependers x ++ [k] else board.dependers x }

/-- A new item, and what it needs. -/
def add (board : Board κ) (k : κ) (needs : List κ) : Board κ :=
  if needs = [] then { board with ready := board.ready ++ [k] }
  else
    { needs.foldl (wait k) board with waits := fun x => if x = k then some needs.toFinset else board.waits x }

/-- An item is taken. -/
def take (board : Board κ) (k : κ) : Board κ := { board with ready := board.ready.erase k }

/-- An item that waited for `h`; none where it is not known any more. -/
def releaseOne (h : κ) (board : Board κ) (k : κ) : Option (Board κ) :=
  match board.waits k with
  | none => none
  | some needs =>
    if needs = ∅ then some board
    else some { board with
      ready := if needs.erase h = ∅ then board.ready ++ [k] else board.ready
      waits := fun x => if x = k then some (needs.erase h) else board.waits x }

/-- An item has been accepted. -/
def release (board : Board κ) (h : κ) : Option (Board κ) := (board.dependers h).foldlM (releaseOne h) board

end Board

open Board

/-- What the board stands for: `items` with their `needs`, those that were `taken`, and those that were `accepted`. -/
structure Sound (items : List κ) (needs : κ → Finset κ) (taken accepted : List κ) (board : Board κ) : Prop where
  nodup : (taken ++ board.ready).Nodup
  ready_iff : ∀ k ∈ items, k ∈ taken ++ board.ready ↔ needs k ⊆ accepted.toFinset
  known : ∀ k ∈ taken ++ board.ready, k ∈ items
  waits : ∀ k ∈ items, needs k ≠ ∅ → board.waits k = some (needs k \ accepted.toFinset)
  dependers : ∀ h k, k ∈ board.dependers h ↔ k ∈ items ∧ h ∈ needs k
  accepted : accepted ⊆ taken

section Operations

variable {items taken accepted : List κ} {needs : κ → Finset κ} {board : Board κ} {k : κ}

theorem sound_empty (needs : κ → Finset κ) : Sound [] needs [] [] (empty : Board κ) where
  nodup := List.nodup_nil
  ready_iff := List.forall_mem_nil _
  known := List.forall_mem_nil _
  waits := List.forall_mem_nil _
  dependers _ _ := ⟨fun h => absurd h List.not_mem_nil, fun h => absurd h.1 List.not_mem_nil⟩
  accepted := List.nil_subset _

omit [DecidableEq κ] in
theorem nodup_append_one {l : List κ} (h : l.Nodup) (hk : k ∉ l) : (l ++ [k]).Nodup := by
  rw [← List.concat_eq_append]
  exact h.concat hk

theorem toFinset_append_one (l : List κ) (a : κ) : (l ++ [a]).toFinset = insert a l.toFinset := by
  ext x
  simp

theorem mem_dependers_wait (needs : List κ) (board : Board κ) (x y : κ) :
    y ∈ (needs.foldl (wait k) board).dependers x ↔ y ∈ board.dependers x ∨ (y = k ∧ x ∈ needs) := by
  induction needs generalizing board with
  | nil => simp
  | cons h needs ih =>
    rw [List.foldl_cons, ih]
    by_cases hx : x = h
    · simp [wait, hx]
      tauto
    · simp [wait, hx]

theorem ready_wait (needs : List κ) (board : Board κ) : (needs.foldl (wait k) board).ready = board.ready := by
  induction needs generalizing board with
  | nil => rfl
  | cons h needs ih => rw [List.foldl_cons, ih]; rfl

/-- A new item that needs nothing. -/
theorem sound_add_ready (h : Sound items needs [] [] board) (hk : k ∉ items) (hready : needs k = ∅) :
    Sound (items ++ [k]) needs [] [] { board with ready := board.ready ++ [k] } := by
  have hnot : k ∉ board.ready := fun hmem => hk (h.known k hmem)
  refine ⟨?_, fun x hx => ?_, fun x hx => ?_, fun x hx hne => ?_, fun x y => ?_, List.nil_subset _⟩
  · show (board.ready ++ [k]).Nodup
    exact nodup_append_one h.nodup hnot
  · rcases List.mem_append.mp hx with hx | hx
    · have hold : x ≠ k := fun heq => hk (heq ▸ hx)
      rw [← h.ready_iff x hx]
      simp [hold]
    · rw [List.mem_singleton] at hx
      simp [hx, hready]
  · rcases List.mem_append.mp hx with hx | hx
    · exact absurd hx List.not_mem_nil
    · rcases List.mem_append.mp hx with hx | hx
      · exact List.mem_append_left _ (h.known x hx)
      · exact List.mem_append_right _ hx
  · rcases List.mem_append.mp hx with hx | hx
    · exact h.waits x hx hne
    · rw [List.mem_singleton.mp hx] at hne
      exact absurd hready hne
  · show y ∈ board.dependers x ↔ _
    rw [h.dependers, List.mem_append, List.mem_singleton]
    constructor
    · exact fun ⟨hy, hx⟩ => ⟨.inl hy, hx⟩
    · rintro ⟨hy | rfl, hx⟩
      · exact ⟨hy, hx⟩
      · rw [hready] at hx
        exact absurd hx (Finset.notMem_empty x)

/-- A new item that waits for others. -/
theorem sound_add_waiting (h : Sound items needs [] [] board) (hk : k ∉ items) (needed : List κ)
    (hset : needed.toFinset = needs k) (hne : needs k ≠ ∅) :
    Sound (items ++ [k]) needs [] [] { needed.foldl (wait k) board with
      waits := fun x => if x = k then some needed.toFinset else board.waits x } := by
  refine ⟨?_, fun x hx => ?_, fun x hx => ?_, fun x hx hne' => ?_, fun x y => ?_, List.nil_subset _⟩
  · show ([] ++ (needed.foldl (wait k) board).ready).Nodup
    rw [ready_wait]
    exact h.nodup
  · show x ∈ [] ++ (needed.foldl (wait k) board).ready ↔ _
    rw [ready_wait]
    rcases List.mem_append.mp hx with hx | hx
    · exact h.ready_iff x hx
    · rw [List.mem_singleton] at hx
      subst hx
      constructor
      · exact fun hmem => absurd (h.known x hmem) hk
      · intro hsub
        exact absurd (Finset.subset_empty.mp hsub) hne
  · have hx' : x ∈ [] ++ (needed.foldl (wait k) board).ready := hx
    rw [ready_wait] at hx'
    exact List.mem_append_left _ (h.known x hx')
  · show (if x = k then some needed.toFinset else board.waits x) = _
    rcases List.mem_append.mp hx with hx | hx
    · have hold : x ≠ k := fun heq => hk (heq ▸ hx)
      rw [if_neg hold]
      exact h.waits x hx hne'
    · rw [List.mem_singleton] at hx
      rw [if_pos hx, hset, hx, List.toFinset_nil, Finset.sdiff_empty]
  · show y ∈ (needed.foldl (wait k) board).dependers x ↔ _
    rw [mem_dependers_wait, h.dependers, List.mem_append, List.mem_singleton, ← List.mem_toFinset (l := needed), hset]
    constructor
    · rintro (⟨hy, hx⟩ | ⟨rfl, hx⟩)
      · exact ⟨.inl hy, hx⟩
      · exact ⟨.inr rfl, hx⟩
    · rintro ⟨hy | rfl, hx⟩
      · exact .inl ⟨hy, hx⟩
      · exact .inr ⟨rfl, hx⟩

/-- **A new item.** -/
theorem sound_add (h : Sound items needs [] [] board) (hk : k ∉ items) (needed : List κ)
    (hset : needed.toFinset = needs k) :
    Sound (items ++ [k]) needs [] [] (board.add k needed) := by
  have hempty : needs k = ∅ ↔ needed = [] := by rw [← hset, List.toFinset_eq_empty_iff]
  unfold Board.add
  by_cases hnil : needed = []
  · rw [if_pos hnil]
    exact sound_add_ready h hk (hempty.mpr hnil)
  · rw [if_neg hnil]
    exact sound_add_waiting h hk needed hset (mt hempty.mp hnil)

/-- **An item is taken.** -/
theorem sound_take (h : Sound items needs taken accepted board) (hk : k ∈ board.ready) :
    Sound items needs (taken ++ [k]) accepted (board.take k) := by
  have hperm : ((taken ++ [k]) ++ board.ready.erase k).Perm (taken ++ board.ready) := by
    rw [List.append_assoc]
    exact (List.perm_cons_erase hk).symm.append_left taken
  refine ⟨hperm.nodup_iff.mpr h.nodup, fun x hx => ?_, fun x hx => ?_, h.waits, h.dependers,
    fun x hx => List.mem_append_left _ (h.accepted hx)⟩
  · exact hperm.mem_iff.trans (h.ready_iff x hx)
  · exact h.known x (hperm.mem_iff.mp hx)

/-- What the board stands for while those that wait for `a` are gone through: they have been told up to `done`. -/
structure Releasing (items : List κ) (needs : κ → Finset κ) (taken accepted : List κ) (a : κ) (done : List κ)
    (board : Board κ) : Prop where
  nodup : (taken ++ board.ready).Nodup
  ready_iff : ∀ k ∈ items,
    k ∈ taken ++ board.ready ↔ needs k ⊆ (if k ∈ done then accepted ++ [a] else accepted).toFinset
  known : ∀ k ∈ taken ++ board.ready, k ∈ items
  waits : ∀ k ∈ items, needs k ≠ ∅ →
    board.waits k = some (needs k \ (if k ∈ done then accepted ++ [a] else accepted).toFinset)

/-- One item that waited is told. -/
theorem releasing_one {a : κ} {done : List κ} (h : Releasing items needs taken accepted a done board)
    (hk : k ∈ items) (ha : a ∈ needs k) : ∃ board', releaseOne a board k = some board' ∧
      board'.dependers = board.dependers ∧ Releasing items needs taken accepted a (done ++ [k]) board' := by
  have hne : needs k ≠ ∅ := Finset.ne_empty_of_mem ha
  have hwaits := h.waits k hk hne
  have hmem : ∀ x, x ≠ k → (x ∈ done ++ [k] ↔ x ∈ done) := fun x hx => by simp [hx]
  have hmem_k : k ∈ done ++ [k] := List.mem_append_right _ List.mem_cons_self
  have hset := toFinset_append_one accepted a
  -- what the item still needs afterwards
  have hafter : (needs k \ (if k ∈ done then accepted ++ [a] else accepted).toFinset).erase a =
      needs k \ (accepted ++ [a]).toFinset := by
    by_cases hdone : k ∈ done
    · rw [if_pos hdone]
      exact Finset.erase_eq_of_notMem fun hx => (Finset.mem_sdiff.mp hx).2
        (by rw [hset]; exact Finset.mem_insert_self _ _)
    · rw [if_neg hdone, hset, Finset.sdiff_insert]
  unfold releaseOne
  rw [hwaits]
  dsimp only
  by_cases hnone : needs k \ (if k ∈ done then accepted ++ [a] else accepted).toFinset = ∅
  · rw [if_pos hnone]
    have hnone' : needs k \ (accepted ++ [a]).toFinset = ∅ := by rw [← hafter, hnone, Finset.erase_empty]
    have hready : k ∈ taken ++ board.ready := (h.ready_iff k hk).mpr (Finset.sdiff_eq_empty_iff_subset.mp hnone)
    refine ⟨board, rfl, rfl, h.nodup, fun x hx => ?_, h.known, fun x hx hne' => ?_⟩
    · by_cases hxk : x = k
      · subst hxk
        rw [if_pos hmem_k]
        exact ⟨fun _ => Finset.sdiff_eq_empty_iff_subset.mp hnone', fun _ => hready⟩
      · simp only [hmem x hxk]
        exact h.ready_iff x hx
    · by_cases hxk : x = k
      · subst hxk
        rw [if_pos hmem_k, hwaits, hnone, hnone']
      · simp only [hmem x hxk]
        exact h.waits x hx hne'
  · rw [if_neg hnone, hafter]
    have hnot : k ∉ taken ++ board.ready := fun hready =>
      hnone (Finset.sdiff_eq_empty_iff_subset.mpr ((h.ready_iff k hk).mp hready))
    refine ⟨_, rfl, rfl, ?_, fun x hx => ?_, fun x hx => ?_, fun x hx hne' => ?_⟩
    · show (taken ++ if needs k \ (accepted ++ [a]).toFinset = ∅ then board.ready ++ [k] else board.ready).Nodup
      split
      · rw [← List.append_assoc]
        exact nodup_append_one h.nodup hnot
      · exact h.nodup
    · show (x ∈ taken ++ if needs k \ (accepted ++ [a]).toFinset = ∅ then board.ready ++ [k] else board.ready) ↔ _
      by_cases hxk : x = k
      · subst hxk
        rw [if_pos hmem_k, ← Finset.sdiff_eq_empty_iff_subset]
        by_cases hlast : needs x \ (accepted ++ [a]).toFinset = ∅
        · rw [if_pos hlast]
          exact ⟨fun _ => hlast, fun _ => by simp⟩
        · rw [if_neg hlast]
          exact ⟨fun hready => absurd hready hnot, fun h => absurd h hlast⟩
      · simp only [hmem x hxk]
        rw [← h.ready_iff x hx]
        split
        · simp [hxk]
        · rfl
    · have hx' : x ∈ taken ++ if needs k \ (accepted ++ [a]).toFinset = ∅ then board.ready ++ [k] else board.ready := hx
      split at hx'
      · rw [← List.append_assoc] at hx'
        rcases List.mem_append.mp hx' with hx' | hx'
        · exact h.known x hx'
        · exact List.mem_singleton.mp hx' ▸ hk
      · exact h.known x hx'
    · show (if x = k then some (needs k \ (accepted ++ [a]).toFinset) else board.waits x) = _
      by_cases hxk : x = k
      · subst hxk
        rw [if_pos rfl, if_pos hmem_k]
      · rw [if_neg hxk]
        simp only [hmem x hxk]
        exact h.waits x hx hne'

/-- All items that waited are told, one after the other. -/
theorem releasing_all {a : κ} : ∀ (l done : List κ) (b : Board κ), (∀ k ∈ l, k ∈ items ∧ a ∈ needs k) →
    Releasing items needs taken accepted a done b → ∃ board', l.foldlM (releaseOne a) b = some board' ∧
      board'.dependers = b.dependers ∧ Releasing items needs taken accepted a (done ++ l) board'
  | [], done, b, _, hb => ⟨b, rfl, rfl, (List.append_nil done).symm ▸ hb⟩
  | k :: l, done, b, hl, hb => by
    obtain ⟨⟨hk, hak⟩, hl⟩ := List.forall_mem_cons.mp hl
    obtain ⟨b₁, hone, hdep₁, hb₁⟩ := releasing_one hb hk hak
    obtain ⟨b₂, hrest, hdep₂, hb₂⟩ := releasing_all l (done ++ [k]) b₁ hl hb₁
    refine ⟨b₂, ?_, hdep₂.trans hdep₁, ?_⟩
    · rw [List.foldlM_cons, hone]
      exact hrest
    · rwa [List.append_assoc] at hb₂

/-- **An item has been accepted**: those that needed nothing else become ready, each once. -/
theorem sound_release (h : Sound items needs taken accepted board) {a : κ} (ha : a ∈ taken) :
    ∃ board', board.release a = some board' ∧ Sound items needs taken (accepted ++ [a]) board' := by
  have hstart : Releasing items needs taken accepted a [] board :=
    ⟨h.nodup, fun k hk => by rw [if_neg List.not_mem_nil]; exact h.ready_iff k hk, h.known,
      fun k hk hne => by rw [if_neg List.not_mem_nil]; exact h.waits k hk hne⟩
  have hnot : ∀ k ∈ items, k ∉ board.dependers a → a ∉ needs k := fun k hk hdone hak =>
    hdone ((h.dependers a k).mpr ⟨hk, hak⟩)
  obtain ⟨board', hrelease, hdep, hend⟩ := releasing_all _ _ _ (fun k hk => (h.dependers a k).mp hk) hstart
  refine ⟨board', hrelease, hend.nodup, fun k hk => ?_, hend.known, fun k hk hne => ?_, fun x y => ?_,
    List.append_subset.mpr ⟨h.accepted, List.forall_mem_singleton.mpr ha⟩⟩
  · rw [hend.ready_iff k hk, List.nil_append]
    by_cases hdone : k ∈ board.dependers a
    · rw [if_pos hdone]
    · rw [if_neg hdone, toFinset_append_one, Finset.subset_insert_iff_of_notMem (hnot k hk hdone)]
  · rw [hend.waits k hk hne, List.nil_append]
    by_cases hdone : k ∈ board.dependers a
    · rw [if_pos hdone]
    · rw [if_neg hdone, toFinset_append_one, Finset.sdiff_insert_of_notMem (hnot k hk hdone)]
  · rw [hdep]
    exact h.dependers x y

/-- **At the end an item was taken exactly when all that it needs was accepted.** -/
theorem Sound.taken_iff (h : Sound items needs taken accepted board) (hready : board.ready = []) :
    ∀ k ∈ items, k ∈ taken ↔ needs k ⊆ accepted.toFinset := by
  intro k hk
  rw [← h.ready_iff k hk, hready, List.append_nil]

/-- No more items are taken than there are. -/
theorem Sound.length_le (h : Sound items needs taken accepted board) :
    taken.length + board.ready.length ≤ items.length := by
  rw [← List.length_append]
  exact (List.subperm_of_subset h.nodup h.known).length_le

end Operations

end Dependers
