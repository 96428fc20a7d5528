import Mathlib

/-!
# Supported sets

Items need resources and give resources. A set of items is supported over a ground when every resource that an item of
the set needs is in the ground or is given by an item of the set.

* `Supported.insert` : an item whose needs are met may be added.
* `Supported.prune` : items may be taken away together with all that depends on them.
* `Supported.drop` : an item may be taken away alone when the ground has what it gives.
* `Pruned.eq_sdiff` : what is left when an item is taken away with no more than what depends on it.
* `ncard_dependents_lt` : without cycles, fewer items depend on a dependent.
-/

set_option autoImplicit false

namespace Support

universe u v

variable {α : Type u} {ρ : Type v} (needs gives : α → Set ρ)

/-- The resources that the items of a set give. -/
def Given (S : Set α) : Set ρ := {r | ∃ b ∈ S, r ∈ gives b}

/-- Every need of an item of the set is met by the ground or by the set. -/
def Supported (ground : Set ρ) (S : Set α) : Prop := ∀ a ∈ S, needs a ⊆ ground ∪ Given gives S

/-- A set without some of its items, and without all those that need what these give. -/
structure Pruned (S S' : Set α) : Prop where
  subset : S' ⊆ S
  closed : ∀ b ∈ S, b ∉ S' → ∀ a ∈ S', Disjoint (needs a) (gives b)

variable {needs gives} {ground ground' : Set ρ} {S S' S'' : Set α}

theorem given_mono (h : S ⊆ S') : Given gives S ⊆ Given gives S' := fun _ ⟨b, hb, hr⟩ => ⟨b, h hb, hr⟩

theorem Pruned.refl (S : Set α) : Pruned needs gives S S := ⟨Set.Subset.rfl, fun _ hb hb' => absurd hb hb'⟩

/-- Pruning twice is pruning. -/
theorem Pruned.trans (h : Pruned needs gives S S') (h' : Pruned needs gives S' S'') : Pruned needs gives S S'' := by
  refine ⟨h'.subset.trans h.subset, fun b hb hb'' a ha => ?_⟩
  by_cases hb' : b ∈ S'
  · exact h'.closed b hb' hb'' a ha
  · exact h.closed b hb hb' a (h'.subset ha)

/-- The ground may change as long as it keeps what is needed of it. -/
theorem Supported.change (h : Supported needs gives ground S)
    (hkeep : ∀ a ∈ S, ∀ r ∈ needs a, r ∈ ground → r ∈ ground' ∪ Given gives S) : Supported needs gives ground' S := by
  intro a ha r hr
  rcases h a ha hr with hg | hg
  · exact hkeep a ha r hr hg
  · exact .inr hg

/-- **An item whose needs are met may be added**, and what it gives need not be in the ground any more. -/
theorem Supported.insert {a : α} (h : Supported needs gives ground S)
    (ha : needs a ⊆ ground' ∪ Given gives (insert a S)) (hground : ground ⊆ ground' ∪ gives a) :
    Supported needs gives ground' (insert a S) := by
  rintro b (rfl | hb) r hr
  · exact ha hr
  · rcases h b hb hr with hg | hg
    · rcases hground hg with hg | hg
      · exact .inl hg
      · exact .inr ⟨a, Set.mem_insert _ _, hg⟩
    · exact .inr (given_mono (Set.subset_insert _ _) hg)

/-- **What is left of a pruned set is supported**, also over a ground without what nothing left needs. -/
theorem Supported.prune (h : Supported needs gives ground S) (hp : Pruned needs gives S S')
    (hground : ∀ a ∈ S', ∀ r ∈ needs a, r ∈ ground → r ∈ ground') : Supported needs gives ground' S' := by
  intro a ha r hr
  rcases h a (hp.subset ha) hr with hg | ⟨b, hb, hg⟩
  · exact .inl (hground a ha r hr hg)
  · by_cases hb' : b ∈ S'
    · exact .inr ⟨b, hb', hg⟩
    · exact absurd hg (Set.disjoint_left.mp (hp.closed b hb hb' a ha) hr)

/-- **An item may be taken away alone when the ground has what it gives.** -/
theorem Supported.drop (h : Supported needs gives ground S) (hsub : S' ⊆ S)
    (hdrop : ∀ b ∈ S, b ∉ S' → gives b ⊆ ground) : Supported needs gives ground S' := by
  intro a ha r hr
  rcases h a (hsub ha) hr with hg | ⟨b, hb, hg⟩
  · exact .inl hg
  · by_cases hb' : b ∈ S'
    · exact .inr ⟨b, hb', hg⟩
    · exact .inl (hdrop b hb hb' hg)

/-! ## Dependents -/

section Dependents

variable (needs gives)

/-- `b` needs something that `a` gives. -/
def Feeds (a b : α) : Prop := ∃ r ∈ needs b, r ∈ gives a

/-- The items of a set that depend on an item, directly or through others of the set. -/
def Dependents (S : Set α) (a : α) : Set α := {b | Relation.TransGen (fun x y => y ∈ S ∧ Feeds needs gives x y) a b}

/-- No item depends on itself. -/
def Acyclic (U : Set α) : Prop := ∀ a, a ∉ Dependents needs gives U a

variable {needs gives} {a b : α} {U : Set α}

theorem mem_dependents (hb : b ∈ S) (h : Feeds needs gives a b) : b ∈ Dependents needs gives S a := .single ⟨hb, h⟩

theorem dependents_subset : Dependents needs gives S a ⊆ S := fun _ hb => by
  cases hb with
  | single h => exact h.1
  | tail _ h => exact h.1

theorem dependents_mono (h : S' ⊆ S) : Dependents needs gives S' a ⊆ Dependents needs gives S a :=
  fun _ hb => Relation.TransGen.mono (fun _ _ hxy => ⟨h hxy.1, hxy.2⟩) _ _ hb

theorem dependents_trans (hb : b ∈ Dependents needs gives S a) :
    Dependents needs gives S b ⊆ Dependents needs gives S a :=
  fun _ hc => .trans hb hc

theorem acyclic_of_rank (rank : α → Nat) (h : ∀ a b, b ∈ U → Feeds needs gives a b → rank a < rank b) :
    Acyclic needs gives U := by
  have hlt : ∀ {a b}, b ∈ Dependents needs gives U a → rank a < rank b := by
    intro a b hb
    induction hb with
    | single hab => exact h _ _ hab.1 hab.2
    | tail _ hbc ih => exact ih.trans (h _ _ hbc.1 hbc.2)
  exact fun a ha => lt_irrefl _ (hlt ha)

/-- **Fewer items depend on a dependent.** -/
theorem ncard_dependents_lt (hacyclic : Acyclic needs gives U) (hsub : S ⊆ U) (hfin : S.Finite) (hb : b ∈ S)
    (h : Feeds needs gives a b) : (Dependents needs gives S b).ncard < (Dependents needs gives S a).ncard := by
  have hmem := mem_dependents hb h
  refine Set.ncard_lt_ncard ⟨dependents_trans hmem, fun hle => ?_⟩ (hfin.subset dependents_subset)
  exact hacyclic b (dependents_mono hsub (hle hmem))

/-- **What depends on an item that is taken away** is taken away. -/
theorem Pruned.dependents (h : Pruned needs gives S S') (hb : b ∈ S) (hb' : b ∉ S') :
    Disjoint (Dependents needs gives S b) S' := by
  refine Set.disjoint_left.mpr fun c hc => ?_
  induction hc with
  | single hbc =>
    obtain ⟨-, r, hr, hg⟩ := hbc
    exact fun hc' => Set.disjoint_left.mp (h.closed b hb hb' _ hc') hr hg
  | tail hac hcd ih =>
    obtain ⟨-, r, hr, hg⟩ := hcd
    exact fun hd' => Set.disjoint_left.mp (h.closed _ (dependents_subset hac) ih _ hd') hr hg

/-- **Exactly the dependents of an item** are taken away with it, when nothing that needs it is left and nothing else
goes. -/
theorem Pruned.eq_sdiff (h : Pruned needs gives S S') (ha : a ∉ S') (hfree : ∀ b ∈ S', ¬ Feeds needs gives a b)
    (honly : ∀ b ∈ S, b ∉ S' → b = a ∨ b ∈ Dependents needs gives S a) : S' =
      S \ insert a (Dependents needs gives S a) := by
  have hgone : ∀ b ∈ Dependents needs gives S a, b ∉ S' := by
    intro b hb
    induction hb with
    | single hab => exact fun hb' => hfree _ hb' hab.2
    | tail hab hbc ih =>
      obtain ⟨-, r, hr, hg⟩ := hbc
      exact fun hc' => Set.disjoint_left.mp (h.closed _ (dependents_subset hab) ih _ hc') hr hg
  refine Set.Subset.antisymm (fun b hb => ⟨h.subset hb, ?_⟩) fun b hb => ?_
  · rintro (rfl | hdep)
    · exact ha hb
    · exact hgone b hdep hb
  · by_contra hb'
    exact hb.2 ((honly b hb.1 hb').imp id id)

end Dependents

end Support
