import Mathlib

/-!
# The first best entry of a list

A loop over a list keeps the first entry of greatest positive weight among those that qualify. `firstBest` is what it
keeps; `firstBest_eq_some` says **which entry that is** when the list is sorted: the greatest weight decides, and among
equal weights the order.
-/

set_option autoImplicit false

namespace FirstBest

variable {α : Type} {p : α → Prop} [DecidablePred p] {w : α → Int} {R : α → α → Prop}

/-- One turn of the loop. -/
def keep (p : α → Prop) [DecidablePred p] (w : α → Int) (b : Option α) (e : α) : Option α :=
  if p e ∧ (b.map w).getD 0 < w e then some e else b

/-- The entry that the loop keeps. -/
def firstBest (p : α → Prop) [DecidablePred p] (w : α → Int) (l : List α) : Option α := l.foldl (keep p w) none

theorem firstBest_concat (l : List α) (e : α) :
    firstBest p w (l ++ [e]) = keep p w (firstBest p w l) e := by
  rw [firstBest, List.foldl_concat]
  rfl

/-- The entry kept qualifies, has a positive weight, and no qualified entry weighs more; one of the same weight comes
after it. -/
def IsFirstBest (p : α → Prop) (w : α → Int) (R : α → α → Prop) (l : List α) (e : α) : Prop :=
  e ∈ l ∧ p e ∧ 0 < w e ∧ ∀ e' ∈ l, p e' → w e' < w e ∨ w e' = w e ∧ (e' = e ∨ R e e')

/-- When nothing is kept, no qualified entry has a positive weight. -/
theorem firstBest_eq_none {l : List α} (h : firstBest p w l = none) : ∀ e ∈ l, p e → w e ≤ 0 := by
  induction l using List.reverseRecOn with
  | nil => exact fun e he => nomatch he
  | append_singleton l x ih =>
    rw [firstBest_concat, keep] at h
    split at h
    · cases h
    · rename_i hx
      intro e he hp
      rcases List.mem_append.mp he with he | he
      · exact ih h e he hp
      · rw [List.mem_singleton] at he
        subst he
        rw [h] at hx
        exact Int.not_lt.mp fun hlt => hx ⟨hp, hlt⟩

theorem isFirstBest_of_firstBest {l : List α} (hl : l.Pairwise R) {e : α} (h : firstBest p w l = some e) :
    IsFirstBest p w R l e := by
  induction l using List.reverseRecOn generalizing e with
  | nil => cases h
  | append_singleton l x ih =>
    have hpair := List.pairwise_append.mp hl
    rw [firstBest_concat, keep] at h
    split at h
    · rename_i hx
      cases h
      have hpos : 0 ≤ ((firstBest p w l).map w).getD 0 := by
        cases hb : firstBest p w l with
        | none => exact Int.le_refl _
        | some b => exact Int.le_of_lt (ih hpair.1 hb).2.2.1
      refine ⟨by simp, hx.1, Int.lt_of_le_of_lt hpos hx.2, fun e' he' hp' => ?_⟩
      rcases List.mem_append.mp he' with he' | he'
      · refine .inl (Int.lt_of_le_of_lt ?_ hx.2)
        cases hb : firstBest p w l with
        | none => exact firstBest_eq_none hb e' he' hp'
        | some b =>
          rcases (ih hpair.1 hb).2.2.2 e' he' hp' with hlt | ⟨heq, -⟩
          · exact Int.le_of_lt hlt
          · exact Int.le_of_eq heq
      · exact .inr (by simp [List.mem_singleton.mp he'])
    · rename_i hx
      obtain ⟨hmem, hp, hpos, hbest⟩ := ih hpair.1 h
      refine ⟨List.mem_append_left _ hmem, hp, hpos, fun e' he' hp' => ?_⟩
      rcases List.mem_append.mp he' with he' | he'
      · exact hbest e' he' hp'
      · rw [List.mem_singleton] at he'
        subst he'
        rw [h] at hx
        have hle : w e' ≤ w e := Int.not_lt.mp fun hlt => hx ⟨hp', hlt⟩
        rcases Int.lt_or_eq_of_le hle with hlt | heq
        · exact .inl hlt
        · exact .inr ⟨heq, .inr (hpair.2.2 e hmem e' (by simp))⟩

/-- **Which entry is kept** from a list that is sorted by `R`. -/
theorem firstBest_eq_some {l : List α} (hl : l.Pairwise R) (hR : ∀ a b, R a b → ¬ R b a) {e : α} :
    firstBest p w l = some e ↔ IsFirstBest p w R l e := by
  refine ⟨isFirstBest_of_firstBest hl, fun h => ?_⟩
  obtain ⟨hmem, hp, hpos, hbest⟩ := h
  cases hb : firstBest p w l with
  | none =>
    have := firstBest_eq_none hb e hmem hp
    omega
  | some b =>
    obtain ⟨hmem', hp', -, hbest'⟩ := isFirstBest_of_firstBest hl hb
    have h₁ := hbest b hmem' hp'
    have h₂ := hbest' e hmem hp
    have heq : b = e := by
      rcases h₁ with h₁ | ⟨hw, h₁ | h₁⟩
      · rcases h₂ with h₂ | ⟨h₂, -⟩ <;> omega
      · exact h₁
      · rcases h₂ with h₂ | ⟨-, h₂ | h₂⟩
        · omega
        · exact h₂.symm
        · exact absurd h₂ (hR _ _ h₁)
    rw [heq]

end FirstBest
