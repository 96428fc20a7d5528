import Mathlib

/-!
# Loops that try again

A loop takes turns: a turn fails, or is the last one, or leaves a state to try again with. The loop has fuel.

* `retry_isSome` : **a loop that goes down** ends.
* `retry_ok` : what the turns keep holds at the last one.
* `above_lt` : a state that climbs among finitely many levels has fewer of them above it.
-/

set_option autoImplicit false

namespace Retry

universe u v w

/-- The end of a turn. -/
inductive Turn (σ : Type u) (α : Type v) where
  | again (s : σ)
  | done (a : α)

variable {σ : Type u} {α : Type v} {ε : Type w} {step : Nat → σ → Except ε (Turn σ α)}

/-- The loop, from turn `k` on. -/
def retry (step : Nat → σ → Except ε (Turn σ α)) : Nat → Nat → σ → Option (Except ε α)
  | 0, _, _ => none
  | fuel + 1, k, s =>
    match step k s with
    | .error e => some (.error e)
    | .ok (.done a) => some (.ok a)
    | .ok (.again s') => retry step fuel (k + 1) s'

/-- More fuel changes nothing. -/
theorem retry_mono {r : Except ε α} : ∀ {fuel fuel' k : Nat} {s : σ}, retry step fuel k s = some r → fuel ≤ fuel' →
    retry step fuel' k s = some r
  | 0, _, _, _, h, _ => nomatch h
  | fuel + 1, 0, _, _, _, hle => absurd hle (by omega)
  | fuel + 1, fuel' + 1, k, s, h, hle => by
    unfold retry at h ⊢
    split
    · rename_i heq
      rwa [heq] at h
    · rename_i heq
      rwa [heq] at h
    · rename_i heq
      rw [heq] at h
      exact retry_mono h (by omega)

/-- **A loop that goes down** ends before its fuel does. -/
theorem retry_isSome (Inv : σ → Prop) (rank : σ → Nat)
    (hstep : ∀ k s s', Inv s → step k s = .ok (.again s') → Inv s' ∧ rank s' < rank s) : ∀ {fuel k : Nat} {s : σ},
    Inv s → rank s < fuel → ∃ r, retry step fuel k s = some r
  | 0, _, _, _, hfuel => absurd hfuel (Nat.not_lt_zero _)
  | fuel + 1, k, s, hs, hfuel => by
    unfold retry
    split
    · exact ⟨_, rfl⟩
    · exact ⟨_, rfl⟩
    · rename_i s' heq
      obtain ⟨hs', hrank⟩ := hstep k s s' hs heq
      exact retry_isSome Inv rank hstep hs' (by omega)

/-- **The last turn** of a loop is taken in a state that has what the turns keep. -/
theorem retry_ok (Inv : σ → Prop) (hstep : ∀ k s s', Inv s → step k s = .ok (.again s') → Inv s') {a : α} :
    ∀ {fuel k : Nat} {s : σ}, Inv s → retry step fuel k s = some (.ok a) → ∃ k' s', Inv s' ∧ step k' s' = .ok (.done a)
  | 0, _, _, _, h => nomatch h
  | fuel + 1, k, s, hs, h => by
    unfold retry at h
    split at h
    · cases h
    · rename_i heq
      cases h
      exact ⟨k, s, hs, heq⟩
    · rename_i s' heq
      exact retry_ok Inv hstep (hstep k s s' hs heq) h

/-! ## Levels -/

section Levels

variable [LinearOrder σ] {levels : List σ} {s s' : σ}

/-- The number of levels above a state. -/
def above (levels : List σ) (s : σ) : Nat := levels.countP (s < ·)

theorem above_le_length (levels : List σ) (s : σ) : above levels s ≤ levels.length := List.countP_le_length

/-- **A state that climbs** to one of the levels has fewer of them above it. -/
theorem above_lt (hmem : s' ∈ levels) (hlt : s < s') : above levels s' < above levels s := by
  obtain ⟨before, after, rfl⟩ := List.append_of_mem hmem
  have hle : ∀ l : List σ, l.countP (s' < ·) ≤ l.countP (s < ·) := fun l =>
    List.countP_mono_left fun x _ hx => decide_eq_true (lt_trans hlt (of_decide_eq_true hx))
  have hbefore := hle before
  have hafter := hle after
  have hnew : (s' :: after).countP (s < ·) = after.countP (s < ·) + 1 := List.countP_cons_of_pos (decide_eq_true hlt)
  have hold : (s' :: after).countP (s' < ·) = after.countP (s' < ·) := List.countP_cons_of_neg (by simp)
  unfold above
  rw [List.countP_append, List.countP_append, hnew, hold]
  omega

end Levels

end Retry
