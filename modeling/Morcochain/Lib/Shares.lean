import Mathlib

/-!
# Proportional shares

An amount is shared out in proportion to weights. Shares that are too small are dropped, and what is left is shared out
again.

* `sum_share` : **the shares add up to the amount.**
* `share_mul_comm` : they are in proportion to the weights.
* `share_le_share_of_total` : a share grows when the total shrinks.
* `share_kept` : **what is kept once is kept for good.**
-/

set_option autoImplicit false

namespace Shares

universe u

variable {K : Type u} [Field K]

/-- The share of a weight. -/
def share (amount total w : K) : K := w * amount / total

/-- **The shares add up** to the amount. -/
theorem sum_share (amount : K) {ws : List K} (h : ws.sum ≠ 0) : (ws.map (share amount ws.sum)).sum = amount := by
  have hsum : (ws.map (share amount ws.sum)).sum = ws.sum * amount / ws.sum := by
    unfold share
    simp only [mul_div_assoc]
    rw [List.sum_map_mul_right, List.map_id']
  rw [hsum, mul_div_cancel_left₀ amount h]

/-- Shares are in proportion to the weights. -/
theorem share_mul_comm (amount total w w' : K) : share amount total w * w' = share amount total w' * w := by
  unfold share
  ring

section Order

variable [LinearOrder K] [IsStrictOrderedRing K] {amount total total' w w' minimum : K}

/-- A larger weight has a larger share. -/
theorem share_le_share (hamount : 0 ≤ amount) (htotal : 0 < total) (h : w ≤ w') :
    share amount total w ≤ share amount total w' := by
  unfold share
  gcongr

/-- **A share grows when the total shrinks.** -/
theorem share_le_share_of_total (hamount : 0 ≤ amount) (hw : 0 ≤ w) (hpos : 0 < total') (h : total' ≤ total) :
    share amount total w ≤ share amount total' w := by
  unfold share
  have := mul_nonneg hw hamount
  gcongr

theorem sum_filter_le (p : K → Bool) : ∀ {ws : List K}, (∀ w ∈ ws, 0 ≤ w) → (ws.filter p).sum ≤ ws.sum
  | [], _ => le_refl _
  | w :: ws, h => by
    obtain ⟨hw, hws⟩ := List.forall_mem_cons.mp h
    have ih := sum_filter_le p hws
    rw [List.filter_cons]
    split
    · rw [List.sum_cons, List.sum_cons]
      gcongr
    · rw [List.sum_cons]
      exact ih.trans (le_add_of_nonneg_left hw)

/-- **What is kept once is kept for good**: with the smaller total, no share that was large enough is too small. -/
theorem share_kept (hamount : 0 ≤ amount) (p : K → Bool) {ws : List K} (hws : ∀ w ∈ ws, 0 < w) {w : K}
    (hw : w ∈ ws.filter p)
    (h : minimum ≤ share amount ws.sum w) : minimum ≤ share amount (ws.filter p).sum w := by
  have hmem : ∀ w' ∈ ws.filter p, 0 < w' := fun w' hw' => hws w' (List.mem_of_mem_filter hw')
  have hpos : 0 < (ws.filter p).sum := (hmem w hw).trans_le (List.single_le_sum (fun w' hw' => (hmem w' hw').le) w hw)
  exact h.trans (share_le_share_of_total hamount (hmem w hw).le hpos (sum_filter_le p fun w' hw' => (hws w' hw').le))

end Order

end Shares
