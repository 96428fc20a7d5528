import Mathlib

/-!
# Consumers that take a stream in pieces

A consumer is handed a piece of a stream and takes some of it in a turn; its loop takes turns until the piece is used
up. When a turn does what its first element does alone, and then possibly more of the same turn, the loop takes the
elements one by one, as far as its result goes; so it does not matter how the stream was cut.

* `consume` : the loop of a consumer, for a number of turns.
* `OneByOne` : what a turn over several elements has to do with the turn over the first one.
* `consume_eq` : the loop is the fold over the elements.
* `consume_append` : **two pieces leave what they leave as one**.
-/

set_option autoImplicit false

namespace Pieces

variable {σ α : Type} {turn : σ → List α → Option (σ × Nat)} {P : σ → Prop}

/-- The loop of a consumer, for a number of turns; none where a turn stops it. -/
def consume (turn : σ → List α → Option (σ × Nat)) : Nat → σ → List α → Option σ
  | _, s, [] => some s
  | 0, _, _ :: _ => none
  | n + 1, s, a :: l => (turn s (a :: l)).bind fun r => consume turn n r.1 ((a :: l).drop r.2)

/-- A turn that is handed one element. -/
def takeOne (turn : σ → List α → Option (σ × Nat)) (s : σ) (a : α) : Option σ := (turn s [a]).map (·.1)

/-- A turn takes its first element alone, or that one and then what a turn from there takes. -/
structure OneByOne (turn : σ → List α → Option (σ × Nat)) (P : σ → Prop) : Prop where
  keeps : ∀ s a s', P s → takeOne turn s a = some s' → P s'
  single : ∀ s a r, P s → turn s [a] = some r → r.2 = 1
  turn_cons : ∀ s a b l, P s → turn s (a :: b :: l) = turn s [a] ∨
    ∃ s', turn s [a] = some (s', 1) ∧ turn s (a :: b :: l) = (turn s' (b :: l)).map fun r => (r.1, r.2 + 1)

/-- A turn that took the whole piece. -/
theorem consume_of_turn {s s' : σ} {l : List α} (hne : l ≠ []) (h : turn s l = some (s', l.length)) :
    consume turn l.length s l = some s' := by
  cases l with
  | nil => exact absurd rfl hne
  | cons a l =>
    rw [List.length_cons, consume, h]
    show consume turn l.length s' ((a :: l).drop (a :: l).length) = _
    rw [List.drop_length]
    cases l <;> rfl

/-- A turn that stopped the loop. -/
theorem consume_of_stop {s : σ} {l : List α} (hne : l ≠ []) (h : turn s l = none) :
    consume turn l.length s l = none := by
  cases l with
  | nil => exact absurd rfl hne
  | cons a l =>
    rw [List.length_cons, consume, h]
    rfl

/-- A turn that took its first element alone: the loop goes on behind it. -/
theorem consume_of_single (ho : OneByOne turn P) {s : σ} (hs : P s) {a : α} {l : List α} (n : Nat)
    (h : turn s (a :: l) = turn s [a]) :
    consume turn (n + 1) s (a :: l) = (takeOne turn s a).bind fun s' => consume turn n s' l := by
  unfold takeOne
  rw [consume, h]
  cases hr : turn s [a] with
  | none => rfl
  | some r =>
    have h1 : r.2 = 1 := ho.single s a r hs hr
    show consume turn n r.1 ((a :: l).drop r.2) = consume turn n r.1 l
    rw [h1, List.drop_one, List.tail_cons]

/-- **The loop takes the elements one by one.** -/
theorem consume_eq (ho : OneByOne turn P) (l : List α) :
    ∀ n s, P s → l.length ≤ n → consume turn n s l = l.foldlM (takeOne turn) s := by
  induction l with
  | nil =>
    intro n s _ _
    cases n <;> rfl
  | cons a l ih =>
    intro n s hs hn
    rw [List.length_cons] at hn
    obtain ⟨n, rfl⟩ : ∃ k, n = k + 1 := ⟨n - 1, by omega⟩
    -- the turn over the whole piece ends behind the first element
    have hsingle (h : turn s (a :: l) = turn s [a]) :
        consume turn (n + 1) s (a :: l) = (a :: l).foldlM (takeOne turn) s := by
      rw [consume_of_single ho hs n h, List.foldlM_cons]
      cases hone : takeOne turn s a with
      | none => rfl
      | some s' => exact ih n s' (ho.keeps s a s' hs hone) (by omega)
    cases l with
    | nil => exact hsingle rfl
    | cons b l =>
      rcases ho.turn_cons s a b l hs with h | ⟨s', hone, h⟩
      · exact hsingle h
      · have htake : takeOne turn s a = some s' := by
          unfold takeOne
          rw [hone]
          rfl
        rw [List.foldlM_cons, htake]
        show _ = (b :: l).foldlM (takeOne turn) s'
        rw [← ih (n + 1) s' (ho.keeps s a s' hs htake) (by omega), consume, consume, h]
        cases turn s' (b :: l) with
        | none => rfl
        | some r => rfl

/-- What the elements keep. -/
theorem foldlM_keeps (ho : OneByOne turn P) {l : List α} {s s' : σ} (hs : P s)
    (h : l.foldlM (takeOne turn) s = some s') : P s' := by
  induction l generalizing s with
  | nil => exact Option.some.inj h ▸ hs
  | cons a l ih =>
    rw [List.foldlM_cons] at h
    obtain ⟨s₁, hone, hrest⟩ := Option.bind_eq_some_iff.mp h
    exact ih (ho.keeps s a s₁ hs hone) hrest

/-- **Two pieces leave what they leave as one.** -/
theorem consume_append (ho : OneByOne turn P) {s : σ} (hs : P s) (a b : List α) :
    consume turn (a ++ b).length s (a ++ b) =
      (consume turn a.length s a).bind fun s' => consume turn b.length s' b := by
  rw [consume_eq ho _ _ s hs le_rfl, consume_eq ho _ _ s hs le_rfl, List.foldlM_append]
  cases ha : a.foldlM (takeOne turn) s with
  | none => rfl
  | some s' => exact (consume_eq ho b _ s' (foldlM_keeps ho hs ha) le_rfl).symm

end Pieces
