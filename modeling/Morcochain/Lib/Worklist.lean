import Mathlib

/-!
# Work queues

A queue of keys is worked off: a visit to the first key changes the state, and appends keys to the queue.

* `drain_inv` : what every visit keeps, working off the queue keeps.
* `drain_settled` : when a visit settles its key, and appends what it opens, **nothing is open in the end**.
-/

set_option autoImplicit false

namespace Worklist

universe u v

variable {σ : Type u} {κ : Type v} (visit : σ → κ → σ × List κ)

/-- Work off a queue, in at most so many rounds. -/
def drain : Nat → List κ → σ → σ
  | 0, _, s => s
  | _ + 1, [], s => s
  | k + 1, key :: queue, s => drain k (queue ++ (visit s key).2) (visit s key).1

/-- Every visit meets the condition, in the state it is made in. -/
def Meets (C : σ → κ → Prop) : Nat → List κ → σ → Prop
  | 0, _, _ => True
  | _ + 1, [], _ => True
  | k + 1, key :: queue, s => C s key ∧ Meets C k (queue ++ (visit s key).2) (visit s key).1

instance decidableMeets (C : σ → κ → Prop) [∀ s key, Decidable (C s key)] : ∀ (k : Nat) (queue : List κ) (s : σ),
    Decidable (Meets visit C k queue s)
  | 0, _, _ => .isTrue trivial
  | _ + 1, [], _ => .isTrue trivial
  | k + 1, key :: queue, s =>
    have := decidableMeets C k (queue ++ (visit s key).2) (visit s key).1
    inferInstanceAs (Decidable (C s key ∧ Meets visit C k (queue ++ (visit s key).2) (visit s key).1))

variable {visit} {I : σ → Prop} {C : σ → κ → Prop}

/-- **The invariant rule for queues.** -/
theorem drain_inv (hvisit : ∀ s key, I s → C s key → I (visit s key).1) : ∀ {k : Nat} {queue : List κ} {s : σ},
    I s → Meets visit C k queue s → I (drain visit k queue s)
  | 0, _, _, hs, _ => hs
  | _ + 1, [], _, hs, _ => hs
  | k + 1, key :: queue, s, hs, h =>
    show I (drain visit k (queue ++ (visit s key).2) (visit s key).1) from drain_inv hvisit (hvisit s key hs h.1) h.2

/-- Every visit meets a condition that holds of all visits. -/
theorem meets_of_forall (hC : ∀ s key, C s key) : ∀ {k : Nat} {queue : List κ} {s : σ}, Meets visit C k queue s
  | 0, _, _ => trivial
  | _ + 1, [], _ => trivial
  | _ + 1, key :: _, s => ⟨hC s key, meets_of_forall hC⟩

/-- A key that is open is in the queue; a visit settles its key, and what is open behind it was open before it, or is
appended by it. When the rounds are enough, no key is open in the end. -/
theorem drain_settled {Open : σ → κ → Prop} {size : σ → Nat} (hvisit : ∀ s key, I s → C s key → I (visit s key).1)
    (hopen : ∀ s key x, I s → C s key → Open (visit s key).1 x → (Open s x ∧ x ≠ key) ∨ x ∈ (visit s key).2)
    (hsize : ∀ s key, size (visit s key).1 + (visit s key).2.length ≤ size s) :
    ∀ {k : Nat} {queue : List κ} {s : σ}, I s → Meets visit C k queue s → (∀ x, Open s x → x ∈ queue) →
      queue.length + size s ≤ k → ∀ x, ¬ Open (drain visit k queue s) x
  | 0, queue, s, _, _, hqueue, hrounds, x => by
    intro hx
    have hmem := List.length_pos_of_mem (hqueue x hx)
    omega
  | _ + 1, [], s, _, _, hqueue, _, x => fun hx => absurd (hqueue x hx) List.not_mem_nil
  | k + 1, key :: queue, s, hs, h, hqueue, hrounds, x => by
    refine drain_settled hvisit hopen hsize (hvisit s key hs h.1) h.2 (fun y hy => ?_) ?_ x
    · rcases hopen s key y hs h.1 hy with ⟨hbefore, hne⟩ | hnew
      · exact List.mem_append_left _ ((List.mem_cons.mp (hqueue y hbefore)).resolve_left hne)
      · exact List.mem_append_right _ hnew
    · have hstep := hsize s key
      rw [List.length_cons] at hrounds
      rw [List.length_append]
      omega

end Worklist
