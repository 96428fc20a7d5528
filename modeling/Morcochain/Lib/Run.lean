import Mathlib

/-!
# Runs of a state machine

A machine with a total step function takes the events of a list one after the other.

* `exec_inv` : what every step keeps, every run keeps, when all of its steps meet a condition.
* `always_of_inv` : the same for every state that the run passes through.
* `always_iff_meets` : a property holds all along a run exactly when the steps meet the condition that keeps it.
* `meets_congr`, `meets_iff_of_inv` : two conditions that agree on every step agree on every run.
* `occurs_concat` : what has occurred after one more event.
* `exec_each` : of many machines that take events in any order, each one runs on its own events.
-/

set_option autoImplicit false

namespace Run

universe u v

variable {σ : Type u} {ε : Type v} (step : σ → ε → σ)

/-- The state after the events of a list. -/
def exec (s : σ) (es : List ε) : σ := es.foldl step s

/-- Every step of the run meets the condition, in the state it is taken in. -/
def Meets (C : σ → ε → Prop) : σ → List ε → Prop
  | _, [] => True
  | s, e :: es => C s e ∧ Meets C (step s e) es

instance decidableMeets (C : σ → ε → Prop) [∀ s e, Decidable (C s e)] :
    ∀ (s : σ) (es : List ε), Decidable (Meets step C s es)
  | _, [] => .isTrue trivial
  | s, e :: es =>
    have := decidableMeets C (step s e) es
    inferInstanceAs (Decidable (C s e ∧ Meets step C (step s e) es))

/-- The property holds in every state that the run passes through. -/
def Always (P : σ → Prop) (s : σ) (es : List ε) : Prop := ∀ es', es' <+: es → P (exec step s es')

variable {step}

@[simp] theorem exec_nil (s : σ) : exec step s [] = s := rfl

@[simp] theorem exec_cons (s : σ) (e : ε) (es : List ε) : exec step s (e :: es) = exec step (step s e) es := rfl

theorem exec_append (s : σ) (es es' : List ε) : exec step s (es ++ es') = exec step (exec step s es) es' :=
  List.foldl_append

theorem meets_append {C : σ → ε → Prop} : ∀ {s : σ} {es es' : List ε},
    Meets step C s (es ++ es') ↔ Meets step C s es ∧ Meets step C (exec step s es) es'
  | _, [], _ => (and_iff_right trivial).symm
  | s, e :: es, es' => by
    simp only [List.cons_append, Meets, exec_cons, meets_append, and_assoc]

theorem meets_congr {C D : σ → ε → Prop} (h : ∀ s e, C s e ↔ D s e) : ∀ {s : σ} {es : List ε},
    Meets step C s es ↔ Meets step D s es
  | _, [] => Iff.rfl
  | s, e :: _ => and_congr (h s e) (meets_congr h)

/-- A condition that holds of all steps is met. -/
theorem meets_of_forall {C : σ → ε → Prop} (h : ∀ s e, C s e) : ∀ {s : σ} {es : List ε}, Meets step C s es
  | _, [] => trivial
  | s, e :: _ => ⟨h s e, meets_of_forall h⟩

/-- **The invariant rule for runs.** -/
theorem exec_inv {I : σ → Prop} {C : σ → ε → Prop} (hstep : ∀ s e, I s → C s e → I (step s e)) :
    ∀ {es : List ε} {s : σ}, I s → Meets step C s es → I (exec step s es)
  | [], _, hs, _ => hs
  | e :: es, s, hs, h => show I (exec step (step s e) es) from exec_inv hstep (hstep s e hs h.1) h.2

theorem Meets.take {C : σ → ε → Prop} {s : σ} {es es' : List ε} (h : Meets step C s es) (hp : es' <+: es) :
    Meets step C s es' := by
  obtain ⟨t, rfl⟩ := hp
  exact (meets_append.mp h).1

/-- A condition on the events alone may be added to one on the steps. -/
theorem Meets.and {C : σ → ε → Prop} {P : ε → Prop} : ∀ {s : σ} {es : List ε}, Meets step C s es → (∀ e ∈ es, P e) →
    Meets step (fun s e => C s e ∧ P e) s es
  | _, [], _, _ => trivial
  | _, e :: _, h, hP =>
    ⟨⟨h.1, hP e List.mem_cons_self⟩, Meets.and h.2 fun e' he' => hP e' (List.mem_cons_of_mem _ he')⟩

/-- Two conditions agree on a run when they agree in the states of an invariant that each step keeps under the first
one. All steps meet a third condition. -/
theorem meets_iff_of_inv {I : σ → Prop} {R C D : σ → ε → Prop} (hiff : ∀ s e, I s → R s e → (C s e ↔ D s e))
    (hstep : ∀ s e, I s → R s e → C s e → I (step s e)) : ∀ {s : σ} {es : List ε}, I s → Meets step R s es →
      (Meets step D s es ↔ Meets step C s es)
  | _, [], _, _ => Iff.rfl
  | s, e :: es, hs, hR => by
    constructor
    · intro h
      have hC := (hiff s e hs hR.1).mpr h.1
      exact ⟨hC, (meets_iff_of_inv hiff hstep (hstep s e hs hR.1 hC) hR.2).mp h.2⟩
    · intro h
      exact ⟨(hiff s e hs hR.1).mp h.1, (meets_iff_of_inv hiff hstep (hstep s e hs hR.1 h.1) hR.2).mpr h.2⟩

/-- The invariant holds in every state that the run passes through. -/
theorem always_of_inv {I : σ → Prop} {C : σ → ε → Prop} (hstep : ∀ s e, I s → C s e → I (step s e)) {s : σ}
    {es : List ε} (hs : I s) (h : Meets step C s es) : Always step I s es :=
  fun _ hp => exec_inv hstep hs (h.take hp)

theorem always_cons {P : σ → Prop} {s : σ} {e : ε} {es : List ε} :
    Always step P s (e :: es) ↔ P s ∧ Always step P (step s e) es := by
  constructor
  · intro h
    exact ⟨h [] List.nil_prefix, fun es' hp => h (e :: es') (List.cons_prefix_cons.mpr ⟨rfl, hp⟩)⟩
  · rintro ⟨hs, h⟩ es' hp
    rcases es' with _ | ⟨e', es'⟩
    · exact hs
    · obtain ⟨rfl, hp'⟩ := List.cons_prefix_cons.mp hp
      exact h es' hp'

/-- **A property holds all along a run exactly when all its steps meet the condition** under which a step keeps it. -/
theorem always_iff_meets {I P : σ → Prop} {C : σ → ε → Prop} (hstep : ∀ s e, I s → I (step s e))
    (hiff : ∀ s e, I s → P s → (P (step s e) ↔ C s e)) : ∀ {es : List ε} {s : σ}, I s → P s →
      (Always step P s es ↔ Meets step C s es)
  | [], s, _, hs => ⟨fun _ => trivial, fun _ es' hp => by rw [List.prefix_nil.mp hp]; exact hs⟩
  | e :: es, s, hI, hs => by
    rw [always_cons, Meets, ← hiff s e hI hs, and_iff_right hs]
    constructor
    · intro h
      have hs' := h [] List.nil_prefix
      exact ⟨hs', (always_iff_meets hstep hiff (hstep s e hI) hs').mp h⟩
    · rintro ⟨hs', h⟩
      exact (always_iff_meets hstep hiff (hstep s e hI) hs').mpr h

/-! ## What has occurred in a run -/

/-- Some event of the run meets the condition, in the state it is taken in. -/
def Occurs (step : σ → ε → σ) (C : σ → ε → Prop) (s : σ) (es : List ε) : Prop :=
  ∃ es₁ e es₂, es = es₁ ++ e :: es₂ ∧ C (exec step s es₁) e

theorem not_occurs_nil {C : σ → ε → Prop} {s : σ} : ¬ Occurs step C s [] := by
  rintro ⟨es₁, e, es₂, h, -⟩
  cases es₁ <;> cases h

/-- What has occurred occurred before the last event, or is the last event. -/
theorem occurs_concat {C : σ → ε → Prop} {s : σ} {es : List ε} {e : ε} :
    Occurs step C s (es ++ [e]) ↔ Occurs step C s es ∨ C (exec step s es) e := by
  constructor
  · rintro ⟨es₁, e', es₂, h, hC⟩
    rcases List.eq_nil_or_concat es₂ with rfl | ⟨es₂, e₂, rfl⟩
    · obtain ⟨rfl, rfl⟩ : es = es₁ ∧ e = e' := by simpa using h
      exact .inr hC
    · have hes : es = es₁ ++ e' :: es₂ := by
        have h' : es ++ [e] = (es₁ ++ e' :: es₂) ++ [e₂] := by simpa using h
        exact (List.append_inj' h' rfl).1
      exact .inl ⟨es₁, e', es₂, hes, hC⟩
  · rintro (⟨es₁, e', es₂, rfl, hC⟩ | hC)
    · exact ⟨es₁, e', es₂ ++ [e], by simp, hC⟩
    · exact ⟨es, e, [], rfl, hC⟩

/-! ## Many machines -/

section Each

variable {ι : Type u} [DecidableEq ι]

/-- One of the machines takes an event. -/
def each (step : σ → ε → σ) (net : ι → σ) (e : ι × ε) : ι → σ := Function.update net e.1 (step (net e.1) e.2)

/-- The events of a machine. -/
def eventsOf (i : ι) (es : List (ι × ε)) : List ε := (es.filter (·.1 = i)).map (·.2)

theorem eventsOf_append (i : ι) (es es' : List (ι × ε)) : eventsOf i (es ++ es') = eventsOf i es ++ eventsOf i es' := by
  unfold eventsOf
  rw [List.filter_append, List.map_append]

/-- **Each machine runs on its own events.** -/
theorem exec_each (i : ι) : ∀ {es : List (ι × ε)} {net : ι → σ},
    exec (each step) net es i = exec step (net i) (eventsOf i es)
  | [], _ => rfl
  | e :: es, net => by
    rw [exec_cons, exec_each i, each]
    unfold eventsOf
    by_cases h : e.1 = i
    · subst h
      simp [Function.update_self]
    · simp [h, Function.update_of_ne (Ne.symm h)]

end Each

end Run
