import Mathlib

/-!
# Guarded computations

A validation routine is a chain of guards: each one stops with a failure or lets the chain go on. It is written in
`Except ε`, with `rejectIf` for a guard. The lemmas below invert such chains.

* `bind_eq_ok`, `bind_eq_error` : what a sequence that ended well, or stopped, has done.
* `rejectIf_eq_ok`, `rejectIf_eq_error` : what a guard says.
* `FailsIn` : every failure of a routine satisfies a predicate. It composes along the routine.
* `Stops` : the routine fails, and the failure satisfies a predicate. `stops_bind` and `stops_foldlM` say **where**.
* `foldlM_inv` : an invariant kept by every step of a loop is kept by the loop.
* `foldlM_ok` : a loop ends well when every step does, in the states of an invariant.
-/

namespace Guard

variable {ε α β σ : Type}

/-- Stop with `e` when `c` holds. -/
def rejectIf (c : Prop) [Decidable c] (e : ε) : Except ε Unit := if c then .error e else .ok ()

@[simp] theorem rejectIf_eq_ok {c : Prop} [Decidable c] {e : ε} {u : Unit} : rejectIf c e = .ok u ↔ ¬ c := by
  unfold rejectIf
  by_cases h : c <;> simp [h]

@[simp] theorem rejectIf_eq_error {c : Prop} [Decidable c] {e e' : ε} :
    rejectIf c e = .error e' ↔ c ∧ e = e' := by
  unfold rejectIf
  by_cases h : c <;> simp [h]

@[simp] theorem rejectIf_neg {c : Prop} [Decidable c] {e : ε} (h : ¬ c) : rejectIf c e = .ok () := if_neg h

@[simp] theorem rejectIf_pos {c : Prop} [Decidable c] {e : ε} (h : c) : rejectIf c e = .error e := if_pos h

/-- A sequence ended well exactly when both parts did. -/
theorem bind_eq_ok {x : Except ε α} {f : α → Except ε β} {b : β} :
    (x >>= f) = .ok b ↔ ∃ a, x = .ok a ∧ f a = .ok b := by
  cases x with
  | error e => simp [bind, Except.bind]
  | ok a => simp [bind, Except.bind]

/-- A sequence stopped in its first part, or in its second part after the first one ended well. -/
theorem bind_eq_error {x : Except ε α} {f : α → Except ε β} {e : ε} :
    (x >>= f) = .error e ↔ x = .error e ∨ ∃ a, x = .ok a ∧ f a = .error e := by
  cases x with
  | error e => simp [bind, Except.bind]
  | ok a => simp [bind, Except.bind]

@[simp] theorem ok_bind (a : α) (f : α → Except ε β) : (Except.ok a >>= f) = f a := rfl

@[simp] theorem error_bind (e : ε) (f : α → Except ε β) : ((Except.error e : Except ε α) >>= f) = .error e := rfl

@[simp] theorem pure_eq_ok (a : α) : (pure a : Except ε α) = .ok a := rfl

@[simp] theorem throw_eq_error (e : ε) : (throw e : Except ε α) = .error e := rfl

/-- The failure of a computation that stopped. -/
def failure? : Except ε α → Option ε
  | .error e => some e
  | .ok _ => none

theorem failure?_eq_some {x : Except ε α} {e : ε} : failure? x = some e ↔ x = .error e := by
  cases x <;> simp [failure?]

theorem toOption_eq_some {x : Except ε α} {a : α} : x.toOption = some a ↔ x = .ok a := by
  cases x <;> simp [Except.toOption]

/-- A computation that did not stop has a result. -/
theorem exists_of_isOk {x : Except ε α} (h : x.isOk = true) : ∃ a, x = .ok a := by
  cases x with
  | error e => cases h
  | ok a => exact ⟨a, rfl⟩

/-! ## Where failures come from -/

/-- Every failure of `x` satisfies `P`. -/
structure FailsIn (P : ε → Prop) (x : Except ε α) : Prop where
  of_error : ∀ e, x = .error e → P e

namespace FailsIn

variable {P Q : ε → Prop} {x : Except ε α}

theorem ok (a : α) : FailsIn P (.ok a : Except ε α) := ⟨fun _ h => nomatch h⟩

theorem error {e : ε} (h : P e) : FailsIn P (.error e : Except ε α) := ⟨fun _ he => Except.error.inj he ▸ h⟩

theorem rejectIf {c : Prop} [Decidable c] {e : ε} (h : c → P e) : FailsIn P (rejectIf c e) := by
  refine ⟨fun e' he' => ?_⟩
  obtain ⟨hc, rfl⟩ := rejectIf_eq_error.mp he'
  exact h hc

/-- A sequence fails in `P` when both parts do; the second part only where the first one ended well. -/
theorem bind {f : α → Except ε β} (hx : FailsIn P x) (hf : ∀ a, x = .ok a → FailsIn P (f a)) :
    FailsIn P (x >>= f) := by
  refine ⟨fun e he => ?_⟩
  rcases bind_eq_error.mp he with h | ⟨a, ha, h⟩
  · exact hx.of_error e h
  · exact (hf a ha).of_error e h

theorem ite {c : Prop} [Decidable c] {y : Except ε α} (hx : c → FailsIn P x) (hy : ¬ c → FailsIn P y) :
    FailsIn P (if c then x else y) := by
  by_cases h : c
  · rw [if_pos h]; exact hx h
  · rw [if_neg h]; exact hy h

theorem mono (h : FailsIn P x) (hPQ : ∀ e, P e → Q e) : FailsIn Q x := ⟨fun e he => hPQ e (h.of_error e he)⟩

end FailsIn

/-! ## Where a routine stops -/

/-- The routine fails, and the failure satisfies `P`. -/
def Stops (P : ε → Prop) (x : Except ε α) : Prop := ∃ e, x = .error e ∧ P e

section Stops

variable {P : ε → Prop} {x : Except ε α}

@[simp] theorem stops_error {e : ε} : Stops P (.error e : Except ε α) ↔ P e := by
  constructor
  · rintro ⟨e', h, he'⟩
    exact Except.error.inj h ▸ he'
  · exact fun h => ⟨e, rfl, h⟩

@[simp] theorem stops_ok {a : α} : ¬ Stops P (.ok a : Except ε α) := fun ⟨_, h, _⟩ => nomatch h

@[simp] theorem stops_rejectIf {c : Prop} [Decidable c] {e : ε} : Stops P (rejectIf c e) ↔ c ∧ P e := by
  unfold rejectIf
  by_cases h : c <;> simp [h]

/-- A sequence stops in its first part, or in its second part after the first one ended well. -/
theorem stops_bind {f : α → Except ε β} : Stops P (x >>= f) ↔ Stops P x ∨ ∃ a, x = .ok a ∧ Stops P (f a) := by
  cases x <;> simp [bind, Except.bind]

/-- A routine whose failures all satisfy the contrary does not stop so. -/
theorem FailsIn.not_stops {Q : ε → Prop} (h : FailsIn Q x) (hPQ : ∀ e, Q e → ¬ P e) : ¬ Stops P x :=
  fun ⟨e, he, hP⟩ => hPQ e (h.of_error e he) hP

end Stops

/-! ## Loops -/

/-- A step of a loop that ended well. -/
theorem foldlM_cons_ok {f : σ → α → Except ε σ} {a : α} {l : List α} {s s' : σ} :
    (a :: l).foldlM f s = .ok s' ↔ ∃ s₁, f s a = .ok s₁ ∧ l.foldlM f s₁ = .ok s' := by
  rw [List.foldlM_cons]
  exact bind_eq_ok

/-- A loop over `l₁ ++ l₂` ended well exactly when it did over both parts in turn. -/
theorem foldlM_append_ok {f : σ → α → Except ε σ} {l₁ l₂ : List α} {s s' : σ} :
    (l₁ ++ l₂).foldlM f s = .ok s' ↔ ∃ s₁, l₁.foldlM f s = .ok s₁ ∧ l₂.foldlM f s₁ = .ok s' := by
  rw [List.foldlM_append]
  exact bind_eq_ok

/-- **Loop rule.** An invariant that every step keeps is kept by the loop. -/
theorem foldlM_inv {f : σ → α → Except ε σ} {I : σ → Prop} :
    ∀ {l : List α}, (∀ a ∈ l, ∀ s s', I s → f s a = .ok s' → I s') →
      ∀ {s s' : σ}, I s → l.foldlM f s = .ok s' → I s'
  | [], _, s, s', hI, h => by
    rw [List.foldlM_nil] at h
    cases h
    exact hI
  | a :: l, hstep, s, s', hI, h => by
    obtain ⟨s₁, h₁, h₂⟩ := foldlM_cons_ok.mp h
    exact foldlM_inv (fun b hb => hstep b (List.mem_cons_of_mem _ hb)) (hstep a List.mem_cons_self s s₁ hI h₁) h₂

/-- **Loop rule for success.** Where every step ends well and keeps an invariant, so does the loop. -/
theorem foldlM_ok {f : σ → α → Except ε σ} {I : σ → Prop} :
    ∀ {l : List α}, (∀ a ∈ l, ∀ s, I s → ∃ s', f s a = .ok s' ∧ I s') →
      ∀ {s : σ}, I s → ∃ s', l.foldlM f s = .ok s' ∧ I s'
  | [], _, s, hI => ⟨s, rfl, hI⟩
  | a :: l, hstep, s, hI => by
    obtain ⟨s₁, h₁, hI₁⟩ := hstep a List.mem_cons_self s hI
    obtain ⟨s', h', hI'⟩ := foldlM_ok (fun b hb => hstep b (List.mem_cons_of_mem _ hb)) hI₁
    exact ⟨s', foldlM_cons_ok.mpr ⟨s₁, h₁, h'⟩, hI'⟩

/-- The same with an invariant that names the part of the list that is done. -/
theorem foldlM_ok_prefix {f : σ → α → Except ε σ} {I : List α → σ → Prop} {l : List α}
    (hstep : ∀ done a rest s, l = done ++ a :: rest → I done s → ∃ s', f s a = .ok s' ∧ I (done ++ [a]) s') {s : σ}
    (hI : I [] s) : ∃ s', l.foldlM f s = .ok s' ∧ I l s' := by
  have hrest : ∀ rest done s, l = done ++ rest → I done s → ∃ s', rest.foldlM f s = .ok s' ∧ I l s' := by
    intro rest
    induction rest with
    | nil =>
      intro done s hl hI
      rw [List.append_nil] at hl
      exact ⟨s, rfl, hl ▸ hI⟩
    | cons a rest ih =>
      intro done s hl hI
      obtain ⟨s₁, h₁, hI₁⟩ := hstep done a rest s hl hI
      obtain ⟨s', h', hI'⟩ := ih (done ++ [a]) s₁ (by rw [hl, List.append_assoc]; rfl) hI₁
      exact ⟨s', foldlM_cons_ok.mpr ⟨s₁, h₁, h'⟩, hI'⟩
  exact hrest l [] s rfl hI

/-- A loop stops exactly when, after some prefix that ended well, the next step stops. -/
theorem foldlM_eq_error {f : σ → α → Except ε σ} {e : ε} :
    ∀ {l : List α} {s : σ}, l.foldlM f s = .error e ↔
      ∃ l₁ a l₂ s₁, l = l₁ ++ a :: l₂ ∧ l₁.foldlM f s = .ok s₁ ∧ f s₁ a = .error e
  | [], s => by
    rw [List.foldlM_nil]
    constructor
    · intro h; cases h
    · rintro ⟨l₁, a, l₂, _, h, _⟩
      cases l₁ <;> cases h
  | b :: l, s => by
    rw [List.foldlM_cons, bind_eq_error]
    constructor
    · rintro (h | ⟨s₁, h₁, h₂⟩)
      · exact ⟨[], b, l, s, rfl, rfl, h⟩
      · obtain ⟨l₁, a, l₂, s₂, rfl, h₃, h₄⟩ := foldlM_eq_error.mp h₂
        exact ⟨b :: l₁, a, l₂, s₂, rfl, foldlM_cons_ok.mpr ⟨s₁, h₁, h₃⟩, h₄⟩
    · rintro ⟨l₁, a, l₂, s₁, hl, h₁, h₂⟩
      cases l₁ with
      | nil =>
        cases hl
        rw [List.foldlM_nil] at h₁
        cases h₁
        exact .inl h₂
      | cons c l₁ =>
        cases hl
        obtain ⟨s₂, h₃, h₄⟩ := foldlM_cons_ok.mp h₁
        exact .inr ⟨s₂, h₃, foldlM_eq_error.mpr ⟨l₁, a, l₂, s₁, rfl, h₄, h₂⟩⟩

/-- A loop stops exactly where, after some prefix that ended well, the next step stops. -/
theorem stops_foldlM {P : ε → Prop} {f : σ → α → Except ε σ} {l : List α} {s : σ} :
    Stops P (l.foldlM f s) ↔
      ∃ l₁ a l₂ s₁, l = l₁ ++ a :: l₂ ∧ l₁.foldlM f s = .ok s₁ ∧ Stops P (f s₁ a) := by
  unfold Stops
  simp only [foldlM_eq_error]
  constructor
  · rintro ⟨e, ⟨l₁, a, l₂, s₁, hl, h₁, h₂⟩, hP⟩
    exact ⟨l₁, a, l₂, s₁, hl, h₁, e, h₂, hP⟩
  · rintro ⟨l₁, a, l₂, s₁, hl, h₁, e, h₂, hP⟩
    exact ⟨e, ⟨l₁, a, l₂, s₁, hl, h₁, h₂⟩, hP⟩

/-- A list of routines does not stop in `P` when none of them does. -/
theorem not_stops_mapM {P : ε → Prop} {f : α → Except ε β} : ∀ {l : List α}, (∀ a ∈ l, ¬ Stops P (f a)) →
    ¬ Stops P (l.mapM f)
  | [], _ => by
    rw [List.mapM_nil]
    exact stops_ok
  | a :: l, h => by
    rw [List.mapM_cons, stops_bind]
    rintro (h' | ⟨b, -, h'⟩)
    · exact h a List.mem_cons_self h'
    · rcases stops_bind.mp h' with h' | ⟨bs, -, h'⟩
      · exact not_stops_mapM (fun a ha => h a (List.mem_cons_of_mem _ ha)) h'
      · exact stops_ok h'

/-- A loop fails in `P` when each of its steps does. -/
theorem FailsIn.foldlM {P : ε → Prop} {f : σ → α → Except ε σ} {l : List α} {s : σ}
    (h : ∀ s, ∀ a ∈ l, FailsIn P (f s a)) : FailsIn P (l.foldlM f s) := by
  refine ⟨fun e he => ?_⟩
  obtain ⟨l₁, a, l₂, s₁, rfl, -, hf⟩ := foldlM_eq_error.mp he
  exact (h s₁ a (by simp)).of_error e hf

end Guard
