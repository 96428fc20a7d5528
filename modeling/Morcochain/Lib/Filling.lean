import Morcochain.Lib.Guard

/-!
# Routines that keep what they wrote

A routine fills in a record and stops at the first check that fails; what it wrote until then stays. It is written in
`Routine σ ε`, exceptions over a state.

* `run_bind_ok` : what a sequence that ended well has done.
* `Keeps` : whatever happens, a routine keeps a property of the record. It composes along the routine.
-/

set_option autoImplicit false

namespace Filling

/-- A routine that fills in a `σ` and may stop with an `ε`. -/
abbrev Routine (σ ε α : Type) := ExceptT ε (StateM σ) α

variable {σ ε α β : Type}

/-- The result of a routine, and the record it leaves. -/
def run (x : Routine σ ε α) (s : σ) : Except ε α × σ := StateT.run (ExceptT.run x) s

/-- A check that does not touch the record. -/
def check (x : Except ε α) : Routine σ ε α := ExceptT.mk (pure x)

/-- Write to the record. -/
def write (f : σ → σ) : Routine σ ε Unit := modify f

/-- Read the record. -/
def record : Routine σ ε σ := get

@[simp] theorem run_pure (a : α) (s : σ) : run (pure a : Routine σ ε α) s = (.ok a, s) := rfl

@[simp] theorem run_throw (e : ε) (s : σ) : run (throw e : Routine σ ε α) s = (.error e, s) := rfl

@[simp] theorem run_check (x : Except ε α) (s : σ) : run (check x) s = (x, s) := rfl

@[simp] theorem run_write (f : σ → σ) (s : σ) : run (write f : Routine σ ε Unit) s = (.ok (), f s) := rfl

@[simp] theorem run_record (s : σ) : run (record : Routine σ ε σ) s = (.ok s, s) := rfl

theorem run_bind (x : Routine σ ε α) (f : α → Routine σ ε β) (s : σ) :
    run (x >>= f) s = match run x s with
      | (.ok a, s') => run (f a) s'
      | (.error e, s') => (.error e, s') := by
  show StateT.run (ExceptT.run x >>= ExceptT.bindCont f) s = _
  simp only [StateT.run_bind, run]
  cases h : StateT.run (ExceptT.run x) s with
  | mk r s' => cases r <;> rfl

/-- A sequence ended well exactly when both parts did. -/
theorem run_bind_ok {x : Routine σ ε α} {f : α → Routine σ ε β} {s s' : σ} {b : β} :
    run (x >>= f) s = (.ok b, s') ↔ ∃ a s₁, run x s = (.ok a, s₁) ∧ run (f a) s₁ = (.ok b, s') := by
  rw [run_bind]
  constructor
  · intro h
    split at h
    · rename_i a s₁ hx
      exact ⟨a, s₁, hx, h⟩
    · cases h
  · rintro ⟨a, s₁, hx, hf⟩
    rw [hx]
    exact hf

/-- Whatever happens, the routine keeps `P`. -/
def Keeps (P : σ → Prop) (x : Routine σ ε α) : Prop := ∀ s, P s → P (run x s).2

section Keeps

variable {P : σ → Prop}

theorem Keeps.pure (a : α) : Keeps P (pure a : Routine σ ε α) := fun _ h => h

theorem Keeps.throw (e : ε) : Keeps P (throw e : Routine σ ε α) := fun _ h => h

theorem Keeps.check (x : Except ε α) : Keeps P (check x : Routine σ ε α) := fun _ h => h

theorem Keeps.record : Keeps P (record : Routine σ ε σ) := fun _ h => h

theorem Keeps.write {f : σ → σ} (hf : ∀ s, P s → P (f s)) : Keeps P (write f : Routine σ ε Unit) := hf

theorem Keeps.bind {x : Routine σ ε α} {f : α → Routine σ ε β} (hx : Keeps P x) (hf : ∀ a, Keeps P (f a)) :
    Keeps P (x >>= f) := by
  intro s hs
  have h := hx s hs
  rw [run_bind]
  split <;> rename_i hrun <;> rw [hrun] at h
  · exact hf _ _ h
  · exact h

/-- What holds behind a routine is kept by what keeps it. -/
theorem Keeps.run_bind {x : Routine σ ε α} {f : α → Routine σ ε β} {s : σ} (hx : P (run x s).2)
    (hf : ∀ a, Keeps P (f a)) : P (run (x >>= f) s).2 := by
  rw [Filling.run_bind]
  split <;> rename_i hrun <;> rw [hrun] at hx
  · exact hf _ _ hx
  · exact hx

/-- The record that is read has the property. -/
theorem Keeps.record_bind {f : σ → Routine σ ε β} (hf : ∀ s, P s → Keeps P (f s)) : Keeps P (Filling.record >>= f) :=
  fun s hs => hf s hs s hs

/-- What holds behind each part of a sequence: a property, and then another one that follows from it. -/
theorem run_bind_of {Q : σ → Prop} {x : Routine σ ε α} {f : α → Routine σ ε β} {s : σ} (hx : P (run x s).2)
    (hPQ : ∀ s, P s → Q s) (hf : ∀ a s, P s → Q (run (f a) s).2) : Q (run (x >>= f) s).2 := by
  rw [Filling.run_bind]
  split <;> rename_i hrun <;> rw [hrun] at hx
  · exact hf _ _ hx
  · exact hPQ _ hx

/-- A loop keeps what each of its turns keeps. -/
theorem Keeps.forM {f : α → Routine σ ε Unit} : ∀ {l : List α}, (∀ a ∈ l, Keeps P (f a)) → Keeps P (l.forM f)
  | [], _ => Keeps.pure ()
  | a :: _, h =>
    Keeps.bind (h a List.mem_cons_self) fun _ => Keeps.forM fun b hb => h b (List.mem_cons_of_mem a hb)

end Keeps

end Filling
