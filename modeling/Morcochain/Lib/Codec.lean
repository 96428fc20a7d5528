import Mathlib

/-!
# Reading what was written

A reader takes symbols off a text and gives a value, or stops. Two notions are enough for round trips through readers
that are written in `do` notation: which value a reader gives back for a text, whatever follows it (`Reads`), and what
holds of every value that a reader can give (`Yields`).

* `Reads.bind`, `Yields.bind` : the rules for a sequence of readers.
* `reads_readMany`, `yields_readMany` : the rules for a counted list.
-/

set_option autoImplicit false

namespace Codec

universe u

variable {β α γ : Type u}

/-- A reader of a text; `none` where it stops. -/
abbrev ReaderOf (β α : Type u) := StateT (List β) Option α

/-- The reader gives the value for the text, and leaves what follows. -/
def Reads (read : ReaderOf β α) (text : List β) (a : α) : Prop := ∀ rest, read (text ++ rest) = some (a, rest)

/-- Every value that the reader gives has the property. -/
def Yields (read : ReaderOf β α) (P : α → Prop) : Prop := ∀ s a s', read s = some (a, s') → P a

/-! ## Which value is read -/

theorem Reads.pure (a : α) : Reads (Pure.pure a : ReaderOf β α) [] a := fun _ => rfl

/-- One reader after the other. -/
theorem Reads.bind {read : ReaderOf β α} {f : α → ReaderOf β γ} {text text' : List β} {a : α} {c : γ}
    (h : Reads read text a) (h' : Reads (f a) text' c) : Reads (read >>= f) (text ++ text') c := by
  intro rest
  show (read ((text ++ text') ++ rest)).bind (fun p => f p.1 p.2) = _
  rw [List.append_assoc, h, Option.bind_some, h']

/-- A reader whose value is changed. -/
theorem Reads.map {read : ReaderOf β α} {text : List β} {a : α} (g : α → γ) (h : Reads read text a) :
    Reads (read >>= fun a => Pure.pure (g a)) text (g a) := by
  have hbind := h.bind (f := fun a => Pure.pure (g a)) (Reads.pure (g a))
  rwa [List.append_nil] at hbind

/-- Read a list of a given length, each of whose elements may be read as another than was written. -/
theorem reads_readMany {readMany : Nat → ReaderOf β (List γ)} {read : ReaderOf β γ} {write : α → List β} {g : α → γ}
    (hzero : readMany 0 = Pure.pure [])
    (hsucc : ∀ k, readMany (k + 1) = read >>= fun a => readMany k >>= fun l => Pure.pure (a :: l)) :
    ∀ {l : List α}, (∀ a ∈ l, Reads read (write a) (g a)) → Reads (readMany l.length) (l.flatMap write) (l.map g)
  | [], _ => by
    rw [List.length_nil, hzero]
    exact .pure _
  | a :: l, h => by
    rw [List.length_cons, hsucc, List.flatMap_cons, List.map_cons]
    have ih := reads_readMany hzero hsucc fun b hb => h b (List.mem_cons_of_mem _ hb)
    exact (h a List.mem_cons_self).bind (ih.map (g a :: ·))

/-! ## What is read -/

theorem Yields.pure {P : α → Prop} {a : α} (h : P a) : Yields (Pure.pure a : ReaderOf β α) P := by
  rintro s b s' hb
  cases hb
  exact h

theorem Yields.stop {P : α → Prop} : Yields (fun _ => none : ReaderOf β α) P := fun _ _ _ h => nomatch h

/-- One reader after the other. -/
theorem Yields.bind {read : ReaderOf β α} {f : α → ReaderOf β γ} {P : α → Prop} {Q : γ → Prop} (h : Yields read P)
    (h' : ∀ a, P a → Yields (f a) Q) : Yields (read >>= f) Q := by
  intro s c s' hc
  obtain ⟨⟨a, s₁⟩, ha, hc⟩ :=
    Option.bind_eq_some_iff.mp (show (read s).bind (fun p => f p.1 p.2) = some (c, s') from hc)
  exact h' a (h s a s₁ ha) s₁ c s' hc

theorem Yields.mono {read : ReaderOf β α} {P Q : α → Prop} (h : Yields read P) (hPQ : ∀ a, P a → Q a) : Yields read Q :=
  fun s a s' ha => hPQ a (h s a s' ha)

theorem Yields.true (read : ReaderOf β α) : Yields read fun _ => True := fun _ _ _ _ => trivial

/-- A list of a given length. -/
theorem yields_readMany {readMany : Nat → ReaderOf β (List α)} {read : ReaderOf β α} {P : α → Prop}
    (hzero : readMany 0 = Pure.pure [])
    (hsucc : ∀ k, readMany (k + 1) = read >>= fun a => readMany k >>= fun l => Pure.pure (a :: l))
    (h : Yields read P) : ∀ k, Yields (readMany k) fun l => l.length = k ∧ ∀ a ∈ l, P a
  | 0 => by
    rw [hzero]
    exact .pure ⟨rfl, List.forall_mem_nil _⟩
  | k + 1 => by
    rw [hsucc]
    refine h.bind fun a ha => (yields_readMany hzero hsucc h k).bind fun l hl => .pure ⟨?_, ?_⟩
    · rw [List.length_cons, hl.1]
    · exact List.forall_mem_cons.mpr ⟨ha, hl.2⟩

end Codec
