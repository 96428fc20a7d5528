import Mathlib

/-!
# Scanning a text

A text is read from its front while its characters pass a test.

* `takeWhile_append_stop`, `dropWhile_append_stop` : **where a scan stops** when it is known how the text goes on.
-/

set_option autoImplicit false

namespace Scan

variable {α : Type} {p : α → Bool} {l m : List α}

/-- The text does not start with a character that passes the test. -/
def Stops (p : α → Bool) (l : List α) : Prop := ∀ c ∈ l.head?, p c = false

theorem stops_nil : Stops p [] := fun _ hc => nomatch hc

theorem stops_cons {c : α} (h : p c = false) : Stops p (c :: l) := by
  intro d hd
  cases hd
  exact h

/-- A scan leaves a text on which it stops. -/
theorem stops_dropWhile : Stops p (l.dropWhile p) := by
  intro c hc
  have hhead := List.head?_dropWhile_not p l
  rw [Option.mem_def] at hc
  rw [hc] at hhead
  simpa using hhead

theorem takeWhile_of_stops (h : Stops p l) : l.takeWhile p = [] := by
  cases l with
  | nil => rfl
  | cons c l => rw [List.takeWhile_cons, h c rfl]; rfl

theorem dropWhile_of_stops (h : Stops p l) : l.dropWhile p = l := by
  cases l with
  | nil => rfl
  | cons c l => rw [List.dropWhile_cons, h c rfl]; rfl

/-- What a scan reads, when it is known where it stops. -/
theorem takeWhile_append_stop (hl : ∀ c ∈ l, p c = true) (hm : Stops p m) : (l ++ m).takeWhile p = l := by
  rw [List.takeWhile_append_of_pos hl, takeWhile_of_stops hm, List.append_nil]

/-- What a scan leaves, when it is known where it stops. -/
theorem dropWhile_append_stop (hl : ∀ c ∈ l, p c = true) (hm : Stops p m) : (l ++ m).dropWhile p = m := by
  rw [List.dropWhile_append_of_pos hl, dropWhile_of_stops hm]

end Scan
