import Morcochain.Lib.OrderedStore

/-!
# Loops over a store that is changed

A loop goes over the entries of an ordered store with an iterator, while its body may change the store. Erasing an entry
invalidates the iterators to it: the loop is stuck when it reads or advances such an iterator.

* `sweep_ok`, `sweep_invalid` : **what becomes of a loop that erases the entries it stands on**, when they meet a test.
-/

set_option autoImplicit false
set_option linter.unusedSectionVars false

namespace OrderedStore

universe u v

variable {κ : Type u} {ν : Type v} [LE κ] [LT κ] [DecidableLE κ] [DecidableLT κ] [DecidableEq κ]

/-- Why a loop does not end: it uses an iterator to an erased entry, or it was not given enough rounds. -/
inductive Stuck
  | invalid
  | rounds
  deriving DecidableEq

/-- The iterator behind the one to a key, which must still be stored. -/
def Store.next (s : Store κ ν) (k : κ) : Option (Option κ) :=
  if (s.find? k).isSome then some ((s.entries.find? fun e => k < e.1).map (·.1)) else none

/-- The loop from an iterator on, at most `n` rounds: the keys that it visits, and the store that it leaves. -/
def sweep (body : Store κ ν → κ → ν → Store κ ν) : Nat → Store κ ν → Option κ → Except Stuck (List κ × Store κ ν)
  | _, s, none => .ok ([], s)
  | 0, _, some _ => .error .rounds
  | n + 1, s, some k =>
    match s.find? k with
    | none => .error .invalid
    | some v =>
      match (body s k v).next k with
      | none => .error .invalid
      | some cur => (sweep body n (body s k v) cur).map fun r => (k :: r.1, r.2)

/-- The loop over the whole store. -/
def forEach (body : Store κ ν → κ → ν → Store κ ν) (n : Nat) (s : Store κ ν) : Except Stuck (List κ × Store κ ν) :=
  sweep body n s (s.entries.head?.map (·.1))

variable [Std.IsLinearOrder κ] [Std.LawfulOrderLT κ] {s : Store κ ν} {k : κ} {v : ν} {pre post : List (κ × ν)} {n : Nat}
  {body : Store κ ν → κ → ν → Store κ ν}

/-- The iterator behind an entry. -/
theorem next_of_split (h : s.entries = pre ++ (k, v) :: post) : s.next k = some (post.head?.map (·.1)) := by
  have hfind : s.find? k = some v :=
    Store.find?_eq_some.mpr (by rw [h]; exact List.mem_append_right _ List.mem_cons_self)
  have hsorted := s.sorted
  rw [h] at hsorted
  obtain ⟨-, hback, hcross⟩ := List.pairwise_append.mp hsorted
  obtain ⟨hk, -⟩ := List.pairwise_cons.mp hback
  have hpre : pre.find? (fun e => k < e.1) = none := by
    rw [List.find?_eq_none]
    intro e he hlt
    exact Std.lt_irrefl (Std.lt_trans (hcross e he (k, v) List.mem_cons_self) (of_decide_eq_true hlt))
  have hpost : post.find? (fun e => k < e.1) = post.head? := by
    cases post with
    | nil => rfl
    | cons e post =>
      have he : decide (k < e.1) = true := decide_eq_true (hk e List.mem_cons_self)
      rw [List.find?_cons, he, List.head?_cons]
  rw [Store.next, if_pos (by rw [hfind]; rfl), h, List.find?_append, hpre, Option.none_or,
    List.find?_cons_of_neg (by simpa using Std.lt_irrefl), hpost]

/-- A loop whose body leaves the store alone visits every entry once. -/
theorem sweep_ok : ∀ (post pre : List (κ × ν)) {n : Nat}, s.entries = pre ++ post → post.length ≤ n →
    (∀ e ∈ post, body s e.1 e.2 = s) → sweep body n s (post.head?.map (·.1)) = .ok (post.map (·.1), s)
  | [], _, n, _, _, _ => by
    cases n <;> rfl
  | (k, v) :: post, pre, 0, _, hn, _ => by cases hn
  | (k, v) :: post, pre, n + 1, h, hn, hbody => by
    have hfind : s.find? k = some v :=
      Store.find?_eq_some.mpr (by rw [h]; exact List.mem_append_right _ List.mem_cons_self)
    have hrest := sweep_ok post (pre ++ [(k, v)]) (n := n) (by rw [h, List.append_assoc]; rfl)
      (Nat.le_of_succ_le_succ hn) fun e he => hbody e (List.mem_cons_of_mem _ he)
    rw [List.head?_cons, Option.map_some, sweep, hfind]
    dsimp only
    rw [hbody (k, v) List.mem_cons_self, next_of_split h]
    dsimp only
    rw [hrest]
    rfl

/-- A loop that erases an entry it stands on is stuck. -/
theorem sweep_invalid : ∀ (post pre : List (κ × ν)) {n : Nat}, s.entries = pre ++ post → post.length ≤ n →
    (∀ e ∈ post, body s e.1 e.2 = s ∨ body s e.1 e.2 = s.erase e.1) → (∃ e ∈ post, body s e.1 e.2 = s.erase e.1) →
    sweep body n s (post.head?.map (·.1)) = .error .invalid
  | [], _, _, _, _, _, h => by
    obtain ⟨e, he, -⟩ := h
    cases he
  | (k, v) :: post, pre, 0, _, hn, _, _ => by cases hn
  | (k, v) :: post, pre, n + 1, h, hn, hbody, herases => by
    have hfind : s.find? k = some v :=
      Store.find?_eq_some.mpr (by rw [h]; exact List.mem_append_right _ List.mem_cons_self)
    rw [List.head?_cons, Option.map_some, sweep, hfind]
    dsimp only
    by_cases herase : body s k v = s.erase k
    · have hgone : (s.erase k).next k = none := by
        rw [Store.next, Store.find?_erase, if_pos rfl]
        rfl
      rw [herase, hgone]
    · have hsame : body s k v = s := (hbody (k, v) List.mem_cons_self).resolve_right herase
      have hlater : ∃ e ∈ post, body s e.1 e.2 = s.erase e.1 := by
        obtain ⟨e, he, heq⟩ := herases
        rcases List.mem_cons.mp he with rfl | he
        · exact absurd heq herase
        · exact ⟨e, he, heq⟩
      have hrest := sweep_invalid post (pre ++ [(k, v)]) (n := n) (by rw [h, List.append_assoc]; rfl)
        (Nat.le_of_succ_le_succ hn) (fun e he => hbody e (List.mem_cons_of_mem _ he)) hlater
      rw [hsame, next_of_split h]
      dsimp only
      rw [hrest]
      rfl

end OrderedStore
