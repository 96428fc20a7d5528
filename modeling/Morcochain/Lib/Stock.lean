import Morcochain.Lib.Guard

/-!
# A stock and its tally

Items enter a stock under an id and leave it again. A tally keeps a balance for each key: an item that enters is
credited to its key, if it counts, and an item that leaves is debited, whether it counts or not.

* `total_move` : what a move adds to a total of the stock.
* `total_eraseP` : what leaves the stock is taken from its total.
* `tallyMove_spec` : one move of the tally.
* `tally_spec` : **the tally goes through exactly when no balance ever falls below zero**, and it shows the balances.
-/

set_option autoImplicit false

namespace Stock

open Guard

/-- An item enters the stock under an id, or the item with an id leaves it. -/
inductive Move (ι α : Type) where
  | enter (i : ι) (a : α)
  | leave (i : ι)

section Stocks

variable {ι α : Type} [DecidableEq ι]

/-- The stock after a move: the oldest item with the id leaves it. -/
def move (l : List (ι × α)) : Move ι α → List (ι × α)
  | .enter i a => l ++ [(i, a)]
  | .leave i => l.eraseP fun e => e.1 = i

/-- The stock after the moves of a list. -/
def stock (moves : List (Move ι α)) : List (ι × α) := moves.foldl move []

/-- The items that entered. -/
def entered (moves : List (Move ι α)) : List (ι × α) :=
  moves.filterMap fun
    | .enter i a => some (i, a)
    | .leave _ => none

/-- The sum of a figure of the items of a list. -/
def total (f : α → Int) (l : List (ι × α)) : Int := (l.map fun e => f e.2).sum

@[simp] theorem stock_nil : stock ([] : List (Move ι α)) = [] := rfl

@[simp] theorem stock_concat (moves : List (Move ι α)) (m : Move ι α) : stock (moves ++ [m]) =
  move (stock moves) m := by
  rw [stock, List.foldl_append]
  rfl

omit [DecidableEq ι] in
@[simp] theorem entered_concat_enter (moves : List (Move ι α)) (i : ι) (a : α) :
    entered (moves ++ [.enter i a]) = entered moves ++ [(i, a)] := by
  rw [entered, List.filterMap_append]
  rfl

omit [DecidableEq ι] in
@[simp] theorem entered_concat_leave (moves : List (Move ι α)) (i : ι) :
    entered (moves ++ [.leave i]) = entered moves := by
  rw [entered, List.filterMap_append]
  exact List.append_nil _

omit [DecidableEq ι] in
@[simp] theorem total_concat (f : α → Int) (l : List (ι × α)) (e : ι × α) : total f (l ++ [e]) = total f l + f e.2 := by
  simp [total]

omit [DecidableEq ι] in
theorem total_nonneg {f : α → Int} (hf : ∀ a, 0 ≤ f a) (l : List (ι × α)) : 0 ≤ total f l := by
  refine List.sum_nonneg fun n hn => ?_
  obtain ⟨e, -, rfl⟩ := List.mem_map.mp hn
  exact hf e.2

/-- The stock after some moves comes from the items that entered. -/
theorem mem_entered_of_mem_stock {moves : List (Move ι α)} {e : ι × α} (h : e ∈ stock moves) : e ∈ entered moves := by
  induction moves using List.reverseRecOn with
  | nil => cases h
  | append_singleton moves m ih =>
    rw [stock_concat] at h
    cases m with
    | enter i a =>
      rw [entered_concat_enter, List.mem_append]
      exact (List.mem_append.mp h).imp_left ih
    | leave i =>
      rw [entered_concat_leave]
      exact ih (List.mem_of_mem_eraseP h)

/-- What leaves the stock is taken from its total. -/
theorem total_eraseP (f : α → Int) {i : ι} {a : α} : ∀ {l : List (ι × α)}, (i, a) ∈ l → (∀ b, (i, b) ∈ l → b = a) →
    total f (l.eraseP fun e => e.1 = i) = total f l - f a
  | [], hmem, _ => by cases hmem
  | (j, b) :: l, hmem, honly => by
    by_cases hj : j = i
    · subst hj
      rw [honly b List.mem_cons_self, List.eraseP_cons_of_pos (by simp)]
      simp [total]
    · have hmem' : (i, a) ∈ l := (List.mem_cons.mp hmem).resolve_left fun h => hj (Prod.mk.inj h).1.symm
      have ih := total_eraseP f hmem' fun b hb => honly b (List.mem_cons_of_mem _ hb)
      rw [List.eraseP_cons_of_neg (by simpa using hj)]
      simp only [total, List.map_cons, List.sum_cons] at ih ⊢
      omega

omit [DecidableEq ι] in
/-- Two totals, one of which is never more, are the same exactly when the items agree. -/
theorem total_eq_iff {f g : α → Int} {l : List (ι × α)} (hle : ∀ e ∈ l, g e.2 ≤ f e.2) :
    total f l = total g l ↔ ∀ e ∈ l, f e.2 = g e.2 := by
  induction l with
  | nil => exact ⟨fun _ _ he => (nomatch he), fun _ => rfl⟩
  | cons e l ih =>
    have hrest : total g l ≤ total f l := by
      refine List.sum_le_sum fun e' he' => hle e' (List.mem_cons_of_mem _ he')
    have hhead := hle e List.mem_cons_self
    have ih' := ih fun e' he' => hle e' (List.mem_cons_of_mem _ he')
    simp only [total, List.map_cons, List.sum_cons, List.forall_mem_cons] at hrest ih' ⊢
    constructor
    · intro heq
      exact ⟨by omega, ih'.mp (by omega)⟩
    · rintro ⟨h₁, h₂⟩
      rw [h₁, ih'.mpr h₂]

omit [DecidableEq ι] in
theorem total_eq_of_forall {f g : α → Int} {l : List (ι × α)} (h : ∀ e ∈ l, f e.2 = g e.2) : total f l = total g l :=
  congrArg List.sum (List.map_congr_left h)

end Stocks

/-! ## The tally -/

section Tally

variable {ι α κ ε : Type} [DecidableEq ι] [DecidableEq κ]

/-- The tally with an amount added to the balance of a key. -/
def credit (t : κ → Option Int) (k : κ) (n : Int) : κ → Option Int := Function.update t k (some ((t k).getD 0 + n))

/-- The tally with an amount taken from the balance of a key, which must be there and suffice. A balance of zero is
taken out. -/
def debit (missing negative : ε) (t : κ → Option Int) (k : κ) (n : Int) : Except ε (κ → Option Int) :=
  match t k with
  | none => .error missing
  | some b =>
    if n > b then .error negative else .ok (Function.update t k (if b - n = 0 then none else some (b - n)))

variable (key : α → κ) (amount : α → Int) (counts : α → Bool) (find : ι → Except ε α) (missing negative : ι → ε)

/-- The tally after a move. -/
def tallyMove (t : κ → Option Int) : Move ι α → Except ε (κ → Option Int)
  | .enter _ a => .ok (if 0 < amount a ∧ counts a = true then credit t (key a) (amount a) else t)
  | .leave i => do
    let a ← find i
    if 0 < amount a then debit (missing i) (negative i) t (key a) (amount a) else return t

/-- The amount of an item, if it has the key. -/
def amountAt (k : κ) (a : α) : Int := if key a = k then amount a else 0

/-- The amount of an item that does not count, if it has the key. -/
def uncounted (k : κ) (a : α) : Int := if key a = k ∧ counts a = false then amount a else 0

/-- The balance of a key: what the stock has of it, less what entered without being counted. -/
def balance (k : κ) (moves : List (Move ι α)) : Int :=
  total (amountAt key amount k) (stock moves) - total (uncounted key amount counts k) (entered moves)

/-- The balance that a tally shows. -/
def nonzero (n : Int) : Option Int := if n = 0 then none else some n

/-- Every item that leaves is in the stock and is found under its id. -/
def Supplied (moves : List (Move ι α)) : Prop :=
  ∀ before i after, moves = before ++ .leave i :: after →
    ∃ a, find i = .ok a ∧ (i, a) ∈ stock before ∧ ∀ b, (i, b) ∈ stock before → b = a

/-- The tally shows the balances. -/
def Shows (t : κ → Option Int) (moves : List (Move ι α)) : Prop :=
  ∀ k, t k = nonzero (balance key amount counts k moves)

/-- No balance is below zero. -/
def Solvent (moves : List (Move ι α)) : Prop := ∀ k, 0 ≤ balance key amount counts k moves

variable {key amount counts find missing negative} {t t' : κ → Option Int} {moves : List (Move ι α)} {k : κ}

theorem getD_nonzero (n : Int) : (nonzero n).getD 0 = n := by
  unfold nonzero
  split <;> simp_all

theorem balance_enter (i : ι) (a : α) : balance key amount counts k (moves ++ [.enter i a]) =
    balance key amount counts k moves + (if key a = k ∧ counts a = true then amount a else 0) := by
  unfold balance
  rw [stock_concat, move, total_concat, entered_concat_enter, total_concat, amountAt, uncounted]
  by_cases hk : key a = k
  · cases counts a
    · simp [hk]
    · simp [hk]
      omega
  · simp [hk]

theorem balance_leave {i : ι} {a : α} (hmem : (i, a) ∈ stock moves) (honly : ∀ b, (i, b) ∈ stock moves → b = a) :
    balance key amount counts k (moves ++ [.leave i]) =
      balance key amount counts k moves - (if key a = k then amount a else 0) := by
  unfold balance
  rw [stock_concat, move, total_eraseP _ hmem honly, entered_concat_leave, amountAt]
  omega

/-- A debit goes through exactly when the balance suffices. -/
theorem debit_spec (e e' : ε) {n b : Int} (hn : 0 < n) (hshow : t k = nonzero b) :
    (b < n → 0 ≤ b → ∃ err, debit e e' t k n = .error err) ∧
      (n ≤ b → debit e e' t k n = .ok (Function.update t k (nonzero (b - n)))) := by
  unfold debit
  rw [hshow]
  unfold nonzero
  by_cases hzero : b = 0
  · subst hzero
    exact ⟨fun _ _ => ⟨e, rfl⟩, fun h => absurd h (by omega)⟩
  · rw [if_neg hzero]
    exact ⟨fun h _ => ⟨e', if_pos h⟩, fun h => if_neg (by omega)⟩

theorem Supplied.of_initial {moves' : List (Move ι α)} (h : Supplied find moves') (hpre : moves <+: moves') :
    Supplied find moves := by
  obtain ⟨rest, rfl⟩ := hpre
  intro before i after heq
  exact h before i (after ++ rest) (by rw [heq, List.append_assoc, List.cons_append])

/-- **One move of the tally**: it goes through exactly when no balance falls below zero, and it shows the balances. -/
theorem tallyMove_spec (hamount : ∀ a, 0 ≤ amount a) {m : Move ι α} (hshow : Shows key amount counts t moves)
    (hsolvent : Solvent key amount counts moves) (hsupplied : Supplied find (moves ++ [m])) :
    (Solvent key amount counts (moves ++ [m]) →
      ∃ t', tallyMove key amount counts find missing negative t m = .ok t' ∧
        Shows key amount counts t' (moves ++ [m])) ∧
    (¬ Solvent key amount counts (moves ++ [m]) →
      ∃ e, tallyMove key amount counts find missing negative t m = .error e) := by
  cases m with
  | enter i a =>
    have hpos := hamount a
    refine ⟨fun _ => ⟨_, rfl, fun k => ?_⟩, fun hnot => (hnot fun k => ?_).elim⟩
    · rw [balance_enter]
      by_cases hcounts : 0 < amount a ∧ counts a = true
      · rw [if_pos hcounts, credit]
        by_cases hk : key a = k
        · subst hk
          rw [Function.update_self, hshow, getD_nonzero, if_pos ⟨rfl, hcounts.2⟩, nonzero, if_neg]
          have := hsolvent (key a)
          omega
        · rw [Function.update_of_ne (Ne.symm hk), if_neg fun h => hk h.1, hshow, Int.add_zero]
      · have hzero : (if key a = k ∧ counts a = true then amount a else 0) = 0 := by
          split
          · rename_i h
            have : ¬ 0 < amount a := fun h' => hcounts ⟨h', h.2⟩
            omega
          · rfl
        rw [if_neg hcounts, hzero, hshow, Int.add_zero]
    · rw [balance_enter]
      have := hsolvent k
      split <;> omega
  | leave i =>
    obtain ⟨a, hfind, hmem, honly⟩ := hsupplied moves i [] rfl
    have hpos := hamount a
    have hbalance := fun k => @balance_leave _ _ _ _ _ key amount counts moves k i a hmem honly
    have hmove : tallyMove key amount counts find missing negative t (.leave i) =
        if 0 < amount a then debit (missing i) (negative i) t (key a) (amount a) else .ok t := by
      rw [tallyMove, hfind]
      rfl
    rw [hmove]
    by_cases hn : 0 < amount a
    · obtain ⟨hfail, hgo⟩ := debit_spec (missing i) (negative i) hn (hshow (key a))
      rw [if_pos hn]
      constructor
      · intro hafter
        have hle := hafter (key a)
        rw [hbalance, if_pos rfl] at hle
        refine ⟨_, hgo (by omega), fun k => ?_⟩
        by_cases hk : key a = k
        · subst hk
          rw [Function.update_self, hbalance, if_pos rfl]
        · rw [Function.update_of_ne (Ne.symm hk), hbalance, if_neg hk, hshow, Int.sub_zero]
      · intro hafter
        refine hfail ?_ (hsolvent (key a))
        by_contra hle
        refine hafter fun k => ?_
        have := hsolvent k
        rw [hbalance]
        split
        · rename_i hk
          subst hk
          omega
        · omega
    · have hzero : amount a = 0 := by omega
      have hsame : ∀ k, balance key amount counts k (moves ++ [.leave i]) = balance key amount counts k moves := by
        intro k
        rw [hbalance, hzero, ite_self, Int.sub_zero]
      rw [if_neg hn]
      refine ⟨fun _ => ⟨t, rfl, fun k => ?_⟩, fun hnot => (hnot fun k => ?_).elim⟩
      · rw [hsame, hshow]
      · rw [hsame]
        exact hsolvent k

/-- **When the tally goes through**: exactly when no balance ever falls below zero; then it shows the balances. -/
theorem tally_spec (hamount : ∀ a, 0 ≤ amount a) (hsupplied : Supplied find moves) :
    ((∀ before, before <+: moves → Solvent key amount counts before) →
      ∃ t, moves.foldlM (tallyMove key amount counts find missing negative) (fun _ => none) = .ok t ∧
        Shows key amount counts t moves) ∧
    (¬ (∀ before, before <+: moves → Solvent key amount counts before) →
      ∃ e, moves.foldlM (tallyMove key amount counts find missing negative) (fun _ => none) = .error e) := by
  induction moves using List.reverseRecOn with
  | nil =>
    refine ⟨fun _ => ⟨_, rfl, fun _ => rfl⟩, fun hnot => (hnot fun before h k => ?_).elim⟩
    rw [List.prefix_nil.mp h]
    exact le_refl 0
  | append_singleton moves m ih =>
    obtain ⟨hgo, hfail⟩ := ih (hsupplied.of_initial (List.prefix_append _ _))
    rw [List.foldlM_append]
    by_cases hbefore : ∀ before, before <+: moves → Solvent key amount counts before
    · obtain ⟨t, ht, hshow⟩ := hgo hbefore
      obtain ⟨hstep, hstop⟩ :=
        @tallyMove_spec _ _ _ _ _ _ key amount counts find missing negative t moves hamount m hshow
        (hbefore moves (List.prefix_refl _)) hsupplied
      have hiff : (∀ before, before <+: moves ++ [m] → Solvent key amount counts before) ↔
          Solvent key amount counts (moves ++ [m]) := by
        refine ⟨fun h => h _ (List.prefix_refl _), fun h before hpre => ?_⟩
        rcases List.prefix_concat_iff.mp hpre with rfl | hpre
        · exact h
        · exact hbefore before hpre
      rw [ht, hiff, ok_bind, List.foldlM_cons]
      constructor
      · intro hsolvent
        obtain ⟨t', ht', hshow'⟩ := hstep hsolvent
        exact ⟨t', by rw [ht']; rfl, hshow'⟩
      · intro hnot
        obtain ⟨e, he⟩ := hstop hnot
        exact ⟨e, by rw [he]; rfl⟩
    · obtain ⟨e, he⟩ := hfail hbefore
      rw [he]
      exact ⟨fun h => absurd (fun before hpre => h before (hpre.trans (List.prefix_append _ _))) hbefore,
        fun _ => ⟨e, rfl⟩⟩

end Tally

end Stock
