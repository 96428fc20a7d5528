import Morcochain.Lib.Run

/-!
# Parallel script checking

`checkqueue.h`: a master adds checks to a queue, workers take batches of them and merge what they found in their next
critical section. A thread takes one step at a time: a critical section of `Loop`, or one check of its own batch. The
threads step in any order, and a thread that waits may wake up at any time.

* `Accounted` : what ties the counters, the queue and the batches of the threads together.
* `Accounted.dispatch` : the critical section from the top of the loop, for any thread.
* `checkQueue_agrees` : **the result of `Wait` is that of the checks one by one**, and the queue is then unused again.
-/

set_option autoImplicit false

namespace Morcochain

universe u

variable {T : Type u}

/-! ## The queue -/

/-- `CCheckQueue`: the members that the mutex protects. -/
structure CCheckQueue (T : Type u) where
  nBatchSize : Nat
  queue : List T := []
  nIdle : Nat := 0
  nTotal : Nat := 0
  fAllOk : Bool := true
  -- an `unsigned int`
  nTodo : Nat := 0
  fQuit : Bool := false
deriving DecidableEq, Repr

/-- Where a thread is in `Loop`, with its local variables. -/
inductive LoopState (T : Type u) where
  /-- not in `Loop` yet -/
  | outside
  /-- before its first critical section -/
  | entering
  /-- in `cond.wait` -/
  | waiting
  /-- executing its batch: the checks that are left of it, and `fOk` -/
  | working (nNow : Nat) (vChecks : List T) (fOk : Bool)
  /-- out of `Loop` -/
  | returned (fRet : Bool)
deriving DecidableEq, Repr

namespace CCheckQueue

/-- `Add`. -/
def add (q : CCheckQueue T) (vChecks : List T) : CCheckQueue T :=
  { q with queue := q.queue ++ vChecks, nTodo := (q.nTodo + vChecks.length) % 2 ^ 32 }

/-- The clean-up of the previous loop run. -/
def cleanUp (q : CCheckQueue T) (nNow : Nat) (fOk : Bool) : CCheckQueue T :=
  { q with fAllOk := q.fAllOk && fOk, nTodo := (q.nTodo + 2 ^ 32 - nNow) % 2 ^ 32 }

/-- How many work units to process now. -/
def batchSize (q : CCheckQueue T) : Nat :=
  max 1 (min q.nBatchSize (q.queue.length % 2 ^ 32 / (q.nTotal + q.nIdle + 1)))

/-- The critical section from the top of the loop: return, wait, or take a batch from the back of the queue. -/
def dispatch (q : CCheckQueue T) (fMaster : Bool) : CCheckQueue T × LoopState T :=
  if q.queue.isEmpty then
    if (fMaster || q.fQuit) ∧ q.nTodo = 0 then
      ({ q with nTotal := q.nTotal - 1, fAllOk := if fMaster then true else q.fAllOk }, .returned q.fAllOk)
    else ({ q with nIdle := q.nIdle + 1 }, .waiting)
  else
    ({ q with queue := q.queue.take (q.queue.length - q.batchSize) },
      .working q.batchSize (q.queue.reverse.take q.batchSize) q.fAllOk)

/-- What a thread does next. -/
def loop (call : T → Bool) (fMaster : Bool) (q : CCheckQueue T) : LoopState T → CCheckQueue T × LoopState T
  | .outside => (q, .outside)
  -- the first iteration
  | .entering => { q with nTotal := q.nTotal + 1 }.dispatch fMaster
  -- woken up, by a notification or not
  | .waiting => { q with nIdle := q.nIdle - 1 }.dispatch fMaster
  | .working nNow (check :: vChecks) fOk => (q, .working nNow vChecks (if fOk then call check else fOk))
  | .working nNow [] fOk => (q.cleanUp nNow fOk).dispatch fMaster
  | .returned fRet => (q, .returned fRet)

/-- What the constructor of `CCheckQueueControl` asserts. -/
def Unused (q : CCheckQueue T) : Prop := q.nTotal = q.nIdle ∧ q.nTodo = 0 ∧ q.fAllOk = true

end CCheckQueue

/-! ## The threads -/

/-- The queue with the threads that use it, and the checks added since `Wait` last returned. -/
structure CheckThreads (T : Type u) where
  shared : CCheckQueue T
  master : LoopState T := .outside
  workers : List (LoopState T)
  added : List T := []
deriving DecidableEq, Repr

/-- What happens next: the master adds checks or calls `Wait`, or a thread takes a step. -/
inductive CheckEvent (T : Type u) where
  | add (vChecks : List T)
  | wait
  | master
  | worker (i : Nat)

/-- The master is in `Wait`. -/
def LoopState.inLoop : LoopState T → Bool
  | .outside | .returned _ => false
  | .entering | .waiting | .working _ _ _ => true

namespace CheckThreads

/-- A queue that was just constructed, with worker threads that have not entered `Loop` yet. -/
def init (T : Type u) (nBatchSize nWorkers : Nat) : CheckThreads T :=
  { shared := { nBatchSize := nBatchSize }, workers := List.replicate nWorkers .entering }

/-- One step. The master adds checks and calls `Wait` from outside of `Wait` only. -/
def step (call : T → Bool) (s : CheckThreads T) : CheckEvent T → CheckThreads T
  | .add vChecks =>
    if s.master.inLoop then s else { s with shared := s.shared.add vChecks, added := s.added ++ vChecks }
  | .wait => if s.master.inLoop then s else { s with master := .entering }
  | .master =>
    let next := s.shared.loop call true s.master
    { s with shared := next.1, master := next.2, added := if s.master.inLoop ∧ ¬ next.2.inLoop then [] else s.added }
  | .worker i =>
    match s.workers[i]? with
    | none => s
    | some w =>
      let next := s.shared.loop call false w
      { s with shared := next.1, workers := s.workers.set i next.2 }

end CheckThreads

/-! ## What the queue and the threads hold -/

namespace LoopState

/-- The checks that the thread has taken and not accounted for. -/
def nNow : LoopState T → Nat
  | .working nNow _ _ => nNow
  | _ => 0

/-- One for a thread that `nIdle` counts. -/
def idle : LoopState T → Nat
  | .waiting => 1
  | _ => 0

/-- One for a thread that `nTotal` counts. -/
def total : LoopState T → Nat
  | .waiting | .working _ _ _ => 1
  | _ => 0

/-- The thread knows of a failure that it has not merged, or holds a check that fails. -/
def Failing (call : T → Bool) : LoopState T → Prop
  | .working _ vChecks fOk => fOk = false ∨ ∃ check ∈ vChecks, call check = false
  | _ => False

@[simp] theorem nNow_returned (fRet : Bool) : (.returned fRet : LoopState T).nNow = 0 := rfl

@[simp] theorem nNow_working (n : Nat) (vChecks : List T) (fOk : Bool) :
    (LoopState.working n vChecks fOk).nNow = n := rfl

@[simp] theorem failing_working {call : T → Bool} {n : Nat} {vChecks : List T} {fOk : Bool} :
    (LoopState.working n vChecks fOk).Failing call ↔ fOk = false ∨ ∃ check ∈ vChecks, call check = false := Iff.rfl

@[simp] theorem not_failing_returned {call : T → Bool} {fRet : Bool} : ¬ (.returned fRet : LoopState T).Failing call :=
  id

/-- A batch has a check at least. -/
def Proper : LoopState T → Prop
  | .working nNow _ _ => 0 < nNow
  | _ => True

/-- A thread with nothing taken is idle whenever it is counted. -/
theorem idle_eq_total {w : LoopState T} (h : w.Proper) (hn : w.nNow = 0) : w.idle = w.total := by
  cases w with
  | working n _ _ => exact absurd hn (Nat.ne_of_gt h)
  | _ => rfl

/-- A thread with nothing taken holds no failure. -/
theorem not_failing {call : T → Bool} {w : LoopState T} (h : w.Proper) (hn : w.nNow = 0) : ¬ w.Failing call := by
  cases w with
  | working n _ _ => exact absurd hn (Nat.ne_of_gt h)
  | _ => exact id

end LoopState

/-- **What ties the queue to the threads**: the counters are those of the threads, `nTodo` counts what is in the queue
or taken, and a failing check that was added is in the queue, with a thread, or known to have failed. -/
structure Accounted (call : T → Bool) (q : CCheckQueue T) (threads : List (LoopState T)) (added : List T) : Prop where
  nIdle : q.nIdle = (threads.map (·.idle)).sum
  nTotal : q.nTotal = (threads.map (·.total)).sum
  outstanding : q.queue.length + (threads.map (·.nNow)).sum ≤ added.length
  nTodo : q.nTodo = (q.queue.length + (threads.map (·.nNow)).sum) % 2 ^ 32
  failed : (q.fAllOk = false ∨ (∃ check ∈ q.queue, call check = false) ∨ ∃ w ∈ threads, w.Failing call) ↔
    ∃ check ∈ added, call check = false
  fQuit : q.fQuit = false

namespace Accounted

variable {call : T → Bool} {q : CCheckQueue T} {w : LoopState T} {l l' : List (LoopState T)} {added : List T}

/-- The order of the threads does not matter. -/
theorem perm (h : Accounted call q l added) (hp : l.Perm l') : Accounted call q l' added where
  nIdle := h.nIdle.trans (hp.map _).sum_eq
  nTotal := h.nTotal.trans (hp.map _).sum_eq
  outstanding := (hp.map LoopState.nNow).sum_eq ▸ h.outstanding
  nTodo := (hp.map LoopState.nNow).sum_eq ▸ h.nTodo
  failed := (or_congr_right (or_congr_right (exists_congr fun _ => and_congr_left' hp.mem_iff))).symm.trans h.failed
  fQuit := h.fQuit

/-- `nTodo` is exact as long as fewer than 2^32 checks are added. -/
theorem nTodo_eq (h : Accounted call q l added) (hfits : added.length < 2 ^ 32) :
    q.nTodo = q.queue.length + (l.map (·.nNow)).sum :=
  h.nTodo.trans (Nat.mod_eq_of_lt (Nat.lt_of_le_of_lt h.outstanding hfits))

/-- Adding checks. -/
theorem add (h : Accounted call q l added) (vChecks : List T) :
    Accounted call (q.add vChecks) l (added ++ vChecks) where
  nIdle := h.nIdle
  nTotal := h.nTotal
  outstanding := by
    have := h.outstanding
    simp only [CCheckQueue.add, List.length_append]
    omega
  nTodo := by
    have := h.nTodo
    simp only [CCheckQueue.add, List.length_append]
    omega
  failed := by
    have hsplit : ∀ l₁ l₂ : List T, (∃ check ∈ l₁ ++ l₂, call check = false) ↔
        (∃ check ∈ l₁, call check = false) ∨ ∃ check ∈ l₂, call check = false := by
      intro l₁ l₂
      simp only [List.mem_append, or_and_right, exists_or]
    simp only [CCheckQueue.add]
    rw [hsplit, hsplit, ← h.failed]
    exact (or_congr_right or_right_comm).trans or_assoc.symm
  fQuit := h.fQuit

/-- The first critical section of a thread, up to the top of the loop. -/
theorem entering (h : Accounted call q (.entering :: l) added) :
    Accounted call { q with nTotal := q.nTotal + 1 } (.working 0 [] true :: l) added where
  nIdle := h.nIdle
  nTotal := by
    have := h.nTotal
    simp only [List.map_cons, List.sum_cons, LoopState.total] at this ⊢
    omega
  outstanding := h.outstanding
  nTodo := h.nTodo
  failed := by
    rw [← h.failed]
    simp [LoopState.Failing]
  fQuit := h.fQuit

/-- Waking up, up to the top of the loop. -/
theorem wake (h : Accounted call q (.waiting :: l) added) :
    Accounted call { q with nIdle := q.nIdle - 1 } (.working 0 [] true :: l) added where
  nIdle := by
    have := h.nIdle
    simp only [List.map_cons, List.sum_cons, LoopState.idle] at this ⊢
    omega
  nTotal := h.nTotal
  outstanding := h.outstanding
  nTodo := h.nTodo
  failed := by
    rw [← h.failed]
    simp [LoopState.Failing]
  fQuit := h.fQuit

/-- Merging the result of a batch, up to the top of the loop. -/
theorem cleanUp {n : Nat} {fOk : Bool} (h : Accounted call q (.working n [] fOk :: l) added)
    (hfits : added.length < 2 ^ 32) : Accounted call (q.cleanUp n fOk) (.working 0 [] true :: l) added where
  nIdle := h.nIdle
  nTotal := h.nTotal
  outstanding := by
    have := h.outstanding
    simp only [List.map_cons, List.sum_cons, LoopState.nNow, CCheckQueue.cleanUp] at this ⊢
    omega
  nTodo := by
    have hn := h.nTodo_eq hfits
    have := h.outstanding
    simp only [List.map_cons, List.sum_cons, LoopState.nNow, CCheckQueue.cleanUp] at this hn ⊢
    omega
  failed := by
    rw [← h.failed]
    simp only [CCheckQueue.cleanUp, List.mem_cons, exists_eq_or_imp, LoopState.Failing]
    cases q.fAllOk <;> cases fOk <;> simp
  fQuit := h.fQuit

/-- Executing one check of a batch. -/
theorem check {n : Nat} {c : T} {vChecks : List T} {fOk : Bool}
    (h : Accounted call q (.working n (c :: vChecks) fOk :: l) added) :
    Accounted call q (.working n vChecks (if fOk then call c else fOk) :: l) added where
  nIdle := h.nIdle
  nTotal := h.nTotal
  outstanding := h.outstanding
  nTodo := h.nTodo
  failed := by
    rw [← h.failed]
    simp only [List.mem_cons, exists_eq_or_imp, LoopState.Failing]
    cases fOk <;> simp
  fQuit := h.fQuit

/-- Taking a batch from the back of the queue. -/
theorem batch {n : Nat} (h : Accounted call q (.working 0 [] true :: l) added) (hn : n ≤ q.queue.length) :
    Accounted call { q with queue := q.queue.take (q.queue.length - n) }
      (.working n (q.queue.reverse.take n) q.fAllOk :: l) added where
  nIdle := h.nIdle
  nTotal := h.nTotal
  outstanding := by
    have := h.outstanding
    simp only [List.map_cons, List.sum_cons, LoopState.nNow, List.length_take] at this ⊢
    omega
  nTodo := by
    have := h.nTodo
    simp only [List.map_cons, List.sum_cons, LoopState.nNow, List.length_take] at this ⊢
    rw [this]
    congr 1
    omega
  failed := by
    rw [← h.failed]
    -- a check of the queue stays there or is in the batch
    have hmem : ∀ c, c ∈ q.queue ↔ c ∈ q.queue.take (q.queue.length - n) ∨ c ∈ q.queue.reverse.take n := by
      intro c
      rw [List.take_reverse, List.mem_reverse, ← List.mem_append, List.take_append_drop]
    simp only [hmem, List.mem_cons, LoopState.failing_working, or_and_right, exists_or, exists_eq_left]
    cases q.fAllOk <;> simp [or_assoc]
  fQuit := h.fQuit

/-- Entering `Loop` from outside. -/
theorem enter (h : Accounted call q (w :: l) added) (hw : w.inLoop = false) :
    Accounted call q (.entering :: l) added := by
  cases w with
  | outside => exact ⟨h.nIdle, h.nTotal, h.outstanding, h.nTodo, by simpa [LoopState.Failing] using h.failed, h.fQuit⟩
  | returned _ =>
    exact ⟨h.nIdle, h.nTotal, h.outstanding, h.nTodo, by simpa [LoopState.Failing] using h.failed, h.fQuit⟩
  | entering => cases hw
  | waiting => cases hw
  | working _ _ _ => cases hw

/-- Going to wait. -/
theorem sleep (h : Accounted call q (.working 0 [] true :: l) added) :
    Accounted call { q with nIdle := q.nIdle + 1 } (.waiting :: l) added where
  nIdle := by
    have := h.nIdle
    simp only [List.map_cons, List.sum_cons, LoopState.idle] at this ⊢
    omega
  nTotal := h.nTotal
  outstanding := h.outstanding
  nTodo := h.nTodo
  failed := by
    rw [← h.failed]
    simp [LoopState.Failing]
  fQuit := h.fQuit

/-- Where nothing is left to do, no thread holds anything. -/
theorem nNow_eq_zero (h : Accounted call q l added) (hfits : added.length < 2 ^ 32) (hzero : q.nTodo = 0) :
    q.queue = [] ∧ ∀ w ∈ l, w.nNow = 0 := by
  have hsum := h.nTodo_eq hfits
  refine ⟨List.length_eq_zero_iff.mp (by omega), fun w hw => ?_⟩
  have hle : w.nNow ≤ (l.map (·.nNow)).sum :=
    List.single_le_sum (fun _ _ => Nat.zero_le _) _ (List.mem_map_of_mem hw)
  omega

/-- **The master leaves**: the result is that of the checks one by one, and nothing of them stays. -/
theorem leave (h : Accounted call q (.working 0 [] true :: l) added) (hfits : added.length < 2 ^ 32)
    (hl : ∀ w ∈ l, w.Proper) (hzero : q.nTodo = 0) :
    (q.fAllOk = true ↔ ∀ check ∈ added, call check = true) ∧
      Accounted call { q with nTotal := q.nTotal - 1, fAllOk := true } (.returned q.fAllOk :: l) [] := by
  obtain ⟨hqueue, hnNow⟩ := h.nNow_eq_zero hfits hzero
  have hrest : ∀ w ∈ l, ¬ w.Failing call := fun w hw =>
    LoopState.not_failing (hl w hw) (hnNow w (List.mem_cons_of_mem _ hw))
  have hnone : ¬ ∃ w ∈ l, w.Failing call := fun ⟨w, hw, hf⟩ => hrest w hw hf
  constructor
  · have hfailed := h.failed
    rw [hqueue] at hfailed
    simp only [List.mem_cons, exists_eq_or_imp, hnone, or_false, LoopState.failing_working, List.not_mem_nil,
      false_and, exists_false, Bool.true_eq_false] at hfailed
    rw [← not_iff_not, Bool.not_eq_true, hfailed]
    simp
  · have hsum : (l.map (·.nNow)).sum = 0 := by
      have := h.nTodo_eq hfits
      simp only [List.map_cons, List.sum_cons] at this
      omega
    refine ⟨h.nIdle, ?_, ?_, ?_, ?_, h.fQuit⟩
    · have := h.nTotal
      simp only [List.map_cons, List.sum_cons, LoopState.total] at this ⊢
      omega
    · simp [hqueue, hsum]
    · simp [hqueue, hsum, hzero]
    · simpa [hqueue] using hrest

end Accounted

namespace CCheckQueue

theorem batchSize_le {q : CCheckQueue T} (h : q.queue.isEmpty = false) :
    0 < q.batchSize ∧ q.batchSize ≤ q.queue.length := by
  have hpos : 0 < q.queue.length := List.length_pos_iff.mpr fun hnil => by rw [hnil] at h; cases h
  have hmod := Nat.mod_le q.queue.length (2 ^ 32)
  have hdiv := Nat.div_le_self (q.queue.length % 2 ^ 32) (q.nTotal + q.nIdle + 1)
  unfold batchSize
  omega

end CCheckQueue

section Loop

variable {call : T → Bool} {q : CCheckQueue T} {w : LoopState T} {l : List (LoopState T)} {added : List T}

/-- What a thread may be after a step: still in `Loop`, with everything accounted for, or, the master alone, out of it
with the result of the checks one by one. -/
def Stepped (call : T → Bool) (fMaster : Bool) (l : List (LoopState T)) (added : List T)
    (next : CCheckQueue T × LoopState T) : Prop :=
  (next.2.inLoop = true ∧ next.2.Proper ∧ Accounted call next.1 (next.2 :: l) added) ∨
    fMaster = true ∧ ∃ fRet, next.2 = .returned fRet ∧ (fRet = true ↔ ∀ check ∈ added, call check = true) ∧
      Accounted call next.1 (next.2 :: l) []

/-- **The critical section from the top of the loop.** -/
theorem Accounted.dispatch (h : Accounted call q (.working 0 [] true :: l) added) (hfits : added.length < 2 ^ 32)
    (hl : ∀ w ∈ l, w.Proper) (fMaster : Bool) : Stepped call fMaster l added (q.dispatch fMaster) := by
  unfold CCheckQueue.dispatch
  split
  · split
    · rename_i hleave
      obtain ⟨hleave, hzero⟩ := hleave
      rw [h.fQuit, Bool.or_false] at hleave
      subst hleave
      exact .inr ⟨rfl, _, rfl, h.leave hfits hl hzero⟩
    · exact .inl ⟨rfl, trivial, h.sleep⟩
  · rename_i hne
    obtain ⟨hpos, hle⟩ := CCheckQueue.batchSize_le (Bool.eq_false_of_not_eq_true hne)
    exact .inl ⟨rfl, hpos, h.batch hle⟩

/-- **One step of a thread in `Loop`.** -/
theorem Accounted.loop (h : Accounted call q (w :: l) added) (hfits : added.length < 2 ^ 32)
    (hl : ∀ w ∈ l, w.Proper) (hw : w.Proper) (hin : w.inLoop = true) (fMaster : Bool) :
    Stepped call fMaster l added (q.loop call fMaster w) := by
  cases w with
  | outside => cases hin
  | returned fRet => cases hin
  | entering => exact h.entering.dispatch hfits hl fMaster
  | waiting => exact h.wake.dispatch hfits hl fMaster
  | working n vChecks fOk =>
    cases vChecks with
    | nil => exact (h.cleanUp hfits).dispatch hfits hl fMaster
    | cons c vChecks => exact .inl ⟨rfl, hw, h.check⟩

end Loop

/-! ## Every order of steps -/

namespace CheckThreads

variable {call : T → Bool}

/-- The threads with the master in front. -/
def threads (s : CheckThreads T) : List (LoopState T) := s.master :: s.workers

/-- The invariant of the runs. -/
structure Inv (call : T → Bool) (s : CheckThreads T) : Prop where
  accounted : Accounted call s.shared s.threads s.added
  proper : ∀ w ∈ s.threads, w.Proper
  workers : ∀ w ∈ s.workers, w.inLoop = true
  few : s.added.length < 2 ^ 32

theorem Inv.init (nBatchSize nWorkers : Nat) : (init T nBatchSize nWorkers).Inv call := by
  have hzero : ∀ f : LoopState T → Nat, f .outside = 0 → f .entering = 0 →
      ((CheckThreads.init T nBatchSize nWorkers).threads.map f).sum = 0 := by
    intro f hout hin
    simp [CheckThreads.init, threads, hout, hin]
  refine ⟨⟨(hzero _ rfl rfl).symm, (hzero _ rfl rfl).symm, ?_, ?_, ?_, rfl⟩, fun w hw => ?_, fun w hw => ?_,
    Nat.two_pow_pos 32⟩
  · rw [hzero _ rfl rfl]
    exact Nat.le_refl 0
  · rw [hzero _ rfl rfl]
    rfl
  · simp [CheckThreads.init, threads, LoopState.Failing]
  · rcases List.mem_cons.mp hw with rfl | hw
    · trivial
    · rw [(List.mem_replicate.mp hw).2]
      trivial
  · rw [(List.mem_replicate.mp hw).2]
    rfl

/-- Fewer than 2^32 checks are added for one `Wait`, as for the inputs of one block. -/
def FewAdded (s : CheckThreads T) : CheckEvent T → Prop
  | .add vChecks => s.added.length + vChecks.length < 2 ^ 32
  | _ => True

instance (s : CheckThreads T) : ∀ e, Decidable (s.FewAdded e)
  | .add vChecks => inferInstanceAs (Decidable (s.added.length + vChecks.length < 2 ^ 32))
  | .wait | .master | .worker _ => .isTrue trivial

theorem step_add (s : CheckThreads T) (vChecks : List T) : s.step call (.add vChecks) =
    if s.master.inLoop then s else { s with shared := s.shared.add vChecks, added := s.added ++ vChecks } := rfl

theorem step_wait (s : CheckThreads T) : s.step call .wait =
    if s.master.inLoop then s else { s with master := .entering } := rfl

/-- The step of the master in `Wait`. -/
theorem step_master {s : CheckThreads T} (h : s.master.inLoop = true) : s.step call .master =
    { s with
      shared := (s.shared.loop call true s.master).1
      master := (s.shared.loop call true s.master).2
      added := if (s.shared.loop call true s.master).2.inLoop then s.added else [] } := by
  simp only [step, h, true_and, ite_not]

theorem step_master_outside {s : CheckThreads T} (h : s.master.inLoop = false) : s.step call .master = s := by
  obtain ⟨q, m, ws, added⟩ := s
  cases m with
  | outside => rfl
  | returned _ => rfl
  | entering => cases h
  | waiting => cases h
  | working _ _ _ => cases h

/-- A worker in the list of workers, and the list after its step. -/
theorem exists_split {l : List (LoopState T)} {i : Nat} {w : LoopState T} (h : l[i]? = some w) :
    ∃ l₁ l₂, l = l₁ ++ w :: l₂ ∧ ∀ w', l.set i w' = l₁ ++ w' :: l₂ := by
  obtain ⟨hi, rfl⟩ := List.getElem?_eq_some_iff.mp h
  refine ⟨l.take i, l.drop (i + 1), ?_, fun w' => ?_⟩
  · rw [List.getElem_cons_drop, List.take_append_drop]
  · rw [List.set_eq_take_append_cons_drop, if_pos hi]

/-- Any thread may be taken to the front. -/
theorem perm_front (m w : LoopState T) (l₁ l₂ : List (LoopState T)) :
    (m :: (l₁ ++ w :: l₂)).Perm (w :: m :: (l₁ ++ l₂)) :=
  (List.perm_middle.cons m).trans (List.Perm.swap _ _ _)

/-- **The step of the master in `Wait`**: it stays there, or leaves with the result of the checks one by one. -/
theorem Inv.master {s : CheckThreads T} (h : s.Inv call) (hin : s.master.inLoop = true) :
    Stepped call true s.workers s.added (s.shared.loop call true s.master) :=
  h.accounted.loop h.few (fun w hw => h.proper w (List.mem_cons_of_mem _ hw)) (h.proper _ List.mem_cons_self) hin true

/-- The step of a worker: it stays in `Loop`. -/
theorem Inv.worker {s : CheckThreads T} (h : s.Inv call) {i : Nat} {w : LoopState T} (hw : s.workers[i]? = some w) :
    (s.step call (.worker i)).Inv call := by
  obtain ⟨l₁, l₂, heq, hset⟩ := exists_split hw
  have hperm : s.threads.Perm (w :: s.master :: (l₁ ++ l₂)) := by
    unfold threads
    rw [heq]
    exact perm_front _ _ _ _
  have hother : ∀ x ∈ s.master :: (l₁ ++ l₂), x.Proper := fun x hx =>
    h.proper x (hperm.symm.subset (List.mem_cons_of_mem _ hx))
  have hstep : s.step call (.worker i) = { s with
      shared := (s.shared.loop call false w).1, workers := l₁ ++ (s.shared.loop call false w).2 :: l₂ } := by
    simp only [step, hw, hset]
  rcases (h.accounted.perm hperm).loop h.few hother (h.proper w (hperm.symm.subset List.mem_cons_self))
    (h.workers w (List.mem_of_getElem? hw)) false with ⟨hin, hproper, hacc⟩ | ⟨hfalse, -⟩
  · rw [hstep]
    refine ⟨hacc.perm (perm_front _ _ _ _).symm, fun x hx => ?_, fun x hx => ?_, h.few⟩
    · rcases List.mem_cons.mp ((perm_front _ _ _ _).subset hx) with rfl | hx
      · exact hproper
      · exact hother x hx
    · rcases List.mem_cons.mp (List.perm_middle.subset hx) with rfl | hx
      · exact hin
      · refine h.workers x ?_
        rw [heq]
        exact List.perm_middle.symm.subset (List.mem_cons_of_mem _ hx)
  · cases hfalse

/-- **Every step keeps the invariant.** -/
theorem Inv.step {s : CheckThreads T} {e : CheckEvent T} (h : s.Inv call) (hfew : s.FewAdded e) :
    (s.step call e).Inv call := by
  cases e with
  | add vChecks =>
    rw [step_add]
    split
    · exact h
    · exact ⟨h.accounted.add vChecks, h.proper, h.workers, List.length_append ▸ hfew⟩
  | wait =>
    rw [step_wait]
    split
    · exact h
    · rename_i hout
      refine ⟨h.accounted.enter (Bool.eq_false_of_not_eq_true hout), fun w hw => ?_, h.workers, h.few⟩
      rcases List.mem_cons.mp hw with rfl | hw
      · trivial
      · exact h.proper w (List.mem_cons_of_mem _ hw)
  | master =>
    cases hin : s.master.inLoop with
    | false =>
      rw [step_master_outside hin]
      exact h
    | true =>
      have hproper : ∀ w', w'.Proper → ∀ w ∈ w' :: s.workers, w.Proper := by
        intro w' hw' w hw
        rcases List.mem_cons.mp hw with rfl | hw
        · exact hw'
        · exact h.proper w (List.mem_cons_of_mem _ hw)
      rw [step_master hin]
      rcases h.master hin with ⟨hstay, hw, hacc⟩ | ⟨-, fRet, hret, -, hacc⟩
      · rw [if_pos hstay]
        exact ⟨hacc, hproper _ hw, h.workers, h.few⟩
      · rw [hret] at hacc ⊢
        exact ⟨hacc, hproper _ trivial, h.workers, Nat.two_pow_pos 32⟩
  | worker i =>
    cases hw : s.workers[i]? with
    | none =>
      have : s.step call (.worker i) = s := by simp only [CheckThreads.step, hw]
      rwa [this]
    | some w => exact h.worker hw

/-! ## What `Wait` returns -/

/-- The queue is idle again: no check is in it or with a worker, and it is as the constructor of `CCheckQueueControl`
asserts. -/
structure Idle (s : CheckThreads T) : Prop where
  queue : s.shared.queue = []
  workers : ∀ w ∈ s.workers, w = .entering ∨ w = .waiting
  unused : s.shared.Unused

/-- Where no checks were added since `Wait` last returned, the queue is idle. -/
theorem Inv.idle {s : CheckThreads T} (h : s.Inv call) (hadded : s.added = []) : s.Idle := by
  have hacc := h.accounted
  rw [hadded] at hacc
  have hout' := hacc.outstanding
  have hsum : (s.threads.map (·.nNow)).sum = 0 := by rw [List.length_nil] at hout'; omega
  have hnNow : ∀ w ∈ s.threads, w.nNow = 0 := by
    intro w hw
    have : w.nNow ≤ (s.threads.map (·.nNow)).sum :=
      List.single_le_sum (fun _ _ => Nat.zero_le _) _ (List.mem_map_of_mem hw)
    omega
  refine ⟨List.length_eq_zero_iff.mp (by rw [List.length_nil] at hout'; omega), fun w hw => ?_, ?_, ?_, ?_⟩
  · have hmem : w ∈ s.threads := List.mem_cons_of_mem _ hw
    have hin := h.workers w hw
    cases w with
    | entering => exact .inl rfl
    | waiting => exact .inr rfl
    | working n _ _ => exact absurd (hnNow _ hmem) (Nat.ne_of_gt (h.proper _ hmem))
    | outside => cases hin
    | returned _ => cases hin
  · rw [hacc.nTotal, hacc.nIdle]
    exact congrArg List.sum (List.map_congr_left fun w hw =>
      (LoopState.idle_eq_total (h.proper w hw) (hnNow w hw)).symm)
  · rw [hacc.nTodo, hsum]
    have : s.shared.queue.length = 0 := by rw [List.length_nil] at hout'; omega
    rw [this]
    rfl
  · have hfailed := hacc.failed
    by_contra hne
    exact absurd (hfailed.mp (.inl (Bool.eq_false_of_not_eq_true hne))) (by simp)

/-- Only a step of the master makes it leave `Wait`. -/
theorem step_eq_master {s : CheckThreads T} {e : CheckEvent T} {fRet : Bool} (hin : s.master.inLoop = true)
    (h : (s.step call e).master = .returned fRet) : s.step call e = s.step call .master := by
  have hne : s.master ≠ .returned fRet := fun heq => by rw [heq] at hin; cases hin
  cases e with
  | add vChecks => rw [step_add, if_pos hin] at h; exact absurd h hne
  | wait => rw [step_wait, if_pos hin] at h; exact absurd h hne
  | master => rfl
  | worker i =>
    refine absurd ?_ hne
    unfold step at h
    cases hw : s.workers[i]? with
    | none => simpa only [hw] using h
    | some w => simpa only [hw] using h

/-- **Parallel checking agrees with checking one by one.** In every order of steps, of any number of workers: when
`Wait` returns, its result tells whether all checks added since it last returned hold, and the queue is idle. It stays
idle until checks are added. -/
theorem checkQueue_agrees (call : T → Bool) (nBatchSize nWorkers : Nat) (es : List (CheckEvent T))
    (hfew : Run.Meets (step call) FewAdded (init T nBatchSize nWorkers) es) :
    (∀ e fRet, (Run.exec (step call) (init T nBatchSize nWorkers) es).master.inLoop = true →
      (step call (Run.exec (step call) (init T nBatchSize nWorkers) es) e).master = .returned fRet →
      (fRet = true ↔ ∀ check ∈ (Run.exec (step call) (init T nBatchSize nWorkers) es).added, call check = true) ∧
        (step call (Run.exec (step call) (init T nBatchSize nWorkers) es) e).added = [] ∧
        (step call (Run.exec (step call) (init T nBatchSize nWorkers) es) e).Idle) ∧
    ((Run.exec (step call) (init T nBatchSize nWorkers) es).added = [] →
      (Run.exec (step call) (init T nBatchSize nWorkers) es).Idle) := by
  have hinv : (Run.exec (step call) (init T nBatchSize nWorkers) es).Inv call :=
    Run.exec_inv (fun s e => Inv.step) (Inv.init nBatchSize nWorkers) hfew
  generalize Run.exec (step call) (init T nBatchSize nWorkers) es = s at hinv
  refine ⟨fun e fRet hin hret => ?_, hinv.idle⟩
  have heq := step_eq_master hin hret
  rw [heq] at hret ⊢
  have hnext : (s.step call .master).Inv call := hinv.step trivial
  rw [step_master hin] at hret hnext ⊢
  replace hret : (s.shared.loop call true s.master).2 = .returned fRet := hret
  rcases hinv.master hin with ⟨hstay, -, -⟩ | ⟨-, fRet', hret', hresult, -⟩
  · rw [hret] at hstay
    cases hstay
  · obtain rfl : fRet' = fRet := LoopState.returned.inj (hret'.symm.trans hret)
    have hadded : (if (s.shared.loop call true s.master).2.inLoop then s.added else []) = [] := by rw [hret']; rfl
    exact ⟨hresult, hadded, hnext.idle hadded⟩

/-- Four checks, one of which fails, shared between two workers and the master. -/
def fourChecks : List (CheckEvent Bool) :=
  [.worker 0, .add [true, false, true, true], .worker 0, .worker 1, .wait, .master, .worker 1, .worker 0, .worker 0,
    .master, .worker 1, .master, .worker 0, .worker 1]

theorem checkQueue_agrees_sample :
    ((false = true ↔ ∀ check ∈ (Run.exec (step id) (init Bool 128 2) fourChecks).added, id check = true) ∧
      (step id (Run.exec (step id) (init Bool 128 2) fourChecks) .master).added = [] ∧
      (step id (Run.exec (step id) (init Bool 128 2) fourChecks) .master).Idle) ∧
    (Run.exec (step id) (init Bool 128 2) fourChecks).added = [true, false, true, true] :=
  ⟨(checkQueue_agrees id 128 2 fourChecks (by decide +kernel)).1 .master false (by decide +kernel) (by decide +kernel),
    by decide +kernel⟩

end CheckThreads

end Morcochain
