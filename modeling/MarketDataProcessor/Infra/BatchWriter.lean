import MarketDataProcessor.Foundations.BoundedQueue
import MarketDataProcessor.Foundations.StepRun
import Mathlib.Data.Int.Notation
import Mathlib.Data.List.Flatten

/-!
# The thread of a database writer

`DbWriter` and `SignalDbWriter` run the same program around different rows: connect, pop elements
into a batch, insert the batch in one transaction when it is large enough or old enough, and start
over with a new connection after any exception. This module is that program, with the row of an
element left as a parameter.

The database is outside the repository. All that the program sees of it is whether a connection is
established and whether a transaction commits; a transaction commits all of its rows or throws and
commits none. `Env` is what the outside supplies for one step: that answer, and the next reading of
the steady clock.

## Where the batch lives

The batch is a local of `process_queue`, and exceptions are caught one frame up, in `run`. A
connection therefore starts with an empty batch, and a transaction that throws takes the batch with
it: in both cases the step leaves `batch` empty.

## What is recorded

`popped` and `flushes` are histories: the elements taken from the input, and for every call of
`flush_to_db` its batch and whether it committed. `table` is what the committed transactions have
asked the database to insert.
`Accounts` ties them together in every reachable state.
-/

namespace Mdp

namespace BatchWriter

/-- What the outside supplies for a step. -/
structure Env where
  /-- The database does what it is asked. -/
  ok : Bool
  /-- `std::chrono::steady_clock::now()`, in nanoseconds. -/
  now : ℤ

/-- Where a writer thread stands. -/
inductive Pc where
  /-- About to test `stop_requested()` in `run`. -/
  | runTest
  /-- About to connect and prepare the statement. -/
  | connect
  /-- About to test `stop_requested()` in `process_queue`. -/
  | loopTest
  /-- About to call `input_.try_pop`. -/
  | tryPop
  /-- About to read the clock and to decide whether a flush is due. -/
  | clock
  /-- About to call `flush_to_db`: in the loop at this reading, or once more after it. -/
  | flush (now : Option ℤ)
  /-- In the retry loop, having slept this often. -/
  | backoff (slept : ℕ)
  /-- The thread has returned from `run`. -/
  | exited
  deriving DecidableEq

end BatchWriter

open BatchWriter

/-- A writer thread of elements `α` and rows `ρ`, with what it committed. -/
structure BatchWriter (α ρ : Type*) where
  pc : Pc
  /-- `local_batch`. -/
  batch : List α
  /-- `last_flush`. -/
  lastFlush : ℤ
  /-- The statements of the committed transactions, one for each element, by their arguments. How
  many rows a statement inserts is up to the tables it selects from. -/
  table : List ρ
  /-- History: the elements popped from the input. -/
  popped : List α
  /-- History: the batches handed to `flush_to_db`, and whether they were committed. -/
  flushes : List (List α × Bool)

namespace BatchWriter

variable {α ρ : Type*} {n : ℕ}

/-- The thread at the entry of `run`. -/
def start : BatchWriter α ρ where
  pc := .runTest
  batch := []
  lastFlush := 0
  table := []
  popped := []
  flushes := []

/-- `local_batch.size() >= 100`, or ten milliseconds since the last flush. -/
def flushDue (w : BatchWriter α ρ) (now : ℤ) : Bool :=
  decide (100 ≤ w.batch.length ∨ 10 ≤ (now - w.lastFlush).tdiv 1000000)

/-- Where `flush_to_db` returns to. -/
def Pc.flushed : Option ℤ → Pc
  | some _ => .loopTest
  | none => .runTest

/-- One step of the thread, with its input and the stop flag as it finds them. -/
def step (toRow : α → ρ) (env : Env) (stop : Bool) (w : BatchWriter α ρ)
    (input : BoundedQueue α n) : BatchWriter α ρ × BoundedQueue α n :=
  match w.pc with
  | .runTest => ({ w with pc := if stop then .exited else .connect }, input)
  | .connect =>
    if env.ok then ({ w with pc := .loopTest, batch := [], lastFlush := env.now }, input)
    else ({ w with pc := .backoff 0 }, input)
  | .loopTest =>
    if stop then
      -- what is in the batch goes out before the return, what is in the queue stays there
      ({ w with pc := if w.batch.isEmpty then .runTest else .flush none }, input)
    else ({ w with pc := .tryPop }, input)
  | .tryPop =>
    match input.tryPop with
    | some (x, input') =>
      ({ w with pc := .clock, batch := w.batch ++ [x], popped := w.popped ++ [x] }, input')
    | none => ({ w with pc := .clock }, input)
  | .clock =>
    if w.flushDue env.now then
      if w.batch.isEmpty then ({ w with pc := .loopTest, lastFlush := env.now }, input)
      else ({ w with pc := .flush (some env.now) }, input)
    else ({ w with pc := .loopTest }, input)
  | .flush now =>
    if env.ok then
      ({ w with
          pc := .flushed now
          batch := []
          lastFlush := now.getD w.lastFlush
          table := w.table ++ w.batch.map toRow
          flushes := w.flushes ++ [(w.batch, true)] }, input)
    else
      ({ w with pc := .backoff 0, batch := [], flushes := w.flushes ++ [(w.batch, false)] }, input)
  | .backoff slept =>
    ({ w with pc := if slept < 50 ∧ stop = false then .backoff (slept + 1) else .runTest }, input)
  | .exited => (w, input)

/-! ### What a step can do -/

/-- Where the thread stands when it moves without touching elements, and where it goes. -/
inductive Moves (stop : Bool) (w : BatchWriter α ρ) : Pc → Prop
  | leave : w.pc = .runTest → stop = true → Moves stop w .exited
  | reconnect : w.pc = .runTest → stop = false → Moves stop w .connect
  | refused : w.pc = .connect → Moves stop w (.backoff 0)
  | enter : w.pc = .loopTest → stop = false → Moves stop w .tryPop
  | finish : w.pc = .loopTest → stop = true → w.batch = [] → Moves stop w .runTest
  | finishFlush : w.pc = .loopTest → stop = true → w.batch ≠ [] → Moves stop w (.flush none)
  | popEmpty : w.pc = .tryPop → Moves stop w .clock
  | wait : w.pc = .clock → w.batch.length < 100 → Moves stop w .loopTest
  | due (now : ℤ) : w.pc = .clock → w.batch ≠ [] → Moves stop w (.flush (some now))
  | sleep (slept : ℕ) : w.pc = .backoff slept → stop = false → Moves stop w (.backoff (slept + 1))
  | wake (slept : ℕ) : w.pc = .backoff slept → Moves stop w .runTest

/-- **The rules of the thread**: it moves, starts a batch, takes an element, or is done with a batch
one way or the other. -/
inductive Step (toRow : α → ρ) (env : Env) (stop : Bool) (w : BatchWriter α ρ)
    (input : BoundedQueue α n) : BatchWriter α ρ → BoundedQueue α n → Prop
  | move (pc : Pc) : Moves stop w pc → Step toRow env stop w input { w with pc } input
  | idle : w.pc = .clock → w.batch = [] →
    Step toRow env stop w input { w with pc := .loopTest, lastFlush := env.now } input
  | connected : w.pc = .connect → env.ok = true →
    Step toRow env stop w input { w with pc := .loopTest, batch := [], lastFlush := env.now } input
  | pop (x : α) (input' : BoundedQueue α n) : w.pc = .tryPop → input.items = x :: input'.items →
    Step toRow env stop w input
      { w with pc := .clock, batch := w.batch ++ [x], popped := w.popped ++ [x] } input'
  | commit (now : Option ℤ) : w.pc = .flush now → env.ok = true →
    Step toRow env stop w input { w with
        pc := .flushed now
        batch := []
        lastFlush := now.getD w.lastFlush
        table := w.table ++ w.batch.map toRow
        flushes := w.flushes ++ [(w.batch, true)] } input
  | throw (now : Option ℤ) : w.pc = .flush now → env.ok = false →
    Step toRow env stop w input
      { w with pc := .backoff 0, batch := [], flushes := w.flushes ++ [(w.batch, false)] } input
  | rest : w.pc = .exited → Step toRow env stop w input w input

/-- **Every step is by a rule.** An empty pop is told apart by the input it finds. -/
theorem step_rule (toRow : α → ρ) (env : Env) (stop : Bool) (w : BatchWriter α ρ)
    (input : BoundedQueue α n) :
    Step toRow env stop w input (w.step toRow env stop input).1
      (w.step toRow env stop input).2 := by
  unfold step
  split
  next hpc =>
    cases stop with
    | false => exact .move _ (.reconnect hpc rfl)
    | true => exact .move _ (.leave hpc rfl)
  next hpc =>
    split
    next hok => exact .connected hpc hok
    next => exact .move _ (.refused hpc)
  next hpc =>
    split
    next hstop =>
      split
      next hempty => exact .move _ (.finish hpc hstop (List.isEmpty_iff.1 hempty))
      next hfull =>
        exact .move _ (.finishFlush hpc hstop fun hnil ↦ hfull (List.isEmpty_iff.2 hnil))
    next hstop => exact .move _ (.enter hpc (Bool.eq_false_iff.2 hstop))
  next hpc =>
    split
    next x input' hsome => exact .pop x input' hpc (BoundedQueue.tryPop_eq_some_iff.1 hsome)
    next => exact .move _ (.popEmpty hpc)
  next hpc =>
    split
    next =>
      split
      next hempty => exact .idle hpc (List.isEmpty_iff.1 hempty)
      next hfull => exact .move _ (.due env.now hpc fun hnil ↦ hfull (List.isEmpty_iff.2 hnil))
    next hdue =>
      refine .move _ (.wait hpc ?_)
      rw [flushDue, decide_eq_true_iff, not_or] at hdue
      omega
  next now hpc =>
    split
    next hok => exact .commit now hpc hok
    next hok => exact .throw now hpc (Bool.eq_false_iff.2 hok)
  next slept hpc =>
    split
    next hsleep => exact .move _ (.sleep slept hpc hsleep.2)
    next => exact .move _ (.wake slept hpc)
  next hpc => exact .rest hpc

/-! ### Accounts -/

/-- The elements of the committed batches. -/
def committed (w : BatchWriter α ρ) : List α :=
  ((w.flushes.filter fun flush ↦ flush.2).map Prod.fst).flatten

/-- How many elements the batch can hold here. -/
def Pc.room : Pc → ℕ
  | loopTest => 99
  | tryPop => 99
  | clock => 100
  | flush _ => 100
  | _ => 0

/-- What became of the popped elements, and how large batches are. -/
structure Accounts (toRow : α → ρ) (w : BatchWriter α ρ) : Prop where
  /-- Popped elements are in a flushed batch or in the current one, in order. -/
  popped : w.popped = (w.flushes.map Prod.fst).flatten ++ w.batch
  /-- The committed statements are those of the committed batches, in order. -/
  table : w.table = w.committed.map toRow
  /-- Flushed batches are not empty and not too large. -/
  sizes : ∀ flush ∈ w.flushes, 1 ≤ flush.1.length ∧ flush.1.length ≤ 100
  /-- Neither is the current one. -/
  room : w.batch.length ≤ w.pc.room
  /-- A flush is never about nothing. -/
  flush : ∀ now, w.pc = .flush now → w.batch ≠ []

theorem accounts_start (toRow : α → ρ) : (start : BatchWriter α ρ).Accounts toRow :=
  ⟨rfl, rfl, fun _ h ↦ absurd h List.not_mem_nil, Nat.le_refl _, fun _ h ↦ by simp [start] at h⟩

variable {toRow : α → ρ} {env : Env} {stop : Bool} {w w' : BatchWriter α ρ}
  {input input' : BoundedQueue α n}

/-- A move goes where the batch fits, and to a flush only with one. -/
theorem Moves.room {pc : Pc} (h : Moves stop w pc) (hroom : w.batch.length ≤ w.pc.room) :
    w.batch.length ≤ pc.room ∧ ∀ now, pc = .flush now → w.batch ≠ [] := by
  cases h with
  | leave hpc => exact ⟨by rwa [hpc] at hroom, by simp⟩
  | reconnect hpc => exact ⟨by rwa [hpc] at hroom, by simp⟩
  | refused hpc => exact ⟨by rwa [hpc] at hroom, by simp⟩
  | enter hpc => exact ⟨by rwa [hpc] at hroom, by simp⟩
  | finish hpc _ hnil => exact ⟨by simp [hnil], by simp⟩
  | finishFlush hpc _ hne =>
    rw [hpc] at hroom
    exact ⟨Nat.le_trans hroom (by decide), fun _ _ ↦ hne⟩
  | popEmpty hpc =>
    rw [hpc] at hroom
    exact ⟨Nat.le_trans hroom (by decide), by simp⟩
  | wait hpc hlt => exact ⟨by show _ ≤ 99; omega, by simp⟩
  | due now hpc hne => exact ⟨by rwa [hpc] at hroom, fun _ _ ↦ hne⟩
  | sleep slept hpc => exact ⟨by rwa [hpc] at hroom, by simp⟩
  | wake slept hpc => exact ⟨by rwa [hpc] at hroom, by simp⟩

/-- A batch joins the flushed ones. -/
theorem Accounts.flushed (h : w.Accounts toRow) {now : Option ℤ} (hpc : w.pc = .flush now)
    (ok : Bool) :
    (w.popped = ((w.flushes ++ [(w.batch, ok)]).map Prod.fst).flatten ++ []) ∧
      ∀ flush ∈ w.flushes ++ [(w.batch, ok)], 1 ≤ flush.1.length ∧ flush.1.length ≤ 100 := by
  refine ⟨by simp [h.popped], fun flush hflush ↦ ?_⟩
  rcases List.mem_append.1 hflush with hflush | hflush
  · exact h.sizes flush hflush
  · rw [List.mem_singleton.1 hflush]
    have hroom := h.room
    rw [hpc] at hroom
    exact ⟨List.length_pos_iff.2 (h.flush now hpc), hroom⟩

/-- **Every rule keeps the accounts.** -/
theorem Accounts.step (h : w.Accounts toRow) (hstep : Step toRow env stop w input w' input') :
    w'.Accounts toRow := by
  cases hstep with
  | move pc hmove =>
    obtain ⟨hroom, hflush⟩ := hmove.room h.room
    exact ⟨h.popped, h.table, h.sizes, hroom, hflush⟩
  | idle hpc hnil => exact ⟨h.popped, h.table, h.sizes, by simp [hnil], by simp⟩
  | connected hpc _ =>
    -- between two connections there is no batch to forget
    have hroom := h.room
    rw [hpc] at hroom
    have hnil : w.batch = [] := List.length_eq_zero_iff.1 (Nat.le_zero.1 hroom)
    exact ⟨by rw [h.popped, hnil], h.table, h.sizes, Nat.zero_le _, by simp⟩
  | pop x _ hpc _ =>
    have hroom := h.room
    rw [hpc] at hroom
    refine ⟨?_, h.table, h.sizes, ?_, by simp⟩
    · show w.popped ++ [x] = _ ++ (w.batch ++ [x])
      rw [h.popped, List.append_assoc]
    · show (w.batch ++ [x]).length ≤ 100
      rw [List.length_append]
      exact Nat.succ_le_succ hroom
  | commit now hpc _ =>
    obtain ⟨hpopped, hsizes⟩ := h.flushed hpc true
    refine ⟨hpopped, ?_, hsizes, Nat.zero_le _, fun _ heq ↦ ?_⟩
    · show w.table ++ w.batch.map toRow = _
      rw [h.table, committed, committed, ← List.map_append]
      simp
    · cases now <;> simp [Pc.flushed] at heq
  | throw now hpc _ =>
    obtain ⟨hpopped, hsizes⟩ := h.flushed hpc false
    refine ⟨hpopped, ?_, hsizes, Nat.zero_le _, by simp⟩
    show w.table = _
    rw [h.table, committed, committed]
    simp
  | rest hpc => exact h

/-- A writer that is not between two flushes holds nothing. -/
theorem Accounts.batch_nil (h : w.Accounts toRow) (hpc : w.pc.room = 0) : w.batch = [] :=
  List.length_eq_zero_iff.1 (Nat.le_zero.1 (hpc ▸ h.room))

/-- **What left the input was popped.** -/
theorem Step.exists_popped (hstep : Step toRow env stop w input w' input') :
    ∃ took, w'.popped = w.popped ++ took ∧ input.items = took ++ input'.items := by
  cases hstep with
  | pop x _ _ hitems => exact ⟨[x], rfl, hitems⟩
  | _ => exact ⟨[], (List.append_nil _).symm, rfl⟩

/-- What was committed is a part of what was popped, in order. -/
theorem Accounts.committed_sublist (h : w.Accounts toRow) : w.committed.Sublist w.popped := by
  rw [h.popped]
  refine List.Sublist.trans ?_ (List.sublist_append_left _ _)
  exact ((List.filter_sublist).map Prod.fst).flatten

/-! ### The record of flushes -/

/-- **A step at a flush records it**, with what the database answered. -/
theorem Step.flushes_of_flush (hstep : Step toRow env stop w input w' input') {now : Option ℤ}
    (hpc : w.pc = .flush now) : w'.flushes = w.flushes ++ [(w.batch, env.ok)] := by
  cases hstep with
  | commit _ _ hok => rw [hok]
  | throw _ _ hok => rw [hok]
  | move pc hmove => cases hmove <;> simp_all
  | idle hpc' => simp_all
  | connected hpc' => simp_all
  | pop x _ hpc' => simp_all
  | rest hpc' => simp_all

/-- **A step elsewhere records nothing.** -/
theorem Step.flushes_of_not_flush (hstep : Step toRow env stop w input w' input')
    (hpc : ∀ now, w.pc ≠ .flush now) : w'.flushes = w.flushes := by
  cases hstep with
  | commit now hpc' => exact absurd hpc' (hpc now)
  | throw now hpc' => exact absurd hpc' (hpc now)
  | _ => rfl

/-- **What was flushed stays committed exactly as long as no flush throws.** -/
theorem Step.forall_flushes_iff (hstep : Step toRow env stop w input w' input') :
    (∀ flush ∈ w'.flushes, flush.2 = true) ↔
      (∀ flush ∈ w.flushes, flush.2 = true) ∧ ((∃ now, w.pc = .flush now) → env.ok = true) := by
  by_cases hpc : ∃ now, w.pc = .flush now
  · obtain ⟨now, hnow⟩ := hpc
    rw [hstep.flushes_of_flush hnow, List.forall_mem_append, List.forall_mem_singleton]
    exact and_congr_right fun _ ↦ ⟨fun hok _ ↦ hok, fun hok ↦ hok ⟨now, hnow⟩⟩
  · rw [hstep.flushes_of_not_flush fun now hnow ↦ hpc ⟨now, hnow⟩]
    exact ⟨fun hall ↦ ⟨hall, fun hnow ↦ absurd hnow hpc⟩, fun h ↦ h.1⟩

/-- Where every flush was committed and nothing is held, everything popped is committed. -/
theorem Accounts.committed_eq (h : w.Accounts toRow) (hall : ∀ flush ∈ w.flushes, flush.2 = true)
    (hbatch : w.batch = []) : w.committed = w.popped := by
  rw [committed, List.filter_eq_self.2 hall, h.popped, hbatch, List.append_nil]

/-! ### The end of the thread -/

/-- A thread that has returned does nothing. -/
theorem Step.eq_of_exited (hstep : Step toRow env stop w input w' input') (h : w.pc = .exited) :
    w' = w ∧ input' = input := by
  cases hstep with
  | move pc hmove => cases hmove <;> simp_all
  | rest => exact ⟨rfl, rfl⟩
  | _ => simp_all

/-- **A thread returns at one place**: at the top of `run`, on a stop request. -/
theorem Step.exited_cases (hstep : Step toRow env stop w input w' input')
    (hexit : w'.pc = .exited) :
    w.pc = .exited ∨ (w.pc = .runTest ∧ stop = true ∧ w'.popped = w.popped) := by
  cases hstep with
  | move pc hmove =>
    cases hmove with
    | leave hpc hstop => exact Or.inr ⟨hpc, hstop, rfl⟩
    | _ => simp at hexit
  | commit now => cases now <;> simp [Pc.flushed] at hexit
  | rest hpc => exact Or.inl hpc
  | _ => simp at hexit

theorem Step.exited_of_runTest (hstep : Step toRow env stop w input w' input')
    (hpc : w.pc = .runTest) (hstop : stop = true) : w'.pc = .exited := by
  cases hstep with
  | move pc hmove => cases hmove <;> simp_all
  | _ => simp_all

/-- If the thread has returned, it popped as many elements as were pushed. -/
def Settled (w : BatchWriter α ρ) (pushed : ℕ) : Prop := w.pc = .exited → pushed = w.popped.length

/-- **The step that decides**: the one at which the thread returns. -/
theorem Step.settled_iff (hstep : Step toRow env stop w input w' input') (pushed : ℕ) :
    w'.Settled pushed ↔
      w.Settled pushed ∧ (w.pc = .runTest → stop = true → pushed = w.popped.length) := by
  constructor
  · intro h
    refine ⟨fun hexit ↦ ?_, fun hpc hstop ↦ ?_⟩
    · have hsame := (hstep.eq_of_exited hexit).1
      exact hsame ▸ h (hsame ▸ hexit)
    · have hexit := hstep.exited_of_runTest hpc hstop
      rcases hstep.exited_cases hexit with hpc' | ⟨-, -, hpopped⟩
      · rw [hpc] at hpc'
        simp at hpc'
      · exact hpopped ▸ h hexit
  · rintro ⟨hsettled, hdecided⟩ hexit
    rcases hstep.exited_cases hexit with hpc | ⟨hpc, hstop, hpopped⟩
    · rw [(hstep.eq_of_exited hpc).1]
      exact hsettled hpc
    · rw [hpopped]
      exact hdecided hpc hstop

end BatchWriter

end Mdp
