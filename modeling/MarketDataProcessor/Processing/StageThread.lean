import MarketDataProcessor.Foundations.BoundedQueue
import MarketDataProcessor.Foundations.StepRun
import MarketDataProcessor.Foundations.Transducer
import Mathlib.Data.List.Count

/-!
# The thread of a filtering stage

`TickParser` and `Normalizer` run the same program around different judgements of a tick:
`process_tick` in a loop while no stop is requested, then `drain_input` until the input is empty.
This module is that program, with the judgement left as a `FilterStage`.

A `Worker` is the thread with what it owns: a program counter, the state of its judgement and its
counters. `Worker.step` is one access to something shared (the stop flag, the input, the output) or
one local step between two of them, so an interleaving of `step`s with other parties' actions can
separate a pop from its push at every place the source allows.

## The two loops

`process_tick` blocks: it tests the stop flag, tries to push, and starts over when the output is
full. `drain_input` does not: it tries once and drops the tick when the output is full. Everything
else they share, up to where they go next, so the program counters of both carry a `Phase`.

## What is recorded

`popped` and `fates` are histories, not state of the source: the ticks taken from the input, and
what became of every tick the judgement wanted forwarded. `Accounts` ties both to the counters and
to the pure meaning of the stage in every reachable state; `Accounts.of_nothing` reads it off where
nothing is pending, thread exit included.
-/

namespace Mdp

/-- The two loops of a stage. -/
inductive Phase where
  | processTick
  | drainInput
  deriving DecidableEq

/-- Where a stage thread stands. -/
inductive Pc (α β κ : Type*) where
  /-- About to test `stop_requested()` in `run`. -/
  | loopTest
  /-- About to call `input_.try_pop`. -/
  | tryPop (phase : Phase)
  /-- A tick was popped and is about to be judged. -/
  | classify (phase : Phase) (tick : α)
  /-- A tick was dropped and is about to be counted. -/
  | countDrop (phase : Phase) (why : κ)
  /-- About to test `stop_requested()` before a push. -/
  | pushTest (tick : β)
  /-- About to call `output_.try_push`. -/
  | tryPush (phase : Phase) (tick : β)
  /-- A tick was pushed and is about to be counted. -/
  | countPush (phase : Phase)
  /-- The thread has returned from `run`. -/
  | exited
  deriving DecidableEq

/-- What became of a tick that was to be forwarded. -/
inductive Fate where
  | pushed
  /-- `process_tick` saw the stop request before the push. -/
  | lostInProcess
  /-- `drain_input` found the output refusing, with this many ticks in it. -/
  | lostInDrain (held : ℕ)
  deriving DecidableEq

/-- A stage thread, with the state of its judgement and its counters. -/
structure Worker (σ α β κ : Type*) where
  pc : Pc α β κ
  core : σ
  /-- `ticks_processed` of the parser, `ticks_forwarded` of the normalizer. -/
  forwarded : ℕ
  /-- The drop counters. -/
  dropped : κ → ℕ
  /-- History: the ticks popped from the input. -/
  popped : List α
  /-- History: the ticks to be forwarded and what became of them. -/
  fates : List (β × Fate)

section Program

variable {σ α β κ : Type*}

namespace Pc

/-- Where a loop starts over. -/
def resume : Phase → Pc α β κ
  | .processTick => .loopTest
  | .drainInput => .tryPop .drainInput

/-- Where a loop goes when the input is empty. -/
def idle : Phase → Pc α β κ
  | .processTick => .loopTest
  | .drainInput => .exited

/-- Where a loop goes with a tick to forward. -/
def send : Phase → β → Pc α β κ
  | .processTick, tick => .pushTest tick
  | .drainInput, tick => .tryPush .drainInput tick

/-- The loop a thread is in, if it is in one. -/
def phase? : Pc α β κ → Option Phase
  | loopTest => none
  | tryPop phase => some phase
  | classify phase _ => some phase
  | countDrop phase _ => some phase
  | pushTest _ => some .processTick
  | tryPush phase _ => some phase
  | countPush phase => some phase
  | exited => none

end Pc

namespace Worker

/-- The thread at the entry of `run`, on a stage that has not run before. -/
def start (S : FilterStage σ α β κ) : Worker σ α β κ where
  pc := .loopTest
  core := S.init
  forwarded := 0
  dropped := fun _ ↦ 0
  popped := []
  fates := []

variable [DecidableEq κ] {m n : ℕ}

/-- One step of the thread, with its buffers and the stop flag as it finds them. -/
def step (S : FilterStage σ α β κ) (stop : Bool) (w : Worker σ α β κ) (input : BoundedQueue α m)
    (output : BoundedQueue β n) : Worker σ α β κ × BoundedQueue α m × BoundedQueue β n :=
  match w.pc with
  | .loopTest =>
    ({ w with pc := .tryPop (if stop then .drainInput else .processTick) }, input, output)
  | .tryPop phase =>
    match input.tryPop with
    | none => ({ w with pc := .idle phase }, input, output)
    | some (tick, input') =>
      ({ w with pc := .classify phase tick, popped := w.popped ++ [tick] }, input', output)
  | .classify phase tick =>
    match S.classify w.core tick with
    | (core, .forward out) => ({ w with pc := .send phase out, core }, input, output)
    | (core, .drop why) => ({ w with pc := .countDrop phase why, core }, input, output)
  | .countDrop phase why =>
    ({ w with
        pc := .resume phase
        dropped := Function.update w.dropped why (w.dropped why + 1) }, input, output)
  | .pushTest tick =>
    -- tested before the first attempt too, whether or not the output has room
    if stop then
      ({ w with pc := .loopTest, fates := w.fates ++ [(tick, .lostInProcess)] }, input, output)
    else ({ w with pc := .tryPush .processTick tick }, input, output)
  | .tryPush phase tick =>
    match output.tryPush tick with
    | some output' =>
      ({ w with pc := .countPush phase, fates := w.fates ++ [(tick, .pushed)] }, input, output')
    | none =>
      match phase with
      | .processTick => ({ w with pc := .pushTest tick }, input, output)
      | .drainInput =>
        -- one attempt; the tick is dropped and not counted
        ({ w with
            pc := .tryPop .drainInput
            fates := w.fates ++ [(tick, .lostInDrain output.items.length)] }, input, output)
  | .countPush phase =>
    ({ w with pc := .resume phase, forwarded := w.forwarded + 1 }, input, output)
  | .exited => (w, input, output)

/-- **The rules of the thread**, one for each thing a step can do. -/
inductive Step (S : FilterStage σ α β κ) (stop : Bool) (w : Worker σ α β κ)
    (input : BoundedQueue α m) (output : BoundedQueue β n) :
    Worker σ α β κ → BoundedQueue α m → BoundedQueue β n → Prop
  | enter : w.pc = .loopTest → stop = false →
    Step S stop w input output { w with pc := .tryPop .processTick } input output
  | leave : w.pc = .loopTest → stop = true →
    Step S stop w input output { w with pc := .tryPop .drainInput } input output
  | popEmpty (phase : Phase) : w.pc = .tryPop phase → input.items = [] →
    Step S stop w input output { w with pc := .idle phase } input output
  | pop (phase : Phase) (tick : α) (input' : BoundedQueue α m) : w.pc = .tryPop phase →
    input.items = tick :: input'.items →
    Step S stop w input output
      { w with pc := .classify phase tick, popped := w.popped ++ [tick] } input' output
  | keep (phase : Phase) (tick : α) (core : σ) (out : β) : w.pc = .classify phase tick →
    S.classify w.core tick = (core, .forward out) →
    Step S stop w input output { w with pc := .send phase out, core } input output
  | drop (phase : Phase) (tick : α) (core : σ) (why : κ) : w.pc = .classify phase tick →
    S.classify w.core tick = (core, .drop why) →
    Step S stop w input output { w with pc := .countDrop phase why, core } input output
  | countDrop (phase : Phase) (why : κ) : w.pc = .countDrop phase why →
    Step S stop w input output { w with
        pc := .resume phase
        dropped := Function.update w.dropped why (w.dropped why + 1) } input output
  | abandon (tick : β) : w.pc = .pushTest tick → stop = true →
    Step S stop w input output
      { w with pc := .loopTest, fates := w.fates ++ [(tick, .lostInProcess)] } input output
  | attempt (tick : β) : w.pc = .pushTest tick → stop = false →
    Step S stop w input output { w with pc := .tryPush .processTick tick } input output
  | push (phase : Phase) (tick : β) (output' : BoundedQueue β n) : w.pc = .tryPush phase tick →
    output.items.length < n → output'.items = output.items ++ [tick] →
    Step S stop w input output
      { w with pc := .countPush phase, fates := w.fates ++ [(tick, .pushed)] } input output'
  | retry (tick : β) : w.pc = .tryPush .processTick tick → output.items.length = n →
    Step S stop w input output { w with pc := .pushTest tick } input output
  | overflow (tick : β) : w.pc = .tryPush .drainInput tick → output.items.length = n →
    Step S stop w input output { w with
        pc := .tryPop .drainInput
        fates := w.fates ++ [(tick, .lostInDrain output.items.length)] } input output
  | countPush (phase : Phase) : w.pc = .countPush phase →
    Step S stop w input output
      { w with pc := .resume phase, forwarded := w.forwarded + 1 } input output
  | rest : w.pc = .exited → Step S stop w input output w input output

/-- **Every step is by a rule.** -/
theorem step_rule (S : FilterStage σ α β κ) (stop : Bool) (w : Worker σ α β κ)
    (input : BoundedQueue α m) (output : BoundedQueue β n) :
    Step S stop w input output (w.step S stop input output).1 (w.step S stop input output).2.1
      (w.step S stop input output).2.2 := by
  unfold step
  split
  next hpc =>
    cases stop with
    | false => exact .enter hpc rfl
    | true => exact .leave hpc rfl
  next phase hpc =>
    split
    next hnone => exact .popEmpty phase hpc (BoundedQueue.tryPop_eq_none_iff.1 hnone)
    next tick input' hsome =>
      exact .pop phase tick input' hpc (BoundedQueue.tryPop_eq_some_iff.1 hsome)
  next phase tick hpc =>
    split
    next core out hverdict => exact .keep phase tick core out hpc hverdict
    next core why hverdict => exact .drop phase tick core why hpc hverdict
  next phase why hpc => exact .countDrop phase why hpc
  next tick hpc =>
    cases stop with
    | false => exact .attempt tick hpc rfl
    | true => exact .abandon tick hpc rfl
  next phase tick hpc =>
    split
    next output' hsome =>
      obtain ⟨hroom, hitems⟩ := BoundedQueue.tryPush_eq_some_iff.1 hsome
      exact .push phase tick output' hpc hroom hitems
    next hnone =>
      have hfull := BoundedQueue.tryPush_eq_none_iff.1 hnone
      cases phase with
      | processTick => exact .retry tick hpc hfull
      | drainInput => exact .overflow tick hpc hfull
  next phase hpc => exact .countPush phase hpc
  next hpc => exact .rest hpc

end Worker

end Program

end Mdp
