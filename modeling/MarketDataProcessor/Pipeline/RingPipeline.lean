import MarketDataProcessor.Core.RingCalls
import MarketDataProcessor.Pipeline.Confluence

/-!
# The pipeline on its ring buffers

`Pipeline` has bounded queues for buffers and takes a push or a pop in one step. Here the buffers
are the ring buffers, and a step is one memory access: the two threads at a buffer interleave within
their calls, loads of the opposing index may be stale, and the counters wrap. Between two calls a
thread makes the steps it makes in `Pipeline`.

`Simulates` relates the two. A call does what it does at its last access, and until then the thread
stands where it called. A call that fails leads back there: a thread whose pop finds nothing or
whose push is refused, rightly or on a stale load, tests the stop flag and calls again. So `settled`
takes a thread on the way to its next call to be at it, and a failed call is no step at all. With
that, every access is matched by at most two steps of a thread of `Pipeline`, and
`memory_accesses_refine` carries over what is known of it.

## How an access is matched

* An access in the middle of a call changes nothing the queue sees: the abstract thread stands
  still.
* The last access of a call that succeeds is the push or the pop of `Pipeline`. That it succeeds
  only when the queue would is `push_access` and `pop_access`, for one buffer.
* The last access of a call that fails matches nothing, and `settled` takes the thread on to its
  next call. Failed calls on stale loads need no case of their own for that reason.

`Matches` is this statement for one thread, with the queues it shares left open; the lemmas for the
parser, the normalizer and the book processor instantiate it and `Simulates.step` puts them together
with the feed and the consumers. `Fresh` lets the counters of a buffer start anywhere, so a run may
wrap them where it likes.
-/

namespace Mdp

/-- What a thread does next: an access of a call, or a step between two calls. -/
inductive RingMove where
  | compute
  | pop (move : PopMove)
  | push (move : PushMove)

/-! ### A stage thread on ring buffers -/

namespace Worker

variable {σ α β κ : Type*} [DecidableEq κ] {C D : RingCapacity}

/-- The thread after an access of `input_.try_pop`. -/
def gotPop (w : Worker σ α β κ) (phase : Phase) : Option (Option α) → Worker σ α β κ
  | none => w
  | some none => { w with pc := .idle phase }
  | some (some tick) => { w with pc := .classify phase tick, popped := w.popped ++ [tick] }

/-- The thread after an access of `output_.try_push`, with this many elements in the output. -/
def gotPush (w : Worker σ α β κ) (phase : Phase) (tick : β) (held : ℕ) :
    Option Bool → Worker σ α β κ
  | none => w
  | some true => { w with pc := .countPush phase, fates := w.fates ++ [(tick, .pushed)] }
  | some false =>
    match phase with
    | .processTick => { w with pc := .pushTest tick }
    | .drainInput => { w with
        pc := .tryPop .drainInput
        fates := w.fates ++ [(tick, .lostInDrain held)] }

/-- A move of the thread, with no stop requested. -/
def onRings (S : FilterStage σ α β κ) (w : Worker σ α β κ) (input : Spsc α C) (output : Spsc β D) :
    RingMove → Option (Worker σ α β κ × Spsc α C × Spsc β D)
  | .compute =>
    match w.pc with
    | .tryPop _ => none
    | .tryPush _ _ => none
    -- the other steps do not touch the buffers
    | _ => some ((w.step S false (BoundedQueue.empty : BoundedQueue α 0)
        (BoundedQueue.empty : BoundedQueue β 0)).1, input, output)
  | .pop move =>
    match w.pc with
    | .tryPop phase => (input.step move.action).map fun input' ↦
        (w.gotPop phase (input.popResult move), input', output)
    | _ => none
  | .push move =>
    match w.pc with
    | .tryPush phase tick => (output.step (move.action tick)).map fun output' ↦
        (w.gotPush phase tick output.items.length (output.pushResult move), input, output')
    | _ => none

/-- The thread at its next call, if it is on the way to one. -/
def settled (w : Worker σ α β κ) : Worker σ α β κ :=
  match w.pc with
  | .loopTest => { w with pc := .tryPop .processTick }
  | .pushTest tick => { w with pc := .tryPush .processTick tick }
  | _ => w

/-- A number of steps on bounded queues. -/
def steps {m n : ℕ} (S : FilterStage σ α β κ) (k : ℕ)
    (x : Worker σ α β κ × BoundedQueue α m × BoundedQueue β n) :
    Worker σ α β κ × BoundedQueue α m × BoundedQueue β n :=
  (fun x ↦ x.1.step S false x.2.1 x.2.2)^[k] x

/-- The call of `try_push` in progress is the thread's. -/
def Calls (w : Worker σ α β κ) (output : Spsc β D) : Prop :=
  ∀ tick ∈ output.producer.item, ∃ phase, w.pc = .tryPush phase tick

variable {S : FilterStage σ α β κ} {w w' : Worker σ α β κ} {input input' : Spsc α C}
  {output output' : Spsc β D} {move : RingMove}

omit [DecidableEq κ] in
theorem settled_of_tryPop {phase : Phase} (hpc : w.pc = .tryPop phase) : w.settled = w := by
  rw [settled, hpc]

omit [DecidableEq κ] in
theorem settled_of_tryPush {phase : Phase} {tick : β} (hpc : w.pc = .tryPush phase tick) :
    w.settled = w := by
  rw [settled, hpc]

omit [DecidableEq κ] in
/-- On the way to its next call a thread takes and counts nothing. -/
theorem settled_frame (w : Worker σ α β κ) :
    w.settled.pc.holding = w.pc.holding ∧ w.settled.forwarded = w.forwarded ∧
      w.settled.dropped = w.dropped := by
  unfold settled
  split
  next hpc => exact ⟨by rw [hpc]; rfl, rfl, rfl⟩
  next tick hpc => exact ⟨by rw [hpc]; rfl, rfl, rfl⟩
  next => exact ⟨rfl, rfl, rfl⟩

omit [DecidableEq κ] in
/-- A failed pop leads back to it. -/
theorem settled_idle (hpc : w.pc = .tryPop .processTick) :
    settled { w with pc := .idle .processTick } = w := by
  obtain ⟨pc, core, forwarded, dropped, popped, fates⟩ := w
  cases hpc
  rfl

omit [DecidableEq κ] in
/-- So does a refused push. -/
theorem settled_pushTest {tick : β} (hpc : w.pc = .tryPush .processTick tick) :
    settled { w with pc := .pushTest tick } = w := by
  obtain ⟨pc, core, forwarded, dropped, popped, fates⟩ := w
  cases hpc
  rfl

/-- A thread gets to its next call on its own. -/
theorem exists_steps_settled {m n : ℕ} (S : FilterStage σ α β κ) (w : Worker σ α β κ)
    (qin : BoundedQueue α m) (qout : BoundedQueue β n) :
    ∃ k, steps S k (w, qin, qout) = (w.settled, qin, qout) := by
  unfold settled
  split
  next hpc =>
    refine ⟨1, ?_⟩
    simp only [steps, Function.iterate_one, step, hpc, Bool.false_eq_true, if_false]
  next tick hpc =>
    refine ⟨1, ?_⟩
    simp only [steps, Function.iterate_one, step, hpc, Bool.false_eq_true, if_false]
  next => exact ⟨0, rfl⟩

/-- One step, and on to the next call. -/
theorem exists_steps_of_step {m n : ℕ} {qin qin' : BoundedQueue α m} {qout qout' : BoundedQueue β n}
    (hstep : w.step S false qin qout = (w', qin', qout')) :
    ∃ k, steps S k (w, qin, qout) = (w'.settled, qin', qout') := by
  obtain ⟨k, hk⟩ := exists_steps_settled S w' qin' qout'
  refine ⟨k + 1, ?_⟩
  rw [steps, Function.iterate_succ_apply, hstep]
  exact hk

/-- What a move on the ring buffers comes to on queues that hold the same. -/
structure Matches (S : FilterStage σ α β κ) (w w' : Worker σ α β κ) (input' : Spsc α C)
    (output' : Spsc β D) (qin : BoundedQueue α C.N) (qout : BoundedQueue β D.N) : Prop where
  inputInv : ∃ start, input'.Inv start
  outputInv : ∃ start, output'.Inv start
  calls : w'.Calls output'
  steps : ∃ k qin' qout', qin'.items = input'.items ∧ qout'.items = output'.items ∧
    Worker.steps S k (w.settled, qin, qout) = (w'.settled, qin', qout')

variable {qin : BoundedQueue α C.N} {qout : BoundedQueue β D.N}

/-- A step that leaves the buffers alone does so on any. -/
theorem step_of_compute (hpop : ∀ phase, w.pc ≠ .tryPop phase)
    (hpush : ∀ phase tick, w.pc ≠ .tryPush phase tick) {m n : ℕ} (qin : BoundedQueue α m)
    (qout : BoundedQueue β n) : w.step S false qin qout =
      ((w.step S false (BoundedQueue.empty : BoundedQueue α 0)
        (BoundedQueue.empty : BoundedQueue β 0)).1, qin, qout) := by
  unfold step
  split
  next => rfl
  next phase hpc => exact absurd hpc (hpop phase)
  next => split <;> rfl
  next => rfl
  next => rfl
  next phase tick hpc => exact absurd hpc (hpush phase tick)
  next => rfl
  next => rfl

/-- **Between two calls** the thread makes the steps it makes on queues. -/
theorem matches_compute (hin : ∃ start, input.Inv start) (hout : ∃ start, output.Inv start)
    (hcalls : w.Calls output) (hqin : qin.items = input.items) (hqout : qout.items = output.items)
    (h : w.onRings S input output .compute = some (w', input', output')) :
    input' = input ∧ output' = output ∧ Matches S w w' input' output' qin qout := by
  have hpop : ∀ phase, w.pc ≠ .tryPop phase := fun phase hpc ↦ by
    simp only [onRings, hpc] at h
    cases h
  have hpush : ∀ phase tick, w.pc ≠ .tryPush phase tick := fun phase tick hpc ↦ by
    simp only [onRings, hpc] at h
    cases h
  simp only [onRings, Option.some.injEq, Prod.mk.injEq] at h
  obtain ⟨rfl, rfl, rfl⟩ := h
  refine ⟨rfl, rfl, hin, hout, fun tick htick ↦ ?_, ?_⟩
  · obtain ⟨phase, hpc⟩ := hcalls tick htick
    exact absurd hpc (hpush phase tick)
  · have hstep := step_of_compute (S := S) hpop hpush qin qout
    cases hpc : w.pc with
    | loopTest =>
      refine ⟨0, qin, qout, hqin, hqout, ?_⟩
      simp only [steps, Function.iterate_zero, id, settled, step, hpc, Bool.false_eq_true, if_false]
    | pushTest tick =>
      refine ⟨0, qin, qout, hqin, hqout, ?_⟩
      simp only [steps, Function.iterate_zero, id, settled, step, hpc, Bool.false_eq_true, if_false]
    | tryPop phase => exact absurd hpc (hpop phase)
    | tryPush phase tick => exact absurd hpc (hpush phase tick)
    | classify | countDrop | countPush | exited =>
      have hsettled : w.settled = w := by rw [settled, hpc]
      rw [hsettled]
      obtain ⟨k, hk⟩ := exists_steps_of_step hstep
      exact ⟨k, qin, qout, hqin, hqout, hk⟩

/-- **An access of `try_pop`** is a pop if the call takes an element there, and no step if not. -/
theorem matches_pop {move : PopMove} (hin : ∃ start, input.Inv start)
    (hout : ∃ start, output.Inv start) (hcalls : w.Calls output)
    (hphase : w.pc.phase? ≠ some .drainInput) (hqin : qin.items = input.items)
    (hqout : qout.items = output.items)
    (h : w.onRings S input output (.pop move) = some (w', input', output')) :
    input'.producer = input.producer ∧ output' = output ∧
      Matches S w w' input' output' qin qout := by
  obtain ⟨start, hin⟩ := hin
  cases hpc : w.pc with
  | tryPop phase =>
    obtain rfl : phase = .processTick := by
      cases phase with
      | processTick => rfl
      | drainInput => exact absurd (by rw [hpc]; rfl) hphase
    simp only [onRings, hpc] at h
    obtain ⟨input'', hstep, heq⟩ := Option.map_eq_some_iff.1 h
    obtain ⟨rfl, rfl, rfl⟩ : w.gotPop .processTick (input.popResult move) = w' ∧
        input'' = input' ∧ output = output' := by simpa only [Prod.mk.injEq] using heq
    have haccess := Spsc.pop_access hin hstep
    have hnone : ∀ tick ∈ output.producer.item, False := fun tick htick ↦ by
      obtain ⟨phase, hpush⟩ := hcalls tick htick
      rw [hpc] at hpush
      cases hpush
    refine ⟨haccess.producer, rfl, ⟨start, hin.step hstep⟩, hout,
      fun tick htick ↦ (hnone tick htick).elim, ?_⟩
    have hstays : (∀ out, input.popResult move ≠ some (some out)) →
        (w.gotPop .processTick (input.popResult move)).settled = w.settled →
        ∃ k qin' qout', qin'.items = input''.items ∧ qout'.items = output.items ∧
          steps S k (w.settled, qin, qout) =
            ((w.gotPop .processTick (input.popResult move)).settled, qin', qout') :=
      fun hother hsame ↦ ⟨0, qin, qout, hqin.trans (haccess.other hother).symm, hqout,
        by rw [hsame]; rfl⟩
    cases hresult : input.popResult move with
    | none =>
      rw [hresult] at hstays
      exact hstays (fun _ ↦ by simp) rfl
    | some result =>
      cases result with
      | none =>
        rw [hresult] at hstays
        refine hstays (fun _ ↦ by simp) ?_
        rw [settled_of_tryPop hpc]
        exact settled_idle hpc
      | some tick =>
        have htaken := haccess.popped tick hresult
        have hle : input''.items.length ≤ C.N := (hin.step hstep).length_items_le
        have hpop : qin.tryPop = some (tick, ⟨input''.items, hle⟩) :=
          BoundedQueue.tryPop_eq_some_iff.2 (hqin.trans htaken)
        have htake : w.step S false qin qout =
            (w.gotPop .processTick (some (some tick)), ⟨input''.items, hle⟩, qout) := by
          simp only [step, hpc, hpop, gotPop]
        rw [settled_of_tryPop hpc]
        obtain ⟨k, hk⟩ := exists_steps_of_step htake
        exact ⟨k, _, qout, rfl, hqout, hk⟩
  | _ =>
    simp only [onRings, hpc] at h
    cases h

/-- **An access of `try_push`** is a push if the call succeeds there, and no step if not. -/
theorem matches_push {move : PushMove} (hin : ∃ start, input.Inv start)
    (hout : ∃ start, output.Inv start) (hcalls : w.Calls output)
    (hphase : w.pc.phase? ≠ some .drainInput) (hqin : qin.items = input.items)
    (hqout : qout.items = output.items)
    (h : w.onRings S input output (.push move) = some (w', input', output')) :
    input' = input ∧ Matches S w w' input' output' qin qout := by
  obtain ⟨start, hout⟩ := hout
  cases hpc : w.pc with
  | tryPush phase tick =>
    obtain rfl : phase = .processTick := by
      cases phase with
      | processTick => rfl
      | drainInput => exact absurd (by rw [hpc]; rfl) hphase
    simp only [onRings, hpc] at h
    obtain ⟨output'', hstep, heq⟩ := Option.map_eq_some_iff.1 h
    simp only [Prod.mk.injEq] at heq
    obtain ⟨rfl, rfl, rfl⟩ := heq
    have haccess := Spsc.push_access hout hstep
    -- the argument of the call in progress is the tick in hand
    have hargument : ∀ x ∈ output.producer.item, x = tick := fun x hx ↦ by
      obtain ⟨phase, hpush⟩ := hcalls x hx
      rw [hpc, Pc.tryPush.injEq] at hpush
      exact hpush.2.symm
    have hcalls' : output.pushResult move = none →
        (w.gotPush .processTick tick output.items.length none).Calls output'' := by
      intro _ x hx
      obtain rfl : x = tick := by
        rcases haccess.argument x hx with hold | hnew
        · exact hargument x hold
        · exact hnew
      exact ⟨.processTick, hpc⟩
    have hover : ∀ b ∈ output.pushResult move, ∀ v : Worker σ α β κ, v.Calls output'' :=
      fun b hb v x hx ↦ by
        rw [haccess.returned b hb] at hx
        cases hx
    have hinv : ∃ start, output''.Inv start := ⟨start, hout.step hstep⟩
    cases hresult : output.pushResult move with
    | none =>
      have hsame := haccess.other (by rw [hresult]; simp)
      exact ⟨rfl, hin, hinv, hcalls' hresult, 0, qin, qout, hqin, hqout.trans hsame.symm, rfl⟩
    | some ok =>
      refine ⟨rfl, hin, hinv, hover ok hresult _, ?_⟩
      cases ok with
      | false =>
        have hsame := haccess.other (by rw [hresult]; simp)
        refine ⟨0, qin, qout, hqin, hqout.trans hsame.symm, ?_⟩
        rw [settled_of_tryPush hpc]
        exact congrArg (fun v ↦ (v, qin, qout)) (settled_pushTest hpc).symm
      | true =>
        obtain ⟨x, hx, hroom, hitems⟩ := haccess.pushed hresult
        obtain rfl := hargument x hx
        rw [← hqout] at hroom hitems
        obtain ⟨qout', hpush, hqout'⟩ := BoundedQueue.exists_tryPush_eq_some hroom x
        have hsend : w.step S false qin qout =
            (w.gotPush .processTick x output.items.length (some true), qin, qout') := by
          simp only [step, hpc, hpush, gotPush]
        rw [settled_of_tryPush hpc]
        obtain ⟨k, hk⟩ := exists_steps_of_step hsend
        exact ⟨k, qin, qout', hqin, hqout'.trans hitems.symm, hk⟩
  | _ =>
    simp only [onRings, hpc] at h
    cases h

omit [DecidableEq κ] in
/-- A thread drains its input when it does so at its next call. -/
theorem phase_settled (h : w.settled.pc.phase? ≠ some .drainInput) :
    w.pc.phase? ≠ some .drainInput := by
  cases hpc : w.pc with
  | loopTest | pushTest | exited => simp [Pc.phase?]
  | tryPop | classify | countDrop | tryPush | countPush =>
    have hsame : w.settled = w := by rw [settled, hpc]
    rw [hsame, hpc] at h
    exact h

/-- **Every move** comes to a number of steps on queues. -/
theorem matches_move (hin : ∃ start, input.Inv start) (hout : ∃ start, output.Inv start)
    (hcalls : w.Calls output) (hphase : w.settled.pc.phase? ≠ some .drainInput)
    (hqin : qin.items = input.items) (hqout : qout.items = output.items)
    (h : w.onRings S input output move = some (w', input', output')) :
    input'.producer = input.producer ∧ Matches S w w' input' output' qin qout := by
  have hphase' := phase_settled hphase
  cases move with
  | compute =>
    obtain ⟨rfl, -, hmatch⟩ := matches_compute hin hout hcalls hqin hqout h
    exact ⟨rfl, hmatch⟩
  | pop move =>
    obtain ⟨hproducer, -, hmatch⟩ := matches_pop hin hout hcalls hphase' hqin hqout h
    exact ⟨hproducer, hmatch⟩
  | push move =>
    obtain ⟨rfl, hmatch⟩ := matches_push hin hout hcalls hphase' hqin hqout h
    exact ⟨rfl, hmatch⟩

end Worker

/-! ### The pipeline -/

/-- `TickRingBuffer16K`. -/
abbrev ring16K : RingCapacity := ⟨16384, by decide, by decide⟩

/-- `TickRingBuffer4K`. -/
abbrev ring4K : RingCapacity := ⟨4096, by decide, by decide⟩

/-- The pipeline with its three ring buffers. -/
structure RingPipeline where
  /-- History: the ticks published into the first buffer. -/
  published : List MarketTick
  raw : Spsc MarketTick ring16K
  parser : Worker Unit MarketTick MarketTick TickParser.Drop
  parsed : Spsc MarketTick ring4K
  normalizer : Worker Normalizer.State MarketTick MarketTick Normalizer.Drop
  normalized : Spsc MarketTick ring4K
  book : BookThread

namespace RingPipeline

/-- Who moves next. -/
inductive Action where
  /-- An access of the feed's call of `try_push`, with this tick if it begins one. -/
  | feed (tick : MarketTick) (move : PushMove)
  | parser (move : RingMove)
  | normalizer (move : RingMove)
  | book (move : RingMove)
  /-- The database writer takes a snapshot. -/
  | dbPop
  /-- The signal engine takes a snapshot. -/
  | signalPop

/-- The contents a fresh ring buffer may have: its counters' start and what is in its slots. -/
structure Fresh (C : RingCapacity) where
  start : BitVec 64
  buffer : Fin C.N → MarketTick

/-- All threads started on fresh buffers. -/
def init (dbQueue signalQueue : Option SnapshotQueue) (raw : Fresh ring16K)
    (parsed normalized : Fresh ring4K) : RingPipeline where
  published := []
  raw := Spsc.init raw.start raw.buffer
  parser := Worker.start TickParser.stage
  parsed := Spsc.init parsed.start parsed.buffer
  normalizer := Worker.start Normalizer.stage
  normalized := Spsc.init normalized.start normalized.buffer
  book := ⟨none, BookProcessor.fresh dbQueue signalQueue, []⟩

/-- The book processor's thread after an access of `input_.try_pop`. -/
def gotPop (book : BookThread) : Option (Option MarketTick) → BookThread
  | some (some tick) => { book with hand := some tick }
  | _ => book

variable (fl : FloatEnv)

/-- A move of the book processor's thread. -/
def bookOnRing (book : BookThread) (input : Spsc MarketTick ring4K) :
    RingMove → Option (BookThread × Spsc MarketTick ring4K)
  | .compute => book.hand.map fun tick ↦
      (⟨none, book.processor.processTick fl tick, book.applied ++ [tick]⟩, input)
  | .pop move =>
    match book.hand with
    | none => (input.step move.action).map fun input' ↦
        (gotPop book (input.popResult move), input')
    | some _ => none
  | .push _ => none

/-- One move. -/
def step (s : RingPipeline) : Action → Option RingPipeline
  | .feed tick move => (s.raw.step (move.action tick)).map fun raw' ↦
    { s with
      raw := raw'
      published := s.published ++
        if s.raw.pushResult move = some true then s.raw.producer.item.toList else [] }
  | .parser move => (s.parser.onRings TickParser.stage s.raw s.parsed move).map fun next ↦
    { s with parser := next.1, raw := next.2.1, parsed := next.2.2 }
  | .normalizer move =>
    (s.normalizer.onRings Normalizer.stage s.parsed s.normalized move).map fun next ↦
      { s with normalizer := next.1, parsed := next.2.1, normalized := next.2.2 }
  | .book move => (bookOnRing fl s.book s.normalized move).map fun next ↦
    { s with book := next.1, normalized := next.2 }
  | .dbPop =>
    let processor := s.book.processor
    some { s with
      book.processor := { processor with dbQueue := Pipeline.takeSnapshot processor.dbQueue } }
  | .signalPop =>
    let processor := s.book.processor
    some { s with
      book.processor :=
        { processor with signalQueue := Pipeline.takeSnapshot processor.signalQueue } }

/-! ### The simulation -/

/-- The pipeline on queues stands where this one does: the buffers hold the same, the threads are at
their next calls, and what is recorded is the same. -/
structure Simulates (fl : FloatEnv) (dbQueue signalQueue : Option SnapshotQueue)
    (s : RingPipeline) (p : Pipeline) : Prop where
  flow : p.Flow fl dbQueue signalQueue
  rawInv : ∃ start, s.raw.Inv start
  parsedInv : ∃ start, s.parsed.Inv start
  normalizedInv : ∃ start, s.normalized.Inv start
  raw : p.raw.items = s.raw.items
  parsed : p.parsed.items = s.parsed.items
  normalized : p.normalized.items = s.normalized.items
  published : p.published = s.published
  parser : p.parser = s.parser.settled
  normalizer : p.normalizer = s.normalizer.settled
  book : p.book = s.book
  parserCalls : s.parser.Calls s.parsed
  normalizerCalls : s.normalizer.Calls s.normalized

variable {fl} {dbQueue signalQueue : Option SnapshotQueue} {s t : RingPipeline} {p : Pipeline}

/-- Steps of the parser, in the pipeline. -/
theorem run_parser_steps (fl : FloatEnv) (p : Pipeline) (k : ℕ) :
    StepRun.run (Pipeline.step fl) p (List.replicate k .parser) =
      let next := Worker.steps TickParser.stage k (p.parser, p.raw, p.parsed)
      some { p with parser := next.1, raw := next.2.1, parsed := next.2.2 } := by
  induction k generalizing p with
  | zero => rfl
  | succ k ih =>
    rw [List.replicate_succ, StepRun.run_cons]
    exact ih _

/-- Steps of the normalizer, in the pipeline. -/
theorem run_normalizer_steps (fl : FloatEnv) (p : Pipeline) (k : ℕ) :
    StepRun.run (Pipeline.step fl) p (List.replicate k .normalizer) =
      let next := Worker.steps Normalizer.stage k (p.normalizer, p.parsed, p.normalized)
      some { p with normalizer := next.1, parsed := next.2.1, normalized := next.2.2 } := by
  induction k generalizing p with
  | zero => rfl
  | succ k ih =>
    rw [List.replicate_succ, StepRun.run_cons]
    exact ih _

/-- The flow holds wherever a run of the pipeline leads. -/
theorem flow_of_run {q : Pipeline} {acts : List Pipeline.Action}
    (h : p.Flow fl dbQueue signalQueue)
    (hrun : StepRun.run (Pipeline.step fl) p acts = some q) : q.Flow fl dbQueue signalQueue :=
  StepRun.run_invariant (fun _ _ _ hflow hstep ↦ hflow.step hstep) h hrun

/-- An access of the feed is a publication if its push succeeds there. -/
theorem Simulates.feed (h : Simulates fl dbQueue signalQueue s p) {tick : MarketTick}
    {move : PushMove} (hstep : s.step fl (.feed tick move) = some t) :
    ∃ acts q, StepRun.run (Pipeline.step fl) p acts = some q ∧
      Simulates fl dbQueue signalQueue t q := by
  obtain ⟨raw', haccess, rfl⟩ := Option.map_eq_some_iff.1 hstep
  obtain ⟨start, hinv⟩ := h.rawInv
  have hpush := Spsc.push_access hinv haccess
  have hinv' : ∃ start, raw'.Inv start := ⟨start, hinv.step haccess⟩
  by_cases hresult : s.raw.pushResult move = some true
  · obtain ⟨x, hx, hroom, hitems⟩ := hpush.pushed hresult
    rw [← h.raw] at hroom hitems
    obtain ⟨praw, hpraw, hprawItems⟩ := BoundedQueue.exists_tryPush_eq_some hroom x
    have hone : StepRun.run (Pipeline.step fl) p [.publish x] =
        some { p with raw := praw, published := p.published ++ [x] } := by
      rw [StepRun.run_cons, Pipeline.step, hpraw]
      rfl
    refine ⟨_, _, hone, flow_of_run h.flow hone, hinv', h.parsedInv, h.normalizedInv,
      hprawItems.trans hitems.symm, h.parsed, h.normalized, ?_, h.parser, h.normalizer, h.book,
      h.parserCalls, h.normalizerCalls⟩
    rw [if_pos hresult, hx, h.published]
    rfl
  · refine ⟨[], p, rfl, h.flow, hinv', h.parsedInv, h.normalizedInv,
      h.raw.trans (hpush.other hresult).symm, h.parsed, h.normalized, ?_, h.parser, h.normalizer,
      h.book, h.parserCalls, h.normalizerCalls⟩
    rw [if_neg hresult, List.append_nil, h.published]

/-- A move of the parser is a number of its steps. -/
theorem Simulates.parser_move (h : Simulates fl dbQueue signalQueue s p) {move : RingMove}
    (hstep : s.step fl (.parser move) = some t) :
    ∃ acts q, StepRun.run (Pipeline.step fl) p acts = some q ∧
      Simulates fl dbQueue signalQueue t q := by
  obtain ⟨⟨w', raw', parsed'⟩, hmove, rfl⟩ := Option.map_eq_some_iff.1 hstep
  have hphase : s.parser.settled.pc.phase? ≠ some .drainInput := by
    rw [← h.parser]
    exact h.flow.parser.2.2.1
  obtain ⟨-, hrawInv, hparsedInv, hcalls, k, qraw, qparsed, hqraw, hqparsed, hsteps⟩ :=
    Worker.matches_move h.rawInv h.parsedInv h.parserCalls hphase h.raw h.parsed hmove
  have hrun := run_parser_steps fl p k
  rw [h.parser, hsteps] at hrun
  exact ⟨_, _, hrun, flow_of_run h.flow hrun, hrawInv, hparsedInv, h.normalizedInv, hqraw, hqparsed,
    h.normalized, h.published, rfl, h.normalizer, h.book, hcalls, h.normalizerCalls⟩

/-- A move of the normalizer is a number of its steps. -/
theorem Simulates.normalizer_move (h : Simulates fl dbQueue signalQueue s p) {move : RingMove}
    (hstep : s.step fl (.normalizer move) = some t) :
    ∃ acts q, StepRun.run (Pipeline.step fl) p acts = some q ∧
      Simulates fl dbQueue signalQueue t q := by
  obtain ⟨⟨w', parsed', normalized'⟩, hmove, rfl⟩ := Option.map_eq_some_iff.1 hstep
  have hphase : s.normalizer.settled.pc.phase? ≠ some .drainInput := by
    rw [← h.normalizer]
    exact h.flow.normalizer.2.2.1
  obtain ⟨hproducer, hparsedInv, hnormalizedInv, hcalls, k, qparsed, qnormalized, hqparsed,
    hqnormalized, hsteps⟩ :=
    Worker.matches_move h.parsedInv h.normalizedInv h.normalizerCalls hphase h.parsed h.normalized
      hmove
  have hrun := run_normalizer_steps fl p k
  rw [h.normalizer, hsteps] at hrun
  refine ⟨_, _, hrun, flow_of_run h.flow hrun, h.rawInv, hparsedInv, hnormalizedInv, h.raw,
    hqparsed, hqnormalized, h.published, h.parser, rfl, h.book, ?_, hcalls⟩
  -- the parser's call in progress is as before
  intro tick htick
  exact h.parserCalls tick (hproducer ▸ htick)

/-- A move of the book processor is a step of its own, or none. -/
theorem Simulates.book_move (h : Simulates fl dbQueue signalQueue s p) {move : RingMove}
    (hstep : s.step fl (.book move) = some t) :
    ∃ acts q, StepRun.run (Pipeline.step fl) p acts = some q ∧
      Simulates fl dbQueue signalQueue t q := by
  obtain ⟨⟨book', normalized'⟩, hmove, rfl⟩ := Option.map_eq_some_iff.1 hstep
  obtain ⟨start, hinv⟩ := h.normalizedInv
  cases move with
  | push move => cases hmove
  | compute =>
    obtain ⟨tick, hhand, heq⟩ := Option.map_eq_some_iff.1 hmove
    obtain ⟨rfl, rfl⟩ := Prod.mk.inj heq
    have hone : StepRun.run (Pipeline.step fl) p [.book] = some { p with
        book := ⟨none, s.book.processor.processTick fl tick, s.book.applied ++ [tick]⟩ } := by
      rw [StepRun.run_cons, Pipeline.step, Pipeline.bookStep, h.book, hhand]
      rfl
    exact ⟨_, _, hone, flow_of_run h.flow hone, h.rawInv, h.parsedInv, h.normalizedInv, h.raw,
      h.parsed, h.normalized, h.published, h.parser, h.normalizer, rfl, h.parserCalls,
      h.normalizerCalls⟩
  | pop move =>
    cases hhand : s.book.hand with
    | some tick =>
      simp only [bookOnRing, hhand] at hmove
      cases hmove
    | none =>
      simp only [bookOnRing, hhand] at hmove
      obtain ⟨input, haccess, heq⟩ := Option.map_eq_some_iff.1 hmove
      obtain ⟨rfl, rfl⟩ := Prod.mk.inj heq
      have hpop := Spsc.pop_access hinv haccess
      have hinv' : ∃ start, input.Inv start := ⟨start, hinv.step haccess⟩
      have hcalls : s.normalizer.Calls input := fun tick htick ↦
        h.normalizerCalls tick (hpop.producer ▸ htick)
      by_cases hresult : ∃ tick, s.normalized.popResult move = some (some tick)
      · obtain ⟨tick, hresult⟩ := hresult
        have htaken := h.normalized.trans (hpop.popped tick hresult)
        have hle : input.items.length ≤ 4096 := (hinv.step haccess).length_items_le
        have hqpop : p.normalized.tryPop = some (tick, ⟨input.items, hle⟩) :=
          BoundedQueue.tryPop_eq_some_iff.2 htaken
        have hone : StepRun.run (Pipeline.step fl) p [.book] = some { p with
            book := { s.book with hand := some tick }, normalized := ⟨input.items, hle⟩ } := by
          rw [StepRun.run_cons, Pipeline.step, Pipeline.bookStep, h.book, hhand]
          simp only [hqpop]
          rfl
        refine ⟨_, _, hone, flow_of_run h.flow hone, h.rawInv, h.parsedInv, hinv', h.raw, h.parsed,
          rfl, h.published, h.parser, h.normalizer, ?_, h.parserCalls, hcalls⟩
        rw [hresult]
        rfl
      · have hother : ∀ tick, s.normalized.popResult move ≠ some (some tick) :=
          not_exists.1 hresult
        refine ⟨[], p, rfl, h.flow, h.rawInv, h.parsedInv, hinv', h.raw, h.parsed,
          h.normalized.trans (hpop.other hother).symm, h.published, h.parser, h.normalizer, ?_,
          h.parserCalls, hcalls⟩
        rw [h.book]
        unfold gotPop
        split
        next tick hsome => exact absurd hsome (hother tick)
        next => rfl

/-- A consumer of the book processor's queues takes a snapshot on both sides. -/
theorem Simulates.take (h : Simulates fl dbQueue signalQueue s p) {a : Pipeline.Action}
    {book : BookThread} (hone : StepRun.run (Pipeline.step fl) p [a] = some { p with book }) :
    ∃ acts q, StepRun.run (Pipeline.step fl) p acts = some q ∧
      Simulates fl dbQueue signalQueue { s with book } q :=
  ⟨_, _, hone, flow_of_run h.flow hone, h.rawInv, h.parsedInv, h.normalizedInv, h.raw, h.parsed,
    h.normalized, h.published, h.parser, h.normalizer, rfl, h.parserCalls, h.normalizerCalls⟩

/-- **Every access is matched** by a run of the pipeline on queues. -/
theorem Simulates.step (h : Simulates fl dbQueue signalQueue s p) {a : Action}
    (hstep : s.step fl a = some t) :
    ∃ acts q, StepRun.run (Pipeline.step fl) p acts = some q ∧
      Simulates fl dbQueue signalQueue t q := by
  cases a with
  | feed tick move => exact h.feed hstep
  | parser move => exact h.parser_move hstep
  | normalizer move => exact h.normalizer_move hstep
  | book move => exact h.book_move hstep
  | dbPop =>
    obtain rfl := Option.some.inj hstep
    refine h.take (a := .dbPop) ?_
    rw [StepRun.run_cons, Pipeline.step, h.book]
    rfl
  | signalPop =>
    obtain rfl := Option.some.inj hstep
    refine h.take (a := .signalPop) ?_
    rw [StepRun.run_cons, Pipeline.step, h.book]
    rfl

/-! ### What is carried over -/

/-- **Every interleaving of accesses is matched**, from threads just started on fresh buffers. -/
theorem exists_simulates {raw : Fresh ring16K} {parsed normalized : Fresh ring4K}
    {acts : List Action} (hrun : StepRun.run (step fl)
      (init dbQueue signalQueue raw parsed normalized) acts = some s) :
    ∃ acts' p, StepRun.run (Pipeline.step fl) (Pipeline.init dbQueue signalQueue) acts' = some p ∧
      Simulates fl dbQueue signalQueue s p := by
  -- both threads get to their first call
  have hstart : StepRun.run (Pipeline.step fl) (Pipeline.init dbQueue signalQueue)
      [.parser, .normalizer] = some { Pipeline.init dbQueue signalQueue with
        parser := (Worker.start TickParser.stage).settled
        normalizer := (Worker.start Normalizer.stage).settled } := rfl
  have hcalls : ∀ {C : RingCapacity} (start : BitVec 64) (buffer : Fin C.N → MarketTick)
      {σ κ : Type} (w : Worker σ MarketTick MarketTick κ), w.Calls (Spsc.init start buffer) :=
    fun _ _ _ _ _ tick htick ↦ by cases htick
  have hinit : Simulates fl dbQueue signalQueue (init dbQueue signalQueue raw parsed normalized)
      { Pipeline.init dbQueue signalQueue with
        parser := (Worker.start TickParser.stage).settled
        normalizer := (Worker.start Normalizer.stage).settled } :=
    ⟨flow_of_run (Pipeline.flow_init fl _ _) hstart, ⟨_, Spsc.inv_init _ _⟩, ⟨_, Spsc.inv_init _ _⟩,
      ⟨_, Spsc.inv_init _ _⟩, rfl, rfl, rfl, rfl, rfl, rfl, rfl, hcalls _ _ _, hcalls _ _ _⟩
  obtain ⟨acts', p, hp, hsim⟩ := StepRun.exists_run_of_simulates
    (R := Simulates fl dbQueue signalQueue) (fun _ _ _ _ h hstep ↦ h.step hstep) hinit hrun
  exact ⟨_, p, StepRun.run_append_eq_some_iff.2 ⟨_, hstart, hp⟩, hsim⟩

/-- All ring buffers are empty and no thread is working on a tick; calls may be in progress. -/
structure Quiescent (s : RingPipeline) : Prop where
  raw : s.raw.items = []
  parsed : s.parsed.items = []
  normalized : s.normalized.items = []
  parser : s.parser.pc.holding = .nothing
  normalizer : s.normalizer.pc.holding = .nothing
  book : s.book.hand = none

theorem Simulates.quiescent (h : Simulates fl dbQueue signalQueue s p) (hq : s.Quiescent) :
    p.Quiescent := by
  refine ⟨h.raw.trans hq.raw, h.parsed.trans hq.parsed, h.normalized.trans hq.normalized,
    ?_, ?_, ?_⟩
  · rw [h.parser, (Worker.settled_frame _).1, hq.parser]
  · rw [h.normalizer, (Worker.settled_frame _).1, hq.normalizer]
  · rw [h.book, hq.book]

/-- **The pipeline on ring buffers refines the pipeline on queues.** Whatever the interleaving of
the threads' memory accesses, however stale their loads, wherever the counters started and whatever
was in the slots: some run of the pipeline on queues has published the same ticks, holds the same in
every buffer and in the hands of every thread, has the same books and book counters and the same
stage counters. So the ticks applied are at every moment a prefix of the sequential result, and all
of it at rest. -/
theorem memory_accesses_refine {raw : Fresh ring16K} {parsed normalized : Fresh ring4K}
    {acts : List Action} (hrun : StepRun.run (step fl)
      (init dbQueue signalQueue raw parsed normalized) acts = some s) :
    (∃ acts' p, StepRun.run (Pipeline.step fl) (Pipeline.init dbQueue signalQueue) acts' = some p ∧
        p.published = s.published ∧
        (p.raw.items = s.raw.items ∧ p.parsed.items = s.parsed.items ∧
          p.normalized.items = s.normalized.items) ∧
        (p.parser.pc.holding = s.parser.pc.holding ∧
          p.normalizer.pc.holding = s.normalizer.pc.holding) ∧
        p.book = s.book ∧
        (p.parser.forwarded = s.parser.forwarded ∧ p.parser.dropped = s.parser.dropped) ∧
        p.normalizer.forwarded = s.normalizer.forwarded ∧
          p.normalizer.dropped = s.normalizer.dropped) ∧
      s.book.applied <+: Normalizer.normalize (TickParser.parse s.published) ∧
      (s.Quiescent → s.book.applied = Normalizer.normalize (TickParser.parse s.published)) := by
  obtain ⟨acts', p, hp, h⟩ := exists_simulates hrun
  obtain ⟨hjudging, hparsed, hrejected⟩ := s.parser.settled_frame
  obtain ⟨hholding, hforwarded, hdropped⟩ := s.normalizer.settled_frame
  refine ⟨⟨acts', p, hp, h.published, ⟨h.raw, h.parsed, h.normalized⟩, ⟨?_, ?_⟩, h.book, ⟨?_, ?_⟩,
    ?_, ?_⟩, ?_, fun hq ↦ ?_⟩
  · rw [h.parser, hjudging]
  · rw [h.normalizer, hholding]
  · rw [h.parser, hparsed]
  · rw [h.parser, hrejected]
  · rw [h.normalizer, hforwarded]
  · rw [h.normalizer, hdropped]
  · rw [← h.book, ← h.published]
    exact h.flow.applied_prefix
  · rw [← h.book, ← h.published]
    exact (h.flow.of_quiescent (h.quiescent hq)).1

/-- A call of `try_push` on a buffer of which it sees nothing popped. -/
def pushCall : List PushMove := [.call, .loadTail 0, .fullTest, .writeSlot, .storeHead]

/-- A call of `try_pop` that sees this many pushes. -/
def popCall (seen : ℕ) : List PopMove := [.call, .loadHead seen, .emptyTest, .readSlot, .storeTail]

/-- A stage takes a tick and is about to send it on. -/
def take (seen : ℕ) : List RingMove :=
  .compute :: (popCall seen).map .pop ++ [.compute, .compute]

/-- A stage takes a tick and sends it on. -/
def passOn (seen : ℕ) : List RingMove := take seen ++ pushCall.map .push ++ [.compute]

/-- Two threads take turns. -/
def turns (xs ys : List Action) : List Action := (List.zipWith (fun x y ↦ [x, y]) xs ys).flatten

/-- Two ticks, with counters that wrap at the first store. The parser looks at `head_` before the
feed's store and misses the first tick; it takes it access by access while the feed pushes the
second, which the parser has in hand at the end. The book processor's first look at the normalized
ticks falls between two accesses of the normalizer. -/
theorem memory_accesses_refine_two :
    let fl := FloatEnv.exact fun _ ↦ 0
    let feed := fun price : ℚ ↦ pushCall.map (Action.feed (.shareOfA price))
    let miss := [RingMove.pop .call, .pop (.loadHead 0), .pop .emptyTest]
    let acts := (feed 100).take 4 ++ (RingMove.compute :: miss.take 2).map .parser ++
      (feed 100).drop 4 ++ (miss.drop 2).map .parser ++
      turns ((passOn 1).map .parser) (feed 101) ++ ((passOn 1).drop 5).map .parser ++
      turns ((passOn 1).map .normalizer) (miss.map .book) ++ ((passOn 1).drop 3).map .normalizer ++
      ((popCall 1).map RingMove.pop ++ [RingMove.compute]).map .book ++ (take 2).map .parser
    ∃ s, StepRun.run (step fl) (init none none ⟨-1, fun _ ↦ .shareOfA 0⟩ ⟨-1, fun _ ↦ .shareOfA 0⟩
        ⟨-1, fun _ ↦ .shareOfA 0⟩) acts = some s ∧
      s.raw.ring.head.load = 1 ∧ s.published.length = 2 ∧ s.book.applied.length = 1 ∧
      (∃ acts' p, StepRun.run (Pipeline.step fl) (Pipeline.init none none) acts' = some p ∧
        p.book = s.book ∧ p.parser.pc.holding.inHand.length = 1) ∧
      s.book.applied <+: Normalizer.normalize (TickParser.parse s.published) := by
  intro fl feed miss acts
  obtain ⟨s, hrun, hend⟩ := Option.map_eq_some_iff.1 (by decide +kernel :
    (StepRun.run (step fl) (init none none ⟨-1, fun _ ↦ .shareOfA 0⟩ ⟨-1, fun _ ↦ .shareOfA 0⟩
      ⟨-1, fun _ ↦ .shareOfA 0⟩) acts).map
        (fun s ↦ (s.raw.ring.head.load, s.published.length, s.book.applied.length,
          s.parser.pc.holding.inHand.length)) = some (1, 2, 1, 1))
  obtain ⟨hhead, hrest⟩ := Prod.mk.inj hend
  obtain ⟨hpublished, hrest⟩ := Prod.mk.inj hrest
  obtain ⟨happlied, hholding⟩ := Prod.mk.inj hrest
  obtain ⟨⟨acts', p, hp, -, -, ⟨hparser, -⟩, hbook, -⟩, hprefix, -⟩ := memory_accesses_refine hrun
  exact ⟨s, hrun, hhead, hpublished, happlied,
    ⟨acts', p, hp, hbook, hparser.symm ▸ hholding⟩, hprefix⟩

end RingPipeline

end Mdp
