import MarketDataProcessor.Book.Emission
import MarketDataProcessor.Processing.StageThread

/-!
# The thread of the book processor

`BookProcessor::run` and `process_tick`, one step for each access to something another thread can
see: the stop flag, the input, the tick counter and the two queues. Between the pop and the last
push of a tick other threads may take from the queues, count, or ask this one to stop.

The loop and the drain after it do the same with a tick, and never wait: a snapshot that finds a
queue full is dropped. So, other than in the filtering stages, a stop request loses nothing.

`Accounts` says what the thread has done in every reachable state: its books and what it offered are
those of the ticks it applied, and what it pushed to a queue is a part of what it offered, in order.

## Why a tick is cut at the queues

A tick is applied in one step, since the books and reference prices are the thread's own; what
follows it is not. The counter and either queue are shared, so `count`, `pushDb` and `pushSignal`
are program points with the snapshot as their payload, and what is offered and not yet tried is read
off the program counter (`Pc.beforeDb`, `Pc.beforeSignal`).

## What the accounts rest on

`step_rule` turns the step function into rules, one for each access, and nothing below it unfolds a
step. `Accounts.step` goes through the rules once. Its parts set a history beside what is under way:
ticks popped and applied, ticks applied and counted, snapshots offered and tried on either queue. A
snapshot is in one of three places at any time, and that is what makes the pushed ones a sublist of
the offered ones without a hypothesis on the queues.

`Step.popped_append_items` and `Step.exists_pushed` say the same from the side of the neighbours,
for systems in which somebody else fills the input and empties the queues.
-/

namespace Mdp

open BookProcessor BookRun

namespace BookWorker

/-- Where the thread stands. -/
inductive Pc where
  /-- About to test `stop_requested()` in `run`. -/
  | loopTest
  /-- About to call `input_.try_pop`. -/
  | tryPop (phase : Phase)
  /-- A tick was popped and is about to be applied to its book. -/
  | apply (phase : Phase) (tick : MarketTick)
  /-- The tick is applied and about to be counted in `ticks_processed`. -/
  | count (phase : Phase) (snap : Option MarketSnapshot)
  /-- About to call `db_queue_->try_push`. -/
  | pushDb (phase : Phase) (snap : MarketSnapshot)
  /-- About to call `signal_queue_->try_push`. -/
  | pushSignal (phase : Phase) (snap : MarketSnapshot)
  /-- The thread has returned from `run`. -/
  | exited
  deriving DecidableEq

/-- Where a loop starts over. -/
def Pc.resume : Phase → Pc
  | .processTick => .loopTest
  | .drainInput => .tryPop .drainInput

/-- Where a loop goes when the input is empty. -/
def Pc.idle : Phase → Pc
  | .processTick => .loopTest
  | .drainInput => .exited

/-- Where a loop goes once the tick is counted. -/
def Pc.counted (phase : Phase) : Option MarketSnapshot → Pc
  | some snap => .pushDb phase snap
  | none => .resume phase

end BookWorker

/-- The thread, with the processor it runs. -/
structure BookWorker where
  pc : BookWorker.Pc
  processor : BookProcessor
  /-- History: the ticks popped from the input. -/
  popped : List MarketTick
  /-- History: the ticks applied to a book. -/
  applied : List MarketTick
  /-- History: the snapshots offered. -/
  offers : List MarketSnapshot
  /-- History: the snapshots pushed to the database queue. -/
  dbPushed : List MarketSnapshot
  /-- History: the snapshots pushed to the signal queue. -/
  signalPushed : List MarketSnapshot

namespace BookWorker

/-- The thread at the entry of `run`. -/
def start (dbQueue signalQueue : Option SnapshotQueue) : BookWorker where
  pc := .loopTest
  processor := fresh dbQueue signalQueue
  popped := []
  applied := []
  offers := []
  dbPushed := []
  signalPushed := []

/-- What a queue takes of an offered snapshot. -/
def taken (queue : Option SnapshotQueue) (snap : MarketSnapshot) : List MarketSnapshot :=
  if queue.any fun q ↦ decide (q.items.length < 4096) then [snap] else []

variable (fl : FloatEnv) {n : ℕ}

/-- One step of the thread, with its input and the stop flag as it finds them. -/
def step (stop : Bool) (w : BookWorker) (input : BoundedQueue MarketTick n) :
    BookWorker × BoundedQueue MarketTick n :=
  match w.pc with
  | .loopTest => ({ w with pc := .tryPop (if stop then .drainInput else .processTick) }, input)
  | .tryPop phase =>
    match input.tryPop with
    | none => ({ w with pc := .idle phase }, input)
    | some (tick, input') =>
      ({ w with pc := .apply phase tick, popped := w.popped ++ [tick] }, input')
  | .apply phase tick =>
    ({ w with
        pc := .count phase (w.processor.offered fl tick)
        -- the count is a step of its own
        processor := { w.processor.applyTick fl tick with
          ticksProcessed := w.processor.ticksProcessed }
        applied := w.applied ++ [tick]
        offers := w.offers ++ (w.processor.offered fl tick).toList }, input)
  | .count phase snap =>
    ({ w with
        pc := .counted phase snap
        processor := { w.processor with ticksProcessed := w.processor.ticksProcessed + 1 } }, input)
  | .pushDb phase snap =>
    ({ w with
        pc := .pushSignal phase snap
        processor := w.processor.pushDb snap
        dbPushed := w.dbPushed ++ taken w.processor.dbQueue snap }, input)
  | .pushSignal phase snap =>
    ({ w with
        pc := .resume phase
        processor := w.processor.pushSignal snap
        signalPushed := w.signalPushed ++ taken w.processor.signalQueue snap }, input)
  | .exited => (w, input)

/-- **The rules of the thread.** -/
inductive Step (stop : Bool) (w : BookWorker) (input : BoundedQueue MarketTick n) :
    BookWorker → BoundedQueue MarketTick n → Prop
  | enter : w.pc = .loopTest → stop = false →
    Step stop w input { w with pc := .tryPop .processTick } input
  | leave : w.pc = .loopTest → stop = true →
    Step stop w input { w with pc := .tryPop .drainInput } input
  | popEmpty (phase : Phase) : w.pc = .tryPop phase → input.items = [] →
    Step stop w input { w with pc := .idle phase } input
  | pop (phase : Phase) (tick : MarketTick) (input' : BoundedQueue MarketTick n) :
    w.pc = .tryPop phase → input.items = tick :: input'.items →
    Step stop w input { w with pc := .apply phase tick, popped := w.popped ++ [tick] } input'
  | apply (phase : Phase) (tick : MarketTick) : w.pc = .apply phase tick →
    Step stop w input { w with
        pc := .count phase (w.processor.offered fl tick)
        processor := { w.processor.applyTick fl tick with
          ticksProcessed := w.processor.ticksProcessed }
        applied := w.applied ++ [tick]
        offers := w.offers ++ (w.processor.offered fl tick).toList } input
  | count (phase : Phase) (snap : Option MarketSnapshot) : w.pc = .count phase snap →
    Step stop w input { w with
        pc := .counted phase snap
        processor := { w.processor with ticksProcessed := w.processor.ticksProcessed + 1 } } input
  | pushDb (phase : Phase) (snap : MarketSnapshot) : w.pc = .pushDb phase snap →
    Step stop w input { w with
        pc := .pushSignal phase snap
        processor := w.processor.pushDb snap
        dbPushed := w.dbPushed ++ taken w.processor.dbQueue snap } input
  | pushSignal (phase : Phase) (snap : MarketSnapshot) : w.pc = .pushSignal phase snap →
    Step stop w input { w with
        pc := .resume phase
        processor := w.processor.pushSignal snap
        signalPushed := w.signalPushed ++ taken w.processor.signalQueue snap } input
  | rest : w.pc = .exited → Step stop w input w input

/-- **Every step is by a rule.** -/
theorem step_rule (stop : Bool) (w : BookWorker) (input : BoundedQueue MarketTick n) :
    Step fl stop w input (w.step fl stop input).1 (w.step fl stop input).2 := by
  unfold step
  split
  next hpc =>
    cases stop with
    | false => exact .enter hpc rfl
    | true => exact .leave hpc rfl
  next phase hpc =>
    split
    next hnone => exact .popEmpty phase hpc (BoundedQueue.tryPop_eq_none_iff.1 hnone)
    next tick input' hsome =>
      exact .pop phase tick input' hpc (BoundedQueue.tryPop_eq_some_iff.1 hsome)
  next phase tick hpc => exact .apply phase tick hpc
  next phase snap hpc => exact .count phase snap hpc
  next phase snap hpc => exact .pushDb phase snap hpc
  next phase snap hpc => exact .pushSignal phase snap hpc
  next hpc => exact .rest hpc

/-! ### What is under way -/

namespace Pc

/-- The tick popped and not yet applied. -/
def unapplied : Pc → List MarketTick
  | apply _ tick => [tick]
  | _ => []

/-- How many applied ticks are not counted yet. -/
def uncounted : Pc → ℕ
  | count _ _ => 1
  | _ => 0

/-- The snapshot offered and not yet tried on the database queue. -/
def beforeDb : Pc → List MarketSnapshot
  | count _ snap => snap.toList
  | pushDb _ snap => [snap]
  | _ => []

/-- The snapshot offered and not yet tried on the signal queue. -/
def beforeSignal : Pc → List MarketSnapshot
  | count _ snap => snap.toList
  | pushDb _ snap => [snap]
  | pushSignal _ snap => [snap]
  | _ => []

/-- Nothing is under way. -/
def Clear (pc : Pc) : Prop :=
  pc.unapplied = [] ∧ pc.uncounted = 0 ∧ pc.beforeDb = [] ∧ pc.beforeSignal = []

theorem clear_resume (phase : Phase) : (resume phase).Clear := by
  cases phase <;> exact ⟨rfl, rfl, rfl, rfl⟩

theorem clear_idle (phase : Phase) : (idle phase).Clear := by
  cases phase <;> exact ⟨rfl, rfl, rfl, rfl⟩

theorem under_way_counted (phase : Phase) (snap : Option MarketSnapshot) :
    (counted phase snap).unapplied = [] ∧ (counted phase snap).uncounted = 0 ∧
      (counted phase snap).beforeDb = snap.toList ∧
      (counted phase snap).beforeSignal = snap.toList := by
  cases snap with
  | none => exact clear_resume phase
  | some snap => exact ⟨rfl, rfl, rfl, rfl⟩

end Pc

/-! ### Accounts -/

/-- What the thread has done, on queues attached as `dbQueue` and `signalQueue` are. -/
structure Accounts (dbQueue signalQueue : Option SnapshotQueue) (w : BookWorker) : Prop where
  /-- Popped ticks are applied, up to one. -/
  popped : w.popped = w.applied ++ w.pc.unapplied
  /-- The books are those of the applied ticks. -/
  books : w.processor.books =
    ((offering fl).state (fresh dbQueue signalQueue) w.applied).books
  /-- So are the references. -/
  references : w.processor.referencePrice =
    ((offering fl).state (fresh dbQueue signalQueue) w.applied).referencePrice
  /-- So are the offers. -/
  offers : w.offers = (offering fl).outputs (fresh dbQueue signalQueue) w.applied
  /-- Applied ticks are counted, up to one. -/
  counted : w.processor.ticksProcessed + w.pc.uncounted = w.applied.length
  /-- Queues stay attached or detached. -/
  attached : (w.processor.dbQueue.isSome || w.processor.signalQueue.isSome) =
    (dbQueue.isSome || signalQueue.isSome)
  /-- What the database queue received was offered, in this order. -/
  db : (w.dbPushed ++ w.pc.beforeDb).Sublist w.offers
  /-- What the signal queue received was offered, in this order. -/
  signal : (w.signalPushed ++ w.pc.beforeSignal).Sublist w.offers

theorem accounts_start (dbQueue signalQueue : Option SnapshotQueue) :
    (start dbQueue signalQueue).Accounts fl dbQueue signalQueue :=
  ⟨rfl, rfl, rfl, rfl, rfl, rfl, List.Sublist.refl _, List.Sublist.refl _⟩

variable {fl} {stop : Bool} {w w' : BookWorker} {input input' : BoundedQueue MarketTick n}
  {dbQueue signalQueue : Option SnapshotQueue}

/-- Moving where nothing is under way. -/
theorem Accounts.move (h : w.Accounts fl dbQueue signalQueue) {pc pc' : Pc} (hpc : w.pc = pc)
    (hclear : pc.Clear) (hclear' : pc'.Clear) :
    ({ w with pc := pc' } : BookWorker).Accounts fl dbQueue signalQueue := by
  subst hpc
  obtain ⟨hpopped, hbooks, hrefs, hoffers, hcounted, hattached, hdb, hsignal⟩ := h
  obtain ⟨h₁, h₂, h₃, h₄⟩ := hclear
  obtain ⟨h₁', h₂', h₃', h₄'⟩ := hclear'
  rw [h₁] at hpopped
  rw [h₂] at hcounted
  rw [h₃] at hdb
  rw [h₄] at hsignal
  exact ⟨by rw [h₁']; exact hpopped, hbooks, hrefs, hoffers, by rw [h₂']; exact hcounted, hattached,
    by rw [h₃']; exact hdb, by rw [h₄']; exact hsignal⟩

theorem taken_sublist (queue : Option SnapshotQueue) (snap : MarketSnapshot) :
    (taken queue snap).Sublist [snap] := by
  rw [taken]
  split_ifs
  · exact List.Sublist.refl _
  · exact List.nil_sublist _

/-- A tick is applied: it joins the applied ones, and what it calls for is offered. -/
theorem Accounts.apply (h : w.Accounts fl dbQueue signalQueue) {phase : Phase} {tick : MarketTick}
    (hpc : w.pc = .apply phase tick) :
    ({ w with
        pc := .count phase (w.processor.offered fl tick)
        processor := { w.processor.applyTick fl tick with
          ticksProcessed := w.processor.ticksProcessed }
        applied := w.applied ++ [tick]
        offers := w.offers ++ (w.processor.offered fl tick).toList } : BookWorker).Accounts
      fl dbQueue signalQueue := by
  obtain ⟨hpopped, hbooks, hrefs, hoffers, hcounted, hattached, hdb, hsignal⟩ := h
  rw [hpc] at hpopped hcounted hdb hsignal
  obtain ⟨hbooks', hrefs'⟩ := books_processTick_congr fl tick hbooks hrefs
  obtain ⟨hdbQueue, hsignalQueue⟩ := w.processor.queues_applyTick fl tick
  have hoffered := offered_congr fl tick (congrArg (AList.lookup tick.symbol.key) hbooks)
    (congrArg (AList.lookup tick.symbol.key) hrefs)
    (hattached.trans (attached_state dbQueue signalQueue w.applied).symm)
  refine ⟨hpopped.trans (List.append_nil _).symm, ?_, ?_, ?_, ?_, ?_, ?_, ?_⟩
  · rw [Transducer.state_concat]
    exact (books_processTick fl _ tick).symm.trans hbooks'
  · rw [Transducer.state_concat]
    exact (referencePrice_processTick fl _ tick).symm.trans hrefs'
  · rw [Transducer.outputs_concat, hoffered, hoffers]
    rfl
  · show w.processor.ticksProcessed + 1 = (w.applied ++ [tick]).length
    rw [List.length_append, ← hcounted]
    rfl
  · show ((w.processor.applyTick fl tick).dbQueue.isSome ||
      (w.processor.applyTick fl tick).signalQueue.isSome) = _
    rw [hdbQueue, hsignalQueue, hattached]
  · refine List.Sublist.append ?_ (List.Sublist.refl _)
    exact (List.sublist_append_left _ _).trans hdb
  · refine List.Sublist.append ?_ (List.Sublist.refl _)
    exact (List.sublist_append_left _ _).trans hsignal

/-- **Every rule keeps the accounts.** -/
theorem Accounts.step (h : w.Accounts fl dbQueue signalQueue)
    (hstep : Step fl stop w input w' input') : w'.Accounts fl dbQueue signalQueue := by
  cases hstep with
  | enter hpc _ => exact h.move hpc ⟨rfl, rfl, rfl, rfl⟩ ⟨rfl, rfl, rfl, rfl⟩
  | leave hpc _ => exact h.move hpc ⟨rfl, rfl, rfl, rfl⟩ ⟨rfl, rfl, rfl, rfl⟩
  | popEmpty phase hpc _ => exact h.move hpc ⟨rfl, rfl, rfl, rfl⟩ (Pc.clear_idle phase)
  | rest hpc => exact h
  | apply phase tick hpc => exact h.apply hpc
  | pop phase tick _ hpc _ =>
    obtain ⟨hpopped, hbooks, hrefs, hoffers, hcounted, hattached, hdb, hsignal⟩ := h
    rw [hpc] at hpopped hcounted hdb hsignal
    exact ⟨congrArg (· ++ [tick]) (hpopped.trans (List.append_nil _)), hbooks, hrefs, hoffers,
      hcounted, hattached, hdb, hsignal⟩
  | count phase snap hpc =>
    obtain ⟨hpopped, hbooks, hrefs, hoffers, hcounted, hattached, hdb, hsignal⟩ := h
    rw [hpc] at hpopped hcounted hdb hsignal
    obtain ⟨h₁, h₂, h₃, h₄⟩ := Pc.under_way_counted phase snap
    exact ⟨by rw [h₁]; exact hpopped, hbooks, hrefs, hoffers, by rw [h₂]; exact hcounted,
      hattached, by rw [h₃]; exact hdb, by rw [h₄]; exact hsignal⟩
  | pushDb phase snap hpc =>
    -- what the queue takes is a part of what was about to be tried on it
    obtain ⟨hpopped, hbooks, hrefs, hoffers, hcounted, hattached, hdb, hsignal⟩ := h
    rw [hpc] at hpopped hcounted hdb hsignal
    obtain ⟨queue, dropped, heq, hsome⟩ := w.processor.pushDb_eq snap
    refine ⟨hpopped, ?_, ?_, hoffers, ?_, ?_, ?_, hsignal⟩
    · rw [heq]
      exact hbooks
    · rw [heq]
      exact hrefs
    · rw [heq]
      exact hcounted
    · rw [heq, hsome]
      exact hattached
    · show (w.dbPushed ++ taken w.processor.dbQueue snap ++ []).Sublist w.offers
      rw [List.append_nil]
      exact ((List.Sublist.refl _).append (taken_sublist _ snap)).trans hdb
  | pushSignal phase snap hpc =>
    obtain ⟨hpopped, hbooks, hrefs, hoffers, hcounted, hattached, hdb, hsignal⟩ := h
    rw [hpc] at hpopped hcounted hdb hsignal
    obtain ⟨queue, heq, hsome⟩ := w.processor.pushSignal_eq snap
    obtain ⟨h₁, h₂, h₃, h₄⟩ := Pc.clear_resume phase
    refine ⟨by rw [h₁]; exact hpopped, ?_, ?_, hoffers, ?_, ?_, by rw [h₃]; exact hdb, ?_⟩
    · rw [heq]
      exact hbooks
    · rw [heq]
      exact hrefs
    · rw [heq, h₂]
      exact hcounted
    · rw [heq, hsome]
      exact hattached
    · rw [h₄, List.append_nil]
      exact ((List.Sublist.refl _).append (taken_sublist _ snap)).trans hsignal

/-- **The thread counts what it holds uncounted.** -/
theorem Step.ticksProcessed (hstep : Step fl stop w input w' input') :
    w'.processor.ticksProcessed = w.processor.ticksProcessed + w.pc.uncounted := by
  cases hstep with
  | count phase snap hpc => rw [hpc]; rfl
  | pushDb phase snap hpc =>
    obtain ⟨_, _, heq, -⟩ := w.processor.pushDb_eq snap
    rw [heq, hpc]
    rfl
  | pushSignal phase snap hpc =>
    obtain ⟨_, heq, -⟩ := w.processor.pushSignal_eq snap
    rw [heq, hpc]
    rfl
  | enter hpc | leave hpc | popEmpty _ hpc | pop _ _ _ hpc | apply _ _ hpc | rest hpc =>
    rw [hpc]
    rfl

/-! ### The thread and its queues -/

/-- **What left the input was popped.** -/
theorem Step.popped_append_items (hstep : Step fl stop w input w' input') :
    w'.popped ++ input'.items = w.popped ++ input.items := by
  cases hstep with
  | pop phase tick _ _ hitems => rw [hitems, List.append_assoc, List.singleton_append]
  | _ => rfl

theorem items_received_eq (queue : SnapshotQueue) (snap : MarketSnapshot) :
    (received (some snap) queue).items = queue.items ++ taken (some queue) snap := by
  have hle := queue.length_le
  rw [items_received, taken, Option.any_some]
  by_cases hfull : queue.items.length = 4096
  · rw [if_pos hfull, if_neg (by simp [hfull])]
  · rw [if_neg hfull, if_pos (by simp; omega)]
    rfl

/-- The database queue receives what it takes. -/
theorem itemsOf_pushDb (bp : BookProcessor) (snap : MarketSnapshot) :
    itemsOf (bp.pushDb snap).dbQueue = itemsOf bp.dbQueue ++ taken bp.dbQueue snap := by
  rcases hqueue : bp.dbQueue with - | queue
  · rw [pushDb, hqueue]
    simp only [hqueue]
    rfl
  · rw [(pushDb_of_some hqueue snap).1]
    exact items_received_eq queue snap

/-- The signal queue receives what it takes. -/
theorem itemsOf_pushSignal (bp : BookProcessor) (snap : MarketSnapshot) :
    itemsOf (bp.pushSignal snap).signalQueue =
      itemsOf bp.signalQueue ++ taken bp.signalQueue snap := by
  rw [signalQueue_pushSignal]
  rcases bp.signalQueue with - | queue
  · rfl
  · exact items_received_eq queue snap

/-- **What entered the queues was pushed.** -/
theorem Step.exists_pushed (hstep : Step fl stop w input w' input') :
    (∃ sent, itemsOf w'.processor.dbQueue = itemsOf w.processor.dbQueue ++ sent ∧
        w'.dbPushed = w.dbPushed ++ sent) ∧
      ∃ sent, itemsOf w'.processor.signalQueue = itemsOf w.processor.signalQueue ++ sent ∧
        w'.signalPushed = w.signalPushed ++ sent := by
  cases hstep with
  | apply phase tick _ =>
    obtain ⟨hdb, hsignal⟩ := w.processor.queues_applyTick fl tick
    refine ⟨⟨[], ?_, (List.append_nil _).symm⟩, ⟨[], ?_, (List.append_nil _).symm⟩⟩
    · rw [List.append_nil]
      exact congrArg itemsOf hdb
    · rw [List.append_nil]
      exact congrArg itemsOf hsignal
  | pushDb phase snap _ =>
    refine ⟨⟨_, itemsOf_pushDb _ snap, rfl⟩, ⟨[], ?_, (List.append_nil _).symm⟩⟩
    rw [List.append_nil]
    exact congrArg itemsOf (signalQueue_pushDb _ snap)
  | pushSignal phase snap _ =>
    refine ⟨⟨[], ?_, (List.append_nil _).symm⟩, ⟨_, itemsOf_pushSignal _ snap, rfl⟩⟩
    rw [List.append_nil]
    exact congrArg itemsOf (dbQueue_pushSignal _ snap)
  | _ =>
    exact ⟨⟨[], (List.append_nil _).symm, (List.append_nil _).symm⟩,
      ⟨[], (List.append_nil _).symm, (List.append_nil _).symm⟩⟩

/-- A thread that has returned does nothing. -/
theorem Step.eq_of_exited (hstep : Step fl stop w input w' input') (h : w.pc = .exited) :
    w' = w := by
  cases hstep with
  | rest => rfl
  | _ => simp_all

end BookWorker

end Mdp
