import MarketDataProcessor.Infra.DbWriter
import MarketDataProcessor.Pipeline.TickPath
import MarketDataProcessor.Strategy.EngineWorker

/-!
# Stopping the service

`processor_main.cpp` from the shutdown signal on: the six threads of the service and the feed,
running in any interleaving, while `main` calls `stop()` on one after the other. A call sets the
thread's stop flag and returns when the thread has returned from `run`. A step of a writer comes
with what the database answers, so connections and transactions may fail (`Action.succeeds`).

The parser, the normalizer and the book processor drain their input before they return. The two
writers and the signal engine do not: a writer flushes the batch it holds and returns, whatever is
in its queue, and the writer of signals is stopped before the engine that feeds it. So what the book
stage produced may be left behind in a queue, or in the engine's hand.

`LeavesBehind` names the two steps at which that is decided: a writer returns from `run` with
something still on its way to it. `persists_iff` says that everything is committed exactly when
neither happens.

## What the equivalence rests on

* `Control` says what has returned by the time a component is asked to stop. It is about `main` and
  the program counters alone.
* `Stock` says where every snapshot and signal is: in a queue, in a hand, in a batch, in a table, in
  a failed transaction, or given up. It holds whatever the database answers.
* `Kept` is for the runs in which the database does what it is asked, and adds that no transaction
  has failed.

`Control.settled_iff` is the step lemma: a step keeps the writers settled unless it leaves something
behind. A writer that has returned stays settled because nobody pushes to it any more, and that the
book processor and the engine cannot is what the order of the calls is for. The feed's return is one
step here, made when `main` asks for it; `FeedThread` has the thread it stands for.
-/

namespace Mdp

open BookRun

/-- What `main` stops. -/
inductive Component where
  | sim
  | parser
  | norm
  | book
  | dbWriter
  | signalDbWriter
  | signalEngine
  deriving DecidableEq

/-- The calls of `stop()`, in order. -/
def stopOrder : List Component :=
  [.sim, .parser, .norm, .book, .dbWriter, .signalDbWriter, .signalEngine]

/-- When a component is stopped. -/
def Component.position (c : Component) : ℕ := stopOrder.idxOf c

/-- How far `main` has come. -/
structure StopSequence where
  /-- How many calls of `stop()` have returned. -/
  returned : ℕ
  /-- The next call has set its flag and waits for the thread. -/
  requested : Bool

namespace StopSequence

/-- The stop flag of a component. -/
def flag (m : StopSequence) (c : Component) : Bool :=
  decide (c.position < m.returned) || (m.requested && decide (c.position = m.returned))

end StopSequence

/-- The service. -/
structure Service where
  /-- The feed has returned from `run`. -/
  simExited : Bool
  path : TickPath
  engine : EngineWorker
  /-- `alert_queue`. -/
  alerts : BoundedQueue Signal 4096
  dbWriter : BatchWriter MarketSnapshot PriceRow
  signalDbWriter : BatchWriter Signal SignalRow
  main : StopSequence

namespace Service

/-- What can happen next; a writer's step comes with the clock it reads and with what the database
answers. -/
inductive Action where
  | feed (tick : MarketTick)
  | simExit
  | stage (stage : Stage)
  | engine
  | dbWriter (env : BatchWriter.Env)
  | signalDbWriter (env : BatchWriter.Env)
  /-- `main` sets the stop flag of the next component. -/
  | request
  /-- `main` joins its thread. -/
  | join

/-- The database does what it is asked. -/
def Action.succeeds : Action → Bool
  | .dbWriter env => env.ok
  | .signalDbWriter env => env.ok
  | _ => true

variable (fl : FloatEnv) (overflow : Double → ℤ) (period : Period)

/-- All threads started. -/
def init : Service where
  simExited := false
  path := .init (some BoundedQueue.empty) (some BoundedQueue.empty)
  engine := .start fl period
  alerts := BoundedQueue.empty
  dbWriter := .start
  signalDbWriter := .start
  main := ⟨0, false⟩

/-- The thread of a component has returned from `run`. -/
def exited (s : Service) : Component → Bool
  | .sim => s.simExited
  | .parser => decide (s.path.parser.pc = .exited)
  | .norm => decide (s.path.normalizer.pc = .exited)
  | .book => decide (s.path.book.pc = .exited)
  | .dbWriter => decide (s.dbWriter.pc = .exited)
  | .signalDbWriter => decide (s.signalDbWriter.pc = .exited)
  | .signalEngine => decide (s.engine.pc = .exited)

/-- The stop flags of the stages. -/
def stop (s : Service) : Stage → Bool
  | .parser => s.main.flag .parser
  | .normalizer => s.main.flag .norm
  | .book => s.main.flag .book

/-- One action. -/
def step (s : Service) : Action → Option Service
  | .feed tick =>
    if s.simExited then none else (s.path.feed tick).map fun path ↦ { s with path }
  | .simExit => if s.main.flag .sim then some { s with simExited := true } else none
  | .stage stage => some { s with path := s.path.advance fl s.stop stage }
  | .engine =>
    let next := s.engine.step fl (s.main.flag .signalEngine) s.path.signalQueue s.alerts
    some { s with
      engine := next.1
      path := s.path.withSignal next.2.1
      alerts := next.2.2 }
  | .dbWriter env =>
    let next := s.dbWriter.step (DbWriter.toRow fl overflow) env (s.main.flag .dbWriter)
      s.path.dbQueue
    some { s with dbWriter := next.1, path := s.path.withDb next.2 }
  | .signalDbWriter env =>
    let next := s.signalDbWriter.step (SignalDbWriter.toRow fl) env
      (s.main.flag .signalDbWriter) s.alerts
    some { s with signalDbWriter := next.1, alerts := next.2 }
  | .request =>
    if s.main.requested = false ∧ s.main.returned < stopOrder.length then
      some { s with main.requested := true }
    else none
  | .join =>
    match stopOrder[s.main.returned]? with
    | some c =>
      if s.main.requested ∧ s.exited c then some { s with main := ⟨s.main.returned + 1, false⟩ }
      else none
    | none => none

/-- **The steps that leave something behind.** -/
inductive LeavesBehind (s : Service) : Action → Prop
  /-- `DbWriter` returns from `run` with snapshots in `snapshot_to_db`. -/
  | snapshots (env : BatchWriter.Env) : s.dbWriter.pc = .runTest → s.main.flag .dbWriter = true →
    s.path.dbQueue.items ≠ [] → LeavesBehind s (.dbWriter env)
  /-- `SignalDbWriter` returns from `run` with signals in `alert_queue`, one in the engine's hand,
  or snapshots in `signal_queue`. -/
  | signals (env : BatchWriter.Env) : s.signalDbWriter.pc = .runTest →
    s.main.flag .signalDbWriter = true →
    s.alerts.items ≠ [] ∨ s.engine.pc.inHand ≠ [] ∨ s.path.signalQueue.items ≠ [] →
    LeavesBehind s (.signalDbWriter env)

/-- **The rules of the service**: one thread makes a step by its own rules, or `main` moves on. -/
inductive Rule (s : Service) : Action → Service → Prop
  | feed (tick : MarketTick) (path : TickPath) : s.simExited = false →
    s.path.feed tick = some path → Rule s (.feed tick) { s with path }
  | simExit : s.main.flag .sim = true → Rule s .simExit { s with simExited := true }
  | stage (stage : Stage) (path : TickPath) : TickPath.Advance fl s.stop s.path stage path →
    Rule s (.stage stage) { s with path }
  | engine (w : EngineWorker) (queue : SnapshotQueue) (alerts : BoundedQueue Signal 4096) :
    EngineWorker.Step fl (s.main.flag .signalEngine) s.engine s.path.signalQueue s.alerts w queue
      alerts →
    Rule s .engine { s with engine := w, path := s.path.withSignal queue, alerts }
  | dbWriter (env : BatchWriter.Env) (w : BatchWriter MarketSnapshot PriceRow)
    (queue : SnapshotQueue) :
    BatchWriter.Step (DbWriter.toRow fl overflow) env (s.main.flag .dbWriter) s.dbWriter
      s.path.dbQueue w queue →
    Rule s (.dbWriter env) { s with dbWriter := w, path := s.path.withDb queue }
  | signalDbWriter (env : BatchWriter.Env) (w : BatchWriter Signal SignalRow)
    (alerts : BoundedQueue Signal 4096) :
    BatchWriter.Step (SignalDbWriter.toRow fl) env (s.main.flag .signalDbWriter)
      s.signalDbWriter s.alerts w alerts →
    Rule s (.signalDbWriter env) { s with signalDbWriter := w, alerts }
  | request : s.main.requested = false → s.main.returned < stopOrder.length →
    Rule s .request { s with main.requested := true }
  | join (c : Component) : stopOrder[s.main.returned]? = some c → s.main.requested = true →
    s.exited c = true → Rule s .join { s with main := ⟨s.main.returned + 1, false⟩ }

variable {fl overflow period} {s t : Service} {a : Action}

/-- **Every step is by a rule.** -/
theorem rule_of_step (hstep : s.step fl overflow a = some t) : Rule fl overflow s a t := by
  cases a with
  | feed tick =>
    simp only [step] at hstep
    split_ifs at hstep with hexit
    obtain ⟨path, hfeed, rfl⟩ := Option.map_eq_some_iff.1 hstep
    exact .feed tick path (Bool.eq_false_iff.2 hexit) hfeed
  | simExit =>
    simp only [step] at hstep
    split_ifs at hstep with hflag
    obtain rfl := Option.some.inj hstep
    exact .simExit hflag
  | stage stage =>
    obtain rfl := Option.some.inj hstep
    exact .stage stage _ (s.path.advance_rule fl s.stop stage)
  | engine =>
    obtain rfl := Option.some.inj hstep
    exact .engine _ _ _ (s.engine.step_rule fl _ _ _)
  | dbWriter env =>
    obtain rfl := Option.some.inj hstep
    exact .dbWriter env _ _ (s.dbWriter.step_rule _ _ _ _)
  | signalDbWriter env =>
    obtain rfl := Option.some.inj hstep
    exact .signalDbWriter env _ _ (s.signalDbWriter.step_rule _ _ _ _)
  | request =>
    simp only [step] at hstep
    split_ifs at hstep with hguard
    obtain rfl := Option.some.inj hstep
    exact .request hguard.1 hguard.2
  | join =>
    simp only [step] at hstep
    split at hstep
    next c hc =>
      split_ifs at hstep with hguard
      obtain rfl := Option.some.inj hstep
      exact .join c hc hguard.1 hguard.2
    next => simp at hstep

/-! ### Flags and exits -/

/-- **A stop flag is never taken back.** -/
theorem Rule.flag (hrule : Rule fl overflow s a t) {c : Component}
    (h : s.main.flag c = true) : t.main.flag c = true := by
  simp only [StopSequence.flag, Bool.or_eq_true, Bool.and_eq_true, decide_eq_true_iff] at h ⊢
  cases hrule with
  | request => exact h.imp_right fun hc ↦ ⟨rfl, hc.2⟩
  | join => exact Or.inl (by rcases h with h | h <;> simp only <;> omega)
  | _ => exact h

private theorem stays_eq {β : Type*} [DecidableEq β] {p q e : β} (h : decide (p = e) = true)
    (hstay : p = e → q = p) : decide (q = e) = true := by
  have hp := of_decide_eq_true h
  exact decide_eq_true ((hstay hp).trans hp)

/-- **A thread that has returned stays so.** -/
theorem Rule.exited (hrule : Rule fl overflow s a t) {c : Component}
    (h : s.exited c = true) : t.exited c = true := by
  cases hrule with
  | feed tick path _ hfeed =>
    obtain ⟨_, -, rfl⟩ := Option.map_eq_some_iff.1 hfeed
    cases c <;> exact h
  | simExit => cases c <;> first | rfl | exact h
  | stage stage path hadv =>
    cases hadv with
    | parser w _ _ hw =>
      cases c with
      | parser => exact stays_eq h fun hpc ↦ congrArg _ (hw.eq_of_exited hpc)
      | _ => exact h
    | normalizer w _ _ hw =>
      cases c with
      | norm => exact stays_eq h fun hpc ↦ congrArg _ (hw.eq_of_exited hpc)
      | _ => exact h
    | book w _ hw =>
      cases c with
      | book => exact stays_eq h fun hpc ↦ congrArg _ (hw.eq_of_exited hpc)
      | _ => exact h
  | engine w _ _ hw =>
    cases c with
    | signalEngine => exact stays_eq h fun hpc ↦ congrArg _ (hw.eq_of_exited hpc)
    | _ => exact h
  | dbWriter env w _ hw =>
    cases c with
    | dbWriter => exact stays_eq h fun hpc ↦ congrArg _ (hw.eq_of_exited hpc).1
    | _ => exact h
  | signalDbWriter env w _ hw =>
    cases c with
    | signalDbWriter => exact stays_eq h fun hpc ↦ congrArg _ (hw.eq_of_exited hpc).1
    | _ => exact h
  | request => cases c <;> exact h
  | join => cases c <;> exact h

/-- The control invariant: what `main` and the writers have gone past. -/
structure Control (s : Service) : Prop where
  /-- A call of `stop()` returns when the thread has. -/
  joined : ∀ c : Component, c.position < s.main.returned → s.exited c = true
  /-- A writer returns when it is asked to. -/
  dbWriter : s.dbWriter.pc = .exited → s.main.flag .dbWriter = true
  signalDbWriter : s.signalDbWriter.pc = .exited → s.main.flag .signalDbWriter = true
  /-- The engine gives up a signal when it is asked to stop only. -/
  lost : s.main.flag .signalEngine = false → s.engine.lost = 0

theorem control_init : (init fl period).Control :=
  ⟨fun _ h ↦ absurd h (Nat.not_lt_zero _), fun h ↦ by simp [init, BatchWriter.start] at h,
    fun h ↦ by simp [init, BatchWriter.start] at h, fun _ ↦ rfl⟩

theorem getElem?_position (c : Component) : stopOrder[c.position]? = some c := by
  cases c <;> rfl

/-- Only the writer of snapshots moves it. -/
theorem Rule.dbWriter_cases (hrule : Rule fl overflow s a t) :
    (t.dbWriter = s.dbWriter ∧ ∀ env, a ≠ .dbWriter env) ∨
      ∃ env w queue, a = .dbWriter env ∧
        BatchWriter.Step (DbWriter.toRow fl overflow) env (s.main.flag .dbWriter) s.dbWriter
          s.path.dbQueue w queue ∧
        t = { s with dbWriter := w, path := s.path.withDb queue } := by
  cases hrule with
  | dbWriter env w queue hw => exact Or.inr ⟨env, w, queue, rfl, hw, rfl⟩
  | _ => exact Or.inl ⟨rfl, by simp⟩

/-- Only the writer of signals moves it. -/
theorem Rule.signalDbWriter_cases (hrule : Rule fl overflow s a t) :
    (t.signalDbWriter = s.signalDbWriter ∧ ∀ env, a ≠ .signalDbWriter env) ∨
      ∃ env w alerts, a = .signalDbWriter env ∧
        BatchWriter.Step (SignalDbWriter.toRow fl) env (s.main.flag .signalDbWriter)
          s.signalDbWriter s.alerts w alerts ∧
        t = { s with signalDbWriter := w, alerts } := by
  cases hrule with
  | signalDbWriter env w alerts hw => exact Or.inr ⟨env, w, alerts, rfl, hw, rfl⟩
  | _ => exact Or.inl ⟨rfl, by simp⟩

/-- A call of `stop()` returns when its thread has. -/
theorem Rule.joined (hrule : Rule fl overflow s a t)
    (h : ∀ c : Component, c.position < s.main.returned → s.exited c = true) (c : Component)
    (hc : c.position < t.main.returned) : t.exited c = true := by
  by_cases hold : c.position < s.main.returned
  · exact hrule.exited (h c hold)
  · -- the call that has just returned
    refine hrule.exited ?_
    cases hrule with
    | join c' hc' _ hexit =>
      have hpos : c.position = s.main.returned :=
        Nat.le_antisymm (Nat.le_of_lt_succ hc) (Nat.le_of_not_lt hold)
      have hsame := getElem?_position c
      rw [hpos, hc'] at hsame
      exact Option.some.inj hsame ▸ hexit
    | _ => exact absurd hc hold

/-- **Every step keeps the control invariant.** -/
theorem Control.step (h : s.Control) (hrule : Rule fl overflow s a t) : t.Control := by
  have hflag : t.main.flag .signalEngine = false → s.main.flag .signalEngine = false := by
    intro hfalse
    by_contra htrue
    rw [hrule.flag (Bool.not_eq_false _ ▸ htrue)] at hfalse
    simp at hfalse
  refine ⟨hrule.joined h.joined, fun hexit ↦ ?_, fun hexit ↦ ?_, fun hfalse ↦ ?_⟩
  · rcases hrule.dbWriter_cases with ⟨hsame, -⟩ | ⟨env, w, queue, rfl, hw, rfl⟩
    · exact hrule.flag (h.dbWriter (hsame ▸ hexit))
    · rcases hw.exited_cases hexit with hpc | ⟨-, hstop, -⟩
      · exact h.dbWriter hpc
      · exact hstop
  · rcases hrule.signalDbWriter_cases with ⟨hsame, -⟩ | ⟨env, w, alerts, rfl, hw, rfl⟩
    · exact hrule.flag (h.signalDbWriter (hsame ▸ hexit))
    · rcases hw.exited_cases hexit with hpc | ⟨-, hstop, -⟩
      · exact h.signalDbWriter hpc
      · exact hstop
  · have hlost := h.lost (hflag hfalse)
    cases hrule with
    | engine w _ _ hw =>
      rw [hflag hfalse] at hw
      exact hw.lost_eq.trans hlost
    | _ => exact hlost

/-! ### Where the snapshots and signals are -/

/-- No transaction has failed. -/
structure Kept (s : Service) : Prop where
  dbWriter : ∀ flush ∈ s.dbWriter.flushes, flush.2 = true
  signalDbWriter : ∀ flush ∈ s.signalDbWriter.flushes, flush.2 = true

/-- **A step at which the database does what it is asked keeps every batch.** -/
theorem Kept.step (h : s.Kept) (hrule : Rule fl overflow s a t) (hok : a.succeeds = true) :
    t.Kept := by
  refine ⟨?_, ?_⟩
  · rcases hrule.dbWriter_cases with ⟨hsame, -⟩ | ⟨env, w, queue, rfl, hw, rfl⟩
    · exact hsame ▸ h.dbWriter
    · exact hw.forall_flushes_iff.2 ⟨h.dbWriter, fun _ ↦ hok⟩
  · rcases hrule.signalDbWriter_cases with ⟨hsame, -⟩ | ⟨env, w, alerts, rfl, hw, rfl⟩
    · exact hsame ▸ h.signalDbWriter
    · exact hw.forall_flushes_iff.2 ⟨h.signalDbWriter, fun _ ↦ hok⟩

theorem kept_of_run {acts : List Action} (hok : ∀ a ∈ acts, a.succeeds = true)
    (hrun : StepRun.run (step fl overflow) (init fl period) acts = some s) : s.Kept :=
  StepRun.run_invariant_of_mem (fun a ha _ _ h hstep ↦ h.step (rule_of_step hstep) (hok a ha))
    ⟨fun _ h ↦ absurd h List.not_mem_nil, fun _ h ↦ absurd h List.not_mem_nil⟩ hrun

/-- The data invariant: every snapshot and signal pushed is in the queue it was pushed to or was
popped from it. -/
structure Stock (fl : FloatEnv) (overflow : Double → ℤ) (period : Period) (s : Service) : Prop where
  dbWriter : s.dbWriter.Accounts (DbWriter.toRow fl overflow)
  signalDbWriter : s.signalDbWriter.Accounts (SignalDbWriter.toRow fl)
  engine : s.engine.Accounts fl period
  dbQueue : s.dbWriter.popped ++ itemsOf s.path.book.processor.dbQueue = s.path.book.dbPushed
  signalQueue : s.engine.popped ++ itemsOf s.path.book.processor.signalQueue =
    s.path.book.signalPushed
  alerts : s.signalDbWriter.popped ++ s.alerts.items = s.engine.pushed

theorem stock_init : (init fl period).Stock fl overflow period :=
  ⟨BatchWriter.accounts_start _, BatchWriter.accounts_start _,
    EngineWorker.accounts_start fl period, rfl, rfl, rfl⟩

/-- **Every step keeps the data invariant.** -/
theorem Stock.step (h : s.Stock fl overflow period) (hrule : Rule fl overflow s a t) :
    t.Stock fl overflow period := by
  obtain ⟨hdb, hsignalDb, hengine, hdbQueue, hsignalQueue, halerts⟩ := h
  cases hrule with
  | feed tick path _ hfeed =>
    obtain ⟨_, -, rfl⟩ := Option.map_eq_some_iff.1 hfeed
    exact ⟨hdb, hsignalDb, hengine, hdbQueue, hsignalQueue, halerts⟩
  | stage stage path hadv =>
    exact ⟨hdb, hsignalDb, hengine, hadv.dbPushed hdbQueue, hadv.signalPushed hsignalQueue, halerts⟩
  | engine w queue alerts hw =>
    obtain ⟨took, hpopped, hitems⟩ := hw.exists_popped
    obtain ⟨sent, hsent, hpushed⟩ := hw.exists_pushed
    refine ⟨hdb, hsignalDb, hengine.step hw, hdbQueue, ?_, ?_⟩
    · show w.popped ++ _ = _
      rw [hpopped]
      exact TickPath.withSignal_append hsignalQueue hitems
    · rw [hsent, hpushed, ← List.append_assoc, halerts]
  | dbWriter env w queue hw =>
    obtain ⟨took, hpopped, hitems⟩ := hw.exists_popped
    refine ⟨hdb.step hw, hsignalDb, hengine, ?_, hsignalQueue, halerts⟩
    show w.popped ++ _ = _
    rw [hpopped]
    exact TickPath.withDb_append hdbQueue hitems
  | signalDbWriter env w alerts hw =>
    obtain ⟨took, hpopped, hitems⟩ := hw.exists_popped
    refine ⟨hdb, hsignalDb.step hw, hengine, hdbQueue, hsignalQueue, ?_⟩
    rw [hpopped, List.append_assoc, ← hitems, halerts]
  | simExit | request | join => exact ⟨hdb, hsignalDb, hengine, hdbQueue, hsignalQueue, halerts⟩

/-- How many snapshots and signals are on their way to the writer of signals, or were given up. -/
def backlog (s : Service) : ℕ :=
  s.alerts.items.length + s.engine.pc.inHand.length + s.path.signalQueue.items.length +
    s.engine.lost

theorem Stock.length_dbPushed (h : s.Stock fl overflow period) :
    s.path.book.dbPushed.length = s.dbWriter.popped.length + s.path.dbQueue.items.length := by
  rw [← h.dbQueue, TickPath.items_dbQueue, List.length_append]

theorem Stock.length_signalPushed (h : s.Stock fl overflow period) :
    s.path.book.signalPushed.length = s.signalDbWriter.popped.length + s.backlog := by
  have hlen := h.engine.length
  rw [List.length_append, ← h.alerts, List.length_append] at hlen
  rw [← h.signalQueue, List.length_append, ← TickPath.items_signalQueue, backlog]
  omega

/-! ### What a step decides -/

/-- When a writer is asked to stop, the book processor has returned. -/
theorem Control.book_exited (h : s.Control) {c : Component}
    (hc : Component.position .book < c.position) (hflag : s.main.flag c = true) :
    s.path.book.pc = .exited := by
  refine of_decide_eq_true (h.joined .book ?_)
  simp only [StopSequence.flag, Bool.or_eq_true, Bool.and_eq_true, decide_eq_true_iff] at hflag
  rcases hflag with hlt | ⟨-, heq⟩
  · exact hc.trans hlt
  · exact heq ▸ hc

/-- A book processor that has returned pushes nothing. -/
theorem Rule.pushed_of_exited (hrule : Rule fl overflow s a t)
    (hexit : s.path.book.pc = .exited) :
    t.path.book.dbPushed = s.path.book.dbPushed ∧
      t.path.book.signalPushed = s.path.book.signalPushed := by
  cases hrule with
  | feed tick path _ hfeed =>
    obtain ⟨_, -, rfl⟩ := Option.map_eq_some_iff.1 hfeed
    exact ⟨rfl, rfl⟩
  | stage stage path hadv =>
    cases hadv with
    | book w _ hw =>
      rw [hw.eq_of_exited hexit]
      exact ⟨rfl, rfl⟩
    | _ => exact ⟨rfl, rfl⟩
  | _ => exact ⟨rfl, rfl⟩

/-- Both writers are settled: what was on its way to a writer that has returned, it popped. -/
def Settled (s : Service) : Prop :=
  s.dbWriter.Settled s.path.book.dbPushed.length ∧
    s.signalDbWriter.Settled s.path.book.signalPushed.length

/-- While the writer of signals runs, nothing that was pushed towards it is lost. -/
theorem Control.lost_eq_zero (h : s.Control) (hpc : s.signalDbWriter.pc = .runTest) :
    s.engine.lost = 0 := by
  refine h.lost (Bool.eq_false_iff.2 fun hflag ↦ ?_)
  -- `main` asks the engine when the writer has returned
  have hexit : s.exited .signalDbWriter = true := by
    refine h.joined .signalDbWriter ?_
    have hlt : Component.position .signalDbWriter < Component.position .signalEngine := by decide
    simp only [StopSequence.flag, Bool.or_eq_true, Bool.and_eq_true, decide_eq_true_iff] at hflag
    rcases hflag with h | ⟨-, h⟩
    · exact hlt.trans h
    · exact h ▸ hlt
  rw [exited, hpc] at hexit
  simp at hexit

theorem backlog_eq_zero_iff (hlost : s.engine.lost = 0) :
    s.backlog = 0 ↔
      ¬ (s.alerts.items ≠ [] ∨ s.engine.pc.inHand ≠ [] ∨ s.path.signalQueue.items ≠ []) := by
  rw [not_or, not_or, not_not, not_not, not_not, backlog, hlost, ← List.length_eq_zero_iff,
    ← List.length_eq_zero_iff, ← List.length_eq_zero_iff]
  omega

/-- The writer of snapshots stays settled unless it returns with snapshots in its queue. -/
theorem Control.dbSettled_iff (h : s.Control) (hstock : s.Stock fl overflow period)
    (hrule : Rule fl overflow s a t) :
    t.dbWriter.Settled t.path.book.dbPushed.length ↔
      s.dbWriter.Settled s.path.book.dbPushed.length ∧
        ∀ env, a = .dbWriter env → s.dbWriter.pc = .runTest → s.main.flag .dbWriter = true →
          s.path.dbQueue.items = [] := by
  rcases hrule.dbWriter_cases with ⟨hsame, hne⟩ | ⟨env, w, queue, rfl, hw, rfl⟩
  · -- nothing is pushed any more once the writer is asked to stop
    have hfrozen : s.dbWriter.pc = .exited →
        t.path.book.dbPushed.length = s.path.book.dbPushed.length := fun hexit ↦ by
      rw [(hrule.pushed_of_exited (h.book_exited (by decide) (h.dbWriter hexit))).1]
    rw [hsame]
    refine ⟨fun ht ↦ ⟨fun hexit ↦ (hfrozen hexit).symm.trans (ht hexit), ?_⟩,
      fun hs hexit ↦ (hfrozen hexit).trans (hs.1 hexit)⟩
    exact fun env heq ↦ absurd heq (hne env)
  · refine (hw.settled_iff s.path.book.dbPushed.length).trans (and_congr_right fun _ ↦ ?_)
    rw [hstock.length_dbPushed]
    simp only [Action.dbWriter.injEq, forall_eq', Nat.add_eq_left, List.length_eq_zero_iff]

/-- The writer of signals stays settled unless it returns with something on its way to it. -/
theorem Control.signalsSettled_iff (h : s.Control) (hstock : s.Stock fl overflow period)
    (hrule : Rule fl overflow s a t) :
    t.signalDbWriter.Settled t.path.book.signalPushed.length ↔
      s.signalDbWriter.Settled s.path.book.signalPushed.length ∧
        ∀ env, a = .signalDbWriter env → s.signalDbWriter.pc = .runTest →
          s.main.flag .signalDbWriter = true →
          ¬ (s.alerts.items ≠ [] ∨ s.engine.pc.inHand ≠ [] ∨ s.path.signalQueue.items ≠ []) := by
  rcases hrule.signalDbWriter_cases with ⟨hsame, hne⟩ | ⟨env, w, alerts, rfl, hw, rfl⟩
  · have hfrozen : s.signalDbWriter.pc = .exited →
        t.path.book.signalPushed.length = s.path.book.signalPushed.length := fun hexit ↦ by
      rw [(hrule.pushed_of_exited (h.book_exited (by decide) (h.signalDbWriter hexit))).2]
    rw [hsame]
    refine ⟨fun ht ↦ ⟨fun hexit ↦ (hfrozen hexit).symm.trans (ht hexit), ?_⟩,
      fun hs hexit ↦ (hfrozen hexit).trans (hs.1 hexit)⟩
    exact fun env heq ↦ absurd heq (hne env)
  · refine (hw.settled_iff s.path.book.signalPushed.length).trans (and_congr_right fun _ ↦ ?_)
    rw [hstock.length_signalPushed]
    simp only [Action.signalDbWriter.injEq, forall_eq', Nat.add_eq_left]
    refine forall_congr' fun hpc ↦ forall_congr' fun _ ↦ ?_
    exact backlog_eq_zero_iff (h.lost_eq_zero hpc)

/-- **A step keeps the writers settled unless it leaves something behind.** -/
theorem Control.settled_iff (h : s.Control) (hstock : s.Stock fl overflow period)
    (hrule : Rule fl overflow s a t) : t.Settled ↔ s.Settled ∧ ¬ s.LeavesBehind a := by
  rw [Settled, Settled, h.dbSettled_iff hstock hrule, h.signalsSettled_iff hstock hrule]
  constructor
  · rintro ⟨⟨hdb, hsnapshots⟩, hsignal, hsignals⟩
    refine ⟨⟨hdb, hsignal⟩, fun hleaves ↦ ?_⟩
    cases hleaves with
    | snapshots env hpc hflag hne => exact hne (hsnapshots env rfl hpc hflag)
    | signals env hpc hflag hne => exact hsignals env rfl hpc hflag hne
  · rintro ⟨⟨hdb, hsignal⟩, hleaves⟩
    refine ⟨⟨hdb, ?_⟩, hsignal, ?_⟩
    · rintro env rfl hpc hflag
      by_contra hne
      exact hleaves (.snapshots env hpc hflag hne)
    · rintro env rfl hpc hflag hne
      exact hleaves (.signals env hpc hflag hne)

/-! ### The end of the sequence -/

/-- Once both writers have returned and no transaction has failed, being settled is having committed
everything. -/
theorem Stock.settled_iff_committed (h : s.Stock fl overflow period) (hkept : s.Kept)
    (hdb : s.dbWriter.pc = .exited) (hsignal : s.signalDbWriter.pc = .exited) :
    s.Settled ↔ s.path.book.dbPushed.Subperm s.dbWriter.committed ∧
      (EngineWorker.signalsOf fl period s.path.book.signalPushed).Subperm
        s.signalDbWriter.committed := by
  have hdbLen := h.length_dbPushed
  have hsignalLen := h.length_signalPushed
  rw [h.dbWriter.committed_eq hkept.dbWriter (h.dbWriter.batch_nil (by rw [hdb]; rfl)),
    h.signalDbWriter.committed_eq hkept.signalDbWriter
      (h.signalDbWriter.batch_nil (by rw [hsignal]; rfl))]
  constructor
  · rintro ⟨hdbSettled, hsignalSettled⟩
    have hdbEq := hdbSettled hdb
    have hsignalEq := hsignalSettled hsignal
    refine ⟨?_, ?_⟩
    · have hitems : itemsOf s.path.book.processor.dbQueue = [] := by
        rw [← TickPath.items_dbQueue]
        exact List.length_eq_zero_iff.1 (by omega)
      rw [← h.dbQueue, hitems, List.append_nil]
    · -- nothing is in a queue or in hand, and nothing was given up
      have hzero : s.backlog = 0 := by omega
      simp only [backlog, Nat.add_eq_zero_iff, List.length_eq_zero_iff] at hzero
      obtain ⟨⟨⟨halerts, hhand⟩, hqueue⟩, hlost⟩ := hzero
      have hpushed := h.engine.pushed_append_inHand hlost
      rw [TickPath.items_signalQueue] at hqueue
      rw [← h.signalQueue, hqueue, List.append_nil, ← hpushed, hhand, List.append_nil, ← h.alerts,
        halerts, List.append_nil]
  · rintro ⟨hdbSub, hsignalSub⟩
    have hdbLe := hdbSub.length_le
    have hsignalLe := hsignalSub.length_le
    rw [EngineWorker.length_signalsOf] at hsignalLe
    exact ⟨fun _ ↦ by omega, fun _ ↦ by omega⟩

/-- **When an orderly shutdown persists what the book stage produced.** For every interleaving in
which every database operation succeeds: at the end of the stop sequence every snapshot that was
pushed to `snapshot_to_db` is committed, and so is the signal of every snapshot that was pushed to
`signal_queue`, exactly when neither writer returned with something on its way to it. -/
theorem persists_iff {acts : List Action} (hok : ∀ a ∈ acts, a.succeeds = true)
    (hrun : StepRun.run (step fl overflow) (init fl period) acts = some s)
    (hdone : s.main.returned = stopOrder.length) :
    (s.path.book.dbPushed.Subperm s.dbWriter.committed ∧
        (EngineWorker.signalsOf fl period s.path.book.signalPushed).Subperm
          s.signalDbWriter.committed) ↔
      StepRun.Avoids (step fl overflow) LeavesBehind (init fl period) acts := by
  have hinv : s.Control ∧ s.Stock fl overflow period :=
    StepRun.run_invariant (P := fun s : Service ↦ s.Control ∧ s.Stock fl overflow period)
      (fun u a v hu hstep ↦ ⟨hu.1.step (rule_of_step hstep), hu.2.step (rule_of_step hstep)⟩)
      ⟨control_init, stock_init⟩ hrun
  have hexit : ∀ c, s.exited c = true := fun c ↦ hinv.1.joined c (by
    rw [hdone]
    exact (List.getElem?_eq_some_iff.1 (getElem?_position c)).1)
  rw [← hinv.2.settled_iff_committed (kept_of_run hok hrun) (of_decide_eq_true (hexit .dbWriter))
    (of_decide_eq_true (hexit .signalDbWriter))]
  refine StepRun.run_holds_iff (I := fun s : Service ↦ s.Control ∧ s.Stock fl overflow period)
    (fun u a v hu hstep ↦ ?_) ⟨control_init, stock_init⟩ ?_ hrun
  · have hrule := rule_of_step hstep
    exact ⟨⟨hu.1.step hrule, hu.2.step hrule⟩, hu.1.settled_iff hu.2 hrule⟩
  · exact ⟨fun h ↦ by simp [init, BatchWriter.start] at h,
      fun h ↦ by simp [init, BatchWriter.start] at h⟩

/-- A tick goes through the stages, and its snapshot into both queues. -/
def produceOne : List Action :=
  .feed (.shareOfA 100) :: List.replicate 6 (.stage .parser) ++
    List.replicate 6 (.stage .normalizer) ++ List.replicate 6 (.stage .book)

/-- The engine and both writers take up what is there, and the writers hold it in their batches. -/
def takeUp : List Action :=
  List.replicate 3 .engine ++ List.replicate 5 (.dbWriter ⟨true, 0⟩) ++
    List.replicate 5 (.signalDbWriter ⟨true, 0⟩)

/-- One call of `stop()`, while its thread does this. -/
def stopCall (acts : List Action) : List Action := Action.request :: (acts ++ [Action.join])

/-- The stop sequence, with each writer making `steps` steps before it is joined. -/
def stopAll (steps : ℕ) : List Action :=
  [stopCall [.simExit], stopCall (List.replicate 2 (.stage .parser)),
    stopCall (List.replicate 2 (.stage .normalizer)), stopCall (List.replicate 2 (.stage .book)),
    stopCall (List.replicate steps (.dbWriter ⟨true, 0⟩)),
    stopCall (List.replicate steps (.signalDbWriter ⟨true, 0⟩)), stopCall [.engine]].flatten

/-- Writers that have taken up everything before they are stopped commit it on their way out. -/
theorem persists_after_takeUp :
    let fl := FloatEnv.exact fun _ ↦ 0
    let acts := produceOne ++ takeUp ++ stopAll 3
    ∃ s, StepRun.run (step fl fun _ ↦ 0) (init fl .default) acts = some s ∧
      (∀ a ∈ acts, a.succeeds = true) ∧ s.main.returned = stopOrder.length ∧
      (s.dbWriter.committed.length = 1 ∧ s.signalDbWriter.committed.length = 1) ∧
      StepRun.Avoids (step fl fun _ ↦ 0) LeavesBehind (init fl .default) acts := by
  intro fl acts
  obtain ⟨s, hrun, hend⟩ := Option.map_eq_some_iff.1 (by decide +kernel :
    (StepRun.run (step fl fun _ ↦ 0) (init fl .default) acts).map
      (fun s ↦ (s.main.returned, s.dbWriter.committed.length, s.signalDbWriter.committed.length,
        decide (s.path.book.dbPushed = s.dbWriter.committed ∧
          EngineWorker.signalsOf fl .default s.path.book.signalPushed =
            s.signalDbWriter.committed))) = some (7, 1, 1, true))
  simp only [Prod.mk.injEq, decide_eq_true_iff] at hend
  obtain ⟨hdone, hdb, hsignal, hsnapshots, hsignals⟩ := hend
  have hok : ∀ a ∈ acts, a.succeeds = true := by decide +kernel
  refine ⟨s, hrun, hok, hdone, ⟨hdb, hsignal⟩, (persists_iff hok hrun hdone).1 ⟨?_, ?_⟩⟩
  · rw [hsnapshots]
  · rw [hsignals]

/-- **A snapshot is left in its queue.** Both writers are stopped before they have taken it up, and
return at once: neither the snapshot nor its signal is committed. -/
theorem shutdown_leaves_snapshot :
    (¬ ∀ (fl : FloatEnv) (overflow : Double → ℤ) (period : Period) (acts : List Action)
        (s : Service), (∀ a ∈ acts, a.succeeds = true) →
        StepRun.run (step fl overflow) (init fl period) acts = some s →
        s.main.returned = stopOrder.length →
        s.path.book.dbPushed.Subperm s.dbWriter.committed) ∧
      ¬ ∀ (fl : FloatEnv) (overflow : Double → ℤ) (period : Period) (acts : List Action)
        (s : Service), (∀ a ∈ acts, a.succeeds = true) →
        StepRun.run (step fl overflow) (init fl period) acts = some s →
        s.main.returned = stopOrder.length →
        (EngineWorker.signalsOf fl period s.path.book.signalPushed).Subperm
          s.signalDbWriter.committed := by
  obtain ⟨s, hrun, hend⟩ := Option.map_eq_some_iff.1 (by decide +kernel :
    (StepRun.run (step (FloatEnv.exact fun _ ↦ 0) fun _ ↦ 0)
      (init (FloatEnv.exact fun _ ↦ 0) .default) (produceOne ++ stopAll 1)).map
        (fun s ↦ (s.main.returned, (s.path.book.dbPushed.length, s.dbWriter.committed.length),
          s.path.book.signalPushed.length, s.signalDbWriter.committed.length)) =
      some (7, (1, 0), 1, 0))
  simp only [Prod.mk.injEq] at hend
  obtain ⟨hdone, ⟨hdb, hdbCommitted⟩, hsignal, hsignalCommitted⟩ := hend
  have hok : ∀ a ∈ produceOne ++ stopAll 1, a.succeeds = true := by decide +kernel
  constructor
  · intro hall
    have hle := (hall _ _ _ _ s hok hrun hdone).length_le
    omega
  · intro hall
    have hle := (hall _ _ _ _ s hok hrun hdone).length_le
    rw [EngineWorker.length_signalsOf] at hle
    omega

end Service

end Mdp
