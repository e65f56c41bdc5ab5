import MarketDataProcessor.Book.BookWorker
import MarketDataProcessor.Processing.NormalizerSpec
import MarketDataProcessor.Processing.TickParser

/-!
# The path of a tick, with stop requests

Parser, normalizer and book processor as threads that may be asked to stop, connected by the buffers
of the source. This is the part every system of the following modules contains; who feeds the first
buffer, who takes from the queues of the book processor and who sets the stop flags differ from one
to the next, so `feed`, `advance`, `withDb` and `withSignal` are functions on the path and the flags
are an argument.

Unlike `Pipeline`, whose book processor works on a tick in one step and is never stopped, the path
separates the count and the two pushes of a tick and loses ticks on a stop request. `Flow` is what
remains true: every buffer holds what was pushed to it and not yet popped, and every thread accounts
for what it popped. `Flow.applied_sublist` is its consequence for the books: whatever was lost on
the way, what they were given is a part of what the normalizer forwards of a part of what was fed.

## How the path is used

A system that contains the path gives it a feed, consumers and stop flags, and has to say in its own
step function which of `feed`, `advance`, `withDb` and `withSignal` an action is. `advance_rule`
turns the function into the rules of `Advance`, one thread each, and `Flow.advance` checks these
against the accounts of the threads from `Processing/StageThread` and `Book/BookWorker`. So the flow
is proved once and is a part of the invariant of every system around the path: the streams of
`OrderedStreams`, the snapshots of the metrics, and the processes of `Tools`.
-/

namespace Mdp

open BookProcessor BookRun

/-- The stages of the path. -/
inductive Stage where
  | parser
  | normalizer
  | book
  deriving DecidableEq

/-- The three threads and their buffers. -/
structure TickPath where
  /-- History: the ticks that entered the first buffer. -/
  fed : List MarketTick
  /-- `TickRingBuffer16K`. -/
  raw : BoundedQueue MarketTick 16384
  parser : Worker Unit MarketTick MarketTick TickParser.Drop
  /-- `TickRingBuffer4K`. -/
  parsed : BoundedQueue MarketTick 4096
  normalizer : Worker Normalizer.State MarketTick MarketTick Normalizer.Drop
  /-- `TickRingBuffer4K`. -/
  normalized : BoundedQueue MarketTick 4096
  book : BookWorker

namespace TickPath

/-- All threads started on empty buffers, with the given queues attached. -/
def init (dbQueue signalQueue : Option SnapshotQueue) : TickPath where
  fed := []
  raw := BoundedQueue.empty
  parser := Worker.start TickParser.stage
  parsed := BoundedQueue.empty
  normalizer := Worker.start Normalizer.stage
  normalized := BoundedQueue.empty
  book := BookWorker.start dbQueue signalQueue

/-- A tick enters the first buffer, if there is room. -/
def feed (s : TickPath) (tick : MarketTick) : Option TickPath :=
  (s.raw.tryPush tick).map fun raw' ↦ { s with raw := raw', fed := s.fed ++ [tick] }

/-- A thread makes a step, with the stop flags as they are. -/
def advance (fl : FloatEnv) (stop : Stage → Bool) (s : TickPath) : Stage → TickPath
  | .parser =>
    let next := s.parser.step TickParser.stage (stop .parser) s.raw s.parsed
    { s with parser := next.1, raw := next.2.1, parsed := next.2.2 }
  | .normalizer =>
    let next := s.normalizer.step Normalizer.stage (stop .normalizer) s.parsed s.normalized
    { s with normalizer := next.1, parsed := next.2.1, normalized := next.2.2 }
  | .book =>
    let next := s.book.step fl (stop .book) s.normalized
    { s with book := next.1, normalized := next.2 }

/-- The database queue, as its consumer sees it. -/
def dbQueue (s : TickPath) : SnapshotQueue := s.book.processor.dbQueue.getD BoundedQueue.empty

/-- The signal queue, as its consumer sees it. -/
def signalQueue (s : TickPath) : SnapshotQueue :=
  s.book.processor.signalQueue.getD BoundedQueue.empty

/-- The database queue as its consumer leaves it. -/
def withDb (s : TickPath) (queue : SnapshotQueue) : TickPath :=
  let processor := s.book.processor
  { s with book.processor := { processor with dbQueue := processor.dbQueue.map fun _ ↦ queue } }

/-- The signal queue as its consumer leaves it. -/
def withSignal (s : TickPath) (queue : SnapshotQueue) : TickPath :=
  let processor := s.book.processor
  { s with
    book.processor := { processor with signalQueue := processor.signalQueue.map fun _ ↦ queue } }

/-- **The steps of the path**: one thread makes a step by its rules, the others stand. -/
inductive Advance (fl : FloatEnv) (stop : Stage → Bool) (s : TickPath) : Stage → TickPath → Prop
  | parser (w : Worker Unit MarketTick MarketTick TickParser.Drop)
    (raw' : BoundedQueue MarketTick 16384) (parsed' : BoundedQueue MarketTick 4096) :
    Worker.Step TickParser.stage (stop .parser) s.parser s.raw s.parsed w raw' parsed' →
    Advance fl stop s .parser { s with parser := w, raw := raw', parsed := parsed' }
  | normalizer (w : Worker Normalizer.State MarketTick MarketTick Normalizer.Drop)
    (parsed' normalized' : BoundedQueue MarketTick 4096) :
    Worker.Step Normalizer.stage (stop .normalizer) s.normalizer s.parsed s.normalized w parsed'
      normalized' →
    Advance fl stop s .normalizer
      { s with normalizer := w, parsed := parsed', normalized := normalized' }
  | book (w : BookWorker) (normalized' : BoundedQueue MarketTick 4096) :
    BookWorker.Step fl (stop .book) s.book s.normalized w normalized' →
    Advance fl stop s .book { s with book := w, normalized := normalized' }

theorem advance_rule (fl : FloatEnv) (stop : Stage → Bool) (s : TickPath) (stage : Stage) :
    Advance fl stop s stage (s.advance fl stop stage) := by
  cases stage with
  | parser => exact .parser _ _ _ (s.parser.step_rule _ _ _ _)
  | normalizer => exact .normalizer _ _ _ (s.normalizer.step_rule _ _ _ _)
  | book => exact .book _ _ (s.book.step_rule _ _ _)

/-! ### Where the ticks are -/

/-- The invariant of the path, with queues attached as `dbQueue` and `signalQueue` are. -/
structure Flow (fl : FloatEnv) (dbQueue signalQueue : Option SnapshotQueue) (s : TickPath) :
    Prop where
  parser : ∃ judged, s.parser.Accounts TickParser.stage judged
  normalizer : ∃ judged, s.normalizer.Accounts Normalizer.stage judged
  book : s.book.Accounts fl dbQueue signalQueue
  /-- What was fed was popped by the parser or is in the first buffer. -/
  raw : s.parser.popped ++ s.raw.items = s.fed
  /-- What the parser pushed was popped by the normalizer or is in the second. -/
  parsed : s.normalizer.popped ++ s.parsed.items = pushedOf s.parser.fates
  /-- What the normalizer pushed was popped by the book processor or is in the third. -/
  normalized : s.book.popped ++ s.normalized.items = pushedOf s.normalizer.fates

variable {fl : FloatEnv} {dbQueue signalQueue : Option SnapshotQueue} {stop : Stage → Bool}
  {s t : TickPath}

theorem flow_init : (init dbQueue signalQueue).Flow fl dbQueue signalQueue :=
  ⟨⟨[], Worker.accounts_start _⟩, ⟨[], Worker.accounts_start _⟩,
    BookWorker.accounts_start fl dbQueue signalQueue, rfl, rfl, rfl⟩

theorem Flow.feed (h : s.Flow fl dbQueue signalQueue) {tick : MarketTick}
    (hfeed : s.feed tick = some t) : t.Flow fl dbQueue signalQueue := by
  obtain ⟨raw', hpush, rfl⟩ := Option.map_eq_some_iff.1 hfeed
  refine ⟨h.parser, h.normalizer, h.book, ?_, h.parsed, h.normalized⟩
  rw [(BoundedQueue.tryPush_eq_some_iff.1 hpush).2, ← List.append_assoc, h.raw]

/-- **Every step of a thread keeps the flow**, whatever the flags. -/
theorem Flow.advance (h : s.Flow fl dbQueue signalQueue) {stage : Stage}
    (hstep : Advance fl stop s stage t) : t.Flow fl dbQueue signalQueue := by
  cases hstep with
  | parser w raw' parsed' hrule =>
    obtain ⟨judged, haccounts⟩ := h.parser
    obtain ⟨sent, hsent, hpushed⟩ := hrule.exists_pushed
    refine ⟨haccounts.step hrule, h.normalizer, h.book, hrule.popped_append_items.trans h.raw, ?_,
      h.normalized⟩
    rw [hsent, hpushed, ← List.append_assoc, h.parsed]
  | normalizer w parsed' normalized' hrule =>
    obtain ⟨judged, haccounts⟩ := h.normalizer
    obtain ⟨sent, hsent, hpushed⟩ := hrule.exists_pushed
    refine ⟨h.parser, haccounts.step hrule, h.book, h.raw,
      hrule.popped_append_items.trans h.parsed, ?_⟩
    rw [hsent, hpushed, ← List.append_assoc, h.normalized]
  | book w normalized' hrule =>
    exact ⟨h.parser, h.normalizer, h.book.step hrule, h.raw, h.parsed,
      hrule.popped_append_items.trans h.normalized⟩

theorem Flow.withDb (h : s.Flow fl dbQueue signalQueue) (queue : SnapshotQueue) :
    (s.withDb queue).Flow fl dbQueue signalQueue := by
  obtain ⟨hpopped, hbooks, hrefs, hoffers, hcounted, hattached, hdb, hsignal⟩ := h.book
  refine ⟨h.parser, h.normalizer,
    ⟨hpopped, hbooks, hrefs, hoffers, hcounted, ?_, hdb, hsignal⟩, h.raw, h.parsed, h.normalized⟩
  rw [← hattached]
  exact congrArg (· || _) Option.isSome_map

theorem Flow.withSignal (h : s.Flow fl dbQueue signalQueue) (queue : SnapshotQueue) :
    (s.withSignal queue).Flow fl dbQueue signalQueue := by
  obtain ⟨hpopped, hbooks, hrefs, hoffers, hcounted, hattached, hdb, hsignal⟩ := h.book
  refine ⟨h.parser, h.normalizer,
    ⟨hpopped, hbooks, hrefs, hoffers, hcounted, ?_, hdb, hsignal⟩, h.raw, h.parsed, h.normalized⟩
  rw [← hattached]
  exact congrArg (_ || ·) Option.isSome_map

/-! ### What reaches the books -/

/-- **What the books were given is a part of what the normalizer forwards** of ticks that are a part
of what the parser forwards of the fed ones. -/
theorem Flow.applied_sublist (h : s.Flow fl dbQueue signalQueue) :
    ∃ ticks, ticks.Sublist (TickParser.parse s.fed) ∧
      s.book.applied.Sublist (Normalizer.normalize ticks) := by
  obtain ⟨judged, hparser⟩ := h.parser
  obtain ⟨ticks, hnorm⟩ := h.normalizer
  refine ⟨ticks, ?_, ?_⟩
  · -- through the second buffer, the parser and the first buffer
    have hticks : ticks.Sublist (pushedOf s.parser.fates) := by
      rw [← h.parsed, hnorm.popped, List.append_assoc]
      exact List.sublist_append_left _ _
    have hjudged : judged.Sublist s.fed := by
      rw [← h.raw, hparser.popped, List.append_assoc]
      exact List.sublist_append_left _ _
    have hparsed := hparser.pushedOf_sublist
    rw [TickParser.forwardedOf_stage] at hparsed
    exact hticks.trans (hparsed.trans ((hjudged.map _).filter _))
  · have happlied : s.book.applied.Sublist (pushedOf s.normalizer.fates) := by
      rw [← h.normalized, h.book.popped, List.append_assoc]
      exact List.sublist_append_left _ _
    exact happlied.trans hnorm.pushedOf_sublist

/-! ### The queues of the book processor -/

theorem items_dbQueue (s : TickPath) : s.dbQueue.items = itemsOf s.book.processor.dbQueue := by
  rw [TickPath.dbQueue]
  cases s.book.processor.dbQueue <;> rfl

theorem items_signalQueue (s : TickPath) :
    s.signalQueue.items = itemsOf s.book.processor.signalQueue := by
  rw [TickPath.signalQueue]
  cases s.book.processor.signalQueue <;> rfl

/-- **What enters the database queue was pushed**: with what its consumer took, it makes up what was
pushed. -/
theorem Advance.dbPushed {stage : Stage} (hstep : Advance fl stop s stage t)
    {taken : List MarketSnapshot}
    (h : taken ++ itemsOf s.book.processor.dbQueue = s.book.dbPushed) :
    taken ++ itemsOf t.book.processor.dbQueue = t.book.dbPushed := by
  cases hstep with
  | parser => exact h
  | normalizer => exact h
  | book w normalized' hrule =>
    obtain ⟨⟨sent, hitems, hsent⟩, -⟩ := hrule.exists_pushed
    rw [hitems, hsent, ← List.append_assoc, h]

/-- **What enters the signal queue was pushed.** -/
theorem Advance.signalPushed {stage : Stage} (hstep : Advance fl stop s stage t)
    {taken : List MarketSnapshot}
    (h : taken ++ itemsOf s.book.processor.signalQueue = s.book.signalPushed) :
    taken ++ itemsOf t.book.processor.signalQueue = t.book.signalPushed := by
  cases hstep with
  | parser => exact h
  | normalizer => exact h
  | book w normalized' hrule =>
    obtain ⟨-, sent, hitems, hsent⟩ := hrule.exists_pushed
    rw [hitems, hsent, ← List.append_assoc, h]

/-- What a consumer took, and what it left. -/
theorem itemsOf_map_of_append {queue : Option SnapshotQueue} {queue' : SnapshotQueue}
    {popped : List MarketSnapshot}
    (h : (queue.getD BoundedQueue.empty).items = popped ++ queue'.items) :
    itemsOf queue = popped ++ itemsOf (queue.map fun _ ↦ queue') := by
  cases queue with
  | none =>
    obtain ⟨rfl, -⟩ := List.append_eq_nil_iff.1 h.symm
    rfl
  | some queue => exact h

theorem withDb_append {taken popped pushed : List MarketSnapshot} {queue' : SnapshotQueue}
    (h : taken ++ itemsOf s.book.processor.dbQueue = pushed)
    (hitems : s.dbQueue.items = popped ++ queue'.items) :
    taken ++ popped ++ itemsOf (s.withDb queue').book.processor.dbQueue = pushed := by
  rw [← h, itemsOf_map_of_append hitems, List.append_assoc]
  rfl

theorem withSignal_append {taken popped pushed : List MarketSnapshot} {queue' : SnapshotQueue}
    (h : taken ++ itemsOf s.book.processor.signalQueue = pushed)
    (hitems : s.signalQueue.items = popped ++ queue'.items) :
    taken ++ popped ++ itemsOf (s.withSignal queue').book.processor.signalQueue = pushed := by
  rw [← h, itemsOf_map_of_append hitems, List.append_assoc]
  rfl

end TickPath

end Mdp
