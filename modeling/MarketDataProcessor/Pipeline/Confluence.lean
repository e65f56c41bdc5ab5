import MarketDataProcessor.Book.BookProcessor
import MarketDataProcessor.Processing.Normalizer
import MarketDataProcessor.Processing.StageAccounting
import MarketDataProcessor.Processing.TickParser

/-!
# The pipeline does not depend on its schedule

Feed, parser, normalizer and book processor as one system: three threads and a publisher, connected
by the buffers of the source, in any interleaving. No stop is requested, so a stage with a full
output keeps retrying its push. The queues the book processor fills have consumers of their own,
which may take from them at any time.

The sequential meaning of the pipeline is the composition of the pure stages. `Flow` is the
invariant that relates a state of the system to it: every published tick is in one of the buffers,
in the hands of a stage or behind it, in order. Prefixes of inputs give prefixes of outputs, so at
every moment the ticks applied to the books are a prefix of what the composition yields; and in a
state in which nothing is under way all the prefixes are equalities, so such a state is determined
by what was published.

## From the flow to the result

`Flow` has an equation for each buffer and an account for each stage, and `Flow.step` checks an
action against these alone: a push moves a tick from the hands of a stage into a buffer, a pop the
other way, and retries change neither side. Nothing in it mentions the order of the actions.

`Flow.applied_prefix` composes the accounts. What a stage has pushed is a prefix of what it forwards
of what it popped, since one tick may be in its hands; what it popped is a prefix of what was pushed
to it, since some may be in the buffer. The composition of monotone stages keeps prefixes, and at
rest every one of them is an equation (`Flow.of_quiescent`).
-/

namespace Mdp

open BookProcessor

/-- The thread of the book processor: `run` holds a popped tick or none. -/
structure BookThread where
  hand : Option MarketTick
  processor : BookProcessor
  /-- History: the ticks processed. -/
  applied : List MarketTick

/-- The pipeline with its three buffers. -/
structure Pipeline where
  /-- History: the ticks published into the first buffer. -/
  published : List MarketTick
  /-- `TickRingBuffer16K`. -/
  raw : BoundedQueue MarketTick 16384
  parser : Worker Unit MarketTick MarketTick TickParser.Drop
  /-- `TickRingBuffer4K`. -/
  parsed : BoundedQueue MarketTick 4096
  normalizer : Worker Normalizer.State MarketTick MarketTick Normalizer.Drop
  /-- `TickRingBuffer4K`. -/
  normalized : BoundedQueue MarketTick 4096
  book : BookThread

namespace Pipeline

/-- Who moves next. -/
inductive Action where
  | publish (tick : MarketTick)
  | parser
  | normalizer
  | book
  /-- The database writer takes a snapshot. -/
  | dbPop
  /-- The signal engine takes a snapshot. -/
  | signalPop

/-- All threads started on empty buffers. -/
def init (dbQueue signalQueue : Option SnapshotQueue) : Pipeline where
  published := []
  raw := BoundedQueue.empty
  parser := Worker.start TickParser.stage
  parsed := BoundedQueue.empty
  normalizer := Worker.start Normalizer.stage
  normalized := BoundedQueue.empty
  book := ⟨none, fresh dbQueue signalQueue, []⟩

variable (fl : FloatEnv)

/-- One step of the book processor's loop: pop, or process what was popped. -/
def bookStep (book : BookThread) (input : BoundedQueue MarketTick 4096) :
    BookThread × BoundedQueue MarketTick 4096 :=
  match book.hand with
  | none =>
    match input.tryPop with
    | none => (book, input)
    | some (tick, input') => ({ book with hand := some tick }, input')
  | some tick =>
    ({ hand := none
       processor := book.processor.processTick fl tick
       applied := book.applied ++ [tick] }, input)

/-- **The three things the loop does**: find nothing, pop a tick, process it. -/
theorem bookStep_cases (book : BookThread) (input : BoundedQueue MarketTick 4096) :
    bookStep fl book input = (book, input) ∨
      (∃ tick input', book.hand = none ∧ input.items = tick :: input'.items ∧
        bookStep fl book input = ({ book with hand := some tick }, input')) ∨
      ∃ tick, book.hand = some tick ∧ bookStep fl book input =
        (⟨none, book.processor.processTick fl tick, book.applied ++ [tick]⟩, input) := by
  unfold bookStep
  split
  next hhand =>
    split
    next => exact Or.inl rfl
    next tick input' hpop =>
      exact Or.inr (Or.inl ⟨tick, input', hhand, BoundedQueue.tryPop_eq_some_iff.1 hpop, rfl⟩)
  next tick hhand => exact Or.inr (Or.inr ⟨tick, hhand, rfl⟩)

/-- Another thread takes the oldest snapshot of an attached queue. -/
def takeSnapshot (queue : Option SnapshotQueue) : Option SnapshotQueue :=
  queue.map fun q ↦ (q.tryPop.map Prod.snd).getD q

/-- One step; publishing into a full buffer fails and is no step. -/
def step (s : Pipeline) : Action → Option Pipeline
  | .publish tick =>
    (s.raw.tryPush tick).map fun raw' ↦ { s with raw := raw', published := s.published ++ [tick] }
  | .parser =>
    let next := s.parser.step TickParser.stage false s.raw s.parsed
    some { s with parser := next.1, raw := next.2.1, parsed := next.2.2 }
  | .normalizer =>
    let next := s.normalizer.step Normalizer.stage false s.parsed s.normalized
    some { s with normalizer := next.1, parsed := next.2.1, normalized := next.2.2 }
  | .book =>
    let next := bookStep fl s.book s.normalized
    some { s with book := next.1, normalized := next.2 }
  | .dbPop =>
    let processor := s.book.processor
    some { s with
      book.processor := { processor with dbQueue := takeSnapshot processor.dbQueue } }
  | .signalPop =>
    let processor := s.book.processor
    some { s with
      book.processor := { processor with signalQueue := takeSnapshot processor.signalQueue } }

/-! ### Where the published ticks are -/

/-- A thread that runs undisturbed and accounts for what it popped. -/
def Sound {σ κ : Type} [DecidableEq κ] (S : FilterStage σ MarketTick MarketTick κ)
    (w : Worker σ MarketTick MarketTick κ) : Prop :=
  (∃ judged, w.Accounts S judged) ∧ w.Undisturbed

theorem sound_start {σ κ : Type} [DecidableEq κ] (S : FilterStage σ MarketTick MarketTick κ) :
    Sound S (Worker.start S) :=
  ⟨⟨[], Worker.accounts_start S⟩, Worker.undisturbed_start S⟩

/-- The invariant of the pipeline. -/
structure Flow (dbQueue signalQueue : Option SnapshotQueue) (s : Pipeline) : Prop where
  parser : Sound TickParser.stage s.parser
  normalizer : Sound Normalizer.stage s.normalizer
  /-- What was published was popped by the parser or is in the first buffer. -/
  raw : s.parser.popped ++ s.raw.items = s.published
  /-- What the parser pushed was popped by the normalizer or is in the second. -/
  parsed : s.normalizer.popped ++ s.parsed.items = pushedOf s.parser.fates
  /-- What the normalizer pushed was applied, is in hand, or is in the third. -/
  normalized : s.book.applied ++ s.book.hand.toList ++ s.normalized.items =
    pushedOf s.normalizer.fates
  /-- The books are those of the applied ticks. -/
  books : s.book.processor.books =
    ((offering fl).state (fresh dbQueue signalQueue) s.book.applied).books
  /-- So are the references. -/
  references : s.book.processor.referencePrice =
    ((offering fl).state (fresh dbQueue signalQueue) s.book.applied).referencePrice
  /-- So is the count. -/
  count : s.book.processor.ticksProcessed = s.book.applied.length

theorem flow_init (dbQueue signalQueue : Option SnapshotQueue) :
    (init dbQueue signalQueue).Flow fl dbQueue signalQueue :=
  ⟨sound_start _, sound_start _, rfl, rfl, rfl, rfl, rfl, rfl⟩

variable {fl} {dbQueue signalQueue : Option SnapshotQueue} {s t : Pipeline} {a : Action}

theorem Sound.step {σ κ : Type} [DecidableEq κ] {S : FilterStage σ MarketTick MarketTick κ}
    {w : Worker σ MarketTick MarketTick κ} (h : Sound S w) {m n : ℕ}
    (input : BoundedQueue MarketTick m) (output : BoundedQueue MarketTick n) :
    Sound S (w.step S false input output).1 := by
  obtain ⟨⟨judged, haccounts⟩, hund⟩ := h
  have hrule := w.step_rule S false input output
  exact ⟨haccounts.step hrule, hund.step hrule⟩

/-- **Every step keeps the flow.** -/
theorem Flow.step (h : s.Flow fl dbQueue signalQueue) (hstep : s.step fl a = some t) :
    t.Flow fl dbQueue signalQueue := by
  obtain ⟨hparser, hnorm, hraw, hparsed, hnormd, hbooks, hrefs, hcount⟩ := h
  cases a with
  | publish tick =>
    obtain ⟨raw', hpush, rfl⟩ := Option.map_eq_some_iff.1 hstep
    refine ⟨hparser, hnorm, ?_, hparsed, hnormd, hbooks, hrefs, hcount⟩
    rw [(BoundedQueue.tryPush_eq_some_iff.1 hpush).2, ← List.append_assoc, hraw]
  | parser =>
    obtain rfl := Option.some.inj hstep
    have hrule := s.parser.step_rule TickParser.stage false s.raw s.parsed
    obtain ⟨sent, hsent, hpushed⟩ := hrule.exists_pushed
    refine ⟨hparser.step _ _, hnorm, hrule.popped_append_items.trans hraw, ?_, hnormd, hbooks,
      hrefs, hcount⟩
    rw [hsent, hpushed, ← List.append_assoc, hparsed]
  | normalizer =>
    obtain rfl := Option.some.inj hstep
    have hrule := s.normalizer.step_rule Normalizer.stage false s.parsed s.normalized
    obtain ⟨sent, hsent, hpushed⟩ := hrule.exists_pushed
    refine ⟨hparser, hnorm.step _ _, hraw, hrule.popped_append_items.trans hparsed, ?_, hbooks,
      hrefs, hcount⟩
    rw [hsent, hpushed, ← List.append_assoc, hnormd]
  | book =>
    obtain rfl := Option.some.inj hstep
    rcases bookStep_cases fl s.book s.normalized with hsame | ⟨tick, input', hhand, hitems, hpop⟩ |
      ⟨tick, hhand, happly⟩
    · rw [hsame]
      exact ⟨hparser, hnorm, hraw, hparsed, hnormd, hbooks, hrefs, hcount⟩
    · rw [hpop]
      refine ⟨hparser, hnorm, hraw, hparsed, ?_, hbooks, hrefs, hcount⟩
      rw [← hnormd, hhand, hitems, List.append_assoc, List.append_assoc]
      rfl
    · rw [happly]
      obtain ⟨hbooks', hrefs'⟩ := books_processTick_congr fl tick hbooks hrefs
      refine ⟨hparser, hnorm, hraw, hparsed, ?_, ?_, ?_, ?_⟩
      · rw [← hnormd, hhand, List.append_assoc _ [tick]]
        rfl
      · rw [Transducer.state_concat]
        exact hbooks'
      · rw [Transducer.state_concat]
        exact hrefs'
      · rw [ticksProcessed_processTick, hcount, List.length_append, List.length_singleton]
  | dbPop =>
    obtain rfl := Option.some.inj hstep
    exact ⟨hparser, hnorm, hraw, hparsed, hnormd, hbooks, hrefs, hcount⟩
  | signalPop =>
    obtain rfl := Option.some.inj hstep
    exact ⟨hparser, hnorm, hraw, hparsed, hnormd, hbooks, hrefs, hcount⟩

/-- **Every reachable state of the pipeline has the flow.** -/
theorem flow_of_run {acts : List Action}
    (h : StepRun.run (step fl) (init dbQueue signalQueue) acts = some s) :
    s.Flow fl dbQueue signalQueue :=
  StepRun.run_invariant (fun _ _ _ hflow hstep ↦ hflow.step hstep) (flow_init fl _ _) h

/-! ### Prefixes along the way, equalities at rest -/

/-- **What was applied is a prefix of the sequential result.** -/
theorem Flow.applied_prefix (h : s.Flow fl dbQueue signalQueue) :
    s.book.applied <+: Normalizer.normalize (TickParser.parse s.published) := by
  obtain ⟨⟨judged, hparser⟩, hparserLost, -⟩ := h.parser
  obtain ⟨⟨judged', hnorm⟩, hnormLost, -⟩ := h.normalizer
  -- a prefix of the input gives a prefix of the output, one stage after the other
  have hraw : s.parser.popped <+: s.published := by
    rw [← h.raw]
    exact List.prefix_append _ _
  have hparse := hparser.pushedOf_prefix hparserLost hraw
  rw [TickParser.forwardedOf_stage, ← h.parsed] at hparse
  have hnormalize := hnorm.pushedOf_prefix hnormLost ((List.prefix_append _ _).trans hparse)
  rw [← h.normalized, List.append_assoc] at hnormalize
  exact (List.prefix_append _ _).trans hnormalize

/-- All buffers are empty and no stage is working on a tick. -/
structure Quiescent (s : Pipeline) : Prop where
  raw : s.raw.items = []
  parsed : s.parsed.items = []
  normalized : s.normalized.items = []
  parser : s.parser.pc.holding = .nothing
  normalizer : s.normalizer.pc.holding = .nothing
  book : s.book.hand = none

/-- **At rest, everything is what the published ticks make it.** -/
theorem Flow.of_quiescent (h : s.Flow fl dbQueue signalQueue) (hq : s.Quiescent) :
    s.book.applied = Normalizer.normalize (TickParser.parse s.published) ∧
      s.parser.forwarded = (TickParser.parse s.published).length ∧
      (∀ why, s.parser.dropped why = (TickParser.stage.dropsOf s.published).count why) ∧
      s.normalizer.forwarded = (Normalizer.normalize (TickParser.parse s.published)).length ∧
      (∀ why, s.normalizer.dropped why =
        (Normalizer.stage.dropsOf (TickParser.parse s.published)).count why) := by
  obtain ⟨⟨judged, hparser⟩, hparserLost, -⟩ := h.parser
  obtain ⟨⟨judged', hnorm⟩, hnormLost, -⟩ := h.normalizer
  obtain ⟨hparse, hparsed, hrejected, -⟩ := hparser.of_nothing hq.parser
  obtain ⟨hnormalize, hforwarded, hdropped, -⟩ := hnorm.of_nothing hq.normalizer
  -- the first buffer is empty, so the parser popped everything; likewise one stage further
  have hraw : s.parser.popped = s.published := by
    rw [← h.raw, hq.raw, List.append_nil]
  rw [hraw, TickParser.forwardedOf_stage, ← pushedOf_eq_map_fst_iff.2 hparserLost] at hparse
  rw [hraw] at hrejected
  have hpopped : s.normalizer.popped = TickParser.parse s.published := by
    rw [hparse, ← h.parsed, hq.parsed, List.append_nil]
  rw [hpopped, ← pushedOf_eq_map_fst_iff.2 hnormLost] at hnormalize
  rw [hpopped] at hdropped
  have happlied : s.book.applied = pushedOf s.normalizer.fates := by
    rw [← h.normalized, hq.book, hq.normalized, List.append_nil]
    exact (List.append_nil _).symm
  refine ⟨happlied.trans hnormalize.symm, ?_, hrejected, ?_, hdropped⟩
  · rw [hparsed, ← hparse]
  · rw [hforwarded, ← hnormalize]
    rfl

/-- **The pipeline's result is independent of the thread schedule.** In every interleaving the ticks
applied so far are a prefix of `normalize (parse published)`, and the books and references are the
fold of `process_tick` over them. Two interleavings that published the same ticks and came to rest
agree on the books, the references and every tick counter. -/
theorem schedule_independent (fl : FloatEnv) (dbQueue signalQueue : Option SnapshotQueue) :
    (∀ acts s, StepRun.run (step fl) (init dbQueue signalQueue) acts = some s →
      s.book.applied <+: Normalizer.normalize (TickParser.parse s.published) ∧
        s.book.processor.books =
          (s.book.applied.foldl (processTick fl) (fresh dbQueue signalQueue)).books ∧
        s.book.processor.referencePrice =
          (s.book.applied.foldl (processTick fl) (fresh dbQueue signalQueue)).referencePrice) ∧
    ∀ acts acts' s s', StepRun.run (step fl) (init dbQueue signalQueue) acts = some s →
      StepRun.run (step fl) (init dbQueue signalQueue) acts' = some s' →
      s.published = s'.published → s.Quiescent → s'.Quiescent →
      (s.book.processor.books = s'.book.processor.books ∧
        s.book.processor.referencePrice = s'.book.processor.referencePrice) ∧
        (s.parser.forwarded = s'.parser.forwarded ∧ s.parser.dropped = s'.parser.dropped) ∧
        (s.normalizer.forwarded = s'.normalizer.forwarded ∧
          s.normalizer.dropped = s'.normalizer.dropped) ∧
        s.book.processor.ticksProcessed = s'.book.processor.ticksProcessed := by
  constructor
  · intro acts s hrun
    have hflow := flow_of_run hrun
    exact ⟨hflow.applied_prefix, hflow.books, hflow.references⟩
  · intro acts acts' s s' hrun hrun' hpub hq hq'
    have hflow := flow_of_run hrun
    have hflow' := flow_of_run hrun'
    obtain ⟨happlied, hparsed, hrejected, hforwarded, hdropped⟩ := hflow.of_quiescent hq
    obtain ⟨happlied', hparsed', hrejected', hforwarded', hdropped'⟩ := hflow'.of_quiescent hq'
    have hsame : s.book.applied = s'.book.applied := by rw [happlied, happlied', hpub]
    refine ⟨⟨?_, ?_⟩, ⟨?_, funext fun why ↦ ?_⟩, ⟨?_, funext fun why ↦ ?_⟩, ?_⟩
    · rw [hflow.books, hflow'.books, hsame]
    · rw [hflow.references, hflow'.references, hsame]
    · rw [hparsed, hparsed', hpub]
    · rw [hrejected, hrejected', hpub]
    · rw [hforwarded, hforwarded', hpub]
    · rw [hdropped, hdropped', hpub]
    · rw [hflow.count, hflow'.count, hsame]

/-- Both filtering stages at the top of their loop, with nothing anywhere. -/
def atRest (s : Pipeline) : Bool :=
  decide (s.raw.items = [] ∧ s.parsed.items = [] ∧ s.normalized.items = [] ∧
    s.parser.pc = .loopTest ∧ s.normalizer.pc = .loopTest ∧ s.book.hand = none)

theorem quiescent_of_atRest (h : s.atRest = true) : s.Quiescent := by
  obtain ⟨hraw, hparsed, hnormd, hparser, hnorm, hbook⟩ := of_decide_eq_true h
  exact ⟨hraw, hparsed, hnormd, by rw [hparser]; rfl, by rw [hnorm]; rfl, hbook⟩

/-- One tick through the stages, one after another. -/
def oneAfterAnother : List Action :=
  .publish (.shareOfA 100) :: List.replicate 6 .parser ++ List.replicate 6 .normalizer ++
    [.book, .book]

/-- The same tick with the stages running ahead of each other. -/
def runningAhead : List Action :=
  [.book, .normalizer, .parser, .publish (.shareOfA 100)] ++ List.replicate 4 .parser ++
    [.normalizer, .parser] ++ List.replicate 4 .normalizer ++ [.book, .book]

theorem schedule_independent_oneAfterAnother :
    let fl := FloatEnv.exact fun _ ↦ 0
    ∃ s s', StepRun.run (step fl) (init none none) oneAfterAnother = some s ∧
      StepRun.run (step fl) (init none none) runningAhead = some s' ∧
      s.book.processor.booksActive = 1 ∧ s.book.processor.books = s'.book.processor.books := by
  intro fl
  have hindep := schedule_independent fl none none
  obtain ⟨s, hrun, hend⟩ := Option.map_eq_some_iff.1 (by decide +kernel :
    (StepRun.run (step fl) (init none none) oneAfterAnother).map
      (fun s ↦ (s.atRest, s.book.processor.booksActive, s.published)) =
        some (true, 1, [.shareOfA 100]))
  obtain ⟨s', hrun', hend'⟩ := Option.map_eq_some_iff.1 (by decide +kernel :
    (StepRun.run (step fl) (init none none) runningAhead).map (fun s ↦ (s.atRest, s.published)) =
      some (true, [.shareOfA 100]))
  simp only [Prod.mk.injEq] at hend hend'
  obtain ⟨hrest, hactive, hpub⟩ := hend
  have hagree := hindep.2 _ _ s s' hrun hrun' (hpub.trans hend'.2.symm) (quiescent_of_atRest hrest)
    (quiescent_of_atRest hend'.1)
  exact ⟨s, s', hrun, hrun', hactive, hagree.1.1⟩

end Pipeline

end Mdp
