import MarketDataProcessor.Pipeline.TickPath
import Mathlib.Algebra.BigOperators.Group.List.Basic
import Mathlib.Algebra.Order.BigOperators.Group.List

/-!
# A metrics snapshot taken while the pipeline runs

`MetricsCollector::snapshot()` loads nine counters one after the other, upstream first, while the
feed and the three stages count. Every push, pop, count and load is a step of its own here, and the
consumers of the book processor's queues and stop requests may come in at any time.

Three inequalities relate a stage to its supplier: no more ticks come out of the parser, the
normalizer and the book processor, one way or another, than the feed, the parser and the normalizer
have published. They hold of the ticks themselves. Of the loaded counters they need not hold, for
two reasons. A supplier counts a tick after it has pushed it, so the stage behind it may have
counted ticks that the supplier has not. And a stage's counters are loaded after its supplier's, so
the stage may count ticks in between that the supplier's loaded count does not cover.

`Overruns` names the steps at which this happens, and `consistent_iff` says that there are no
others.

## The exact condition

`Covered` is what the snapshot will show if nothing is counted from now on: of each stage, that its
results are no more than its supply, counters not loaded yet being taken as they are. It holds at
the start and at the end says that the snapshot is consistent (`covered_iff_of_loaded`).

In between two kinds of step can break it. The load of a supplier's counter fixes that number, so it
breaks what is covered if the stage has counted a tick that the supplier has not (`covered_load`).
The count of a stage breaks it if its supplier's counter was loaded and is used up (`covered_step`).
`Overruns` is the two together, on the state before the step. `Inv.current_add_uncounted` and
`Inv.counted_le` connect counters with ticks: a supplier counts what it pushed, up to the one in its
hand, and a stage counts no more than was pushed to it. So before the loads begin nothing can be
overrun by counting alone.

Once broken an inequality stays so, since the loads are not taken back and counters only grow; that
is what makes `consistent_iff` an equivalence.
-/

namespace Mdp

/-- The counters of a `PipelineSnapshot`. -/
inductive Counter where
  | feedTicksPublished
  | feedTicksDropped
  | parserTicksProcessed
  | parserTicksRejected
  | normTicksForwarded
  | normTicksDeduplicated
  | normTicksReordered
  | bookTicksProcessed
  | bookBooksActive
  deriving DecidableEq

/-- `PipelineSnapshot`. -/
structure PipelineSnapshot where
  feedTicksPublished : ℕ
  feedTicksDropped : ℕ
  parserTicksProcessed : ℕ
  parserTicksRejected : ℕ
  normTicksForwarded : ℕ
  normTicksDeduplicated : ℕ
  normTicksReordered : ℕ
  bookTicksProcessed : ℕ
  bookBooksActive : ℕ
  snapshotTimeNs : ℤ
  deriving DecidableEq

namespace MetricsCollector

/-- The loads of `snapshot()`, in order. -/
def loadOrder : List Counter :=
  [.feedTicksPublished, .feedTicksDropped, .parserTicksProcessed, .parserTicksRejected,
    -- `normalizer_->stats()`
    .normTicksForwarded, .normTicksDeduplicated, .normTicksReordered,
    .bookTicksProcessed, .bookBooksActive]

/-- When a counter is loaded. -/
def position (c : Counter) : ℕ := loadOrder.idxOf c

/-- What `snapshot()` returns for these loads and this reading of the clock. -/
def snapshotOf (loaded : List ℕ) (now : ℤ) : PipelineSnapshot where
  feedTicksPublished := loaded.getD (position .feedTicksPublished) 0
  feedTicksDropped := loaded.getD (position .feedTicksDropped) 0
  parserTicksProcessed := loaded.getD (position .parserTicksProcessed) 0
  parserTicksRejected := loaded.getD (position .parserTicksRejected) 0
  normTicksForwarded := loaded.getD (position .normTicksForwarded) 0
  normTicksDeduplicated := loaded.getD (position .normTicksDeduplicated) 0
  normTicksReordered := loaded.getD (position .normTicksReordered) 0
  bookTicksProcessed := loaded.getD (position .bookTicksProcessed) 0
  bookBooksActive := loaded.getD (position .bookBooksActive) 0
  snapshotTimeNs := now

theorem getElem?_position (c : Counter) : loadOrder[position c]? = some c := by
  cases c <;> rfl

theorem position_of_getElem? {k : ℕ} {c : Counter} (h : loadOrder[k]? = some c) :
    position c = k := by
  obtain ⟨hk, rfl⟩ := List.getElem?_eq_some_iff.1 h
  exact List.Nodup.idxOf_getElem (by decide) k hk

end MetricsCollector

open MetricsCollector

/-! ### The feed -/

/-- Where the thread of the feed stands. -/
inductive FeedSimulator.Pc where
  /-- About to call `output_.try_push` with the next tick. -/
  | tryPush
  | countPublished
  | countDropped
  deriving DecidableEq

/-- `FeedSimulator::run`, less how it makes up its ticks. -/
structure FeedSimulator where
  pc : FeedSimulator.Pc
  ticksPublished : ℕ
  ticksDropped : ℕ

/-- How many pushed ticks the feed has not counted. -/
def FeedSimulator.uncounted (feed : FeedSimulator) : ℕ :=
  if feed.pc = .countPublished then 1 else 0

/-! ### The system -/

/-- The pipeline under the eyes of one call of `snapshot()`. -/
structure Monitored where
  feed : FeedSimulator
  path : TickPath
  stop : Stage → Bool
  /-- The loads made so far. -/
  loaded : List ℕ
  returned : Option PipelineSnapshot

namespace Monitored

/-- What can happen next. -/
inductive Action where
  | publish (tick : MarketTick)
  /-- The feed counts what became of its push. -/
  | countFeed
  | stage (stage : Stage)
  | dbPop
  | signalPop
  | requestStop (stage : Stage)
  /-- The collector loads the next counter or, after the last one, reads the clock and returns. -/
  | collect (now : ℤ)

/-- Everything started, and the call about to begin. -/
def init (dbQueue signalQueue : Option SnapshotQueue) : Monitored where
  feed := ⟨.tryPush, 0, 0⟩
  path := .init dbQueue signalQueue
  stop := fun _ ↦ false
  loaded := []
  returned := none

/-- The counters, as a load finds them. -/
def current (s : Monitored) : Counter → ℕ
  | .feedTicksPublished => s.feed.ticksPublished
  | .feedTicksDropped => s.feed.ticksDropped
  | .parserTicksProcessed => s.path.parser.forwarded
  | .parserTicksRejected => s.path.parser.dropped .rejected
  | .normTicksForwarded => s.path.normalizer.forwarded
  | .normTicksDeduplicated => s.path.normalizer.dropped .deduplicated
  | .normTicksReordered => s.path.normalizer.dropped .reordered
  | .bookTicksProcessed => s.path.book.processor.ticksProcessed
  | .bookBooksActive => s.path.book.processor.booksActive

/-- One action. -/
def step (fl : FloatEnv) (s : Monitored) : Action → Option Monitored
  | .publish tick =>
    match s.feed.pc with
    | .tryPush =>
      match s.path.feed tick with
      | some path => some { s with path, feed.pc := .countPublished }
      | none => some { s with feed.pc := .countDropped }
    | _ => none
  | .countFeed =>
    match s.feed.pc with
    | .tryPush => none
    | .countPublished =>
      some { s with feed.pc := .tryPush, feed.ticksPublished := s.feed.ticksPublished + 1 }
    | .countDropped =>
      some { s with feed.pc := .tryPush, feed.ticksDropped := s.feed.ticksDropped + 1 }
  | .stage stage => some { s with path := s.path.advance fl s.stop stage }
  | .dbPop => s.path.dbQueue.tryPop.map fun popped ↦ { s with path := s.path.withDb popped.2 }
  | .signalPop =>
    s.path.signalQueue.tryPop.map fun popped ↦ { s with path := s.path.withSignal popped.2 }
  | .requestStop stage => some { s with stop := Function.update s.stop stage true }
  | .collect now =>
    match loadOrder[s.loaded.length]? with
    | some c => some { s with loaded := s.loaded ++ [s.current c] }
    | none =>
      match s.returned with
      | none => some { s with returned := some (snapshotOf s.loaded now) }
      | some _ => none

/-! ### Suppliers and results -/

end Monitored

namespace Stage

/-- The counter of what was published to the stage. -/
def supply : Stage → Counter
  | parser => .feedTicksPublished
  | normalizer => .parserTicksProcessed
  | book => .normTicksForwarded

/-- The counters of what came out of the stage. -/
def results : Stage → List Counter
  | parser => [.parserTicksProcessed, .parserTicksRejected]
  | normalizer => [.normTicksForwarded, .normTicksDeduplicated, .normTicksReordered]
  | book => [.bookTicksProcessed]

/-- A stage's results are loaded after its supply. -/
theorem position_lt (stage : Stage) : ∀ c ∈ stage.results, position stage.supply < position c := by
  cases stage <;> decide

theorem ne_booksActive (stage : Stage) :
    stage.supply ≠ .bookBooksActive ∧ ∀ c ∈ stage.results, c ≠ .bookBooksActive := by
  cases stage <;> decide

end Stage

namespace Monitored

/-- The ticks that were pushed to a stage. -/
def supplied (s : Monitored) : Stage → List MarketTick
  | .parser => s.path.fed
  | .normalizer => pushedOf s.path.parser.fates
  | .book => pushedOf s.path.normalizer.fates

/-- How many of them the supplier has not counted: one between its push and its count. -/
def uncounted (s : Monitored) : Stage → ℕ
  | .parser => s.feed.uncounted
  | .normalizer => s.path.parser.pc.holding.uncountedPush
  | .book => s.path.normalizer.pc.holding.uncountedPush

/-- What a stage has counted. -/
def counted (s : Monitored) (stage : Stage) : ℕ := (stage.results.map s.current).sum

/-- The invariant: the path accounts for its ticks, the feed for its pushes, and a snapshot that was
returned holds the loads. -/
structure Inv (fl : FloatEnv) (dbQueue signalQueue : Option SnapshotQueue) (s : Monitored) :
    Prop where
  path : s.path.Flow fl dbQueue signalQueue
  feed : s.feed.ticksPublished + s.feed.uncounted = s.path.fed.length
  returned : ∀ snap ∈ s.returned,
    (∃ now, snap = snapshotOf s.loaded now) ∧ loadOrder.length ≤ s.loaded.length

variable {fl : FloatEnv} {dbQueue signalQueue : Option SnapshotQueue} {s t : Monitored} {a : Action}

theorem inv_init : (init dbQueue signalQueue).Inv fl dbQueue signalQueue :=
  ⟨TickPath.flow_init, rfl, fun snap h ↦ by simp [init] at h⟩

/-- **A supplier counts what it pushed, up to one.** -/
theorem Inv.current_add_uncounted (h : s.Inv fl dbQueue signalQueue) (stage : Stage) :
    s.current stage.supply + s.uncounted stage = (s.supplied stage).length := by
  cases stage with
  | parser => exact h.feed
  | normalizer =>
    obtain ⟨judged, haccounts⟩ := h.path.parser
    exact haccounts.forwarded.symm
  | book =>
    obtain ⟨judged, haccounts⟩ := h.path.normalizer
    exact haccounts.forwarded.symm

/-- **A stage counts no more than was pushed to it.** -/
theorem Inv.counted_le (h : s.Inv fl dbQueue signalQueue) (stage : Stage) :
    s.counted stage ≤ (s.supplied stage).length := by
  obtain ⟨hparser, hnorm, hbook, hraw, hparsed, hnormalized⟩ := h.path
  cases stage with
  | parser =>
    obtain ⟨judged, haccounts⟩ := hparser
    have hle := haccounts.forwarded_add_le
    have hdropped := haccounts.dropped .rejected
    rw [TickParser.length_dropsOf_stage] at hle
    show s.path.parser.forwarded + (s.path.parser.dropped .rejected + 0) ≤ s.path.fed.length
    rw [← hraw, List.length_append]
    omega
  | normalizer =>
    obtain ⟨judged, haccounts⟩ := hnorm
    have hle := haccounts.forwarded_add_le
    have hdedup := haccounts.dropped .deduplicated
    have hreord := haccounts.dropped .reordered
    rw [Normalizer.length_dropsOf_stage] at hle
    show s.path.normalizer.forwarded + (s.path.normalizer.dropped .deduplicated +
      (s.path.normalizer.dropped .reordered + 0)) ≤ (pushedOf s.path.parser.fates).length
    rw [← hparsed, List.length_append]
    omega
  | book =>
    have hcounted := hbook.counted
    show s.path.book.processor.ticksProcessed + 0 ≤ (pushedOf s.path.normalizer.fates).length
    rw [← hnormalized, hbook.popped, List.length_append, List.length_append]
    omega

/-! ### What an action counts -/

/-- By how much an action increases a counter. -/
def increment (s : Monitored) : Action → Counter → ℕ
  | .countFeed, .feedTicksPublished => s.feed.uncounted
  | .countFeed, .feedTicksDropped => if s.feed.pc = .countDropped then 1 else 0
  | .stage .parser, .parserTicksProcessed => s.path.parser.pc.holding.uncountedPush
  | .stage .parser, .parserTicksRejected => s.path.parser.pc.holding.uncountedDrop.count .rejected
  | .stage .normalizer, .normTicksForwarded => s.path.normalizer.pc.holding.uncountedPush
  | .stage .normalizer, .normTicksDeduplicated =>
    s.path.normalizer.pc.holding.uncountedDrop.count .deduplicated
  | .stage .normalizer, .normTicksReordered =>
    s.path.normalizer.pc.holding.uncountedDrop.count .reordered
  | .stage .book, .bookTicksProcessed => s.path.book.pc.uncounted
  | _, _ => 0

/-- The thread of a stage counts one tick at most. -/
theorem sum_increment_le (s : Monitored) (a : Action) (stage : Stage) :
    (stage.results.map (s.increment a)).sum ≤ 1 := by
  have hparser : s.path.parser.pc.holding.uncountedPush +
      s.path.parser.pc.holding.uncountedDrop.count .rejected ≤ 1 := by
    cases s.path.parser.pc.holding with
    | drop why => cases why; decide
    | _ => simp [Holding.uncountedPush, Holding.uncountedDrop]
  have hnorm : s.path.normalizer.pc.holding.uncountedPush +
      (s.path.normalizer.pc.holding.uncountedDrop.count .deduplicated +
        s.path.normalizer.pc.holding.uncountedDrop.count .reordered) ≤ 1 := by
    cases s.path.normalizer.pc.holding with
    | drop why => cases why <;> decide
    | _ => simp [Holding.uncountedPush, Holding.uncountedDrop]
  have hbook : s.path.book.pc.uncounted ≤ 1 := by
    cases s.path.book.pc <;> simp [BookWorker.Pc.uncounted]
  rcases a with _ | _ | (_ | _ | _) | _ | _ | _ | _ <;> cases stage <;>
    first | exact Nat.zero_le _ | exact hparser | exact hnorm | exact hbook

/-- A feed that counts, counts what it pushed. -/
theorem feed_of_countFeed (hstep : s.step fl .countFeed = some t) :
    t.feed.ticksPublished = s.feed.ticksPublished + s.feed.uncounted ∧
      t.feed.ticksDropped =
        s.feed.ticksDropped + (if s.feed.pc = .countDropped then 1 else 0) ∧
      t.feed.uncounted = 0 ∧ t.path = s.path ∧ t.loaded = s.loaded ∧ t.returned = s.returned := by
  simp only [step] at hstep
  split at hstep
  next => simp at hstep
  next hpc =>
    obtain rfl := Option.some.inj hstep
    rw [FeedSimulator.uncounted, hpc]
    exact ⟨rfl, rfl, rfl, rfl, rfl, rfl⟩
  next hpc =>
    obtain rfl := Option.some.inj hstep
    rw [FeedSimulator.uncounted, hpc]
    exact ⟨rfl, rfl, rfl, rfl, rfl, rfl⟩

/-- A feed that publishes has nothing uncounted before. -/
theorem feed_of_publish {tick : MarketTick} (hstep : s.step fl (.publish tick) = some t) :
    s.feed.uncounted = 0 ∧
      ((∃ path, s.path.feed tick = some path ∧
          t = { s with path, feed.pc := .countPublished }) ∨
        t = { s with feed.pc := .countDropped }) := by
  simp only [step] at hstep
  split at hstep
  next hpc =>
    refine ⟨by rw [FeedSimulator.uncounted, hpc]; rfl, ?_⟩
    split at hstep
    next path hfeed => exact Or.inl ⟨path, hfeed, (Option.some.inj hstep).symm⟩
    next => exact Or.inr (Option.some.inj hstep).symm
  next => simp at hstep

/-- **The actions of the pipeline**: they count as `increment` has it and leave the loads alone. -/
theorem current_of_step (ha : ∀ now, a ≠ .collect now) (hstep : s.step fl a = some t) :
    t.loaded = s.loaded ∧ t.returned = s.returned ∧
      ∀ c, c ≠ .bookBooksActive → t.current c = s.current c + s.increment a c := by
  cases a with
  | publish tick =>
    rcases (feed_of_publish hstep).2 with ⟨path, hfeed, rfl⟩ | rfl
    · obtain ⟨_, -, rfl⟩ := Option.map_eq_some_iff.1 hfeed
      exact ⟨rfl, rfl, fun c _ ↦ by cases c <;> rfl⟩
    · exact ⟨rfl, rfl, fun c _ ↦ by cases c <;> rfl⟩
  | countFeed =>
    obtain ⟨hpublished, hdropped, -, hpath, hloaded, hreturned⟩ := feed_of_countFeed hstep
    refine ⟨hloaded, hreturned, fun c _ ↦ ?_⟩
    cases c with
    | feedTicksPublished => exact hpublished
    | feedTicksDropped => exact hdropped
    | _ => simp only [current, hpath]; rfl
  | stage stage =>
    obtain rfl := Option.some.inj hstep
    refine ⟨rfl, rfl, fun c hc ↦ ?_⟩
    cases stage with
    | parser =>
      obtain ⟨hforwarded, hdropped⟩ := (s.path.parser.step_rule TickParser.stage
        (s.stop .parser) s.path.raw s.path.parsed).counters
      cases c with
      | parserTicksProcessed => exact hforwarded
      | parserTicksRejected => exact hdropped .rejected
      | _ => rfl
    | normalizer =>
      obtain ⟨hforwarded, hdropped⟩ := (s.path.normalizer.step_rule Normalizer.stage
        (s.stop .normalizer) s.path.parsed s.path.normalized).counters
      cases c with
      | normTicksForwarded => exact hforwarded
      | normTicksDeduplicated => exact hdropped .deduplicated
      | normTicksReordered => exact hdropped .reordered
      | _ => rfl
    | book =>
      have hcounted :=
        (s.path.book.step_rule fl (s.stop .book) s.path.normalized).ticksProcessed
      cases c with
      | bookTicksProcessed => exact hcounted
      | bookBooksActive => exact absurd rfl hc
      | _ => rfl
  | dbPop =>
    obtain ⟨_, -, rfl⟩ := Option.map_eq_some_iff.1 hstep
    exact ⟨rfl, rfl, fun c _ ↦ by cases c <;> rfl⟩
  | signalPop =>
    obtain ⟨_, -, rfl⟩ := Option.map_eq_some_iff.1 hstep
    exact ⟨rfl, rfl, fun c _ ↦ by cases c <;> rfl⟩
  | requestStop stage =>
    obtain rfl := Option.some.inj hstep
    exact ⟨rfl, rfl, fun c _ ↦ by cases c <;> rfl⟩
  | collect now => exact absurd rfl (ha now)

/-- **The actions of the collector**: it loads the next counter, or returns what it loaded. -/
theorem collect_cases {now : ℤ} (hstep : s.step fl (.collect now) = some t) :
    (∃ c, loadOrder[s.loaded.length]? = some c ∧
        t = { s with loaded := s.loaded ++ [s.current c] }) ∨
      (loadOrder[s.loaded.length]? = none ∧ s.returned = none ∧
        t = { s with returned := some (snapshotOf s.loaded now) }) := by
  simp only [step] at hstep
  split at hstep
  next c hc => exact Or.inl ⟨c, hc, (Option.some.inj hstep).symm⟩
  next hnone =>
    split at hstep
    next hret => exact Or.inr ⟨hnone, hret, (Option.some.inj hstep).symm⟩
    next => simp at hstep

/-- **Every action keeps the invariant.** -/
theorem Inv.step (h : s.Inv fl dbQueue signalQueue) (hstep : s.step fl a = some t) :
    t.Inv fl dbQueue signalQueue := by
  have hreturned : (∀ now, a ≠ .collect now) →
      ∀ snap ∈ t.returned,
        (∃ now, snap = snapshotOf t.loaded now) ∧ loadOrder.length ≤ t.loaded.length := by
    intro ha
    obtain ⟨hloaded, hsame, -⟩ := current_of_step ha hstep
    rw [hloaded, hsame]
    exact h.returned
  cases a with
  | publish tick =>
    obtain ⟨hnone, ⟨path, hfeed, rfl⟩ | rfl⟩ := feed_of_publish hstep
    · refine ⟨h.path.feed hfeed, ?_, hreturned (by simp)⟩
      obtain ⟨_, -, rfl⟩ := Option.map_eq_some_iff.1 hfeed
      show s.feed.ticksPublished + 1 = (s.path.fed ++ [tick]).length
      rw [List.length_append, ← h.feed, hnone]
      rfl
    · refine ⟨h.path, ?_, hreturned (by simp)⟩
      rw [← h.feed, hnone]
      rfl
  | countFeed =>
    obtain ⟨hpublished, -, hnone, hpath, -, -⟩ := feed_of_countFeed hstep
    refine ⟨hpath ▸ h.path, ?_, hreturned (by simp)⟩
    rw [hpublished, hnone, hpath]
    exact h.feed
  | stage stage =>
    obtain rfl := Option.some.inj hstep
    refine ⟨h.path.advance (s.path.advance_rule fl s.stop stage), ?_, hreturned (by simp)⟩
    cases stage <;> exact h.feed
  | dbPop =>
    obtain ⟨_, -, rfl⟩ := Option.map_eq_some_iff.1 hstep
    exact ⟨h.path.withDb _, h.feed, hreturned (by simp)⟩
  | signalPop =>
    obtain ⟨_, -, rfl⟩ := Option.map_eq_some_iff.1 hstep
    exact ⟨h.path.withSignal _, h.feed, hreturned (by simp)⟩
  | requestStop stage =>
    obtain rfl := Option.some.inj hstep
    exact ⟨h.path, h.feed, hreturned (by simp)⟩
  | collect now =>
    rcases collect_cases hstep with ⟨c, hc, rfl⟩ | ⟨hnone, -, rfl⟩
    · refine ⟨h.path, h.feed, fun snap hsnap ↦ ?_⟩
      -- nothing is loaded after the return
      rw [List.getElem?_eq_none_iff.2 (h.returned snap hsnap).2] at hc
      simp at hc
    · refine ⟨h.path, h.feed, fun snap hsnap ↦ ?_⟩
      rw [← Option.mem_some_iff.1 hsnap]
      exact ⟨⟨now, rfl⟩, List.getElem?_eq_none_iff.1 hnone⟩

/-! ### Loads and what they cover -/

/-- The load of a counter, if it was made. -/
def value (s : Monitored) (c : Counter) : Option ℕ := s.loaded[position c]?

/-- A counter as the snapshot shows it if nothing is counted from now on. -/
def shown (s : Monitored) (c : Counter) : ℕ := (s.value c).getD (s.current c)

/-- The results of a stage as the snapshot shows them if nothing is counted from now on. -/
def shownResults (s : Monitored) (stage : Stage) : ℕ := (stage.results.map s.shown).sum

/-- **The steps that make a snapshot inconsistent.** -/
inductive Overruns (s : Monitored) : Action → Prop
  /-- A supplier's counter is loaded between a push and its count, when the stage behind it has
  counted every tick pushed to it. -/
  | load (now : ℤ) (stage : Stage) : loadOrder[s.loaded.length]? = some stage.supply →
    s.uncounted stage = 1 → (s.supplied stage).length ≤ s.counted stage →
    Overruns s (.collect now)
  /-- A stage counts, where the collector has yet to look, a tick beyond those its supplier's loaded
  counter covers. -/
  | count (a : Action) (stage : Stage) (c : Counter) (v : ℕ) : s.value stage.supply = some v →
    v ≤ s.shownResults stage → c ∈ stage.results → s.value c = none → 0 < s.increment a c →
    Overruns s a

/-- What is loaded of the suppliers covers what is shown of the stages. -/
def Covered (s : Monitored) : Prop :=
  ∀ stage v, s.value stage.supply = some v → s.shownResults stage ≤ v

/-! ### One load, one count -/

theorem uncounted_le (s : Monitored) (stage : Stage) : s.uncounted stage ≤ 1 := by
  cases stage with
  | parser =>
    show s.feed.uncounted ≤ 1
    rw [FeedSimulator.uncounted]
    split_ifs <;> decide
  | normalizer =>
    show s.path.parser.pc.holding.uncountedPush ≤ 1
    cases s.path.parser.pc.holding <;> simp [Holding.uncountedPush]
  | book =>
    show s.path.normalizer.pc.holding.uncountedPush ≤ 1
    cases s.path.normalizer.pc.holding <;> simp [Holding.uncountedPush]

section Load

variable {c : Counter} (hc : loadOrder[s.loaded.length]? = some c)

include hc

/-- A load sets the value of its counter. -/
theorem value_load (c' : Counter) :
    ({ s with loaded := s.loaded ++ [s.current c] } : Monitored).value c' =
      if c' = c then some (s.current c) else s.value c' := by
  have hpos := position_of_getElem? hc
  show (s.loaded ++ [s.current c])[position c']? = _
  split_ifs with heq
  · rw [heq, hpos, List.getElem?_append_right (Nat.le_refl _), Nat.sub_self]
    rfl
  · have hne : position c' ≠ s.loaded.length := fun hsame ↦ heq (by
      have := getElem?_position c'
      rw [hsame, hc] at this
      exact (Option.some.inj this).symm)
    rw [value]
    by_cases hlt : position c' < s.loaded.length
    · rw [List.getElem?_append_left hlt]
    · have hlong : (s.loaded ++ [s.current c]).length ≤ position c' := by
        rw [List.length_append, List.length_singleton]
        omega
      rw [List.getElem?_eq_none_iff.2 hlong]
      exact (List.getElem?_eq_none_iff.2 (Nat.le_of_not_lt hlt)).symm

/-- Before its load a counter has no value. -/
theorem value_eq_none {c' : Counter} (h : position c ≤ position c') : s.value c' = none := by
  rw [position_of_getElem? hc] at h
  exact List.getElem?_eq_none_iff.2 h

/-- A load shows nothing new. -/
theorem shown_load :
    ({ s with loaded := s.loaded ++ [s.current c] } : Monitored).shown = s.shown := by
  funext c'
  have hsame : ({ s with loaded := s.loaded ++ [s.current c] } : Monitored).current c' =
      s.current c' := by cases c' <;> rfl
  rw [shown, shown, value_load hc, hsame]
  split_ifs with heq
  · rw [heq, value_eq_none hc (Nat.le_refl _)]
    rfl
  · rfl

/-- What is shown of a stage whose supplier is about to be loaded is what it has counted. -/
theorem shownResults_of_supply {stage : Stage} (hsupply : stage.supply = c) :
    s.shownResults stage = s.counted stage := by
  refine congrArg List.sum (List.map_congr_left fun c' hc' ↦ ?_)
  rw [shown, value_eq_none hc (hsupply ▸ (stage.position_lt c' hc').le)]
  rfl

/-- **A load keeps the snapshot consistent unless it overruns.** -/
theorem covered_load (h : s.Inv fl dbQueue signalQueue) (now : ℤ) :
    ({ s with loaded := s.loaded ++ [s.current c] } : Monitored).Covered ↔
      s.Covered ∧ ¬ s.Overruns (.collect now) := by
  have hresults : ∀ stage, ({ s with loaded := s.loaded ++ [s.current c] } : Monitored).shownResults
      stage = s.shownResults stage := fun stage ↦ by rw [shownResults, shown_load hc, shownResults]
  constructor
  · intro hcov
    refine ⟨fun stage v hv ↦ ?_, fun hover ↦ ?_⟩
    · rw [← hresults]
      refine hcov stage v ?_
      rw [value_load hc, if_neg, hv]
      rintro rfl
      rw [value_eq_none hc (Nat.le_refl _)] at hv
      simp at hv
    · cases hover with
      | load _ stage hsupply hone hle =>
        obtain rfl : c = stage.supply := Option.some.inj (hc.symm.trans hsupply)
        have hbound := hcov stage _ (by rw [value_load hc, if_pos rfl])
        have hsum := h.current_add_uncounted stage
        rw [hresults, shownResults_of_supply hc rfl] at hbound
        omega
      | count _ _ c' _ _ _ _ _ hpos => exact absurd hpos (Nat.lt_irrefl 0)
  · rintro ⟨hcov, hover⟩ stage v hv
    rw [hresults]
    rw [value_load hc] at hv
    split_ifs at hv with hsupply
    · -- the stage has counted no more than its supplier, or the load overran
      rw [shownResults_of_supply hc hsupply, ← Option.some.inj hv, ← hsupply]
      by_contra hlt
      have hsum := h.current_add_uncounted stage
      have hle := h.counted_le stage
      have hone := s.uncounted_le stage
      exact hover (.load now stage (hsupply ▸ hc) (by omega) (by omega))
    · exact hcov stage v hv

end Load

/-- **An action of the pipeline keeps the snapshot consistent unless it overruns.** -/
theorem covered_step (ha : ∀ now, a ≠ .collect now) (hstep : s.step fl a = some t) :
    t.Covered ↔ s.Covered ∧ ¬ s.Overruns a := by
  obtain ⟨hloaded, -, hcurrent⟩ := current_of_step ha hstep
  have hvalue : t.value = s.value := funext fun c ↦ by rw [value, value, hloaded]
  let fresh : Counter → ℕ := fun c ↦ if s.value c = none then s.increment a c else 0
  have hshown : ∀ stage, t.shownResults stage =
      s.shownResults stage + (stage.results.map fresh).sum := by
    intro stage
    rw [shownResults, shownResults, ← List.sum_map_add]
    refine congrArg List.sum (List.map_congr_left fun c hc ↦ ?_)
    rw [shown, shown, hvalue, hcurrent c (stage.ne_booksActive.2 c hc)]
    show _ = _ + if s.value c = none then _ else 0
    cases s.value c <;> simp
  have hfresh : ∀ stage : Stage, (stage.results.map fresh).sum ≤ 1 := by
    intro stage
    refine (List.sum_le_sum fun c _ ↦ ?_).trans (s.sum_increment_le a stage)
    show (if s.value c = none then s.increment a c else 0) ≤ s.increment a c
    split_ifs
    · exact Nat.le_refl _
    · exact Nat.zero_le _
  have hpos : ∀ stage : Stage, 0 < (stage.results.map fresh).sum ↔
      ∃ c ∈ stage.results, s.value c = none ∧ 0 < s.increment a c := by
    intro stage
    simp only [List.sum_pos_iff_exists_pos_nat, List.mem_map, exists_exists_and_eq_and]
    refine exists_congr fun c ↦ and_congr_right fun _ ↦ ?_
    show 0 < (if s.value c = none then s.increment a c else 0) ↔ _
    split_ifs with hnone <;> simp [hnone]
  constructor
  · intro hcov
    refine ⟨fun stage v hv ↦ ?_, fun hover ↦ ?_⟩
    · have := hcov stage v (by rw [hvalue, hv])
      rw [hshown] at this
      omega
    · cases hover with
      | load now => exact ha now rfl
      | count _ stage c v hv hle hc hnone hinc =>
        have hbound := hcov stage v (by rw [hvalue, hv])
        have := (hpos stage).2 ⟨c, hc, hnone, hinc⟩
        rw [hshown] at hbound
        omega
  · rintro ⟨hcov, hover⟩ stage v hv
    rw [hvalue] at hv
    have hbound := hcov stage v hv
    rw [hshown]
    by_contra hlt
    have hle := hfresh stage
    obtain ⟨c, hc, hnone, hinc⟩ := (hpos stage).1 (by omega)
    exact hover (.count a stage c v hv (by omega) hc hnone hinc)

/-! ### Whole runs -/

/-- **Every action keeps the snapshot consistent unless it overruns.** -/
theorem Inv.covered_iff (h : s.Inv fl dbQueue signalQueue) (hstep : s.step fl a = some t) :
    t.Covered ↔ s.Covered ∧ ¬ s.Overruns a := by
  by_cases ha : ∀ now, a ≠ .collect now
  · exact covered_step ha hstep
  · obtain ⟨now, hnow⟩ := not_forall.1 ha
    obtain rfl := not_not.1 hnow
    rcases collect_cases hstep with ⟨c, hc, rfl⟩ | ⟨hnone, -, rfl⟩
    · exact covered_load hc h now
    · -- the return loads nothing
      refine ⟨fun hcov ↦ ⟨hcov, fun hover ↦ ?_⟩, fun hcov ↦ hcov.1⟩
      cases hover with
      | load _ stage hsupply => simp [hnone] at hsupply
      | count _ _ c' _ _ _ _ _ hpos => exact absurd hpos (Nat.lt_irrefl 0)

/-- Once everything is loaded, what is covered is what the snapshot says. -/
theorem covered_iff_of_loaded (now : ℤ) (hlen : loadOrder.length ≤ s.loaded.length) :
    let snap := snapshotOf s.loaded now
    s.Covered ↔
      snap.parserTicksProcessed + snap.parserTicksRejected ≤ snap.feedTicksPublished ∧
        snap.normTicksForwarded + snap.normTicksDeduplicated + snap.normTicksReordered ≤
          snap.parserTicksProcessed ∧
        snap.bookTicksProcessed ≤ snap.normTicksForwarded := by
  have hvalue : ∀ c, s.value c = some (s.loaded.getD (position c) 0) := by
    intro c
    have hlt : position c < s.loaded.length :=
      Nat.lt_of_lt_of_le (List.getElem?_eq_some_iff.1 (getElem?_position c)).1 hlen
    rw [value, List.getD_eq_getElem?_getD, List.getElem?_eq_getElem hlt]
    rfl
  have hshown : ∀ c, s.shown c = s.loaded.getD (position c) 0 := by
    intro c
    rw [shown, hvalue]
    rfl
  have hstage : ∀ stage : Stage,
      (∀ v, s.value stage.supply = some v → s.shownResults stage ≤ v) ↔
        s.shownResults stage ≤ s.loaded.getD (position stage.supply) 0 := by
    intro stage
    rw [hvalue]
    exact ⟨fun h ↦ h _ rfl, fun h v hv ↦ Option.some.inj hv ▸ h⟩
  have hall : s.Covered ↔ ∀ stage : Stage,
      s.shownResults stage ≤ s.loaded.getD (position stage.supply) 0 :=
    forall_congr' hstage
  intro snap
  have hparser : s.shownResults .parser = snap.parserTicksProcessed + snap.parserTicksRejected := by
    simp [shownResults, Stage.results, hshown, snap, snapshotOf]
  have hnorm : s.shownResults .normalizer = snap.normTicksForwarded + snap.normTicksDeduplicated +
      snap.normTicksReordered := by
    simp [shownResults, Stage.results, hshown, snap, snapshotOf, Nat.add_assoc]
  have hbook : s.shownResults .book = snap.bookTicksProcessed := by
    simp [shownResults, Stage.results, hshown, snap, snapshotOf]
  rw [hall, ← hparser, ← hnorm, ← hbook]
  refine ⟨fun h ↦ ⟨h .parser, h .normalizer, h .book⟩, fun h stage ↦ ?_⟩
  cases stage with
  | parser => exact h.1
  | normalizer => exact h.2.1
  | book => exact h.2.2

/-- **When a live snapshot is causally consistent.** In every interleaving of the feed, the stages,
the consumers, stop requests and the loads of one call of `snapshot()`: the snapshot it returns
satisfies the three inequalities exactly when no step overran, that is, when no supplier's counter
was loaded between a push and its count with the stage behind it having counted that tick, and no
stage counted, before its own counter was loaded, a tick beyond its supplier's load. -/
theorem consistent_iff {acts : List Action} {snap : PipelineSnapshot}
    (h : StepRun.run (step fl) (init dbQueue signalQueue) acts = some s)
    (hret : s.returned = some snap) :
    (snap.parserTicksProcessed + snap.parserTicksRejected ≤ snap.feedTicksPublished ∧
        snap.normTicksForwarded + snap.normTicksDeduplicated + snap.normTicksReordered ≤
          snap.parserTicksProcessed ∧
        snap.bookTicksProcessed ≤ snap.normTicksForwarded) ↔
      StepRun.Avoids (step fl) Overruns (init dbQueue signalQueue) acts := by
  have hinv : s.Inv fl dbQueue signalQueue :=
    StepRun.run_invariant (fun _ _ _ hs hstep ↦ hs.step hstep) inv_init h
  obtain ⟨⟨now, rfl⟩, hlen⟩ := hinv.returned snap hret
  refine (covered_iff_of_loaded now hlen).symm.trans ?_
  refine StepRun.run_holds_iff (I := Inv fl dbQueue signalQueue)
    (fun u a v hu hstep ↦ ⟨hu.step hstep, hu.covered_iff hstep⟩) inv_init ?_ h
  exact fun stage v hv ↦ by simp [init, value] at hv

/-- The feed pushes a tick and the parser takes it all the way through. -/
def parseOne : List Action :=
  .publish (.shareOfA 100) :: List.replicate 6 (.stage .parser)

/-- The loads of one call, with nothing in between. -/
def snapshotCall : List Action := List.replicate 10 (.collect 0)

/-- A tick that is counted by the feed before the call: one published, one processed. -/
theorem consistent_after_count :
    let fl := FloatEnv.exact fun _ ↦ 0
    ∃ s snap, StepRun.run (step fl) (init none none) (parseOne ++ [.countFeed] ++ snapshotCall) =
        some s ∧ s.returned = some snap ∧
      (snap.feedTicksPublished = 1 ∧ snap.parserTicksProcessed = 1) ∧
      StepRun.Avoids (step fl) Overruns (init none none)
        (parseOne ++ [.countFeed] ++ snapshotCall) := by
  intro fl
  obtain ⟨s, hrun, hend⟩ := Option.map_eq_some_iff.1 (by decide +kernel :
    (StepRun.run (step fl) (init none none) (parseOne ++ [.countFeed] ++ snapshotCall)).map
      (fun s ↦ s.returned) = some (some ⟨1, 0, 1, 0, 0, 0, 0, 0, 0, 0⟩))
  exact ⟨s, _, hrun, hend, ⟨rfl, rfl⟩, (consistent_iff hrun hend).1 (by decide)⟩

/-- **A live snapshot can show more ticks processed than published.** The feed has pushed a tick and
not counted it; the parser has counted it; then the counters are loaded. -/
theorem snapshot_inconsistent :
    ¬ ∀ (fl : FloatEnv) (dbQueue signalQueue : Option SnapshotQueue) (acts : List Action)
        (s : Monitored) (snap : PipelineSnapshot),
        StepRun.run (step fl) (init dbQueue signalQueue) acts = some s → s.returned = some snap →
        snap.parserTicksProcessed + snap.parserTicksRejected ≤ snap.feedTicksPublished ∧
          snap.normTicksForwarded + snap.normTicksDeduplicated + snap.normTicksReordered ≤
            snap.parserTicksProcessed ∧
          snap.bookTicksProcessed ≤ snap.normTicksForwarded := by
  intro hall
  obtain ⟨s, hrun, hend⟩ := Option.map_eq_some_iff.1 (by decide +kernel :
    (StepRun.run (step (FloatEnv.exact fun _ ↦ 0)) (init none none) (parseOne ++ snapshotCall)).map
      (fun s ↦ s.returned) = some (some ⟨0, 0, 1, 0, 0, 0, 0, 0, 0, 0⟩))
  exact absurd (hall _ none none _ s _ hrun hend).1 (by decide)

end Monitored

end Mdp
