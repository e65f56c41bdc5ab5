import MarketDataProcessor.Pipeline.TickPath
import MarketDataProcessor.Strategy.EngineWorker

/-!
# The published streams are in order

The path of a tick with the signal engine behind it, consumers that take from the database queue and
the alert queue whenever they like, and stop requests to any of the four threads at any step.

The order of a symbol's snapshots comes from two places. Timestamps are ordered by the normalizer,
and a part of an ordered sequence is ordered, so whatever is dropped between the normalizer and a
queue does no harm. Sequence numbers are the book's count of updates, which every tick of the symbol
increases (`updatesApplied_processTick`), refused updates included.

The two are keyed differently: the normalizer by the eight bytes of a symbol, the books by the
string before the first NUL. That is where the padding of the raw symbols is used.

## What the order rests on

* `pairwise_normalize`: the normalizer forwards the ticks of a symbol in the order of their
  timestamps, whatever it is given.
* `TickPath.Flow.applied_sublist`: what a book is given is a part of that, whatever was lost to stop
  requests.
* `pairwise_offers`: ordered ticks make ordered offers. The sequence number of an offer has been
  reached by its book, and the next offer of the same book has a larger one, since a tick is counted
  before it is published.

A queue holds a part of the offers and a consumer takes a prefix of the queue, so both keep the
order, and the engine sends one signal for each snapshot it takes.
-/

namespace Mdp

open BookProcessor BookRun History

/-! ### The offers of a book processor -/

/-- Two snapshots of one symbol, in the order in which a stream shows them. -/
def InOrder (a b : MarketSnapshot) : Prop :=
  a.sequence < b.sequence ∧ a.timestampNs ≤ b.timestampNs

section Offers

variable {fl : FloatEnv} {dbQueue signalQueue : Option SnapshotQueue} {ticks : List MarketTick}

/-- Every offer was called for by a tick, and the book's count has reached its sequence number. -/
theorem mem_offers {snap : MarketSnapshot}
    (h : snap ∈ (offering fl).outputs (fresh dbQueue signalQueue) ticks) :
    (∃ tick ∈ ticks, snap.symbol = tick.symbol ∧ snap.timestampNs = tick.timestampNs) ∧
      snap.sequence ≤ (((offering fl).state (fresh dbQueue signalQueue) ticks).bookOf
        snap.symbol.key).updatesApplied := by
  induction ticks using List.reverseRecOn with
  | nil => exact absurd h List.not_mem_nil
  | append_singleton ticks tick ih =>
    rw [Transducer.outputs_concat, List.mem_append] at h
    rw [Transducer.state_concat]
    show _ ∧ snap.sequence ≤ ((processTick fl _ tick).bookOf _).updatesApplied
    rcases h with h | h
    · obtain ⟨⟨tick', hmem, hstamp⟩, hle⟩ := ih h
      refine ⟨⟨tick', List.mem_append_left _ hmem, hstamp⟩, hle.trans ?_⟩
      rw [updatesApplied_processTick]
      exact Int.ofNat_le.2 (Nat.le_add_right _ _)
    · obtain ⟨hsym, htime, hseq⟩ := stamp_of_offered fl _ tick (Option.mem_toList.1 h)
      refine ⟨⟨tick, List.mem_append_right _ List.mem_cons_self, hsym, htime⟩, ?_⟩
      rw [hsym]
      exact hseq.le

/-- **The offers for a symbol are in order** when its ticks are. -/
theorem pairwise_offers
    (h : ticks.Pairwise fun a b ↦ a.symbol.key = b.symbol.key → a.timestampNs ≤ b.timestampNs) :
    ((offering fl).outputs (fresh dbQueue signalQueue) ticks).Pairwise
      fun a b ↦ a.symbol.key = b.symbol.key → InOrder a b := by
  induction ticks using List.reverseRecOn with
  | nil => exact List.Pairwise.nil
  | append_singleton ticks tick ih =>
    obtain ⟨hticks, -, hlast⟩ := List.pairwise_append.1 h
    rw [Transducer.outputs_concat]
    refine List.pairwise_append.2 ⟨ih hticks, ?_, fun old hold new hnew hkey ↦ ?_⟩
    · show (offered fl _ tick).toList.Pairwise _
      cases offered fl _ tick with
      | none => exact List.Pairwise.nil
      | some snap => exact List.pairwise_singleton _ _
    · obtain ⟨hsym, htime, hseq⟩ := stamp_of_offered fl _ tick (Option.mem_toList.1 hnew)
      obtain ⟨⟨tick', hmem, hsym', htime'⟩, hle⟩ := mem_offers hold
      -- the book had counted the old one before it counted the new one
      rw [hsym] at hkey
      rw [updatesApplied_processTick, if_pos rfl, Nat.cast_add, Nat.cast_one] at hseq
      rw [hkey] at hle
      refine ⟨by omega, ?_⟩
      rw [htime, htime']
      exact hlast tick' hmem tick List.mem_cons_self (by rw [← hsym', hkey])

end Offers

/-! ### The system -/

/-- The path, the signal engine and its output, with the stop flags of the four threads. -/
structure Streams where
  path : TickPath
  engine : EngineWorker
  /-- `SignalRingBuffer4K`. -/
  alerts : BoundedQueue Signal 4096
  stop : Stage → Bool
  engineStop : Bool

namespace Streams

/-- What can happen next. -/
inductive Action where
  | feed (tick : MarketTick)
  | stage (stage : Stage)
  | engine
  /-- The database writer takes a snapshot. -/
  | dbPop
  /-- The writer of signals takes a signal. -/
  | alertPop
  | requestStop (stage : Stage)
  | requestEngineStop

variable (fl : FloatEnv) (period : Period)

/-- All threads started; the book processor has a database queue or none, and shares a queue with
the signal engine or not. -/
def init (dbQueue : Option SnapshotQueue) (shared : Bool) (alerts : BoundedQueue Signal 4096) :
    Streams where
  path := .init dbQueue (if shared then some BoundedQueue.empty else none)
  engine := .start fl period
  alerts
  stop := fun _ ↦ false
  engineStop := false

/-- One action; a push to a full buffer or a pop from an empty queue does not happen. -/
def step (s : Streams) : Action → Option Streams
  | .feed tick => (s.path.feed tick).map fun path ↦ { s with path }
  | .stage stage => some { s with path := s.path.advance fl s.stop stage }
  | .engine =>
    let next := s.engine.step fl s.engineStop s.path.signalQueue s.alerts
    some { s with
      engine := next.1
      path := s.path.withSignal next.2.1
      alerts := next.2.2 }
  | .dbPop => s.path.dbQueue.tryPop.map fun popped ↦ { s with path := s.path.withDb popped.2 }
  | .alertPop => s.alerts.tryPop.map fun popped ↦ { s with alerts := popped.2 }
  | .requestStop stage => some { s with stop := Function.update s.stop stage true }
  | .requestEngineStop => some { s with engineStop := true }

/-- The invariant: the path and the engine account for what they did, and the engine has taken what
was pushed to the queue between them and is not there any more. -/
structure Flow (dbQueue signalQueue : Option SnapshotQueue) (s : Streams) : Prop where
  path : s.path.Flow fl dbQueue signalQueue
  engine : s.engine.Accounts fl period
  signal : s.engine.popped ++ itemsOf s.path.book.processor.signalQueue = s.path.book.signalPushed

variable {fl period} {dbQueue signalQueue : Option SnapshotQueue} {s t : Streams} {a : Action}

theorem flow_init {shared : Bool} {alerts : BoundedQueue Signal 4096} :
    (init fl period dbQueue shared alerts).Flow fl period dbQueue
      (if shared then some BoundedQueue.empty else none) := by
  refine ⟨TickPath.flow_init, EngineWorker.accounts_start fl period, ?_⟩
  cases shared <;> rfl

/-- **Every action keeps the flow.** -/
theorem Flow.step (h : s.Flow fl period dbQueue signalQueue) (hstep : s.step fl a = some t) :
    t.Flow fl period dbQueue signalQueue := by
  obtain ⟨hpath, hengine, hsignal⟩ := h
  cases a with
  | feed tick =>
    obtain ⟨path, hfeed, rfl⟩ := Option.map_eq_some_iff.1 hstep
    refine ⟨hpath.feed hfeed, hengine, ?_⟩
    obtain ⟨_, -, rfl⟩ := Option.map_eq_some_iff.1 hfeed
    exact hsignal
  | stage stage =>
    obtain rfl := Option.some.inj hstep
    have hrule := s.path.advance_rule fl s.stop stage
    exact ⟨hpath.advance hrule, hengine, hrule.signalPushed hsignal⟩
  | engine =>
    obtain rfl := Option.some.inj hstep
    have hrule := s.engine.step_rule fl s.engineStop s.path.signalQueue s.alerts
    obtain ⟨took, hpopped, hitems⟩ := hrule.exists_popped
    refine ⟨hpath.withSignal _, hengine.step hrule, ?_⟩
    rw [hpopped]
    exact TickPath.withSignal_append hsignal hitems
  | dbPop =>
    obtain ⟨popped, -, rfl⟩ := Option.map_eq_some_iff.1 hstep
    exact ⟨hpath.withDb _, hengine, hsignal⟩
  | alertPop =>
    obtain ⟨popped, -, rfl⟩ := Option.map_eq_some_iff.1 hstep
    exact ⟨hpath, hengine, hsignal⟩
  | requestStop stage =>
    obtain rfl := Option.some.inj hstep
    exact ⟨hpath, hengine, hsignal⟩
  | requestEngineStop =>
    obtain rfl := Option.some.inj hstep
    exact ⟨hpath, hengine, hsignal⟩

/-- **Only the feed feeds.** -/
theorem fed_of_step (hstep : s.step fl a = some t) :
    t.path.fed = s.path.fed ∨ ∃ tick, a = .feed tick ∧ t.path.fed = s.path.fed ++ [tick] := by
  cases a with
  | feed tick =>
    obtain ⟨path, hfeed, rfl⟩ := Option.map_eq_some_iff.1 hstep
    obtain ⟨_, -, rfl⟩ := Option.map_eq_some_iff.1 hfeed
    exact Or.inr ⟨tick, rfl, rfl⟩
  | stage stage =>
    obtain rfl := Option.some.inj hstep
    cases stage <;> exact Or.inl rfl
  | dbPop =>
    obtain ⟨_, -, rfl⟩ := Option.map_eq_some_iff.1 hstep
    exact Or.inl rfl
  | alertPop =>
    obtain ⟨_, -, rfl⟩ := Option.map_eq_some_iff.1 hstep
    exact Or.inl rfl
  | engine | requestStop | requestEngineStop =>
    obtain rfl := Option.some.inj hstep
    exact Or.inl rfl

/-! ### Order, end to end -/

/-- What the feed has fed is padded when all of its ticks are. -/
theorem padded_of_run {shared : Bool} {alerts : BoundedQueue Signal 4096} {acts : List Action}
    (h : StepRun.run (step fl) (init fl period dbQueue shared alerts) acts = some s)
    (hraw : ∀ tick, Action.feed tick ∈ acts → tick.symbol.Padded) :
    ∀ tick ∈ s.path.fed, tick.symbol.Padded := by
  refine StepRun.run_invariant_of_mem (P := fun s : Streams ↦
    ∀ tick ∈ s.path.fed, tick.symbol.Padded) (fun a ha u v hu hstep ↦ ?_)
    (fun tick htick ↦ absurd htick List.not_mem_nil) h
  rcases fed_of_step hstep with hsame | ⟨tick, rfl, hnew⟩
  · rwa [hsame]
  · intro tick' htick'
    rw [hnew, List.mem_append, List.mem_singleton] at htick'
    rcases htick' with htick' | rfl
    · exact hu tick' htick'
    · exact hraw _ ha

/-- The ticks a book was given are in the order of their timestamps, symbol by symbol. -/
theorem Flow.pairwise_applied (h : s.Flow fl period dbQueue signalQueue)
    (hfed : ∀ tick ∈ s.path.fed, tick.symbol.Padded) :
    s.path.book.applied.Pairwise
      fun a b ↦ a.symbol.key = b.symbol.key → a.timestampNs ≤ b.timestampNs := by
  obtain ⟨ticks, hticks, happlied⟩ := h.path.applied_sublist
  have hpadded : ∀ tick ∈ Normalizer.normalize ticks, tick.symbol.Padded := by
    intro tick htick
    have hparse := hticks.subset (Normalizer.mem_of_mem_normalize htick)
    obtain ⟨raw, hraw, rfl⟩ := List.mem_map.1 (List.mem_filter.1 hparse).1
    exact TickParser.padded_enrich (hfed raw hraw)
  have hsorted := (pairwise_filter_iff MarketTick.symbol).1 (Normalizer.pairwise_normalize ticks)
  refine (hsorted.imp_of_mem fun {a b} ha hb hle hkey ↦ hle ?_).sublist happlied
  exact Symbol.key_injOn (hpadded a ha) (hpadded b hb) hkey

/-- **The published streams are ordered per symbol, end to end.** For every sequence of raw ticks
with padded symbols, every interleaving of the four threads, every pattern of full queues and every
stop request: the snapshots of a symbol in either queue have increasing sequence numbers and
timestamps that do not decrease, and so do the timestamps of its signals. -/
theorem streams_ordered {shared : Bool} {alerts : BoundedQueue Signal 4096} {acts : List Action}
    (h : StepRun.run (step fl) (init fl period dbQueue shared alerts) acts = some s)
    (hraw : ∀ tick, Action.feed tick ∈ acts → tick.symbol.Padded) (symbol : List UInt8) :
    (s.path.book.dbPushed.filter (ofKey symbol)).Pairwise
        (fun a b ↦ a.sequence < b.sequence ∧ a.timestampNs ≤ b.timestampNs) ∧
      (s.path.book.signalPushed.filter (ofKey symbol)).Pairwise
        (fun a b ↦ a.sequence < b.sequence ∧ a.timestampNs ≤ b.timestampNs) ∧
      (s.engine.pushed.filter fun sig ↦ decide (sig.symbol.key = symbol)).Pairwise
        fun a b ↦ a.timestampNs ≤ b.timestampNs := by
  have hflow := StepRun.run_invariant (fun _ _ _ hs hstep ↦ Flow.step hs hstep) flow_init h
  have hoffers : s.path.book.offers.Pairwise
      fun a b ↦ a.symbol.key = b.symbol.key → InOrder a b := by
    rw [hflow.path.book.offers]
    exact pairwise_offers (hflow.pairwise_applied (padded_of_run h hraw))
  have hdb := hoffers.sublist ((List.sublist_append_left _ _).trans hflow.path.book.db)
  have hsignal := hoffers.sublist ((List.sublist_append_left _ _).trans hflow.path.book.signal)
  refine ⟨(pairwise_filter_iff fun snap : MarketSnapshot ↦ snap.symbol.key).2 hdb symbol,
    (pairwise_filter_iff fun snap : MarketSnapshot ↦ snap.symbol.key).2 hsignal symbol,
    (pairwise_filter_iff fun sig : Signal ↦ sig.symbol.key).2 ?_ symbol⟩
  -- what the engine popped is a prefix of what was pushed to it
  rw [← hflow.signal] at hsignal
  have hpopped := (List.pairwise_append.1 hsignal).1
  refine List.Pairwise.sublist ((List.sublist_append_left _ _).trans hflow.engine.pushed) ?_
  exact EngineWorker.pairwise_signalsOf (hpopped.imp fun hab hkey ↦ (hab hkey).2)

/-- A tick goes through all four threads. -/
def through (tick : MarketTick) : List Action :=
  .feed tick :: List.replicate 6 (.stage .parser) ++ List.replicate 6 (.stage .normalizer) ++
    List.replicate 6 (.stage .book) ++ List.replicate 3 .engine

/-- Two quotes of one symbol, with a stop request to the book processor between them: both snapshots
reach the queues and both signals are pushed. -/
theorem streams_ordered_two :
    let fl := FloatEnv.exact fun _ ↦ 0
    let acts := through (.shareOfA 100) ++ [.requestStop .book] ++ through (.shareOfA 101)
    ∃ s, StepRun.run (step fl)
        (init fl .default (some BoundedQueue.empty) true BoundedQueue.empty) acts = some s ∧
      (s.path.book.dbPushed.length = 2 ∧ s.path.book.signalPushed.length = 2 ∧
        s.engine.pushed.length = 2) ∧
      (s.path.book.dbPushed.filter (ofKey [65])).Pairwise
        fun a b ↦ a.sequence < b.sequence ∧ a.timestampNs ≤ b.timestampNs := by
  intro fl acts
  obtain ⟨s, hrun, hend⟩ := Option.map_eq_some_iff.1 (by decide +kernel :
    (StepRun.run (step fl)
      (init fl .default (some BoundedQueue.empty) true BoundedQueue.empty) acts).map
      (fun s ↦ (s.path.book.dbPushed.length, s.path.book.signalPushed.length,
        s.engine.pushed.length)) = some (2, 2, 2))
  have hraw : ∀ tick, Action.feed tick ∈ acts → tick.symbol.Padded := by
    intro tick htick
    rcases (by simpa [acts, through] using htick :
      tick = .shareOfA 100 ∨ tick = .shareOfA 101) with rfl | rfl
    · decide +kernel
    · decide +kernel
  simp only [Prod.mk.injEq] at hend
  exact ⟨s, hrun, hend, (streams_ordered hrun hraw [65]).1⟩

end Streams

end Mdp
