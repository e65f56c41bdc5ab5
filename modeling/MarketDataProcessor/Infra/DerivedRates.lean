import MarketDataProcessor.Infra.MetricsCollector
import Mathlib.Algebra.Order.Field.Rat

/-!
# The derived rates of a snapshot

`PipelineSnapshot` derives three rates from its counters, each the part over the whole, or zero when
the whole is zero. What they take for the whole differs: `norm_dedup_rate()` takes everything the
normalizer has counted, the part included; `feed_drop_rate()` and `parser_reject_rate()` take what
was let through, and the part is not among it.

So the third rate is a fraction as long as its sum does not wrap, and the other two are only when no
more was dropped than published, respectively rejected than processed (`rates_fractions_iff`). The
pipeline does not promise either: `feedDropRate_unbounded` has a feed whose drop rate is whatever
natural number one likes.

## The condition, and that it can fail

`isFraction_rate_iff` is the arithmetic: a part over a whole is at most one exactly if the part does
not exceed the whole, and zero only if one of them is. `isFraction_normDedupRate` applies it to a
whole that contains the part; the one thing to check is the 64-bit sum. For the two other rates the
condition stays, in the counters.

That the condition does fail is shown by runs of the monitored pipeline, not by counters made up for
it. `run_feedAlone` fills the output of a feed and lets the rest be dropped, `rejectOne` takes a
tick the parser rejects all the way, and a call of `snapshot()` with nothing in between shows the
counters as they are (`run_snapshotCall`).
-/

namespace Mdp

namespace PipelineSnapshot

/-- A part over a whole, zero when there is no whole. -/
def rate (part whole : ℕ) : ℚ := if 0 < whole then part / whole else 0

variable (snap : PipelineSnapshot)

/-- `feed_drop_rate`. -/
def feedDropRate : ℚ := rate snap.feedTicksDropped snap.feedTicksPublished

/-- `parser_reject_rate`. -/
def parserRejectRate : ℚ := rate snap.parserTicksRejected snap.parserTicksProcessed

/-- `norm_dedup_rate`; the total is a 64-bit sum. -/
def normDedupRate : ℚ :=
  let total :=
    (snap.normTicksForwarded + snap.normTicksDeduplicated + snap.normTicksReordered) % 2 ^ 64
  rate snap.normTicksDeduplicated total

/-- In the unit interval, and zero for no part only. -/
structure IsFraction (rate : ℚ) (part : ℕ) : Prop where
  nonneg : 0 ≤ rate
  le_one : rate ≤ 1
  part_eq_zero : rate = 0 → part = 0

/-- **A rate is a fraction exactly if the part does not exceed the whole.** -/
theorem isFraction_rate_iff {part whole : ℕ} :
    IsFraction (rate part whole) part ↔ part ≤ whole := by
  rcases Nat.eq_zero_or_pos whole with rfl | hpos
  · rw [Nat.le_zero, rate, if_neg (Nat.lt_irrefl 0)]
    exact ⟨fun h ↦ h.part_eq_zero rfl, fun hpart ↦ ⟨le_rfl, zero_le_one, fun _ ↦ hpart⟩⟩
  · have hwhole : (0 : ℚ) < whole := Nat.cast_pos.2 hpos
    rw [rate, if_pos hpos]
    constructor
    · intro h
      exact Nat.cast_le.1 ((div_le_one hwhole).1 h.le_one)
    · intro hle
      refine ⟨div_nonneg (Nat.cast_nonneg part) hwhole.le, (div_le_one hwhole).2
        (Nat.cast_le.2 hle), fun hzero ↦ ?_⟩
      exact Nat.cast_eq_zero.1 ((div_eq_zero_iff.1 hzero).resolve_right hwhole.ne')

variable {snap}

/-- **The rate over everything is a fraction**, as long as the sum does not wrap. -/
theorem isFraction_normDedupRate (h : snap.normTicksForwarded + snap.normTicksDeduplicated +
    snap.normTicksReordered < 2 ^ 64) :
    IsFraction snap.normDedupRate snap.normTicksDeduplicated := by
  refine isFraction_rate_iff.2 ?_
  rw [Nat.mod_eq_of_lt h]
  omega

/-- **When the derived rates are fractions.** For all counters whose sums fit: the three rates lie
in the unit interval, each zero only if the counter it is about is, exactly if no more ticks were
dropped than published and no more rejected than processed. -/
theorem rates_fractions_iff (snap : PipelineSnapshot)
    (h : snap.normTicksForwarded + snap.normTicksDeduplicated + snap.normTicksReordered < 2 ^ 64) :
    (IsFraction snap.feedDropRate snap.feedTicksDropped ∧
        IsFraction snap.parserRejectRate snap.parserTicksRejected ∧
        IsFraction snap.normDedupRate snap.normTicksDeduplicated) ↔
      snap.feedTicksDropped ≤ snap.feedTicksPublished ∧
        snap.parserTicksRejected ≤ snap.parserTicksProcessed := by
  rw [and_iff_left (isFraction_normDedupRate h), feedDropRate, parserRejectRate,
    isFraction_rate_iff, isFraction_rate_iff]

end PipelineSnapshot

open PipelineSnapshot MetricsCollector

namespace Monitored

variable (fl : FloatEnv)

/-! ### What a pipeline at rest shows -/

/-- The snapshot of a pipeline in which nothing else happens. -/
def snapshotAtRest (s : Monitored) : PipelineSnapshot := snapshotOf (loadOrder.map s.current) 0

/-- Loads with nothing in between find the counters as they are. -/
theorem run_collects {s : Monitored} (hloaded : s.loaded = []) {k : ℕ}
    (hk : k ≤ loadOrder.length) :
    StepRun.run (step fl) s (List.replicate k (.collect 0)) =
      some { s with loaded := (loadOrder.take k).map s.current } := by
  induction k with
  | zero =>
    obtain ⟨feed, path, stop, loaded, returned⟩ := s
    obtain rfl : loaded = [] := hloaded
    rfl
  | succ k ih =>
    have hlt : k < loadOrder.length := hk
    have hlen : ((loadOrder.take k).map s.current).length = k := by
      rw [List.length_map, List.length_take, Nat.min_eq_left hlt.le]
    rw [List.replicate_succ']
    refine StepRun.run_append_eq_some_iff.2
      ⟨_, ih hlt.le, StepRun.run_cons_eq_some_iff.2 ⟨_, ?_, rfl⟩⟩
    simp only [step, hlen, List.getElem?_eq_getElem hlt]
    rw [← List.take_concat_get' _ _ hlt, List.map_append]
    rfl

/-- **One call with nothing in between returns the counters as they are.** -/
theorem run_snapshotCall {s : Monitored} (hloaded : s.loaded = []) (hreturned : s.returned = none) :
    ∃ t, StepRun.run (step fl) s snapshotCall = some t ∧
      t.returned = some s.snapshotAtRest := by
  have hloads := run_collects fl hloaded (Nat.le_refl loadOrder.length)
  rw [List.take_length] at hloads
  refine ⟨{ s with
    loaded := loadOrder.map s.current
    returned := some s.snapshotAtRest }, ?_, rfl⟩
  show StepRun.run (step fl) s
    (List.replicate loadOrder.length (.collect 0) ++ [.collect 0]) = _
  refine StepRun.run_append_eq_some_iff.2 ⟨_, hloads, StepRun.run_cons_eq_some_iff.2 ⟨_, ?_, rfl⟩⟩
  have hnone : loadOrder[(loadOrder.map s.current).length]? = none := by
    rw [List.length_map]
    rfl
  simp only [step, hnone, hreturned]
  rfl

/-! ### A feed without a consumer -/

/-- The feed publishes the same tick so many times, and no stage takes any. -/
def feedAlone (tick : MarketTick) (n : ℕ) : List Action :=
  (List.replicate n [Action.publish tick, .countFeed]).flatten

/-- A push that finds room, and its count. -/
theorem run_publish_of_room {s : Monitored} {published dropped : ℕ}
    (hfeed : s.feed = ⟨.tryPush, published, dropped⟩) (hroom : s.path.raw.items.length < 16384)
    (tick : MarketTick) :
    ∃ t, StepRun.run (step fl) s [.publish tick, .countFeed] = some t ∧
      t.feed = ⟨.tryPush, published + 1, dropped⟩ ∧
      t.path.raw.items.length = s.path.raw.items.length + 1 ∧
      t.path.normalizer = s.path.normalizer ∧ t.loaded = s.loaded ∧ t.returned = s.returned := by
  obtain ⟨raw', hpush, hitems⟩ := BoundedQueue.exists_tryPush_eq_some hroom tick
  have hpath : s.path.feed tick =
      some { s.path with raw := raw', fed := s.path.fed ++ [tick] } := by
    rw [TickPath.feed, hpush]
    rfl
  refine ⟨{ s with
    path := { s.path with raw := raw', fed := s.path.fed ++ [tick] }
    feed := ⟨.tryPush, published + 1, dropped⟩ }, ?_, rfl, ?_, rfl, rfl, rfl⟩
  · simp [StepRun.run, step, hfeed, hpath]
  · show raw'.items.length = _
    rw [hitems, List.length_append, List.length_singleton]

/-- A push that finds no room, and its count. -/
theorem run_publish_of_full {s : Monitored} {published dropped : ℕ}
    (hfeed : s.feed = ⟨.tryPush, published, dropped⟩) (hfull : s.path.raw.items.length = 16384)
    (tick : MarketTick) :
    StepRun.run (step fl) s [.publish tick, .countFeed] =
      some { s with feed := ⟨.tryPush, published, dropped + 1⟩ } := by
  have hpath : s.path.feed tick = none := by
    rw [TickPath.feed, BoundedQueue.tryPush_eq_none_iff.2 hfull]
    rfl
  simp [StepRun.run, step, hfeed, hpath]

/-- **What fits is published, the rest is dropped.** -/
theorem run_feedAlone (dbQueue signalQueue : Option SnapshotQueue) (tick : MarketTick) (n : ℕ) :
    ∃ s, StepRun.run (step fl) (init dbQueue signalQueue) (feedAlone tick n) = some s ∧
      s.feed = ⟨.tryPush, min n 16384, n - 16384⟩ ∧ s.path.raw.items.length = min n 16384 ∧
      s.path.normalizer = (TickPath.init dbQueue signalQueue).normalizer ∧
      s.loaded = [] ∧ s.returned = none := by
  induction n with
  | zero => exact ⟨_, rfl, rfl, rfl, rfl, rfl, rfl⟩
  | succ n ih =>
    obtain ⟨s, hrun, hfeed, hraw, hnorm, hloaded, hreturned⟩ := ih
    have hacts : feedAlone tick (n + 1) =
        feedAlone tick n ++ [Action.publish tick, .countFeed] := by
      rw [feedAlone, List.replicate_succ', List.flatten_append]
      rfl
    rw [hacts]
    rcases Nat.lt_or_ge n 16384 with hlt | hge
    · obtain ⟨t, hstep, hfeed', hraw', hnorm', hloaded', hreturned'⟩ :=
        run_publish_of_room fl hfeed (by omega) tick
      refine ⟨t, StepRun.run_append_eq_some_iff.2 ⟨s, hrun, hstep⟩, ?_, by omega,
        hnorm'.trans hnorm, hloaded'.trans hloaded, hreturned'.trans hreturned⟩
      rw [hfeed', FeedSimulator.mk.injEq]
      exact ⟨rfl, by omega, by omega⟩
    · have hstep := run_publish_of_full fl hfeed (by omega) tick
      refine ⟨_, StepRun.run_append_eq_some_iff.2 ⟨s, hrun, hstep⟩, ?_, ?_, hnorm, hloaded,
        hreturned⟩
      · rw [FeedSimulator.mk.injEq]
        exact ⟨rfl, by omega, by omega⟩
      · show s.path.raw.items.length = _
        omega

/-- **The drop rate of a feed has no bound.** Every natural number is the drop rate some snapshot
shows of a feed whose ticks nobody takes, with nothing counted by the normalizer. -/
theorem feedDropRate_unbounded (dbQueue signalQueue : Option SnapshotQueue) (m : ℕ) :
    ∃ acts s snap, StepRun.run (step fl) (init dbQueue signalQueue) acts = some s ∧
      s.returned = some snap ∧ snap.feedDropRate = m ∧
      snap.normTicksForwarded + snap.normTicksDeduplicated + snap.normTicksReordered = 0 := by
  obtain ⟨s, hrun, hfeed, -, hnorm, hloaded, hreturned⟩ := run_feedAlone fl dbQueue signalQueue
    (.shareOfA 100) ((m + 1) * 16384)
  obtain ⟨t, hcall, hsnap⟩ := run_snapshotCall fl hloaded hreturned
  refine ⟨_, t, _, StepRun.run_append_eq_some_iff.2 ⟨s, hrun, hcall⟩, hsnap, ?_, ?_⟩
  · have hpublished : s.snapshotAtRest.feedTicksPublished = 16384 := by
      show s.feed.ticksPublished = _
      rw [hfeed]
      show min ((m + 1) * 16384) 16384 = _
      omega
    have hdropped : s.snapshotAtRest.feedTicksDropped = m * 16384 := by
      show s.feed.ticksDropped = _
      rw [hfeed]
      show (m + 1) * 16384 - 16384 = _
      omega
    rw [feedDropRate, hpublished, hdropped, rate, if_pos (by decide), Nat.cast_mul]
    exact mul_div_cancel_right₀ _ (by norm_num)
  · show s.path.normalizer.forwarded + s.path.normalizer.dropped .deduplicated +
      s.path.normalizer.dropped .reordered = 0
    rw [hnorm]
    rfl

/-! ### Rejected ticks -/

/-- A tick that the parser rejects, through the parser. -/
def rejectOne : List Action :=
  [.publish (.shareOfA 0), .countFeed] ++ List.replicate 6 (.stage .parser)

/-- One tick processed and one rejected: the rates the snapshot shows are fractions. -/
theorem rates_fractions_of_one_rejected :
    let fl := FloatEnv.exact fun _ ↦ 0
    ∃ s snap, StepRun.run (step fl) (init none none)
        (parseOne ++ [.countFeed] ++ rejectOne ++ snapshotCall) = some s ∧
      s.returned = some snap ∧ snap.parserTicksRejected = 1 ∧
      IsFraction snap.feedDropRate snap.feedTicksDropped ∧
      IsFraction snap.parserRejectRate snap.parserTicksRejected ∧
      IsFraction snap.normDedupRate snap.normTicksDeduplicated := by
  intro fl
  obtain ⟨s, hrun, hend⟩ := Option.map_eq_some_iff.1 (by decide +kernel :
    (StepRun.run (step fl) (init none none)
        (parseOne ++ [.countFeed] ++ rejectOne ++ snapshotCall)).map
      (fun s ↦ s.returned) = some (some ⟨2, 0, 1, 1, 0, 0, 0, 0, 0, 0⟩))
  exact ⟨s, _, hrun, hend, rfl, (rates_fractions_iff _ (by decide)).2 (by decide)⟩

/-- **The rates a snapshot shows need not be fractions.** Two ticks rejected and one processed are a
reject rate of two; a tick rejected and none processed is a reject rate of zero; and a feed can drop
more than it publishes. -/
theorem rates_not_fractions :
    (¬ ∀ (fl : FloatEnv) (dbQueue signalQueue : Option SnapshotQueue) (acts : List Action)
        (s : Monitored) (snap : PipelineSnapshot),
        StepRun.run (step fl) (init dbQueue signalQueue) acts = some s → s.returned = some snap →
        snap.normTicksForwarded + snap.normTicksDeduplicated + snap.normTicksReordered < 2 ^ 64 →
        snap.parserRejectRate ≤ 1) ∧
      (¬ ∀ (fl : FloatEnv) (dbQueue signalQueue : Option SnapshotQueue) (acts : List Action)
        (s : Monitored) (snap : PipelineSnapshot),
        StepRun.run (step fl) (init dbQueue signalQueue) acts = some s → s.returned = some snap →
        snap.normTicksForwarded + snap.normTicksDeduplicated + snap.normTicksReordered < 2 ^ 64 →
        snap.parserRejectRate = 0 → snap.parserTicksRejected = 0) ∧
      ¬ ∀ (fl : FloatEnv) (dbQueue signalQueue : Option SnapshotQueue) (acts : List Action)
        (s : Monitored) (snap : PipelineSnapshot),
        StepRun.run (step fl) (init dbQueue signalQueue) acts = some s → s.returned = some snap →
        snap.normTicksForwarded + snap.normTicksDeduplicated + snap.normTicksReordered < 2 ^ 64 →
        snap.feedDropRate ≤ 1 := by
  refine ⟨fun hall ↦ ?_, fun hall ↦ ?_, fun hall ↦ ?_⟩
  · obtain ⟨s, hrun, hend⟩ := Option.map_eq_some_iff.1 (by decide +kernel :
      (StepRun.run (step (FloatEnv.exact fun _ ↦ 0)) (init none none)
          (parseOne ++ [.countFeed] ++ rejectOne ++ rejectOne ++ snapshotCall)).map
        (fun s ↦ s.returned) = some (some ⟨3, 0, 1, 2, 0, 0, 0, 0, 0, 0⟩))
    have hle := hall _ _ _ _ s _ hrun hend (by decide)
    norm_num [parserRejectRate, rate] at hle
  · obtain ⟨s, hrun, hend⟩ := Option.map_eq_some_iff.1 (by decide +kernel :
      (StepRun.run (step (FloatEnv.exact fun _ ↦ 0)) (init none none)
          (rejectOne ++ snapshotCall)).map
        (fun s ↦ s.returned) = some (some ⟨1, 0, 0, 1, 0, 0, 0, 0, 0, 0⟩))
    exact absurd (hall _ _ _ _ s _ hrun hend (by decide) rfl) (by decide)
  · let fl := FloatEnv.exact fun _ ↦ 0
    obtain ⟨acts, s, snap, hrun, hend, hrate, hnorm⟩ := feedDropRate_unbounded fl none none 2
    have hle := hall fl none none acts s snap hrun hend (by rw [hnorm]; decide)
    rw [hrate] at hle
    norm_num at hle

end Monitored

end Mdp
