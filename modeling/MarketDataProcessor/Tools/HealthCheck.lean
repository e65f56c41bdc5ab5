import MarketDataProcessor.Infra.DerivedRates
import MarketDataProcessor.Pipeline.Liquidity
import MarketDataProcessor.Pipeline.OrderlyStop
import MarketDataProcessor.Tools.ProcessorMain

/-!
# The health check

`health_check.cpp`: a simulated feed through parser, normalizer and book processor, without
database and without signals; after half a second `main` stops the four of them in the direction of
the ticks, takes one snapshot of the metrics and reports a list of failures. Its exit code is zero
exactly if the list is empty.

## The program around the pipeline

The threads are those of `Monitored`, which has the counters of every stage and the collector that
loads them one after the other. `HealthCheck` adds `main`: the stop sequence, a flag for the return
of the feed, and the guard that nothing is collected before the last call of `stop()` has returned.
`rule_of_step` says once what an action can do; `Moves` singles out what it does to the pipeline.

## The two theorems, and what each rests on

* `snapshot_conserved`: unlike the snapshot of a running pipeline, this one is taken when every
  thread has returned, so no counter moves between two loads (`Inv.loaded`). The path was stopped
  front to back (`Inv.frontToBack`), hence it is conserved by what `TickPath.Orderly` knows of such
  a path, and the counters are the lengths of its histories. Ticks may still be lost: by a stage
  that is asked to stop with a tick in hand.
* `verdict_iff` is arithmetic on these equations: a forwarded tick was processed and a processed one
  was published, so four of the six checks come to one.
-/

namespace Mdp

open MetricsCollector PipelineSnapshot

/-- The name `main` stops a stage by. -/
def Stage.component : Stage → Component
  | parser => .parser
  | normalizer => .norm
  | book => .book

/-- The program from the start of its threads on. -/
structure HealthCheck where
  pipeline : Monitored
  /-- The feed has returned from `run`. -/
  simExited : Bool
  main : StopSequence

namespace HealthCheck

/-- The calls of `stop()`, in order. -/
def stopOrder : List Component := [.sim, .parser, .norm, .book]

/-- What can happen next. -/
inductive Action where
  | publish (tick : MarketTick)
  | countFeed
  | simExit
  | stage (stage : Stage)
  /-- `main` sets the stop flag of the next component. -/
  | request
  /-- `main` joins its thread. -/
  | join
  /-- `collector.snapshot()` loads a counter, or returns. -/
  | collect (now : ℤ)

/-- All threads started. -/
def init : HealthCheck where
  pipeline := .init none none
  simExited := false
  main := ⟨0, false⟩

/-- The thread of a component has returned from `run`. -/
def exited (s : HealthCheck) : Component → Bool
  | .sim => s.simExited
  | .parser => decide (s.pipeline.path.parser.pc = .exited)
  | .norm => decide (s.pipeline.path.normalizer.pc = .exited)
  | .book => decide (s.pipeline.path.book.pc = .exited)
  | _ => false

variable (fl : FloatEnv)

/-- An action of the pipeline. -/
def lift (s : HealthCheck) (a : Monitored.Action) : Option HealthCheck :=
  (s.pipeline.step fl a).map fun pipeline ↦ { s with pipeline }

/-- One action. -/
def step (s : HealthCheck) : Action → Option HealthCheck
  | .publish tick => if s.simExited then none else s.lift fl (.publish tick)
  | .countFeed => s.lift fl .countFeed
  | .simExit =>
    -- the flag is tested between two ticks
    if s.main.flag .sim ∧ s.pipeline.feed.pc = .tryPush then some { s with simExited := true }
    else none
  | .stage stage => s.lift fl (.stage stage)
  | .request =>
    match stopOrder[s.main.returned]?, s.main.requested with
    | some c, false =>
      some { s with
        main.requested := true
        pipeline.stop := fun stage ↦ s.pipeline.stop stage || decide (stage.component = c) }
    | _, _ => none
  | .join =>
    match stopOrder[s.main.returned]? with
    | some c =>
      if s.main.requested ∧ s.exited c then some { s with main := ⟨s.main.returned + 1, false⟩ }
      else none
    | none => none
  | .collect now =>
    if s.main.returned = stopOrder.length then s.lift fl (.collect now) else none

/-! ### The verdict -/

/-- `failures`; `percent` is `std::format("{:.2f}", rate * 100.0)`. -/
def failures (percent : ℚ → String) (snap : PipelineSnapshot) : List String :=
  (if snap.feedTicksPublished = 0 then
    ["feed_ticks_published == 0 (pipeline did not start)"] else []) ++
  (if snap.parserTicksProcessed = 0 then ["parser_ticks_processed == 0"] else []) ++
  (if snap.normTicksForwarded = 0 then ["norm_ticks_forwarded == 0"] else []) ++
  (if snap.bookTicksProcessed = 0 then ["book_ticks_processed == 0"] else []) ++
  (if 5 / 100 ≤ snap.feedDropRate then
    ["feed_drop_rate " ++ percent snap.feedDropRate ++ "% exceeds threshold 5.00%"] else []) ++
  if 10 / 100 ≤ snap.parserRejectRate then
    ["parser_reject_rate " ++ percent snap.parserRejectRate ++ "% exceeds threshold 10.00%"] else []

/-- What `main` returns. -/
def exitCode (percent : ℚ → String) (snap : PipelineSnapshot) : ℕ :=
  if (failures percent snap).isEmpty then 0 else 1

/-! ### Stopping -/

/-- What an action of the program does to its pipeline. -/
inductive Moves (s : HealthCheck) : Monitored → Prop
  | feed (tick : MarketTick) (path : TickPath) : s.simExited = false →
    s.pipeline.path.feed tick = some path →
    Moves s { s.pipeline with path, feed.pc := .countPublished }
  | refuse : s.simExited = false → Moves s { s.pipeline with feed.pc := .countDropped }
  | countPublished : s.pipeline.feed.pc = .countPublished → Moves s { s.pipeline with
      feed.pc := .tryPush, feed.ticksPublished := s.pipeline.feed.ticksPublished + 1 }
  | countDropped : s.pipeline.feed.pc = .countDropped → Moves s { s.pipeline with
      feed.pc := .tryPush, feed.ticksDropped := s.pipeline.feed.ticksDropped + 1 }
  | stage (stage : Stage) (path : TickPath) :
    TickPath.Advance fl s.pipeline.stop s.pipeline.path stage path →
    Moves s { s.pipeline with path }
  | load (c : Counter) : s.main.returned = stopOrder.length →
    loadOrder[s.pipeline.loaded.length]? = some c →
    Moves s { s.pipeline with loaded := s.pipeline.loaded ++ [s.pipeline.current c] }
  | report (now : ℤ) : s.main.returned = stopOrder.length →
    loadOrder[s.pipeline.loaded.length]? = none →
    Moves s { s.pipeline with returned := some (snapshotOf s.pipeline.loaded now) }

/-- **The rules of the program.** -/
inductive Rule (s : HealthCheck) : HealthCheck → Prop
  | pipeline (a : Monitored.Action) (p : Monitored) : s.pipeline.step fl a = some p → Moves fl s p →
    Rule s { s with pipeline := p }
  | simExit : s.main.flag .sim = true → s.pipeline.feed.pc = .tryPush →
    Rule s { s with simExited := true }
  | request (c : Component) : stopOrder[s.main.returned]? = some c → s.main.requested = false →
    Rule s { s with
      main.requested := true
      pipeline.stop := fun stage ↦ s.pipeline.stop stage || decide (stage.component = c) }
  | join (c : Component) : stopOrder[s.main.returned]? = some c → s.main.requested = true →
    s.exited c = true → Rule s { s with main := ⟨s.main.returned + 1, false⟩ }

variable {fl} {s t : HealthCheck} {a : Action}

/-- **Every step is by a rule.** -/
theorem rule_of_step (hstep : s.step fl a = some t) : Rule fl s t := by
  cases a with
  | publish tick =>
    simp only [step] at hstep
    split_ifs at hstep with hexit
    obtain ⟨p, hp, rfl⟩ := Option.map_eq_some_iff.1 hstep
    have hrunning := Bool.eq_false_iff.2 hexit
    refine .pipeline _ p hp ?_
    simp only [Monitored.step] at hp
    split at hp
    · split at hp
      next path hfeed =>
        obtain rfl := Option.some.inj hp
        exact .feed tick path hrunning hfeed
      next =>
        obtain rfl := Option.some.inj hp
        exact .refuse hrunning
    · simp at hp
  | countFeed =>
    obtain ⟨p, hp, rfl⟩ := Option.map_eq_some_iff.1 hstep
    refine .pipeline _ p hp ?_
    simp only [Monitored.step] at hp
    split at hp
    · simp at hp
    next hpc =>
      obtain rfl := Option.some.inj hp
      exact .countPublished hpc
    next hpc =>
      obtain rfl := Option.some.inj hp
      exact .countDropped hpc
  | simExit =>
    simp only [step] at hstep
    split_ifs at hstep with hguard
    obtain rfl := Option.some.inj hstep
    exact .simExit hguard.1 hguard.2
  | stage stage =>
    rw [step, lift, Option.map_eq_some_iff] at hstep
    obtain ⟨p, hp, rfl⟩ := hstep
    refine .pipeline _ p hp ?_
    obtain rfl := Option.some.inj hp
    exact .stage stage _ (s.pipeline.path.advance_rule fl s.pipeline.stop stage)
  | request =>
    simp only [step] at hstep
    split at hstep
    next c hc hreq =>
      obtain rfl := Option.some.inj hstep
      exact .request c hc hreq
    next => simp at hstep
  | join =>
    simp only [step] at hstep
    split at hstep
    next c hc =>
      split_ifs at hstep with hguard
      obtain rfl := Option.some.inj hstep
      exact .join c hc hguard.1 hguard.2
    next => simp at hstep
  | collect now =>
    simp only [step] at hstep
    split_ifs at hstep with hdone
    obtain ⟨p, hp, rfl⟩ := Option.map_eq_some_iff.1 hstep
    refine .pipeline _ p hp ?_
    rcases Monitored.collect_cases hp with ⟨c, hc, rfl⟩ | ⟨hnone, -, rfl⟩
    · exact .load c hdone hc
    · exact .report now hdone hnone

/-- The position of a component in the sequence is that in which `main` comes to it. -/
theorem position_of_getElem? {k : ℕ} {c : Component} (h : stopOrder[k]? = some c) :
    c.position = k := by
  obtain ⟨hk, rfl⟩ := List.getElem?_eq_some_iff.1 h
  have hall : ∀ i : Fin stopOrder.length, (stopOrder.get i).position = i.1 := by decide
  exact hall ⟨k, hk⟩

theorem position_component_lt (stage : Stage) : stage.component.position < stopOrder.length := by
  cases stage <;> decide

theorem getElem?_position {c : Component} (h : c.position < stopOrder.length) :
    stopOrder[c.position]? = some c := by
  cases c <;> first | rfl | exact absurd h (by decide)

theorem component_eq_iff {s : HealthCheck} {c : Component}
    (hc : stopOrder[s.main.returned]? = some c) {stage : Stage} :
    stage.component = c ↔ stage.component.position = s.main.returned := by
  constructor
  · rintro rfl
    exact position_of_getElem? hc
  · intro hpos
    have hsame := getElem?_position (position_component_lt stage)
    rw [hpos, hc] at hsame
    exact (Option.some.inj hsame).symm

/-- The invariant of the program. -/
structure Inv (fl : FloatEnv) (s : HealthCheck) : Prop where
  pipeline : s.pipeline.Inv fl none none
  orderly : s.pipeline.path.Orderly s.pipeline.stop
  /-- The flags of the stages are those `main` has set. -/
  flags : ∀ stage : Stage, s.pipeline.stop stage = s.main.flag stage.component
  /-- A call of `stop()` returns when the thread has. -/
  joined : ∀ c : Component, c.position < s.main.returned → s.exited c = true
  returned_le : s.main.returned ≤ stopOrder.length
  /-- The feed returns between two ticks. -/
  between : s.simExited = true → s.pipeline.feed.pc = .tryPush
  /-- Nothing is loaded before the last call has returned. -/
  unloaded : s.main.returned < stopOrder.length → s.pipeline.loaded = []
  /-- What was loaded is what the counters are. -/
  loaded : s.pipeline.loaded =
    (loadOrder.take s.pipeline.loaded.length).map s.pipeline.current

theorem inv_init (fl : FloatEnv) : init.Inv fl where
  pipeline := Monitored.inv_init
  orderly := TickPath.orderly_init _ _ _
  flags stage := by cases stage <;> rfl
  joined _ h := absurd h (Nat.not_lt_zero _)
  returned_le := Nat.zero_le _
  between h := Bool.noConfusion h
  unloaded _ := rfl
  loaded := rfl

/-- When a component is asked to stop, those before it have returned. -/
theorem Inv.exited_of_flag (h : s.Inv fl) {c : Component} (c' : Component)
    (hlt : c'.position < c.position) (hflag : s.main.flag c = true) : s.exited c' = true := by
  refine h.joined c' ?_
  simp only [StopSequence.flag, Bool.or_eq_true, Bool.and_eq_true, decide_eq_true_iff] at hflag
  rcases hflag with hpast | ⟨-, hnow⟩
  · exact hlt.trans hpast
  · exact hnow ▸ hlt

theorem Inv.frontToBack (h : s.Inv fl) : s.pipeline.path.FrontToBack s.pipeline.stop := by
  refine ⟨fun hflag ↦ ?_, fun hflag ↦ ?_⟩
  · rw [h.flags] at hflag
    exact of_decide_eq_true (h.exited_of_flag .parser (by decide) hflag)
  · rw [h.flags] at hflag
    exact of_decide_eq_true (h.exited_of_flag .norm (by decide) hflag)

theorem Inv.exited_path (h : s.Inv fl) (hdone : s.main.returned = stopOrder.length) :
    s.simExited = true ∧ s.pipeline.path.Exited := by
  have hexit : ∀ c : Component, c.position < stopOrder.length → s.exited c = true :=
    fun c hlt ↦ h.joined c (hdone ▸ hlt)
  exact ⟨hexit .sim (by decide), of_decide_eq_true (hexit .parser (by decide)),
    of_decide_eq_true (hexit .norm (by decide)), of_decide_eq_true (hexit .book (by decide))⟩

/-- **An action of the pipeline keeps its part of the invariant.** -/
theorem Inv.moves (h : s.Inv fl) {a : Monitored.Action} {p : Monitored}
    (hp : s.pipeline.step fl a = some p) (hmoves : Moves fl s p) :
    ({ s with pipeline := p } : HealthCheck).Inv fl := by
  have hpipeline := h.pipeline.step hp
  have hdone := h.exited_path
  cases hmoves with
  | feed tick path hrunning hfeed =>
    have hnone : s.pipeline.loaded = [] := h.unloaded (h.returned_le.lt_of_ne fun heq ↦ by
      rw [(hdone heq).1] at hrunning
      exact Bool.noConfusion hrunning)
    have hflag : s.pipeline.stop .parser = false := Bool.eq_false_iff.2 fun hflag ↦ by
      rw [h.flags] at hflag
      have hexit : s.simExited = true := h.exited_of_flag .sim (by decide) hflag
      exact Bool.noConfusion (hrunning.symm.trans hexit)
    obtain ⟨raw', -, rfl⟩ := Option.map_eq_some_iff.1 hfeed
    refine ⟨hpipeline, h.orderly.feed hflag hfeed, h.flags, fun c hc ↦ ?_, h.returned_le,
      fun hexit ↦ Bool.noConfusion (hrunning.symm.trans hexit), h.unloaded, ?_⟩
    · have hold := h.joined c hc
      cases c <;> exact hold
    · show s.pipeline.loaded = (loadOrder.take s.pipeline.loaded.length).map _
      rw [hnone]
      rfl
  | refuse hrunning =>
    refine ⟨hpipeline, h.orderly, h.flags, h.joined, h.returned_le,
      fun hexit ↦ Bool.noConfusion (hrunning.symm.trans hexit), h.unloaded, h.loaded⟩
  | countPublished hpc | countDropped hpc =>
    have hnone : s.pipeline.loaded = [] := h.unloaded (h.returned_le.lt_of_ne fun heq ↦ by
      rw [h.between (hdone heq).1] at hpc
      simp at hpc)
    refine ⟨hpipeline, h.orderly, h.flags, h.joined, h.returned_le, fun _ ↦ rfl, h.unloaded, ?_⟩
    show s.pipeline.loaded = (loadOrder.take s.pipeline.loaded.length).map _
    rw [hnone]
    rfl
  | stage stage path hadv =>
    refine ⟨hpipeline, h.orderly.advance h.frontToBack hadv, h.flags, fun c hc ↦ ?_, h.returned_le,
      h.between, h.unloaded, ?_⟩
    · have hold := h.joined c hc
      obtain ⟨hparser, hnorm, hbook⟩ := hadv.stays_exited
      cases c with
      | parser => exact decide_eq_true (hparser (of_decide_eq_true hold))
      | norm => exact decide_eq_true (hnorm (of_decide_eq_true hold))
      | book => exact decide_eq_true (hbook (of_decide_eq_true hold))
      | _ => exact hold
    · show s.pipeline.loaded = (loadOrder.take s.pipeline.loaded.length).map _
      rcases h.returned_le.lt_or_eq with hlt | heq
      · rw [h.unloaded hlt]
        rfl
      · -- every thread has returned, so no counter moves
        obtain ⟨hparser, hnorm, hbook⟩ := hadv.threads_of_exited (hdone heq).2
        refine h.loaded.trans (List.map_congr_left fun c _ ↦ ?_)
        cases c <;> simp only [Monitored.current, hparser, hnorm, hbook]
  | load c heq hc =>
    refine ⟨hpipeline, h.orderly, h.flags, h.joined, h.returned_le, h.between, ?_, ?_⟩
    · intro hlt
      exact absurd heq hlt.ne
    · show s.pipeline.loaded ++ [_] =
        (loadOrder.take (s.pipeline.loaded ++ [_]).length).map s.pipeline.current
      obtain ⟨hlt, hget⟩ := List.getElem?_eq_some_iff.1 hc
      rw [List.length_append, List.length_singleton, ← List.take_concat_get' _ _ hlt,
        List.map_append, ← h.loaded, hget]
      rfl
  | report now heq hnone =>
    exact ⟨hpipeline, h.orderly, h.flags, h.joined, h.returned_le, h.between, h.unloaded, h.loaded⟩

/-- **Every step keeps the invariant.** -/
theorem Inv.step (h : s.Inv fl) (hrule : Rule fl s t) : t.Inv fl := by
  cases hrule with
  | pipeline a p hp hmoves => exact h.moves hp hmoves
  | simExit hflag hpc =>
    refine ⟨h.pipeline, h.orderly, h.flags, fun c hc ↦ ?_, h.returned_le, fun _ ↦ hpc, h.unloaded,
      h.loaded⟩
    have hold := h.joined c hc
    cases c <;> first | rfl | exact hold
  | request c hc hreq =>
    refine ⟨⟨h.pipeline.path, h.pipeline.feed, h.pipeline.returned⟩, h.orderly.request ?_, ?_,
      h.joined, h.returned_le, h.between, h.unloaded, h.loaded⟩
    · intro stage hstop
      simp [hstop]
    · intro stage
      show (s.pipeline.stop stage || decide (stage.component = c)) = _
      rw [h.flags, StopSequence.flag, StopSequence.flag, hreq, Bool.false_and, Bool.or_false,
        Bool.true_and, decide_eq_decide.2 (component_eq_iff hc)]
  | join c hc hreq hexit =>
    obtain ⟨hlt, -⟩ := List.getElem?_eq_some_iff.1 hc
    refine ⟨h.pipeline, h.orderly, ?_, ?_, hlt, h.between, fun _ ↦ h.unloaded hlt, h.loaded⟩
    · intro stage
      rw [h.flags, StopSequence.flag, StopSequence.flag, hreq, Bool.true_and, Bool.false_and,
        Bool.or_false, ← Bool.decide_or, decide_eq_decide]
      exact Nat.lt_succ_iff_lt_or_eq.symm
    · intro c' hc'
      by_cases hold : c'.position < s.main.returned
      · exact h.joined c' hold
      · -- the call that has just returned
        have hpos' : c'.position = s.main.returned :=
          Nat.le_antisymm (Nat.le_of_lt_succ hc') (Nat.le_of_not_lt hold)
        have hsame := getElem?_position (hpos' ▸ hlt : c'.position < stopOrder.length)
        rw [hpos', hc] at hsame
        exact Option.some.inj hsame ▸ hexit

theorem inv_of_run {acts : List Action} (hrun : StepRun.run (step fl) init acts = some s) :
    s.Inv fl :=
  StepRun.run_invariant (fun _ _ _ h hstep ↦ h.step (rule_of_step hstep)) (inv_init fl) hrun

/-! ### What the report says -/

/-- **The snapshot shows the counters of the stopped pipeline.** -/
theorem Inv.snapshot_eq (h : s.Inv fl) {snap : PipelineSnapshot}
    (hret : s.pipeline.returned = some snap) :
    s.main.returned = stopOrder.length ∧
      ∃ now, snap = snapshotOf (loadOrder.map s.pipeline.current) now := by
  obtain ⟨⟨now, rfl⟩, hlen⟩ := h.pipeline.returned snap (Option.mem_def.2 hret)
  refine ⟨h.returned_le.eq_of_not_lt fun hlt ↦ ?_, now, ?_⟩
  · rw [h.unloaded hlt] at hlen
    exact absurd hlen (by decide)
  · conv_lhs => rw [h.loaded, List.take_of_length_le hlen]

/-- **The report adds up.** In every run of the health check, the snapshot is taken of a path that
has accounted for every tick, and its counters are: published ticks are processed, rejected or lost
by the parser; processed ones are forwarded, deduplicated, reordered or lost by the normalizer; and
the book processor has processed what the normalizer forwarded. -/
theorem snapshot_conserved {acts : List Action} {snap : PipelineSnapshot}
    (hrun : StepRun.run (step fl) init acts = some s) (hret : s.pipeline.returned = some snap) :
    s.pipeline.path.Conserved ∧
      snap.feedTicksPublished = snap.parserTicksProcessed + snap.parserTicksRejected +
        (lostOf s.pipeline.path.parser.fates).length ∧
      snap.parserTicksProcessed = snap.normTicksForwarded + snap.normTicksDeduplicated +
        snap.normTicksReordered + (lostOf s.pipeline.path.normalizer.fates).length ∧
      snap.bookTicksProcessed = snap.normTicksForwarded := by
  have h := inv_of_run hrun
  obtain ⟨hdone, now, rfl⟩ := h.snapshot_eq hret
  obtain ⟨hsim, hexit⟩ := h.exited_path hdone
  have hconserved := h.pipeline.path.conserved h.orderly hexit
  have hfeed := h.pipeline.feed
  rw [FeedSimulator.uncounted, h.between hsim, if_neg (by decide), Nat.add_zero] at hfeed
  exact ⟨hconserved, hfeed.trans hconserved.parserCounts, hconserved.normalizerCounts,
    hconserved.bookCounts⟩

/-- A rate stays below a threshold of one part in `k`. -/
theorem rate_lt_iff {part whole k : ℕ} (hk : 0 < k) (hwhole : 0 < whole) :
    rate part whole < 1 / k ↔ k * part < whole := by
  have hk' : (0 : ℚ) < k := Nat.cast_pos.2 hk
  have hwhole' : (0 : ℚ) < whole := Nat.cast_pos.2 hwhole
  rw [rate, if_pos hwhole, div_lt_div_iff₀ hwhole' hk', one_mul, mul_comm]
  exact_mod_cast Iff.rfl

/-- The list is empty when no check fails. -/
theorem exitCode_eq_zero_iff (percent : ℚ → String) (snap : PipelineSnapshot) :
    exitCode percent snap = 0 ↔
      (snap.feedTicksPublished ≠ 0 ∧ snap.parserTicksProcessed ≠ 0 ∧ snap.normTicksForwarded ≠ 0 ∧
        snap.bookTicksProcessed ≠ 0) ∧
        snap.feedDropRate < 5 / 100 ∧ snap.parserRejectRate < 10 / 100 := by
  simp only [exitCode, failures, List.isEmpty_iff, List.append_eq_nil_iff, ite_eq_left_iff,
    ite_eq_right_iff, List.cons_ne_nil, imp_false, one_ne_zero, not_not, not_le, and_assoc]

/-- **When the pipeline is reported healthy.** In every run of the health check: the exit code is
zero exactly if the normalizer has forwarded a tick, fewer than one tick was dropped by the feed for
twenty it published, and fewer than one rejected by the parser for ten it processed. That the feed
published, the parser processed and the book processor was given something follows. -/
theorem verdict_iff {acts : List Action} {snap : PipelineSnapshot} (percent : ℚ → String)
    (hrun : StepRun.run (step fl) init acts = some s) (hret : s.pipeline.returned = some snap) :
    exitCode percent snap = 0 ↔
      0 < snap.normTicksForwarded ∧ 20 * snap.feedTicksDropped < snap.feedTicksPublished ∧
        10 * snap.parserTicksRejected < snap.parserTicksProcessed := by
  obtain ⟨-, hpublished, hprocessed, hbook⟩ := snapshot_conserved hrun hret
  rw [exitCode_eq_zero_iff, show (5 / 100 : ℚ) = 1 / (20 : ℕ) by norm_num,
    show (10 / 100 : ℚ) = 1 / (10 : ℕ) by norm_num]
  constructor
  · rintro ⟨⟨hpub, hproc, hforward, -⟩, hdrop, hreject⟩
    exact ⟨Nat.pos_of_ne_zero hforward,
      (rate_lt_iff (by decide) (Nat.pos_of_ne_zero hpub)).1 hdrop,
      (rate_lt_iff (by decide) (Nat.pos_of_ne_zero hproc)).1 hreject⟩
  · rintro ⟨hforward, hdrop, hreject⟩
    -- a forwarded tick was processed, and a processed one published
    have hproc : 0 < snap.parserTicksProcessed := by omega
    have hpub : 0 < snap.feedTicksPublished := by omega
    exact ⟨⟨hpub.ne', hproc.ne', hforward.ne', by omega⟩, (rate_lt_iff (by decide) hpub).2 hdrop,
      (rate_lt_iff (by decide) hproc).2 hreject⟩

/-- A tick is fed, and the threads make this many steps each. -/
def fed (tick : MarketTick) (parser normalizer book : ℕ) : List Action :=
  [.publish tick, .countFeed] ++ List.replicate parser (.stage .parser) ++
    List.replicate normalizer (.stage .normalizer) ++ List.replicate book (.stage .book)

/-- Eight ticks reach the book. Then one is rejected, one is a duplicate and one comes too late, and
the stop flags find the normalizer and the parser each with a tick not yet pushed. -/
def session : List Action :=
  (List.range 8).flatMap (fun k : ℕ ↦ fed (volumeOfA (100 + k) 1 (k + 2)) 6 6 4) ++
    fed (volumeOfA (-1) 1 10) 4 0 0 ++ fed (volumeOfA 107 1 9) 6 4 0 ++
    fed (volumeOfA 108 1 1) 6 4 0 ++ fed (volumeOfA 109 1 10) 6 3 0 ++
    fed (volumeOfA 110 1 11) 3 0 0 ++
    [.request, .simExit, .join, .request] ++ List.replicate 3 (.stage .parser) ++
    [.join, .request] ++ List.replicate 3 (.stage .normalizer) ++
    [.join, .request] ++ List.replicate 2 (.stage .book) ++ .join :: List.replicate 10 (.collect 0)

/-- The report at the end: thirteen ticks published, eleven processed, eight forwarded. -/
theorem exists_run_session :
    ∃ s, StepRun.run (step (FloatEnv.exact fun _ ↦ 0)) init session = some s ∧
      s.pipeline.returned = some ⟨13, 0, 11, 1, 8, 1, 1, 8, 1, 0⟩ :=
  Option.map_eq_some_iff.1 (by decide +kernel :
    (StepRun.run (step (FloatEnv.exact fun _ ↦ 0)) init session).map
      (fun s ↦ s.pipeline.returned) = some (some ⟨13, 0, 11, 1, 8, 1, 1, 8, 1, 0⟩))

/-- What the counters leave open is one tick lost by each of the two stages. -/
theorem snapshot_conserved_session :
    ∃ s, StepRun.run (step (FloatEnv.exact fun _ ↦ 0)) init session = some s ∧
      s.pipeline.returned = some ⟨13, 0, 11, 1, 8, 1, 1, 8, 1, 0⟩ ∧ s.pipeline.path.Conserved ∧
      (lostOf s.pipeline.path.parser.fates).length = 1 ∧
      (lostOf s.pipeline.path.normalizer.fates).length = 1 := by
  obtain ⟨s, hrun, hret⟩ := exists_run_session
  obtain ⟨hconserved, hparser, hnormalizer, -⟩ := snapshot_conserved hrun hret
  exact ⟨s, hrun, hret, hconserved, (Nat.add_left_cancel hparser).symm,
    (Nat.add_left_cancel hnormalizer).symm⟩

/-- One rejected tick for eleven processed is healthy. -/
theorem verdict_session :
    ∃ s snap, StepRun.run (step (FloatEnv.exact fun _ ↦ 0)) init session = some s ∧
      s.pipeline.returned = some snap ∧ exitCode (fun _ ↦ "0.00") snap = 0 := by
  obtain ⟨s, hrun, hret⟩ := exists_run_session
  exact ⟨s, _, hrun, hret, (verdict_iff _ hrun hret).2 (by decide)⟩

end HealthCheck

end Mdp
