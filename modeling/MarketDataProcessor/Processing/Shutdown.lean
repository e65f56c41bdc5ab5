import MarketDataProcessor.Processing.Normalizer
import MarketDataProcessor.Processing.StageSystem
import MarketDataProcessor.Processing.TickParser

/-!
# Shutting down the parser and the normalizer

What the two filtering stages did with their input once their threads have returned, and whether the
drain protocol of the pipeline loses a tick.

## The drain protocol

The pipeline is stopped stage by stage: the producer is stopped, the stage's input is polled until
it is empty, then the stage is stopped. The stage may at that point have popped its last tick and
not have pushed it. `process_tick` tests the stop flag **before** the first attempt to push, so a
stop request that arrives in between makes it give the tick up although the output has room; had the
tick still been in the input, `drain_input` would have pushed it. `Exposed` is that window, and
`lossless_iff` shows that the protocol loses a tick exactly when the request falls into it.
-/

namespace Mdp

open StageSystem

/-! ### Exact accounting -/

section Accounting

variable {m n : ℕ} (input : BoundedQueue MarketTick m) (output : BoundedQueue MarketTick n)
  (acts : List (Action MarketTick))

/-- **Exact accounting of the parser and of the normalizer across shutdown.** For every interleaving
of the thread with upstream pushes, downstream pops and stop requests, once the thread has returned:
the ticks pushed are those the pure stage forwards of the popped ones, less the lost ones; at most
one was lost in `process_tick`, and those lost in `drain_input` found the output full; the counters
are the pure counts, and together with the lost ticks they add up to the popped ones. -/
theorem parser_and_normalizer_account_exactly :
    (∀ s, StepRun.run (step TickParser.stage) (init TickParser.stage input output) acts = some s →
      s.worker.pc = .exited →
      (s.worker.popped ++ s.input.items = s.fed ∧
          s.taken ++ s.output.items = output.items ++ pushedOf s.worker.fates) ∧
        TickParser.parse s.worker.popped = s.worker.fates.map Prod.fst ∧
        (lostInProcess s.worker.fates ≤ 1 ∧
          ∀ fate ∈ s.worker.fates, ∀ held, fate.2 = .lostInDrain held → held = n) ∧
        s.worker.forwarded = (pushedOf s.worker.fates).length ∧
        s.worker.dropped .rejected =
          s.worker.popped.countP (fun tick ↦ !TickParser.validate (TickParser.enrich tick)) ∧
        s.worker.popped.length = s.worker.forwarded + s.worker.dropped .rejected +
          (lostOf s.worker.fates).length) ∧
    (∀ s, StepRun.run (step Normalizer.stage) (init Normalizer.stage input output) acts = some s →
      s.worker.pc = .exited →
      (s.worker.popped ++ s.input.items = s.fed ∧
          s.taken ++ s.output.items = output.items ++ pushedOf s.worker.fates) ∧
        Normalizer.normalize s.worker.popped = s.worker.fates.map Prod.fst ∧
        (lostInProcess s.worker.fates ≤ 1 ∧
          ∀ fate ∈ s.worker.fates, ∀ held, fate.2 = .lostInDrain held → held = n) ∧
        s.worker.forwarded = (pushedOf s.worker.fates).length ∧
        (∀ why, s.worker.dropped why = (Normalizer.stage.dropsOf s.worker.popped).count why) ∧
        s.worker.popped.length = s.worker.forwarded + s.worker.dropped .deduplicated +
          s.worker.dropped .reordered + (lostOf s.worker.fates).length) := by
  constructor
  · intro s hrun hexit
    obtain ⟨hqueues, hpure, hlost, hforwarded, hdropped, hlen⟩ := accounted_at_exit hrun hexit
    have hrejected := hdropped .rejected
    rw [TickParser.length_dropsOf_stage, ← hrejected] at hlen
    rw [TickParser.forwardedOf_stage] at hpure
    rw [TickParser.count_dropsOf_stage] at hrejected
    exact ⟨hqueues, hpure, hlost, hforwarded, hrejected, hlen⟩
  · intro s hrun hexit
    obtain ⟨hqueues, hpure, hlost, hforwarded, hdropped, hlen⟩ := accounted_at_exit hrun hexit
    rw [Normalizer.length_dropsOf_stage, ← hdropped .deduplicated, ← hdropped .reordered,
      ← Nat.add_assoc] at hlen
    exact ⟨hqueues, hpure, hlost, hforwarded, hdropped, hlen⟩

/-- An empty `TickRingBuffer4K`. -/
def noTicks : BoundedQueue MarketTick 4096 := BoundedQueue.empty

/-- An interleaving in which the stop request arrives between the pop and the push of a tick. -/
def stopInBetween : List (Action MarketTick) :=
  [.upstreamPush (.shareOfA 100), .thread, .thread, .requestStop, .thread, .thread, .thread,
    .thread]

/-- Both stages lose the tick of `stopInBetween`, and account for it. -/
theorem account_exactly_stopInBetween :
    (∃ s, StepRun.run (step TickParser.stage)
        (init TickParser.stage noTicks noTicks)
        stopInBetween = some s ∧ (lostOf s.worker.fates).length = 1 ∧
      s.worker.popped.length = s.worker.forwarded + s.worker.dropped .rejected + 1) ∧
    (∃ s, StepRun.run (step Normalizer.stage)
        (init Normalizer.stage noTicks noTicks)
        stopInBetween = some s ∧ (lostOf s.worker.fates).length = 1 ∧
      s.worker.popped.length = s.worker.forwarded + s.worker.dropped .deduplicated +
        s.worker.dropped .reordered + 1) := by
  have haccount := parser_and_normalizer_account_exactly
    noTicks noTicks stopInBetween
  constructor
  · obtain ⟨s, hrun, hend⟩ := Option.map_eq_some_iff.1 (by decide +kernel :
      (StepRun.run (step TickParser.stage) (init TickParser.stage noTicks noTicks)
        stopInBetween).map (fun s ↦ (s.worker.pc, (lostOf s.worker.fates).length)) =
          some (.exited, 1))
    obtain ⟨hexit, hlost⟩ := Prod.mk.inj hend
    have hlen := (haccount.1 s hrun hexit).2.2.2.2.2
    rw [hlost] at hlen
    exact ⟨s, hrun, hlost, hlen⟩
  · obtain ⟨s, hrun, hend⟩ := Option.map_eq_some_iff.1 (by decide +kernel :
      (StepRun.run (step Normalizer.stage) (init Normalizer.stage noTicks noTicks)
        stopInBetween).map (fun s ↦ (s.worker.pc, (lostOf s.worker.fates).length)) =
          some (.exited, 1))
    obtain ⟨hexit, hlost⟩ := Prod.mk.inj hend
    have hlen := (haccount.2 s hrun hexit).2.2.2.2.2
    rw [hlost] at hlen
    exact ⟨s, hrun, hlost, hlen⟩

end Accounting

/-! ### The drain protocol -/

section Drain

variable {σ α β κ : Type*} {m n : ℕ} [DecidableEq κ] (S : FilterStage σ α β κ)

/-- The thread is about to push to a full output. -/
def StageSystem.pushesWhenFull (s : StageSystem σ α β κ m n) : Bool :=
  match s.worker.pc with
  | .tryPush _ _ => s.output.isFull
  | _ => false

/-- `step`, restricted to the runs in which the output is never full when the stage pushes. -/
def StageSystem.stepWithRoom (s : StageSystem σ α β κ m n) :
    Action α → Option (StageSystem σ α β κ m n)
  | .thread => if s.pushesWhenFull then none else s.step S .thread
  | a => s.step S a

/-- **The window.** `process_tick` holds a tick that it wants forwarded and has yet to test the stop
flag before its push. -/
def Worker.Exposed (w : Worker σ α β κ) : Prop :=
  (∃ tick out, w.pc = .classify .processTick tick ∧ (S.classify w.core tick).2 = .forward out) ∨
    ∃ out, w.pc = .pushTest out

/-- No tick the stage wants forwarded is on its way, other than to a push that will be tried. -/
def Worker.Settled (w : Worker σ α β κ) : Prop :=
  lostOf w.fates = [] ∧ ¬ w.Exposed S ∧ (∀ tick, w.pc ≠ .classify .drainInput tick) ∧
    ∀ tick, w.pc ≠ .tryPush .drainInput tick

variable {S} {w w' : Worker σ α β κ} {s t : StageSystem σ α β κ m n} {a : Action α}

theorem StageSystem.step_of_stepWithRoom (h : s.stepWithRoom S a = some t) :
    s.step S a = some t ∧ (a = .thread → s.pushesWhenFull = false) := by
  cases a with
  | thread =>
    rw [stepWithRoom] at h
    split_ifs at h with hfull
    exact ⟨h, fun _ ↦ by simpa using hfull⟩
  | upstreamPush tick => exact ⟨h, fun hne ↦ by cases hne⟩
  | downstreamPop => exact ⟨h, fun hne ↦ by cases hne⟩
  | requestStop => exact ⟨h, fun hne ↦ by cases hne⟩

section Rules

variable {input input' : BoundedQueue α m} {output output' : BoundedQueue β n}

/-- A thread takes nothing from an empty input and puts nothing into it. -/
theorem Worker.Step.input_nil {stop : Bool} (hstep : Step S stop w input output w' input' output')
    (hempty : input.items = []) : input'.items = [] := by
  cases hstep with
  | pop phase tick _ _ hitems => exact absurd (hempty.symm.trans hitems) (by simp)
  | _ => exact hempty

/-- **A settled thread stays settled** when its input is empty and its pushes find room. -/
theorem Worker.Settled.step (h : w.Settled S) (hempty : input.items = [])
    (hroom : ∀ phase tick, w.pc = .tryPush phase tick → output.items.length ≠ n)
    (hstep : Step S true w input output w' input' output') : w'.Settled S := by
  obtain ⟨hlost, hwindow, hdrain, hdrain'⟩ := h
  cases hstep with
  | enter _ hstop => exact absurd hstop (by simp)
  | attempt _ _ hstop => exact absurd hstop (by simp)
  | pop phase tick _ _ hitems => exact absurd (hempty.symm.trans hitems) (by simp)
  | abandon tick hpc => exact absurd (Or.inr ⟨tick, hpc⟩) hwindow
  | overflow tick hpc => exact absurd hpc (hdrain' tick)
  | retry tick hpc hfull => exact absurd hfull (hroom _ _ hpc)
  | keep phase tick core out hpc hverdict =>
    cases phase with
    | processTick => exact absurd (Or.inl ⟨tick, out, hpc, by rw [hverdict]⟩) hwindow
    | drainInput => exact absurd hpc (hdrain tick)
  | push phase tick =>
    refine ⟨?_, by simp [Worker.Exposed], by simp, by simp⟩
    rw [lostOf_concat, hlost]
    rfl
  | leave | drop => exact ⟨hlost, by simp [Worker.Exposed], by simp, by simp⟩
  | popEmpty phase =>
    cases phase <;>
      exact ⟨hlost, by simp [Worker.Exposed, Pc.idle], by simp [Pc.idle], by simp [Pc.idle]⟩
  | countDrop phase | countPush phase =>
    cases phase <;>
      exact ⟨hlost, by simp [Worker.Exposed, Pc.resume], by simp [Pc.resume], by simp [Pc.resume]⟩
  | rest => exact ⟨hlost, hwindow, hdrain, hdrain'⟩

/-- **A thread in the window loses its tick** once a stop is requested. -/
theorem Worker.Exposed.step (h : w.Exposed S)
    (hstep : Step S true w input output w' input' output') :
    w'.Exposed S ∨ lostOf w'.fates ≠ [] := by
  rcases h with ⟨tick, out, hpc, hverdict⟩ | ⟨out, hpc⟩
  · -- judged next, which takes it to the test
    cases hstep with
    | keep phase tick' core out' hpc' _ =>
      rw [hpc] at hpc'
      obtain ⟨rfl, rfl⟩ := Pc.classify.inj hpc'
      exact Or.inl (Or.inr ⟨out', rfl⟩)
    | drop phase tick' core why hpc' hverdict' =>
      rw [hpc] at hpc'
      obtain ⟨rfl, rfl⟩ := Pc.classify.inj hpc'
      rw [hverdict'] at hverdict
      cases hverdict
    | _ => simp_all
  · -- tested next, and given up
    cases hstep with
    | abandon tick =>
      right
      rw [lostOf_concat]
      exact List.append_ne_nil_of_right_ne_nil _ (by simp)
    | attempt _ _ hstop => exact absurd hstop (by simp)
    | _ => simp_all

theorem Worker.Step.lostOf_ne_nil {stop : Bool}
    (hstep : Step S stop w input output w' input' output') (h : lostOf w.fates ≠ []) :
    lostOf w'.fates ≠ [] := by
  rcases hstep.fates_cases with hsame | ⟨tick, fate, hnew, -⟩
  · rwa [hsame]
  · rw [hnew, lostOf_concat]
    exact List.append_ne_nil_of_left_ne_nil h _

end Rules

namespace StageSystem

/-- An input that nobody feeds stays empty. -/
theorem input_nil_of_step (hempty : s.input.items = []) (ha : ∀ tick, a ≠ .upstreamPush tick)
    (hstep : s.step S a = some t) : t.input.items = [] := by
  cases a with
  | upstreamPush tick => exact absurd rfl (ha tick)
  | downstreamPop =>
    obtain ⟨popped, -, rfl⟩ := Option.map_eq_some_iff.1 hstep
    exact hempty
  | requestStop =>
    obtain rfl := Option.some.inj hstep
    exact hempty
  | thread => exact (rule_of_step_thread hstep).1.input_nil hempty

/-- After the request: stopped, fed by nobody, settled. -/
theorem settled_step (hstop : s.stop = true) (hempty : s.input.items = []) (h : s.worker.Settled S)
    (hstep : s.stepWithRoom S a = some t) : t.stop = true ∧ t.worker.Settled S := by
  obtain ⟨hstep, hroom⟩ := step_of_stepWithRoom hstep
  refine ⟨stop_of_step hstop hstep, ?_⟩
  by_cases hthread : a = .thread
  · have hnot := hroom hthread
    subst hthread
    obtain ⟨hrule, -⟩ := rule_of_step_thread hstep
    rw [hstop] at hrule
    refine h.step hempty (fun phase tick hpc hfull ↦ ?_) hrule
    rw [pushesWhenFull, hpc] at hnot
    exact absurd (BoundedQueue.isFull_iff.2 hfull) (by simp [hnot])
  · rwa [(worker_of_step_neighbour hthread hstep).1]

/-- After the request: stopped, and in the window or past a loss. -/
theorem doomed_step (hstop : s.stop = true) (h : s.worker.Exposed S ∨ lostOf s.worker.fates ≠ [])
    (hstep : s.step S a = some t) :
    t.stop = true ∧ (t.worker.Exposed S ∨ lostOf t.worker.fates ≠ []) := by
  refine ⟨stop_of_step hstop hstep, ?_⟩
  by_cases hthread : a = .thread
  · subst hthread
    obtain ⟨hrule, -⟩ := rule_of_step_thread hstep
    rw [hstop] at hrule
    rcases h with h | h
    · exact h.step hrule
    · exact Or.inr (hrule.lostOf_ne_nil h)
  · rwa [(worker_of_step_neighbour hthread hstep).1]

/-- A run by the drain protocol. The producer has stopped by the time `o`, at which the input is
seen to be empty; `s` is the system when the stop is requested, and `t` when the thread has
returned. The output is never full when the stage pushes. -/
structure DrainRun (S : FilterStage σ α β κ) (input : BoundedQueue α m) (output : BoundedQueue β n)
    (before between after : List (Action α)) (o s t : StageSystem σ α β κ m n) : Prop where
  /-- The producer pushes while it runs. -/
  fed : StepRun.run (stepWithRoom S) (init S input output) before = some o
  /-- `input.empty()` returns true. -/
  observed : o.input.isEmpty = true
  /-- The observer goes on to call `stop()`. -/
  reached : StepRun.run (stepWithRoom S) o between = some s
  /-- `stop()` requests the stop and joins the thread. -/
  joined : StepRun.run (stepWithRoom S) s (.requestStop :: after) = some t
  /-- There is no earlier request. -/
  first : Action.requestStop ∉ before ++ between
  /-- The producer had stopped when the input was observed. -/
  quiet : ∀ tick, Action.upstreamPush tick ∉ between ++ after
  /-- `stop()` returned. -/
  exited : t.worker.pc = .exited

end StageSystem

/-- Every tick the stage popped and did not drop was pushed and counted. -/
def Worker.Lossless (S : FilterStage σ α β κ) (w : Worker σ α β κ) : Prop :=
  pushedOf w.fates = S.forwardedOf w.popped ∧ w.forwarded = (S.forwardedOf w.popped).length

namespace StageSystem

variable {input : BoundedQueue α m} {output : BoundedQueue β n}
  {before between after : List (Action α)} {o : StageSystem σ α β κ m n}

theorem DrainRun.whole (h : DrainRun S input output before between after o s t) :
    StepRun.run (stepWithRoom S) (init S input output)
      (before ++ (between ++ .requestStop :: after)) = some t :=
  StepRun.run_append_eq_some_iff.2
    ⟨o, h.fed, StepRun.run_append_eq_some_iff.2 ⟨s, h.reached, h.joined⟩⟩

theorem DrainRun.accounted (h : DrainRun S input output before between after o s t) :
    t.Accounted S output.items :=
  StepRun.run_invariant (fun _ _ _ hacc hstep ↦ hacc.step (step_of_stepWithRoom hstep).1)
    (accounted_init S input output) h.whole

/-- When the stop is requested nothing is lost and `drain_input` has not begun. -/
theorem DrainRun.undisturbed (h : DrainRun S input output before between after o s t) :
    s.Undisturbed := by
  have hstart : (init S input output).Undisturbed := ⟨rfl, Worker.undisturbed_start S⟩
  have hstep : ∀ {acts : List (Action α)}, Action.requestStop ∉ acts → ∀ a ∈ acts,
      ∀ s t : StageSystem σ α β κ m n, s.Undisturbed → s.stepWithRoom S a = some t →
        t.Undisturbed :=
    fun hno a ha _ _ hund hstep ↦
      hund.step (fun heq ↦ hno (heq ▸ ha)) (step_of_stepWithRoom hstep).1
  have ho := StepRun.run_invariant_of_mem
    (hstep fun hmem ↦ h.first (List.mem_append_left _ hmem)) hstart h.fed
  exact StepRun.run_invariant_of_mem
    (hstep fun hmem ↦ h.first (List.mem_append_right _ hmem)) ho h.reached

/-- When the stop is requested the input is still empty. -/
theorem DrainRun.input_nil (h : DrainRun S input output before between after o s t) :
    s.input.items = [] := by
  refine StepRun.run_invariant_of_mem (P := fun s ↦ s.input.items = [])
    (fun a ha s t hnil hstep ↦ ?_) (BoundedQueue.isEmpty_iff.1 h.observed) h.reached
  refine input_nil_of_step hnil (fun tick heq ↦ ?_) (step_of_stepWithRoom hstep).1
  exact h.quiet tick (List.mem_append_left _ (heq ▸ ha))

/-- **The drain protocol loses a tick exactly when the stop request falls into the window.** -/
theorem DrainRun.lossless_iff (h : DrainRun S input output before between after o s t) :
    t.worker.Lossless S ↔ ¬ s.worker.Exposed S := by
  obtain ⟨⟨judged, haccounts⟩, -, -, -⟩ := h.accounted
  obtain ⟨hpure, hforwarded, -, -⟩ := haccounts.of_nothing (by rw [h.exited]; rfl)
  have hlossless : t.worker.Lossless S ↔ lostOf t.worker.fates = [] := by
    rw [Worker.Lossless, hpure, hforwarded, pushedOf_eq_map_fst_iff, and_iff_left_iff_imp]
    intro hlost
    rw [pushedOf_eq_map_fst_iff.2 hlost]
  obtain ⟨u, hreq, hafter⟩ := StepRun.run_cons_eq_some_iff.1 h.joined
  obtain rfl := Option.some.inj hreq
  rw [hlossless]
  constructor
  · -- from inside the window every way to the exit loses the tick
    intro hlost hwindow
    have hdoomed := StepRun.run_invariant
      (P := fun s ↦ s.stop = true ∧ (s.worker.Exposed S ∨ lostOf s.worker.fates ≠ []))
      (fun _ _ _ hd hstep ↦ doomed_step hd.1 hd.2 (step_of_stepWithRoom hstep).1)
      ⟨rfl, Or.inl hwindow⟩ hafter
    rcases hdoomed.2 with hexposed | hne
    · rw [Worker.Exposed, h.exited] at hexposed
      simp at hexposed
    · exact hne hlost
  · -- outside it nothing is pending but pushes that will be tried
    intro hwindow
    obtain ⟨-, hnone, hphase, -⟩ := h.undisturbed
    have hsettled : s.worker.Settled S := by
      refine ⟨hnone, hwindow, fun tick hpc ↦ ?_, fun tick hpc ↦ ?_⟩
      · exact hphase (by rw [hpc]; rfl)
      · exact hphase (by rw [hpc]; rfl)
    refine (StepRun.run_invariant_of_mem
      (P := fun s : StageSystem σ α β κ m n ↦
        s.input.items = [] ∧ s.stop = true ∧ s.worker.Settled S)
      (s := { s with stop := true }) (fun a ha s t hs hstep ↦ ?_)
      ⟨h.input_nil, rfl, hsettled⟩ hafter).2.2.1
    obtain ⟨hnil, hstop, hset⟩ := hs
    refine ⟨?_, settled_step hstop hnil hset hstep⟩
    refine input_nil_of_step hnil (fun tick heq ↦ ?_) (step_of_stepWithRoom hstep).1
    exact h.quiet tick (List.mem_append_right _ (heq ▸ ha))

/-- A run by the protocol from its evaluation, for an observer that calls `stop()` at once. -/
theorem exists_drainRun (S : FilterStage σ α β κ) (input : BoundedQueue α m)
    (output : BoundedQueue β n) (before after : List (Action α))
    (hfed : (StepRun.run (stepWithRoom S) (init S input output) before).map (·.input.isEmpty) =
      some true)
    (hjoined : (StepRun.run (stepWithRoom S) (init S input output)
      (before ++ .requestStop :: after)).map (·.worker.pc) = some .exited)
    (hfirst : Action.requestStop ∉ before) (hquiet : ∀ tick, Action.upstreamPush tick ∉ after) :
    ∃ s t, DrainRun S input output before [] after s s t := by
  obtain ⟨s, hs, hempty⟩ := Option.map_eq_some_iff.1 hfed
  obtain ⟨t, ht, hexit⟩ := Option.map_eq_some_iff.1 hjoined
  obtain ⟨s', hs', ht'⟩ := StepRun.run_append_eq_some_iff.1 ht
  obtain rfl := Option.some.inj (hs.symm.trans hs')
  exact ⟨s, t, hs, hempty, rfl, ht', by simpa using hfirst, by simpa using hquiet, hexit⟩

end StageSystem

end Drain

/-- **When the drain protocol loses no tick**, for the parser and for the normalizer: exactly when
the stop request does not find the thread holding a tick that it wants forwarded and whose stop test
is still to come. -/
theorem drain_protocol_lossless_iff {m n : ℕ} (input : BoundedQueue MarketTick m)
    (output : BoundedQueue MarketTick n) (before between after : List (Action MarketTick)) :
    (∀ o s t, DrainRun TickParser.stage input output before between after o s t →
        (t.worker.Lossless TickParser.stage ↔ ¬ s.worker.Exposed TickParser.stage)) ∧
      ∀ o s t, DrainRun Normalizer.stage input output before between after o s t →
        (t.worker.Lossless Normalizer.stage ↔ ¬ s.worker.Exposed Normalizer.stage) :=
  ⟨fun _ _ _ h ↦ h.lossless_iff, fun _ _ _ h ↦ h.lossless_iff⟩

/-- An interleaving that takes a tick past the stop test before its push. -/
def pastTheTest : List (Action MarketTick) :=
  [.upstreamPush (.shareOfA 100), .thread, .thread, .thread, .thread]

/-- An interleaving that pops a tick and goes no further. -/
def justPopped : List (Action MarketTick) := [.upstreamPush (.shareOfA 100), .thread, .thread]

/-- Enough steps for the thread to return. -/
def returning : List (Action MarketTick) := [.thread, .thread, .thread, .thread]

/-- A stop request that finds the tick past its stop test loses nothing. -/
theorem drain_protocol_lossless_pastTheTest :
    (∃ s t, DrainRun TickParser.stage noTicks noTicks pastTheTest [] returning s s t ∧
        t.worker.Lossless TickParser.stage) ∧
      ∃ s t, DrainRun Normalizer.stage noTicks noTicks pastTheTest [] returning s s t ∧
        t.worker.Lossless Normalizer.stage := by
  have hiff := drain_protocol_lossless_iff noTicks noTicks pastTheTest [] returning
  have hwindow : ∀ {σ κ : Type} {S : FilterStage σ MarketTick MarketTick κ} [DecidableEq κ]
      {w : Worker σ MarketTick MarketTick κ} {tick : MarketTick},
      w.pc = .tryPush .processTick tick → ¬ w.Exposed S := by
    rintro σ κ S - w tick hpc (⟨_, _, hc, -⟩ | ⟨_, hc⟩)
    · rw [hpc] at hc
      cases hc
    · rw [hpc] at hc
      cases hc
  constructor
  · obtain ⟨s, t, h⟩ := exists_drainRun TickParser.stage noTicks noTicks pastTheTest returning
      (by decide +kernel) (by decide +kernel) (by simp [pastTheTest]) (by simp [returning])
    have hpc : s.worker.pc = .tryPush .processTick (TickParser.enrich (.shareOfA 100)) :=
      StepRun.eq_of_run_map (fun s ↦ s.worker.pc) h.fed (by decide +kernel)
    exact ⟨s, t, h, (hiff.1 s s t h).2 (hwindow hpc)⟩
  · obtain ⟨s, t, h⟩ := exists_drainRun Normalizer.stage noTicks noTicks pastTheTest returning
      (by decide +kernel) (by decide +kernel) (by simp [pastTheTest]) (by simp [returning])
    have hpc : s.worker.pc = .tryPush .processTick (.shareOfA 100) :=
      StepRun.eq_of_run_map (fun s ↦ s.worker.pc) h.fed (by decide +kernel)
    exact ⟨s, t, h, (hiff.2 s s t h).2 (hwindow hpc)⟩

/-- **The drain protocol can lose a tick.** The tick is popped, the input is seen to be empty, the
stop is requested, and only then is the stop flag tested: neither stage pushes the tick. -/
theorem drain_protocol_loses_justPopped :
    ¬ (∀ (input : BoundedQueue MarketTick 16384) (output : BoundedQueue MarketTick 4096) before
        between after o s t, DrainRun TickParser.stage input output before between after o s t →
          t.worker.Lossless TickParser.stage) ∧
      ¬ ∀ (input output : BoundedQueue MarketTick 4096) before between after o s t,
        DrainRun Normalizer.stage input output before between after o s t →
          t.worker.Lossless Normalizer.stage := by
  constructor
  · intro hall
    obtain ⟨s, t, h⟩ := exists_drainRun TickParser.stage
      (BoundedQueue.empty : BoundedQueue MarketTick 16384) noTicks justPopped returning
      (by decide +kernel) (by decide +kernel) (by simp [justPopped]) (by simp [returning])
    have hpushed := StepRun.eq_of_run_map (c := false) (fun t ↦ decide
      (pushedOf t.worker.fates = TickParser.stage.forwardedOf t.worker.popped)) h.whole
      (by decide +kernel)
    exact of_decide_eq_false hpushed (hall _ _ _ _ _ _ _ _ h).1
  · intro hall
    obtain ⟨s, t, h⟩ := exists_drainRun Normalizer.stage noTicks noTicks justPopped returning
      (by decide +kernel) (by decide +kernel) (by simp [justPopped]) (by simp [returning])
    have hpushed := StepRun.eq_of_run_map (c := false) (fun t ↦ decide
      (pushedOf t.worker.fates = Normalizer.stage.forwardedOf t.worker.popped)) h.whole
      (by decide +kernel)
    exact of_decide_eq_false hpushed (hall _ _ _ _ _ _ _ _ h).1

end Mdp
