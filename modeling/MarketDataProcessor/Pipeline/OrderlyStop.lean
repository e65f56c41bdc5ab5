import MarketDataProcessor.Pipeline.TickPath

/-!
# Stopping the path front to back

Every program of the repository that stops the pipeline stops it in the direction of the ticks: a
stage is asked when the one in front of it has returned. `Orderly` is what that buys, for whatever
sets the flags: a thread is on its way out only if it was asked, and one that has returned has left
its input empty for good, since nobody is left to push.

Together with `Flow` this accounts for every tick at the end (`Flow.accounted_at_exit`): what was
fed was judged by the parser, what the parser pushed was judged by the normalizer, what the
normalizer pushed was applied, and what is missing in between was lost on the way out of a thread,
at most one tick in `process_tick` and the others on a full buffer.

## Why the order of the requests is needed

A thread that has returned may find its input filled again by the stage in front of it, and these
ticks would be neither judged nor counted as lost. `FrontToBack` rules that out, and it is used for
one thing only: in `Orderly.advance`, where a step of a stage could push to a thread that has
returned, the stage itself has returned already and makes no step.

The bounds on what is lost (`Losses`) are facts about one stage, from `Processing/StageAccounting`;
they are carried along because they depend on the flag at the moment of the loss.
-/

namespace Mdp

section Threads

variable {σ α β κ : Type*} {m n : ℕ}

/-- On the way out of `run`: in `drain_input` or past it. -/
def Pc.Leaving (pc : Pc α β κ) : Prop := pc.phase? = some .drainInput ∨ pc = .exited

variable [DecidableEq κ] {S : FilterStage σ α β κ} {stop : Bool} {w w' : Worker σ α β κ}
  {input input' : BoundedQueue α m} {output output' : BoundedQueue β n}

/-- **A thread leaves when it is asked to.** -/
theorem Worker.Step.leaving (hstep : Worker.Step S stop w input output w' input' output')
    (hasked : w.pc.Leaving → stop = true) (h : w'.pc.Leaving) : stop = true := by
  cases stop with
  | true => rfl
  | false =>
    have hnot : ¬ w.pc.Leaving := fun hleaving ↦ Bool.noConfusion (hasked hleaving)
    obtain ⟨hphase, hrunning⟩ :=
      hstep.not_draining (fun hdrain ↦ hnot (Or.inl hdrain)) fun hexit ↦ hnot (Or.inr hexit)
    exact absurd h (not_or.2 ⟨hphase, hrunning⟩)

/-- **A thread returns on an empty input.** -/
theorem Worker.Step.input_of_exited (hstep : Worker.Step S stop w input output w' input' output')
    (hempty : w.pc = .exited → input.items = []) (hexit : w'.pc = .exited) :
    input'.items = [] := by
  cases hstep with
  | popEmpty _ _ hnil => exact hnil
  | rest hpc => exact hempty hpc
  | keep phase | countDrop phase | countPush phase => cases phase <;> simp_all [Pc.send, Pc.resume]
  | _ => simp at hexit

/-- A thread that has returned leaves both buffers as they are. -/
theorem Worker.Step.buffers_of_exited
    (hstep : Worker.Step S stop w input output w' input' output') (hexit : w.pc = .exited) :
    input' = input ∧ output' = output := by
  cases hstep with
  | rest => exact ⟨rfl, rfl⟩
  | _ => simp_all

end Threads

namespace BookWorker

/-- On the way out of `run`: in `drain_input` or past it. -/
def Pc.Leaving : Pc → Prop
  | .tryPop phase | .apply phase _ | .count phase _ | .pushDb phase _ | .pushSignal phase _ =>
    phase = .drainInput
  | .exited => True
  | .loopTest => False

variable {fl : FloatEnv} {n : ℕ} {stop : Bool} {w w' : BookWorker}
  {input input' : BoundedQueue MarketTick n}

theorem Step.leaving (hstep : Step fl stop w input w' input')
    (hasked : w.pc.Leaving → stop = true) (h : w'.pc.Leaving) : stop = true := by
  cases hstep with
  | enter => exact absurd h (by simp [Pc.Leaving])
  | leave _ hstop => exact hstop
  | popEmpty phase hpc | pushSignal phase _ hpc =>
    cases phase with
    | processTick => exact h.elim
    | drainInput => exact hasked (by rw [hpc]; rfl)
  | count phase snap hpc =>
    cases phase with
    | processTick => cases snap <;> exact absurd h (by simp [Pc.Leaving, Pc.counted, Pc.resume])
    | drainInput => exact hasked (by rw [hpc]; rfl)
  | pop _ _ _ hpc | apply _ _ hpc | pushDb _ _ hpc =>
    exact hasked (by rw [hpc]; exact h)
  | rest => exact hasked h

theorem Step.input_of_exited (hstep : Step fl stop w input w' input')
    (hempty : w.pc = .exited → input.items = []) (hexit : w'.pc = .exited) :
    input'.items = [] := by
  cases hstep with
  | popEmpty _ _ hnil => exact hnil
  | rest hpc => exact hempty hpc
  | count phase snap => cases phase <;> cases snap <;> simp [Pc.counted, Pc.resume] at hexit
  | pushSignal phase => cases phase <;> simp [Pc.resume] at hexit
  | _ => simp at hexit

end BookWorker

namespace TickPath

/-- The invariant of a path that is stopped front to back, with the flags as they are. -/
structure Orderly (stop : Stage → Bool) (s : TickPath) : Prop where
  /-- A thread leaves when it is asked to. -/
  parser : s.parser.pc.Leaving → stop .parser = true
  normalizer : s.normalizer.pc.Leaving → stop .normalizer = true
  book : s.book.pc.Leaving → stop .book = true
  /-- A thread that has returned has left its input empty. -/
  raw : s.parser.pc = .exited → s.raw.items = []
  parsed : s.normalizer.pc = .exited → s.parsed.items = []
  normalized : s.book.pc = .exited → s.normalized.items = []
  /-- What a filtering stage lost is within bounds. -/
  parserLosses : s.parser.Losses 4096 (stop .parser)
  normalizerLosses : s.normalizer.Losses 4096 (stop .normalizer)

/-- A stage is asked when the one in front of it has returned. -/
structure FrontToBack (stop : Stage → Bool) (s : TickPath) : Prop where
  normalizer : stop .normalizer = true → s.parser.pc = .exited
  book : stop .book = true → s.normalizer.pc = .exited

variable {fl : FloatEnv} {stop stop' : Stage → Bool} {s t : TickPath}

theorem orderly_init (dbQueue signalQueue : Option SnapshotQueue) (stop : Stage → Bool) :
    (init dbQueue signalQueue).Orderly stop := by
  refine ⟨fun h ↦ ?_, fun h ↦ ?_, fun h ↦ h.elim, fun h ↦ ?_, fun h ↦ ?_, fun h ↦ ?_,
    Worker.losses_start _, Worker.losses_start _⟩
  · simp [init, Worker.start, Pc.Leaving, Pc.phase?] at h
  · simp [init, Worker.start, Pc.Leaving, Pc.phase?] at h
  all_goals simp [init, Worker.start, BookWorker.start] at h

/-- A request is granted for free. -/
theorem Orderly.request (h : s.Orderly stop)
    (hle : ∀ stage, stop stage = true → stop' stage = true) : s.Orderly stop' := by
  have hlosses : ∀ {σ κ : Type} {w : Worker σ MarketTick MarketTick κ} {old new : Bool},
      (old = true → new = true) → w.Losses 4096 old → w.Losses 4096 new := by
    intro σ κ w old new himp hw
    exact ⟨hw.process_le, fun hone ↦ ⟨himp (hw.process_once hone).1, (hw.process_once hone).2⟩,
      hw.drain_full⟩
  exact ⟨fun hl ↦ hle _ (h.parser hl), fun hl ↦ hle _ (h.normalizer hl), fun hl ↦ hle _ (h.book hl),
    h.raw, h.parsed, h.normalized, hlosses (hle _) h.parserLosses,
    hlosses (hle _) h.normalizerLosses⟩

/-- A tick may enter until the parser is asked. -/
theorem Orderly.feed (h : s.Orderly stop) {tick : MarketTick} (hrunning : stop .parser = false)
    (hfeed : s.feed tick = some t) : t.Orderly stop := by
  obtain ⟨raw', -, rfl⟩ := Option.map_eq_some_iff.1 hfeed
  refine ⟨h.parser, h.normalizer, h.book, fun hexit ↦ ?_, h.parsed, h.normalized, h.parserLosses,
    h.normalizerLosses⟩
  exact Bool.noConfusion (hrunning.symm.trans (h.parser (Or.inr hexit)))

/-- **Every step of a thread keeps the order.** -/
theorem Orderly.advance (h : s.Orderly stop) (hfront : s.FrontToBack stop) {stage : Stage}
    (hstep : Advance fl stop s stage t) : t.Orderly stop := by
  cases hstep with
  | parser w raw' parsed' hrule =>
    refine ⟨hrule.leaving h.parser, h.normalizer, h.book, hrule.input_of_exited h.raw,
      fun hexit ↦ ?_, h.normalized, h.parserLosses.step hrule, h.normalizerLosses⟩
    -- the normalizer was asked, so the parser had returned
    have hparser := hfront.normalizer (h.normalizer (Or.inr hexit))
    rw [(hrule.buffers_of_exited hparser).2]
    exact h.parsed hexit
  | normalizer w parsed' normalized' hrule =>
    refine ⟨h.parser, hrule.leaving h.normalizer, h.book, h.raw, hrule.input_of_exited h.parsed,
      fun hexit ↦ ?_, h.parserLosses, h.normalizerLosses.step hrule⟩
    have hnorm := hfront.book (h.book (by rw [hexit]; trivial))
    rw [(hrule.buffers_of_exited hnorm).2]
    exact h.normalized hexit
  | book w normalized' hrule =>
    exact ⟨h.parser, h.normalizer, hrule.leaving h.book, h.raw, h.parsed,
      hrule.input_of_exited h.normalized, h.parserLosses, h.normalizerLosses⟩

theorem Orderly.withDb (h : s.Orderly stop) (queue : SnapshotQueue) :
    (s.withDb queue).Orderly stop :=
  ⟨h.parser, h.normalizer, h.book, h.raw, h.parsed, h.normalized, h.parserLosses,
    h.normalizerLosses⟩

theorem Orderly.withSignal (h : s.Orderly stop) (queue : SnapshotQueue) :
    (s.withSignal queue).Orderly stop :=
  ⟨h.parser, h.normalizer, h.book, h.raw, h.parsed, h.normalized, h.parserLosses,
    h.normalizerLosses⟩

/-! ### The end of the path -/

/-- All three threads have returned from `run`. -/
structure Exited (s : TickPath) : Prop where
  parser : s.parser.pc = .exited
  normalizer : s.normalizer.pc = .exited
  book : s.book.pc = .exited

/-- A thread that has returned stays so. -/
theorem Advance.stays_exited {stage : Stage} (hstep : Advance fl stop s stage t) :
    (s.parser.pc = .exited → t.parser.pc = .exited) ∧
      (s.normalizer.pc = .exited → t.normalizer.pc = .exited) ∧
      (s.book.pc = .exited → t.book.pc = .exited) := by
  cases hstep with
  | parser w _ _ hrule =>
    exact ⟨fun hpc ↦ (congrArg _ (hrule.eq_of_exited hpc)).trans hpc, id, id⟩
  | normalizer w _ _ hrule =>
    exact ⟨id, fun hpc ↦ (congrArg _ (hrule.eq_of_exited hpc)).trans hpc, id⟩
  | book w _ hrule => exact ⟨id, id, fun hpc ↦ (congrArg _ (hrule.eq_of_exited hpc)).trans hpc⟩

/-- Nothing moves any more. -/
theorem Advance.threads_of_exited (hexit : s.Exited) {stage : Stage}
    (hstep : Advance fl stop s stage t) :
    t.parser = s.parser ∧ t.normalizer = s.normalizer ∧ t.book = s.book := by
  cases hstep with
  | parser w _ _ hrule => exact ⟨hrule.eq_of_exited hexit.parser, rfl, rfl⟩
  | normalizer w _ _ hrule => exact ⟨rfl, hrule.eq_of_exited hexit.normalizer, rfl⟩
  | book w _ hrule => exact ⟨rfl, rfl, hrule.eq_of_exited hexit.book⟩

/-- What became of every tick that was fed. -/
structure Conserved (s : TickPath) : Prop where
  /-- The parser judged everything that was fed. -/
  parsed : TickParser.parse s.fed = s.parser.fates.map Prod.fst
  /-- The normalizer judged everything the parser pushed. -/
  normalized : Normalizer.normalize (pushedOf s.parser.fates) = s.normalizer.fates.map Prod.fst
  /-- The books were given everything the normalizer pushed. -/
  applied : s.book.applied = pushedOf s.normalizer.fates
  /-- The counters of the parser and its losses add up to the ticks fed. -/
  parserCounts : s.fed.length = s.parser.forwarded + s.parser.dropped .rejected +
    (lostOf s.parser.fates).length
  /-- Those of the normalizer add up to what the parser counted as processed. -/
  normalizerCounts : s.parser.forwarded = s.normalizer.forwarded +
    s.normalizer.dropped .deduplicated + s.normalizer.dropped .reordered +
    (lostOf s.normalizer.fates).length
  /-- The book processor counted what the normalizer counted as forwarded. -/
  bookCounts : s.book.processor.ticksProcessed = s.normalizer.forwarded
  /-- `process_tick` lost at most one tick in each stage; the others were lost on a full buffer. -/
  parserLosses : lostInProcess s.parser.fates ≤ 1 ∧
    ∀ fate ∈ s.parser.fates, ∀ held, fate.2 = .lostInDrain held → held = 4096
  normalizerLosses : lostInProcess s.normalizer.fates ≤ 1 ∧
    ∀ fate ∈ s.normalizer.fates, ∀ held, fate.2 = .lostInDrain held → held = 4096

/-- **Every tick is accounted for once all threads have returned.** -/
theorem Flow.conserved {dbQueue signalQueue : Option SnapshotQueue}
    (h : s.Flow fl dbQueue signalQueue) (horderly : s.Orderly stop) (hexit : s.Exited) :
    s.Conserved := by
  obtain ⟨judged, hparser⟩ := h.parser
  obtain ⟨judged', hnorm⟩ := h.normalizer
  obtain ⟨hpFates, hpForwarded, hpDropped, hpLen⟩ :=
    hparser.of_nothing (by rw [hexit.parser]; rfl)
  obtain ⟨hnFates, hnForwarded, hnDropped, hnLen⟩ :=
    hnorm.of_nothing (by rw [hexit.normalizer]; rfl)
  -- the three buffers are empty
  have hraw := h.raw
  have hparsed := h.parsed
  have hnormalized := h.normalized
  rw [horderly.raw hexit.parser, List.append_nil] at hraw
  rw [horderly.parsed hexit.normalizer, List.append_nil] at hparsed
  rw [horderly.normalized hexit.book, List.append_nil, h.book.popped, hexit.book] at hnormalized
  have happlied : s.book.applied = pushedOf s.normalizer.fates := by
    rw [← hnormalized]
    exact (List.append_nil _).symm
  have hcounted := h.book.counted
  rw [hexit.book] at hcounted
  refine ⟨?_, ?_, happlied, ?_, ?_, ?_, ⟨horderly.parserLosses.process_le,
    horderly.parserLosses.drain_full⟩, horderly.normalizerLosses.process_le,
    horderly.normalizerLosses.drain_full⟩
  · rw [← hraw, ← TickParser.forwardedOf_stage, hpFates]
  · rw [← hparsed]
    exact hnFates
  · rw [← hraw, hpLen, TickParser.length_dropsOf_stage, hpDropped]
  · rw [hpForwarded, ← hparsed, hnLen, Normalizer.length_dropsOf_stage, hnDropped, hnDropped]
    omega
  · rw [hnForwarded, ← happlied]
    exact hcounted

end TickPath

end Mdp
