import MarketDataProcessor.Foundations.Fairness
import MarketDataProcessor.Pipeline.Confluence
import MarketDataProcessor.Pipeline.TickPath
import MarketDataProcessor.Processing.Workload

/-!
# Fair schedules finish

`Confluence` says what the pipeline has computed whenever it comes to rest. Here it is shown to come
to rest: once nothing more is published, every schedule that lets each of the three threads make a
step now and then gets all published ticks to the books, whatever else it does.

Full buffers make threads wait for each other, so no thread can promise to advance by itself. But
the waiting goes down the pipeline only: the book processor waits for nobody, the normalizer for
room that the book processor makes, the parser for room that the normalizer makes. So as long as
anything is left, the last stage with something to do can do it (`Flow.exists_ready`), and nobody
takes that from it before its turn. `workload` counts what is left; a raw tick is worth nineteen
steps, which pay for its way through all stages and for the waiting it ends.

## What the result rests on

* `Flow.workload_lt` and `Flow.workload_le_of_step` are the step lemmas: a ready stage takes work
  off, and only the feed puts work on. The weights 19, 11 and 3 of a tick in the three buffers are
  chosen so that passing a tick on is paid for by the weight it loses.
* `stays_ready` is what makes turns count. The one that could end the readiness of a stage is the
  stage itself, since its input has no other consumer and its output no other producer.
* `Flow.exists_ready` goes from the end of the pipeline to its beginning. Of the account of a stage
  it needs only that the stage has not returned.

`Fairness` turns the three into a bound in rounds, and `Confluence` says what the state is in which
nothing is left.
-/

namespace Mdp

open BookProcessor

namespace Pipeline

/-! ### What is left to do -/

/-- The stage an action is a step of. -/
def Action.stage? : Action → Option Stage
  | .parser => some .parser
  | .normalizer => some .normalizer
  | .book => some .book
  | _ => none

/-- What is left to do: ticks in the buffers, and what the stages are at. -/
def workload (s : Pipeline) : ℕ :=
  19 * s.raw.items.length + s.parser.pc.workload 11 (!s.raw.isEmpty) (!s.parsed.isFull) +
    (11 * s.parsed.items.length +
      s.normalizer.pc.workload 3 (!s.parsed.isEmpty) (!s.normalized.isFull)) +
    (3 * s.normalized.items.length + s.book.hand.toList.length)

/-- The next step of a stage gets further. -/
def Ready (s : Pipeline) : Stage → Prop
  | .parser => s.parser.pc.ready (!s.raw.isEmpty) (!s.parsed.isFull) = true
  | .normalizer => s.normalizer.pc.ready (!s.parsed.isEmpty) (!s.normalized.isFull) = true
  | .book => s.book.hand ≠ none ∨ s.normalized.items ≠ []

variable {fl : FloatEnv} {dbQueue signalQueue : Option SnapshotQueue} {s t : Pipeline} {a : Action}

theorem workload_le (s : Pipeline) :
    s.workload ≤ 19 * s.raw.items.length + 11 * s.parsed.items.length +
      3 * s.normalized.items.length + 27 := by
  have hparser := s.parser.pc.workload_le 11 (!s.raw.isEmpty) (!s.parsed.isFull)
  have hnorm := s.normalizer.pc.workload_le 3 (!s.parsed.isEmpty) (!s.normalized.isFull)
  have hhand : s.book.hand.toList.length ≤ 1 := by cases s.book.hand <;> simp
  rw [workload]
  omega

/-- With nothing left to do the pipeline is at rest. -/
theorem quiescent_of_workload (h : s.workload = 0) : s.Quiescent := by
  rw [workload] at h
  have hparser : s.parser.pc.workload 11 (!s.raw.isEmpty) (!s.parsed.isFull) = 0 := by omega
  have hnorm : s.normalizer.pc.workload 3 (!s.parsed.isEmpty) (!s.normalized.isFull) = 0 := by
    omega
  refine ⟨List.length_eq_zero_iff.1 (by omega), List.length_eq_zero_iff.1 (by omega),
    List.length_eq_zero_iff.1 (by omega), Pc.holding_of_workload_eq_zero hparser,
    Pc.holding_of_workload_eq_zero hnorm, ?_⟩
  exact Option.toList_eq_nil_iff.1 (List.length_eq_zero_iff.1 (by omega))

/-! ### What the steps do -/

/-- **The book processor waits for nobody.** -/
theorem bookStep_workload_lt (fl : FloatEnv) {book : BookThread}
    {input : BoundedQueue MarketTick 4096} (hready : book.hand ≠ none ∨ input.items ≠ []) :
    3 * (bookStep fl book input).2.items.length + (bookStep fl book input).1.hand.toList.length +
        1 + (input.items.length - (bookStep fl book input).2.items.length) ≤
      3 * input.items.length + book.hand.toList.length := by
  unfold bookStep
  split
  next hhand =>
    split
    next hnone =>
      exact absurd (BoundedQueue.tryPop_eq_none_iff.1 hnone)
        (hready.resolve_left fun h ↦ h hhand)
    next tick input' hpop =>
      rw [BoundedQueue.tryPop_eq_some_iff.1 hpop, hhand, List.length_cons]
      simp only [Option.toList_some, Option.toList_none, List.length_singleton, List.length_nil]
      omega
  next tick hhand =>
    rw [hhand]
    simp only [Option.toList_some, Option.toList_none, List.length_singleton, List.length_nil]
    omega

/-- A book processor with nothing to do does nothing. -/
theorem bookStep_eq_self (fl : FloatEnv) {book : BookThread}
    {input : BoundedQueue MarketTick 4096} (hidle : ¬ (book.hand ≠ none ∨ input.items ≠ [])) :
    bookStep fl book input = (book, input) := by
  rw [not_or, not_not, not_not] at hidle
  rw [bookStep, hidle.1]
  simp only [BoundedQueue.tryPop_eq_none_iff.2 hidle.2]

/-- Nobody publishes. -/
def Action.Closed (a : Action) : Prop := ∀ tick, a ≠ .publish tick

/-- **A ready stage takes work off.** -/
theorem Flow.workload_lt (h : s.Flow fl dbQueue signalQueue) {stage : Stage}
    (hstage : a.stage? = some stage) (hready : s.Ready stage) (hstep : s.step fl a = some t) :
    t.workload < s.workload := by
  cases a with
  | parser =>
    obtain rfl := Option.some.inj hstage
    obtain rfl := Option.some.inj hstep
    have hlt := (s.parser.step_rule TickParser.stage false s.raw s.parsed).workload_lt 11
      h.parser.2.2.1 hready
    -- what arrives may set the normalizer going
    have hnext := s.normalizer.pc.workload_waiting_le 3 (!s.normalized.isFull) s.parsed
      (s.parser.step TickParser.stage false s.raw s.parsed).2.2
    simp only [workload]
    omega
  | normalizer =>
    obtain rfl := Option.some.inj hstage
    obtain rfl := Option.some.inj hstep
    have hlt := (s.normalizer.step_rule Normalizer.stage false s.parsed s.normalized).workload_lt 3
      h.normalizer.2.2.1 hready
    -- what is taken may let the parser go on
    have hprev := s.parser.pc.workload_room_le 11 (!s.raw.isEmpty) s.parsed
      (s.normalizer.step Normalizer.stage false s.parsed s.normalized).2.1
    simp only [workload]
    omega
  | book =>
    obtain rfl := Option.some.inj hstage
    obtain rfl := Option.some.inj hstep
    have hlt := bookStep_workload_lt fl hready
    have hprev := s.normalizer.pc.workload_room_le 3 (!s.parsed.isEmpty) s.normalized
      (bookStep fl s.book s.normalized).2
    simp only [workload]
    omega
  | publish => exact absurd hstage (by simp [Action.stage?])
  | dbPop => exact absurd hstage (by simp [Action.stage?])
  | signalPop => exact absurd hstage (by simp [Action.stage?])

/-- **A stage that spins changes nothing.** -/
theorem Flow.workload_eq (h : s.Flow fl dbQueue signalQueue) {stage : Stage}
    (hstage : a.stage? = some stage) (hspins : ¬ s.Ready stage) (hstep : s.step fl a = some t) :
    t.workload = s.workload := by
  cases a with
  | parser =>
    obtain rfl := Option.some.inj hstage
    obtain rfl := Option.some.inj hstep
    obtain ⟨hraw, hparsed, hsame⟩ := (s.parser.step_rule TickParser.stage false s.raw
      s.parsed).workload_eq 11 h.parser.2.2.1 (Bool.eq_false_iff.2 hspins)
    simp only [workload, hraw, hparsed, hsame]
  | normalizer =>
    obtain rfl := Option.some.inj hstage
    obtain rfl := Option.some.inj hstep
    obtain ⟨hparsed, hnormalized, hsame⟩ := (s.normalizer.step_rule Normalizer.stage false s.parsed
      s.normalized).workload_eq 3 h.normalizer.2.2.1 (Bool.eq_false_iff.2 hspins)
    simp only [workload, hparsed, hnormalized, hsame]
  | book =>
    obtain rfl := Option.some.inj hstage
    obtain rfl := Option.some.inj hstep
    simp only [workload, bookStep_eq_self fl hspins]
  | publish => exact absurd hstage (by simp [Action.stage?])
  | dbPop => exact absurd hstage (by simp [Action.stage?])
  | signalPop => exact absurd hstage (by simp [Action.stage?])

/-- **No step puts work on**, unless it publishes. -/
theorem Flow.workload_le_of_step (h : s.Flow fl dbQueue signalQueue) (hclosed : a.Closed)
    (hstep : s.step fl a = some t) : t.workload ≤ s.workload := by
  cases hstage : a.stage? with
  | some stage =>
    by_cases hready : s.Ready stage
    · exact (h.workload_lt hstage hready hstep).le
    · exact (h.workload_eq hstage hready hstep).le
  | none =>
    cases a with
    | publish tick => exact absurd rfl (hclosed tick)
    | dbPop =>
      obtain rfl := Option.some.inj hstep
      exact Nat.le_refl _
    | signalPop =>
      obtain rfl := Option.some.inj hstep
      exact Nat.le_refl _
    | parser => exact absurd hstage (by simp [Action.stage?])
    | normalizer => exact absurd hstage (by simp [Action.stage?])
    | book => exact absurd hstage (by simp [Action.stage?])

/-! ### Who is ready -/

theorem length_bookStep_le (fl : FloatEnv) (book : BookThread)
    (input : BoundedQueue MarketTick 4096) :
    (bookStep fl book input).2.items.length ≤ input.items.length := by
  rcases bookStep_cases fl book input with heq | ⟨tick, input', -, hitems, heq⟩ | ⟨tick, -, heq⟩
  · rw [heq]
  · rw [heq, hitems, List.length_cons]
    exact Nat.le_succ _
  · rw [heq]

/-- **A stage stays ready until its turn.** What arrives in its input only it can take, and room in
its output only it can fill. -/
theorem stays_ready (hclosed : a.Closed) {stage : Stage} (hother : a.stage? ≠ some stage)
    (hready : s.Ready stage) (hstep : s.step fl a = some t) : t.Ready stage := by
  cases a with
  | publish tick => exact absurd rfl (hclosed tick)
  | dbPop =>
    obtain rfl := Option.some.inj hstep
    cases stage <;> exact hready
  | signalPop =>
    obtain rfl := Option.some.inj hstep
    cases stage <;> exact hready
  | parser =>
    obtain rfl := Option.some.inj hstep
    have hlengths := (s.parser.step_rule TickParser.stage false s.raw s.parsed).lengths
    cases stage with
    | parser => exact absurd rfl hother
    | normalizer => exact Pc.ready_mono hlengths.2 (Nat.le_refl _) hready
    | book => exact hready
  | normalizer =>
    obtain rfl := Option.some.inj hstep
    have hlengths := (s.normalizer.step_rule Normalizer.stage false s.parsed s.normalized).lengths
    cases stage with
    | parser => exact Pc.ready_mono (Nat.le_refl _) hlengths.1 hready
    | normalizer => exact absurd rfl hother
    | book =>
      refine hready.imp_right fun hitems ↦ ?_
      rw [← List.length_pos_iff] at hitems ⊢
      exact Nat.lt_of_lt_of_le hitems hlengths.2
  | book =>
    obtain rfl := Option.some.inj hstep
    cases stage with
    | parser => exact hready
    | normalizer => exact Pc.ready_mono (Nat.le_refl _) (length_bookStep_le fl _ _) hready
    | book => exact absurd rfl hother

/-- **As long as something is left, the last stage with something to do can do it.** -/
theorem Flow.exists_ready (h : s.Flow fl dbQueue signalQueue) (hpos : 0 < s.workload) :
    ∃ stage, s.Ready stage := by
  by_contra hnone
  rw [not_exists] at hnone
  have hbook := hnone .book
  rw [Ready, not_or, not_not, not_not] at hbook
  -- from the end of the pipeline to its beginning: an empty buffer has room
  obtain ⟨hparsed, hnorm⟩ := Pc.of_not_ready 3 h.normalizer.2.2.2 (by decide) hbook.2
    (Bool.eq_false_iff.2 (hnone .normalizer))
  obtain ⟨hraw, hparser⟩ := Pc.of_not_ready 11 h.parser.2.2.2 (by decide) hparsed
    (Bool.eq_false_iff.2 (hnone .parser))
  rw [workload, hnorm, hparser, hraw, hparsed, hbook.1, hbook.2] at hpos
  exact absurd hpos (Nat.lt_irrefl 0)

/-- The three stages share the work of the pipeline. -/
theorem helpful (fl : FloatEnv) (dbQueue signalQueue : Option SnapshotQueue) :
    StepRun.Helpful (step fl) (Flow fl dbQueue signalQueue) Action.Closed workload Action.stage?
      Ready where
  inv hflow _ hstep := hflow.step hstep
  rank_le hflow hclosed hstep := hflow.workload_le_of_step hclosed hstep
  rank_lt hflow hstage hready hstep := hflow.workload_lt hstage hready hstep
  stays_ready _ hclosed hother hready hstep := stays_ready hclosed hother hready hstep
  exists_ready hflow hpos := hflow.exists_ready hpos

/-- Nothing is published in a run of closed actions. -/
theorem published_of_closed {acts : List Action} (hclosed : ∀ a ∈ acts, a.Closed)
    (hrun : StepRun.run (step fl) s acts = some t) : t.published = s.published := by
  refine StepRun.run_invariant_of_mem (P := fun u ↦ u.published = s.published)
    (fun a ha u v hu hstep ↦ ?_) rfl hrun
  cases a with
  | publish tick => exact absurd rfl (hclosed _ ha tick)
  | _ =>
    obtain rfl := Option.some.inj hstep
    exact hu

/-- **Every fair schedule finishes, with the sequential result.** From every reachable state, once
nothing more is published: cut into rounds in which each stage makes a step at least, with as many
rounds as there are steps left for the ticks in the buffers, any interleaving brings the pipeline to
rest. The books were given exactly what the normalizer forwards of what the parser forwards of
everything published, and they and the counters are those of the sequential pipeline. -/
theorem fair_schedule_completes (fl : FloatEnv) (dbQueue signalQueue : Option SnapshotQueue)
    {acts : List Action} (hrun : StepRun.run (step fl) (init dbQueue signalQueue) acts = some s)
    {rounds : List (List Action)} (hclosed : ∀ as ∈ rounds, ∀ a ∈ as, a.Closed)
    (hfair : ∀ as ∈ rounds, ∀ stage, ∃ a ∈ as, a.stage? = some stage)
    (hlen : 19 * s.raw.items.length + 11 * s.parsed.items.length +
      3 * s.normalized.items.length + 27 ≤ rounds.length)
    (hrest : StepRun.run (step fl) s rounds.flatten = some t) :
    let ticks := Normalizer.normalize (TickParser.parse s.published)
    t.Quiescent ∧ t.published = s.published ∧ t.book.applied = ticks ∧
      t.book.processor.books = (ticks.foldl (processTick fl) (fresh dbQueue signalQueue)).books ∧
      t.book.processor.referencePrice =
        (ticks.foldl (processTick fl) (fresh dbQueue signalQueue)).referencePrice ∧
      t.parser.forwarded = (TickParser.parse s.published).length ∧
      t.normalizer.forwarded = ticks.length ∧ t.book.processor.ticksProcessed = ticks.length := by
  intro ticks
  have hflow := flow_of_run hrun
  have hclosed' : ∀ a ∈ rounds.flatten, a.Closed := fun a ha ↦ by
    obtain ⟨as, has, hmem⟩ := List.mem_flatten.1 ha
    exact hclosed as has a hmem
  have hzero := (helpful fl dbQueue signalQueue).rank_eq_zero_of_rounds hflow hclosed hfair
    (s.workload_le.trans hlen) hrest
  have hend := ((helpful fl dbQueue signalQueue).rank_le_of_run hflow hclosed' hrest).1
  have hquiescent := quiescent_of_workload hzero
  have hpublished := published_of_closed hclosed' hrest
  obtain ⟨happlied, hparsed, -, hforwarded, -⟩ := hend.of_quiescent hquiescent
  rw [hpublished] at happlied hparsed hforwarded
  refine ⟨hquiescent, hpublished, happlied, ?_, ?_, hparsed, hforwarded, ?_⟩
  · rw [hend.books, happlied]
    rfl
  · rw [hend.references, happlied]
    rfl
  · rw [hend.count, happlied]

/-- One tick, and threads that take turns. -/
theorem fair_schedule_completes_turns :
    let fl := FloatEnv.exact fun _ ↦ 0
    ∃ s t, StepRun.run (step fl) (init none none) [.publish (.shareOfA 100)] = some s ∧
      StepRun.run (step fl) s (List.replicate 46 [.parser, .normalizer, .book]).flatten = some t ∧
      t.Quiescent ∧ t.book.applied.length = 1 := by
  intro fl
  let turns : List (List Action) := List.replicate 46 [.parser, .normalizer, .book]
  obtain ⟨t, hboth⟩ := Option.isSome_iff_exists.1 (by decide +kernel :
    (StepRun.run (step fl) (init none none) ([.publish (.shareOfA 100)] ++ turns.flatten)).isSome =
      true)
  obtain ⟨s, hrun, hrest⟩ := StepRun.run_append_eq_some_iff.1 hboth
  have hheld := StepRun.eq_of_run_map (fun s : Pipeline ↦ (s.raw.items.length,
    s.parsed.items.length, s.normalized.items.length,
    (Normalizer.normalize (TickParser.parse s.published)).length)) hrun
    (c := (1, 0, 0, 1)) (by decide +kernel)
  simp only [Prod.mk.injEq] at hheld
  obtain ⟨hraw, hparsed, hnormalized, hticks⟩ := hheld
  have hturns : ∀ as ∈ turns, as = [.parser, .normalizer, .book] :=
    fun as has ↦ List.eq_of_mem_replicate has
  have hend := fair_schedule_completes fl none none hrun
    (fun as has a ha tick ↦ by rw [hturns as has] at ha; rintro rfl; simp at ha)
    (fun as has stage ↦ by rw [hturns as has]; cases stage <;> simp [Action.stage?])
    (by rw [hraw, hparsed, hnormalized, List.length_replicate]) hrest
  exact ⟨s, t, hrun, hrest, hend.1, by rw [hend.2.2.1, hticks]⟩

end Pipeline

end Mdp
