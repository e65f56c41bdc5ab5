import MarketDataProcessor.Pipeline.Confluence
import MarketDataProcessor.Processing.NormalizerSpec

/-!
# Replaying what the books were given

The ticks applied to the books are a record from which a fresh pipeline rebuilds them. Both filters
leave their own output alone: an enriched tick is its own enriched form, and of a normalized
sequence every beginning is normalized (`parse_eq_self`, `normalize_eq_self`). So the record,
however far it has come, goes through parser and normalizer without a loss and leads to the same
books and the same references; the queues of the book processor play no part in it.

## The two halves

That the record passes the filters unchanged is a property of what they let through: whatever the
parser forwards is enriched and valid, and a normalized sequence is ordered and free of repetitions
in every prefix. That the books come out the same is a property of the book processor: its queues
are written and never read (`BookProcessor.books_state_congr`). The schedule enters through the flow
of the pipeline alone, by which the record is a prefix of the sequential result.
-/

namespace Mdp

open BookProcessor History

/-! ### Both filters leave their output alone -/

namespace TickParser

theorem enrich_enrich (tick : MarketTick) : enrich (enrich tick) = enrich tick := by
  have hside : min (min tick.side 2) 2 = min tick.side 2 := by grind
  simp only [enrich, Vector.set_set, hside]

/-- Enriched valid ticks are parsed as they are. -/
theorem parse_eq_self {ticks : List MarketTick}
    (h : ∀ tick ∈ ticks, validate tick = true ∧ enrich tick = tick) : parse ticks = ticks := by
  have hmap : ticks.map enrich = ticks :=
    (List.map_congr_left fun tick ht ↦ (h tick ht).2).trans (List.map_id ticks)
  rw [parse, hmap]
  exact List.filter_eq_self.2 fun tick ht ↦ (h tick ht).1

theorem enriched_of_mem_parse {tick : MarketTick} {ticks : List MarketTick}
    (h : tick ∈ parse ticks) : enrich tick = tick := by
  obtain ⟨raw, -, rfl⟩ := List.mem_map.1 (List.mem_filter.1 h).1
  exact enrich_enrich raw

end TickParser

/-- Every beginning of a normalized sequence is normalized. -/
theorem Normalizer.normalize_eq_self {ticks seen : List MarketTick}
    (h : seen <+: normalize ticks) : normalize seen = seen := by
  have hfixed := normalize_normalize ticks
  rw [normalize_eq (normalize ticks)] at hfixed
  rw [normalize_eq]
  exact filterAlong_eq_self_of_prefix hfixed h

/-! ### The books do not depend on the queues -/

/-- The same ticks lead to the same books and references, whatever queues are attached. -/
theorem BookProcessor.books_state_congr (fl : FloatEnv) {bp bp' : BookProcessor}
    (hbooks : bp.books = bp'.books) (hrefs : bp.referencePrice = bp'.referencePrice)
    (ticks : List MarketTick) :
    ((offering fl).state bp ticks).books = ((offering fl).state bp' ticks).books ∧
      ((offering fl).state bp ticks).referencePrice =
        ((offering fl).state bp' ticks).referencePrice := by
  induction ticks using List.reverseRecOn with
  | nil => exact ⟨hbooks, hrefs⟩
  | append_singleton ticks tick ih =>
    rw [Transducer.state_concat, Transducer.state_concat]
    exact books_processTick_congr fl tick ih.1 ih.2

namespace Pipeline

variable {fl : FloatEnv} {dbQueue signalQueue dbQueue' signalQueue' : Option SnapshotQueue}
  {s s' : Pipeline}

/-- What the books were given goes through both filters unchanged. -/
theorem Flow.record_eq (h : s.Flow fl dbQueue signalQueue) :
    TickParser.parse s.book.applied = s.book.applied ∧
      Normalizer.normalize s.book.applied = s.book.applied := by
  have hpart := h.applied_prefix
  refine ⟨TickParser.parse_eq_self fun tick ht ↦ ?_, Normalizer.normalize_eq_self hpart⟩
  have hparsed := Normalizer.mem_of_mem_normalize (hpart.subset ht)
  exact ⟨TickParser.mem_parse hparsed, TickParser.enriched_of_mem_parse hparsed⟩

/-- **A replay rebuilds the books.** Take the ticks applied so far in any reachable state of the
pipeline, and publish them into a fresh one, with other queues attached or none. However it is
scheduled, when it comes to rest it has rejected no tick and dropped none, its books and references
are those of the recorded state, and it has counted as many ticks. -/
theorem replay_rebuilds {acts acts' : List Action}
    (hrun : StepRun.run (step fl) (init dbQueue signalQueue) acts = some s)
    (hrun' : StepRun.run (step fl) (init dbQueue' signalQueue') acts' = some s')
    (hrecord : s'.published = s.book.applied) (hrest : s'.Quiescent) :
    s'.book.applied = s.book.applied ∧
      s'.book.processor.books = s.book.processor.books ∧
      s'.book.processor.referencePrice = s.book.processor.referencePrice ∧
      s'.book.processor.ticksProcessed = s.book.processor.ticksProcessed ∧
      (∀ why, s'.parser.dropped why = 0) ∧ ∀ why, s'.normalizer.dropped why = 0 := by
  have hflow := flow_of_run hrun
  have hflow' := flow_of_run hrun'
  obtain ⟨hparse, hnormalize⟩ := hflow.record_eq
  obtain ⟨happlied, -, hrejected, -, hdropped⟩ := hflow'.of_quiescent hrest
  rw [hrecord, hparse, hnormalize] at happlied
  rw [hrecord] at hrejected hdropped
  rw [hparse] at hdropped
  have hfresh : (fresh dbQueue' signalQueue').books = (fresh dbQueue signalQueue).books := rfl
  obtain ⟨hbooks, hrefs⟩ := books_state_congr fl hfresh rfl s.book.applied
  refine ⟨happlied, ?_, ?_, ?_, fun why ↦ ?_, fun why ↦ ?_⟩
  · rw [hflow'.books, happlied, hbooks, hflow.books]
  · rw [hflow'.references, happlied, hrefs, hflow.references]
  · rw [hflow'.count, happlied, hflow.count]
  · rw [hrejected]
    refine TickParser.stage.count_dropsOf_eq_zero ?_ why
    rw [TickParser.forwardedOf_stage, hparse]
  · rw [hdropped]
    refine Normalizer.stage.count_dropsOf_eq_zero ?_ why
    exact congrArg List.length hnormalize

/-- The record of one tick, replayed without queues. -/
theorem replay_rebuilds_one :
    let fl := FloatEnv.exact fun _ ↦ 0
    ∃ s s', StepRun.run (step fl) (init (some BoundedQueue.empty) none) oneAfterAnother = some s ∧
      StepRun.run (step fl) (init none none) runningAhead = some s' ∧
      s'.book.processor.books = s.book.processor.books ∧
      ∀ why, s'.normalizer.dropped why = 0 := by
  intro fl
  obtain ⟨s, hrun, hrecord⟩ := Option.map_eq_some_iff.1 (by decide +kernel :
    (StepRun.run (step fl) (init (some BoundedQueue.empty) none) oneAfterAnother).map
      (fun s ↦ s.book.applied) = some [.shareOfA 100])
  obtain ⟨s', hrun', hend⟩ := Option.map_eq_some_iff.1 (by decide +kernel :
    (StepRun.run (step fl) (init none none) runningAhead).map (fun s ↦ (s.atRest, s.published)) =
      some (true, [.shareOfA 100]))
  simp only [Prod.mk.injEq] at hend
  have hreplay := replay_rebuilds hrun hrun' (hend.2.trans hrecord.symm)
    (quiescent_of_atRest hend.1)
  exact ⟨s, s', hrun, hrun', hreplay.2.1, hreplay.2.2.2.2.2⟩

end Pipeline

end Mdp
