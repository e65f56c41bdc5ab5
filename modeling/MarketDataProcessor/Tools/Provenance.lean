import MarketDataProcessor.Tools.ShutdownProgress

/-!
# Where persisted rows come from

The service from the feed to the database. Every row either writer has committed, in whatever state
the service is, was made by the stages from a tick that was fed: the price rows are a part of what
the sequential pipeline offers for a part of the enriched ticks, in that order, and the signal rows
a part of the signals for a part of these offers.

Each hop is a sublist, and that is all that losses, full queues and stop requests can do to a stream
here. So a tick is behind one price row and one signal row at most, and the rows stand in the order
in which their ticks were fed.

## From a row to its tick

A hop has one lemma, and each says that what comes out is a sublist of an image of what goes in: the
books were given a part of the fed ticks, enriched (`Ordered.applied_sublist`); the price rows are
those of a part of the offers (`Stock.table_sublist`); the engine has taken a part of the offers and
the signal rows are those of a part of its signals. The hops compose because sublists do.

The stamp, the symbol's string and the time, passes every hop unchanged, which makes the result
readable in the table (`Stock.rows_sublist`). Nothing here asks the database to succeed: a failed
transaction leaves rows out of the table and puts none in.
-/

namespace Mdp

open BookProcessor BookRun

/-! ### One hop each -/

/-- The normalizer forwards ticks as they are. -/
theorem Normalizer.normalize_sublist (ticks : List MarketTick) :
    (Normalizer.normalize ticks).Sublist ticks := by
  have hmap := Normalizer.stage.forwarding.outputs_map_sublist (f := id) (g := id)
    (fun s tick ↦ ?_) Normalizer.stage.init ticks
  · rwa [List.map_id, List.map_id] at hmap
  · rw [List.map_id]
    simp only [FilterStage.forwarding, Normalizer.stage]
    split_ifs
    · exact List.nil_sublist _
    · exact List.nil_sublist _
    · exact List.Sublist.refl _

/-- What a tick offers bears its stamp. -/
theorem BookProcessor.stamps_outputs (fl : FloatEnv) (bp : BookProcessor)
    (ticks : List MarketTick) :
    (((offering fl).outputs bp ticks).map fun snap ↦ (snap.symbol, snap.timestampNs)).Sublist
      (ticks.map fun tick ↦ (tick.symbol, tick.timestampNs)) := by
  refine Transducer.outputs_map_sublist _ (fun bp tick ↦ ?_) bp ticks
  show ((bp.offered fl tick).toList.map _).Sublist _
  cases hoffer : bp.offered fl tick with
  | none => exact List.nil_sublist _
  | some snap =>
    obtain ⟨hsymbol, htime, -⟩ := stamp_of_offered fl bp tick (Option.mem_def.2 hoffer)
    rw [Option.toList_some, List.map_singleton, hsymbol, htime]

namespace Service

variable {fl : FloatEnv} {overflow : Double → ℤ} {period : Period} {s : Service}

/-- The string and the time a tick goes into the database with. -/
def stampOf (fl : FloatEnv) (tick : MarketTick) : List UInt8 × Double :=
  ((TickParser.enrich tick).symbol.key, seconds fl tick.timestampNs)

/-! ### From the rows back to the feed -/

/-- What the books were given is a part of what was fed, enriched. -/
theorem Ordered.applied_sublist (h : s.Ordered fl) :
    s.path.book.applied.Sublist (s.path.fed.map TickParser.enrich) := by
  obtain ⟨ticks, hticks, happlied⟩ := h.flow.applied_sublist
  exact (happlied.trans (Normalizer.normalize_sublist ticks)).trans
    (hticks.trans List.filter_sublist)

/-- The price rows are those of a part of what was offered. -/
theorem Stock.table_sublist (h : s.Stock fl overflow period) (hordered : s.Ordered fl) :
    s.dbWriter.table.Sublist (s.path.book.offers.map (DbWriter.toRow fl overflow)) := by
  have hpushed : s.dbWriter.popped.Sublist s.path.book.offers := by
    refine List.Sublist.trans ?_ ((List.sublist_append_left _ _).trans hordered.flow.book.db)
    rw [← h.dbQueue]
    exact List.sublist_append_left _ _
  rw [h.dbWriter.table]
  exact (h.dbWriter.committed_sublist.trans hpushed).map _

/-- The engine has taken a part of what was offered. -/
theorem Stock.engine_popped_sublist (h : s.Stock fl overflow period) (hordered : s.Ordered fl) :
    s.engine.popped.Sublist s.path.book.offers := by
  refine List.Sublist.trans ?_ ((List.sublist_append_left _ _).trans hordered.flow.book.signal)
  rw [← h.signalQueue]
  exact List.sublist_append_left _ _

/-- The signal rows are those of a part of the signals for what the engine has taken. -/
theorem Stock.signalTable_sublist (h : s.Stock fl overflow period) :
    s.signalDbWriter.table.Sublist
      ((EngineWorker.signalsOf fl period s.engine.popped).map (SignalDbWriter.toRow fl)) := by
  have hpushed : s.signalDbWriter.popped.Sublist
      (EngineWorker.signalsOf fl period s.engine.popped) := by
    refine List.Sublist.trans ?_ ((List.sublist_append_left _ _).trans h.engine.pushed)
    rw [← h.alerts]
    exact List.sublist_append_left _ _
  rw [h.signalDbWriter.table]
  exact (h.signalDbWriter.committed_sublist.trans hpushed).map _

/-- The stamps of offered snapshots, as the writers bind them. -/
theorem Ordered.stamps_sublist (h : s.Ordered fl) {snaps : List MarketSnapshot}
    (hsnaps : snaps.Sublist s.path.book.offers) :
    (snaps.map fun snap ↦ (snap.symbol.key, seconds fl snap.timestampNs)).Sublist
      (s.path.fed.map (stampOf fl)) := by
  let bind : Symbol × ℤ → List UInt8 × Double := fun stamp ↦ (stamp.1.key, seconds fl stamp.2)
  have hoffers : (s.path.book.offers.map fun snap ↦ (snap.symbol, snap.timestampNs)).Sublist
      (s.path.book.applied.map fun tick ↦ (tick.symbol, tick.timestampNs)) := by
    rw [h.flow.book.offers]
    exact stamps_outputs fl _ _
  have hfed := (((hsnaps.map _).trans hoffers).trans (h.applied_sublist.map _)).map bind
  rw [List.map_map, List.map_map, List.map_map] at hfed
  exact hfed

/-- Read by symbol and time, the price rows are a part of the fed ticks. -/
theorem Stock.rows_sublist (h : s.Stock fl overflow period) (hordered : s.Ordered fl) :
    (s.dbWriter.table.map fun row ↦ (row.symbol, row.recordedAt)).Sublist
      (s.path.fed.map (stampOf fl)) := by
  have hstamps := hordered.stamps_sublist (List.Sublist.refl s.path.book.offers)
  refine List.Sublist.trans ?_ hstamps
  have hrows := (h.table_sublist hordered).map fun row ↦ (row.symbol, row.recordedAt)
  rw [List.map_map] at hrows
  exact hrows

theorem ordered_stock_of_run {acts : List Action}
    (hrun : StepRun.run (step fl overflow) (init fl period) acts = some s) :
    s.Ordered fl ∧ s.Stock fl overflow period :=
  StepRun.run_invariant (P := fun s : Service ↦ s.Ordered fl ∧ s.Stock fl overflow period)
    (fun _ _ _ hu hstep ↦ ⟨hu.1.step (rule_of_step hstep), hu.2.step (rule_of_step hstep)⟩)
    ⟨ordered_init, stock_init⟩ hrun

/-- **Every persisted row comes from a tick that was fed.** In every reachable state of the service,
for every interleaving and every stop request: the price rows are, in order, a part of the rows of
what the sequential book processor offers for a part of the fed ticks, enriched; the signal rows are
a part of the rows of the signals for a part of these offers; and read by symbol and time, either
table is a part of the sequence of fed ticks, so no tick is behind two rows of a table and none
overtakes another. -/
theorem persisted_from_feed {acts : List Action}
    (hrun : StepRun.run (step fl overflow) (init fl period) acts = some s) :
    (∃ applied snaps, applied.Sublist (s.path.fed.map TickParser.enrich) ∧
        snaps.Sublist ((offering fl).outputs
          (fresh (some BoundedQueue.empty) (some BoundedQueue.empty)) applied) ∧
        s.dbWriter.table.Sublist (((offering fl).outputs
          (fresh (some BoundedQueue.empty) (some BoundedQueue.empty)) applied).map
            (DbWriter.toRow fl overflow)) ∧
        s.signalDbWriter.table.Sublist
          ((EngineWorker.signalsOf fl period snaps).map (SignalDbWriter.toRow fl))) ∧
      (s.dbWriter.table.map fun row ↦ (row.symbol, row.recordedAt)).Sublist
        (s.path.fed.map (stampOf fl)) ∧
      (s.signalDbWriter.table.map fun row ↦ (row.symbol, row.timestamp)).Sublist
        (s.path.fed.map (stampOf fl)) := by
  obtain ⟨hordered, hstock⟩ := ordered_stock_of_run hrun
  have htable := hstock.table_sublist hordered
  have htaken := hstock.engine_popped_sublist hordered
  have hsignals := hstock.signalTable_sublist
  refine ⟨⟨s.path.book.applied, s.engine.popped, hordered.applied_sublist, ?_, ?_, hsignals⟩,
    hstock.rows_sublist hordered, ?_⟩
  · rwa [← hordered.flow.book.offers]
  · rwa [← hordered.flow.book.offers]
  · have hstamps := hordered.stamps_sublist htaken
    refine List.Sublist.trans ?_ hstamps
    have hrows := hsignals.map fun row ↦ (row.symbol, row.timestamp)
    have hmap := congrArg (List.map fun stamp : Symbol × ℤ ↦ (stamp.1.key, seconds fl stamp.2))
      (EngineWorker.map_signalsOf fl period s.engine.popped)
    rw [List.map_map, List.map_map] at hmap
    rw [List.map_map] at hrows
    exact hmap ▸ hrows

/-- One tick, and its row in either table. -/
theorem persisted_from_feed_takeUp :
    let fl := FloatEnv.exact fun _ ↦ 0
    let acts := produceOne ++ takeUp ++ stopAll 3
    ∃ s, StepRun.run (step fl fun _ ↦ 0) (init fl .default) acts = some s ∧
      (s.path.fed.length = 1 ∧ s.dbWriter.table.length = 1 ∧ s.signalDbWriter.table.length = 1) ∧
      (s.dbWriter.table.map fun row ↦ (row.symbol, row.recordedAt)).Sublist
        (s.path.fed.map (stampOf fl)) ∧
      (s.signalDbWriter.table.map fun row ↦ (row.symbol, row.timestamp)).Sublist
        (s.path.fed.map (stampOf fl)) := by
  intro fl acts
  obtain ⟨s, hrun, hend⟩ := Option.map_eq_some_iff.1 (by decide +kernel :
    (StepRun.run (step fl fun _ ↦ 0) (init fl .default) acts).map
      (fun s ↦ (s.path.fed.length, s.dbWriter.table.length, s.signalDbWriter.table.length)) =
        some (1, 1, 1))
  obtain ⟨hfed, hrest⟩ := Prod.mk.inj hend
  obtain ⟨-, hprices, hsignals⟩ := persisted_from_feed hrun
  exact ⟨s, hrun, ⟨hfed, Prod.mk.inj hrest⟩, hprices, hsignals⟩

end Service

end Mdp
