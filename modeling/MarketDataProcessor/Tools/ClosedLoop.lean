import MarketDataProcessor.Feed.AtMostOnce
import MarketDataProcessor.Feed.OtherSources
import MarketDataProcessor.Tools.Provenance

/-!
# The loop through the database

`processor_main.cpp` reads `MarketPrices` and writes `MarketPrices`: rows of source 1 come in
through `PostgresFeedReader`, and `DbWriter` inserts a row of source 2 for every snapshot into the
same table. Here the service of `ProcessorMain` has that reader for its feed, the tick buffer and
the table are shared, and the ingestion worker inserts rows of any other source whenever it likes.

What must not happen is that the service takes its own rows for prices, since every row read makes
up to one row more. `no_feedback` says that it does not: the ticks fed are the ticks of distinct
rows of source 1, and the rows the service has added are no more than these.

Each side of the loop goes through a run of its own model, whatever the other does
(`readerRun`, `serviceRun`), so what is known of either holds in the loop.

## What the result rests on

* `output_cases` and `raw_cases` say what one side does to what it shares with the other: the reader
  pushes the tick of the current row or leaves the buffer alone; the service pops ticks and inserts
  rows.
* `Linked` keeps a run of each model. A step of one side extends its run by the step itself, and the
  run of the other by what the step means to it: a push is a `feed` of the service, a pop and a
  transaction are a pop and some insertions of the reader.
* The results of the two models are then used as they stand: the rows pushed are distinct and
  watched, and the committed rows are a part of the ticks fed.

The count of own rows connects them, with `inserted` for what a transaction adds: one row for each
element whose ticker is listed, and none for the others.
-/

namespace Mdp

open PostgresFeedReader (Row Reader Database)

/-- How values inserted by `DbWriter` read back from the table. -/
structure Columns where
  price : Double → Double
  volume : ℤ → Double
  /-- `EXTRACT(EPOCH FROM to_timestamp(...))`. -/
  epoch : Double → ℚ

/-- The next value of the column `"Id"`. -/
def nextId (table : List Row) : ℕ := (table.map Row.id).foldr max 0 + 1

/-- The row of source 2 that `insert_price` adds to a table. -/
def Columns.ownRow (columns : Columns) (table : List Row) (row : PriceRow) : Row where
  id := nextId table
  source := 2
  symbol := row.symbol
  price := columns.price row.price
  volume := columns.volume row.volume
  epoch := columns.epoch row.recordedAt

/-- The table after a transaction. -/
def Columns.insertAll (columns : Columns) (table : List Row) (rows : List PriceRow) : List Row :=
  rows.foldl (fun table row ↦ table ++ [columns.ownRow table row]) table

/-! ### A transaction on the table -/

theorem id_lt_nextId {table : List Row} {row : Row} (h : row ∈ table) : row.id < nextId table := by
  refine Nat.lt_succ_of_le ?_
  induction table with
  | nil => exact absurd h List.not_mem_nil
  | cons x table ih =>
    rcases List.mem_cons.1 h with rfl | hrest
    · exact Nat.le_max_left _ _
    · exact (ih hrest).trans (Nat.le_max_right _ _)

/-- An inserted row is new. -/
theorem Columns.ownRow_notMem (columns : Columns) (table : List Row) (row : PriceRow) :
    columns.ownRow table row ∉ table := fun h ↦ absurd (id_lt_nextId h) (lt_irrefl _)

/-- To the reader, a transaction is a number of insertions. -/
theorem Columns.exists_run_insertAll (columns : Columns) (db : Database) (clock : ℕ → ℤ)
    (symbols : List (List UInt8)) (r : Reader) (rows : List PriceRow) :
    ∃ acts, StepRun.run (PostgresFeedReader.step db clock symbols) r acts =
      some { r with table := columns.insertAll r.table rows } := by
  induction rows generalizing r with
  | nil => exact ⟨[], rfl⟩
  | cons row rows ih =>
    obtain ⟨acts, hacts⟩ := ih { r with table := r.table ++ [columns.ownRow r.table row] }
    refine ⟨.insert (columns.ownRow r.table row) :: acts, ?_⟩
    refine StepRun.run_cons_eq_some_iff.2 ⟨_, ?_, hacts⟩
    exact if_neg (columns.ownRow_notMem r.table row)

/-- The rows of this program. -/
def ownRows (table : List Row) : ℕ := table.countP fun row ↦ row.source = 2

theorem Columns.ownRows_insertAll (columns : Columns) (table : List Row) (rows : List PriceRow) :
    ownRows (columns.insertAll table rows) = ownRows table + rows.length := by
  induction rows generalizing table with
  | nil => rfl
  | cons row rows ih =>
    have hone : ownRows (table ++ [columns.ownRow table row]) = ownRows table + 1 := by
      rw [ownRows, List.countP_append]
      rfl
    show ownRows (columns.insertAll (table ++ [columns.ownRow table row]) rows) = _
    rw [ih, hone, List.length_cons]
    omega

/-- The service and the reader that feeds it. -/
structure ClosedLoop where
  service : Service
  reader : Reader

/-- The first buffer as the reader leaves it. -/
def Service.withRaw (s : Service) (raw : BoundedQueue MarketTick 16384) : Service :=
  { s with
    path := { s.path with
      raw := raw
      fed := s.path.fed ++ raw.items.drop s.path.raw.items.length } }

namespace ClosedLoop

/-- What can happen next. -/
inductive Action where
  /-- The ingestion worker, or whoever else, inserts a row. -/
  | ingest (row : Row)
  /-- The reader's thread. -/
  | reader (move : PostgresFeedReader.Action)
  /-- The other threads, and `main`. -/
  | service (move : Service.Action)

/-- The moves of the reader's thread; it gives up a round when it sees the stop flag. -/
def readerMoves (stop : Bool) : PostgresFeedReader.Action → Bool
  | .insert _ => false
  | .outputPop => false
  | .quit => stop
  | _ => true

/-- The moves of the others; the reader's thread returns from `run` between two rounds. -/
def serviceMoves (reader : Reader) : Service.Action → Bool
  | .feed _ => false
  | .simExit => decide (reader.pending = [] ∧ reader.batch = none)
  | _ => true

variable (fl : FloatEnv) (overflow : Double → ℤ) (period : Period) (db : Database) (clock : ℕ → ℤ)
  (symbols tickers : List (List UInt8)) (columns : Columns)

/-- All threads started. -/
def init (table : List Row) : ClosedLoop where
  service := Service.init fl period
  reader := PostgresFeedReader.init table BoundedQueue.empty

/-- The reader after a step of the service: a tick may have been popped, rows may have come in. -/
def readerAfter (s : ClosedLoop) (service : Service) : Reader :=
  { s.reader with
    output := service.path.raw
    table := columns.insertAll s.reader.table
      (inserted tickers (service.dbWriter.table.drop s.service.dbWriter.table.length)) }

/-- One action. -/
def step (s : ClosedLoop) : Action → Option ClosedLoop
  | .ingest row =>
    if row.source = 2 then none
    else (PostgresFeedReader.step db clock symbols s.reader (.insert row)).map fun reader ↦
      { s with reader }
  | .reader move =>
    if s.service.simExited = false ∧ readerMoves (s.service.main.flag .sim) move = true then
      (PostgresFeedReader.step db clock symbols s.reader move).map fun reader ↦
        { service := s.service.withRaw reader.output, reader }
    else none
  | .service move =>
    if serviceMoves s.reader move = true then
      (s.service.step fl overflow move).map fun service ↦
        { service, reader := s.readerAfter tickers columns service }
    else none

variable {fl overflow period db clock symbols tickers columns} {s t : ClosedLoop} {a : Action}

/-- **The three kinds of step.** -/
theorem step_cases
    (hstep : s.step fl overflow db clock symbols tickers columns a = some t) :
    (∃ row, row.source ≠ 2 ∧
        PostgresFeedReader.step db clock symbols s.reader (.insert row) = some t.reader ∧
        t.service = s.service) ∨
      (∃ move stop, s.service.simExited = false ∧ readerMoves stop move = true ∧
        PostgresFeedReader.step db clock symbols s.reader move = some t.reader ∧
        t.service = s.service.withRaw t.reader.output) ∨
      ∃ move, serviceMoves s.reader move = true ∧
        s.service.step fl overflow move = some t.service ∧
        t.reader = s.readerAfter tickers columns t.service := by
  cases a with
  | ingest row =>
    simp only [step] at hstep
    split_ifs at hstep with hsource
    obtain ⟨reader, hreader, rfl⟩ := Option.map_eq_some_iff.1 hstep
    exact Or.inl ⟨row, hsource, hreader, rfl⟩
  | reader move =>
    simp only [step] at hstep
    split_ifs at hstep with hguard
    obtain ⟨reader, hreader, rfl⟩ := Option.map_eq_some_iff.1 hstep
    exact Or.inr (Or.inl ⟨move, _, hguard.1, hguard.2, hreader, rfl⟩)
  | service move =>
    simp only [step] at hstep
    split_ifs at hstep with hguard
    obtain ⟨service, hservice, rfl⟩ := Option.map_eq_some_iff.1 hstep
    exact Or.inr (Or.inr ⟨move, hguard, hservice, rfl⟩)

/-! ### What one side sees of the other -/

/-- **The reader pushes the tick of the current row, or leaves the buffer alone.** -/
theorem output_cases {r r' : Reader} {move : PostgresFeedReader.Action} {stop : Bool}
    (hmove : readerMoves stop move = true)
    (hstep : PostgresFeedReader.step db clock symbols r move = some r') :
    r'.table = r.table ∧ (r'.output = r.output ∧ r'.pushed = r.pushed ∨
      ∃ row ∈ r.fetched, ∃ sym ∈ r.pending.head?,
        r.output.tryPush (r.rowTick clock sym row) = some r'.output ∧
          r'.pushed = r.pushed ++ [row]) := by
  cases move with
  | insert | outputPop => cases hmove
  | startRound =>
    obtain ⟨-, -, rfl⟩ := PostgresFeedReader.step_startRound_eq_some hstep
    exact ⟨rfl, Or.inl ⟨rfl, rfl⟩⟩
  | query =>
    obtain ⟨sym, rest, -, -, rfl⟩ := PostgresFeedReader.step_query_eq_some hstep
    exact ⟨rfl, Or.inl ⟨rfl, rfl⟩⟩
  | nextSymbol =>
    obtain ⟨sym, rest, -, -, rfl⟩ := PostgresFeedReader.step_nextSymbol_eq_some hstep
    exact ⟨rfl, Or.inl ⟨rfl, rfl⟩⟩
  | fail =>
    obtain rfl := PostgresFeedReader.step_fail_eq_some hstep
    exact ⟨rfl, Or.inl ⟨rfl, rfl⟩⟩
  | quit =>
    obtain ⟨-, rfl⟩ := PostgresFeedReader.step_quit_eq_some hstep
    exact ⟨rfl, Or.inl ⟨rfl, rfl⟩⟩
  | row =>
    obtain ⟨sym, rest, row, rows, hpending, hbatch, rfl⟩ :=
      PostgresFeedReader.step_row_eq_some hstep
    refine ⟨(PostgresFeedReader.handleRow_frame clock sym r row).1, ?_⟩
    cases hpush : r.output.tryPush (r.rowTick clock sym row) with
    | none =>
      left
      simp only [Reader.handleRow, hpush, and_self]
    | some output' =>
      right
      refine ⟨row, ?_, sym, ?_, ?_⟩
      · rw [PostgresFeedReader.fetched_of_batch hbatch]
        exact List.mem_cons_self
      · rw [hpending]
        rfl
      · simp only [Reader.handleRow, hpush, and_self]

/-- **The other threads feed nothing**: they leave the first buffer alone or pop a tick, and what is
committed stays so. -/
theorem raw_cases {u v : Service} {move : Service.Action} {reader : Reader}
    (hmove : serviceMoves reader move = true) (hstep : u.step fl overflow move = some v) :
    v.path.fed = u.path.fed ∧ u.dbWriter.table <+: v.dbWriter.table ∧
      (v.path.raw = u.path.raw ∨ ∃ tick, u.path.raw.tryPop = some (tick, v.path.raw)) := by
  cases Service.rule_of_step hstep with
  | feed => cases hmove
  | stage stage path hadv =>
    cases hadv with
    | parser w raw' parsed' hw =>
      refine ⟨rfl, List.prefix_refl _, ?_⟩
      cases hw with
      | pop phase tick _ _ hitems =>
        exact Or.inr ⟨tick, BoundedQueue.tryPop_eq_some_iff.2 hitems⟩
      | _ => exact Or.inl rfl
    | _ => exact ⟨rfl, List.prefix_refl _, Or.inl rfl⟩
  | dbWriter env w queue hw =>
    refine ⟨rfl, ?_, Or.inl rfl⟩
    cases hw with
    | commit => exact List.prefix_append _ _
    | _ => exact List.prefix_refl _
  | _ => exact ⟨rfl, List.prefix_refl _, Or.inl rfl⟩

/-! ### Both sides along a run -/

/-- The tick is that of the row, stamped with some reading of the clock. -/
def TickOf (row : Row) (tick : MarketTick) : Prop :=
  ∃ now, tick = .make row.symbol row.price row.volume 2 now

/-- The invariant of the loop: both sides are where a run of their own takes them, and what they
share is the same on both. -/
structure Linked (fl : FloatEnv) (overflow : Double → ℤ) (period : Period) (db : Database)
    (clock : ℕ → ℤ) (symbols tickers : List (List UInt8)) (table : List Row) (s : ClosedLoop) :
    Prop where
  readerRun : ∃ acts, StepRun.run (PostgresFeedReader.step db clock symbols)
    (PostgresFeedReader.init table BoundedQueue.empty) acts = some s.reader
  serviceRun : ∃ acts, StepRun.run (Service.step fl overflow) (Service.init fl period) acts =
    some s.service
  raw : s.reader.output = s.service.path.raw
  /-- The ticks fed are those of the rows pushed. -/
  ticks : List.Forall₂ TickOf s.reader.pushed s.service.path.fed
  /-- The rows of source 2 are those of the committed statements, and those there at the start. -/
  own : ownRows s.reader.table = ownRows table + (inserted tickers s.service.dbWriter.table).length

variable {table : List Row}

theorem linked_init :
    (init fl period table).Linked fl overflow period db clock symbols tickers table :=
  ⟨⟨[], rfl⟩, ⟨[], rfl⟩, rfl, List.Forall₂.nil, rfl⟩

/-- **To the service, the reader feeds a tick or does nothing.** -/
theorem feed_cases (fl : FloatEnv) (overflow : Double → ℤ)
    {move : PostgresFeedReader.Action} {stop : Bool}
    (hraw : s.reader.output = s.service.path.raw) (hruns : s.service.simExited = false)
    (hmove : readerMoves stop move = true)
    (hstep : PostgresFeedReader.step db clock symbols s.reader move = some t.reader)
    (hservice : t.service = s.service.withRaw t.reader.output) :
    (t.service = s.service ∧ t.reader.output = s.reader.output ∧
        t.reader.pushed = s.reader.pushed) ∨
      ∃ row ∈ s.reader.fetched, ∃ sym ∈ s.reader.pending.head?,
        s.service.step fl overflow (.feed (s.reader.rowTick clock sym row)) = some t.service ∧
          t.service.path.fed = s.service.path.fed ++ [s.reader.rowTick clock sym row] ∧
          t.reader.pushed = s.reader.pushed ++ [row] := by
  obtain ⟨-, ⟨houtput, hpushed⟩ | ⟨row, hrow, sym, hsym, hpush, hpushed⟩⟩ :=
    output_cases hmove hstep
  · refine Or.inl ⟨?_, houtput, hpushed⟩
    rw [hservice, houtput, hraw]
    simp only [Service.withRaw, List.drop_length, List.append_nil]
  · have hitems := (BoundedQueue.tryPush_eq_some_iff.1 hpush).2
    rw [hraw] at hpush hitems
    have hfed : s.service.step fl overflow (.feed (s.reader.rowTick clock sym row)) =
        some t.service := by
      simp only [Service.step, hruns, Bool.false_eq_true, if_false, TickPath.feed, hpush,
        Option.map_some, hservice, Service.withRaw, hitems, List.drop_left]
    refine Or.inr ⟨row, hrow, sym, hsym, hfed, ?_, hpushed⟩
    rw [hservice]
    show s.service.path.fed ++ t.reader.output.items.drop _ = _
    rw [hitems, List.drop_left]

/-- **The reader's steps keep the link.** A tick it pushes is fed to the service. -/
theorem Linked.reader {move : PostgresFeedReader.Action} {stop : Bool}
    (h : s.Linked fl overflow period db clock symbols tickers table)
    (hruns : s.service.simExited = false) (hmove : readerMoves stop move = true)
    (hstep : PostgresFeedReader.step db clock symbols s.reader move = some t.reader)
    (hservice : t.service = s.service.withRaw t.reader.output) :
    t.Linked fl overflow period db clock symbols tickers table := by
  obtain ⟨⟨acts, hreader⟩, ⟨acts', hrun⟩, hraw, hticks, hown⟩ := h
  obtain ⟨htable, -⟩ := output_cases hmove hstep
  have hown' : ownRows t.reader.table =
      ownRows table + (inserted tickers t.service.dbWriter.table).length := by
    rw [htable, hown, hservice]
    rfl
  refine ⟨⟨_, StepRun.run_concat hreader hstep⟩, ?_, by rw [hservice]; rfl, ?_, hown'⟩
  all_goals rcases feed_cases fl overflow hraw hruns hmove hstep hservice with
    ⟨hsame, -, hpushed⟩ | ⟨row, hrow, sym, hsym, hfed, hfedTicks, hpushed⟩
  · exact ⟨acts', hsame ▸ hrun⟩
  · exact ⟨_, StepRun.run_concat hrun hfed⟩
  · rw [hpushed, hsame]
    exact hticks
  · -- the fetched row is of the symbol asked for
    obtain ⟨-, -, rest, hcurrent⟩ := (PostgresFeedReader.selects_of_run hreader).fetched row hrow
    rw [hcurrent, List.head?_cons, Option.mem_some_iff] at hsym
    have htick : TickOf row (s.reader.rowTick clock sym row) := ⟨_, by rw [Reader.rowTick, hsym]⟩
    rw [hpushed, hfedTicks]
    exact List.rel_append hticks (List.Forall₂.cons htick List.Forall₂.nil)

/-- **The others' steps keep the link.** To the reader they are a pop and some insertions. -/
theorem Linked.service {move : Service.Action}
    (h : s.Linked fl overflow period db clock symbols tickers table)
    (hmove : serviceMoves s.reader move = true)
    (hstep : s.service.step fl overflow move = some t.service)
    (hreader : t.reader = s.readerAfter tickers columns t.service) :
    t.Linked fl overflow period db clock symbols tickers table := by
  obtain ⟨⟨acts, hrun⟩, ⟨acts', hservice⟩, hraw, hticks, hown⟩ := h
  obtain ⟨hfed, ⟨rows, hrows⟩, hpop⟩ := raw_cases hmove hstep
  have hpopped : ∃ acts, StepRun.run (PostgresFeedReader.step db clock symbols) s.reader acts =
      some { s.reader with output := t.service.path.raw } := by
    rcases hpop with hsame | ⟨tick, htick⟩
    · rw [hsame, ← hraw]
      exact ⟨[], rfl⟩
    · refine ⟨[.outputPop], StepRun.run_cons_eq_some_iff.2 ⟨_, ?_, rfl⟩⟩
      simp only [PostgresFeedReader.step, hraw, htick, Option.map_some]
  obtain ⟨pop, hpop⟩ := hpopped
  obtain ⟨insert, hinsert⟩ := columns.exists_run_insertAll db clock symbols
    { s.reader with output := t.service.path.raw }
    (inserted tickers (t.service.dbWriter.table.drop s.service.dbWriter.table.length))
  refine ⟨⟨acts ++ (pop ++ insert), ?_⟩, ⟨_, StepRun.run_concat hservice hstep⟩, ?_, ?_, ?_⟩
  · rw [hreader]
    exact StepRun.run_append_eq_some_iff.2
      ⟨_, hrun, StepRun.run_append_eq_some_iff.2 ⟨_, hpop, hinsert⟩⟩
  · rw [hreader]
    rfl
  · rw [hreader, hfed]
    exact hticks
  · rw [hreader]
    show ownRows (columns.insertAll _ _) = _
    rw [columns.ownRows_insertAll, hown, ← hrows, List.drop_left, inserted_append,
      List.length_append, Nat.add_assoc]

/-- **Every step keeps the link.** -/
theorem Linked.step (h : s.Linked fl overflow period db clock symbols tickers table)
    (hstep : s.step fl overflow db clock symbols tickers columns a = some t) :
    t.Linked fl overflow period db clock symbols tickers table := by
  rcases step_cases hstep with ⟨row, hsource, hreader, hservice⟩ |
    ⟨move, stop, hruns, hmove, hreader, hservice⟩ | ⟨move, hmove, hservice, hreader⟩
  · obtain ⟨⟨acts, hrun⟩, hrunService, hraw, hticks, hown⟩ := h
    have hrun' := StepRun.run_concat hrun hreader
    obtain ⟨-, hrow⟩ := PostgresFeedReader.step_insert_eq_some hreader
    refine ⟨⟨_, hrun'⟩, hservice ▸ hrunService, ?_, ?_, ?_⟩
    · rw [hrow, hservice]
      exact hraw
    · rw [hrow, hservice]
      exact hticks
    · have hnot : ownRows (s.reader.table ++ [row]) = ownRows s.reader.table := by
        rw [ownRows, List.countP_append, List.countP_singleton, if_neg (by simpa using hsource)]
        rfl
      rw [hrow, hservice, ← hown]
      exact hnot
  · exact h.reader hruns hmove hreader hservice
  · exact h.service hmove hservice hreader

/-! ### No feedback -/

theorem linked_of_run {acts : List Action}
    (hrun : StepRun.run (step fl overflow db clock symbols tickers columns) (init fl period table)
      acts = some s) : s.Linked fl overflow period db clock symbols tickers table :=
  StepRun.run_invariant
    (P := fun s ↦ Linked fl overflow period db clock symbols tickers table s)
    (fun _ _ _ h hstep ↦ h.step hstep) linked_init hrun

/-- The rows pushed are distinct watched rows of the table. -/
theorem Linked.pushed (h : s.Linked fl overflow period db clock symbols tickers table)
    (htable : table.Nodup) :
    s.reader.pushed.Nodup ∧
      ∀ row ∈ s.reader.pushed, row ∈ s.reader.table ∧ PostgresFeedReader.Watched symbols row := by
  obtain ⟨acts, hrun⟩ := h.readerRun
  have horder : PostgresFeedReader.InOrder s.reader
      (PostgresFeedReader.handledAlong db clock symbols _ acts) :=
    StepRun.run_invariant_log (fun _ _ _ _ h hstep ↦ h.step hstep)
      (PostgresFeedReader.inOrder_init htable _) hrun
  have hnodup := horder.perm.nodup_iff.1 (List.nodup_append.1 horder.nodup).1
  refine ⟨(List.nodup_append.1 hnodup).1, fun row hrow ↦ ?_⟩
  have hhandled : row ∈ s.reader.handled := List.mem_append_left _ hrow
  exact ⟨(PostgresFeedReader.sourced_of_run hrun).handled row hhandled,
    (PostgresFeedReader.selects_of_run hrun).handled row hhandled⟩

/-- **The service does not feed on what it writes.** In every run of the service with its reader on
one table, whatever the threads, `main` and other writers do: the ticks fed are those of distinct
rows of source 1 of configured symbols; the rows the service has committed are, read by symbol and
time, a part of these ticks; and there are at most as many rows of source 2 more than at the start
as there are rows of source 1 of configured symbols. -/
theorem no_feedback (htable : table.Nodup) (htickers : tickers.Nodup) {acts : List Action}
    (hrun : StepRun.run (step fl overflow db clock symbols tickers columns) (init fl period table)
      acts = some s) :
    (∃ rows : List Row, rows.Nodup ∧
        (∀ row ∈ rows, row ∈ s.reader.table ∧ PostgresFeedReader.Watched symbols row) ∧
        List.Forall₂ TickOf rows s.service.path.fed) ∧
      (s.service.dbWriter.table.map fun row ↦ (row.symbol, row.recordedAt)).Sublist
        (s.service.path.fed.map (Service.stampOf fl)) ∧
      ownRows s.reader.table ≤
        ownRows table + s.reader.table.countP fun row ↦ row.source = 1 ∧ row.symbol ∈ symbols := by
  have h := linked_of_run hrun
  obtain ⟨hnodup, hpushed⟩ := h.pushed htable
  obtain ⟨acts', hservice⟩ := h.serviceRun
  obtain ⟨hordered, hstock⟩ := Service.ordered_stock_of_run hservice
  have hrows := hstock.rows_sublist hordered
  refine ⟨⟨s.reader.pushed, hnodup, hpushed, h.ticks⟩, hrows, ?_⟩
  have hfed : s.service.dbWriter.table.length ≤ s.service.path.fed.length := by
    have hlength := hrows.length_le
    rwa [List.length_map, List.length_map] at hlength
  have hwatched : s.reader.pushed.length ≤
      s.reader.table.countP fun row ↦ row.source = 1 ∧ row.symbol ∈ symbols := by
    rw [List.countP_eq_length_filter]
    refine (List.subperm_of_subset hnodup fun row hrow ↦ ?_).length_le
    obtain ⟨hmem, hsource, hsymbol, -⟩ := hpushed row hrow
    exact List.mem_filter.2 ⟨hmem, decide_eq_true ⟨hsource, hsymbol⟩⟩
  rw [h.own]
  calc ownRows table + (inserted tickers s.service.dbWriter.table).length
      ≤ ownRows table + s.service.dbWriter.table.length :=
        Nat.add_le_add_left (length_inserted_le htickers _) _
    _ ≤ ownRows table + s.service.path.fed.length := Nat.add_le_add_left hfed _
    _ = ownRows table + s.reader.pushed.length := by rw [h.ticks.length_eq]
    _ ≤ _ := Nat.add_le_add_left hwatched _

/-- One row goes round: its tick is processed and its snapshot committed, to a table that then holds
two rows, and the next poll finds nothing. -/
theorem no_feedback_round :
    let fl := FloatEnv.exact fun _ ↦ 0
    let columns : Columns := ⟨id, fun volume ↦ .fin volume, Double.value⟩
    let poll : List Action := [.reader .startRound, .reader .query]
    let acts := poll ++ [.reader .row, .reader .nextSymbol] ++
      ((Service.produceOne.drop 1 ++ List.replicate 4 (Service.Action.dbWriter ⟨true, 0⟩) ++
        List.replicate 2 (Service.Action.dbWriter ⟨true, 10000000⟩)).map Action.service) ++ poll
    ∃ s, StepRun.run (step fl (fun _ ↦ 0) PostgresFeedReader.sortingDatabase (fun _ ↦ 300) [[65]]
        [[65]] columns) (init fl .default [PostgresFeedReader.sampleRow 0 65 100]) acts = some s ∧
      ownRows s.reader.table = 1 ∧ s.reader.batch = some [] ∧ s.service.path.fed.length = 1 ∧
      ownRows s.reader.table ≤
        0 + s.reader.table.countP fun row ↦ row.source = 1 ∧ row.symbol ∈ [[65]] := by
  intro fl columns poll acts
  obtain ⟨s, hrun, hend⟩ := Option.map_eq_some_iff.1 (by decide +kernel :
    (StepRun.run (step fl (fun _ ↦ 0) PostgresFeedReader.sortingDatabase (fun _ ↦ 300) [[65]]
      [[65]] columns) (init fl .default [PostgresFeedReader.sampleRow 0 65 100]) acts).map
        (fun s ↦ (ownRows s.reader.table, s.reader.batch, s.service.path.fed.length)) =
          some (1, some [], 1))
  simp only [Prod.mk.injEq] at hend
  obtain ⟨hown, hbatch, hfed⟩ := hend
  exact ⟨s, hrun, hown, hbatch, hfed,
    (no_feedback (List.nodup_singleton _) (List.nodup_singleton _) hrun).2.2⟩

end ClosedLoop

end Mdp
