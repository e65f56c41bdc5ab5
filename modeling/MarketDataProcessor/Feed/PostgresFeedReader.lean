import MarketDataProcessor.Core.MarketTick
import MarketDataProcessor.Foundations.BoundedQueue
import MarketDataProcessor.Foundations.StepRun
import Mathlib.Data.List.Perm.Basic

/-!
# The feed reader

`feed/PostgresFeedReader.cpp`: polling rounds over the configured symbols, one query per symbol,
every row handed on to the tick buffer or counted as dropped. One watermark, `last_seen_epoch`, is
shared by the queries of all symbols and carried from round to round.

The database is outside the repository. `Database` is its side of the query: the rows of source 1 of
the symbol above the watermark, ascending by epoch, the first fifty. Rows with equal epochs may come
in any order, and in different orders from query to query. The table only grows; the ingestion
worker may insert rows at any moment.

Epochs are rationals: the query compares them in the database, before they are read as doubles.

A step of the model is one query, one row handed on, or one move of the loops around them, so that
insertions and pops can fall between any two rows of a batch.

## How the following modules use this one

Every result about the reader is an invariant or an account along runs of `step`, and none of them
unfolds it. `step_cases` sorts the steps into three: a query, a row handed on, and everything that
keeps the rows (`KeepsRows`), failures, insertions and pops included. For the moves of the loops
there is one inversion lemma each (`step_query_eq_some` and its like).

What a database may do is in the structure `Database`: an answer is the first fifty of the selected
rows in some ascending order. The two consequences used everywhere are that returned rows were
selected and that a short answer is complete (`Database.mem_query_of_short`).
-/

namespace Mdp

namespace PostgresFeedReader

/-- A row of `MarketPrices`. -/
structure Row where
  id : ℕ
  source : ℤ
  symbol : List UInt8
  price : Double
  volume : Double
  /-- `EXTRACT(EPOCH FROM "RecordedAt")`. -/
  epoch : ℚ
  deriving DecidableEq

/-- The `WHERE` clause of the query. -/
def Row.selected (sym : List UInt8) (lastSeenEpoch : ℚ) (row : Row) : Bool :=
  decide (row.source = 1 ∧ row.symbol = sym ∧ lastSeenEpoch < row.epoch)

/-- The database's answers to the query of `poll_symbol`, by the number of the query. -/
structure Database where
  /-- The rows returned for a table, a symbol and a watermark. -/
  query : ℕ → List Row → List UInt8 → ℚ → List Row
  /-- They are the first fifty of the selected rows, ascending by epoch. -/
  query_spec : ∀ number table sym lastSeenEpoch, ∃ ordered : List Row,
    ordered.Perm (table.filter (Row.selected sym lastSeenEpoch)) ∧
      ordered.Pairwise (fun a b ↦ a.epoch ≤ b.epoch) ∧
      query number table sym lastSeenEpoch = ordered.take 50

/-- Returned rows are rows of the table that the query selects. -/
theorem Database.mem_query (db : Database) {number : ℕ} {table : List Row} {sym : List UInt8}
    {lastSeenEpoch : ℚ} {row : Row} (h : row ∈ db.query number table sym lastSeenEpoch) :
    row ∈ table ∧ lastSeenEpoch < row.epoch := by
  obtain ⟨ordered, hperm, -, hquery⟩ := db.query_spec number table sym lastSeenEpoch
  rw [hquery] at h
  obtain ⟨htable, hselected⟩ := List.mem_filter.1 (hperm.mem_iff.1 (List.mem_of_mem_take h))
  exact ⟨htable, (of_decide_eq_true hselected).2.2⟩

/-- **A query that returns fewer than fifty rows returned them all.** -/
theorem Database.mem_query_of_short (db : Database) {number : ℕ} {table : List Row}
    {sym : List UInt8} {lastSeenEpoch : ℚ}
    (hshort : (db.query number table sym lastSeenEpoch).length < 50) {row : Row}
    (hrow : row ∈ table) (hselected : row.selected sym lastSeenEpoch = true) :
    row ∈ db.query number table sym lastSeenEpoch := by
  obtain ⟨ordered, hperm, -, hquery⟩ := db.query_spec number table sym lastSeenEpoch
  rw [hquery] at hshort ⊢
  rw [List.length_take] at hshort
  rw [List.take_of_length_le (by omega), hperm.mem_iff]
  exact List.mem_filter.2 ⟨hrow, hselected⟩

/-- The reader, with the table it reads. -/
structure Reader where
  /-- `MarketPrices`. -/
  table : List Row
  lastSeenEpoch : ℚ
  output : BoundedQueue MarketTick 16384
  ticksPublished : ℕ
  ticksDropped : ℕ
  /-- The symbols of the round that are not done, the current one first. -/
  pending : List (List UInt8)
  /-- The rows of the current query that are not handed on, when there is one. -/
  batch : Option (List Row)
  /-- Queries sent so far. -/
  queries : ℕ
  /-- History: the round had no error so far and every query returned fewer than fifty rows. -/
  clean : Bool
  /-- History: the table when the round began. -/
  atStart : List Row
  /-- History: the rows whose tick was pushed. -/
  pushed : List Row
  /-- History: the rows whose tick was counted as dropped. -/
  dropped : List Row

/-- A reader that has not polled yet. -/
def init (table : List Row) (output : BoundedQueue MarketTick 16384) : Reader where
  table
  lastSeenEpoch := 0
  output
  ticksPublished := 0
  ticksDropped := 0
  pending := []
  batch := none
  queries := 0
  clean := false
  atStart := []
  pushed := []
  dropped := []

namespace Reader

/-- The rows handed on: pushed, or counted as dropped. -/
def handled (r : Reader) : List Row := r.pushed ++ r.dropped

/-- The rows fetched and not handed on. -/
def fetched (r : Reader) : List Row := r.batch.getD []

/-- The symbols of the round that are not queried yet. -/
def unqueried (r : Reader) : List (List UInt8) :=
  match r.batch with
  | none => r.pending
  | some _ => r.pending.tail

/-- A round over all symbols is complete, without error and with short answers only. -/
def roundDone (r : Reader) : Bool := decide (r.pending = [] ∧ r.batch = none ∧ r.clean = true)

/-- The tick of a row of `sym`: a trade, stamped with the clock's next reading. -/
def rowTick (clock : ℕ → ℤ) (sym : List UInt8) (r : Reader) (row : Row) : MarketTick :=
  .make sym row.price row.volume 2 (clock (r.ticksPublished + r.ticksDropped))

/-- The body of the loop over the rows of `sym`. -/
def handleRow (clock : ℕ → ℤ) (sym : List UInt8) (r : Reader) (row : Row) : Reader :=
  match r.output.tryPush (rowTick clock sym r row) with
  | some output' =>
    { r with
      lastSeenEpoch := max r.lastSeenEpoch row.epoch
      output := output'
      ticksPublished := r.ticksPublished + 1
      pushed := r.pushed ++ [row] }
  | none =>
    { r with
      lastSeenEpoch := max r.lastSeenEpoch row.epoch
      ticksDropped := r.ticksDropped + 1
      dropped := r.dropped ++ [row] }

end Reader

/-- What can happen next. -/
inductive Action where
  /-- The ingestion worker inserts a row. -/
  | insert (row : Row)
  /-- The parser pops a tick. -/
  | outputPop
  /-- A round begins. -/
  | startRound
  /-- The query of the current symbol. -/
  | query
  /-- The next fetched row is handed on. -/
  | row
  /-- The current symbol is done. -/
  | nextSymbol
  /-- An exception ends the round. -/
  | fail
  /-- The stop request is seen before a symbol is polled. -/
  | quit

open Reader

variable (db : Database) (clock : ℕ → ℤ) (symbols : List (List UInt8))

/-- One step of the reader or of its neighbours. -/
def step (r : Reader) : Action → Option Reader
  | .insert row => if row ∈ r.table then none else some { r with table := r.table ++ [row] }
  | .outputPop => r.output.tryPop.map fun popped ↦ { r with output := popped.2 }
  | .startRound =>
    if r.pending = [] ∧ r.batch = none then
      some { r with pending := symbols, clean := true, atStart := r.table }
    else none
  | .query =>
    match r.pending, r.batch with
    | sym :: _, none =>
      let rows := db.query r.queries r.table sym r.lastSeenEpoch
      some { r with
        batch := some rows
        queries := r.queries + 1
        clean := r.clean && decide (rows.length < 50) }
    | _, _ => none
  | .row =>
    match r.pending, r.batch with
    | sym :: _, some (row :: rows) => some { handleRow clock sym r row with batch := some rows }
    | _, _ => none
  | .nextSymbol =>
    match r.pending, r.batch with
    | _ :: rest, some [] => some { r with pending := rest, batch := none }
    | _, _ => none
  | .fail =>
    if r.pending = [] then none
    -- the rest of the batch is given up, and the watermark stays where the batch took it
    else some { r with pending := [], batch := none, clean := false }
  | .quit =>
    if r.pending = [] ∨ r.batch ≠ none then none
    else some { r with pending := [], clean := false }

/-! ### Handing on a row -/

section HandleRow

variable (sym : List UInt8) (r : Reader) (row : Row)

/-- Handing on a row touches the watermark, the output, the counters and the two histories. -/
theorem handleRow_frame :
    (handleRow clock sym r row).table = r.table ∧
      (handleRow clock sym r row).lastSeenEpoch = max r.lastSeenEpoch row.epoch ∧
      (handleRow clock sym r row).pending = r.pending ∧
      (handleRow clock sym r row).clean = r.clean ∧
      (handleRow clock sym r row).atStart = r.atStart := by
  unfold handleRow
  split <;> exact ⟨rfl, rfl, rfl, rfl, rfl⟩

/-- **The row is handed on**, pushed or counted as dropped, and no other is. -/
theorem mem_handled_handleRow {x : Row} :
    x ∈ (handleRow clock sym r row).handled ↔ x ∈ r.handled ∨ x = row := by
  unfold handleRow handled
  split
  · simp only [List.mem_append, List.mem_singleton]
    exact or_right_comm
  · simp only [List.mem_append, List.mem_singleton]
    exact or_assoc.symm

end HandleRow

/-! ### What a step does -/

variable {db clock symbols} {r t : Reader}

theorem fetched_of_batch {rows : List Row} (h : r.batch = some rows) : r.fetched = rows := by
  rw [fetched, h, Option.getD_some]

theorem fetched_of_idle (h : r.batch = none) : r.fetched = [] := by
  rw [fetched, h, Option.getD_none]

theorem step_insert_eq_some {row : Row} (h : step db clock symbols r (.insert row) = some t) :
    row ∉ r.table ∧ t = { r with table := r.table ++ [row] } := by
  simp only [step] at h
  split_ifs at h with hmem
  exact ⟨hmem, (Option.some.inj h).symm⟩

theorem step_startRound_eq_some (h : step db clock symbols r .startRound = some t) :
    r.pending = [] ∧ r.batch = none ∧
      t = { r with pending := symbols, clean := true, atStart := r.table } := by
  simp only [step] at h
  split_ifs at h with hidle
  exact ⟨hidle.1, hidle.2, (Option.some.inj h).symm⟩

theorem step_query_eq_some (h : step db clock symbols r .query = some t) :
    ∃ sym rest, r.pending = sym :: rest ∧ r.batch = none ∧
      t = { r with
        batch := some (db.query r.queries r.table sym r.lastSeenEpoch)
        queries := r.queries + 1
        clean := r.clean &&
          decide ((db.query r.queries r.table sym r.lastSeenEpoch).length < 50) } := by
  simp only [step] at h
  split at h
  next sym rest hpending hbatch => exact ⟨sym, rest, hpending, hbatch, (Option.some.inj h).symm⟩
  next => cases h

theorem step_row_eq_some (h : step db clock symbols r .row = some t) :
    ∃ sym rest row rows, r.pending = sym :: rest ∧ r.batch = some (row :: rows) ∧
      t = { handleRow clock sym r row with batch := some rows } := by
  simp only [step] at h
  split at h
  next sym rest row rows hpending hbatch =>
    exact ⟨sym, rest, row, rows, hpending, hbatch, (Option.some.inj h).symm⟩
  next => cases h

theorem step_nextSymbol_eq_some (h : step db clock symbols r .nextSymbol = some t) :
    ∃ sym rest, r.pending = sym :: rest ∧ r.batch = some [] ∧
      t = { r with pending := rest, batch := none } := by
  simp only [step] at h
  split at h
  next sym rest hpending hbatch => exact ⟨sym, rest, hpending, hbatch, (Option.some.inj h).symm⟩
  next => cases h

theorem step_fail_eq_some (h : step db clock symbols r .fail = some t) :
    t = { r with pending := [], batch := none, clean := false } := by
  simp only [step] at h
  split_ifs at h
  exact (Option.some.inj h).symm

theorem step_quit_eq_some (h : step db clock symbols r .quit = some t) :
    r.batch = none ∧ t = { r with pending := [], clean := false } := by
  simp only [step] at h
  split_ifs at h with hbusy
  exact ⟨not_not.1 fun hb ↦ hbusy (Or.inr hb), (Option.some.inj h).symm⟩

/-- The later reader has handed on what the earlier one has, fetched no row that it has not, and
sees every row that it sees. -/
structure KeepsRows (r t : Reader) : Prop where
  lastSeenEpoch : t.lastSeenEpoch = r.lastSeenEpoch
  pushed : t.pushed = r.pushed
  dropped : t.dropped = r.dropped
  ticksPublished : t.ticksPublished = r.ticksPublished
  ticksDropped : t.ticksDropped = r.ticksDropped
  fetched : t.fetched ⊆ r.fetched
  table : r.table ⊆ t.table

theorem KeepsRows.handled (h : KeepsRows r t) : t.handled = r.handled := by
  rw [Reader.handled, Reader.handled, h.pushed, h.dropped]

/-- **The three kinds of step**: a query, a row handed on, or one that keeps the rows. -/
theorem step_cases {a : Action} (hstep : step db clock symbols r a = some t) :
    (∃ sym, t = { r with
        batch := some (db.query r.queries r.table sym r.lastSeenEpoch)
        queries := r.queries + 1
        clean := r.clean &&
          decide ((db.query r.queries r.table sym r.lastSeenEpoch).length < 50) }) ∨
      (∃ sym row rows, r.fetched = row :: rows ∧
        t = { handleRow clock sym r row with batch := some rows }) ∨
      KeepsRows r t := by
  cases a with
  | query =>
    obtain ⟨sym, rest, -, -, ht⟩ := step_query_eq_some hstep
    exact Or.inl ⟨sym, ht⟩
  | row =>
    obtain ⟨sym, rest, row, rows, -, hbatch, ht⟩ := step_row_eq_some hstep
    exact Or.inr (Or.inl ⟨sym, row, rows, fetched_of_batch hbatch, ht⟩)
  | insert row =>
    obtain ⟨-, rfl⟩ := step_insert_eq_some hstep
    exact Or.inr (Or.inr ⟨rfl, rfl, rfl, rfl, rfl, fun _ h ↦ h, List.subset_append_left _ _⟩)
  | outputPop =>
    obtain ⟨popped, -, rfl⟩ := Option.map_eq_some_iff.1 hstep
    exact Or.inr (Or.inr ⟨rfl, rfl, rfl, rfl, rfl, fun _ h ↦ h, fun _ h ↦ h⟩)
  | startRound =>
    obtain ⟨-, -, rfl⟩ := step_startRound_eq_some hstep
    exact Or.inr (Or.inr ⟨rfl, rfl, rfl, rfl, rfl, fun _ h ↦ h, fun _ h ↦ h⟩)
  | nextSymbol =>
    obtain ⟨sym, rest, -, -, rfl⟩ := step_nextSymbol_eq_some hstep
    exact Or.inr (Or.inr ⟨rfl, rfl, rfl, rfl, rfl, List.nil_subset _, fun _ h ↦ h⟩)
  | fail =>
    obtain rfl := step_fail_eq_some hstep
    exact Or.inr (Or.inr ⟨rfl, rfl, rfl, rfl, rfl, List.nil_subset _, fun _ h ↦ h⟩)
  | quit =>
    obtain ⟨-, rfl⟩ := step_quit_eq_some hstep
    exact Or.inr (Or.inr ⟨rfl, rfl, rfl, rfl, rfl, fun _ h ↦ h, fun _ h ↦ h⟩)

/-! ### The counters -/

/-- The counters count the rows handed on. -/
def Counted (r : Reader) : Prop :=
  r.ticksPublished = r.pushed.length ∧ r.ticksDropped = r.dropped.length

theorem Counted.handleRow {sym : List UInt8} {row : Row} (h : Counted r) :
    Counted (Reader.handleRow clock sym r row) := by
  unfold Reader.handleRow
  split
  · exact ⟨by rw [h.1, List.length_append]; rfl, h.2⟩
  · exact ⟨h.1, by rw [h.2, List.length_append]; rfl⟩

theorem Counted.step {a : Action} (h : Counted r) (hstep : step db clock symbols r a = some t) :
    Counted t := by
  rcases step_cases hstep with ⟨sym, rfl⟩ | ⟨sym, row, rows, -, rfl⟩ | hkeeps
  · exact h
  · exact h.handleRow
  · exact ⟨by rw [hkeeps.ticksPublished, hkeeps.pushed, h.1],
      by rw [hkeeps.ticksDropped, hkeeps.dropped, h.2]⟩

/-- **The counters are exact in every reachable state**: a row is among the dropped ones exactly
when it was counted in `ticks_dropped`. -/
theorem counted_of_run {table : List Row} {output : BoundedQueue MarketTick 16384}
    {acts : List Action}
    (h : StepRun.run (step db clock symbols) (init table output) acts = some r) :
    Counted r :=
  StepRun.run_invariant (fun _ _ _ hc hstep ↦ hc.step hstep) ⟨rfl, rfl⟩ h

end PostgresFeedReader

end Mdp
