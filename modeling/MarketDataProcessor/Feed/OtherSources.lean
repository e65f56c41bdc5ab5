import MarketDataProcessor.Feed.Watermark

/-!
# Rows of other sources

`MarketPrices` holds rows of several writers, told apart by `"Source"`: 1 is the ingestion worker,
which the reader is there for, and 2 is this program itself. The query asks for source 1.

`other_sources_unseen` says what that is worth: leave the rows of all other sources out of the table
and never insert one, and the reader goes through the same run, with the same ticks pushed and
dropped, the same watermark and the same counters. The run without them is against another database,
since the order in which a database returns rows of one epoch may depend on anything in its table;
it answers each query as the first does on the full table.

`Selects` is the invariant behind both this and the closed loop: what is fetched and handed on are
watched rows.

## The main theorem, and what it rests on

`other_sources_unseen` is a simulation in lock step. `Reader.ofFeed` drops the foreign rows from the
table and leaves everything else as it is, so an insertion of a foreign row is no step
(`ofFeed_eq_of_step`), and every other action is the same action on both sides (`step_ofFeed`).

The query is where the two runs could part. The `WHERE` clause makes the selected rows the same
(`Row.filter_selected`), but a database is free in the order of equal epochs, and this freedom may
look at rows it does not return. So the second run has a database of its own, defined from the first
run: it answers the `n`-th query as the first database answered the `n`-th query on the full table.
That this is a database at all, with the same specification, is the content of `Database.ofFeed`.
-/

namespace Mdp

namespace PostgresFeedReader

open Reader

/-- The ingestion worker's rows. -/
def Row.ofFeed (row : Row) : Bool := decide (row.source = 1)

theorem Row.filter_selected (table : List Row) (sym : List UInt8) (lastSeenEpoch : ℚ) :
    (table.filter Row.ofFeed).filter (Row.selected sym lastSeenEpoch) =
      table.filter (Row.selected sym lastSeenEpoch) := by
  rw [List.filter_filter]
  refine List.filter_congr fun row _ ↦ ?_
  rw [Bool.and_eq_left_iff_imp]
  intro hselected
  exact decide_eq_true (of_decide_eq_true hselected).1

variable {db : Database} {clock : ℕ → ℤ} {symbols : List (List UInt8)} {r t : Reader} {a : Action}

/-! ### Only watched rows -/

/-- Returned rows are of source 1 and of the symbol asked for. -/
theorem Database.of_mem_query (db : Database) {number : ℕ} {table : List Row} {sym : List UInt8}
    {lastSeenEpoch : ℚ} {row : Row} (h : row ∈ db.query number table sym lastSeenEpoch) :
    row.source = 1 ∧ row.symbol = sym := by
  obtain ⟨ordered, hperm, -, hquery⟩ := db.query_spec number table sym lastSeenEpoch
  rw [hquery] at h
  have hselected := (List.mem_filter.1 (hperm.mem_iff.1 (List.mem_of_mem_take h))).2
  exact ⟨(of_decide_eq_true hselected).1, (of_decide_eq_true hselected).2.1⟩

/-- The reader works on watched rows: it asks for configured symbols, and has fetched rows of the
current one. -/
structure Selects (symbols : List (List UInt8)) (r : Reader) : Prop where
  start : 0 ≤ r.lastSeenEpoch
  pending : r.pending ⊆ symbols
  fetched : ∀ row ∈ r.fetched,
    row.source = 1 ∧ 0 < row.epoch ∧ ∃ rest, r.pending = row.symbol :: rest
  handled : ∀ row ∈ r.handled, Watched symbols row

theorem selects_init (table : List Row) (output : BoundedQueue MarketTick 16384) :
    Selects symbols (init table output) :=
  ⟨le_rfl, List.nil_subset _, fun _ h ↦ absurd h List.not_mem_nil,
    fun _ h ↦ absurd h List.not_mem_nil⟩

/-- **Every step keeps it.** -/
theorem Selects.step (h : Selects symbols r) (hstep : step db clock symbols r a = some t) :
    Selects symbols t := by
  obtain ⟨hstart, hpending, hfetched, hhandled⟩ := h
  cases a with
  | insert row =>
    obtain ⟨-, rfl⟩ := step_insert_eq_some hstep
    exact ⟨hstart, hpending, hfetched, hhandled⟩
  | outputPop =>
    obtain ⟨popped, -, rfl⟩ := Option.map_eq_some_iff.1 hstep
    exact ⟨hstart, hpending, hfetched, hhandled⟩
  | startRound =>
    obtain ⟨-, hbatch, rfl⟩ := step_startRound_eq_some hstep
    have hnone : ∀ row ∈ r.fetched, False := fun row hrow ↦ by
      rw [fetched_of_idle hbatch] at hrow
      exact List.not_mem_nil hrow
    exact ⟨hstart, List.Subset.refl _, fun row hrow ↦ (hnone row hrow).elim, hhandled⟩
  | query =>
    obtain ⟨sym, rest, hsym, -, rfl⟩ := step_query_eq_some hstep
    have hanswer : ∀ row ∈ db.query r.queries r.table sym r.lastSeenEpoch,
        row.source = 1 ∧ 0 < row.epoch ∧ ∃ rest, r.pending = row.symbol :: rest := fun row hrow ↦ by
      obtain ⟨hsource, hsymbol⟩ := db.of_mem_query hrow
      exact ⟨hsource, hstart.trans_lt (db.mem_query hrow).2, rest, hsymbol ▸ hsym⟩
    exact ⟨hstart, hpending, hanswer, hhandled⟩
  | row =>
    obtain ⟨sym, rest, row, rows, hsym, hbatch, rfl⟩ := step_row_eq_some hstep
    obtain ⟨-, hseen, hsame, -, -⟩ := handleRow_frame clock sym r row
    rw [fetched_of_batch hbatch] at hfetched
    obtain ⟨hsource, hepoch, rest', hcurrent⟩ := hfetched row List.mem_cons_self
    have hwatched : Watched symbols row :=
      ⟨hsource, hpending (hcurrent ▸ List.mem_cons_self), hepoch⟩
    refine ⟨?_, ?_, fun x hx ↦ ?_, fun x hx ↦ ?_⟩
    · show 0 ≤ (handleRow clock sym r row).lastSeenEpoch
      rw [hseen]
      exact hstart.trans (le_max_left _ _)
    · show (handleRow clock sym r row).pending ⊆ symbols
      rw [hsame]
      exact hpending
    · show _ ∧ _ ∧ ∃ rest, (handleRow clock sym r row).pending = x.symbol :: rest
      rw [hsame]
      exact hfetched x (List.mem_cons_of_mem _ hx)
    · rcases (mem_handled_handleRow clock sym r row).1 hx with hold | rfl
      · exact hhandled x hold
      · exact hwatched
  | nextSymbol =>
    obtain ⟨sym, rest, hsym, -, rfl⟩ := step_nextSymbol_eq_some hstep
    rw [hsym] at hpending
    exact ⟨hstart, fun x hx ↦ hpending (List.mem_cons_of_mem _ hx),
      fun _ h ↦ absurd h List.not_mem_nil, hhandled⟩
  | fail =>
    obtain rfl := step_fail_eq_some hstep
    exact ⟨hstart, List.nil_subset _, fun _ h ↦ absurd h List.not_mem_nil, hhandled⟩
  | quit =>
    obtain ⟨hbatch, rfl⟩ := step_quit_eq_some hstep
    refine ⟨hstart, List.nil_subset _, fun row hrow ↦ ?_, hhandled⟩
    rw [fetched_of_idle (r := { r with pending := [], clean := false }) hbatch] at hrow
    exact absurd hrow List.not_mem_nil

theorem selects_of_run {table : List Row} {output : BoundedQueue MarketTick 16384}
    {acts : List Action}
    (hrun : StepRun.run (step db clock symbols) (init table output) acts = some r) :
    Selects symbols r :=
  StepRun.run_invariant (fun _ _ _ h hstep ↦ h.step hstep) (selects_init table output) hrun

/-! ### Without the rows of other sources -/

/-- The reader on a table without rows of other sources. -/
def Reader.ofFeed (r : Reader) : Reader :=
  { r with table := r.table.filter Row.ofFeed, atStart := r.atStart.filter Row.ofFeed }

/-- What is not the insertion of a row of another source. -/
def Action.ofFeed : Action → Bool
  | .insert x => x.ofFeed
  | _ => true

/-- The table an action queries. -/
def tableQueried (r : Reader) : Action → List (List Row)
  | .query => [r.table]
  | _ => []

/-- A database that answers the `n`-th query on a table without rows of other sources as `db` does
on the `n`-th of `tables`, which has them. -/
def Database.ofFeed (db : Database) (tables : List (List Row)) : Database where
  query number table sym lastSeenEpoch :=
    let full := tables.getD number []
    if table = full.filter Row.ofFeed then db.query number full sym lastSeenEpoch
    else sortingDatabase.query number table sym lastSeenEpoch
  query_spec number table sym lastSeenEpoch := by
    dsimp only
    split_ifs with htable
    · subst htable
      rw [Row.filter_selected]
      exact db.query_spec ..
    · exact sortingDatabase.query_spec ..

/-- The insertion of a row of another source is not seen. -/
theorem ofFeed_eq_of_step (hstep : step db clock symbols r a = some t) (hother : a.ofFeed = false) :
    t.ofFeed = r.ofFeed := by
  cases a with
  | insert row =>
    obtain ⟨-, rfl⟩ := step_insert_eq_some hstep
    have hrow : [row].filter Row.ofFeed = [] :=
      List.filter_eq_nil_iff.2 fun x hx ↦ by
        rw [List.mem_singleton.1 hx]
        exact Bool.eq_false_iff.1 hother
    simp only [Reader.ofFeed, List.filter_append, hrow, List.append_nil]
  | _ => cases hother

/-- Handing on a row does not depend on the table. -/
theorem handleRow_ofFeed (clock : ℕ → ℤ) (sym : List UInt8) (r : Reader) (row : Row) :
    handleRow clock sym r.ofFeed row = (handleRow clock sym r row).ofFeed := by
  simp only [handleRow, rowTick, Reader.ofFeed]
  split <;> rfl

/-- **Every other step is one without the rows of other sources**, if the other database answers the
query as this one does. -/
theorem step_ofFeed {db' : Database}
    (hquery : a = .query → ∀ sym, db'.query r.queries (r.table.filter Row.ofFeed) sym
      r.lastSeenEpoch = db.query r.queries r.table sym r.lastSeenEpoch)
    (hstep : step db clock symbols r a = some t) (hours : a.ofFeed = true) :
    step db' clock symbols r.ofFeed a = some t.ofFeed := by
  cases a with
  | insert row =>
    obtain ⟨hnew, rfl⟩ := step_insert_eq_some hstep
    have hrow : row ∉ r.table.filter Row.ofFeed := fun hmem ↦ hnew (List.mem_filter.1 hmem).1
    have hone : [row].filter Row.ofFeed = [row] :=
      List.filter_eq_self.2 fun x hx ↦ by rwa [List.mem_singleton.1 hx]
    simp only [step, Reader.ofFeed, hrow, if_false, List.filter_append, hone]
  | outputPop =>
    obtain ⟨popped, hpop, rfl⟩ := Option.map_eq_some_iff.1 hstep
    simp only [step, Reader.ofFeed, hpop, Option.map_some]
  | startRound =>
    obtain ⟨hpending, hbatch, rfl⟩ := step_startRound_eq_some hstep
    simp only [step, Reader.ofFeed, hpending, hbatch, and_self, if_true]
  | query =>
    obtain ⟨sym, rest, hpending, hbatch, rfl⟩ := step_query_eq_some hstep
    simp only [step, Reader.ofFeed, hpending, hbatch, hquery rfl sym]
  | row =>
    obtain ⟨sym, rest, row, rows, hpending, hbatch, rfl⟩ := step_row_eq_some hstep
    have hpending' : r.ofFeed.pending = sym :: rest := hpending
    have hbatch' : r.ofFeed.batch = some (row :: rows) := hbatch
    simp only [step, hpending', hbatch', handleRow_ofFeed]
    rfl
  | nextSymbol =>
    obtain ⟨sym, rest, hpending, hbatch, rfl⟩ := step_nextSymbol_eq_some hstep
    simp only [step, Reader.ofFeed, hpending, hbatch]
  | fail =>
    simp only [step] at hstep ⊢
    split_ifs at hstep with hpending
    obtain rfl := Option.some.inj hstep
    rw [if_neg (show ¬ r.ofFeed.pending = [] from hpending)]
    rfl
  | quit =>
    simp only [step] at hstep ⊢
    split_ifs at hstep with hpending
    obtain rfl := Option.some.inj hstep
    rw [if_neg (show ¬ (r.ofFeed.pending = [] ∨ r.ofFeed.batch ≠ none) from hpending)]
    rfl

/-- Queries are numbered as they are sent. -/
theorem queries_of_step (hstep : step db clock symbols r a = some t) :
    t.queries = r.queries + (tableQueried r a).length := by
  cases a with
  | query =>
    obtain ⟨sym, rest, -, -, rfl⟩ := step_query_eq_some hstep
    rfl
  | insert row =>
    obtain ⟨-, rfl⟩ := step_insert_eq_some hstep
    rfl
  | outputPop =>
    obtain ⟨popped, -, rfl⟩ := Option.map_eq_some_iff.1 hstep
    rfl
  | startRound =>
    obtain ⟨-, -, rfl⟩ := step_startRound_eq_some hstep
    rfl
  | row =>
    obtain ⟨sym, rest, row, rows, -, -, rfl⟩ := step_row_eq_some hstep
    show (handleRow clock sym r row).queries = r.queries
    unfold handleRow
    split <;> rfl
  | nextSymbol =>
    obtain ⟨sym, rest, -, -, rfl⟩ := step_nextSymbol_eq_some hstep
    rfl
  | fail =>
    obtain rfl := step_fail_eq_some hstep
    rfl
  | quit =>
    obtain ⟨-, rfl⟩ := step_quit_eq_some hstep
    rfl

section Runs

variable {table : List Row} {output : BoundedQueue MarketTick 16384} {acts : List Action}

/-- The log of queried tables has the table of each query at its number. -/
theorem getD_tableQueried {seen rest : List Action} {u : Reader}
    (hseen : StepRun.run (step db clock symbols) (init table output) seen = some u) :
    (StepRun.log tableQueried (step db clock symbols) (init table output)
      (seen ++ .query :: rest)).getD u.queries [] = u.table := by
  have hlength : (StepRun.log tableQueried (step db clock symbols) (init table output)
      seen).length = u.queries := by
    refine StepRun.run_invariant_log (P := fun u log ↦ log.length = u.queries)
      (fun u seen a v hu hstep ↦ ?_) rfl hseen
    rw [List.length_append, hu, queries_of_step hstep]
  rw [StepRun.log_append hseen, ← hlength, List.getD_eq_getElem?_getD,
    List.getElem?_append_right (Nat.le_refl _), Nat.sub_self]
  rfl

/-- **The reader does not see the rows of other sources.** Whatever run it makes on a table with
rows of other sources, inserted at any moment, it makes the same without them: every row is pushed
or dropped as before, the buffer, the watermark, the counters and what is pending are the same. -/
theorem other_sources_unseen
    (hrun : StepRun.run (step db clock symbols) (init table output) acts = some r) :
    ∃ db' : Database, StepRun.run (step db' clock symbols)
      (init (table.filter Row.ofFeed) output) (acts.filter Action.ofFeed) = some r.ofFeed := by
  let tables := StepRun.log tableQueried (step db clock symbols) (init table output) acts
  obtain ⟨t, ht, rfl⟩ : ∃ t, StepRun.run (step (db.ofFeed tables) clock symbols)
      (init (table.filter Row.ofFeed) output) (acts.filter Action.ofFeed) = some t ∧
        t = r.ofFeed := by
    refine StepRun.run_filter_of_relates (R := fun u w ↦ w = Reader.ofFeed u) rfl
      (fun seen a rest u v w _ _ hother hstep hw ↦ hw.trans (ofFeed_eq_of_step hstep hother).symm)
      (fun seen a rest u v w heq hseen hours hstep hw ↦ ⟨v.ofFeed, ?_, rfl⟩) hrun
    rw [hw]
    refine step_ofFeed (fun hquery sym ↦ ?_) hstep hours
    have htable : tables.getD u.queries [] = u.table := by
      subst hquery heq
      exact getD_tableQueried hseen
    show (if _ = List.filter Row.ofFeed (tables.getD _ _) then _ else _) = _
    rw [htable, if_pos rfl]
  exact ⟨_, ht⟩

end Runs

/-- A row that was processed already, inserted before the query: it is not handed on, nor missed
without. -/
theorem other_sources_unseen_processed :
    let steps := step sortingDatabase (fun _ ↦ 1) [[65]]
    let processed : Row := { sampleRow 1 65 200 with source := 2 }
    ∃ r, StepRun.run steps (init [sampleRow 0 65 100] BoundedQueue.empty)
        [.startRound, .insert processed, .query, .row, .nextSymbol] = some r ∧
      r.pushed = [sampleRow 0 65 100] ∧ r.table.length = 2 ∧
      ∃ db', StepRun.run (step db' (fun _ ↦ 1) [[65]]) (init [sampleRow 0 65 100]
        BoundedQueue.empty) [.startRound, .query, .row, .nextSymbol] = some r.ofFeed := by
  intro steps processed
  obtain ⟨r, hrun, hend⟩ := Option.map_eq_some_iff.1 (by decide +kernel :
    (StepRun.run steps (init [sampleRow 0 65 100] BoundedQueue.empty)
      [.startRound, .insert processed, .query, .row, .nextSymbol]).map
        (fun r ↦ (r.pushed, r.table.length)) = some ([sampleRow 0 65 100], 2))
  obtain ⟨hpushed, htable⟩ := Prod.mk.inj hend
  exact ⟨r, hrun, hpushed, htable, other_sources_unseen hrun⟩

end PostgresFeedReader

end Mdp
