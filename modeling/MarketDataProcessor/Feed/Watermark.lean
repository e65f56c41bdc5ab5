import MarketDataProcessor.Feed.PostgresFeedReader
import Mathlib.Data.List.Sort

/-!
# Which rows the feed reader misses

A row can be missed when the shared watermark gets past it before it is handed on. `Overtakes` says
in which states which actions do that: handing on a row that is at least as recent, while the row
waits in the table and is not among those fetched; inserting it at or below the watermark; an
exception while it is fetched and at the watermark. The first happens whenever a symbol polled early
has a newer row than a symbol polled late, in particular on the first poll, which was to pick up
everything.

An overtaken row stays missed for ever (`Passed.step`), since queries select above the watermark. A
row that is not overtaken is handed on by the first completed round that finds it in the table
(`OnTime.step`). Together: `completed_round_iff`.

## The main theorem, and what it rests on

Two invariants face each other. `Passed` holds from the moment a row is overtaken and is never left:
queries select above the watermark and the watermark does not fall. `OnTime` holds of a row until it
is overtaken, and at the end of a completed round it leaves a row of the table nowhere to be but
among the rows handed on: its symbol was queried, the answer was short, hence had it
(`OnTime.query`), and the whole answer was handed on.

So `completed_round_iff` is an equivalence with a condition on steps: every watched row of the table
was handed on exactly if no step of the run has overtaken one. It is about rounds without an error
and without a full answer; what happens with full answers is in `Backlog`.
-/

namespace Mdp

namespace PostgresFeedReader

open Reader

variable {db : Database} {clock : ℕ → ℤ} {symbols : List (List UInt8)} {r t : Reader}

/-! ### Which rows are missed -/

/-- The rows the reader is there for. -/
def Watched (symbols : List (List UInt8)) (row : Row) : Prop :=
  row.source = 1 ∧ row.symbol ∈ symbols ∧ 0 < row.epoch

/-- **The actions that let the watermark get past a row**, by the state they find: the row is
inserted at or below it; a row at least as recent is handed on while this one waits in the table and
is not fetched; an exception strikes while this one is fetched and at or below the watermark. -/
def Overtakes (r : Reader) (x : Row) : Action → Prop
  | .insert row => x = row ∧ x.epoch ≤ r.lastSeenEpoch
  | .row => x ∈ r.table ∧ x ∉ r.handled ∧ x ∉ r.fetched ∧
      ∃ row ∈ r.fetched.head?, x.epoch ≤ row.epoch
  | .fail => x ∈ r.fetched ∧ x ∉ r.handled ∧ x.epoch ≤ r.lastSeenEpoch
  | _ => False

/-- What is fetched or handed on comes from the table. -/
structure Sourced (r : Reader) : Prop where
  fetched : ∀ row ∈ r.fetched, row ∈ r.table
  handled : ∀ row ∈ r.handled, row ∈ r.table

variable {a : Action} {x : Row}

theorem Sourced.step (h : Sourced r) (hstep : step db clock symbols r a = some t) : Sourced t := by
  obtain ⟨hfetched, hhandled⟩ := h
  rcases step_cases hstep with ⟨sym, rfl⟩ | ⟨sym, row, rows, hrows, rfl⟩ | hkeeps
  · exact ⟨fun row h ↦ (db.mem_query h).1, hhandled⟩
  · obtain ⟨htable, -, -, -, -⟩ := handleRow_frame clock sym r row
    rw [hrows] at hfetched
    constructor
    · intro y hy
      exact htable ▸ hfetched y (List.mem_cons_of_mem _ hy)
    · intro y hy
      rcases (mem_handled_handleRow clock sym r row).1 hy with hy | rfl
      · exact htable ▸ hhandled y hy
      · exact htable ▸ hfetched y List.mem_cons_self
  · exact ⟨fun y hy ↦ hkeeps.table (hfetched y (hkeeps.fetched hy)),
      fun y hy ↦ hkeeps.table (hhandled y (hkeeps.handled ▸ hy))⟩

/-- The watermark is past the row, and the row is neither handed on nor about to be. -/
structure Passed (x : Row) (r : Reader) : Prop where
  epoch_le : x.epoch ≤ r.lastSeenEpoch
  not_handled : x ∉ r.handled
  not_fetched : x ∉ r.fetched

/-- **An overtaken row is passed.** -/
theorem passed_of_overtakes (hsrc : Sourced r) (hover : Overtakes r x a)
    (hstep : step db clock symbols r a = some t) : Passed x t := by
  cases a with
  | insert row =>
    obtain ⟨hnew, rfl⟩ := step_insert_eq_some hstep
    obtain ⟨rfl, hle⟩ := hover
    exact ⟨hle, fun h ↦ hnew (hsrc.handled x h), fun h ↦ hnew (hsrc.fetched x h)⟩
  | row =>
    obtain ⟨sym, rest, row, rows, -, hbatch, rfl⟩ := step_row_eq_some hstep
    obtain ⟨-, hseen, -, -, -⟩ := handleRow_frame clock sym r row
    obtain ⟨-, hhandled, hfetched, row', hhead, hle⟩ := hover
    rw [fetched_of_batch hbatch] at hfetched hhead
    obtain rfl := Option.some.inj hhead
    refine ⟨?_, fun h ↦ ?_, fun h ↦ hfetched (List.mem_cons_of_mem _ h)⟩
    · exact hseen ▸ hle.trans (le_max_right _ _)
    · rcases (mem_handled_handleRow clock sym r row).1 h with h | rfl
      · exact hhandled h
      · exact hfetched List.mem_cons_self
  | fail =>
    obtain rfl := step_fail_eq_some hstep
    obtain ⟨-, hhandled, hle⟩ := hover
    exact ⟨hle, hhandled, List.not_mem_nil⟩
  | outputPop | startRound | query | nextSymbol | quit => exact absurd hover id

/-- **A passed row stays passed.** -/
theorem Passed.step (h : Passed x r) (hstep : step db clock symbols r a = some t) : Passed x t := by
  obtain ⟨hle, hhandled, hfetched⟩ := h
  rcases step_cases hstep with ⟨sym, rfl⟩ | ⟨sym, row, rows, hrows, rfl⟩ | hkeeps
  · -- the query selects rows above the watermark only
    exact ⟨hle, hhandled, fun h ↦ absurd (db.mem_query h).2 (not_lt.2 hle)⟩
  · -- the watermark only rises, and the row handed on was fetched
    obtain ⟨-, hseen, -, -, -⟩ := handleRow_frame clock sym r row
    rw [hrows] at hfetched
    refine ⟨hseen ▸ hle.trans (le_max_left _ _), fun h ↦ ?_,
      fun h ↦ hfetched (List.mem_cons_of_mem _ h)⟩
    rcases (mem_handled_handleRow clock sym r row).1 h with h | rfl
    · exact hhandled h
    · exact hfetched List.mem_cons_self
  · exact ⟨hkeeps.lastSeenEpoch ▸ hle, hkeeps.handled ▸ hhandled,
      fun h ↦ hfetched (hkeeps.fetched h)⟩

/-- A row that was not overtaken: handed on, fetched, or above the watermark; and in a round without
error or full answers, handed on or fetched once its symbol was queried. -/
structure OnTime (x : Row) (r : Reader) : Prop where
  waits : x ∈ r.table → x ∈ r.handled ∨ x ∈ r.fetched ∨ r.lastSeenEpoch < x.epoch
  round : r.clean = true → x ∈ r.atStart → x ∈ r.handled ∨ x ∈ r.fetched ∨ x.symbol ∈ r.unqueried
  kept : x ∈ r.atStart → x ∈ r.table

theorem onTime_init (table : List Row) (output : BoundedQueue MarketTick 16384)
    (hx : Watched symbols x) : OnTime x (init table output) :=
  ⟨fun _ ↦ Or.inr (Or.inr hx.2.2), fun h ↦ absurd h (by simp [init]),
    fun h ↦ absurd h List.not_mem_nil⟩

/-- **A query keeps a row on time**: a row of the symbol queried that is not in a short answer is
not above the watermark. -/
theorem OnTime.query (h : OnTime x r) (hx : Watched symbols x)
    (hstep : step db clock symbols r .query = some t) : OnTime x t := by
  obtain ⟨hwaits, hround, hkept⟩ := h
  obtain ⟨sym, rest, hpending, hbatch, rfl⟩ := step_query_eq_some hstep
  rw [fetched_of_idle hbatch] at hwaits hround
  refine ⟨fun hmem ↦ ?_, fun hclean hstart ↦ ?_, hkept⟩
  · rcases hwaits hmem with h | h | h
    · exact Or.inl h
    · exact absurd h List.not_mem_nil
    · exact Or.inr (Or.inr h)
  · obtain ⟨hclean, hshort⟩ := Bool.and_eq_true_iff.1 hclean
    rw [unqueried, hbatch, hpending] at hround
    rcases hround hclean hstart with h | h | h
    · exact Or.inl h
    · exact absurd h List.not_mem_nil
    rcases List.mem_cons.1 h with hsym | h
    · -- its own symbol is queried: above the watermark, it is in the answer
      rcases hwaits (hkept hstart) with h | h | h
      · exact Or.inl h
      · exact absurd h List.not_mem_nil
      · have hsel : x.selected sym r.lastSeenEpoch = true := decide_eq_true ⟨hx.1, hsym, h⟩
        have hmem := db.mem_query_of_short (of_decide_eq_true hshort) (hkept hstart) hsel
        exact Or.inr (Or.inl hmem)
    · refine Or.inr (Or.inr ?_)
      show x.symbol ∈ r.pending.tail
      rwa [hpending]

/-- **Handing a row on keeps another on time** unless it overtakes it. -/
theorem OnTime.row (h : OnTime x r) (hnot : ¬ Overtakes r x .row)
    (hstep : step db clock symbols r .row = some t) : OnTime x t := by
  obtain ⟨hwaits, hround, hkept⟩ := h
  obtain ⟨sym, rest, row, rows, hpending, hbatch, rfl⟩ := step_row_eq_some hstep
  obtain ⟨htable, hseen, hpend, hcl, hst⟩ := handleRow_frame clock sym r row
  have hfetched := fetched_of_batch hbatch
  -- handed on or fetched before, so handed on or fetched after
  have hmove : x ∈ r.handled ∨ x ∈ r.fetched →
      x ∈ (handleRow clock sym r row).handled ∨ x ∈ rows := by
    rintro (h | h)
    · exact Or.inl ((mem_handled_handleRow clock sym r row).2 (Or.inl h))
    · rw [hfetched] at h
      rcases List.mem_cons.1 h with rfl | h
      · exact Or.inl ((mem_handled_handleRow clock sym r x).2 (Or.inr rfl))
      · exact Or.inr h
  refine ⟨fun hmem ↦ ?_, fun hclean hstart ↦ ?_, fun h ↦ ?_⟩
  · have hmem' : x ∈ r.table := htable ▸ hmem
    by_cases hknown : x ∈ r.handled ∨ x ∈ r.fetched
    · rcases hmove hknown with h | h
      · exact Or.inl h
      · exact Or.inr (Or.inl h)
    · obtain ⟨hnh, hnf⟩ := not_or.1 hknown
      have hlt : r.lastSeenEpoch < x.epoch := by
        rcases hwaits hmem' with h | h | h
        · exact absurd h hnh
        · exact absurd h hnf
        · exact h
      have hlt' : row.epoch < x.epoch := not_le.1 fun hle ↦
        hnot ⟨hmem', hnh, hnf, row, by rw [hfetched]; rfl, hle⟩
      refine Or.inr (Or.inr ?_)
      show (handleRow clock sym r row).lastSeenEpoch < x.epoch
      rw [hseen]
      exact max_lt hlt hlt'
  · rcases hround (hcl ▸ hclean) (hst ▸ hstart) with h | h | h
    · exact (hmove (Or.inl h)).imp_right Or.inl
    · exact (hmove (Or.inr h)).imp_right Or.inl
    · refine Or.inr (Or.inr ?_)
      rw [unqueried, hbatch] at h
      show x.symbol ∈ (handleRow clock sym r row).pending.tail
      rwa [hpend]
  · show x ∈ (handleRow clock sym r row).table
    rw [htable]
    exact hkept (hst ▸ h)

/-- **A row stays on time unless it is overtaken.** -/
theorem OnTime.step (h : OnTime x r) (hx : Watched symbols x) (hnot : ¬ Overtakes r x a)
    (hstep : step db clock symbols r a = some t) : OnTime x t := by
  have ⟨hwaits, hround, hkept⟩ := h
  cases a with
  | insert row =>
    obtain ⟨-, rfl⟩ := step_insert_eq_some hstep
    refine ⟨fun hmem ↦ ?_, hround, fun h ↦ List.mem_append_left _ (hkept h)⟩
    rcases List.mem_append.1 hmem with hmem | hmem
    · exact hwaits hmem
    · exact Or.inr (Or.inr (not_le.1 fun hle ↦ hnot ⟨List.mem_singleton.1 hmem, hle⟩))
  | outputPop =>
    obtain ⟨popped, -, rfl⟩ := Option.map_eq_some_iff.1 hstep
    exact ⟨hwaits, hround, hkept⟩
  | startRound =>
    obtain ⟨-, hbatch, rfl⟩ := step_startRound_eq_some hstep
    refine ⟨hwaits, fun _ _ ↦ Or.inr (Or.inr ?_), id⟩
    show x.symbol ∈ unqueried { r with pending := symbols, clean := true, atStart := r.table }
    rw [unqueried, hbatch]
    exact hx.2.1
  | query => exact h.query hx hstep
  | row => exact h.row hnot hstep
  | nextSymbol =>
    obtain ⟨sym, rest, hpending, hbatch, rfl⟩ := step_nextSymbol_eq_some hstep
    rw [fetched_of_batch hbatch] at hwaits hround
    refine ⟨hwaits, fun hclean hstart ↦ ?_, hkept⟩
    rw [unqueried, hbatch, hpending] at hround
    exact hround hclean hstart
  | fail =>
    obtain rfl := step_fail_eq_some hstep
    refine ⟨fun hmem ↦ ?_, fun hclean ↦ absurd hclean (by simp), hkept⟩
    by_cases hh : x ∈ r.handled
    · exact Or.inl hh
    · rcases hwaits hmem with h | h | h
      · exact absurd h hh
      · exact Or.inr (Or.inr (not_le.1 fun hle ↦ hnot ⟨h, hh, hle⟩))
      · exact Or.inr (Or.inr h)
  | quit =>
    obtain ⟨-, rfl⟩ := step_quit_eq_some hstep
    exact ⟨hwaits, fun hclean ↦ absurd hclean (by simp), hkept⟩

/-! ### Whole runs -/

section Runs

variable {table : List Row} {output : BoundedQueue MarketTick 16384} {acts : List Action}

theorem sourced_of_run
    (h : StepRun.run (step db clock symbols) (init table output) acts = some r) : Sourced r :=
  StepRun.run_invariant (fun _ _ _ hs hstep ↦ hs.step hstep)
    ⟨fun _ h ↦ absurd h List.not_mem_nil, fun _ h ↦ absurd h List.not_mem_nil⟩ h

/-- **A row overtaken anywhere in a run is not handed on by its end.** -/
theorem passed_of_run {seen rest : List Action} {u : Reader}
    (hsplit : acts = seen ++ a :: rest)
    (hseen : StepRun.run (step db clock symbols) (init table output) seen = some u)
    (hover : Overtakes u x a)
    (hrun : StepRun.run (step db clock symbols) (init table output) acts = some r) :
    Passed x r := by
  subst hsplit
  obtain ⟨u', hu', hrest⟩ := StepRun.run_append_eq_some_iff.1 hrun
  obtain rfl := Option.some.inj (hseen.symm.trans hu')
  obtain ⟨v, hv, hrest⟩ := StepRun.run_cons_eq_some_iff.1 hrest
  exact StepRun.run_invariant (fun _ _ _ hp hstep ↦ hp.step hstep)
    (passed_of_overtakes (sourced_of_run hseen) hover hv) hrest

/-- **When a completed round has missed no row.** After any run that ends with a completed round, in
which no exception was thrown and no query returned fifty rows, every watched row that was in the
table when the round began has been pushed or counted as dropped exactly when none of them was
overtaken by any step of the run. -/
theorem completed_round_iff (db : Database) (clock : ℕ → ℤ) (symbols : List (List UInt8))
    (table : List Row) (output : BoundedQueue MarketTick 16384) (acts : List Action) (r : Reader)
    (hrun : StepRun.run (step db clock symbols) (init table output) acts = some r)
    (hdone : r.roundDone = true) :
    (∀ row ∈ r.atStart, Watched symbols row → row ∈ r.pushed ∨ row ∈ r.dropped) ↔
      ∀ row ∈ r.atStart, Watched symbols row → ∀ seen a rest u, acts = seen ++ a :: rest →
        StepRun.run (step db clock symbols) (init table output) seen = some u →
        ¬ Overtakes u row a := by
  constructor
  · intro hall row hrow hwatched seen a rest u hsplit hseen hover
    exact (passed_of_run hsplit hseen hover hrun).not_handled
      (List.mem_append.2 (hall row hrow hwatched))
  · intro hnone row hrow hwatched
    obtain ⟨hpending, hbatch, hclean⟩ := of_decide_eq_true hdone
    have htime : OnTime row r := StepRun.run_invariant_along
      (fun seen a rest u v hsplit hseen htime hstep ↦
        htime.step hwatched (hnone row hrow hwatched seen a rest u hsplit hseen) hstep)
      (onTime_init table output hwatched) hrun
    -- at the end of the round nothing is fetched and no symbol is left
    rcases htime.round hclean hrow with h | h | h
    · exact List.mem_append.1 h
    · rw [fetched_of_idle hbatch] at h
      exact absurd h List.not_mem_nil
    · rw [unqueried, hbatch, hpending] at h
      exact absurd h List.not_mem_nil

end Runs

/-- A database that breaks ties by the order of the table. -/
def sortingDatabase : Database where
  query _ table sym lastSeenEpoch :=
    ((table.filter (Row.selected sym lastSeenEpoch)).insertionSort fun a b ↦
      a.epoch ≤ b.epoch).take 50
  query_spec _ table sym lastSeenEpoch := by
    have : Std.Total fun a b : Row ↦ a.epoch ≤ b.epoch := ⟨fun a b ↦ le_total a.epoch b.epoch⟩
    have : IsTrans Row fun a b ↦ a.epoch ≤ b.epoch := ⟨fun a b c ↦ le_trans⟩
    exact ⟨_, List.perm_insertionSort _ _, List.pairwise_insertionSort _ _, rfl⟩

/-- A row of source 1 for symbol `name`. -/
def sampleRow (id : ℕ) (name : UInt8) (epoch : ℚ) : Row :=
  ⟨id, 1, [name], .fin 100, .fin 1, epoch⟩

/-- A round over two symbols, with one row of the first and `rows` of the second. -/
def twoSymbolRound (rows : List Action) : List Action :=
  [.startRound, .query, .row, .nextSymbol, .query] ++ rows ++ [.nextSymbol]

/-- With the older row at the symbol polled first, the round completes, hands on both rows and
overtakes neither. -/
theorem completed_round_older_first :
    let steps := StepRun.run (step sortingDatabase (fun _ ↦ 1) [[65], [66]])
      (init [sampleRow 0 65 50, sampleRow 1 66 100] BoundedQueue.empty)
    ∃ r, steps (twoSymbolRound [.row]) = some r ∧ r.roundDone = true ∧
      ∀ row ∈ r.atStart, Watched [[65], [66]] row → ∀ seen a rest u,
        twoSymbolRound [.row] = seen ++ a :: rest → steps seen = some u → ¬ Overtakes u row a := by
  intro steps
  obtain ⟨r, hrun, hend⟩ := Option.map_eq_some_iff.1 (by decide +kernel :
    (steps (twoSymbolRound [.row])).map (fun r ↦ (r.roundDone, decide (r.atStart = r.pushed))) =
      some (true, true))
  obtain ⟨hdone, hpushed⟩ := Prod.mk.inj hend
  refine ⟨r, hrun, hdone, (completed_round_iff _ _ _ _ _ _ r hrun hdone).1 ?_⟩
  intro row hrow _
  left
  rwa [← of_decide_eq_true hpushed]

/-- **A completed round can miss a row.** The first symbol polled has a row at epoch 100, the second
one at epoch 50: the first poll takes the watermark to 100 and the second query does not select the
row at 50. -/
theorem completed_round_misses_newer_first :
    ¬ ∀ (symbols : List (List UInt8)) (table : List Row) (output : BoundedQueue MarketTick 16384)
      (acts : List Action) (r : Reader),
      StepRun.run (step sortingDatabase (fun _ ↦ 1) symbols) (init table output) acts = some r →
      r.roundDone = true →
      ∀ row ∈ r.atStart, Watched symbols row → row ∈ r.pushed ∨ row ∈ r.dropped := by
  intro hall
  obtain ⟨r, hrun, hend⟩ := Option.map_eq_some_iff.1 (by decide +kernel :
    (StepRun.run (step sortingDatabase (fun _ ↦ 1) [[65], [66]])
      (init [sampleRow 0 65 100, sampleRow 1 66 50] BoundedQueue.empty) (twoSymbolRound [])).map
        (fun r ↦ (r.roundDone, r.atStart, r.pushed, r.dropped)) =
      some (true, [sampleRow 0 65 100, sampleRow 1 66 50], [sampleRow 0 65 100], []))
  simp only [Prod.mk.injEq] at hend
  obtain ⟨hdone, hstart, hpushed, hdropped⟩ := hend
  have hmissed := hall _ _ _ _ r hrun hdone (sampleRow 1 66 50) (by rw [hstart]; simp)
    ⟨rfl, by decide, by decide +kernel⟩
  rw [hpushed, hdropped] at hmissed
  exact absurd hmissed (by decide +kernel)

end PostgresFeedReader

end Mdp
