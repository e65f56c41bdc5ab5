import MarketDataProcessor.Feed.AtMostOnce
import MarketDataProcessor.Feed.OtherSources
import MarketDataProcessor.Foundations.Progress

/-!
# How long a row waits for its poll

The query has `LIMIT 50`, so a symbol with a backlog is served fifty rows a poll. `Served` is the
account of one row `x`: as long as it is not handed on, every completed poll of its symbol has
handed on fifty rows of the symbol, since a shorter answer would have had `x` in it. What failed
polls handed on only helps.

A table has only so many rows of the symbol, and each is handed on once. So `served_iff`: after as
many polls as the backlog takes, `x` has been handed on, unless the watermark got past it before.
Which is `Overtakes` again: the other way for a row to be missing, and for good.

## The account

* `mem_query_or_length_eq` is the fact about `LIMIT 50`: of an answer without `x` one knows that it
  is full, since `x` was selected and the answer is the first part of an ascending list.
* `Served.step` keeps the balance of polls completed and rows handed on while `x` waits. A failed
  poll hands on some rows without completing, which is on the right side of the inequality.
* `handledOf_lt` bounds the rows of the symbol that can still be handed on, by those in the table
  less those handed on before. Rows are handed on once, by the order of `AtMostOnce`.

So `served_iff` has the same condition as the account of a completed round, and the two results
differ in what ends the wait: there a round without a full answer, here enough polls.
-/

namespace Mdp

namespace PostgresFeedReader

open Reader

variable {db : Database} {clock : ℕ → ℤ} {symbols : List (List UInt8)} {r t : Reader} {a : Action}
  {x : Row}

/-- The symbol whose poll an action completes. -/
def polled (r : Reader) : Action → List (List UInt8)
  | .nextSymbol => r.pending.head?.toList
  | _ => []

/-- The symbols polled to the end along a run, in order. -/
def polledAlong (db : Database) (clock : ℕ → ℤ) (symbols : List (List UInt8)) (r : Reader)
    (acts : List Action) : List (List UInt8) :=
  StepRun.log polled (step db clock symbols) r acts

/-- How many rows of a symbol are handed on. -/
def Reader.handledOf (r : Reader) (sym : List UInt8) : ℕ :=
  r.handled.countP fun row ↦ row.symbol = sym

/-- How many rows of a symbol the reader is there for. -/
def watchedOf (table : List Row) (sym : List UInt8) : ℕ :=
  table.countP fun row ↦ row.source = 1 ∧ row.symbol = sym

theorem handledOf_handleRow (clock : ℕ → ℤ) (sym sym' : List UInt8) (r : Reader) (row : Row) :
    (handleRow clock sym r row).handledOf sym' =
      r.handledOf sym' + if row.symbol = sym' then 1 else 0 := by
  rw [handledOf, ← (handled_handleRow_perm clock sym r row).countP_eq, List.countP_append,
    List.countP_singleton, handledOf]
  simp only [decide_eq_true_eq]

/-- A query answers with the row or with fifty others. -/
theorem mem_query_or_length_eq (db : Database) (number : ℕ) {table : List Row}
    {lastSeenEpoch : ℚ} (hmem : x ∈ table) (hsource : x.source = 1)
    (hepoch : lastSeenEpoch < x.epoch) :
    x ∈ db.query number table x.symbol lastSeenEpoch ∨
      50 ≤ (db.query number table x.symbol lastSeenEpoch).length := by
  by_cases hshort : (db.query number table x.symbol lastSeenEpoch).length < 50
  · exact Or.inl (db.mem_query_of_short hshort hmem (decide_eq_true ⟨hsource, rfl, hepoch⟩))
  · exact Or.inr (Nat.not_lt.1 hshort)

/-! ### The account of a row -/

/-- **What the polls have served** while `x` waits: fifty rows of its symbol each; and what the
current one has served and will serve is fifty more, unless `x` is in its batch. -/
structure Served (x : Row) (start : ℕ) (r : Reader) (polls : ℕ) : Prop where
  total : x ∉ r.handled → start + 50 * polls ≤ r.handledOf x.symbol
  current : ∀ {rows rest}, r.batch = some rows → r.pending = x.symbol :: rest → x ∉ r.handled →
    x ∉ rows → start + 50 * (polls + 1) ≤ r.handledOf x.symbol + rows.length

variable {start polls : ℕ}

/-- Where no batch is open, the total is all there is to know. -/
theorem Served.of_idle (h : Served x start r polls) (hhandled : t.handled = r.handled)
    (hbatch : t.batch = none) : Served x start t polls where
  total hx := by
    rw [handledOf, hhandled]
    exact h.total (hhandled ▸ hx)
  current hrows := absurd (hbatch.symm.trans hrows) nofun

/-- A step of somebody else. -/
theorem Served.congr (h : Served x start r polls) (hhandled : t.handled = r.handled)
    (hbatch : t.batch = r.batch) (hpending : t.pending = r.pending) : Served x start t polls where
  total hx := by
    rw [handledOf, hhandled]
    exact h.total (hhandled ▸ hx)
  current hrows hsym hx hnot := by
    rw [handledOf, hhandled]
    exact h.current (hbatch ▸ hrows) (hpending ▸ hsym) (hhandled ▸ hx) hnot

/-- **The query**: `x` is above the watermark, so a short answer has it. -/
theorem Served.query (h : Served x start r polls) (htime : OnTime x r) (hmem : x ∈ r.table)
    (hsource : x.source = 1) (hstep : step db clock symbols r .query = some t) :
    Served x start t polls := by
  obtain ⟨sym, rest, hpending, hbatch, rfl⟩ := step_query_eq_some hstep
  refine ⟨h.total, fun {rows rest'} hrows hsym hx hnot ↦ ?_⟩
  obtain rfl := Option.some.inj hrows
  obtain ⟨rfl, -⟩ := List.cons.inj (hpending.symm.trans hsym)
  have hepoch : r.lastSeenEpoch < x.epoch := by
    rcases htime.waits hmem with hhandled | hfetched | hepoch
    · exact absurd hhandled hx
    · rw [fetched_of_idle hbatch] at hfetched
      exact absurd hfetched List.not_mem_nil
    · exact hepoch
  have htotal : start + 50 * polls ≤ r.handledOf x.symbol := h.total hx
  rcases mem_query_or_length_eq db r.queries hmem hsource hepoch with hanswer | hfull
  · exact absurd hanswer hnot
  · show _ ≤ r.handledOf x.symbol + _
    omega

/-- **A row handed on** moves from the batch to the rows of the symbol that are handed on. -/
theorem Served.row (h : Served x start r polls) (hselects : Selects symbols r)
    (hstep : step db clock symbols r .row = some t) : Served x start t polls := by
  obtain ⟨sym, rest, row, rows, hpending, hbatch, rfl⟩ := step_row_eq_some hstep
  have hseen {y : Row} : y ∉ (handleRow clock sym r row).handled → y ∉ r.handled ∧ y ≠ row :=
    fun hy ↦ not_or.1 fun hold ↦ hy ((mem_handled_handleRow clock sym r row).2 hold)
  have hcount := handledOf_handleRow clock sym x.symbol r row
  constructor
  · intro hx
    show _ ≤ (handleRow clock sym r row).handledOf x.symbol
    have htotal := h.total (hseen hx).1
    omega
  · intro rows' rest' hrows hsym hx hnot
    obtain rfl := Option.some.inj hrows
    have hsame : r.pending = x.symbol :: rest' :=
      (handleRow_frame clock sym r row).2.2.1.symm.trans hsym
    -- the row handed on was fetched for the current symbol
    obtain ⟨-, -, rest'', hrow⟩ := hselects.fetched row
      (by rw [fetched_of_batch hbatch]; exact List.mem_cons_self)
    obtain ⟨hsymbol, -⟩ := List.cons.inj (hrow.symm.trans hsame)
    obtain ⟨hold, hne⟩ := hseen hx
    have hcurrent := h.current hbatch hsame hold fun hin ↦
      (List.mem_cons.1 hin).elim hne hnot
    rw [List.length_cons] at hcurrent
    rw [if_pos hsymbol] at hcount
    show _ ≤ (handleRow clock sym r row).handledOf x.symbol + rows.length
    omega

/-- **Every step keeps the account.** -/
theorem Served.step (h : Served x start r polls) (hselects : Selects symbols r)
    (htime : OnTime x r) (hmem : x ∈ r.table) (hsource : x.source = 1)
    (hstep : step db clock symbols r a = some t) :
    Served x start t (polls + (polled r a).count x.symbol) := by
  cases a with
  | insert row =>
    obtain ⟨-, rfl⟩ := step_insert_eq_some hstep
    exact h.congr rfl rfl rfl
  | outputPop =>
    obtain ⟨popped, -, rfl⟩ := Option.map_eq_some_iff.1 hstep
    exact h.congr rfl rfl rfl
  | startRound =>
    obtain ⟨-, hbatch, rfl⟩ := step_startRound_eq_some hstep
    exact h.of_idle rfl hbatch
  | query => exact h.query htime hmem hsource hstep
  | row => exact h.row hselects hstep
  | nextSymbol =>
    obtain ⟨sym, rest, hpending, hbatch, rfl⟩ := step_nextSymbol_eq_some hstep
    refine ⟨fun hx ↦ ?_, fun hrows ↦ absurd hrows nofun⟩
    rw [polled, hpending, List.head?_cons, Option.toList_some, List.count_singleton]
    split
    next hsym =>
      rw [beq_iff_eq] at hsym
      exact h.current hbatch (hsym ▸ hpending) hx List.not_mem_nil
    next => exact h.total hx
  | fail =>
    obtain rfl := step_fail_eq_some hstep
    exact h.of_idle rfl rfl
  | quit =>
    obtain ⟨hbatch, rfl⟩ := step_quit_eq_some hstep
    exact h.of_idle rfl hbatch

/-! ### Whole runs -/

section Runs

variable {table : List Row} {output : BoundedQueue MarketTick 16384} {before acts : List Action}

theorem table_subset_of_step (hstep : step db clock symbols r a = some t) : r.table ⊆ t.table := by
  rcases step_cases hstep with ⟨sym, rfl⟩ | ⟨sym, row, rows, -, rfl⟩ | hkeeps
  · exact List.Subset.refl _
  · show r.table ⊆ (handleRow clock sym r row).table
    rw [(handleRow_frame clock sym r row).1]
    exact List.Subset.refl _
  · exact hkeeps.table

/-- **A row on time is served.** -/
theorem served_of_run (hrun : StepRun.run (step db clock symbols) r acts = some t)
    (hidle : r.batch = none) (hselects : Selects symbols r) (htime : OnTime x r)
    (hx : Watched symbols x) (hmem : x ∈ r.table)
    (havoid : StepRun.Avoids (step db clock symbols) (fun u a ↦ Overtakes u x a) r acts) :
    Served x (r.handledOf x.symbol) t
      ((polledAlong db clock symbols r acts).count x.symbol) := by
  refine (StepRun.run_invariant_log_of_avoids (P := fun u polls ↦ Selects symbols u ∧ OnTime x u ∧
    x ∈ u.table ∧ Served x (r.handledOf x.symbol) u (polls.count x.symbol))
    (fun u polls a v ⟨hselects, htime, hmem, hserved⟩ hgood hstep ↦ ?_)
    ⟨hselects, htime, hmem, ?_⟩ havoid hrun).2.2.2
  · refine ⟨hselects.step hstep, htime.step hx hgood hstep, table_subset_of_step hstep hmem, ?_⟩
    rw [List.count_append]
    exact hserved.step hselects htime hmem hx.1 hstep
  · exact ⟨fun _ ↦ Nat.le_refl _, fun hrows ↦ absurd (hidle.symm.trans hrows) nofun⟩

/-- The rows of a symbol handed on, and one that is not, are rows of the table. -/
theorem handledOf_lt (hsourced : Sourced r) (hselects : Selects symbols r)
    (hnodup : r.handled.Nodup) (hmem : x ∈ r.table) (hx : Watched symbols x)
    (hnot : x ∉ r.handled) : r.handledOf x.symbol < watchedOf r.table x.symbol := by
  let rows := r.handled.filter fun row ↦ row.symbol = x.symbol
  have hrows : (x :: rows).Nodup :=
    List.nodup_cons.2 ⟨fun h ↦ hnot (List.mem_of_mem_filter h), hnodup.filter _⟩
  have hsub : x :: rows ⊆ r.table.filter fun row ↦ row.source = 1 ∧ row.symbol = x.symbol := by
    intro y hy
    rw [List.mem_filter, decide_eq_true_eq]
    rcases List.mem_cons.1 hy with rfl | hy
    · exact ⟨hmem, hx.1, rfl⟩
    · obtain ⟨hhandled, hsymbol⟩ := List.mem_filter.1 hy
      exact ⟨hsourced.handled y hhandled, (hselects.handled y hhandled).1,
        of_decide_eq_true hsymbol⟩
  have hle := (List.subperm_of_subset hrows hsub).length_le
  rw [List.length_cons] at hle
  rw [handledOf, watchedOf, List.countP_eq_length_filter, List.countP_eq_length_filter]
  exact hle

/-- **Enough polls clear the backlog.** In every run of the reader: take a row that waits in the
table at a moment when no batch is open, and let the polls of its symbol completed since be as many
as its backlog takes, at fifty rows a poll. Then the row is handed on exactly if no step of the run
made the watermark overtake it. -/
theorem served_iff (htable : table.Nodup)
    (hbefore : StepRun.run (step db clock symbols) (init table output) before = some r)
    (hidle : r.batch = none)
    (hrun : StepRun.run (step db clock symbols) r acts = some t)
    (hx : Watched symbols x) (hmem : x ∈ r.table)
    (hpolls : watchedOf t.table x.symbol ≤ r.handledOf x.symbol +
      50 * (polledAlong db clock symbols r acts).count x.symbol) :
    x ∈ t.handled ↔ StepRun.Avoids (step db clock symbols) (fun u a ↦ Overtakes u x a)
      (init table output) (before ++ acts) := by
  have hall : StepRun.run (step db clock symbols) (init table output) (before ++ acts) = some t :=
    StepRun.run_append_eq_some_iff.2 ⟨r, hbefore, hrun⟩
  constructor
  · intro hhandled seen a rest u hsplit hseen hover
    exact (passed_of_run hsplit hseen hover hall).not_handled hhandled
  · intro havoid
    by_contra hnot
    have htime : OnTime x r := StepRun.run_invariant_along
      (fun seen a rest u v hsplit hseen htime hstep ↦ htime.step hx
        (havoid seen a (rest ++ acts) u (by rw [hsplit, List.append_assoc]; rfl) hseen) hstep)
      (onTime_init table output hx) hbefore
    have hafter : StepRun.Avoids (step db clock symbols) (fun u a ↦ Overtakes u x a) r acts :=
      fun seen a rest u hsplit hseen ↦ havoid (before ++ seen) a rest u
        (by rw [hsplit, List.append_assoc])
        (StepRun.run_append_eq_some_iff.2 ⟨r, hbefore, hseen⟩)
    have hserved := served_of_run hrun hidle (selects_of_run hbefore) htime hx hmem hafter
    have htotal := hserved.total hnot
    have hkept : x ∈ t.table := StepRun.run_invariant (P := fun u ↦ x ∈ u.table)
      (fun _ _ _ hu hstep ↦ table_subset_of_step hstep hu) hmem hrun
    have horder := StepRun.run_invariant_log (fun _ _ _ _ h hstep ↦ h.step hstep)
      (inOrder_init htable output) hall
    have hnodup : t.handled.Nodup := horder.perm.nodup_iff.1 (List.nodup_append.1 horder.nodup).1
    have hlt := handledOf_lt (sourced_of_run hall) (selects_of_run hall) hnodup hkept hx hnot
    omega

/-- Two rows and one poll of their symbol: the later one is handed on. -/
theorem served_iff_two :
    let steps := step sortingDatabase (fun _ ↦ 1) [[65]]
    let acts : List Action := [.startRound, .query, .row, .row, .nextSymbol]
    ∃ t, StepRun.run steps (init [sampleRow 1 65 200, sampleRow 0 65 100] BoundedQueue.empty)
        acts = some t ∧ sampleRow 1 65 200 ∈ t.handled ∧
      StepRun.Avoids steps (fun u a ↦ Overtakes u (sampleRow 1 65 200) a)
        (init [sampleRow 1 65 200, sampleRow 0 65 100] BoundedQueue.empty) acts := by
  intro steps acts
  obtain ⟨t, hrun, hend⟩ := Option.map_eq_some_iff.1 (by decide +kernel :
    (StepRun.run steps (init [sampleRow 1 65 200, sampleRow 0 65 100] BoundedQueue.empty)
      acts).map (fun t ↦ (t.handled, watchedOf t.table [65])) =
        some ([sampleRow 0 65 100, sampleRow 1 65 200], 2))
  obtain ⟨hhandled, hwatched⟩ := Prod.mk.inj hend
  have hserved : sampleRow 1 65 200 ∈ t.handled := by
    rw [hhandled]
    decide +kernel
  have hbefore : StepRun.run steps (init [sampleRow 1 65 200, sampleRow 0 65 100]
      BoundedQueue.empty) [] = some _ := rfl
  refine ⟨t, hrun, hserved, (served_iff (by decide +kernel) hbefore rfl hrun
    ⟨rfl, by decide, by decide +kernel⟩ (by decide +kernel) ?_).1 hserved⟩
  show watchedOf t.table [65] ≤ _
  rw [hwatched]
  decide +kernel

end Runs

end PostgresFeedReader

end Mdp
