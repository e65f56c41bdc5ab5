import MarketDataProcessor.Feed.PostgresFeedReader
import MarketDataProcessor.Feed.Watermark

/-!
# No row is published twice

Queries select above the watermark and the watermark follows the rows as they are handed on, so the
rows handed on so far, in the order in which they were, are below every row of the current batch.
`InOrder` says this of the order as it is recorded along a run (`handledAlong`). It survives an
exception at any row, since giving up the rest of a batch leaves the watermark at the last row
handed on, and it does not know of rounds or symbols, which is why a symbol may be configured twice.

## The main theorem, and what it rests on

`published_at_most_once` reads three things off `InOrder`: no row is handed on twice, the rows of a
symbol are handed on by ascending epoch, and the watermark never falls. The step lemma has one case
that matters, a row handed on: it is the first of an ascending batch, all of which is above the
watermark, so it extends the order at its end (`handled_handleRow_perm`). A query puts a batch above
the watermark by the `WHERE` clause of the query, and its ascending order is the `ORDER BY`.

Nothing is assumed of the database beyond `Database.query_spec`, so ties of epochs may be broken in
any way, and differently at every query.
-/

namespace Mdp

namespace PostgresFeedReader

open Reader

/-- The row an action hands on. -/
def rowHandedOn (r : Reader) : Action → List Row
  | .row => r.fetched.head?.toList
  | _ => []

variable {db : Database} {clock : ℕ → ℤ} {symbols : List (List UInt8)} {r t : Reader}

/-- The rows handed on along a run, in order. -/
def handledAlong (db : Database) (clock : ℕ → ℤ) (symbols : List (List UInt8)) (r : Reader)
    (acts : List Action) : List Row :=
  StepRun.log rowHandedOn (step db clock symbols) r acts

theorem Database.query_nodup (db : Database) (number : ℕ) {table : List Row} (sym : List UInt8)
    (lastSeenEpoch : ℚ) (h : table.Nodup) : (db.query number table sym lastSeenEpoch).Nodup := by
  obtain ⟨ordered, hperm, -, hquery⟩ := db.query_spec number table sym lastSeenEpoch
  rw [hquery]
  exact (hperm.nodup_iff.2 (h.filter _)).sublist (List.take_sublist _ _)

theorem Database.query_ascending (db : Database) (number : ℕ) (table : List Row)
    (sym : List UInt8) (lastSeenEpoch : ℚ) :
    (db.query number table sym lastSeenEpoch).Pairwise fun a b ↦ a.epoch ≤ b.epoch := by
  obtain ⟨ordered, -, hsorted, hquery⟩ := db.query_spec number table sym lastSeenEpoch
  rw [hquery]
  exact hsorted.sublist (List.take_sublist _ _)

/-- **The row in hand joins the rows handed on.** -/
theorem handled_handleRow_perm (clock : ℕ → ℤ) (sym : List UInt8) (r : Reader) (row : Row) :
    (r.handled ++ [row]).Perm (handleRow clock sym r row).handled := by
  unfold handleRow handled
  split
  · show ((r.pushed ++ r.dropped) ++ [row]).Perm ((r.pushed ++ [row]) ++ r.dropped)
    rw [List.append_assoc, List.append_assoc]
    exact List.perm_append_comm.append_left r.pushed
  · show ((r.pushed ++ r.dropped) ++ [row]).Perm (r.pushed ++ (r.dropped ++ [row]))
    rw [List.append_assoc]

/-! ### The order of the rows -/

/-- The rows `handled` were handed on in this order: each once, by ascending epoch, none above the
watermark; and those fetched come after all of them. -/
structure InOrder (r : Reader) (handled : List Row) : Prop where
  /-- They are the rows pushed and dropped. -/
  perm : handled.Perm r.handled
  /-- None is above the watermark. -/
  below : ∀ row ∈ handled, row.epoch ≤ r.lastSeenEpoch
  /-- A table holds a row once. -/
  table : r.table.Nodup
  /-- Handed on or fetched, each is there once. -/
  nodup : (handled ++ r.fetched).Nodup
  /-- Handed on or fetched, they ascend. -/
  ascending : (handled ++ r.fetched).Pairwise fun a b ↦ a.epoch ≤ b.epoch

theorem inOrder_init {table : List Row} (h : table.Nodup)
    (output : BoundedQueue MarketTick 16384) : InOrder (init table output) [] :=
  ⟨List.Perm.refl _, fun _ h ↦ absurd h List.not_mem_nil, h, List.nodup_nil, List.Pairwise.nil⟩

variable {handled : List Row}

/-- A step that hands on nothing and fetches nothing: the batch stays or is given up. -/
theorem InOrder.keep (h : InOrder r handled) (hhandled : t.handled = r.handled)
    (hseen : t.lastSeenEpoch = r.lastSeenEpoch) (htable : t.table.Nodup)
    (hfetched : t.fetched.Sublist r.fetched) : InOrder t (handled ++ []) := by
  rw [List.append_nil]
  have hsub : (handled ++ t.fetched).Sublist (handled ++ r.fetched) :=
    (List.Sublist.refl _).append hfetched
  exact ⟨hhandled ▸ h.perm, hseen ▸ h.below, htable, h.nodup.sublist hsub,
    h.ascending.sublist hsub⟩

/-- **Every step keeps the order.** -/
theorem InOrder.step {a : Action} (h : InOrder r handled)
    (hstep : step db clock symbols r a = some t) : InOrder t (handled ++ rowHandedOn r a) := by
  cases a with
  | insert row =>
    obtain ⟨hnew, rfl⟩ := step_insert_eq_some hstep
    have htable : (r.table ++ [row]).Nodup := by
      rw [← List.concat_eq_append]
      exact h.table.concat hnew
    exact h.keep rfl rfl htable (List.Sublist.refl _)
  | outputPop =>
    obtain ⟨popped, -, rfl⟩ := Option.map_eq_some_iff.1 hstep
    exact h.keep rfl rfl h.table (List.Sublist.refl _)
  | startRound =>
    obtain ⟨-, -, rfl⟩ := step_startRound_eq_some hstep
    exact h.keep rfl rfl h.table (List.Sublist.refl _)
  | nextSymbol =>
    obtain ⟨sym, rest, -, -, rfl⟩ := step_nextSymbol_eq_some hstep
    exact h.keep rfl rfl h.table (List.nil_sublist _)
  | fail =>
    obtain rfl := step_fail_eq_some hstep
    exact h.keep rfl rfl h.table (List.nil_sublist _)
  | quit =>
    obtain ⟨-, rfl⟩ := step_quit_eq_some hstep
    exact h.keep rfl rfl h.table (List.Sublist.refl _)
  | query =>
    -- every row of the answer is above the watermark, and so above every row handed on
    obtain ⟨sym, rest, -, hbatch, rfl⟩ := step_query_eq_some hstep
    obtain ⟨hperm, hbelow, htable, hnodup, hascending⟩ := h
    rw [fetched_of_idle hbatch, List.append_nil] at hnodup hascending
    have habove : ∀ x ∈ handled, ∀ row ∈ db.query r.queries r.table sym r.lastSeenEpoch,
        x.epoch < row.epoch := fun x hx row hrow ↦
      lt_of_le_of_lt (hbelow x hx) (db.mem_query hrow).2
    show InOrder _ (handled ++ [])
    rw [List.append_nil]
    refine ⟨hperm, hbelow, htable, List.nodup_append.2 ⟨hnodup, ?_, ?_⟩,
      List.pairwise_append.2 ⟨hascending, ?_, ?_⟩⟩
    · exact db.query_nodup _ sym _ htable
    · intro x hx row hrow heq
      exact absurd (habove x hx row hrow) (heq ▸ lt_irrefl _)
    · exact db.query_ascending _ _ sym _
    · intro x hx row hrow
      exact (habove x hx row hrow).le
  | row =>
    obtain ⟨sym, rest, row, rows, -, hbatch, rfl⟩ := step_row_eq_some hstep
    obtain ⟨htable', hseen, -, -, -⟩ := handleRow_frame clock sym r row
    obtain ⟨hperm, hbelow, htable, hnodup, hascending⟩ := h
    have hfetched := fetched_of_batch hbatch
    have hsame : (handled ++ [row]) ++ rows = handled ++ r.fetched := by
      rw [hfetched, List.append_assoc, List.singleton_append]
    have hlog : rowHandedOn r .row = [row] := by
      rw [rowHandedOn, hfetched]
      rfl
    rw [hlog]
    refine ⟨(hperm.append_right [row]).trans (handled_handleRow_perm clock sym r row), ?_, ?_, ?_,
      ?_⟩
    · intro x hx
      show x.epoch ≤ (handleRow clock sym r row).lastSeenEpoch
      rw [hseen]
      rcases List.mem_append.1 hx with hx | hx
      · exact (hbelow x hx).trans (le_max_left _ _)
      · rw [List.mem_singleton.1 hx]
        exact le_max_right _ _
    · show (handleRow clock sym r row).table.Nodup
      rw [htable']
      exact htable
    · show ((handled ++ [row]) ++ rows).Nodup
      rw [hsame]
      exact hnodup
    · show ((handled ++ [row]) ++ rows).Pairwise _
      rw [hsame]
      exact hascending

/-! ### The watermark -/

/-- **The watermark never falls.** -/
theorem lastSeenEpoch_le_of_step {a : Action} (hstep : step db clock symbols r a = some t) :
    r.lastSeenEpoch ≤ t.lastSeenEpoch := by
  rcases step_cases hstep with ⟨sym, rfl⟩ | ⟨sym, row, rows, -, rfl⟩ | hkeeps
  · exact le_rfl
  · show r.lastSeenEpoch ≤ (handleRow clock sym r row).lastSeenEpoch
    rw [(handleRow_frame clock sym r row).2.1]
    exact le_max_left _ _
  · exact hkeeps.lastSeenEpoch.ge

theorem lastSeenEpoch_le_of_run {acts : List Action}
    (h : StepRun.run (step db clock symbols) r acts = some t) :
    r.lastSeenEpoch ≤ t.lastSeenEpoch :=
  StepRun.run_invariant (P := fun t ↦ r.lastSeenEpoch ≤ t.lastSeenEpoch)
    (fun _ _ _ hu hstep ↦ hu.trans (lastSeenEpoch_le_of_step hstep)) le_rfl h

/-- **No row is published twice.** For every growing table, every list of symbols and every
interleaving of rounds, queries, rows, exceptions, insertions and pops: the rows handed on along the
run are those pushed and those counted as dropped, each at most once; the watermark never falls and
is at or above the epoch of each of them; and they were handed on by ascending epoch, those of one
symbol in particular. -/
theorem published_at_most_once (db : Database) (clock : ℕ → ℤ) (symbols : List (List UInt8))
    (table : List Row) (htable : table.Nodup) (output : BoundedQueue MarketTick 16384)
    (acts : List Action) (r : Reader)
    (hrun : StepRun.run (step db clock symbols) (init table output) acts = some r) :
    let handled := handledAlong db clock symbols (init table output) acts
    (handled.Perm (r.pushed ++ r.dropped) ∧ handled.Nodup ∧ (r.pushed ++ r.dropped).Nodup ∧
        r.ticksPublished = r.pushed.length ∧ r.ticksDropped = r.dropped.length) ∧
      (∀ seen rest u, acts = seen ++ rest →
        StepRun.run (step db clock symbols) (init table output) seen = some u →
        u.lastSeenEpoch ≤ r.lastSeenEpoch) ∧
      (∀ row ∈ r.pushed ++ r.dropped, row.epoch ≤ r.lastSeenEpoch) ∧
      (handled.Pairwise fun a b ↦ a.epoch ≤ b.epoch) ∧
      ∀ sym, (handled.filter fun row ↦ row.symbol = sym).Pairwise fun a b ↦ a.epoch ≤ b.epoch := by
  intro handled
  have horder : InOrder r handled :=
    StepRun.run_invariant_log (fun _ _ _ _ h hstep ↦ h.step hstep) (inOrder_init htable output) hrun
  have hnodup := (List.nodup_append.1 horder.nodup).1
  have hascending := (List.pairwise_append.1 horder.ascending).1
  refine ⟨⟨horder.perm, hnodup, horder.perm.nodup_iff.1 hnodup, counted_of_run hrun⟩, ?_, ?_,
    hascending, fun sym ↦ hascending.filter _⟩
  · rintro seen rest u rfl hu
    obtain ⟨u', hu', hrest⟩ := StepRun.run_append_eq_some_iff.1 hrun
    obtain rfl : u = u' := Option.some.inj (hu.symm.trans hu')
    exact lastSeenEpoch_le_of_run hrest
  · intro row hrow
    exact horder.below row (horder.perm.mem_iff.2 hrow)

/-- Two rows of one epoch at a symbol configured twice, an exception after the first of them, then a
newer row: the second is given up, the first and the newer one are handed on once. -/
theorem published_at_most_once_after_fail :
    let table := [sampleRow 0 65 50, sampleRow 1 65 50]
    let acts : List Action := [.startRound, .query, .row, .fail, .insert (sampleRow 2 65 60),
      .startRound, .query, .row, .nextSymbol, .query, .nextSymbol]
    ∃ r, StepRun.run (step sortingDatabase (fun _ ↦ 1) [[65], [65]])
        (init table BoundedQueue.empty) acts = some r ∧
      (r.pushed ++ r.dropped).Nodup ∧ r.pushed = [sampleRow 0 65 50, sampleRow 2 65 60] := by
  intro table acts
  obtain ⟨r, hrun, hpushed⟩ := Option.map_eq_some_iff.1 (by decide +kernel :
    (StepRun.run (step sortingDatabase (fun _ ↦ 1) [[65], [65]]) (init table BoundedQueue.empty)
      acts).map Reader.pushed = some [sampleRow 0 65 50, sampleRow 2 65 60])
  obtain ⟨⟨-, -, hnodup, -⟩, -⟩ := published_at_most_once sortingDatabase (fun _ ↦ 1) [[65], [65]]
    table (by decide +kernel) BoundedQueue.empty acts r hrun
  exact ⟨r, hrun, hnodup, hpushed⟩

end PostgresFeedReader

end Mdp
