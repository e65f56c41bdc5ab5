import MarketDataProcessor.Core.MarketTick
import MarketDataProcessor.Infra.BatchWriter
import MarketDataProcessor.Strategy.SignalEngine
import Mathlib.Data.List.Flatten
import Mathlib.Data.List.Perm.Subperm

/-!
# The two database writers

`infra/DbWriter.cpp` and `infra/SignalDbWriter.cpp`: the batch writer with the rows of snapshots and
of signals, among a producer and a stop request.

`writers_orderly` is what both guarantee whatever the database does: batches are disjoint pieces of
the popped sequence, in order, of one to a hundred elements, each inserted once or not at all.

## Losses

What neither guarantees is that an element, once popped, reaches the database: the batch of a
transaction that throws is gone. `keeps_iff` shows that this is the only way to lose one.

## Both writers at once

The threads differ in their elements and in the row they make of one, so everything is proved of
`BatchWriter` with these as parameters, and the statements about the two writers are instances.
`inserted` is what a statement does to the table: its `SELECT` has a row for every symbol with the
ticker, so it inserts one row if the ticker is listed and none if it is not (`length_inserted_le`).
The batch writer's `table` has the statements; who needs the table itself goes through `inserted`.
-/

namespace Mdp

open BatchWriter

/-! ### Rows -/

/-- `static_cast<int64_t>(x)`, with the platform's result where the language defines none. -/
def toInt64 (overflow : Double → ℤ) (x : Double) : ℤ :=
  match x with
  | .fin q =>
    if -2 ^ 63 - 1 < q ∧ q < 2 ^ 63 then if 0 ≤ q then ⌊q⌋ else ⌈q⌉ else overflow x
  | x => overflow x

/-- `static_cast<double>(timestamp_ns) / 1'000'000'000.0`. -/
def seconds (fl : FloatEnv) (timestampNs : ℤ) : Double :=
  fl.divBy (fl.round timestampNs) 1000000000

/-- The arguments of `insert_price`. -/
structure PriceRow where
  symbol : List UInt8
  price : Double
  volume : ℤ
  recordedAt : Double
  deriving DecidableEq

/-- The row `DbWriter::flush_to_db` inserts for a snapshot. -/
def DbWriter.toRow (fl : FloatEnv) (overflow : Double → ℤ) (snap : MarketSnapshot) : PriceRow where
  symbol := snap.symbol.key
  price := snap.price
  volume := toInt64 overflow snap.volume
  recordedAt := seconds fl snap.timestampNs

/-- What statements of `insert_price` add to the table, `INSERT ... SELECT ... FROM "Symbols" s
WHERE s."Ticker" = $1`: one row for each symbol with the ticker, so none for a ticker that is not
listed. -/
def inserted (tickers : List (List UInt8)) (rows : List PriceRow) : List PriceRow :=
  rows.flatMap fun row ↦ List.replicate (tickers.count row.symbol) row

theorem inserted_append (tickers : List (List UInt8)) (rows rows' : List PriceRow) :
    inserted tickers (rows ++ rows') = inserted tickers rows ++ inserted tickers rows' :=
  List.flatMap_append

/-- A ticker is that of one symbol at most, so a statement inserts at most one row. -/
theorem length_inserted_le {tickers : List (List UInt8)} (h : tickers.Nodup)
    (rows : List PriceRow) : (inserted tickers rows).length ≤ rows.length := by
  induction rows with
  | nil => exact Nat.le_refl _
  | cons row rows ih =>
    rw [inserted, List.flatMap_cons, List.length_append, List.length_replicate, List.length_cons,
      Nat.add_comm]
    exact Nat.add_le_add ih (List.nodup_iff_count_le_one.1 h _)

/-- The arguments of `insert_signal`. -/
structure SignalRow where
  symbol : List UInt8
  signalType : String
  price : Double
  timestamp : Double
  deriving DecidableEq

/-- The row `SignalDbWriter::flush_to_db` inserts for a signal. -/
def SignalDbWriter.toRow (fl : FloatEnv) (sig : Signal) : SignalRow where
  symbol := sig.symbol.key
  signalType :=
    match sig.type with
    | .buy => "BUY"
    | .sell => "SELL"
    | .hold => "HOLD"
  price := sig.price
  timestamp := seconds fl sig.timestampNs

/-! ### A writer among its neighbours -/

/-- A writer thread with its input and its stop flag. -/
structure WriterSystem (α ρ : Type*) (n : ℕ) where
  writer : BatchWriter α ρ
  input : BoundedQueue α n
  stop : Bool

namespace WriterSystem

/-- What can happen next. -/
inductive Action (α : Type*) where
  | upstreamPush (x : α)
  | requestStop
  | thread (env : Env)

variable {α ρ : Type*} {n : ℕ}

/-- The thread is started on whatever its input holds. -/
def init (input : BoundedQueue α n) : WriterSystem α ρ n where
  writer := BatchWriter.start
  input
  stop := false

variable (toRow : α → ρ)

/-- One action; a push to a full input does not happen. -/
def step (s : WriterSystem α ρ n) : Action α → Option (WriterSystem α ρ n)
  | .upstreamPush x => (s.input.tryPush x).map fun input' ↦ { s with input := input' }
  | .requestStop => some { s with stop := true }
  | .thread env =>
    let next := s.writer.step toRow env s.stop s.input
    some { s with writer := next.1, input := next.2 }

variable {toRow} {s t : WriterSystem α ρ n} {a : Action α}

/-- **A neighbour leaves the thread alone**, and a step of the thread is by a rule. -/
theorem step_cases (hstep : s.step toRow a = some t) :
    t.writer = s.writer ∧ (∀ env, a ≠ .thread env) ∨
      ∃ env, a = .thread env ∧
        Step toRow env s.stop s.writer s.input t.writer t.input := by
  cases a with
  | upstreamPush x =>
    obtain ⟨input', -, rfl⟩ := Option.map_eq_some_iff.1 hstep
    exact Or.inl ⟨rfl, by simp⟩
  | requestStop =>
    obtain rfl := Option.some.inj hstep
    exact Or.inl ⟨rfl, by simp⟩
  | thread env =>
    obtain rfl := Option.some.inj hstep
    exact Or.inr ⟨env, rfl, s.writer.step_rule toRow env s.stop s.input⟩

/-- An element is pushed, popped and, ten milliseconds after the connection, flushed; the database
answers the flush with `ok`. -/
def oneFlush {α : Type*} (x : α) (ok : Bool) : List (Action α) :=
  [.upstreamPush x, .thread ⟨true, 0⟩, .thread ⟨true, 0⟩, .thread ⟨true, 0⟩, .thread ⟨true, 0⟩,
    .thread ⟨true, 10000000⟩, .thread ⟨ok, 0⟩]

theorem accounts_of_run {input : BoundedQueue α n} {acts : List (Action α)}
    (h : StepRun.run (step toRow) (init input) acts = some s) : s.writer.Accounts toRow := by
  refine StepRun.run_invariant (P := fun s : WriterSystem α ρ n ↦ s.writer.Accounts toRow)
    (fun u a v hu hstep ↦ ?_) (accounts_start toRow) h
  rcases step_cases hstep with ⟨hsame, -⟩ | ⟨env, -, hrule⟩
  · exact hsame ▸ hu
  · exact hu.step hrule

end WriterSystem

/-- A snapshot of symbol `A`. -/
def sampleSnapshot : MarketSnapshot :=
  ⟨(MarketTick.shareOfA 100).symbol, .fin 100, .fin 1, 1, 1⟩

/-- A signal of symbol `A`. -/
def sampleSignal : Signal :=
  ⟨(MarketTick.shareOfA 100).symbol, .fin 100, .fin 100, 1, .hold⟩

/-! ### Order, sizes, no duplicates -/

/-- The popped sequence falls into the flushed batches and the current one, in order; the table
holds the rows of the batches that committed and of no other; a transaction has one to a hundred
rows; and no batch is left when the thread has returned. -/
structure BatchWriter.Orderly {α ρ : Type*} (toRow : α → ρ) (w : BatchWriter α ρ) : Prop where
  /-- Batches are consecutive pieces of what was popped. -/
  popped : w.popped = (w.flushes.map Prod.fst).flatten ++ w.batch
  /-- The table is what was popped, less the failed batches and the current one. -/
  table : w.table = ((w.flushes.filter fun flush ↦ flush.2).map Prod.fst).flatten.map toRow
  /-- No element is committed twice or out of order. -/
  once : ((w.flushes.filter fun flush ↦ flush.2).map Prod.fst).flatten.Sublist w.popped
  /-- A transaction is neither empty nor too large. -/
  sizes : ∀ flush ∈ w.flushes, 1 ≤ flush.1.length ∧ flush.1.length ≤ 100
  /-- At the end every popped element was in a flushed batch. -/
  exited : w.pc = .exited → w.popped = (w.flushes.map Prod.fst).flatten

theorem BatchWriter.Accounts.orderly {α ρ : Type*} {toRow : α → ρ} {w : BatchWriter α ρ}
    (h : w.Accounts toRow) : w.Orderly toRow := by
  refine ⟨h.popped, h.table, h.committed_sublist, h.sizes, fun hexit ↦ ?_⟩
  rw [h.popped, h.batch_nil (by rw [hexit]; rfl), List.append_nil]

/-- **Database writers never duplicate, reorder or overfill.** For every sequence of pushes, pops,
clock readings, commits, failed transactions, failed connections and stop requests, of either
writer. -/
theorem writers_orderly (fl : FloatEnv) (overflow : Double → ℤ) :
    (∀ (input : BoundedQueue MarketSnapshot 4096) (acts : List (WriterSystem.Action MarketSnapshot))
        (s : WriterSystem MarketSnapshot PriceRow 4096),
        StepRun.run (WriterSystem.step (DbWriter.toRow fl overflow)) (WriterSystem.init input)
          acts = some s →
        s.writer.Orderly (DbWriter.toRow fl overflow)) ∧
      ∀ (input : BoundedQueue Signal 4096) (acts : List (WriterSystem.Action Signal))
        (s : WriterSystem Signal SignalRow 4096),
        StepRun.run (WriterSystem.step (SignalDbWriter.toRow fl)) (WriterSystem.init input) acts =
          some s →
        s.writer.Orderly (SignalDbWriter.toRow fl) :=
  ⟨fun _ _ _ h ↦ (WriterSystem.accounts_of_run h).orderly,
    fun _ _ _ h ↦ (WriterSystem.accounts_of_run h).orderly⟩

/-- A flush that throws and one that commits: the table holds the second batch only, and both were
of one element. -/
theorem writers_orderly_second :
    let toRow := DbWriter.toRow (FloatEnv.exact fun _ ↦ 0) fun _ ↦ 0
    let retry := List.replicate 51 (WriterSystem.Action.thread ⟨true, 0⟩)
    ∃ s : WriterSystem MarketSnapshot PriceRow 4096,
      StepRun.run (WriterSystem.step toRow) (WriterSystem.init BoundedQueue.empty)
        (WriterSystem.oneFlush sampleSnapshot false ++ retry ++
          WriterSystem.oneFlush { sampleSnapshot with sequence := 2 } true) = some s ∧
      s.writer.flushes.map Prod.snd = [false, true] ∧ s.writer.Orderly toRow := by
  intro toRow retry
  obtain ⟨s, hrun, hflushes⟩ := Option.map_eq_some_iff.1 (by decide +kernel :
    (StepRun.run (WriterSystem.step toRow) (WriterSystem.init (n := 4096) BoundedQueue.empty)
      (WriterSystem.oneFlush sampleSnapshot false ++ retry ++
        WriterSystem.oneFlush { sampleSnapshot with sequence := 2 } true)).map
          (fun s ↦ s.writer.flushes.map Prod.snd) = some [false, true])
  exact ⟨s, hrun, hflushes, (writers_orderly _ _).1 _ _ s hrun⟩

/-! ### What a failed transaction costs -/

namespace BatchWriter

variable {α ρ : Type*} {toRow : α → ρ} {w : BatchWriter α ρ}

/-- The elements of the failed batches. -/
def failed (w : BatchWriter α ρ) : List α :=
  ((w.flushes.filter fun flush ↦ !flush.2).map Prod.fst).flatten

/-- Flushed elements are committed or failed. -/
theorem length_committed_add_length_failed (w : BatchWriter α ρ) :
    w.committed.length + w.failed.length = (w.flushes.map Prod.fst).flatten.length := by
  rw [committed, failed]
  induction w.flushes with
  | nil => rfl
  | cons flush flushes ih =>
    obtain ⟨batch, ok⟩ := flush
    cases ok <;> simp at ih ⊢ <;> omega

/-- A batch that failed had an element. -/
theorem Accounts.failed_eq_nil_iff (h : w.Accounts toRow) :
    w.failed = [] ↔ ∀ flush ∈ w.flushes, flush.2 = true := by
  rw [failed, List.flatten_eq_nil_iff]
  constructor
  · intro hnil flush hflush
    by_contra hfail
    have hempty : flush.1 = [] := hnil _ (List.mem_map.2
      ⟨flush, List.mem_filter.2 ⟨hflush, by simpa using hfail⟩, rfl⟩)
    have hpos := (h.sizes flush hflush).1
    rw [hempty] at hpos
    exact absurd hpos (Nat.not_succ_le_zero 0)
  · intro hall batch hbatch
    obtain ⟨flush, hflush, -⟩ := List.mem_map.1 hbatch
    obtain ⟨hmem, hfail⟩ := List.mem_filter.1 hflush
    rw [hall flush hmem] at hfail
    exact Bool.noConfusion hfail

/-- **Nothing popped is lost exactly when every flushed batch was committed.** -/
theorem Accounts.popped_subperm_iff (h : w.Accounts toRow) :
    w.popped.Subperm (w.committed ++ w.batch) ↔ ∀ flush ∈ w.flushes, flush.2 = true := by
  constructor
  · intro hsub
    have hle := hsub.length_le
    rw [h.popped, List.length_append, List.length_append,
      ← w.length_committed_add_length_failed] at hle
    exact h.failed_eq_nil_iff.1 (List.length_eq_zero_iff.1 (by omega))
  · intro hall
    rw [committed, List.filter_eq_self.2 hall, ← h.popped]

end BatchWriter

namespace WriterSystem

variable {α ρ : Type*} {n : ℕ} {toRow : α → ρ} {s t : WriterSystem α ρ n}
  {input : BoundedQueue α n} {acts : List (Action α)}

/-- A flush is answered with an exception. -/
def Throws (s : WriterSystem α ρ n) (a : Action α) : Prop :=
  ∃ env, a = .thread env ∧ (∃ now, s.writer.pc = .flush now) ∧ env.ok = false

theorem avoids_throws_iff (acts : List (Action α)) :
    StepRun.Avoids (step toRow) Throws (init input) acts ↔
      ∀ seen env rest u, acts = seen ++ .thread env :: rest →
        StepRun.run (step toRow) (init input) seen = some u →
        (∃ now, u.writer.pc = .flush now) → env.ok = true := by
  constructor
  · intro havoid seen env rest u hsplit hu hpc
    by_contra hthrow
    exact havoid seen _ rest u hsplit hu ⟨env, rfl, hpc, Bool.eq_false_iff.2 hthrow⟩
  · rintro hok seen _ rest u hsplit hu ⟨env, rfl, hpc, hthrow⟩
    rw [hok seen env rest u hsplit hu hpc] at hthrow
    simp at hthrow

/-- **When nothing popped is lost.** In every run, a stop request or not, what was popped is
committed or still in the batch, as often as it was popped, exactly when no call of `flush_to_db`
threw. -/
theorem keeps_iff (hrun : StepRun.run (step toRow) (init input) acts = some s) :
    s.writer.popped.Subperm (s.writer.committed ++ s.writer.batch) ↔
      ∀ seen env rest u, acts = seen ++ .thread env :: rest →
        StepRun.run (step toRow) (init input) seen = some u →
        (∃ now, u.writer.pc = .flush now) → env.ok = true := by
  rw [(accounts_of_run hrun).popped_subperm_iff]
  refine (StepRun.run_holds_iff (I := fun _ ↦ True) (P := fun s : WriterSystem α ρ n ↦
    ∀ flush ∈ s.writer.flushes, flush.2 = true) (fun u a v _ hstep ↦ ⟨trivial, ?_⟩) trivial
    (fun flush hflush ↦ absurd hflush List.not_mem_nil) hrun).trans (avoids_throws_iff acts)
  rcases step_cases hstep with ⟨hsame, hne⟩ | ⟨env, rfl, hrule⟩
  · rw [hsame]
    refine ⟨fun hall ↦ ⟨hall, ?_⟩, fun h ↦ h.1⟩
    rintro ⟨env, rfl, -⟩
    exact hne env rfl
  · rw [hrule.forall_flushes_iff]
    refine and_congr_right fun _ ↦ ⟨?_, fun hnot hpc ↦ ?_⟩
    · rintro hok ⟨env', heq, hpc, hthrow⟩
      obtain rfl : env = env' := by simpa using heq
      rw [hok hpc] at hthrow
      simp at hthrow
    · by_contra hthrow
      exact hnot ⟨env, rfl, hpc, Bool.eq_false_iff.2 hthrow⟩

end WriterSystem

/-! ### Both writers -/

/-- **No popped row is lost, exactly as long as no transaction throws.** For either writer and every
run. -/
theorem writers_keep_iff (fl : FloatEnv) (overflow : Double → ℤ) :
    (∀ (input : BoundedQueue MarketSnapshot 4096) (acts : List (WriterSystem.Action MarketSnapshot))
        (s : WriterSystem MarketSnapshot PriceRow 4096),
        let steps := StepRun.run (WriterSystem.step (DbWriter.toRow fl overflow))
          (WriterSystem.init input)
        steps acts = some s →
        (s.writer.popped.Subperm (s.writer.committed ++ s.writer.batch) ↔
          ∀ seen env rest u, acts = seen ++ .thread env :: rest → steps seen = some u →
            (∃ now, u.writer.pc = .flush now) → env.ok = true)) ∧
      ∀ (input : BoundedQueue Signal 4096) (acts : List (WriterSystem.Action Signal))
        (s : WriterSystem Signal SignalRow 4096),
        let steps := StepRun.run (WriterSystem.step (SignalDbWriter.toRow fl))
          (WriterSystem.init input)
        steps acts = some s →
        (s.writer.popped.Subperm (s.writer.committed ++ s.writer.batch) ↔
          ∀ seen env rest u, acts = seen ++ .thread env :: rest → steps seen = some u →
            (∃ now, u.writer.pc = .flush now) → env.ok = true) :=
  ⟨fun _ _ _ h ↦ WriterSystem.keeps_iff h, fun _ _ _ h ↦ WriterSystem.keeps_iff h⟩

/-- With a flush that commits, the snapshot is in the table. -/
theorem writers_keep_committed :
    let toRow := DbWriter.toRow (FloatEnv.exact fun _ ↦ 0) fun _ ↦ 0
    ∃ s : WriterSystem MarketSnapshot PriceRow 4096,
      StepRun.run (WriterSystem.step toRow) (WriterSystem.init BoundedQueue.empty)
        (WriterSystem.oneFlush sampleSnapshot true) = some s ∧
      s.writer.table = [toRow sampleSnapshot] ∧
      s.writer.popped.Subperm (s.writer.committed ++ s.writer.batch) := by
  intro toRow
  obtain ⟨s, hrun, htable⟩ := Option.map_eq_some_iff.1 (by decide +kernel :
    (StepRun.run (WriterSystem.step toRow) (WriterSystem.init (n := 4096) BoundedQueue.empty)
      (WriterSystem.oneFlush sampleSnapshot true)).map (fun s ↦ s.writer.table) =
        some [toRow sampleSnapshot])
  have hok : ∀ env, WriterSystem.Action.thread env ∈ WriterSystem.oneFlush sampleSnapshot true →
      env.ok = true := by
    intro env henv
    simp only [WriterSystem.oneFlush, List.mem_cons, reduceCtorEq, WriterSystem.Action.thread.injEq,
      List.not_mem_nil, or_false, false_or] at henv
    rcases henv with rfl | rfl | rfl | rfl | rfl | rfl <;> rfl
  refine ⟨s, hrun, htable, ((writers_keep_iff _ _).1 _ _ s hrun).2 ?_⟩
  intro seen env rest u hsplit _ _
  exact hok env (hsplit ▸ List.mem_append_right _ List.mem_cons_self)

/-- **A transaction that throws takes its batch with it.** One element is popped and its flush
throws: it is neither committed nor held, in either writer. -/
theorem writers_lose_failed_batch :
    (¬ ∀ (input : BoundedQueue MarketSnapshot 4096)
        (acts : List (WriterSystem.Action MarketSnapshot))
        (s : WriterSystem MarketSnapshot PriceRow 4096),
        StepRun.run (WriterSystem.step (DbWriter.toRow (FloatEnv.exact fun _ ↦ 0) fun _ ↦ 0))
          (WriterSystem.init input) acts = some s →
        (∀ a ∈ acts, a ≠ .requestStop) →
        s.writer.popped.Subperm (s.writer.committed ++ s.writer.batch)) ∧
      ¬ ∀ (input : BoundedQueue Signal 4096) (acts : List (WriterSystem.Action Signal))
        (s : WriterSystem Signal SignalRow 4096),
        StepRun.run (WriterSystem.step (SignalDbWriter.toRow (FloatEnv.exact fun _ ↦ 0)))
          (WriterSystem.init input) acts = some s →
        (∀ a ∈ acts, a ≠ .requestStop) →
        s.writer.popped.Subperm (s.writer.committed ++ s.writer.batch) := by
  constructor
  · intro hall
    obtain ⟨s, hrun, hend⟩ := Option.map_eq_some_iff.1 (by decide +kernel :
      (StepRun.run (WriterSystem.step (DbWriter.toRow (FloatEnv.exact fun _ ↦ 0) fun _ ↦ 0))
        (WriterSystem.init (n := 4096) BoundedQueue.empty)
        (WriterSystem.oneFlush sampleSnapshot false)).map
          (fun s ↦ (s.writer.popped.length, (s.writer.committed ++ s.writer.batch).length)) =
        some (1, 0))
    have hle := (hall _ _ s hrun (by simp [WriterSystem.oneFlush])).length_le
    obtain ⟨hpopped, hkept⟩ := Prod.mk.inj hend
    omega
  · intro hall
    obtain ⟨s, hrun, hend⟩ := Option.map_eq_some_iff.1 (by decide +kernel :
      (StepRun.run (WriterSystem.step (SignalDbWriter.toRow (FloatEnv.exact fun _ ↦ 0)))
        (WriterSystem.init (n := 4096) BoundedQueue.empty)
        (WriterSystem.oneFlush sampleSignal false)).map
          (fun s ↦ (s.writer.popped.length, (s.writer.committed ++ s.writer.batch).length)) =
        some (1, 0))
    have hle := (hall _ _ s hrun (by simp [WriterSystem.oneFlush])).length_le
    obtain ⟨hpopped, hkept⟩ := Prod.mk.inj hend
    omega

end Mdp
