import MarketDataProcessor.Book.Emission
import MarketDataProcessor.Pipeline.VolumeRange
import MarketDataProcessor.Tools.Provenance

/-!
# What the database shows of the books

A client of the database reads the last price row of a symbol and takes it for the price of its
book. A snapshot is offered whenever a best price moves, so the last one offered does have the price
of the book; what a client sees depends on whether it got through.

`underWay` is everything between the books and the table, committed rows included. What is missing
of the offers was refused by the database queue or was in a transaction that failed, and both are
counted. As long as neither has happened, `underWay` is all that was offered, and the last of it for
every symbol has the price of the book. After a shutdown that leaves nothing behind, it is what the
table shows of the symbols that `Symbols` lists.

## What the result rests on

* `length_underWay_add`: what was pushed, or is about to be, is under way or was in a transaction
  that failed. With the count of refusals (`Delivers`) this is everything offered, in every state.
* `agrees_outputs`: the last offer for a symbol has the price of its book, since a change of the
  price is what a snapshot is offered for.
* `settled_iff_avoids`: the writers are settled at the end exactly if nothing was left behind, and
  then the table holds what was under way.

What the rows become in the table is `inserted`, which drops the rows of a ticker that `Symbols`
does not list. So the table says nothing of such a ticker, whatever its book holds, and the rows of
a listed one are complete.
-/

namespace Mdp

open BookProcessor BookRun History

/-! ### The sequential book processor as a run -/

/-- Ticks in a row, with nobody taking from the queues: the processor is that of the transducer, and
so are the offers. -/
theorem BookRun.run_ticks (fl : FloatEnv) (dbQueue signalQueue : Option SnapshotQueue)
    (ticks : List MarketTick) :
    ∃ u, StepRun.run (BookRun.step fl) (BookRun.init dbQueue signalQueue) (ticks.map .tick) =
        some u ∧
      u.processor = (offering fl).state (fresh dbQueue signalQueue) ticks ∧
      u.offers = (offering fl).outputs (fresh dbQueue signalQueue) ticks := by
  induction ticks using List.reverseRecOn with
  | nil => exact ⟨_, rfl, rfl, rfl⟩
  | append_singleton ticks tick ih =>
    obtain ⟨u, hrun, hprocessor, hoffers⟩ := ih
    rw [List.map_append, StepRun.run_append, hrun, Transducer.state_concat,
      Transducer.outputs_concat, ← hprocessor, ← hoffers]
    exact ⟨_, rfl, rfl, rfl⟩

/-! ### What a view shows -/

/-- The price a list of snapshots shows for a symbol: that of the last one. -/
def shownPrice (snaps : List MarketSnapshot) (symbol : List UInt8) : Option Double :=
  (lastBy (ofKey symbol) snaps).map MarketSnapshot.price

/-- The price a table of rows shows for a symbol: that of the last one. -/
def tablePrice (table : List PriceRow) (symbol : List UInt8) : Option Double :=
  (lastBy (fun row ↦ decide (row.symbol = symbol)) table).map PriceRow.price

/-- A view agrees with the book of a symbol: it shows the price of the book, and nothing only if the
book is empty. -/
def Agrees (fl : FloatEnv) (bp : BookProcessor) (view : List UInt8 → Option Double)
    (symbol : List UInt8) : Prop :=
  (∀ price ∈ view symbol, price = (bp.bookOf symbol).quotedPrice fl) ∧
    (view symbol = none → (bp.bookOf symbol).IsEmpty)

/-- The rows show what the snapshots do. -/
theorem tablePrice_map_toRow (fl : FloatEnv) (overflow : Double → ℤ) (snaps : List MarketSnapshot) :
    tablePrice (snaps.map (DbWriter.toRow fl overflow)) = shownPrice snaps := by
  funext symbol
  rw [tablePrice, shownPrice, lastBy_map, Option.map_map]
  rfl

/-- **A listed symbol's rows are all inserted**, and the others' not at all. -/
theorem tablePrice_inserted (tickers : List (List UInt8)) (rows : List PriceRow)
    (symbol : List UInt8) :
    tablePrice (inserted tickers rows) symbol =
      if symbol ∈ tickers then tablePrice rows symbol else none := by
  rw [tablePrice, tablePrice, ← Option.map_none (f := PriceRow.price), ← apply_ite]
  congr 1
  generalize hp : (fun row : PriceRow ↦ decide (row.symbol = symbol)) = p
  induction rows using List.reverseRecOn with
  | nil => exact (ite_self _).symm
  | append_singleton rows row ih =>
    have hone : inserted tickers [row] = List.replicate (tickers.count row.symbol) row :=
      List.append_nil _
    rw [inserted_append, hone, lastBy_append, lastBy_replicate, ih]
    by_cases hrow : p row = true
    · have hsymbol : row.symbol = symbol := by
        rw [← hp] at hrow
        exact of_decide_eq_true hrow
      rw [lastBy_concat_of_pos hrow, hsymbol]
      by_cases hlisted : symbol ∈ tickers
      · rw [if_pos hlisted, if_pos hlisted,
          if_pos ⟨hrow, fun hzero ↦ List.count_eq_zero.1 hzero hlisted⟩, Option.some_or]
      · rw [if_neg hlisted, if_neg hlisted, if_neg fun h ↦ h.2 (List.count_eq_zero.2 hlisted),
          Option.none_or]
    · rw [lastBy_concat_of_neg hrow, if_neg fun h ↦ hrow h.1, Option.none_or]

/-- **What was offered agrees with the books**, as long as prices are positive. -/
theorem BookProcessor.agrees_outputs (fl : FloatEnv) (dbQueue : SnapshotQueue)
    (signalQueue : Option SnapshotQueue) {ticks : List MarketTick}
    (hp : ∀ tick ∈ ticks, 0 < tick.price) (symbol : List UInt8) :
    Agrees fl ((offering fl).state (fresh (some dbQueue) signalQueue) ticks)
      (shownPrice ((offering fl).outputs (fresh (some dbQueue) signalQueue) ticks)) symbol := by
  obtain ⟨u, hrun, hprocessor, hoffers⟩ := run_ticks fl (some dbQueue) signalQueue ticks
  have hexact := exact_of_run hrun fun tick hmem ↦ by
    obtain ⟨t, ht, heq⟩ := List.mem_map.1 hmem
    obtain rfl := Event.tick.inj heq
    exact flt_zero_iff.2 (hp t ht)
  rw [← hprocessor, ← hoffers]
  obtain ⟨hprice, hnone⟩ := hexact.last symbol
  refine ⟨fun price hmem ↦ ?_, fun h ↦ hnone (Option.map_eq_none_iff.1 h)⟩
  obtain ⟨snap, hsnap, rfl⟩ := Option.map_eq_some_iff.1 hmem
  exact hprice snap hsnap

/-! ### What the database queue refused -/

namespace BookWorker

variable {fl : FloatEnv} {n : ℕ} {stop : Bool} {w w' : BookWorker}
  {input input' : BoundedQueue MarketTick n}

/-- Offers reached the database queue, are about to, or are counted as dropped. -/
structure Delivers (w : BookWorker) : Prop where
  attached : w.processor.dbQueue.isSome = true
  delivered : w.dbPushed.length + w.pc.beforeDb.length + w.processor.snapshotsDropped =
    w.offers.length

/-- A refusal is counted. -/
theorem length_taken_add (bp : BookProcessor) (snap : MarketSnapshot)
    (h : bp.dbQueue.isSome = true) :
    (taken bp.dbQueue snap).length + (bp.pushDb snap).snapshotsDropped =
      bp.snapshotsDropped + 1 := by
  obtain ⟨queue, hqueue⟩ := Option.isSome_iff_exists.1 h
  rw [(pushDb_of_some hqueue snap).2, taken, hqueue, Option.any_some]
  have hle := queue.length_le
  by_cases hfull : queue.items.length = 4096
  · rw [if_pos hfull, if_neg (by simp [hfull]), List.length_nil]
    omega
  · rw [if_neg hfull, if_pos (decide_eq_true (by omega)), List.length_singleton]
    omega

/-- **Every rule keeps the count.** -/
theorem Delivers.step (h : w.Delivers) (hstep : Step fl stop w input w' input') : w'.Delivers := by
  obtain ⟨hattached, hdelivered⟩ := h
  cases hstep with
  | enter hpc _ => exact ⟨hattached, by rw [hpc] at hdelivered; exact hdelivered⟩
  | leave hpc _ => exact ⟨hattached, by rw [hpc] at hdelivered; exact hdelivered⟩
  | popEmpty phase hpc _ =>
    rw [hpc] at hdelivered
    exact ⟨hattached, by rw [(Pc.clear_idle phase).2.2.1]; exact hdelivered⟩
  | pop phase tick input' hpc _ => exact ⟨hattached, by rw [hpc] at hdelivered; exact hdelivered⟩
  | apply phase tick hpc =>
    rw [hpc] at hdelivered
    refine ⟨?_, ?_⟩
    · show (w.processor.applyTick fl tick).dbQueue.isSome = true
      rw [(w.processor.queues_applyTick fl tick).1, hattached]
    · show w.dbPushed.length + (w.processor.offered fl tick).toList.length +
        (w.processor.applyTick fl tick).snapshotsDropped =
          (w.offers ++ (w.processor.offered fl tick).toList).length
      rw [snapshotsDropped_applyTick, List.length_append, ← hdelivered]
      simp only [Pc.beforeDb, List.length_nil]
      omega
  | count phase snap hpc =>
    rw [hpc] at hdelivered
    exact ⟨hattached, by rw [(Pc.under_way_counted phase snap).2.2.1]; exact hdelivered⟩
  | pushDb phase snap hpc =>
    rw [hpc] at hdelivered
    have hcount := length_taken_add w.processor snap hattached
    obtain ⟨queue, hqueue⟩ := Option.isSome_iff_exists.1 hattached
    refine ⟨?_, ?_⟩
    · show (w.processor.pushDb snap).dbQueue.isSome = true
      rw [(pushDb_of_some hqueue snap).1]
      rfl
    · show (w.dbPushed ++ taken w.processor.dbQueue snap).length + 0 +
        (w.processor.pushDb snap).snapshotsDropped = w.offers.length
      rw [List.length_append, ← hdelivered]
      simp only [Pc.beforeDb, List.length_singleton]
      omega
  | pushSignal phase snap hpc =>
    rw [hpc] at hdelivered
    refine ⟨?_, ?_⟩
    · show (w.processor.pushSignal snap).dbQueue.isSome = true
      rw [dbQueue_pushSignal, hattached]
    · show w.dbPushed.length + (Pc.resume phase).beforeDb.length +
        (w.processor.pushSignal snap).snapshotsDropped = w.offers.length
      rw [(Pc.clear_resume phase).2.2.1, snapshotsDropped_pushSignal]
      exact hdelivered
  | rest hpc => exact ⟨hattached, hdelivered⟩

end BookWorker

namespace Service

variable {fl : FloatEnv} {overflow : Double → ℤ} {period : Period} {s t : Service} {a : Action}

/-- **Every step of the service keeps the count.** -/
theorem Rule.delivers (hrule : Rule fl overflow s a t) (h : s.path.book.Delivers) :
    t.path.book.Delivers := by
  cases hrule with
  | feed tick path _ hfeed =>
    obtain ⟨raw, -, rfl⟩ := Option.map_eq_some_iff.1 hfeed
    exact h
  | stage stage path hadvance =>
    cases hadvance with
    | parser => exact h
    | normalizer => exact h
    | book w normalized hstep => exact h.step hstep
  | engine => exact ⟨h.attached, h.delivered⟩
  | dbWriter env w queue hstep =>
    exact ⟨(Option.isSome_map ..).trans h.attached, h.delivered⟩
  | simExit => exact h
  | signalDbWriter => exact h
  | request => exact h
  | join => exact h

/-- What is between the books and the table, rows of the table included: the oldest first. -/
def underWay (s : Service) : List MarketSnapshot :=
  s.dbWriter.committed ++ s.dbWriter.batch ++ s.path.dbQueue.items ++ s.path.book.pc.beforeDb

/-- What was pushed, or is about to be, is under way or was lost with a transaction. -/
theorem Stock.length_underWay_add (h : s.Stock fl overflow period) :
    s.underWay.length + s.dbWriter.failed.length =
      s.path.book.dbPushed.length + s.path.book.pc.beforeDb.length := by
  have hflushed := s.dbWriter.length_committed_add_length_failed
  rw [← h.dbQueue, underWay, TickPath.items_dbQueue, h.dbWriter.popped]
  simp only [List.length_append] at hflushed ⊢
  omega

/-- As long as no transaction has failed it is under way, in order. -/
theorem Stock.underWay_eq (h : s.Stock fl overflow period) (hfailed : s.dbWriter.failed = []) :
    s.underWay = s.path.book.dbPushed ++ s.path.book.pc.beforeDb := by
  have hall : s.dbWriter.flushes.filter (fun flush ↦ flush.2) = s.dbWriter.flushes :=
    List.filter_eq_self.2 (h.dbWriter.failed_eq_nil_iff.1 hfailed)
  rw [underWay, BatchWriter.committed, hall, ← h.dbWriter.popped, TickPath.items_dbQueue, h.dbQueue]

/-- The ticks the books were given have positive prices. -/
theorem Ordered.price_pos (h : s.Ordered fl) : ∀ tick ∈ s.path.book.applied, 0 < tick.price := by
  obtain ⟨ticks, hticks, happlied⟩ := h.flow.applied_sublist
  intro tick hmem
  have hparsed := hticks.subset ((Normalizer.normalize_sublist ticks).subset (happlied.subset hmem))
  exact price_pos_of_validate (TickParser.mem_parse hparsed)

/-- The books of the processor are those of the applied ticks. -/
theorem Ordered.agrees_offers (h : s.Ordered fl) (symbol : List UInt8) :
    Agrees fl s.path.book.processor (shownPrice s.path.book.offers) symbol := by
  have hagrees := agrees_outputs fl BoundedQueue.empty (some BoundedQueue.empty) h.price_pos symbol
  rw [← h.flow.book.offers] at hagrees
  have hbook : s.path.book.processor.bookOf symbol =
      ((offering fl).state (fresh (some BoundedQueue.empty) (some BoundedQueue.empty))
        s.path.book.applied).bookOf symbol := by
    rw [bookOf, bookOf, book, book, h.flow.book.books]
  rw [Agrees, hbook]
  exact hagrees

/-- **The writers are settled exactly after the runs that left nothing behind.** -/
theorem settled_iff_avoids {acts : List Action}
    (hrun : StepRun.run (step fl overflow) (init fl period) acts = some s) :
    s.Settled ↔ StepRun.Avoids (step fl overflow) LeavesBehind (init fl period) acts := by
  refine StepRun.run_holds_iff (I := fun s : Service ↦ s.Control ∧ s.Stock fl overflow period)
    (fun u a v hu hstep ↦ ?_) ⟨control_init, stock_init⟩ ?_ hrun
  · have hrule := rule_of_step hstep
    exact ⟨⟨hu.1.step hrule, hu.2.step hrule⟩, hu.1.settled_iff hu.2 hrule⟩
  · constructor <;> exact fun h ↦ by simp [init, BatchWriter.start] at h

/-- At the end of the stop sequence, a settled writer has committed what was under way. -/
theorem Stock.table_eq (h : s.Stock fl overflow period) (hcontrol : s.Control)
    (hdone : s.main.returned = stopOrder.length) (hsettled : s.Settled) :
    s.dbWriter.table = s.underWay.map (DbWriter.toRow fl overflow) := by
  have hexit : ∀ c, s.exited c = true := fun c ↦ hcontrol.joined c (by
    rw [hdone]
    exact (List.getElem?_eq_some_iff.1 (getElem?_position c)).1)
  have hwriter : s.dbWriter.pc = .exited := of_decide_eq_true (hexit .dbWriter)
  have hbook : s.path.book.pc = .exited := of_decide_eq_true (hexit .book)
  have hqueue : s.path.dbQueue.items = [] := by
    have hlen := h.length_dbPushed
    rw [hsettled.1 hwriter] at hlen
    exact List.length_eq_zero_iff.1 (by omega)
  have hbatch : s.dbWriter.batch = [] := h.dbWriter.batch_nil (by rw [hwriter]; rfl)
  rw [underWay, hqueue, hbatch, hbook, h.dbWriter.table]
  simp only [BookWorker.Pc.beforeDb, List.append_nil]

/-- **What the database shows of the books.** For every interleaving of the service and whatever the
database answers. In every reachable state, what is committed or under way to the table, what was
lost with a transaction that failed and what the database queue refused make up what the books
offered. As long as nothing was lost or refused, the last snapshot of every symbol that is committed
or under way has the price of its book as it is now, and there is none for empty books only. When
the stop sequence has ended without leaving anything behind, this is what the table shows of every
symbol that `Symbols` lists; of the others it shows nothing. -/
theorem database_agrees {acts : List Action}
    (hrun : StepRun.run (step fl overflow) (init fl period) acts = some s) :
    let bp := s.path.book.processor
    s.underWay.length + s.dbWriter.failed.length + bp.snapshotsDropped =
        s.path.book.offers.length ∧
      (bp.snapshotsDropped = 0 → s.dbWriter.failed = [] →
        (∀ symbol, Agrees fl bp (shownPrice s.underWay) symbol) ∧
        (s.main.returned = stopOrder.length →
          StepRun.Avoids (step fl overflow) LeavesBehind (init fl period) acts →
          ∀ (tickers : List (List UInt8)) (symbol : List UInt8),
            let view := tablePrice (inserted tickers s.dbWriter.table)
            (symbol ∈ tickers → Agrees fl bp view symbol) ∧
              (symbol ∉ tickers → view symbol = none))) := by
  obtain ⟨hordered, hstock, hdelivers⟩ :
      s.Ordered fl ∧ s.Stock fl overflow period ∧ s.path.book.Delivers :=
    StepRun.run_invariant
      (P := fun s : Service ↦ s.Ordered fl ∧ s.Stock fl overflow period ∧ s.path.book.Delivers)
      (fun u a v hu hstep ↦ ⟨hu.1.step (rule_of_step hstep), hu.2.1.step (rule_of_step hstep),
        (rule_of_step hstep).delivers hu.2.2⟩)
      ⟨ordered_init, stock_init, rfl, rfl⟩ hrun
  intro bp
  have hlen : s.underWay.length + s.dbWriter.failed.length + bp.snapshotsDropped =
      s.path.book.offers.length := by
    rw [hstock.length_underWay_add]
    exact hdelivers.delivered
  refine ⟨hlen, fun hdropped hfailed ↦ ?_⟩
  have hall : s.underWay = s.path.book.offers := by
    rw [hfailed, List.length_nil, hstock.underWay_eq hfailed] at hlen
    rw [hstock.underWay_eq hfailed]
    exact hordered.flow.book.db.eq_of_length (by omega)
  have hagrees : ∀ symbol, Agrees fl bp (shownPrice s.underWay) symbol :=
    hall ▸ hordered.agrees_offers
  refine ⟨hagrees, fun hdone havoid tickers symbol ↦ ?_⟩
  have hsettled := (settled_iff_avoids hrun).2 havoid
  have hview := tablePrice_inserted tickers s.dbWriter.table symbol
  refine ⟨fun hlisted ↦ ?_, fun hunlisted ↦ by rw [hview, if_neg hunlisted]⟩
  rw [if_pos hlisted, hstock.table_eq hordered.control hdone hsettled,
    tablePrice_map_toRow] at hview
  rw [Agrees, hstock.table_eq hordered.control hdone hsettled, hview]
  exact hagrees symbol

/-- One tick, committed on the way out: the table shows its price. -/
theorem database_agrees_takeUp :
    let fl := FloatEnv.exact fun _ ↦ 0
    ∃ s, StepRun.run (step fl fun _ ↦ 0) (init fl .default) (produceOne ++ takeUp ++ stopAll 3) =
        some s ∧
      s.dbWriter.table.length = 1 ∧
      Agrees fl s.path.book.processor (tablePrice (inserted [[65]] s.dbWriter.table)) [65] := by
  intro fl
  obtain ⟨s, hrun, hend⟩ := Option.map_eq_some_iff.1 (by decide +kernel :
    (StepRun.run (step fl fun _ ↦ 0) (init fl .default) (produceOne ++ takeUp ++ stopAll 3)).map
      (fun s ↦ (s.dbWriter.table.length, s.main.returned, s.path.book.processor.snapshotsDropped,
        s.dbWriter.failed.length,
        decide (s.path.book.dbPushed.length = s.dbWriter.popped.length ∧
          s.path.book.signalPushed.length = s.signalDbWriter.popped.length))) =
        some (1, 7, 0, 0, true))
  simp only [Prod.mk.injEq, decide_eq_true_iff] at hend
  obtain ⟨hrows, hdone, hdropped, hfailed, hdb, hsignal⟩ := hend
  have havoid := (settled_iff_avoids hrun).1 ⟨fun _ ↦ hdb, fun _ ↦ hsignal⟩
  obtain ⟨-, htable⟩ := (database_agrees hrun).2 hdropped (List.length_eq_zero_iff.1 hfailed)
  exact ⟨s, hrun, hrows, (htable hdone havoid [[65]] [65]).1 (List.mem_singleton.2 rfl)⟩

end Service

end Mdp
