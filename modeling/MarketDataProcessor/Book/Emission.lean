import MarketDataProcessor.Book.BookProcessor
import MarketDataProcessor.Foundations.History
import MarketDataProcessor.Foundations.StepRun

/-!
# When a snapshot is sent, and what it says

A book processor among its consumers. A run is a sequence of events, each a tick or a consumer
taking a snapshot from one of the two queues, so every pattern of full queues occurs. `offers`
records the snapshots offered and `changes` counts the ticks that moved a best price of their
symbol.

## The zero that stands for an empty side

`top_of_book()` reports an empty side as price zero, and both the test for a change and the
mid-price of a snapshot read these reports. While every price is positive the report of a side is
zero exactly when the side is empty. `quotedPrice` is the rule by presence; `midPrice_eq` says that
the code computes it, and `topChanged_iff` that the code detects every change and no other.
-/

namespace Mdp

open Double History

namespace OrderBook

/-- Every price is positive. -/
def PricesPositive (book : OrderBook Double) : Prop :=
  ∀ side, ∀ level ∈ (book.levels side).entries, 0 < level.1

/-- The best prices, as `top_of_book()` reports them. -/
def quote (book : OrderBook Double) : Double × Double := (book.bestBid, book.bestAsk)

/-- The price of a book: the midpoint of its best prices, the one there is when the other side is
empty, zero when both are. -/
def quotedPrice (fl : FloatEnv) (book : OrderBook Double) : Double :=
  match book.bids.last?, book.asks.first? with
  | some bid, some ask => fl.divBy (fl.add bid.1 ask.1) 2
  | some bid, none => bid.1
  | none, some ask => ask.1
  | none, none => 0

theorem pricesPositive_new (symbol : List UInt8) :
    (new symbol : OrderBook Double).PricesPositive :=
  fun side level h ↦ by cases side <;> exact absurd h List.not_mem_nil

variable {book : OrderBook Double}

theorem PricesPositive.apply (h : book.PricesPositive) {delta : BookDelta Double}
    (hp : 0 < delta.price) : (book.apply delta).PricesPositive := by
  intro side level hlevel
  rcases fst_of_mem_levels_apply hlevel with hold | ⟨-, hnew⟩
  · exact h side level hold
  · exact hnew ▸ hp

/-! ### Reading a side off its best price -/

theorem PricesPositive.bestBid_cases (h : book.PricesPositive) :
    (book.bids.last? = none ∧ book.bestBid = 0) ∨
      ∃ level, book.bids.last? = some level ∧ book.bestBid = level.1 ∧ 0 < level.1 := by
  rcases hlast : book.bids.last? with - | level
  · exact Or.inl ⟨rfl, bestBid_of_bids_nil (OrderedMap.last?_eq_none_iff.1 hlast)⟩
  · exact Or.inr ⟨level, rfl, bestBid_of_last? hlast,
      h .bid level (OrderedMap.last?_eq_some_iff.1 hlast).1⟩

theorem PricesPositive.bestAsk_cases (h : book.PricesPositive) :
    (book.asks.first? = none ∧ book.bestAsk = 0) ∨
      ∃ level, book.asks.first? = some level ∧ book.bestAsk = level.1 ∧ 0 < level.1 := by
  rcases hfirst : book.asks.first? with - | level
  · exact Or.inl ⟨rfl, bestAsk_of_asks_nil (OrderedMap.first?_eq_none_iff.1 hfirst)⟩
  · exact Or.inr ⟨level, rfl, bestAsk_of_first? hfirst,
      h .ask level (OrderedMap.first?_eq_some_iff.1 hfirst).1⟩

theorem ne_nan_of_pos {x : Double} (h : 0 < x) : x ≠ nan := by
  rintro rfl
  exact absurd h (by decide)

theorem PricesPositive.bestBid_ne_nan (h : book.PricesPositive) : book.bestBid ≠ nan := by
  rcases h.bestBid_cases with ⟨-, hbest⟩ | ⟨level, -, hbest, hpos⟩
  · rw [hbest]
    decide
  · rw [hbest]
    exact ne_nan_of_pos hpos

theorem PricesPositive.bestAsk_ne_nan (h : book.PricesPositive) : book.bestAsk ≠ nan := by
  rcases h.bestAsk_cases with ⟨-, hbest⟩ | ⟨level, -, hbest, hpos⟩
  · rw [hbest]
    decide
  · rw [hbest]
    exact ne_nan_of_pos hpos

/-- **An empty book is one without best prices.** -/
theorem PricesPositive.isEmpty_iff (h : book.PricesPositive) :
    book.IsEmpty ↔ book.quote = (0, 0) := by
  rw [IsEmpty, quote, Prod.mk.injEq, ← OrderedMap.last?_eq_none_iff,
    ← OrderedMap.first?_eq_none_iff]
  refine and_congr ?_ ?_
  · rcases h.bestBid_cases with ⟨hnone, hbest⟩ | ⟨level, hsome, hbest, hpos⟩
    · exact ⟨fun _ ↦ hbest, fun _ ↦ hnone⟩
    · rw [hsome, hbest]
      exact ⟨fun heq ↦ by simp at heq, fun heq ↦ absurd heq hpos.ne'⟩
  · rcases h.bestAsk_cases with ⟨hnone, hbest⟩ | ⟨level, hsome, hbest, hpos⟩
    · exact ⟨fun _ ↦ hbest, fun _ ↦ hnone⟩
    · rw [hsome, hbest]
      exact ⟨fun heq ↦ by simp at heq, fun heq ↦ absurd heq hpos.ne'⟩

end OrderBook

namespace BookProcessor

open OrderBook

variable {fl : FloatEnv} {bp : BookProcessor} {tick : MarketTick}

/-- `price > 0`. -/
theorem flt_zero_iff {x : Double} : flt 0 x = true ↔ 0 < x := by
  rw [flt, decide_eq_true_iff]
  exact ⟨fun h ↦ h.2.2, fun h ↦ ⟨by decide, ne_nan_of_pos h, h⟩⟩

/-- **The mid-price of a snapshot is the price of the book.** -/
theorem midPrice_eq {book : OrderBook Double} (h : book.PricesPositive) :
    midPrice fl (book.topOfBook fl.sub) = book.quotedPrice fl := by
  have hzero : flt 0 0 = false := by decide
  have hbid : (book.topOfBook fl.sub).bestBid = book.bestBid := rfl
  have hask : (book.topOfBook fl.sub).bestAsk = book.bestAsk := rfl
  rw [midPrice, hbid, hask, quotedPrice]
  rcases h.bestBid_cases with ⟨hb, hb'⟩ | ⟨b, hb, hb', hbpos⟩ <;>
    rcases h.bestAsk_cases with ⟨ha, ha'⟩ | ⟨a, ha, ha', hapos⟩
  · rw [hb, hb', ha, ha', hzero]
    rfl
  · rw [hb, hb', ha, ha', hzero]
    rfl
  · rw [hb, hb', ha, ha', flt_zero_iff.2 hbpos, hzero]
    rfl
  · rw [hb, hb', ha, ha', flt_zero_iff.2 hbpos, flt_zero_iff.2 hapos]
    rfl

/-- **The change test sees every change of the best prices and no other.** -/
theorem topChanged_iff {old new : OrderBook Double} (h : old.PricesPositive) :
    topChanged (old.topOfBook fl.sub) (new.topOfBook fl.sub) = true ↔ old.quote ≠ new.quote := by
  show (!feq old.bestBid new.bestBid || !feq old.bestAsk new.bestAsk) = true ↔ _
  rw [quote, quote, ne_eq, Prod.mk.injEq, not_and_or, Bool.or_eq_true, Bool.not_eq_true',
    Bool.not_eq_true', feq, feq, decide_eq_false_iff_not, decide_eq_false_iff_not]
  simp [h.bestBid_ne_nan, h.bestAsk_ne_nan]

/-! ### What the queues receive -/

/-- The queue after a snapshot was offered to it, if one was. -/
def received (offer : Option MarketSnapshot) (queue : SnapshotQueue) : SnapshotQueue :=
  (offer.bind queue.tryPush).getD queue

theorem items_received (offer : Option MarketSnapshot) (queue : SnapshotQueue) :
    (received offer queue).items =
      queue.items ++ if queue.items.length = 4096 then [] else offer.toList := by
  cases offer with
  | none => simp [received]
  | some snap =>
    rw [received, Option.bind_some]
    cases hpush : queue.tryPush snap with
    | none =>
      rw [if_pos (BoundedQueue.tryPush_eq_none_iff.1 hpush), List.append_nil]
      rfl
    | some queue' =>
      obtain ⟨hroom, hitems⟩ := BoundedQueue.tryPush_eq_some_iff.1 hpush
      rw [if_neg hroom.ne]
      exact hitems

theorem pushDb_of_some {queue : SnapshotQueue} (h : bp.dbQueue = some queue)
    (snap : MarketSnapshot) :
    (bp.pushDb snap).dbQueue = some (received (some snap) queue) ∧
      (bp.pushDb snap).snapshotsDropped =
        bp.snapshotsDropped + if queue.items.length = 4096 then 1 else 0 := by
  rw [received, Option.bind_some]
  unfold pushDb
  cases hpush : queue.tryPush snap with
  | none => simp [h, hpush, BoundedQueue.tryPush_eq_none_iff.1 hpush]
  | some queue' => simp [h, hpush, (BoundedQueue.tryPush_eq_some_iff.1 hpush).1.ne]

theorem signalQueue_pushSignal (snap : MarketSnapshot) :
    (bp.pushSignal snap).signalQueue = bp.signalQueue.map (received (some snap)) := by
  unfold pushSignal
  split
  next hnone => rw [hnone]; rfl
  next queue hsome =>
    rw [hsome, Option.map_some, received, Option.bind_some]
    cases queue.tryPush snap with
    | none => exact hsome
    | some queue' => rfl

theorem snapshotsDropped_applyTick :
    (bp.applyTick fl tick).snapshotsDropped = bp.snapshotsDropped := by
  show (bp.emplaceBook _).snapshotsDropped = _
  rw [emplaceBook_eq]

theorem snapshotsDropped_pushSignal (snap : MarketSnapshot) :
    (bp.pushSignal snap).snapshotsDropped = bp.snapshotsDropped := by
  obtain ⟨_, h, -⟩ := bp.pushSignal_eq snap
  rw [h]

/-- **Both queues are offered the same snapshot**, and the database queue's refusal is counted. -/
theorem queues_processTick (fl : FloatEnv) (tick : MarketTick) {queue : SnapshotQueue}
    (h : bp.dbQueue = some queue) :
    (bp.processTick fl tick).dbQueue = some (received (bp.offered fl tick) queue) ∧
      (bp.processTick fl tick).signalQueue =
        bp.signalQueue.map (received (bp.offered fl tick)) ∧
      (bp.processTick fl tick).snapshotsDropped = bp.snapshotsDropped +
        if queue.items.length = 4096 then (bp.offered fl tick).toList.length else 0 := by
  obtain ⟨hdb, hsignal⟩ := bp.queues_applyTick fl tick
  unfold processTick
  split
  next hnone =>
    have hsame : ∀ q : SnapshotQueue, received none q = q := fun _ ↦ rfl
    rw [hnone, hdb, hsignal, snapshotsDropped_applyTick, h, hsame]
    refine ⟨rfl, ?_, by simp⟩
    cases bp.signalQueue <;> rfl
  next snap hsome =>
    obtain ⟨hqueue, hdropped⟩ := pushDb_of_some (hdb.trans h) snap
    rw [hsome, offer]
    refine ⟨?_, ?_, ?_⟩
    · rw [dbQueue_pushSignal, hqueue]
    · rw [signalQueue_pushSignal, signalQueue_pushDb, hsignal]
    · rw [snapshotsDropped_pushSignal, hdropped, snapshotsDropped_applyTick]
      rfl

end BookProcessor

open OrderBook BookProcessor

/-! ### A processor among its consumers -/

/-- A processor, with what its consumers took and what it has offered. -/
structure BookRun where
  processor : BookProcessor
  /-- History: the snapshots taken from the database queue. -/
  dbTaken : List MarketSnapshot
  /-- History: the snapshots taken from the signal queue. -/
  signalTaken : List MarketSnapshot
  /-- History: the snapshots offered. -/
  offers : List MarketSnapshot
  /-- History: how many ticks changed a best price of their symbol. -/
  changes : ℕ

namespace BookRun

/-- A tick is processed, or a consumer takes a snapshot. -/
inductive Event where
  | tick (tick : MarketTick)
  | dbPop
  | signalPop

variable (fl : FloatEnv)

/-- The tick changes a best price of its symbol. -/
def changesTop (bp : BookProcessor) (tick : MarketTick) : Bool :=
  decide ((bp.bookOf tick.symbol.key).quote ≠
    ((bp.processTick fl tick).bookOf tick.symbol.key).quote)

/-- One event; a pop from a queue that is empty or not attached does not happen. -/
def step (s : BookRun) : Event → Option BookRun
  | .tick tick => some { s with
      processor := s.processor.processTick fl tick
      offers := s.offers ++ (s.processor.offered fl tick).toList
      changes := s.changes + if changesTop fl s.processor tick then 1 else 0 }
  | .dbPop =>
    (s.processor.dbQueue.bind BoundedQueue.tryPop).map fun popped ↦ { s with
      processor := { s.processor with dbQueue := some popped.2 }
      dbTaken := s.dbTaken ++ [popped.1] }
  | .signalPop =>
    (s.processor.signalQueue.bind BoundedQueue.tryPop).map fun popped ↦ { s with
      processor := { s.processor with signalQueue := some popped.2 }
      signalTaken := s.signalTaken ++ [popped.1] }

/-- A fresh processor on the given queues. -/
def init (dbQueue signalQueue : Option SnapshotQueue) : BookRun where
  processor := fresh dbQueue signalQueue
  dbTaken := []
  signalTaken := []
  offers := []
  changes := 0

/-- The snapshot is of the symbol with this string. -/
def ofKey (symbol : List UInt8) (snap : MarketSnapshot) : Bool := decide (snap.symbol.key = symbol)

/-! ### What a tick offers -/

variable {fl} {bp : BookProcessor} {tick : MarketTick}

/-- Every book has positive prices. -/
def PricesPositive (bp : BookProcessor) : Prop := ∀ symbol, (bp.bookOf symbol).PricesPositive

theorem PricesPositive.processTick (h : PricesPositive bp) (hp : 0 < tick.price) :
    PricesPositive (bp.processTick fl tick) := by
  intro symbol
  by_cases hk : symbol = tick.symbol.key
  · rw [hk, bookOf_processTick_self]
    exact (h tick.symbol.key).apply hp
  · rw [bookOf, book_processTick_of_ne fl bp tick hk]
    exact h symbol

theorem pricesPositive_fresh (dbQueue signalQueue : Option SnapshotQueue) :
    PricesPositive (fresh dbQueue signalQueue) :=
  fun symbol ↦ pricesPositive_new symbol

/-- **A snapshot is offered exactly when a best price changed.** -/
theorem offered_eq_of_attached (h : PricesPositive bp)
    (hattached : (bp.dbQueue.isSome || bp.signalQueue.isSome) = true) :
    bp.offered fl tick = if changesTop fl bp tick then
      some (snapshotOf fl tick ((bp.processTick fl tick).bookOf tick.symbol.key)) else none := by
  rw [offered_eq, hattached, Bool.true_and, changesTop, bookOf_processTick_self]
  refine if_congr ?_ rfl rfl
  rw [topChanged_iff (h tick.symbol.key), decide_eq_true_iff]

theorem isSome_offered_iff (h : PricesPositive bp)
    (hattached : (bp.dbQueue.isSome || bp.signalQueue.isSome) = true) :
    (bp.offered fl tick).isSome ↔ (bp.bookOf tick.symbol.key).quote ≠
      ((bp.processTick fl tick).bookOf tick.symbol.key).quote := by
  rw [offered_eq_of_attached h hattached, ← decide_eq_true_iff (p := _ ≠ _)]
  show _ ↔ changesTop fl bp tick = true
  cases changesTop fl bp tick <;> simp

/-- **What an offered snapshot says**: the tick's symbol and timestamp, the price of the book the
tick made, and its count of updates. -/
theorem fields_of_offered (h : PricesPositive bp) (hp : 0 < tick.price) {snap : MarketSnapshot}
    (hsnap : snap ∈ bp.offered fl tick) :
    snap.symbol = tick.symbol ∧ snap.timestampNs = tick.timestampNs ∧
      snap.price = ((bp.processTick fl tick).bookOf tick.symbol.key).quotedPrice fl ∧
      snap.sequence = ((bp.processTick fl tick).bookOf tick.symbol.key).updatesApplied := by
  have hnew : PricesPositive (bp.processTick fl tick) := h.processTick hp
  have hnew := hnew tick.symbol.key
  rw [bookOf_processTick_self] at hnew ⊢
  rw [Option.mem_def, offered_eq] at hsnap
  split_ifs at hsnap
  rw [← Option.some.inj hsnap]
  exact ⟨rfl, rfl, midPrice_eq hnew, rfl⟩

/-- A book that keeps its best prices keeps its price. -/
theorem quotedPrice_congr {old new : OrderBook Double} (hold : old.PricesPositive)
    (hnew : new.PricesPositive) (h : old.quote = new.quote) :
    old.quotedPrice fl = new.quotedPrice fl := by
  obtain ⟨hbid, hask⟩ := Prod.mk.inj h
  have hbid' : (old.topOfBook fl.sub).bestBid = (new.topOfBook fl.sub).bestBid := hbid
  have hask' : (old.topOfBook fl.sub).bestAsk = (new.topOfBook fl.sub).bestAsk := hask
  rw [← midPrice_eq hold, ← midPrice_eq hnew, midPrice, midPrice, hbid', hask']

/-! ### What a run keeps -/

/-- The snapshots in a queue, if there is one. -/
def itemsOf (queue : Option SnapshotQueue) : List MarketSnapshot :=
  (queue.map BoundedQueue.items).getD []

/-- What was pushed to a queue that held `held` and whose consumer took `taken`: a part of what was
offered, in order. -/
def Received (held taken : List MarketSnapshot) (queue : Option SnapshotQueue)
    (offers pushed : List MarketSnapshot) : Prop :=
  taken ++ itemsOf queue = held ++ pushed ∧ pushed.Sublist offers

/-- **An offer reaches a queue or finds it full.** -/
theorem Received.offer {held taken : List MarketSnapshot} {queue : SnapshotQueue}
    {offers pushed : List MarketSnapshot} (h : Received held taken (some queue) offers pushed)
    (offer : Option MarketSnapshot) :
    Received held taken (some (received offer queue)) (offers ++ offer.toList)
      (pushed ++ if queue.items.length = 4096 then [] else offer.toList) := by
  refine ⟨?_, h.2.append ?_⟩
  · show taken ++ (received offer queue).items = _
    rw [items_received, ← List.append_assoc, ← List.append_assoc]
    exact congrArg (· ++ _) h.1
  · split_ifs
    · exact List.nil_sublist _
    · exact List.Sublist.refl _

/-- A queue that is not attached receives nothing. -/
theorem Received.detached {held taken offers pushed : List MarketSnapshot}
    (h : Received held taken none offers pushed) (offer : Option MarketSnapshot) :
    Received held taken none (offers ++ offer.toList) pushed :=
  ⟨h.1, h.2.trans (List.sublist_append_left _ _)⟩

theorem Received.pop {held taken : List MarketSnapshot} {queue queue' : SnapshotQueue}
    {offers pushed : List MarketSnapshot} (h : Received held taken (some queue) offers pushed)
    {snap : MarketSnapshot} (hpop : queue.tryPop = some (snap, queue')) :
    Received held (taken ++ [snap]) (some queue') offers pushed := by
  refine ⟨?_, h.2⟩
  rw [← h.1, List.append_assoc]
  exact congrArg (taken ++ ·) (BoundedQueue.tryPop_eq_some_iff.1 hpop).symm

/-- The accounts of a run on a database queue that held `held` and a signal queue that held
`heldSignal`. -/
structure Exact (fl : FloatEnv) (held heldSignal : List MarketSnapshot) (s : BookRun) : Prop where
  /-- Prices are positive. -/
  prices : PricesPositive s.processor
  /-- A snapshot is offered for every change. -/
  offers : s.offers.length = s.changes
  /-- Every change reached the database queue or is counted as dropped. -/
  db : ∃ queue pushed, s.processor.dbQueue = some queue ∧
    Received held s.dbTaken (some queue) s.offers pushed ∧
    s.changes = pushed.length + s.processor.snapshotsDropped
  /-- What the signal queue received was offered. -/
  signal : ∃ pushed, Received heldSignal s.signalTaken s.processor.signalQueue s.offers pushed
  /-- The last offer for a symbol has its price; without an offer the book is empty. -/
  last : ∀ symbol,
    (∀ snap ∈ lastBy (ofKey symbol) s.offers,
        snap.price = (s.processor.bookOf symbol).quotedPrice fl) ∧
      (lastBy (ofKey symbol) s.offers = none → (s.processor.bookOf symbol).IsEmpty)

theorem exact_init (fl : FloatEnv) (dbQueue : SnapshotQueue) (signalQueue : Option SnapshotQueue) :
    (init (some dbQueue) signalQueue).Exact fl dbQueue.items (itemsOf signalQueue) where
  prices := pricesPositive_fresh _ _
  offers := rfl
  db := ⟨dbQueue, [], rfl, ⟨(List.append_nil _).symm, List.Sublist.refl _⟩, rfl⟩
  signal := ⟨[], (List.append_nil _).symm, List.Sublist.refl _⟩
  last := fun symbol ↦ ⟨fun snap h ↦ by simp [init] at h, fun _ ↦ isEmpty_new symbol⟩

variable {held heldSignal : List MarketSnapshot} {s t : BookRun}

/-- The last offer of every symbol, after a tick. -/
theorem Exact.last_tick (h : s.Exact fl held heldSignal) (hp : 0 < tick.price)
    (symbol : List UInt8) :
    (∀ snap ∈ lastBy (ofKey symbol) (s.offers ++ (s.processor.offered fl tick).toList),
        snap.price = ((s.processor.processTick fl tick).bookOf symbol).quotedPrice fl) ∧
      (lastBy (ofKey symbol) (s.offers ++ (s.processor.offered fl tick).toList) = none →
        ((s.processor.processTick fl tick).bookOf symbol).IsEmpty) := by
  obtain ⟨queue, -, hqueue, -⟩ := h.db
  have hattached : (s.processor.dbQueue.isSome || s.processor.signalQueue.isSome) = true := by
    rw [hqueue]
    rfl
  have hpos : PricesPositive (s.processor.processTick fl tick) := h.prices.processTick hp
  by_cases hk : symbol = tick.symbol.key
  · subst hk
    rcases hoffered : s.processor.offered fl tick with - | snap
    · -- nothing offered: the best prices are those of before
      rw [offered_eq_of_attached h.prices hattached] at hoffered
      have hsame : (s.processor.bookOf tick.symbol.key).quote =
          ((s.processor.processTick fl tick).bookOf tick.symbol.key).quote := by
        simpa [changesTop] using hoffered
      rw [Option.toList_none, List.append_nil,
        ← quotedPrice_congr (h.prices tick.symbol.key) (hpos tick.symbol.key) hsame,
        (hpos tick.symbol.key).isEmpty_iff, ← hsame, ← (h.prices tick.symbol.key).isEmpty_iff]
      exact h.last tick.symbol.key
    · obtain ⟨hsym, -, hprice, -⟩ := fields_of_offered h.prices hp hoffered
      have hkey : ofKey tick.symbol.key snap = true := by simp [ofKey, hsym]
      rw [Option.toList_some, lastBy_concat_of_pos hkey]
      refine ⟨fun snap' hsnap' ↦ ?_, fun hnone ↦ by simp at hnone⟩
      rw [← Option.mem_some_iff.1 hsnap']
      exact hprice
  · have hbook : (s.processor.processTick fl tick).bookOf symbol = s.processor.bookOf symbol := by
      rw [bookOf, book_processTick_of_ne fl _ tick hk]
      rfl
    have hlast : lastBy (ofKey symbol) (s.offers ++ (s.processor.offered fl tick).toList) =
        lastBy (ofKey symbol) s.offers := by
      rcases hoffered : s.processor.offered fl tick with - | snap
      · rw [Option.toList_none, List.append_nil]
      · have hsym := (fields_of_offered h.prices hp hoffered).1
        rw [Option.toList_some, lastBy_concat_of_neg]
        simpa [ofKey, hsym] using Ne.symm hk
    rw [hbook, hlast]
    exact h.last symbol

/-- **A tick keeps the accounts.** -/
theorem Exact.processTick (h : s.Exact fl held heldSignal) (hp : 0 < tick.price)
    (hstep : s.step fl (.tick tick) = some t) : t.Exact fl held heldSignal := by
  obtain rfl := Option.some.inj hstep
  obtain ⟨queue, pushed, hqueue, hreceived, hcount⟩ := h.db
  obtain ⟨hdb, hsignal, hdropped⟩ := queues_processTick fl tick hqueue
  have hlen : (s.processor.offered fl tick).toList.length =
      if changesTop fl s.processor tick then 1 else 0 := by
    rw [offered_eq_of_attached h.prices (by rw [hqueue]; rfl)]
    split_ifs <;> rfl
  refine ⟨h.prices.processTick hp, ?_, ⟨_, _, hdb, hreceived.offer _, ?_⟩, ?_,
    h.last_tick hp⟩
  · show (s.offers ++ _).length = _
    rw [List.length_append, h.offers, hlen]
  · show s.changes + _ = _
    rw [hdropped, ← hlen, hcount, List.length_append]
    split_ifs
    · rw [List.length_nil]
      omega
    · omega
  · obtain ⟨pushed', hreceived'⟩ := h.signal
    show ∃ pushed, Received _ _ (s.processor.processTick fl tick).signalQueue _ pushed
    rw [hsignal]
    rcases hq : s.processor.signalQueue with - | q
    · rw [hq] at hreceived'
      exact ⟨pushed', hreceived'.detached _⟩
    · rw [hq] at hreceived'
      exact ⟨_, hreceived'.offer _⟩

/-- **Every event keeps the accounts.** -/
theorem Exact.step {e : Event} (h : s.Exact fl held heldSignal)
    (hp : ∀ tick, e = .tick tick → flt 0 tick.price = true) (hstep : s.step fl e = some t) :
    t.Exact fl held heldSignal := by
  cases e with
  | tick tick => exact h.processTick (flt_zero_iff.1 (hp tick rfl)) hstep
  | dbPop =>
    obtain ⟨⟨snap, queue'⟩, hpop, rfl⟩ := Option.map_eq_some_iff.1 hstep
    obtain ⟨queue, pushed, hqueue, hreceived, hcount⟩ := h.db
    rw [hqueue, Option.bind_some] at hpop
    exact ⟨h.prices, h.offers, ⟨queue', pushed, rfl, hreceived.pop hpop, hcount⟩, h.signal, h.last⟩
  | signalPop =>
    obtain ⟨⟨snap, queue'⟩, hbind, rfl⟩ := Option.map_eq_some_iff.1 hstep
    obtain ⟨queue, hqueue, hpop⟩ := Option.bind_eq_some_iff.1 hbind
    obtain ⟨pushed, hreceived⟩ := h.signal
    rw [hqueue] at hreceived
    exact ⟨h.prices, h.offers, h.db, ⟨pushed, hreceived.pop hpop⟩, h.last⟩

/-! ### Whole runs -/

variable {dbQueue : SnapshotQueue} {signalQueue : Option SnapshotQueue} {events : List Event}

theorem exact_of_run (h : StepRun.run (step fl) (init (some dbQueue) signalQueue) events = some s)
    (hp : ∀ tick, Event.tick tick ∈ events → flt 0 tick.price = true) :
    s.Exact fl dbQueue.items (itemsOf signalQueue) :=
  StepRun.run_invariant_of_mem
    (fun _ he _ _ hs hstep ↦ hs.step (fun tick heq ↦ hp tick (heq ▸ he)) hstep)
    (exact_init fl dbQueue signalQueue) h

/-- Offers are never taken back. -/
theorem offers_prefix_of_run (h : StepRun.run (step fl) s events = some t) :
    s.offers <+: t.offers := by
  refine StepRun.run_invariant (P := fun t ↦ s.offers <+: t.offers) (fun u e v hu hstep ↦ ?_)
    (List.prefix_refl _) h
  cases e with
  | tick tick =>
    obtain rfl := Option.some.inj hstep
    exact hu.trans (List.prefix_append _ _)
  | dbPop =>
    obtain ⟨_, -, rfl⟩ := Option.map_eq_some_iff.1 hstep
    exact hu
  | signalPop =>
    obtain ⟨_, -, rfl⟩ := Option.map_eq_some_iff.1 hstep
    exact hu

/-- Nothing is offered for a symbol whose book was empty before the event and is empty after it. -/
theorem not_offered_of_isEmpty {symbol : List UInt8} {e : Event} (hs : s.Exact fl held heldSignal)
    (ht : t.Exact fl held heldSignal) (hp : ∀ tick, e = .tick tick → flt 0 tick.price = true)
    (hbefore : (s.processor.bookOf symbol).IsEmpty) (hafter : (t.processor.bookOf symbol).IsEmpty)
    (hstep : s.step fl e = some t) (h : ∀ snap ∈ s.offers, snap.symbol.key ≠ symbol) :
    ∀ snap ∈ t.offers, snap.symbol.key ≠ symbol := by
  cases e with
  | dbPop =>
    obtain ⟨_, -, rfl⟩ := Option.map_eq_some_iff.1 hstep
    exact h
  | signalPop =>
    obtain ⟨_, -, rfl⟩ := Option.map_eq_some_iff.1 hstep
    exact h
  | tick tick =>
    obtain rfl := Option.some.inj hstep
    intro snap hsnap
    rcases List.mem_append.1 hsnap with hsnap | hsnap
    · exact h snap hsnap
    · have hoffered := Option.mem_toList.1 hsnap
      have hsym := (fields_of_offered hs.prices (flt_zero_iff.1 (hp tick rfl)) hoffered).1
      rintro rfl
      rw [hsym] at hbefore hafter
      -- both books report no best prices, so none changed
      have hsame := ((hs.prices _).isEmpty_iff.1 hbefore).trans
        ((ht.prices _).isEmpty_iff.1 hafter).symm
      obtain ⟨queue, -, hqueue, -⟩ := hs.db
      rw [offered_eq_of_attached hs.prices (by rw [hqueue]; rfl)] at hoffered
      simp [changesTop, hsame] at hoffered

/-- **Snapshot emission is exact.** On ticks with positive prices, with the database queue attached
and the signal queue attached or not, whatever the queues held and whenever their consumers took
from them: a tick offers a snapshot exactly when it changed the best prices of its symbol; the
snapshot has the tick's symbol and timestamp, the price of the book and its count of updates; both
queues are offered the same one; every change was pushed to the database queue or counted as
dropped; and the last snapshot offered for a symbol has the price of its book as it is now, with
none offered exactly when the book was empty all along. -/
theorem emission_exact
    (h : StepRun.run (step fl) (init (some dbQueue) signalQueue) events = some s)
    (hp : ∀ tick, Event.tick tick ∈ events → flt 0 tick.price = true) :
    (∀ seen tick rest u, events = seen ++ .tick tick :: rest →
        StepRun.run (step fl) (init (some dbQueue) signalQueue) seen = some u →
        let bp := u.processor
        let old := bp.bookOf tick.symbol.key
        let new := (bp.processTick fl tick).bookOf tick.symbol.key
        ((bp.offered fl tick).isSome ↔ (old.bestBid, old.bestAsk) ≠ (new.bestBid, new.bestAsk)) ∧
          (∀ snap ∈ bp.offered fl tick,
            snap.symbol = tick.symbol ∧ snap.timestampNs = tick.timestampNs ∧
              snap.price = new.quotedPrice fl ∧ snap.sequence = new.updatesApplied) ∧
          (∃ queue, bp.dbQueue = some queue ∧
            (bp.processTick fl tick).dbQueue = some (received (bp.offered fl tick) queue)) ∧
          (bp.processTick fl tick).signalQueue =
            bp.signalQueue.map (received (bp.offered fl tick))) ∧
      (∃ queue pushed, s.processor.dbQueue = some queue ∧
        s.dbTaken ++ queue.items = dbQueue.items ++ pushed ∧
        s.changes = pushed.length + s.processor.snapshotsDropped) ∧
      ∀ symbol,
        (∀ snap ∈ lastBy (ofKey symbol) s.offers,
            snap.price = (s.processor.bookOf symbol).quotedPrice fl) ∧
          ((∀ snap ∈ s.offers, snap.symbol.key ≠ symbol) ↔
            ∀ seen rest u, events = seen ++ rest →
              StepRun.run (step fl) (init (some dbQueue) signalQueue) seen = some u →
              (u.processor.bookOf symbol).IsEmpty) := by
  have hseen : ∀ seen rest u, events = seen ++ rest →
      StepRun.run (step fl) (init (some dbQueue) signalQueue) seen = some u →
      u.Exact fl dbQueue.items (itemsOf signalQueue) := by
    rintro seen rest u rfl hu
    exact exact_of_run hu fun tick htick ↦ hp tick (List.mem_append_left _ htick)
  have hexact := exact_of_run h hp
  refine ⟨?_, ?_, fun symbol ↦ ⟨(hexact.last symbol).1, fun hnone seen rest u hsplit hu ↦ ?_,
    fun hempty ↦ ?_⟩⟩
  · rintro seen tick rest u rfl hu bp old new
    have hexact := hseen seen _ u rfl hu
    obtain ⟨queue, -, hqueue, -⟩ := hexact.db
    have hpos := flt_zero_iff.1 (hp tick (List.mem_append_right _ List.mem_cons_self))
    obtain ⟨hdb, hsignal, -⟩ := queues_processTick fl tick hqueue
    exact ⟨isSome_offered_iff hexact.prices (by rw [hqueue]; rfl),
      fun snap ↦ fields_of_offered hexact.prices hpos, ⟨queue, hqueue, hdb⟩, hsignal⟩
  · obtain ⟨queue, pushed, hqueue, hreceived, hcount⟩ := hexact.db
    exact ⟨queue, pushed, hqueue, hreceived.1, hcount⟩
  · -- the offers so far are among those at the end
    refine ((hseen seen rest u hsplit hu).last symbol).2 (lastBy_eq_none_iff.2 fun snap hsnap ↦ ?_)
    rw [hsplit] at h
    obtain ⟨u', hu', hrest⟩ := StepRun.run_append_eq_some_iff.1 h
    obtain rfl : u = u' := Option.some.inj (hu.symm.trans hu')
    simpa [ofKey] using hnone snap ((offers_prefix_of_run hrest).subset hsnap)
  · refine StepRun.run_invariant_along (P := fun s ↦ ∀ snap ∈ s.offers, snap.symbol.key ≠ symbol)
      (fun seen e rest u v hsplit hu hnone hstep ↦ ?_) (fun snap hsnap ↦ by simp [init] at hsnap) h
    have hsplit' : events = (seen ++ [e]) ++ rest := by rw [hsplit, List.append_assoc]; rfl
    have hv : StepRun.run (step fl) (init (some dbQueue) signalQueue) (seen ++ [e]) = some v :=
      StepRun.run_append_eq_some_iff.2 ⟨u, hu, StepRun.run_cons_eq_some_iff.2 ⟨v, hstep, rfl⟩⟩
    refine not_offered_of_isEmpty (hseen seen _ u hsplit hu) (hseen _ rest v hsplit' hv) ?_
      (hempty seen _ u hsplit hu) (hempty _ rest v hsplit' hv) hstep hnone
    rintro tick rfl
    exact hp tick (hsplit ▸ List.mem_append_right _ List.mem_cons_self)

/-- A bid at 100 and an ask at 101, with the first snapshot taken in between: two changes, and the
last snapshot has the midpoint. -/
theorem emission_exact_two :
    let fl := FloatEnv.exact fun _ ↦ 0
    let events := [Event.tick (.shareOfA 100), .dbPop, .tick (.shareOfA 101)]
    ∃ s, StepRun.run (step fl) (init (some BoundedQueue.empty) none) events = some s ∧
      s.changes = 2 ∧ s.processor.snapshotsDropped = 0 ∧
      ∀ snap ∈ lastBy (ofKey [65]) s.offers, snap.price = fin (201 / 2) := by
  intro fl events
  obtain ⟨s, hs⟩ := Option.isSome_iff_exists.1 (by decide +kernel :
    (StepRun.run (step fl) (init (some BoundedQueue.empty) none) events).isSome = true)
  have hp : ∀ tick, Event.tick tick ∈ events → flt 0 tick.price = true := by
    intro tick htick
    rcases (by simpa [events] using htick :
      tick = .shareOfA 100 ∨ tick = .shareOfA 101) with rfl | rfl
    · decide +kernel
    · decide +kernel
  obtain ⟨-, -, hlast⟩ := emission_exact hs hp
  have hprice : (s.processor.bookOf [65]).quotedPrice fl = fin (201 / 2) :=
    StepRun.eq_of_run_map (fun s ↦ (s.processor.bookOf [65]).quotedPrice fl) hs (by decide +kernel)
  refine ⟨s, hs, StepRun.eq_of_run_map changes hs (by decide +kernel),
    StepRun.eq_of_run_map (fun s ↦ s.processor.snapshotsDropped) hs (by decide +kernel),
    fun snap hsnap ↦ ?_⟩
  rw [(hlast [65]).1 snap hsnap, hprice]

end BookRun

end Mdp
