import MarketDataProcessor.Book.OrderBook
import MarketDataProcessor.Foundations.BoundedQueue
import MarketDataProcessor.Foundations.Transducer

/-!
# The book processor

`book/BookProcessor.cpp`: ticks in, one order book and one reference price per symbol, snapshots
out. `processTick` is the source's function, cut where the source changes subject: `applyTick` finds
or creates the book, chooses a side, builds the delta and applies it; `offered` decides whether the
top of the book moved and what snapshot that calls for; `offer` pushes the snapshot to the attached
queues and counts a refusal by the database queue.

## The side heuristic

`determineSide` compares the price with an exponential moving average of the symbol's prices. When
the chosen side would cross the book it resets the average to the midpoint of the best prices and
compares again. An empty side contributes the zero that `best_bid()` and `best_ask()` return, so the
midpoint of a one-sided book is half of its only price.

## One symbol at a time

`book_processTick_self` and `book_processTick_of_ne` say what a tick does to the book of its own
symbol and of every other, `reference_processTick_self` and `reference_processTick_of_ne` what it
does to the references. Nothing downstream unfolds `processTick`.
-/

namespace Mdp

open Double

/-- `SnapshotRingBuffer4K`. -/
abbrev SnapshotQueue := BoundedQueue MarketSnapshot 4096

/-- The state of the stage. Queues are attached or not, as the constructor was called. -/
structure BookProcessor where
  books : UnorderedMap (List UInt8) (OrderBook Double)
  referencePrice : UnorderedMap (List UInt8) Double
  ticksProcessed : ℕ
  snapshotsDropped : ℕ
  dbQueue : Option SnapshotQueue
  signalQueue : Option SnapshotQueue

namespace BookProcessor

/-- A fresh processor with the given queues attached. -/
def fresh (dbQueue signalQueue : Option SnapshotQueue) : BookProcessor where
  books := ∅
  referencePrice := ∅
  ticksProcessed := 0
  snapshotsDropped := 0
  dbQueue
  signalQueue

/-- `book`: the book of a symbol, if the symbol has been seen. -/
def book (bp : BookProcessor) (symbol : List UInt8) : Option (OrderBook Double) :=
  bp.books.lookup symbol

/-- `books_active`. -/
def booksActive (bp : BookProcessor) : ℕ := bp.books.keys.length

variable (fl : FloatEnv)

/-! ### Choosing a side -/

/-- `kAlpha`. -/
def kAlpha : Double := fl.round (1 / 10)

/-- `kMinValidPrice`. -/
def kMinValidPrice : Double := fl.round (1 / 10)

/-- `kMaxValidPrice`. -/
def kMaxValidPrice : Double := fl.round 1000000

/-- `(price < ref) ? BID : ASK`. -/
def sideAgainst (price ref : Double) : OrderSide := if flt price ref then .bid else .ask

/-- `would_cross`. -/
def wouldCross (book : OrderBook Double) (side : OrderSide) (price : Double) : Bool :=
  match side with
  | .bid => flt 0 book.bestAsk && fle book.bestAsk price
  | .ask => flt 0 book.bestBid && fle price book.bestBid

/-- The reference after a reset: the midpoint of the best prices. -/
def resetReference (book : OrderBook Double) : Double :=
  fl.divBy (fl.add book.bestBid book.bestAsk) 2

/-- The side a known reference yields, and the reference it was judged against. -/
def classify (book : Option (OrderBook Double)) (price ref : Double) : OrderSide × Double :=
  match book with
  | none => (sideAgainst price ref, ref)
  | some book =>
    if wouldCross book (sideAgainst price ref) price then
      (sideAgainst price (resetReference fl book), resetReference fl book)
    else (sideAgainst price ref, ref)

/-- `(kAlpha * price) + ((1.0 - kAlpha) * ref)`. -/
def blend (price ref : Double) : Double :=
  fl.add (fl.mul (kAlpha fl) price) (fl.mul (fl.sub (fl.round 1) (kAlpha fl)) ref)

/-- `determine_side`: the side, and the reference prices it leaves behind. -/
def determineSide (bp : BookProcessor) (symbol : List UInt8) (price : Double) :
    OrderSide × UnorderedMap (List UInt8) Double :=
  -- a price out of range is a bid and stays out of the average
  if flt price (kMinValidPrice fl) || flt (kMaxValidPrice fl) price then
    (.bid, bp.referencePrice)
  else
    match bp.referencePrice.lookup symbol with
    | none => (.bid, bp.referencePrice.insert symbol price)
    | some ref =>
      let judged := classify fl (bp.book symbol) price ref
      (judged.1, bp.referencePrice.insert symbol (blend fl price judged.2))

/-! ### Applying a tick -/

/-- `tick_to_delta`. -/
def tickToDelta (tick : MarketTick) (side : OrderSide) : BookDelta Double where
  symbol := tick.symbol
  side
  price := tick.price
  volume := fl.toUInt64 tick.volume
  timestampNs := UInt64.ofInt tick.timestampNs

/-- The book of a symbol, created when the symbol is new. -/
def bookOf (bp : BookProcessor) (symbol : List UInt8) : OrderBook Double :=
  (bp.book symbol).getD (OrderBook.new symbol)

/-- `books_.find`, then `books_.emplace` when it finds nothing. -/
def emplaceBook (bp : BookProcessor) (symbol : List UInt8) : BookProcessor :=
  match bp.book symbol with
  | some _ => bp
  | none => { bp with books := bp.books.insert symbol (OrderBook.new symbol) }

/-- The state half of `process_tick`. -/
def applyTick (bp : BookProcessor) (tick : MarketTick) : BookProcessor :=
  let symbol := tick.symbol.key
  let bp := bp.emplaceBook symbol
  -- the book is there by now, so the side is always judged against one
  let judged := determineSide fl bp symbol tick.price
  { bp with
    books := bp.books.insert symbol ((bp.bookOf symbol).apply (tickToDelta fl tick judged.1))
    referencePrice := judged.2
    ticksProcessed := bp.ticksProcessed + 1 }

/-! ### Snapshots -/

/-- `old_top.best_bid != new_top.best_bid || old_top.best_ask != new_top.best_ask`. -/
def topChanged (old new : TopOfBook Double) : Bool :=
  !feq old.bestBid new.bestBid || !feq old.bestAsk new.bestAsk

/-- The mid-price of a snapshot; the present side when only one is. -/
def midPrice (top : TopOfBook Double) : Double :=
  if flt 0 top.bestBid && flt 0 top.bestAsk then fl.divBy (fl.add top.bestBid top.bestAsk) 2
  else if flt 0 top.bestBid then top.bestBid
  else top.bestAsk

/-- The snapshot of a book after a tick. -/
def snapshotOf (tick : MarketTick) (book : OrderBook Double) : MarketSnapshot :=
  let top := book.topOfBook fl.sub
  { symbol := tick.symbol
    price := midPrice fl top
    volume := fl.ofUInt64 (top.bidVolume + top.askVolume)
    timestampNs := tick.timestampNs
    sequence := book.updatesApplied }

/-- The snapshot `process_tick` offers to the attached queues, if any. -/
def offered (bp : BookProcessor) (tick : MarketTick) : Option MarketSnapshot :=
  let old := (bp.bookOf tick.symbol.key).topOfBook fl.sub
  let book := (bp.applyTick fl tick).bookOf tick.symbol.key
  if (bp.dbQueue.isSome || bp.signalQueue.isSome) && topChanged old (book.topOfBook fl.sub) then
    some (snapshotOf fl tick book)
  else none

/-- `db_queue_->try_push`, counting a refusal. -/
def pushDb (bp : BookProcessor) (snap : MarketSnapshot) : BookProcessor :=
  match bp.dbQueue with
  | none => bp
  | some queue =>
    match queue.tryPush snap with
    | some queue' => { bp with dbQueue := some queue' }
    | none => { bp with snapshotsDropped := bp.snapshotsDropped + 1 }

/-- `signal_queue_->try_push`; a refusal is only logged. -/
def pushSignal (bp : BookProcessor) (snap : MarketSnapshot) : BookProcessor :=
  match bp.signalQueue with
  | none => bp
  | some queue =>
    match queue.tryPush snap with
    | some queue' => { bp with signalQueue := some queue' }
    | none => bp

/-- Offer a snapshot to both queues. -/
def offer (bp : BookProcessor) (snap : MarketSnapshot) : BookProcessor :=
  (bp.pushDb snap).pushSignal snap

/-- `process_tick`. -/
def processTick (bp : BookProcessor) (tick : MarketTick) : BookProcessor :=
  match bp.offered fl tick with
  | none => bp.applyTick fl tick
  | some snap => (bp.applyTick fl tick).offer snap

/-- The stage as a transducer of the snapshots it offers. -/
def offering : Transducer BookProcessor MarketTick MarketSnapshot where
  next bp tick := bp.processTick fl tick
  emit bp tick := (bp.offered fl tick).toList

/-! ### Offering leaves the books alone -/

variable (bp : BookProcessor) (snap : MarketSnapshot)

/-- The database queue's push touches that queue and its count of refusals. -/
theorem pushDb_eq : ∃ queue dropped,
    bp.pushDb snap = { bp with dbQueue := queue, snapshotsDropped := dropped } ∧
      queue.isSome = bp.dbQueue.isSome := by
  unfold pushDb
  split
  next => exact ⟨bp.dbQueue, bp.snapshotsDropped, rfl, rfl⟩
  next queue hsome =>
    split
    next queue' _ => exact ⟨some queue', _, rfl, by rw [hsome]; rfl⟩
    next => exact ⟨bp.dbQueue, _, rfl, rfl⟩

/-- The signal queue's push touches that queue. -/
theorem pushSignal_eq : ∃ queue,
    bp.pushSignal snap = { bp with signalQueue := queue } ∧
      queue.isSome = bp.signalQueue.isSome := by
  unfold pushSignal
  split
  next => exact ⟨bp.signalQueue, rfl, rfl⟩
  next queue hsome =>
    split
    next queue' _ => exact ⟨some queue', rfl, by rw [hsome]; rfl⟩
    next => exact ⟨bp.signalQueue, rfl, rfl⟩

/-- **Offering touches the queues and the count of refusals**, and attaches or detaches none. -/
theorem offer_eq : ∃ dbQueue signalQueue dropped,
    bp.offer snap = { bp with dbQueue, signalQueue, snapshotsDropped := dropped } ∧
      dbQueue.isSome = bp.dbQueue.isSome ∧ signalQueue.isSome = bp.signalQueue.isSome := by
  obtain ⟨dbQueue, dropped, hdb, hdbSome⟩ := bp.pushDb_eq snap
  obtain ⟨signalQueue, hsignal, hsignalSome⟩ := (bp.pushDb snap).pushSignal_eq snap
  rw [hdb] at hsignalSome
  exact ⟨dbQueue, signalQueue, dropped, by rw [offer, hsignal, hdb], hdbSome, hsignalSome⟩

@[simp] theorem books_offer : (bp.offer snap).books = bp.books := by
  obtain ⟨_, _, _, h, -⟩ := bp.offer_eq snap
  rw [h]

@[simp] theorem referencePrice_offer : (bp.offer snap).referencePrice = bp.referencePrice := by
  obtain ⟨_, _, _, h, -⟩ := bp.offer_eq snap
  rw [h]

@[simp] theorem ticksProcessed_offer : (bp.offer snap).ticksProcessed = bp.ticksProcessed := by
  obtain ⟨_, _, _, h, -⟩ := bp.offer_eq snap
  rw [h]

@[simp] theorem attached_offer :
    ((bp.offer snap).dbQueue.isSome || (bp.offer snap).signalQueue.isSome) =
      (bp.dbQueue.isSome || bp.signalQueue.isSome) := by
  obtain ⟨_, _, _, h, hdb, hsignal⟩ := bp.offer_eq snap
  rw [h, hdb, hsignal]

variable (tick : MarketTick)

theorem books_processTick : (bp.processTick fl tick).books = (bp.applyTick fl tick).books := by
  unfold processTick
  split <;> simp

theorem referencePrice_processTick :
    (bp.processTick fl tick).referencePrice = (bp.applyTick fl tick).referencePrice := by
  unfold processTick
  split <;> simp

/-! ### One symbol at a time -/

/-- What `determineSide` does with the book and the reference of the symbol itself. -/
def judge (book : OrderBook Double) (ref : Option Double) (price : Double) :
    OrderSide × Option Double :=
  if flt price (kMinValidPrice fl) || flt (kMaxValidPrice fl) price then (.bid, ref)
  else
    match ref with
    | none => (.bid, some price)
    | some ref =>
      let judged := classify fl (some book) price ref
      (judged.1, some (blend fl price judged.2))

/-- The reference price of a symbol. -/
def reference (bp : BookProcessor) (symbol : List UInt8) : Option Double :=
  bp.referencePrice.lookup symbol

/-- The side a tick is given. -/
def sideOf : OrderSide :=
  (judge fl (bp.bookOf tick.symbol.key) (bp.reference tick.symbol.key) tick.price).1

/-- The delta a tick is turned into. -/
def deltaOf : BookDelta Double := tickToDelta fl tick (bp.sideOf fl tick)

variable {bp}

theorem determineSide_fst {symbol : List UInt8} {book : OrderBook Double}
    (hbook : bp.book symbol = some book) (price : Double) :
    (determineSide fl bp symbol price).1 = (judge fl book (bp.reference symbol) price).1 := by
  unfold determineSide judge reference
  split_ifs with h
  · rfl
  · cases bp.referencePrice.lookup symbol with
    | none => rfl
    | some ref => simp only [hbook]

theorem lookup_determineSide_self {symbol : List UInt8} {book : OrderBook Double}
    (hbook : bp.book symbol = some book) (price : Double) :
    (determineSide fl bp symbol price).2.lookup symbol =
      (judge fl book (bp.reference symbol) price).2 := by
  unfold determineSide judge reference
  split_ifs with h
  · rfl
  · cases bp.referencePrice.lookup symbol with
    | none => exact AList.lookup_insert _
    | some ref =>
      simp only [hbook]
      exact AList.lookup_insert _

theorem lookup_determineSide_of_ne {symbol other : List UInt8} (h : other ≠ symbol)
    (price : Double) :
    (determineSide fl bp symbol price).2.lookup other = bp.reference other := by
  rw [determineSide, reference]
  split_ifs with hrange
  · rfl
  · cases bp.referencePrice.lookup symbol with
    | none => exact AList.lookup_insert_ne h
    | some ref => exact AList.lookup_insert_ne h

theorem book_emplaceBook_self (symbol : List UInt8) :
    (bp.emplaceBook symbol).book symbol = some (bp.bookOf symbol) := by
  unfold emplaceBook bookOf
  cases h : bp.book symbol with
  | none => exact AList.lookup_insert _
  | some book => rw [Option.getD_some]; exact h

theorem book_emplaceBook_of_ne {symbol other : List UInt8} (h : other ≠ symbol) :
    (bp.emplaceBook symbol).book other = bp.book other := by
  unfold emplaceBook
  cases bp.book symbol with
  | none => exact AList.lookup_insert_ne h
  | some book => rfl

/-- Creating a book touches the books only. -/
theorem emplaceBook_eq (symbol : List UInt8) :
    bp.emplaceBook symbol = { bp with books := (bp.emplaceBook symbol).books } := by
  unfold emplaceBook
  cases bp.book symbol <;> rfl

theorem reference_emplaceBook (symbol other : List UInt8) :
    (bp.emplaceBook symbol).reference other = bp.reference other := by
  rw [emplaceBook_eq]
  rfl

variable (bp)

/-- **The tick's own book receives its delta.** -/
theorem book_processTick_self :
    (bp.processTick fl tick).book tick.symbol.key =
      some ((bp.bookOf tick.symbol.key).apply (bp.deltaOf fl tick)) := by
  have hbook := bp.book_emplaceBook_self tick.symbol.key
  rw [book, books_processTick]
  show ((bp.emplaceBook _).books.insert _ _).lookup _ = _
  rw [AList.lookup_insert, determineSide_fst fl hbook, reference_emplaceBook, bookOf, hbook]
  rfl

theorem bookOf_processTick_self :
    (bp.processTick fl tick).bookOf tick.symbol.key =
      (bp.bookOf tick.symbol.key).apply (bp.deltaOf fl tick) := by
  rw [bookOf, book_processTick_self, Option.getD_some]

/-- **No other book is touched.** -/
theorem book_processTick_of_ne {symbol : List UInt8} (h : symbol ≠ tick.symbol.key) :
    (bp.processTick fl tick).book symbol = bp.book symbol := by
  rw [book, books_processTick]
  show ((bp.emplaceBook _).books.insert _ _).lookup _ = _
  rw [AList.lookup_insert_ne h]
  exact book_emplaceBook_of_ne h

/-- **The tick's own reference is the one its side was judged with, blended.** -/
theorem reference_processTick_self :
    (bp.processTick fl tick).reference tick.symbol.key =
      (judge fl (bp.bookOf tick.symbol.key) (bp.reference tick.symbol.key) tick.price).2 := by
  have hbook := bp.book_emplaceBook_self tick.symbol.key
  rw [reference, referencePrice_processTick]
  show (determineSide fl (bp.emplaceBook _) _ _).2.lookup _ = _
  rw [lookup_determineSide_self fl hbook, reference_emplaceBook]

/-- **No other reference is touched.** -/
theorem reference_processTick_of_ne {symbol : List UInt8} (h : symbol ≠ tick.symbol.key) :
    (bp.processTick fl tick).reference symbol = bp.reference symbol := by
  rw [reference, referencePrice_processTick]
  show (determineSide fl (bp.emplaceBook _) _ _).2.lookup _ = _
  rw [lookup_determineSide_of_ne fl h, reference_emplaceBook]

theorem ticksProcessed_processTick :
    (bp.processTick fl tick).ticksProcessed = bp.ticksProcessed + 1 := by
  have happly : (bp.applyTick fl tick).ticksProcessed = bp.ticksProcessed + 1 := by
    show (bp.emplaceBook _).ticksProcessed + 1 = _
    rw [emplaceBook_eq]
  unfold processTick
  split
  · exact happly
  · rw [ticksProcessed_offer, happly]

/-- Applying a tick leaves the queues to `offer`. -/
theorem queues_applyTick : (bp.applyTick fl tick).dbQueue = bp.dbQueue ∧
    (bp.applyTick fl tick).signalQueue = bp.signalQueue := by
  show (bp.emplaceBook _).dbQueue = _ ∧ (bp.emplaceBook _).signalQueue = _
  rw [emplaceBook_eq]
  exact ⟨rfl, rfl⟩

/-- Queues stay attached or detached. -/
theorem attached_processTick :
    ((bp.processTick fl tick).dbQueue.isSome || (bp.processTick fl tick).signalQueue.isSome) =
      (bp.dbQueue.isSome || bp.signalQueue.isSome) := by
  obtain ⟨hdb, hsignal⟩ := bp.queues_applyTick fl tick
  unfold processTick
  split
  · rw [hdb, hsignal]
  · rw [attached_offer, hdb, hsignal]

theorem signalQueue_pushDb : (bp.pushDb snap).signalQueue = bp.signalQueue := by
  obtain ⟨_, _, h, -⟩ := bp.pushDb_eq snap
  rw [h]

theorem dbQueue_pushSignal : (bp.pushSignal snap).dbQueue = bp.dbQueue := by
  obtain ⟨_, h, -⟩ := bp.pushSignal_eq snap
  rw [h]

theorem items_pushDb_of_room (hdb : ∀ q ∈ bp.dbQueue, q.items.length < 4096) :
    (bp.pushDb snap).dbQueue.map BoundedQueue.items = bp.dbQueue.map fun q ↦ q.items ++ [snap] := by
  unfold pushDb
  split
  next hnone => rw [hnone]; rfl
  next q hsome =>
    obtain ⟨q', hpush, hitems⟩ := BoundedQueue.exists_tryPush_eq_some (hdb q hsome) snap
    rw [hpush, hsome]
    exact congrArg some hitems

theorem items_pushSignal_of_room (hsignal : ∀ q ∈ bp.signalQueue, q.items.length < 4096) :
    (bp.pushSignal snap).signalQueue.map BoundedQueue.items =
      bp.signalQueue.map fun q ↦ q.items ++ [snap] := by
  unfold pushSignal
  split
  next hnone => rw [hnone]; rfl
  next q hsome =>
    obtain ⟨q', hpush, hitems⟩ := BoundedQueue.exists_tryPush_eq_some (hsignal q hsome) snap
    rw [hpush, hsome]
    exact congrArg some hitems

/-- **What is offered to queues with room is pushed to them**, to both alike. -/
theorem items_processTick_of_room
    (hdb : ∀ q ∈ bp.dbQueue, q.items.length + (bp.offered fl tick).toList.length ≤ 4096)
    (hsignal : ∀ q ∈ bp.signalQueue, q.items.length + (bp.offered fl tick).toList.length ≤ 4096) :
    ((bp.processTick fl tick).dbQueue.map BoundedQueue.items =
        bp.dbQueue.map fun q ↦ q.items ++ (bp.offered fl tick).toList) ∧
      (bp.processTick fl tick).signalQueue.map BoundedQueue.items =
        bp.signalQueue.map fun q ↦ q.items ++ (bp.offered fl tick).toList := by
  obtain ⟨hdbEq, hsignalEq⟩ := bp.queues_applyTick fl tick
  unfold processTick
  split
  next hnone =>
    rw [hnone, hdbEq, hsignalEq]
    simp
  next snap hsome =>
    rw [hsome, ← hdbEq, ← hsignalEq, offer]
    rw [hsome] at hdb hsignal
    constructor
    · rw [dbQueue_pushSignal]
      exact items_pushDb_of_room _ snap (by rwa [hdbEq])
    · rw [← signalQueue_pushDb (bp.applyTick fl tick) snap]
      exact items_pushSignal_of_room _ snap (by rwa [signalQueue_pushDb, hsignalEq])

/-- **What a tick offers, by its own book.** -/
theorem offered_eq :
    bp.offered fl tick =
      if (bp.dbQueue.isSome || bp.signalQueue.isSome) &&
          topChanged ((bp.bookOf tick.symbol.key).topOfBook fl.sub)
            (((bp.bookOf tick.symbol.key).apply (bp.deltaOf fl tick)).topOfBook fl.sub) then
        some (snapshotOf fl tick ((bp.bookOf tick.symbol.key).apply (bp.deltaOf fl tick)))
      else none := by
  have hbook : (bp.applyTick fl tick).bookOf tick.symbol.key =
      (bp.bookOf tick.symbol.key).apply (bp.deltaOf fl tick) := by
    rw [← bookOf_processTick_self, bookOf, bookOf, book, book, books_processTick]
  rw [offered, hbook]

/-- A snapshot is stamped with the tick's symbol and timestamp and the count of its book. -/
theorem stamp_of_offered {snap : MarketSnapshot} (h : snap ∈ bp.offered fl tick) :
    snap.symbol = tick.symbol ∧ snap.timestampNs = tick.timestampNs ∧
      snap.sequence = ((bp.processTick fl tick).bookOf tick.symbol.key).updatesApplied := by
  rw [Option.mem_def, offered_eq] at h
  split_ifs at h
  rw [← Option.some.inj h, bookOf_processTick_self]
  exact ⟨rfl, rfl, rfl⟩

/-- **A tick counts in its own book only.** -/
theorem updatesApplied_processTick (symbol : List UInt8) :
    ((bp.processTick fl tick).bookOf symbol).updatesApplied =
      (bp.bookOf symbol).updatesApplied + if symbol = tick.symbol.key then 1 else 0 := by
  split_ifs with h
  · rw [h, bookOf_processTick_self, OrderBook.updatesApplied_apply]
  · rw [bookOf, book_processTick_of_ne fl bp tick h]
    rfl

/-- Books and references move by books and references alone: neither the queues nor what other
threads took from them matter. -/
theorem books_processTick_congr {bp bp' : BookProcessor} (hbooks : bp.books = bp'.books)
    (href : bp.referencePrice = bp'.referencePrice) :
    (bp.processTick fl tick).books = (bp'.processTick fl tick).books ∧
      (bp.processTick fl tick).referencePrice = (bp'.processTick fl tick).referencePrice := by
  rw [books_processTick, books_processTick, referencePrice_processTick, referencePrice_processTick]
  obtain ⟨books, refs, n, d, db, signal⟩ := bp
  obtain ⟨books', refs', n', d', db', signal'⟩ := bp'
  obtain rfl : books = books' := hbooks
  obtain rfl : refs = refs' := href
  simp only [applyTick, emplaceBook, book]
  cases books.lookup tick.symbol.key <;> exact ⟨rfl, rfl⟩

/-- The delta of a tick is a matter of its own book and reference. -/
theorem deltaOf_congr {bp bp' : BookProcessor}
    (hbook : bp.book tick.symbol.key = bp'.book tick.symbol.key)
    (href : bp.reference tick.symbol.key = bp'.reference tick.symbol.key) :
    bp.bookOf tick.symbol.key = bp'.bookOf tick.symbol.key ∧
      bp.deltaOf fl tick = bp'.deltaOf fl tick := by
  have hbookOf : bp.bookOf tick.symbol.key = bp'.bookOf tick.symbol.key := by
    rw [bookOf, bookOf, hbook]
  refine ⟨hbookOf, ?_⟩
  rw [deltaOf, deltaOf, sideOf, sideOf, hbookOf, href]

/-- So is what it offers, given whether a queue is attached. -/
theorem offered_congr {bp bp' : BookProcessor}
    (hbook : bp.book tick.symbol.key = bp'.book tick.symbol.key)
    (href : bp.reference tick.symbol.key = bp'.reference tick.symbol.key)
    (hattached : (bp.dbQueue.isSome || bp.signalQueue.isSome) =
      (bp'.dbQueue.isSome || bp'.signalQueue.isSome)) :
    bp.offered fl tick = bp'.offered fl tick := by
  obtain ⟨hbookOf, hdelta⟩ := deltaOf_congr fl tick hbook href
  rw [offered_eq, offered_eq, hattached, hbookOf, hdelta]

/-! ### Invariants of runs -/

variable {fl bp tick}

/-- Queues stay attached or detached along a run. -/
theorem attached_state (dbQueue signalQueue : Option SnapshotQueue) (ticks : List MarketTick) :
    (((offering fl).state (fresh dbQueue signalQueue) ticks).dbQueue.isSome ||
        ((offering fl).state (fresh dbQueue signalQueue) ticks).signalQueue.isSome) =
      (dbQueue.isSome || signalQueue.isSome) := by
  refine Transducer.state_invariant (offering fl) (P := fun bp ↦
    (bp.dbQueue.isSome || bp.signalQueue.isSome) = (dbQueue.isSome || signalQueue.isSome))
    (A := fun _ ↦ True) (fun bp tick _ hbp ↦ ?_) (fun _ _ ↦ trivial) rfl
  exact (attached_processTick fl bp tick).trans hbp

theorem bookOf_of_forall_book {Q : OrderBook Double → Prop}
    (hnew : ∀ symbol, Q (OrderBook.new symbol))
    (h : ∀ symbol book, bp.book symbol = some book → Q book) (symbol : List UInt8) :
    Q (bp.bookOf symbol) := by
  rw [bookOf]
  cases hb : bp.book symbol with
  | none => exact hnew symbol
  | some book => exact h symbol book hb

/-- **The book invariant rule**: what a new book has and the tick's delta preserves, every book has
after the tick. -/
theorem forall_book_processTick {Q : OrderBook Double → Prop}
    (hnew : ∀ symbol, Q (OrderBook.new symbol))
    (happly : ∀ book : OrderBook Double, Q book → Q (book.apply (bp.deltaOf fl tick)))
    (h : ∀ symbol book, bp.book symbol = some book → Q book) :
    ∀ symbol book, (bp.processTick fl tick).book symbol = some book → Q book := by
  intro symbol book hbook
  by_cases hk : symbol = tick.symbol.key
  · subst hk
    rw [book_processTick_self, Option.some.injEq] at hbook
    rw [← hbook]
    exact happly _ (bookOf_of_forall_book hnew h _)
  · rw [book_processTick_of_ne fl bp tick hk] at hbook
    exact h symbol book hbook

end BookProcessor

end Mdp
