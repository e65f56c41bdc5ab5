import MarketDataProcessor.Book.Emission
import MarketDataProcessor.Core.Binary64
import MarketDataProcessor.Pipeline.Liquidity
import Mathlib.Tactic.Positivity

/-!
# Are only real prices published?

A snapshot of an empty book has price zero. Books start empty and a book's first level is a change
that is published with a positive price, so a zero is published exactly when a book is **emptied**:
its only level is removed. The parser accepts no removals, but `tick_to_delta` makes one of every
volume that truncates to zero, and the side heuristic may well put it on the side where the level
is. `Empties` is that event, a condition on the tick and the book it meets, and `publishesReal_iff`
shows that it is the only way to a zero.

Whether a snapshot is pushed depends on the queues; the statement quantifies over every pattern of
consumption, and `AllTaken.exists_run` is the pattern in which nothing offered is refused.

The moving average of the signal engine is a convex combination of published prices, so it is
positive when they are, as far as the arithmetic goes. One of its two weights is more than one half,
and scaling by that much does not underflow to zero; the exception is period three, and `Suits` asks
there that nothing does. An average that overflowed stays infinite, unless its weight is zero, which
is period one.

## What the equivalence rests on

* `isEmpty_apply_iff`: of all updates exactly the removal of a sole level leaves a book empty, so a
  zero has one cause.
* `posValue_of_offered` and `exists_offered_of_empties`: a tick that empties no book offers a real
  price, if any, and one that does offers a zero. The second needs the price of a book with a level
  to be positive, since otherwise the change would go unnoticed.
* `books_of_run`: consumers do not touch the books, so the condition can be stated on the sequential
  run while the runs interleave with consumers.
* `posValue_mean`: one blend of positive values is positive, the only place at which the rounding of
  the format matters.
-/

namespace Mdp

open Double BookProcessor OrderBook BookRun

/-! ### Emptying a book -/

/-- The book has one level in all, on this side and at this price. -/
def OrderBook.SoleLevel (book : OrderBook Double) (side : OrderSide) (price : Double) : Prop :=
  ∀ s, (book.levels s).entries.map Prod.fst = if s = side then [price] else []

/-- The tick's volume truncates to zero, and its price and side are those of the only level of its
symbol's book. -/
def BookProcessor.Empties (fl : FloatEnv) (bp : BookProcessor) (tick : MarketTick) : Prop :=
  fl.toUInt64 tick.volume = 0 ∧
    (bp.bookOf tick.symbol.key).SoleLevel (bp.sideOf fl tick) tick.price

instance (book : OrderBook Double) (side : OrderSide) (price : Double) :
    Decidable (book.SoleLevel side price) :=
  decidable_of_iff
    (((book.levels .bid).entries.map Prod.fst = if .bid = side then [price] else []) ∧
      (book.levels .ask).entries.map Prod.fst = if .ask = side then [price] else [])
    ⟨fun h s ↦ by cases s with
      | bid => exact h.1
      | ask => exact h.2, fun h ↦ ⟨h .bid, h .ask⟩⟩

instance (fl : FloatEnv) (bp : BookProcessor) (tick : MarketTick) :
    Decidable (bp.Empties fl tick) :=
  inferInstanceAs (Decidable (_ ∧ _))

theorem isEmpty_iff_levels {book : OrderBook Double} :
    book.IsEmpty ↔ ∀ side, (book.levels side).entries = [] :=
  ⟨fun h side ↦ by cases side with
    | bid => exact h.1
    | ask => exact h.2, fun h ↦ ⟨h .bid, h .ask⟩⟩

/-- **The only way to empty a book.** -/
theorem isEmpty_apply_iff {book : OrderBook Double} {delta : BookDelta Double}
    (hne : ¬ book.IsEmpty) :
    (book.apply delta).IsEmpty ↔
      delta.volume = 0 ∧ book.SoleLevel delta.side delta.price := by
  rw [isEmpty_iff_levels]
  rcases book.apply_cases delta with ⟨hr, hl⟩ | ⟨-, hv, hl⟩ | ⟨hv, hl⟩
  · -- refused: nothing was removed
    rw [hl]
    refine ⟨fun h ↦ absurd (isEmpty_iff_levels.2 h) hne, fun h ↦ ?_⟩
    exact absurd (h.1 ▸ (refuses_iff.1 hr).1) (by decide)
  · refine ⟨fun h ↦ ?_, fun h ↦ absurd (h.1 ▸ hv) (by decide)⟩
    have hmem := h delta.side
    rw [hl, Function.update_self] at hmem
    have hlevel : (delta.price, delta.volume) ∈
        ((book.levels delta.side).insert delta.price delta.volume).entries :=
      OrderedMap.mem_insert_iff.2 (Or.inl ⟨rfl, rfl⟩)
    rw [hmem] at hlevel
    exact absurd hlevel List.not_mem_nil
  · rw [hl]
    constructor
    · intro h
      have hside := h delta.side
      rw [Function.update_self, OrderedMap.entries_erase_eq_nil_iff] at hside
      have hother : ∀ s, s ≠ delta.side → (book.levels s).entries = [] := fun s hs ↦ by
        have := h s
        rwa [Function.update_of_ne hs] at this
      refine ⟨hv, fun s ↦ ?_⟩
      by_cases hs : s = delta.side
      · rw [if_pos hs, hs]
        refine hside.resolve_left fun hnil ↦ hne (isEmpty_iff_levels.2 fun s' ↦ ?_)
        by_cases hs' : s' = delta.side
        · exact hs' ▸ hnil
        · exact hother s' hs'
      · rw [if_neg hs, hother s hs]
        rfl
    · rintro ⟨-, hsole⟩ s
      by_cases hs : s = delta.side
      · subst hs
        rw [Function.update_self, OrderedMap.entries_erase_eq_nil_iff]
        exact Or.inr ((hsole _).trans (if_pos rfl))
      · rw [Function.update_of_ne hs]
        exact List.map_eq_nil_iff.1 ((hsole s).trans (if_neg hs))

theorem OrderBook.SoleLevel.not_isEmpty {book : OrderBook Double} {side : OrderSide}
    {price : Double}
    (h : book.SoleLevel side price) : ¬ book.IsEmpty := by
  intro hempty
  have hnil := h side
  rw [isEmpty_iff_levels.1 hempty side, if_pos rfl] at hnil
  exact absurd hnil (by simp)

/-! ### The price of a book -/

theorem quotedPrice_of_isEmpty {fl : FloatEnv} {book : OrderBook Double} (h : book.IsEmpty) :
    book.quotedPrice fl = 0 := by
  rw [quotedPrice, OrderedMap.last?_eq_none_iff.2 h.1, OrderedMap.first?_eq_none_iff.2 h.2]

/-- Every price is a positive value of the format. -/
def Valued (fl : FloatEnv) (book : OrderBook Double) : Prop :=
  ∀ side, ∀ level ∈ (book.levels side).entries, fl.PosValue level.1

theorem valued_new (fl : FloatEnv) (symbol : List UInt8) : Valued fl (OrderBook.new symbol) :=
  fun side level h ↦ by cases side <;> exact absurd h List.not_mem_nil

theorem Valued.apply {fl : FloatEnv} {book : OrderBook Double} (h : Valued fl book)
    {delta : BookDelta Double} (hp : fl.PosValue delta.price) : Valued fl (book.apply delta) := by
  intro side level hlevel
  rcases fst_of_mem_levels_apply hlevel with hold | ⟨-, hnew⟩
  · exact h side level hold
  · exact hnew ▸ hp

/-- **A book with a level has a real price.** -/
theorem posValue_quotedPrice {fl : FloatEnv} (hfl : fl.Nearest) {book : OrderBook Double}
    (h : Valued fl book) (hne : ¬ book.IsEmpty) : fl.PosValue (book.quotedPrice fl) := by
  rw [quotedPrice]
  rcases hlast : book.bids.last? with - | bid
  · rcases hfirst : book.asks.first? with - | ask
    · exact absurd
        ⟨OrderedMap.last?_eq_none_iff.1 hlast, OrderedMap.first?_eq_none_iff.1 hfirst⟩ hne
    · exact h .ask ask (OrderedMap.first?_eq_some_iff.1 hfirst).1
  · have hbid := h .bid bid (OrderedMap.last?_eq_some_iff.1 hlast).1
    rcases hfirst : book.asks.first? with - | ask
    · exact hbid
    · exact hfl.posValue_midpoint hbid (h .ask ask (OrderedMap.first?_eq_some_iff.1 hfirst).1)

/-! ### What a tick publishes -/

section Tick

variable {fl : FloatEnv} {bp : BookProcessor} {tick : MarketTick} {snap : MarketSnapshot}

/-- Every price in every book is a positive value of the format. -/
def AllValued (fl : FloatEnv) (bp : BookProcessor) : Prop :=
  ∀ symbol book, bp.book symbol = some book → Valued fl book

theorem AllValued.processTick (hp : fl.PosValue tick.price) (h : AllValued fl bp) :
    AllValued fl (bp.processTick fl tick) :=
  forall_book_processTick (valued_new fl) (fun _ hb ↦ hb.apply hp) h

theorem AllValued.bookOf (h : AllValued fl bp) (symbol : List UInt8) :
    Valued fl (bp.bookOf symbol) :=
  bookOf_of_forall_book (valued_new fl) h symbol

theorem AllValued.pricesPositive (h : AllValued fl bp) : PricesPositive bp :=
  fun symbol side level hlevel ↦ (h.bookOf symbol side level hlevel).1

/-- **A tick that empties no book publishes a real price**, if anything. -/
theorem posValue_of_offered (hfl : fl.Nearest) (h : AllValued fl bp) (hp : fl.PosValue tick.price)
    (hattached : (bp.dbQueue.isSome || bp.signalQueue.isSome) = true)
    (hkeeps : ¬ bp.Empties fl tick) (hsnap : snap ∈ bp.offered fl tick) :
    fl.PosValue snap.price := by
  have hold := h.pricesPositive
  have hnew : AllValued fl (bp.processTick fl tick) := h.processTick hp
  rw [(fields_of_offered hold hp.1 hsnap).2.2.1]
  refine posValue_quotedPrice hfl (hnew.bookOf _) fun hempty ↦ ?_
  -- an empty book after the tick was empty before it, and then nothing changed
  by_cases hwas : (bp.bookOf tick.symbol.key).IsEmpty
  · have hsame := ((hold _).isEmpty_iff.1 hwas).trans
      ((hnew.pricesPositive _).isEmpty_iff.1 hempty).symm
    exact (isSome_offered_iff hold hattached).1 (Option.isSome_of_mem hsnap) hsame
  · rw [bookOf_processTick_self, isEmpty_apply_iff hwas] at hempty
    exact hkeeps hempty

/-- **A tick that empties a book publishes a zero.** -/
theorem exists_offered_of_empties (hold : PricesPositive bp) (hp : 0 < tick.price)
    (hattached : (bp.dbQueue.isSome || bp.signalQueue.isSome) = true)
    (hempties : bp.Empties fl tick) : ∃ snap ∈ bp.offered fl tick, snap.price = 0 := by
  have hnew : PricesPositive (bp.processTick fl tick) := hold.processTick hp
  have hwas := hempties.2.not_isEmpty
  have hempty : ((bp.processTick fl tick).bookOf tick.symbol.key).IsEmpty := by
    rw [bookOf_processTick_self]
    exact (isEmpty_apply_iff hwas).2 hempties
  have hchanged : (bp.offered fl tick).isSome := by
    refine (isSome_offered_iff hold hattached).2 fun hsame ↦ hwas ((hold _).isEmpty_iff.2 ?_)
    rw [hsame]
    exact (hnew _).isEmpty_iff.1 hempty
  obtain ⟨snap, hsnap⟩ := Option.isSome_iff_exists.1 hchanged
  refine ⟨snap, hsnap, ?_⟩
  rw [(fields_of_offered hold hp hsnap).2.2.1, quotedPrice_of_isEmpty hempty]

end Tick

/-! ### Runs over given ticks -/

namespace BookRun

/-- The ticks of a run. -/
def ticksOf (events : List Event) : List MarketTick :=
  events.filterMap fun
    | .tick tick => some tick
    | _ => none

theorem mem_ticksOf {events : List Event} {tick : MarketTick} :
    tick ∈ ticksOf events ↔ Event.tick tick ∈ events := by
  rw [ticksOf, List.mem_filterMap]
  refine ⟨fun ⟨e, he, htick⟩ ↦ ?_, fun h ↦ ⟨_, h, rfl⟩⟩
  cases e with
  | tick t => rwa [Option.some.inj htick] at he
  | dbPop => simp at htick
  | signalPop => simp at htick

/-- Everything that was pushed to the database queue. -/
def dbPushed (s : BookRun) : List MarketSnapshot :=
  s.dbTaken ++ itemsOf s.processor.dbQueue

/-- Everything that was pushed to the signal queue. -/
def signalPushed (s : BookRun) : List MarketSnapshot :=
  s.signalTaken ++ itemsOf s.processor.signalQueue

variable {fl : FloatEnv} {s t : BookRun} {events : List Event} {e : Event}

/-- **Consumers do not touch the books.** -/
theorem books_of_step_pop (h : s.step fl e = some t) (he : ∀ tick, e ≠ .tick tick) :
    t.processor.books = s.processor.books ∧
      t.processor.referencePrice = s.processor.referencePrice := by
  cases e with
  | tick tick => exact absurd rfl (he tick)
  | dbPop =>
    obtain ⟨_, -, rfl⟩ := Option.map_eq_some_iff.1 h
    exact ⟨rfl, rfl⟩
  | signalPop =>
    obtain ⟨_, -, rfl⟩ := Option.map_eq_some_iff.1 h
    exact ⟨rfl, rfl⟩

/-- **The books of a run are those of its ticks**, whatever the consumers did. -/
theorem books_of_run {dbQueue signalQueue : Option SnapshotQueue}
    (h : StepRun.run (step fl) (init dbQueue signalQueue) events = some s) :
    let pure := (offering fl).state (fresh dbQueue signalQueue) (ticksOf events)
    s.processor.books = pure.books ∧ s.processor.referencePrice = pure.referencePrice := by
  induction events using List.reverseRecOn generalizing s with
  | nil =>
    obtain rfl := Option.some.inj h
    exact ⟨rfl, rfl⟩
  | append_singleton events e ih =>
    obtain ⟨u, hu, hlast⟩ := StepRun.run_append_eq_some_iff.1 h
    obtain ⟨v, hstep, hv⟩ := StepRun.run_cons_eq_some_iff.1 hlast
    obtain rfl := Option.some.inj hv
    obtain ⟨hbooks, href⟩ := ih hu
    cases e with
    | tick tick =>
      obtain rfl := Option.some.inj hstep
      rw [ticksOf, List.filterMap_append]
      show _ = ((offering fl).state _ (ticksOf events ++ [tick])).books ∧
        _ = ((offering fl).state _ (ticksOf events ++ [tick])).referencePrice
      rw [Transducer.state_concat]
      exact books_processTick_congr fl tick hbooks href
    | dbPop =>
      obtain ⟨hbooks', href'⟩ := books_of_step_pop hstep (by simp)
      rw [ticksOf, List.filterMap_append]
      exact ⟨hbooks'.trans (hbooks.trans (by simp [ticksOf])),
        href'.trans (href.trans (by simp [ticksOf]))⟩
    | signalPop =>
      obtain ⟨hbooks', href'⟩ := books_of_step_pop hstep (by simp)
      rw [ticksOf, List.filterMap_append]
      exact ⟨hbooks'.trans (hbooks.trans (by simp [ticksOf])),
        href'.trans (href.trans (by simp [ticksOf]))⟩

theorem empties_congr {bp bp' : BookProcessor} (hbooks : bp.books = bp'.books)
    (href : bp.referencePrice = bp'.referencePrice) (tick : MarketTick) :
    bp.Empties fl tick ↔ bp'.Empties fl tick := by
  have hbook : bp.bookOf tick.symbol.key = bp'.bookOf tick.symbol.key := by
    rw [bookOf, bookOf, book, book, hbooks]
  have hside : bp.sideOf fl tick = bp'.sideOf fl tick := by
    rw [sideOf, sideOf, hbook, reference, reference, href]
  rw [Empties, Empties, hbook, hside]

theorem allValued_of_run {dbQueue signalQueue : Option SnapshotQueue}
    (h : StepRun.run (step fl) (init dbQueue signalQueue) events = some s)
    (hp : ∀ tick ∈ ticksOf events, fl.PosValue tick.price) : AllValued fl s.processor := by
  refine StepRun.run_invariant_of_mem (P := fun s ↦ AllValued fl s.processor)
    (fun e he u v hu hstep ↦ ?_) (fun symbol book hbook ↦ ?_) h
  · by_cases htick : ∃ tick, e = .tick tick
    · obtain ⟨tick, rfl⟩ := htick
      obtain rfl := Option.some.inj hstep
      exact hu.processTick (hp tick (mem_ticksOf.2 he))
    · have hbooks := (books_of_step_pop hstep fun tick heq ↦ htick ⟨tick, heq⟩).1
      intro symbol book hbook
      rw [BookProcessor.book, hbooks] at hbook
      exact hu symbol book hbook
  · exact absurd hbook (by simp [init, fresh, BookProcessor.book])

/-- **Without an emptied book every offer has a real price.** -/
theorem posValue_of_mem_offers (hfl : fl.Nearest) {dbQueue : SnapshotQueue}
    {signalQueue : Option SnapshotQueue}
    (h : StepRun.run (step fl) (init (some dbQueue) signalQueue) events = some s)
    (hp : ∀ tick ∈ ticksOf events, fl.PosValue tick.price)
    (hkeeps : ∀ seen tick rest, ticksOf events = seen ++ tick :: rest →
      ¬ ((offering fl).state (fresh (some dbQueue) signalQueue) seen).Empties fl tick) :
    ∀ snap ∈ s.offers, fl.PosValue snap.price := by
  refine StepRun.run_invariant_along (P := fun s ↦ ∀ snap ∈ s.offers, fl.PosValue snap.price)
    (fun seen e rest u v hsplit hu hoffers hstep ↦ ?_) (fun snap hsnap ↦ by simp [init] at hsnap) h
  cases e with
  | dbPop =>
    obtain ⟨_, -, rfl⟩ := Option.map_eq_some_iff.1 hstep
    exact hoffers
  | signalPop =>
    obtain ⟨_, -, rfl⟩ := Option.map_eq_some_iff.1 hstep
    exact hoffers
  | tick tick =>
    obtain rfl := Option.some.inj hstep
    have hticks : ticksOf events = ticksOf seen ++ tick :: ticksOf rest := by
      rw [hsplit, ticksOf, List.filterMap_append]
      rfl
    rw [hticks] at hp hkeeps
    have hseen : ∀ t ∈ ticksOf seen, fl.PosValue t.price := fun t ht ↦
      hp t (List.mem_append_left _ ht)
    obtain ⟨hbooks, href⟩ := books_of_run hu
    obtain ⟨queue, -, hqueue, -⟩ := (exact_of_run hu fun t ht ↦
      flt_zero_iff.2 (hseen t (mem_ticksOf.2 ht)).1).db
    intro snap hsnap
    rcases List.mem_append.1 hsnap with hsnap | hsnap
    · exact hoffers snap hsnap
    · refine posValue_of_offered hfl (allValued_of_run hu hseen) (hp tick (by simp))
        (by rw [hqueue]; rfl) ?_ (Option.mem_toList.1 hsnap)
      rw [empties_congr hbooks href]
      exact hkeeps _ tick _ rfl

/-! ### Consumers that keep up -/

/-- What the consumers can maintain through any tick they can maintain through any ticks. -/
theorem exists_run_of_ticks {T : BookRun → Prop}
    (htick : ∀ s tick, T s → ∃ events t, StepRun.run (step fl) s events = some t ∧
      ticksOf events = [tick] ∧ T t) (h : T s) (ticks : List MarketTick) :
    ∃ events t, StepRun.run (step fl) s events = some t ∧ ticksOf events = ticks ∧ T t := by
  induction ticks generalizing s with
  | nil => exact ⟨[], s, rfl, rfl, h⟩
  | cons tick ticks ih =>
    obtain ⟨events, u, hu, hticks, hmaintained⟩ := htick s tick h
    obtain ⟨events', t, ht, hticks', hmaintained'⟩ := ih hmaintained
    refine ⟨events ++ events', t, StepRun.run_append_eq_some_iff.2 ⟨u, hu, ht⟩, ?_, hmaintained'⟩
    rw [ticksOf, List.filterMap_append]
    exact congrArg₂ (· ++ ·) hticks hticks'

/-- Both queues are empty and everything offered has been taken from both. -/
structure AllTaken (s : BookRun) : Prop where
  /-- The database queue is attached and empty. -/
  dbQueue : s.processor.dbQueue = some BoundedQueue.empty
  /-- The signal queue is attached and empty. -/
  signalQueue : s.processor.signalQueue = some BoundedQueue.empty
  /-- The database writer has everything. -/
  dbTaken : s.dbTaken = s.offers
  /-- The signal engine has everything. -/
  signalTaken : s.signalTaken = s.offers

theorem tryPop_received (snap : MarketSnapshot) :
    (received (some snap) BoundedQueue.empty).tryPop = some (snap, BoundedQueue.empty) := by
  rw [BoundedQueue.tryPop_eq_some_iff, items_received]
  rfl

/-- One tick, with what it offers taken at once. -/
theorem AllTaken.exists_run_tick (fl : FloatEnv) (h : s.AllTaken) (tick : MarketTick) :
    ∃ events t, StepRun.run (step fl) s events = some t ∧ ticksOf events = [tick] ∧
      t.AllTaken ∧ t.offers = s.offers ++ (s.processor.offered fl tick).toList := by
  obtain ⟨hdb, hsignal, -⟩ := queues_processTick fl tick h.dbQueue
  rw [h.signalQueue] at hsignal
  rcases hoffered : s.processor.offered fl tick with - | snap
  · rw [hoffered] at hdb hsignal
    refine ⟨[.tick tick], _, rfl, rfl, ⟨hdb, hsignal, ?_, ?_⟩, ?_⟩
    · show s.dbTaken = s.offers ++ _
      rw [h.dbTaken, hoffered, Option.toList_none, List.append_nil]
    · show s.signalTaken = s.offers ++ _
      rw [h.signalTaken, hoffered, Option.toList_none, List.append_nil]
    · show s.offers ++ _ = _
      rw [hoffered]
  · rw [hoffered] at hdb hsignal
    refine ⟨[.tick tick, .dbPop, .signalPop],
      { s with
        processor := { s.processor.processTick fl tick with
          dbQueue := some BoundedQueue.empty
          signalQueue := some BoundedQueue.empty }
        dbTaken := s.dbTaken ++ [snap]
        signalTaken := s.signalTaken ++ [snap]
        offers := s.offers ++ [snap]
        changes := s.changes + if changesTop fl s.processor tick then 1 else 0 }, ?_, rfl,
      ⟨rfl, rfl, by rw [h.dbTaken], by rw [h.signalTaken]⟩, rfl⟩
    simp only [StepRun.run_cons, StepRun.run_nil, step, Option.bind_some, Option.map_some, hoffered,
      Option.toList_some, hdb, hsignal, tryPop_received]

/-- **No pattern of ticks forces a full queue.** -/
theorem AllTaken.exists_run (fl : FloatEnv) (h : s.AllTaken) (ticks : List MarketTick) :
    ∃ events t, StepRun.run (step fl) s events = some t ∧ ticksOf events = ticks ∧
      t.AllTaken := by
  refine exists_run_of_ticks (fun u tick hu ↦ ?_) h ticks
  obtain ⟨events, t, ht, hticks, htaken, -⟩ := hu.exists_run_tick fl tick
  exact ⟨events, t, ht, hticks, htaken⟩

end BookRun

/-! ### The moving average -/

namespace SignalEngine

variable {fl : FloatEnv} {engine : SignalEngine}

/-- The arithmetic suits the period. In exact arithmetic every period is suited, and in IEEE 754
double precision every one but one and three. -/
structure Suits (fl : FloatEnv) (period : Period) : Prop where
  /-- The old average has weight zero, which an infinity does not survive. -/
  one : period.toInt = 1 → ∀ q, fl.round q ≠ posInf
  /-- Both weights are one half, which the least positive value does not survive. -/
  three : period.toInt = 3 → ∀ q, 0 < q → 0 < fl.round q

/-- Weights of the new price and of the old average under which positive values have a positive
mean. -/
def Weights (fl : FloatEnv) (a w : ℚ) : Prop :=
  1 / 2 < a ∧ 0 < w ∨ 0 < a ∧ 1 / 2 < w ∨ a = 1 ∧ w = 0 ∧ (∀ q, fl.round q ≠ posInf) ∨
    a = 1 / 2 ∧ w = 1 / 2 ∧ ∀ q, 0 < q → 0 < fl.round q

/-- **The weights of a period.** -/
theorem exists_weights (hfl : fl.Nearest) {period : Period} (hsuits : Suits fl period) :
    ∃ a w, (new fl period).alpha = fin a ∧ fl.sub (fl.round 1) (fin a) = fin w ∧
      Weights fl a w := by
  obtain ⟨n, hn⟩ : ∃ n, n = period.effective := ⟨_, rfl⟩
  have halpha : (new fl period).alpha = fl.round (2 / (n + 1)) := by rw [hn]; rfl
  have hsub : ∀ a, fl.sub (fl.round 1) (fin a) = fl.round (1 + -a) := fun a ↦ by
    rw [hfl.one]
    rfl
  have hrange : 1 ≤ n ∧ n + 1 ≤ 2 ^ 31 := by
    rw [hn]
    exact ⟨period.one_le_effective, period.effective_succ_lt.le⟩
  rw [Period.effective] at hn
  simp only [halpha, hsub]
  obtain rfl | rfl | rfl | hfour : n = 1 ∨ n = 2 ∨ n = 3 ∨ 4 ≤ n := by omega
  · have hperiod : period.toInt = 1 := by
      split_ifs at hn <;> omega
    refine ⟨1, 0, ?_, ?_, Or.inr (Or.inr (Or.inl ⟨rfl, rfl, hsuits.one hperiod⟩))⟩
    · rw [← hfl.one]
      norm_num
    · rw [← hfl.zero]
      norm_num
  · obtain ⟨a, ha, hlo, hhi⟩ := hfl.exists_round_mem (q := 2 / ((2 : ℤ) + 1))
      (hfl.fraction (q := 5 / 8) (k := 5 * 2 ^ 29) (by norm_num) (by norm_num))
      (hfl.fraction (q := 11 / 16) (k := 11 * 2 ^ 28) (by norm_num) (by norm_num))
      (by norm_num) (by norm_num) (by norm_num)
    obtain ⟨w, hw, hlo', -⟩ := hfl.exists_round_mem (q := 1 + -a)
      (hfl.fraction (q := 5 / 16) (k := 5 * 2 ^ 28) (by norm_num) (by norm_num)) hfl.one
      (by norm_num) (by linarith) (by linarith)
    exact ⟨a, w, ha, hw, Or.inl ⟨by linarith, by linarith⟩⟩
  · have hperiod : period.toInt = 3 := by
      split_ifs at hn <;> omega
    have hhalf := hfl.fraction (q := 1 / 2) (k := 2 ^ 31) (by norm_num) (by norm_num)
    refine ⟨1 / 2, 1 / 2, ?_, ?_, Or.inr (Or.inr (Or.inr ⟨rfl, rfl, hsuits.three hperiod⟩))⟩
    · rw [← hhalf]
      norm_num
    · rw [← hhalf]
      norm_num
  · have hn4 : (4 : ℚ) ≤ n := by exact_mod_cast hfour
    have hn31 : (n + 1 : ℚ) ≤ 2 ^ 31 := by exact_mod_cast hrange.2
    obtain ⟨a, ha, hlo, hhi⟩ := hfl.exists_round_mem (q := 2 / (n + 1))
      (hfl.fraction (q := 1 / 2 ^ 30) (k := 4) (by norm_num) (by norm_num))
      (hfl.fraction (q := 7 / 16) (k := 7 * 2 ^ 28) (by norm_num) (by norm_num))
      (by norm_num) (by rw [div_le_div_iff₀ (by norm_num) (by linarith)]; linarith)
      (by rw [div_le_div_iff₀ (by linarith) (by norm_num)]; linarith)
    obtain ⟨w, hw, hlo', -⟩ := hfl.exists_round_mem (q := 1 + -a)
      (hfl.fraction (q := 9 / 16) (k := 9 * 2 ^ 28) (by norm_num) (by norm_num)) hfl.one
      (by norm_num) (by linarith) (by linarith)
    exact ⟨a, w, ha, hw, Or.inr (Or.inl ⟨lt_of_lt_of_le (by norm_num) hlo, by linarith⟩)⟩

/-- **A weighted mean of positive values is one.** -/
theorem posValue_mean (hfl : fl.Nearest) {a w : ℚ} (h : Weights fl a w) {price ema : Double}
    (hp : fl.PosValue price) (hema : fl.PosValue ema) :
    fl.PosValue (fl.add (fl.mul price (fin a)) (fl.mul ema (fin w))) := by
  rcases h with ⟨ha, hw⟩ | ⟨ha, hw⟩ | ⟨rfl, rfl, hover⟩ | ⟨rfl, rfl, hunder⟩
  · exact hfl.posValue_add (hfl.posValue_mul hp ha) (hfl.nonnegValue_mul hema hw)
  · rw [FloatEnv.add_swap]
    exact hfl.posValue_add (hfl.posValue_mul hema hw) (hfl.nonnegValue_mul hp ha)
  · refine hfl.posValue_add (hfl.posValue_mul hp (by norm_num)) ?_
    rcases hfl.posValue_cases hema with ⟨x, -, rfl, -⟩ | rfl
    · exact hfl.nonnegValue_round (mul_zero x).ge
    · obtain ⟨q, hq⟩ := hema.2
      exact absurd hq (hover q)
  · refine hfl.posValue_add ?_ (hfl.nonnegValue_mul hema (by norm_num))
    rcases hfl.posValue_cases hp with ⟨p, hpos, rfl, -⟩ | rfl
    · exact ⟨hunder _ (by positivity), _, rfl⟩
    · rw [FloatEnv.mul_posInf_fin (by norm_num)]
      exact hp

/-- The weights are sound and every average is a positive value. -/
structure Averages (fl : FloatEnv) (engine : SignalEngine) : Prop where
  /-- The weights of the new price and of the old average. -/
  weights : ∃ a w, engine.alpha = fin a ∧ fl.sub (fl.round 1) (fin a) = fin w ∧ Weights fl a w
  /-- The averages so far. -/
  ema : ∀ symbol ema, engine.emaMap.lookup symbol = some ema → fl.PosValue ema

theorem Averages.currentEma (hfl : fl.Nearest) (h : engine.Averages fl) {price : Double}
    (hp : fl.PosValue price) (symbol : List UInt8) :
    fl.PosValue (engine.currentEma fl symbol price) := by
  rw [SignalEngine.currentEma]
  cases hlook : engine.emaMap.lookup symbol with
  | none => exact hp
  | some ema =>
    obtain ⟨a, w, halpha, hsub, hweights⟩ := h.weights
    simp only [halpha, hsub]
    exact posValue_mean hfl hweights hp (h.ema symbol ema hlook)

/-- **Signals derived from real prices carry real prices and real averages.** -/
theorem posValue_of_mem_outputs (hfl : fl.Nearest) {period : Period} (hsuits : Suits fl period)
    {snaps : List MarketSnapshot} (hsnaps : ∀ snap ∈ snaps, fl.PosValue snap.price) :
    ∀ signal ∈ (signalling fl).outputs (new fl period) snaps,
      fl.PosValue signal.price ∧ fl.PosValue signal.emaValue := by
  refine (signalling fl).forall_mem_outputs (P := Averages fl)
    (A := fun snap ↦ fl.PosValue snap.price)
    (fun engine snap hp h ↦ ⟨h.weights, fun symbol ema hlook ↦ ?_⟩) (fun engine snap hp h ↦ ?_)
    hsnaps ⟨exists_weights hfl hsuits, fun symbol ema hlook ↦ by simp [new] at hlook⟩
  · have hlook' : (engine.emaMap.insert snap.symbol.key
        (engine.currentEma fl snap.symbol.key snap.price)).lookup symbol = some ema := hlook
    by_cases hk : symbol = snap.symbol.key
    · rw [hk, AList.lookup_insert] at hlook'
      rw [← Option.some.inj hlook']
      exact h.currentEma hfl hp _
    · rw [AList.lookup_insert_ne hk] at hlook'
      exact h.ema symbol ema hlook'
  · intro signal hsignal
    rw [List.mem_singleton.1 hsignal]
    exact ⟨hp, h.currentEma hfl hp _⟩

end SignalEngine

/-! ### What the pipeline publishes -/

/-- Every snapshot pushed to a queue has a positive price, and every signal derived from the signal
queue a positive price and a positive average. -/
structure PublishesReal (fl : FloatEnv) (period : Period) (s : BookRun) : Prop where
  /-- Snapshots for the database. -/
  db : ∀ snap ∈ s.dbPushed, flt 0 snap.price = true
  /-- Snapshots for the signal engine. -/
  signal : ∀ snap ∈ s.signalPushed, flt 0 snap.price = true
  /-- Signals. -/
  signals : ∀ signal ∈ (SignalEngine.signalling fl).outputs (SignalEngine.new fl period)
    s.signalPushed, flt 0 signal.price = true ∧ flt 0 signal.emaValue = true

/-- The empty queues the processor is started on. -/
abbrev noSnapshots : Option SnapshotQueue := some BoundedQueue.empty

theorem posValue_of_mem_forwardedTicks {fl : FloatEnv} {raw : List MarketTick} {tick : MarketTick}
    (hraw : ∀ t ∈ raw, fl.Holds t.price) (h : tick ∈ forwardedTicks raw) :
    fl.PosValue tick.price := by
  obtain ⟨q, hq, hprice⟩ := (TickParser.validate_iff.1 (validate_of_mem_forwardedTicks h)).1
  -- the parser rewrites the symbol and the side only
  obtain ⟨t, ht, rfl⟩ := List.mem_map.1 (List.mem_of_mem_filter (Normalizer.mem_of_mem_normalize h))
  have hholds := hraw t ht
  rw [show t.price = fin q from hprice] at hholds
  exact hprice ▸ FloatEnv.posValue_of_holds hq hholds

/-- **Real prices, exactly.** In arithmetic that rounds to nearest, for raw prices of its format:
whatever the consumers do, a raw sequence leads to positive snapshot prices, signal prices and
averages only, exactly when no tick that reaches the book processor has a volume that truncates to
zero and meets a book whose only level is at its price, on the side it is given. -/
theorem publishesReal_iff {fl : FloatEnv} (hfl : fl.Nearest) {period : Period}
    (hsuits : SignalEngine.Suits fl period) (raw : List MarketTick)
    (hraw : ∀ tick ∈ raw, fl.Holds tick.price) :
    (∀ (events : List Event) (s : BookRun), ticksOf events = forwardedTicks raw →
        StepRun.run (step fl) (init noSnapshots noSnapshots) events = some s →
        PublishesReal fl period s) ↔
      ∀ seen tick rest, forwardedTicks raw = seen ++ tick :: rest →
        ¬ ((offering fl).state (fresh noSnapshots noSnapshots) seen).Empties fl tick := by
  constructor
  · intro h seen tick rest hsplit hempties
    have hreal : ∀ t ∈ seen ++ tick :: rest, 0 < t.price := fun t ht ↦
      (posValue_of_mem_forwardedTicks hraw (hsplit ▸ ht)).1
    -- consumers that keep up, before the tick and after it
    have hstart : (init noSnapshots noSnapshots).AllTaken := ⟨rfl, rfl, rfl, rfl⟩
    obtain ⟨before, u, hu, hbefore, htaken⟩ := hstart.exists_run fl seen
    obtain ⟨here, v, hv, hhere, htaken', hoffers⟩ := htaken.exists_run_tick fl tick
    obtain ⟨after, t, ht, hafter, htaken''⟩ := htaken'.exists_run fl rest
    have hrun : StepRun.run (step fl) (init noSnapshots noSnapshots) (before ++ (here ++ after)) =
        some t :=
      StepRun.run_append_eq_some_iff.2 ⟨u, hu, StepRun.run_append_eq_some_iff.2 ⟨v, hv, ht⟩⟩
    have hticks : ticksOf (before ++ (here ++ after)) = forwardedTicks raw := by
      rw [hsplit, ticksOf, List.filterMap_append, List.filterMap_append]
      exact congrArg₂ (· ++ ·) hbefore (congrArg₂ (· ++ ·) hhere hafter)
    have hprices : PricesPositive u.processor := (exact_of_run hu fun t ht ↦ by
      have hmem := mem_ticksOf.2 ht
      rw [hbefore] at hmem
      exact flt_zero_iff.2 (hreal t (List.mem_append_left _ hmem))).prices
    obtain ⟨hbooks, href⟩ := books_of_run hu
    rw [hbefore] at hbooks href
    obtain ⟨snap, hsnap, hzero⟩ := exists_offered_of_empties hprices (hreal tick (by simp))
      (by rw [htaken.dbQueue]; rfl) ((empties_congr hbooks href tick).2 hempties)
    have hpushed : snap ∈ t.dbPushed := by
      rw [dbPushed, htaken''.dbTaken]
      refine List.mem_append_left _ ((offers_prefix_of_run ht).subset ?_)
      rw [hoffers]
      exact List.mem_append_right _ (Option.mem_toList.2 hsnap)
    have hpositive := (h _ t hticks hrun).db snap hpushed
    rw [hzero] at hpositive
    exact absurd hpositive (by decide)
  · intro h events s hticks hrun
    have hreal : ∀ t ∈ ticksOf events, fl.PosValue t.price := fun t ht ↦
      posValue_of_mem_forwardedTicks hraw (hticks ▸ ht)
    have hoffers := posValue_of_mem_offers hfl hrun hreal (by rw [hticks]; exact h)
    have hexact := exact_of_run hrun fun t ht ↦ flt_zero_iff.2 (hreal t (mem_ticksOf.2 ht)).1
    obtain ⟨queue, pushed, hqueue, ⟨hitems, hsub⟩, -⟩ := hexact.db
    have hdb : ∀ snap ∈ s.dbPushed, fl.PosValue snap.price := by
      intro snap hsnap
      rw [dbPushed, hqueue, hitems] at hsnap
      exact hoffers snap (hsub.subset hsnap)
    obtain ⟨pushed', hitems', hsub'⟩ := hexact.signal
    have hsignal : ∀ snap ∈ s.signalPushed, fl.PosValue snap.price := by
      intro snap hsnap
      rw [signalPushed, hitems'] at hsnap
      exact hoffers snap (hsub'.subset hsnap)
    refine ⟨fun snap hsnap ↦ flt_zero_iff.2 (hdb snap hsnap).1,
      fun snap hsnap ↦ flt_zero_iff.2 (hsignal snap hsnap).1, fun signal hs ↦ ?_⟩
    obtain ⟨hprice, hema⟩ := SignalEngine.posValue_of_mem_outputs hfl hsuits hsignal signal hs
    exact ⟨flt_zero_iff.2 hprice.1, flt_zero_iff.2 hema.1⟩

theorem suits_default (fl : FloatEnv) : SignalEngine.Suits fl .default :=
  ⟨fun h ↦ absurd h (by decide), fun h ↦ absurd h (by decide)⟩

/-- A share at 100 and one at 99, then half a share at 99, which removes the level there: the bid at
100 is left, and real prices only are published, in double precision and whoever consumes them. -/
theorem publishesReal_half_share :
    let fl := FloatEnv.binary64 fun _ ↦ 0
    let raw := [volumeOfA 100 1 1, volumeOfA 99 1 2, volumeOfA 99 (1 / 2) 3]
    ((((offering fl).state (fresh noSnapshots noSnapshots) (forwardedTicks raw)).bookOf
        [65]).levelsRemoved = 1) ∧
      ∀ (events : List Event) (s : BookRun), ticksOf events = forwardedTicks raw →
        StepRun.run (step fl) (init noSnapshots noSnapshots) events = some s →
        PublishesReal fl .default s := by
  intro fl raw
  have hraw : ∀ tick ∈ raw, fl.Holds tick.price := by
    simp only [raw, List.forall_mem_cons]
    exact ⟨show FloatEnv.roundDouble 100 = fin 100 by decide +kernel,
      show FloatEnv.roundDouble 99 = fin 99 by decide +kernel,
      show FloatEnv.roundDouble 99 = fin 99 by decide +kernel, fun _ hnil ↦ by cases hnil⟩
  have hforwarded : forwardedTicks raw = raw := by decide +kernel
  refine ⟨by decide +kernel, (publishesReal_iff (FloatEnv.nearest_binary64 _) (suits_default fl)
    raw hraw).2 ?_⟩
  rw [hforwarded, (offering fl).forall_state_iff (P := fun bp tick ↦ ¬ bp.Empties fl tick)]
  decide +kernel

/-- **A zero can be published.** Half a share at 100 leaves the book empty, a share at 99 sets a
bid, half a share at 99 removes it: all three validate, and the last snapshot has price zero. -/
theorem half_share_publishes_zero :
    let fl := FloatEnv.binary64 fun _ ↦ 0
    ¬ ∀ (raw : List MarketTick) (events : List Event) (s : BookRun),
        (∀ tick ∈ raw, fl.Holds tick.price) → ticksOf events = forwardedTicks raw →
        StepRun.run (step fl) (init noSnapshots noSnapshots) events = some s →
        PublishesReal fl .default s := by
  intro fl h
  let raw := [volumeOfA 100 (1 / 2) 1, volumeOfA 99 1 2, volumeOfA 99 (1 / 2) 3]
  obtain ⟨s, hs⟩ := Option.isSome_iff_exists.1 (by decide +kernel :
    (StepRun.run (step fl) (init noSnapshots noSnapshots) (raw.map Event.tick)).isSome = true)
  have hraw : ∀ tick ∈ raw, fl.Holds tick.price := by
    simp only [raw, List.forall_mem_cons]
    exact ⟨show FloatEnv.roundDouble 100 = fin 100 by decide +kernel,
      show FloatEnv.roundDouble 99 = fin 99 by decide +kernel,
      show FloatEnv.roundDouble 99 = fin 99 by decide +kernel, fun _ hnil ↦ by cases hnil⟩
  have hreal := (h raw (raw.map Event.tick) s hraw (by decide +kernel) hs).db
  have hprices : s.dbPushed.map MarketSnapshot.price = [fin 99, 0] :=
    StepRun.eq_of_run_map (fun s ↦ s.dbPushed.map MarketSnapshot.price) hs (by decide +kernel)
  have hmem : 0 ∈ s.dbPushed.map MarketSnapshot.price := by
    rw [hprices]
    simp
  obtain ⟨snap, hsnap, hzero⟩ := List.mem_map.1 hmem
  have hpositive := hreal snap hsnap
  rw [hzero] at hpositive
  exact absurd hpositive (by decide)

end Mdp
