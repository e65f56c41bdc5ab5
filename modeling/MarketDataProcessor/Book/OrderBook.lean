import MarketDataProcessor.Core.MarketTick
import MarketDataProcessor.Foundations.OrderedMap
import Mathlib.Data.List.Induction

/-!
# The order book

`book/BookTypes.hpp` and `book/OrderBook.cpp`: a single-symbol book of bid and ask levels, updated
one price level at a time. The book is generic in its prices, of which `apply` uses nothing but
their order; `best_bid()` and `best_ask()` additionally need the zero they return on an empty side,
and `top_of_book()` the subtraction its spread is computed with.

## The guard

`apply` counts every call, then refuses a positive-volume delta that would cross the book: a bid
**strictly** above the lowest ask or an ask strictly below the highest bid. Equality is let through,
so a book can lock but not cross. The guard is a definition of its own (`refuses`), since the side
heuristic of the processor has to agree with it.

## What runs preserve

`OrderBook.Safe` says that no bid is above an ask and that every level holds volume. It survives
every operation in every order (`safe_of_run`). The three things an update can do to the levels are
separated once and for all in `apply_cases`; every later invariant of the book is a case analysis
over it.
-/

namespace Mdp

/-! ### Book types -/

/-- Side of an order in the book. -/
inductive OrderSide where
  | bid
  | ask
  deriving DecidableEq

/-- A single price-level update; volume zero removes the level. -/
structure BookDelta (P : Type*) where
  symbol : Symbol
  side : OrderSide
  price : P
  volume : UInt64
  timestampNs : UInt64

/-- A price level. -/
structure PriceLevel (P : Type*) where
  price : P
  volume : UInt64
  deriving DecidableEq

/-- The best bid and ask. -/
structure TopOfBook (P : Type*) where
  symbol : Symbol
  bestBid : P
  bidVolume : UInt64
  bestAsk : P
  askVolume : UInt64
  spread : P
  deriving DecidableEq

/-- A full snapshot of a book. -/
structure BookSnapshot (P : Type*) where
  symbol : Symbol
  /-- Descending by price. -/
  bids : List (PriceLevel P)
  /-- Ascending by price. -/
  asks : List (PriceLevel P)
  sequence : ℕ

/-- A single-symbol order book. -/
structure OrderBook (P : Type*) [LinearOrder P] where
  symbol : Symbol
  /-- `bids_`, ascending. -/
  bids : OrderedMap P UInt64
  /-- `asks_`, ascending. -/
  asks : OrderedMap P UInt64
  sequence : ℕ
  updatesApplied : ℕ
  levelsRemoved : ℕ

namespace OrderBook

variable {P : Type*} [LinearOrder P]

/-! ### Operations -/

/-- The constructor: at most seven bytes of the symbol, as `strncpy` copies them. -/
def new (symbol : List UInt8) : OrderBook P where
  symbol := Vector.ofFn fun i ↦ if i.val < 7 then (symbol.takeWhile (· ≠ 0)).getD i 0 else 0
  bids := OrderedMap.empty
  asks := OrderedMap.empty
  sequence := 0
  updatesApplied := 0
  levelsRemoved := 0

/-- The crossed book guard of `apply`. -/
def refuses (book : OrderBook P) (delta : BookDelta P) : Bool :=
  decide (0 < delta.volume) &&
    match delta.side with
    | .bid => book.asks.first?.any fun level ↦ decide (level.1 < delta.price)
    | .ask => book.bids.last?.any fun level ↦ decide (delta.price < level.1)

/-- What `std::map::erase` returns: the number of levels it removed. -/
def erasedLevels (levels : OrderedMap P UInt64) (price : P) : ℕ :=
  if (levels.find? price).isSome then 1 else 0

/-- `apply`. -/
def apply (book : OrderBook P) (delta : BookDelta P) : OrderBook P :=
  -- both counters move before the guard is asked
  let book :=
    { book with sequence := book.sequence + 1, updatesApplied := book.updatesApplied + 1 }
  if book.refuses delta then book
  else
    match delta.side with
    | .bid =>
      if delta.volume = 0 then
        { book with
          levelsRemoved := book.levelsRemoved + erasedLevels book.bids delta.price
          bids := book.bids.erase delta.price }
      else { book with bids := book.bids.insert delta.price delta.volume }
    | .ask =>
      if delta.volume = 0 then
        { book with
          levelsRemoved := book.levelsRemoved + erasedLevels book.asks delta.price
          asks := book.asks.erase delta.price }
      else { book with asks := book.asks.insert delta.price delta.volume }

/-- `clear`. -/
def clear (book : OrderBook P) : OrderBook P :=
  { book with
    bids := OrderedMap.empty
    asks := OrderedMap.empty
    sequence := 0
    updatesApplied := 0
    levelsRemoved := 0 }

/-- `bid_levels`. -/
def bidLevels (book : OrderBook P) : ℕ := book.bids.size

/-- `ask_levels`. -/
def askLevels (book : OrderBook P) : ℕ := book.asks.size

/-- `snapshot`; `strncpy` copies the symbol once more. -/
def snapshot (book : OrderBook P) : BookSnapshot P where
  symbol := Vector.ofFn fun i ↦ if i.val < 7 then book.symbol.key.getD i 0 else 0
  bids := (book.bids.entries.reverse).map fun level ↦ ⟨level.1, level.2⟩
  asks := book.asks.entries.map fun level ↦ ⟨level.1, level.2⟩
  sequence := book.sequence

section Prices

variable [Zero P]

/-- `best_bid`: the highest bid, zero when there is none. -/
def bestBid (book : OrderBook P) : P := (book.bids.last?.map Prod.fst).getD 0

/-- `best_ask`: the lowest ask, zero when there is none. -/
def bestAsk (book : OrderBook P) : P := (book.asks.first?.map Prod.fst).getD 0

/-- `top_of_book`, with the subtraction the spread is computed by. -/
def topOfBook (sub : P → P → P) (book : OrderBook P) : TopOfBook P where
  symbol := book.symbol
  bestBid := book.bestBid
  bidVolume := (book.bids.last?.map Prod.snd).getD 0
  bestAsk := book.bestAsk
  askVolume := (book.asks.first?.map Prod.snd).getD 0
  spread := if 0 < book.bestBid ∧ 0 < book.bestAsk then sub book.bestAsk book.bestBid else 0

end Prices

/-- No levels on either side. -/
def IsEmpty (book : OrderBook P) : Prop := book.bids.entries = [] ∧ book.asks.entries = []

theorem isEmpty_new (symbol : List UInt8) : (new symbol : OrderBook P).IsEmpty := ⟨rfl, rfl⟩

theorem isEmpty_clear (book : OrderBook P) : book.clear.IsEmpty := ⟨rfl, rfl⟩

/-! ### What an update can do -/

/-- The levels of one side. -/
def levels (book : OrderBook P) : OrderSide → OrderedMap P UInt64
  | .bid => book.bids
  | .ask => book.asks

@[simp] theorem levels_bid (book : OrderBook P) : book.levels .bid = book.bids := rfl

@[simp] theorem levels_ask (book : OrderBook P) : book.levels .ask = book.asks := rfl

/-- **The guard, in the words of its comment**: bid above the lowest ask, or ask below the highest
bid. -/
theorem refuses_iff {book : OrderBook P} {delta : BookDelta P} :
    book.refuses delta = true ↔ 0 < delta.volume ∧
      ((delta.side = .bid ∧ ∃ level ∈ book.asks.first?, level.1 < delta.price) ∨
        (delta.side = .ask ∧ ∃ level ∈ book.bids.last?, delta.price < level.1)) := by
  rw [refuses, Bool.and_eq_true, decide_eq_true_iff]
  cases delta.side <;> simp [Option.any_eq_true]

/-- **The three things an update does to the levels**: nothing, when refused; set one level; remove
one level. -/
theorem apply_cases (book : OrderBook P) (delta : BookDelta P) :
    (book.refuses delta = true ∧ (book.apply delta).levels = book.levels) ∨
      (book.refuses delta = false ∧ 0 < delta.volume ∧
        (book.apply delta).levels = Function.update book.levels delta.side
          ((book.levels delta.side).insert delta.price delta.volume)) ∨
      (delta.volume = 0 ∧
        (book.apply delta).levels = Function.update book.levels delta.side
          ((book.levels delta.side).erase delta.price)) := by
  have hpos : 0 < delta.volume ↔ delta.volume ≠ 0 := UInt64.pos_iff_ne_zero
  by_cases hr : book.refuses delta = true
  · refine Or.inl ⟨hr, funext fun side ↦ ?_⟩
    have hr' : ({ book with
        sequence := book.sequence + 1
        updatesApplied := book.updatesApplied + 1 } : OrderBook P).refuses delta = true := hr
    rw [apply, if_pos hr']
    cases side <;> rfl
  · have hr' : ¬ ({ book with
        sequence := book.sequence + 1
        updatesApplied := book.updatesApplied + 1 } : OrderBook P).refuses delta = true := hr
    right
    by_cases hv : delta.volume = 0
    · refine Or.inr ⟨hv, funext fun side ↦ ?_⟩
      rw [apply, if_neg hr']
      cases hside : delta.side <;> cases side <;> simp [hv, levels, Function.update]
    · refine Or.inl ⟨by simpa using hr, hpos.2 hv, funext fun side ↦ ?_⟩
      rw [apply, if_neg hr']
      cases hside : delta.side <;> cases side <;> simp [hv, levels, Function.update]

/-- **An update leaves the other side.** -/
theorem levels_apply_of_ne (book : OrderBook P) (delta : BookDelta P) {side : OrderSide}
    (hside : side ≠ delta.side) : (book.apply delta).levels side = book.levels side := by
  rcases book.apply_cases delta with ⟨-, hl⟩ | ⟨-, -, hl⟩ | ⟨-, hl⟩
  · rw [hl]
  · rw [hl, Function.update_of_ne hside]
  · rw [hl, Function.update_of_ne hside]

/-- **Every update is counted**, refused or not. -/
theorem updatesApplied_apply (book : OrderBook P) (delta : BookDelta P) :
    (book.apply delta).updatesApplied = book.updatesApplied + 1 := by
  simp only [apply]
  split_ifs
  · rfl
  · cases delta.side <;> rfl
  · cases delta.side <;> rfl

/-- A book keeps its name. -/
theorem symbol_apply (book : OrderBook P) (delta : BookDelta P) :
    (book.apply delta).symbol = book.symbol := by
  simp only [apply]
  split_ifs
  · rfl
  · cases delta.side <;> rfl
  · cases delta.side <;> rfl

/-- An update the guard lets through sets its level and no other. -/
theorem levels_apply_of_not_refuses {book : OrderBook P} {delta : BookDelta P}
    (hv : 0 < delta.volume) (hr : book.refuses delta = false) :
    (book.apply delta).levels = Function.update book.levels delta.side
      ((book.levels delta.side).insert delta.price delta.volume) := by
  rcases book.apply_cases delta with ⟨h, -⟩ | ⟨-, -, h⟩ | ⟨h, -⟩
  · rw [hr] at h
    exact absurd h (by simp)
  · exact h
  · rw [h] at hv
    exact absurd hv (by decide)

/-- A refused update leaves the levels. -/
theorem levels_apply_of_refuses {book : OrderBook P} {delta : BookDelta P}
    (hr : book.refuses delta = true) : (book.apply delta).levels = book.levels := by
  rcases book.apply_cases delta with ⟨-, h⟩ | ⟨h, -⟩ | ⟨h, -⟩
  · exact h
  · rw [hr] at h
    exact absurd h (by simp)
  · have := (refuses_iff.1 hr).1
    rw [h] at this
    exact absurd this (by decide)

/-- The sides after a refused update. -/
theorem sides_apply_of_refuses {book : OrderBook P} {delta : BookDelta P}
    (hr : book.refuses delta = true) :
    (book.apply delta).bids = book.bids ∧ (book.apply delta).asks = book.asks := by
  have hlevels := levels_apply_of_refuses hr
  exact ⟨congrFun hlevels .bid, congrFun hlevels .ask⟩

/-- The sides after an accepted bid. -/
theorem sides_apply_of_bid {book : OrderBook P} {delta : BookDelta P} (hside : delta.side = .bid)
    (hv : 0 < delta.volume) (hr : book.refuses delta = false) :
    (book.apply delta).bids = book.bids.insert delta.price delta.volume ∧
      (book.apply delta).asks = book.asks := by
  have hlevels := levels_apply_of_not_refuses hv hr
  rw [hside] at hlevels
  exact ⟨congrFun hlevels .bid, congrFun hlevels .ask⟩

/-- The sides after an accepted ask. -/
theorem sides_apply_of_ask {book : OrderBook P} {delta : BookDelta P} (hside : delta.side = .ask)
    (hv : 0 < delta.volume) (hr : book.refuses delta = false) :
    (book.apply delta).bids = book.bids ∧
      (book.apply delta).asks = book.asks.insert delta.price delta.volume := by
  have hlevels := levels_apply_of_not_refuses hv hr
  rw [hside] at hlevels
  exact ⟨congrFun hlevels .bid, congrFun hlevels .ask⟩

/-- The levels after an accepted update: the new one, and the old ones elsewhere. -/
theorem mem_levels_apply_iff {book : OrderBook P} {delta : BookDelta P} (hv : 0 < delta.volume)
    (hr : book.refuses delta = false) {side : OrderSide} {p : P} {w : UInt64} :
    (p, w) ∈ ((book.apply delta).levels side).entries ↔
      (side = delta.side ∧ p = delta.price ∧ w = delta.volume) ∨
        (¬ (side = delta.side ∧ p = delta.price) ∧ (p, w) ∈ (book.levels side).entries) := by
  rw [levels_apply_of_not_refuses hv hr]
  by_cases hside : side = delta.side
  · subst hside
    rw [Function.update_self, OrderedMap.mem_insert_iff]
    simp
  · rw [Function.update_of_ne hside]
    simp [hside]

/-- A positive-volume update does not count as a removal. -/
theorem levelsRemoved_apply {book : OrderBook P} {delta : BookDelta P} (hv : 0 < delta.volume) :
    (book.apply delta).levelsRemoved = book.levelsRemoved := by
  have hne : delta.volume ≠ 0 := UInt64.pos_iff_ne_zero.1 hv
  simp only [apply, hne, if_false]
  split
  · rfl
  · cases delta.side <;> rfl

/-- **A positive-volume update removes no price**, refused or not. -/
theorem exists_mem_levels_apply {book : OrderBook P} {delta : BookDelta P} (hv : 0 < delta.volume)
    {side : OrderSide} {level : P × UInt64} (h : level ∈ (book.levels side).entries) :
    ∃ w, (level.1, w) ∈ ((book.apply delta).levels side).entries := by
  cases hr : book.refuses delta with
  | true => exact ⟨level.2, by rwa [levels_apply_of_refuses hr]⟩
  | false =>
    by_cases hnew : side = delta.side ∧ level.1 = delta.price
    · exact ⟨delta.volume, (mem_levels_apply_iff hv hr).2 (Or.inl ⟨hnew.1, hnew.2, rfl⟩)⟩
    · exact ⟨level.2, (mem_levels_apply_iff hv hr).2 (Or.inr ⟨hnew, h⟩)⟩

/-- Every level after an update was there or is the one the update is about. -/
theorem fst_of_mem_levels_apply {book : OrderBook P} {delta : BookDelta P} {side : OrderSide}
    {level : P × UInt64} (h : level ∈ ((book.apply delta).levels side).entries) :
    level ∈ (book.levels side).entries ∨ (side = delta.side ∧ level.1 = delta.price) := by
  rcases book.apply_cases delta with ⟨-, hl⟩ | ⟨hr, hv, -⟩ | ⟨-, hl⟩
  · exact Or.inl (hl ▸ h)
  · rcases (mem_levels_apply_iff hv hr).1 h with ⟨hside, hprice, -⟩ | ⟨-, hold⟩
    · exact Or.inr ⟨hside, hprice⟩
    · exact Or.inl hold
  · rw [hl] at h
    by_cases hside : side = delta.side
    · subst hside
      rw [Function.update_self] at h
      exact Or.inl (OrderedMap.mem_erase_iff.1 h).2
    · rw [Function.update_of_ne hside] at h
      exact Or.inl h

/-! ### Safety -/

/-- No bid above an ask, and volume at every level. -/
structure Safe (book : OrderBook P) : Prop where
  /-- The sides do not cross. -/
  noCross : ∀ b ∈ book.bids.entries, ∀ a ∈ book.asks.entries, b.1 ≤ a.1
  /-- Every level holds volume. -/
  volume_pos : ∀ side, ∀ level ∈ (book.levels side).entries, 0 < level.2

theorem safe_new (symbol : List UInt8) : (new symbol : OrderBook P).Safe where
  noCross := fun b hb ↦ absurd hb List.not_mem_nil
  volume_pos := fun side level h ↦ by cases side <;> exact absurd h List.not_mem_nil

theorem safe_clear (book : OrderBook P) : book.clear.Safe where
  noCross := fun b hb ↦ absurd hb List.not_mem_nil
  volume_pos := fun side level h ↦ by cases side <;> exact absurd h List.not_mem_nil

/-- A bid the guard lets through is below every ask. -/
theorem le_ask_of_not_refuses {book : OrderBook P} {delta : BookDelta P} (hv : 0 < delta.volume)
    (hside : delta.side = .bid) (hr : book.refuses delta = false) :
    ∀ a ∈ book.asks.entries, delta.price ≤ a.1 := by
  intro a ha
  by_contra hlt
  rcases hfirst : book.asks.first? with - | level
  · rw [OrderedMap.first?_eq_none_iff] at hfirst
    rw [hfirst] at ha
    exact absurd ha List.not_mem_nil
  · have hle := (OrderedMap.first?_eq_some_iff.1 hfirst).2 a ha
    have : book.refuses delta = true :=
      refuses_iff.2 ⟨hv, Or.inl ⟨hside, level, hfirst, lt_of_le_of_lt hle (not_le.1 hlt)⟩⟩
    rw [hr] at this
    exact absurd this (by simp)

/-- An ask the guard lets through is above every bid. -/
theorem bid_le_of_not_refuses {book : OrderBook P} {delta : BookDelta P} (hv : 0 < delta.volume)
    (hside : delta.side = .ask) (hr : book.refuses delta = false) :
    ∀ b ∈ book.bids.entries, b.1 ≤ delta.price := by
  intro b hb
  by_contra hlt
  rcases hlast : book.bids.last? with - | level
  · rw [OrderedMap.last?_eq_none_iff] at hlast
    rw [hlast] at hb
    exact absurd hb List.not_mem_nil
  · have hle := (OrderedMap.last?_eq_some_iff.1 hlast).2 b hb
    have : book.refuses delta = true :=
      refuses_iff.2 ⟨hv, Or.inr ⟨hside, level, hlast, lt_of_lt_of_le (not_le.1 hlt) hle⟩⟩
    rw [hr] at this
    exact absurd this (by simp)

/-- **An update keeps the book safe.** -/
theorem Safe.apply {book : OrderBook P} (h : book.Safe) (delta : BookDelta P) :
    (book.apply delta).Safe := by
  rcases book.apply_cases delta with ⟨hr, hl⟩ | ⟨hr, hv, hl⟩ | ⟨-, hl⟩
  · obtain ⟨hb, ha⟩ := sides_apply_of_refuses hr
    exact ⟨by rw [hb, ha]; exact h.noCross, by rw [hl]; exact h.volume_pos⟩
  · -- the guard compared the new price with the best of the other side
    constructor
    · rintro ⟨b, v⟩ hbm ⟨a, w⟩ ham
      rw [← levels_bid, mem_levels_apply_iff hv hr] at hbm
      rw [← levels_ask, mem_levels_apply_iff hv hr] at ham
      rcases hbm with ⟨hside, rfl, -⟩ | ⟨-, hbm⟩
      · rcases ham with ⟨hside', -⟩ | ⟨-, ham⟩
        · rw [← hside] at hside'
          exact absurd hside' (by decide)
        · exact le_ask_of_not_refuses hv hside.symm hr _ ham
      · rcases ham with ⟨hside, rfl, -⟩ | ⟨-, ham⟩
        · exact bid_le_of_not_refuses hv hside.symm hr _ hbm
        · exact h.noCross _ hbm _ ham
    · rintro side ⟨p, w⟩ hmem
      rcases (mem_levels_apply_iff hv hr).1 hmem with ⟨-, -, rfl⟩ | ⟨-, hold⟩
      · exact hv
      · exact h.volume_pos _ _ hold
  · -- a removal only takes levels away
    have hsub : ∀ side, ∀ level ∈ ((book.apply delta).levels side).entries,
        level ∈ (book.levels side).entries := by
      rintro side ⟨p, w⟩ hmem
      rw [hl] at hmem
      by_cases hside : side = delta.side
      · subst hside
        rw [Function.update_self] at hmem
        exact (OrderedMap.mem_erase_iff.1 hmem).2
      · rwa [Function.update_of_ne hside] at hmem
    exact ⟨fun b hb a ha ↦ h.noCross b (hsub .bid b hb) a (hsub .ask a ha),
      fun side level hlevel ↦ h.volume_pos side level (hsub side level hlevel)⟩

/-! ### Whole runs -/

/-- The mutating operations of a book. -/
inductive Op (P : Type*) where
  | apply (delta : BookDelta P)
  | clear

/-- One operation. -/
def step (book : OrderBook P) : Op P → OrderBook P
  | .apply delta => book.apply delta
  | .clear => book.clear

/-- **Every reachable book is safe.** -/
theorem safe_of_run (symbol : List UInt8) (ops : List (Op P)) :
    (ops.foldl step (new symbol)).Safe := by
  induction ops using List.reverseRecOn with
  | nil => exact safe_new symbol
  | append_singleton ops op ih =>
    rw [List.foldl_append]
    cases op with
    | apply delta => exact ih.apply delta
    | clear => exact safe_clear _

section BestPrices

variable [Zero P] {book : OrderBook P}

theorem bestBid_of_last? {level : P × UInt64} (h : book.bids.last? = some level) :
    book.bestBid = level.1 := by
  rw [bestBid, h, Option.map_some, Option.getD_some]

theorem bestAsk_of_first? {level : P × UInt64} (h : book.asks.first? = some level) :
    book.bestAsk = level.1 := by
  rw [bestAsk, h, Option.map_some, Option.getD_some]

theorem bestBid_of_bids_nil (h : book.bids.entries = []) : book.bestBid = 0 := by
  rw [bestBid, OrderedMap.last?_eq_none_iff.2 h, Option.map_none, Option.getD_none]

theorem bestAsk_of_asks_nil (h : book.asks.entries = []) : book.bestAsk = 0 := by
  rw [bestAsk, OrderedMap.first?_eq_none_iff.2 h, Option.map_none, Option.getD_none]

/-- The best prices of a safe two-sided book are ordered. -/
theorem Safe.bestBid_le_bestAsk (h : book.Safe) (hb : book.bids.entries ≠ [])
    (ha : book.asks.entries ≠ []) : book.bestBid ≤ book.bestAsk := by
  obtain ⟨b, hlast⟩ := OrderedMap.exists_last?_eq_some hb
  obtain ⟨a, hfirst⟩ := OrderedMap.exists_first?_eq_some ha
  rw [bestBid_of_last? hlast, bestAsk_of_first? hfirst]
  exact h.noCross b (OrderedMap.last?_eq_some_iff.1 hlast).1 a
    (OrderedMap.first?_eq_some_iff.1 hfirst).1

end BestPrices

/-- **Order book safety over whole runs.** After any sequence of `apply` and `clear` calls from a
new book: every bid price is at most every ask price, so the best prices are ordered when both sides
have levels; every level holds volume; and a further positive-volume delta is refused, changing no
level, exactly when it is a bid strictly above the lowest ask or an ask strictly below the highest
bid, and sets its level and no other otherwise. -/
theorem run_safe_and_refuses_exactly_crossing [Zero P] (symbol : List UInt8) (ops : List (Op P)) :
    let book := ops.foldl step (new symbol)
    (∀ b ∈ book.bids.entries, ∀ a ∈ book.asks.entries, b.1 ≤ a.1) ∧
      (book.bids.entries ≠ [] → book.asks.entries ≠ [] → book.bestBid ≤ book.bestAsk) ∧
      (∀ side, ∀ level ∈ (book.levels side).entries, 0 < level.2) ∧
      ∀ delta : BookDelta P, 0 < delta.volume →
        let crossing :=
          (delta.side = .bid ∧ ∃ level ∈ book.asks.first?, level.1 < delta.price) ∨
            (delta.side = .ask ∧ ∃ level ∈ book.bids.last?, delta.price < level.1)
        (book.refuses delta = true ↔ crossing) ∧
          (crossing → (book.apply delta).bids = book.bids ∧ (book.apply delta).asks = book.asks) ∧
          (¬ crossing → (book.apply delta).levels = Function.update book.levels delta.side
            ((book.levels delta.side).insert delta.price delta.volume)) := by
  intro book
  have hsafe := safe_of_run symbol ops
  refine ⟨hsafe.noCross, hsafe.bestBid_le_bestAsk, hsafe.volume_pos, fun delta hv ↦ ⟨?_, ?_, ?_⟩⟩
  · exact ⟨fun hr ↦ (refuses_iff.1 hr).2, fun hcross ↦ refuses_iff.2 ⟨hv, hcross⟩⟩
  · intro hcross
    exact sides_apply_of_refuses (refuses_iff.2 ⟨hv, hcross⟩)
  · intro hcross
    refine levels_apply_of_not_refuses hv (Bool.eq_false_iff.2 fun hr ↦ ?_)
    exact hcross (refuses_iff.1 hr).2

end OrderBook

end Mdp
