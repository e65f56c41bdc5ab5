import MarketDataProcessor.Book.BookProcessor
import Mathlib.Tactic.NormNum

/-!
# The top of the book over whole runs

A processor whose ticks all carry volume only ever adds levels. The best prices can then move in one
direction each, inward, and the two meet at most once: when they do, the guard of the book leaves no
room for a further move and the symbol falls silent, since snapshots are sent on moves only.

`OrderBook.Narrows` is the relation between an earlier and a later book of one symbol. It is a
preorder that every positive-volume update extends (`narrows_apply`), so it holds between any two
points of a run (`narrows_of_run`). What a locked book does next, and what a snapshot says about the
spread, both follow from `Narrows` and the safety of the later book.

Nothing here depends on how arithmetic rounds or on which side a tick is given.

## The two halves of the result

* `narrows_apply` is one update with volume on a safe book: a side that is written either keeps its
  best price or improves it, and the guard keeps it from passing the other side. The preorder then
  does the rest: `narrows_of_run` compares any two points of a run, not only neighbours.
* A book that is `Locked` cannot narrow further (`Narrows.best_eq_of_locked`), and snapshots are
  offered on moves only, so a locked symbol sends nothing any more (`not_offered_of_locked`).
  Conversely a snapshot of a two-sided book reports a move inward, which is a smaller spread
  (`spread_lt_of_offered`).

`AddsLevel` is what the second half needs of a tick: a positive price, so that a level differs from
the zero that stands for none, and a truncated volume of at least one, so that no tick removes.
-/

namespace Mdp

namespace OrderBook

/-! ### Moving inward -/

section Narrows

variable {P : Type*} [LinearOrder P] [Zero P] {old mid new : OrderBook P}

/-- The later book kept every side it had, with best prices that did not move outward. -/
structure Narrows (old new : OrderBook P) : Prop where
  /-- The best bid did not fall. -/
  bids : old.bids.entries ≠ [] → new.bids.entries ≠ [] ∧ old.bestBid ≤ new.bestBid
  /-- The best ask did not rise. -/
  asks : old.asks.entries ≠ [] → new.asks.entries ≠ [] ∧ new.bestAsk ≤ old.bestAsk

theorem Narrows.refl (book : OrderBook P) : book.Narrows book :=
  ⟨fun h ↦ ⟨h, le_rfl⟩, fun h ↦ ⟨h, le_rfl⟩⟩

theorem Narrows.trans (h : old.Narrows mid) (h' : mid.Narrows new) : old.Narrows new := by
  constructor
  · intro hb
    obtain ⟨hmid, hle⟩ := h.bids hb
    obtain ⟨hnew, hle'⟩ := h'.bids hmid
    exact ⟨hnew, hle.trans hle'⟩
  · intro ha
    obtain ⟨hmid, hle⟩ := h.asks ha
    obtain ⟨hnew, hle'⟩ := h'.asks hmid
    exact ⟨hnew, hle'.trans hle⟩

/-- **A positive-volume update narrows the book**, refused or not. -/
theorem narrows_apply (book : OrderBook P) {delta : BookDelta P} (hv : 0 < delta.volume) :
    book.Narrows (book.apply delta) := by
  constructor
  · -- the old best bid keeps its price as a level, and the new one is the greatest
    intro hb
    obtain ⟨b, hlast⟩ := OrderedMap.exists_last?_eq_some hb
    have hmem : b ∈ (book.levels .bid).entries := (OrderedMap.last?_eq_some_iff.1 hlast).1
    obtain ⟨w, hkept⟩ := exists_mem_levels_apply hv hmem
    have hne : (book.apply delta).bids.entries ≠ [] := List.ne_nil_of_mem hkept
    obtain ⟨b', hlast'⟩ := OrderedMap.exists_last?_eq_some hne
    rw [bestBid_of_last? hlast, bestBid_of_last? hlast']
    exact ⟨hne, (OrderedMap.last?_eq_some_iff.1 hlast').2 (b.1, w) hkept⟩
  · intro ha
    obtain ⟨a, hfirst⟩ := OrderedMap.exists_first?_eq_some ha
    have hmem : a ∈ (book.levels .ask).entries := (OrderedMap.first?_eq_some_iff.1 hfirst).1
    obtain ⟨w, hkept⟩ := exists_mem_levels_apply hv hmem
    have hne : (book.apply delta).asks.entries ≠ [] := List.ne_nil_of_mem hkept
    obtain ⟨a', hfirst'⟩ := OrderedMap.exists_first?_eq_some hne
    rw [bestAsk_of_first? hfirst, bestAsk_of_first? hfirst']
    exact ⟨hne, (OrderedMap.first?_eq_some_iff.1 hfirst').2 (a.1, w) hkept⟩

/-- Both sides have levels. -/
def TwoSided (book : OrderBook P) : Prop := book.bids.entries ≠ [] ∧ book.asks.entries ≠ []

/-- Both sides have levels and their best prices have met. -/
def Locked (book : OrderBook P) : Prop := book.TwoSided ∧ book.bestBid = book.bestAsk

theorem Narrows.twoSided (h : old.Narrows new) (hold : old.TwoSided) : new.TwoSided :=
  ⟨(h.bids hold.1).1, (h.asks hold.2).1⟩

/-- **A locked book has nowhere to go.** -/
theorem Narrows.best_eq_of_locked (h : old.Narrows new) (hsafe : new.Safe) (hold : old.Locked) :
    new.bestBid = old.bestBid ∧ new.bestAsk = old.bestAsk := by
  obtain ⟨htwo, hlock⟩ := hold
  have hb := (h.bids htwo.1).2
  have ha := (h.asks htwo.2).2
  have hmeet := hsafe.bestBid_le_bestAsk (h.twoSided htwo).1 (h.twoSided htwo).2
  -- the later best prices lie between the earlier ones, which are equal
  refine ⟨le_antisymm ?_ hb, le_antisymm ha ?_⟩
  · exact hmeet.trans (ha.trans hlock.ge)
  · exact hlock.ge.trans (hb.trans hmeet)

theorem Narrows.locked (h : old.Narrows new) (hsafe : new.Safe) (hold : old.Locked) :
    new.Locked := by
  obtain ⟨hb, ha⟩ := h.best_eq_of_locked hsafe hold
  exact ⟨h.twoSided hold.1, by rw [hb, ha, hold.2]⟩

end Narrows

end OrderBook

namespace BookProcessor

open Double OrderBook MarketTick

/-- What the results of this module ask of a tick: a positive price and a truncated volume of at
least one. -/
def AddsLevel (fl : FloatEnv) (tick : MarketTick) : Prop :=
  (∃ p : ℚ, 0 < p ∧ tick.price = fin p) ∧ 1 ≤ fl.toUInt64 tick.volume

variable {fl : FloatEnv} {bp : BookProcessor} {tick : MarketTick} {symbol : List UInt8}

theorem AddsLevel.volume_pos (h : AddsLevel fl tick) : 0 < (bp.deltaOf fl tick).volume :=
  UInt64.lt_of_lt_of_le (by decide) h.2

/-! ### Books along a run -/

/-- A safe book whose prices are positive numbers. -/
structure Positive (book : OrderBook Double) : Prop where
  /-- The sides do not cross and every level holds volume. -/
  safe : book.Safe
  /-- Prices are finite and positive. -/
  price_pos : ∀ side, ∀ level ∈ (book.levels side).entries, ∃ q : ℚ, 0 < q ∧ level.1 = fin q

theorem positive_new (symbol : List UInt8) : Positive (OrderBook.new symbol) :=
  ⟨safe_new symbol, fun side level h ↦ by cases side <;> exact absurd h List.not_mem_nil⟩

namespace Positive

variable {book : OrderBook Double}

theorem apply (h : Positive book) {delta : BookDelta Double}
    (hp : ∃ p : ℚ, 0 < p ∧ delta.price = fin p) : Positive (book.apply delta) := by
  refine ⟨h.safe.apply delta, fun side level hlevel ↦ ?_⟩
  rcases fst_of_mem_levels_apply hlevel with hold | ⟨-, hnew⟩
  · exact h.price_pos side level hold
  · exact hnew ▸ hp

theorem exists_bestBid (h : Positive book) (hb : book.bids.entries ≠ []) :
    ∃ b v, 0 < b ∧ book.bids.last? = some (fin b, v) ∧ book.bestBid = fin b := by
  obtain ⟨⟨x, v⟩, hlast⟩ := OrderedMap.exists_last?_eq_some hb
  obtain ⟨b, hpos, hx : x = fin b⟩ := h.price_pos .bid _ (OrderedMap.last?_eq_some_iff.1 hlast).1
  subst hx
  exact ⟨b, v, hpos, hlast, bestBid_of_last? hlast⟩

theorem exists_bestAsk (h : Positive book) (ha : book.asks.entries ≠ []) :
    ∃ a w, 0 < a ∧ book.asks.first? = some (fin a, w) ∧ book.bestAsk = fin a := by
  obtain ⟨⟨x, w⟩, hfirst⟩ := OrderedMap.exists_first?_eq_some ha
  obtain ⟨a, hpos, hx : x = fin a⟩ := h.price_pos .ask _ (OrderedMap.first?_eq_some_iff.1 hfirst).1
  subst hx
  exact ⟨a, w, hpos, hfirst, bestAsk_of_first? hfirst⟩

/-- The best bid is a number, zero when there is none. -/
theorem exists_bestBid_eq_fin (h : Positive book) : ∃ b, book.bestBid = fin b := by
  by_cases hb : book.bids.entries = []
  · exact ⟨0, bestBid_of_bids_nil hb⟩
  · obtain ⟨b, -, -, -, hbest⟩ := h.exists_bestBid hb
    exact ⟨b, hbest⟩

/-- The best ask is a number, zero when there is none. -/
theorem exists_bestAsk_eq_fin (h : Positive book) : ∃ a, book.bestAsk = fin a := by
  by_cases ha : book.asks.entries = []
  · exact ⟨0, bestAsk_of_asks_nil ha⟩
  · obtain ⟨a, -, -, -, hbest⟩ := h.exists_bestAsk ha
    exact ⟨a, hbest⟩

end Positive

/-- Every book is positive. -/
def AllPositive (bp : BookProcessor) : Prop :=
  ∀ symbol book, bp.book symbol = some book → Positive book

theorem AllPositive.bookOf (h : AllPositive bp) (symbol : List UInt8) :
    Positive (bp.bookOf symbol) :=
  bookOf_of_forall_book positive_new h symbol

theorem AllPositive.processTick (hp : ∃ p : ℚ, 0 < p ∧ tick.price = fin p) (h : AllPositive bp) :
    AllPositive (bp.processTick fl tick) :=
  forall_book_processTick positive_new (fun _ hb ↦ hb.apply hp) h

theorem allPositive_fresh (dbQueue signalQueue : Option SnapshotQueue) :
    AllPositive (fresh dbQueue signalQueue) :=
  fun symbol book h ↦ absurd h (by simp [fresh, BookProcessor.book])

/-- **A tick narrows every book**: its own by an update, the others by doing nothing. -/
theorem narrows_processTick (ht : AddsLevel fl tick) (symbol : List UInt8) :
    (bp.bookOf symbol).Narrows ((bp.processTick fl tick).bookOf symbol) := by
  by_cases hk : symbol = tick.symbol.key
  · subst hk
    rw [bookOf_processTick_self]
    exact narrows_apply _ ht.volume_pos
  · rw [BookProcessor.bookOf, BookProcessor.bookOf, book_processTick_of_ne _ _ _ hk]
    exact Narrows.refl _

/-- **Between any two points of a run every book narrowed.** -/
theorem narrows_of_run {ticks : List MarketTick} (ht : ∀ t ∈ ticks, AddsLevel fl t)
    (symbol : List UInt8) :
    (bp.bookOf symbol).Narrows (((offering fl).state bp ticks).bookOf symbol) := by
  refine (offering fl).state_invariant (P := fun s ↦ (bp.bookOf symbol).Narrows (s.bookOf symbol))
    (fun s t hadds h ↦ ?_) ht (Narrows.refl _)
  exact h.trans (narrows_processTick hadds symbol)

/-! ### What a snapshot says -/

/-- A tick that offers a snapshot moved one of the best prices of its symbol. -/
theorem best_ne_of_offered {snap : MarketSnapshot} (h : AllPositive bp)
    (hsnap : snap ∈ bp.offered fl tick) :
    snap.symbol = tick.symbol ∧
      ((bp.bookOf tick.symbol.key).bestBid ≠
          ((bp.processTick fl tick).bookOf tick.symbol.key).bestBid ∨
        (bp.bookOf tick.symbol.key).bestAsk ≠
          ((bp.processTick fl tick).bookOf tick.symbol.key).bestAsk) := by
  rw [bookOf_processTick_self]
  rw [Option.mem_def, offered_eq] at hsnap
  split_ifs at hsnap with hmoved
  obtain ⟨b, hb⟩ := (h.bookOf tick.symbol.key).exists_bestBid_eq_fin
  obtain ⟨a, ha⟩ := (h.bookOf tick.symbol.key).exists_bestAsk_eq_fin
  refine ⟨by rw [← Option.some.inj hsnap]; rfl, ?_⟩
  have hchanged := (Bool.and_eq_true_iff.1 hmoved).2
  simpa [topChanged, feq, topOfBook, hb, ha] using hchanged

/-- **A locked symbol falls silent.** -/
theorem not_offered_of_locked (ht : AddsLevel fl tick) (h : AllPositive bp)
    (hlock : (bp.bookOf symbol).Locked) :
    ∀ snap ∈ bp.offered fl tick, snap.symbol.key ≠ symbol := by
  intro snap hsnap hk
  obtain ⟨hsym, hmoved⟩ := best_ne_of_offered h hsnap
  rw [hsym] at hk
  subst hk
  obtain ⟨hb, ha⟩ := (narrows_processTick ht tick.symbol.key).best_eq_of_locked
    ((h.processTick ht.1).bookOf _).safe hlock
  rcases hmoved with hne | hne
  · exact hne hb.symm
  · exact hne ha.symm

/-- **A snapshot of a two-sided book means a smaller spread.** -/
theorem spread_lt_of_offered (ht : AddsLevel fl tick) (h : AllPositive bp)
    (htwo : (bp.bookOf tick.symbol.key).TwoSided) (hsnap : (bp.offered fl tick).isSome) :
    ∃ b a b' a' : ℚ,
      (bp.bookOf tick.symbol.key).bestBid = fin b ∧ (bp.bookOf tick.symbol.key).bestAsk = fin a ∧
      ((bp.processTick fl tick).bookOf tick.symbol.key).bestBid = fin b' ∧
      ((bp.processTick fl tick).bookOf tick.symbol.key).bestAsk = fin a' ∧ a' - b' < a - b := by
  obtain ⟨snap, hsnap⟩ := Option.isSome_iff_exists.1 hsnap
  obtain ⟨-, hmoved⟩ := best_ne_of_offered h hsnap
  have hnarrow : (bp.bookOf tick.symbol.key).Narrows
      ((bp.processTick fl tick).bookOf tick.symbol.key) := narrows_processTick ht tick.symbol.key
  have hbid := (hnarrow.bids htwo.1).2
  have hask := (hnarrow.asks htwo.2).2
  obtain ⟨b, hb⟩ := (h.bookOf tick.symbol.key).exists_bestBid_eq_fin
  obtain ⟨a, ha⟩ := (h.bookOf tick.symbol.key).exists_bestAsk_eq_fin
  obtain ⟨b', hb'⟩ := ((h.processTick ht.1).bookOf tick.symbol.key).exists_bestBid_eq_fin
  obtain ⟨a', ha'⟩ := ((h.processTick ht.1).bookOf tick.symbol.key).exists_bestAsk_eq_fin
  rw [hb, hb', fin_le_fin] at hbid
  rw [ha, ha', fin_le_fin] at hask
  rw [hb, hb', ha, ha', ne_eq, ne_eq, fin.injEq, fin.injEq] at hmoved
  refine ⟨b, a, b', a', hb, ha, hb', ha', ?_⟩
  rcases hmoved with hne | hne
  · have := lt_of_le_of_ne hbid hne
    linarith
  · have := lt_of_le_of_ne hask (Ne.symm hne)
    linarith

/-- **The top of the book only narrows, and a locked book is frozen.** Between any two points of any
run on ticks that add levels, and for every symbol: a best bid does not fall and a best ask does not
rise; a tick that offers a snapshot of a two-sided book makes its spread strictly smaller; and once
the best prices have met they never change again and no snapshot of the symbol is offered. -/
theorem top_narrows_and_locked_frozen (fl : FloatEnv) (dbQueue signalQueue : Option SnapshotQueue)
    (seen later : List MarketTick) (ht : ∀ t ∈ seen ++ later, AddsLevel fl t)
    (symbol : List UInt8) :
    let before := (offering fl).state (fresh dbQueue signalQueue) seen
    let after := (offering fl).state before later
    ((before.bookOf symbol).bids.entries ≠ [] →
        (after.bookOf symbol).bids.entries ≠ [] ∧
          (before.bookOf symbol).bestBid ≤ (after.bookOf symbol).bestBid) ∧
      ((before.bookOf symbol).asks.entries ≠ [] →
        (after.bookOf symbol).asks.entries ≠ [] ∧
          (after.bookOf symbol).bestAsk ≤ (before.bookOf symbol).bestAsk) ∧
      (∀ tick rest, later = tick :: rest → tick.symbol.key = symbol →
        (before.bookOf symbol).TwoSided → (before.offered fl tick).isSome →
        ∃ b a b' a' : ℚ,
          (before.bookOf symbol).bestBid = fin b ∧ (before.bookOf symbol).bestAsk = fin a ∧
          ((before.processTick fl tick).bookOf symbol).bestBid = fin b' ∧
          ((before.processTick fl tick).bookOf symbol).bestAsk = fin a' ∧ a' - b' < a - b) ∧
      ((before.bookOf symbol).Locked →
        (after.bookOf symbol).bestBid = (before.bookOf symbol).bestBid ∧
          (after.bookOf symbol).bestAsk = (before.bookOf symbol).bestAsk ∧
          ∀ snap ∈ (offering fl).outputs before later, snap.symbol.key ≠ symbol) := by
  intro before after
  have hlater : ∀ t ∈ later, AddsLevel fl t := fun t h ↦ ht t (List.mem_append_right _ h)
  have hnext : ∀ (bp : BookProcessor) (t : MarketTick), AddsLevel fl t → AllPositive bp →
      AllPositive (bp.processTick fl t) := fun _ _ hadds h ↦ h.processTick hadds.1
  have hbefore : AllPositive before :=
    (offering fl).state_invariant hnext (fun t h ↦ ht t (List.mem_append_left _ h))
      (allPositive_fresh dbQueue signalQueue)
  have hafter : AllPositive after := (offering fl).state_invariant hnext hlater hbefore
  have hnarrow : (before.bookOf symbol).Narrows (after.bookOf symbol) :=
    narrows_of_run hlater symbol
  refine ⟨hnarrow.bids, hnarrow.asks, ?_, fun hlock ↦ ?_⟩
  · rintro tick rest rfl rfl htwo hsnap
    exact spread_lt_of_offered (hlater tick List.mem_cons_self) hbefore htwo hsnap
  · obtain ⟨hb, ha⟩ := hnarrow.best_eq_of_locked (hafter.bookOf symbol).safe hlock
    refine ⟨hb, ha, ?_⟩
    -- the lock itself is the invariant of the silent part of the run
    refine (offering fl).forall_mem_outputs
      (P := fun bp ↦ AllPositive bp ∧ (bp.bookOf symbol).Locked) ?_ ?_ hlater ⟨hbefore, hlock⟩
    · rintro bp t hadds ⟨hpos, hl⟩
      have hpos' := hnext bp t hadds hpos
      exact ⟨hpos', (narrows_processTick hadds symbol).locked (hpos'.bookOf symbol).safe hl⟩
    · rintro bp t hadds ⟨hpos, hl⟩ snap hsnap
      exact not_offered_of_locked hadds hpos hl snap (Option.mem_toList.1 hsnap)

theorem addsLevel_shareOfA {price : ℚ} (h : 0 < price) :
    AddsLevel (FloatEnv.exact fun _ ↦ 0) (shareOfA price) :=
  ⟨⟨price, h, rfl⟩, show 1 ≤ (FloatEnv.exact fun _ ↦ 0).toUInt64 (fin 1) by decide +kernel⟩

/-- Two ticks at 100 lock the book; a tick on either side of it then sends nothing. -/
theorem locked_at_hundred :
    let fl := FloatEnv.exact fun _ ↦ 0
    let before :=
      (offering fl).state (fresh (some BoundedQueue.empty) none) [shareOfA 100, shareOfA 100]
    (before.bookOf [65]).Locked ∧
      ∀ snap ∈ (offering fl).outputs before [shareOfA 105, shareOfA 95],
        snap.symbol.key ≠ [65] := by
  intro fl before
  have hlock : (before.bookOf [65]).Locked :=
    ⟨⟨by decide +kernel, by decide +kernel⟩, by decide +kernel⟩
  have hadds : ∀ t ∈ [shareOfA 100, shareOfA 100] ++ [shareOfA 105, shareOfA 95],
      AddsLevel fl t := by
    rintro t (- | ⟨_, (- | ⟨_, (- | ⟨_, (- | ⟨_, ⟨⟩⟩)⟩)⟩)⟩)
    all_goals exact addsLevel_shareOfA (by norm_num)
  exact ⟨hlock, ((top_narrows_and_locked_frozen fl _ none _ _ hadds [65]).2.2.2 hlock).2.2⟩

end BookProcessor

end Mdp
