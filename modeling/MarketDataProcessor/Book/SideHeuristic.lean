import MarketDataProcessor.Book.TopOfBook
import Mathlib.Tactic.NormNum

/-!
# Does the side heuristic agree with the crossed book guard?

`determine_side` is there to feed the book sides that its guard accepts: when the side read off the
reference price would cross, the reference is reset to the midpoint of the book and the tick judged
again. On a two-sided book this works for every price (`twoSided_side`): the midpoint lies between
the best prices, so the second verdict always fits.

On a book without asks it does not. `best_ask()` returns zero there, the "midpoint" is half of the
best bid, and a price between that and the best bid is sent to the ask side and refused. The ticks
this happens to are described by the state they find (`BetweenReferenceAndBid`), and
`run_placed_iff` shows that nothing else goes wrong along any run.

Arithmetic is exact throughout, prices are those the heuristic considers valid, and every tick has a
positive truncated volume.

## What carries the run

`Tracked` is the invariant of one symbol: a safe book with positive finite prices, and a finite
reference exactly when the book has a bid. It is kept by every regular tick
(`tracked_processTick_self`), and ticks of other symbols leave it alone, so it holds of every symbol
along every run (`allTracked_of_run`).

## When a tick is refused

With the invariant the verdict can be computed. `refuses_judged_iff` reduces the guard to the best
price of the other side, and three cases remain: the first tick of a symbol is a bid that meets no
ask, on a two-sided book the midpoint separates the sides, and without asks
`refuses_iff_of_bidsOnly` leaves exactly the prices between the reference and the best bid.
`run_placed_iff` is then a statement about every tick of every run, with the condition read in the
state the tick finds.
-/

namespace Mdp

namespace BookProcessor

open Double MarketTick

variable (c : Double → UInt64)

/-! ### The verdict on a book with known best prices -/

section Judge

variable {c} {book : OrderBook Double} {p r b a : ℚ}

/-- A price the heuristic considers. -/
def ValidPrice (p : ℚ) : Prop := 1 / 10 ≤ p ∧ p ≤ 1000000

instance (p : ℚ) : Decidable (ValidPrice p) := inferInstanceAs (Decidable (_ ∧ _))

theorem ValidPrice.inRange (hp : ValidPrice p) :
    (flt (fin p) (kMinValidPrice (FloatEnv.exact c)) ||
      flt (kMaxValidPrice (FloatEnv.exact c)) (fin p)) = false := by
  rw [kMinValidPrice, kMaxValidPrice, FloatEnv.exact_round, FloatEnv.exact_round, flt_fin, flt_fin,
    decide_eq_false (not_lt.2 hp.1), decide_eq_false (not_lt.2 hp.2)]
  rfl

/-- The first tick of a symbol is a bid. -/
theorem judge_first (hp : ValidPrice p) :
    judge (FloatEnv.exact c) book none (fin p) = (.bid, some (fin p)) := by
  rw [judge, hp.inRange]
  rfl

theorem judge_known (hp : ValidPrice p) :
    judge (FloatEnv.exact c) book (some (fin r)) (fin p) =
      ((classify (FloatEnv.exact c) (some book) (fin p) (fin r)).1,
        some (blend (FloatEnv.exact c) (fin p)
          (classify (FloatEnv.exact c) (some book) (fin p) (fin r)).2)) := by
  rw [judge, hp.inRange]
  rfl

theorem resetReference_fin (hb : book.bestBid = fin b) (ha : book.bestAsk = fin a) :
    resetReference (FloatEnv.exact c) book = fin ((b + a) / 2) := by
  rw [resetReference, hb, ha, FloatEnv.exact_add_fin, FloatEnv.exact_divBy_fin]

/-- **Without asks the second verdict is against half the best bid.** -/
theorem bidsOnly_side (hb : book.bestBid = fin b) (ha : book.bestAsk = 0) (hpos : 0 < b) :
    (classify (FloatEnv.exact c) (some book) (fin p) (fin r)).1 =
      if p < r ∨ 2 * p < b then .bid else .ask := by
  rw [classify, resetReference_fin hb (ha.trans zero_def), add_zero]
  by_cases hlt : p < r
  · simp [sideAgainst, hlt, wouldCross, ha, zero_def]
  · by_cases hle : p ≤ b
    · have hhalf : p < b / 2 ↔ 2 * p < b := by constructor <;> intro h <;> linarith
      simp [sideAgainst, hlt, wouldCross, hb, zero_def, hpos, hle, hhalf]
    · have hhalf : ¬ 2 * p < b := by linarith
      simp [sideAgainst, hlt, wouldCross, hb, hle, hhalf]

/-- **On a two-sided book the verdict always fits.** -/
theorem twoSided_side (hb : book.bestBid = fin b) (ha : book.bestAsk = fin a) (hpos : 0 < b)
    (hba : b ≤ a) :
    ((classify (FloatEnv.exact c) (some book) (fin p) (fin r)).1 = .bid → p ≤ a) ∧
      ((classify (FloatEnv.exact c) (some book) (fin p) (fin r)).1 = .ask → b ≤ p) := by
  have hapos : 0 < a := lt_of_lt_of_le hpos hba
  rw [classify, resetReference_fin hb ha]
  by_cases hlt : p < r
  · by_cases hcross : a ≤ p
    · -- a bid at or above the asks: the midpoint is not above the price
      have hmid : ¬ p < (b + a) / 2 := by linarith
      simp [sideAgainst, hlt, wouldCross, ha, zero_def, hapos, hcross, hmid, hba.trans hcross]
    · simp [sideAgainst, hlt, wouldCross, ha, hcross, le_of_lt (not_le.1 hcross)]
  · by_cases hcross : p ≤ b
    · -- an ask at or below the bids: the midpoint is not below the price
      by_cases hmid : p < (b + a) / 2
      · simp [sideAgainst, hlt, wouldCross, hb, zero_def, hpos, hcross, hmid, hcross.trans hba]
      · have : b ≤ p := by linarith
        simp [sideAgainst, hlt, wouldCross, hb, zero_def, hpos, hcross, hmid, this]
    · simp [sideAgainst, hlt, wouldCross, hb, hcross, le_of_lt (not_le.1 hcross)]

/-- With finite best prices the reference stays finite. -/
theorem exists_judge_snd (hp : ValidPrice p) (hb : book.bestBid = fin b)
    (ha : book.bestAsk = fin a) :
    ∃ q, (judge (FloatEnv.exact c) book (some (fin r)) (fin p)).2 = some (fin q) := by
  have hblend : ∀ q, ∃ q', blend (FloatEnv.exact c) (fin p) (fin q) = fin q' := fun q ↦ ⟨_, rfl⟩
  rw [judge_known hp, classify, resetReference_fin hb ha]
  split_ifs
  · obtain ⟨q, hq⟩ := hblend ((b + a) / 2)
    exact ⟨q, congrArg some hq⟩
  · obtain ⟨q, hq⟩ := hblend r
    exact ⟨q, congrArg some hq⟩

end Judge

/-! ### What runs preserve -/

/-- The book and the reference of one symbol: positive prices on a safe book, and a reference
exactly when there are bids. Before the first tick there is neither. -/
structure Tracked (book : OrderBook Double) (ref : Option Double) : Prop where
  /-- The book is safe and its prices are positive. -/
  positive : Positive book
  /-- The reference is finite and comes with bids. -/
  known : (ref = none ∧ book.bids.entries = [] ∧ book.asks.entries = []) ∨
    ((∃ r, ref = some (fin r)) ∧ book.bids.entries ≠ [])

theorem tracked_new (symbol : List UInt8) : Tracked (OrderBook.new symbol) none where
  positive := positive_new symbol
  known := Or.inl ⟨rfl, rfl, rfl⟩

/-- Every symbol is tracked. -/
def AllTracked (bp : BookProcessor) : Prop :=
  ∀ symbol, Tracked (bp.bookOf symbol) (bp.reference symbol)

theorem allTracked_fresh (dbQueue signalQueue : Option SnapshotQueue) :
    AllTracked (fresh dbQueue signalQueue) :=
  fun symbol ↦ tracked_new symbol

/-- What the results of this module ask of a tick: a valid price and a truncated volume of at least
one. -/
def Regular (tick : MarketTick) : Prop :=
  (∃ p, tick.price = fin p ∧ ValidPrice p) ∧ 1 ≤ (FloatEnv.exact c).toUInt64 tick.volume

variable {c} {bp : BookProcessor} {tick : MarketTick}

theorem Regular.volume_pos (h : Regular c tick) :
    0 < (bp.deltaOf (FloatEnv.exact c) tick).volume :=
  UInt64.lt_of_lt_of_le (by decide) h.2

theorem side_of_first (hreg : Regular c tick) (href : bp.reference tick.symbol.key = none) :
    (bp.deltaOf (FloatEnv.exact c) tick).side = .bid := by
  obtain ⟨p, hprice, hp⟩ := hreg.1
  show (judge _ _ _ _).1 = _
  rw [href, hprice, judge_first hp]

/-- The first tick of a symbol is a bid that meets no ask. -/
theorem not_refuses_of_first (hreg : Regular c tick) (href : bp.reference tick.symbol.key = none)
    (hasks : (bp.bookOf tick.symbol.key).asks.entries = []) :
    ¬ (bp.bookOf tick.symbol.key).refuses (bp.deltaOf (FloatEnv.exact c) tick) = true := by
  rw [OrderBook.refuses_iff, side_of_first hreg href, OrderedMap.first?_eq_none_iff.2 hasks]
  simp

/-- **A regular tick keeps its symbol tracked.** -/
theorem tracked_processTick_self (hreg : Regular c tick)
    (h : Tracked (bp.bookOf tick.symbol.key) (bp.reference tick.symbol.key)) :
    Tracked ((bp.processTick (FloatEnv.exact c) tick).bookOf tick.symbol.key)
      ((bp.processTick (FloatEnv.exact c) tick).reference tick.symbol.key) := by
  obtain ⟨p, hprice, hp⟩ := hreg.1
  have hv : 0 < (bp.deltaOf (FloatEnv.exact c) tick).volume := hreg.volume_pos
  rw [bookOf_processTick_self, reference_processTick_self, hprice]
  have hpos : 0 < p := lt_of_lt_of_le (by norm_num) hp.1
  refine ⟨h.positive.apply ⟨p, hpos, hprice⟩, Or.inr ?_⟩
  rcases h.known with ⟨href, -, hasks⟩ | ⟨⟨r, href⟩, hbids⟩
  · -- the first tick of the symbol becomes the first bid
    rw [href, judge_first hp]
    refine ⟨⟨p, rfl⟩, ?_⟩
    have hside := side_of_first hreg href
    have hr := Bool.eq_false_iff.2 (not_refuses_of_first hreg href hasks)
    have hmem : (tick.price, _) ∈ (((bp.bookOf tick.symbol.key).apply _).levels .bid).entries :=
      (OrderBook.mem_levels_apply_iff hv hr).2 (Or.inl ⟨hside.symm, rfl, rfl⟩)
    exact List.ne_nil_of_mem hmem
  · obtain ⟨b, hb⟩ := h.positive.exists_bestBid_eq_fin
    obtain ⟨a, ha⟩ := h.positive.exists_bestAsk_eq_fin
    obtain ⟨level, hlevel⟩ := List.exists_mem_of_ne_nil _ hbids
    rw [← OrderBook.levels_bid] at hlevel
    obtain ⟨w, hmem⟩ := OrderBook.exists_mem_levels_apply hv hlevel
    rw [href]
    exact ⟨exists_judge_snd hp hb ha, List.ne_nil_of_mem hmem⟩

theorem AllTracked.processTick (hreg : Regular c tick) (h : AllTracked bp) :
    AllTracked (bp.processTick (FloatEnv.exact c) tick) := by
  intro symbol
  by_cases hk : symbol = tick.symbol.key
  · subst hk
    exact tracked_processTick_self hreg (h _)
  · rw [bookOf, book_processTick_of_ne _ _ _ hk, reference_processTick_of_ne _ _ _ hk]
    exact h symbol

/-- **Every symbol of every run is tracked.** -/
theorem allTracked_of_run (dbQueue signalQueue : Option SnapshotQueue) {ticks : List MarketTick}
    (hreg : ∀ t ∈ ticks, Regular c t) :
    AllTracked ((offering (FloatEnv.exact c)).state (fresh dbQueue signalQueue) ticks) :=
  (offering _).state_invariant (fun _ _ ht h ↦ h.processTick ht) hreg
    (allTracked_fresh dbQueue signalQueue)

/-! ### When a tick is refused -/

variable (bp tick) in
/-- The ticks the heuristic misjudges: the book has bids and no asks, and the price is at least the
reference, below the best bid and not below half of it. -/
def BetweenReferenceAndBid : Prop :=
  ∃ p r b : ℚ, tick.price = fin p ∧ bp.reference tick.symbol.key = some (fin r) ∧
    (bp.bookOf tick.symbol.key).bids.last?.map Prod.fst = some (fin b) ∧
    (bp.bookOf tick.symbol.key).asks.entries = [] ∧ r ≤ p ∧ p < b ∧ b ≤ 2 * p

/-- The guard, on the side the heuristic chose against a known reference. -/
theorem refuses_judged_iff (hreg : Regular c tick) {p r : ℚ} (hprice : tick.price = fin p)
    (hp : ValidPrice p) (href : bp.reference tick.symbol.key = some (fin r)) :
    (bp.bookOf tick.symbol.key).refuses (bp.deltaOf (FloatEnv.exact c) tick) = true ↔
      ((classify (FloatEnv.exact c) (some (bp.bookOf tick.symbol.key)) (fin p) (fin r)).1 = .bid ∧
          ∃ level ∈ (bp.bookOf tick.symbol.key).asks.first?, level.1 < fin p) ∨
        ((classify (FloatEnv.exact c) (some (bp.bookOf tick.symbol.key)) (fin p) (fin r)).1 = .ask ∧
          ∃ level ∈ (bp.bookOf tick.symbol.key).bids.last?, fin p < level.1) := by
  have hv : 0 < (bp.deltaOf (FloatEnv.exact c) tick).volume := hreg.volume_pos
  have hdelta : (bp.deltaOf (FloatEnv.exact c) tick).price = fin p := hprice
  have hside : (bp.deltaOf (FloatEnv.exact c) tick).side =
      (classify (FloatEnv.exact c) (some (bp.bookOf tick.symbol.key)) (fin p) (fin r)).1 := by
    show (judge _ _ _ _).1 = _
    rw [href, hprice, judge_known hp]
  rw [OrderBook.refuses_iff, hdelta, hside, and_iff_right hv]

/-- **Without asks, the price has to be judged an ask and lie below the best bid.** -/
theorem refuses_iff_of_bidsOnly (hreg : Regular c tick) {p r b : ℚ} {v : UInt64}
    (hprice : tick.price = fin p) (hp : ValidPrice p)
    (href : bp.reference tick.symbol.key = some (fin r)) (hpos : 0 < b)
    (hlast : (bp.bookOf tick.symbol.key).bids.last? = some (fin b, v))
    (hasks : (bp.bookOf tick.symbol.key).asks.entries = []) :
    (bp.bookOf tick.symbol.key).refuses (bp.deltaOf (FloatEnv.exact c) tick) = true ↔
      r ≤ p ∧ p < b ∧ b ≤ 2 * p := by
  have hside := bidsOnly_side (c := c) (p := p) (r := r) (OrderBook.bestBid_of_last? hlast)
    (OrderBook.bestAsk_of_asks_nil hasks) hpos
  rw [refuses_judged_iff hreg hprice hp href, hside, OrderedMap.first?_eq_none_iff.2 hasks, hlast]
  constructor
  · rintro (⟨-, level, hlevel, -⟩ | ⟨hask, level, hlevel, hlt⟩)
    · exact absurd hlevel (by simp)
    · rw [← Option.some.inj hlevel, fin_lt_fin] at hlt
      have hnot : ¬ (p < r ∨ 2 * p < b) := fun hor ↦ by simp [hor] at hask
      rw [not_or, not_lt, not_lt] at hnot
      exact ⟨hnot.1, hlt, hnot.2⟩
  · rintro ⟨hle, hlt, hhalf⟩
    have hnot : ¬ (p < r ∨ 2 * p < b) := not_or.2 ⟨not_lt.2 hle, not_lt.2 hhalf⟩
    exact Or.inr ⟨if_neg hnot, (fin b, v), rfl, fin_lt_fin.2 hlt⟩

/-- **On a two-sided book the guard never refuses.** -/
theorem not_refuses_of_twoSided (hreg : Regular c tick) {p r : ℚ} (hprice : tick.price = fin p)
    (hp : ValidPrice p) (href : bp.reference tick.symbol.key = some (fin r))
    (hbook : Positive (bp.bookOf tick.symbol.key))
    (hbids : (bp.bookOf tick.symbol.key).bids.entries ≠ [])
    (hasks : (bp.bookOf tick.symbol.key).asks.entries ≠ []) :
    ¬ (bp.bookOf tick.symbol.key).refuses (bp.deltaOf (FloatEnv.exact c) tick) = true := by
  obtain ⟨b, v, hpos, hlast, hbest⟩ := hbook.exists_bestBid hbids
  obtain ⟨a, w, -, hfirst, hask⟩ := hbook.exists_bestAsk hasks
  have hba : b ≤ a := by
    have := hbook.safe.bestBid_le_bestAsk hbids hasks
    rwa [hbest, hask, fin_le_fin] at this
  have hfit := twoSided_side (c := c) (p := p) (r := r) hbest hask hpos hba
  rw [refuses_judged_iff hreg hprice hp href, hfirst, hlast]
  rintro (⟨hbid, level, hlevel, hlt⟩ | ⟨hask, level, hlevel, hlt⟩)
  · rw [← Option.some.inj hlevel, fin_lt_fin] at hlt
    exact absurd (hfit.1 hbid) (not_le.2 hlt)
  · rw [← Option.some.inj hlevel, fin_lt_fin] at hlt
    exact absurd (hfit.2 hask) (not_le.2 hlt)

/-- **The guard refuses a regular tick exactly when the heuristic misjudged it.** -/
theorem refuses_iff_betweenReferenceAndBid (hreg : Regular c tick)
    (h : Tracked (bp.bookOf tick.symbol.key) (bp.reference tick.symbol.key)) :
    (bp.bookOf tick.symbol.key).refuses (bp.deltaOf (FloatEnv.exact c) tick) = true ↔
      BetweenReferenceAndBid bp tick := by
  obtain ⟨p, hprice, hp⟩ := hreg.1
  rcases h.known with ⟨href, -, hasks⟩ | ⟨⟨r, href⟩, hbids⟩
  · refine iff_of_false (not_refuses_of_first hreg href hasks) ?_
    rintro ⟨-, r, -, -, hr, -⟩
    rw [href] at hr
    exact absurd hr (by simp)
  · by_cases hasks : (bp.bookOf tick.symbol.key).asks.entries = []
    · obtain ⟨b, v, hpos, hlast, -⟩ := h.positive.exists_bestBid hbids
      rw [refuses_iff_of_bidsOnly hreg hprice hp href hpos hlast hasks, BetweenReferenceAndBid,
        hprice, href, hlast]
      constructor
      · rintro ⟨hle, hlt, hhalf⟩
        exact ⟨p, r, b, rfl, rfl, rfl, hasks, hle, hlt, hhalf⟩
      · rintro ⟨p', r', b', hp', hr', hb', -, hle⟩
        simp only [fin.injEq, Option.some.injEq, Option.map_some] at hp' hr' hb'
        subst hp' hr' hb'
        exact hle
    · refine iff_of_false (not_refuses_of_twoSided hreg hprice hp href h.positive hbids hasks) ?_
      rintro ⟨-, -, -, -, -, -, hnil, -⟩
      exact hasks hnil

/-- The tick is not refused: its price is a level of the side the heuristic chose and carries the
truncated volume. -/
def Placed (fl : FloatEnv) (bp : BookProcessor) (tick : MarketTick) : Prop :=
  (bp.bookOf tick.symbol.key).refuses (bp.deltaOf fl tick) = false ∧
    (((bp.processTick fl tick).bookOf tick.symbol.key).levels (bp.sideOf fl tick)).find?
      tick.price = some (fl.toUInt64 tick.volume)

theorem placed_iff (hreg : Regular c tick)
    (h : Tracked (bp.bookOf tick.symbol.key) (bp.reference tick.symbol.key)) :
    Placed (FloatEnv.exact c) bp tick ↔ ¬ BetweenReferenceAndBid bp tick := by
  rw [← refuses_iff_betweenReferenceAndBid hreg h, Bool.not_eq_true, Placed, and_iff_left_iff_imp]
  intro hr
  rw [bookOf_processTick_self, ← OrderedMap.mem_entries_iff]
  exact (OrderBook.mem_levels_apply_iff hreg.volume_pos hr).2 (Or.inl ⟨rfl, rfl, rfl⟩)

/-- **The side heuristic fits the guard except between the reference and a lone best bid.** Along
any run on regular ticks from the empty state, every tick is placed exactly when none of them met a
book with bids and no asks at a price that is at least the reference, below the best bid and at
least half of it. -/
theorem run_placed_iff (dbQueue signalQueue : Option SnapshotQueue) (ticks : List MarketTick)
    (hreg : ∀ t ∈ ticks, Regular c t) :
    (∀ seen tick rest, ticks = seen ++ tick :: rest →
        Placed (FloatEnv.exact c)
          ((offering (FloatEnv.exact c)).state (fresh dbQueue signalQueue) seen) tick) ↔
      ∀ seen tick rest, ticks = seen ++ tick :: rest →
        ¬ BetweenReferenceAndBid
          ((offering (FloatEnv.exact c)).state (fresh dbQueue signalQueue) seen) tick := by
  refine forall_congr' fun seen ↦ forall_congr' fun tick ↦ forall_congr' fun rest ↦
    imp_congr_right fun hsplit ↦ ?_
  subst hsplit
  have hseen : ∀ t ∈ seen, Regular c t := fun t ht ↦ hreg t (List.mem_append_left _ ht)
  exact placed_iff (hreg tick (by simp)) (allTracked_of_run dbQueue signalQueue hseen _)

theorem regular_shareOfA {price : ℚ} (h : ValidPrice price) :
    Regular (fun _ ↦ 0) (shareOfA price) :=
  ⟨⟨price, rfl, h⟩, show 1 ≤ (FloatEnv.exact fun _ ↦ 0).toUInt64 (fin 1) by decide +kernel⟩

theorem run_placed_iff_rising :
    (∀ t ∈ [shareOfA 100, shareOfA 101], Regular (fun _ ↦ 0) t) ∧
      ((∀ seen tick rest, [shareOfA 100, shareOfA 101] = seen ++ tick :: rest →
          Placed (FloatEnv.exact fun _ ↦ 0)
            ((offering (FloatEnv.exact fun _ ↦ 0)).state (fresh none none) seen) tick) ↔
        ∀ seen tick rest, [shareOfA 100, shareOfA 101] = seen ++ tick :: rest →
          ¬ BetweenReferenceAndBid
            ((offering (FloatEnv.exact fun _ ↦ 0)).state (fresh none none) seen) tick) := by
  have hreg : ∀ t ∈ [shareOfA 100, shareOfA 101], Regular (fun _ ↦ 0) t := by
    rintro t (- | ⟨_, (- | ⟨_, ⟨⟩⟩)⟩)
    · exact regular_shareOfA (by decide +kernel)
    · exact regular_shareOfA (by decide +kernel)
  exact ⟨hreg, run_placed_iff none none _ hreg⟩

/-- **The heuristic does feed the book a crossing update.** Bids at 100 and 99 leave the reference
at 99.9 and no ask. The price 99.95 is then called an ask, would cross the bid of 100, is judged
again against 50, is called an ask again and is refused. -/
theorem not_always_placed :
    ¬ ∀ ticks : List MarketTick, (∀ t ∈ ticks, Regular (fun _ ↦ 0) t) →
      (∀ t ∈ ticks, t.symbol = (shareOfA 100).symbol) →
      ∀ seen tick rest, ticks = seen ++ tick :: rest →
        Placed (FloatEnv.exact fun _ ↦ 0)
          ((offering (FloatEnv.exact fun _ ↦ 0)).state (fresh none none) seen) tick := by
  intro hplaced
  have hreg : ∀ t ∈ [shareOfA 100, shareOfA 99, shareOfA (1999 / 20)], Regular (fun _ ↦ 0) t := by
    rintro t (- | ⟨_, (- | ⟨_, (- | ⟨_, ⟨⟩⟩)⟩)⟩)
    · exact regular_shareOfA (by decide +kernel)
    · exact regular_shareOfA (by decide +kernel)
    · exact regular_shareOfA (by decide +kernel)
  have hthird := (hplaced _ hreg (by decide +kernel) [shareOfA 100, shareOfA 99]
    (shareOfA (1999 / 20)) [] rfl).1
  exact absurd hthird (by decide +kernel)

end BookProcessor

end Mdp
