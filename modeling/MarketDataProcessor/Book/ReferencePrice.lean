import MarketDataProcessor.Book.SideHeuristic

/-!
# Where the reference price can be

The reference is an average of the prices of its symbol, except when `determine_side` resets it to
the midpoint of the book. The levels of the book are prices of the symbol too, so a midpoint of two
of them is among the prices seen (`Among.midpoint`), and blending a price in keeps it there
(`Among.blend`).

On a book without asks the midpoint is half of the best bid, which need not be near any price.
`ResetTooLow` says when the reference then falls below all of them, and `reference_among_iff` that
nothing else takes it out of their range.

## The two directions

* A reset is to the midpoint of the book, and `PricedBy` says that the levels of a book are prices
  of its symbol's ticks, in every reachable state. On a two-sided book the midpoint is of two
  prices, so it is among them (`twoSided_reference`, `Among.midpoint`); without a reset the price is
  blended in with weight 0.1 (`Among.blend`). Both keep a reference where it was
  (`among_of_not_resetTooLow`).
* On a one-sided book the new reference is a fixed combination of the price and the best bid, 0.1 of
  the one and 0.45 of the other (`bidsOnly_reference`), and `resetTooLow_iff` compares it with the
  least price seen. So the condition is about the input and the book before the step.

`among_processTick_iff` puts the two together for one tick, which makes `reference_among_iff` an
induction over the run in both directions. Arithmetic is exact in this module; rounding could move a
blend across the bound by itself.
-/

namespace Mdp

namespace BookProcessor

open Double MarketTick

/-! ### Among the prices -/

/-- A number between two prices of the ticks. -/
def Among (ticks : List MarketTick) (q : ℚ) : Prop :=
  (∃ low ∈ ticks, low.price ≤ fin q) ∧ ∃ high ∈ ticks, fin q ≤ high.price

section Among

variable {ticks : List MarketTick} {tick low high : MarketTick} {p q m : ℚ}

theorem among_of_mem (h : tick ∈ ticks) (hp : tick.price = fin p) : Among ticks p :=
  ⟨⟨tick, h, hp.le⟩, tick, h, hp.ge⟩

/-- **A midpoint of two prices is among them.** -/
theorem Among.midpoint (hlow : low ∈ ticks) (hhigh : high ∈ ticks) (hp : low.price = fin p)
    (hq : high.price = fin q) (hle : p ≤ q) : Among ticks ((p + q) / 2) := by
  refine ⟨⟨low, hlow, ?_⟩, high, hhigh, ?_⟩
  · rw [hp, fin_le_fin]
    linarith
  · rw [hq, fin_le_fin]
    linarith

/-- **Blending a price into a number among the prices** leaves it among them. -/
theorem Among.blend (h : Among ticks m) (hp : tick.price = fin p) :
    Among (ticks ++ [tick]) (1 / 10 * p + 9 / 10 * m) := by
  obtain ⟨⟨low, hlow, hle⟩, high, hhigh, hge⟩ := h
  have hself : tick ∈ ticks ++ [tick] := by simp
  rcases le_total p m with hpm | hmp
  · refine ⟨⟨tick, hself, ?_⟩, high, List.mem_append_left _ hhigh, le_trans ?_ hge⟩
    · rw [hp, fin_le_fin]
      linarith
    · rw [fin_le_fin]
      linarith
  · refine ⟨⟨low, List.mem_append_left _ hlow, le_trans hle ?_⟩, tick, hself, ?_⟩
    · rw [fin_le_fin]
      linarith
    · rw [hp, fin_le_fin]
      linarith

end Among

/-! ### The levels of a book -/

/-- Every level of the book is the price of a tick. -/
def PricedBy (book : OrderBook Double) (ticks : List MarketTick) : Prop :=
  ∀ side, ∀ level ∈ (book.levels side).entries, ∃ tick ∈ ticks, tick.price = level.1

variable {c : Double → UInt64} {bp : BookProcessor} {tick : MarketTick} {seen : List MarketTick}
  {symbol : List UInt8}

theorem PricedBy.processTick {fl : FloatEnv} (h : PricedBy (bp.bookOf symbol) seen) :
    PricedBy ((bp.processTick fl tick).bookOf symbol) (seen ++ [tick]) := by
  have hkept : PricedBy (bp.bookOf symbol) (seen ++ [tick]) := by
    intro side level hlevel
    obtain ⟨t, ht, hprice⟩ := h side level hlevel
    exact ⟨t, List.mem_append_left _ ht, hprice⟩
  rcases eq_or_ne symbol tick.symbol.key with rfl | hk
  · intro side level hlevel
    rw [bookOf_processTick_self] at hlevel
    rcases OrderBook.fst_of_mem_levels_apply hlevel with hold | ⟨-, hnew⟩
    · exact hkept side level hold
    · exact ⟨tick, by simp, hnew.symm⟩
  · rw [bookOf, book_processTick_of_ne _ _ _ hk]
    exact hkept

theorem pricedBy_state (fl : FloatEnv) (dbQueue signalQueue : Option SnapshotQueue)
    (ticks : List MarketTick) :
    PricedBy (((offering fl).state (fresh dbQueue signalQueue) ticks).bookOf symbol) ticks := by
  induction ticks using List.reverseRecOn with
  | nil =>
    intro side level hlevel
    cases side <;> exact absurd hlevel List.not_mem_nil
  | append_singleton ticks tick ih =>
    rw [Transducer.state_concat]
    exact ih.processTick

/-! ### What a tick does to the reference -/

/-- The reset that takes the reference below every price: the book has bids and no asks, the price
is between the reference and the best bid, and a tenth of it with nine twentieths of the best bid is
less than any price so far. -/
def ResetTooLow (bp : BookProcessor) (seen : List MarketTick) (tick : MarketTick) : Prop :=
  ∃ p r b : ℚ, tick.price = fin p ∧ bp.reference tick.symbol.key = some (fin r) ∧
    (bp.bookOf tick.symbol.key).bids.last?.map Prod.fst = some (fin b) ∧
    (bp.bookOf tick.symbol.key).asks.entries = [] ∧ r ≤ p ∧ p ≤ b ∧
    ∀ t ∈ seen ++ [tick], fin (1 / 10 * p + 9 / 20 * b) < t.price

section Judge

variable {book : OrderBook Double} {p r b a : ℚ}

/-- **Without asks the reference is reset by the prices between it and the best bid.** -/
theorem bidsOnly_reference (hb : book.bestBid = fin b) (ha : book.bestAsk = 0) (hpos : 0 < b) :
    (classify (FloatEnv.exact c) (some book) (fin p) (fin r)).2 =
      if r ≤ p ∧ p ≤ b then fin (b / 2) else fin r := by
  rw [classify, resetReference_fin hb (ha.trans zero_def), add_zero]
  rcases lt_or_ge p r with hlt | hge
  · simp [sideAgainst, hlt, wouldCross, ha, zero_def, not_le.2 hlt]
  · simp only [sideAgainst, flt_fin, decide_eq_false (not_lt.2 hge), Bool.false_eq_true, if_false,
      wouldCross, hb, zero_def, hpos, fle_fin, decide_true, Bool.true_and, decide_eq_true_iff, hge,
      true_and]
    split_ifs <;> rfl

/-- **On a two-sided book the reference is kept or reset to the midpoint.** -/
theorem twoSided_reference (hb : book.bestBid = fin b) (ha : book.bestAsk = fin a) :
    (classify (FloatEnv.exact c) (some book) (fin p) (fin r)).2 = fin ((b + a) / 2) ∨
      (classify (FloatEnv.exact c) (some book) (fin p) (fin r)).2 = fin r := by
  rw [classify, resetReference_fin hb ha]
  split_ifs
  · exact Or.inl rfl
  · exact Or.inr rfl

theorem blend_fin (p m : ℚ) :
    blend (FloatEnv.exact c) (fin p) (fin m) = fin (1 / 10 * p + 9 / 10 * m) := by
  rw [blend, kAlpha, FloatEnv.exact_round, FloatEnv.exact_round, FloatEnv.exact_sub_fin,
    FloatEnv.exact_mul_fin, FloatEnv.exact_mul_fin, FloatEnv.exact_add_fin]
  norm_num

end Judge

/-- A tick that resets a one-sided book's reference. -/
theorem resetTooLow_iff {p r b : ℚ} (hprice : tick.price = fin p)
    (href : bp.reference tick.symbol.key = some (fin r))
    (hlast : (bp.bookOf tick.symbol.key).bids.last?.map Prod.fst = some (fin b))
    (hasks : (bp.bookOf tick.symbol.key).asks.entries = []) :
    ResetTooLow bp seen tick ↔ r ≤ p ∧ p ≤ b ∧
      ∀ t ∈ seen ++ [tick], fin (1 / 10 * p + 9 / 20 * b) < t.price := by
  constructor
  · rintro ⟨p', r', b', hp', hr', hb', -, hrest⟩
    rw [hprice, fin.injEq] at hp'
    rw [href, Option.some.injEq, fin.injEq] at hr'
    rw [hlast, Option.some.injEq, fin.injEq] at hb'
    subst hp' hr' hb'
    exact hrest
  · intro hrest
    exact ⟨p, r, b, hprice, href, hlast, hasks, hrest⟩

/-- **One tick**: the reference stays among the prices unless it is reset too low. -/
theorem among_processTick_iff (hreg : Regular c tick)
    (htracked : Tracked (bp.bookOf tick.symbol.key) (bp.reference tick.symbol.key))
    (hpriced : PricedBy (bp.bookOf tick.symbol.key) seen)
    (hamong : ∀ r, bp.reference tick.symbol.key = some (fin r) → Among seen r) :
    ∃ q, (bp.processTick (FloatEnv.exact c) tick).reference tick.symbol.key = some (fin q) ∧
      (Among (seen ++ [tick]) q ↔ ¬ ResetTooLow bp seen tick) := by
  obtain ⟨p, hprice, hp⟩ := hreg.1
  rw [reference_processTick_self, hprice]
  rcases htracked.known with ⟨href, -, -⟩ | ⟨⟨r, href⟩, hbids⟩
  · -- the first price is its own reference
    rw [href, judge_first hp]
    refine ⟨p, rfl, iff_of_true (among_of_mem (by simp) hprice) ?_⟩
    rintro ⟨-, r, -, -, hr, -⟩
    rw [href] at hr
    exact absurd hr (by simp)
  · obtain ⟨b, v, hpos, hlast, hbest⟩ := htracked.positive.exists_bestBid hbids
    obtain ⟨low, hlow, hlowPrice⟩ := hpriced .bid _ (OrderedMap.last?_eq_some_iff.1 hlast).1
    rw [href, judge_known hp]
    by_cases hasks : (bp.bookOf tick.symbol.key).asks.entries = []
    · rw [bidsOnly_reference hbest (OrderBook.bestAsk_of_asks_nil hasks) hpos,
        resetTooLow_iff hprice href (by rw [hlast]; rfl) hasks]
      split_ifs with hbetween
      · rw [blend_fin, show 1 / 10 * p + 9 / 10 * (b / 2) = 1 / 10 * p + 9 / 20 * b by ring]
        refine ⟨_, rfl, ?_⟩
        -- it is not above the best bid, so only the lower bound can fail
        have hhigh : ∃ high ∈ seen ++ [tick], fin (1 / 10 * p + 9 / 20 * b) ≤ high.price := by
          refine ⟨low, List.mem_append_left _ hlow, ?_⟩
          rw [hlowPrice, fin_le_fin]
          linarith [hbetween.2]
        rw [Among, and_iff_left hhigh, ← and_assoc, and_iff_right hbetween]
        simp only [not_forall, not_lt, exists_prop]
      · rw [blend_fin]
        refine ⟨_, rfl, iff_of_true ((hamong r href).blend hprice) fun h ↦ hbetween ⟨h.1, h.2.1⟩⟩
    · obtain ⟨a, w, -, hfirst, hask⟩ := htracked.positive.exists_bestAsk hasks
      obtain ⟨high, hhigh, hhighPrice⟩ := hpriced .ask _ (OrderedMap.first?_eq_some_iff.1 hfirst).1
      have hba : b ≤ a := by
        have := htracked.positive.safe.bestBid_le_bestAsk hbids hasks
        rwa [hbest, hask, fin_le_fin] at this
      have hnot : ¬ ResetTooLow bp seen tick := by
        rintro ⟨-, -, -, -, -, -, hnil, -⟩
        exact hasks hnil
      rcases twoSided_reference (c := c) (p := p) (r := r) hbest hask with hreset | hkept
      · rw [hreset, blend_fin]
        refine ⟨_, rfl, iff_of_true (Among.blend ?_ hprice) hnot⟩
        exact Among.midpoint hlow hhigh hlowPrice hhighPrice hba
      · rw [hkept, blend_fin]
        exact ⟨_, rfl, iff_of_true ((hamong r href).blend hprice) hnot⟩

/-! ### Runs -/

section Runs

variable (c) (dbQueue signalQueue : Option SnapshotQueue)

/-- The processor after some ticks, in exact arithmetic. -/
def processed (ticks : List MarketTick) : BookProcessor :=
  (offering (FloatEnv.exact c)).state (fresh dbQueue signalQueue) ticks

variable {c dbQueue signalQueue}

/-- One more tick of a run. -/
theorem exists_reference_concat (hreg : ∀ t ∈ seen ++ [tick], Regular c t)
    (hamong : ∀ r, (processed c dbQueue signalQueue seen).reference tick.symbol.key =
      some (fin r) → Among seen r) :
    ∃ q, (processed c dbQueue signalQueue (seen ++ [tick])).reference tick.symbol.key =
        some (fin q) ∧
      (Among (seen ++ [tick]) q ↔
        ¬ ResetTooLow (processed c dbQueue signalQueue seen) seen tick) := by
  rw [List.forall_mem_append, List.forall_mem_singleton] at hreg
  rw [processed, Transducer.state_concat]
  exact among_processTick_iff hreg.2 (allTracked_of_run dbQueue signalQueue hreg.1 _)
    (pricedBy_state _ dbQueue signalQueue seen) hamong

/-- **Without such a reset the reference stays among the prices.** -/
theorem among_of_not_resetTooLow {ticks : List MarketTick} (hreg : ∀ t ∈ ticks, Regular c t)
    (hsymbol : ∀ t ∈ ticks, t.symbol.key = symbol)
    (hnone : ∀ seen tick rest, ticks = seen ++ tick :: rest →
      ¬ ResetTooLow (processed c dbQueue signalQueue seen) seen tick) :
    ∀ r, (processed c dbQueue signalQueue ticks).reference symbol = some (fin r) →
      Among ticks r := by
  induction ticks using List.reverseRecOn with
  | nil =>
    intro r hr
    exact absurd hr (by simp [processed, Transducer.state, fresh, reference])
  | append_singleton ticks tick ih =>
    intro r hr
    obtain rfl : tick.symbol.key = symbol := hsymbol tick (by simp)
    have hbefore := ih (fun t ht ↦ hreg t (List.mem_append_left _ ht))
      (fun t ht ↦ hsymbol t (List.mem_append_left _ ht))
      (fun seen t rest hsplit ↦ hnone seen t (rest ++ [tick]) (by rw [hsplit]; simp))
    obtain ⟨q, hq, hiff⟩ := exists_reference_concat hreg hbefore
    rw [hq, Option.some.injEq, fin.injEq] at hr
    exact hr ▸ hiff.2 (hnone ticks tick [] rfl)

/-- **When the reference stays among the prices.** Along any run on regular ticks of one symbol: the
reference is after every tick between two of the prices so far, exactly if no tick resets it too
low. -/
theorem reference_among_iff (c : Double → UInt64) (dbQueue signalQueue : Option SnapshotQueue)
    (symbol : List UInt8) (ticks : List MarketTick) (hreg : ∀ t ∈ ticks, Regular c t)
    (hsymbol : ∀ t ∈ ticks, t.symbol.key = symbol) :
    (∀ seen tick rest, ticks = seen ++ tick :: rest →
        ∃ q, (processed c dbQueue signalQueue (seen ++ [tick])).reference symbol = some (fin q) ∧
          Among (seen ++ [tick]) q) ↔
      ∀ seen tick rest, ticks = seen ++ tick :: rest →
        ¬ ResetTooLow (processed c dbQueue signalQueue seen) seen tick := by
  constructor
  · rintro hall seen tick rest rfl
    obtain rfl : tick.symbol.key = symbol := hsymbol tick (by simp)
    rw [List.append_cons] at hreg
    -- the tick before, if there is one, left the reference among the prices
    have hbefore : ∀ r, (processed c dbQueue signalQueue seen).reference tick.symbol.key =
        some (fin r) → Among seen r := by
      intro r hr
      rcases List.eq_nil_or_concat seen with rfl | ⟨earlier, last, rfl⟩
      · exact absurd hr (by simp [processed, Transducer.state, fresh, reference])
      · rw [List.concat_eq_append] at hr ⊢
        obtain ⟨q, hq, hamong⟩ := hall earlier last (tick :: rest) (by simp)
        rw [hq, Option.some.injEq, fin.injEq] at hr
        exact hr ▸ hamong
    obtain ⟨q, hq, hiff⟩ := exists_reference_concat
      (fun t ht ↦ hreg t (List.mem_append_left rest ht)) hbefore
    obtain ⟨q', hq', hamong⟩ := hall seen tick rest rfl
    rw [hq, Option.some.injEq, fin.injEq] at hq'
    exact hiff.1 (hq' ▸ hamong)
  · rintro hnone seen tick rest rfl
    obtain rfl : tick.symbol.key = symbol := hsymbol tick (by simp)
    rw [List.append_cons] at hreg
    have hbefore : ∀ r, (processed c dbQueue signalQueue seen).reference tick.symbol.key =
        some (fin r) → Among seen r := by
      refine among_of_not_resetTooLow (fun t ht ↦ hreg t (by simp [ht]))
        (fun t ht ↦ hsymbol t (by simp [ht])) fun earlier t later hsplit ↦ ?_
      exact hnone earlier t (later ++ tick :: rest) (by rw [hsplit]; simp)
    obtain ⟨q, hq, hiff⟩ := exists_reference_concat
      (fun t ht ↦ hreg t (List.mem_append_left rest ht)) hbefore
    exact ⟨q, hq, hiff.2 (hnone seen tick rest rfl)⟩

end Runs

/-- A price above the first one does not reset the reference. -/
theorem reference_among_iff_rising :
    (∀ t ∈ [shareOfA 100, shareOfA 101], Regular (fun _ ↦ 0) t) ∧
      ((∀ seen tick rest, [shareOfA 100, shareOfA 101] = seen ++ tick :: rest →
          ∃ q, (processed (fun _ ↦ 0) none none (seen ++ [tick])).reference [65] = some (fin q) ∧
            Among (seen ++ [tick]) q) ↔
        ∀ seen tick rest, [shareOfA 100, shareOfA 101] = seen ++ tick :: rest →
          ¬ ResetTooLow (processed (fun _ ↦ 0) none none seen) seen tick) := by
  have hreg : ∀ t ∈ [shareOfA 100, shareOfA 101], Regular (fun _ ↦ 0) t := by
    rintro t (- | ⟨_, (- | ⟨_, ⟨⟩⟩)⟩)
    · exact regular_shareOfA (by decide +kernel)
    · exact regular_shareOfA (by decide +kernel)
  exact ⟨hreg, reference_among_iff (fun _ ↦ 0) none none [65] _ hreg (by decide +kernel)⟩

/-- **The reference does leave the prices.** A second tick at 100 meets the bid at 100 and no ask,
resets the reference to 50 and blends it to 55. -/
theorem not_always_among :
    ¬ ∀ ticks : List MarketTick, (∀ t ∈ ticks, Regular (fun _ ↦ 0) t) →
      (∀ t ∈ ticks, t.symbol.key = [65]) →
      ∀ seen tick rest, ticks = seen ++ tick :: rest →
        ∃ q, (processed (fun _ ↦ 0) none none (seen ++ [tick])).reference [65] = some (fin q) ∧
          Among (seen ++ [tick]) q := by
  intro hall
  have hreg : ∀ t ∈ [shareOfA 100, shareOfA 100], Regular (fun _ ↦ 0) t := by
    rintro t (- | ⟨_, (- | ⟨_, ⟨⟩⟩)⟩)
    · exact regular_shareOfA (by decide +kernel)
    · exact regular_shareOfA (by decide +kernel)
  obtain ⟨q, hq, ⟨low, hlow, hle⟩, -⟩ := hall _ hreg (by decide +kernel) [shareOfA 100]
    (shareOfA 100) [] rfl
  have hreference : (processed (fun _ ↦ 0) none none [shareOfA 100, shareOfA 100]).reference [65] =
      some (fin 55) := by decide +kernel
  rw [show [shareOfA 100] ++ [shareOfA 100] = [shareOfA 100, shareOfA 100] from rfl, hreference,
    Option.some.injEq, fin.injEq] at hq
  rcases (by simpa using hlow : low = shareOfA 100) with rfl
  rw [← hq] at hle
  exact absurd hle (by decide +kernel)

end BookProcessor

end Mdp
