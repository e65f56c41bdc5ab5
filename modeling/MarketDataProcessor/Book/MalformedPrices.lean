import Mathlib.Data.List.Infix
import MarketDataProcessor.Book.ReferencePrice

/-!
# Do malformed prices influence the heuristic?

`determine_side` keeps prices outside of `[0.1, 1000000]` away from the average, but gives them a
side, and the tick goes on to the book as a bid. The book is what the average is reset by.

A price below the range does no harm: there is a better bid whenever the book is asked. A price
above the range is refused as long as there are asks. Without asks it becomes the best bid, no ask
is ever accepted again, and the first valid price at or above the reference resets it to half of
that bid. `Tainted` is this step, and `malformed_harmless` says that without it the run is, but for
the levels of the malformed prices, the run on the other ticks: `Shadows`.

## Two runs side by side

`Simulates` relates the processor that sees every tick with the one that sees the well-formed ticks
only: their references are the same, and every book of the second is that of the first without the
levels of malformed prices (`Shadows`). These levels are bids, so a best bid in range is the best
bid of both (`Shadows.last?_eq`), and that is nearly all `determine_side` and the guard read.

* `Simulates.processTick_malformed`: a malformed tick moves the first processor only, and leaves its
  reference.
* `Simulates.judge_eq` is the heart. Where the best bid is malformed there are no asks
  (`asks_nil_of_malformed`), and a price below the reference is a bid in both runs; only a price at
  or above it asks for the midpoint, and that is the excluded case.
* `malformed_harmless` is the induction along a run without a tainted step.

## The converse

`reference_ne_of_first_tainted` shows that the condition is not too strong: the first tainted step
does set the references apart, but for the coincidence that the reference is half of the malformed
bid already.
-/

namespace Mdp

namespace BookProcessor

open Double MarketTick OrderBook

/-- A price `determine_side` considers. -/
def InRange (price : Double) : Prop := fin (1 / 10) ≤ price ∧ price ≤ fin 1000000

instance (price : Double) : Decidable (InRange price) := inferInstanceAs (Decidable (_ ∧ _))

theorem inRange_fin {p : ℚ} : InRange (fin p) ↔ ValidPrice p :=
  and_congr fin_le_fin fin_le_fin

/-- The ticks that are not malformed. -/
def wellFormed (tick : MarketTick) : Bool := decide (InRange tick.price)

variable {c : Double → UInt64}

/-- A malformed price is a bid and leaves the reference. -/
theorem judge_malformed {p : ℚ} (h : ¬ ValidPrice p) (book : OrderBook Double)
    (ref : Option Double) : judge (FloatEnv.exact c) book ref (fin p) = (.bid, ref) := by
  unfold judge
  rw [if_pos]
  rw [kMinValidPrice, kMaxValidPrice, FloatEnv.exact_round, FloatEnv.exact_round, flt_fin, flt_fin,
    Bool.or_eq_true, decide_eq_true_iff, decide_eq_true_iff]
  rw [ValidPrice, not_and_or, not_le, not_le] at h
  exact h

/-! ### Books with and without the malformed levels -/

/-- The second book is the first without the levels of malformed prices, which are bids. -/
structure Shadows (book clean : OrderBook Double) : Prop where
  asks : book.asks = clean.asks
  bids : ∀ price, clean.bids.find? price = if InRange price then book.bids.find? price else none
  inRange : ∀ level ∈ book.asks.entries, InRange level.1

namespace Shadows

variable {book clean : OrderBook Double} {delta : BookDelta Double}

theorem mem_bids_iff (h : Shadows book clean) {price : Double} {v : UInt64} :
    (price, v) ∈ clean.bids.entries ↔ InRange price ∧ (price, v) ∈ book.bids.entries := by
  rw [OrderedMap.mem_entries_iff, OrderedMap.mem_entries_iff, h.bids]
  split_ifs with hin
  · exact ⟨fun hfound ↦ ⟨hin, hfound⟩, fun hboth ↦ hboth.2⟩
  · exact ⟨fun hfound ↦ by simp at hfound, fun hboth ↦ absurd hboth.1 hin⟩

/-- **A best bid in range is the best bid of both.** -/
theorem last?_eq (h : Shadows book clean) {level : Double × UInt64}
    (hlast : book.bids.last? = some level) (hin : InRange level.1) :
    clean.bids.last? = some level := by
  obtain ⟨hmem, hmax⟩ := OrderedMap.last?_eq_some_iff.1 hlast
  refine OrderedMap.last?_eq_some_iff.2 ⟨h.mem_bids_iff.2 ⟨hin, hmem⟩, fun other hother ↦ ?_⟩
  exact hmax other (h.mem_bids_iff.1 hother).2

/-- **A malformed bid leaves the shadow.** -/
theorem apply_malformed (h : Shadows book clean) (hv : 0 < delta.volume) (hside : delta.side = .bid)
    (hout : ¬ InRange delta.price) : Shadows (book.apply delta) clean := by
  cases hr : book.refuses delta with
  | true =>
    obtain ⟨hbids, hasks⟩ := sides_apply_of_refuses hr
    exact ⟨hasks.trans h.asks, by rw [hbids]; exact h.bids, by rw [hasks]; exact h.inRange⟩
  | false =>
    obtain ⟨hbids, hasks⟩ := sides_apply_of_bid hside hv hr
    refine ⟨hasks.trans h.asks, fun price ↦ ?_, by rw [hasks]; exact h.inRange⟩
    rw [h.bids, hbids]
    split_ifs with hin
    · rw [OrderedMap.find?_insert, if_neg]
      rintro rfl
      exact hout hin
    · rfl

/-- **A tick in range moves both books alike** if both guards say the same. -/
theorem apply (h : Shadows book clean) (hv : 0 < delta.volume) (hin : InRange delta.price)
    (hr : book.refuses delta = clean.refuses delta) :
    Shadows (book.apply delta) (clean.apply delta) := by
  cases hbook : book.refuses delta with
  | true =>
    obtain ⟨hbids, hasks⟩ := sides_apply_of_refuses hbook
    obtain ⟨hbids', hasks'⟩ := sides_apply_of_refuses (hr.symm.trans hbook)
    exact ⟨by rw [hasks, hasks', h.asks], by rw [hbids, hbids']; exact h.bids,
      by rw [hasks]; exact h.inRange⟩
  | false =>
    have hclean := hr.symm.trans hbook
    cases hside : delta.side with
    | bid =>
      obtain ⟨hbids, hasks⟩ := sides_apply_of_bid hside hv hbook
      obtain ⟨hbids', hasks'⟩ := sides_apply_of_bid hside hv hclean
      refine ⟨by rw [hasks, hasks', h.asks], fun price ↦ ?_, by rw [hasks]; exact h.inRange⟩
      rw [hbids, hbids', OrderedMap.find?_insert, OrderedMap.find?_insert, h.bids]
      split_ifs with heq hprice hprice
      · rfl
      · exact absurd (heq ▸ hin) hprice
      · rfl
      · rfl
    | ask =>
      obtain ⟨hbids, hasks⟩ := sides_apply_of_ask hside hv hbook
      obtain ⟨hbids', hasks'⟩ := sides_apply_of_ask hside hv hclean
      refine ⟨by rw [hasks, hasks', h.asks], by rw [hbids, hbids']; exact h.bids, ?_⟩
      rw [hasks]
      rintro ⟨price, v⟩ hlevel
      rcases OrderedMap.mem_insert_iff.1 hlevel with ⟨rfl, -⟩ | ⟨-, hold⟩
      · exact hin
      · exact h.inRange _ hold

/-! ### The verdict on either book -/

/-- The verdict and the guard see no more of a book than its best levels. -/
theorem judge_congr {p r : ℚ} (hbids : book.bids.last? = clean.bids.last?)
    (hasks : book.asks = clean.asks) :
    judge (FloatEnv.exact c) book (some (fin r)) (fin p) =
      judge (FloatEnv.exact c) clean (some (fin r)) (fin p) := by
  have hbest : book.bestBid = clean.bestBid := by rw [bestBid, bestBid, hbids]
  have hask : book.bestAsk = clean.bestAsk := by rw [bestAsk, bestAsk, hasks]
  have hcross : ∀ side price, wouldCross book side price = wouldCross clean side price := by
    intro side price
    cases side <;> simp only [wouldCross, hbest, hask]
  have hreset :
      resetReference (FloatEnv.exact c) book = resetReference (FloatEnv.exact c) clean := by
    rw [resetReference, resetReference, hbest, hask]
  simp only [judge, classify, hcross, hreset]

/-- A known reference comes with a bid in range, in both books. -/
theorem exists_last? (h : Shadows book clean) (hbids : clean.bids.entries ≠ [])
    (hpositive : Positive book) :
    ∃ b v, 0 < b ∧ book.bids.last? = some (fin b, v) ∧ book.bestBid = fin b ∧ 1 / 10 ≤ b := by
  obtain ⟨⟨price, v⟩, hmem⟩ := List.exists_mem_of_ne_nil _ hbids
  obtain ⟨hin, hmem'⟩ := h.mem_bids_iff.1 hmem
  obtain ⟨b, w, hpos, hlast, hbest⟩ := hpositive.exists_bestBid (List.ne_nil_of_mem hmem')
  refine ⟨b, w, hpos, hlast, hbest, ?_⟩
  have hle := (OrderedMap.last?_eq_some_iff.1 hlast).2 _ hmem'
  exact fin_le_fin.1 (hin.1.trans hle)

/-- **Behind a malformed best bid there are no asks.** -/
theorem asks_nil_of_malformed (h : Shadows book clean) (hpositive : Positive book) {b : ℚ}
    {v : UInt64} (hlast : book.bids.last? = some (fin b, v)) (hb : 1000000 < b) :
    book.asks.entries = [] := by
  by_contra hasks
  obtain ⟨a, w, -, hfirst, hask⟩ := hpositive.exists_bestAsk hasks
  have hmem := (OrderedMap.first?_eq_some_iff.1 hfirst).1
  have hle := (h.inRange _ hmem).2
  have hbids : book.bids.entries ≠ [] :=
    List.ne_nil_of_mem (OrderedMap.last?_eq_some_iff.1 hlast).1
  have hcross := hpositive.safe.bestBid_le_bestAsk hbids hasks
  rw [bestBid_of_last? hlast, hask, fin_le_fin] at hcross
  rw [fin_le_fin] at hle
  linarith

/-- **The verdict is the same on both books**, and so is the guard, unless a malformed best bid
meets a price that is not below the reference. -/
theorem judge_eq (h : Shadows book clean) (hpositive : Positive book) {p r : ℚ}
    (hclean : Tracked clean (some (fin r))) (hp : ValidPrice p)
    (huntainted : ∀ b v, book.bids.last? = some (fin b, v) → 1000000 < b → p < r)
    (hside : delta.side = (judge (FloatEnv.exact c) book (some (fin r)) (fin p)).1) :
    judge (FloatEnv.exact c) book (some (fin r)) (fin p) =
        judge (FloatEnv.exact c) clean (some (fin r)) (fin p) ∧
      book.refuses delta = clean.refuses delta := by
  have hbids : clean.bids.entries ≠ [] := by
    rcases hclean.known with ⟨hnone, -⟩ | ⟨-, hne⟩
    · simp at hnone
    · exact hne
  obtain ⟨b, v, hpos, hlast, hbest, hlow⟩ := h.exists_last? hbids hpositive
  rcases le_or_gt b 1000000 with hle | hgt
  · -- the best levels are the same
    have hsame := h.last?_eq hlast (inRange_fin.2 ⟨hlow, hle⟩)
    refine ⟨judge_congr (hlast.trans hsame.symm) h.asks, ?_⟩
    rw [refuses, refuses, hlast, hsame, h.asks]
  · -- no asks on either side, and a price below the reference is a bid
    have hlt := huntainted b v hlast hgt
    have hasks := h.asks_nil_of_malformed hpositive hlast hgt
    have hasks' : clean.asks.entries = [] := h.asks ▸ hasks
    obtain ⟨b', v', hpos', hlast', hbest'⟩ := hclean.positive.exists_bestBid hbids
    have hverdict : ∀ {x : OrderBook Double} {y : ℚ}, x.bestBid = fin y → 0 < y →
        x.asks.entries = [] → judge (FloatEnv.exact c) x (some (fin r)) (fin p) =
          (.bid, some (BookProcessor.blend (FloatEnv.exact c) (fin p) (fin r))) := by
      intro x y hx hy hnil
      rw [judge_known hp, bidsOnly_side hx (bestAsk_of_asks_nil hnil) hy, if_pos (Or.inl hlt),
        bidsOnly_reference hx (bestAsk_of_asks_nil hnil) hy,
        if_neg fun hge ↦ absurd hge.1 (not_le.2 hlt)]
    rw [hverdict hbest hpos hasks] at hside ⊢
    refine ⟨(hverdict hbest' hpos' hasks').symm, ?_⟩
    rw [refuses, refuses, hside, h.asks]

end Shadows

/-! ### The run with and the run without malformed ticks -/

/-- The second processor has not seen the malformed ticks of the first. -/
structure Simulates (bp clean : BookProcessor) : Prop where
  positive : AllPositive bp
  tracked : AllTracked clean
  shadows : ∀ symbol, Shadows (bp.bookOf symbol) (clean.bookOf symbol)
  reference : ∀ symbol, bp.reference symbol = clean.reference symbol

/-- The step in which a malformed price does harm: a price in range, not below the reference, meets
a best bid above the range. -/
def Tainted (bp : BookProcessor) (tick : MarketTick) : Prop :=
  ∃ p r b : ℚ, tick.price = fin p ∧ ValidPrice p ∧
    bp.reference tick.symbol.key = some (fin r) ∧ r ≤ p ∧
    (bp.bookOf tick.symbol.key).bids.last?.map Prod.fst = some (fin b) ∧ 1000000 < b

variable {bp clean : BookProcessor} {tick : MarketTick}

theorem simulates_fresh (dbQueue signalQueue : Option SnapshotQueue) :
    Simulates (fresh dbQueue signalQueue) (fresh dbQueue signalQueue) where
  positive := allPositive_fresh dbQueue signalQueue
  tracked := allTracked_fresh dbQueue signalQueue
  shadows symbol := by
    refine ⟨rfl, fun price ↦ ?_, fun level hlevel ↦ absurd hlevel List.not_mem_nil⟩
    exact (ite_self _).symm
  reference _ := rfl

/-- **A malformed tick moves the first processor only.** -/
theorem Simulates.processTick_malformed (h : Simulates bp clean)
    (hadds : AddsLevel (FloatEnv.exact c) tick) (hout : ¬ InRange tick.price) :
    Simulates (bp.processTick (FloatEnv.exact c) tick) clean := by
  obtain ⟨p, -, hprice⟩ := hadds.1
  have hjudge : ∀ book ref, judge (FloatEnv.exact c) book ref tick.price = (.bid, ref) := by
    rw [hprice] at hout ⊢
    exact judge_malformed fun hvalid ↦ hout (inRange_fin.2 hvalid)
  refine ⟨h.positive.processTick hadds.1, h.tracked, fun symbol ↦ ?_, fun symbol ↦ ?_⟩
  · rcases eq_or_ne symbol tick.symbol.key with rfl | hk
    · rw [bookOf_processTick_self]
      exact (h.shadows _).apply_malformed hadds.volume_pos (by
        show (judge _ _ _ _).1 = _
        rw [hjudge]) hout
    · rw [bookOf, book_processTick_of_ne _ _ _ hk]
      exact h.shadows symbol
  · rcases eq_or_ne symbol tick.symbol.key with rfl | hk
    · rw [reference_processTick_self, hjudge]
      exact h.reference _
    · rw [reference_processTick_of_ne _ _ _ hk]
      exact h.reference symbol

/-- **A tick in range is judged alike by both processors**, and placed or refused alike. -/
theorem Simulates.judge_eq (h : Simulates bp clean) (hreg : Regular c tick)
    (huntainted : ¬ Tainted bp tick) :
    judge (FloatEnv.exact c) (bp.bookOf tick.symbol.key) (bp.reference tick.symbol.key) tick.price =
        judge (FloatEnv.exact c) (clean.bookOf tick.symbol.key) (clean.reference tick.symbol.key)
          tick.price ∧
      (bp.bookOf tick.symbol.key).refuses (bp.deltaOf (FloatEnv.exact c) tick) =
        (clean.bookOf tick.symbol.key).refuses (bp.deltaOf (FloatEnv.exact c) tick) := by
  obtain ⟨p, hprice, hp⟩ := hreg.1
  have hshadows := h.shadows tick.symbol.key
  have htracked := h.tracked tick.symbol.key
  have href := h.reference tick.symbol.key
  rw [← href, hprice]
  rw [← href] at htracked
  rcases htracked.known with ⟨hnone, -, -⟩ | ⟨⟨r, hsome⟩, -⟩
  · rw [hnone, judge_first hp, judge_first hp]
    refine ⟨rfl, ?_⟩
    rw [refuses, refuses, side_of_first hreg hnone, hshadows.asks]
  · rw [hsome] at htracked ⊢
    refine hshadows.judge_eq (h.positive.bookOf _) htracked hp (fun b v hlast hb ↦ ?_) ?_
    · by_contra hge
      exact huntainted ⟨p, r, b, hprice, hp, hsome, not_lt.1 hge, by rw [hlast]; rfl, hb⟩
    · show (judge _ _ _ _).1 = _
      rw [hsome, hprice]

/-- **A tick in range moves both processors alike** unless it is tainted. -/
theorem Simulates.processTick (h : Simulates bp clean) (hreg : Regular c tick)
    (huntainted : ¬ Tainted bp tick) :
    Simulates (bp.processTick (FloatEnv.exact c) tick)
      (clean.processTick (FloatEnv.exact c) tick) := by
  obtain ⟨p, hprice, hp⟩ := hreg.1
  obtain ⟨hjudge, hrefuses⟩ := h.judge_eq hreg huntainted
  have hpos : 0 < p := lt_of_lt_of_le (by norm_num) hp.1
  have hdelta : clean.deltaOf (FloatEnv.exact c) tick = bp.deltaOf (FloatEnv.exact c) tick := by
    rw [deltaOf, deltaOf, sideOf, sideOf, hjudge]
  refine ⟨h.positive.processTick ⟨p, hpos, hprice⟩, h.tracked.processTick hreg, fun symbol ↦ ?_,
    fun symbol ↦ ?_⟩
  · rcases eq_or_ne symbol tick.symbol.key with rfl | hk
    · rw [bookOf_processTick_self, bookOf_processTick_self, hdelta]
      refine (h.shadows _).apply hreg.volume_pos ?_ hrefuses
      show InRange tick.price
      rw [hprice]
      exact inRange_fin.2 hp
    · rw [bookOf, bookOf, book_processTick_of_ne _ _ _ hk, book_processTick_of_ne _ _ _ hk]
      exact h.shadows symbol
  · rcases eq_or_ne symbol tick.symbol.key with rfl | hk
    · rw [reference_processTick_self, reference_processTick_self, hjudge]
    · rw [reference_processTick_of_ne _ _ _ hk, reference_processTick_of_ne _ _ _ hk]
      exact h.reference symbol

theorem regular_of_addsLevel (hadds : AddsLevel (FloatEnv.exact c) tick)
    (hin : wellFormed tick = true) : Regular c tick := by
  obtain ⟨p, -, hprice⟩ := hadds.1
  have hrange := of_decide_eq_true hin
  rw [hprice] at hrange
  exact ⟨⟨p, hprice, inRange_fin.1 hrange⟩, hadds.2⟩

/-- **The run and the run on the well-formed ticks.** -/
theorem simulates_filter (dbQueue signalQueue : Option SnapshotQueue) {ticks : List MarketTick}
    (hadds : ∀ t ∈ ticks, AddsLevel (FloatEnv.exact c) t)
    (huntainted : ∀ seen tick rest, ticks = seen ++ tick :: rest →
      ¬ Tainted (processed c dbQueue signalQueue seen) tick) :
    Simulates (processed c dbQueue signalQueue ticks)
      (processed c dbQueue signalQueue (ticks.filter wellFormed)) := by
  refine (offering (FloatEnv.exact c)).relates_filter (simulates_fresh dbQueue signalQueue)
    (fun seen tick rest hsplit hsel clean h ↦ ?_) fun seen tick rest hsplit hsel clean h ↦ ?_
  · exact h.processTick_malformed (hadds tick (by rw [hsplit]; simp)) (of_decide_eq_false hsel)
  · exact h.processTick (regular_of_addsLevel (hadds tick (by rw [hsplit]; simp)) hsel)
      (huntainted seen tick rest hsplit)

/-- **Without a tainted step malformed prices do no harm.** Along every run on ticks with positive
prices and volume, in which no price in range meets, at or above the reference, a best bid above the
range: deleting the malformed ticks changes neither the reference of any symbol at the end nor the
side of any tick that is left. -/
theorem malformed_harmless (c : Double → UInt64) (dbQueue signalQueue : Option SnapshotQueue)
    (ticks : List MarketTick) (hadds : ∀ t ∈ ticks, AddsLevel (FloatEnv.exact c) t)
    (huntainted : ∀ seen tick rest, ticks = seen ++ tick :: rest →
      ¬ Tainted (processed c dbQueue signalQueue seen) tick) :
    (∀ symbol, (processed c dbQueue signalQueue ticks).reference symbol =
        (processed c dbQueue signalQueue (ticks.filter wellFormed)).reference symbol) ∧
      ∀ seen tick rest, ticks = seen ++ tick :: rest → wellFormed tick = true →
        (processed c dbQueue signalQueue seen).sideOf (FloatEnv.exact c) tick =
          (processed c dbQueue signalQueue (seen.filter wellFormed)).sideOf (FloatEnv.exact c)
            tick := by
  refine ⟨(simulates_filter dbQueue signalQueue hadds huntainted).reference, ?_⟩
  rintro seen tick rest rfl hin
  have hbefore := simulates_filter dbQueue signalQueue
    (fun t ht ↦ hadds t (List.mem_append_left _ ht)) fun earlier t later hsplit ↦
      huntainted earlier t (later ++ tick :: rest) (by rw [hsplit, List.append_assoc]; rfl)
  have hreg := regular_of_addsLevel (hadds tick (by simp)) hin
  exact congrArg Prod.fst (hbefore.judge_eq hreg (huntainted seen tick rest rfl)).1

/-! ### A tainted step does harm -/

theorem not_tainted_of_bids (h : ∀ price ∈ (bp.bookOf tick.symbol.key).bids.last?.map Prod.fst,
    price ≤ fin 1000000) : ¬ Tainted bp tick := by
  rintro ⟨p, r, b, -, -, -, -, hlast, hb⟩
  exact absurd (fin_le_fin.1 (h _ hlast)) (not_le.2 hb)

/-- **The first tainted step sets the reference apart**, but for the coincidence that the reference
is half of the malformed bid already. -/
theorem Simulates.reference_ne_of_tainted (h : Simulates bp clean) (hreg : Regular c tick)
    {p r b : ℚ} (hprice : tick.price = fin p) (href : bp.reference tick.symbol.key = some (fin r))
    (hge : r ≤ p) (hlast : (bp.bookOf tick.symbol.key).bids.last?.map Prod.fst = some (fin b))
    (hb : 1000000 < b) (hne : 2 * r ≠ b) :
    (bp.processTick (FloatEnv.exact c) tick).reference tick.symbol.key ≠
      (clean.processTick (FloatEnv.exact c) tick).reference tick.symbol.key := by
  obtain ⟨q, hq, hp⟩ := hreg.1
  obtain rfl : p = q := fin.inj (hprice.symm.trans hq)
  obtain ⟨⟨price, v⟩, hlevel, hfst⟩ := Option.map_eq_some_iff.1 hlast
  obtain rfl : price = fin b := hfst
  have hshadows := h.shadows tick.symbol.key
  have hasks := hshadows.asks_nil_of_malformed (h.positive.bookOf _) hlevel hb
  have htracked := h.tracked tick.symbol.key
  have hcleanRef := (h.reference tick.symbol.key).symm.trans href
  obtain ⟨b', v', hpos', hlast', hbest'⟩ : ∃ b' v', 0 < b' ∧
      (clean.bookOf tick.symbol.key).bids.last? = some (fin b', v') ∧
      (clean.bookOf tick.symbol.key).bestBid = fin b' := by
    rcases htracked.known with ⟨hnone, -, -⟩ | ⟨-, hbids⟩
    · rw [hcleanRef] at hnone
      simp at hnone
    · exact htracked.positive.exists_bestBid hbids
  have hb' : b' ≤ 1000000 :=
    fin_le_fin.1 (hshadows.mem_bids_iff.1 (OrderedMap.last?_eq_some_iff.1 hlast').1).1.2
  rw [reference_processTick_self, reference_processTick_self, href, hcleanRef, hprice,
    judge_known hp, judge_known hp,
    bidsOnly_reference (bestBid_of_last? hlevel) (bestAsk_of_asks_nil hasks) (by linarith),
    if_pos ⟨hge, hp.2.trans hb.le⟩,
    bidsOnly_reference hbest' (bestAsk_of_asks_nil (hshadows.asks ▸ hasks)) hpos']
  split_ifs
  · rw [blend_fin, blend_fin, Ne, Option.some.injEq, fin.injEq]
    intro heq
    linarith
  · rw [blend_fin, blend_fin, Ne, Option.some.injEq, fin.injEq]
    intro heq
    exact hne (by linarith)

/-- **The first tainted step of a run does harm**, but for that coincidence: after it the references
of the two runs differ. -/
theorem reference_ne_of_first_tainted (dbQueue signalQueue : Option SnapshotQueue)
    {seen : List MarketTick} (hadds : ∀ t ∈ seen ++ [tick], AddsLevel (FloatEnv.exact c) t)
    (huntainted : ∀ earlier t later, seen = earlier ++ t :: later →
      ¬ Tainted (processed c dbQueue signalQueue earlier) t)
    {p r b : ℚ} (hprice : tick.price = fin p) (hvalid : ValidPrice p)
    (href : (processed c dbQueue signalQueue seen).reference tick.symbol.key = some (fin r))
    (hge : r ≤ p) (hlast : ((processed c dbQueue signalQueue seen).bookOf
      tick.symbol.key).bids.last?.map Prod.fst = some (fin b))
    (hb : 1000000 < b) (hne : 2 * r ≠ b) :
    (processed c dbQueue signalQueue (seen ++ [tick])).reference tick.symbol.key ≠
      (processed c dbQueue signalQueue ((seen ++ [tick]).filter wellFormed)).reference
        tick.symbol.key := by
  have hin : wellFormed tick = true := by
    rw [wellFormed, hprice, decide_eq_true_iff, inRange_fin]
    exact hvalid
  have hbefore := simulates_filter dbQueue signalQueue
    (fun t ht ↦ hadds t (List.mem_append_left _ ht)) huntainted
  have hreg := regular_of_addsLevel (hadds tick (by simp)) hin
  rw [List.filter_append, List.filter_singleton, hin, cond_true, processed, processed,
    Transducer.state_concat, Transducer.state_concat]
  exact hbefore.reference_ne_of_tainted hreg hprice href hge hlast hb hne

/-- A price below the range, one in range and one above it, once there is an ask. -/
theorem malformed_harmless_mixed :
    let ticks := [shareOfA 100, shareOfA (1 / 20), shareOfA 101, shareOfA 2000000]
    (∀ t ∈ ticks, AddsLevel (FloatEnv.exact fun _ ↦ 0) t) ∧
      (∀ symbol, (processed (fun _ ↦ 0) none none ticks).reference symbol =
        (processed (fun _ ↦ 0) none none (ticks.filter wellFormed)).reference symbol) ∧
      ∀ seen tick rest, ticks = seen ++ tick :: rest → wellFormed tick = true →
        (processed (fun _ ↦ 0) none none seen).sideOf (FloatEnv.exact fun _ ↦ 0) tick =
          (processed (fun _ ↦ 0) none none (seen.filter wellFormed)).sideOf
            (FloatEnv.exact fun _ ↦ 0) tick := by
  intro ticks
  have hadds : ∀ t ∈ ticks, AddsLevel (FloatEnv.exact fun _ ↦ 0) t := by
    intro t ht
    change t ∈ [_, _, _, _] at ht
    rcases ht with - | ⟨_, (- | ⟨_, (- | ⟨_, (- | ⟨_, ⟨⟩⟩)⟩)⟩)⟩
    all_goals exact addsLevel_shareOfA (by norm_num)
  have hbids : ∀ seen ∈ ticks.inits, ∀ tick ∈ ticks,
      ∀ price ∈ ((processed (fun _ ↦ 0) none none seen).bookOf
        tick.symbol.key).bids.last?.map Prod.fst, price ≤ fin 1000000 := by decide +kernel
  refine ⟨hadds, malformed_harmless (fun _ ↦ 0) none none ticks hadds fun seen tick rest h ↦ ?_⟩
  refine not_tainted_of_bids (hbids seen ?_ tick ?_)
  · exact (List.mem_inits _ _).2 ⟨tick :: rest, h.symm⟩
  · rw [h]
    simp

/-- **Malformed prices do influence the heuristic.** The bid at 2000000 meets no ask, and the second
price of 100 resets the reference to its half. -/
theorem malformed_not_harmless :
    ¬ ∀ ticks : List MarketTick, (∀ t ∈ ticks, AddsLevel (FloatEnv.exact fun _ ↦ 0) t) →
      (∀ symbol, (processed (fun _ ↦ 0) none none ticks).reference symbol =
        (processed (fun _ ↦ 0) none none (ticks.filter wellFormed)).reference symbol) ∧
      ∀ seen tick rest, ticks = seen ++ tick :: rest → wellFormed tick = true →
        (processed (fun _ ↦ 0) none none seen).sideOf (FloatEnv.exact fun _ ↦ 0) tick =
          (processed (fun _ ↦ 0) none none (seen.filter wellFormed)).sideOf
            (FloatEnv.exact fun _ ↦ 0) tick := by
  intro hall
  have hadds : ∀ t ∈ [shareOfA 100, shareOfA 2000000, shareOfA 100],
      AddsLevel (FloatEnv.exact fun _ ↦ 0) t := by
    rintro t (- | ⟨_, (- | ⟨_, (- | ⟨_, ⟨⟩⟩)⟩)⟩)
    all_goals exact addsLevel_shareOfA (by norm_num)
  exact absurd ((hall _ hadds).1 [65]) (by decide +kernel)

end BookProcessor

end Mdp
