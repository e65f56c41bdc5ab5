import MarketDataProcessor.Foundations.BoundedQueue
import MarketDataProcessor.Foundations.StepRun
import MarketDataProcessor.Processing.TickParser

/-!
# The simulated feed

`feed/FeedSimulator.cpp`: a mid price, a spread and two sizes for every symbol, walked by normal
draws and clamped, and a tick from one side of the quote for each symbol in turn. The draws are an
argument; what the standard deviations are is left out with them, and so are the rate control and
the assertion of debug builds, which tests what is proved here.

The clamps do not depend on one another. The mid price is at least 10 and the spread at most 0.05,
for every symbol but `BTCUSD`: there the spread may be 50 while the mid price may still be 10, and
the bid is then negative. `Unquotable` says when a step gets there, and `quotes_valid_iff` that
nothing else makes an update or its tick invalid, but for a configuration whose prices are no
quotes from the start.

## When an update is valid

The assertion of debug builds wants a positive bid below the ask. The clamps bound mid price and
spread separately, so whether they leave a quote is one comparison, half of the spread against the
mid price (`quoted_updatePrice_iff`), and only `BTCUSD` has spreads that can lose it
(`clamped_spread_iff`). A tick of a valid quote passes the parser if its name does
(`validate_generateTick_iff`).

## Along a run

`valid_step` is one update: it keeps the invariant, and the update and its tick are valid exactly if
the step is none of `Breaks`. The condition is on the state before the step and on the draws, so
`quotes_valid_iff` is an equivalence over runs: all updates are valid exactly if no step breaks one.
The feed may be consumed in any way, since the quotes do not depend on what was dropped.
-/

namespace Mdp

open Double

/-- `FeedConfig`, as far as the simulator reads it. -/
structure FeedConfig where
  symbols : List (List UInt8)
  initialPrices : List Double
  tickRateHz : UInt64

/-- The state of one symbol. -/
structure SymbolState where
  symbol : List UInt8
  midPrice : Double
  spread : Double
  bidSize : Double
  askSize : Double

/-- The draws of one `update_price`, in the order in which they are made. -/
structure Noise where
  mid : ℚ
  spread : ℚ
  bid : ℚ
  ask : ℚ

namespace SymbolState

/-- `"AAPL"`. -/
def aapl : List UInt8 := [65, 65, 80, 76]

/-- `"MSFT"`. -/
def msft : List UInt8 := [77, 83, 70, 84]

/-- `"BTCUSD"`. -/
def btcusd : List UInt8 := [66, 84, 67, 85, 83, 68]

variable (fl : FloatEnv)

/-- A symbol at its first price, with this spread and this size on both sides. -/
def quotedAt (symbol : List UInt8) (price : Double) (spread size : ℚ) : SymbolState where
  symbol
  midPrice := price
  spread := fl.round spread
  bidSize := fl.round size
  askSize := fl.round size

/-- What the constructor makes of a symbol and its price. -/
def new (symbol : List UInt8) (price : Double) : SymbolState :=
  if symbol = aapl then quotedAt fl symbol price (2 / 100) 100
  else if symbol = msft then quotedAt fl symbol price (2 / 100) 100
  else if symbol = btcusd then quotedAt fl symbol price 5 1
  else quotedAt fl symbol price (2 / 100) 100

/-- The constants of `update_price` that depend on the symbol. -/
structure Limits where
  upperBound : ℚ
  target : ℚ
  sMin : ℚ
  sMax : ℚ

/-- `BTCUSD` has another scale. -/
def limitsOf (symbol : List UInt8) : Limits :=
  if symbol = btcusd then ⟨1000000, 5, 1 / 2, 50⟩ else ⟨10000, 1 / 100, 1 / 1000, 5 / 100⟩

/-- `update_price`. -/
def updatePrice (state : SymbolState) (noise : Noise) : SymbolState :=
  let limits := limitsOf state.symbol
  let reversion := fl.mul (fl.round (1 / 10)) (fl.sub (fl.round limits.target) state.spread)
  { state with
    midPrice :=
      clamp (fl.add state.midPrice (fin noise.mid)) (fl.round 10) (fl.round limits.upperBound)
    spread :=
      clamp (fl.add state.spread (fl.add reversion (fin noise.spread))) (fl.round limits.sMin)
        (fl.round limits.sMax)
    bidSize := clamp (fl.add state.bidSize (fin noise.bid)) (fl.round 1) (fl.round 10000)
    askSize := clamp (fl.add state.askSize (fin noise.ask)) (fl.round 1) (fl.round 10000) }

/-- `mid_price - spread / 2`. -/
def bid (state : SymbolState) : Double := fl.sub state.midPrice (fl.divBy state.spread 2)

/-- `mid_price + spread / 2`. -/
def ask (state : SymbolState) : Double := fl.add state.midPrice (fl.divBy state.spread 2)

/-- What the assertion of `run` demands. -/
def Quoted (state : SymbolState) : Prop :=
  flt (state.bid fl) (state.ask fl) = true ∧ flt 0 (state.bid fl) = true ∧
    flt 0 state.bidSize = true ∧ flt 0 state.askSize = true

instance (state : SymbolState) : Decidable (state.Quoted fl) :=
  inferInstanceAs (Decidable (_ ∧ _ ∧ _ ∧ _))

/-- `generate_tick`, on the state of its symbol. -/
def generateTick (state : SymbolState) (ticksPublished : UInt64) (noise : Noise) (now : ℤ) :
    SymbolState × MarketTick :=
  let state := state.updatePrice fl noise
  let isBid := ticksPublished % 2 == 0
  let price := if isBid then state.bid fl else state.ask fl
  let volume := if isBid then state.bidSize else state.askSize
  (state, .make state.symbol price volume (if isBid then 0 else 1) now)

/-! ### When the quote is one -/

/-- A draw after which the quote or its tick is not valid: the mid price is not a number; the name
begins with a NUL; or `BTCUSD` walks to a mid price of at most 25 and a spread of at least 20 that
is at least twice the mid price. -/
def Unquotable (state : SymbolState) (noise : Noise) : Prop :=
  let walked := 9 / 10 * state.spread.value + 1 / 2 + noise.spread
  state.midPrice = nan ∨ state.symbol.head? = some 0 ∨
    state.symbol = btcusd ∧ state.midPrice ≤ fin (25 - noise.mid) ∧ 20 ≤ walked ∧
      state.midPrice ≤ fin (walked / 2 - noise.mid)

/-- A positive spread and sizes. -/
structure Sized (state : SymbolState) : Prop where
  spread : ∃ s, 0 < s ∧ state.spread = fin s
  bidSize : ∃ b, 0 < b ∧ state.bidSize = fin b
  askSize : ∃ a, 0 < a ∧ state.askSize = fin a

section Exact

variable (c : Double → UInt64) {state : SymbolState} {noise : Noise}

theorem sized_new (symbol : List UInt8) (price : Double) : (new (.exact c) symbol price).Sized := by
  have hquotedAt : ∀ spread size : ℚ, 0 < spread → 0 < size →
      (quotedAt (.exact c) symbol price spread size).Sized := fun spread size hspread hsize ↦
    ⟨⟨spread, hspread, rfl⟩, ⟨size, hsize, rfl⟩, size, hsize, rfl⟩
  rw [new]
  split_ifs <;> exact hquotedAt _ _ (by norm_num) (by norm_num)

/-- A quote around a finite mid price. -/
theorem quoted_iff_of_fin {m s : ℚ} (hm : state.midPrice = fin m) (hs : state.spread = fin s)
    (hspread : 0 < s) (hsized : state.Sized) : state.Quoted (.exact c) ↔ s < 2 * m := by
  obtain ⟨b, hb, hbid⟩ := hsized.bidSize
  obtain ⟨a, ha, hask⟩ := hsized.askSize
  have hbidPrice : state.bid (.exact c) = fin (m - s / 2) := by
    rw [bid, hm, hs, FloatEnv.exact_divBy_fin, FloatEnv.exact_sub_fin]
  have haskPrice : state.ask (.exact c) = fin (m + s / 2) := by
    rw [ask, hm, hs, FloatEnv.exact_divBy_fin, FloatEnv.exact_add_fin]
  rw [Quoted, hbidPrice, haskPrice, hbid, hask, zero_def]
  simp only [flt_fin, decide_eq_true_iff]
  constructor
  · rintro ⟨-, hpos, -, -⟩
    linarith
  · intro h
    exact ⟨by linarith, by linarith, hb, ha⟩

/-- A mid price that is no number gives no quote, and neither does an infinite one. -/
theorem not_quoted_of_not_fin (hsized : state.Sized) (h : ∀ m, state.midPrice ≠ fin m) :
    ¬ state.Quoted (.exact c) := by
  obtain ⟨s, -, hs⟩ := hsized.spread
  rintro ⟨hlt, -⟩
  rw [bid, ask, hs] at hlt
  cases hmid : state.midPrice with
  | fin m => exact h m hmid
  | nan => rw [hmid] at hlt; exact absurd hlt (by simp [FloatEnv.sub, FloatEnv.add, flt])
  | posInf => rw [hmid] at hlt; exact absurd hlt (by simp [FloatEnv.sub, FloatEnv.add, flt])
  | negInf => rw [hmid] at hlt; exact absurd hlt (by simp [FloatEnv.sub, FloatEnv.add, flt])

theorem limitsOf_le (symbol : List UInt8) :
    0 < (limitsOf symbol).sMin ∧ (limitsOf symbol).sMin ≤ (limitsOf symbol).sMax ∧
      (limitsOf symbol).sMax ≤ 50 ∧ 10000 ≤ (limitsOf symbol).upperBound := by
  rw [limitsOf]
  split_ifs <;> norm_num

/-- The spread after an update. -/
theorem spread_updatePrice {s : ℚ} (hs : state.spread = fin s) (noise : Noise) :
    let limits := limitsOf state.symbol
    (state.updatePrice (.exact c) noise).spread = fin (max limits.sMin
      (min (s + (1 / 10 * (limits.target - s) + noise.spread)) limits.sMax)) := by
  intro limits
  rw [← clamp_fin (limitsOf_le state.symbol).2.1]
  show clamp ((FloatEnv.exact c).add state.spread ((FloatEnv.exact c).add ((FloatEnv.exact c).mul
    (fin (1 / 10)) ((FloatEnv.exact c).sub (fin _) state.spread)) _)) _ _ = _
  rw [hs, FloatEnv.exact_sub_fin]
  rfl

/-- **An update keeps the spread and the sizes positive.** -/
theorem Sized.updatePrice (h : state.Sized) (noise : Noise) :
    (state.updatePrice (.exact c) noise).Sized := by
  obtain ⟨s, -, hs⟩ := h.spread
  obtain ⟨b, -, hb⟩ := h.bidSize
  obtain ⟨a, -, ha⟩ := h.askSize
  have hsize : ∀ size draw : ℚ, ∃ r, 0 < r ∧
      clamp ((FloatEnv.exact c).add (fin size) (fin draw)) (fin 1) (fin 10000) = fin r :=
    fun size draw ↦ ⟨_, lt_max_of_lt_left one_pos, clamp_fin (by norm_num)⟩
  refine ⟨?_, ?_, ?_⟩
  · exact ⟨_, lt_max_of_lt_left (limitsOf_le state.symbol).1, spread_updatePrice c hs noise⟩
  · obtain ⟨r, hr, hclamp⟩ := hsize b noise.bid
    exact ⟨r, hr, by rw [← hclamp, ← hb]; rfl⟩
  · obtain ⟨r, hr, hclamp⟩ := hsize a noise.ask
    exact ⟨r, hr, by rw [← hclamp, ← ha]; rfl⟩

/-- **The quote after an update**, by the clamped spread: the mid price gets in its way if half of
the spread is above the lower bound of the mid prices. -/
theorem quoted_updatePrice_iff (hsized : state.Sized) (hmid : state.midPrice ≠ nan) {s : ℚ}
    (hs : (state.updatePrice (.exact c) noise).spread = fin s) (hle : s ≤ 50) :
    (state.updatePrice (.exact c) noise).Quoted (.exact c) ↔
      ¬ (20 ≤ s ∧ state.midPrice ≤ fin (s / 2 - noise.mid)) := by
  have hsized' := hsized.updatePrice c noise
  have hupper := (limitsOf_le state.symbol).2.2.2
  obtain ⟨m, hm, -, -, hbounds⟩ := exists_clamp_eq
    (FloatEnv.exact_add_fin_ne_nan c hmid noise.mid)
    (show (10 : ℚ) ≤ (limitsOf state.symbol).upperBound by linarith)
  have hspread : 0 < s := by
    obtain ⟨s', hpos, hs'⟩ := hsized'.spread
    obtain rfl : s = s' := fin.inj (hs.symm.trans hs')
    exact hpos
  have hhalf : m ≤ s / 2 ↔ 20 ≤ s ∧ state.midPrice ≤ fin (s / 2 - noise.mid) := by
    rw [hbounds, FloatEnv.exact_add_fin_le_fin c hmid]
    constructor
    · rintro ⟨hlow, hhigh | hwalk⟩
      · linarith
      · exact ⟨by linarith, hwalk⟩
    · rintro ⟨hlow, hwalk⟩
      exact ⟨by linarith, Or.inr hwalk⟩
  rw [quoted_iff_of_fin c hm hs hspread hsized', ← hhalf, not_le]
  constructor <;> intro h <;> linarith

/-- The clamp of the spread of `BTCUSD` does not matter below 20, and caps half of it at 25. -/
theorem clamped_spread_iff (mid : Double) (walked draw : ℚ) :
    (20 ≤ max (1 / 2) (min walked 50) ∧
        mid ≤ fin (max (1 / 2) (min walked 50) / 2 - draw)) ↔
      mid ≤ fin (25 - draw) ∧ 20 ≤ walked ∧ mid ≤ fin (walked / 2 - draw) := by
  rcases lt_or_ge walked 20 with hsmall | hlarge
  · refine iff_of_false ?_ fun h ↦ by linarith [h.2.1]
    rintro ⟨h20, -⟩
    rcases le_max_iff.1 h20 with h | h
    · norm_num at h
    · linarith [min_le_left walked 50]
  · have hmin : (20 : ℚ) ≤ min walked 50 := le_min hlarge (by norm_num)
    rw [max_eq_right (le_trans (by norm_num) hmin)]
    rcases le_total walked 50 with hle | hle
    · rw [min_eq_left hle]
      refine ⟨fun h ↦ ⟨h.2.trans (fin_le_fin.2 (by linarith)), h⟩, fun h ↦ h.2⟩
    · rw [min_eq_right hle]
      refine ⟨fun h ↦ ⟨?_, hlarge, h.2.trans (fin_le_fin.2 (by linarith))⟩,
        fun h ↦ ⟨by norm_num, ?_⟩⟩
      · exact h.2.trans (fin_le_fin.2 (by linarith))
      · exact h.1.trans (fin_le_fin.2 (by linarith))

/-- **When an update leaves a quote.** -/
theorem quoted_updatePrice_iff_not (hsized : state.Sized) (hname : state.symbol.head? ≠ some 0) :
    (state.updatePrice (.exact c) noise).Quoted (.exact c) ↔ ¬ state.Unquotable noise := by
  rcases eq_or_ne state.midPrice nan with hmid | hmid
  · -- the clamp lets it through
    have hnan : (state.updatePrice (.exact c) noise).midPrice = nan := by
      show clamp ((FloatEnv.exact c).add state.midPrice _) _ _ = nan
      rw [hmid]
      exact clamp_nan _ _
    refine iff_of_false (not_quoted_of_not_fin c (hsized.updatePrice c noise) fun m ↦ ?_) ?_
    · rw [hnan]
      simp
    · exact not_not_intro (Or.inl hmid)
  · obtain ⟨s, -, hs⟩ := hsized.spread
    have hspread := spread_updatePrice c hs noise
    rw [Unquotable, hs, value_fin]
    rcases eq_or_ne state.symbol btcusd with hbtc | hbtc
    · have hlimits : limitsOf state.symbol = ⟨1000000, 5, 1 / 2, 50⟩ := if_pos hbtc
      have hwalked : s + (1 / 10 * (5 - s) + noise.spread) = 9 / 10 * s + 1 / 2 + noise.spread := by
        ring
      simp only [hlimits, hwalked] at hspread
      rw [quoted_updatePrice_iff c hsized hmid hspread (max_le (by norm_num) (min_le_right _ _)),
        clamped_spread_iff, not_iff_not]
      exact ⟨fun h ↦ Or.inr (Or.inr ⟨hbtc, h⟩),
        fun h ↦ ((h.resolve_left hmid).resolve_left hname).2⟩
    · have hlimits : limitsOf state.symbol = ⟨10000, 1 / 100, 1 / 1000, 5 / 100⟩ := if_neg hbtc
      simp only [hlimits] at hspread
      have hle : max (1 / 1000) (min (s + (1 / 10 * (1 / 100 - s) + noise.spread)) (5 / 100)) ≤
          (5 / 100 : ℚ) := max_le (by norm_num) (min_le_right _ _)
      rw [quoted_updatePrice_iff c hsized hmid hspread (hle.trans (by norm_num))]
      refine iff_of_true ?_ ?_
      · rintro ⟨h20, -⟩
        linarith
      · rintro (h | h | h)
        · exact hmid h
        · exact hname h
        · exact hbtc h.1

/-- **A tick of a valid quote passes the parser** if its name does. -/
theorem validate_generateTick_iff (hsized : state.Sized) (hname : state.symbol ≠ [])
    (published : UInt64) {now : ℤ} (hnow : 0 < now)
    (hquoted : (state.updatePrice (.exact c) noise).Quoted (.exact c)) :
    TickParser.validate (TickParser.enrich
        (state.generateTick (.exact c) published noise now).2) = true ↔
      state.symbol.head? ≠ some 0 := by
  have hsized' := hsized.updatePrice c noise
  obtain ⟨s, hs, hspread⟩ := hsized'.spread
  obtain ⟨b, hb, hbid⟩ := hsized'.bidSize
  obtain ⟨a, ha, hask⟩ := hsized'.askSize
  obtain ⟨m, hm⟩ : ∃ m, (state.updatePrice (.exact c) noise).midPrice = fin m := by
    by_contra hnone
    exact not_quoted_of_not_fin c hsized' (not_exists.1 hnone) hquoted
  have hlt := (quoted_iff_of_fin c hm hspread hs hsized').1 hquoted
  refine TickParser.validate_enrich_make hname ?_ ?_ _ hnow
  · rw [bid, ask, hm, hspread, FloatEnv.exact_divBy_fin, FloatEnv.exact_sub_fin]
    split_ifs
    · exact ⟨m - s / 2, by linarith, rfl⟩
    · exact ⟨m + s / 2, by linarith, rfl⟩
  · rw [hbid, hask]
    split_ifs
    · exact fin_pos.2 hb
    · exact fin_pos.2 ha

/-- **When an update and its tick are valid.** -/
theorem valid_generateTick_iff (hsized : state.Sized) (hname : state.symbol ≠ []) (noise : Noise)
    (published : UInt64) {now : ℤ} (hnow : 0 < now) :
    ((state.updatePrice (.exact c) noise).Quoted (.exact c) ∧
        TickParser.validate (TickParser.enrich
          (state.generateTick (.exact c) published noise now).2) = true) ↔
      ¬ state.Unquotable noise := by
  rcases eq_or_ne (state.symbol.head?) (some 0) with hhead | hhead
  · refine iff_of_false ?_ (not_not_intro (Or.inr (Or.inl hhead)))
    rintro ⟨hquoted, hvalid⟩
    exact (validate_generateTick_iff c hsized hname published hnow hquoted).1 hvalid hhead
  · rw [← quoted_updatePrice_iff_not c hsized hhead]
    refine ⟨fun h ↦ h.1, fun h ↦ ⟨h, ?_⟩⟩
    exact (validate_generateTick_iff c hsized hname published hnow h).2 hhead

end Exact

end SymbolState

/-- The simulator with its output. -/
structure SimulatedFeed where
  symbolStates : List SymbolState
  ticksPublished : UInt64
  ticksDropped : UInt64
  /-- `symbol_idx`, the symbol whose turn it is. -/
  symbolIdx : ℕ
  /-- `TickRingBuffer16K`. -/
  output : BoundedQueue MarketTick 16384
  /-- History: the states after every call of `generate_tick`, and the tick it returned. -/
  updates : List (List SymbolState × MarketTick)

namespace SimulatedFeed

open SymbolState

/-- What can happen. The clock is past its epoch. -/
inductive Action where
  /-- The loop of `run` makes a tick of the next symbol. -/
  | generate (noise : Noise) (now : {t : ℤ // 0 < t})
  /-- A tick leaves the output. -/
  | take

variable (fl : FloatEnv) (config : FeedConfig)

/-- The constructor; a symbol without a price starts at 100. -/
def init : SimulatedFeed where
  symbolStates := config.symbols.zipIdx.map fun (symbol, i) ↦
    SymbolState.new fl symbol (config.initialPrices.getD i (fl.round 100))
  ticksPublished := 0
  ticksDropped := 0
  symbolIdx := 0
  output := BoundedQueue.empty
  updates := []

/-- The body of the loop, for the symbol whose turn it is. -/
def advance (s : SimulatedFeed) (state : SymbolState) (noise : Noise) (now : ℤ) : SimulatedFeed :=
  let next := state.generateTick fl s.ticksPublished noise now
  let states := s.symbolStates.set s.symbolIdx next.1
  let pushed := s.output.tryPush next.2
  { symbolStates := states
    ticksPublished := if pushed.isSome then s.ticksPublished + 1 else s.ticksPublished
    ticksDropped := if pushed.isSome then s.ticksDropped else s.ticksDropped + 1
    symbolIdx := if s.symbolIdx + 1 < s.symbolStates.length then s.symbolIdx + 1 else 0
    output := pushed.getD s.output
    updates := s.updates ++ [(states, next.2)] }

/-- One step of the feed. Without a tick rate `run` returns at once. -/
def step (s : SimulatedFeed) : Action → Option SimulatedFeed
  | .generate noise now =>
    if config.tickRateHz = 0 then none
    else s.symbolStates[s.symbolIdx]?.map fun state ↦ s.advance fl state noise now
  | .take => s.output.tryPop.map fun (_, output') ↦ { s with output := output' }

/-- What the outside may rely on after an update: every symbol is quoted, and the tick passes the
parser. -/
def ValidUpdate (update : List SymbolState × MarketTick) : Prop :=
  (∀ state ∈ update.1, state.Quoted fl) ∧
    TickParser.validate (TickParser.enrich update.2) = true

/-- A price that is a number above half of the spread. -/
def Priced (state : SymbolState) : Prop :=
  ∃ p, state.midPrice = fin p ∧ state.spread.value < 2 * p

/-- The steps that break a quote: the draws of `Unquotable`, and the first update of a feed in which
a later symbol is configured with a price that is none. -/
def Breaks (s : SimulatedFeed) : Action → Prop
  | .generate noise _ =>
    (∃ state, s.symbolStates[s.symbolIdx]? = some state ∧ state.Unquotable noise) ∨
      s.updates = [] ∧ ∃ state ∈ s.symbolStates.tail, ¬ Priced state
  | .take => False

/-- What holds in every reachable state. -/
structure Invariant (s : SimulatedFeed) : Prop where
  /-- Spreads and sizes are positive, and every symbol has a name. -/
  states : ∀ state ∈ s.symbolStates, state.Sized ∧ state.symbol ≠ []
  /-- The first symbol is the first to be updated. -/
  first : s.updates = [] → s.symbolIdx = 0
  /-- The last update left the states as they are. -/
  last : ∀ update ∈ s.updates.getLast?, update.1 = s.symbolStates

section Exact

variable (c : Double → UInt64) {config : FeedConfig} {s t : SimulatedFeed}

theorem quoted_iff_priced {state : SymbolState} (hsized : state.Sized) :
    state.Quoted (.exact c) ↔ Priced state := by
  obtain ⟨sp, hpos, hs⟩ := hsized.spread
  constructor
  · intro hquoted
    obtain ⟨m, hm⟩ : ∃ m, state.midPrice = fin m := by
      by_contra hnone
      exact not_quoted_of_not_fin c hsized (not_exists.1 hnone) hquoted
    refine ⟨m, hm, ?_⟩
    rw [hs, value_fin]
    exact (quoted_iff_of_fin c hm hs hpos hsized).1 hquoted
  · rintro ⟨m, hm, hlt⟩
    rw [hs, value_fin] at hlt
    exact (quoted_iff_of_fin c hm hs hpos hsized).2 hlt

theorem invariant_init (hnames : ∀ name ∈ config.symbols, name ≠ []) :
    (init (.exact c) config).Invariant := by
  refine ⟨fun state hstate ↦ ?_, fun _ ↦ rfl, fun update hupdate ↦ by simp [init] at hupdate⟩
  obtain ⟨⟨symbol, i⟩, hmem, rfl⟩ := List.mem_map.1 hstate
  refine ⟨sized_new c symbol _, ?_⟩
  have hsymbol : (SymbolState.new (.exact c) symbol
      (config.initialPrices.getD i ((FloatEnv.exact c).round 100))).symbol = symbol := by
    rw [SymbolState.new]
    split_ifs <;> rfl
  rw [hsymbol]
  exact hnames symbol (List.fst_mem_of_mem_zipIdx hmem)

/-- The states after an update are quoted if the updated one is, once they all were or, before the
first update, if the others are priced. -/
theorem forall_quoted_set_iff (hinv : s.Invariant) (hlt : s.symbolIdx < s.symbolStates.length)
    (hvalid : ∀ update ∈ s.updates, ValidUpdate (.exact c) update) (state' : SymbolState) :
    (∀ x ∈ s.symbolStates.set s.symbolIdx state', x.Quoted (.exact c)) ↔
      state'.Quoted (.exact c) ∧ ¬ (s.updates = [] ∧ ∃ x ∈ s.symbolStates.tail, ¬ Priced x) := by
  rcases List.eq_nil_or_concat s.updates with hnil | ⟨earlier, update, hlast⟩
  · -- before the first update it is the first symbol's turn
    rw [hinv.first hnil] at hlt ⊢
    obtain ⟨first, others, hstates⟩ := List.exists_cons_of_length_pos hlt
    have hpriced : (∀ x ∈ others, x.Quoted (.exact c)) ↔ ∀ x ∈ others, Priced x := by
      refine forall₂_congr fun x hx ↦ quoted_iff_priced c (hinv.states x ?_).1
      rw [hstates]
      exact List.mem_cons_of_mem first hx
    rw [hstates, List.set_cons_zero, List.forall_mem_cons, List.tail_cons, hpriced]
    simp [hnil]
  · have hbefore : ∀ x ∈ s.symbolStates, x.Quoted (.exact c) := by
      rw [← hinv.last update (by rw [hlast, List.concat_eq_append, List.getLast?_concat]; rfl)]
      exact (hvalid update (by rw [hlast]; simp)).1
    have hsome : s.updates ≠ [] := by rw [hlast]; simp
    refine ⟨fun h ↦ ⟨h state' (List.mem_set hlt state'), fun hfirst ↦ hsome hfirst.1⟩, ?_⟩
    rintro ⟨hquoted, -⟩ x hx
    rcases List.mem_or_eq_of_mem_set hx with hx | rfl
    · exact hbefore x hx
    · exact hquoted

/-- **A step keeps the invariant, and breaks the validity exactly where `Breaks` says.** -/
theorem valid_step {a : Action} (hinv : s.Invariant) (hstep : s.step (.exact c) config a = some t) :
    t.Invariant ∧ ((∀ update ∈ t.updates, ValidUpdate (.exact c) update) ↔
      (∀ update ∈ s.updates, ValidUpdate (.exact c) update) ∧ ¬ s.Breaks a) := by
  cases a with
  | take =>
    obtain ⟨⟨tick, output'⟩, -, rfl⟩ := Option.map_eq_some_iff.1 hstep
    exact ⟨⟨hinv.states, hinv.first, hinv.last⟩, by simp [Breaks]⟩
  | generate noise now =>
    rw [step] at hstep
    split_ifs at hstep
    obtain ⟨state, hstate, rfl⟩ := Option.map_eq_some_iff.1 hstep
    obtain ⟨hlt, hget⟩ := List.getElem?_eq_some_iff.1 hstate
    have hmem : state ∈ s.symbolStates := hget ▸ List.getElem_mem hlt
    obtain ⟨hsized, hname⟩ := hinv.states state hmem
    refine ⟨⟨?_, fun hnil ↦ by simp [advance] at hnil, ?_⟩, ?_⟩
    · intro x hx
      rcases List.mem_or_eq_of_mem_set hx with hx | rfl
      · exact hinv.states x hx
      · exact ⟨hsized.updatePrice c noise, hname⟩
    · intro update hupdate
      rw [advance, List.getLast?_concat, Option.mem_some_iff] at hupdate
      rw [← hupdate]
      rfl
    · have htick := valid_generateTick_iff c hsized hname noise s.ticksPublished now.2
      show (∀ update ∈ s.updates ++ [_], _) ↔ _
      rw [List.forall_mem_append, List.forall_mem_singleton]
      refine and_congr_right fun hvalid ↦ ?_
      rw [ValidUpdate, forall_quoted_set_iff c hinv hlt hvalid, Breaks, not_or]
      have hbad : (∃ x, s.symbolStates[s.symbolIdx]? = some x ∧ x.Unquotable noise) ↔
          state.Unquotable noise := by simp [hstate]
      rw [hbad, ← htick]
      tauto

/-- **When the simulated quotes are valid.** Along every run of the feed, whatever is drawn and
whenever a tick is taken from the output: after every update all symbols are quoted and the tick
passes the parser, exactly if no step of the run breaks a quote. -/
theorem quotes_valid_iff (hnames : ∀ name ∈ config.symbols, name ≠ []) {acts : List Action}
    (hrun : StepRun.run (step (.exact c) config) (init (.exact c) config) acts = some s) :
    (∀ update ∈ s.updates, ValidUpdate (.exact c) update) ↔
      StepRun.Avoids (step (.exact c) config) Breaks (init (.exact c) config) acts :=
  StepRun.run_holds_iff (fun _ _ _ hinv hstep ↦ valid_step c hinv hstep) (invariant_init c hnames)
    (by simp [init]) hrun

end Exact

instance (fl : FloatEnv) (update : List SymbolState × MarketTick) :
    Decidable (ValidUpdate fl update) :=
  inferInstanceAs (Decidable (_ ∧ _))

/-- Two symbols at their usual prices, and draws of zero. -/
theorem quotes_valid_iff_btcusd_aapl :
    let config : FeedConfig := ⟨[btcusd, aapl], [fin 60000, fin 200], 1⟩
    let acts : List Action :=
      [.generate ⟨0, 0, 0, 0⟩ ⟨1, Int.one_pos⟩,
        .generate ⟨0, 0, 0, 0⟩ ⟨2, Int.natCast_pos.2 Nat.two_pos⟩]
    ∃ s, StepRun.run (step (.exact fun _ ↦ 0) config) (init (.exact fun _ ↦ 0) config) acts =
        some s ∧ s.updates.length = 2 ∧
      StepRun.Avoids (step (.exact fun _ ↦ 0) config) Breaks (init (.exact fun _ ↦ 0) config)
        acts := by
  intro config acts
  obtain ⟨s, hrun, hend⟩ := Option.map_eq_some_iff.1 (by decide +kernel :
    (StepRun.run (step (.exact fun _ ↦ 0) config) (init (.exact fun _ ↦ 0) config) acts).map
      (fun s ↦ (s.updates.length, decide (∀ u ∈ s.updates, ValidUpdate (.exact fun _ ↦ 0) u))) =
        some (2, true))
  obtain ⟨hlen, hvalid⟩ := Prod.mk.inj hend
  have hnames : ∀ name ∈ config.symbols, name ≠ [] := by decide
  exact ⟨s, hrun, hlen, (quotes_valid_iff _ hnames hrun).1 (of_decide_eq_true hvalid)⟩

/-- **Not every quote is valid.** `BTCUSD` at 10 with a draw of 16 for its spread has the bid
`10 - 21 / 2`. -/
theorem not_always_quoted :
    ¬ ∀ (config : FeedConfig) (acts : List Action) (s : SimulatedFeed),
      (∀ name ∈ config.symbols, name ≠ []) →
      StepRun.run (step (.exact fun _ ↦ 0) config) (init (.exact fun _ ↦ 0) config) acts = some s →
      ∀ update ∈ s.updates, ValidUpdate (.exact fun _ ↦ 0) update := by
  intro hall
  let config : FeedConfig := ⟨[btcusd], [fin 10], 1⟩
  obtain ⟨s, hrun, hend⟩ := Option.map_eq_some_iff.1 (by decide +kernel :
    (StepRun.run (step (.exact fun _ ↦ 0) config) (init (.exact fun _ ↦ 0) config)
      [.generate ⟨0, 16, 0, 0⟩ ⟨1, Int.one_pos⟩]).map
      (fun s ↦ decide (∀ u ∈ s.updates, ValidUpdate (.exact fun _ ↦ 0) u)) = some false)
  exact of_decide_eq_false hend (hall config _ s (by decide) hrun)

end SimulatedFeed

end Mdp
