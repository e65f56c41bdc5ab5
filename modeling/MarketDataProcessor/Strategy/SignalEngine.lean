import MarketDataProcessor.Core.MarketTick
import MarketDataProcessor.Foundations.Transducer

/-!
# The signal engine

`strategy/SignalEngine.cpp`, less its thread: an exponential moving average of the snapshot prices
of each symbol, and a trading signal for every snapshot, by the price's distance from the average.
The averages are keyed by the symbol's string.

## What is left to the period and the platform

The constructor takes any `int`, replaces one that is not positive by 20 and divides by its
successor as an `int`. `Period` holds the values for which that is defined, so that `new` need not
be partial. Arithmetic on doubles is a parameter, and so is the rounding of the factor: `alpha` is
what the platform makes of two divided by the successor.

`signalling` is the loop body as a transducer, and the modules behind this one reason about the
engine through it.
-/

namespace Mdp

/-- `SignalType`. -/
inductive SignalType where
  | hold
  | buy
  | sell
  deriving DecidableEq

/-- A trading signal. -/
structure Signal where
  symbol : Symbol
  price : Double
  emaValue : Double
  timestampNs : ℤ
  type : SignalType
  deriving DecidableEq

/-- A period the constructor can be given: an `int` whose successor, which it divides by, is one
too. Signed overflow is undefined, so the source gives `INT_MAX` no meaning. -/
structure Period where
  toInt : ℤ
  /-- `INT_MIN` or more. -/
  lower : -2 ^ 31 ≤ toInt
  /-- `period_ + 1` does not overflow. -/
  succ_lt : toInt + 1 < 2 ^ 31

namespace Period

/-- `int period = 20`, the default argument. -/
def default : Period := ⟨20, by decide, by decide⟩

/-- `period_` after the body of the constructor: a period that is not positive becomes 20. -/
def effective (period : Period) : ℤ := if period.toInt ≤ 0 then 20 else period.toInt

@[simp] theorem effective_default : default.effective = 20 := rfl

theorem one_le_effective (period : Period) : 1 ≤ period.effective := by
  unfold effective
  split_ifs <;> omega

theorem effective_succ_lt (period : Period) : period.effective + 1 < 2 ^ 31 := by
  have hlt := period.succ_lt
  unfold effective
  split_ifs <;> omega

end Period

/-- The engine: its smoothing factor and the average of every symbol seen. -/
structure SignalEngine where
  alpha : Double
  emaMap : UnorderedMap (List UInt8) Double

namespace SignalEngine

open Double

variable (fl : FloatEnv)

/-- The constructor. -/
def new (period : Period) : SignalEngine where
  alpha := fl.round (2 / (period.effective + 1))
  emaMap := ∅

/-- The average after a snapshot price. -/
def currentEma (engine : SignalEngine) (symbol : List UInt8) (price : Double) : Double :=
  match engine.emaMap.lookup symbol with
  | none => price
  | some ema =>
    fl.add (fl.mul price engine.alpha) (fl.mul ema (fl.sub (fl.round 1) engine.alpha))

/-- The trading rules, with their margin of 0.1%. -/
def signalType (ema price : Double) : SignalType :=
  if flt ema (fl.mul price (fl.round (999 / 1000))) then .buy
  else if flt (fl.mul price (fl.round (1001 / 1000))) ema then .sell
  else .hold

/-- The signal for a snapshot. -/
def signalFor (engine : SignalEngine) (snap : MarketSnapshot) : Signal :=
  let ema := engine.currentEma fl snap.symbol.key snap.price
  { symbol := snap.symbol
    price := snap.price
    emaValue := ema
    timestampNs := snap.timestampNs
    type := signalType fl ema snap.price }

/-- The engine after a snapshot. -/
def update (engine : SignalEngine) (snap : MarketSnapshot) : SignalEngine :=
  { engine with
    emaMap := engine.emaMap.insert snap.symbol.key
      (engine.currentEma fl snap.symbol.key snap.price) }

/-- The loop body of `run` as a transducer: one signal per snapshot. -/
def signalling : Transducer SignalEngine MarketSnapshot Signal where
  next engine snap := engine.update fl snap
  emit engine snap := [engine.signalFor fl snap]

end SignalEngine

end Mdp
