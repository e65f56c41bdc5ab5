import MarketDataProcessor.Core.MarketTick
import MarketDataProcessor.Foundations.Transducer

/-!
# The normalizer

`processing/Normalizer.cpp`, less its thread: per symbol, a tick that repeats the price and the
timestamp of the last forwarded one is dropped as a duplicate, and a tick with an older timestamp as
reordered; any other tick becomes the last one of its symbol and goes on. The source keeps the
timestamp and the tick in two maps, both keyed by the eight bytes of the symbol.

## What a verdict depends on

The maps are looked at in one place, the entry of the tick's own symbol. `memory` is that entry, a
pair since there are two maps, and `classify_congr` says that two states with equal memories of a
symbol judge its ticks alike and remember alike. Isolation of symbols and the specification without
maps are both read off it, and no module behind this one looks into an `AList` of the normalizer.
-/

namespace Mdp

namespace Normalizer

open Double

/-- The per-symbol state. -/
structure State where
  lastTimestamp : UnorderedMap Symbol ℤ
  lastTick : UnorderedMap Symbol MarketTick

/-- `is_duplicate`. -/
def isDuplicate (s : State) (tick : MarketTick) : Bool :=
  match s.lastTick.lookup tick.symbol with
  | some last => feq last.price tick.price && decide (last.timestampNs = tick.timestampNs)
  | none => false

/-- `is_reordered`. -/
def isReordered (s : State) (tick : MarketTick) : Bool :=
  match s.lastTimestamp.lookup tick.symbol with
  | some last => decide (tick.timestampNs < last)
  | none => false

/-- `update_state`. -/
def updateState (s : State) (tick : MarketTick) : State where
  lastTimestamp := s.lastTimestamp.insert tick.symbol tick.timestampNs
  lastTick := s.lastTick.insert tick.symbol tick

/-- Why a tick is dropped; counted in `ticks_deduplicated` and `ticks_reordered`. -/
inductive Drop where
  | deduplicated
  | reordered
  deriving DecidableEq

/-- The judgement of the stage. -/
def stage : FilterStage State MarketTick MarketTick Drop where
  init := ⟨∅, ∅⟩
  classify s tick :=
    if isDuplicate s tick then (s, .drop .deduplicated)
    else if isReordered s tick then (s, .drop .reordered)
    else (updateState s tick, .forward tick)

/-- `normalize`: the sequential per-symbol filter. -/
def normalize (ticks : List MarketTick) : List MarketTick := stage.forwardedOf ticks

/-- The drops of the normalizer are duplicates and reordered ticks. -/
theorem length_dropsOf_stage (ticks : List MarketTick) :
    (stage.dropsOf ticks).length =
      (stage.dropsOf ticks).count .deduplicated + (stage.dropsOf ticks).count .reordered := by
  induction stage.dropsOf ticks with
  | nil => rfl
  | cons why drops ih =>
    cases why <;> simp only [List.length_cons, List.count_cons, ih] <;> simp <;> omega

/-- The three verdicts. -/
theorem classify_cases (s : State) (tick : MarketTick) :
    stage.classify s tick = (s, .drop .deduplicated) ∨
      stage.classify s tick = (s, .drop .reordered) ∨
      stage.classify s tick = (updateState s tick, .forward tick) := by
  simp only [stage]
  split_ifs with hdup hreo
  · exact Or.inl rfl
  · exact Or.inr (Or.inl rfl)
  · exact Or.inr (Or.inr rfl)

/-- What is forwarded was received. -/
theorem mem_of_mem_normalize {tick : MarketTick} {ticks : List MarketTick}
    (h : tick ∈ normalize ticks) : tick ∈ ticks := by
  induction ticks using List.reverseRecOn with
  | nil => exact h
  | append_singleton ticks last ih =>
    rw [normalize, FilterStage.forwardedOf_concat, List.mem_append] at h
    rcases h with h | h
    · exact List.mem_append_left _ (ih h)
    · refine List.mem_append_right _ ?_
      rcases classify_cases (stage.stateAfter ticks) last with heq | heq | heq
      · rw [heq] at h
        exact absurd h List.not_mem_nil
      · rw [heq] at h
        exact absurd h List.not_mem_nil
      · rwa [heq] at h

/-! ### One symbol at a time -/

/-- What the normalizer remembers of a symbol. -/
def memory (s : State) (symbol : Symbol) : Option ℤ × Option MarketTick :=
  (s.lastTimestamp.lookup symbol, s.lastTick.lookup symbol)

theorem memory_updateState_self (s : State) (tick : MarketTick) :
    memory (updateState s tick) tick.symbol = (some tick.timestampNs, some tick) := by
  rw [memory, updateState, AList.lookup_insert, AList.lookup_insert]

theorem memory_updateState_of_ne {s : State} {tick : MarketTick} {symbol : Symbol}
    (h : symbol ≠ tick.symbol) : memory (updateState s tick) symbol = memory s symbol := by
  rw [memory, updateState, AList.lookup_insert_ne h, AList.lookup_insert_ne h]
  rfl

theorem memory_classify_of_ne {s : State} {tick : MarketTick} {symbol : Symbol}
    (h : symbol ≠ tick.symbol) : memory (stage.classify s tick).1 symbol = memory s symbol := by
  rcases classify_cases s tick with heq | heq | heq
  · rw [heq]
  · rw [heq]
  · rw [heq, memory_updateState_of_ne h]

/-- **A verdict depends on the memory of the tick's own symbol only**, and so does what is
remembered of it afterwards. -/
theorem classify_congr {s t : State} {tick : MarketTick}
    (h : memory s tick.symbol = memory t tick.symbol) :
    (stage.classify s tick).2 = (stage.classify t tick).2 ∧
      memory (stage.classify s tick).1 tick.symbol =
        memory (stage.classify t tick).1 tick.symbol := by
  obtain ⟨htime, htick⟩ := Prod.mk.inj h
  have hdup : isDuplicate s tick = isDuplicate t tick := by rw [isDuplicate, isDuplicate, htick]
  have hreo : isReordered s tick = isReordered t tick := by rw [isReordered, isReordered, htime]
  simp only [stage, hdup, hreo]
  split_ifs
  · exact ⟨rfl, h⟩
  · exact ⟨rfl, h⟩
  · exact ⟨rfl, by rw [memory_updateState_self, memory_updateState_self]⟩

end Normalizer

end Mdp
