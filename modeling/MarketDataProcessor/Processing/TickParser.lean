import MarketDataProcessor.Core.MarketTick
import MarketDataProcessor.Foundations.Transducer

/-!
# The tick parser

`processing/TickParser.cpp`, less its thread: `enrich` terminates the symbol and clamps the side,
`validate` decides whether the enriched tick goes on. The judgement keeps no state, so the pure
meaning of the stage is a `map` and a `filter` (`forwardedOf_stage`).

`validate_iff` spells out what is accepted. The volume has no upper bound: `validate` tests
`std::isinf` of the price and not of the volume, so an infinite volume passes.

## How the stage is used

As a `FilterStage` the parser has a judgement, a state and reasons for a drop. The state is `Unit`
and the one reason is rejection, and `forwardedOf_stage` and `length_dropsOf_stage` replace both
accounts of the thread by `parse` and a count. `validate_iff` is the only lemma that opens the
checks on doubles; prices behind the parser are positive and finite by it, and
`validate_enrich_make` goes the other way for ticks made of valid numbers.
-/

namespace Mdp

namespace TickParser

open Double

/-- `enrich`. -/
def enrich (tick : MarketTick) : MarketTick :=
  { tick with
    symbol := tick.symbol.set 7 0 (by decide)
    side := min tick.side 2 }

/-- `validate`. -/
def validate (tick : MarketTick) : Bool :=
  if fle tick.price 0 || isNan tick.price || isInf tick.price then false
  else if fle tick.volume 0 || isNan tick.volume then false
  else if tick.timestampNs ≤ 0 then false
  else if 2 < tick.side then false
  else if tick.symbol[0] = 0 then false
  else true

/-- Why a tick is dropped; counted in `ticks_rejected`. -/
inductive Drop where
  | rejected
  deriving DecidableEq

/-- The judgement of the stage. -/
def stage : FilterStage Unit MarketTick MarketTick Drop where
  init := ()
  classify _ tick :=
    ((), if validate (enrich tick) then .forward (enrich tick) else .drop .rejected)

/-- `parse` keeps, in order, the enriched form of every tick that validates. -/
def parse (ticks : List MarketTick) : List MarketTick := (ticks.map enrich).filter validate

/-! ### The pure meaning of the stage -/

/-- **The parser forwards what `parse` keeps.** -/
theorem forwardedOf_stage (ticks : List MarketTick) : stage.forwardedOf ticks = parse ticks := by
  induction ticks using List.reverseRecOn with
  | nil => rfl
  | append_singleton ticks tick ih =>
    rw [FilterStage.forwardedOf_concat, ih, parse, parse, List.map_append, List.filter_append]
    congr 1
    by_cases h : validate (enrich tick) <;> simp [stage, h, Verdict.forwarded]

/-- **The parser rejects the rest.** -/
theorem count_dropsOf_stage (ticks : List MarketTick) :
    (stage.dropsOf ticks).count .rejected =
      ticks.countP fun tick ↦ !validate (enrich tick) := by
  induction ticks using List.reverseRecOn with
  | nil => rfl
  | append_singleton ticks tick ih =>
    rw [FilterStage.dropsOf_concat, List.count_append, ih, List.countP_append]
    congr 1
    by_cases h : validate (enrich tick) <;> simp [stage, h, Verdict.reason]

/-- Every drop of the parser is a rejection. -/
theorem length_dropsOf_stage (ticks : List MarketTick) :
    (stage.dropsOf ticks).length = (stage.dropsOf ticks).count .rejected := by
  rw [eq_comm, List.count_eq_length]
  rintro ⟨⟩ -
  rfl

/-! ### What is accepted -/

/-- **What `validate` accepts**: a positive finite price, a positive volume, a positive timestamp, a
known side and a symbol. -/
theorem validate_iff {tick : MarketTick} :
    validate tick = true ↔ (∃ p : ℚ, 0 < p ∧ tick.price = fin p) ∧ 0 < tick.volume ∧
      0 < tick.timestampNs ∧ tick.side ≤ 2 ∧ tick.symbol[0] ≠ 0 := by
  have hprice : (fle tick.price 0 || isNan tick.price || isInf tick.price) = false ↔
      ∃ p : ℚ, 0 < p ∧ tick.price = fin p := by
    cases tick.price <;> simp [fle, isNan, isInf, zero_def]
  have hvolume : (fle tick.volume 0 || isNan tick.volume) = false ↔ 0 < tick.volume := by
    cases tick.volume <;> simp [fle, isNan, zero_def]
    all_goals decide
  rw [← hprice, ← hvolume, validate]
  clear hprice hvolume
  generalize (fle tick.price 0 || isNan tick.price || isInf tick.price) = badPrice
  generalize (fle tick.volume 0 || isNan tick.volume) = badVolume
  split_ifs with h1 h2 h3 h4 h5 <;> simp_all

/-- The first byte of an enriched tick's symbol is that of the name it was made for. -/
theorem enrich_make_symbol {name : List UInt8} (hname : name ≠ []) (price volume : Double)
    (side : UInt8) (now : ℤ) :
    (enrich (.make name price volume side now)).symbol[0] ≠ 0 ↔ name.head? ≠ some 0 := by
  obtain ⟨first, rest, rfl⟩ := List.exists_cons_of_ne_nil hname
  show ((Vector.ofFn fun i : Fin 8 ↦ (first :: rest).getD i 0).set 7 0)[0] ≠ 0 ↔ _
  rw [Vector.getElem_set_ne _ _ (by decide), Vector.getElem_ofFn]
  simp

/-- **Enriched ticks with valid numbers are accepted by their names.** -/
theorem validate_enrich_make {name : List UInt8} (hname : name ≠ []) {price volume : Double}
    (hprice : ∃ p : ℚ, 0 < p ∧ price = fin p) (hvolume : 0 < volume) (side : UInt8) {now : ℤ}
    (hnow : 0 < now) :
    validate (enrich (.make name price volume side now)) = true ↔ name.head? ≠ some 0 := by
  rw [validate_iff, enrich_make_symbol hname]
  refine ⟨fun h ↦ h.2.2.2.2, fun h ↦ ⟨hprice, hvolume, hnow, ?_, h⟩⟩
  show (if side ≤ 2 then side else 2) ≤ 2
  split_ifs with hle
  · exact hle
  · exact UInt8.le_refl 2

theorem mem_parse {tick : MarketTick} {ticks : List MarketTick} (h : tick ∈ parse ticks) :
    validate tick = true :=
  (List.mem_filter.1 h).2

/-- Enriching a tick keeps its symbol padded. -/
theorem padded_enrich {tick : MarketTick} (h : tick.symbol.Padded) : (enrich tick).symbol.Padded :=
  h.set_last

end TickParser

end Mdp
