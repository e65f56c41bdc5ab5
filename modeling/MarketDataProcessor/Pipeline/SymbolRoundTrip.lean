import MarketDataProcessor.Infra.DbWriter
import MarketDataProcessor.Pipeline.Sequential
import Mathlib.Data.List.GetD

/-!
# What becomes of a symbol's name

The eight bytes of a symbol are written and read in six places. `MarketTick::make` copies up to
eight characters, and `TickParser::enrich` puts a NUL into the last byte; everything behind the
parser reads up to the first NUL, and the constructor of a book copies up to seven characters. They
agree on the first seven characters of a name, and behind the parser no place sees an eighth:
`key_enrich_make`, `key_symbol_new`.

Names that differ in their first seven characters are kept apart everywhere; two names of eight that
do not differ there are one instrument to the pipeline.

## Where the seven characters come from

`symbol_enrich_make` and `symbol_new` are the two ways a name is written, and both write
`terminated`, seven characters and a NUL. `key_terminated` is the reading. Everything else hands a
symbol on as it is, which the lemmas on the offers of a book processor and on the rows of the
writers say.

The names of books need an invariant (`Named`), since a book is named once, when it is created, and
found by its key ever after.
-/

namespace Mdp

open BookProcessor

namespace Symbol

/-- Seven characters of a name and a NUL. -/
def terminated (name : List UInt8) : Symbol :=
  Vector.ofFn fun i ↦ if i.val < 7 then name.getD i 0 else 0

theorem toList_terminated (name : List UInt8) :
    (terminated name).toList = name.take 7 ++ List.replicate (8 - (name.take 7).length) 0 := by
  have hlen : (name.take 7).length = min 7 name.length := List.length_take
  rw [terminated, Vector.toList_ofFn]
  refine List.ext_getElem ?_ fun i hi _ ↦ ?_
  · rw [List.length_ofFn, List.length_append, List.length_replicate]
    omega
  · rw [List.length_ofFn] at hi
    rw [List.getElem_ofFn]
    rcases Nat.lt_or_ge i (name.take 7).length with hin | hout
    · have hseven : i < 7 := by omega
      rw [List.getElem_append_left hin, List.getElem_take, if_pos hseven, List.getD_eq_getElem]
    · rw [List.getElem_append_right hout, List.getElem_replicate]
      split_ifs with hseven
      · rw [List.getD_eq_default]
        show name.length ≤ i
        have : i < 7 := hseven
        omega
      · rfl

/-- **A terminated name is read as its first seven characters.** -/
theorem key_terminated {name : List UInt8} (h : 0 ∉ name) :
    (terminated name).key = name.take 7 := by
  have hne : ∀ b ∈ name.take 7, decide (b ≠ 0) = true := by
    intro b hb
    have hmem := List.mem_of_mem_take hb
    exact decide_eq_true fun hzero ↦ h (hzero ▸ hmem)
  rw [key, toList_terminated, List.takeWhile_append_of_pos hne, List.takeWhile_replicate]
  simp

/-- **Enriching terminates a name.** -/
theorem symbol_enrich_make (name : List UInt8) (price volume : Double) (side : UInt8) (now : ℤ) :
    (TickParser.enrich (.make name price volume side now)).symbol = terminated name := by
  refine Vector.ext fun i hi ↦ ?_
  show ((Vector.ofFn fun i : Fin 8 ↦ name.getD i 0).set 7 0)[i] = (terminated name)[i]
  rw [Vector.getElem_set, terminated, Vector.getElem_ofFn, Vector.getElem_ofFn]
  split_ifs with hlast hseven hseven
  · exact absurd hseven (by simp [← hlast])
  · rfl
  · rfl
  · exact absurd hseven (by simp; omega)

/-- So does the constructor of a book. -/
theorem symbol_new (name : List UInt8) (h : 0 ∉ name) :
    (OrderBook.new name : OrderBook Double).symbol = terminated name := by
  have hall : name.takeWhile (· ≠ 0) = name := by
    rw [List.takeWhile_eq_self_iff]
    exact fun b hb ↦ decide_eq_true fun hzero ↦ h (hzero ▸ hb)
  rw [OrderBook.new, hall]
  rfl

/-- A key has no NUL. -/
theorem zero_notMem_key (s : Symbol) : 0 ∉ s.key := by
  intro h
  have := List.mem_takeWhile_imp h
  simp at this

end Symbol

open Mdp.Symbol

/-- **Behind the parser a name is its first seven characters.** -/
theorem key_enrich_make {name : List UInt8} (h : 0 ∉ name) (price volume : Double) (side : UInt8)
    (now : ℤ) :
    (TickParser.enrich (.make name price volume side now)).symbol.key = name.take 7 := by
  rw [symbol_enrich_make, key_terminated h]

/-- An enriched symbol has at most seven characters. -/
theorem length_key_enrich_le (tick : MarketTick) :
    (TickParser.enrich tick).symbol.key.length ≤ 7 := by
  generalize hs : (TickParser.enrich tick).symbol = s
  have hlast : s[7] = 0 := by
    rw [← hs]
    exact Vector.getElem_set_self _
  have hprefix : s.key <+: s.toList := List.takeWhile_prefix _
  have hlen : s.key.length ≤ 8 := hprefix.length_le.trans_eq s.length_toList
  by_contra hlong
  -- all eight bytes would be read, the NUL among them
  have hall : s.key = s.toList := hprefix.eq_of_length (by rw [Vector.length_toList]; omega)
  refine zero_notMem_key s ?_
  rw [hall, ← hlast]
  exact List.mem_iff_getElem.2 ⟨7, by simp, Vector.getElem_toList _⟩

/-! ### Books -/

/-- Every book is named after its key. -/
def Named (bp : BookProcessor) : Prop :=
  ∀ symbol book, bp.book symbol = some book → book.symbol.key = symbol

theorem key_symbol_new {name : List UInt8} (h : 0 ∉ name) (hlen : name.length ≤ 7) :
    (OrderBook.new name : OrderBook Double).symbol.key = name := by
  rw [symbol_new name h, key_terminated h, List.take_of_length_le hlen]

theorem Named.processTick {bp : BookProcessor} (h : Named bp) (fl : FloatEnv) {tick : MarketTick}
    (hlen : tick.symbol.key.length ≤ 7) : Named (bp.processTick fl tick) := by
  intro symbol book hbook
  by_cases hkey : symbol = tick.symbol.key
  · subst hkey
    rw [book_processTick_self, Option.some.injEq] at hbook
    rw [← hbook, OrderBook.symbol_apply, bookOf]
    cases hfound : bp.book tick.symbol.key with
    | none => exact key_symbol_new (zero_notMem_key _) hlen
    | some found => exact h _ found hfound
  · rw [book_processTick_of_ne fl bp tick hkey] at hbook
    exact h symbol book hbook

/-- **Every book created is named after its key**, in every run over enriched ticks. -/
theorem named_state (fl : FloatEnv) (dbQueue signalQueue : Option SnapshotQueue)
    (ticks : List MarketTick) :
    Named ((offering fl).state (fresh dbQueue signalQueue) (ticks.map TickParser.enrich)) := by
  refine Transducer.state_invariant (P := Named)
    (A := fun tick : MarketTick ↦ tick.symbol.key.length ≤ 7) _
    (fun bp tick hlen h ↦ h.processTick fl hlen) ?_ ?_
  · intro tick htick
    obtain ⟨raw, -, rfl⟩ := List.mem_map.1 htick
    exact length_key_enrich_le raw
  · intro symbol book hbook
    exact absurd hbook (by simp [fresh, BookProcessor.book])

/-- **A name is its first seven characters everywhere.** For every name without a NUL, the enriched
tick, the keys of the book and of the snapshots and signals that follow from it, and the tickers of
their rows are the first seven characters of the name, which is the name itself exactly if it has no
more. Books are named after their keys. And a tick of a name that differs in these characters
touches neither the book, the reference, the entry of the normalizer nor the average of the
first. -/
theorem name_round_trip (fl : FloatEnv) (overflow : Double → ℤ) (name : List UInt8)
    (hnul : 0 ∉ name) (price volume : Double) (side : UInt8) (now : ℤ) :
    let tick := TickParser.enrich (.make name price volume side now)
    tick.symbol.key = name.take 7 ∧ (tick.symbol.key = name ↔ name.length ≤ 7) ∧
      (∀ bp : BookProcessor, ((bp.processTick fl tick).book (name.take 7)).isSome = true ∧
        ∀ other, other ≠ name.take 7 → (bp.processTick fl tick).book other = bp.book other) ∧
      (∀ (ticks : List MarketTick) dbQueue signalQueue book,
        ((offering fl).state (fresh dbQueue signalQueue) (ticks.map TickParser.enrich)).book
          (name.take 7) = some book → book.symbol.key = name.take 7) ∧
      (∀ (bp : BookProcessor) (snap : MarketSnapshot), snap ∈ bp.offered fl tick →
        snap.symbol.key = name.take 7 ∧ (DbWriter.toRow fl overflow snap).symbol = name.take 7 ∧
          ∀ engine : SignalEngine, (engine.signalFor fl snap).symbol.key = name.take 7 ∧
            (SignalDbWriter.toRow fl (engine.signalFor fl snap)).symbol = name.take 7) ∧
      ∀ name', 0 ∉ name' → name'.take 7 ≠ name.take 7 → ∀ price' volume' side' now',
        let other := TickParser.enrich (.make name' price' volume' side' now')
        (∀ bp : BookProcessor,
          (bp.processTick fl other).book (name.take 7) = bp.book (name.take 7) ∧
            (bp.processTick fl other).reference (name.take 7) = bp.reference (name.take 7)) ∧
          (∀ state, Normalizer.memory (Normalizer.stage.classify state other).1 tick.symbol =
            Normalizer.memory state tick.symbol) ∧
          ∀ (bp : BookProcessor) (snap : MarketSnapshot) (engine : SignalEngine),
            snap ∈ bp.offered fl other →
              (engine.update fl snap).emaMap.lookup (name.take 7) =
                engine.emaMap.lookup (name.take 7) := by
  intro tick
  have hkey : tick.symbol.key = name.take 7 := key_enrich_make hnul price volume side now
  refine ⟨hkey, ?_, ?_, ?_, ?_, ?_⟩
  · rw [hkey, List.take_eq_self_iff]
  · intro bp
    rw [← hkey]
    exact ⟨by rw [book_processTick_self]; rfl,
      fun other hne ↦ book_processTick_of_ne fl bp tick hne⟩
  · intro ticks dbQueue signalQueue book hbook
    exact named_state fl dbQueue signalQueue ticks _ book hbook
  · intro bp snap hsnap
    have hsymbol : snap.symbol.key = name.take 7 := by
      rw [(stamp_of_offered fl bp tick hsnap).1, hkey]
    exact ⟨hsymbol, hsymbol, fun engine ↦ ⟨hsymbol, hsymbol⟩⟩
  · intro name' hnul' hdiffer price' volume' side' now' other
    have hkey' : other.symbol.key = name'.take 7 := key_enrich_make hnul' price' volume' side' now'
    have hne : name.take 7 ≠ other.symbol.key := fun heq ↦ hdiffer (hkey' ▸ heq.symm)
    refine ⟨fun bp ↦ ⟨book_processTick_of_ne fl bp other hne,
      reference_processTick_of_ne fl bp other hne⟩, fun state ↦ ?_, fun bp snap engine hsnap ↦ ?_⟩
    · refine Normalizer.memory_classify_of_ne fun heq ↦ hne ?_
      rw [← hkey, heq]
    · refine AList.lookup_insert_ne ?_
      rw [(stamp_of_offered fl bp other hsnap).1]
      exact hne

/-- `ABCDEFG` comes back as itself, and a tick of `ABCDEFX` leaves its book alone. -/
theorem name_round_trip_seven :
    let name : List UInt8 := [65, 66, 67, 68, 69, 70, 71]
    let other : List UInt8 := [65, 66, 67, 68, 69, 70, 88]
    let fl := FloatEnv.exact fun _ ↦ 0
    (TickParser.enrich (.make name (.fin 100) (.fin 1) 0 1)).symbol.key = name ∧
      ∀ bp : BookProcessor,
        (bp.processTick fl (TickParser.enrich (.make other (.fin 100) (.fin 1) 0 1))).book name =
          bp.book name := by
  intro name other fl
  obtain ⟨hkey, -, -, -, -, hother⟩ :=
    name_round_trip fl (fun _ ↦ 0) name (by decide) (.fin 100) (.fin 1) 0 1
  exact ⟨hkey, fun bp ↦ ((hother other (by decide) (by decide) (.fin 100) (.fin 1) 0 1).1 bp).1⟩

/-- **The eighth character is lost**: `ABCDEFGH` does not come back, and is one with `ABCDEFGI`. -/
theorem eighth_character_lost :
    let first : List UInt8 := [65, 66, 67, 68, 69, 70, 71, 72]
    let second : List UInt8 := [65, 66, 67, 68, 69, 70, 71, 73]
    let tick := fun name ↦ TickParser.enrich (.make name (.fin 100) (.fin 1) 0 1)
    first.length = 8 ∧ 0 ∉ first ∧ (tick first).symbol.key ≠ first ∧
      second.length = 8 ∧ 0 ∉ second ∧ first ≠ second ∧
      (tick first).symbol = (tick second).symbol := by
  decide +kernel

end Mdp
