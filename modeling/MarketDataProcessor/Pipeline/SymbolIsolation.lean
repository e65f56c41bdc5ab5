import MarketDataProcessor.Pipeline.Sequential

/-!
# Symbols do not interfere

A two-run statement: the part of a run that belongs to a symbol is the run on the raw ticks of that
symbol alone. Each stage satisfies the unwinding condition `Transducer.Isolates` for the view of its
state at one key, and the four stages compose because the selected output of each is the selected
input of the next.

The stages do not key their state alike: the normalizer uses the eight bytes of the symbol, the book
processor and the signal engine the string before the first NUL. Two symbols with one string and
different bytes behind the NUL would be two to the one and one to the others. Padded symbols rule
this out (`Symbol.key_injOn`), and the parser keeps them padded.

## One condition, four times

`Transducer.Isolates` asks of a stage that other symbols leave its view alone, that equal views lead
to equal outputs and equal views again, and that outputs carry the symbol of their input. It is one
step of a stage against one step, and `run_filter` is the induction over the sequence. What is
particular to a stage is its view: the entry of a symbol in the normalizer's table; the book and the
reference of a key, and whether a queue is attached; the weight and the average of a key.

The parser has no state, so for it the condition is a fact about `filter` and `map`.
-/

namespace Mdp

open BookProcessor

variable (fl : FloatEnv) (s : Symbol)

/-! ### Parser -/

/-- The ticks of one symbol. -/
def ofSymbol (tick : MarketTick) : Bool := decide (tick.symbol = s)

/-- **The parser's output for a symbol** comes from the raw ticks that enrich to it. -/
theorem filter_parse (raw : List MarketTick) :
    (TickParser.parse raw).filter (ofSymbol s) =
      TickParser.parse (raw.filter fun tick ↦ ofSymbol s (TickParser.enrich tick)) := by
  rw [TickParser.parse, TickParser.parse, List.filter_filter, List.filter_map, List.filter_map,
    List.filter_filter]
  refine congrArg _ (List.filter_congr fun tick _ ↦ ?_)
  exact Bool.and_comm _ _

/-! ### Normalizer -/

/-- What the normalizer forwards is the tick itself. -/
theorem eq_of_mem_emit_normalizer {state : Normalizer.State} {tick out : MarketTick}
    (h : out ∈ Normalizer.stage.forwarding.emit state tick) : out = tick := by
  have hverdict : out ∈ (Normalizer.stage.classify state tick).2.forwarded := h
  rcases Normalizer.classify_cases state tick with heq | heq | heq
  · rw [heq] at hverdict
    exact absurd hverdict List.not_mem_nil
  · rw [heq] at hverdict
    exact absurd hverdict List.not_mem_nil
  · rw [heq] at hverdict
    exact List.mem_singleton.1 hverdict

/-- **The normalizer isolates symbols.** -/
theorem isolates_normalizer :
    Normalizer.stage.forwarding.Isolates (fun _ ↦ True) (Normalizer.memory · s) (ofSymbol s)
      (ofSymbol s) where
  view_off state tick _ hsel :=
    Normalizer.memory_classify_of_ne fun heq ↦ of_decide_eq_false hsel heq.symm
  emit_off state tick _ hsel out hout := by rwa [eq_of_mem_emit_normalizer hout]
  view_on state state' tick _ hsel hview := by
    obtain rfl := of_decide_eq_true hsel
    exact (Normalizer.classify_congr hview).2
  emit_on state state' tick _ hsel hview := by
    obtain rfl := of_decide_eq_true hsel
    exact congrArg Verdict.forwarded (Normalizer.classify_congr hview).1
  emit_sel state tick _ hsel out hout := by rwa [eq_of_mem_emit_normalizer hout]

/-- **The forwarded ticks of a symbol** are those of its raw ticks. -/
theorem filter_forwardedTicks (raw : List MarketTick) :
    (forwardedTicks raw).filter (ofSymbol s) =
      forwardedTicks (raw.filter fun tick ↦ ofSymbol s (TickParser.enrich tick)) := by
  rw [forwardedTicks, forwardedTicks, ← filter_parse]
  exact ((isolates_normalizer s).run_filter (fun _ _ ↦ trivial) rfl).2

/-! ### Book processor -/

/-- What the book processor keeps of a symbol, and whether it has a queue to send to. -/
def bookView (bp : BookProcessor) : Option (OrderBook Double) × Option Double × Bool :=
  (bp.book s.key, bp.reference s.key, bp.dbQueue.isSome || bp.signalQueue.isSome)

variable {s}

theorem symbol_of_offered {bp : BookProcessor} {tick : MarketTick} {snap : MarketSnapshot}
    (h : snap ∈ (bp.offered fl tick).toList) : snap.symbol = tick.symbol :=
  (stamp_of_offered fl bp tick (Option.mem_toList.1 h)).1

/-- **The book processor isolates padded symbols.** -/
theorem isolates_bookProcessor (hs : s.Padded) :
    (offering fl).Isolates (fun tick ↦ tick.symbol.Padded) (bookView s) (ofSymbol s)
      (fun snap ↦ decide (snap.symbol = s)) where
  view_off bp tick hpad hsel := by
    have hne : s.key ≠ tick.symbol.key := fun heq ↦
      of_decide_eq_false hsel (Symbol.key_injOn hs hpad heq).symm
    show bookView s (bp.processTick fl tick) = bookView s bp
    rw [bookView, book_processTick_of_ne _ _ _ hne, reference_processTick_of_ne _ _ _ hne,
      attached_processTick]
    rfl
  emit_off bp tick _ hsel snap hsnap := by
    rw [symbol_of_offered fl hsnap]
    exact hsel
  view_on bp bp' tick _ hsel hview := by
    obtain rfl := of_decide_eq_true hsel
    simp only [bookView, Prod.mk.injEq] at hview
    obtain ⟨hbook, hdelta⟩ := deltaOf_congr fl tick hview.1 hview.2.1
    show bookView _ (bp.processTick fl tick) = bookView _ (bp'.processTick fl tick)
    rw [bookView, bookView, book_processTick_self, book_processTick_self,
      reference_processTick_self, reference_processTick_self, attached_processTick,
      attached_processTick, hbook, hdelta, hview.2.1, hview.2.2]
  emit_on bp bp' tick _ hsel hview := by
    obtain rfl := of_decide_eq_true hsel
    simp only [bookView, Prod.mk.injEq] at hview
    exact congrArg Option.toList (offered_congr fl tick hview.1 hview.2.1 hview.2.2)
  emit_sel bp tick _ hsel snap hsnap := by
    rw [symbol_of_offered fl hsnap]
    exact hsel

/-! ### Signal engine -/

theorem currentEma_congr {engine engine' : SignalEngine} {symbol : List UInt8} (price : Double)
    (halpha : engine.alpha = engine'.alpha)
    (hema : engine.emaMap.lookup symbol = engine'.emaMap.lookup symbol) :
    engine.currentEma fl symbol price = engine'.currentEma fl symbol price := by
  rw [SignalEngine.currentEma, SignalEngine.currentEma, hema, halpha]

/-- **The signal engine isolates padded symbols.** -/
theorem isolates_signalEngine (hs : s.Padded) :
    (SignalEngine.signalling fl).Isolates (fun snap ↦ snap.symbol.Padded)
      (fun engine ↦ (engine.alpha, engine.emaMap.lookup s.key))
      (fun snap ↦ decide (snap.symbol = s)) (fun signal ↦ decide (signal.symbol = s)) where
  view_off engine snap hpad hsel := by
    have hne : s.key ≠ snap.symbol.key := fun heq ↦
      of_decide_eq_false hsel (Symbol.key_injOn hs hpad heq).symm
    exact congrArg (engine.alpha, ·) (AList.lookup_insert_ne hne)
  emit_off engine snap _ hsel signal hsignal := by
    rw [List.mem_singleton.1 hsignal]
    exact hsel
  view_on engine engine' snap _ hsel hview := by
    obtain rfl := of_decide_eq_true hsel
    obtain ⟨halpha, hema⟩ := Prod.mk.inj hview
    refine Prod.ext halpha ?_
    show (engine.emaMap.insert _ _).lookup _ = (engine'.emaMap.insert _ _).lookup _
    rw [AList.lookup_insert, AList.lookup_insert, currentEma_congr fl _ halpha hema]
  emit_on engine engine' snap _ hsel hview := by
    obtain rfl := of_decide_eq_true hsel
    obtain ⟨halpha, hema⟩ := Prod.mk.inj hview
    show [engine.signalFor fl snap] = [engine'.signalFor fl snap]
    rw [SignalEngine.signalFor, SignalEngine.signalFor, currentEma_congr fl _ halpha hema]
  emit_sel engine snap _ hsel signal hsignal := by
    rw [List.mem_singleton.1 hsignal]
    exact hsel

/-! ### The pipeline -/

variable {raw : List MarketTick}

/-- Forwarded ticks have padded symbols. -/
theorem padded_of_mem_forwardedTicks (hraw : ∀ tick ∈ raw, tick.symbol.Padded) :
    ∀ tick ∈ forwardedTicks raw, tick.symbol.Padded := by
  intro tick htick
  have hparsed := Normalizer.mem_of_mem_normalize htick
  obtain ⟨r, hr, rfl⟩ := List.mem_map.1 (List.mem_filter.1 hparsed).1
  exact TickParser.padded_enrich (hraw r hr)

/-- Snapshots have padded symbols. -/
theorem padded_of_mem_snapshotsAlong (dbQueue signalQueue : Option SnapshotQueue)
    (hraw : ∀ tick ∈ raw, tick.symbol.Padded) :
    ∀ snap ∈ snapshotsAlong fl dbQueue signalQueue raw, snap.symbol.Padded :=
  (offering fl).forall_mem_outputs (P := fun _ ↦ True) (fun _ _ _ _ ↦ trivial)
    (fun _ _ hpad _ _ hsnap ↦ by rw [symbol_of_offered fl hsnap]; exact hpad)
    (padded_of_mem_forwardedTicks hraw) trivial

/-- **Symbols do not interfere.** For raw ticks with padded symbols and any padded symbol `s`: the
ticks forwarded for `s`, the book and the reference of `s`, the snapshots and the signals sent for
`s` are those of a run on the raw ticks whose enriched symbol is `s`. -/
theorem symbol_run_eq_run_of_symbol (dbQueue signalQueue : Option SnapshotQueue) (period : Period)
    (raw : List MarketTick) (hraw : ∀ tick ∈ raw, tick.symbol.Padded) (s : Symbol) (hs : s.Padded) :
    let own := raw.filter fun tick ↦ decide ((TickParser.enrich tick).symbol = s)
    ((forwardedTicks raw).filter fun tick ↦ decide (tick.symbol = s)) = forwardedTicks own ∧
      (processorAfter fl dbQueue signalQueue raw).book s.key =
        (processorAfter fl dbQueue signalQueue own).book s.key ∧
      (processorAfter fl dbQueue signalQueue raw).reference s.key =
        (processorAfter fl dbQueue signalQueue own).reference s.key ∧
      ((snapshotsAlong fl dbQueue signalQueue raw).filter fun snap ↦ decide (snap.symbol = s)) =
        snapshotsAlong fl dbQueue signalQueue own ∧
      ((signalsAlong fl dbQueue signalQueue period raw).filter fun signal ↦
          decide (signal.symbol = s)) =
        signalsAlong fl dbQueue signalQueue period own := by
  intro own
  have hticks : (forwardedTicks raw).filter (ofSymbol s) = forwardedTicks own :=
    filter_forwardedTicks s raw
  obtain ⟨hview, hsnaps⟩ := (isolates_bookProcessor fl hs).run_filter
    (padded_of_mem_forwardedTicks hraw) (s := fresh dbQueue signalQueue) rfl
  rw [hticks] at hview hsnaps
  obtain ⟨-, hsignals⟩ := (isolates_signalEngine fl hs).run_filter
    (padded_of_mem_snapshotsAlong fl dbQueue signalQueue hraw) (s := SignalEngine.new fl period) rfl
  simp only [bookView, Prod.mk.injEq] at hview
  refine ⟨hticks, hview.1, hview.2.1, hsnaps, ?_⟩
  have hown : (snapshotsAlong fl dbQueue signalQueue raw).filter
      (fun snap ↦ decide (snap.symbol = s)) = snapshotsAlong fl dbQueue signalQueue own := hsnaps
  rw [hown] at hsignals
  exact hsignals

/-- Two ticks of `A` with one of `B` between them: the signals for `A` are those without `B`. -/
theorem symbol_run_eq_two_symbols :
    let fl := FloatEnv.exact fun _ ↦ 0
    let first := MarketTick.make [65] (.fin 100) (.fin 1) 0 1
    let other := MarketTick.make [66] (.fin 50) (.fin 1) 0 2
    let second := MarketTick.make [65] (.fin 101) (.fin 1) 0 3
    (∀ tick ∈ [first, other, second], tick.symbol.Padded) ∧ first.symbol.Padded ∧
      ((signalsAlong fl none (some BoundedQueue.empty) .default [first, other, second]).filter
          fun signal ↦ decide (signal.symbol = first.symbol)) =
        signalsAlong fl none (some BoundedQueue.empty) .default [first, second] := by
  intro fl first other second
  have hraw : ∀ tick ∈ [first, other, second], tick.symbol.Padded := by decide +kernel
  have hs : first.symbol.Padded := by decide +kernel
  have hown : [first, other, second].filter
      (fun tick ↦ decide ((TickParser.enrich tick).symbol = first.symbol)) = [first, second] := by
    decide +kernel
  have hrun := symbol_run_eq_run_of_symbol fl none (some BoundedQueue.empty) .default _ hraw _ hs
  rw [hown] at hrun
  exact ⟨hraw, hs, hrun.2.2.2.2⟩

end Mdp
