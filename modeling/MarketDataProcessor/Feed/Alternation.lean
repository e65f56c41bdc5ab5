import MarketDataProcessor.Feed.FeedSimulator
import MarketDataProcessor.Foundations.History

/-!
# Which side of the quote is published

`generate_tick` publishes a bid or an ask by the parity of `ticks_published`, a counter over all
symbols, while the loop of `run` goes round the symbols. Published ticks therefore alternate between
bids and asks, whatever was dropped in between and also when the counter wraps around.

For a single symbol it depends on how many there are. As long as nothing is dropped the `k`-th
published tick is of the symbol at `k % n`. With an odd number of symbols each one alternates too;
with an even number each is quoted on one side only, at all times the same.

## Parity and turn

Two counters are involved. `ticks_published` decides the side: it counts published ticks only, and
`2 ^ 64` is even, so the parity survives the wrap (`ofNat_mod_two_beq`). `symbol_idx` decides the
symbol: it advances with every generated tick, published or not.

`Turns` ties both to the log of published ticks along a run. The side needs no hypothesis. The
symbol does: a dropped tick advances the turn and not the counter, so the two come apart by the
number of drops, and the second half of `published_alternate` is about runs without one. The log has
the quote of the update with each tick, which is what the price and the volume of the tick are
compared with (`OnTurn`).
-/

namespace Mdp

open SymbolState

/-- The tick that a quote gives, on one of its sides. -/
def SymbolState.sideTick (fl : FloatEnv) (state : SymbolState) (isBid : Bool) (now : ℤ) :
    MarketTick :=
  .make state.symbol (if isBid then state.bid fl else state.ask fl)
    (if isBid then state.bidSize else state.askSize) (if isBid then 0 else 1) now

namespace SimulatedFeed

variable (fl : FloatEnv)

/-- A tick that was published, with what the feed had when it made it. -/
structure Publication where
  symbolIdx : ℕ
  /-- `symbol_states_` after the update. -/
  states : List SymbolState
  /-- The reading of the clock. -/
  now : ℤ
  tick : MarketTick

/-- What a step publishes: the tick it makes, if `try_push` takes it. -/
def published (s : SimulatedFeed) : Action → List Publication
  | .generate noise now =>
    match s.symbolStates[s.symbolIdx]? with
    | some state =>
      let tick := (state.generateTick fl s.ticksPublished noise now).2
      if (s.output.tryPush tick).isSome then
        [⟨s.symbolIdx, (s.advance fl state noise now).symbolStates, now, tick⟩]
      else []
    | none => []
  | .take => []

/-- The `k`-th published tick is on the side of `k`, of the quote its symbol has in the states the
update left behind. -/
def OnTurn (config : FeedConfig) (k : ℕ) (pub : Publication) : Prop :=
  ∃ state, pub.states[pub.symbolIdx]? = some state ∧
    config.symbols[pub.symbolIdx]? = some state.symbol ∧
    pub.tick = state.sideTick fl (k % 2 == 0) pub.now

/-- What holds along every run, `log` being what was published. -/
structure Turns (config : FeedConfig) (s : SimulatedFeed) (log : List Publication) : Prop where
  /-- The symbols are those of the configuration. -/
  symbols : s.symbolStates.map SymbolState.symbol = config.symbols
  /-- Every published tick is counted. -/
  counted : s.ticksPublished = UInt64.ofNat log.length
  /-- Published ticks are on their turn. -/
  onTurn : ∀ k pub, log[k]? = some pub → OnTurn fl config k pub
  /-- Only what was generated is published. -/
  length_le : log.length ≤ s.updates.length
  /-- The turn goes round. -/
  turn : s.symbolIdx = s.updates.length % config.symbols.length
  /-- With nothing dropped, so does the symbol that is published. -/
  round : log.length = s.updates.length → ∀ k pub, log[k]? = some pub →
    pub.symbolIdx = k % config.symbols.length

variable {fl} {config : FeedConfig} {s t : SimulatedFeed} {log : List Publication}

/-- The parity of a counter that wraps around at an even number. -/
theorem ofNat_mod_two_beq (k : ℕ) : (UInt64.ofNat k % 2 == 0) = (k % 2 == 0) := by
  rw [Bool.eq_iff_iff, beq_iff_eq, beq_iff_eq, ← UInt64.toNat_inj, UInt64.toNat_mod,
    UInt64.toNat_ofNat']
  show k % 2 ^ 64 % 2 = 0 ↔ _
  omega

theorem symbol_new (symbol : List UInt8) (price : Double) :
    (SymbolState.new fl symbol price).symbol = symbol := by
  rw [SymbolState.new]
  split_ifs <;> rfl

theorem turns_init (fl : FloatEnv) (config : FeedConfig) : Turns fl config (init fl config) [] := by
  refine ⟨?_, rfl, by simp, Nat.le_refl _, (Nat.zero_mod _).symm, by simp⟩
  have hsymbol : SymbolState.symbol ∘ (fun entry : List UInt8 × ℕ ↦ SymbolState.new fl entry.1
      (config.initialPrices.getD entry.2 (fl.round 100))) = Prod.fst :=
    funext fun entry ↦ symbol_new entry.1 _
  rw [init, List.map_map]
  exact (congrArg (List.map · config.symbols.zipIdx) hsymbol).trans (List.zipIdx_map_fst 0 _)

/-- The turn goes to the next symbol, and from the last one to the first. -/
theorem turn_succ {m n : ℕ} (h : m % n < n) :
    (if m % n + 1 < n then m % n + 1 else 0) = (m + 1) % n := by
  rw [← Nat.mod_add_mod]
  split_ifs with hnext
  · exact (Nat.mod_eq_of_lt hnext).symm
  · rw [show m % n + 1 = n by omega, Nat.mod_self]

/-- An update keeps the names. -/
theorem Turns.symbols_set (h : Turns fl config s log) {state state' : SymbolState}
    (hstate : s.symbolStates[s.symbolIdx]? = some state) (hname : state'.symbol = state.symbol) :
    (s.symbolStates.set s.symbolIdx state').map SymbolState.symbol = config.symbols := by
  obtain ⟨hlt, hget⟩ := List.getElem?_eq_some_iff.1 hstate
  rw [List.map_set, hname, ← hget, ← h.symbols, ← List.map_set, List.set_getElem_self]

/-- **Every step keeps the turns.** -/
theorem Turns.step (h : Turns fl config s log) {a : Action}
    (hstep : s.step fl config a = some t) : Turns fl config t (log ++ s.published fl a) := by
  cases a with
  | take =>
    obtain ⟨⟨tick, output'⟩, -, rfl⟩ := Option.map_eq_some_iff.1 hstep
    rw [published, List.append_nil]
    exact ⟨h.symbols, h.counted, h.onTurn, h.length_le, h.turn, h.round⟩
  | generate noise now =>
    rw [SimulatedFeed.step] at hstep
    split_ifs at hstep
    obtain ⟨state, hstate, rfl⟩ := Option.map_eq_some_iff.1 hstep
    obtain ⟨hlt, hget⟩ := List.getElem?_eq_some_iff.1 hstate
    have hlen : s.symbolStates.length = config.symbols.length := by
      rw [← h.symbols, List.length_map]
    have hturn : (s.advance fl state noise now).symbolIdx =
        (s.updates.length + 1) % config.symbols.length := by
      rw [← turn_succ (by rw [← h.turn, ← hlen]; exact hlt), ← h.turn, ← hlen]
      rfl
    have hsymbols : ((s.symbolStates.set s.symbolIdx (state.updatePrice fl noise)).map
        SymbolState.symbol) = config.symbols := h.symbols_set hstate rfl
    have htick : (state.generateTick fl s.ticksPublished noise now).2 =
        (state.updatePrice fl noise).sideTick fl (log.length % 2 == 0) now := by
      rw [← ofNat_mod_two_beq, ← h.counted]
      rfl
    have hname : config.symbols[s.symbolIdx]? = some (state.updatePrice fl noise).symbol := by
      rw [← h.symbols, List.getElem?_map, hstate]
      rfl
    have hupdates : (s.advance fl state noise now).updates.length = s.updates.length + 1 :=
      List.length_append
    -- the quote of the tick is what the update left for its symbol
    have hquote : (s.advance fl state noise now).symbolStates[s.symbolIdx]? =
        some (state.updatePrice fl noise) := List.getElem?_set_self hlt
    simp only [published, hstate]
    cases hpush : s.output.tryPush (state.generateTick fl s.ticksPublished noise now).2 with
    | some output' =>
      have hcounted : (s.advance fl state noise now).ticksPublished = s.ticksPublished + 1 := by
        simp only [advance, hpush, Option.isSome_some, if_true]
      rw [Option.isSome_some, if_pos rfl]
      refine ⟨hsymbols, ?_, fun k pub hk ↦ ?_, ?_, ?_, fun hall k pub hk ↦ ?_⟩
      · rw [hcounted, h.counted, List.length_append, List.length_singleton, UInt64.ofNat_add]
        rfl
      · rcases History.getElem?_concat_cases hk with hk | ⟨rfl, rfl⟩
        · exact h.onTurn k pub hk
        · exact ⟨_, hquote, hname, htick⟩
      · rw [hupdates, List.length_append]
        exact Nat.succ_le_succ h.length_le
      · rw [hturn, hupdates]
      · rw [hupdates, List.length_append, List.length_singleton, Nat.add_right_cancel_iff] at hall
        rcases History.getElem?_concat_cases hk with hk | ⟨rfl, rfl⟩
        · exact h.round hall k pub hk
        · exact h.turn.trans (by rw [hall])
    | none =>
      have hcounted : (s.advance fl state noise now).ticksPublished = s.ticksPublished := by
        simp only [advance, hpush, Option.isSome_none, Bool.false_eq_true, if_false]
      rw [Option.isSome_none, if_neg Bool.false_ne_true, List.append_nil]
      have hlt' := h.length_le
      refine ⟨hsymbols, hcounted.trans h.counted, h.onTurn, ?_, ?_, fun hall ↦ ?_⟩
      · omega
      · rw [hturn, hupdates]
      · -- a tick was generated and not published
        omega

/-- **Which ticks the feed publishes.** Along every run of the simulated feed, whatever is drawn,
whenever its consumer takes ticks and whichever are dropped: the published ticks are a bid, an ask,
a bid and so on, each that side of the quote which the update before it has left for a configured
symbol. As long as nothing was dropped, the `k`-th is of the symbol at `k` modulo their number; so
with an odd number of symbols two successive ticks of a symbol are on different sides, and with an
even number every symbol is quoted on one side only. -/
theorem published_alternate {acts : List Action}
    (hrun : StepRun.run (step fl config) (init fl config) acts = some s) :
    let log : List Publication :=
      StepRun.log (published fl) (SimulatedFeed.step fl config) (init fl config) acts
    let n := config.symbols.length
    (∀ k pub, log[k]? = some pub → OnTurn fl config k pub) ∧
      (log.length = s.updates.length →
        (∀ k pub, log[k]? = some pub → pub.symbolIdx = k % n) ∧
          (n % 2 = 1 → ∀ (k : ℕ) (pub pub' : Publication), log[k]? = some pub →
            log[k + n]? = some pub' → pub'.tick.side ≠ pub.tick.side) ∧
          (n % 2 = 0 → ∀ (k : ℕ) (pub : Publication), log[k]? = some pub →
            pub.tick.side = if pub.symbolIdx % 2 = 0 then 0 else 1)) := by
  intro log n
  have h : Turns fl config s log :=
    StepRun.run_invariant_log (P := Turns fl config) (fun _ _ _ _ hturns hstep ↦ hturns.step hstep)
      (turns_init fl config) hrun
  have hside : ∀ (k : ℕ) (pub : Publication), log[k]? = some pub →
      pub.tick.side = if k % 2 = 0 then 0 else 1 := fun k pub hk ↦ by
    obtain ⟨state, -, -, htick⟩ := h.onTurn k pub hk
    rw [htick]
    by_cases hk : k % 2 = 0 <;> simp [sideTick, MarketTick.make, hk]
  refine ⟨h.onTurn, fun hall ↦ ⟨h.round hall, fun hodd k pub pub' hk hk' ↦ ?_,
    fun heven k pub hk ↦ ?_⟩⟩
  · rw [hside k pub hk, hside (k + n) pub' hk']
    rcases Nat.mod_two_eq_zero_or_one k with hzero | hone
    · rw [if_pos hzero, if_neg (by omega)]
      decide
    · rw [if_pos (by omega), if_neg (by omega)]
      decide
  · rw [hside k pub hk, h.round hall k pub hk,
      Nat.mod_mod_of_dvd k (Nat.dvd_of_mod_eq_zero heven)]

/-- Two symbols: the second is only ever quoted on the ask. -/
theorem published_alternate_two :
    let fl := FloatEnv.exact fun _ ↦ 0
    let config : FeedConfig := ⟨[btcusd, aapl], [.fin 60000, .fin 200], 1⟩
    let acts := List.replicate 4 (Action.generate ⟨0, 0, 0, 0⟩ ⟨1, Int.one_pos⟩)
    ∃ s, StepRun.run (step fl config) (init fl config) acts = some s ∧
      ∀ (k : ℕ) (pub : Publication), (StepRun.log (published fl) (SimulatedFeed.step fl config)
        (init fl config) acts)[k]? = some pub → pub.symbolIdx = 1 → pub.tick.side = 1 := by
  intro fl config acts
  obtain ⟨s, hrun, hend⟩ := Option.map_eq_some_iff.1 (by decide +kernel :
    (StepRun.run (step fl config) (init fl config) acts).map (fun s ↦ s.updates.length) = some 4)
  have hall : (StepRun.log (published fl) (SimulatedFeed.step fl config) (init fl config)
      acts).length = s.updates.length := by
    rw [hend]
    decide +kernel
  refine ⟨s, hrun, fun k pub hk hsymbol ↦ ?_⟩
  rw [((published_alternate hrun).2 hall).2.2 (by decide) k pub hk, hsymbol]
  rfl

end SimulatedFeed

end Mdp
