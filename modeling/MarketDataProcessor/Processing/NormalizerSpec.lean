import MarketDataProcessor.Foundations.History
import MarketDataProcessor.Processing.Normalizer
import MarketDataProcessor.Processing.StageSystem

/-!
# What the normalizer forwards

The specification of the normalizer, without its maps: a tick is **repeated** when it has the price
and the timestamp of the last tick forwarded of its symbol, and **late** when its timestamp is below
that tick's. What is neither is forwarded.

The two maps of the source hold the same thing, the last tick forwarded of a symbol and its
timestamp (`Remembers`, `remembers_stateAfter`). From there on the state is gone: `normalize_eq`,
`count_repeated` and `count_late` read the output and the two counters off the input, and the order
of each symbol's output, the maximality of its last timestamp and the idempotence of the filter are
inductions along the input.

## From the maps to the output

`Remembers.updateState` is the only proof that handles both maps at once. `remembers_stateAfter`
makes an invariant of it, in terms of the output of the stage so far, so `classify_stateAfter` can
state the three verdicts by `repeated`, `late` and `fresh` of that output.

The order of the output uses one property of what is fresh, `follows_of_fresh`: it is no older than
the last tick forwarded of its symbol and does not repeat it, so an ordered output stays ordered.
For the idempotence the point is that a second pass has forwarded the same ticks so far, and so
finds the same ones fresh.
-/

namespace Mdp

namespace Normalizer

open Double History

/-- The tick is of the symbol. -/
def ofSymbol (symbol : Symbol) (tick : MarketTick) : Bool := decide (tick.symbol = symbol)

/-- The last tick of the symbol forwarded of the ticks `seen`. -/
def lastForwarded (seen : List MarketTick) (symbol : Symbol) : Option MarketTick :=
  lastBy (ofSymbol symbol) (normalize seen)

/-- Equal price and timestamp. -/
def sameQuote (a b : MarketTick) : Bool :=
  feq a.price b.price && decide (a.timestampNs = b.timestampNs)

/-- The tick repeats the last forwarded one of its symbol. -/
def repeated (seen : List MarketTick) (tick : MarketTick) : Bool :=
  (lastForwarded seen tick.symbol).any fun last ↦ sameQuote last tick

/-- The tick is older than the last forwarded one of its symbol. -/
def late (seen : List MarketTick) (tick : MarketTick) : Bool :=
  (lastForwarded seen tick.symbol).any fun last ↦ decide (tick.timestampNs < last.timestampNs)

/-- The tick is neither repeated nor late. -/
def fresh (seen : List MarketTick) (tick : MarketTick) : Bool :=
  !repeated seen tick && !late seen tick

/-! ### The two maps -/

/-- Both maps hold the last of the ticks of each symbol. -/
def Remembers (core : State) (ticks : List MarketTick) : Prop :=
  ∀ symbol, memory core symbol =
    ((lastBy (ofSymbol symbol) ticks).map MarketTick.timestampNs, lastBy (ofSymbol symbol) ticks)

theorem remembers_init : Remembers stage.init [] := fun _ ↦ rfl

theorem lastBy_ofSymbol_self (ticks : List MarketTick) (tick : MarketTick) :
    lastBy (ofSymbol tick.symbol) (ticks ++ [tick]) = some tick :=
  lastBy_concat_of_pos (by simp [ofSymbol]) _

theorem lastBy_ofSymbol_of_ne {tick : MarketTick} {symbol : Symbol} (hne : symbol ≠ tick.symbol)
    (ticks : List MarketTick) :
    lastBy (ofSymbol symbol) (ticks ++ [tick]) = lastBy (ofSymbol symbol) ticks :=
  lastBy_concat_of_neg (by simpa [ofSymbol] using Ne.symm hne) _

/-- **An update remembers one tick more.** -/
theorem Remembers.updateState {core : State} {ticks : List MarketTick} (h : Remembers core ticks)
    (tick : MarketTick) : Remembers (updateState core tick) (ticks ++ [tick]) := by
  intro symbol
  rcases eq_or_ne symbol tick.symbol with rfl | hne
  · rw [memory_updateState_self, lastBy_ofSymbol_self]
    rfl
  · rw [memory_updateState_of_ne hne, h symbol, lastBy_ofSymbol_of_ne hne]

theorem Remembers.isDuplicate_eq {core : State} {ticks : List MarketTick}
    (h : Remembers core ticks) (tick : MarketTick) :
    isDuplicate core tick =
      (lastBy (ofSymbol tick.symbol) ticks).any fun last ↦ sameQuote last tick := by
  rw [isDuplicate, (Prod.mk.inj (h tick.symbol)).2]
  cases lastBy (ofSymbol tick.symbol) ticks <;> rfl

theorem Remembers.isReordered_eq {core : State} {ticks : List MarketTick}
    (h : Remembers core ticks) (tick : MarketTick) :
    isReordered core tick = (lastBy (ofSymbol tick.symbol) ticks).any fun last ↦
      decide (tick.timestampNs < last.timestampNs) := by
  rw [isReordered, (Prod.mk.inj (h tick.symbol)).1]
  cases lastBy (ofSymbol tick.symbol) ticks <;> rfl

theorem lastForwarded_concat_self {seen : List MarketTick} {tick : MarketTick}
    (h : normalize (seen ++ [tick]) = normalize seen ++ [tick]) :
    lastForwarded (seen ++ [tick]) tick.symbol = some tick := by
  rw [lastForwarded, h, lastBy_ofSymbol_self]

theorem lastForwarded_concat_of_ne {seen : List MarketTick} {tick : MarketTick} {symbol : Symbol}
    (h : normalize (seen ++ [tick]) = normalize seen ++ [tick]) (hne : symbol ≠ tick.symbol) :
    lastForwarded (seen ++ [tick]) symbol = lastForwarded seen symbol := by
  rw [lastForwarded, h, lastBy_ofSymbol_of_ne hne, lastForwarded]

/-- **Both maps remember the last forwarded tick.** -/
theorem remembers_stateAfter (ticks : List MarketTick) :
    Remembers (stage.stateAfter ticks) (normalize ticks) := by
  induction ticks using List.reverseRecOn with
  | nil => exact remembers_init
  | append_singleton ticks tick ih =>
    rw [FilterStage.stateAfter_concat, normalize, FilterStage.forwardedOf_concat]
    rcases classify_cases (stage.stateAfter ticks) tick with heq | heq | heq
    · rw [heq]
      exact (List.append_nil _).symm ▸ ih
    · rw [heq]
      exact (List.append_nil _).symm ▸ ih
    · rw [heq]
      exact ih.updateState tick

theorem isDuplicate_stateAfter (seen : List MarketTick) (tick : MarketTick) :
    isDuplicate (stage.stateAfter seen) tick = repeated seen tick :=
  (remembers_stateAfter seen).isDuplicate_eq tick

theorem isReordered_stateAfter (seen : List MarketTick) (tick : MarketTick) :
    isReordered (stage.stateAfter seen) tick = late seen tick :=
  (remembers_stateAfter seen).isReordered_eq tick

/-- A repeated tick is not late. -/
theorem late_of_repeated {seen : List MarketTick} {tick : MarketTick}
    (h : repeated seen tick = true) : late seen tick = false := by
  rw [repeated, Option.any_eq_true] at h
  obtain ⟨last, hlast, hsame⟩ := h
  rw [late, hlast]
  have htime : last.timestampNs = tick.timestampNs := by
    simpa using (Bool.and_eq_true_iff.1 hsame).2
  simp [htime]

/-- **The verdicts, without the maps.** -/
theorem classify_stateAfter (seen : List MarketTick) (tick : MarketTick) :
    (stage.classify (stage.stateAfter seen) tick).2 =
      if repeated seen tick then .drop .deduplicated
      else if late seen tick then .drop .reordered
      else .forward tick := by
  rw [← isDuplicate_stateAfter, ← isReordered_stateAfter]
  generalize stage.stateAfter seen = s
  simp only [stage]
  split_ifs <;> rfl

/-! ### Output and counters -/

theorem normalize_concat (seen : List MarketTick) (tick : MarketTick) :
    normalize (seen ++ [tick]) = normalize seen ++ if fresh seen tick then [tick] else [] := by
  rw [normalize, FilterStage.forwardedOf_concat, classify_stateAfter, fresh]
  congr 1
  cases repeated seen tick <;> cases late seen tick <;> rfl

/-- **What is forwarded is what is fresh.** -/
theorem normalize_eq (ticks : List MarketTick) : normalize ticks = filterAlong fresh ticks := by
  induction ticks using List.reverseRecOn with
  | nil => rfl
  | append_singleton ticks tick ih => rw [normalize_concat, filterAlong_concat, ih]

/-- **What is deduplicated is what is repeated.** -/
theorem count_repeated (ticks : List MarketTick) :
    (stage.dropsOf ticks).count .deduplicated = (filterAlong repeated ticks).length := by
  induction ticks using List.reverseRecOn with
  | nil => rfl
  | append_singleton ticks tick ih =>
    rw [FilterStage.dropsOf_concat, List.count_append, ih, filterAlong_concat, List.length_append,
      classify_stateAfter]
    congr 1
    cases repeated ticks tick <;> cases late ticks tick <;> rfl

/-- **What is reordered is what is late.** -/
theorem count_late (ticks : List MarketTick) :
    (stage.dropsOf ticks).count .reordered = (filterAlong late ticks).length := by
  induction ticks using List.reverseRecOn with
  | nil => rfl
  | append_singleton ticks tick ih =>
    rw [FilterStage.dropsOf_concat, List.count_append, ih, filterAlong_concat, List.length_append,
      classify_stateAfter]
    congr 1
    cases hrep : repeated ticks tick with
    | false => cases late ticks tick <;> rfl
    | true =>
      rw [late_of_repeated hrep]
      rfl

/-! ### The order of the output -/

/-- A fresh tick is no older than the last one forwarded of its symbol, and does not repeat it. -/
theorem follows_of_fresh {seen : List MarketTick} {tick last : MarketTick}
    (h : fresh seen tick = true) (hlast : last ∈ lastForwarded seen tick.symbol) :
    last.timestampNs ≤ tick.timestampNs ∧ sameQuote last tick = false := by
  rw [Option.mem_def] at hlast
  rw [fresh, Bool.and_eq_true, Bool.not_eq_true', Bool.not_eq_true', repeated, late, hlast] at h
  exact ⟨by simpa using h.2, h.1⟩

/-- **Each symbol's output is in order and free of repetitions.** -/
theorem isChain_normalize (ticks : List MarketTick) (symbol : Symbol) :
    ((normalize ticks).filter (ofSymbol symbol)).IsChain
      fun a b ↦ a.timestampNs ≤ b.timestampNs ∧ sameQuote a b = false := by
  rw [normalize_eq]
  refine isChain_filter_filterAlong (fun seen tick hfresh hsym last hlast ↦ ?_) ticks
  obtain rfl : tick.symbol = symbol := by simpa [ofSymbol] using hsym
  rw [← normalize_eq] at hlast
  exact follows_of_fresh hfresh hlast

/-- **The timestamps of each symbol's output do not decrease.** -/
theorem pairwise_normalize (ticks : List MarketTick) (symbol : Symbol) :
    ((normalize ticks).filter (ofSymbol symbol)).Pairwise
      fun a b ↦ a.timestampNs ≤ b.timestampNs := by
  have : Trans (fun a b : MarketTick ↦ a.timestampNs ≤ b.timestampNs)
      (fun a b : MarketTick ↦ a.timestampNs ≤ b.timestampNs)
      (fun a b : MarketTick ↦ a.timestampNs ≤ b.timestampNs) := ⟨fun h h' ↦ le_trans h h'⟩
  exact List.isChain_iff_pairwise.1 ((isChain_normalize ticks symbol).imp fun _ _ h ↦ h.1)

/-- **The last forwarded tick of a symbol has its largest timestamp so far**, among the ticks
received. -/
theorem le_lastForwarded {ticks : List MarketTick} {tick : MarketTick} (h : tick ∈ ticks) :
    ∃ last ∈ lastForwarded ticks tick.symbol, tick.timestampNs ≤ last.timestampNs := by
  induction ticks using List.reverseRecOn with
  | nil => exact absurd h List.not_mem_nil
  | append_singleton ticks next ih =>
    have hcat := normalize_concat ticks next
    rcases hfresh : fresh ticks next with - | -
    · rw [hfresh, if_neg Bool.false_ne_true, List.append_nil] at hcat
      rw [lastForwarded, hcat]
      rcases List.mem_append.1 h with h | h
      · exact ih h
      · -- a dropped tick has the timestamp of the last one or an older one
        obtain rfl := List.mem_singleton.1 h
        rw [fresh, Bool.and_eq_false_iff, Bool.not_eq_false', Bool.not_eq_false', repeated, late,
          Option.any_eq_true, Option.any_eq_true] at hfresh
        rcases hfresh with ⟨last, hlast, hsame⟩ | ⟨last, hlast, holder⟩
        · have htime : last.timestampNs = tick.timestampNs := by
            simpa using (Bool.and_eq_true_iff.1 hsame).2
          exact ⟨last, hlast, htime.ge⟩
        · exact ⟨last, hlast, le_of_lt (by simpa using holder)⟩
    · rw [hfresh, if_pos rfl] at hcat
      by_cases hsym : tick.symbol = next.symbol
      · rw [hsym, lastForwarded_concat_self hcat]
        refine ⟨next, rfl, ?_⟩
        rcases List.mem_append.1 h with h | h
        · obtain ⟨last, hlast, hle⟩ := ih h
          exact hle.trans (follows_of_fresh hfresh (hsym ▸ hlast)).1
        · rw [List.mem_singleton.1 h]
      · rw [lastForwarded_concat_of_ne hcat hsym]
        rcases List.mem_append.1 h with h | h
        · exact ih h
        · exact absurd (congrArg MarketTick.symbol (List.mem_singleton.1 h)) hsym

/-- **Normalizing twice is normalizing once.** -/
theorem normalize_normalize (ticks : List MarketTick) :
    normalize (normalize ticks) = normalize ticks := by
  induction ticks using List.reverseRecOn with
  | nil => rfl
  | append_singleton ticks tick ih =>
    have hcat := normalize_concat ticks tick
    have hlast : ∀ symbol, lastForwarded (normalize ticks) symbol = lastForwarded ticks symbol :=
      fun symbol ↦ by rw [lastForwarded, ih, lastForwarded]
    have hsame : fresh (normalize ticks) tick = fresh ticks tick := by
      rw [fresh, fresh, repeated, repeated, late, late, hlast]
    rcases hfresh : fresh ticks tick with - | -
    · rw [hfresh, if_neg Bool.false_ne_true, List.append_nil] at hcat
      rw [hcat, ih]
    · rw [hfresh, if_pos rfl] at hcat
      rw [hcat, normalize_concat, ih, hsame, hfresh, if_pos rfl]

/-! ### The specification -/

/-- A tick that is not fresh is repeated or late, not both; and the tick a late one is older than
has the largest timestamp of its symbol so far. -/
theorem dropped_cases {seen : List MarketTick} {tick : MarketTick}
    (h : fresh seen tick = false) :
    (repeated seen tick = true ∧ late seen tick = false ∧
        ∃ last ∈ lastForwarded seen tick.symbol, sameQuote last tick = true) ∨
      (repeated seen tick = false ∧ late seen tick = true ∧
        ∃ last ∈ lastForwarded seen tick.symbol, tick.timestampNs < last.timestampNs ∧
          ∀ t ∈ seen, t.symbol = tick.symbol → t.timestampNs ≤ last.timestampNs) := by
  cases hrep : repeated seen tick with
  | true =>
    have hlast := hrep
    rw [repeated, Option.any_eq_true] at hlast
    exact Or.inl ⟨rfl, late_of_repeated hrep, hlast⟩
  | false =>
    have hlate : late seen tick = true := by simpa [fresh, hrep] using h
    have holder := hlate
    rw [late, Option.any_eq_true] at holder
    obtain ⟨last, hlast, holder⟩ := holder
    refine Or.inr ⟨rfl, hlate, last, hlast, of_decide_eq_true holder, fun t ht hsym ↦ ?_⟩
    obtain ⟨last', hlast', hle⟩ := le_lastForwarded ht
    rw [hsym, hlast, Option.mem_some_iff] at hlast'
    exact hlast' ▸ hle

/-- **The normalizer specification.** Every input has an undisturbed run, and in every undisturbed
run the ticks forwarded are those of the input that are neither repeated nor late, so that each
symbol's timestamps do not decrease and no forwarded tick repeats the one before it; every other
tick is in exactly one of the two drop counters, as what it is; the three counters add up to the
length of the input; and a fresh normalizer forwards all of the output. -/
theorem forwards_exactly_fresh {m n : ℕ} (hm : 0 < m) (hn : 0 < n) (ticks : List MarketTick) :
    (∃ s : StageSystem State MarketTick MarketTick Drop m n, s.Completes stage ticks) ∧
      ∀ s : StageSystem State MarketTick MarketTick Drop m n, s.Completes stage ticks →
        let forwarded := pushedOf s.worker.fates
        (forwarded.Sublist ticks ∧ forwarded = normalize ticks ∧
            forwarded = filterAlong fresh ticks) ∧
          (∀ symbol,
            ((forwarded.filter (ofSymbol symbol)).Pairwise
                fun a b ↦ a.timestampNs ≤ b.timestampNs) ∧
              (forwarded.filter (ofSymbol symbol)).IsChain fun a b ↦ sameQuote a b = false) ∧
          (∀ seen tick rest, ticks = seen ++ tick :: rest → fresh seen tick = false →
            (repeated seen tick = true ∧ late seen tick = false ∧
                ∃ last ∈ lastForwarded seen tick.symbol, sameQuote last tick = true) ∨
              (repeated seen tick = false ∧ late seen tick = true ∧
                ∃ last ∈ lastForwarded seen tick.symbol, tick.timestampNs < last.timestampNs ∧
                  ∀ t ∈ seen, t.symbol = tick.symbol → t.timestampNs ≤ last.timestampNs)) ∧
          (s.worker.forwarded = forwarded.length ∧
            s.worker.dropped .deduplicated = (filterAlong repeated ticks).length ∧
            s.worker.dropped .reordered = (filterAlong late ticks).length ∧
            s.worker.forwarded + s.worker.dropped .deduplicated + s.worker.dropped .reordered =
              ticks.length) ∧
          ∀ t : StageSystem State MarketTick MarketTick Drop m n, t.Completes stage forwarded →
            pushedOf t.worker.fates = forwarded := by
  refine ⟨StageSystem.exists_completes stage hm hn ticks, fun s hs ↦ ?_⟩
  obtain ⟨hpushed, hforwarded, hdropped⟩ := hs.accounts
  have hnormal : pushedOf s.worker.fates = normalize ticks := hpushed
  intro forwarded
  refine ⟨⟨?_, hnormal, hnormal.trans (normalize_eq ticks)⟩, fun symbol ↦ ⟨?_, ?_⟩,
    fun seen tick rest _ hdrop ↦ dropped_cases hdrop, ⟨?_, ?_, ?_, ?_⟩, fun t ht ↦ ?_⟩
  · rw [show forwarded = _ from hnormal, normalize_eq]
    exact filterAlong_sublist fresh ticks
  · rw [show forwarded = _ from hnormal]
    exact pairwise_normalize ticks symbol
  · rw [show forwarded = _ from hnormal]
    exact (isChain_normalize ticks symbol).imp fun _ _ h ↦ h.2
  · rw [hforwarded, ← hpushed]
  · rw [hdropped, count_repeated]
  · rw [hdropped, count_late]
  · have hlen := stage.length_forwardedOf_add_length_dropsOf ticks
    rw [length_dropsOf_stage] at hlen
    rw [hforwarded, hdropped, hdropped]
    omega
  · have hagain : pushedOf t.worker.fates = normalize forwarded := ht.accounts.1
    rw [hagain, show forwarded = _ from hnormal, normalize_normalize]

/-- On a tick, its repetition and an older one, with buffers of the source's size: the first is
forwarded, the second is a duplicate and the third is late. -/
theorem forwards_exactly_fresh_three :
    let quote := fun t : ℤ ↦ MarketTick.make [65] (fin 100) (fin 1) 0 t
    ∃ s : StageSystem State MarketTick MarketTick Drop 4096 4096,
      s.Completes stage [quote 2, quote 2, quote 1] ∧ pushedOf s.worker.fates = [quote 2] ∧
        s.worker.dropped .deduplicated = 1 ∧ s.worker.dropped .reordered = 1 := by
  intro quote
  obtain ⟨⟨s, hs⟩, hspec⟩ := forwards_exactly_fresh (m := 4096) (n := 4096) (by decide) (by decide)
    [quote 2, quote 2, quote 1]
  obtain ⟨⟨-, -, hforwarded⟩, -, -, ⟨-, hrepeated, hlate, -⟩, -⟩ := hspec s hs
  refine ⟨s, hs, ?_, ?_, ?_⟩
  · rw [hforwarded]
    decide +kernel
  · rw [hrepeated]
    decide +kernel
  · rw [hlate]
    decide +kernel

end Normalizer

end Mdp
