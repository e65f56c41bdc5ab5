import MarketDataProcessor.Strategy.MovingAverage

/-!
# What the signals say

The trading rules compare the price with the average that already includes it. Blending a price in
multiplies its distance from the average by `1 - a`, which is not negative, so the sign of the
distance is that of the price's distance from the average before: a signal never points away from
where the price went. For the same reason a price that repeats lets the distance shrink without a
change of sign, and the signals fade from `BUY` or `SELL` to `HOLD`.

Both tests are homogeneous in price and average, and the average scales with the prices; hence the
choice of the price unit does not matter.

## What the results rest on

`Trend` states every fact once for both directions: a lead is the distance by which the price is
ahead of the average, seen in the direction. `Trend.lead_blend` is the whole argument about one
snapshot, as blending multiplies the lead by a factor between zero and one. From it follow the
direction of a signal (`Trend.lead_pos_of_signal`) and the fading (`Trend.fades`), the latter by
induction over the snapshots, with a lead that is not negative and shrinks.

The change of the unit is a map on snapshots and on signals, and `signalFor_scale` commutes the two
for one snapshot.
-/

namespace Mdp

open Double SignalEngine ExpAverage EngineWorker

namespace SignalEngine

variable {c : Double → UInt64} {period : Period}

/-! ### The rules by the distance from the average -/

/-- **The trading rules**, by the signed distance. -/
theorem signalType_fin (ema p : ℚ) :
    signalType (.exact c) (fin ema) (fin p) =
      if p / 1000 < p - ema then .buy else if p / 1000 < ema - p then .sell else .hold := by
  have hbuy : ema < p * (999 / 1000) ↔ p / 1000 < p - ema := by
    constructor <;> intro h <;> linarith
  have hsell : p * (1001 / 1000) < ema ↔ p / 1000 < ema - p := by
    constructor <;> intro h <;> linarith
  simp only [signalType, FloatEnv.exact_round, FloatEnv.exact_mul_fin, flt_fin, decide_eq_true_iff,
    hbuy, hsell]

theorem eq_buy_iff {ema p : ℚ} :
    signalType (.exact c) (fin ema) (fin p) = .buy ↔ p / 1000 < p - ema := by
  rw [signalType_fin]
  split_ifs <;> simp [*]

theorem eq_sell_iff {ema p : ℚ} (hp : 0 < p) :
    signalType (.exact c) (fin ema) (fin p) = .sell ↔ p / 1000 < ema - p := by
  rw [signalType_fin]
  split_ifs with hbuy hsell
  · exact ⟨fun h ↦ by simp at h, fun h ↦ by linarith⟩
  · exact ⟨fun _ ↦ hsell, fun _ ↦ rfl⟩
  · exact ⟨fun h ↦ by simp at h, fun h ↦ absurd h hsell⟩

/-- The price unit does not matter. -/
theorem signalType_mul {factor : ℚ} (hfactor : 0 < factor) (ema p : ℚ) :
    signalType (.exact c) (fin (factor * ema)) (fin (factor * p)) =
      signalType (.exact c) (fin ema) (fin p) := by
  have hscale : ∀ x y : ℚ, factor * p / 1000 < factor * x - factor * y ↔ p / 1000 < x - y := by
    intro x y
    rw [← mul_sub, mul_div_assoc]
    exact mul_lt_mul_iff_of_pos_left hfactor
  rw [signalType_fin, signalType_fin]
  simp only [hscale]

/-! ### Direction -/

/-- A direction of the market. -/
inductive Trend where
  | up
  | down

/-- The signal for a direction. -/
def Trend.signal : Trend → SignalType
  | up => .buy
  | down => .sell

/-- How far the price is ahead of the average. -/
def Trend.lead (trend : Trend) (ema p : ℚ) : ℚ :=
  match trend with
  | up => p - ema
  | down => ema - p

theorem Trend.signalType_eq (trend : Trend) {ema p : ℚ} (hp : 0 < p) :
    signalType (.exact c) (fin ema) (fin p) = trend.signal ↔ p / 1000 < trend.lead ema p :=
  match trend with
  | up => eq_buy_iff
  | down => eq_sell_iff hp

/-- A price that is not behind the average gives the signal of the direction or none. -/
theorem Trend.signalType_eq_hold (trend : Trend) {ema p : ℚ} (hp : 0 < p)
    (hlead : 0 ≤ trend.lead ema p) (hle : ¬ p / 1000 < trend.lead ema p) :
    signalType (.exact c) (fin ema) (fin p) = .hold := by
  rw [signalType_fin]
  cases trend with
  | up =>
    rw [lead] at hlead hle
    rw [if_neg hle, if_neg (by linarith)]
  | down =>
    rw [lead] at hlead hle
    rw [if_neg (by linarith), if_neg hle]

/-- **Blending the price in shortens its lead** and keeps it on the same side. -/
theorem Trend.lead_blend (trend : Trend) (a ema p : ℚ) :
    trend.lead (blend a ema p) p = (1 - a) * trend.lead ema p := by
  cases trend with
  | up => exact sub_blend ema p
  | down =>
    rw [lead, lead, ← neg_sub, sub_blend, ← neg_sub p ema]
    ring

/-- **A signal points to where the price went** from the average before. -/
theorem Trend.lead_pos_of_signal (trend : Trend) {a ema p : ℚ} (ha : a ≤ 1) (hp : 0 < p)
    (h : signalType (.exact c) (fin (blend a ema p)) (fin p) = trend.signal) :
    0 < trend.lead ema p := by
  rw [trend.signalType_eq hp, trend.lead_blend] at h
  have hpos : 0 < (1 - a) * trend.lead ema p := lt_trans (by positivity) h
  exact pos_of_mul_pos_right hpos (by linarith)

/-! ### A price that stays -/

/-- The types of the signals of a symbol. -/
def typesOf (symbol : List UInt8) (signals : List Signal) : List SignalType :=
  (signals.filter fun sig ↦ decide (sig.symbol.key = symbol)).map Signal.type

theorem typesOf_cons_self (sig : Signal) (signals : List Signal) :
    typesOf sig.symbol.key (sig :: signals) = sig.type :: typesOf sig.symbol.key signals := by
  rw [typesOf, List.filter_cons_of_pos (by simp), List.map_cons]
  rfl

theorem typesOf_cons_of_ne {symbol : List UInt8} {sig : Signal} (h : sig.symbol.key ≠ symbol)
    (signals : List Signal) : typesOf symbol (sig :: signals) = typesOf symbol signals := by
  rw [typesOf, List.filter_cons_of_neg (by simpa using h)]
  rfl

/-- **While a price stays, its signals fade**: from an average the price is not behind, signals of
the direction come first and then none. -/
theorem Trend.fades (trend : Trend) {a p : ℚ} (h0 : 0 ≤ a) (h1 : a ≤ 1) (hp : 0 < p)
    {symbol : List UInt8} {later : List MarketSnapshot}
    (hlater : ∀ snap ∈ later, snap.symbol.key = symbol → snap.price = fin p)
    {engine : SignalEngine} {ema : ℚ} (halpha : engine.alpha = fin a)
    (hema : engine.emaMap.lookup symbol = some (fin ema)) (hlead : 0 ≤ trend.lead ema p) :
    ∃ m n, typesOf symbol ((signalling (.exact c)).outputs engine later) =
        List.replicate m trend.signal ++ List.replicate n .hold ∧
      (¬ p / 1000 < trend.lead ema p → m = 0) := by
  induction later generalizing engine ema with
  | nil => exact ⟨0, 0, rfl, fun _ ↦ rfl⟩
  | cons snap later ih =>
    have hrest := fun x hx ↦ hlater x (List.mem_cons_of_mem snap hx)
    rw [Transducer.outputs_cons]
    show ∃ m n, typesOf symbol (engine.signalFor (.exact c) snap :: (signalling (.exact c)).outputs
      (engine.update (.exact c) snap) later) = _ ∧ _
    have halpha' : (engine.update (.exact c) snap).alpha = fin a := halpha
    by_cases hkey : snap.symbol.key = symbol
    · subst hkey
      have hprice := hlater snap List.mem_cons_self rfl
      have hcurrent : engine.currentEma (.exact c) snap.symbol.key snap.price =
          fin (blend a ema p) := by
        rw [hprice]
        exact currentEma_fin halpha (show _ = (some ema).map fin from hema) p
      -- the next average is closer, and still not ahead of the price
      have hshorter : trend.lead (blend a ema p) p ≤ trend.lead ema p := by
        rw [trend.lead_blend]
        nlinarith
      have hlead' : 0 ≤ trend.lead (blend a ema p) p := by
        rw [trend.lead_blend]
        exact mul_nonneg (by linarith) hlead
      have hstored : (engine.update (.exact c) snap).emaMap.lookup snap.symbol.key =
          some (fin (blend a ema p)) := by
        rw [update, AList.lookup_insert, hcurrent]
      obtain ⟨m, n, htypes, hnone⟩ := ih hrest halpha' hstored hlead'
      have htype : (engine.signalFor (.exact c) snap).type =
          signalType (.exact c) (fin (blend a ema p)) (fin p) := by
        rw [signalFor, hcurrent, hprice]
      have hcons := typesOf_cons_self (engine.signalFor (.exact c) snap)
        ((signalling (.exact c)).outputs (engine.update (.exact c) snap) later)
      rw [show (engine.signalFor (.exact c) snap).symbol.key = snap.symbol.key from rfl, htypes,
        htype] at hcons
      rw [hcons]
      by_cases hfar : p / 1000 < trend.lead (blend a ema p) p
      · rw [(trend.signalType_eq hp).2 hfar]
        exact ⟨m + 1, n, rfl, fun hnear ↦ absurd (lt_of_lt_of_le hfar hshorter) hnear⟩
      · rw [trend.signalType_eq_hold hp hlead' hfar, hnone hfar]
        exact ⟨0, n + 1, rfl, fun _ ↦ rfl⟩
    · have hkept : (engine.update (.exact c) snap).emaMap.lookup symbol = some (fin ema) := by
        rw [update, AList.lookup_insert_ne (Ne.symm hkey), hema]
      obtain ⟨m, n, htypes, hnone⟩ := ih hrest halpha' hkept hlead
      refine ⟨m, n, ?_, hnone⟩
      rw [typesOf_cons_of_ne hkey]
      exact htypes

/-! ### Change of the price unit -/

/-- A snapshot with its price in another unit, if it is the symbol's. -/
def scaleSnapshot (symbol : List UInt8) (factor : ℚ) (snap : MarketSnapshot) : MarketSnapshot :=
  if snap.symbol.key = symbol then
    { snap with price := (FloatEnv.exact fun _ ↦ 0).mul (fin factor) snap.price }
  else snap

/-- A signal with its price and its average in another unit, if it is the symbol's. -/
def scaleSignal (symbol : List UInt8) (factor : ℚ) (sig : Signal) : Signal :=
  if sig.symbol.key = symbol then
    { sig with
      price := (FloatEnv.exact fun _ ↦ 0).mul (fin factor) sig.price
      emaValue := (FloatEnv.exact fun _ ↦ 0).mul (fin factor) sig.emaValue }
  else sig

section Scale

variable {symbol : List UInt8} {factor : ℚ} {snaps : List MarketSnapshot} {snap : MarketSnapshot}

@[simp] theorem symbol_scaleSnapshot : (scaleSnapshot symbol factor snap).symbol = snap.symbol := by
  rw [scaleSnapshot]
  split_ifs <;> rfl

theorem price_scaleSnapshot_self (hkey : snap.symbol.key = symbol) {p : ℚ}
    (hp : snap.price = fin p) : (scaleSnapshot symbol factor snap).price = fin (factor * p) := by
  rw [scaleSnapshot, if_pos hkey, hp]
  rfl

theorem finite_scaleSnapshot (h : ∃ p, snap.price = fin p) :
    ∃ p, (scaleSnapshot symbol factor snap).price = fin p := by
  obtain ⟨p, hp⟩ := h
  by_cases hkey : snap.symbol.key = symbol
  · exact ⟨_, price_scaleSnapshot_self hkey hp⟩
  · exact ⟨p, by rw [scaleSnapshot, if_neg hkey, hp]⟩

theorem finite_map_scaleSnapshot (h : ∀ x ∈ snaps, ∃ p, x.price = fin p) :
    ∀ x ∈ snaps.map (scaleSnapshot symbol factor), ∃ p, x.price = fin p := by
  intro x hx
  obtain ⟨y, hy, rfl⟩ := List.mem_map.1 hx
  exact finite_scaleSnapshot (h y hy)

/-- The prices of the symbol are scaled. -/
theorem pricesOf_map_scaleSnapshot (hprices : ∀ x ∈ snaps, ∃ p, x.price = fin p) :
    pricesOf symbol (snaps.map (scaleSnapshot symbol factor)) =
      (pricesOf symbol snaps).map (factor * ·) := by
  induction snaps using List.reverseRecOn with
  | nil => rfl
  | append_singleton snaps snap ih =>
    rw [List.forall_mem_append] at hprices
    obtain ⟨p, hp⟩ := hprices.2 snap (List.mem_singleton_self snap)
    rw [List.map_append, List.map_singleton]
    by_cases hkey : snap.symbol.key = symbol
    · have hscaled := pricesOf_concat_self (snaps.map (scaleSnapshot symbol factor))
        (scaleSnapshot symbol factor snap)
      rw [symbol_scaleSnapshot, hkey, ih hprices.1, price_scaleSnapshot_self hkey hp] at hscaled
      have hown := pricesOf_concat_self snaps snap
      rw [hkey, hp] at hown
      rw [hscaled, hown, List.map_append]
      rfl
    · rw [pricesOf_concat_of_ne (by rwa [symbol_scaleSnapshot]), pricesOf_concat_of_ne hkey,
        ih hprices.1]

/-- The prices of the other symbols are not. -/
theorem pricesOf_map_scaleSnapshot_of_ne {other : List UInt8} (hne : other ≠ symbol) :
    pricesOf other (snaps.map (scaleSnapshot symbol factor)) = pricesOf other snaps := by
  induction snaps using List.reverseRecOn with
  | nil => rfl
  | append_singleton snaps snap ih =>
    rw [List.map_append, List.map_singleton]
    by_cases hkey : snap.symbol.key = other
    · subst hkey
      rw [show scaleSnapshot symbol factor snap = snap from if_neg hne, pricesOf_concat_self,
        pricesOf_concat_self, ih]
    · rw [pricesOf_concat_of_ne (by rwa [symbol_scaleSnapshot]), pricesOf_concat_of_ne hkey, ih]

theorem averageOf_map_mul (a : ℚ) (prices : List ℚ) :
    averageOf a (prices.map (factor * ·)) = (averageOf a prices).map (factor * ·) := by
  cases prices with
  | nil => rfl
  | cons first terms => exact congrArg some (average_map_mul factor first terms)

/-- **The signal for a snapshot**, by the average of the prices up to it. -/
theorem signalFor_eq (hprices : ∀ x ∈ snaps ++ [snap], ∃ p, x.price = fin p) {p ema : ℚ}
    (hp : snap.price = fin p)
    (hema : averageOf (alphaOf period) (pricesOf snap.symbol.key (snaps ++ [snap])) = some ema) :
    (after c period snaps).signalFor (.exact c) snap =
      ⟨snap.symbol, fin p, fin ema, snap.timestampNs,
        signalType (.exact c) (fin ema) (fin p)⟩ := by
  obtain ⟨ema', haverage, hvalue⟩ := emaValue_signalFor c period hprices
  obtain rfl : ema = ema' := Option.some.inj (hema.symm.trans haverage)
  have hcurrent : (after c period snaps).currentEma (.exact c) snap.symbol.key snap.price =
      fin ema := hvalue
  rw [signalFor, hcurrent, hp]

/-- **A change of unit changes one signal's numbers** and not its type. -/
theorem signalFor_scale (hfactor : 0 < factor)
    (hprices : ∀ x ∈ snaps ++ [snap], ∃ p, x.price = fin p) :
    (after c period (snaps.map (scaleSnapshot symbol factor))).signalFor (.exact c)
        (scaleSnapshot symbol factor snap) =
      scaleSignal symbol factor ((after c period snaps).signalFor (.exact c) snap) := by
  obtain ⟨p, hp⟩ := hprices snap (by simp)
  obtain ⟨ema, hema, -⟩ := emaValue_signalFor c period hprices
  have hscaled : ∀ x ∈ (snaps ++ [snap]).map (scaleSnapshot symbol factor), ∃ p, x.price = fin p :=
    finite_map_scaleSnapshot hprices
  rw [List.map_append, List.map_singleton] at hscaled
  rw [signalFor_eq hprices hp hema]
  by_cases hkey : snap.symbol.key = symbol
  · have hema' : averageOf (alphaOf period) (pricesOf (scaleSnapshot symbol factor snap).symbol.key
        (snaps.map (scaleSnapshot symbol factor) ++ [scaleSnapshot symbol factor snap])) =
        some (factor * ema) := by
      rw [symbol_scaleSnapshot, ← List.map_singleton, ← List.map_append, hkey,
        pricesOf_map_scaleSnapshot hprices, averageOf_map_mul, ← hkey, hema]
      rfl
    rw [signalFor_eq hscaled (price_scaleSnapshot_self hkey hp) hema', signalType_mul hfactor,
      scaleSignal, if_pos hkey, symbol_scaleSnapshot, scaleSnapshot, if_pos hkey]
    rfl
  · have hsame : scaleSnapshot symbol factor snap = snap := if_neg hkey
    rw [hsame] at hscaled ⊢
    have hema' : averageOf (alphaOf period) (pricesOf snap.symbol.key
        (snaps.map (scaleSnapshot symbol factor) ++ [snap])) = some ema := by
      rw [← hema, pricesOf_concat_self, pricesOf_map_scaleSnapshot_of_ne hkey, pricesOf_concat_self]
    rw [signalFor_eq hscaled hp hema', scaleSignal, if_neg hkey]

/-- **The price unit does not matter.** -/
theorem signalsOf_map_scaleSnapshot (hfactor : 0 < factor)
    (hprices : ∀ x ∈ snaps, ∃ p, x.price = fin p) :
    signalsOf (.exact c) period (snaps.map (scaleSnapshot symbol factor)) =
      (signalsOf (.exact c) period snaps).map (scaleSignal symbol factor) := by
  induction snaps using List.reverseRecOn with
  | nil => rfl
  | append_singleton snaps snap ih =>
    rw [List.map_append, List.map_singleton, signalsOf_append_cons, signalsOf_append_cons,
      List.map_append, ih fun x hx ↦ hprices x (List.mem_append_left _ hx)]
    exact congrArg (_ ++ [·]) (signalFor_scale hfactor hprices)

end Scale

/-! ### The signals of a sequence -/

section Sequence

variable {seen later : List MarketSnapshot} {snap : MarketSnapshot}

/-- The first signal of a symbol is `HOLD`. -/
theorem type_signalFor_first (hprices : ∀ x ∈ seen ++ [snap], ∃ p, 0 < p ∧ x.price = fin p)
    (hfirst : ∀ x ∈ seen, x.symbol.key ≠ snap.symbol.key) :
    ((after c period seen).signalFor (.exact c) snap).type = .hold := by
  have hfinite : ∀ x ∈ seen ++ [snap], ∃ p, x.price = fin p :=
    fun x hx ↦ (hprices x hx).imp fun _ h ↦ h.2
  obtain ⟨p, hp, hprice⟩ := hprices snap (by simp)
  have hnone : pricesOf snap.symbol.key seen = [] := by
    rw [pricesOf, List.map_eq_nil_iff, List.filter_eq_nil_iff]
    exact fun x hx ↦ by simpa using hfirst x hx
  have hema : averageOf (alphaOf period) (pricesOf snap.symbol.key (seen ++ [snap])) = some p := by
    rw [pricesOf_concat_self, hnone, hprice]
    rfl
  rw [signalFor_eq hfinite hprice hema, signalType_fin, sub_self, if_neg, if_neg]
  · linarith
  · linarith

/-- **A signal of a direction follows a move in that direction** from the average before. -/
theorem exists_ema_of_signal (trend : Trend)
    (hprices : ∀ x ∈ seen ++ [snap], ∃ p, 0 < p ∧ x.price = fin p)
    (htype : ((after c period seen).signalFor (.exact c) snap).type = trend.signal) :
    ∃ old p, (after c period seen).emaMap.lookup snap.symbol.key = some (fin old) ∧
      snap.price = fin p ∧ 0 < trend.lead old p := by
  have hfinite : ∀ x ∈ seen ++ [snap], ∃ p, x.price = fin p :=
    fun x hx ↦ (hprices x hx).imp fun _ h ↦ h.2
  obtain ⟨p, hp, hprice⟩ := hprices snap (by simp)
  have hlookup : (after c period seen).emaMap.lookup snap.symbol.key =
      (averageOf (alphaOf period) (pricesOf snap.symbol.key seen)).map fin :=
    lookup_emaMap (fun x hx ↦ hfinite x (List.mem_append_left _ hx)) _
  have hconcat := averageOf_concat (alphaOf period) (pricesOf snap.symbol.key seen) p
  rw [show p = snap.price.value by rw [hprice, value_fin], ← pricesOf_concat_self, hprice,
    value_fin] at hconcat
  rw [signalFor_eq hfinite hprice hconcat] at htype
  cases hold : averageOf (alphaOf period) (pricesOf snap.symbol.key seen) with
  | none =>
    -- a first price has no distance from itself
    rw [hold] at htype
    have hlead := (trend.signalType_eq hp).1 htype
    cases trend with
    | up => rw [Trend.lead, Option.elim_none, sub_self] at hlead; linarith
    | down => rw [Trend.lead, Option.elim_none, sub_self] at hlead; linarith
  | some old =>
    rw [hold] at htype
    refine ⟨old, p, by rw [hlookup, hold]; rfl, hprice, ?_⟩
    exact trend.lead_pos_of_signal (alphaOf_le_one period) hp htype

/-- **After a signal of a direction, a constant price gives signals of that direction and then
none.** -/
theorem exists_replicate_of_constant (trend : Trend)
    (hprices : ∀ x ∈ seen ++ [snap], ∃ p, 0 < p ∧ x.price = fin p)
    (htype : ((after c period seen).signalFor (.exact c) snap).type = trend.signal)
    (hconstant : ∀ x ∈ later, x.symbol.key = snap.symbol.key → x.price = snap.price) :
    ∃ m n, typesOf snap.symbol.key
        ((signalling (.exact c)).outputs (after c period (seen ++ [snap])) later) =
      List.replicate m trend.signal ++ List.replicate n .hold := by
  have hfinite : ∀ x ∈ seen ++ [snap], ∃ p, x.price = fin p :=
    fun x hx ↦ (hprices x hx).imp fun _ h ↦ h.2
  obtain ⟨p, hp, hprice⟩ := hprices snap (by simp)
  obtain ⟨ema, hema, -⟩ := emaValue_signalFor c period hfinite
  rw [signalFor_eq hfinite hprice hema] at htype
  have hlead := (trend.signalType_eq hp).1 htype
  have hstored : (after c period (seen ++ [snap])).emaMap.lookup snap.symbol.key =
      some (fin ema) := by
    rw [lookup_emaMap hfinite, hema]
    rfl
  obtain ⟨m, n, htypes, -⟩ := trend.fades (alphaOf_pos period).le (alphaOf_le_one period) hp
    (fun x hx hkey ↦ (hconstant x hx hkey).trans hprice) (alpha_after (seen ++ [snap])) hstored
    (le_of_lt (lt_trans (by positivity) hlead))
  exact ⟨m, n, htypes⟩

end Sequence

/-- **Signals point the right way and do not depend on the price unit.** For every sequence of
snapshots with positive prices: the first signal of a symbol is `HOLD`; a `BUY` needs a price above
the average before it and a `SELL` one below; as long as the price of the symbol then stays, only
signals of the same type follow and after them only `HOLD`; and in another price unit the signals
are the same but for the unit. -/
theorem signals_follow_price (c : Double → UInt64) (period : Period) (snaps : List MarketSnapshot)
    (hprices : ∀ snap ∈ snaps, ∃ p, 0 < p ∧ snap.price = fin p) :
    (∀ seen snap rest, snaps = seen ++ snap :: rest →
      ∃ sig, (signalsOf (.exact c) period snaps)[seen.length]? = some sig ∧
        sig.symbol = snap.symbol ∧
        ((∀ x ∈ seen, x.symbol.key ≠ snap.symbol.key) → sig.type = .hold) ∧
        (sig.type = .buy → ∃ old, (after c period seen).emaMap.lookup snap.symbol.key = some old ∧
          flt old snap.price = true) ∧
        (sig.type = .sell → ∃ old, (after c period seen).emaMap.lookup snap.symbol.key = some old ∧
          flt snap.price old = true) ∧
        ∀ later, later <+: rest →
          (∀ x ∈ later, x.symbol.key = snap.symbol.key → x.price = snap.price) →
          let types := typesOf snap.symbol.key
            (((signalsOf (.exact c) period snaps).drop (seen.length + 1)).take later.length)
          (sig.type = .buy →
            ∃ m n, types = List.replicate m .buy ++ List.replicate n .hold) ∧
          (sig.type = .sell →
            ∃ m n, types = List.replicate m .sell ++ List.replicate n .hold)) ∧
      ∀ symbol factor, 0 < factor →
        signalsOf (.exact c) period (snaps.map (scaleSnapshot symbol factor)) =
          (signalsOf (.exact c) period snaps).map (scaleSignal symbol factor) := by
  refine ⟨?_, fun symbol factor hfactor ↦ signalsOf_map_scaleSnapshot hfactor fun x hx ↦
    (hprices x hx).imp fun _ h ↦ h.2⟩
  rintro seen snap rest rfl
  have hseen : ∀ x ∈ seen ++ [snap], ∃ p, 0 < p ∧ x.price = fin p := by
    intro x hx
    rw [List.append_cons] at hprices
    exact hprices x (List.mem_append_left rest hx)
  refine ⟨_, getElem?_signalsOf seen rest snap, rfl, type_signalFor_first hseen, ?_, ?_, ?_⟩
  · intro htype
    obtain ⟨old, p, hlookup, hprice, hlead⟩ := exists_ema_of_signal .up hseen htype
    exact ⟨fin old, hlookup, by rw [hprice, flt_fin]; exact decide_eq_true (sub_pos.1 hlead)⟩
  · intro htype
    obtain ⟨old, p, hlookup, hprice, hlead⟩ := exists_ema_of_signal .down hseen htype
    exact ⟨fin old, hlookup, by rw [hprice, flt_fin]; exact decide_eq_true (sub_pos.1 hlead)⟩
  · rintro later ⟨after, rfl⟩ hconstant
    rw [drop_signalsOf, Transducer.outputs_append, List.take_left' (length_outputs _ later)]
    exact ⟨fun htype ↦ exists_replicate_of_constant .up hseen htype hconstant,
      fun htype ↦ exists_replicate_of_constant .down hseen htype hconstant⟩

/-- A rise from 100 to 121 gives a `BUY`; what follows while the price stays at 121 is no `SELL`. -/
theorem signals_follow_price_rise :
    let snap := fun price : ℚ ↦
      (⟨(MarketTick.make [65] 0 0 0 1).symbol, fin price, fin 1, 1, 0⟩ : MarketSnapshot)
    let snaps := snap 100 :: snap 121 :: List.replicate 5 (snap 121)
    let signals := signalsOf (.exact fun _ ↦ 0) .default snaps
    (signals.map Signal.type)[1]? = some .buy ∧
      ∃ m n, typesOf [65] ((signals.drop 2).take 5) =
        List.replicate m .buy ++ List.replicate n .hold := by
  intro snap snaps signals
  have hprices : ∀ x ∈ snaps, ∃ p, 0 < p ∧ x.price = fin p := by
    intro x hx
    rcases (by simpa [snaps] using hx : x = snap 100 ∨ x = snap 121) with rfl | rfl
    · exact ⟨100, by norm_num, rfl⟩
    · exact ⟨121, by norm_num, rfl⟩
  have hbuy : (signals.map Signal.type)[1]? = some .buy := by decide +kernel
  obtain ⟨hall, -⟩ := signals_follow_price (fun _ ↦ 0) .default snaps hprices
  obtain ⟨sig, hsig, -, -, -, -, hlater⟩ := hall [snap 100] (snap 121) _ rfl
  have hat : signals[1]? = some sig := hsig
  rw [List.getElem?_map, hat, Option.map_some, Option.some.injEq] at hbuy
  have hconstant := hlater (List.replicate 5 (snap 121)) (List.prefix_refl _) (by
    intro x hx _
    rw [(List.mem_replicate.1 hx).2])
  exact ⟨by rw [List.getElem?_map, hat, Option.map_some, hbuy], hconstant.1 hbuy⟩

end SignalEngine

end Mdp
