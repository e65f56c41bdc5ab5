import MarketDataProcessor.Strategy.SignalRules

/-!
# How long a signal lasts

`SignalRules` says that the signals for a price that stays fade. Here is by how much: the distance
between the price and its average shrinks by the factor `1 - a` with every snapshot, so the `k`-th
signal is a `BUY` or a `SELL` exactly as long as the distance at the start, shrunk `k + 1` times, is
more than a thousandth of the price. From some number of snapshots on, which depends on the average,
the price and the period alone, every signal is `HOLD`. Snapshots of other symbols may come in
between.

## What the result rests on

`typesOf_constant` is the induction over the snapshots: those of other symbols leave the average
alone, and each of the symbol's own blends the price in once more. `Flow.drop_pushed_prefix` leads
from a run of the thread to the sequence, whatever is still under way. The numbers are those of the
library, `sub_average_replicate` for the exact distance and `exists_forall_abs_sub_le` for the
moment from which it is below the margin. The margin is a thousandth of the price, so the price has
to be positive; at price zero a falling average never comes within it.
-/

namespace Mdp

open Double SignalEngine ExpAverage EngineWorker

namespace SignalEngine

variable {c : Double → UInt64} {period : Period} {symbol : List UInt8} {p ema : ℚ}

/-- The price of the symbol stays. -/
def Constant (symbol : List UInt8) (p : ℚ) (snaps : List MarketSnapshot) : Prop :=
  ∀ snap ∈ snaps, snap.symbol.key = symbol → snap.price = fin p

theorem typesOf_prefix (symbol : List UInt8) {signals signals' : List Signal}
    (h : signals <+: signals') : typesOf symbol signals <+: typesOf symbol signals' :=
  (h.filter _).map _

/-- **The signals for a price that stays** compare it with the average that has taken it in once
more each time. -/
theorem typesOf_constant {a : ℚ} {later : List MarketSnapshot} (hlater : Constant symbol p later)
    {engine : SignalEngine} (halpha : engine.alpha = fin a)
    (hema : engine.emaMap.lookup symbol = some (fin ema)) {k : ℕ} {type : SignalType}
    (htype : (typesOf symbol ((signalling (.exact c)).outputs engine later))[k]? = some type) :
    type = signalType (.exact c) (fin (average a ema (List.replicate (k + 1) p))) (fin p) := by
  induction later generalizing engine ema k with
  | nil => exact absurd htype (by simp [typesOf])
  | cons snap later ih =>
    have hrest : Constant symbol p later := fun x hx ↦ hlater x (List.mem_cons_of_mem snap hx)
    have hcons : (signalling (.exact c)).outputs engine (snap :: later) =
        engine.signalFor (.exact c) snap ::
          (signalling (.exact c)).outputs (engine.update (.exact c) snap) later := rfl
    have halpha' : (engine.update (.exact c) snap).alpha = fin a := halpha
    rw [hcons] at htype
    by_cases hkey : snap.symbol.key = symbol
    · have hprice := hlater snap List.mem_cons_self hkey
      have hcurrent : engine.currentEma (.exact c) snap.symbol.key snap.price =
          fin (blend a ema p) := by
        rw [hkey, hprice]
        exact currentEma_fin halpha (show _ = (some ema).map fin from hema) p
      have hstored : (engine.update (.exact c) snap).emaMap.lookup symbol =
          some (fin (blend a ema p)) := by
        rw [update, hcurrent, hkey, AList.lookup_insert]
      have hsymbol : (engine.signalFor (.exact c) snap).symbol.key = symbol := hkey
      have htypes := typesOf_cons_self (engine.signalFor (.exact c) snap)
        ((signalling (.exact c)).outputs (engine.update (.exact c) snap) later)
      rw [hsymbol] at htypes
      rw [htypes] at htype
      cases k with
      | zero =>
        rw [List.getElem?_cons_zero, Option.some.injEq] at htype
        rw [← htype, signalFor, hcurrent, hprice]
        rfl
      | succ k =>
        rw [List.getElem?_cons_succ] at htype
        exact ih hrest halpha' hstored htype
    · have hkept : (engine.update (.exact c) snap).emaMap.lookup symbol = some (fin ema) := by
        rw [update, AList.lookup_insert_ne (Ne.symm hkey), hema]
      rw [typesOf_cons_of_ne hkey] at htype
      exact ih hrest halpha' hkept htype

end SignalEngine

namespace EngineSystem

variable {c : Double → UInt64} {period : Period} {s : EngineSystem}

/-- The signals pushed after those for `seen` are a beginning of the signals for what follows. -/
theorem Flow.drop_pushed_prefix {fl : FloatEnv} (h : s.Flow fl period)
    {seen later : List MarketSnapshot} (hsplit : s.supplied = seen ++ later) :
    s.worker.pushed.drop seen.length <+:
      (signalling fl).outputs ((signalling fl).state (new fl period) seen) later := by
  have hpart := h.pushed_prefix.drop seen.length
  rw [hsplit, signalsOf, Transducer.outputs_append] at hpart
  have hlen : ((signalling fl).outputs (new fl period) seen).length = seen.length :=
    length_signalsOf seen
  rwa [← hlen, List.drop_left, hlen] at hpart

/-- The average of a symbol is `ema` after the snapshots `seen`, and its price is `p` from then
on. -/
structure Stays (period : Period) (symbol : List UInt8) (ema p : ℚ) (s : EngineSystem)
    (seen later : List MarketSnapshot) : Prop where
  supplied : s.supplied = seen ++ later
  finite : ∀ snap ∈ seen, ∃ q, snap.price = fin q
  average : averageOf (alphaOf period) (pricesOf symbol seen) = some ema
  constant : Constant symbol p later

/-- The types of the signals pushed for what follows. -/
theorem Flow.eq_of_stays (h : s.Flow (.exact c) period) {symbol : List UInt8} {ema p : ℚ}
    {seen later : List MarketSnapshot} (hstays : Stays period symbol ema p s seen later) {k : ℕ}
    {type : SignalType}
    (htype : (typesOf symbol (s.worker.pushed.drop seen.length))[k]? = some type) :
    type = signalType (.exact c)
      (fin (ExpAverage.average (alphaOf period) ema (List.replicate (k + 1) p))) (fin p) := by
  have hstored : (after c period seen).emaMap.lookup symbol = some (fin ema) := by
    rw [lookup_emaMap hstays.finite, hstays.average]
    rfl
  refine typesOf_constant hstays.constant (alpha_after seen) hstored ?_
  obtain ⟨rest, hrest⟩ := typesOf_prefix symbol (h.drop_pushed_prefix hstays.supplied)
  have hlt := (List.getElem?_eq_some_iff.1 htype).1
  exact (congrArg (·[k]?) hrest.symm).trans ((List.getElem?_append_left hlt).trans htype)

/-- **How long a signal lasts.** In every run of the engine, whoever supplies the snapshots and
whenever the consumer takes the signals: let the average of a symbol be `ema` after some snapshots,
and its price `p` in all that follow. Then the `k`-th signal of the symbol is `BUY` exactly if `p`
is ahead of `ema` by more than a thousandth of `p`, after that distance has been multiplied by
`1 - a` for the `k + 1`-st time, and `SELL` exactly if it is as far behind. From some number on,
which depends on `ema`, `p` and the period only, they are all `HOLD`. -/
theorem signals_settle (c : Double → UInt64) (period : Period) (symbol : List UInt8) (ema : ℚ)
    {p : ℚ} (hp : 0 < p) :
    let a := alphaOf period
    ∃ n, ∀ acts s seen later,
      StepRun.run (step (.exact c)) (init (.exact c) period) acts = some s →
      Stays period symbol ema p s seen later → ∀ (k : ℕ) (type : SignalType),
        (typesOf symbol (s.worker.pushed.drop seen.length))[k]? = some type →
        (type = .buy ↔ p / 1000 < (1 - a) ^ (k + 1) * (p - ema)) ∧
          (type = .sell ↔ p / 1000 < (1 - a) ^ (k + 1) * (ema - p)) ∧ (n ≤ k → type = .hold) := by
  intro a
  obtain ⟨n, hclose⟩ := exists_forall_abs_sub_le (alphaOf_pos period) (alphaOf_le_one period) ema p
    (show (0 : ℚ) < p / 1000 by positivity)
  refine ⟨n, fun acts s seen later hrun hstays k type htype ↦ ?_⟩
  have hdistance := sub_average_replicate (a := a) ema p (k + 1)
  rw [(flow_of_run hrun).eq_of_stays hstays htype]
  refine ⟨?_, ?_, fun hk ↦ ?_⟩
  · rw [eq_buy_iff, hdistance]
  · rw [eq_sell_iff hp, ← neg_sub p (ExpAverage.average a ema _), hdistance, ← mul_neg, neg_sub]
  · obtain ⟨hbelow, habove⟩ := abs_le.1 (hclose (k + 1) (by omega))
    rw [signalType_fin, if_neg (by linarith), if_neg (by linarith)]

/-- A rise from 100 to 121 with period 20 gives a `BUY`, as `121 / 1000 < 19 / 21 * 21`. -/
theorem signals_settle_rise :
    let snap := fun price : ℚ ↦
      (⟨(MarketTick.make [65] 0 0 0 1).symbol, fin price, fin 1, 1, 0⟩ : MarketSnapshot)
    let acts : List Action := [.supply (snap 100), .supply (snap 121)] ++ List.replicate 6 .thread
    ∃ s, StepRun.run (step (.exact fun _ ↦ 0)) (init (.exact fun _ ↦ 0) .default) acts = some s ∧
      (typesOf [65] (s.worker.pushed.drop 1))[0]? = some .buy := by
  intro snap acts
  obtain ⟨s, hrun, hend⟩ := Option.map_eq_some_iff.1 (by decide +kernel :
    (StepRun.run (step (.exact fun _ ↦ 0)) (init (.exact fun _ ↦ 0) .default) acts).map
      (fun s ↦ (s.supplied, (typesOf [65] (s.worker.pushed.drop 1)).length)) =
        some ([snap 100, snap 121], 1))
  obtain ⟨hsupplied, hlen⟩ := Prod.mk.inj hend
  have hstays : Stays .default [65] 100 121 s [snap 100] [snap 121] := by
    refine ⟨hsupplied, ?_, by decide +kernel, ?_⟩
    · rintro x hx
      rw [List.mem_singleton.1 hx]
      exact ⟨100, rfl⟩
    · rintro x hx -
      rw [List.mem_singleton.1 hx]
  obtain ⟨n, hall⟩ := signals_settle (fun _ ↦ 0) .default [65] 100 (p := 121) (by norm_num)
  have hget := List.getElem?_eq_getElem (by rw [hlen]; exact Nat.one_pos :
    0 < (typesOf [65] (s.worker.pushed.drop 1)).length)
  refine ⟨s, hrun, ?_⟩
  rw [hget, ((hall acts s _ _ hrun hstays 0 _ hget).1).2 (by norm_num [alphaOf])]

end EngineSystem

end Mdp
