import MarketDataProcessor.Foundations.ExpAverage
import MarketDataProcessor.Foundations.StepRun
import MarketDataProcessor.Strategy.EngineWorker

/-!
# The averages of the signal engine

In exact arithmetic the map of the engine holds, for every symbol seen, the exponential average of
the prices of its snapshots, and nothing for the others: `lookup_emaMap`. The closed form and the
bounds are those of the library.

The thread is run with its two queues, a producer and a consumer, in any order and without a stop
request. Then every snapshot has one signal, in order; a signal the consumer does not make room for
waits in the thread's hand.

## What the result rests on

* `lookup_emaMap`, by induction over the snapshots from the end: the last one changes the entry of
  its own symbol, by one blend, and no other.
* `Flow.pushed_append_inHand`: the signals pushed are those called for, so a statement about the
  signal at a place is one about the snapshots up to it (`getElem?_signalsOf`).
* `Flow.exists_settles`: from every reachable state the thread and the consumer can bring the signal
  of every snapshot out. The induction is over the snapshots in the input, and a full output costs
  the consumer one step.

Prices are finite there. The period plays no part but for the factor, which is positive and at most
one (`alphaOf_pos`, `alphaOf_le_one`).
-/

namespace Mdp

open Double SignalEngine ExpAverage

namespace SignalEngine

/-- The smoothing factor of a period. -/
def alphaOf (period : Period) : ℚ := 2 / (period.effective + 1)

theorem alphaOf_pos (period : Period) : 0 < alphaOf period := by
  have hcast : (1 : ℚ) ≤ period.effective := by exact_mod_cast period.one_le_effective
  rw [alphaOf]
  positivity

theorem alphaOf_le_one (period : Period) : alphaOf period ≤ 1 := by
  have hcast : (1 : ℚ) ≤ period.effective := by exact_mod_cast period.one_le_effective
  rw [alphaOf, div_le_one (by linarith)]
  linarith

/-- The prices of a symbol's snapshots. -/
def pricesOf (symbol : List UInt8) (snaps : List MarketSnapshot) : List ℚ :=
  (snaps.filter fun snap ↦ decide (snap.symbol.key = symbol)).map fun snap ↦ snap.price.value

theorem pricesOf_concat_self (snaps : List MarketSnapshot) (snap : MarketSnapshot) :
    pricesOf snap.symbol.key (snaps ++ [snap]) =
      pricesOf snap.symbol.key snaps ++ [snap.price.value] := by
  rw [pricesOf, List.filter_append, List.filter_cons_of_pos (by simp), List.filter_nil,
    List.map_append]
  rfl

theorem pricesOf_concat_of_ne {symbol : List UInt8} {snap : MarketSnapshot}
    (h : snap.symbol.key ≠ symbol) (snaps : List MarketSnapshot) :
    pricesOf symbol (snaps ++ [snap]) = pricesOf symbol snaps := by
  rw [pricesOf, List.filter_append, List.filter_cons_of_neg (by simpa using h), List.filter_nil,
    List.append_nil]
  rfl

/-- The average of the prices, if there are any. -/
def averageOf (a : ℚ) : List ℚ → Option ℚ
  | [] => none
  | first :: terms => some (average a first terms)

/-- **One more price** becomes the average or is blended into it. -/
theorem averageOf_concat (a : ℚ) (prices : List ℚ) (price : ℚ) :
    averageOf a (prices ++ [price]) =
      some ((averageOf a prices).elim price fun old ↦ blend a old price) := by
  cases prices with
  | nil => rfl
  | cons first terms => exact congrArg some (average_concat first price terms)

/-- **The closed form**, with the prices numbered from zero. -/
theorem averageOf_eq_sum {a : ℚ} {prices : List ℚ} {n : ℕ} (hlen : prices.length = n + 1) :
    averageOf a prices = some ((1 - a) ^ n * prices.getD 0 0 +
      ∑ i ∈ Finset.Icc 1 n, a * (1 - a) ^ (n - i) * prices.getD i 0) := by
  cases prices with
  | nil => simp at hlen
  | cons first terms =>
    obtain rfl : terms.length = n := by simpa using hlen
    have hshift : ∑ i ∈ Finset.Icc 1 terms.length,
        a * (1 - a) ^ (terms.length - i) * (first :: terms).getD i 0 =
        ∑ i ∈ Finset.range terms.length,
          a * (1 - a) ^ (terms.length - (i + 1)) * terms.getD i 0 := by
      rw [← Finset.Ico_add_one_right_eq_Icc, Finset.range_eq_Ico]
      exact (Finset.sum_Ico_add' (fun i ↦ a * (1 - a) ^ (terms.length - i) *
        (first :: terms).getD i 0) 0 terms.length 1).symm
    rw [averageOf, average_eq_sum, hshift]
    rfl

/-- A price has a place. -/
theorem exists_getD_of_mem {prices : List ℚ} {n : ℕ} (hlen : prices.length = n + 1) {price : ℚ}
    (h : price ∈ prices) : ∃ i ≤ n, prices.getD i 0 = price := by
  obtain ⟨i, hi, rfl⟩ := List.mem_iff_getElem.1 h
  exact ⟨i, by omega, List.getD_eq_getElem _ _ hi⟩

/-- **The average is among the prices.** -/
theorem averageOf_bounds {a : ℚ} (h0 : 0 ≤ a) (h1 : a ≤ 1) {prices : List ℚ} {ema : ℚ}
    (h : averageOf a prices = some ema) :
    (∃ low ∈ prices, low ≤ ema) ∧ ∃ high ∈ prices, ema ≤ high := by
  cases prices with
  | nil => simp [averageOf] at h
  | cons first terms =>
    obtain rfl := Option.some.inj h
    exact ⟨exists_le_average h0 h1 first terms, exists_average_le h0 h1 first terms⟩

/-! ### The map of the engine -/

section Exact

variable (c : Double → UInt64) (period : Period)

/-- The engine after some snapshots, in exact arithmetic. -/
def after (snaps : List MarketSnapshot) : SignalEngine :=
  (signalling (.exact c)).state (new (.exact c) period) snaps

variable {c period}

theorem after_concat (snaps : List MarketSnapshot) (snap : MarketSnapshot) :
    after c period (snaps ++ [snap]) = (after c period snaps).update (.exact c) snap :=
  Transducer.state_concat _ _ _ _

@[simp] theorem alpha_after (snaps : List MarketSnapshot) :
    (after c period snaps).alpha = fin (alphaOf period) := by
  induction snaps using List.reverseRecOn with
  | nil => rfl
  | append_singleton snaps snap ih =>
    rw [after_concat]
    exact ih

/-- A finite price is blended into a finite average. -/
theorem currentEma_fin {engine : SignalEngine} {a : ℚ} {symbol : List UInt8} {old : Option ℚ}
    (halpha : engine.alpha = fin a) (hold : engine.emaMap.lookup symbol = old.map fin) (p : ℚ) :
    engine.currentEma (.exact c) symbol (fin p) = fin (old.elim p fun ema ↦ blend a ema p) := by
  rw [currentEma, hold, halpha]
  cases old with
  | none => rfl
  | some ema =>
    show (FloatEnv.exact c).add ((FloatEnv.exact c).mul (fin p) (fin a))
      ((FloatEnv.exact c).mul (fin ema) ((FloatEnv.exact c).sub (fin 1) (fin a))) = _
    rw [FloatEnv.exact_sub_fin]
    rfl

/-- **The map holds the averages** of the symbols seen. -/
theorem lookup_emaMap {snaps : List MarketSnapshot}
    (hprices : ∀ snap ∈ snaps, ∃ p, snap.price = fin p) (symbol : List UInt8) :
    (after c period snaps).emaMap.lookup symbol =
      (averageOf (alphaOf period) (pricesOf symbol snaps)).map fin := by
  induction snaps using List.reverseRecOn with
  | nil => rfl
  | append_singleton snaps snap ih =>
    rw [List.forall_mem_append] at hprices
    have hbefore := ih hprices.1
    obtain ⟨p, hp⟩ := hprices.2 snap (List.mem_singleton_self snap)
    rw [after_concat, update]
    by_cases hkey : snap.symbol.key = symbol
    · subst hkey
      rw [AList.lookup_insert, pricesOf_concat_self, averageOf_concat, hp,
        currentEma_fin (alpha_after snaps) hbefore]
      rfl
    · rw [AList.lookup_insert_ne (Ne.symm hkey), pricesOf_concat_of_ne hkey]
      exact hbefore

variable (c period) in
/-- **The average of a signal** is that of the prices up to it. -/
theorem emaValue_signalFor {snaps : List MarketSnapshot} {snap : MarketSnapshot}
    (hprices : ∀ x ∈ snaps ++ [snap], ∃ p, x.price = fin p) :
    ∃ ema, averageOf (alphaOf period) (pricesOf snap.symbol.key (snaps ++ [snap])) = some ema ∧
      ((after c period snaps).signalFor (.exact c) snap).emaValue = fin ema := by
  rw [List.forall_mem_append] at hprices
  obtain ⟨p, hp⟩ := hprices.2 snap (List.mem_singleton_self snap)
  rw [pricesOf_concat_self, averageOf_concat, hp]
  refine ⟨_, rfl, ?_⟩
  show (after c period snaps).currentEma (.exact c) snap.symbol.key snap.price = _
  rw [hp, currentEma_fin (alpha_after snaps) (lookup_emaMap hprices.1 _)]
  rfl

end Exact

end SignalEngine

/-! ### The thread with its queues -/

/-- The thread of the engine, a producer and a consumer. -/
structure EngineSystem where
  /-- History: the snapshots that entered the input. -/
  supplied : List MarketSnapshot
  /-- `SnapshotRingBuffer4K`. -/
  input : BoundedQueue MarketSnapshot 4096
  worker : EngineWorker
  /-- `SignalRingBuffer4K`. -/
  output : BoundedQueue Signal 4096

namespace EngineSystem

/-- What can happen; nobody requests a stop. -/
inductive Action where
  /-- A snapshot enters the input. -/
  | supply (snap : MarketSnapshot)
  /-- The thread makes a step. -/
  | thread
  /-- A signal leaves the output. -/
  | take

variable (fl : FloatEnv) (period : Period)

/-- The thread started on empty queues. -/
def init : EngineSystem where
  supplied := []
  input := BoundedQueue.empty
  worker := EngineWorker.start fl period
  output := BoundedQueue.empty

/-- One step of the system. -/
def step (s : EngineSystem) : Action → Option EngineSystem
  | .supply snap =>
    (s.input.tryPush snap).map fun input' ↦
      { s with supplied := s.supplied ++ [snap], input := input' }
  | .thread =>
    let next := s.worker.step fl false s.input s.output
    some { s with worker := next.1, input := next.2.1, output := next.2.2 }
  | .take => s.output.tryPop.map fun (_, output') ↦ { s with output := output' }

/-- What holds in every reachable state. -/
structure Flow (s : EngineSystem) : Prop where
  /-- The input holds what was supplied and not yet popped. -/
  input : s.worker.popped ++ s.input.items = s.supplied
  /-- The thread accounts for what it popped. -/
  accounts : s.worker.Accounts fl period
  /-- Nothing is given up. -/
  lost : s.worker.lost = 0
  /-- The thread does not return. -/
  running : s.worker.pc ≠ .exited

variable {fl period} {s t : EngineSystem}

theorem flow_init : (init fl period).Flow fl period :=
  ⟨rfl, EngineWorker.accounts_start fl period, rfl, by simp [init, EngineWorker.start]⟩

/-- **Every step keeps the flow.** -/
theorem Flow.step (h : s.Flow fl period) {a : Action} (hstep : s.step fl a = some t) :
    t.Flow fl period := by
  cases a with
  | supply snap =>
    obtain ⟨input', hpush, rfl⟩ := Option.map_eq_some_iff.1 hstep
    obtain ⟨-, hitems⟩ := BoundedQueue.tryPush_eq_some_iff.1 hpush
    refine ⟨?_, h.accounts, h.lost, h.running⟩
    show s.worker.popped ++ input'.items = s.supplied ++ [snap]
    rw [hitems, ← List.append_assoc, h.input]
  | thread =>
    obtain rfl := Option.some.inj hstep
    have hrule := EngineWorker.step_rule fl false s.worker s.input s.output
    obtain ⟨took, hpopped, hitems⟩ := hrule.exists_popped
    refine ⟨?_, h.accounts.step hrule, hrule.lost_eq.trans h.lost, hrule.running h.running⟩
    rw [← h.input]
    show (s.worker.step fl false s.input s.output).1.popped ++ _ = _
    rw [hpopped, hitems, List.append_assoc]
  | take =>
    obtain ⟨⟨sig, output'⟩, -, rfl⟩ := Option.map_eq_some_iff.1 hstep
    exact ⟨h.input, h.accounts, h.lost, h.running⟩

theorem flow_of_run {acts : List Action}
    (h : StepRun.run (step fl) (init fl period) acts = some s) : s.Flow fl period :=
  StepRun.run_invariant (fun _ _ _ hflow hstep ↦ hflow.step hstep) flow_init h

/-- **One signal per snapshot, in order**, up to the one in hand. -/
theorem Flow.pushed_append_inHand (h : s.Flow fl period) :
    s.worker.pushed ++ s.worker.pc.inHand = EngineWorker.signalsOf fl period s.worker.popped :=
  h.accounts.pushed_append_inHand h.lost

theorem Flow.length_pushed_le (h : s.Flow fl period) :
    s.worker.pushed.length ≤ s.supplied.length := by
  have hlen := h.accounts.length
  rw [h.lost] at hlen
  rw [← h.input, List.length_append, ← hlen, List.length_append]
  omega

/-! ### Every signal gets out -/

/-- The thread and the consumer can lead there without a further snapshot. -/
def Settles (fl : FloatEnv) (s t : EngineSystem) : Prop :=
  ∃ acts, (∀ a ∈ acts, a = .thread ∨ a = .take) ∧ StepRun.run (step fl) s acts = some t

theorem Settles.refl (s : EngineSystem) : Settles fl s s := ⟨[], by simp, rfl⟩

theorem Settles.head {a : Action} {u : EngineSystem} (ha : a = .thread ∨ a = .take)
    (hstep : s.step fl a = some u) (h : Settles fl u t) : Settles fl s t := by
  obtain ⟨acts, hacts, hrun⟩ := h
  refine ⟨a :: acts, ?_, StepRun.run_cons_eq_some_iff.2 ⟨u, hstep, hrun⟩⟩
  exact List.forall_mem_cons.2 ⟨ha, hacts⟩

theorem Settles.trans {u : EngineSystem} (h : Settles fl s u) (h' : Settles fl u t) :
    Settles fl s t := by
  obtain ⟨acts, hacts, hrun⟩ := h
  obtain ⟨acts', hacts', hrun'⟩ := h'
  exact ⟨acts ++ acts', List.forall_mem_append.2 ⟨hacts, hacts'⟩,
    StepRun.run_append_eq_some_iff.2 ⟨u, hrun, hrun'⟩⟩

theorem Settles.flow (h : Settles fl s t) (hs : s.Flow fl period) : t.Flow fl period := by
  obtain ⟨acts, -, hrun⟩ := h
  exact StepRun.run_invariant (fun _ _ _ hflow hstep ↦ hflow.step hstep) hs hrun

/-- The state after the pop of a snapshot. -/
def holding (fl : FloatEnv) (s : EngineSystem) (snap : MarketSnapshot)
    (input' : BoundedQueue MarketSnapshot 4096) : EngineSystem :=
  { s with
    worker := { s.worker with
      pc := .tryPush (s.worker.engine.signalFor fl snap)
      engine := s.worker.engine.update fl snap
      popped := s.worker.popped ++ [snap] }
    input := input' }

variable (fl)

theorem step_tryPop {snap : MarketSnapshot} (input' : BoundedQueue MarketSnapshot 4096)
    (hpc : s.worker.pc = .tryPop) (hitems : s.input.items = snap :: input'.items) :
    s.step fl .thread = some (s.holding fl snap input') := by
  simp only [step, EngineWorker.step, hpc, BoundedQueue.tryPop_eq_some_iff.2 hitems, holding]

/-- With room in the output, a signal in hand is pushed by the next step. -/
theorem exists_settles_of_room {sig : Signal} (hpc : s.worker.pc = .tryPush sig)
    (hlt : s.output.items.length < 4096) :
    ∃ t, Settles fl s t ∧ t.worker.pc = .loopTest ∧ t.input = s.input ∧
      t.supplied = s.supplied := by
  obtain ⟨output', hpush, -⟩ := BoundedQueue.exists_tryPush_eq_some hlt sig
  have hstep : s.step fl .thread = some { s with
      worker := { s.worker with pc := .loopTest, pushed := s.worker.pushed ++ [sig] }
      output := output' } := by
    simp only [step, EngineWorker.step, hpc, hpush]
  exact ⟨_, (Settles.refl _).head (.inl rfl) hstep, rfl, rfl, rfl⟩

/-- A signal in hand is pushed once the consumer has made room. -/
theorem exists_settles_of_tryPush {sig : Signal} (hpc : s.worker.pc = .tryPush sig) :
    ∃ t, Settles fl s t ∧ t.worker.pc = .loopTest ∧ t.input = s.input ∧
      t.supplied = s.supplied := by
  have hlen := s.output.length_le
  cases hpop : s.output.tryPop with
  | none =>
    rw [BoundedQueue.tryPop_eq_none_iff] at hpop
    exact exists_settles_of_room fl hpc (by rw [hpop]; exact Nat.zero_lt_succ _)
  | some first =>
    obtain ⟨old, output'⟩ := first
    rw [BoundedQueue.tryPop_eq_some_iff.1 hpop, List.length_cons] at hlen
    have hstep : s.step fl .take = some { s with output := output' } := by
      simp only [step, hpop, Option.map_some]
    obtain ⟨t, hsettles, hrest⟩ :=
      exists_settles_of_room fl (s := { s with output := output' }) hpc hlen
    exact ⟨t, hsettles.head (.inr rfl) hstep, hrest⟩

/-- The thread gets back to the head of its loop. -/
theorem exists_settles_loopTest (hpc : s.worker.pc ≠ .exited) :
    ∃ t, Settles fl s t ∧ t.worker.pc = .loopTest ∧ t.supplied = s.supplied := by
  cases hat : s.worker.pc with
  | loopTest => exact ⟨s, Settles.refl s, hat, rfl⟩
  | tryPop =>
    cases hpop : s.input.tryPop with
    | none =>
      refine ⟨{ s with worker := { s.worker with pc := .loopTest } }, ?_, rfl, rfl⟩
      refine (Settles.refl _).head (.inl rfl) ?_
      simp only [step, EngineWorker.step, hat, hpop]
    | some first =>
      obtain ⟨snap, input'⟩ := first
      have hstep := step_tryPop fl input' hat (BoundedQueue.tryPop_eq_some_iff.1 hpop)
      obtain ⟨t, hsettles, hloop, -, hsupplied⟩ :=
        exists_settles_of_tryPush fl (s := s.holding fl snap input') rfl
      exact ⟨t, hsettles.head (.inl rfl) hstep, hloop, hsupplied⟩
  | tryPush sig =>
    obtain ⟨t, hsettles, hloop, -, hsupplied⟩ := exists_settles_of_tryPush fl hat
    exact ⟨t, hsettles, hloop, hsupplied⟩
  | pushTest sig =>
    let u : EngineSystem := { s with worker := { s.worker with pc := .tryPush sig } }
    have hstep : s.step fl .thread = some u := by
      simp only [step, EngineWorker.step, hat, Bool.false_eq_true, if_false, u]
    obtain ⟨t, hsettles, hloop, -, hsupplied⟩ := exists_settles_of_tryPush fl (s := u) rfl
    exact ⟨t, hsettles.head (.inl rfl) hstep, hloop, hsupplied⟩
  | exited => exact absurd hat hpc

/-- From the head of the loop the thread works off its input. -/
theorem exists_settles_empty {l : List MarketSnapshot} (hitems : s.input.items = l)
    (hpc : s.worker.pc = .loopTest) :
    ∃ t, Settles fl s t ∧ t.worker.pc = .loopTest ∧ t.input.items = [] ∧
      t.supplied = s.supplied := by
  induction l generalizing s with
  | nil => exact ⟨s, Settles.refl s, hpc, hitems, rfl⟩
  | cons snap rest ih =>
    let u : EngineSystem := { s with worker := { s.worker with pc := .tryPop } }
    have henter : s.step fl .thread = some u := by
      simp only [step, EngineWorker.step, hpc, Bool.false_eq_true, if_false, u]
    have hlen := s.input.length_le
    rw [hitems, List.length_cons] at hlen
    let input' : BoundedQueue MarketSnapshot 4096 := ⟨rest, by omega⟩
    have hpop : u.step fl .thread = some (u.holding fl snap input') :=
      step_tryPop fl input' rfl hitems
    obtain ⟨v, hpush, hloop, hinput, hsupplied⟩ :=
      exists_settles_of_tryPush fl (s := u.holding fl snap input') rfl
    obtain ⟨t, hsettles, hrest⟩ := ih (s := v) (by rw [hinput]; rfl) hloop
    exact ⟨t, ((hpush.trans hsettles).head (.inl rfl) hpop).head (.inl rfl) henter,
      hrest.1, hrest.2.1, hrest.2.2.trans hsupplied⟩

variable {fl}

/-- **Every snapshot gets its signal.** -/
theorem Flow.exists_settles (h : s.Flow fl period) :
    ∃ t, Settles fl s t ∧ t.supplied = s.supplied ∧
      t.worker.pushed = EngineWorker.signalsOf fl period s.supplied := by
  obtain ⟨u, hfirst, hloop, hsupplied⟩ := exists_settles_loopTest fl h.running
  obtain ⟨t, hrest, hpc, hempty, hsupplied'⟩ := exists_settles_empty fl rfl hloop
  have hsettles := hfirst.trans hrest
  have hflow := hsettles.flow h
  refine ⟨t, hsettles, hsupplied'.trans hsupplied, ?_⟩
  have hpushed := hflow.pushed_append_inHand
  have hinput := hflow.input
  rw [hempty, List.append_nil, hsupplied', hsupplied] at hinput
  rw [hpc, hinput] at hpushed
  exact (List.append_nil _).symm.trans hpushed

/-! ### The signals of a run -/

theorem Flow.pushed_prefix (h : s.Flow fl period) :
    s.worker.pushed <+: EngineWorker.signalsOf fl period s.supplied := by
  have hsub : EngineWorker.signalsOf fl period s.worker.popped <+:
      EngineWorker.signalsOf fl period s.supplied :=
    Transducer.outputs_prefix _ _ ⟨s.input.items, h.input⟩
  rw [← h.pushed_append_inHand] at hsub
  exact (List.prefix_append _ _).trans hsub

theorem Flow.getElem?_pushed (h : s.Flow fl period) {seen rest : List MarketSnapshot}
    {snap : MarketSnapshot} (hsplit : s.supplied = seen ++ snap :: rest)
    (hlt : seen.length < s.worker.pushed.length) :
    s.worker.pushed[seen.length]? =
      some (((signalling fl).state (new fl period) seen).signalFor fl snap) := by
  obtain ⟨later, hlater⟩ := h.pushed_prefix
  have hkept : (s.worker.pushed ++ later)[seen.length]? = s.worker.pushed[seen.length]? :=
    List.getElem?_append_left hlt
  rw [← hkept, hlater, hsplit, EngineWorker.getElem?_signalsOf]

/-- **The engine computes the average it is named after.** In every run without a stop request,
whoever supplies the snapshots and whenever the consumer takes the signals: the signals are those of
the snapshots, one for each and in order, with the symbol, the price and the timestamp of the
snapshot and with the exponential average of the prices `p 0`, …, `p n` of its symbol so far, which
lies among them. What is not yet pushed will be once the thread and the consumer go on. -/
theorem emits_exponential_average (c : Double → UInt64) (period : Period) {acts : List Action}
    {s : EngineSystem} (hrun : StepRun.run (step (.exact c)) (init (.exact c) period) acts = some s)
    (hprices : ∀ snap ∈ s.supplied, ∃ p, snap.price = fin p) :
    s.worker.pushed.length ≤ s.supplied.length ∧
      (∀ seen snap rest, s.supplied = seen ++ snap :: rest →
        seen.length < s.worker.pushed.length →
        ∃ sig, s.worker.pushed[seen.length]? = some sig ∧ sig.symbol = snap.symbol ∧
          sig.price = snap.price ∧ sig.timestampNs = snap.timestampNs ∧
          ∃ ema, sig.emaValue = fin ema ∧
            let a := alphaOf period
            let n := (pricesOf snap.symbol.key seen).length
            let p := fun i ↦ (pricesOf snap.symbol.key (seen ++ [snap])).getD i 0
            ema = (1 - a) ^ n * p 0 + ∑ i ∈ Finset.Icc 1 n, a * (1 - a) ^ (n - i) * p i ∧
              (∃ i ≤ n, p i ≤ ema) ∧ ∃ i ≤ n, ema ≤ p i) ∧
      ∃ t, Settles (.exact c) s t ∧ t.supplied = s.supplied ∧
        s.worker.pushed <+: t.worker.pushed ∧ t.worker.pushed.length = s.supplied.length := by
  have hflow := flow_of_run hrun
  refine ⟨hflow.length_pushed_le, ?_, ?_⟩
  · intro seen snap rest hsplit hlt
    have hseen : ∀ x ∈ seen ++ [snap], ∃ p, x.price = fin p := by
      intro x hx
      refine hprices x ?_
      rw [hsplit, List.append_cons]
      exact List.mem_append_left rest hx
    obtain ⟨ema, haverage, hema⟩ := emaValue_signalFor c period hseen
    have hlen : (pricesOf snap.symbol.key (seen ++ [snap])).length =
        (pricesOf snap.symbol.key seen).length + 1 := by
      rw [pricesOf_concat_self, List.length_append, List.length_singleton]
    refine ⟨_, hflow.getElem?_pushed hsplit hlt, rfl, rfl, rfl, ema, hema, ?_, ?_⟩
    · rw [averageOf_eq_sum hlen, Option.some.injEq] at haverage
      exact haverage.symm
    · obtain ⟨⟨low, hlow, hle⟩, high, hhigh, hge⟩ :=
        averageOf_bounds (alphaOf_pos period).le (alphaOf_le_one period) haverage
      obtain ⟨i, hi, rfl⟩ := exists_getD_of_mem hlen hlow
      obtain ⟨j, hj, rfl⟩ := exists_getD_of_mem hlen hhigh
      exact ⟨⟨i, hi, hle⟩, j, hj, hge⟩
  · obtain ⟨t, hsettles, hsupplied, hpushed⟩ := hflow.exists_settles
    refine ⟨t, hsettles, hsupplied, ?_, ?_⟩
    · rw [hpushed]
      exact hflow.pushed_prefix
    · rw [hpushed, EngineWorker.length_signalsOf]

/-- With period 20, prices 100 and 121 average to 102; a snapshot of another symbol comes between
them. -/
theorem emits_exponential_average_two_prices :
    let snap := fun (symbol : UInt8) (price : ℚ) ↦
      (⟨(MarketTick.make [symbol] 0 0 0 1).symbol, fin price, fin 1, 1, 0⟩ : MarketSnapshot)
    let acts := [.supply (snap 65 100), .supply (snap 66 7), .supply (snap 65 121)] ++
      List.replicate 9 .thread
    ∃ s, StepRun.run (step (.exact fun _ ↦ 0)) (init (.exact fun _ ↦ 0) .default) acts = some s ∧
      ∃ sig, s.worker.pushed[2]? = some sig ∧ sig.emaValue = fin 102 := by
  intro snap acts
  obtain ⟨s, hrun, hend⟩ := Option.map_eq_some_iff.1 (by decide +kernel :
    (StepRun.run (step (.exact fun _ ↦ 0)) (init (.exact fun _ ↦ 0) .default) acts).map
      (fun s ↦ (s.supplied, s.worker.pushed.length)) =
        some ([snap 65 100, snap 66 7, snap 65 121], 3))
  obtain ⟨hsupplied, hpushed⟩ := Prod.mk.inj hend
  have hprices : ∀ x ∈ s.supplied, ∃ p, x.price = fin p := by
    rw [hsupplied]
    intro x hx
    simp only [List.mem_cons, List.not_mem_nil, or_false] at hx
    rcases hx with rfl | rfl | rfl <;> exact ⟨_, rfl⟩
  obtain ⟨-, hall, -⟩ := emits_exponential_average (fun _ ↦ 0) .default hrun hprices
  obtain ⟨sig, hsig, -, -, -, ema, hema, hsum, -⟩ := hall [snap 65 100, snap 66 7] (snap 65 121) []
    hsupplied (by rw [hpushed]; decide)
  refine ⟨s, hrun, sig, hsig, ?_⟩
  have hearlier : pricesOf (snap 65 121).symbol.key [snap 65 100, snap 66 7] = [100] := by
    decide +kernel
  rw [hema, hsum, pricesOf_concat_self, hearlier]
  show fin _ = fin _
  norm_num [alphaOf, snap]

end EngineSystem

end Mdp
