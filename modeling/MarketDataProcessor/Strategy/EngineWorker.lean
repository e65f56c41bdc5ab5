import MarketDataProcessor.Foundations.BoundedQueue
import MarketDataProcessor.Strategy.SignalEngine

/-!
# The thread of the signal engine

`SignalEngine::run`, one step for each access to the stop flag or a queue. The update of the
averages between the pop and the push is local to the thread, so it is part of the pop.

The loop has no drain after it: on a stop request the thread returns, and what is in its input stays
there. A signal that finds the output full is tried again until it is pushed or a stop is requested,
in which case it is lost; the push is tried before the flag is tested, so a signal is lost on a full
output only.

`Accounts` is the invariant: the averages are those of the popped snapshots, and what was pushed is
a part of the signals they call for, in order and short of them by what was lost and what is in
hand.

## What the accounts are used for

* `Accounts.pushed_append_inHand`: where no signal was lost, everything called for was pushed, in
  order, up to the one in hand. The averages of a run are read off this.
* `pairwise_signalsOf`: a signal has the symbol and the time of its snapshot, so an order of the
  snapshots is one of the signals.
* `Step.lost_eq` and `Step.running`: without a stop request nothing is lost and the thread does not
  return. The signals given up are counted (`lost`), so that the lengths add up.
-/

namespace Mdp

open SignalEngine

namespace EngineWorker

/-- Where the thread stands. -/
inductive Pc where
  /-- About to test `stop_requested()` in the outer loop. -/
  | loopTest
  /-- About to call `in_queue_.try_pop`. -/
  | tryPop
  /-- About to call `out_queue_.try_push`. -/
  | tryPush (sig : Signal)
  /-- The push was refused; about to test `stop_requested()` in the inner loop. -/
  | pushTest (sig : Signal)
  /-- The thread has returned from `run`. -/
  | exited
  deriving DecidableEq

/-- The signal not yet pushed or lost. -/
def Pc.inHand : Pc → List Signal
  | tryPush sig => [sig]
  | pushTest sig => [sig]
  | _ => []

end EngineWorker

/-- The thread, with the engine it runs. -/
structure EngineWorker where
  pc : EngineWorker.Pc
  engine : SignalEngine
  /-- History: the snapshots popped from the input. -/
  popped : List MarketSnapshot
  /-- History: the signals pushed to the output. -/
  pushed : List Signal
  /-- History: how many signals were given up. -/
  lost : ℕ

namespace EngineWorker

variable (fl : FloatEnv) (period : Period) {m n : ℕ}

/-- The thread at the entry of `run`. -/
def start : EngineWorker where
  pc := .loopTest
  engine := new fl period
  popped := []
  pushed := []
  lost := 0

/-- One step of the thread, with its queues and the stop flag as it finds them. -/
def step (stop : Bool) (w : EngineWorker) (input : BoundedQueue MarketSnapshot m)
    (output : BoundedQueue Signal n) :
    EngineWorker × BoundedQueue MarketSnapshot m × BoundedQueue Signal n :=
  match w.pc with
  | .loopTest => ({ w with pc := if stop then .exited else .tryPop }, input, output)
  | .tryPop =>
    match input.tryPop with
    | none => ({ w with pc := .loopTest }, input, output)
    | some (snap, input') =>
      ({ w with
          pc := .tryPush (w.engine.signalFor fl snap)
          engine := w.engine.update fl snap
          popped := w.popped ++ [snap] }, input', output)
  | .tryPush sig =>
    match output.tryPush sig with
    | some output' => ({ w with pc := .loopTest, pushed := w.pushed ++ [sig] }, input, output')
    | none => ({ w with pc := .pushTest sig }, input, output)
  | .pushTest sig =>
    if stop then ({ w with pc := .loopTest, lost := w.lost + 1 }, input, output)
    else ({ w with pc := .tryPush sig }, input, output)
  | .exited => (w, input, output)

/-- **The rules of the thread.** -/
inductive Step (stop : Bool) (w : EngineWorker) (input : BoundedQueue MarketSnapshot m)
    (output : BoundedQueue Signal n) :
    EngineWorker → BoundedQueue MarketSnapshot m → BoundedQueue Signal n → Prop
  | enter : w.pc = .loopTest → stop = false →
    Step stop w input output { w with pc := .tryPop } input output
  | leave : w.pc = .loopTest → stop = true →
    Step stop w input output { w with pc := .exited } input output
  | popEmpty : w.pc = .tryPop → input.items = [] →
    Step stop w input output { w with pc := .loopTest } input output
  | pop (snap : MarketSnapshot) (input' : BoundedQueue MarketSnapshot m) : w.pc = .tryPop →
    input.items = snap :: input'.items →
    Step stop w input output { w with
        pc := .tryPush (w.engine.signalFor fl snap)
        engine := w.engine.update fl snap
        popped := w.popped ++ [snap] } input' output
  | push (sig : Signal) (output' : BoundedQueue Signal n) : w.pc = .tryPush sig →
    output'.items = output.items ++ [sig] →
    Step stop w input output { w with pc := .loopTest, pushed := w.pushed ++ [sig] } input output'
  | refused (sig : Signal) : w.pc = .tryPush sig →
    Step stop w input output { w with pc := .pushTest sig } input output
  | retry (sig : Signal) : w.pc = .pushTest sig → stop = false →
    Step stop w input output { w with pc := .tryPush sig } input output
  | abandon (sig : Signal) : w.pc = .pushTest sig → stop = true →
    Step stop w input output { w with pc := .loopTest, lost := w.lost + 1 } input output
  | rest : w.pc = .exited → Step stop w input output w input output

/-- **Every step is by a rule.** -/
theorem step_rule (stop : Bool) (w : EngineWorker) (input : BoundedQueue MarketSnapshot m)
    (output : BoundedQueue Signal n) :
    Step fl stop w input output (w.step fl stop input output).1 (w.step fl stop input output).2.1
      (w.step fl stop input output).2.2 := by
  unfold step
  split
  next hpc =>
    cases stop with
    | false => exact .enter hpc rfl
    | true => exact .leave hpc rfl
  next hpc =>
    split
    next hnone => exact .popEmpty hpc (BoundedQueue.tryPop_eq_none_iff.1 hnone)
    next snap input' hsome => exact .pop snap input' hpc (BoundedQueue.tryPop_eq_some_iff.1 hsome)
  next sig hpc =>
    split
    next output' hsome => exact .push sig output' hpc (BoundedQueue.tryPush_eq_some_iff.1 hsome).2
    next => exact .refused sig hpc
  next sig hpc =>
    cases stop with
    | false => exact .retry sig hpc rfl
    | true => exact .abandon sig hpc rfl
  next hpc => exact .rest hpc

/-! ### Accounts -/

/-- The signals the snapshots call for. -/
def signalsOf (snaps : List MarketSnapshot) : List Signal :=
  (signalling fl).outputs (new fl period) snaps

/-- What the thread has done with the snapshots it popped. -/
structure Accounts (w : EngineWorker) : Prop where
  /-- The averages are those of the popped snapshots. -/
  engine : w.engine = (signalling fl).state (new fl period) w.popped
  /-- What was pushed is among the signals called for, in order. -/
  pushed : (w.pushed ++ w.pc.inHand).Sublist (signalsOf fl period w.popped)
  /-- Every popped snapshot's signal was pushed, is in hand or was lost. -/
  length : (w.pushed ++ w.pc.inHand).length + w.lost = w.popped.length

theorem accounts_start : (start fl period).Accounts fl period :=
  ⟨rfl, List.Sublist.refl _, rfl⟩

variable {fl period} {stop : Bool} {w w' : EngineWorker}
  {input input' : BoundedQueue MarketSnapshot m} {output output' : BoundedQueue Signal n}

/-- Moving with the same signal in hand, or with none. -/
theorem Accounts.move (h : w.Accounts fl period) {pc pc' : Pc} (hpc : w.pc = pc)
    (hhand : pc'.inHand = pc.inHand) :
    ({ w with pc := pc' } : EngineWorker).Accounts fl period := by
  subst hpc
  exact ⟨h.engine, by rw [hhand]; exact h.pushed, by rw [hhand]; exact h.length⟩

/-- **Every rule keeps the accounts.** -/
theorem Accounts.step (h : w.Accounts fl period)
    (hstep : Step fl stop w input output w' input' output') : w'.Accounts fl period := by
  cases hstep with
  | enter hpc _ => exact h.move hpc rfl
  | leave hpc _ => exact h.move hpc rfl
  | popEmpty hpc _ => exact h.move hpc rfl
  | refused _ hpc => exact h.move hpc rfl
  | retry _ hpc _ => exact h.move hpc rfl
  | rest => exact h
  | pop snap _ hpc _ =>
    obtain ⟨hengine, hpushed, hlen⟩ := h
    rw [hpc] at hpushed hlen
    refine ⟨?_, ?_, ?_⟩
    · rw [Transducer.state_concat, ← hengine]
      rfl
    · rw [signalsOf, Transducer.outputs_concat, ← hengine]
      exact ((List.sublist_append_left _ _).trans hpushed).append (List.Sublist.refl _)
    · show (w.pushed ++ [_]).length + w.lost = (w.popped ++ [snap]).length
      rw [show w.pushed ++ Pc.tryPop.inHand = w.pushed from List.append_nil _] at hlen
      rw [List.length_append, List.length_append, List.length_singleton, List.length_singleton]
      omega
  | push sig _ hpc _ =>
    obtain ⟨hengine, hpushed, hlen⟩ := h
    rw [hpc] at hpushed hlen
    refine ⟨hengine, ?_, ?_⟩
    · show (w.pushed ++ [sig] ++ []).Sublist _
      rw [List.append_nil]
      exact hpushed
    · show (w.pushed ++ [sig] ++ []).length + w.lost = _
      rw [List.append_nil]
      exact hlen
  | abandon sig hpc _ =>
    obtain ⟨hengine, hpushed, hlen⟩ := h
    rw [hpc] at hpushed hlen
    refine ⟨hengine, ?_, ?_⟩
    · show (w.pushed ++ []).Sublist _
      rw [List.append_nil]
      exact (List.sublist_append_left _ _).trans hpushed
    · show (w.pushed ++ []).length + (w.lost + 1) = w.popped.length
      rw [← hlen, List.append_nil, List.length_append]
      show _ = _ + 1 + _
      omega

theorem length_outputs (engine : SignalEngine) (snaps : List MarketSnapshot) :
    ((signalling fl).outputs engine snaps).length = snaps.length := by
  induction snaps generalizing engine with
  | nil => rfl
  | cons snap snaps ih =>
    rw [Transducer.outputs_cons, List.length_append, ih, List.length_cons]
    exact Nat.add_comm 1 _

theorem length_signalsOf (snaps : List MarketSnapshot) :
    (signalsOf fl period snaps).length = snaps.length :=
  length_outputs (new fl period) snaps

/-- The signals up to a snapshot, the one for it and those after it. -/
theorem signalsOf_append_cons (seen rest : List MarketSnapshot) (snap : MarketSnapshot) :
    signalsOf fl period (seen ++ snap :: rest) = signalsOf fl period seen ++
      ((signalling fl).state (new fl period) seen).signalFor fl snap ::
        (signalling fl).outputs ((signalling fl).state (new fl period) (seen ++ [snap])) rest := by
  rw [signalsOf, Transducer.outputs_append, Transducer.state_concat]
  rfl

/-- **The signal at a place is the one for the snapshot at that place.** -/
theorem getElem?_signalsOf (seen rest : List MarketSnapshot) (snap : MarketSnapshot) :
    (signalsOf fl period (seen ++ snap :: rest))[seen.length]? =
      some (((signalling fl).state (new fl period) seen).signalFor fl snap) := by
  have hlen : (signalsOf fl period seen).length = seen.length := length_signalsOf seen
  rw [signalsOf_append_cons, List.getElem?_append_right hlen.le, hlen, Nat.sub_self,
    List.getElem?_cons_zero]

/-- The signals after a snapshot. -/
theorem drop_signalsOf (seen rest : List MarketSnapshot) (snap : MarketSnapshot) :
    (signalsOf fl period (seen ++ snap :: rest)).drop (seen.length + 1) =
      (signalling fl).outputs ((signalling fl).state (new fl period) (seen ++ [snap])) rest := by
  rw [signalsOf_append_cons, List.append_cons]
  refine List.drop_left' ?_
  rw [List.length_append, length_signalsOf, List.length_singleton]

/-- **Where nothing was lost, everything called for was pushed**, up to the signal in hand. -/
theorem Accounts.pushed_append_inHand (h : w.Accounts fl period) (hlost : w.lost = 0) :
    w.pushed ++ w.pc.inHand = signalsOf fl period w.popped :=
  h.pushed.eq_of_length (by rw [length_signalsOf, ← h.length, hlost]; rfl)

/-- **A signal is lost after a stop request only.** -/
theorem Step.lost_eq (hstep : Step fl false w input output w' input' output') :
    w'.lost = w.lost := by
  cases hstep with
  | abandon _ _ hstop => exact absurd hstop (by simp)
  | _ => rfl

/-- **The thread returns after a stop request only.** -/
theorem Step.running (hstep : Step fl false w input output w' input' output')
    (h : w.pc ≠ .exited) : w'.pc ≠ .exited := by
  cases hstep with
  | leave _ hstop => exact absurd hstop (by simp)
  | rest => exact h
  | _ => exact fun hpc ↦ by simp at hpc

/-- The symbol and the timestamp of a signal are its snapshot's. -/
theorem map_signalsOf (fl : FloatEnv) (period : Period) (snaps : List MarketSnapshot) :
    (signalsOf fl period snaps).map (fun sig ↦ (sig.symbol, sig.timestampNs)) =
      snaps.map fun snap ↦ (snap.symbol, snap.timestampNs) := by
  induction snaps using List.reverseRecOn with
  | nil => rfl
  | append_singleton snaps snap ih =>
    rw [signalsOf, Transducer.outputs_concat, List.map_append, List.map_append]
    exact congrArg (· ++ [(snap.symbol, snap.timestampNs)]) ih

/-- **The signals are in the order of their snapshots.** -/
theorem pairwise_signalsOf {snaps : List MarketSnapshot}
    (h : snaps.Pairwise fun a b ↦ a.symbol.key = b.symbol.key → a.timestampNs ≤ b.timestampNs) :
    (signalsOf fl period snaps).Pairwise
      fun a b ↦ a.symbol.key = b.symbol.key → a.timestampNs ≤ b.timestampNs := by
  let stamped : Symbol × ℤ → Symbol × ℤ → Prop := fun a b ↦ a.1.key = b.1.key → a.2 ≤ b.2
  have hmap : (snaps.map fun snap ↦ (snap.symbol, snap.timestampNs)).Pairwise stamped :=
    List.pairwise_map.2 h
  rw [← map_signalsOf fl period] at hmap
  exact List.pairwise_map.1 hmap

/-! ### The thread and its queues -/

/-- **What left the input was popped.** -/
theorem Step.exists_popped (hstep : Step fl stop w input output w' input' output') :
    ∃ took, w'.popped = w.popped ++ took ∧ input.items = took ++ input'.items := by
  cases hstep with
  | pop snap _ _ hitems => exact ⟨[snap], rfl, hitems⟩
  | _ => exact ⟨[], (List.append_nil _).symm, rfl⟩

/-- **What entered the output was pushed.** -/
theorem Step.exists_pushed (hstep : Step fl stop w input output w' input' output') :
    ∃ sent, output'.items = output.items ++ sent ∧ w'.pushed = w.pushed ++ sent := by
  cases hstep with
  | push sig _ _ hitems => exact ⟨[sig], hitems, rfl⟩
  | _ => exact ⟨[], (List.append_nil _).symm, (List.append_nil _).symm⟩

/-- A thread that has returned does nothing. -/
theorem Step.eq_of_exited (hstep : Step fl stop w input output w' input' output')
    (h : w.pc = .exited) : w' = w := by
  cases hstep with
  | rest => rfl
  | _ => simp_all

end EngineWorker

end Mdp
