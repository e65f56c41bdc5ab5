import MarketDataProcessor.Processing.NormalizerSpec
import MarketDataProcessor.Processing.Shutdown

/-!
# Does the normalizer remember what it forwarded?

`update_state` stands before the push, and the push can fail: `process_tick` gives the tick up when
a stop is requested, `drain_input` when the output is full. The maps then hold a tick that was never
forwarded, and a normalizer that is started again judges by it.

Everywhere else the maps hold what was pushed and the tick being pushed, which is the invariant
`Tracks`. `GivesUp` is the step that loses a tick, and `remembers_pushed_iff` says that these steps
are all that is wrong. A tick equal to the last one pushed of its symbol can be lost without harm;
only a tick whose price is not a number gets that far, since any other is a duplicate.

Restarts are a further action of the stage: the maps, the counters and the buffers are members of
objects that outlive the thread.

## What the equivalence rests on

`Tracks.step` goes through the rules of the thread. The judgement writes the maps and takes the tick
in hand, a push moves the tick from the hand to the pushed ones, and the two rules that lose it are
the alternative in the conclusion. `Remembers.of_concat_iff` decides the case: without its last tick
a sequence is remembered as before exactly if the tick was the last of its symbol already.

`Faithful` speaks of what an observer can tell, the maps when nothing is in hand and the reasons for
a drop, while `Tracks` speaks of every point in between; `faithful_of_tracks` is one direction and
`tracks_lifeStep` the other, since a tick is lost with nothing left in hand. The equivalence along
runs is `throughout_iff_avoids` of `StepRun`.
-/

namespace Mdp

/-! ### Stages that are started again -/

namespace StageSystem

variable {σ α β κ : Type*} {m n : ℕ}

/-- What can happen to a stage that may be started again. -/
inductive LifeAction (α : Type*) where
  | act (a : Action α)
  /-- `start()`, after the thread has returned and `stop()` has joined it. -/
  | restart

variable [DecidableEq κ] (S : FilterStage σ α β κ)

/-- One action. A new thread finds the stop flag cleared and everything else as it was left. -/
def lifeStep (s : StageSystem σ α β κ m n) : LifeAction α → Option (StageSystem σ α β κ m n)
  | .act a => s.step S a
  | .restart =>
    match s.worker.pc with
    | .exited => some { s with worker := { s.worker with pc := .loopTest }, stop := false }
    | _ => none

variable {S} in
theorem lifeStep_restart_eq_some {s t : StageSystem σ α β κ m n}
    (h : s.lifeStep S .restart = some t) :
    s.worker.pc = .exited ∧ t.worker = { s.worker with pc := .loopTest } := by
  rw [lifeStep] at h
  split at h
  · rename_i hpc
    exact ⟨hpc, by rw [← Option.some.inj h]⟩
  · simp at h

end StageSystem

/-! ### Losing a tick -/

namespace Worker

variable {σ α β κ : Type*} {m n : ℕ} {w : Worker σ α β κ} {stop : Bool}
  {output : BoundedQueue β n} {tick : β}

/-- The next step of the thread loses the tick. -/
def Loses (stop : Bool) (w : Worker σ α β κ) (output : BoundedQueue β n) (tick : β) : Prop :=
  w.pc = .pushTest tick ∧ stop = true ∨ w.pc = .tryPush .drainInput tick ∧ output.items.length = n

theorem Loses.holding (h : w.Loses stop output tick) : w.pc.holding = .out tick := by
  rcases h with ⟨hpc, -⟩ | ⟨hpc, -⟩
  · rw [hpc]
    rfl
  · rw [hpc]
    rfl

/-- **Losing a tick** leaves the judgement's state and what was pushed, and ends with nothing in
hand. -/
theorem Loses.step [DecidableEq κ] (h : w.Loses stop output tick) (S : FilterStage σ α β κ)
    (input : BoundedQueue α m) :
    (w.step S stop input output).1.core = w.core ∧
      pushedOf (w.step S stop input output).1.fates = pushedOf w.fates ∧
      (w.step S stop input output).1.pc.holding = .nothing := by
  rcases h with ⟨hpc, hstop⟩ | ⟨hpc, hfull⟩
  · simp only [Worker.step, hpc, hstop, if_true, true_and]
    exact ⟨(pushedOf_concat _ _ _).trans (List.append_nil _), rfl⟩
  · have hnone : output.tryPush tick = none := BoundedQueue.tryPush_eq_none_iff.2 hfull
    simp only [Worker.step, hpc, hnone, true_and]
    exact ⟨(pushedOf_concat _ _ _).trans (List.append_nil _), rfl⟩

end Worker

namespace Normalizer

open History StageSystem

variable {m n : ℕ}

/-! ### The maps and the pushes -/

theorem isDuplicate_of_drop {core : State} {tick : MarketTick}
    (h : (stage.classify core tick).2 = .drop .deduplicated) : isDuplicate core tick = true := by
  by_contra hnot
  simp only [stage, if_neg hnot] at h
  split_ifs at h
  simp at h

theorem isReordered_of_drop {core : State} {tick : MarketTick}
    (h : (stage.classify core tick).2 = .drop .reordered) : isReordered core tick = true := by
  by_contra hnot
  simp only [stage, if_neg hnot] at h
  split_ifs at h
  simp at h

/-- Forgetting a tick that is remembered. -/
theorem Remembers.of_concat_iff {core : State} {ticks : List MarketTick} {tick : MarketTick}
    (h : Remembers core (ticks ++ [tick])) :
    Remembers core ticks ↔ lastBy (ofSymbol tick.symbol) ticks = some tick := by
  have hself := h tick.symbol
  rw [lastBy_ofSymbol_self] at hself
  constructor
  · intro hless
    exact (Prod.mk.inj ((hless tick.symbol).symm.trans hself)).2
  · intro hlast symbol
    rcases eq_or_ne symbol tick.symbol with rfl | hne
    · rw [hself, hlast]
    · rw [h symbol, lastBy_ofSymbol_of_ne hne]

/-- The maps hold what was pushed and the tick being pushed. -/
def Tracks (w : Worker State MarketTick MarketTick Drop) : Prop :=
  Remembers w.core (pushedOf w.fates ++ w.pc.holding.inHand)

section Step

variable {w w' : Worker State MarketTick MarketTick Drop} {stop : Bool}
  {input input' : BoundedQueue MarketTick m} {output output' : BoundedQueue MarketTick n}

/-- A move of the program counter that keeps what is in hand. -/
theorem Tracks.move (h : Tracks w) (hcore : w'.core = w.core) (hfates : w'.fates = w.fates)
    (hhand : w'.pc.holding.inHand = w.pc.holding.inHand) : Tracks w' := by
  rw [Tracks, hcore, hfates, hhand]
  exact h

/-- **Every rule keeps the maps in step with the pushes**, or loses a tick. -/
theorem Tracks.step (h : Tracks w)
    (hstep : Worker.Step stage stop w input output w' input' output') :
    Tracks w' ∨ ∃ tick, w.Loses stop output tick := by
  cases hstep with
  | enter hpc _ => exact Or.inl (h.move rfl rfl (by rw [hpc]; rfl))
  | leave hpc _ => exact Or.inl (h.move rfl rfl (by rw [hpc]; rfl))
  | popEmpty phase hpc _ =>
    exact Or.inl (h.move rfl rfl (by rw [hpc, Pc.holding_idle]; rfl))
  | pop phase tick _ hpc _ => exact Or.inl (h.move rfl rfl (by rw [hpc]; rfl))
  | keep phase tick core out hpc hverdict =>
    rcases classify_cases w.core tick with heq | heq | heq
    · rw [heq] at hverdict
      simp at hverdict
    · rw [heq] at hverdict
      simp at hverdict
    · -- the maps are updated here, before any attempt to push
      rw [heq, Prod.mk.injEq, Verdict.forward.injEq] at hverdict
      obtain ⟨rfl, rfl⟩ := hverdict
      rw [Tracks, hpc] at h
      refine Or.inl ?_
      rw [Tracks, Pc.holding_send]
      exact (List.append_nil (pushedOf w.fates) ▸ h).updateState tick
  | drop phase tick core why hpc hverdict =>
    rcases classify_cases w.core tick with heq | heq | heq
    · rw [heq, Prod.mk.injEq] at hverdict
      exact Or.inl (h.move hverdict.1.symm rfl (by rw [hpc]; rfl))
    · rw [heq, Prod.mk.injEq] at hverdict
      exact Or.inl (h.move hverdict.1.symm rfl (by rw [hpc]; rfl))
    · rw [heq] at hverdict
      simp at hverdict
  | countDrop phase why hpc =>
    exact Or.inl (h.move rfl rfl (by rw [hpc, Pc.holding_resume]; rfl))
  | abandon tick hpc hstop => exact Or.inr ⟨tick, Or.inl ⟨hpc, hstop⟩⟩
  | attempt tick hpc _ => exact Or.inl (h.move rfl rfl (by rw [hpc]; rfl))
  | push phase tick _ hpc _ _ =>
    rw [Tracks, hpc] at h
    refine Or.inl ?_
    rw [Tracks, pushedOf_concat, if_pos rfl]
    exact (List.append_nil _).symm ▸ h
  | retry tick hpc _ => exact Or.inl (h.move rfl rfl (by rw [hpc]; rfl))
  | overflow tick hpc hfull => exact Or.inr ⟨tick, Or.inr ⟨hpc, hfull⟩⟩
  | countPush phase hpc =>
    exact Or.inl (h.move rfl rfl (by rw [hpc, Pc.holding_resume]; rfl))
  | rest hpc => exact Or.inl h

end Step

/-! ### Runs with restarts -/

variable {s t : StageSystem State MarketTick MarketTick Drop m n}

/-- The last tick of the symbol that was pushed to the output. -/
def lastPushed (s : StageSystem State MarketTick MarketTick Drop m n) (symbol : Symbol) :
    Option MarketTick :=
  lastBy (ofSymbol symbol) (pushedOf s.worker.fates)

/-- The state is that of what was forwarded: with no tick in hand both maps hold the last tick
pushed of each symbol, and a tick is judged a duplicate or reordered by a tick that was pushed. -/
structure Faithful (s : StageSystem State MarketTick MarketTick Drop m n) : Prop where
  maps : s.worker.pc.holding.unjudged = [] → s.worker.pc.holding.inHand = [] → ∀ symbol,
    memory s.worker.core symbol =
      ((lastPushed s symbol).map MarketTick.timestampNs, lastPushed s symbol)
  deduplicated : ∀ phase tick, s.worker.pc = .classify phase tick →
    (stage.classify s.worker.core tick).2 = .drop .deduplicated →
    ∃ last ∈ lastPushed s tick.symbol, sameQuote last tick = true
  reordered : ∀ phase tick, s.worker.pc = .classify phase tick →
    (stage.classify s.worker.core tick).2 = .drop .reordered →
    ∃ last ∈ lastPushed s tick.symbol, tick.timestampNs < last.timestampNs

/-- The thread gives up a tick other than the last one pushed of its symbol: a stop is requested
before the push, or `drain_input` finds the output full. -/
def GivesUp (s : StageSystem State MarketTick MarketTick Drop m n) : LifeAction MarketTick → Prop
  | .act .thread => ∃ tick, s.worker.Loses s.stop s.output tick ∧
      lastPushed s tick.symbol ≠ some tick
  | _ => False

theorem faithful_of_tracks (h : Tracks s.worker) : Faithful s := by
  refine ⟨fun _ hhand symbol ↦ ?_, fun phase tick hpc hdrop ↦ ?_, fun phase tick hpc hdrop ↦ ?_⟩
  · rw [Tracks, hhand, List.append_nil] at h
    exact h symbol
  · rw [Tracks, hpc] at h
    have hdup := isDuplicate_of_drop hdrop
    rw [h.isDuplicate_eq, Option.any_eq_true] at hdup
    rwa [show pushedOf s.worker.fates ++ (Pc.classify phase tick).holding.inHand =
      pushedOf s.worker.fates from List.append_nil _] at hdup
  · rw [Tracks, hpc] at h
    have hreo := isReordered_of_drop hdrop
    rw [h.isReordered_eq, Option.any_eq_true] at hreo
    simp only [decide_eq_true_eq] at hreo
    rwa [show pushedOf s.worker.fates ++ (Pc.classify phase tick).holding.inHand =
      pushedOf s.worker.fates from List.append_nil _] at hreo

/-- **One action**: unless it gives up a tick the maps stay in step with the pushes, and if it does
the state is not that of what was forwarded. -/
theorem tracks_lifeStep {a : LifeAction MarketTick} (h : Tracks s.worker)
    (hstep : s.lifeStep stage a = some t) :
    (¬ GivesUp s a → Tracks t.worker) ∧ (GivesUp s a → ¬ Faithful t) := by
  cases a with
  | restart =>
    obtain ⟨hpc, hworker⟩ := lifeStep_restart_eq_some hstep
    refine ⟨fun _ ↦ ?_, fun hbad ↦ hbad.elim⟩
    rw [hworker]
    exact h.move rfl rfl (by rw [hpc]; rfl)
  | act a =>
    by_cases ha : a = .thread
    · subst ha
      have ht : t = _ := (Option.some.inj hstep).symm
      have hlost : ∀ tick, s.worker.Loses s.stop s.output tick →
          Remembers t.worker.core (pushedOf t.worker.fates ++ [tick]) ∧
            t.worker.pc.holding = .nothing ∧ lastPushed t = lastPushed s := by
        intro tick hloses
        obtain ⟨hcore, hpushed, hholding⟩ := hloses.step stage s.input
        rw [Tracks, hloses.holding] at h
        subst ht
        exact ⟨by rw [hcore, hpushed]; exact h, hholding, by
          funext symbol
          exact congrArg (lastBy (ofSymbol symbol)) hpushed⟩
      constructor
      · intro hgood
        rcases h.step (rule_of_step_thread hstep).1 with hkeep | ⟨tick, hloses⟩
        · exact hkeep
        · -- the tick lost is the last one pushed
          obtain ⟨hremembers, hholding, hlast⟩ := hlost tick hloses
          rw [Tracks, hholding]
          refine (List.append_nil _).symm ▸ hremembers.of_concat_iff.2 ?_
          by_contra hne
          exact hgood ⟨tick, hloses, hlast ▸ hne⟩
      · rintro ⟨tick, hloses, hne⟩ hfaithful
        obtain ⟨hremembers, hholding, hlast⟩ := hlost tick hloses
        have hmaps := hfaithful.maps (by rw [hholding]; rfl) (by rw [hholding]; rfl)
        exact hne (hlast ▸ hremembers.of_concat_iff.1 hmaps)
    · have hsame := (worker_of_step_neighbour ha hstep).1
      refine ⟨fun _ ↦ by rw [hsame]; exact h, fun hbad ↦ ?_⟩
      cases a with
      | thread => exact absurd rfl ha
      | _ => exact hbad.elim

/-- **When the normalizer remembers what it forwarded.** For any buffers and every interleaving with
its neighbours, stop requests and restarts: the state is that of what was forwarded throughout the
run, exactly if no step gives up a tick other than the last one pushed of its symbol. -/
theorem remembers_pushed_iff (input : BoundedQueue MarketTick m)
    (output : BoundedQueue MarketTick n) (acts : List (LifeAction MarketTick))
    (h : StepRun.run (lifeStep stage) (init stage input output) acts = some s) :
    StepRun.Throughout (lifeStep stage) Faithful (init stage input output) acts ↔
      StepRun.Avoids (lifeStep stage) GivesUp (init stage input output) acts :=
  StepRun.throughout_iff_avoids (fun _ ↦ faithful_of_tracks)
    (fun _ _ _ htracks hstep ↦ tracks_lifeStep htracks hstep) remembers_init h

/-- An interleaving that loses a tick to a stop request, starts the normalizer again and offers it
the tick once more. -/
def offeredAgain : List (LifeAction MarketTick) :=
  stopInBetween.map .act ++
    [.restart, .act (.upstreamPush (.shareOfA 100)), .act .thread, .act .thread]

/-- The run `offeredAgain` exists. -/
theorem remembers_pushed_iff_offeredAgain :
    (StepRun.run (lifeStep stage) (init stage noTicks noTicks) offeredAgain).isSome ∧
      (StepRun.Throughout (lifeStep stage) Faithful (init stage noTicks noTicks) offeredAgain ↔
        StepRun.Avoids (lifeStep stage) GivesUp (init stage noTicks noTicks) offeredAgain) := by
  have hsome : (StepRun.run (lifeStep stage) (init stage noTicks noTicks) offeredAgain).isSome := by
    decide +kernel
  obtain ⟨s, hrun⟩ := Option.isSome_iff_exists.1 hsome
  exact ⟨hsome, remembers_pushed_iff noTicks noTicks offeredAgain hrun⟩

/-- **The normalizer does not always remember what it forwarded.** At the end of `offeredAgain` the
tick is a duplicate, and nothing was ever pushed. -/
theorem not_always_remembers_pushed :
    ¬ ∀ (input output : BoundedQueue MarketTick 4096) acts s,
      StepRun.run (lifeStep stage) (init stage input output) acts = some s →
        StepRun.Throughout (lifeStep stage) Faithful (init stage input output) acts := by
  intro hall
  obtain ⟨s, hrun⟩ := Option.isSome_iff_exists.1 (by decide +kernel :
    (StepRun.run (lifeStep stage) (init stage noTicks noTicks) offeredAgain).isSome)
  have hfaithful := hall noTicks noTicks offeredAgain s hrun offeredAgain [] s
    (List.append_nil _).symm hrun
  have hpc : s.worker.pc = .classify .processTick (.shareOfA 100) :=
    StepRun.eq_of_run_map (fun s ↦ s.worker.pc) hrun (by decide +kernel)
  have hnone : lastPushed s (MarketTick.shareOfA 100).symbol = none :=
    StepRun.eq_of_run_map (fun s ↦ lastPushed s _) hrun (by decide +kernel)
  have hdup : isDuplicate s.worker.core (.shareOfA 100) = true :=
    StepRun.eq_of_run_map (fun s ↦ isDuplicate s.worker.core _) hrun (by decide +kernel)
  obtain ⟨last, hlast, -⟩ := hfaithful.deduplicated _ _ hpc (by simp only [stage, hdup, if_true])
  rw [hnone] at hlast
  simp at hlast

end Normalizer

end Mdp
