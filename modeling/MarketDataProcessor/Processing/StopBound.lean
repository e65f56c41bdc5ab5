import MarketDataProcessor.Foundations.Progress
import MarketDataProcessor.Processing.StageSystem
import MarketDataProcessor.Processing.TickParser

/-!
# How long a stop request takes

`ThreadBase::stop` sets the flag and joins, so it returns only if the thread does. A filtering stage
that has been asked to stop still has a tick in hand, perhaps one it cannot push, and drains its
input after it. `Pc.stepsLeft` counts what is left of that, by where the thread stands and how many
ticks its input holds.

What the output does plays no part: the push that waits in `process_tick` looks at the flag before
every attempt, and `drain_input` never waits. Only pushes to the input put something on, so
`exits_within` bounds the steps of the thread from the request to its return in every interleaving,
with a consumer that never takes anything included.

## How the steps are counted

A tick in the input costs `drain_input` four steps at most: the pop, the judgement, the attempt to
push and the count, and a tick that is dropped or finds the output full costs fewer.
`Worker.Step.stepsLeft_le` checks the rules against that count. It needs the flag, since two rules
are about a thread that goes on; without a request nothing bounds the wait for room.

The rest is `Ranked`: the steps left are a rank for the thread's own steps, a push to the input is
the one action with a gain, and `sum_gain` adds the gains up.
-/

namespace Mdp

variable {σ α β κ : Type*} {m n : ℕ}

/-- How many steps a thread that has been asked to stop makes before it returns, with `held` ticks
in its input. -/
def Pc.stepsLeft (held : ℕ) : Pc α β κ → ℕ
  | .exited => 0
  | .tryPop .drainInput => 4 * held + 1
  | .countPush .drainInput => 4 * held + 2
  | .countDrop .drainInput _ => 4 * held + 2
  | .tryPush .drainInput _ => 4 * held + 3
  | .classify .drainInput _ => 4 * held + 4
  | .loopTest => 4 * held + 2
  | .tryPop .processTick => 4 * held + 3
  | .countPush .processTick => 4 * held + 3
  | .countDrop .processTick _ => 4 * held + 3
  | .pushTest _ => 4 * held + 3
  | .tryPush .processTick _ => 4 * held + 4
  | .classify .processTick _ => 4 * held + 4

namespace Pc

theorem stepsLeft_le (pc : Pc α β κ) (held : ℕ) : pc.stepsLeft held ≤ 4 * held + 4 := by
  unfold stepsLeft
  split <;> omega

theorem stepsLeft_eq_zero_iff {pc : Pc α β κ} {held : ℕ} :
    pc.stepsLeft held = 0 ↔ pc = .exited := by
  unfold stepsLeft
  split <;> simp

/-- A tick more in the input is four steps more, for a thread that is still there. -/
theorem stepsLeft_add_le (pc : Pc α β κ) (held more : ℕ) :
    pc.stepsLeft (held + more) ≤ pc.stepsLeft held + 4 * more := by
  unfold stepsLeft
  split <;> omega

end Pc

variable {S : FilterStage σ α β κ}

/-- **Every step of a stopping thread takes one off.** -/
theorem Worker.Step.stepsLeft_le [DecidableEq κ] {w w' : Worker σ α β κ}
    {input input' : BoundedQueue α m} {output output' : BoundedQueue β n}
    (h : Worker.Step S true w input output w' input' output') :
    w'.pc.stepsLeft input'.items.length ≤ w.pc.stepsLeft input.items.length - 1 := by
  cases h with
  | enter _ hstop => exact absurd hstop (by decide)
  | leave hpc _ =>
    rw [hpc]
    exact Nat.le_refl _
  | popEmpty phase hpc _ =>
    rw [hpc]
    cases phase with
    | processTick => exact Nat.le_refl _
    | drainInput => exact Nat.zero_le _
  | pop phase tick input' hpc hitems =>
    rw [hpc, hitems, List.length_cons]
    cases phase <;> simp only [Pc.stepsLeft] <;> omega
  | keep phase tick core out hpc _ =>
    rw [hpc]
    cases phase <;> exact Nat.le_refl _
  | drop phase tick core why hpc _ =>
    rw [hpc]
    cases phase <;> simp only [Pc.stepsLeft] <;> omega
  | countDrop phase why hpc =>
    rw [hpc]
    cases phase <;> exact Nat.le_refl _
  | abandon tick hpc _ =>
    rw [hpc]
    exact Nat.le_refl _
  | attempt _ _ hstop => exact absurd hstop (by decide)
  | push phase tick output' hpc _ _ =>
    rw [hpc]
    cases phase <;> exact Nat.le_refl _
  | retry tick hpc _ =>
    rw [hpc]
    exact Nat.le_refl _
  | overflow tick hpc _ =>
    rw [hpc]
    simp only [Pc.stepsLeft]
    omega
  | countPush phase hpc =>
    rw [hpc]
    cases phase <;> exact Nat.le_refl _
  | rest hpc =>
    rw [hpc]
    exact Nat.zero_le _

namespace StageSystem

/-- Whether an action is a step of the thread. -/
def Action.isThread : Action α → Bool
  | .thread => true
  | _ => false

/-- The steps an action puts on. -/
def Action.gain : Action α → ℕ
  | .upstreamPush _ => 4
  | _ => 0

variable [DecidableEq κ]

/-- The steps left of a stopping thread are a rank for its own steps. -/
theorem ranked (S : FilterStage σ α β κ) :
    StepRun.Ranked (step (m := m) (n := n) S) (fun s ↦ s.stop = true)
      (fun s ↦ s.worker.pc.stepsLeft s.input.items.length) (fun _ a ↦ a.isThread) Action.gain where
  inv hstop hstep := stop_of_step hstop hstep
  own_le {s a t} hstop hown hstep := by
    cases a with
    | thread =>
      obtain ⟨hrule, -⟩ := rule_of_step_thread hstep
      rw [hstop] at hrule
      exact hrule.stepsLeft_le
    | _ => exact Bool.noConfusion hown
  other_le {s a t} _ hown hstep := by
    cases a with
    | thread => exact Bool.noConfusion hown
    | upstreamPush tick =>
      obtain ⟨input', hpush, rfl⟩ := Option.map_eq_some_iff.1 hstep
      simp only [(BoundedQueue.tryPush_eq_some_iff.1 hpush).2, List.length_append,
        List.length_singleton]
      exact Pc.stepsLeft_add_le _ _ 1
    | downstreamPop =>
      obtain ⟨popped, -, rfl⟩ := Option.map_eq_some_iff.1 hstep
      exact Nat.le_add_right _ _
    | requestStop =>
      obtain rfl := Option.some.inj hstep
      exact Nat.le_add_right _ _
  zero {s a t} hstop hzero hstep := by
    rw [Pc.stepsLeft_eq_zero_iff] at hzero ⊢
    by_cases hown : a = .thread
    · subst hown
      obtain ⟨hrule, -⟩ := rule_of_step_thread hstep
      exact (congrArg Worker.pc (hrule.eq_of_exited hzero)).trans hzero
    · rw [(worker_of_step_neighbour hown hstep).1]
      exact hzero

/-- How many ticks an interleaving pushes to the input. -/
def pushes (acts : List (Action α)) : ℕ :=
  acts.countP fun | .upstreamPush _ => true | _ => false

theorem sum_gain (acts : List (Action α)) : (acts.map Action.gain).sum = 4 * pushes acts := by
  induction acts with
  | nil => rfl
  | cons a acts ih =>
    rw [List.map_cons, List.sum_cons, ih, pushes, pushes, List.countP_cons]
    cases a <;> simp only [Action.gain] <;> grind

/-- **A stage that is asked to stop returns.** In every interleaving after the request, and whatever
the consumer of the output does: `drain_input` is over, and `run` has returned, when the thread has
made four steps for each tick the input held or was given since, and four more. -/
theorem exits_within {s t : StageSystem σ α β κ m n} {acts : List (Action α)}
    (hstop : s.stop = true) (hrun : StepRun.run (step S) s acts = some t)
    (hsteps : 4 * (s.input.items.length + pushes acts) + 4 ≤ acts.countP Action.isThread) :
    t.worker.pc = .exited := by
  have hle := s.worker.pc.stepsLeft_le s.input.items.length
  refine Pc.stepsLeft_eq_zero_iff.1 ((ranked S).rank_eq_zero_of_le hstop hrun ?_)
  rw [sum_gain, StepRun.length_made_eq_countP hrun]
  omega

/-- A parser that waits for room in an output nobody takes from, with one more tick in its input. -/
def stuck (tick : MarketTick) : StageSystem Unit MarketTick MarketTick TickParser.Drop 1 1 where
  worker := { Worker.start TickParser.stage with pc := .pushTest tick }
  input := ⟨[tick], Nat.le_refl _⟩
  output := ⟨[tick], Nat.le_refl _⟩
  stop := true
  fed := [tick]
  taken := []

/-- It returns all the same. -/
theorem exits_within_stuck :
    let tick := MarketTick.shareOfA 100
    ∃ t, StepRun.run (step TickParser.stage) (stuck tick) (List.replicate 8 .thread) = some t ∧
      t.worker.pc = .exited := by
  intro tick
  obtain ⟨t, hrun, -⟩ := Option.map_eq_some_iff.1 (by decide +kernel :
    (StepRun.run (step TickParser.stage) (stuck tick) (List.replicate 8 .thread)).map
      (fun s ↦ s.output.items.length) = some 1)
  exact ⟨t, hrun, exits_within rfl hrun (by decide)⟩

end StageSystem

end Mdp
