import MarketDataProcessor.Processing.StageAccounting

/-!
# A stage among its neighbours

One stage thread, its two buffers and its stop flag, with everything the neighbours can do to them:
push to the input, pop from the output, request a stop. An interleaving is a list of actions; `fed`
and `taken` record what the neighbours did.

`accounted_of_run` carries the accounts of the thread to the whole system, and `accounted_at_exit`
states what they come to when the thread has returned: for every stage, every interleaving and every
place at which the stop request may have arrived.

## From the thread to the system

`rule_of_step_thread` and `worker_of_step_neighbour` split an action: a step of the thread is by a
rule and leaves the histories of the neighbours, a step of a neighbour leaves the thread. With them
the accounts carry over without a further case, and what remains to be shown of a neighbour is that
the histories say where its ticks went.

The undisturbed runs are there for the specifications of the stages, which are about what a stage
forwards and not about when it is stopped. `exists_completes` shows that every input has such a run,
one tick after the other through buffers that are emptied in between.
-/

namespace Mdp

variable {σ α β κ : Type*} {m n : ℕ}

/-- A stage thread with its buffers and its stop flag. -/
structure StageSystem (σ α β κ : Type*) (m n : ℕ) where
  worker : Worker σ α β κ
  input : BoundedQueue α m
  output : BoundedQueue β n
  stop : Bool
  /-- History: everything that entered the input. -/
  fed : List α
  /-- History: everything that was taken from the output. -/
  taken : List β

namespace StageSystem

/-- What can happen next. -/
inductive Action (α : Type*) where
  | upstreamPush (tick : α)
  | downstreamPop
  | requestStop
  | thread

/-- The thread is started on whatever its buffers hold. -/
def init (S : FilterStage σ α β κ) (input : BoundedQueue α m) (output : BoundedQueue β n) :
    StageSystem σ α β κ m n where
  worker := Worker.start S
  input
  output
  stop := false
  fed := input.items
  taken := []

variable [DecidableEq κ] (S : FilterStage σ α β κ)

/-- One action; a push to a full input or a pop from an empty output does not happen. -/
def step (s : StageSystem σ α β κ m n) : Action α → Option (StageSystem σ α β κ m n)
  | .upstreamPush tick =>
    (s.input.tryPush tick).map fun input' ↦ { s with input := input', fed := s.fed ++ [tick] }
  | .downstreamPop =>
    s.output.tryPop.map fun popped ↦
      { s with output := popped.2, taken := s.taken ++ [popped.1] }
  | .requestStop => some { s with stop := true }
  | .thread =>
    let next := s.worker.step S s.stop s.input s.output
    some { s with worker := next.1, input := next.2.1, output := next.2.2 }

section Steps

variable {S} {s t : StageSystem σ α β κ m n} {a : Action α}

/-- A step of the thread is by a rule, and leaves the flag and the histories of the neighbours. -/
theorem rule_of_step_thread (hstep : s.step S .thread = some t) :
    Worker.Step S s.stop s.worker s.input s.output t.worker t.input t.output ∧
      t.stop = s.stop ∧ t.fed = s.fed ∧ t.taken = s.taken := by
  obtain rfl := Option.some.inj hstep
  exact ⟨s.worker.step_rule S s.stop s.input s.output, rfl, rfl, rfl⟩

/-- **A neighbour leaves the thread alone.** A request sets the flag; nothing else touches it. -/
theorem worker_of_step_neighbour (ha : a ≠ .thread) (hstep : s.step S a = some t) :
    t.worker = s.worker ∧ (t.stop = s.stop ∨ a = .requestStop ∧ t.stop = true) := by
  cases a with
  | upstreamPush tick =>
    obtain ⟨input', -, rfl⟩ := Option.map_eq_some_iff.1 hstep
    exact ⟨rfl, Or.inl rfl⟩
  | downstreamPop =>
    obtain ⟨popped, -, rfl⟩ := Option.map_eq_some_iff.1 hstep
    exact ⟨rfl, Or.inl rfl⟩
  | requestStop =>
    obtain rfl := Option.some.inj hstep
    exact ⟨rfl, Or.inr ⟨rfl, rfl⟩⟩
  | thread => exact absurd rfl ha

/-- **A request is never taken back.** -/
theorem stop_of_step (hstop : s.stop = true) (hstep : s.step S a = some t) : t.stop = true := by
  by_cases ha : a = .thread
  · subst ha
    exact (rule_of_step_thread hstep).2.1.trans hstop
  · rcases (worker_of_step_neighbour ha hstep).2 with h | ⟨-, h⟩
    · exact h.trans hstop
    · exact h

end Steps

/-! ### The accounts of the system -/

/-- The accounts of the thread, its losses, and the contents of both buffers; `held` is what the
output held when the thread was started. -/
structure Accounted (held : List β) (s : StageSystem σ α β κ m n) : Prop where
  /-- The thread accounts for what it popped. -/
  accounts : ∃ judged, s.worker.Accounts S judged
  /-- Its losses are within bounds. -/
  losses : s.worker.Losses n s.stop
  /-- What entered the input was popped or is still there. -/
  input_eq : s.worker.popped ++ s.input.items = s.fed
  /-- What was pushed has been taken or is still there. -/
  output_eq : s.taken ++ s.output.items = held ++ pushedOf s.worker.fates

theorem accounted_init (input : BoundedQueue α m) (output : BoundedQueue β n) :
    (init S input output).Accounted S output.items :=
  ⟨⟨[], Worker.accounts_start S⟩, Worker.losses_start S, rfl, (List.append_nil _).symm⟩

variable {S} {held : List β} {s t : StageSystem σ α β κ m n} {a : Action α}

/-- **Every action keeps the accounts.** -/
theorem Accounted.step (h : s.Accounted S held) (hstep : s.step S a = some t) :
    t.Accounted S held := by
  obtain ⟨⟨judged, haccounts⟩, hlosses, hin, hout⟩ := h
  cases a with
  | upstreamPush tick =>
    obtain ⟨input', hpush, rfl⟩ := Option.map_eq_some_iff.1 hstep
    refine ⟨⟨judged, haccounts⟩, hlosses, ?_, hout⟩
    rw [(BoundedQueue.tryPush_eq_some_iff.1 hpush).2, ← List.append_assoc, hin]
  | downstreamPop =>
    obtain ⟨⟨tick, output'⟩, hpop, rfl⟩ := Option.map_eq_some_iff.1 hstep
    refine ⟨⟨judged, haccounts⟩, hlosses, hin, ?_⟩
    rw [← hout, BoundedQueue.tryPop_eq_some_iff.1 hpop, List.append_assoc, List.singleton_append]
  | requestStop =>
    obtain rfl := Option.some.inj hstep
    exact ⟨⟨judged, haccounts⟩, hlosses.request, hin, hout⟩
  | thread =>
    obtain ⟨hrule, hstop, hfed, htaken⟩ := rule_of_step_thread hstep
    obtain ⟨sent, hsent, hpushed⟩ := hrule.exists_pushed
    refine ⟨haccounts.step hrule, hstop ▸ hlosses.step hrule, ?_, ?_⟩
    · rw [hrule.popped_append_items, hin, hfed]
    · rw [hsent, hpushed, htaken, ← List.append_assoc, hout, List.append_assoc]

/-- **Every reachable system is accounted for.** -/
theorem accounted_of_run {input : BoundedQueue α m} {output : BoundedQueue β n}
    {acts : List (Action α)} (h : StepRun.run (step S) (init S input output) acts = some s) :
    s.Accounted S output.items :=
  StepRun.run_invariant (fun _ _ _ h hstep ↦ h.step hstep) (accounted_init S input output) h

/-- **Accounting at thread exit.** What was pushed is what the pure stage forwards of the popped
ticks, less the lost ones; `process_tick` lost at most one, `drain_input` lost ticks on a full
output only; the counters are exact and every popped tick is in one of them or lost. -/
theorem accounted_at_exit {input : BoundedQueue α m} {output : BoundedQueue β n}
    {acts : List (Action α)} (h : StepRun.run (step S) (init S input output) acts = some s)
    (hexit : s.worker.pc = .exited) :
    (s.worker.popped ++ s.input.items = s.fed ∧
        s.taken ++ s.output.items = output.items ++ pushedOf s.worker.fates) ∧
      S.forwardedOf s.worker.popped = s.worker.fates.map Prod.fst ∧
      (lostInProcess s.worker.fates ≤ 1 ∧
        ∀ fate ∈ s.worker.fates, ∀ held, fate.2 = .lostInDrain held → held = n) ∧
      s.worker.forwarded = (pushedOf s.worker.fates).length ∧
      (∀ why, s.worker.dropped why = (S.dropsOf s.worker.popped).count why) ∧
      s.worker.popped.length =
        s.worker.forwarded + (S.dropsOf s.worker.popped).length +
          (lostOf s.worker.fates).length := by
  obtain ⟨⟨judged, haccounts⟩, hlosses, hin, hout⟩ := accounted_of_run h
  obtain ⟨hfates, hforwarded, hdropped, hlen⟩ := haccounts.of_nothing (by rw [hexit]; rfl)
  exact ⟨⟨hin, hout⟩, hfates, ⟨hlosses.process_le, hlosses.drain_full⟩, hforwarded, hdropped, hlen⟩

/-! ### Undisturbed runs -/

/-- The thread has dealt with the ticks `ticks` in a run without a stop request: it has popped them,
and nothing it took is pending. -/
structure Completes (S : FilterStage σ α β κ) (ticks : List α) (s : StageSystem σ α β κ m n) :
    Prop where
  /-- There is such a run. -/
  run : ∃ input output acts, StepRun.run (step S) (init S input output) acts = some s ∧
    Action.requestStop ∉ acts
  /-- Every push has succeeded and everything is counted. -/
  nothing : s.worker.pc.holding = .nothing
  /-- These are the ticks taken. -/
  popped : s.worker.popped = ticks

/-- No stop has been requested, and the thread is as it is without one. -/
def Undisturbed (s : StageSystem σ α β κ m n) : Prop := s.stop = false ∧ s.worker.Undisturbed

theorem Undisturbed.step (h : s.Undisturbed) (ha : a ≠ .requestStop) (hstep : s.step S a = some t) :
    t.Undisturbed := by
  obtain ⟨hstop, hworker⟩ := h
  by_cases hthread : a = .thread
  · subst hthread
    obtain ⟨hrule, hflag, -, -⟩ := rule_of_step_thread hstep
    rw [hstop] at hrule hflag
    exact ⟨hflag, hworker.step hrule⟩
  · obtain ⟨hsame, hflag | ⟨hreq, -⟩⟩ := worker_of_step_neighbour hthread hstep
    · exact ⟨hflag.trans hstop, by rwa [hsame]⟩
    · exact absurd hreq ha

theorem undisturbed_of_run {input : BoundedQueue α m} {output : BoundedQueue β n}
    {acts : List (Action α)} (h : StepRun.run (step S) (init S input output) acts = some s)
    (hstop : Action.requestStop ∉ acts) : s.Undisturbed :=
  StepRun.run_invariant_of_mem
    (fun _ ha _ _ hs hstep ↦ hs.step (fun heq ↦ hstop (heq ▸ ha)) hstep)
    ⟨rfl, Worker.undisturbed_start S⟩ h

/-- **What a completed run has done**: everything the pure stage forwards was pushed, and the
counters are those of the pure stage. -/
theorem Completes.accounts {ticks : List α} (h : s.Completes S ticks) :
    pushedOf s.worker.fates = S.forwardedOf ticks ∧
      s.worker.forwarded = (S.forwardedOf ticks).length ∧
      ∀ why, s.worker.dropped why = (S.dropsOf ticks).count why := by
  obtain ⟨⟨input, output, acts, hrun, hstop⟩, hnothing, rfl⟩ := h
  obtain ⟨⟨judged, haccounts⟩, -, -, -⟩ := accounted_of_run hrun
  obtain ⟨hfates, hforwarded, hdropped, -⟩ := haccounts.of_nothing hnothing
  have hpushed : pushedOf s.worker.fates = S.forwardedOf s.worker.popped := by
    rw [hfates]
    exact pushedOf_eq_map_fst_iff.2 (undisturbed_of_run hrun hstop).2.1
  exact ⟨hpushed, by rw [hforwarded, hpushed], hdropped⟩

/-- A system at rest takes up a tick. -/
theorem exists_run_take (S : FilterStage σ α β κ) (hm : 0 < m) {s : StageSystem σ α β κ m n}
    (hpc : s.worker.pc = .loopTest) (hstop : s.stop = false) (hin : s.input.items = [])
    (tick : α) :
    ∃ acts t, StepRun.run (step S) s acts = some t ∧ Action.requestStop ∉ acts ∧
      t.worker.pc = .classify .processTick tick ∧ t.stop = false ∧ t.input.items = [] ∧
      t.output = s.output ∧ t.worker.popped = s.worker.popped ++ [tick] := by
  obtain ⟨input', hfeed, hitems⟩ :=
    BoundedQueue.exists_tryPush_eq_some (q := s.input) (by rw [hin]; exact hm) tick
  have hpop : input'.tryPop = some (tick, s.input) :=
    BoundedQueue.tryPop_eq_some_iff.2 (by rw [hitems, hin]; rfl)
  refine ⟨[.upstreamPush tick, .thread, .thread], { s with
    worker := { s.worker with
      pc := .classify .processTick tick
      popped := s.worker.popped ++ [tick] }
    fed := s.fed ++ [tick] }, ?_, by simp, rfl, hstop, hin, rfl, rfl⟩
  simp only [StepRun.run_cons, StepRun.run_nil, step, Worker.step, Option.map_some,
    Option.bind_some, Bool.false_eq_true, if_false, hfeed, hpc, hstop, hpop]

/-- A tick taken up is dropped, or sent on and taken away. -/
theorem exists_run_settle (S : FilterStage σ α β κ) (hn : 0 < n) {s : StageSystem σ α β κ m n}
    {tick : α} (hpc : s.worker.pc = .classify .processTick tick) (hstop : s.stop = false)
    (hout : s.output.items = []) :
    ∃ acts t, StepRun.run (step S) s acts = some t ∧ Action.requestStop ∉ acts ∧
      t.worker.pc = .loopTest ∧ t.stop = false ∧ t.input = s.input ∧ t.output.items = [] ∧
      t.worker.popped = s.worker.popped := by
  rcases hverdict : S.classify s.worker.core tick with ⟨core', out | why⟩
  · obtain ⟨output', hpush, hitems⟩ :=
      BoundedQueue.exists_tryPush_eq_some (q := s.output) (by rw [hout]; exact hn) out
    have htake : output'.tryPop = some (out, s.output) :=
      BoundedQueue.tryPop_eq_some_iff.2 (by rw [hitems, hout]; rfl)
    refine ⟨[.thread, .thread, .thread, .thread, .downstreamPop], { s with
      worker := { s.worker with
        pc := .loopTest
        core := core'
        forwarded := s.worker.forwarded + 1
        fates := s.worker.fates ++ [(out, .pushed)] }
      taken := s.taken ++ [out] }, ?_, by simp, rfl, hstop, rfl, hout, rfl⟩
    simp only [StepRun.run_cons, StepRun.run_nil, step, Worker.step, Option.map_some,
      Option.bind_some, Bool.false_eq_true, if_false, hpc, hstop, hverdict, Pc.send, hpush,
      Pc.resume, htake]
  · refine ⟨[.thread, .thread], { s with
      worker := { s.worker with
        pc := .loopTest
        core := core'
        dropped := Function.update s.worker.dropped why (s.worker.dropped why + 1) } },
      ?_, by simp, rfl, hstop, rfl, hout, rfl⟩
    simp only [StepRun.run_cons, StepRun.run_nil, step, Worker.step, Option.bind_some, hpc,
      hverdict, Pc.resume]

/-- **Every input has a completed run.** -/
theorem exists_completes (S : FilterStage σ α β κ) (hm : 0 < m) (hn : 0 < n) (ticks : List α) :
    ∃ s : StageSystem σ α β κ m n, s.Completes S ticks := by
  have hrest : ∃ acts, ∃ s : StageSystem σ α β κ m n,
      StepRun.run (step S) (init S BoundedQueue.empty BoundedQueue.empty) acts = some s ∧
        Action.requestStop ∉ acts ∧ s.worker.pc = .loopTest ∧ s.stop = false ∧
        s.input.items = [] ∧ s.output.items = [] ∧ s.worker.popped = ticks := by
    induction ticks using List.reverseRecOn with
    | nil => exact ⟨[], _, rfl, List.not_mem_nil, rfl, rfl, rfl, rfl, rfl⟩
    | append_singleton ticks tick ih =>
      obtain ⟨acts, s, hrun, hreq, hpc, hstop, hin, hout, hpopped⟩ := ih
      obtain ⟨take, u, htake, hreq₁, hpc₁, hstop₁, hin₁, hout₁, hpopped₁⟩ :=
        exists_run_take S hm hpc hstop hin tick
      obtain ⟨settle, t, hsettle, hreq₂, hpc₂, hstop₂, hin₂, hout₂, hpopped₂⟩ :=
        exists_run_settle S hn hpc₁ hstop₁ (by rw [hout₁]; exact hout)
      refine ⟨acts ++ (take ++ settle), t, ?_, by simp [hreq, hreq₁, hreq₂], hpc₂, hstop₂,
        by rw [hin₂]; exact hin₁, hout₂, by rw [hpopped₂, hpopped₁, hpopped]⟩
      refine StepRun.run_append_eq_some_iff.2 ⟨s, hrun, ?_⟩
      exact StepRun.run_append_eq_some_iff.2 ⟨u, htake, hsettle⟩
  obtain ⟨acts, s, hrun, hreq, hpc, -, -, -, hpopped⟩ := hrest
  exact ⟨s, ⟨_, _, acts, hrun, hreq⟩, by rw [hpc]; rfl, hpopped⟩

end StageSystem

end Mdp
