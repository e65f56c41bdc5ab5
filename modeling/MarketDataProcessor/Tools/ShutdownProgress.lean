import MarketDataProcessor.Pipeline.OrderlyStop
import MarketDataProcessor.Processing.StopBound
import MarketDataProcessor.Tools.ProcessorMain

/-!
# The shutdown sequence comes to its end

`main` calls `stop()` on seven components, and every call joins a thread. This module bounds how
long each call can wait and shows that the sequence cannot get stuck.

`Service.stepsLeft` is what each thread still has to do once it is asked to stop. That nothing is
put on it by the others is where the order of the sequence comes in: a thread that drains its input
is asked when the thread in front of it has returned, so its input only shrinks. `Service.budget`
bounds it by the capacities of the buffers, and `stop_returns` by the steps of the thread.

`awaited` is the step the sequence waits for: the request, a step of the thread that is joined, or
the return of the join. `remaining` counts them down to the end of `main`.

The same order makes the path of the ticks `Orderly`, so that `ticks_conserved` accounts for every
tick that was ever fed once the book processor has returned.

## What the bounds rest on

* For each kind of thread, `Step.stepsLeft_le`: a step of a thread that is asked to stop takes one
  off, whatever its queues do and whatever the database answers. A writer flushes once on its way
  out and does not retry, so a flush that throws costs it no more than one that commits.
* `Control.stepsLeft_le_of_other`: nobody else puts anything on. For a thread that drains its input
  this is `exited_of_flag`, as the thread in front of it has returned.
* `Control.remaining_add_le`: the steps the sequence waits for are counted over all seven calls at
  once, and a step that is not awaited does not delay any.

Both results are `Ranked`, the first for the steps of a thread, the second for the awaited steps.
The feed's return is one step, as in `ProcessorMain`; `FeedThread` adds the steps of its thread.
-/

namespace Mdp

/-! ### The book processor -/

namespace BookWorker

/-- How many steps a thread that has been asked to stop makes before it returns. -/
def Pc.stepsLeft (held : ℕ) : Pc → ℕ
  | .exited => 0
  | .tryPop .drainInput => 5 * held + 1
  | .pushSignal .drainInput _ => 5 * held + 2
  | .pushDb .drainInput _ => 5 * held + 3
  | .count .drainInput _ => 5 * held + 4
  | .apply .drainInput _ => 5 * held + 5
  | .loopTest => 5 * held + 2
  | .tryPop .processTick => 5 * held + 3
  | .pushSignal .processTick _ => 5 * held + 3
  | .pushDb .processTick _ => 5 * held + 4
  | .count .processTick _ => 5 * held + 5
  | .apply .processTick _ => 5 * held + 6

theorem Pc.stepsLeft_le (pc : Pc) (held : ℕ) : pc.stepsLeft held ≤ 5 * held + 6 := by
  unfold stepsLeft
  split <;> omega

theorem Pc.stepsLeft_eq_zero_iff {pc : Pc} {held : ℕ} : pc.stepsLeft held = 0 ↔ pc = .exited := by
  unfold stepsLeft
  split <;> simp

/-- **Every step of a stopping thread takes one off**, whatever the queues do. -/
theorem Step.stepsLeft_le {fl : FloatEnv} {n : ℕ} {w w' : BookWorker}
    {input input' : BoundedQueue MarketTick n} (h : Step fl true w input w' input') :
    w'.pc.stepsLeft input'.items.length ≤ w.pc.stepsLeft input.items.length - 1 := by
  cases h with
  | enter _ hstop => exact Bool.noConfusion hstop
  | leave hpc _ =>
    rw [hpc]
    exact Nat.le_refl _
  | popEmpty phase hpc _ =>
    rw [hpc]
    cases phase with
    | processTick => exact Nat.le_refl _
    | drainInput => exact Nat.zero_le _
  | pop phase tick input' hpc hitems =>
    rw [hpc, hitems, List.length_cons]
    cases phase <;> simp only [Pc.stepsLeft] <;> omega
  | apply phase tick hpc =>
    rw [hpc]
    cases phase <;> exact Nat.le_refl _
  | count phase snap hpc =>
    rw [hpc]
    cases phase <;> cases snap <;> simp only [Pc.counted, Pc.resume, Pc.stepsLeft] <;> omega
  | pushDb phase snap hpc =>
    rw [hpc]
    cases phase <;> exact Nat.le_refl _
  | pushSignal phase snap hpc =>
    rw [hpc]
    cases phase <;> exact Nat.le_refl _
  | rest hpc =>
    rw [hpc]
    exact Nat.zero_le _

end BookWorker

/-! ### The writers -/

namespace BatchWriter

/-- How many steps a thread that has been asked to stop makes before it returns. A flush that throws
goes to the retry loop, which looks at the flag before it sleeps. -/
def Pc.stepsLeft : Pc → ℕ
  | .exited => 0
  | .runTest => 1
  | .backoff _ => 2
  | .flush none => 3
  | .loopTest => 4
  | .flush (some _) => 5
  | .connect => 5
  | .clock => 6
  | .tryPop => 7

theorem Pc.stepsLeft_le (pc : Pc) : pc.stepsLeft ≤ 7 := by
  unfold stepsLeft
  split <;> decide

theorem Pc.stepsLeft_eq_zero_iff {pc : Pc} : pc.stepsLeft = 0 ↔ pc = .exited := by
  unfold stepsLeft
  split <;> simp

/-- **Every step of a stopping thread takes one off**, whatever the database does. -/
theorem Step.stepsLeft_le {α ρ : Type*} {n : ℕ} {toRow : α → ρ} {env : Env}
    {w w' : BatchWriter α ρ} {input input' : BoundedQueue α n}
    (h : Step toRow env true w input w' input') :
    w'.pc.stepsLeft ≤ w.pc.stepsLeft - 1 := by
  cases h with
  | move pc hmove =>
    cases hmove with
    | leave hpc _ | finish hpc _ _ | finishFlush hpc _ _ | refused hpc | popEmpty hpc | wait hpc _
    | due _ hpc _ | wake _ hpc =>
      rw [hpc]
      simp [Pc.stepsLeft]
    | reconnect _ hstop | enter _ hstop | sleep _ _ hstop => exact Bool.noConfusion hstop
  | idle hpc _ | connected hpc _ | pop _ _ hpc _ | rest hpc =>
    rw [hpc]
    simp [Pc.stepsLeft]
  | commit now hpc _ =>
    rw [hpc]
    cases now <;> exact Nat.le_of_ble_eq_true rfl
  | throw now hpc _ =>
    rw [hpc]
    cases now <;> exact Nat.le_of_ble_eq_true rfl

end BatchWriter

/-! ### The signal engine -/

namespace EngineWorker

/-- How many steps a thread that has been asked to stop makes before it returns. -/
def Pc.stepsLeft : Pc → ℕ
  | .exited => 0
  | .loopTest => 1
  | .pushTest _ => 2
  | .tryPush _ => 3
  | .tryPop => 4

theorem Pc.stepsLeft_le (pc : Pc) : pc.stepsLeft ≤ 4 := by
  unfold stepsLeft
  split <;> decide

theorem Pc.stepsLeft_eq_zero_iff {pc : Pc} : pc.stepsLeft = 0 ↔ pc = .exited := by
  unfold stepsLeft
  split <;> simp

/-- **Every step of a stopping thread takes one off**, whether or not its output has room. -/
theorem Step.stepsLeft_le {fl : FloatEnv} {m n : ℕ} {w w' : EngineWorker}
    {input input' : BoundedQueue MarketSnapshot m} {output output' : BoundedQueue Signal n}
    (h : Step fl true w input output w' input' output') :
    w'.pc.stepsLeft ≤ w.pc.stepsLeft - 1 := by
  cases h with
  | enter _ hstop | retry _ _ hstop => exact Bool.noConfusion hstop
  | leave hpc _ | popEmpty hpc _ | pop _ _ hpc _ | push _ _ hpc _ | refused _ hpc
  | abandon _ hpc _ | rest hpc =>
    rw [hpc]
    simp [Pc.stepsLeft]

end EngineWorker

/-! ### One call of `stop()` -/

namespace Service

/-- The thread an action is a step of. -/
def Action.actor : Action → Option Component
  | .simExit => some .sim
  | .stage .parser => some .parser
  | .stage .normalizer => some .norm
  | .stage .book => some .book
  | .dbWriter _ => some .dbWriter
  | .signalDbWriter _ => some .signalDbWriter
  | .engine => some .signalEngine
  | .feed _ | .request | .join => none

/-- How many steps a component makes before it returns, once it is asked to stop. -/
def stepsLeft (s : Service) : Component → ℕ
  | .sim => (!s.simExited).toNat
  | .parser => s.path.parser.pc.stepsLeft s.path.raw.items.length
  | .norm => s.path.normalizer.pc.stepsLeft s.path.parsed.items.length
  | .book => s.path.book.pc.stepsLeft s.path.normalized.items.length
  | .dbWriter => s.dbWriter.pc.stepsLeft
  | .signalDbWriter => s.signalDbWriter.pc.stepsLeft
  | .signalEngine => s.engine.pc.stepsLeft

/-- The most steps a component can have left: what it needs for a full input. -/
def budget : Component → ℕ
  | .sim => 1
  | .parser => 4 * 16384 + 4
  | .norm => 4 * 4096 + 4
  | .book => 5 * 4096 + 6
  | .dbWriter => 7
  | .signalDbWriter => 7
  | .signalEngine => 4

theorem stepsLeft_le_budget (s : Service) (c : Component) : s.stepsLeft c ≤ budget c := by
  cases c with
  | sim => exact Bool.toNat_le _
  | parser =>
    have hroom := s.path.raw.length_le
    exact (Pc.stepsLeft_le _ _).trans (by rw [budget]; omega)
  | norm =>
    have hroom := s.path.parsed.length_le
    exact (Pc.stepsLeft_le _ _).trans (by rw [budget]; omega)
  | book =>
    have hroom := s.path.normalized.length_le
    exact (BookWorker.Pc.stepsLeft_le _ _).trans (by rw [budget]; omega)
  | dbWriter => exact BatchWriter.Pc.stepsLeft_le _
  | signalDbWriter => exact BatchWriter.Pc.stepsLeft_le _
  | signalEngine => exact EngineWorker.Pc.stepsLeft_le _

theorem stepsLeft_eq_zero_iff {s : Service} {c : Component} :
    s.stepsLeft c = 0 ↔ s.exited c = true := by
  cases c with
  | sim => cases h : s.simExited <;> simp [stepsLeft, exited, h]
  | parser | norm => exact Pc.stepsLeft_eq_zero_iff.trans decide_eq_true_iff.symm
  | book => exact BookWorker.Pc.stepsLeft_eq_zero_iff.trans decide_eq_true_iff.symm
  | dbWriter | signalDbWriter =>
    exact BatchWriter.Pc.stepsLeft_eq_zero_iff.trans decide_eq_true_iff.symm
  | signalEngine => exact EngineWorker.Pc.stepsLeft_eq_zero_iff.trans decide_eq_true_iff.symm

variable {fl : FloatEnv} {overflow : Double → ℤ} {period : Period} {s t : Service} {a : Action}

/-- When a component is asked to stop, those before it have returned. -/
theorem Control.exited_of_flag (h : s.Control) {c : Component} (c' : Component)
    (hlt : c'.position < c.position) (hflag : s.main.flag c = true) : s.exited c' = true := by
  refine h.joined c' ?_
  simp only [StopSequence.flag, Bool.or_eq_true, Bool.and_eq_true, decide_eq_true_iff] at hflag
  rcases hflag with hpast | ⟨-, hnow⟩
  · exact hlt.trans hpast
  · exact hnow ▸ hlt

/-- A step of another thread, or of `main`, puts nothing on. -/
theorem Control.stepsLeft_le_of_other (h : s.Control) (hrule : Rule fl overflow s a t)
    {c : Component} (hflag : s.main.flag c = true) (hother : a.actor ≠ some c) :
    t.stepsLeft c ≤ s.stepsLeft c := by
  cases hrule with
  | feed tick path hrunning hfeed =>
    obtain ⟨raw', -, rfl⟩ := Option.map_eq_some_iff.1 hfeed
    cases c with
    | parser =>
      -- the feed has returned
      have hexit : s.simExited = true := h.exited_of_flag .sim (by decide) hflag
      exact Bool.noConfusion (hrunning.symm.trans hexit)
    | _ => exact Nat.le_refl _
  | simExit _ =>
    cases c with
    | sim => exact absurd rfl hother
    | _ => exact Nat.le_refl _
  | stage stage path hadv =>
    cases hadv with
    | parser w raw' parsed' hw =>
      cases c with
      | parser => exact absurd rfl hother
      | norm =>
        have hexit := of_decide_eq_true (h.exited_of_flag .parser (by decide) hflag)
        show Pc.stepsLeft parsed'.items.length _ ≤ _
        rw [(hw.buffers_of_exited hexit).2]
        exact Nat.le_refl _
      | _ => exact Nat.le_refl _
    | normalizer w parsed' normalized' hw =>
      cases c with
      | norm => exact absurd rfl hother
      | book =>
        have hexit := of_decide_eq_true (h.exited_of_flag .norm (by decide) hflag)
        show BookWorker.Pc.stepsLeft normalized'.items.length _ ≤ _
        rw [(hw.buffers_of_exited hexit).2]
        exact Nat.le_refl _
      | _ => exact Nat.le_refl _
    | book w normalized' hw =>
      cases c with
      | book => exact absurd rfl hother
      | _ => exact Nat.le_refl _
  | engine w queue alerts hw =>
    cases c with
    | signalEngine => exact absurd rfl hother
    | _ => exact Nat.le_refl _
  | dbWriter env w queue hw =>
    cases c with
    | dbWriter => exact absurd rfl hother
    | _ => exact Nat.le_refl _
  | signalDbWriter env w alerts hw =>
    cases c with
    | signalDbWriter => exact absurd rfl hother
    | _ => exact Nat.le_refl _
  | request | join => cases c <;> exact Nat.le_refl _

/-- A step of the thread takes one off. -/
theorem Rule.stepsLeft_le (hrule : Rule fl overflow s a t) {c : Component}
    (hflag : s.main.flag c = true) (hown : a.actor = some c) :
    t.stepsLeft c ≤ s.stepsLeft c - 1 := by
  cases hrule with
  | feed | request | join => simp [Action.actor] at hown
  | simExit _ =>
    obtain rfl := Option.some.inj hown
    exact Nat.zero_le _
  | stage stage path hadv =>
    cases hadv with
    | parser w raw' parsed' hw =>
      obtain rfl := Option.some.inj hown
      have hstop : s.stop .parser = true := hflag
      exact Worker.Step.stepsLeft_le (hstop ▸ hw)
    | normalizer w parsed' normalized' hw =>
      obtain rfl := Option.some.inj hown
      have hstop : s.stop .normalizer = true := hflag
      exact Worker.Step.stepsLeft_le (hstop ▸ hw)
    | book w normalized' hw =>
      obtain rfl := Option.some.inj hown
      have hstop : s.stop .book = true := hflag
      exact BookWorker.Step.stepsLeft_le (hstop ▸ hw)
  | engine w queue alerts hw =>
    obtain rfl := Option.some.inj hown
    exact EngineWorker.Step.stepsLeft_le (hflag ▸ hw)
  | dbWriter env w queue hw =>
    obtain rfl := Option.some.inj hown
    exact BatchWriter.Step.stepsLeft_le (hflag ▸ hw)
  | signalDbWriter env w alerts hw =>
    obtain rfl := Option.some.inj hown
    exact BatchWriter.Step.stepsLeft_le (hflag ▸ hw)

/-- Every reachable state is controlled. -/
theorem control_of_run {acts : List Action}
    (hrun : StepRun.run (step fl overflow) (init fl period) acts = some s) : s.Control :=
  StepRun.run_invariant (fun _ _ _ h hstep ↦ h.step (rule_of_step hstep)) control_init hrun

/-- The steps left of a component that is asked to stop are a rank for its own steps. -/
theorem ranked_component (fl : FloatEnv) (overflow : Double → ℤ) (c : Component) :
    StepRun.Ranked (step fl overflow) (fun s ↦ s.Control ∧ s.main.flag c = true)
      (fun s ↦ s.stepsLeft c) (fun _ a ↦ decide (a.actor = some c)) fun _ ↦ 0 where
  inv h hstep := ⟨h.1.step (rule_of_step hstep), (rule_of_step hstep).flag h.2⟩
  own_le h hown hstep := (rule_of_step hstep).stepsLeft_le h.2 (of_decide_eq_true hown)
  other_le h hother hstep :=
    h.1.stepsLeft_le_of_other (rule_of_step hstep) h.2 (of_decide_eq_false hother)
  zero _ hzero hstep :=
    stepsLeft_eq_zero_iff.2 ((rule_of_step hstep).exited (stepsLeft_eq_zero_iff.1 hzero))

/-- **Every call of `stop()` returns.** In every interleaving, from any state of the service in
which `main` has set the stop flag of a component: its thread has returned from `run` when it has
made the steps of its budget, whatever the other threads, the consumers and the feed do meanwhile.
-/
theorem stop_returns {before after : List Action} {c : Component}
    (hrun : StepRun.run (step fl overflow) (init fl period) before = some s)
    (hflag : s.main.flag c = true) (hafter : StepRun.run (step fl overflow) s after = some t)
    (hsteps : budget c ≤ after.countP fun a ↦ decide (a.actor = some c)) : t.exited c = true := by
  have hbudget := s.stepsLeft_le_budget c
  refine stepsLeft_eq_zero_iff.1
    ((ranked_component fl overflow c).rank_eq_zero_of_le ⟨control_of_run hrun, hflag⟩ hafter ?_)
  rw [StepRun.length_made_eq_countP hafter, List.map_const', List.sum_replicate, nsmul_zero,
    Nat.add_zero]
  exact hbudget.trans hsteps

/-- The writer of snapshots, asked to stop with a snapshot in its batch, on a database that fails.
-/
theorem stop_returns_dbWriter :
    let fl := FloatEnv.exact fun _ ↦ 0
    let before :=
      produceOne ++ List.replicate 4 (.dbWriter ⟨true, 0⟩) ++ (stopAll 3).take 16
    let after := List.replicate 7 (Action.dbWriter ⟨false, 0⟩)
    ∃ s t, StepRun.run (step fl fun _ ↦ 0) (init fl .default) before = some s ∧
      StepRun.run (step fl fun _ ↦ 0) s after = some t ∧
      s.main.flag .dbWriter = true ∧ t.exited .dbWriter = true := by
  intro fl before after
  obtain ⟨t, hrun, -⟩ := Option.map_eq_some_iff.1 (by decide +kernel :
    (StepRun.run (step fl fun _ ↦ 0) (init fl .default) (before ++ after)).map
      (fun s ↦ (s.main.returned, s.dbWriter.failed.length)) = some (4, 1))
  obtain ⟨s, hbefore, hafter⟩ := StepRun.run_append_eq_some_iff.1 hrun
  have hflag : s.main.flag .dbWriter = true :=
    StepRun.eq_of_run_map (fun s ↦ s.main.flag .dbWriter) hbefore (by decide +kernel)
  exact ⟨s, t, hbefore, hafter, hflag, stop_returns hbefore hflag hafter (by decide)⟩

/-! ### The whole sequence -/

/-- The step the sequence waits for: the next request, a step of the thread that is joined, or the
return of the join. -/
def awaited (s : Service) (a : Action) : Bool :=
  stopOrder[s.main.returned]?.any fun c ↦
    match a with
    | .request => !s.main.requested
    | .join => s.main.requested && s.exited c
    | a => s.main.requested && !s.exited c && decide (a.actor = some c)

/-- The steps awaited from the call of `stop()` at a place on. -/
def ahead (k : ℕ) : ℕ := ((stopOrder.drop k).map fun c ↦ budget c + 2).sum

/-- The steps awaited until the last call returns. -/
def remaining (s : Service) : ℕ :=
  match stopOrder[s.main.returned]?, s.main.requested with
  | some c, true => s.stepsLeft c + 1 + ahead (s.main.returned + 1)
  | _, _ => ahead s.main.returned

theorem ahead_of_some {k : ℕ} {c : Component} (h : stopOrder[k]? = some c) :
    ahead k = budget c + 2 + ahead (k + 1) := by
  obtain ⟨hlt, rfl⟩ := List.getElem?_eq_some_iff.1 h
  rw [ahead, List.drop_eq_getElem_cons hlt, List.map_cons, List.sum_cons, ahead]

theorem ahead_of_none {k : ℕ} (h : stopOrder[k]? = none) : ahead k = 0 := by
  rw [ahead, List.drop_eq_nil_of_le (List.getElem?_eq_none_iff.1 h)]
  rfl

theorem remaining_of_requested {c : Component} (hc : stopOrder[s.main.returned]? = some c)
    (hreq : s.main.requested = true) :
    s.remaining = s.stepsLeft c + 1 + ahead (s.main.returned + 1) := by
  rw [remaining, hc, hreq]

theorem remaining_of_not_requested (hreq : s.main.requested = false) :
    s.remaining = ahead s.main.returned := by
  rw [remaining, hreq]
  cases stopOrder[s.main.returned]? <;> rfl

theorem remaining_of_none (hnone : stopOrder[s.main.returned]? = none) : s.remaining = 0 := by
  rw [remaining, hnone]
  exact ahead_of_none hnone

/-- The flag of the component that is joined is set. -/
theorem flag_of_requested {c : Component} (hc : stopOrder[s.main.returned]? = some c)
    (hreq : s.main.requested = true) : s.main.flag c = true := by
  have hpos : c.position = s.main.returned := by
    have hnodup : stopOrder.Nodup := by decide
    obtain ⟨hlt, rfl⟩ := List.getElem?_eq_some_iff.1 hc
    exact hnodup.idxOf_getElem _ hlt
  rw [StopSequence.flag, hreq, hpos]
  simp

/-- Steps of threads leave `main` where it is. -/
theorem Rule.main_eq (hrule : Rule fl overflow s a t) (hrequest : a ≠ .request)
    (hjoin : a ≠ .join) : t.main = s.main := by
  cases hrule with
  | request => exact absurd rfl hrequest
  | join => exact absurd rfl hjoin
  | _ => rfl

/-- A step of a thread is awaited when the thread is the one that is joined, and runs. -/
theorem awaited_eq_true_iff (hrequest : a ≠ .request) (hjoin : a ≠ .join) :
    s.awaited a = true ↔ ∃ c, stopOrder[s.main.returned]? = some c ∧ s.main.requested = true ∧
      s.exited c = false ∧ a.actor = some c := by
  cases hc : stopOrder[s.main.returned]? with
  | none => simp [awaited, hc]
  | some c => cases a <;> simp_all [awaited, and_assoc]

/-- **Every step counts down**: an awaited one takes something off, no other one puts anything on.
-/
theorem Control.remaining_add_le (h : s.Control) (hrule : Rule fl overflow s a t) :
    t.remaining + (s.awaited a).toNat ≤ s.remaining := by
  by_cases hrequest : a = .request
  · subst hrequest
    have hone := Bool.toNat_le (s.awaited .request)
    cases hrule with
    | request hreq hlt =>
      have hc := List.getElem?_eq_getElem hlt
      have hbudget := s.stepsLeft_le_budget stopOrder[s.main.returned]
      rw [remaining_of_not_requested hreq, ahead_of_some hc,
        remaining_of_requested (s := { s with main.requested := true }) hc rfl]
      show s.stepsLeft _ + 1 + ahead (s.main.returned + 1) + _ ≤ _
      omega
  by_cases hjoin : a = .join
  · subst hjoin
    have hone := Bool.toNat_le (s.awaited .join)
    cases hrule with
    | join c hc hreq _ =>
      rw [remaining_of_requested hc hreq, remaining_of_not_requested rfl]
      show ahead (s.main.returned + 1) + _ ≤ _
      omega
  · have hmain := hrule.main_eq hrequest hjoin
    have hiff := awaited_eq_true_iff (s := s) hrequest hjoin
    rcases hc : stopOrder[s.main.returned]? with _ | c
    · have hnot : s.awaited a = false := Bool.eq_false_iff.2 fun ha ↦ by
        obtain ⟨c, hsome, -⟩ := hiff.1 ha
        simp [hc] at hsome
      rw [remaining_of_none (s := t) (by rw [hmain, hc]), hnot]
      exact Nat.zero_le _
    rcases hreq : s.main.requested with _ | _
    · have hnot : s.awaited a = false := Bool.eq_false_iff.2 fun ha ↦ by
        obtain ⟨c, -, htrue, -⟩ := hiff.1 ha
        simp [hreq] at htrue
      rw [remaining_of_not_requested (s := t) (by rw [hmain, hreq]),
        remaining_of_not_requested hreq, hnot, hmain]
      exact Nat.le_refl _
    · have hflag := flag_of_requested hc hreq
      rw [remaining_of_requested (s := t) (by rw [hmain, hc]) (by rw [hmain, hreq]),
        remaining_of_requested hc hreq, hmain]
      cases hawaited : s.awaited a with
      | true =>
        obtain ⟨c', hc', -, hrunning, hactor⟩ := hiff.1 hawaited
        obtain rfl := Option.some.inj (hc.symm.trans hc')
        have hdown := hrule.stepsLeft_le hflag hactor
        have hleft : s.stepsLeft c ≠ 0 := fun hzero ↦ by
          rw [stepsLeft_eq_zero_iff.1 hzero] at hrunning
          exact Bool.noConfusion hrunning
        rw [Bool.toNat_true]
        omega
      | false =>
        have hle : t.stepsLeft c ≤ s.stepsLeft c := by
          by_cases hactor : a.actor = some c
          · exact (hrule.stepsLeft_le hflag hactor).trans (Nat.sub_le _ _)
          · exact h.stepsLeft_le_of_other hrule hflag hactor
        rw [Bool.toNat_false]
        omega

/-- The steps awaited are a rank for themselves. -/
theorem ranked_main (fl : FloatEnv) (overflow : Double → ℤ) :
    StepRun.Ranked (step fl overflow) Control remaining awaited fun _ ↦ 0 :=
  StepRun.ranked_of_add_le (fun h hstep ↦ h.step (rule_of_step hstep))
    fun h hstep ↦ h.remaining_add_le (rule_of_step hstep)

/-- As long as something is left, an awaited step can be taken. -/
theorem exists_awaited (fl : FloatEnv) (overflow : Double → ℤ) (s : Service)
    (hlt : s.main.returned < stopOrder.length) :
    ∃ a t, s.awaited a = true ∧ s.step fl overflow a = some t := by
  have hc := List.getElem?_eq_getElem hlt
  cases hreq : s.main.requested with
  | false =>
    exact ⟨.request, _, by simp [awaited, hc, hreq], if_pos ⟨hreq, hlt⟩⟩
  | true =>
    cases hexit : s.exited stopOrder[s.main.returned] with
    | true =>
      refine ⟨.join, { s with main := ⟨s.main.returned + 1, false⟩ }, ?_, ?_⟩
      · simp [awaited, hc, hreq, hexit]
      · rw [step, hc]
        exact if_pos ⟨hreq, hexit⟩
    | false =>
      have hthread : ∃ a t, a ≠ .request ∧ a ≠ .join ∧
          a.actor = some stopOrder[s.main.returned] ∧ s.step fl overflow a = some t := by
        cases hcur : stopOrder[s.main.returned] with
        | sim =>
          have hflag := flag_of_requested hc hreq
          rw [hcur] at hflag
          exact ⟨.simExit, _, by simp, by simp, rfl, if_pos hflag⟩
        | parser => exact ⟨.stage .parser, _, by simp, by simp, rfl, rfl⟩
        | norm => exact ⟨.stage .normalizer, _, by simp, by simp, rfl, rfl⟩
        | book => exact ⟨.stage .book, _, by simp, by simp, rfl, rfl⟩
        | dbWriter => exact ⟨.dbWriter ⟨true, 0⟩, _, by simp, by simp, rfl, rfl⟩
        | signalDbWriter => exact ⟨.signalDbWriter ⟨true, 0⟩, _, by simp, by simp, rfl, rfl⟩
        | signalEngine => exact ⟨.engine, _, by simp, by simp, rfl, rfl⟩
      obtain ⟨a, t, hrequest, hjoin, hactor, hstep⟩ := hthread
      exact ⟨a, t, (awaited_eq_true_iff hrequest hjoin).2 ⟨_, hc, hreq, hexit, hactor⟩, hstep⟩

/-- The steps awaited from the first request to the last return. -/
def shutdownBudget : ℕ := ahead 0

theorem ahead_le (k : ℕ) : ahead k ≤ shutdownBudget := by
  have hsplit := List.sum_take_add_sum_drop (stopOrder.map fun c ↦ budget c + 2) k
  rw [← List.map_drop] at hsplit
  exact (Nat.le_add_left _ _).trans hsplit.le

theorem remaining_le (s : Service) : s.remaining ≤ shutdownBudget := by
  rcases hc : stopOrder[s.main.returned]? with _ | c
  · rw [remaining_of_none hc]
    exact Nat.zero_le _
  rcases hreq : s.main.requested with _ | _
  · rw [remaining_of_not_requested hreq]
    exact ahead_le _
  · have hbudget := s.stepsLeft_le_budget c
    have hle := ahead_le s.main.returned
    rw [ahead_of_some hc] at hle
    rw [remaining_of_requested hc hreq]
    omega

theorem returned_lt (hpos : 0 < s.remaining) : s.main.returned < stopOrder.length := by
  by_contra hle
  have hnone := List.getElem?_eq_none (Nat.le_of_not_lt hle)
  rw [remaining_of_none hnone] at hpos
  exact Nat.lt_irrefl _ hpos

theorem returned_of_remaining (hzero : s.remaining = 0) :
    stopOrder.length ≤ s.main.returned := by
  by_contra hlt
  have hc := List.getElem?_eq_getElem (Nat.lt_of_not_le hlt)
  rcases hreq : s.main.requested with _ | _
  · rw [remaining_of_not_requested hreq, ahead_of_some hc] at hzero
    omega
  · rw [remaining_of_requested hc hreq] at hzero
    omega

/-- `main` makes seven calls. -/
theorem returned_le_of_run {acts : List Action}
    (hrun : StepRun.run (step fl overflow) (init fl period) acts = some s) :
    s.main.returned ≤ stopOrder.length := by
  refine StepRun.run_invariant (P := fun s : Service ↦ s.main.returned ≤ stopOrder.length)
    (fun u a v hle hstep ↦ ?_) (Nat.zero_le _) hrun
  cases rule_of_step hstep with
  | join c hc _ _ => exact (List.getElem?_eq_some_iff.1 hc).1
  | _ => exact hle

/-- **The shutdown sequence comes to its end.** From every reachable state of the service, and
however the threads are scheduled: the sequence waits for no more steps than its budget; as long as
a call is left, the step it waits for can be taken; and it can be brought to its end from wherever
the run has come, with every component returned. -/
theorem shutdown_completes {before after : List Action}
    (hrun : StepRun.run (step fl overflow) (init fl period) before = some s)
    (hafter : StepRun.run (step fl overflow) s after = some t) :
    (StepRun.made (step fl overflow) awaited s after).length ≤ shutdownBudget ∧
      (t.main.returned < stopOrder.length →
        ∃ a u, t.awaited a = true ∧ t.step fl overflow a = some u) ∧
      ∃ more u, StepRun.run (step fl overflow) t more = some u ∧ more.length ≤ shutdownBudget ∧
        u.main.returned = stopOrder.length ∧ ∀ c, u.exited c = true := by
  have hall : StepRun.run (step fl overflow) (init fl period) (before ++ after) = some t :=
    StepRun.run_append_eq_some_iff.2 ⟨s, hrun, hafter⟩
  have hranked := ranked_main fl overflow
  refine ⟨?_, t.exists_awaited fl overflow, ?_⟩
  · have hmade := StepRun.made_le_of_add_le (fun h hstep ↦ h.step (rule_of_step hstep))
      (fun h hstep ↦ h.remaining_add_le (rule_of_step hstep)) (control_of_run hrun) hafter
    exact (Nat.le_add_left _ _).trans (hmade.trans s.remaining_le)
  · obtain ⟨more, u, hmore, hzero, hlen⟩ :=
      hranked.exists_run (fun {s} _ hpos ↦ s.exists_awaited fl overflow (returned_lt hpos))
        (control_of_run hall)
    have hend : StepRun.run (step fl overflow) (init fl period) (before ++ after ++ more) =
        some u := StepRun.run_append_eq_some_iff.2 ⟨t, hall, hmore⟩
    have hdone : u.main.returned = stopOrder.length :=
      Nat.le_antisymm (returned_le_of_run hend) (returned_of_remaining hzero)
    refine ⟨more, u, hmore, hlen.trans t.remaining_le, hdone, fun c ↦ ?_⟩
    refine (control_of_run hend).joined c ?_
    rw [hdone]
    exact (List.getElem?_eq_some_iff.1 (getElem?_position c)).1

/-- Both calls of the theorem at the start of a shutdown. -/
theorem shutdown_completes_stopAll :
    let fl := FloatEnv.exact fun _ ↦ 0
    ∃ s t, StepRun.run (step fl fun _ ↦ 0) (init fl .default) produceOne = some s ∧
      StepRun.run (step fl fun _ ↦ 0) s (stopAll 3) = some t ∧
      (StepRun.made (step fl fun _ ↦ 0) awaited s (stopAll 3)).length ≤ shutdownBudget := by
  intro fl
  obtain ⟨t, hrun, -⟩ := Option.map_eq_some_iff.1 (by decide +kernel :
    (StepRun.run (step fl fun _ ↦ 0) (init fl .default) (produceOne ++ stopAll 3)).map
      (fun s ↦ s.main.returned) = some 7)
  obtain ⟨s, hbefore, hafter⟩ := StepRun.run_append_eq_some_iff.1 hrun
  exact ⟨s, t, hbefore, hafter, (shutdown_completes hbefore hafter).1⟩

/-! ### What the sequence leaves of the ticks -/

theorem Control.frontToBack (h : s.Control) : s.path.FrontToBack s.stop :=
  ⟨fun hflag ↦ of_decide_eq_true (h.exited_of_flag (c := .norm) .parser (by decide) hflag),
    fun hflag ↦ of_decide_eq_true (h.exited_of_flag (c := .book) .norm (by decide) hflag)⟩

/-- The tick path of the service is stopped front to back. -/
structure Ordered (fl : FloatEnv) (s : Service) : Prop where
  control : s.Control
  flow : s.path.Flow fl (some BoundedQueue.empty) (some BoundedQueue.empty)
  orderly : s.path.Orderly s.stop

theorem ordered_init : (init fl period).Ordered fl :=
  ⟨control_init, TickPath.flow_init, TickPath.orderly_init _ _ _⟩

/-- **Every step keeps the order.** -/
theorem Ordered.step (h : s.Ordered fl) (hrule : Rule fl overflow s a t) : t.Ordered fl := by
  have hcontrol := h.control.step hrule
  have hflags : ∀ stage, s.stop stage = true → t.stop stage = true := fun stage hstop ↦ by
    cases stage <;> exact hrule.flag hstop
  cases hrule with
  | feed tick path hrunning hfeed =>
    refine ⟨hcontrol, h.flow.feed hfeed, h.orderly.feed (Bool.eq_false_iff.2 fun hflag ↦ ?_) hfeed⟩
    have hexit : s.simExited = true :=
      h.control.exited_of_flag (c := .parser) .sim (by decide) hflag
    exact Bool.noConfusion (hrunning.symm.trans hexit)
  | stage stage path hadv =>
    exact ⟨hcontrol, h.flow.advance hadv, h.orderly.advance h.control.frontToBack hadv⟩
  | engine w queue alerts _ =>
    exact ⟨hcontrol, h.flow.withSignal queue, h.orderly.withSignal queue⟩
  | dbWriter env w queue _ => exact ⟨hcontrol, h.flow.withDb queue, h.orderly.withDb queue⟩
  | request | join => exact ⟨hcontrol, h.flow, h.orderly.request hflags⟩
  | simExit | signalDbWriter => exact ⟨hcontrol, h.flow, h.orderly⟩

/-- **No tick disappears without a trace.** In every interleaving, once `book.stop()` has returned:
the parser has judged every tick that was fed, the normalizer every tick the parser pushed, and the
books were given every tick the normalizer pushed; what a filtering stage forwards and did not push
it lost on its way out, at most one tick in `process_tick` and the others on a full buffer; and the
counters with these losses add up, stage by stage. -/
theorem ticks_conserved {acts : List Action}
    (hrun : StepRun.run (step fl overflow) (init fl period) acts = some s)
    (hdone : Component.position .book < s.main.returned) : s.path.Conserved := by
  have hordered : s.Ordered fl :=
    StepRun.run_invariant (fun _ _ _ h hstep ↦ h.step (rule_of_step hstep)) ordered_init hrun
  have hexit : ∀ c : Component, c.position ≤ Component.position .book → s.exited c = true :=
    fun c hle ↦ hordered.control.joined c (hle.trans_lt hdone)
  exact hordered.flow.conserved hordered.orderly
    ⟨of_decide_eq_true (hexit .parser (by decide)), of_decide_eq_true (hexit .norm (by decide)),
      of_decide_eq_true (hexit .book (by decide))⟩

/-- One tick that goes all the way and one that the parser rejects. -/
theorem ticks_conserved_stopAll :
    let fl := FloatEnv.exact fun _ ↦ 0
    ∃ s, StepRun.run (step fl fun _ ↦ 0) (init fl .default)
        (produceOne ++ .feed (.shareOfA 0) :: List.replicate 6 (.stage .parser) ++ stopAll 3) =
          some s ∧
      s.path.fed.length = 2 ∧ s.path.Conserved := by
  intro fl
  obtain ⟨s, hrun, hend⟩ := Option.map_eq_some_iff.1 (by decide +kernel :
    (StepRun.run (step fl fun _ ↦ 0) (init fl .default)
      (produceOne ++ .feed (.shareOfA 0) :: List.replicate 6 (.stage .parser) ++ stopAll 3)).map
        (fun s ↦ (s.main.returned, s.path.fed.length)) = some (7, 2))
  rw [Prod.mk.injEq] at hend
  exact ⟨s, hrun, hend.2, ticks_conserved hrun (by rw [hend.1]; decide)⟩

end Service

end Mdp
