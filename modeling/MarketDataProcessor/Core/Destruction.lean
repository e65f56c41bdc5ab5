import MarketDataProcessor.Core.ThreadBase

/-!
# Destroying a pipeline thread

An object of a class derived from `ThreadBase`, from its construction to `~ThreadBase()`. The
external thread calls `start()` and `stop()` as it likes and then destroys the object: the
destructor of the class runs first, then that of the base, which asserts that the thread is not
joinable and does not stop it. Restoring this is up to the class (its SUBCLASS CONTRACT). Workers
make steps all along.

Whether the thread is joinable between two calls is a matter of the last call: after `start()` it
is, after `stop()` it is not, whatever came before and whatever the workers do (`Settled`). So a
destructor that calls `stop()` always restores the contract, and one that does not leaves it to the
history.

## The two directions

* `joinable_of_run`: what `~ThreadBase()` finds is decided by the last call made, the destructor's
  own call included. `Step.call_cases` is the step lemma: a step of the system begins a call,
  returns from one, or moves neither the call nor the handle. `Settled` is kept by each of these.
* For the converse a run has to exist. Workers can go through their body at once and leave the
  object between calls (`run_worker_eq`, `Dormant`), so every call can return, every sequence of
  calls can be made and every history can end in the destruction (`exists_run_destroyed`). Without
  this the condition of `not_joinable_iff` could be too strong for want of interleavings.

The classes differ in one thing here, what their destructor does before the base's
(`DerivedClass.destructor`): seven call `stop()`, the signal engine's is defaulted.
-/

namespace Mdp

open ThreadBase

/-- The classes derived from `ThreadBase`. -/
inductive DerivedClass where
  | feedSimulator
  | postgresFeedReader
  | tickParser
  | normalizer
  | bookProcessor
  | signalEngine
  | dbWriter
  | signalDbWriter
  deriving DecidableEq

/-- What a destructor does before the destructor of the base. -/
inductive DestructorBody where
  /-- `{ stop(); }`. -/
  | stop
  /-- `= default`. -/
  | defaulted
  deriving DecidableEq

/-- The destructors; `stop()` is that of the base, also where the class declares its own. -/
def DerivedClass.destructor : DerivedClass → DestructorBody
  | .feedSimulator => .stop
  | .postgresFeedReader => .stop
  | .tickParser => .stop
  | .normalizer => .stop
  | .bookProcessor => .stop
  | .signalEngine => .defaulted
  | .dbWriter => .stop
  | .signalDbWriter => .stop

theorem DerivedClass.destructor_eq_stop_iff {cls : DerivedClass} :
    cls.destructor = .stop ↔ cls ≠ .signalEngine := by
  cases cls <;> decide

/-! ### What the calls come to -/

namespace ThreadBase

/-- A call of the public interface. -/
inductive Call where
  | start
  | stop
  deriving DecidableEq

/-- The call an action begins, if it does. -/
def Action.call : Action → Option Call
  | callStart => some .start
  | callStop => some .stop
  | _ => none

/-- The call the external thread is in. -/
def Pc.call : Pc → Option Call
  | idle => none
  | startTest => some .start
  | startStore => some .start
  | launch => some .start
  | stopStore => some .stop
  | stopTest => some .stop
  | join => some .stop

theorem Pc.call_eq_none_iff {pc : Pc} : pc.call = none ↔ pc = .idle := by
  cases pc <;> simp [Pc.call]

/-- The action that begins a call. -/
def Call.action : Call → Action
  | start => .callStart
  | stop => .callStop

/-- Where a call begins. -/
def Call.entry : Call → Pc
  | start => .startTest
  | stop => .stopStore

@[simp] theorem Call.call_action (c : Call) : c.action.call = some c := by
  cases c <;> rfl

/-- `joinable()` after a call. -/
def Call.leavesJoinable : Call → Bool
  | start => true
  | stop => false

variable {s t : ThreadBase}

/-- A call can begin between calls. -/
theorem step_action (hidle : s.pc = .idle) (c : Call) :
    s.step c.action = some { s with pc := c.entry } := by
  cases c with
  | start => rw [Call.action, ThreadBase.step, if_pos hidle]; rfl
  | stop => rw [Call.action, ThreadBase.step, if_pos hidle]; rfl

/-- **What a step means for the handle**: a call begins, the call in progress returns and leaves the
handle as it does, or neither call nor handle change. -/
theorem Step.call_cases {a : Action} (h : Step s a t) :
    (s.pc.call = none ∧ t.pc.call = a.call ∧ a.call.isSome = true ∧ t.joinable = s.joinable) ∨
      (a.call = none ∧ ∃ c, s.pc.call = some c ∧ t.pc.call = none ∧
        t.joinable = c.leavesJoinable) ∨
      (a.call = none ∧ t.pc.call = s.pc.call ∧ t.joinable = s.joinable) := by
  cases h with
  | callStart hpc => exact Or.inl ⟨by rw [hpc]; rfl, rfl, rfl, rfl⟩
  | callStop hpc => exact Or.inl ⟨by rw [hpc]; rfl, rfl, rfl, rfl⟩
  | startRefused hpc hsome => exact Or.inr (Or.inl ⟨rfl, .start, by rw [hpc]; rfl, rfl, hsome⟩)
  | launch hpc => exact Or.inr (Or.inl ⟨rfl, .start, by rw [hpc]; rfl, rfl, rfl⟩)
  | stopReturn hpc hnone =>
    exact Or.inr (Or.inl ⟨rfl, .stop, by rw [hpc]; rfl, rfl, by rw [joinable, hnone]; rfl⟩)
  | joined i hpc => exact Or.inr (Or.inl ⟨rfl, .stop, by rw [hpc]; rfl, rfl, rfl⟩)
  | startGranted hpc => exact Or.inr (Or.inr ⟨rfl, by rw [hpc]; rfl, rfl⟩)
  | startStore hpc => exact Or.inr (Or.inr ⟨rfl, by rw [hpc]; rfl, rfl⟩)
  | stopStore hpc => exact Or.inr (Or.inr ⟨rfl, by rw [hpc]; rfl, rfl⟩)
  | stopJoin hpc => exact Or.inr (Or.inr ⟨rfl, by rw [hpc]; rfl, rfl⟩)
  | work => exact Or.inr (Or.inr ⟨rfl, rfl, rfl⟩)

end ThreadBase

/-! ### The object -/

/-- How far the object is from its end. -/
inductive DestructionPhase where
  | alive
  /-- In the destructor of the class. -/
  | destructor
  /-- At the assertion of `~ThreadBase()`. -/
  | baseDestructor
  deriving DecidableEq

/-- An object of a derived class. -/
structure DerivedObject where
  base : ThreadBase
  phase : DestructionPhase
  /-- History: the calls made by the owner of the object. -/
  calls : List Call

namespace DerivedObject

/-- A new object. -/
def init : DerivedObject where
  base := ThreadBase.init
  phase := .alive
  calls := []

/-- What can happen to the object. -/
inductive Action where
  /-- A step of the threads; a call if the object is alive. -/
  | thread (a : ThreadBase.Action)
  /-- The owner destroys the object. -/
  | destroy
  /-- The destructor of the class returns. -/
  | leave

/-- One step. The destructor of the class calls `stop()` like the owner does. -/
def step (cls : DerivedClass) (o : DerivedObject) : Action → Option DerivedObject
  | .thread a =>
    if a.call = none ∨ o.phase = .alive then
      (o.base.step a).map fun base ↦ { o with base, calls := o.calls ++ a.call.toList }
    else none
  | .destroy =>
    if o.phase = .alive ∧ o.base.pc = .idle then
      match cls.destructor with
      | .stop => (o.base.step .callStop).map fun base ↦ { o with base, phase := .destructor }
      | .defaulted => some { o with phase := .baseDestructor }
    else none
  | .leave =>
    if o.phase = .destructor ∧ o.base.pc = .idle then some { o with phase := .baseDestructor }
    else none

variable {cls : DerivedClass} {o o' : DerivedObject}

/-- **What is settled at each point**: between calls by the last call, and inside a call by it. -/
def Settled (cls : DerivedClass) (o : DerivedObject) : Prop :=
  match o.phase, o.base.pc.call with
  | .alive, none => o.base.joinable = (o.calls.getLast?.map Call.leavesJoinable).getD false
  | .alive, some c => o.calls.getLast? = some c
  | .destructor, none => cls.destructor = .stop ∧ o.base.joinable = false
  | .destructor, some c => cls.destructor = .stop ∧ c = .stop
  | .baseDestructor, none =>
    o.base.joinable = (cls.destructor == .defaulted &&
      (o.calls.getLast?.map Call.leavesJoinable).getD false)
  | .baseDestructor, some _ => False

theorem settled_init : init.Settled cls := rfl

/-- A step of the threads keeps what is settled. -/
theorem Settled.thread (h : o.Settled cls) {a : ThreadBase.Action} {base : ThreadBase}
    (ha : a.call = none ∨ o.phase = .alive) (hstep : ThreadBase.Step o.base a base) :
    ({ o with base, calls := o.calls ++ a.call.toList } : DerivedObject).Settled cls := by
  obtain ⟨before, phase, calls⟩ := o
  rcases hstep.call_cases with ⟨hs, ht, hsome, -⟩ | ⟨hnone, c, hs, ht, hj⟩ | ⟨hnone, ht, hj⟩
  · -- a call begins, so the object is alive
    obtain ⟨c, hc⟩ := Option.isSome_iff_exists.1 hsome
    obtain rfl : phase = .alive := ha.resolve_left (by simp [hc])
    simp only [Settled, ht, hc, Option.toList_some, List.getLast?_concat]
  · -- a call returns
    simp only [Settled, hs] at h
    simp only [Settled, hnone, ht, hj, Option.toList_none, List.append_nil]
    cases phase with
    | alive => simp [h]
    | destructor => exact ⟨h.1, by rw [h.2]; rfl⟩
    | baseDestructor => exact h.elim
  · simp only [Settled] at h
    simpa only [Settled, hnone, ht, hj, Option.toList_none, List.append_nil] using h

/-- **Every step keeps what is settled.** -/
theorem Settled.step (h : o.Settled cls) {a : Action} (hstep : o.step cls a = some o') :
    o'.Settled cls := by
  cases a with
  | thread a =>
    simp only [DerivedObject.step] at hstep
    split_ifs at hstep with ha
    obtain ⟨base, hbase, rfl⟩ := Option.map_eq_some_iff.1 hstep
    exact h.thread ha (step_rule hbase)
  | destroy =>
    simp only [DerivedObject.step] at hstep
    split_ifs at hstep with hcond
    obtain ⟨halive, hidle⟩ := hcond
    have hcall : o.base.pc.call = none := Pc.call_eq_none_iff.2 hidle
    simp only [Settled, halive, hcall] at h
    split at hstep
    next hstop =>
      obtain ⟨base, hbase, rfl⟩ := Option.map_eq_some_iff.1 hstep
      obtain rfl := Option.some.inj ((step_action hidle .stop).symm.trans hbase)
      exact ⟨hstop, rfl⟩
    next hdefault =>
      obtain rfl := Option.some.inj hstep
      simp only [Settled, hcall, hdefault]
      exact h
  | leave =>
    simp only [DerivedObject.step] at hstep
    split_ifs at hstep with hcond
    obtain ⟨hphase, hidle⟩ := hcond
    have hcall : o.base.pc.call = none := Pc.call_eq_none_iff.2 hidle
    simp only [Settled, hphase, hcall] at h
    obtain rfl := Option.some.inj hstep
    simp only [Settled, hcall, h.1, h.2]
    rfl

theorem settled_of_run {acts : List Action} (h : StepRun.run (step cls) init acts = some o) :
    o.Settled cls :=
  StepRun.run_invariant (fun _ _ _ hs hstep ↦ hs.step hstep) settled_init h

theorem lastJoinable_iff {calls : List Call} :
    (calls.getLast?.map Call.leavesJoinable).getD false = true ↔ calls.getLast? = some .start := by
  cases calls.getLast? with
  | none => simp
  | some c => cases c <;> simp [Call.leavesJoinable]

/-- **What `~ThreadBase()` finds.** -/
theorem joinable_of_run {acts : List Action} (h : StepRun.run (step cls) init acts = some o)
    (hphase : o.phase = .baseDestructor) :
    o.base.joinable = true ↔ cls.destructor = .defaulted ∧ o.calls.getLast? = some .start := by
  have hsettled := settled_of_run h
  rw [Settled, hphase] at hsettled
  cases hcall : o.base.pc.call with
  | some c =>
    rw [hcall] at hsettled
    exact hsettled.elim
  | none =>
    rw [hcall] at hsettled
    have hjoinable : o.base.joinable = (cls.destructor == .defaulted &&
      (o.calls.getLast?.map Call.leavesJoinable).getD false) := hsettled
    rw [hjoinable, Bool.and_eq_true, beq_iff_eq, lastJoinable_iff]

/-! ### Every history is possible -/

/-- Between calls, with a worker that has yet to begin if there is one. -/
def Dormant (base : ThreadBase) : Prop :=
  base.pc = .idle ∧ ∀ i, base.thread = some i → base.workers[i]? = some .launched

/-- A worker can go through its body at once. -/
theorem run_worker_eq {base : ThreadBase} {i : ℕ} (hi : base.workers[i]? = some .launched) :
    StepRun.run ThreadBase.step base
        [.worker i .enter, .worker i (.finish false), .worker i .clear, .worker i .exit] =
      some { base with running := false, workers := base.workers.set i .exited } := by
  have hset : ∀ w, (base.workers.set i w)[i]? = some w := fun w ↦ by
    rw [getElem?_set hi, if_pos rfl]
  simp only [StepRun.run, ThreadBase.step, hi, hset, work, Option.bind_some, List.set_set]

/-- **Every call can return.** -/
theorem exists_run_call {base : ThreadBase} (h : Dormant base) (c : Call) :
    ∃ acts base', (∀ a ∈ acts, Action.call a = none) ∧ Dormant base' ∧
      StepRun.run ThreadBase.step { base with pc := c.entry } acts = some base' := by
  obtain ⟨pc, thread, running, flag, workers, clears⟩ := base
  obtain ⟨rfl, hworker⟩ := h
  cases thread with
  | none =>
    cases c with
    | start =>
      refine ⟨[.caller, .caller, .caller], _, by simp [Action.call], ⟨rfl, fun i hi ↦ ?_⟩, rfl⟩
      obtain rfl := Option.some.inj hi
      exact List.getElem?_concat_length
    | stop => exact ⟨[.caller, .caller], _, by simp [Action.call], ⟨rfl, by simp⟩, rfl⟩
  | some i =>
    have hi := hworker i rfl
    cases c with
    | start => exact ⟨[.caller], _, by simp [Action.call], ⟨rfl, hworker⟩, rfl⟩
    | stop =>
      -- the worker exits while `join()` waits
      refine ⟨[.caller, .caller] ++ [.worker i .enter, .worker i (.finish false), .worker i .clear,
        .worker i .exit] ++ [.caller], ⟨.idle, none, false, true, workers.set i .exited, clears⟩,
        by simp [Action.call], ⟨rfl, by simp⟩, ?_⟩
      have hjoin : StepRun.run ThreadBase.step ⟨.stopStore, some i, running, flag, workers, clears⟩
          [.caller, .caller] = some ⟨.join, some i, running, true, workers, clears⟩ := rfl
      have hset : (workers.set i .exited)[i]? = some .exited := by
        obtain ⟨hlt, -⟩ := List.getElem?_eq_some_iff.1 hi
        rw [List.getElem?_set_self hlt]
      refine StepRun.run_append_eq_some_iff.2
        ⟨_, StepRun.run_append_eq_some_iff.2 ⟨_, hjoin, run_worker_eq hi⟩, ?_⟩
      exact StepRun.run_cons_eq_some_iff.2 ⟨_, if_pos hset, rfl⟩

/-- What the threads do during a call they do to the object. -/
theorem run_thread {acts : List ThreadBase.Action} (hacts : ∀ a ∈ acts, a.call = none)
    {base base' : ThreadBase} (h : StepRun.run ThreadBase.step base acts = some base')
    (phase : DestructionPhase) (calls : List Call) :
    StepRun.run (step cls) ⟨base, phase, calls⟩ (acts.map .thread) =
      some ⟨base', phase, calls⟩ := by
  induction acts generalizing base with
  | nil =>
    obtain rfl := Option.some.inj h
    rfl
  | cons a acts ih =>
    obtain ⟨mid, hmid, hrest⟩ := StepRun.run_cons_eq_some_iff.1 h
    have ha := hacts a List.mem_cons_self
    refine StepRun.run_cons_eq_some_iff.2 ⟨⟨mid, phase, calls⟩, ?_,
      ih (fun b hb ↦ hacts b (List.mem_cons_of_mem _ hb)) hrest⟩
    rw [step, if_pos (Or.inl ha), hmid, ha, Option.toList_none, List.append_nil]
    rfl

/-- **Every sequence of calls can be made.** -/
theorem exists_run_calls (cls : DerivedClass) (calls : List Call) :
    ∃ acts base, StepRun.run (step cls) init acts = some ⟨base, .alive, calls⟩ ∧
      Dormant base := by
  induction calls using List.reverseRecOn with
  | nil => exact ⟨[], ThreadBase.init, rfl, rfl, by simp [ThreadBase.init]⟩
  | append_singleton calls c ih =>
    obtain ⟨acts, base, hrun, hdormant⟩ := ih
    obtain ⟨quiet, base', hquiet, hdormant', hcall⟩ := exists_run_call hdormant c
    refine ⟨acts ++ .thread c.action :: quiet.map .thread, base', ?_, hdormant'⟩
    refine StepRun.run_append_eq_some_iff.2 ⟨_, hrun, StepRun.run_cons_eq_some_iff.2
      ⟨_, ?_, run_thread hquiet hcall .alive (calls ++ [c])⟩⟩
    rw [step, if_pos (Or.inr rfl), step_action hdormant.1, Call.call_action]
    rfl

/-- **Every history can end.** -/
theorem exists_run_destroyed (cls : DerivedClass) (calls : List Call) :
    ∃ acts base, StepRun.run (step cls) init acts = some ⟨base, .baseDestructor, calls⟩ := by
  obtain ⟨acts, base, hrun, hdormant⟩ := exists_run_calls cls calls
  cases hbody : cls.destructor with
  | defaulted =>
    refine ⟨acts ++ [.destroy], base, StepRun.run_append_eq_some_iff.2 ⟨_, hrun, ?_⟩⟩
    refine StepRun.run_cons_eq_some_iff.2 ⟨_, ?_, rfl⟩
    rw [step, if_pos ⟨rfl, hdormant.1⟩, hbody]
  | stop =>
    obtain ⟨quiet, base', hquiet, hdormant', hstop⟩ := exists_run_call hdormant .stop
    refine ⟨acts ++ .destroy :: (quiet.map .thread ++ [.leave]), base', ?_⟩
    refine StepRun.run_append_eq_some_iff.2 ⟨_, hrun, StepRun.run_cons_eq_some_iff.2
      ⟨⟨{ base with pc := .stopStore }, .destructor, calls⟩, ?_,
        StepRun.run_append_eq_some_iff.2 ⟨_, run_thread hquiet hstop .destructor calls, ?_⟩⟩⟩
    · rw [step, if_pos ⟨rfl, hdormant.1⟩, hbody]
      exact congrArg (Option.map _) (step_action hdormant.1 .stop)
    · refine StepRun.run_cons_eq_some_iff.2 ⟨_, ?_, rfl⟩
      rw [step, if_pos ⟨rfl, hdormant'.1⟩]

/-- **When the assertion of `~ThreadBase()` holds.** For every class and every sequence of `start()`
and `stop()` calls before the destruction: in every interleaving with the workers the thread is not
joinable when `~ThreadBase()` runs, exactly if the class is not `SignalEngine` or the last call is
not `start()`. -/
theorem not_joinable_iff (cls : DerivedClass) (calls : List Call) :
    (∀ acts o, StepRun.run (step cls) init acts = some o → o.calls = calls →
        o.phase = .baseDestructor → o.base.joinable = false) ↔
      cls ≠ .signalEngine ∨ calls.getLast? ≠ some .start := by
  rw [← DerivedClass.destructor_eq_stop_iff]
  constructor
  · intro hall
    obtain ⟨acts, base, hrun⟩ := exists_run_destroyed cls calls
    have hnot := hall acts _ hrun rfl rfl
    by_contra hcond
    obtain ⟨hbody, hlast⟩ := not_or.1 hcond
    have hdefault : cls.destructor = .defaulted := by
      cases hd : cls.destructor with
      | stop => exact absurd hd hbody
      | defaulted => rfl
    have hjoinable := (joinable_of_run hrun rfl).2 ⟨hdefault, not_not.1 hlast⟩
    exact absurd (hnot.symm.trans hjoinable) Bool.false_ne_true
  · rintro hcond acts o hrun rfl hphase
    refine Bool.eq_false_iff.2 fun hjoinable ↦ ?_
    obtain ⟨hdefault, hlast⟩ := (joinable_of_run hrun hphase).1 hjoinable
    rcases hcond with hbody | hnot
    · rw [hdefault] at hbody
      exact absurd hbody (by decide)
    · exact hnot hlast

/-- **A started signal engine is destroyed with its thread joinable.** -/
theorem started_engine_joinable :
    ¬ ∀ (cls : DerivedClass) (calls : List Call) (acts : List Action) (o : DerivedObject),
        StepRun.run (step cls) init acts = some o → o.calls = calls →
        o.phase = .baseDestructor → o.base.joinable = false := by
  intro hall
  exact absurd (hall .signalEngine [.start]
    [.thread .callStart, .thread .caller, .thread .caller, .thread .caller, .destroy]
    ⟨⟨.idle, some 0, false, false, [.launched], 1⟩, .baseDestructor, [.start]⟩ rfl rfl rfl)
    (by decide)

end DerivedObject

end Mdp
