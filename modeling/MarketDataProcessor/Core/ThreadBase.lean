import MarketDataProcessor.Foundations.StepRun

/-!
# The lifecycle of a pipeline thread

`core/ThreadBase.hpp`: an external thread calls `start()` and `stop()`, a worker runs the body. One
step is one access to shared state: the handle `thread_`, the flag `running_` or the flag
`stop_flag_`. The body itself polls the stop flag, and may return or throw whenever it likes.

Workers are never forgotten: the list keeps those that have exited, so that two at a time can be
told from two in a row. What keeps them apart is the handle. It is tested before a launch, and it is
given up only by a join, which waits for the worker to exit: `Invariant.handle`. The other half of
the invariant is about the stop flag, which is false from a launch on until `stop()` stores to it,
and then true until the join.

## The main theorem, and what it rests on

`lifecycle` collects what the pipeline relies on: at most one worker is in `run()`; a call of
`start()` on a running thread launches nothing; `stop()` returns with no worker left and the handle
given up, whether the body returned or threw; and the stop flag a running body polls is set by
`stop()` alone.

Everything comes from two facts. `Invariant.handle` says that a worker that has not exited is the
one the handle refers to, so two live workers would be one (`Invariant.eq_of_live`), and a thread
without a handle has none (`Invariant.exited_of_none`). And no step clears the stop flag between the
store in `stop()` and the join (`Step.clears_eq`), since only `start()` clears it and the caller is
in `stop()`.

`step_rule` splits the system's steps into rules, and `Invariant.step` goes through them by what
they do to the members: a worker's move, a step of the caller that leaves workers and handle, a
launch, a join. A body is arbitrary: it polls or not, and returns or throws at any of its steps.
-/

namespace Mdp

namespace ThreadBase

/-- Where a worker stands. -/
inductive WorkerPc where
  /-- About to store `true` to `running_`. -/
  | launched
  /-- In `run()`, with what it last read of the stop flag. -/
  | body (polled : Option Bool)
  /-- `run()` has returned or thrown; about to store `false` to `running_`. -/
  | clearing
  /-- About to exit. -/
  | leaving
  | exited
  deriving DecidableEq

/-- What a worker can do. -/
inductive WorkerAct where
  | enter
  /-- `stop_requested()`. -/
  | poll
  /-- `run()` returns, or throws and the exception is swallowed. -/
  | finish (threw : Bool)
  /-- The destructor of the guard. -/
  | clear
  | exit

/-- Where the external thread stands. -/
inductive Pc where
  | idle
  /-- In `start()`, about to test `joinable()`. -/
  | startTest
  /-- About to store `false` to the stop flag. -/
  | startStore
  /-- About to create the worker. -/
  | launch
  /-- In `stop()`, about to store `true` to the stop flag. -/
  | stopStore
  /-- About to test `joinable()`. -/
  | stopTest
  /-- In `join()`. -/
  | join
  deriving DecidableEq

/-- `stop()` has stored to the flag and not yet returned. -/
def Pc.stopping : Pc → Bool
  | stopTest => true
  | join => true
  | _ => false

end ThreadBase

open ThreadBase

/-- The members of a `ThreadBase`, and the threads that use them. -/
structure ThreadBase where
  pc : Pc
  /-- `thread_`: the worker it refers to, if it is joinable. -/
  thread : Option ℕ
  running : Bool
  stopFlag : Bool
  /-- Every worker ever created, in order. -/
  workers : List WorkerPc
  /-- History: how often `false` was stored to the stop flag. -/
  clears : ℕ

namespace ThreadBase

/-- A new object. -/
def init : ThreadBase where
  pc := .idle
  thread := none
  running := false
  stopFlag := false
  workers := []
  clears := 0

/-- `joinable()`. -/
def joinable (s : ThreadBase) : Bool := s.thread.isSome

/-- What can happen. -/
inductive Action where
  /-- The external thread calls `start()`. -/
  | callStart
  /-- The external thread calls `stop()`. -/
  | callStop
  /-- The external thread goes on with the call it is in. -/
  | caller
  | worker (i : ℕ) (act : WorkerAct)

/-- The next step of a call; `join()` waits. -/
def call (s : ThreadBase) : Option ThreadBase :=
  match s.pc with
  | .idle => none
  | .startTest => some { s with pc := if s.joinable then .idle else .startStore }
  | .startStore => some { s with pc := .launch, stopFlag := false, clears := s.clears + 1 }
  | .launch =>
    some { s with
      pc := .idle
      thread := some s.workers.length
      workers := s.workers ++ [.launched] }
  | .stopStore => some { s with pc := .stopTest, stopFlag := true }
  | .stopTest => some { s with pc := if s.joinable then .join else .idle }
  | .join =>
    if s.thread.bind (s.workers[·]?) = some .exited then some { s with pc := .idle, thread := none }
    else none

/-- A step of worker `i`, which stands at `pc`. -/
def work (s : ThreadBase) (i : ℕ) : WorkerPc → WorkerAct → Option ThreadBase
  | .launched, .enter =>
    some { s with running := true, workers := s.workers.set i (.body none) }
  | .body _, .poll => some { s with workers := s.workers.set i (.body (some s.stopFlag)) }
  | .body _, .finish _ => some { s with workers := s.workers.set i .clearing }
  | .clearing, .clear => some { s with running := false, workers := s.workers.set i .leaving }
  | .leaving, .exit => some { s with workers := s.workers.set i .exited }
  | _, _ => none

/-- One step of the system. -/
def step (s : ThreadBase) : Action → Option ThreadBase
  | .callStart => if s.pc = .idle then some { s with pc := .startTest } else none
  | .callStop => if s.pc = .idle then some { s with pc := .stopStore } else none
  | .caller => s.call
  | .worker i act => s.workers[i]?.bind fun pc ↦ s.work i pc act

/-! ### The rules -/

/-- A worker between its two stores to `running_`. -/
def WorkerPc.inRun : WorkerPc → Bool
  | body _ => true
  | clearing => true
  | _ => false

/-- **The rules of the system.** A worker's step moves the worker and may store to `running_`. -/
inductive Step (s : ThreadBase) : Action → ThreadBase → Prop
  | callStart : s.pc = .idle → Step s .callStart { s with pc := .startTest }
  | callStop : s.pc = .idle → Step s .callStop { s with pc := .stopStore }
  | startRefused : s.pc = .startTest → s.thread.isSome = true →
    Step s .caller { s with pc := .idle }
  | startGranted : s.pc = .startTest → s.thread = none → Step s .caller { s with pc := .startStore }
  | startStore : s.pc = .startStore →
    Step s .caller { s with pc := .launch, stopFlag := false, clears := s.clears + 1 }
  | launch : s.pc = .launch →
    Step s .caller { s with
      pc := .idle
      thread := some s.workers.length
      workers := s.workers ++ [.launched] }
  | stopStore : s.pc = .stopStore → Step s .caller { s with pc := .stopTest, stopFlag := true }
  | stopJoin : s.pc = .stopTest → s.thread.isSome = true → Step s .caller { s with pc := .join }
  | stopReturn : s.pc = .stopTest → s.thread = none → Step s .caller { s with pc := .idle }
  | joined (i : ℕ) : s.pc = .join → s.thread = some i → s.workers[i]? = some .exited →
    Step s .caller { s with pc := .idle, thread := none }
  | work (i : ℕ) (act : WorkerAct) (w w' : WorkerPc) (r : Bool) : s.workers[i]? = some w →
    w ≠ .exited → (r = true → w'.inRun = true ∨ s.running = true ∧ w.inRun = false) →
    (w' = .body (some true) → s.stopFlag = true) →
    Step s (.worker i act) { s with running := r, workers := s.workers.set i w' }

variable {s t : ThreadBase} {i j : ℕ} {w w' : WorkerPc}

theorem work_rule {act : WorkerAct} (hi : s.workers[i]? = some w) (h : s.work i w act = some t) :
    Step s (.worker i act) t := by
  unfold work at h
  split at h
  · obtain rfl := Option.some.inj h
    exact .work i _ _ (.body none) true hi (by simp) (fun _ ↦ Or.inl rfl) (by simp)
  · obtain rfl := Option.some.inj h
    exact .work i _ _ (.body (some s.stopFlag)) s.running hi (by simp) (fun _ ↦ Or.inl rfl)
      (by simp)
  · obtain rfl := Option.some.inj h
    exact .work i _ _ .clearing s.running hi (by simp) (fun _ ↦ Or.inl rfl) (by simp)
  · obtain rfl := Option.some.inj h
    exact .work i _ _ .leaving false hi (by simp) (by simp) (by simp)
  · obtain rfl := Option.some.inj h
    exact .work i _ _ .exited s.running hi (by simp) (fun hr ↦ Or.inr ⟨hr, rfl⟩) (by simp)
  · simp at h

theorem call_rule (h : s.call = some t) : Step s .caller t := by
  unfold call at h
  split at h
  next hpc => simp at h
  next hpc =>
    obtain rfl := Option.some.inj h
    split_ifs with hjoinable
    · exact .startRefused hpc hjoinable
    · exact .startGranted hpc (by simpa [joinable] using hjoinable)
  next hpc =>
    obtain rfl := Option.some.inj h
    exact .startStore hpc
  next hpc =>
    obtain rfl := Option.some.inj h
    exact .launch hpc
  next hpc =>
    obtain rfl := Option.some.inj h
    exact .stopStore hpc
  next hpc =>
    obtain rfl := Option.some.inj h
    split_ifs with hjoinable
    · exact .stopJoin hpc hjoinable
    · exact .stopReturn hpc (by simpa [joinable] using hjoinable)
  next hpc =>
    split_ifs at h with hexited
    obtain rfl := Option.some.inj h
    obtain ⟨i, hi, hworker⟩ := Option.bind_eq_some_iff.1 hexited
    exact .joined i hpc hi hworker

/-- **Every step is by a rule.** -/
theorem step_rule {a : Action} (h : s.step a = some t) : Step s a t := by
  cases a with
  | callStart =>
    rw [step] at h
    split_ifs at h with hpc
    obtain rfl := Option.some.inj h
    exact .callStart hpc
  | callStop =>
    rw [step] at h
    split_ifs at h with hpc
    obtain rfl := Option.some.inj h
    exact .callStop hpc
  | caller => exact call_rule h
  | worker i act =>
    obtain ⟨w, hi, hwork⟩ := Option.bind_eq_some_iff.1 h
    exact work_rule hi hwork

/-! ### What holds in every reachable state -/

/-- The invariant. -/
structure Invariant (s : ThreadBase) : Prop where
  /-- A worker that has not exited is the one the handle refers to. -/
  handle : ∀ (i : ℕ) (w : WorkerPc), s.workers[i]? = some w → w ≠ .exited → s.thread = some i
  /-- The handle refers to a worker. -/
  bound : ∀ i, s.thread = some i → i < s.workers.length
  /-- `running_` is set by a worker that will clear it. -/
  running : s.running = true → ∃ (i : ℕ) (w : WorkerPc), s.workers[i]? = some w ∧ w.inRun = true
  /-- Past the test in `start()` there is no handle. -/
  starting : s.pc = .startStore ∨ s.pc = .launch → s.thread = none
  /-- Past the test in `stop()` there is one. -/
  joining : s.pc = .join → s.thread.isSome = true
  /-- The flag a worker is launched with. -/
  cleared : s.pc = .launch ∨ s.thread.isSome = true → s.pc.stopping = false → s.stopFlag = false
  /-- A stop request stands until the join. -/
  requested : s.pc.stopping = true → s.stopFlag = true
  /-- A worker has seen the flag set only if `stop()` is waiting for it. -/
  polled : ∀ i : ℕ, s.workers[i]? = some (WorkerPc.body (some true)) → s.pc.stopping = true

theorem invariant_init : init.Invariant where
  handle := by simp [init]
  bound := by simp [init]
  running := by simp [init]
  starting := by simp [init]
  joining := by simp [init]
  cleared := by simp [init]
  requested := by simp [init, Pc.stopping]
  polled := by simp [init]

/-- **No two workers live.** -/
theorem Invariant.eq_of_live (h : s.Invariant) (hi : s.workers[i]? = some w) (hw : w ≠ .exited)
    (hj : s.workers[j]? = some w') (hw' : w' ≠ .exited) : i = j :=
  Option.some.inj ((h.handle i w hi hw).symm.trans (h.handle j w' hj hw'))

/-- **Without a handle all workers have exited.** -/
theorem Invariant.exited_of_none (h : s.Invariant) (hnone : s.thread = none)
    (hi : s.workers[i]? = some w) : w = .exited := by
  by_contra hw
  rw [h.handle i w hi hw] at hnone
  simp at hnone

theorem Invariant.running_eq_false (h : s.Invariant) (hnone : s.thread = none) :
    s.running = false := by
  by_contra hrunning
  obtain ⟨i, w, hi, hin⟩ := h.running (by simpa using hrunning)
  rw [h.exited_of_none hnone hi] at hin
  simp [WorkerPc.inRun] at hin

/-- The workers after worker `i` moved. -/
theorem getElem?_set (hi : s.workers[i]? = some w) (w' : WorkerPc) (j : ℕ) :
    (s.workers.set i w')[j]? = if i = j then some w' else s.workers[j]? := by
  obtain ⟨hlt, -⟩ := List.getElem?_eq_some_iff.1 hi
  rw [List.getElem?_set, if_pos hlt]

/-- **A worker's move keeps the invariant** if it leaves `running_` to itself or to another, and
reads the stop flag as it is. -/
theorem Invariant.move (h : s.Invariant) (hi : s.workers[i]? = some w) (hw : w ≠ .exited)
    {r : Bool} (hrunning : r = true → w'.inRun = true ∨ s.running = true ∧ w.inRun = false)
    (hpolled : w' = .body (some true) → s.stopFlag = true) :
    ({ s with running := r, workers := s.workers.set i w' } : ThreadBase).Invariant := by
  have hthread := h.handle i w hi hw
  have hset := getElem?_set hi w'
  refine ⟨?_, ?_, ?_, h.starting, h.joining, h.cleared, h.requested, ?_⟩
  · intro j x hj hx
    rw [hset] at hj
    split_ifs at hj with hij
    · exact hij ▸ hthread
    · exact h.handle j x hj hx
  · intro j hj
    rw [List.length_set]
    exact h.bound j hj
  · intro hr
    rcases hrunning hr with hin | ⟨hbefore, hout⟩
    · exact ⟨i, w', by rw [hset, if_pos rfl], hin⟩
    · obtain ⟨j, x, hj, hin⟩ := h.running hbefore
      refine ⟨j, x, ?_, hin⟩
      rw [hset, if_neg]
      · exact hj
      · rintro rfl
        obtain rfl : w = x := Option.some.inj (hi.symm.trans hj)
        rw [hout] at hin
        simp at hin
  · intro j hj
    rw [hset] at hj
    split_ifs at hj
    · -- the flag is set, so `stop()` has been called and has not joined
      have hflag := hpolled (Option.some.inj hj)
      by_contra hstopping
      rw [h.cleared (Or.inr (by rw [hthread]; rfl)) (by simpa using hstopping)] at hflag
      simp at hflag
    · exact h.polled j hj

/-- A step of the external thread that leaves the workers and the handle. -/
theorem Invariant.withPc (h : s.Invariant) (pc : Pc) (flag : Bool) (n : ℕ)
    (hstarting : pc = .startStore ∨ pc = .launch → s.thread = none)
    (hjoining : pc = .join → s.thread.isSome = true)
    (hcleared : pc = .launch ∨ s.thread.isSome = true → pc.stopping = false → flag = false)
    (hrequested : pc.stopping = true → flag = true)
    (hpolled : s.pc.stopping = true → pc.stopping = true ∨ s.thread = none) :
    ({ s with pc := pc, stopFlag := flag, clears := n } : ThreadBase).Invariant := by
  refine ⟨h.handle, h.bound, h.running, hstarting, hjoining, hcleared, hrequested, fun i hi ↦ ?_⟩
  rcases hpolled (h.polled i hi) with hstopping | hnone
  · exact hstopping
  · exact absurd (h.exited_of_none hnone hi) (by simp)

/-- **A launch keeps the invariant.** -/
theorem Invariant.launch (h : s.Invariant) (hpc : s.pc = .launch) :
    ({ s with
      pc := .idle
      thread := some s.workers.length
      workers := s.workers ++ [.launched] } : ThreadBase).Invariant := by
  have hnone := h.starting (Or.inr hpc)
  have hflag := h.cleared (Or.inl hpc) (by rw [hpc]; rfl)
  -- every worker so far has exited, so the new one is the only one that lives
  have hold : ∀ (i : ℕ) (w : WorkerPc), (s.workers ++ [.launched])[i]? = some w → w ≠ .exited →
      i = s.workers.length ∧ w = .launched := by
    intro i w hi hw
    rw [List.getElem?_append] at hi
    split_ifs at hi with hlt
    · exact absurd (h.exited_of_none hnone hi) hw
    · rw [List.getElem?_singleton] at hi
      split_ifs at hi with hzero
      exact ⟨by omega, (Option.some.inj hi).symm⟩
  refine ⟨?_, ?_, ?_, by simp, by simp, fun _ _ ↦ hflag, by simp [Pc.stopping], ?_⟩
  · intro i w hi hw
    rw [(hold i w hi hw).1]
  · intro i hi
    obtain rfl := Option.some.inj hi
    simp
  · intro hrunning
    rw [h.running_eq_false hnone] at hrunning
    simp at hrunning
  · intro i hi
    exact absurd (hold i _ hi (by simp)).2 (by simp)

/-- **A join keeps the invariant.** -/
theorem Invariant.join (h : s.Invariant) (hthread : s.thread = some i)
    (hexited : s.workers[i]? = some .exited) :
    ({ s with pc := .idle, thread := none } : ThreadBase).Invariant := by
  -- the worker the handle refers to has exited, and no other lives
  have hall : ∀ (j : ℕ) (w : WorkerPc), s.workers[j]? = some w → w = .exited := by
    intro j w hj
    by_contra hw
    have hji : j = i := Option.some.inj ((h.handle j w hj hw).symm.trans hthread)
    rw [hji, hexited] at hj
    exact hw (Option.some.inj hj).symm
  refine ⟨fun j w hj hw ↦ absurd (hall j w hj) hw, by simp, ?_, by simp, by simp, by simp,
    by simp [Pc.stopping], fun j hj ↦ absurd (hall j _ hj) (by simp)⟩
  intro hrunning
  obtain ⟨j, w, hj, hin⟩ := h.running hrunning
  rw [hall j w hj] at hin
  simp [WorkerPc.inRun] at hin

/-- **Every rule keeps the invariant.** -/
theorem Invariant.step {a : Action} (h : s.Invariant) (hstep : Step s a t) : t.Invariant := by
  cases hstep with
  | callStart hpc =>
    have hflag : s.thread.isSome = true → s.stopFlag = false := fun hsome ↦
      h.cleared (Or.inr hsome) (by rw [hpc]; rfl)
    exact h.withPc .startTest s.stopFlag s.clears (by simp) (by simp)
      (by simpa [Pc.stopping] using hflag) (by simp [Pc.stopping]) (by simp [hpc, Pc.stopping])
  | callStop hpc =>
    have hflag : s.thread.isSome = true → s.stopFlag = false := fun hsome ↦
      h.cleared (Or.inr hsome) (by rw [hpc]; rfl)
    exact h.withPc .stopStore s.stopFlag s.clears (by simp) (by simp)
      (by simpa [Pc.stopping] using hflag) (by simp [Pc.stopping]) (by simp [hpc, Pc.stopping])
  | startRefused hpc hsome =>
    have hflag := h.cleared (Or.inr hsome) (by rw [hpc]; rfl)
    exact h.withPc .idle s.stopFlag s.clears (by simp) (by simp) (fun _ _ ↦ hflag)
      (by simp [Pc.stopping]) (by simp [hpc, Pc.stopping])
  | startGranted hpc hnone =>
    exact h.withPc .startStore s.stopFlag s.clears (fun _ ↦ hnone) (by simp) (by simp [hnone])
      (by simp [Pc.stopping]) (by simp [hpc, Pc.stopping])
  | startStore hpc =>
    exact h.withPc .launch false (s.clears + 1) (fun _ ↦ h.starting (Or.inl hpc)) (by simp)
      (fun _ _ ↦ rfl) (by simp [Pc.stopping]) (by simp [hpc, Pc.stopping])
  | launch hpc => exact h.launch hpc
  | stopStore hpc =>
    exact h.withPc .stopTest true s.clears (by simp) (by simp) (by simp [Pc.stopping])
      (fun _ ↦ rfl) (by simp [hpc, Pc.stopping])
  | stopJoin hpc hsome =>
    exact h.withPc .join s.stopFlag s.clears (by simp) (fun _ ↦ hsome) (by simp [Pc.stopping])
      (fun _ ↦ h.requested (by rw [hpc]; rfl)) (fun _ ↦ Or.inl rfl)
  | stopReturn hpc hnone =>
    exact h.withPc .idle s.stopFlag s.clears (by simp) (by simp) (by simp [hnone])
      (by simp [Pc.stopping]) (fun _ ↦ Or.inr hnone)
  | joined i hpc hthread hexited => exact h.join hthread hexited
  | work i act w w' r hi hw hrunning hpolled => exact h.move hi hw hrunning hpolled

theorem invariant_of_run {acts : List Action} (h : StepRun.run step init acts = some s) :
    s.Invariant :=
  StepRun.run_invariant (fun _ _ _ hinv hstep ↦ hinv.step (step_rule hstep)) invariant_init h

/-! ### The lifecycle -/

/-- **Without a handle no worker exists** that could make a step. -/
theorem Invariant.step_worker_eq_none (h : s.Invariant) (hnone : s.thread = none) (i : ℕ)
    (act : WorkerAct) : s.step (.worker i act) = none := by
  rw [ThreadBase.step, Option.bind_eq_none_iff]
  intro w hi
  rw [h.exited_of_none hnone hi]
  rfl

/-- While `stop()` waits, no step stores `false` to the flag. -/
theorem Step.clears_eq {a : Action} (hstep : Step s a t) (hstopping : s.pc.stopping = true) :
    t.clears = s.clears ∧ t.stopFlag = s.stopFlag := by
  cases hstep with
  | startStore hpc => simp [hpc, Pc.stopping] at hstopping
  | stopStore hpc => simp [hpc, Pc.stopping] at hstopping
  | _ => exact ⟨rfl, rfl⟩

/-- `stop()` returns without a handle. -/
theorem Step.thread_eq_none {a : Action} (hstep : Step s a t) (hstopping : s.pc.stopping = true)
    (hreturned : t.pc.stopping = false) : t.pc = .idle ∧ t.thread = none := by
  cases hstep with
  | stopReturn _ hnone => exact ⟨rfl, hnone⟩
  | joined => exact ⟨rfl, rfl⟩
  | work => exact absurd (hstopping.symm.trans hreturned) (by simp)
  | callStart hpc => simp [hpc, Pc.stopping] at hstopping
  | callStop hpc => simp [hpc, Pc.stopping] at hstopping
  | startRefused hpc => simp [hpc, Pc.stopping] at hstopping
  | startGranted hpc => simp [hpc, Pc.stopping] at hstopping
  | startStore hpc => simp [hpc, Pc.stopping] at hstopping
  | launch hpc => simp [hpc, Pc.stopping] at hstopping
  | stopStore hpc => simp [hpc, Pc.stopping] at hstopping
  | stopJoin => simp [Pc.stopping] at hreturned

/-- **The lifecycle of a thread.** In every state reached by calls of `start()` and `stop()` and any
interleaving with the workers: at most one worker is in `run()`; while `stop()` waits, the flag is
set, and no step clears it; where `stop()` returns, no worker is left, and the thread is neither
joinable nor running; without a handle no worker can move, and `start()` launches one and clears the
flag; from then on until the next stop request the flag is clear, and no worker has seen it set; and
with a handle `start()` does nothing. -/
theorem lifecycle {acts : List Action} (hrun : StepRun.run step init acts = some s) :
    (∀ (i j : ℕ) (a b : Option Bool), s.workers[i]? = some (WorkerPc.body a) →
        s.workers[j]? = some (WorkerPc.body b) → i = j) ∧
      (s.pc.stopping = true → s.stopFlag = true ∧ ∀ a t, s.step a = some t →
        t.clears = s.clears ∧ t.stopFlag = true ∧
          (t.pc.stopping = false → t.pc = .idle ∧ (∀ w ∈ t.workers, w = .exited) ∧
            t.joinable = false ∧ t.running = false)) ∧
      (s.joinable = false → (∀ i act, s.step (.worker i act) = none) ∧
        (s.pc = .idle → StepRun.run step s [.callStart, .caller, .caller, .caller] = some { s with
          thread := some s.workers.length
          stopFlag := false
          workers := s.workers ++ [.launched]
          clears := s.clears + 1 })) ∧
      (s.joinable = true → s.pc.stopping = false → s.stopFlag = false ∧
        ∀ i : ℕ, s.workers[i]? ≠ some (WorkerPc.body (some true))) ∧
      (s.joinable = true →
        (s.pc = .idle → s.step .callStart = some { s with pc := .startTest }) ∧
          (s.pc = .startTest → s.step .caller = some { s with pc := .idle })) := by
  have hinv := invariant_of_run hrun
  refine ⟨?_, ?_, ?_, ?_, ?_⟩
  · intro i j a b hi hj
    exact hinv.eq_of_live hi (by simp) hj (by simp)
  · intro hstopping
    refine ⟨hinv.requested hstopping, fun a t hstep ↦ ?_⟩
    have hrule := step_rule hstep
    obtain ⟨hclears, hflag⟩ := hrule.clears_eq hstopping
    refine ⟨hclears, hflag.trans (hinv.requested hstopping), fun hreturned ↦ ?_⟩
    obtain ⟨hpc, hnone⟩ := hrule.thread_eq_none hstopping hreturned
    have hinv' := hinv.step hrule
    refine ⟨hpc, fun w hw ↦ ?_, by rw [joinable, hnone]; rfl, hinv'.running_eq_false hnone⟩
    obtain ⟨i, hi⟩ := List.mem_iff_getElem?.1 hw
    exact hinv'.exited_of_none hnone hi
  · intro hjoinable
    have hnone : s.thread = none := by simpa [joinable] using hjoinable
    refine ⟨hinv.step_worker_eq_none hnone, fun hpc ↦ ?_⟩
    simp [StepRun.run, step, call, hpc, joinable, hnone]
  · intro hjoinable hstopping
    refine ⟨hinv.cleared (Or.inr hjoinable) hstopping, fun i hi ↦ ?_⟩
    rw [hinv.polled i hi] at hstopping
    simp at hstopping
  · intro hjoinable
    exact ⟨fun hpc ↦ by rw [step, if_pos hpc], fun hpc ↦ by simp [step, call, hpc, hjoinable]⟩

/-- A worker that throws while `stop()` waits for it, and a second start. -/
theorem lifecycle_throwing_worker :
    let acts : List Action := [.callStart, .caller, .caller, .caller, .worker 0 .enter,
      .worker 0 .poll, .callStop, .caller, .caller, .worker 0 .poll, .worker 0 (.finish true),
      .worker 0 .clear, .worker 0 .exit, .caller]
    ∃ s, StepRun.run step init acts = some s ∧ s.workers = [.exited] ∧
      ∃ t, StepRun.run step s [.callStart, .caller, .caller, .caller] = some t ∧
        t.workers = [.exited, .launched] := by
  intro acts
  obtain ⟨s, hrun, hend⟩ := Option.map_eq_some_iff.1 (by decide :
    (StepRun.run step init acts).map (fun s ↦ (s.joinable, s.pc, s.workers)) =
      some (false, .idle, [.exited]))
  simp only [Prod.mk.injEq] at hend
  obtain ⟨hjoinable, hpc, hworkers⟩ := hend
  obtain ⟨-, -, hstart, -⟩ := lifecycle hrun
  refine ⟨s, hrun, hworkers, _, (hstart hjoinable).2 hpc, ?_⟩
  rw [hworkers]
  rfl

end ThreadBase

end Mdp
