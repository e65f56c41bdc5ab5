import MarketDataProcessor.Feed.ReaderThread
import MarketDataProcessor.Tools.ClosedLoop

/-!
# The service and the thread that feeds it

In `ProcessorMain` the feed returns from `run` in one step, and in `ClosedLoop` the reader makes its
steps without the loops around them. Here the feed is the thread of `ReaderThread`, with its program
counter, its exception handlers and its sleeps; it looks at the flag that `main` sets, and `main`
joins it when it has returned.

## Two levels

`loop` forgets the program counter, and what is left goes through a run of `ClosedLoop`
(`Inv.loopRun`): the thread tests its flag between two rounds before it returns, so the one step
`simExit` of the coarser model is the last of the thread's. Whatever is known of the closed loop,
and through it of the service, holds with the thread.

## How long `main` waits

The coarser model counts one step for a feed that is asked to stop. `remaining` puts back what that
leaves out, at most 55 steps more: a row read is handed on, and fifty may be waiting in a batch.
With that every step counts down (`Inv.remaining_add_le`), and `main_returns` follows as
`Service.shutdown_completes` did.
-/

namespace Mdp

open PostgresFeedReader (Row Database ReaderThread Outcome ThreadPc)

/-- The threads of the service and the thread of its feed. -/
structure FedService where
  service : Service
  thread : ReaderThread

namespace PostgresFeedReader.ReaderThread

variable {db : Database} {clock : ℕ → ℤ} {symbols : List (List UInt8)} {s t : ReaderThread}
  {outcome : Outcome}

/-- The thread's steps are moves of the closed loop; it gives up a round on a stop request only. -/
theorem Rule.reader_cases (hrule : Rule db clock symbols outcome s t) :
    t.reader = s.reader ∨ ∃ move, ClosedLoop.readerMoves s.stop move = true ∧
      PostgresFeedReader.step db clock symbols s.reader move = some t.reader := by
  cases hrule with
  | startRound _ _ hmove => exact Or.inr ⟨_, rfl, hmove⟩
  | quit _ hstop hmove => exact Or.inr ⟨.quit, hstop, hmove⟩
  | query _ _ hmove => exact Or.inr ⟨_, rfl, hmove⟩
  | row _ _ hmove => exact Or.inr ⟨_, rfl, hmove⟩
  | nextSymbol _ _ hmove => exact Or.inr ⟨_, rfl, hmove⟩
  | reconnect _ _ hmove => exact Or.inr ⟨_, rfl, hmove⟩
  | queryError _ _ hmove => exact Or.inr ⟨_, rfl, hmove⟩
  | _ => exact Or.inl rfl

/-- A thread that has returned does nothing. -/
theorem eq_of_exited (hpc : s.pc = .exited)
    (hstep : s.threadStep db clock symbols outcome = some t) : t = s := by
  unfold threadStep at hstep
  rw [hpc] at hstep
  exact (Option.some.inj hstep).symm

/-- **How the thread comes to have returned**: it had, or it finds its stop flag set. -/
theorem Rule.exited_cases (hrule : Rule db clock symbols outcome s t) (hexit : t.pc = .exited) :
    t = s ∨ s.pc = .outerTest ∧ s.stop = true ∧ t = { s with pc := .exited } := by
  cases hrule with
  | leave hpc hstop => exact Or.inr ⟨hpc, hstop, rfl⟩
  | stay => exact Or.inl rfl
  | _ => cases hexit

theorem Rule.stop_eq (hrule : Rule db clock symbols outcome s t) : t.stop = s.stop := by
  cases hrule <;> rfl

end PostgresFeedReader.ReaderThread

namespace FedService

/-- What can happen next. -/
inductive Action where
  /-- The ingestion worker, or whoever else, inserts a row. -/
  | ingest (row : Row)
  /-- A step of the feed's thread, and how the call it makes ends. -/
  | feed (outcome : Outcome)
  /-- The other threads, and `main`. -/
  | service (move : Service.Action)

/-- The step that stands for the feed in `Service`. -/
def isSimExit : Service.Action → Bool
  | .simExit => true
  | _ => false

/-- Whether an action is a step of the feed's thread. -/
def Action.isFeed : Action → Bool
  | .feed _ => true
  | _ => false

/-- The service and the reader, without the loops around it. -/
def loop (s : FedService) : ClosedLoop := ⟨s.service, s.thread.reader⟩

/-- The thread stands where it stood, with the flag `main` has set. -/
def around (s : FedService) (loop : ClosedLoop) : FedService where
  service := loop.service
  thread := { s.thread with reader := loop.reader, stop := loop.service.main.flag .sim }

variable (fl : FloatEnv) (overflow : Double → ℤ) (period : Period) (db : Database) (clock : ℕ → ℤ)
  (symbols tickers : List (List UInt8)) (columns : Columns)

/-- All threads started. -/
def init (table : List Row) : FedService where
  service := Service.init fl period
  thread := ReaderThread.init table BoundedQueue.empty

/-- One action. -/
def step (s : FedService) : Action → Option FedService
  | .ingest row =>
    (s.loop.step fl overflow db clock symbols tickers columns (.ingest row)).map s.around
  | .feed outcome =>
    (s.thread.threadStep db clock symbols outcome).map fun thread ↦
      { service := { s.service.withRaw thread.reader.output with
          simExited := decide (thread.pc = .exited) }
        thread }
  | .service move =>
    if isSimExit move = true then none
    else (s.loop.step fl overflow db clock symbols tickers columns (.service move)).map s.around

/-- The invariant: without its loops the thread goes through a run of the closed loop, and `main`
knows of it what is so. -/
structure Inv (table : List Row) (s : FedService) : Prop where
  loopRun : ∃ acts, StepRun.run
    (ClosedLoop.step fl overflow db clock symbols tickers columns)
    (ClosedLoop.init fl period table) acts = some s.loop
  placed : s.thread.Placed
  stop : s.thread.stop = s.service.main.flag .sim
  exited : s.service.simExited = decide (s.thread.pc = .exited)

variable {fl overflow period db clock symbols tickers columns} {s t : FedService} {a : Action}
  {table : List Row}

theorem inv_init :
    (init fl period table).Inv fl overflow period db clock symbols tickers columns table :=
  ⟨⟨[], rfl⟩, ReaderThread.placed_init _ _, rfl, rfl⟩

/-! ### A step of the thread -/

theorem Inv.linked (h : s.Inv fl overflow period db clock symbols tickers columns table) :
    s.loop.Linked fl overflow period db clock symbols tickers table := by
  obtain ⟨acts, hacts⟩ := h.loopRun
  exact ClosedLoop.linked_of_run hacts

theorem Inv.control (h : s.Inv fl overflow period db clock symbols tickers columns table) :
    s.service.Control := by
  obtain ⟨acts, hacts⟩ := h.linked.serviceRun
  exact Service.control_of_run hacts

theorem withRaw_self (service : Service) : service.withRaw service.path.raw = service := by
  simp only [Service.withRaw, List.drop_length, List.append_nil]

/-- **What a step of the thread is to the closed loop**: nothing, a step of the reader, or the
return of the feed. -/
theorem Inv.feed_cases (h : s.Inv fl overflow period db clock symbols tickers columns table)
    {outcome : Outcome}
    (hstep : s.step fl overflow db clock symbols tickers columns (.feed outcome) = some t) :
    ReaderThread.Rule db clock symbols outcome s.thread t.thread ∧
      t.service.main = s.service.main ∧
      t.service.simExited = decide (t.thread.pc = .exited) ∧
      (t.loop = s.loop ∨
        (s.service.simExited = false ∧ t.service.simExited = false ∧
          ∃ move, s.loop.step fl overflow db clock symbols tickers columns (.reader move) =
            some t.loop) ∨
        s.service.step fl overflow .simExit = some t.service ∧
          s.loop.step fl overflow db clock symbols tickers columns (.service .simExit) =
            some t.loop) := by
  obtain ⟨thread, hthread, rfl⟩ := Option.map_eq_some_iff.1 hstep
  have hrule := ReaderThread.rule_of_threadStep hthread
  have hraw : s.service.withRaw s.thread.reader.output = s.service := by
    rw [show s.thread.reader.output = s.service.path.raw from h.linked.raw, withRaw_self]
  refine ⟨hrule, rfl, rfl, ?_⟩
  by_cases hexit : thread.pc = .exited
  · rcases hrule.exited_cases hexit with rfl | ⟨hpc, hstop, rfl⟩
    · -- it had returned before
      left
      show (⟨{ s.service.withRaw s.thread.reader.output with simExited := _ }, _⟩ : ClosedLoop) = _
      rw [hraw, ← h.exited]
      rfl
    · right; right
      have hflag : s.service.main.flag .sim = true := h.stop ▸ hstop
      have hmoves : ClosedLoop.serviceMoves s.loop.reader .simExit = true :=
        decide_eq_true ⟨h.placed.round (by simp [hpc]) (by simp [hpc]),
          h.placed.batch (by simp [hpc])⟩
      have hservice : s.service.step fl overflow .simExit =
          some { s.service.withRaw s.thread.reader.output with simExited := true } := by
        rw [Service.step, if_pos hflag, hraw]
      refine ⟨hservice, ?_⟩
      rw [ClosedLoop.step, if_pos hmoves]
      refine Option.map_eq_some_iff.2 ⟨_, hservice, ?_⟩
      -- the others neither pop nor insert at this step
      simp only [ClosedLoop.readerAfter, loop, hraw, List.drop_length, inserted,
        List.flatMap_nil, Columns.insertAll, List.foldl_nil]
      rw [← show s.thread.reader.output = s.service.path.raw from h.linked.raw]
      rfl
  · have hrunning : s.service.simExited = false := by
      rw [h.exited, decide_eq_false_iff_not]
      intro hpc
      exact hexit (ReaderThread.eq_of_exited hpc hthread ▸ hpc)
    have hsame : decide (thread.pc = .exited) = s.service.simExited := by
      rw [hrunning, decide_eq_false hexit]
    rcases hrule.reader_cases with hreader | ⟨move, hmove, hreader⟩
    · left
      show (⟨{ s.service.withRaw thread.reader.output with simExited := _ }, _⟩ : ClosedLoop) = _
      rw [hreader, hraw, hsame]
      rfl
    · right; left
      refine ⟨hrunning, decide_eq_false hexit, move, ?_⟩
      rw [ClosedLoop.step, if_pos ⟨hrunning, h.stop ▸ hmove⟩]
      refine Option.map_eq_some_iff.2 ⟨_, hreader, ?_⟩
      show (⟨s.service.withRaw thread.reader.output, thread.reader⟩ : ClosedLoop) =
        ⟨{ s.service.withRaw thread.reader.output with simExited := _ }, thread.reader⟩
      rw [hsame]
      rfl

/-! ### A step of the others -/

/-- **The others leave the thread where it stands.** -/
theorem frame_of_around {loop : ClosedLoop} {move : ClosedLoop.Action}
    (hmove : ∀ m, move ≠ .reader m)
    (hstep : s.loop.step fl overflow db clock symbols tickers columns move = some loop) :
    (s.around loop).loop = loop ∧ loop.reader.pending = s.thread.reader.pending ∧
      loop.reader.batch = s.thread.reader.batch := by
  refine ⟨rfl, ?_⟩
  cases move with
  | ingest row =>
    simp only [ClosedLoop.step] at hstep
    split_ifs at hstep
    obtain ⟨reader, hreader, rfl⟩ := Option.map_eq_some_iff.1 hstep
    obtain ⟨-, rfl⟩ := PostgresFeedReader.step_insert_eq_some hreader
    exact ⟨rfl, rfl⟩
  | reader m => exact absurd rfl (hmove m)
  | service m =>
    simp only [ClosedLoop.step] at hstep
    split_ifs at hstep
    obtain ⟨service, -, rfl⟩ := Option.map_eq_some_iff.1 hstep
    exact ⟨rfl, rfl⟩

/-- What the others do to the service: `main` and the stages move on, and the feed does not. -/
theorem service_of_step (hother : ∀ outcome, a ≠ .feed outcome)
    (hstep : s.step fl overflow db clock symbols tickers columns a = some t) :
    (∃ move, (∀ m, move ≠ .reader m) ∧
        s.loop.step fl overflow db clock symbols tickers columns move = some t.loop ∧
        t = s.around t.loop) ∧
      t.service.simExited = s.service.simExited ∧
      (t.service = s.service ∧ (∀ move, a ≠ .service move) ∨
        ∃ move, a = .service move ∧ s.service.step fl overflow move = some t.service) := by
  cases a with
  | ingest row =>
    obtain ⟨loop, hloop, rfl⟩ := Option.map_eq_some_iff.1 hstep
    have hsame : loop.service = s.service := by
      simp only [ClosedLoop.step] at hloop
      split_ifs at hloop
      obtain ⟨reader, -, rfl⟩ := Option.map_eq_some_iff.1 hloop
      rfl
    exact ⟨⟨_, by simp, hloop, rfl⟩, congrArg _ hsame, Or.inl ⟨hsame, by simp⟩⟩
  | feed outcome => exact absurd rfl (hother outcome)
  | service move =>
    simp only [step] at hstep
    split_ifs at hstep with hexit
    obtain ⟨loop, hloop, rfl⟩ := Option.map_eq_some_iff.1 hstep
    have hservice : s.service.step fl overflow move = some loop.service := by
      simp only [ClosedLoop.step] at hloop
      split_ifs at hloop
      obtain ⟨service, hservice, rfl⟩ := Option.map_eq_some_iff.1 hloop
      exact hservice
    refine ⟨⟨_, by simp, hloop, rfl⟩, ?_, Or.inr ⟨move, rfl, hservice⟩⟩
    have hrule := Service.rule_of_step hservice
    show loop.service.simExited = s.service.simExited
    generalize loop.service = service at hrule ⊢
    cases hrule with
    | simExit => exact absurd rfl hexit
    | _ => rfl

/-- The flag of the feed is never taken back. -/
theorem flag_of_step (hother : ∀ outcome, a ≠ .feed outcome)
    (hstep : s.step fl overflow db clock symbols tickers columns a = some t)
    (hflag : s.service.main.flag .sim = true) : t.service.main.flag .sim = true := by
  obtain ⟨-, -, ⟨hsame, -⟩ | ⟨move, -, hservice⟩⟩ := service_of_step hother hstep
  · rw [hsame]
    exact hflag
  · exact (Service.rule_of_step hservice).flag hflag

/-- **Every step keeps the invariant.** -/
theorem Inv.step (h : s.Inv fl overflow period db clock symbols tickers columns table)
    (hstep : s.step fl overflow db clock symbols tickers columns a = some t) :
    t.Inv fl overflow period db clock symbols tickers columns table := by
  obtain ⟨acts, hacts⟩ := h.loopRun
  by_cases hfeed : ∃ outcome, a = .feed outcome
  · obtain ⟨outcome, rfl⟩ := hfeed
    obtain ⟨hrule, hmain, hexited, hloop⟩ := h.feed_cases hstep
    refine ⟨?_, h.placed.of_rule hrule, ?_, hexited⟩
    · rcases hloop with hsame | ⟨-, -, move, hmove⟩ | ⟨-, hmove⟩
      · exact ⟨acts, hsame ▸ hacts⟩
      · exact ⟨_, StepRun.run_concat hacts hmove⟩
      · exact ⟨_, StepRun.run_concat hacts hmove⟩
    · rw [hrule.stop_eq, h.stop, hmain]
  · have hother : ∀ outcome, a ≠ .feed outcome := fun outcome ha ↦ hfeed ⟨outcome, ha⟩
    obtain ⟨⟨move, hmove, hloop, haround⟩, hexited, -⟩ := service_of_step hother hstep
    have hflag := flag_of_step hother hstep
    obtain ⟨-, hpending, hbatch⟩ := frame_of_around hmove hloop
    have hpc : t.thread.pc = s.thread.pc := by rw [haround]; rfl
    have hstop : t.thread.stop = t.service.main.flag .sim := by rw [haround]; rfl
    refine ⟨⟨_, StepRun.run_concat hacts hloop⟩, ?_, hstop, ?_⟩
    · refine h.placed.of_frame hpc hpending hbatch fun hset ↦ ?_
      rw [hstop]
      exact hflag (h.stop ▸ hset)
    · rw [hexited, hpc]
      exact h.exited

theorem inv_of_run {acts : List Action}
    (hrun : StepRun.run (FedService.step fl overflow db clock symbols tickers columns)
      (init fl period table) acts = some s) :
    s.Inv fl overflow period db clock symbols tickers columns table :=
  StepRun.run_invariant
    (P := fun s ↦ Inv fl overflow period db clock symbols tickers columns table s)
    (fun _ _ _ h hstep ↦ h.step hstep) inv_init hrun

/-! ### How long `main` waits -/

/-- How many steps the feed makes before it returns, if it is asked to stop now. -/
def feedSteps (s : FedService) : ℕ :=
  if s.service.main.flag .sim then s.thread.stepsLeft else 56

/-- The steps awaited until the last call returns. `Service` counts one for the feed. -/
def remaining (s : FedService) : ℕ := s.service.remaining + (s.feedSteps - 1)

/-- The step the sequence waits for. -/
def awaited (s : FedService) : Action → Bool
  | .ingest _ => false
  | .feed _ => s.service.awaited .simExit
  | .service move => s.service.awaited move

theorem Inv.feedSteps_le (h : s.Inv fl overflow period db clock symbols tickers columns table) :
    s.feedSteps ≤ 56 := by
  unfold feedSteps
  split_ifs
  · exact h.placed.stepsLeft_le
  · exact Nat.le_refl _

/-- The sequence waits for a feed that is asked to stop and has not returned. -/
theorem of_awaited_simExit {service : Service} (h : service.awaited .simExit = true) :
    service.main.flag .sim = true ∧ service.simExited = false := by
  obtain ⟨c, hc, hreq, hrunning, hactor⟩ :=
    (Service.awaited_eq_true_iff (by simp) (by simp)).1 h
  obtain rfl := Option.some.inj hactor
  exact ⟨Service.flag_of_requested hc hreq, hrunning⟩

/-- A step of the thread that is not its return puts nothing on the rank of the service. -/
theorem Inv.service_of_feed (h : s.Inv fl overflow period db clock symbols tickers columns table)
    {outcome : Outcome}
    (hstep : s.step fl overflow db clock symbols tickers columns (.feed outcome) = some t)
    (hstays : s.service.step fl overflow .simExit ≠ some t.service) :
    t.service.simExited = s.service.simExited ∧ t.service.remaining ≤ s.service.remaining := by
  obtain ⟨-, -, -, hsame | ⟨hruns, hruns', move, hmove⟩ | ⟨hreturns, -⟩⟩ := h.feed_cases hstep
  · rw [show t.service = s.service from congrArg ClosedLoop.service hsame]
    exact ⟨rfl, Nat.le_refl _⟩
  · refine ⟨hruns'.trans hruns.symm, ?_⟩
    simp only [ClosedLoop.step] at hmove
    split_ifs at hmove with hguard
    obtain ⟨reader, hreader, hnext⟩ := Option.map_eq_some_iff.1 hmove
    have hreader' : PostgresFeedReader.step db clock symbols s.loop.reader move =
        some t.loop.reader := by
      rw [← hnext]
      exact hreader
    have hservice : t.loop.service = s.loop.service.withRaw t.loop.reader.output := by
      rw [← hnext]
    rcases ClosedLoop.feed_cases fl overflow h.linked.raw hruns hguard.2 hreader' hservice with
      ⟨hsame, -, -⟩ | ⟨row, -, sym, -, hfed, -, -⟩
    · exact (congrArg Service.remaining hsame).le
    · exact (Nat.le_add_right _ _).trans
        (h.control.remaining_add_le (Service.rule_of_step hfed))
  · exact absurd hreturns hstays

/-- A thread that is asked to stop takes one off. -/
theorem Inv.stepsLeft_feed (h : s.Inv fl overflow period db clock symbols tickers columns table)
    (hflag : s.service.main.flag .sim = true) {outcome : Outcome}
    (hstep : s.step fl overflow db clock symbols tickers columns (.feed outcome) = some t) :
    t.thread.stepsLeft ≤ s.thread.stepsLeft - 1 := by
  obtain ⟨hrule, -, -, -⟩ := h.feed_cases hstep
  exact hrule.stepsLeft_le (h.stop ▸ hflag)

/-- The others put nothing on. -/
theorem stepsLeft_other (hother : ∀ outcome, a ≠ .feed outcome)
    (hstep : s.step fl overflow db clock symbols tickers columns a = some t) :
    t.thread.stepsLeft = s.thread.stepsLeft := by
  obtain ⟨⟨move, hmove, hloop, haround⟩, -, -⟩ := service_of_step hother hstep
  obtain ⟨-, -, hbatch⟩ := frame_of_around hmove hloop
  exact ReaderThread.stepsLeft_of_frame (by rw [haround]; rfl) hbatch

/-- **A step of the thread counts down**, on the rank of the service or on that of the thread. -/
theorem Inv.remaining_add_le_feed
    (h : s.Inv fl overflow period db clock symbols tickers columns table) {outcome : Outcome}
    (hstep : s.step fl overflow db clock symbols tickers columns (.feed outcome) = some t) :
    t.remaining + (s.service.awaited .simExit).toNat ≤ s.remaining := by
  obtain ⟨-, hmain, hexited, -⟩ := h.feed_cases hstep
  have hsteps : t.feedSteps ≤ s.feedSteps - (s.service.main.flag .sim).toNat := by
    unfold feedSteps
    rw [hmain]
    cases hflag : s.service.main.flag .sim with
    | true => exact h.stepsLeft_feed hflag hstep
    | false => exact Nat.le_refl _
  unfold remaining
  by_cases hreturns : s.service.step fl overflow .simExit = some t.service
  · have hle := h.control.remaining_add_le (Service.rule_of_step hreturns)
    omega
  · obtain ⟨hsame, hservice⟩ := h.service_of_feed hstep hreturns
    cases hawaited : s.service.awaited .simExit with
    | false =>
      rw [Bool.toNat_false]
      omega
    | true =>
      -- the thread goes on, so it has a step left
      obtain ⟨hflag, hrunning⟩ := of_awaited_simExit hawaited
      have hleft : t.feedSteps ≠ 0 := by
        rw [feedSteps, hmain, if_pos hflag, Ne, ReaderThread.stepsLeft_eq_zero_iff]
        rw [hsame, hrunning] at hexited
        exact of_decide_eq_false hexited.symm
      rw [hflag, Bool.toNat_true] at hsteps
      rw [Bool.toNat_true]
      omega

/-- **Every step counts down**: an awaited one takes something off, no other one puts anything on.
-/
theorem Inv.remaining_add_le (h : s.Inv fl overflow period db clock symbols tickers columns table)
    (hstep : s.step fl overflow db clock symbols tickers columns a = some t) :
    t.remaining + (s.awaited a).toNat ≤ s.remaining := by
  by_cases hfeed : ∃ outcome, a = .feed outcome
  · obtain ⟨outcome, rfl⟩ := hfeed
    exact h.remaining_add_le_feed hstep
  · have hother : ∀ outcome, a ≠ .feed outcome := fun outcome ha ↦ hfeed ⟨outcome, ha⟩
    have hsteps : t.feedSteps ≤ s.feedSteps := by
      have hbound := (h.step hstep).feedSteps_le
      by_cases hflag : s.service.main.flag .sim = true
      · unfold feedSteps
        rw [if_pos hflag, if_pos (flag_of_step hother hstep hflag), stepsLeft_other hother hstep]
      · rwa [show s.feedSteps = 56 from if_neg hflag]
    unfold remaining
    obtain ⟨-, -, ⟨hsame, hnone⟩ | ⟨move, rfl, hservice⟩⟩ := service_of_step hother hstep
    · have hidle : s.awaited a = false := by
        cases a with
        | ingest row => rfl
        | feed outcome => exact absurd rfl (hother outcome)
        | service move => exact absurd rfl (hnone move)
      rw [hsame, hidle, Bool.toNat_false]
      omega
    · have hle := h.control.remaining_add_le (Service.rule_of_step hservice)
      show t.service.remaining + _ + (s.service.awaited move).toNat ≤ _
      omega

/-- A step of the service that is neither the feed's nor its return can be taken here. -/
theorem step_service {move : Service.Action} {service : Service} (hexit : isSimExit move = false)
    (hmoves : ClosedLoop.serviceMoves s.loop.reader move = true)
    (hmove : s.service.step fl overflow move = some service) :
    s.step fl overflow db clock symbols tickers columns (.service move) =
      some (s.around ⟨service, s.loop.readerAfter tickers columns service⟩) := by
  rw [step, hexit, if_neg Bool.false_ne_true]
  refine Option.map_eq_some_iff.2 ⟨_, ?_, rfl⟩
  rw [ClosedLoop.step, if_pos hmoves]
  exact Option.map_eq_some_iff.2 ⟨service, hmove, rfl⟩

/-- As long as a call is left, the step it waits for can be taken. -/
theorem Inv.exists_awaited (h : s.Inv fl overflow period db clock symbols tickers columns table)
    (hlt : s.service.main.returned < stopOrder.length) :
    ∃ a t, s.awaited a = true ∧
      s.step fl overflow db clock symbols tickers columns a = some t := by
  obtain ⟨move, service, hawaited, hmove⟩ := s.service.exists_awaited fl overflow hlt
  cases hcase : move with
  | simExit =>
    subst hcase
    have hsome : (s.thread.threadStep db clock symbols .ok).isSome = true :=
      h.placed.isSome_threadStep .ok
    obtain ⟨thread, hthread⟩ := Option.isSome_iff_exists.1 hsome
    exact ⟨.feed .ok, _, hawaited, Option.map_eq_some_iff.2 ⟨thread, hthread, rfl⟩⟩
  | feed tick =>
    subst hcase
    obtain ⟨c, -, -, -, hactor⟩ := (Service.awaited_eq_true_iff (by simp) (by simp)).1 hawaited
    cases hactor
  | _ =>
    exact ⟨.service move, _, hawaited,
      step_service (by rw [hcase]; rfl) (by rw [hcase]; rfl) hmove⟩

/-- Asked to stop, the thread counts down on its own. -/
theorem ranked_feed (fl : FloatEnv) (overflow : Double → ℤ) (period : Period) (db : Database)
    (clock : ℕ → ℤ) (symbols tickers : List (List UInt8)) (columns : Columns) (table : List Row) :
    StepRun.Ranked (FedService.step fl overflow db clock symbols tickers columns)
      (fun s ↦ Inv fl overflow period db clock symbols tickers columns table s ∧
        s.service.main.flag .sim = true)
      (fun s ↦ s.thread.stepsLeft) (fun _ a ↦ a.isFeed) fun _ ↦ 0 where
  inv {s a t} hs hstep := by
    refine ⟨hs.1.step hstep, ?_⟩
    by_cases hfeed : ∃ outcome, a = .feed outcome
    · obtain ⟨outcome, rfl⟩ := hfeed
      obtain ⟨-, hmain, -, -⟩ := hs.1.feed_cases hstep
      exact hmain ▸ hs.2
    · exact flag_of_step (fun outcome ha ↦ hfeed ⟨outcome, ha⟩) hstep hs.2
  own_le {s a t} hs hown hstep := by
    cases a with
    | feed outcome => exact hs.1.stepsLeft_feed hs.2 hstep
    | _ => exact Bool.noConfusion hown
  other_le {s a t} _ hother hstep := by
    refine (stepsLeft_other (fun outcome ha ↦ ?_) hstep).le
    subst ha
    exact Bool.noConfusion hother
  zero {s a t} hs hzero hstep := by
    by_cases hfeed : ∃ outcome, a = .feed outcome
    · obtain ⟨outcome, rfl⟩ := hfeed
      have hle := hs.1.stepsLeft_feed hs.2 hstep
      omega
    · exact (stepsLeft_other (fun outcome ha ↦ hfeed ⟨outcome, ha⟩) hstep).trans hzero

/-- The steps awaited from the first request to the last return. -/
def stopBudget : ℕ := Service.shutdownBudget + 55

theorem Inv.remaining_le (h : s.Inv fl overflow period db clock symbols tickers columns table) :
    s.remaining ≤ stopBudget := by
  have hservice := s.service.remaining_le
  have hfeed := h.feedSteps_le
  unfold remaining stopBudget
  omega

/-- When every call has returned nothing is left, of the thread neither. -/
theorem Inv.returned_lt (h : s.Inv fl overflow period db clock symbols tickers columns table)
    (hpos : 0 < s.remaining) : s.service.main.returned < stopOrder.length := by
  by_contra hge
  have hdone : stopOrder.length ≤ s.service.main.returned := Nat.le_of_not_lt hge
  have hservice : s.service.remaining = 0 :=
    Service.remaining_of_none (List.getElem?_eq_none hdone)
  have hsim : Component.position .sim < s.service.main.returned :=
    (by decide : Component.position .sim < stopOrder.length).trans_le hdone
  have hexit : decide (s.thread.pc = .exited) = true :=
    h.exited.symm.trans (h.control.joined .sim hsim)
  have hfeed : s.feedSteps = 0 := by
    have hflag : s.service.main.flag .sim = true := by
      rw [← h.stop]
      exact h.placed.stop (of_decide_eq_true hexit)
    rw [feedSteps, if_pos hflag]
    exact ReaderThread.stepsLeft_eq_zero_iff.2 (of_decide_eq_true hexit)
  rw [remaining, hservice, hfeed] at hpos
  exact absurd hpos (by decide)

/-- Nothing is left only at the end. -/
theorem Inv.returned_eq (h : s.Inv fl overflow period db clock symbols tickers columns table)
    (hzero : s.remaining = 0) :
    s.service.main.returned = stopOrder.length ∧ ∀ c, s.service.exited c = true := by
  obtain ⟨acts, hacts⟩ := h.linked.serviceRun
  have hservice : s.service.remaining = 0 := Nat.eq_zero_of_add_eq_zero_right hzero
  have hdone : s.service.main.returned = stopOrder.length :=
    Nat.le_antisymm (Service.returned_le_of_run hacts) (Service.returned_of_remaining hservice)
  refine ⟨hdone, fun c ↦ h.control.joined c ?_⟩
  rw [hdone]
  exact (List.getElem?_eq_some_iff.1 (Service.getElem?_position c)).1

/-- **`main` gets past its feed and to its end.** In every run of the service with the thread of its
feed, whatever is inserted meanwhile and however the calls to the database end: without the loops of
the thread it is a run of the closed loop; once `main` has set the feed's flag, the feed has
returned when its thread has made 56 steps more; the stop sequence waits for no more steps than its
budget; as long as a call is left, the step it waits for can be taken; and it can be brought to its
end from wherever the run has come. -/
theorem main_returns {before after : List Action}
    (hbefore : StepRun.run (FedService.step fl overflow db clock symbols tickers columns)
      (init fl period table) before = some s)
    (hafter : StepRun.run (FedService.step fl overflow db clock symbols tickers columns) s after =
      some t) :
    (∃ acts, StepRun.run (ClosedLoop.step fl overflow db clock symbols tickers columns)
        (ClosedLoop.init fl period table) acts = some t.loop) ∧
      (s.service.main.flag .sim = true → 56 ≤ after.countP Action.isFeed →
        t.service.exited .sim = true) ∧
      (StepRun.made (FedService.step fl overflow db clock symbols tickers columns) awaited s
        after).length ≤ stopBudget ∧
      (t.service.main.returned < stopOrder.length → ∃ a u, t.awaited a = true ∧
        t.step fl overflow db clock symbols tickers columns a = some u) ∧
      ∃ more u, StepRun.run (FedService.step fl overflow db clock symbols tickers columns) t more =
          some u ∧ more.length ≤ stopBudget ∧
        u.service.main.returned = stopOrder.length ∧ ∀ c, u.service.exited c = true := by
  have hall := StepRun.run_append_eq_some_iff.2 ⟨s, hbefore, hafter⟩
  have hs := inv_of_run hbefore
  have ht := inv_of_run hall
  have hle : ∀ {s a t}, Inv fl overflow period db clock symbols tickers columns table s →
      s.step fl overflow db clock symbols tickers columns a = some t →
      t.remaining + (s.awaited a).toNat ≤ s.remaining := fun h hstep ↦ h.remaining_add_le hstep
  refine ⟨ht.loopRun, fun hflag hsteps ↦ ?_, ?_, ht.exists_awaited, ?_⟩
  · have hzero : t.thread.stepsLeft = 0 := by
      refine (ranked_feed ..).rank_eq_zero_of_le ⟨hs, hflag⟩ hafter ?_
      rw [StepRun.length_made_eq_countP hafter, List.map_const', List.sum_replicate, nsmul_zero,
        Nat.add_zero]
      exact hs.placed.stepsLeft_le.trans hsteps
    exact ht.exited.trans (decide_eq_true (ReaderThread.stepsLeft_eq_zero_iff.1 hzero))
  · have hmade := StepRun.made_le_of_add_le (fun h hstep ↦ h.step hstep) hle hs hafter
    exact (Nat.le_add_left _ _).trans (hmade.trans hs.remaining_le)
  · obtain ⟨more, u, hmore, hzero, hlen⟩ :=
      (StepRun.ranked_of_add_le (fun h hstep ↦ Inv.step h hstep) hle).exists_run
        (fun h hpos ↦ h.exists_awaited (h.returned_lt hpos)) ht
    have hu := inv_of_run (StepRun.run_append_eq_some_iff.2 ⟨t, hall, hmore⟩)
    exact ⟨more, u, hmore, hlen.trans ht.remaining_le, hu.returned_eq hzero⟩

/-- The request finds the thread with one row of two handed on; the other is handed on before the
thread returns. -/
theorem main_returns_halfway :
    let steps := FedService.step (FloatEnv.exact fun _ ↦ 0) (fun _ ↦ 0)
      PostgresFeedReader.sortingDatabase (fun _ ↦ 300) [[65]] [[65]]
      ⟨id, fun volume ↦ .fin volume, Double.value⟩
    let start := init (FloatEnv.exact fun _ ↦ 0) .default
      [PostgresFeedReader.sampleRow 0 65 100, PostgresFeedReader.sampleRow 1 65 200]
    let before := List.replicate 6 (.feed .ok) ++ [.service .request]
    let after := List.replicate 56 (.feed .ok)
    ∃ s t, StepRun.run steps start before = some s ∧ StepRun.run steps s after = some t ∧
      (s.service.path.fed.length = 1 ∧ t.service.path.fed.length = 2) ∧
      t.service.exited .sim = true ∧ (StepRun.made steps awaited s after).length ≤ stopBudget := by
  intro steps start before after
  obtain ⟨s, hbefore, hone⟩ := Option.map_eq_some_iff.1 (by decide +kernel :
    (StepRun.run steps start before).map (fun s ↦
      (s.service.main.flag .sim, s.service.path.fed.length)) = some (true, 1))
  obtain ⟨t, hrun, htwo⟩ := Option.map_eq_some_iff.1 (by decide +kernel :
    (StepRun.run steps start (before ++ after)).map (fun t ↦ t.service.path.fed.length) = some 2)
  obtain ⟨u, hu, hafter⟩ := StepRun.run_append_eq_some_iff.1 hrun
  obtain rfl : s = u := Option.some.inj (hbefore.symm.trans hu)
  obtain ⟨hflag, hfed⟩ := Prod.mk.inj hone
  obtain ⟨-, hexits, hmade, -, -⟩ := main_returns hbefore hafter
  exact ⟨s, t, hbefore, hafter, ⟨hfed, htwo⟩, hexits hflag (by decide +kernel), hmade⟩

end FedService

end Mdp
