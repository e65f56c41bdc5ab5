import MarketDataProcessor.Feed.OtherSources
import MarketDataProcessor.Foundations.Progress

/-!
# The thread of the feed reader

`PostgresFeedReader::run` with its three nested loops, its two exception handlers and
`interruptible_sleep`, around the `Reader` whose steps the loop over the symbols makes. The reader's
own variables, `pending` and `batch`, are the iterators of the two inner loops; the program counter
says where the thread is outside them.

`reader_of_run` forgets the loops around: what the reader has gone through is a run of
`PostgresFeedReader.step`, so all that is known of the watermark and of what is published holds of
the thread. What the loops add is when it stops: `thread_returns` bounds the steps from the stop
request to the return from `run`. A call to the database that never ends is outside the model.

## Three layers

* `Rule` has one constructor for each way the thread moves, and `rule_of_threadStep` is the only
  place that unfolds a step. Sleeping is a loop of its own, in slices of a hundred milliseconds,
  each of which looks at the stop flag.
* `Placed` says where the iterators are at each program point: inside `poll_symbol` there is a
  current symbol, only there is a batch, only in a round are there symbols left. It makes every step
  of the thread enabled (`Placed.isSome_threadStep`) and bounds a batch by fifty rows.
* `stepsLeft` is a rank on the program points for a thread that is asked to stop. The longest way
  leads through a full batch: the loop over its rows does not look at the flag, so the query and its
  fifty rows are handled before the loops are left.

`thread_returns` puts these together; 56 is the rank of a thread about to send a query.
-/

namespace Mdp

namespace PostgresFeedReader

/-- How a call to the database or a conversion ends. -/
inductive Outcome where
  | ok
  /-- `pqxx::broken_connection`. -/
  | brokenConnection
  /-- Any other `std::exception`. -/
  | failure

/-- Where the thread stands. -/
inductive ThreadPc where
  /-- About to test `stop_requested()` before connecting. -/
  | outerTest
  /-- About to connect. -/
  | connect
  /-- About to test `stop_requested()` before a round. -/
  | innerTest
  /-- At the head of the loop over the symbols. -/
  | symbolTest
  /-- In `poll_symbol`: before the query, or at the head of the loop over its rows. -/
  | poll
  /-- In `interruptible_sleep` with this many milliseconds left, to connect again or not. -/
  | sleep (remaining : ℤ) (reconnect : Bool)
  /-- The thread has returned from `run`. -/
  | exited
  deriving DecidableEq

/-- The thread, its reader and its stop flag. -/
structure ReaderThread where
  pc : ThreadPc
  reader : Reader
  stop : Bool

namespace ReaderThread

/-- What can happen next. -/
inductive Action where
  /-- Somebody inserts a row. -/
  | insert (row : Row)
  /-- The parser pops a tick. -/
  | outputPop
  | requestStop
  /-- The thread makes a step, and what it calls ends so. -/
  | thread (outcome : Outcome)

/-- The thread at the entry of `run`. -/
def init (table : List Row) (output : BoundedQueue MarketTick 16384) : ReaderThread where
  pc := .outerTest
  reader := PostgresFeedReader.init table output
  stop := false

/-- The slice of `interruptible_sleep`. -/
def slice : ℤ := 100

variable (db : Database) (clock : ℕ → ℤ) (symbols : List (List UInt8))

/-- A step of the reader, after which the thread stands at `pc`. -/
def move (s : ReaderThread) (a : PostgresFeedReader.Action) (pc : ThreadPc) :
    Option ReaderThread :=
  (PostgresFeedReader.step db clock symbols s.reader a).map fun reader ↦ { s with reader, pc }

/-- A step of `poll_symbol`. -/
def pollStep (s : ReaderThread) : Outcome → Option ReaderThread
  | .brokenConnection => s.move db clock symbols .fail .outerTest
  | .failure => s.move db clock symbols .fail (.sleep 2000 false)
  | .ok =>
    match s.reader.batch with
    | none => s.move db clock symbols .query .poll
    | some (_ :: _) => s.move db clock symbols .row .poll
    | some [] => s.move db clock symbols .nextSymbol .symbolTest

/-- A step of the thread. -/
def threadStep (s : ReaderThread) (outcome : Outcome) : Option ReaderThread :=
  match s.pc with
  | .outerTest => some { s with pc := if s.stop then .exited else .connect }
  | .connect =>
    match outcome with
    | .ok => some { s with pc := .innerTest }
    | _ => some { s with pc := .sleep 5000 true }
  | .innerTest =>
    if s.stop then some { s with pc := .outerTest }
    else s.move db clock symbols .startRound .symbolTest
  | .symbolTest =>
    match s.reader.pending with
    | [] => some { s with pc := .sleep 2000 false }
    | _ :: _ =>
      -- `break` leaves the loop over the symbols, and the sleep after it ends at once
      if s.stop then s.move db clock symbols .quit (.sleep 2000 false)
      else some { s with pc := .poll }
  | .poll => s.pollStep db clock symbols outcome
  | .sleep remaining reconnect =>
    if 0 < remaining ∧ s.stop = false then
      some { s with pc := .sleep (remaining - slice) reconnect }
    else some { s with pc := if reconnect then .outerTest else .innerTest }
  | .exited => some s

/-- One action. -/
def step (s : ReaderThread) : Action → Option ReaderThread
  | .insert row => s.move db clock symbols (.insert row) s.pc
  | .outputPop => s.move db clock symbols .outputPop s.pc
  | .requestStop => some { s with stop := true }
  | .thread outcome => s.threadStep db clock symbols outcome

variable {db clock symbols} {s t : ReaderThread} {a : Action} {outcome : Outcome}

/-! ### The loops around the reader -/

/-- The thread rules, by how the call of the step ends. -/
inductive Rule (db : Database) (clock : ℕ → ℤ) (symbols : List (List UInt8)) (outcome : Outcome)
    (s : ReaderThread) : ReaderThread → Prop where
  | enter (hpc : s.pc = .outerTest) (hstop : s.stop = false) :
      Rule db clock symbols outcome s { s with pc := .connect }
  | leave (hpc : s.pc = .outerTest) (hstop : s.stop = true) :
      Rule db clock symbols outcome s { s with pc := .exited }
  | connected (hpc : s.pc = .connect) : Rule db clock symbols outcome s { s with pc := .innerTest }
  | refused (hfails : outcome ≠ .ok) (hpc : s.pc = .connect) :
      Rule db clock symbols outcome s { s with pc := .sleep 5000 true }
  | startRound {r} (hpc : s.pc = .innerTest) (hstop : s.stop = false)
      (hmove : PostgresFeedReader.step db clock symbols s.reader .startRound = some r) :
      Rule db clock symbols outcome s { s with reader := r, pc := .symbolTest }
  | disconnect (hpc : s.pc = .innerTest) (hstop : s.stop = true) :
      Rule db clock symbols outcome s { s with pc := .outerTest }
  | endRound (hpc : s.pc = .symbolTest) (hpending : s.reader.pending = []) :
      Rule db clock symbols outcome s { s with pc := .sleep 2000 false }
  | enterPoll (hpc : s.pc = .symbolTest) (hpending : s.reader.pending ≠ [])
      (hstop : s.stop = false) : Rule db clock symbols outcome s { s with pc := .poll }
  | quit {r} (hpc : s.pc = .symbolTest) (hstop : s.stop = true)
      (hmove : PostgresFeedReader.step db clock symbols s.reader .quit = some r) :
      Rule db clock symbols outcome s { s with reader := r, pc := .sleep 2000 false }
  | query {r} (hpc : s.pc = .poll) (hbatch : s.reader.batch = none)
      (hmove : PostgresFeedReader.step db clock symbols s.reader .query = some r) :
      Rule db clock symbols outcome s { s with reader := r, pc := .poll }
  | row {r row rows} (hpc : s.pc = .poll) (hbatch : s.reader.batch = some (row :: rows))
      (hmove : PostgresFeedReader.step db clock symbols s.reader .row = some r) :
      Rule db clock symbols outcome s { s with reader := r, pc := .poll }
  | nextSymbol {r} (hpc : s.pc = .poll) (hbatch : s.reader.batch = some [])
      (hmove : PostgresFeedReader.step db clock symbols s.reader .nextSymbol = some r) :
      Rule db clock symbols outcome s { s with reader := r, pc := .symbolTest }
  /-- The connection is lost: `break`. -/
  | reconnect {r} (hfails : outcome ≠ .ok) (hpc : s.pc = .poll)
      (hmove : PostgresFeedReader.step db clock symbols s.reader .fail = some r) :
      Rule db clock symbols outcome s { s with reader := r, pc := .outerTest }
  | queryError {r} (hfails : outcome ≠ .ok) (hpc : s.pc = .poll)
      (hmove : PostgresFeedReader.step db clock symbols s.reader .fail = some r) :
      Rule db clock symbols outcome s { s with reader := r, pc := .sleep 2000 false }
  | rest {remaining reconnect} (hpc : s.pc = .sleep remaining reconnect) (hleft : 0 < remaining)
      (hstop : s.stop = false) :
      Rule db clock symbols outcome s { s with pc := .sleep (remaining - slice) reconnect }
  | wakeToReconnect {remaining} (hpc : s.pc = .sleep remaining true) :
      Rule db clock symbols outcome s { s with pc := .outerTest }
  | wake {remaining} (hpc : s.pc = .sleep remaining false) :
      Rule db clock symbols outcome s { s with pc := .innerTest }
  | stay (hpc : s.pc = .exited) : Rule db clock symbols outcome s s

theorem eq_of_move {move : PostgresFeedReader.Action} {pc : ThreadPc}
    (h : s.move db clock symbols move pc = some t) :
    ∃ r, PostgresFeedReader.step db clock symbols s.reader move = some r ∧
      { s with reader := r, pc } = t :=
  Option.map_eq_some_iff.1 h

/-- **Every step of the thread follows one of the rules.** -/
theorem rule_of_threadStep (hstep : s.threadStep db clock symbols outcome = some t) :
    Rule db clock symbols outcome s t := by
  unfold threadStep at hstep
  split at hstep
  next hpc =>
    obtain rfl := Option.some.inj hstep
    split_ifs with hstop
    · exact .leave hpc hstop
    · exact .enter hpc (Bool.eq_false_of_not_eq_true hstop)
  next hpc =>
    split at hstep
    next => exact Option.some.inj hstep ▸ .connected hpc
    next hfails => exact Option.some.inj hstep ▸ .refused hfails hpc
  next hpc =>
    split_ifs at hstep with hstop
    · exact Option.some.inj hstep ▸ .disconnect hpc hstop
    · obtain ⟨r, hmove, rfl⟩ := eq_of_move hstep
      exact .startRound hpc (Bool.eq_false_of_not_eq_true hstop) hmove
  next hpc =>
    split at hstep
    next hpending => exact Option.some.inj hstep ▸ .endRound hpc hpending
    next hpending =>
      split_ifs at hstep with hstop
      · obtain ⟨r, hmove, rfl⟩ := eq_of_move hstep
        exact .quit hpc hstop hmove
      · refine Option.some.inj hstep ▸ .enterPoll hpc ?_ (Bool.eq_false_of_not_eq_true hstop)
        rw [hpending]
        exact List.cons_ne_nil _ _
  next hpc =>
    unfold pollStep at hstep
    split at hstep
    next =>
      obtain ⟨r, hmove, rfl⟩ := eq_of_move hstep
      exact .reconnect nofun hpc hmove
    next =>
      obtain ⟨r, hmove, rfl⟩ := eq_of_move hstep
      exact .queryError nofun hpc hmove
    next =>
      split at hstep
      next hbatch =>
        obtain ⟨r, hmove, rfl⟩ := eq_of_move hstep
        exact .query hpc hbatch hmove
      next hbatch =>
        obtain ⟨r, hmove, rfl⟩ := eq_of_move hstep
        exact .row hpc hbatch hmove
      next hbatch =>
        obtain ⟨r, hmove, rfl⟩ := eq_of_move hstep
        exact .nextSymbol hpc hbatch hmove
  next remaining reconnect hpc =>
    by_cases hrest : 0 < remaining ∧ s.stop = false
    · rw [if_pos hrest] at hstep
      exact Option.some.inj hstep ▸ .rest hpc hrest.1 hrest.2
    · rw [if_neg hrest] at hstep
      cases reconnect with
      | true => exact Option.some.inj hstep ▸ .wakeToReconnect hpc
      | false => exact Option.some.inj hstep ▸ .wake hpc
  next hpc => exact Option.some.inj hstep ▸ .stay hpc

/-- **The reader makes a step of its own or none.** -/
theorem reader_of_step (hstep : s.step db clock symbols a = some t) :
    t.reader = s.reader ∨
      ∃ move, PostgresFeedReader.step db clock symbols s.reader move = some t.reader := by
  cases a with
  | insert row =>
    obtain ⟨r, hmove, rfl⟩ := eq_of_move hstep
    exact Or.inr ⟨_, hmove⟩
  | outputPop =>
    obtain ⟨r, hmove, rfl⟩ := eq_of_move hstep
    exact Or.inr ⟨_, hmove⟩
  | requestStop =>
    obtain rfl := Option.some.inj hstep
    exact Or.inl rfl
  | thread outcome =>
    cases rule_of_threadStep hstep with
    | startRound _ _ hmove => exact Or.inr ⟨_, hmove⟩
    | quit _ _ hmove => exact Or.inr ⟨_, hmove⟩
    | query _ _ hmove => exact Or.inr ⟨_, hmove⟩
    | row _ _ hmove => exact Or.inr ⟨_, hmove⟩
    | nextSymbol _ _ hmove => exact Or.inr ⟨_, hmove⟩
    | reconnect _ _ hmove => exact Or.inr ⟨_, hmove⟩
    | queryError _ _ hmove => exact Or.inr ⟨_, hmove⟩
    | _ => exact Or.inl rfl

/-- **The thread goes through runs of the reader.** -/
theorem reader_of_run {acts : List Action}
    (hrun : StepRun.run (step db clock symbols) s acts = some t) :
    ∃ moves, StepRun.run (PostgresFeedReader.step db clock symbols) s.reader moves =
      some t.reader := by
  refine StepRun.run_invariant (P := fun u ↦ ∃ moves,
    StepRun.run (PostgresFeedReader.step db clock symbols) s.reader moves = some u.reader)
    (fun u a v ⟨moves, hmoves⟩ hstep ↦ ?_) ⟨[], rfl⟩ hrun
  rcases reader_of_step hstep with hsame | ⟨move, hmove⟩
  · exact ⟨moves, hsame ▸ hmoves⟩
  · exact ⟨moves ++ [move], StepRun.run_concat hmoves hmove⟩

/-! ### Where the thread stands -/

/-- The iterators of the inner loops are where the program counter says. -/
structure Placed (s : ReaderThread) : Prop where
  /-- Inside `poll_symbol` there is a current symbol. -/
  symbol : s.pc = .poll → s.reader.pending ≠ []
  /-- Only inside `poll_symbol` there is a batch. -/
  batch : s.pc ≠ .poll → s.reader.batch = none
  /-- Only inside the loop over the symbols there are symbols left. -/
  round : s.pc ≠ .poll → s.pc ≠ .symbolTest → s.reader.pending = []
  /-- The query has `LIMIT 50`. -/
  limit : s.reader.fetched.length ≤ 50
  /-- The loop is left only on a stop request. -/
  stop : s.pc = .exited → s.stop = true

theorem placed_init (table : List Row) (output : BoundedQueue MarketTick 16384) :
    Placed (init table output) where
  symbol h := by cases h
  batch _ := rfl
  round _ _ := rfl
  limit := Nat.zero_le _
  stop h := by cases h

theorem Placed.of_idle {pc : ThreadPc} {reader : Reader} {stop : Bool} (hpoll : pc ≠ .poll)
    (hpending : reader.pending = []) (hbatch : reader.batch = none)
    (hstop : pc = .exited → stop = true) : Placed ⟨pc, reader, stop⟩ where
  symbol h := absurd h hpoll
  batch _ := hbatch
  round _ _ := hpending
  limit := by
    rw [fetched_of_idle hbatch]
    exact Nat.zero_le _
  stop := hstop

/-- Outside the inner loops the thread keeps its iterators. -/
theorem Placed.jump {pc pc' : ThreadPc} (h : Placed s) (hpc : s.pc = pc) (hpoll : pc ≠ .poll)
    (hround : pc ≠ .symbolTest) (hpoll' : pc' ≠ .poll) (hstop : pc' = .exited → s.stop = true) :
    Placed { s with pc := pc' } := by
  subst hpc
  exact .of_idle hpoll' (h.round hpoll hround) (h.batch hpoll) hstop

theorem length_query_le (db : Database) (number : ℕ) (table : List Row) (sym : List UInt8)
    (lastSeenEpoch : ℚ) : (db.query number table sym lastSeenEpoch).length ≤ 50 := by
  obtain ⟨ordered, -, -, hquery⟩ := db.query_spec number table sym lastSeenEpoch
  rw [hquery]
  exact List.length_take_le _ _

/-- **A step of the thread leaves it where its iterators are.** -/
theorem Placed.of_rule (h : Placed s) (hrule : Rule db clock symbols outcome s t) : Placed t := by
  cases hrule with
  | enter hpc _ =>
    exact h.jump hpc nofun nofun nofun nofun
  | leave hpc hstop =>
    exact h.jump hpc nofun nofun nofun fun _ ↦ hstop
  | connected hpc =>
    exact h.jump hpc nofun nofun nofun nofun
  | refused _ hpc =>
    exact h.jump hpc nofun nofun nofun nofun
  | startRound hpc _ hmove =>
    obtain ⟨-, hbatch, rfl⟩ := step_startRound_eq_some hmove
    exact ⟨nofun, fun _ ↦ hbatch, fun _ hround ↦ absurd rfl hround, h.limit, nofun⟩
  | disconnect hpc _ =>
    exact h.jump hpc nofun nofun nofun nofun
  | endRound hpc hpending =>
    exact .of_idle nofun hpending (h.batch fun hpoll ↦ nomatch hpc.symm.trans hpoll) nofun
  | enterPoll hpc hpending _ =>
    exact ⟨fun _ ↦ hpending, fun hpoll ↦ absurd rfl hpoll, fun hpoll ↦ absurd rfl hpoll, h.limit,
      nofun⟩
  | quit hpc _ hmove =>
    obtain ⟨hbatch, rfl⟩ := step_quit_eq_some hmove
    exact .of_idle nofun rfl hbatch nofun
  | query hpc _ hmove =>
    obtain ⟨sym, rest, -, -, rfl⟩ := step_query_eq_some hmove
    exact ⟨fun _ ↦ h.symbol hpc, fun hpoll ↦ absurd rfl hpoll, fun hpoll ↦ absurd rfl hpoll,
      length_query_le _ _ _ _ _, nofun⟩
  | row hpc _ hmove =>
    obtain ⟨sym, rest, row, rows, hpending, hbatch, rfl⟩ := step_row_eq_some hmove
    have hlimit := h.limit
    rw [fetched_of_batch hbatch, List.length_cons] at hlimit
    refine ⟨fun _ ↦ ?_, fun hpoll ↦ absurd rfl hpoll, fun hpoll ↦ absurd rfl hpoll, ?_, nofun⟩
    · show (Reader.handleRow clock sym s.reader row).pending ≠ []
      rw [(handleRow_frame clock sym s.reader row).2.2.1]
      exact h.symbol hpc
    · show rows.length ≤ 50
      omega
  | nextSymbol hpc _ hmove =>
    obtain ⟨sym, rest, -, -, rfl⟩ := step_nextSymbol_eq_some hmove
    exact ⟨nofun, fun _ ↦ rfl, fun _ hround ↦ absurd rfl hround, Nat.zero_le _, nofun⟩
  | reconnect _ hpc hmove =>
    obtain rfl := step_fail_eq_some hmove
    exact .of_idle nofun rfl rfl nofun
  | queryError _ hpc hmove =>
    obtain rfl := step_fail_eq_some hmove
    exact .of_idle nofun rfl rfl nofun
  | rest hpc _ _ =>
    exact h.jump hpc nofun nofun nofun nofun
  | wakeToReconnect hpc =>
    exact h.jump hpc nofun nofun nofun nofun
  | wake hpc =>
    exact h.jump hpc nofun nofun nofun nofun
  | stay _ => exact h

/-- What the others do touches neither the program counter nor the iterators. -/
theorem frame_of_step_neighbour (hother : ∀ outcome, a ≠ .thread outcome)
    (hstep : s.step db clock symbols a = some t) :
    t.pc = s.pc ∧ t.reader.pending = s.reader.pending ∧ t.reader.batch = s.reader.batch ∧
      (s.stop = true → t.stop = true) := by
  cases a with
  | insert row =>
    obtain ⟨r, hmove, rfl⟩ := eq_of_move hstep
    obtain ⟨-, rfl⟩ := step_insert_eq_some hmove
    exact ⟨rfl, rfl, rfl, id⟩
  | outputPop =>
    obtain ⟨r, hmove, rfl⟩ := eq_of_move hstep
    obtain ⟨popped, -, rfl⟩ := Option.map_eq_some_iff.1 hmove
    exact ⟨rfl, rfl, rfl, id⟩
  | requestStop =>
    obtain rfl := Option.some.inj hstep
    exact ⟨rfl, rfl, rfl, fun _ ↦ rfl⟩
  | thread outcome => exact absurd rfl (hother outcome)

/-- Others do not displace the thread. -/
theorem Placed.of_frame (h : Placed s) (hpc : t.pc = s.pc)
    (hpending : t.reader.pending = s.reader.pending) (hbatch : t.reader.batch = s.reader.batch)
    (hstop : s.stop = true → t.stop = true) : Placed t := by
  refine ⟨?_, ?_, ?_, ?_, ?_⟩
  · rw [hpc, hpending]
    exact h.symbol
  · rw [hpc, hbatch]
    exact h.batch
  · rw [hpc, hpending]
    exact h.round
  · rw [Reader.fetched, hbatch]
    exact h.limit
  · rw [hpc]
    exact fun hexited ↦ hstop (h.stop hexited)

theorem Placed.of_step (h : Placed s) (hstep : s.step db clock symbols a = some t) : Placed t := by
  by_cases hthread : ∃ outcome, a = .thread outcome
  · obtain ⟨outcome, rfl⟩ := hthread
    exact h.of_rule (rule_of_threadStep hstep)
  · obtain ⟨hpc, hpending, hbatch, hstop⟩ :=
      frame_of_step_neighbour (fun outcome ha ↦ hthread ⟨outcome, ha⟩) hstep
    exact h.of_frame hpc hpending hbatch hstop

theorem isSome_move {move : PostgresFeedReader.Action} {pc : ThreadPc}
    (h : (PostgresFeedReader.step db clock symbols s.reader move).isSome = true) :
    (s.move db clock symbols move pc).isSome = true := by
  rw [ReaderThread.move, Option.isSome_map]
  exact h

/-- **A step of `poll_symbol` is enabled**, however the call it makes ends. -/
theorem isSome_pollStep (hsymbol : s.reader.pending ≠ []) :
    (s.pollStep db clock symbols outcome).isSome = true := by
  obtain ⟨sym, rest, hpending⟩ := List.exists_cons_of_ne_nil hsymbol
  have hfail : (PostgresFeedReader.step db clock symbols s.reader .fail).isSome = true := by
    rw [PostgresFeedReader.step, if_neg hsymbol]
    rfl
  unfold pollStep
  split
  next => exact isSome_move hfail
  next => exact isSome_move hfail
  next =>
    split
    next hbatch =>
      refine isSome_move ?_
      simp only [PostgresFeedReader.step, hpending, hbatch, Option.isSome_some]
    next hbatch =>
      refine isSome_move ?_
      simp only [PostgresFeedReader.step, hpending, hbatch, Option.isSome_some]
    next hbatch =>
      refine isSome_move ?_
      simp only [PostgresFeedReader.step, hpending, hbatch, Option.isSome_some]

/-- **The thread is never stuck.** -/
theorem Placed.isSome_threadStep (h : Placed s) (outcome : Outcome) :
    (s.threadStep db clock symbols outcome).isSome = true := by
  unfold threadStep
  split
  next => rfl
  next => split <;> rfl
  next hpc =>
    split_ifs
    · rfl
    · refine isSome_move ?_
      have hpending := h.round (by simp [hpc]) (by simp [hpc])
      have hbatch := h.batch (by simp [hpc])
      rw [PostgresFeedReader.step, if_pos ⟨hpending, hbatch⟩]
      rfl
  next hpc =>
    split
    next => rfl
    next hpending =>
      split_ifs
      · refine isSome_move ?_
        have hbatch := h.batch (by simp [hpc])
        have hbusy : ¬ (s.reader.pending = [] ∨ s.reader.batch ≠ none) := by
          rw [hpending, hbatch]
          simp
        rw [PostgresFeedReader.step, if_neg hbusy]
        rfl
      · rfl
  next hpc => exact isSome_pollStep (h.symbol hpc)
  next => split_ifs <;> rfl
  next => rfl

/-! ### The steps after a stop request -/

/-- How many steps a thread that has been asked to stop makes before it returns. -/
def stepsLeft (s : ReaderThread) : ℕ :=
  match s.pc with
  | .exited => 0
  | .outerTest => 1
  | .innerTest => 2
  | .sleep _ true => 2
  | .sleep _ false => 3
  | .connect => 3
  | .symbolTest => 4
  | .poll => s.reader.batch.elim 56 fun rows ↦ rows.length + 5

theorem stepsLeft_poll (hpc : s.pc = .poll) :
    s.stepsLeft = s.reader.batch.elim 56 fun rows ↦ rows.length + 5 := by
  rw [stepsLeft, hpc]

theorem stepsLeft_eq_zero_iff : s.stepsLeft = 0 ↔ s.pc = .exited := by
  unfold stepsLeft
  split
  case h_8 hpc =>
    rw [hpc]
    cases s.reader.batch <;> simp
  all_goals simp_all

theorem stepsLeft_poll_ge (hpc : s.pc = .poll) : 5 ≤ s.stepsLeft := by
  rw [stepsLeft_poll hpc]
  cases s.reader.batch with
  | none => decide
  | some rows => exact Nat.le_add_left _ _

theorem Placed.stepsLeft_le (h : Placed s) : s.stepsLeft ≤ 56 := by
  unfold stepsLeft
  split
  case h_8 hpc =>
    have hlimit := h.limit
    cases hbatch : s.reader.batch with
    | none => exact Nat.le_refl _
    | some rows =>
      rw [fetched_of_batch hbatch] at hlimit
      exact Nat.add_le_add_right (hlimit.trans (by decide : 50 ≤ 51)) 5
  all_goals decide

/-- **Every step of a stopping thread takes one off.** -/
theorem Rule.stepsLeft_le (hrule : Rule db clock symbols outcome s t) (hstop : s.stop = true) :
    t.stepsLeft ≤ s.stepsLeft - 1 := by
  cases hrule with
  | enter _ hgo => exact absurd (hstop.symm.trans hgo) (by decide)
  | leave _ _ => exact Nat.zero_le _
  | connected hpc =>
    rw [stepsLeft, stepsLeft, hpc]
    exact Nat.le_refl _
  | refused _ hpc =>
    rw [stepsLeft, stepsLeft, hpc]
    exact Nat.le_refl _
  | startRound _ hgo _ => exact absurd (hstop.symm.trans hgo) (by decide)
  | disconnect hpc _ =>
    rw [stepsLeft, stepsLeft, hpc]
    exact Nat.le_refl _
  | endRound hpc _ =>
    rw [stepsLeft, stepsLeft, hpc]
    exact Nat.le_refl _
  | enterPoll _ _ hgo => exact absurd (hstop.symm.trans hgo) (by decide)
  | quit hpc _ _ =>
    rw [stepsLeft, stepsLeft, hpc]
    exact Nat.le_refl _
  | query hpc hbatch hmove =>
    obtain ⟨sym, rest, -, -, rfl⟩ := step_query_eq_some hmove
    have hlimit := length_query_le db s.reader.queries s.reader.table sym s.reader.lastSeenEpoch
    rw [stepsLeft_poll hpc, hbatch]
    exact Nat.add_le_add_right hlimit 5
  | row hpc hbatch hmove =>
    obtain ⟨sym, rest, row', rows', -, hbatch', rfl⟩ := step_row_eq_some hmove
    rw [stepsLeft_poll hpc, hbatch', Option.elim_some, List.length_cons]
    exact Nat.le_refl _
  | nextSymbol hpc hbatch _ =>
    rw [stepsLeft_poll hpc, hbatch]
    exact Nat.le_refl _
  | reconnect _ hpc _ =>
    have hge := stepsLeft_poll_ge hpc
    show 1 ≤ _
    omega
  | queryError _ hpc _ =>
    have hge := stepsLeft_poll_ge hpc
    show 3 ≤ _
    omega
  | rest _ _ hgo => exact absurd (hstop.symm.trans hgo) (by decide)
  | wakeToReconnect hpc =>
    rw [stepsLeft, stepsLeft, hpc]
    exact Nat.le_refl _
  | wake hpc =>
    rw [stepsLeft, stepsLeft, hpc]
    exact Nat.le_refl _
  | stay hpc =>
    rw [stepsLeft_eq_zero_iff.2 hpc]

theorem stepsLeft_of_frame (hpc : t.pc = s.pc) (hbatch : t.reader.batch = s.reader.batch) :
    t.stepsLeft = s.stepsLeft := by
  rw [stepsLeft, stepsLeft, hpc, hbatch]

theorem stepsLeft_of_step_neighbour (hother : ∀ outcome, a ≠ .thread outcome)
    (hstep : s.step db clock symbols a = some t) : t.stepsLeft = s.stepsLeft := by
  obtain ⟨hpc, -, hbatch, -⟩ := frame_of_step_neighbour hother hstep
  exact stepsLeft_of_frame hpc hbatch

/-- Whether an action is a step of the thread. -/
def Action.isThread : Action → Bool
  | .thread _ => true
  | _ => false

/-- The steps left of a stopping thread are a rank for its own steps. -/
theorem ranked (db : Database) (clock : ℕ → ℤ) (symbols : List (List UInt8)) :
    StepRun.Ranked (step db clock symbols) (fun s ↦ Placed s ∧ s.stop = true) stepsLeft
      (fun _ a ↦ a.isThread) (fun _ ↦ 0) where
  inv {s a t} hs hstep := by
    refine ⟨hs.1.of_step hstep, ?_⟩
    by_cases hthread : ∃ outcome, a = .thread outcome
    · obtain ⟨outcome, rfl⟩ := hthread
      cases rule_of_threadStep hstep <;> exact hs.2
    · exact (frame_of_step_neighbour (fun outcome ha ↦ hthread ⟨outcome, ha⟩) hstep).2.2.2 hs.2
  own_le {s a t} hs hown hstep := by
    cases a with
    | thread outcome => exact (rule_of_threadStep hstep).stepsLeft_le hs.2
    | _ => exact Bool.noConfusion hown
  other_le {s a t} _ hown hstep := by
    refine (stepsLeft_of_step_neighbour (fun outcome ha ↦ ?_) hstep).le
    subst ha
    exact Bool.noConfusion hown
  zero {s a t} hs hzero hstep := by
    by_cases hthread : ∃ outcome, a = .thread outcome
    · obtain ⟨outcome, rfl⟩ := hthread
      have hle := (rule_of_threadStep hstep).stepsLeft_le hs.2
      omega
    · exact (stepsLeft_of_step_neighbour (fun outcome ha ↦ hthread ⟨outcome, ha⟩) hstep).trans hzero

section Runs

variable {table : List Row} {output : BoundedQueue MarketTick 16384} {before : List Action}

theorem placed_of_run (hrun : StepRun.run (step db clock symbols) (init table output) before =
    some s) : Placed s :=
  StepRun.run_invariant (fun _ _ _ h hstep ↦ h.of_step hstep) (placed_init table output) hrun

/-- **The thread of the reader ends when it is asked to, and only then.** Whatever its neighbours do
and however the calls to the database end: its reader is in a state of a run of the reader, it is
never stuck, it has returned only on a stop request, and 56 of its own steps after a stop request
it has returned, with a batch half handed on, a lost connection or a sleep begun included. -/
theorem thread_returns
    (hbefore : StepRun.run (step db clock symbols) (init table output) before = some s) :
    (∃ moves, StepRun.run (PostgresFeedReader.step db clock symbols)
        (PostgresFeedReader.init table output) moves = some s.reader) ∧
      (∀ outcome, (s.step db clock symbols (.thread outcome)).isSome = true) ∧
      (s.pc = .exited → s.stop = true) ∧
      ∀ {acts t}, s.stop = true → StepRun.run (step db clock symbols) s acts = some t →
        56 ≤ acts.countP Action.isThread → t.pc = .exited := by
  have hplaced := placed_of_run hbefore
  refine ⟨reader_of_run hbefore, hplaced.isSome_threadStep, hplaced.stop,
    fun {acts t} hstop hrun hsteps ↦ ?_⟩
  refine stepsLeft_eq_zero_iff.1
    ((ranked db clock symbols).rank_eq_zero_of_le ⟨hplaced, hstop⟩ hrun ?_)
  rw [StepRun.length_made_eq_countP hrun, List.map_const', List.sum_replicate, nsmul_zero,
    Nat.add_zero]
  exact hplaced.stepsLeft_le.trans hsteps

/-- The request comes when one row of two is handed on. -/
theorem thread_returns_halfway :
    let steps := step sortingDatabase (fun _ ↦ 1) [[65]]
    ∃ s t, StepRun.run steps (init [sampleRow 0 65 100, sampleRow 1 65 200] BoundedQueue.empty)
        (List.replicate 6 (.thread .ok) ++ [.requestStop]) = some s ∧
      s.reader.fetched.length = 1 ∧
      StepRun.run steps s (List.replicate 56 (.thread .ok)) = some t ∧ t.pc = .exited := by
  intro steps
  obtain ⟨s, hbefore, hfetched⟩ := Option.map_eq_some_iff.1 (by decide +kernel :
    (StepRun.run steps (init [sampleRow 0 65 100, sampleRow 1 65 200] BoundedQueue.empty)
      (List.replicate 6 (.thread .ok) ++ [.requestStop])).map
        (fun s ↦ (s.stop, s.reader.fetched.length)) = some (true, 1))
  obtain ⟨hstop, hlength⟩ := Prod.mk.inj hfetched
  obtain ⟨t, hrun, -⟩ := Option.map_eq_some_iff.1 (by decide +kernel :
    (StepRun.run steps (init [sampleRow 0 65 100, sampleRow 1 65 200] BoundedQueue.empty)
      ((List.replicate 6 (.thread .ok) ++ [.requestStop]) ++ List.replicate 56 (.thread .ok))).map
        (fun s ↦ s.stop) = some true)
  obtain ⟨u, hu, hrest⟩ := StepRun.run_append_eq_some_iff.1 hrun
  obtain rfl : s = u := Option.some.inj (hbefore.symm.trans hu)
  exact ⟨s, t, hbefore, hlength, hrest,
    (thread_returns hbefore).2.2.2 hstop hrest (by decide +kernel)⟩

end Runs

end ReaderThread

end PostgresFeedReader

end Mdp
