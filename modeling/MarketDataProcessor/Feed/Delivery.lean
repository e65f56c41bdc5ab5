import MarketDataProcessor.Feed.Backlog
import MarketDataProcessor.Feed.ReaderThread

/-!
# How soon a row is handed on

`Backlog` counts polls; here the thread makes them. While the calls to the database succeed and
nobody asks it to stop, the thread of the reader comes to the end of a poll of `sym` again and
again: `stepsToPoll` is how many steps it is away, at most. A round is at most 53 steps for each
symbol (the test, the query, fifty rows and the end of the loop over them) and 23 for the sleep
around, which is what the count starts again from when a poll of `sym` is complete.

So `own_steps_le` bounds the steps of the thread by the polls of a symbol completed meanwhile, and
with `served_iff` a row that waits in the table is handed on, or overtaken for good, within a number
of steps that grows with its backlog (`delivered_within`).

## Steps paid for by polls

The count `stepsToPoll` goes down by one with every step of the thread, until a poll of the symbol
is complete; then it starts again from a round. `Paid` states that as an account between two states
of a run, `Paid.trans` adds accounts, and `Paid.of_rule` is the step lemma, one case for each rule
of the thread. Its largest case is the query: fifty rows come into the count at most (`Paid.query`,
`Placed.limit`).

`delivered_within` then chooses enough steps for the polls that `served_iff` asks for. Both
hypotheses on the actions are needed: a failing call sends the thread to a sleep or a new
connection, after which the round starts from its first symbol, and a stop request ends it.
-/

namespace Mdp

namespace PostgresFeedReader

variable {db : Database} {clock : ℕ → ℤ} {symbols : List (List UInt8)} {sym : List UInt8}

/-! ### The symbols of a round that are left -/

/-- What is left of a round is the end of the list of symbols. -/
theorem suffix_of_step {r t : Reader} {a : Action} (h : r.pending <:+ symbols)
    (hstep : step db clock symbols r a = some t) : t.pending <:+ symbols := by
  cases a with
  | insert row =>
    obtain ⟨-, rfl⟩ := step_insert_eq_some hstep
    exact h
  | outputPop =>
    obtain ⟨popped, -, rfl⟩ := Option.map_eq_some_iff.1 hstep
    exact h
  | startRound =>
    obtain ⟨-, -, rfl⟩ := step_startRound_eq_some hstep
    exact List.suffix_refl _
  | query =>
    obtain ⟨sym, rest, -, -, rfl⟩ := step_query_eq_some hstep
    exact h
  | row =>
    obtain ⟨sym, rest, row, rows, -, -, rfl⟩ := step_row_eq_some hstep
    show (Reader.handleRow clock sym r row).pending <:+ symbols
    rw [(handleRow_frame clock sym r row).2.2.1]
    exact h
  | nextSymbol =>
    obtain ⟨sym, rest, hpending, -, rfl⟩ := step_nextSymbol_eq_some hstep
    rw [hpending] at h
    exact (List.suffix_cons _ _).trans h
  | fail =>
    obtain rfl := step_fail_eq_some hstep
    exact List.nil_suffix
  | quit =>
    obtain ⟨-, rfl⟩ := step_quit_eq_some hstep
    exact List.nil_suffix

/-- The longest a round takes, with the sleep after it. -/
def roundSteps (symbols : List (List UInt8)) : ℕ := 53 * symbols.length + 23

/-- From the head of the loop over the symbols, with `pending` left: the steps to the end of the
next poll of `sym`, at most. -/
def stepsAhead (symbols : List (List UInt8)) (sym : List UInt8) : List (List UInt8) → ℕ
  | [] => 23 + 53 * (symbols.idxOf sym + 1)
  | c :: rest => 53 + if c = sym then 0 else stepsAhead symbols sym rest

theorem stepsAhead_of_mem {pending : List (List UInt8)} (h : sym ∈ pending) :
    stepsAhead symbols sym pending = 53 * (pending.idxOf sym + 1) := by
  induction pending with
  | nil => exact absurd h List.not_mem_nil
  | cons c rest ih =>
    by_cases hc : c = sym
    · rw [stepsAhead, if_pos hc, hc, List.idxOf_cons_self]
    · rw [stepsAhead, if_neg hc, ih ((List.mem_cons.1 h).resolve_left fun h ↦ hc h.symm),
        List.idxOf_cons_ne rest hc]
      omega

theorem stepsAhead_of_notMem {pending : List (List UInt8)} (h : sym ∉ pending) :
    stepsAhead symbols sym pending = 53 * pending.length + 23 + 53 * (symbols.idxOf sym + 1) := by
  induction pending with
  | nil =>
    rw [stepsAhead, List.length_nil]
  | cons c rest ih =>
    obtain ⟨hc, hrest⟩ := not_or.1 (List.mem_cons.not.1 h)
    rw [stepsAhead, if_neg (Ne.symm hc), ih hrest, List.length_cons]
    omega

/-- **Within a round of the next**: what is left of the round does not have the symbol twice over.
-/
theorem stepsAhead_le {pending : List (List UInt8)} (hsym : sym ∈ symbols)
    (hsuffix : pending <:+ symbols) : stepsAhead symbols sym pending ≤ roundSteps symbols := by
  obtain ⟨done, hdone⟩ := hsuffix
  have hlength : done.length + pending.length = symbols.length := by
    rw [← hdone, List.length_append]
  rw [roundSteps]
  by_cases hpending : sym ∈ pending
  · have hidx := List.idxOf_lt_length_of_mem hpending
    rw [stepsAhead_of_mem hpending]
    omega
  · have hin : sym ∈ done := by
      rw [← hdone] at hsym
      exact (List.mem_append.1 hsym).resolve_right hpending
    have hidx : symbols.idxOf sym < done.length := by
      rw [← hdone, List.idxOf_append_of_mem hin]
      exact List.idxOf_lt_length_of_mem hin
    rw [stepsAhead_of_notMem hpending]
    omega

namespace ReaderThread

variable {s t : ReaderThread} {a : Action}

/-! ### The steps to the next poll -/

/-- The steps of `interruptible_sleep`, when nobody asks to stop. -/
def sleepSteps (remaining : ℤ) : ℕ := ((remaining + 99) / 100).toNat + 1

theorem sleepSteps_sub {remaining : ℤ} (h : 0 < remaining) :
    sleepSteps (remaining - slice) + 1 = sleepSteps remaining := by
  rw [sleepSteps, sleepSteps, slice]
  omega

theorem sleepSteps_le {remaining : ℤ} (h : remaining ≤ 5000) : sleepSteps remaining ≤ 51 := by
  rw [sleepSteps]
  omega

/-- What is left of the poll of the current symbol, and from there. -/
def stepsInPoll (symbols : List (List UInt8)) (sym : List UInt8) (pending : List (List UInt8))
    (batch : Option (List Row)) : ℕ :=
  stepsAhead symbols sym pending - 53 + batch.elim 52 fun rows ↦ rows.length + 1

/-- In the poll of `c`, with `rest` left after it. -/
theorem stepsInPoll_cons (symbols : List (List UInt8)) (sym c : List UInt8)
    (rest : List (List UInt8)) (batch : Option (List Row)) :
    stepsInPoll symbols sym (c :: rest) batch =
      (if c = sym then 0 else stepsAhead symbols sym rest) +
        batch.elim 52 fun rows ↦ rows.length + 1 := by
  rw [stepsInPoll, stepsAhead, Nat.add_sub_cancel_left]

/-- The steps of the thread to the end of the next poll of `sym`, at most. -/
def stepsToPoll (symbols : List (List UInt8)) (sym : List UInt8) (s : ReaderThread) : ℕ :=
  match s.pc with
  | .outerTest => 3 + stepsAhead symbols sym symbols
  | .connect => 2 + stepsAhead symbols sym symbols
  | .innerTest => 1 + stepsAhead symbols sym symbols
  | .symbolTest => stepsAhead symbols sym s.reader.pending
  | .poll => stepsInPoll symbols sym s.reader.pending s.reader.batch
  | .sleep remaining true => sleepSteps remaining + 3 + stepsAhead symbols sym symbols
  | .sleep remaining false => sleepSteps remaining + 1 + stepsAhead symbols sym symbols
  | .exited => 0

/-- Where the thread can be: at its iterators, on the list of symbols, in one of its sleeps. -/
structure Situated (symbols : List (List UInt8)) (s : ReaderThread) : Prop where
  placed : Placed s
  suffix : s.reader.pending <:+ symbols
  sleep : ∀ {remaining reconnect}, s.pc = .sleep remaining reconnect → remaining ≤ 5000

/-- An action that asks for no stop and, if it is the thread's, whose call succeeds. -/
def Action.Fine : Action → Prop
  | .requestStop => False
  | .thread outcome => outcome = .ok
  | _ => True

theorem sleep_of_rule {outcome : Outcome} (hrule : Rule db clock symbols outcome s t)
    (h : ∀ {remaining reconnect}, s.pc = .sleep remaining reconnect → remaining ≤ 5000)
    {remaining : ℤ} {reconnect : Bool} (hpc : t.pc = .sleep remaining reconnect) :
    remaining ≤ 5000 := by
  cases hrule with
  | refused | endRound | quit | queryError =>
    obtain ⟨rfl, -⟩ := ThreadPc.sleep.inj hpc
    decide
  | rest hsleep =>
    obtain ⟨rfl, -⟩ := ThreadPc.sleep.inj hpc
    exact (Int.sub_le_self _ (by decide)).trans (h hsleep)
  | stay => exact h hpc
  | _ => cases hpc

theorem Situated.step (h : Situated symbols s) (hstep : s.step db clock symbols a = some t) :
    Situated symbols t := by
  refine ⟨h.placed.of_step hstep, ?_, fun {remaining reconnect} hpc ↦ ?_⟩
  · rcases reader_of_step hstep with hsame | ⟨move, hmove⟩
    · exact hsame ▸ h.suffix
    · exact suffix_of_step h.suffix hmove
  · by_cases hthread : ∃ outcome, a = .thread outcome
    · obtain ⟨outcome, rfl⟩ := hthread
      exact sleep_of_rule (rule_of_threadStep hstep) h.sleep hpc
    · have hframe := frame_of_step_neighbour (fun outcome ha ↦ hthread ⟨outcome, ha⟩) hstep
      exact h.sleep (hframe.1.symm.trans hpc)

theorem situated_of_run {table : List Row} {output : BoundedQueue MarketTick 16384}
    {acts : List Action}
    (hrun : StepRun.run (step db clock symbols) (init table output) acts = some s) :
    Situated symbols s :=
  StepRun.run_invariant (fun _ _ _ h hstep ↦ h.step hstep)
    ⟨placed_init table output, List.nil_suffix, nofun⟩ hrun

theorem stop_of_step (hfine : a.Fine) (hstep : s.step db clock symbols a = some t) :
    t.stop = s.stop := by
  cases a with
  | insert row =>
    obtain ⟨r, -, rfl⟩ := eq_of_move hstep
    rfl
  | outputPop =>
    obtain ⟨r, -, rfl⟩ := eq_of_move hstep
    rfl
  | requestStop => exact hfine.elim
  | thread outcome => cases rule_of_threadStep hstep <;> rfl

/-- The count is never much over a round: by the sleep before a new connection at most. -/
theorem Situated.stepsToPoll_le (h : Situated symbols s) (hsym : sym ∈ symbols) :
    stepsToPoll symbols sym s ≤ roundSteps symbols + 54 := by
  have hround := stepsAhead_le hsym (List.suffix_refl symbols)
  have hpending := stepsAhead_le hsym h.suffix
  unfold stepsToPoll
  split
  case h_5 hpc =>
    have hlimit := h.placed.limit
    unfold stepsInPoll
    cases hbatch : s.reader.batch with
    | none =>
      rw [Option.elim_none]
      omega
    | some rows =>
      rw [fetched_of_batch hbatch] at hlimit
      rw [Option.elim_some]
      omega
  case h_6 hpc =>
    have hsleep := sleepSteps_le (h.sleep hpc)
    omega
  case h_7 hpc =>
    have hsleep := sleepSteps_le (h.sleep hpc)
    omega
  all_goals omega

/-! ### The account of the steps -/

/-- From `s` to `t` the reader has made some moves, and `own` steps of the thread are paid for: by
the polls of `sym` they completed, a round each, and by what is less to go. -/
def Paid (db : Database) (clock : ℕ → ℤ) (symbols : List (List UInt8)) (sym : List UInt8) (own : ℕ)
    (s t : ReaderThread) : Prop :=
  ∃ moves, StepRun.run (PostgresFeedReader.step db clock symbols) s.reader moves = some t.reader ∧
    own + stepsToPoll symbols sym t ≤ stepsToPoll symbols sym s +
      roundSteps symbols * (polledAlong db clock symbols s.reader moves).count sym

theorem Paid.of_eq {own : ℕ} (hreader : t.reader = s.reader)
    (hle : own + stepsToPoll symbols sym t ≤ stepsToPoll symbols sym s) :
    Paid db clock symbols sym own s t :=
  ⟨[], congrArg some hreader.symm, hle.trans (Nat.le_add_right _ _)⟩

theorem polledAlong_singleton {r r' : Reader} {move : PostgresFeedReader.Action}
    (hmove : PostgresFeedReader.step db clock symbols r move = some r') :
    polledAlong db clock symbols r [move] = polled r move := by
  rw [polledAlong, StepRun.log, hmove]
  exact List.append_nil _

theorem Paid.of_move {own : ℕ} {move : PostgresFeedReader.Action}
    (hmove : PostgresFeedReader.step db clock symbols s.reader move = some t.reader)
    (hle : own + stepsToPoll symbols sym t ≤
      stepsToPoll symbols sym s + roundSteps symbols * (polled s.reader move).count sym) :
    Paid db clock symbols sym own s t := by
  refine ⟨[move], StepRun.run_cons_eq_some_iff.2 ⟨_, hmove, rfl⟩, ?_⟩
  rw [polledAlong_singleton hmove]
  exact hle

theorem Paid.trans {u : ReaderThread} {own own' : ℕ} (h : Paid db clock symbols sym own s u)
    (h' : Paid db clock symbols sym own' u t) : Paid db clock symbols sym (own + own') s t := by
  obtain ⟨moves, hrun, hle⟩ := h
  obtain ⟨moves', hrun', hle'⟩ := h'
  refine ⟨moves ++ moves', StepRun.run_append_eq_some_iff.2 ⟨_, hrun, hrun'⟩, ?_⟩
  rw [polledAlong, StepRun.log_append hrun, List.count_append, Nat.mul_add]
  rw [polledAlong] at hle hle'
  omega

theorem stepsToPoll_poll (hpc : s.pc = .poll) : stepsToPoll symbols sym s =
    stepsInPoll symbols sym s.reader.pending s.reader.batch := by
  rw [stepsToPoll, hpc]

/-- **The query**: at most fifty rows. -/
theorem Paid.query (hpc : s.pc = .poll) {r : Reader}
    (hmove : PostgresFeedReader.step db clock symbols s.reader .query = some r) :
    Paid db clock symbols sym 1 s { s with reader := r, pc := .poll } := by
  refine .of_move hmove ?_
  obtain ⟨c, rest, hpending, hbatch, rfl⟩ := step_query_eq_some hmove
  have hlimit := length_query_le db s.reader.queries s.reader.table c s.reader.lastSeenEpoch
  show 1 + stepsInPoll symbols sym s.reader.pending (some _) ≤ _
  rw [stepsToPoll_poll hpc, hpending, hbatch, stepsInPoll_cons, stepsInPoll_cons,
    Option.elim_none, Option.elim_some]
  omega

/-- **A row**: the batch gets shorter. -/
theorem Paid.row (hpc : s.pc = .poll) {r : Reader}
    (hmove : PostgresFeedReader.step db clock symbols s.reader .row = some r) :
    Paid db clock symbols sym 1 s { s with reader := r, pc := .poll } := by
  refine .of_move hmove ?_
  obtain ⟨c, rest, row, rows, hpending, hbatch, rfl⟩ := step_row_eq_some hmove
  have hsame : (Reader.handleRow clock c s.reader row).pending = c :: rest :=
    (handleRow_frame clock c s.reader row).2.2.1.trans hpending
  show 1 + stepsInPoll symbols sym (Reader.handleRow clock c s.reader row).pending (some rows) ≤ _
  rw [stepsToPoll_poll hpc, hsame, hpending, hbatch, stepsInPoll_cons, stepsInPoll_cons,
    Option.elim_some, Option.elim_some, List.length_cons]
  omega

/-- **The end of a poll**: of `sym`, and the count starts again; or of another symbol. -/
theorem Paid.nextSymbol (h : Situated symbols s) (hsym : sym ∈ symbols) (hpc : s.pc = .poll)
    {r : Reader}
    (hmove : PostgresFeedReader.step db clock symbols s.reader .nextSymbol = some r) :
    Paid db clock symbols sym 1 s { s with reader := r, pc := .symbolTest } := by
  refine .of_move hmove ?_
  obtain ⟨c, rest, hpending, hbatch, rfl⟩ := step_nextSymbol_eq_some hmove
  have hrest : stepsAhead symbols sym rest ≤ roundSteps symbols :=
    stepsAhead_le hsym ((List.suffix_cons c rest).trans (hpending ▸ h.suffix))
  rw [stepsToPoll_poll hpc, polled, hpending, hbatch, stepsInPoll_cons, List.head?_cons,
    Option.toList_some, List.count_singleton, Option.elim_some, List.length_nil]
  show 1 + stepsAhead symbols sym rest ≤ _
  by_cases hc : c = sym
  · rw [if_pos hc, if_pos (beq_iff_eq.2 hc)]
    omega
  · rw [if_neg hc, if_neg (mt beq_iff_eq.1 hc)]
    omega

/-- **Every step of the thread is paid for.** -/
theorem Paid.of_rule (h : Situated symbols s) (hstop : s.stop = false) (hsym : sym ∈ symbols)
    (hrule : Rule db clock symbols .ok s t) : Paid db clock symbols sym 1 s t := by
  cases hrule with
  | enter hpc _ =>
    refine .of_eq rfl ?_
    simp only [stepsToPoll, hpc]
    omega
  | leave _ hleave => exact absurd (hleave.symm.trans hstop) (by decide)
  | connected hpc =>
    refine .of_eq rfl ?_
    simp only [stepsToPoll, hpc]
    omega
  | refused hfails _ => exact absurd rfl hfails
  | startRound hpc _ hmove =>
    refine .of_move hmove ?_
    obtain ⟨-, -, rfl⟩ := step_startRound_eq_some hmove
    simp only [stepsToPoll, hpc]
    exact Nat.le_add_right _ _
  | disconnect _ hleave => exact absurd (hleave.symm.trans hstop) (by decide)
  | endRound hpc hpending =>
    refine .of_eq rfl ?_
    have hsleep : sleepSteps 2000 = 21 := rfl
    simp only [stepsToPoll, hpc, hpending, stepsAhead_of_mem hsym, stepsAhead, hsleep]
    omega
  | enterPoll hpc hpending _ =>
    obtain ⟨c, rest, hcons⟩ := List.exists_cons_of_ne_nil hpending
    refine .of_eq rfl ?_
    have hbatch : s.reader.batch = none := h.placed.batch (by simp [hpc])
    simp only [stepsToPoll, hpc, hcons, hbatch, stepsInPoll_cons, stepsAhead, Option.elim_none]
    omega
  | quit _ hleave _ => exact absurd (hleave.symm.trans hstop) (by decide)
  | query hpc _ hmove => exact .query hpc hmove
  | row hpc _ hmove => exact .row hpc hmove
  | nextSymbol hpc _ hmove => exact .nextSymbol h hsym hpc hmove
  | reconnect hfails _ _ => exact absurd rfl hfails
  | queryError hfails _ _ => exact absurd rfl hfails
  | @rest remaining reconnect hpc hleft _ =>
    refine .of_eq rfl ?_
    have hsleep := sleepSteps_sub hleft
    cases reconnect <;> simp only [stepsToPoll, hpc] <;> omega
  | wakeToReconnect hpc =>
    refine .of_eq rfl ?_
    simp only [stepsToPoll, hpc, sleepSteps]
    omega
  | wake hpc =>
    refine .of_eq rfl ?_
    simp only [stepsToPoll, hpc, sleepSteps]
    omega
  | stay hpc => exact absurd (hstop.symm.trans (h.placed.stop hpc)) (by decide)

theorem paid_of_step (h : Situated symbols s) (hstop : s.stop = false) (hsym : sym ∈ symbols)
    (hfine : a.Fine) (hstep : s.step db clock symbols a = some t) :
    Paid db clock symbols sym a.isThread.toNat s t := by
  cases a with
  | thread outcome =>
    obtain rfl : outcome = .ok := hfine
    exact .of_rule h hstop hsym (rule_of_threadStep hstep)
  | requestStop => exact hfine.elim
  | insert row =>
    obtain ⟨r, hmove, rfl⟩ := eq_of_move hstep
    refine .of_move hmove ?_
    obtain ⟨-, rfl⟩ := step_insert_eq_some hmove
    exact (Nat.zero_add _).le.trans (Nat.le_add_right _ _)
  | outputPop =>
    obtain ⟨r, hmove, rfl⟩ := eq_of_move hstep
    refine .of_move hmove ?_
    obtain ⟨popped, -, rfl⟩ := Option.map_eq_some_iff.1 hmove
    exact (Nat.zero_add _).le.trans (Nat.le_add_right _ _)

/-- **The account of a run**: the thread makes at most a round for each poll of the symbol it
completes, and what it was away from the first. -/
theorem own_steps_le {acts : List Action} (h : Situated symbols s) (hstop : s.stop = false)
    (hsym : sym ∈ symbols) (hfine : ∀ a ∈ acts, a.Fine)
    (hrun : StepRun.run (step db clock symbols) s acts = some t) :
    Paid db clock symbols sym (acts.countP Action.isThread) s t := by
  induction acts generalizing s with
  | nil =>
    obtain rfl := Option.some.inj hrun
    exact .of_eq rfl (Nat.zero_add _).le
  | cons a acts ih =>
    obtain ⟨u, hu, hrest⟩ := StepRun.run_cons_eq_some_iff.1 hrun
    have hfirst := hfine a List.mem_cons_self
    have hpaid := (paid_of_step h hstop hsym hfirst hu).trans
      (ih (h.step hu) ((stop_of_step hfirst hu).trans hstop)
        (fun b hb ↦ hfine b (List.mem_cons_of_mem _ hb)) hrest)
    rw [List.countP_cons, Nat.add_comm]
    cases hown : a.isThread <;> simpa [hown] using hpaid

section Runs

variable {table : List Row} {output : BoundedQueue MarketTick 16384} {before acts : List Action}
  {x : Row}

/-- **A waiting row is handed on in time, or never.** In every run of the thread of the reader:
take a row that waits in the table at a moment when no batch is open, and let `polls` polls of fifty
rows be what its symbol needs for all rows that wait or are inserted meanwhile. When the thread has
made that many rounds of steps since, and 54 more, with calls that succeeded and without a stop
request, the row has been pushed or counted as dropped; or the watermark has got past it, and it
never will be. -/
theorem delivered_within (htable : table.Nodup)
    (hbefore : StepRun.run (step db clock symbols) (init table output) before = some s)
    (hstop : s.stop = false) (hidle : s.reader.batch = none)
    (hfine : ∀ a ∈ acts, a.Fine) (hrun : StepRun.run (step db clock symbols) s acts = some t)
    (hx : Watched symbols x) (hmem : x ∈ s.reader.table) (polls : ℕ)
    (hpolls : watchedOf t.reader.table x.symbol ≤ s.reader.handledOf x.symbol + 50 * polls)
    (hsteps : roundSteps symbols * polls + 54 < acts.countP Action.isThread) :
    x ∈ t.reader.handled ∨ Passed x t.reader := by
  have hsituated := situated_of_run hbefore
  obtain ⟨seen, hseen⟩ := reader_of_run hbefore
  obtain ⟨moves, hmoves, hpaid⟩ := own_steps_le hsituated hstop hx.2.1 hfine hrun
  have hmade : polls ≤ (polledAlong db clock symbols s.reader moves).count x.symbol := by
    have haway := hsituated.stepsToPoll_le hx.2.1
    refine Nat.lt_succ_iff.1 (Nat.lt_of_mul_lt_mul_left (a := roundSteps symbols) ?_)
    rw [Nat.mul_succ]
    omega
  by_cases havoid : StepRun.Avoids (PostgresFeedReader.step db clock symbols)
      (fun u a ↦ Overtakes u x a) (PostgresFeedReader.init table output) (seen ++ moves)
  · refine Or.inl ((served_iff htable hseen hidle hmoves hx hmem ?_).2 havoid)
    exact hpolls.trans (Nat.add_le_add_left (Nat.mul_le_mul_left 50 hmade) _)
  · simp only [StepRun.Avoids, not_forall, not_not] at havoid
    obtain ⟨first, a, rest, u, hsplit, hfirst, hover⟩ := havoid
    exact Or.inr (passed_of_run hsplit hfirst hover
      (StepRun.run_append_eq_some_iff.2 ⟨_, hseen, hmoves⟩))

/-- Two rows of the one symbol at the start: one poll. -/
theorem delivered_within_two :
    let steps := step sortingDatabase (fun _ ↦ 1) [[65]]
    let start := init [sampleRow 1 65 200, sampleRow 0 65 100] BoundedQueue.empty
    ∃ t, StepRun.run steps start (List.replicate 131 (.thread .ok)) = some t ∧
      (sampleRow 1 65 200 ∈ t.reader.handled ∨ Passed (sampleRow 1 65 200) t.reader) := by
  intro steps start
  obtain ⟨t, hrun, hwatched⟩ := Option.map_eq_some_iff.1 (by decide +kernel :
    (StepRun.run steps start (List.replicate 131 (.thread .ok))).map
      (fun t ↦ watchedOf t.reader.table [65]) = some 2)
  have hbefore : StepRun.run steps start [] = some start := rfl
  refine ⟨t, hrun, delivered_within (by decide +kernel) hbefore rfl rfl (fun a ha ↦ ?_) hrun
    ⟨rfl, by decide, by decide +kernel⟩ (by decide +kernel) 1 ?_ (by decide +kernel)⟩
  · obtain ⟨-, rfl⟩ := List.mem_replicate.1 ha
    rfl
  · show watchedOf t.reader.table [65] ≤ _
    rw [hwatched]
    decide +kernel

end Runs

end ReaderThread

end PostgresFeedReader

end Mdp
