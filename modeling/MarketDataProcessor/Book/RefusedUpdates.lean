import MarketDataProcessor.Book.Emission
import MarketDataProcessor.Book.Replay

/-!
# What a refused update leaves behind

The guard of `apply` stands below the two lines that count the call. So a refused delta leaves the
levels, the name and the count of removed levels, but not `sequence_` and `updates_applied_`, which
its header documents as the number of successful calls. `apply_of_refuses` is the whole difference.

A refused delta is always counted, so `updates_applied()` is the number of accepted deltas exactly
of the books that refused none since they were constructed or cleared (`AllAccepted`). The processor
stamps its snapshots with this count. Its book of a symbol is a replay of the deltas it made of the
symbol's ticks (`bookOf_of_run`), whatever the consumers of its queues did in between, so the stamp
of a snapshot is exact under the same condition on these deltas.

## What is compared with what

The comment in the header speaks of successful calls, the code counts calls. `updatesApplied_replay`
says what the code counts, `accepted` of the replay is what the comment means, and the difference is
the number of refused deltas: the two agree exactly if there is none
(`updatesApplied_eq_length_accepted_iff`).

The stamp of a snapshot needs one step more, from the processor to its book. `deltasTo` collects the
deltas a run has applied to the book of a symbol, and `bookOf_of_run` says that the book is their
replay; the consumers of the queues do not touch it. `counts_accepted_iff` then states the condition
once for the book and once for the stamps, over all sequences and all runs.
-/

namespace Mdp

open History

namespace OrderBook

variable {P : Type*} [LinearOrder P]

/-- No delta of the sequence is refused by the book it meets. -/
def AllAccepted (book : OrderBook P) (deltas : List (BookDelta P)) : Prop :=
  ∀ seen delta rest, deltas = seen ++ delta :: rest → (book.replay seen).refuses delta = false

/-- **A refused update counts, and does nothing else.** -/
theorem apply_of_refuses {book : OrderBook P} {delta : BookDelta P}
    (hr : book.refuses delta = true) :
    book.apply delta =
      { book with sequence := book.sequence + 1, updatesApplied := book.updatesApplied + 1 } := by
  have hr' : ({ book with
      sequence := book.sequence + 1
      updatesApplied := book.updatesApplied + 1 } : OrderBook P).refuses delta = true := hr
  rw [apply, if_pos hr']

/-- **Refused updates leave no trace exactly if there are none.** -/
theorem no_trace_iff (book : OrderBook P) (deltas : List (BookDelta P)) :
    (∀ seen delta rest, deltas = seen ++ delta :: rest → (book.replay seen).refuses delta = true →
        (book.replay seen).apply delta = book.replay seen) ↔ book.AllAccepted deltas := by
  constructor
  · intro h seen delta rest heq
    by_contra hne
    have hr : (book.replay seen).refuses delta = true := by simpa using hne
    have hcount := congrArg OrderBook.updatesApplied (h seen delta rest heq hr)
    rw [apply_of_refuses hr] at hcount
    exact absurd hcount (Nat.succ_ne_self _)
  · intro hall seen delta rest heq hr
    rw [hall seen delta rest heq] at hr
    exact absurd hr Bool.false_ne_true

/-- **Every call is counted.** -/
theorem updatesApplied_replay {book : OrderBook P} (h : book.Pristine)
    (deltas : List (BookDelta P)) : (book.replay deltas).updatesApplied = deltas.length := by
  induction deltas using List.reverseRecOn with
  | nil => rcases h with ⟨symbol, rfl⟩ | ⟨used, rfl⟩ <;> rfl
  | append_singleton deltas delta ih =>
    rw [replay_concat, updatesApplied_apply, ih, List.length_append, List.length_singleton]

/-- **The count is that of the accepted deltas exactly if there are no others.** -/
theorem updatesApplied_eq_length_accepted_iff {book : OrderBook P} (h : book.Pristine)
    (deltas : List (BookDelta P)) :
    (book.replay deltas).updatesApplied = (book.accepted deltas).length ↔
      book.AllAccepted deltas := by
  have hfilter := length_filterAlong_eq_iff
    (fun seen delta ↦ !(book.replay seen).refuses delta) deltas
  rw [updatesApplied_replay h, eq_comm, accepted, hfilter]
  simp only [AllAccepted, Bool.not_eq_true']

end OrderBook

open OrderBook BookProcessor

namespace BookRun

variable {fl : FloatEnv} {s : BookRun} {events : List Event}
  {dbQueue signalQueue : Option SnapshotQueue}

/-- The delta an event applies to the book of a symbol, if it does. -/
def deltaTo (fl : FloatEnv) (symbol : List UInt8) (s : BookRun) : Event → List (BookDelta Double)
  | .tick tick => if symbol = tick.symbol.key then [s.processor.deltaOf fl tick] else []
  | .dbPop => []
  | .signalPop => []

/-- The deltas a run applies to the book of a symbol. -/
def deltasTo (fl : FloatEnv) (symbol : List UInt8) (s : BookRun) (events : List Event) :
    List (BookDelta Double) :=
  StepRun.log (deltaTo fl symbol) (step fl) s events

/-- **The book of a symbol is the replay of its deltas.** -/
theorem bookOf_of_run (symbol : List UInt8)
    (h : StepRun.run (step fl) (init dbQueue signalQueue) events = some s) :
    s.processor.bookOf symbol =
      (new symbol).replay (deltasTo fl symbol (init dbQueue signalQueue) events) := by
  refine StepRun.run_invariant_log
    (P := fun s deltas ↦ s.processor.bookOf symbol = (new symbol).replay deltas)
    (fun s seen e t hs hstep ↦ ?_) rfl h
  cases e with
  | tick tick =>
    obtain rfl := Option.some.inj hstep
    show (s.processor.processTick fl tick).bookOf symbol = _
    rw [deltaTo]
    split_ifs with hkey
    · subst hkey
      rw [bookOf_processTick_self, replay_concat, hs]
    · rw [List.append_nil, ← hs, bookOf, bookOf, book_processTick_of_ne fl _ tick hkey]
  | dbPop =>
    obtain ⟨_, -, rfl⟩ := Option.map_eq_some_iff.1 hstep
    rw [deltaTo, List.append_nil]
    exact hs
  | signalPop =>
    obtain ⟨_, -, rfl⟩ := Option.map_eq_some_iff.1 hstep
    rw [deltaTo, List.append_nil]
    exact hs

/-- **A snapshot is stamped with the number of accepted updates** exactly if there were no others.
-/
theorem sequence_eq_length_accepted_iff {tick : MarketTick} {snap : MarketSnapshot}
    (h : StepRun.run (step fl) (init dbQueue signalQueue) events = some s)
    (hsnap : snap ∈ s.processor.offered fl tick) :
    let deltas := deltasTo fl tick.symbol.key (init dbQueue signalQueue) (events ++ [.tick tick])
    snap.sequence = ((new tick.symbol.key).accepted deltas).length ↔
      (new tick.symbol.key).AllAccepted deltas := by
  intro deltas
  obtain ⟨t, ht⟩ : ∃ t, s.step fl (.tick tick) = some t := ⟨_, rfl⟩
  have hrun : StepRun.run (step fl) (init dbQueue signalQueue) (events ++ [.tick tick]) = some t :=
    StepRun.run_append_eq_some_iff.2 ⟨s, h, StepRun.run_cons_eq_some_iff.2 ⟨t, ht, rfl⟩⟩
  have hbook := bookOf_of_run tick.symbol.key hrun
  have hstamp := (stamp_of_offered fl s.processor tick hsnap).2.2
  rw [← Option.some.inj ht] at hbook
  rw [hbook] at hstamp
  rw [hstamp, Nat.cast_inj]
  exact updatesApplied_eq_length_accepted_iff (Or.inl ⟨tick.symbol.key, rfl⟩) deltas

end BookRun

/-- **When the counts are those of the accepted updates.** Of a constructed or cleared book and any
sequence of `apply` calls: every refused delta left the whole book as it was exactly if no delta was
refused, and so with `updates_applied()` being the number of accepted deltas. And of every snapshot
a processor offers, in every run among its consumers: its sequence is the number of accepted deltas
of its symbol up to it exactly if none of these was refused. -/
theorem counts_accepted_iff (P : Type*) [LinearOrder P] :
    (∀ (book : OrderBook P) (deltas : List (BookDelta P)), book.Pristine →
        ((∀ seen delta rest, deltas = seen ++ delta :: rest →
            (book.replay seen).refuses delta = true →
            (book.replay seen).apply delta = book.replay seen) ↔ book.AllAccepted deltas) ∧
          ((book.replay deltas).updatesApplied = (book.accepted deltas).length ↔
            book.AllAccepted deltas)) ∧
      ∀ (fl : FloatEnv) (dbQueue signalQueue : Option SnapshotQueue) (events : List BookRun.Event)
        (s : BookRun) (tick : MarketTick) (snap : MarketSnapshot),
        StepRun.run (BookRun.step fl) (BookRun.init dbQueue signalQueue) events = some s →
        snap ∈ s.processor.offered fl tick →
        let deltas := BookRun.deltasTo fl tick.symbol.key (BookRun.init dbQueue signalQueue)
          (events ++ [.tick tick])
        (snap.sequence = ((new tick.symbol.key).accepted deltas).length ↔
          (new tick.symbol.key).AllAccepted deltas) :=
  ⟨fun book deltas hpristine ↦
    ⟨no_trace_iff book deltas, updatesApplied_eq_length_accepted_iff hpristine deltas⟩,
    fun _ _ _ _ _ _ _ h hsnap ↦ BookRun.sequence_eq_length_accepted_iff h hsnap⟩

/-- A bid at 100 and an ask at 101: the snapshot of the ask is stamped 2, so neither was refused. -/
theorem counts_accepted_two :
    let fl := FloatEnv.exact fun _ ↦ 0
    let start := BookRun.init (some BoundedQueue.empty) none
    ∃ s snap, StepRun.run (BookRun.step fl) start [.tick (.shareOfA 100)] = some s ∧
      snap ∈ s.processor.offered fl (.shareOfA 101) ∧ snap.sequence = 2 ∧
      (new [65]).AllAccepted (BookRun.deltasTo fl [65] start
        ([.tick (.shareOfA 100)] ++ [.tick (.shareOfA 101)])) := by
  intro fl start
  obtain ⟨s, hs⟩ : ∃ s, StepRun.run (BookRun.step fl) start [.tick (.shareOfA 100)] = some s :=
    ⟨_, rfl⟩
  have hoffered : (s.processor.offered fl (.shareOfA 101)).map MarketSnapshot.sequence = some 2 :=
    StepRun.eq_of_run_map
      (fun s ↦ (s.processor.offered fl (.shareOfA 101)).map MarketSnapshot.sequence) hs
      (by decide +kernel)
  obtain ⟨snap, hsnap, hsequence⟩ := Option.map_eq_some_iff.1 hoffered
  refine ⟨s, snap, hs, hsnap, hsequence, ?_⟩
  refine ((counts_accepted_iff Double).2 _ _ _ _ s _ snap hs hsnap).1 (hsequence.trans ?_)
  decide +kernel

/-- **A refused update is counted as if it had been applied.** A bid that crosses the ask there is
moves both counters, and a processor stamps a later snapshot of the symbol with a number that
includes it. -/
theorem refused_update_is_counted :
    (¬ ∀ (book : OrderBook Double) (deltas : List (BookDelta Double)), book.Pristine →
        ∀ seen delta rest, deltas = seen ++ delta :: rest →
          (book.replay seen).refuses delta = true →
          (book.replay seen).apply delta = book.replay seen) ∧
      (¬ ∀ (book : OrderBook Double) (deltas : List (BookDelta Double)), book.Pristine →
        (book.replay deltas).updatesApplied = (book.accepted deltas).length) ∧
      ¬ ∀ (fl : FloatEnv) (dbQueue signalQueue : Option SnapshotQueue)
        (events : List BookRun.Event) (s : BookRun) (tick : MarketTick) (snap : MarketSnapshot),
        StepRun.run (BookRun.step fl) (BookRun.init dbQueue signalQueue) events = some s →
        snap ∈ s.processor.offered fl tick →
        snap.sequence = ((new tick.symbol.key).accepted (BookRun.deltasTo fl tick.symbol.key
          (BookRun.init dbQueue signalQueue) (events ++ [.tick tick]))).length := by
  let delta : OrderSide → ℚ → BookDelta Double := fun side price ↦
    ⟨Vector.replicate 8 65, side, .fin price, 1, 0⟩
  have hnew : (new [65] : OrderBook Double).Pristine := Or.inl ⟨[65], rfl⟩
  refine ⟨fun hall ↦ ?_, fun hall ↦ ?_, fun hall ↦ ?_⟩
  · have hsame := hall (new [65]) [delta .ask 100, delta .bid 101] hnew [delta .ask 100]
      (delta .bid 101) [] rfl (by decide +kernel)
    exact absurd (congrArg OrderBook.updatesApplied hsame) (by decide +kernel)
  · exact absurd (hall (new [65]) [delta .ask 100, delta .bid 101] hnew) (by decide +kernel)
  · -- 2000000 is out of range, so it is taken for a bid, above the ask at 101
    let fl := FloatEnv.exact fun _ ↦ 0
    let events := [100, 101, 2000000].map fun price ↦ BookRun.Event.tick (.shareOfA price)
    obtain ⟨s, hs⟩ := Option.isSome_iff_exists.1 (by decide +kernel :
      (StepRun.run (BookRun.step fl) (BookRun.init (some BoundedQueue.empty) none) events).isSome =
        true)
    have hoffered :
        (s.processor.offered fl (.shareOfA (201 / 2))).map MarketSnapshot.sequence = some 4 :=
      StepRun.eq_of_run_map
        (fun s ↦ (s.processor.offered fl (.shareOfA (201 / 2))).map MarketSnapshot.sequence) hs
        (by decide +kernel)
    obtain ⟨snap, hsnap, hsequence⟩ := Option.map_eq_some_iff.1 hoffered
    have hcount := hall fl _ _ events s _ snap hs hsnap
    rw [hsequence] at hcount
    exact absurd hcount (by decide +kernel)

end Mdp
