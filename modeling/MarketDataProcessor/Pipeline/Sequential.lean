import MarketDataProcessor.Book.BookProcessor
import MarketDataProcessor.Processing.Normalizer
import MarketDataProcessor.Processing.TickParser
import MarketDataProcessor.Strategy.SignalEngine

/-!
# The sequential meaning of the pipeline

The four stages as functions of the raw ticks, with no threads and no queue ever full: what the
normalizer forwards, the book processor it leads to, the snapshots offered on the way and the
signals they give rise to. The concurrent model reaches these results in every interleaving; what
the pipeline computes is stated about them.

## What is offered and what is queued

`snapshotsAlong` collects offers, whatever becomes of them: `process_tick` pushes to queues that may
be full, and a snapshot refused by one is gone. `items_state_of_room` is the case in which offers
and queue contents are the same, a queue with room for all of them: nobody has to pop.
-/

namespace Mdp

open BookProcessor

/-- The ticks that reach the book processor. -/
def forwardedTicks (raw : List MarketTick) : List MarketTick :=
  Normalizer.normalize (TickParser.parse raw)

theorem validate_of_mem_forwardedTicks {raw : List MarketTick} {tick : MarketTick}
    (h : tick ∈ forwardedTicks raw) : TickParser.validate tick = true :=
  TickParser.mem_parse (Normalizer.mem_of_mem_normalize h)

variable (fl : FloatEnv) (dbQueue signalQueue : Option SnapshotQueue) (period : Period)

/-- The book processor after the raw ticks. -/
def processorAfter (raw : List MarketTick) : BookProcessor :=
  (offering fl).state (fresh dbQueue signalQueue) (forwardedTicks raw)

/-- The snapshots sent along the raw ticks; `items_processorAfter` says that a queue with room
receives them. -/
def snapshotsAlong (raw : List MarketTick) : List MarketSnapshot :=
  (offering fl).outputs (fresh dbQueue signalQueue) (forwardedTicks raw)

/-- The signals sent along the raw ticks, when the signal queue is attached. -/
def signalsAlong (raw : List MarketTick) : List Signal :=
  (SignalEngine.signalling fl).outputs (SignalEngine.new fl period)
    (snapshotsAlong fl dbQueue signalQueue raw)

/-! ### Queues with room -/

/-- A queue that has received `sent` has room for what has room beside it. -/
theorem room_of_map_items {queue queue' : Option SnapshotQueue} {sent rest : List MarketSnapshot}
    (hroom : ∀ q ∈ queue, q.items.length + (sent ++ rest).length ≤ 4096)
    (hitems : queue'.map BoundedQueue.items = queue.map fun q ↦ q.items ++ sent) :
    ∀ q ∈ queue', q.items.length + rest.length ≤ 4096 := by
  intro q' hq'
  have hmem : q'.items ∈ queue.map fun q ↦ q.items ++ sent :=
    hitems ▸ Option.mem_map_of_mem BoundedQueue.items hq'
  obtain ⟨q, hq, hsame⟩ := Option.mem_map.1 hmem
  have hle := hroom q hq
  rw [← hsame]
  simp only [List.length_append] at hle ⊢
  omega

theorem map_items_append {queue queue' : Option SnapshotQueue} {sent : List MarketSnapshot}
    (h : queue'.map BoundedQueue.items = queue.map fun q ↦ q.items ++ sent)
    (rest : List MarketSnapshot) :
    (queue'.map fun q ↦ q.items ++ rest) = queue.map fun q ↦ q.items ++ (sent ++ rest) := by
  have happend := congrArg (Option.map (· ++ rest)) h
  simpa only [Option.map_map, Function.comp_def, List.append_assoc] using happend

/-- **Queues with room receive every offer**, in order. -/
theorem items_state_of_room (bp : BookProcessor) (ticks : List MarketTick)
    (hdb : ∀ q ∈ bp.dbQueue, q.items.length + ((offering fl).outputs bp ticks).length ≤ 4096)
    (hsignal : ∀ q ∈ bp.signalQueue,
      q.items.length + ((offering fl).outputs bp ticks).length ≤ 4096) :
    ((offering fl).state bp ticks).dbQueue.map BoundedQueue.items =
        bp.dbQueue.map (fun q ↦ q.items ++ (offering fl).outputs bp ticks) ∧
      ((offering fl).state bp ticks).signalQueue.map BoundedQueue.items =
        bp.signalQueue.map fun q ↦ q.items ++ (offering fl).outputs bp ticks := by
  induction ticks generalizing bp with
  | nil =>
    simp only [Transducer.outputs_nil, List.append_nil]
    exact ⟨rfl, rfl⟩
  | cons tick ticks ih =>
    rw [Transducer.outputs_cons] at hdb hsignal
    have hle : (bp.offered fl tick).toList.length ≤ ((offering fl).emit bp tick ++
        (offering fl).outputs ((offering fl).next bp tick) ticks).length := by
      rw [List.length_append]
      exact Nat.le_add_right _ _
    obtain ⟨hdbItems, hsignalItems⟩ := bp.items_processTick_of_room fl tick
      (fun q hq ↦ (Nat.add_le_add_left hle _).trans (hdb q hq))
      (fun q hq ↦ (Nat.add_le_add_left hle _).trans (hsignal q hq))
    obtain ⟨hdbRest, hsignalRest⟩ := ih (bp.processTick fl tick) (room_of_map_items hdb hdbItems)
      (room_of_map_items hsignal hsignalItems)
    rw [Transducer.state_cons, Transducer.outputs_cons]
    exact ⟨hdbRest.trans (map_items_append hdbItems _),
      hsignalRest.trans (map_items_append hsignalItems _)⟩

/-- **An empty queue with room for them holds the snapshots sent along the raw ticks.** -/
theorem items_processorAfter (raw : List MarketTick)
    (hroom : (snapshotsAlong fl (some BoundedQueue.empty) (some BoundedQueue.empty) raw).length ≤
      4096) :
    let bp := processorAfter fl (some BoundedQueue.empty) (some BoundedQueue.empty) raw
    let snaps := snapshotsAlong fl (some BoundedQueue.empty) (some BoundedQueue.empty) raw
    bp.dbQueue.map BoundedQueue.items = some snaps ∧
      bp.signalQueue.map BoundedQueue.items = some snaps := by
  have hempty : ∀ q ∈ some (BoundedQueue.empty : SnapshotQueue), q.items.length +
      (snapshotsAlong fl (some BoundedQueue.empty) (some BoundedQueue.empty) raw).length ≤
        4096 := by
    rintro q hq
    obtain rfl := Option.some.inj hq
    exact (Nat.zero_add _).trans_le hroom
  exact items_state_of_room fl _ (forwardedTicks raw) hempty hempty

end Mdp
