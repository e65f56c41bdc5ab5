import Mathlib.Data.List.Basic

/-!
# Bounded FIFO queues

The abstract object every buffer of a pipeline refines: a list of at most `cap` elements, oldest
first, entered at the back and left at the front. The bound is a field, so an overfull queue cannot
be built and no consumer re-proves it.

Both operations are partial, as the code's are: `tryPush` refuses exactly on a full queue and
`tryPop` exactly on an empty one. Each has one characterization of success and one of failure; no
proof downstream unfolds either. `History` collects whole sequences of successful operations: an
implementation refines the queue when its successful operations form a history.

## The interface

Consumers use the four `iff` lemmas of success and failure, `exists_tryPush_eq_some` where a push is
known to find room, and for whole sequences `History.outs_append_items`: what left the queue,
followed by what it holds, is what entered. First in, first out is that equation, and a consumer who
has it needs no induction over operations of its own.

Nothing is said about who calls. Exclusive producers and consumers, stale reads and wrapping indices
belong to the implementations.
-/

/-- A FIFO queue of at most `cap` elements, oldest first. -/
structure BoundedQueue (α : Type*) (cap : ℕ) where
  /-- The elements held, oldest first. -/
  items : List α
  /-- The capacity is respected. -/
  length_le : items.length ≤ cap

namespace BoundedQueue

variable {α : Type*} {cap : ℕ}

theorem ext_items {p q : BoundedQueue α cap} (h : p.items = q.items) : p = q := by
  cases p
  cases q
  cases h
  rfl

/-- The empty queue. -/
def empty : BoundedQueue α cap := ⟨[], Nat.zero_le _⟩

/-- Enter an element at the back, or refuse when the queue is full. -/
def tryPush (q : BoundedQueue α cap) (a : α) : Option (BoundedQueue α cap) :=
  if h : q.items.length < cap then
    some ⟨q.items ++ [a], by rw [List.length_append]; exact h⟩
  else
    none

/-- Take the element at the front, or refuse when the queue is empty. -/
def tryPop (q : BoundedQueue α cap) : Option (α × BoundedQueue α cap) :=
  q.items.head?.map fun a ↦
    (a, ⟨q.items.tail, Nat.le_trans (List.tail_sublist q.items).length_le q.length_le⟩)

/-- The queue holds nothing. -/
def isEmpty (q : BoundedQueue α cap) : Bool := q.items.isEmpty

/-- The queue holds `cap` elements. -/
def isFull (q : BoundedQueue α cap) : Bool := q.items.length == cap

/-! ### What the operations do -/

theorem tryPush_eq_some_iff {q q' : BoundedQueue α cap} {a : α} :
    q.tryPush a = some q' ↔ q.items.length < cap ∧ q'.items = q.items ++ [a] := by
  rw [tryPush]
  split_ifs with h
  · rw [Option.some.injEq]
    exact ⟨fun e ↦ ⟨h, e ▸ rfl⟩, fun e ↦ ext_items e.2.symm⟩
  · exact ⟨fun e ↦ by simp at e, fun e ↦ absurd e.1 h⟩

/-- A push that finds room succeeds. -/
theorem exists_tryPush_eq_some {q : BoundedQueue α cap} (h : q.items.length < cap) (a : α) :
    ∃ q', q.tryPush a = some q' ∧ q'.items = q.items ++ [a] :=
  ⟨_, dif_pos h, rfl⟩

theorem tryPush_eq_none_iff {q : BoundedQueue α cap} {a : α} :
    q.tryPush a = none ↔ q.items.length = cap := by
  rw [tryPush]
  have hle := q.length_le
  split_ifs with h
  · exact ⟨fun e ↦ by simp at e, fun e ↦ by omega⟩
  · exact ⟨fun _ ↦ by omega, fun _ ↦ rfl⟩

theorem tryPop_eq_some_iff {q q' : BoundedQueue α cap} {a : α} :
    q.tryPop = some (a, q') ↔ q.items = a :: q'.items := by
  obtain ⟨items, hle⟩ := q
  cases items with
  | nil => simp [tryPop]
  | cons b rest =>
    show some (b, (⟨rest, _⟩ : BoundedQueue α cap)) = some (a, q') ↔ b :: rest = a :: q'.items
    rw [Option.some.injEq, Prod.mk.injEq, List.cons.injEq]
    exact ⟨fun e ↦ ⟨e.1, e.2 ▸ rfl⟩, fun e ↦ ⟨e.1, ext_items e.2⟩⟩

theorem tryPop_eq_none_iff {q : BoundedQueue α cap} : q.tryPop = none ↔ q.items = [] := by
  rw [tryPop, Option.map_eq_none_iff, List.head?_eq_none_iff]

theorem isFull_iff {q : BoundedQueue α cap} : q.isFull = true ↔ q.items.length = cap := by
  rw [isFull, beq_iff_eq]

theorem isEmpty_iff {q : BoundedQueue α cap} : q.isEmpty = true ↔ q.items = [] := by
  rw [isEmpty, List.isEmpty_iff]

/-! ### Histories -/

/-- `History ins outs q`: some sequence of successful pushes of `ins` and pops of `outs`, in these
orders and interleaved anyhow, leads from the empty queue to `q`. -/
inductive History : List α → List α → BoundedQueue α cap → Prop
  | empty : History [] [] empty
  | push {ins outs : List α} {q q' : BoundedQueue α cap} {a : α} :
    History ins outs q → q.tryPush a = some q' → History (ins ++ [a]) outs q'
  | pop {ins outs : List α} {q q' : BoundedQueue α cap} {a : α} :
    History ins outs q → q.tryPop = some (a, q') → History ins (outs ++ [a]) q'

/-- **First in, first out**: what left, followed by what is held, is what entered. -/
theorem History.outs_append_items {ins outs : List α} {q : BoundedQueue α cap}
    (h : History ins outs q) : outs ++ q.items = ins := by
  induction h with
  | empty => rfl
  | push _ hpush ih => rw [(tryPush_eq_some_iff.1 hpush).2, ← List.append_assoc, ih]
  | pop _ hpop ih =>
    rw [tryPop_eq_some_iff] at hpop
    rw [← ih, hpop, List.append_assoc, List.singleton_append]

end BoundedQueue
