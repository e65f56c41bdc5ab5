import MarketDataProcessor.Foundations.StepRun
import MarketDataProcessor.Foundations.WrapCounter
import Mathlib.Logic.Function.Basic

/-!
# The single-producer single-consumer ring buffer

`RingBuffer<T, N>` of `core/RingBuffer.hpp`, at the granularity of its memory accesses. `tryPush`
and `tryPop` are split into the steps the source writes them in: load the own index, load the
opposing index, test, touch the slot, store the own index. An interleaving is a list of
`SpscAction`s, and nothing restricts how the two threads' steps alternate.

## Stale loads

An index is kept with its whole modification order (`AlignedIndex`). A thread loads its **own**
index at its latest value, since it alone writes it. A load of the **opposing** index names the
position in the modification order it returns: any position from the one the thread last read there
up to the latest. This is coherence and nothing more, so it contains every load that returns some
value the index held since the thread's previous load.

## Counters

`head` and `tail` are 64-bit and wrap. The full test is the source's equality on the wrapping
difference, and a slot is the source's mask; neither is replaced by arithmetic on unbounded numbers.

## Ghosts

`pushed` and `popped` are the elements of successful pushes and pops so far, `slots` the slot each
pushed element was written to, and the two return logs record what each call returned together with
an `Observation` of the moment it loaded the opposing index. No step reads a ghost.
-/

namespace Mdp

open WrapCounter

/-- `concept PowerOfTwo`: the test the template parameter `N` has to pass. -/
def PowerOfTwo (N : ℕ) : Prop := 0 < N ∧ N &&& (N - 1) = 0

instance (N : ℕ) : Decidable (PowerOfTwo N) := inferInstanceAs (Decidable (_ ∧ _))

theorem PowerOfTwo.isPowerOfTwo {N : ℕ} (h : PowerOfTwo N) : N.isPowerOfTwo :=
  Nat.ne_zero_and_sub_one_eq_zero_iff_isPowerOfTwo.1 ⟨h.1.ne', h.2⟩

/-- A capacity a ring buffer can be instantiated at. -/
structure RingCapacity where
  /-- The template parameter. -/
  N : ℕ
  /-- The concept it has to satisfy. -/
  powerOfTwo : PowerOfTwo N
  /-- A power of two that leaves the counters' modulus out of reach. -/
  le_two_pow : N ≤ 2 ^ 63

namespace RingCapacity

variable (C : RingCapacity)

/-- `counter & (N - 1)`: the slot of a counter value. -/
def slot (c : BitVec 64) : Fin C.N := ⟨maskSlot C.N c, maskSlot_lt C.powerOfTwo.1 c⟩

/-- `(head - tail) == N`: the full test. -/
def isFull (head tail : BitVec 64) : Bool := head - tail == BitVec.ofNat 64 C.N

end RingCapacity

/-! ### Atomic indices -/

/-- An atomic index with its modification order: the initial value and the stores, oldest first. -/
structure AlignedIndex where
  /-- The value before the first store. -/
  init : BitVec 64
  /-- The stores, oldest first. -/
  stores : List (BitVec 64)

namespace AlignedIndex

/-- The latest value: what the owning thread's relaxed load returns. -/
def load (x : AlignedIndex) : BitVec 64 := x.stores.getLastD x.init

/-- The position of the latest value in the modification order. -/
def latest (x : AlignedIndex) : ℕ := x.stores.length

/-- The value at a position of the modification order. -/
def loadAt (x : AlignedIndex) (j : ℕ) : Option (BitVec 64) := (x.init :: x.stores)[j]?

/-- A release store. -/
def store (x : AlignedIndex) (v : BitVec 64) : AlignedIndex := { x with stores := x.stores ++ [v] }

end AlignedIndex

/-! ### The buffer and its two threads -/

/-- The shared memory of a ring buffer. -/
structure RingBuffer (T : Type*) (C : RingCapacity) where
  /-- `buffer_`: the slots. -/
  buffer : Fin C.N → T
  /-- `head_`: the write index. -/
  head : AlignedIndex
  /-- `tail_`: the read index. -/
  tail : AlignedIndex

/-- What held when a call loaded the opposing index: a ghost of the return logs. -/
structure Observation where
  /-- The load returned the index's latest value. -/
  current : Bool
  /-- The number of elements held at that moment. -/
  held : ℕ
  deriving DecidableEq

/-- Where the producer stands inside `try_push`. -/
inductive PushState (T : Type*) where
  /-- Outside `try_push`. -/
  | idle
  /-- `head` is loaded; `tail_` is to be loaded. -/
  | loadTail (item : T) (head : BitVec 64)
  /-- Both are loaded; the full test is next. -/
  | fullTest (item : T) (head tail : BitVec 64) (obs : Observation)
  /-- Not full; the slot is to be written. -/
  | writeSlot (item : T) (head : BitVec 64)
  /-- The slot is written; `head + 1` is to be stored. -/
  | storeHead (item : T) (head : BitVec 64)

/-- Where the consumer stands inside `try_pop`. -/
inductive PopState (T : Type*) where
  /-- Outside `try_pop`. -/
  | idle
  /-- `tail` is loaded; `head_` is to be loaded. -/
  | loadHead (tail : BitVec 64)
  /-- Both are loaded; the empty test is next. -/
  | emptyTest (tail head : BitVec 64) (obs : Observation)
  /-- Not empty; the slot is to be read. -/
  | readSlot (tail : BitVec 64)
  /-- The slot is read; `tail + 1` is to be stored. -/
  | storeTail (out : T) (tail : BitVec 64)

/-- A ring buffer with one producer and one consumer. -/
structure Spsc (T : Type*) (C : RingCapacity) where
  /-- The shared memory. -/
  ring : RingBuffer T C
  /-- The producer's place. -/
  producer : PushState T
  /-- The consumer's place. -/
  consumer : PopState T
  /-- The position in `tail_`'s modification order the producer last read. -/
  seenTail : ℕ
  /-- The position in `head_`'s modification order the consumer last read. -/
  seenHead : ℕ
  /-- The elements of successful pushes. -/
  pushed : List T
  /-- The elements of successful pops. -/
  popped : List T
  /-- The slot each pushed element was written to. -/
  slots : List (Fin C.N)
  /-- What each `try_push` so far decided to return. -/
  pushReturns : List (Observation × Bool)
  /-- What each `try_pop` so far decided to return. -/
  popReturns : List (Observation × Bool)

/-- One memory access of one thread. Loads of the opposing index name the position they return. -/
inductive SpscAction (T : Type*) where
  | pushCall (item : T)
  | pushLoadTail (j : ℕ)
  | pushTest
  | pushWrite
  | pushStore
  | popCall
  | popLoadHead (j : ℕ)
  | popTest
  | popRead
  | popStore

namespace Spsc

variable {T : Type*} {C : RingCapacity}

/-- The number of elements held: pushed and not popped. -/
def held (s : Spsc T C) : ℕ := s.pushed.length - s.popped.length

/-- The slots that hold an element pushed and not popped. -/
def occupied (s : Spsc T C) : List (Fin C.N) := s.slots.drop s.popped.length

/-- A fresh buffer whose counters start at `start`; the slots hold arbitrary values. -/
def init (start : BitVec 64) (buffer : Fin C.N → T) : Spsc T C where
  ring := { buffer, head := ⟨start, []⟩, tail := ⟨start, []⟩ }
  producer := .idle
  consumer := .idle
  seenTail := 0
  seenHead := 0
  pushed := []
  popped := []
  slots := []
  pushReturns := []
  popReturns := []

/-- The steps of `try_push`. -/
def pushStep (s : Spsc T C) : SpscAction T → Option (Spsc T C)
  | .pushCall item =>
    match s.producer with
    | .idle => some { s with producer := .loadTail item s.ring.head.load }
    | _ => none
  | .pushLoadTail j =>
    match s.producer with
    | .loadTail item head =>
      -- possibly stale, never older than what this thread has already read
      if s.seenTail ≤ j then
        (s.ring.tail.loadAt j).map fun tail ↦
          { s with
            producer := .fullTest item head tail ⟨j == s.ring.tail.latest, s.held⟩
            seenTail := j }
      else none
    | _ => none
  | .pushTest =>
    match s.producer with
    | .fullTest item head tail obs =>
      if C.isFull head tail then
        some { s with producer := .idle, pushReturns := s.pushReturns ++ [(obs, false)] }
      else
        some { s with
          producer := .writeSlot item head
          pushReturns := s.pushReturns ++ [(obs, true)] }
    | _ => none
  | .pushWrite =>
    match s.producer with
    | .writeSlot item head =>
      some { s with
        producer := .storeHead item head
        ring := { s.ring with buffer := Function.update s.ring.buffer (C.slot head) item } }
    | _ => none
  | .pushStore =>
    match s.producer with
    | .storeHead item head =>
      some { s with
        producer := .idle
        ring := { s.ring with head := s.ring.head.store (head + 1) }
        pushed := s.pushed ++ [item]
        slots := s.slots ++ [C.slot head] }
    | _ => none
  | _ => none

/-- The steps of `try_pop`. -/
def popStep (s : Spsc T C) : SpscAction T → Option (Spsc T C)
  | .popCall =>
    match s.consumer with
    | .idle => some { s with consumer := .loadHead s.ring.tail.load }
    | _ => none
  | .popLoadHead j =>
    match s.consumer with
    | .loadHead tail =>
      if s.seenHead ≤ j then
        (s.ring.head.loadAt j).map fun head ↦
          { s with
            consumer := .emptyTest tail head ⟨j == s.ring.head.latest, s.held⟩
            seenHead := j }
      else none
    | _ => none
  | .popTest =>
    match s.consumer with
    | .emptyTest tail head obs =>
      if head = tail then
        some { s with consumer := .idle, popReturns := s.popReturns ++ [(obs, false)] }
      else
        some { s with consumer := .readSlot tail, popReturns := s.popReturns ++ [(obs, true)] }
    | _ => none
  | .popRead =>
    match s.consumer with
    | .readSlot tail => some { s with consumer := .storeTail (s.ring.buffer (C.slot tail)) tail }
    | _ => none
  | .popStore =>
    match s.consumer with
    | .storeTail out tail =>
      some { s with
        consumer := .idle
        ring := { s.ring with tail := s.ring.tail.store (tail + 1) }
        popped := s.popped ++ [out] }
    | _ => none
  | _ => none

/-- One step of either thread. -/
def step (s : Spsc T C) (a : SpscAction T) : Option (Spsc T C) :=
  (s.pushStep a).or (s.popStep a)

end Spsc

end Mdp
