import MarketDataProcessor.Core.RingBuffer
import MarketDataProcessor.Foundations.BoundedQueue

/-!
# The ring buffer is a bounded FIFO queue

What holds between any two memory accesses of the producer and the consumer, for every interleaving,
every choice of stale loads and every start of the counters.

## The invariant

`Spsc.Inv` is stated against the unbounded positions: `pushed.length` for `head_` and
`popped.length` for `tail_`. The counters are those positions reduced modulo `2 ^ 64`
(`AlignedIndex.Tracks`), so wrapping never enters an argument about the threads. Three inequalities
carry the proof:

* the consumer never passes what it has seen of `head_` (`popped_le_seenHead`);
* the producer never runs more than `N` past what it has seen of `tail_` (`room`);
* what a thread has seen is never ahead of what is there (`seenTail_le`, `seenHead_le`).

The full test is an **equality**, so `room` is what makes it sound: the distance to the stale tail
is at most `N`, so failing to be `N` means being less.

## What follows

`Inv.popped_prefix` is the FIFO property, `Inv.held_le` the bound, `Inv.slot_notMem_occupied` the
absence of overwriting, `Inv.not_racing` the absence of a torn slot, and the two return logs are
exact whenever the load they rest on was current. `step_refines` reads the same invariant as a
simulation: a store of `head_` is a push of the bounded queue, a store of `tail_` a pop, and every
other access leaves the queue alone.
-/

namespace Mdp

open WrapCounter

/-! ### Indices that count -/

namespace AlignedIndex

/-- The modification order is a counter's: `start`, then `n` successive increments. -/
def Tracks (start : BitVec 64) (n : ℕ) (x : AlignedIndex) : Prop :=
  x.init = start ∧ x.stores = (List.range n).map fun i ↦ advance start (i + 1)

theorem tracks_fresh (start : BitVec 64) : Tracks start 0 ⟨start, []⟩ := ⟨rfl, rfl⟩

variable {start : BitVec 64} {n : ℕ} {x : AlignedIndex}

theorem Tracks.latest_eq (h : x.Tracks start n) : x.latest = n := by
  rw [latest, h.2, List.length_map, List.length_range]

theorem Tracks.load_eq (h : x.Tracks start n) : x.load = advance start n := by
  rw [load, h.1, h.2]
  cases n with
  | zero => exact (advance_zero start).symm
  | succ n => simp [List.range_succ]

/-- A load that returns position `j` returns the counter's `j`-th value. -/
theorem Tracks.of_loadAt (h : x.Tracks start n) {j : ℕ} {v : BitVec 64}
    (hj : x.loadAt j = some v) : j ≤ n ∧ v = advance start j := by
  rw [loadAt, h.1, h.2] at hj
  cases j with
  | zero =>
    rw [List.getElem?_cons_zero, Option.some.injEq] at hj
    exact ⟨Nat.zero_le _, by rw [← hj, advance_zero]⟩
  | succ j =>
    rw [List.getElem?_cons_succ, List.getElem?_map, Option.map_eq_some_iff] at hj
    obtain ⟨i, hi, rfl⟩ := hj
    obtain ⟨hlt, rfl⟩ := List.getElem?_eq_some_iff.1 hi
    rw [List.length_range] at hlt
    exact ⟨hlt, by rw [List.getElem_range]⟩

theorem Tracks.store_succ (h : x.Tracks start n) :
    (x.store (advance start n + 1)).Tracks start (n + 1) := by
  refine ⟨h.1, ?_⟩
  show x.stores ++ [advance start n + 1] = _
  rw [h.2, List.range_succ, List.map_append, List.map_singleton, advance_succ]

end AlignedIndex

namespace RingCapacity

variable (C : RingCapacity)

theorem lt_two_pow : C.N < 2 ^ 64 := lt_of_le_of_lt C.le_two_pow (by norm_num)

/-- Positions less than `N` apart have different slots. -/
theorem slot_advance_ne (start : BitVec 64) {m n : ℕ} (hlt : m < n) (hd : n < m + C.N) :
    C.slot (advance start m) ≠ C.slot (advance start n) := by
  intro h
  have hval : (C.slot (advance start m)).val = (C.slot (advance start n)).val := by rw [h]
  exact maskSlot_advance_ne C.powerOfTwo.isPowerOfTwo C.lt_two_pow.le start hlt hd hval

/-- **The equality test is a full test** on positions at most `N` apart. -/
theorem isFull_advance_iff (start : BitVec 64) {m n : ℕ} (hle : m ≤ n) (hd : n ≤ m + C.N) :
    C.isFull (advance start n) (advance start m) = true ↔ n = m + C.N := by
  have hlt := C.lt_two_pow
  rw [isFull, beq_iff_eq, advance_sub_advance_eq_iff start hle (by omega) hlt]
  omega

end RingCapacity

namespace Spsc

variable {T : Type*} {C : RingCapacity} {start : BitVec 64} {s t : Spsc T C}

/-! ### The invariant -/

/-- What the producer's place promises. -/
def ProducerInv (start : BitVec 64) (s : Spsc T C) : Prop :=
  match s.producer with
  | .idle => True
  | .loadTail _ head => head = advance start s.pushed.length
  | .fullTest _ head tail obs =>
    head = advance start s.pushed.length ∧ tail = advance start s.seenTail ∧
      (obs.current = true → obs.held = s.pushed.length - s.seenTail)
  | .writeSlot _ head =>
    head = advance start s.pushed.length ∧ s.pushed.length < s.seenTail + C.N
  | .storeHead item head =>
    head = advance start s.pushed.length ∧ s.pushed.length < s.seenTail + C.N ∧
      s.ring.buffer (C.slot head) = item

/-- What the consumer's place promises. -/
def ConsumerInv (start : BitVec 64) (s : Spsc T C) : Prop :=
  match s.consumer with
  | .idle => True
  | .loadHead tail => tail = advance start s.popped.length
  | .emptyTest tail head obs =>
    tail = advance start s.popped.length ∧ head = advance start s.seenHead ∧
      (obs.current = true → obs.held = s.seenHead - s.popped.length)
  | .readSlot tail => tail = advance start s.popped.length ∧ s.popped.length < s.seenHead
  | .storeTail out tail =>
    tail = advance start s.popped.length ∧ s.popped.length < s.seenHead ∧
      s.pushed[s.popped.length]? = some out

/-- What holds between any two accesses. -/
structure Inv (start : BitVec 64) (s : Spsc T C) : Prop where
  /-- `head_` counts the pushes. -/
  head_tracks : s.ring.head.Tracks start s.pushed.length
  /-- `tail_` counts the pops. -/
  tail_tracks : s.ring.tail.Tracks start s.popped.length
  /-- Pops return what was pushed, in order. -/
  popped_prefix : s.popped <+: s.pushed
  /-- The producer's view of `tail_` is not ahead. -/
  seenTail_le : s.seenTail ≤ s.popped.length
  /-- The producer is at most `N` past its view of `tail_`. -/
  room : s.pushed.length ≤ s.seenTail + C.N
  /-- The consumer's view of `head_` is not ahead. -/
  seenHead_le : s.seenHead ≤ s.pushed.length
  /-- The consumer is not past its view of `head_`. -/
  popped_le_seenHead : s.popped.length ≤ s.seenHead
  /-- The `i`-th pushed element went to the slot of position `i`. -/
  slots_eq : s.slots = (List.range s.pushed.length).map fun i ↦ C.slot (advance start i)
  /-- An unpopped element is still in its slot. -/
  cells : ∀ i x, s.popped.length ≤ i → s.pushed[i]? = some x →
    s.ring.buffer (C.slot (advance start i)) = x
  /-- The producer's place. -/
  producer : ProducerInv start s
  /-- The consumer's place. -/
  consumer : ConsumerInv start s
  /-- A push on a current load returned `false` exactly on a full buffer. -/
  pushReturns : ∀ r ∈ s.pushReturns, r.1.current = true → (r.2 = false ↔ r.1.held = C.N)
  /-- A pop on a current load returned `false` exactly on an empty buffer. -/
  popReturns : ∀ r ∈ s.popReturns, r.1.current = true → (r.2 = false ↔ r.1.held = 0)

theorem inv_init (start : BitVec 64) (buffer : Fin C.N → T) : (init start buffer).Inv start where
  head_tracks := AlignedIndex.tracks_fresh start
  tail_tracks := AlignedIndex.tracks_fresh start
  popped_prefix := List.prefix_rfl
  seenTail_le := le_rfl
  room := Nat.zero_le _
  seenHead_le := le_rfl
  popped_le_seenHead := le_rfl
  slots_eq := rfl
  cells := fun i x _ h ↦ by simp [init] at h
  producer := trivial
  consumer := trivial
  pushReturns := fun r hr ↦ absurd hr List.not_mem_nil
  popReturns := fun r hr ↦ absurd hr List.not_mem_nil

/-! ### What the places promise -/

theorem Inv.of_writeSlot (hs : s.Inv start) {item : T} {head : BitVec 64}
    (hp : s.producer = .writeSlot item head) :
    head = advance start s.pushed.length ∧ s.pushed.length < s.seenTail + C.N := by
  have hprod := hs.producer
  rwa [ProducerInv, hp] at hprod

theorem Inv.of_storeHead (hs : s.Inv start) {item : T} {head : BitVec 64}
    (hp : s.producer = .storeHead item head) :
    head = advance start s.pushed.length ∧ s.pushed.length < s.seenTail + C.N ∧
      s.ring.buffer (C.slot head) = item := by
  have hprod := hs.producer
  rwa [ProducerInv, hp] at hprod

theorem Inv.of_readSlot (hs : s.Inv start) {tail : BitVec 64} (hc : s.consumer = .readSlot tail) :
    tail = advance start s.popped.length ∧ s.popped.length < s.seenHead := by
  have hcons := hs.consumer
  rwa [ConsumerInv, hc] at hcons

theorem Inv.of_storeTail (hs : s.Inv start) {out : T} {tail : BitVec 64}
    (hc : s.consumer = .storeTail out tail) :
    tail = advance start s.popped.length ∧ s.popped.length < s.seenHead ∧
      s.pushed[s.popped.length]? = some out := by
  have hcons := hs.consumer
  rwa [ConsumerInv, hc] at hcons

/-- A return log stays exact when what is added to it is. -/
theorem returns_concat {log : List (Observation × Bool)} {k : ℕ} {obs : Observation} {b : Bool}
    (hlog : ∀ r ∈ log, r.1.current = true → (r.2 = false ↔ r.1.held = k))
    (hlast : obs.current = true → (b = false ↔ obs.held = k)) :
    ∀ r ∈ log ++ [(obs, b)], r.1.current = true → (r.2 = false ↔ r.1.held = k) := by
  intro r hr
  rcases List.mem_append.1 hr with hr | hr
  · exact hlog r hr
  · obtain rfl := List.mem_singleton.1 hr
    exact hlast

/-! ### What each access can do -/

theorem step_pushCall {item : T} (h : s.step (.pushCall item) = some t) :
    s.producer = .idle ∧ t = { s with producer := .loadTail item s.ring.head.load } := by
  cases hp : s.producer <;> simp [step, pushStep, popStep, hp] at h
  exact ⟨rfl, h.symm⟩

theorem step_pushLoadTail {j : ℕ} (h : s.step (.pushLoadTail j) = some t) :
    ∃ item head tail, s.producer = .loadTail item head ∧ s.seenTail ≤ j ∧
      s.ring.tail.loadAt j = some tail ∧
      t = { s with
        producer := .fullTest item head tail ⟨j == s.ring.tail.latest, s.held⟩
        seenTail := j } := by
  cases hp : s.producer <;> simp [step, pushStep, popStep, hp] at h
  obtain ⟨hle, tail, htail, rfl⟩ := h
  exact ⟨_, _, tail, rfl, hle, htail, rfl⟩

theorem step_pushTest (h : s.step .pushTest = some t) :
    ∃ item head tail obs, s.producer = .fullTest item head tail obs ∧
      ((C.isFull head tail = true ∧
          t = { s with producer := .idle, pushReturns := s.pushReturns ++ [(obs, false)] }) ∨
        (C.isFull head tail = false ∧
          t = { s with
            producer := .writeSlot item head
            pushReturns := s.pushReturns ++ [(obs, true)] })) := by
  cases hp : s.producer <;> simp [step, pushStep, popStep, hp] at h
  next item head tail obs =>
    refine ⟨item, head, tail, obs, rfl, ?_⟩
    split at h
    · next hfull => exact Or.inl ⟨hfull, (Option.some.inj h).symm⟩
    · next hfull => exact Or.inr ⟨by simpa using hfull, (Option.some.inj h).symm⟩

theorem step_pushWrite (h : s.step .pushWrite = some t) :
    ∃ item head, s.producer = .writeSlot item head ∧
      t = { s with
        producer := .storeHead item head
        ring := { s.ring with buffer := Function.update s.ring.buffer (C.slot head) item } } := by
  cases hp : s.producer <;> simp [step, pushStep, popStep, hp] at h
  exact ⟨_, _, rfl, h.symm⟩

theorem step_pushStore (h : s.step .pushStore = some t) :
    ∃ item head, s.producer = .storeHead item head ∧
      t = { s with
        producer := .idle
        ring := { s.ring with head := s.ring.head.store (head + 1) }
        pushed := s.pushed ++ [item]
        slots := s.slots ++ [C.slot head] } := by
  cases hp : s.producer <;> simp [step, pushStep, popStep, hp] at h
  exact ⟨_, _, rfl, h.symm⟩

theorem step_popCall (h : s.step .popCall = some t) :
    s.consumer = .idle ∧ t = { s with consumer := .loadHead s.ring.tail.load } := by
  cases hc : s.consumer <;> simp [step, pushStep, popStep, hc] at h
  exact ⟨rfl, h.symm⟩

theorem step_popLoadHead {j : ℕ} (h : s.step (.popLoadHead j) = some t) :
    ∃ tail head, s.consumer = .loadHead tail ∧ s.seenHead ≤ j ∧
      s.ring.head.loadAt j = some head ∧
      t = { s with
        consumer := .emptyTest tail head ⟨j == s.ring.head.latest, s.held⟩
        seenHead := j } := by
  cases hc : s.consumer <;> simp [step, pushStep, popStep, hc] at h
  obtain ⟨hle, head, hhead, rfl⟩ := h
  exact ⟨_, head, rfl, hle, hhead, rfl⟩

theorem step_popTest (h : s.step .popTest = some t) :
    ∃ tail head obs, s.consumer = .emptyTest tail head obs ∧
      ((head = tail ∧
          t = { s with consumer := .idle, popReturns := s.popReturns ++ [(obs, false)] }) ∨
        (head ≠ tail ∧
          t = { s with
            consumer := .readSlot tail
            popReturns := s.popReturns ++ [(obs, true)] })) := by
  cases hc : s.consumer <;> simp [step, pushStep, popStep, hc] at h
  next tail head obs =>
    refine ⟨tail, head, obs, rfl, ?_⟩
    split at h
    · next heq => exact Or.inl ⟨heq, (Option.some.inj h).symm⟩
    · next heq => exact Or.inr ⟨heq, (Option.some.inj h).symm⟩

theorem step_popRead (h : s.step .popRead = some t) :
    ∃ tail, s.consumer = .readSlot tail ∧
      t = { s with consumer := .storeTail (s.ring.buffer (C.slot tail)) tail } := by
  cases hc : s.consumer <;> simp [step, pushStep, popStep, hc] at h
  exact ⟨_, rfl, h.symm⟩

theorem step_popStore (h : s.step .popStore = some t) :
    ∃ out tail, s.consumer = .storeTail out tail ∧
      t = { s with
        consumer := .idle
        ring := { s.ring with tail := s.ring.tail.store (tail + 1) }
        popped := s.popped ++ [out] } := by
  cases hc : s.consumer <;> simp [step, pushStep, popStep, hc] at h
  exact ⟨_, _, rfl, h.symm⟩

/-! ### Each access keeps the invariant -/

theorem Inv.pushCall {item : T} (hs : s.Inv start) (h : s.step (.pushCall item) = some t) :
    t.Inv start := by
  obtain ⟨-, rfl⟩ := step_pushCall h
  exact { hs with producer := hs.head_tracks.load_eq }

theorem Inv.pushLoadTail {j : ℕ} (hs : s.Inv start) (h : s.step (.pushLoadTail j) = some t) :
    t.Inv start := by
  obtain ⟨item, head, tail, hp, hle, htail, rfl⟩ := step_pushLoadTail h
  obtain ⟨hj, rfl⟩ := hs.tail_tracks.of_loadAt htail
  have hhead : head = advance start s.pushed.length := by
    have := hs.producer
    rwa [ProducerInv, hp] at this
  have hroom := hs.room
  refine { hs with seenTail_le := hj, room := ?_, producer := ⟨hhead, rfl, fun hcur ↦ ?_⟩ }
  · show s.pushed.length ≤ j + C.N
    omega
  · have hlatest : j = s.popped.length := by
      rw [← hs.tail_tracks.latest_eq]
      exact beq_iff_eq.1 hcur
    show s.held = s.pushed.length - j
    rw [hlatest, held]

theorem Inv.pushTest (hs : s.Inv start) (h : s.step .pushTest = some t) : t.Inv start := by
  obtain ⟨item, head, tail, obs, hp, hcase⟩ := step_pushTest h
  have hprod := hs.producer
  rw [ProducerInv, hp] at hprod
  obtain ⟨rfl, rfl, hobs⟩ := hprod
  have hle : s.seenTail ≤ s.pushed.length := hs.seenTail_le.trans hs.popped_prefix.length_le
  have hfull := C.isFull_advance_iff start hle hs.room
  have hroom := hs.room
  -- on a current load `obs.held` is the distance the test looked at
  have hheld : obs.current = true → (obs.held = C.N ↔ s.pushed.length = s.seenTail + C.N) := by
    intro hcur
    rw [hobs hcur]
    omega
  rcases hcase with ⟨hf, rfl⟩ | ⟨hf, rfl⟩
  · have hN := hfull.1 hf
    exact { hs with
      producer := trivial
      pushReturns := returns_concat hs.pushReturns fun hcur ↦ by simp [hheld hcur, hN] }
  · have hN : s.pushed.length ≠ s.seenTail + C.N := fun e ↦ by rw [hfull.2 e] at hf; simp at hf
    have hlt : s.pushed.length < s.seenTail + C.N := by omega
    exact { hs with
      producer := ⟨rfl, hlt⟩
      pushReturns := returns_concat hs.pushReturns fun hcur ↦ by simp [hheld hcur, hN] }

theorem Inv.pushWrite (hs : s.Inv start) (h : s.step .pushWrite = some t) : t.Inv start := by
  obtain ⟨item, head, hp, rfl⟩ := step_pushWrite h
  obtain ⟨rfl, hlt⟩ := hs.of_writeSlot hp
  have hseen := hs.seenTail_le
  refine { hs with cells := fun i x hi hx ↦ ?_, producer := ⟨rfl, hlt, ?_⟩ }
  · -- an unpopped position is less than `N` behind, so its slot is another one
    have hip : i < s.pushed.length := (List.getElem?_eq_some_iff.1 hx).1
    have hne : C.slot (advance start i) ≠ C.slot (advance start s.pushed.length) :=
      C.slot_advance_ne start hip (by
        have : s.popped.length ≤ i := hi
        omega)
    show Function.update s.ring.buffer _ item _ = x
    rw [Function.update_of_ne hne]
    exact hs.cells i x hi hx
  · exact Function.update_self _ _ _

theorem Inv.pushStore (hs : s.Inv start) (h : s.step .pushStore = some t) : t.Inv start := by
  obtain ⟨item, head, hp, rfl⟩ := step_pushStore h
  obtain ⟨rfl, hlt, hcell⟩ := hs.of_storeHead hp
  have hlen : (s.pushed ++ [item]).length = s.pushed.length + 1 := by simp
  refine { hs with
    head_tracks := ?_
    popped_prefix := hs.popped_prefix.trans (List.prefix_append _ _)
    room := ?_
    seenHead_le := ?_
    slots_eq := ?_
    cells := fun i x hi hx ↦ ?_
    producer := trivial
    consumer := ?_ }
  · show (s.ring.head.store _).Tracks start (s.pushed ++ [item]).length
    rw [hlen]
    exact hs.head_tracks.store_succ
  · show (s.pushed ++ [item]).length ≤ s.seenTail + C.N
    omega
  · show s.seenHead ≤ (s.pushed ++ [item]).length
    have := hs.seenHead_le
    omega
  · show s.slots ++ [_] = (List.range (s.pushed ++ [item]).length).map _
    rw [hlen, List.range_succ, List.map_append, List.map_singleton, hs.slots_eq]
  · -- the new element sits in the slot just written; the older ones have not moved
    have hx' : (s.pushed ++ [item])[i]? = some x := hx
    rcases Nat.lt_or_ge i s.pushed.length with hip | hip
    · rw [List.getElem?_append_left hip] at hx'
      exact hs.cells i x hi hx'
    · obtain ⟨hlt', -⟩ := List.getElem?_eq_some_iff.1 hx'
      have hi' : i = s.pushed.length := by omega
      subst hi'
      rw [List.getElem?_concat_length, Option.some.injEq] at hx'
      rw [← hx']
      exact hcell
  · -- the consumer may hold an element it has read; appending does not move it
    have hc := hs.consumer
    rw [ConsumerInv] at hc ⊢
    cases hcons : s.consumer with
    | storeTail out tail =>
      rw [hcons] at hc
      obtain ⟨htail, hpos, hout⟩ := hc
      refine ⟨htail, hpos, ?_⟩
      show (s.pushed ++ [item])[s.popped.length]? = some out
      rw [List.getElem?_append_left (List.getElem?_eq_some_iff.1 hout).1]
      exact hout
    | idle => trivial
    | loadHead tail => rwa [hcons] at hc
    | emptyTest tail head obs => rwa [hcons] at hc
    | readSlot tail => rwa [hcons] at hc

theorem Inv.popCall (hs : s.Inv start) (h : s.step .popCall = some t) : t.Inv start := by
  obtain ⟨-, rfl⟩ := step_popCall h
  exact { hs with consumer := hs.tail_tracks.load_eq }

theorem Inv.popLoadHead {j : ℕ} (hs : s.Inv start) (h : s.step (.popLoadHead j) = some t) :
    t.Inv start := by
  obtain ⟨tail, head, hc, hle, hhead, rfl⟩ := step_popLoadHead h
  obtain ⟨hj, rfl⟩ := hs.head_tracks.of_loadAt hhead
  have htail : tail = advance start s.popped.length := by
    have := hs.consumer
    rwa [ConsumerInv, hc] at this
  refine { hs with
    seenHead_le := hj
    popped_le_seenHead := hs.popped_le_seenHead.trans hle
    consumer := ⟨htail, rfl, fun hcur ↦ ?_⟩ }
  have hlatest : j = s.pushed.length := by
    rw [← hs.head_tracks.latest_eq]
    exact beq_iff_eq.1 hcur
  show s.held = j - s.popped.length
  rw [hlatest, held]

/-- The buffer never holds more than `N` elements. -/
theorem Inv.held_le (hs : s.Inv start) : s.held ≤ C.N := by
  have hroom := hs.room
  have hseen := hs.seenTail_le
  rw [held]
  omega

theorem Inv.popTest (hs : s.Inv start) (h : s.step .popTest = some t) : t.Inv start := by
  obtain ⟨tail, head, obs, hc, hcase⟩ := step_popTest h
  have hcons := hs.consumer
  rw [ConsumerInv, hc] at hcons
  obtain ⟨rfl, rfl, hobs⟩ := hcons
  have hle := hs.popped_le_seenHead
  have hdist : s.seenHead - s.popped.length < 2 ^ 64 := by
    have hheld := hs.held_le
    have hseen := hs.seenHead_le
    have hN := C.lt_two_pow
    rw [held] at hheld
    omega
  have hempty := advance_eq_advance_iff start hle hdist
  have hheld : obs.current = true → (obs.held = 0 ↔ s.seenHead = s.popped.length) := by
    intro hcur
    rw [hobs hcur]
    omega
  rcases hcase with ⟨heq, rfl⟩ | ⟨hne, rfl⟩
  · have hpos := hempty.1 heq
    exact { hs with
      consumer := trivial
      popReturns := returns_concat hs.popReturns fun hcur ↦ by simp [hheld hcur, hpos] }
  · have hpos : s.seenHead ≠ s.popped.length := fun e ↦ hne (hempty.2 e)
    have hlt : s.popped.length < s.seenHead := by omega
    exact { hs with
      consumer := ⟨rfl, hlt⟩
      popReturns := returns_concat hs.popReturns fun hcur ↦ by simp [hheld hcur, hpos] }

theorem Inv.popRead (hs : s.Inv start) (h : s.step .popRead = some t) : t.Inv start := by
  obtain ⟨tail, hc, rfl⟩ := step_popRead h
  obtain ⟨rfl, hlt⟩ := hs.of_readSlot hc
  have hpushed : s.popped.length < s.pushed.length := lt_of_lt_of_le hlt hs.seenHead_le
  have hget : s.pushed[s.popped.length]? = some (s.pushed.get ⟨_, hpushed⟩) :=
    List.getElem?_eq_getElem hpushed
  refine { hs with consumer := ⟨rfl, hlt, ?_⟩ }
  show s.pushed[s.popped.length]? = some (s.ring.buffer _)
  rw [hs.cells _ _ le_rfl hget]
  exact hget

theorem Inv.popStore (hs : s.Inv start) (h : s.step .popStore = some t) : t.Inv start := by
  obtain ⟨out, tail, hc, rfl⟩ := step_popStore h
  obtain ⟨rfl, hlt, hout⟩ := hs.of_storeTail hc
  have hlen : (s.popped ++ [out]).length = s.popped.length + 1 := by simp
  refine { hs with
    tail_tracks := ?_
    popped_prefix := ?_
    seenTail_le := ?_
    popped_le_seenHead := ?_
    cells := fun i x hi hx ↦ ?_
    consumer := trivial }
  · show (s.ring.tail.store _).Tracks start (s.popped ++ [out]).length
    rw [hlen]
    exact hs.tail_tracks.store_succ
  · -- the element read is the first of those not popped
    obtain ⟨rest, hrest⟩ := hs.popped_prefix
    show s.popped ++ [out] <+: s.pushed
    rw [← hrest, List.getElem?_append_right le_rfl, Nat.sub_self] at hout
    obtain ⟨rest', rfl⟩ : ∃ rest', rest = out :: rest' := by
      cases rest with
      | nil => simp at hout
      | cons a rest' => exact ⟨rest', by simpa using hout⟩
    exact ⟨rest', by rw [← hrest, List.append_assoc, List.singleton_append]⟩
  · show s.seenTail ≤ (s.popped ++ [out]).length
    have := hs.seenTail_le
    omega
  · show (s.popped ++ [out]).length ≤ s.seenHead
    omega
  · have hi' : (s.popped ++ [out]).length ≤ i := hi
    exact hs.cells i x (by omega) hx

/-- **One access keeps the invariant.** -/
theorem Inv.step (hs : s.Inv start) {a : SpscAction T} (h : s.step a = some t) : t.Inv start := by
  cases a with
  | pushCall item => exact hs.pushCall h
  | pushLoadTail j => exact hs.pushLoadTail h
  | pushTest => exact hs.pushTest h
  | pushWrite => exact hs.pushWrite h
  | pushStore => exact hs.pushStore h
  | popCall => exact hs.popCall h
  | popLoadHead j => exact hs.popLoadHead h
  | popTest => exact hs.popTest h
  | popRead => exact hs.popRead h
  | popStore => exact hs.popStore h

/-- **Every interleaving keeps the invariant.** -/
theorem inv_of_run {buffer : Fin C.N → T} {acts : List (SpscAction T)}
    (h : StepRun.run Spsc.step (init start buffer) acts = some s) : s.Inv start :=
  StepRun.run_invariant (fun _ _ _ hs hstep ↦ hs.step hstep) (inv_init start buffer) h

/-! ### Slots -/

/-- **A slot is never written while it holds an unpopped element.** -/
theorem Inv.slot_notMem_occupied (hs : s.Inv start) {item : T} {head : BitVec 64}
    (hp : s.producer = .writeSlot item head) : C.slot head ∉ s.occupied := by
  obtain ⟨rfl, hlt⟩ := hs.of_writeSlot hp
  rw [occupied, hs.slots_eq, ← List.map_drop]
  intro hmem
  obtain ⟨i, hi, heq⟩ := List.mem_map.1 hmem
  obtain ⟨hpop, hpush⟩ : s.popped.length ≤ i ∧ i < s.pushed.length := by
    rw [List.range_eq_range', List.drop_range'] at hi
    have := List.mem_range'_1.1 hi
    have := hs.popped_prefix.length_le
    omega
  have hseen := hs.seenTail_le
  exact C.slot_advance_ne start hpush (by omega) heq

/-- **No torn slot**: the producer is never about to write the slot the consumer is about to
read. -/
theorem Inv.not_racing (hs : s.Inv start) {item : T} {head tail : BitVec 64}
    (hp : s.producer = .writeSlot item head) (hc : s.consumer = .readSlot tail) :
    C.slot head ≠ C.slot tail := by
  obtain ⟨rfl, hlt⟩ := hs.of_writeSlot hp
  obtain ⟨rfl, hpos⟩ := hs.of_readSlot hc
  have hseen := hs.seenTail_le
  have hhead := hs.seenHead_le
  exact (C.slot_advance_ne start (by omega) (by omega)).symm

/-! ### Refinement of the bounded queue -/

/-- The queue the buffer holds: what is pushed and not popped. -/
def toQueue (s : Spsc T C) (hs : s.Inv start) : BoundedQueue T C.N :=
  ⟨s.pushed.drop s.popped.length, by rw [List.length_drop]; exact hs.held_le⟩

/-- **The simulation**: each access is a push of the bounded queue, a pop of it, or leaves it
alone. -/
theorem step_refines (hs : s.Inv start) {a : SpscAction T} (h : s.step a = some t) :
    (t.toQueue (hs.step h) = s.toQueue hs ∧ t.pushed = s.pushed ∧ t.popped = s.popped) ∨
      (∃ item, t.pushed = s.pushed ++ [item] ∧ t.popped = s.popped ∧
        (s.toQueue hs).tryPush item = some (t.toQueue (hs.step h))) ∨
      (∃ out, t.pushed = s.pushed ∧ t.popped = s.popped ++ [out] ∧
        (s.toQueue hs).tryPop = some (out, t.toQueue (hs.step h))) := by
  cases a with
  | pushStore =>
    obtain ⟨item, head, hp, rfl⟩ := step_pushStore h
    obtain ⟨-, hlt, -⟩ := hs.of_storeHead hp
    have hseen := hs.seenTail_le
    have hle := hs.popped_prefix.length_le
    refine Or.inr (Or.inl ⟨item, rfl, rfl, BoundedQueue.tryPush_eq_some_iff.2 ⟨?_, ?_⟩⟩)
    · show (s.pushed.drop s.popped.length).length < C.N
      rw [List.length_drop]
      omega
    · exact List.drop_append_of_le_length hle
  | popStore =>
    obtain ⟨out, tail, hc, rfl⟩ := step_popStore h
    obtain ⟨hlt, hout⟩ := List.getElem?_eq_some_iff.1 (hs.of_storeTail hc).2.2
    refine Or.inr (Or.inr ⟨out, rfl, rfl, BoundedQueue.tryPop_eq_some_iff.2 ?_⟩)
    show s.pushed.drop s.popped.length = out :: s.pushed.drop (s.popped ++ [out]).length
    rw [List.drop_eq_getElem_cons hlt, hout, List.length_append, List.length_singleton]
  | pushCall item => obtain ⟨-, rfl⟩ := step_pushCall h; exact Or.inl ⟨rfl, rfl, rfl⟩
  | pushLoadTail j =>
    obtain ⟨_, _, _, -, -, -, rfl⟩ := step_pushLoadTail h
    exact Or.inl ⟨rfl, rfl, rfl⟩
  | pushTest =>
    obtain ⟨_, _, _, _, -, ⟨-, rfl⟩ | ⟨-, rfl⟩⟩ := step_pushTest h <;> exact Or.inl ⟨rfl, rfl, rfl⟩
  | pushWrite => obtain ⟨_, _, -, rfl⟩ := step_pushWrite h; exact Or.inl ⟨rfl, rfl, rfl⟩
  | popCall => obtain ⟨-, rfl⟩ := step_popCall h; exact Or.inl ⟨rfl, rfl, rfl⟩
  | popLoadHead j =>
    obtain ⟨_, _, -, -, -, rfl⟩ := step_popLoadHead h
    exact Or.inl ⟨rfl, rfl, rfl⟩
  | popTest =>
    obtain ⟨_, _, _, -, ⟨-, rfl⟩ | ⟨-, rfl⟩⟩ := step_popTest h <;> exact Or.inl ⟨rfl, rfl, rfl⟩
  | popRead => obtain ⟨_, -, rfl⟩ := step_popRead h; exact Or.inl ⟨rfl, rfl, rfl⟩

/-- **Every interleaving is a history of the bounded queue.** -/
theorem history_of_run {buffer : Fin C.N → T} {acts : List (SpscAction T)}
    (h : StepRun.run Spsc.step (init start buffer) acts = some s) :
    BoundedQueue.History s.pushed s.popped (s.toQueue (inv_of_run h)) := by
  -- the history is carried along the run together with the invariant it is stated over
  have hboth : ∃ hs : s.Inv start, BoundedQueue.History s.pushed s.popped (s.toQueue hs) := by
    refine StepRun.run_invariant
      (P := fun u ↦ ∃ hu : u.Inv start, BoundedQueue.History u.pushed u.popped (u.toQueue hu))
      ?_ ⟨inv_init start buffer, BoundedQueue.History.empty⟩ h
    rintro u a v ⟨hu, hist⟩ hstep
    refine ⟨hu.step hstep, ?_⟩
    rcases step_refines hu hstep with ⟨hq, hpushed, hpopped⟩ | ⟨item, hpushed, hpopped, hq⟩ |
      ⟨out, hpushed, hpopped, hq⟩
    · rw [hq, hpushed, hpopped]
      exact hist
    · rw [hpushed, hpopped]
      exact hist.push hq
    · rw [hpushed, hpopped]
      exact hist.pop hq
  exact hboth.2

/-! ### The refinement theorem -/

/-- **The ring buffer refines a bounded FIFO queue.** After any interleaving of one producer's and
one consumer's accesses, from counters at any common start and with any coherent stale loads:
successful pushes and pops form a history of the bounded queue, so pops are a prefix of pushes; at
most `N` elements are held; the producer is never about to write a slot that holds an unpopped
element, nor one the consumer is about to read; and a call whose load of the opposing index was
current returned `false` exactly when the buffer was full, respectively empty, at that load. -/
theorem ringBuffer_refines_boundedQueue (C : RingCapacity) (start : BitVec 64)
    (buffer : Fin C.N → T) (acts : List (SpscAction T)) (s : Spsc T C)
    (h : StepRun.run Spsc.step (init start buffer) acts = some s) :
    (∃ q : BoundedQueue T C.N, BoundedQueue.History s.pushed s.popped q) ∧
      s.popped <+: s.pushed ∧ s.held ≤ C.N ∧
      (∀ item head, s.producer = .writeSlot item head →
        C.slot head ∉ s.occupied ∧
          ∀ tail, s.consumer = .readSlot tail → C.slot head ≠ C.slot tail) ∧
      (∀ r ∈ s.pushReturns, r.1.current = true → (r.2 = false ↔ r.1.held = C.N)) ∧
      (∀ r ∈ s.popReturns, r.1.current = true → (r.2 = false ↔ r.1.held = 0)) := by
  have hs := inv_of_run h
  have hist := history_of_run h
  refine ⟨⟨_, hist⟩, ⟨_, hist.outs_append_items⟩, hs.held_le, fun item head hp ↦ ?_,
    hs.pushReturns, hs.popReturns⟩
  exact ⟨hs.slot_notMem_occupied hp, fun tail hc ↦ hs.not_racing hp hc⟩

/-- Two slots, counters one below the wrap: the third push is refused, and the pop goes ahead on a
stale load that sees one element of two. -/
theorem ringBuffer_refines_boundedQueue_wrap :
    ∃ s : Spsc ℕ ⟨2, by decide, by decide⟩,
      (s.pushed, s.popped, s.pushReturns.getLast?) = ([7, 8], [7], some (⟨true, 2⟩, false)) ∧
        s.popped <+: s.pushed ∧ s.held ≤ 2 := by
  have hrun : (StepRun.run Spsc.step
      (init (BitVec.ofNat 64 (2 ^ 64 - 1)) fun _ ↦ 0 : Spsc ℕ ⟨2, by decide, by decide⟩)
      [.pushCall 7, .pushLoadTail 0, .pushTest, .pushWrite, .pushStore,
        .pushCall 8, .popCall, .pushLoadTail 0, .popLoadHead 1, .pushTest, .pushWrite,
        .popTest, .pushStore, .pushCall 9, .pushLoadTail 0, .popRead, .pushTest, .popStore]).map
        (fun s ↦ (s.pushed, s.popped, s.pushReturns.getLast?)) =
      some ([7, 8], [7], some (⟨true, 2⟩, false)) := by decide +kernel
  obtain ⟨s, hs, heq⟩ := Option.map_eq_some_iff.1 hrun
  have hall := ringBuffer_refines_boundedQueue _ _ _ _ s hs
  exact ⟨s, heq, hall.2.1, hall.2.2.1⟩

end Spsc

end Mdp
