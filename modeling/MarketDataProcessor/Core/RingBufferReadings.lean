import MarketDataProcessor.Core.RingBufferSafety

/-!
# Occupancy readings from a third thread

`size()` and `empty()` of `core/RingBuffer.hpp`, called by a thread that is neither the producer nor
the consumer. Both load `head_` and then `tail_`, and any steps of the two threads may come in
between. The loads are taken as strong as they can be: each returns the latest value.

What a call returns is decided by how far `tail_` has come when it is loaded. As long as it has not
passed the `head_` loaded before, the difference counts elements that were there. Once the consumer
has popped an element pushed after the first load, the difference wraps: `size()` is far beyond `N`.
And `empty()` is true when the consumer has just reached the loaded `head_`, although the producer
may have been ahead again by then. `Misreads` are the loads of `tail_` at which one of these
happens, and `readings_sane_iff` says that there are no others.

## Ghosts

`behind` records how many elements each pop left. A call remembers the position of the `head_` it
loaded and whether the buffer was empty at some moment since. No step reads a ghost.
-/

namespace Mdp

open WrapCounter

/-- A monitoring call. -/
inductive OccupancyQuery where
  | size
  | empty
  deriving DecidableEq

/-- Where the third thread stands. -/
inductive ReaderState where
  /-- Outside the calls. -/
  | idle
  /-- `head_` is loaded, at this position; `tail_` is to be loaded. -/
  | loadTail (query : OccupancyQuery) (head : BitVec 64) (position : ℕ) (sawEmpty : Bool)

/-- A ring buffer with its two threads and one that monitors it. -/
structure MonitoredRing (T : Type*) (C : RingCapacity) where
  spsc : Spsc T C
  reader : ReaderState
  /-- History: how many elements were held after each pop. -/
  behind : List ℕ
  /-- History: what `size()` returned. -/
  sizes : List (BitVec 64)
  /-- History: what `empty()` returned, and whether the buffer was empty at some moment during the
  call. -/
  empties : List (Bool × Bool)

namespace MonitoredRing

/-- What can happen. -/
inductive Action (T : Type*) where
  | spsc (a : SpscAction T)
  /-- A call begins: it loads `head_`. -/
  | loadHead (query : OccupancyQuery)
  /-- The call loads `tail_` and returns. -/
  | loadTail

variable {T : Type*} {C : RingCapacity}

/-- A call in progress notices an empty buffer. -/
def watch (ring : Spsc T C) : ReaderState → ReaderState
  | .idle => .idle
  | .loadTail query head position sawEmpty =>
    .loadTail query head position (sawEmpty || ring.held == 0)

/-- What a pop between these states left behind. -/
def leftBehind (before after : Spsc T C) : List ℕ :=
  if before.popped.length < after.popped.length then [after.held] else []

/-- One step. -/
def step (s : MonitoredRing T C) : Action T → Option (MonitoredRing T C)
  | .spsc a => (s.spsc.step a).map fun ring ↦
    { s with
      spsc := ring
      reader := watch ring s.reader
      behind := s.behind ++ leftBehind s.spsc ring }
  | .loadHead query =>
    match s.reader with
    | .idle =>
      some { s with
        reader := .loadTail query s.spsc.ring.head.load s.spsc.pushed.length (s.spsc.held == 0) }
    | _ => none
  | .loadTail =>
    match s.reader with
    | .loadTail .size head _ _ =>
      some { s with reader := .idle, sizes := s.sizes ++ [head - s.spsc.ring.tail.load] }
    | .loadTail .empty head _ sawEmpty =>
      some { s with
        reader := .idle
        empties := s.empties ++ [(head == s.spsc.ring.tail.load, sawEmpty)] }
    | .idle => none

/-- A fresh buffer, and no call made. -/
def init (start : BitVec 64) (buffer : Fin C.N → T) : MonitoredRing T C where
  spsc := .init start buffer
  reader := .idle
  behind := []
  sizes := []
  empties := []

/-- The buffer was not empty at this position of `head_`, and no pop from there on emptied it, going
by what the pops left behind. -/
def NeverEmptied (behind : List ℕ) (position : ℕ) : Prop :=
  0 < position ∧ ∀ n ∈ behind.drop (position - 1), 0 < n

/-- **The loads of `tail_` that misread.** -/
inductive Misreads (s : MonitoredRing T C) : Action T → Prop
  /-- The consumer has passed the loaded `head_`, and not by a whole turn, nor by nearly one. -/
  | size (head : BitVec 64) (position : ℕ) (sawEmpty : Bool) :
    s.reader = .loadTail .size head position sawEmpty →
    (s.spsc.popped.length - position) % 2 ^ 64 ≠ 0 →
    (s.spsc.popped.length - position) % 2 ^ 64 < 2 ^ 64 - C.N → Misreads s .loadTail
  /-- The consumer has reached the loaded `head_`, up to whole turns, and no pop from there on
  emptied the buffer. -/
  | empty (head : BitVec 64) (position : ℕ) (sawEmpty : Bool) :
    s.reader = .loadTail .empty head position sawEmpty →
    position ≤ s.spsc.popped.length → (s.spsc.popped.length - position) % 2 ^ 64 = 0 →
    NeverEmptied s.behind position → Misreads s .loadTail

/-- What is expected of the calls that have returned. -/
def Sane (s : MonitoredRing T C) : Prop :=
  (∀ n ∈ s.sizes, n.toNat ≤ C.N) ∧ ∀ r ∈ s.empties, r.1 = true → r.2 = true

/-! ### What holds in every reachable state -/

/-- The invariant. -/
structure Inv (start : BitVec 64) (s : MonitoredRing T C) : Prop where
  spsc : s.spsc.Inv start
  /-- There is an entry for each pop. -/
  behind_length : s.behind.length = s.spsc.popped.length
  /-- What a pop left had been pushed. -/
  behind_le : ∀ i n, s.behind[i]? = some n → n + (i + 1) ≤ s.spsc.pushed.length
  /-- The loaded `head_`, and what a call in progress has seen. -/
  reader : ∀ query head position sawEmpty, s.reader = .loadTail query head position sawEmpty →
    head = advance start position ∧ position ≤ s.spsc.pushed.length ∧
      position ≤ s.spsc.popped.length + C.N ∧
      (sawEmpty = false ↔ NeverEmptied s.behind position)

variable {start : BitVec 64} {buffer : Fin C.N → T} {s t : MonitoredRing T C} {a : Action T}

theorem inv_init : (init start buffer).Inv start where
  spsc := Spsc.inv_init start buffer
  behind_length := rfl
  behind_le := fun i n h ↦ by simp [init] at h
  reader := fun query head position sawEmpty h ↦ by simp [init] at h

/-- A pop that is behind the position changes nothing; any later one must leave something. -/
theorem neverEmptied_concat_iff {behind : List ℕ} {n position : ℕ} :
    NeverEmptied (behind ++ [n]) position ↔
      NeverEmptied behind position ∧ (position ≤ behind.length + 1 → 0 < n) := by
  rw [NeverEmptied, NeverEmptied, List.drop_append, List.forall_mem_append, and_assoc]
  refine and_congr_right fun hpos ↦ and_congr_right fun _ ↦ ?_
  rcases Nat.lt_or_ge (behind.length + 1) position with hlt | hle
  · rw [List.drop_eq_nil_of_le (by rw [List.length_singleton]; omega)]
    exact iff_of_true (List.forall_mem_nil _) fun hle ↦ absurd hle (by omega)
  · rw [show position - 1 - behind.length = 0 by omega, List.drop_zero, List.forall_mem_singleton]
    exact ⟨fun hn _ ↦ hn, fun hn ↦ hn hle⟩

/-- An empty buffer was emptied by its last pop, or never held anything. -/
theorem Inv.not_neverEmptied (h : s.Inv start) {position : ℕ}
    (hle : position ≤ s.spsc.pushed.length) (hheld : s.spsc.held = 0) :
    ¬ NeverEmptied s.behind position := by
  rintro ⟨hpos, hall⟩
  have hpushed : s.spsc.pushed.length ≤ s.spsc.popped.length := Nat.sub_eq_zero_iff_le.1 hheld
  have hprefix := h.spsc.popped_prefix.length_le
  have hlen := h.behind_length
  have hlt : s.behind.length - 1 < s.behind.length := by omega
  have hget := List.getElem?_eq_getElem hlt
  have hleft := h.behind_le _ _ hget
  have hmem : s.behind[s.behind.length - 1] ∈ s.behind.drop (position - 1) := by
    refine List.mem_iff_getElem?.2 ⟨s.behind.length - 1 - (position - 1), ?_⟩
    rw [List.getElem?_drop, ← hget]
    congr 1
    omega
  have hn := hall _ hmem
  omega

/-! ### The invariant is kept -/

/-- Only a pop leaves something behind. -/
theorem leftBehind_cases {ring next : Spsc T C} (h : ring.Inv start) {b : SpscAction T}
    (hstep : ring.step b = some next) :
    (next.popped = ring.popped ∧ ring.pushed.length ≤ next.pushed.length ∧
        leftBehind ring next = []) ∨
      (next.popped.length = ring.popped.length + 1 ∧ next.pushed = ring.pushed ∧
        leftBehind ring next = [next.held]) := by
  rcases Spsc.step_refines h hstep with ⟨-, hpushed, hpopped⟩ | ⟨item, hpushed, hpopped, -⟩ |
    ⟨out, hpushed, hpopped, -⟩
  · refine Or.inl ⟨hpopped, by rw [hpushed], ?_⟩
    rw [leftBehind, hpopped, if_neg (Nat.lt_irrefl _)]
  · refine Or.inl ⟨hpopped, by rw [hpushed, List.length_append]; exact Nat.le_add_right _ _, ?_⟩
    rw [leftBehind, hpopped, if_neg (Nat.lt_irrefl _)]
  · have hlen : next.popped.length = ring.popped.length + 1 := by
      rw [hpopped, List.length_append, List.length_singleton]
    refine Or.inr ⟨hlen, hpushed, ?_⟩
    rw [leftBehind, hlen, if_pos (Nat.lt_succ_self _)]

/-- What a call in progress has seen after a step of the two threads. -/
theorem watch_eq_loadTail {ring : Spsc T C} {reader : ReaderState} {query : OccupancyQuery}
    {head : BitVec 64} {position : ℕ} {sawEmpty : Bool}
    (h : watch ring reader = .loadTail query head position sawEmpty) :
    ∃ saw, reader = .loadTail query head position saw ∧
      (sawEmpty = false ↔ saw = false ∧ ring.held ≠ 0) := by
  cases reader with
  | idle => simp [watch] at h
  | loadTail query' head' position' saw =>
    rw [watch, ReaderState.loadTail.injEq] at h
    obtain ⟨rfl, rfl, rfl, rfl⟩ := h
    refine ⟨saw, rfl, ?_⟩
    rw [Bool.or_eq_false_iff, beq_eq_false_iff_ne]

/-- The two threads keep the invariant. -/
theorem Inv.spscStep (h : s.Inv start) {b : SpscAction T} (hstep : s.step (.spsc b) = some t) :
    t.Inv start := by
  obtain ⟨ring, hring, rfl⟩ := Option.map_eq_some_iff.1 hstep
  have hinv := h.spsc.step hring
  have hlen := h.behind_length
  have hprefix := hinv.popped_prefix.length_le
  rcases leftBehind_cases h.spsc hring with ⟨hpopped, hpushed, hleft⟩ | ⟨hpopped, hpushed, hleft⟩
  · refine ⟨hinv, ?_, fun i n hn ↦ ?_, fun query head position sawEmpty hreader ↦ ?_⟩
    · simpa only [hleft, List.append_nil, hpopped] using hlen
    · rw [hleft, List.append_nil] at hn
      exact (h.behind_le i n hn).trans hpushed
    · obtain ⟨saw, hbefore, hsaw⟩ := watch_eq_loadTail hreader
      obtain ⟨hhead, hle, hroom, hiff⟩ := h.reader _ _ _ _ hbefore
      refine ⟨hhead, hle.trans hpushed, by rwa [hpopped], ?_⟩
      rw [hsaw, hiff, hleft, List.append_nil]
      -- a push does not empty the buffer, so an empty one had been noticed
      refine ⟨And.left, fun hnever ↦ ⟨hnever, fun hheld ↦ ?_⟩⟩
      refine h.not_neverEmptied hle ?_ hnever
      rw [Spsc.held, hpopped] at hheld
      rw [Spsc.held]
      omega
  · have hheld : ring.held = s.spsc.pushed.length - (s.spsc.popped.length + 1) := by
      rw [Spsc.held, hpopped, hpushed]
    rw [hpopped, hpushed] at hprefix
    refine ⟨hinv, ?_, fun i n hn ↦ ?_, fun query head position sawEmpty hreader ↦ ?_⟩
    · rw [hleft, List.length_append, List.length_singleton, hlen, hpopped]
    · rw [hleft] at hn
      rw [hpushed]
      rcases Nat.lt_or_ge i s.behind.length with hlt | hge
      · rw [List.getElem?_append_left hlt] at hn
        exact h.behind_le i n hn
      · rw [List.getElem?_append_right hge, List.getElem?_singleton] at hn
        split_ifs at hn with hi
        obtain rfl := Option.some.inj hn
        omega
    · obtain ⟨saw, hbefore, hsaw⟩ := watch_eq_loadTail hreader
      obtain ⟨hhead, hle, hroom, hiff⟩ := h.reader _ _ _ _ hbefore
      refine ⟨hhead, by rwa [hpushed], by rw [hpopped]; omega, ?_⟩
      rw [hsaw, hiff, hleft, neverEmptied_concat_iff, hlen]
      -- short of the loaded `head_`, a pop leaves something in any case
      refine and_congr_right fun _ ↦ ?_
      constructor
      · exact fun hne _ ↦ Nat.pos_of_ne_zero hne
      · intro himp hzero
        have hlater := himp (by omega)
        omega

/-- The monitoring thread keeps the invariant. -/
theorem Inv.loadHead (h : s.Inv start) {query : OccupancyQuery}
    (hstep : s.step (.loadHead query) = some t) : t.Inv start := by
  cases hreader : s.reader with
  | loadTail _ _ _ _ => simp [step, hreader] at hstep
  | idle =>
    simp only [step, hreader, Option.some.injEq] at hstep
    subst hstep
    refine ⟨h.spsc, h.behind_length, h.behind_le, fun query head position sawEmpty hload ↦ ?_⟩
    obtain ⟨rfl, rfl, rfl, rfl⟩ := ReaderState.loadTail.inj hload
    have hlen := h.behind_length
    have hprefix := h.spsc.popped_prefix.length_le
    have hroom : s.spsc.pushed.length ≤ s.spsc.popped.length + C.N :=
      Nat.sub_le_iff_le_add'.1 h.spsc.held_le
    refine ⟨h.spsc.head_tracks.load_eq, le_rfl, hroom, ?_⟩
    rw [beq_eq_false_iff_ne]
    constructor
    · intro hne
      have hlt : s.spsc.popped.length < s.spsc.pushed.length :=
        Nat.lt_of_sub_pos (Nat.pos_of_ne_zero hne)
      -- no pop has come as far as the latest `head_`
      have hbehind : s.behind.length ≤ s.spsc.pushed.length - 1 := by omega
      refine ⟨by omega, ?_⟩
      rw [List.drop_eq_nil_of_le hbehind]
      exact List.forall_mem_nil _
    · exact fun hnever hzero ↦ h.not_neverEmptied le_rfl hzero hnever

/-- A returning call keeps the invariant, whatever it returns. -/
theorem Inv.returned (h : s.Inv start) (sizes : List (BitVec 64)) (empties : List (Bool × Bool)) :
    Inv start { s with reader := .idle, sizes, empties } where
  spsc := h.spsc
  behind_length := h.behind_length
  behind_le := h.behind_le
  reader := fun _ _ _ _ hload ↦ nomatch hload

/-! ### What a returning call adds -/

/-- **The difference of the two loads** is the true distance while the consumer has not passed the
loaded `head_`, and what is left of a turn afterwards. -/
theorem toNat_sub_le_iff {position popped : ℕ} (hroom : position ≤ popped + C.N) :
    (advance start position - advance start popped).toNat ≤ C.N ↔
      ¬ ((popped - position) % 2 ^ 64 ≠ 0 ∧ (popped - position) % 2 ^ 64 < 2 ^ 64 - C.N) := by
  have hcap := C.le_two_pow
  rcases Nat.le_total popped position with hle | hle
  · have hbefore : (popped - position) % 2 ^ 64 = 0 := by
      rw [Nat.sub_eq_zero_of_le hle, Nat.zero_mod]
    rw [advance_sub_advance start hle, BitVec.toNat_ofNat]
    have hdist := Nat.mod_le (position - popped) (2 ^ 64)
    exact iff_of_true (by omega) fun hmis ↦ hmis.1 hbefore
  · rw [toNat_advance_sub_of_le start hle]
    have hlt := Nat.mod_lt (popped - position) (Nat.two_pow_pos 64)
    generalize (popped - position) % 2 ^ 64 = k at hlt ⊢
    rcases Nat.eq_zero_or_pos k with rfl | hpos
    · rw [Nat.sub_zero, Nat.mod_self]
      exact iff_of_true (Nat.zero_le _) fun hmis ↦ hmis.1 rfl
    · rw [Nat.mod_eq_of_lt (by omega)]
      omega

/-- **The two loads agree** when the consumer has come to the loaded `head_`, up to whole turns. -/
theorem beq_advance_iff {position popped : ℕ} (hroom : position ≤ popped + C.N) :
    (advance start position == advance start popped) = true ↔
      position ≤ popped ∧ (popped - position) % 2 ^ 64 = 0 := by
  have hcap := C.lt_two_pow
  rw [beq_iff_eq]
  rcases Nat.lt_or_ge popped position with hlt | hle
  · rw [advance_eq_advance_iff start hlt.le (by omega)]
    exact iff_of_false hlt.ne' fun hmis ↦ absurd hmis.1 (Nat.not_le.2 hlt)
  · rw [eq_comm, advance_eq_advance_iff_mod start hle, and_iff_right hle]

/-- What the loaded `tail_` makes of a call to `size()`. -/
theorem Inv.sane_size_iff (h : s.Inv start) {head : BitVec 64} {position : ℕ} {sawEmpty : Bool}
    (hreader : s.reader = .loadTail .size head position sawEmpty) :
    (head - s.spsc.ring.tail.load).toNat ≤ C.N ↔ ¬ Misreads s .loadTail := by
  obtain ⟨rfl, -, hroom, -⟩ := h.reader _ _ _ _ hreader
  rw [h.spsc.tail_tracks.load_eq, toNat_sub_le_iff hroom, not_iff_not]
  constructor
  · rintro ⟨hne, hlt⟩
    exact .size _ _ _ hreader hne hlt
  · intro hmis
    cases hmis with
    | size head' position' saw' hsize hne hlt =>
      obtain ⟨-, -, rfl, -⟩ := ReaderState.loadTail.inj (hreader.symm.trans hsize)
      exact ⟨hne, hlt⟩
    | empty head' position' saw' hempty => simp [hreader] at hempty

/-- What the loaded `tail_` makes of a call to `empty()`. -/
theorem Inv.sane_empty_iff (h : s.Inv start) {head : BitVec 64} {position : ℕ} {sawEmpty : Bool}
    (hreader : s.reader = .loadTail .empty head position sawEmpty) :
    ((head == s.spsc.ring.tail.load) = true → sawEmpty = true) ↔ ¬ Misreads s .loadTail := by
  obtain ⟨rfl, -, hroom, hsaw⟩ := h.reader _ _ _ _ hreader
  rw [h.spsc.tail_tracks.load_eq, beq_advance_iff hroom, ← Bool.not_eq_false, hsaw, ← not_and,
    not_iff_not]
  constructor
  · rintro ⟨⟨hle, hmod⟩, hnever⟩
    exact .empty _ _ _ hreader hle hmod hnever
  · intro hmis
    cases hmis with
    | size head' position' saw' hsize => simp [hreader] at hsize
    | empty head' position' saw' hempty hle hmod hnever =>
      obtain ⟨-, -, rfl, -⟩ := ReaderState.loadTail.inj (hreader.symm.trans hempty)
      exact ⟨⟨hle, hmod⟩, hnever⟩

/-- **One step** keeps the invariant, and breaks what is expected exactly when it misreads. -/
theorem Inv.step (h : s.Inv start) (hstep : s.step a = some t) :
    t.Inv start ∧ (t.Sane ↔ s.Sane ∧ ¬ Misreads s a) := by
  cases a with
  | spsc b =>
    refine ⟨h.spscStep hstep, ?_⟩
    obtain ⟨ring, hring, rfl⟩ := Option.map_eq_some_iff.1 hstep
    exact (and_iff_left fun hmis ↦ nomatch hmis).symm
  | loadHead query =>
    refine ⟨h.loadHead hstep, ?_⟩
    cases hreader : s.reader with
    | loadTail _ _ _ _ => simp [MonitoredRing.step, hreader] at hstep
    | idle =>
      simp only [MonitoredRing.step, hreader, Option.some.injEq] at hstep
      subst hstep
      exact (and_iff_left fun hmis ↦ nomatch hmis).symm
  | loadTail =>
    cases hreader : s.reader with
    | idle => simp [MonitoredRing.step, hreader] at hstep
    | loadTail query head position sawEmpty =>
      cases query with
      | size =>
        simp only [MonitoredRing.step, hreader, Option.some.injEq] at hstep
        subst hstep
        refine ⟨h.returned _ _, ?_⟩
        rw [Sane, Sane, List.forall_mem_append, List.forall_mem_singleton,
          h.sane_size_iff hreader, and_right_comm]
      | empty =>
        simp only [MonitoredRing.step, hreader, Option.some.injEq] at hstep
        subst hstep
        refine ⟨h.returned _ _, ?_⟩
        rw [Sane, Sane, List.forall_mem_append, List.forall_mem_singleton,
          h.sane_empty_iff hreader, and_assoc]

/-! ### The theorem -/

/-- **Occupancy readings are sane unless a call misreads.** From a fresh buffer, in every
interleaving of the two threads with the calls of a third: every `size()` returned at most `N`, and
every `empty()` that returned true overlapped a moment at which the buffer was empty, if and only if
no load of `tail_` misread. -/
theorem readings_sane_iff (C : RingCapacity) (start : BitVec 64) (buffer : Fin C.N → T)
    (acts : List (Action T)) (s : MonitoredRing T C)
    (h : StepRun.run MonitoredRing.step (init start buffer) acts = some s) :
    ((∀ n ∈ s.sizes, n.toNat ≤ C.N) ∧ ∀ r ∈ s.empties, r.1 = true → r.2 = true) ↔
      StepRun.Avoids MonitoredRing.step Misreads (init start buffer) acts := by
  have hfresh : (init start buffer).Sane :=
    ⟨fun n hn ↦ absurd hn List.not_mem_nil, fun r hr ↦ absurd hr List.not_mem_nil⟩
  exact StepRun.run_holds_iff (fun s a t hs hstep ↦ Inv.step hs hstep) inv_init hfresh h

/-- `size()` reads 0 when a pop takes the only element between its loads, and `empty()` then reads
true: none of the loads misread. -/
theorem readings_sane_pop :
    ∃ acts, ∃ s : MonitoredRing ℕ ⟨2, by decide, by decide⟩,
      StepRun.run MonitoredRing.step (init 0 fun _ ↦ 0) acts = some s ∧
      (s.sizes, s.empties) = ([0], [(true, true)]) ∧
      StepRun.Avoids MonitoredRing.step Misreads
        (init 0 fun _ ↦ 0 : MonitoredRing ℕ ⟨2, by decide, by decide⟩) acts := by
  have hrun : (StepRun.run MonitoredRing.step
      (init 0 fun _ ↦ 0 : MonitoredRing ℕ ⟨2, by decide, by decide⟩)
      [.spsc (.pushCall 7), .spsc (.pushLoadTail 0), .spsc .pushTest, .spsc .pushWrite,
        .spsc .pushStore, .loadHead .size, .spsc .popCall, .spsc (.popLoadHead 1), .spsc .popTest,
        .spsc .popRead, .spsc .popStore, .loadTail, .loadHead .empty, .loadTail]).map
        (fun s ↦ (s.sizes, s.empties)) = some ([0], [(true, true)]) := by decide +kernel
  obtain ⟨s, hs, heq⟩ := Option.map_eq_some_iff.1 hrun
  refine ⟨_, s, hs, heq, (readings_sane_iff _ _ _ _ s hs).1 ?_⟩
  obtain ⟨hsizes, hempties⟩ := Prod.mk.inj heq
  rw [hsizes, hempties]
  simp

/-- **Readings that are not sane**, on two slots. An element is pushed and popped between the loads
of `size()`, which returns `2 ^ 64 - 1`. And `empty()` is called on one element and loads `head_`,
another is pushed, the first is popped: it returns true, and the buffer has held one or two elements
all along. -/
theorem readings_not_sane :
    (∃ acts, ∃ s : MonitoredRing ℕ ⟨2, by decide, by decide⟩,
      StepRun.run MonitoredRing.step (init 0 fun _ ↦ 0) acts = some s ∧
      s.sizes = [BitVec.ofNat 64 (2 ^ 64 - 1)] ∧ ∃ n ∈ s.sizes, 2 < n.toNat) ∧
    ∃ acts, ∃ s : MonitoredRing ℕ ⟨2, by decide, by decide⟩,
      StepRun.run MonitoredRing.step (init 0 fun _ ↦ 0) acts = some s ∧
      s.empties = [(true, false)] := by
  have hsize : (StepRun.run MonitoredRing.step
      (init 0 fun _ ↦ 0 : MonitoredRing ℕ ⟨2, by decide, by decide⟩)
      [.loadHead .size, .spsc (.pushCall 7), .spsc (.pushLoadTail 0), .spsc .pushTest,
        .spsc .pushWrite, .spsc .pushStore, .spsc .popCall, .spsc (.popLoadHead 1), .spsc .popTest,
        .spsc .popRead, .spsc .popStore, .loadTail]).map (·.sizes) =
      some [BitVec.ofNat 64 (2 ^ 64 - 1)] := by decide +kernel
  have hempty : (StepRun.run MonitoredRing.step
      (init 0 fun _ ↦ 0 : MonitoredRing ℕ ⟨2, by decide, by decide⟩)
      [.spsc (.pushCall 7), .spsc (.pushLoadTail 0), .spsc .pushTest, .spsc .pushWrite,
        .spsc .pushStore, .loadHead .empty, .spsc (.pushCall 8), .spsc (.pushLoadTail 0),
        .spsc .pushTest, .spsc .pushWrite, .spsc .pushStore, .spsc .popCall,
        .spsc (.popLoadHead 2), .spsc .popTest, .spsc .popRead, .spsc .popStore,
        .loadTail]).map (·.empties) = some [(true, false)] := by decide +kernel
  obtain ⟨s, hs, hsizes⟩ := Option.map_eq_some_iff.1 hsize
  obtain ⟨t, ht, hempties⟩ := Option.map_eq_some_iff.1 hempty
  refine ⟨⟨_, s, hs, hsizes, ?_⟩, _, t, ht, hempties⟩
  rw [hsizes]
  exact ⟨_, List.mem_singleton_self _, by decide⟩

end MonitoredRing

end Mdp
