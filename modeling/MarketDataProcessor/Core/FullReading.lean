import MarketDataProcessor.Core.RingBufferSafety

/-!
# The reading that can be trusted

`full()` of `core/RingBuffer.hpp`, called by a thread that is neither the producer nor the consumer.
It loads `head_` and then `tail_`, as `size()` and `empty()` do, and any accesses of the two threads
may come in between. Unlike them it is never wrong by what comes in between: a distance of `N`
between an old `head_` and a newer `tail_` leaves no room for a push or a pop, so the buffer was
full at every moment of the call. Only a consumer that laps the counters can forge that distance,
by `2 ^ 64 - N` pops between the two loads.

## Why two loads are enough here

The positions only grow (`lengths_le_of_run`). Say the head was loaded at `h` and the tail later at
`t`, and `h` is `N` ahead of `t` as counters. If the positions are `N` apart too, the consumer has
not moved since before the first load, as the buffer never holds more than `N`; nor has the
producer, for want of room; so the buffer was full throughout (`popped_eq_of_throughout`). The other
way for the counters to be `N` apart is that the consumer has gone round them, and
`isFull_advance_iff_of_room` says by how much.

`size()` and `empty()` have no such argument: a push and a pop between their loads leave positions
that are apart by something else than was ever held. They are treated in `RingBufferReadings`.
-/

namespace Mdp

open WrapCounter

namespace Spsc

variable {T : Type*} {C : RingCapacity} {start : BitVec 64} {s t : Spsc T C}

/-- What `full()` returns when `head_` is loaded in the first state and `tail_` in the second. -/
def full (first second : Spsc T C) : Bool :=
  C.isFull first.ring.head.load second.ring.tail.load

/-! ### The positions along a run -/

/-- **An access is a push, a pop or neither.** -/
theorem lengths_of_step (hs : s.Inv start) {a : SpscAction T} (h : s.step a = some t) :
    (t.pushed.length = s.pushed.length ∧ t.popped.length = s.popped.length) ∨
      (t.pushed.length = s.pushed.length + 1 ∧ t.popped.length = s.popped.length) ∨
      (t.pushed.length = s.pushed.length ∧ t.popped.length = s.popped.length + 1) := by
  rcases step_refines hs h with ⟨-, hpush, hpop⟩ | ⟨item, hpush, hpop, -⟩ | ⟨out, hpush, hpop, -⟩
  · exact Or.inl ⟨by rw [hpush], by rw [hpop]⟩
  · exact Or.inr (Or.inl ⟨by rw [hpush, List.length_append, List.length_singleton], by rw [hpop]⟩)
  · exact Or.inr (Or.inr ⟨by rw [hpush], by rw [hpop, List.length_append, List.length_singleton]⟩)

theorem Inv.of_run (hs : s.Inv start) {acts : List (SpscAction T)}
    (h : StepRun.run Spsc.step s acts = some t) : t.Inv start :=
  StepRun.run_invariant (fun _ _ _ hu hstep ↦ hu.step hstep) hs h

/-- The positions only grow. -/
theorem lengths_le_of_run (hs : s.Inv start) {acts : List (SpscAction T)}
    (h : StepRun.run Spsc.step s acts = some t) :
    s.pushed.length ≤ t.pushed.length ∧ s.popped.length ≤ t.popped.length := by
  refine (StepRun.run_invariant (P := fun u ↦ u.Inv start ∧
    s.pushed.length ≤ u.pushed.length ∧ s.popped.length ≤ u.popped.length)
    (fun u a v ⟨hu, hpush, hpop⟩ hstep ↦ ?_) ⟨hs, Nat.le_refl _, Nat.le_refl _⟩ h).2
  refine ⟨hu.step hstep, ?_⟩
  rcases lengths_of_step hu hstep with hsame | hpushed | hpopped <;> omega

theorem Inv.popped_le (hs : s.Inv start) : s.popped.length ≤ s.pushed.length :=
  hs.popped_prefix.length_le

/-- **A buffer that stays full stands still**: the next change of it would be a pop. -/
theorem popped_eq_of_throughout (hs : s.Inv start) {acts : List (SpscAction T)}
    (h : StepRun.run Spsc.step s acts = some t)
    (hfull : StepRun.Throughout Spsc.step (fun u ↦ u.held = C.N) s acts) :
    t.popped.length = s.popped.length := by
  refine (StepRun.run_invariant_along (P := fun u ↦ u.Inv start ∧
    u.popped.length = s.popped.length) (fun seen a rest u v hsplit hseen ⟨hu, hsame⟩ hstep ↦ ?_)
    ⟨hs, rfl⟩ h).2
  refine ⟨hu.step hstep, ?_⟩
  have hbefore : u.held = C.N := hfull seen (a :: rest) u hsplit hseen
  have hafter : v.held = C.N := by
    refine hfull (seen ++ [a]) rest v (by rw [hsplit, List.append_assoc]; rfl) ?_
    exact StepRun.run_concat hseen hstep
  have hpopped := hu.popped_le
  have hpos := C.powerOfTwo.1
  rw [held] at hbefore hafter
  rcases lengths_of_step hu hstep with hneither | hpush | hpop <;> omega

/-! ### The two loads -/

/-- The distance of the two loads is `N` when the positions are `N` apart, or when the consumer is
ahead by what is left of a turn. -/
theorem isFull_advance_iff_of_room {position popped : ℕ} (hroom : position ≤ popped + C.N) :
    C.isFull (advance start position) (advance start popped) = true ↔
      position = popped + C.N ∨
        (position < popped ∧ (popped - position) % 2 ^ 64 = 2 ^ 64 - C.N) := by
  rcases Nat.lt_or_ge position popped with hlt | hle
  · have hcap := C.le_two_pow
    have hpos := C.powerOfTwo.1
    rw [RingCapacity.isFull, beq_iff_eq, ← BitVec.toNat_inj, toNat_advance_sub_of_le start hlt.le,
      BitVec.toNat_ofNat, Nat.mod_eq_of_lt C.lt_two_pow]
    have hmod := Nat.mod_lt (popped - position) (Nat.two_pow_pos 64)
    generalize (popped - position) % 2 ^ 64 = k at hmod ⊢
    rcases Nat.eq_zero_or_pos k with rfl | hk
    · rw [Nat.sub_zero, Nat.mod_self]
      omega
    · rw [Nat.mod_eq_of_lt (by omega)]
      omega
  · rw [C.isFull_advance_iff start hle hroom]
    omega

/-- **When `full()` returns true.** For every interleaving of the two threads and a call of a third:
exactly if the buffer was full at every moment from the load of `head_` to that of `tail_`, but for
a consumer that has passed the loaded `head_` by `2 ^ 64 - N`, up to whole turns. -/
theorem full_iff {buffer : Fin C.N → T} {before during : List (SpscAction T)}
    (hbefore : StepRun.run Spsc.step (init start buffer) before = some s)
    (hduring : StepRun.run Spsc.step s during = some t) :
    full s t = true ↔
      StepRun.Throughout Spsc.step (fun u ↦ u.held = C.N) s during ∨
        (s.pushed.length < t.popped.length ∧
          (t.popped.length - s.pushed.length) % 2 ^ 64 = 2 ^ 64 - C.N) := by
  have hs : s.Inv start := inv_of_run hbefore
  have ht : t.Inv start := hs.of_run hduring
  have hgrow := lengths_le_of_run hs hduring
  have hheld := hs.held_le
  have hpopped := hs.popped_le
  rw [held] at hheld
  rw [full, hs.head_tracks.load_eq, ht.tail_tracks.load_eq,
    isFull_advance_iff_of_room (by omega)]
  refine or_congr_left ⟨fun heq seen rest u hsplit hseen ↦ ?_, fun hfull ↦ ?_⟩
  · have hu : u.Inv start := hs.of_run hseen
    have hfirst := lengths_le_of_run hs hseen
    have hsecond : u.popped.length ≤ t.popped.length := by
      rw [hsplit] at hduring
      obtain ⟨u', hu', hrest⟩ := StepRun.run_append_eq_some_iff.1 hduring
      obtain rfl := Option.some.inj (hseen.symm.trans hu')
      exact (lengths_le_of_run hu hrest).2
    have hroom := hu.held_le
    have horder := hu.popped_le
    show u.held = C.N
    rw [held] at hroom ⊢
    omega
  · have hstart : s.held = C.N := hfull [] during s rfl rfl
    have hsame := popped_eq_of_throughout hs hduring hfull
    rw [held] at hstart
    omega

/-- The accesses of a push that finds the position `j` in `tail_`. -/
def pushAt (item : ℕ) (j : ℕ) : List (SpscAction ℕ) :=
  [.pushCall item, .pushLoadTail j, .pushTest, .pushWrite, .pushStore]

/-- Two slots, counters one below the wrap, two elements; and a pop that has come to its store when
`tail_` is loaded. -/
theorem full_iff_wrap :
    ∃ s t : Spsc ℕ ⟨2, by decide, by decide⟩,
      StepRun.run Spsc.step (init (BitVec.ofNat 64 (2 ^ 64 - 1)) fun _ ↦ 0)
        (pushAt 7 0 ++ pushAt 8 0) = some s ∧
      StepRun.run Spsc.step s [.popCall, .popLoadHead 2, .popTest, .popRead] = some t ∧
      full s t = true ∧
      (StepRun.Throughout Spsc.step (fun u ↦ u.held = 2) s
          [.popCall, .popLoadHead 2, .popTest, .popRead] ∨
        (s.pushed.length < t.popped.length ∧
          (t.popped.length - s.pushed.length) % 2 ^ 64 = 2 ^ 64 - 2)) := by
  have hrun : ((StepRun.run Spsc.step
      (init (BitVec.ofNat 64 (2 ^ 64 - 1)) fun _ ↦ 0 : Spsc ℕ ⟨2, by decide, by decide⟩)
      (pushAt 7 0 ++ pushAt 8 0)).bind fun s ↦
        (StepRun.run Spsc.step s [.popCall, .popLoadHead 2, .popTest, .popRead]).map (full s)) =
      some true := by decide +kernel
  obtain ⟨s, hbefore, hrest⟩ := Option.bind_eq_some_iff.1 hrun
  obtain ⟨t, hduring, hfull⟩ := Option.map_eq_some_iff.1 hrest
  exact ⟨s, t, hbefore, hduring, hfull, (full_iff hbefore hduring).1 hfull⟩

end Spsc

end Mdp
