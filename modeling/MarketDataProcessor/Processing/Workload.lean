import MarketDataProcessor.Processing.StageAccounting

/-!
# What a stage has left to do

A filtering stage that is not asked to stop spins in two places: on an empty input, and on a full
output. Everywhere else its next step gets a tick further. `Pc.workload` is a number for that, by
where the thread stands and by two facts about its buffers, whether a tick is waiting in the input
and whether the output has room; a tick in the output is worth `d`, one in the input `d + 8`.

Spinning changes nothing, and every other step takes at least one off, and one more for a tick that
it moves from or to a buffer (`Worker.Step.workload_lt`). That is what it costs: the neighbour at
the other end of that buffer may find its own next step worth one more.

## How the worth of a tick is chosen

A tick in the input is worth eight more than one in the output. That pays for the positions it goes
through, and for the step more that a neighbour may find itself with when the tick leaves the one
buffer and enters the other. A thread at the head of its loop is worth one more when a tick is
waiting, and one at the test before a push when there is room; `workload_waiting_le` and
`workload_room_le` say that this is all a neighbour can add. With `d` chosen from the last stage
backwards the sum over a pipeline goes down.
-/

namespace Mdp

variable {σ α β κ : Type*} {m n : ℕ}

namespace Pc

/-- What is left to do from here, apart from the ticks in the buffers. -/
def workload (d : ℕ) (waiting room : Bool) : Pc α β κ → ℕ
  | .loopTest => waiting.toNat
  | .tryPop _ => 0
  | .classify _ _ => d + 6
  | .countDrop _ _ => 2
  | .pushTest _ => d + 4 + room.toNat
  | .tryPush _ _ => d + 4
  | .countPush _ => 2
  | .exited => 0

/-- The next step gets further. -/
def ready (waiting room : Bool) : Pc α β κ → Bool
  | .loopTest => waiting
  | .tryPop _ => waiting
  | .pushTest _ => room
  | .tryPush _ _ => room
  | .exited => false
  | _ => true

theorem workload_le (pc : Pc α β κ) (d : ℕ) (waiting room : Bool) :
    pc.workload d waiting room ≤ d + 6 := by
  have hwaiting := waiting.toNat_le
  have hroom := room.toNat_le
  unfold workload
  split <;> omega

theorem holding_of_workload_eq_zero {pc : Pc α β κ} {d : ℕ} {waiting room : Bool}
    (h : pc.workload d waiting room = 0) : pc.holding = .nothing := by
  cases pc <;> simp [workload, holding] at h ⊢

/-- A stage that spins although its output is empty waits for its input. -/
theorem of_not_ready {pc : Pc α β κ} {q : BoundedQueue α m} {r : BoundedQueue β n} (d : ℕ)
    (hrun : pc ≠ .exited) (hn : n ≠ 0) (hempty : r.items = [])
    (hspins : pc.ready (!q.isEmpty) (!r.isFull) = false) :
    q.items = [] ∧ pc.workload d (!q.isEmpty) (!r.isFull) = 0 := by
  have hroom : r.isFull = false := by
    rw [BoundedQueue.isFull, hempty, beq_eq_false_iff_ne]
    exact hn.symm
  rw [hroom, Bool.not_false] at hspins ⊢
  rw [← BoundedQueue.isEmpty_iff]
  cases pc with
  | loopTest =>
    have hwaiting : (!q.isEmpty) = false := hspins
    rw [hwaiting]
    exact ⟨by simpa using hwaiting, rfl⟩
  | tryPop phase =>
    have hwaiting : (!q.isEmpty) = false := hspins
    exact ⟨by simpa using hwaiting, rfl⟩
  | exited => exact absurd rfl hrun
  | _ => exact absurd hspins (by simp [ready])

/-! ### What the neighbours do to it -/

/-- Ticks that arrive in the input make the next step worth more by what they count. -/
theorem workload_waiting_le (pc : Pc α β κ) (d : ℕ) (room : Bool) (q q' : BoundedQueue α m) :
    pc.workload d (!q'.isEmpty) room ≤
      pc.workload d (!q.isEmpty) room + (q'.items.length - q.items.length) := by
  cases pc with
  | loopTest =>
    simp only [workload, BoundedQueue.isEmpty]
    cases hq : q.items with
    | nil => cases hq' : q'.items <;> simp
    | cons a l => cases hq' : q'.items <;> simp
  | _ => exact Nat.le_add_right _ _

/-- So does the room that ticks leave which are taken from the output. -/
theorem workload_room_le (pc : Pc α β κ) (d : ℕ) (waiting : Bool) (q q' : BoundedQueue β n) :
    pc.workload d waiting (!q'.isFull) ≤
      pc.workload d waiting (!q.isFull) + (q.items.length - q'.items.length) := by
  cases pc with
  | pushTest tick =>
    show d + 4 + (!q'.isFull).toNat ≤ d + 4 + (!q.isFull).toNat + _
    cases hq : q.isFull with
    | false =>
      have hle := (!q'.isFull).toNat_le
      simp only [Bool.not_false, Bool.toNat_true]
      omega
    | true =>
      cases hq' : q'.isFull with
      | true => exact Nat.le_add_right _ _
      | false =>
        -- what was full has room now, so something was taken
        have hfull := BoundedQueue.isFull_iff.1 hq
        have hle := q'.length_le
        have hroom := mt BoundedQueue.isFull_iff.2 (Bool.eq_false_iff.1 hq')
        simp only [Bool.not_false, Bool.not_true, Bool.toNat_false, Bool.toNat_true]
        omega
  | _ => exact Nat.le_add_right _ _

/-- A stage that is ready stays so when ticks arrive in its input and leave its output. -/
theorem ready_mono {pc : Pc α β κ} {q q' : BoundedQueue α m} {r r' : BoundedQueue β n}
    (harrived : q.items.length ≤ q'.items.length) (hleft : r'.items.length ≤ r.items.length)
    (h : pc.ready (!q.isEmpty) (!r.isFull) = true) :
    pc.ready (!q'.isEmpty) (!r'.isFull) = true := by
  have hwaiting : (!q.isEmpty) = true → (!q'.isEmpty) = true := fun hq ↦ by
    rw [Bool.not_eq_true', ← Bool.not_eq_true, BoundedQueue.isEmpty_iff,
      ← List.length_eq_zero_iff] at hq ⊢
    omega
  have hroom : (!r.isFull) = true → (!r'.isFull) = true := fun hr ↦ by
    have hle := r.length_le
    rw [Bool.not_eq_true', ← Bool.not_eq_true, BoundedQueue.isFull_iff] at hr ⊢
    omega
  cases pc with
  | loopTest => exact hwaiting h
  | tryPop phase => exact hwaiting h
  | pushTest tick => exact hroom h
  | tryPush phase tick => exact hroom h
  | exited => exact absurd h (by simp [ready])
  | _ => rfl

end Pc

variable [DecidableEq κ] {S : FilterStage σ α β κ} {w w' : Worker σ α β κ}
  {input input' : BoundedQueue α m} {output output' : BoundedQueue β n}

/-- **A step that gets further** takes one off, and one more for each tick it moves. -/
theorem Worker.Step.workload_lt (d : ℕ) (h : Worker.Step S false w input output w' input' output')
    (hphase : w.pc.phase? ≠ some .drainInput)
    (hready : w.pc.ready (!input.isEmpty) (!output.isFull) = true) :
    (d + 8) * input'.items.length + w'.pc.workload d (!input'.isEmpty) (!output'.isFull) +
        d * output'.items.length + 1 + (input.items.length - input'.items.length) +
        (output'.items.length - output.items.length) ≤
      (d + 8) * input.items.length + w.pc.workload d (!input.isEmpty) (!output.isFull) +
        d * output.items.length := by
  have hemptied : (!input'.isEmpty).toNat ≤ 1 := Bool.toNat_le _
  cases h with
  | enter hpc _ =>
    rw [hpc] at hready ⊢
    rw [show (!input.isEmpty) = true from hready]
    simp only [Pc.workload, Bool.toNat_true]
    omega
  | leave _ hstop => exact absurd hstop (by decide)
  | popEmpty phase hpc hnil =>
    rw [hpc] at hready
    rw [BoundedQueue.isEmpty_iff.2 hnil] at hready
    exact absurd hready (by simp [Pc.ready])
  | pop phase tick input' hpc hitems =>
    rw [hpc, hitems, List.length_cons, Nat.mul_succ]
    simp only [Pc.workload]
    omega
  | keep phase tick core out hpc _ =>
    rw [hpc] at hphase ⊢
    cases phase with
    | drainInput => exact absurd rfl hphase
    | processTick =>
      have hroom := (!output.isFull).toNat_le
      simp only [Pc.send, Pc.workload]
      omega
  | drop phase tick core why hpc _ =>
    rw [hpc]
    simp only [Pc.workload]
    omega
  | countDrop phase why hpc =>
    rw [hpc] at hphase ⊢
    cases phase with
    | drainInput => exact absurd rfl hphase
    | processTick =>
      simp only [Pc.resume, Pc.workload]
      omega
  | abandon _ _ hstop => exact absurd hstop (by decide)
  | attempt tick hpc _ =>
    rw [hpc] at hready ⊢
    rw [show (!output.isFull) = true from hready]
    simp only [Pc.workload, Bool.toNat_true]
    omega
  | push phase tick output' hpc _ hitems =>
    rw [hpc, hitems, List.length_append, List.length_singleton, Nat.mul_succ]
    simp only [Pc.workload]
    omega
  | retry tick hpc hfull =>
    rw [hpc] at hready
    rw [BoundedQueue.isFull_iff.2 hfull] at hready
    exact absurd hready (by simp [Pc.ready])
  | overflow tick hpc _ => exact absurd (by rw [hpc]; rfl) hphase
  | countPush phase hpc =>
    rw [hpc] at hphase ⊢
    cases phase with
    | drainInput => exact absurd rfl hphase
    | processTick =>
      simp only [Pc.resume, Pc.workload]
      omega
  | rest hpc =>
    rw [hpc] at hready
    exact absurd hready (by simp [Pc.ready])

/-- **A step that spins** changes nothing. -/
theorem Worker.Step.workload_eq (d : ℕ) (h : Worker.Step S false w input output w' input' output')
    (hphase : w.pc.phase? ≠ some .drainInput)
    (hspins : w.pc.ready (!input.isEmpty) (!output.isFull) = false) :
    input' = input ∧ output' = output ∧
      w'.pc.workload d (!input.isEmpty) (!output.isFull) =
        w.pc.workload d (!input.isEmpty) (!output.isFull) := by
  cases h with
  | enter hpc _ =>
    rw [hpc] at hspins ⊢
    rw [show (!input.isEmpty) = false from hspins]
    exact ⟨rfl, rfl, rfl⟩
  | leave _ hstop => exact absurd hstop (by decide)
  | popEmpty phase hpc hnil =>
    rw [hpc] at hphase ⊢
    rw [BoundedQueue.isEmpty_iff.2 hnil]
    cases phase with
    | drainInput => exact absurd rfl hphase
    | processTick => exact ⟨rfl, rfl, rfl⟩
  | pop phase tick input' hpc hitems =>
    rw [hpc] at hspins
    have hnil : input.items = [] := BoundedQueue.isEmpty_iff.1 (by simpa [Pc.ready] using hspins)
    rw [hnil] at hitems
    exact absurd hitems (by simp)
  | abandon _ _ hstop => exact absurd hstop (by decide)
  | attempt tick hpc _ =>
    rw [hpc] at hspins ⊢
    rw [show (!output.isFull) = false from hspins]
    exact ⟨rfl, rfl, rfl⟩
  | push phase tick output' hpc hroom _ =>
    rw [hpc] at hspins
    have hfull := BoundedQueue.isFull_iff.1 (by simpa [Pc.ready] using hspins)
    omega
  | retry tick hpc hfull =>
    rw [hpc, BoundedQueue.isFull_iff.2 hfull]
    exact ⟨rfl, rfl, rfl⟩
  | overflow tick hpc _ => exact absurd (by rw [hpc]; rfl) hphase
  | rest hpc => exact ⟨rfl, rfl, rfl⟩
  | keep phase tick core out hpc _ => exact absurd hspins (by simp [hpc, Pc.ready])
  | drop phase tick core why hpc _ => exact absurd hspins (by simp [hpc, Pc.ready])
  | countDrop phase why hpc => exact absurd hspins (by simp [hpc, Pc.ready])
  | countPush phase hpc => exact absurd hspins (by simp [hpc, Pc.ready])

/-- A thread takes from its input and adds to its output. -/
theorem Worker.Step.lengths {stop : Bool}
    (h : Worker.Step S stop w input output w' input' output') :
    input'.items.length ≤ input.items.length ∧ output.items.length ≤ output'.items.length := by
  cases h with
  | pop phase tick input' _ hitems =>
    rw [hitems, List.length_cons]
    exact ⟨Nat.le_succ _, Nat.le_refl _⟩
  | push phase tick output' _ _ hitems =>
    rw [hitems, List.length_append]
    exact ⟨Nat.le_refl _, Nat.le_add_right _ _⟩
  | _ => exact ⟨Nat.le_refl _, Nat.le_refl _⟩

end Mdp
