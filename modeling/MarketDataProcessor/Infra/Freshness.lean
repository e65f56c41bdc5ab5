import MarketDataProcessor.Infra.DbWriter

/-!
# How old a batch gets

A writer looks at the clock once per loop and flushes when ten milliseconds have passed since the
last flush. `lastFlush` is an old reading of a clock that never runs backwards, so it is no later
than the reading right after an element was popped, and stays so for as long as the element is
held: an empty batch is the only thing that moves `lastFlush` without a flush. So the first reading
of the clock ten milliseconds after an element was popped, if the element is still held, sends it to
the database. Nothing waits for a batch to fill.

The batches that were handed to `flush_to_db` are `handed`, whatever the database answered.

## The argument

* `ReadBefore` is the invariant of the clock: along a run with readings that never fall, `lastFlush`
  and the reading a flush is under way with are no later than the present one (`Steady.readBefore`).
* `Waits` is about the elements popped up to a reading: as long as they are not all handed over,
  `lastFlush` stays where it was then, since only a flush or an empty batch moves it and either
  means that nothing is held (`Waits.step`).
* At a reading ten milliseconds later the difference to `lastFlush` is ten milliseconds or more, so
  the thread goes to `flush_to_db` unless everything was handed over already
  (`Waits.handed_of_clock`). It stays `Due` until its next step, whoever moves in between
  (`due_of_run`), and that step hands the batch over (`handed_of_run`).

The comparison in the source is in whole milliseconds, rounded towards zero; ten of them have passed
exactly if ten million nanoseconds have.
-/

namespace Mdp

namespace BatchWriter

variable {α ρ : Type*} {n : ℕ} {toRow : α → ρ} {env : Env} {stop : Bool} {w w' : BatchWriter α ρ}
  {input input' : BoundedQueue α n}

/-- The elements of the batches that were handed to `flush_to_db`. -/
def handed (w : BatchWriter α ρ) : List α := (w.flushes.map Prod.fst).flatten

/-- What the thread works with the clock for: it is past a connection, and `lastFlush` is no later
than `time`. -/
def ReadBefore (time : ℤ) (w : BatchWriter α ρ) : Prop :=
  w.pc.room ≠ 0 → w.lastFlush ≤ time ∧ ∀ now, w.pc = .flush (some now) → now ≤ time

/-- **Every step keeps `lastFlush` in the past.** -/
theorem ReadBefore.step {time : ℤ} (h : w.ReadBefore time) (hnow : env.now ≤ time) :
    (w.step toRow env stop input).1.ReadBefore time := by
  unfold BatchWriter.step
  split
  next hpc => cases stop <;> exact fun hroom ↦ absurd rfl hroom
  next hpc =>
    split_ifs
    · exact fun _ ↦ ⟨hnow, fun now hflush ↦ absurd hflush (by simp)⟩
    · exact fun hroom ↦ absurd rfl hroom
  next hpc =>
    obtain ⟨hlast, -⟩ := h (by rw [hpc]; decide)
    split_ifs <;> exact fun _ ↦ ⟨hlast, fun now hflush ↦ absurd hflush (by simp)⟩
  next hpc =>
    obtain ⟨hlast, -⟩ := h (by rw [hpc]; decide)
    split <;> exact fun _ ↦ ⟨hlast, fun now hflush ↦ absurd hflush (by simp)⟩
  next hpc =>
    obtain ⟨hlast, -⟩ := h (by rw [hpc]; decide)
    split_ifs
    · exact fun _ ↦ ⟨hnow, fun now hflush ↦ absurd hflush (by simp)⟩
    · refine fun _ ↦ ⟨hlast, fun now hflush ↦ ?_⟩
      obtain rfl := Option.some.inj (Pc.flush.inj hflush)
      exact hnow
    · exact fun _ ↦ ⟨hlast, fun now hflush ↦ absurd hflush (by simp)⟩
  next now hpc =>
    obtain ⟨hlast, hflush⟩ := h (by rw [hpc]; exact Nat.succ_ne_zero _)
    split_ifs
    · cases now with
      | none => exact fun hroom ↦ absurd rfl hroom
      | some now =>
        exact fun _ ↦ ⟨hflush now hpc, fun _ hagain ↦ absurd hagain (by simp [Pc.flushed])⟩
    · exact fun hroom ↦ absurd rfl hroom
  next slept hpc =>
    intro hroom
    refine absurd ?_ hroom
    show Pc.room (if _ then _ else _) = 0
    split_ifs <;> rfl
  next hpc => exact fun hroom ↦ absurd (by rw [hpc]; rfl) hroom

/-- The elements `held` were popped, and while they are not all handed over, the last flush was no
later than `time`. -/
structure Waits (held : List α) (time : ℤ) (w : BatchWriter α ρ) : Prop where
  popped : held <+: w.popped
  lastFlush : w.handed.length < held.length → w.lastFlush ≤ time

theorem Accounts.handed_append_batch (h : w.Accounts toRow) : w.handed ++ w.batch = w.popped :=
  h.popped.symm

/-- Everything popped is handed over when the batch is empty. -/
theorem Waits.length_le_of_batch {held : List α} {time : ℤ} (h : w.Waits held time)
    (haccounts : w.Accounts toRow) (hempty : w.batch = []) :
    held.length ≤ w.handed.length := by
  have hpopped := haccounts.handed_append_batch
  rw [hempty, List.append_nil] at hpopped
  exact hpopped ▸ h.popped.length_le

/-- A flush hands everything over, whatever the database answers. -/
theorem Waits.length_le_of_flush {held : List α} {time : ℤ} (h : w.Waits held time)
    (haccounts : w.Accounts toRow) (ok : Bool) :
    held.length ≤ (((w.flushes ++ [(w.batch, ok)]).map Prod.fst).flatten).length := by
  rw [List.map_append, List.flatten_append]
  show _ ≤ (w.handed ++ (w.batch ++ [])).length
  rw [List.append_nil, haccounts.handed_append_batch]
  exact h.popped.length_le

/-- **Elements wait until they are handed over.** -/
theorem Waits.step {held : List α} {time : ℤ} (h : w.Waits held time)
    (haccounts : w.Accounts toRow) (hstep : Step toRow env stop w input w' input') :
    w'.Waits held time := by
  cases hstep with
  | move pc _ => exact ⟨h.popped, h.lastFlush⟩
  | idle hpc hempty =>
    have hle := h.length_le_of_batch haccounts hempty
    exact ⟨h.popped, fun hlt ↦ absurd hle (Nat.not_le_of_lt hlt)⟩
  | connected hpc _ =>
    have hle := h.length_le_of_batch haccounts (haccounts.batch_nil (by rw [hpc]; rfl))
    exact ⟨h.popped, fun hlt ↦ absurd hle (Nat.not_le_of_lt hlt)⟩
  | pop x input' hpc hitems => exact ⟨h.popped.trans (List.prefix_append _ _), h.lastFlush⟩
  | commit now hpc _ =>
    have hle := h.length_le_of_flush haccounts true
    exact ⟨h.popped, fun hlt ↦ absurd hle (Nat.not_le_of_lt hlt)⟩
  | throw now hpc _ =>
    have hle := h.length_le_of_flush haccounts false
    exact ⟨h.popped, fun hlt ↦ absurd hle (Nat.not_le_of_lt hlt)⟩
  | rest hpc => exact h

/-- The elements `held` are handed over, or the thread is about to do it. -/
def Due (held : List α) (w : BatchWriter α ρ) : Prop :=
  held.length ≤ w.handed.length ∨ ∃ now, w.pc = .flush now

/-- Ten milliseconds. -/
def flushInterval : ℤ := 10 * 1000000

/-- **A reading of the clock ten milliseconds later** finds the elements handed over, or sends them
to be. -/
theorem Waits.handed_of_clock {held : List α} {time : ℤ} (h : w.Waits held time)
    (haccounts : w.Accounts toRow) (hpc : w.pc = .clock) (hlate : time + flushInterval ≤ env.now) :
    (w.step toRow env stop input).1.Due held := by
  rcases Nat.lt_or_ge w.handed.length held.length with hlt | hge
  · have hbatch : w.batch ≠ [] := fun hempty ↦
      absurd (h.length_le_of_batch haccounts hempty) (Nat.not_le_of_lt hlt)
    have hdue : w.flushDue env.now = true := by
      have hlast := h.lastFlush hlt
      rw [flushInterval] at hlate
      rw [flushDue, decide_eq_true_iff, Int.tdiv_eq_ediv_of_nonneg (by omega)]
      omega
    refine Or.inr ⟨some env.now, ?_⟩
    simp only [BatchWriter.step, hpc, hdue, if_true, List.isEmpty_iff, hbatch, if_false]
  · refine Or.inl (Nat.le_trans hge ?_)
    simp only [BatchWriter.step, hpc]
    split_ifs <;> exact Nat.le_refl _

/-- What was handed over stays so, and a flush hands over the rest. -/
theorem Waits.handed_of_step {held : List α} {time : ℤ} (h : w.Waits held time)
    (haccounts : w.Accounts toRow) (hstep : Step toRow env stop w input w' input')
    (hdue : w.Due held) : held <+: w'.handed := by
  have hwaits := h.step haccounts hstep
  have hbound : held.length ≤ w'.handed.length := by
    by_cases hflush : ∃ now, w.pc = .flush now
    · obtain ⟨now, hpc⟩ := hflush
      rw [handed, hstep.flushes_of_flush hpc]
      exact h.length_le_of_flush haccounts env.ok
    · rw [handed, hstep.flushes_of_not_flush (not_exists.1 hflush)]
      exact hdue.resolve_right hflush
  refine List.prefix_of_prefix_length_le hwaits.popped ?_ hbound
  rw [← (haccounts.step hstep).handed_append_batch]
  exact List.prefix_append _ _

end BatchWriter

namespace WriterSystem

open BatchWriter

variable {α ρ : Type*} {n : ℕ} {toRow : α → ρ} {s t u v : WriterSystem α ρ n}
  {input : BoundedQueue α n}

/-- The clock at the steps of the thread. -/
def clockOf : Action α → Option ℤ
  | .thread env => some env.now
  | _ => none

/-- The clock never runs backwards. -/
def Steady (acts : List (Action α)) : Prop := (acts.filterMap clockOf).Pairwise (· ≤ ·)

instance (acts : List (Action α)) : Decidable (Steady acts) :=
  inferInstanceAs (Decidable (List.Pairwise _ _))

/-- What was read before a step was read no later. -/
theorem Steady.readBefore {seen rest : List (Action α)} {env : Env}
    (h : Steady (seen ++ .thread env :: rest))
    (hrun : StepRun.run (step toRow) (init input) seen = some u) : u.writer.ReadBefore env.now := by
  have hbefore : ∀ a ∈ seen, ∀ now ∈ clockOf a, now ≤ env.now := by
    intro a ha now hnow
    rw [Steady, List.filterMap_append, List.pairwise_append] at h
    exact h.2.2 now (List.mem_filterMap.2 ⟨a, ha, hnow⟩) env.now
      (List.mem_filterMap.2 ⟨_, List.mem_cons_self, rfl⟩)
  refine StepRun.run_invariant_of_mem
    (P := fun u : WriterSystem α ρ n ↦ u.writer.ReadBefore env.now) (fun a ha x y hx hstep ↦ ?_)
    (fun hroom ↦ absurd rfl hroom) hrun
  cases a with
  | upstreamPush x =>
    obtain ⟨input', -, rfl⟩ := Option.map_eq_some_iff.1 hstep
    exact hx
  | requestStop =>
    obtain rfl := Option.some.inj hstep
    exact hx
  | thread env' =>
    obtain rfl := Option.some.inj hstep
    exact hx.step (hbefore _ ha _ rfl)

/-- What waits goes on waiting along a run. -/
theorem waits_of_run {held : List α} {time : ℤ} {acts : List (Action α)}
    (haccounts : s.writer.Accounts toRow) (hwaits : s.writer.Waits held time)
    (hrun : StepRun.run (step toRow) s acts = some t) :
    t.writer.Accounts toRow ∧ t.writer.Waits held time := by
  refine StepRun.run_invariant
    (P := fun u : WriterSystem α ρ n ↦ u.writer.Accounts toRow ∧ u.writer.Waits held time)
    (fun x a y hx hstep ↦ ?_) ⟨haccounts, hwaits⟩ hrun
  rcases step_cases hstep with ⟨hsame, -⟩ | ⟨env, -, hrule⟩
  · exact hsame ▸ hx
  · exact ⟨hx.1.step hrule, hx.2.step hx.1 hrule⟩

/-- Nobody but the thread takes the due elements out of its hands. -/
theorem due_of_run {held : List α} {time : ℤ} {acts : List (Action α)}
    (haccounts : s.writer.Accounts toRow) (hwaits : s.writer.Waits held time)
    (hdue : s.writer.Due held) (hrun : StepRun.run (step toRow) s acts = some t) :
    t.writer.Due held := by
  refine (StepRun.run_invariant (P := fun u : WriterSystem α ρ n ↦
    u.writer.Accounts toRow ∧ u.writer.Waits held time ∧ u.writer.Due held)
    (fun x a y hx hstep ↦ ?_) ⟨haccounts, hwaits, hdue⟩ hrun).2.2
  obtain ⟨hacc, hwait, hd⟩ := hx
  rcases step_cases hstep with ⟨hsame, -⟩ | ⟨env, -, hrule⟩
  · exact hsame ▸ ⟨hacc, hwait, hd⟩
  · exact ⟨hacc.step hrule, hwait.step hacc hrule,
      Or.inl (hwait.handed_of_step hacc hrule hd).length_le⟩

/-- One step of the thread, whenever it comes, hands the due elements over. -/
theorem handed_of_run {held : List α} {time : ℤ} {acts : List (Action α)} {env : Env}
    (haccounts : s.writer.Accounts toRow) (hwaits : s.writer.Waits held time)
    (hdue : s.writer.Due held) (hstepped : .thread env ∈ acts)
    (hrun : StepRun.run (step toRow) s acts = some t) : held <+: t.writer.handed := by
  obtain ⟨before, after, rfl⟩ := List.append_of_mem hstepped
  obtain ⟨u, hu, hrest⟩ := StepRun.run_append_eq_some_iff.1 hrun
  obtain ⟨v, hv, hafter⟩ := StepRun.run_cons_eq_some_iff.1 hrest
  obtain ⟨hacc, hwait⟩ := waits_of_run haccounts hwaits hu
  have hone : StepRun.run (step toRow) u [.thread env] = some v :=
    StepRun.run_cons_eq_some_iff.2 ⟨v, hv, rfl⟩
  obtain ⟨hacc', hwait'⟩ := waits_of_run hacc hwait hone
  have hhanded : held <+: v.writer.handed := by
    obtain rfl := Option.some.inj hv
    exact hwait.handed_of_step hacc (BatchWriter.step_rule ..)
      (due_of_run haccounts hwaits hdue hu)
  -- from here on `handed` only grows
  refine (StepRun.run_invariant (P := fun x : WriterSystem α ρ n ↦
    x.writer.Accounts toRow ∧ x.writer.Waits held time ∧ held <+: x.writer.handed)
    (fun x a y hx hstep ↦ ?_) ⟨hacc', hwait', hhanded⟩ hafter).2.2
  obtain ⟨hacc, hwait, hh⟩ := hx
  rcases step_cases hstep with ⟨hsame, -⟩ | ⟨env, -, hrule⟩
  · exact hsame ▸ ⟨hacc, hwait, hh⟩
  · exact ⟨hacc.step hrule, hwait.step hacc hrule,
      hwait.handed_of_step hacc hrule (Or.inl hh.length_le)⟩

/-- **No element is held for long.** In every run of a writer on a clock that never runs backwards,
whatever its input does and however the database answers: take any reading of the clock in the loop,
and any other at least ten milliseconds later. Once the thread has made one more step after the
second, with any pushes and stop requests in between and anything after it, everything that had been
popped at the first was handed to `flush_to_db`, in order. -/
theorem handed_in_time {seen mid later : List (Action α)} {env env' env'' : Env}
    {x : WriterSystem α ρ n} (hrun : StepRun.run (step toRow) (init input) seen = some u)
    (hread : u.writer.pc = .clock)
    (hmid : StepRun.run (step toRow) u (.thread env :: mid) = some v)
    (hagain : v.writer.pc = .clock) (hlate : env.now + flushInterval ≤ env'.now)
    (hlater : StepRun.run (step toRow) v (.thread env' :: later) = some x)
    (hstepped : .thread env'' ∈ later)
    (hsteady : Steady (seen ++ .thread env :: (mid ++ .thread env' :: later))) :
    u.writer.popped <+: x.writer.handed := by
  have hflushed : u.writer.lastFlush ≤ env.now :=
    (hsteady.readBefore hrun (by rw [hread]; decide)).1
  obtain ⟨haccounts, hwaits⟩ := waits_of_run (accounts_of_run hrun)
    ⟨List.prefix_refl u.writer.popped, fun _ ↦ hflushed⟩ hmid
  obtain ⟨t, ht, hx⟩ := StepRun.run_cons_eq_some_iff.1 hlater
  have hone : StepRun.run (step toRow) v [.thread env'] = some t :=
    StepRun.run_cons_eq_some_iff.2 ⟨t, ht, rfl⟩
  obtain ⟨haccounts', hwaits'⟩ := waits_of_run haccounts hwaits hone
  have hdue : t.writer.Due u.writer.popped := by
    obtain rfl := Option.some.inj ht
    exact hwaits.handed_of_clock haccounts hagain hlate
  exact handed_of_run haccounts' hwaits' hdue hstepped hx

/-- A snapshot popped five milliseconds after the connection is flushed at the reading ten
milliseconds after that, though another one comes in and the writer is asked to stop before the
flush. -/
theorem handed_in_time_fifteen :
    let toRow := DbWriter.toRow (FloatEnv.exact fun _ ↦ 0) fun _ ↦ 0
    let look := fun now : ℤ ↦ (Action.thread ⟨true, now⟩ : Action MarketSnapshot)
    let start : WriterSystem MarketSnapshot PriceRow 4096 := init BoundedQueue.empty
    let acts := .upstreamPush sampleSnapshot :: List.replicate 4 (look 0) ++
      List.replicate 3 (look 5000000) ++
      [look 15000000, .upstreamPush sampleSnapshot, .requestStop, look 15000000]
    ∃ x, StepRun.run (step toRow) start acts = some x ∧ [sampleSnapshot] <+: x.writer.handed := by
  intro toRow look start acts
  obtain ⟨u, hu, hread⟩ := Option.map_eq_some_iff.1 (by decide +kernel :
    (StepRun.run (step toRow) start (.upstreamPush sampleSnapshot :: List.replicate 4 (look 0))).map
      (fun u ↦ (u.writer.pc, u.writer.popped)) = some (.clock, [sampleSnapshot]))
  obtain ⟨v, hv, hagain⟩ := Option.map_eq_some_iff.1 (by decide +kernel :
    (StepRun.run (step toRow) start (.upstreamPush sampleSnapshot ::
      (List.replicate 4 (look 0) ++ List.replicate 3 (look 5000000)))).map
        (fun v ↦ v.writer.pc) = some .clock)
  have hsplit := hv
  rw [← List.cons_append, StepRun.run_append_eq_some_iff] at hsplit
  obtain ⟨u', hu', hmid⟩ := hsplit
  obtain rfl := Option.some.inj (hu'.symm.trans hu)
  obtain ⟨x, hx⟩ := Option.isSome_iff_exists.1 (by decide +kernel :
    (StepRun.run (step toRow) start acts).isSome = true)
  obtain ⟨v', hv', hend⟩ := StepRun.run_append_eq_some_iff.1 hx
  obtain rfl := Option.some.inj (hv'.symm.trans hv)
  obtain ⟨hpc, hpopped⟩ := Prod.mk.inj hread
  have hsteady : Steady ((.upstreamPush sampleSnapshot :: List.replicate 4 (look 0)) ++
      look 5000000 :: (List.replicate 2 (look 5000000) ++ look 15000000 ::
        [.upstreamPush sampleSnapshot, .requestStop, look 15000000])) := by
    decide +kernel
  have hdone := handed_in_time hu hpc hmid hagain (by decide) hend
    (List.mem_cons_of_mem _ (List.mem_cons_of_mem _ List.mem_cons_self)) hsteady
  exact ⟨x, hx, hpopped ▸ hdone⟩

end WriterSystem

end Mdp
