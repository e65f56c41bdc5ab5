import MarketDataProcessor.Processing.StageThread

/-!
# Accounting for every tick of a stage

What a stage thread did with its input, in every reachable state and at thread exit, for any
interleaving with the parties around it.

`Accounts` is the invariant of the thread alone. The ticks it has popped are those it has judged and
the one it is about to judge; the judgement's state is that of the pure stage on the judged ticks;
what the pure stage forwards of them has met a fate, up to the tick in hand; the counters are exact,
up to the one about to be incremented. Since every rule of the thread preserves it whatever the stop
flag and the buffers are, it needs no hypothesis about the schedule.

The buffers enter through two conservation laws of a single step, `popped_append_items` and
`exists_pushed`: what left the input was popped, and what entered the output was pushed.

Losses need the stop flag. `Losses` says that `process_tick` lost at most one tick, that it did so
after the request and cannot be entered again, and that `drain_input` lost ticks on a full output
only.

## How the accounts are kept

A rule of the thread does one of three things to them. It moves the program counter and nothing else
(`Accounts.move`), it judges a tick, or it settles the fate of the tick in hand (`Accounts.settle`).
The position determines what is pending: `holding` maps it to one of a few cases, so that the
invariant does not speak of program counters, and `Accounts.of_nothing` reads off the equations
wherever nothing is pending.

A loss is a fate like any other to the accounts. What distinguishes the fates, when a thread may
lose a tick and how often, is in `Losses` and `Undisturbed`, and only their proofs look at the stop
flag.
-/

namespace Mdp

section Fates

variable {β : Type*}

/-- The ticks that reached the output. -/
def pushedOf (fates : List (β × Fate)) : List β :=
  (fates.filter fun fate ↦ fate.2 = .pushed).map Prod.fst

/-- The ticks that were to be forwarded and never reached the output. -/
def lostOf (fates : List (β × Fate)) : List β :=
  (fates.filter fun fate ↦ fate.2 ≠ .pushed).map Prod.fst

/-- How many ticks `process_tick` lost. -/
def lostInProcess (fates : List (β × Fate)) : ℕ :=
  fates.countP fun fate ↦ fate.2 = .lostInProcess

theorem pushedOf_concat (fates : List (β × Fate)) (tick : β) (fate : Fate) :
    pushedOf (fates ++ [(tick, fate)]) =
      pushedOf fates ++ if fate = .pushed then [tick] else [] := by
  rw [pushedOf, pushedOf, List.filter_append, List.map_append]
  by_cases h : fate = .pushed <;> simp [h]

theorem length_pushedOf_add_length_lostOf (fates : List (β × Fate)) :
    (pushedOf fates).length + (lostOf fates).length = fates.length := by
  rw [pushedOf, lostOf, List.length_map, List.length_map,
    List.length_eq_length_filter_add (l := fates) fun fate ↦ decide (fate.2 = .pushed)]
  simp only [ne_eq, decide_not]

theorem lostOf_concat (fates : List (β × Fate)) (tick : β) (fate : Fate) :
    lostOf (fates ++ [(tick, fate)]) = lostOf fates ++ if fate = .pushed then [] else [tick] := by
  rw [lostOf, lostOf, List.filter_append, List.map_append]
  by_cases h : fate = .pushed <;> simp [h]

theorem pushedOf_eq_map_fst_iff {fates : List (β × Fate)} :
    pushedOf fates = fates.map Prod.fst ↔ lostOf fates = [] := by
  have hlen := length_pushedOf_add_length_lostOf fates
  constructor
  · intro h
    rw [h, List.length_map] at hlen
    exact List.length_eq_zero_iff.1 (by omega)
  · intro h
    rw [lostOf, List.map_eq_nil_iff, List.filter_eq_nil_iff] at h
    rw [pushedOf, List.filter_eq_self.2 fun fate hfate ↦ by simpa using h fate hfate]

end Fates

section Accounting

variable {σ α β κ : Type*}

/-- What a thread holds between two accesses. -/
inductive Holding (α β κ : Type*) where
  | nothing
  /-- A tick popped and not yet judged. -/
  | tick (t : α)
  /-- A tick to be forwarded that has met no fate yet. -/
  | out (t : β)
  /-- A drop that is not counted yet. -/
  | drop (why : κ)
  /-- A push that is not counted yet. -/
  | push

namespace Holding

/-- The tick not yet judged. -/
def unjudged : Holding α β κ → List α
  | tick t => [t]
  | _ => []

/-- The tick without a fate. -/
def inHand : Holding α β κ → List β
  | out t => [t]
  | _ => []

/-- The drop not yet counted. -/
def uncountedDrop : Holding α β κ → List κ
  | drop why => [why]
  | _ => []

/-- The push not yet counted. -/
def uncountedPush : Holding α β κ → ℕ
  | push => 1
  | _ => 0

end Holding

namespace Pc

/-- What the thread holds here. -/
def holding : Pc α β κ → Holding α β κ
  | classify _ tick => .tick tick
  | countDrop _ why => .drop why
  | pushTest tick => .out tick
  | tryPush _ tick => .out tick
  | countPush _ => .push
  | _ => .nothing

@[simp] theorem holding_resume (phase : Phase) : (resume phase : Pc α β κ).holding = .nothing := by
  cases phase <;> rfl

@[simp] theorem holding_idle (phase : Phase) : (idle phase : Pc α β κ).holding = .nothing := by
  cases phase <;> rfl

@[simp] theorem holding_send (phase : Phase) (tick : β) :
    (send phase tick : Pc α β κ).holding = .out tick := by
  cases phase <;> rfl

end Pc

namespace Worker

variable [DecidableEq κ] {m n : ℕ}

/-! ### The thread and its counters -/

/-- The state of a thread that has judged the ticks `judged`. -/
structure Accounts (S : FilterStage σ α β κ) (w : Worker σ α β κ) (judged : List α) : Prop where
  /-- Popped ticks are judged, up to one. -/
  popped : w.popped = judged ++ w.pc.holding.unjudged
  /-- The judgement's state is the pure one. -/
  core : w.core = S.stateAfter judged
  /-- Forwarded ticks have met a fate, up to one. -/
  fates : S.forwardedOf judged = w.fates.map Prod.fst ++ w.pc.holding.inHand
  /-- Dropped ticks are counted, up to one. -/
  dropped : ∀ why,
    (S.dropsOf judged).count why = w.dropped why + w.pc.holding.uncountedDrop.count why
  /-- Pushed ticks are counted, up to one. -/
  forwarded : (pushedOf w.fates).length = w.forwarded + w.pc.holding.uncountedPush

theorem accounts_start (S : FilterStage σ α β κ) : (start S).Accounts S [] :=
  ⟨rfl, rfl, rfl, fun _ ↦ rfl, rfl⟩

variable {S : FilterStage σ α β κ} {stop : Bool} {w w' : Worker σ α β κ}
  {input input' : BoundedQueue α m} {output output' : BoundedQueue β n} {judged : List α}

/-- Moving without taking or giving up anything. -/
theorem Accounts.move (h : w.Accounts S judged) {pc pc' : Pc α β κ} (hpc : w.pc = pc)
    (hhold : pc'.holding = pc.holding) :
    ({ w with pc := pc' } : Worker σ α β κ).Accounts S judged := by
  subst hpc
  obtain ⟨hpopped, hcore, hfates, hdropped, hforwarded⟩ := h
  exact ⟨by rw [hhold]; exact hpopped, hcore, by rw [hhold]; exact hfates,
    by rw [hhold]; exact hdropped, by rw [hhold]; exact hforwarded⟩

/-- The tick in hand meets its fate. -/
theorem Accounts.settle (h : w.Accounts S judged) {pc pc' : Pc α β κ} {tick : β} {fate : Fate}
    (hpc : w.pc = pc) (hhold : pc.holding = .out tick)
    (hhold' : pc'.holding = if fate = .pushed then .push else .nothing) :
    ({ w with pc := pc', fates := w.fates ++ [(tick, fate)] } : Worker σ α β κ).Accounts
      S judged := by
  subst hpc
  obtain ⟨hpopped, hcore, hfates, hdropped, hforwarded⟩ := h
  rw [hhold] at hpopped hfates hdropped hforwarded
  have hfates' : S.forwardedOf judged = (w.fates ++ [(tick, fate)]).map Prod.fst ++ [] := by
    rw [hfates, List.map_append, List.append_nil]
    rfl
  by_cases hf : fate = .pushed
  · rw [if_pos hf] at hhold'
    refine ⟨by rw [hhold']; exact hpopped, hcore, by rw [hhold']; exact hfates',
      by rw [hhold']; exact hdropped, ?_⟩
    rw [hhold', pushedOf_concat, if_pos hf, List.length_append, hforwarded]
    rfl
  · rw [if_neg hf] at hhold'
    refine ⟨by rw [hhold']; exact hpopped, hcore, by rw [hhold']; exact hfates',
      by rw [hhold']; exact hdropped, ?_⟩
    rw [hhold', pushedOf_concat, if_neg hf, List.append_nil, hforwarded]
    rfl

/-- Counting a drop, as the sum it adds to. -/
theorem update_succ_eq_add_count (dropped : κ → ℕ) (why k : κ) :
    Function.update dropped why (dropped why + 1) k = dropped k + [why].count k := by
  by_cases hk : k = why
  · subst hk
    rw [Function.update_self, List.count_singleton_self]
  · rw [Function.update_of_ne hk, List.count_singleton, if_neg (by simpa using Ne.symm hk)]
    rfl

/-- **Every rule keeps the accounts.** The judged ticks grow when a tick is judged. -/
theorem Accounts.step (h : w.Accounts S judged)
    (hstep : Step S stop w input output w' input' output') : ∃ judged', w'.Accounts S judged' := by
  cases hstep with
  | enter hpc _ => exact ⟨judged, h.move hpc rfl⟩
  | leave hpc _ => exact ⟨judged, h.move hpc rfl⟩
  | popEmpty phase hpc _ => exact ⟨judged, h.move hpc (Pc.holding_idle phase)⟩
  | attempt _ hpc _ => exact ⟨judged, h.move hpc rfl⟩
  | retry _ hpc _ => exact ⟨judged, h.move hpc rfl⟩
  | abandon tick hpc _ => exact ⟨judged, h.settle hpc rfl rfl⟩
  | push phase tick _ hpc _ _ => exact ⟨judged, h.settle hpc rfl rfl⟩
  | overflow tick hpc _ => exact ⟨judged, h.settle hpc rfl rfl⟩
  | rest hpc => exact ⟨judged, h⟩
  | pop phase tick _ hpc _ =>
    -- popped and not yet judged
    obtain ⟨hpopped, hcore, hfates, hdropped, hforwarded⟩ := h
    rw [hpc] at hpopped hfates hdropped hforwarded
    exact ⟨judged, congrArg (· ++ [tick]) (hpopped.trans (List.append_nil _)), hcore, hfates,
      hdropped, hforwarded⟩
  | keep phase tick core out hpc hverdict =>
    -- judged, and in hand until it meets a fate
    obtain ⟨hpopped, hcore, hfates, hdropped, hforwarded⟩ := h
    rw [hpc] at hpopped hfates hdropped hforwarded
    rw [hcore] at hverdict
    refine ⟨judged ++ [tick], ?_, ?_, ?_, fun why ↦ ?_, ?_⟩
    · rw [Pc.holding_send]
      exact hpopped.trans (List.append_nil _).symm
    · rw [FilterStage.stateAfter_concat, hverdict]
    · rw [Pc.holding_send, FilterStage.forwardedOf_concat, hverdict, hfates]
      exact congrArg (· ++ [out]) (List.append_nil _)
    · rw [Pc.holding_send, FilterStage.dropsOf_concat, hverdict]
      exact (congrArg _ (List.append_nil _)).trans (hdropped why)
    · rw [Pc.holding_send]
      exact hforwarded
  | drop phase tick core why hpc hverdict =>
    -- judged, with its drop still to be counted
    obtain ⟨hpopped, hcore, hfates, hdropped, hforwarded⟩ := h
    rw [hpc] at hpopped hfates hdropped hforwarded
    rw [hcore] at hverdict
    refine ⟨judged ++ [tick], hpopped.trans (List.append_nil _).symm, ?_, ?_, fun k ↦ ?_,
      hforwarded⟩
    · rw [FilterStage.stateAfter_concat, hverdict]
    · rw [FilterStage.forwardedOf_concat, hverdict]
      exact (List.append_nil _).trans hfates
    · rw [FilterStage.dropsOf_concat, hverdict, List.count_append, hdropped]
      rfl
  | countDrop phase why hpc =>
    obtain ⟨hpopped, hcore, hfates, hdropped, hforwarded⟩ := h
    rw [hpc] at hpopped hfates hdropped hforwarded
    refine ⟨judged, ?_, hcore, ?_, fun k ↦ ?_, ?_⟩
    · rw [Pc.holding_resume]
      exact hpopped
    · rw [Pc.holding_resume]
      exact hfates
    · rw [Pc.holding_resume, hdropped k]
      exact (update_succ_eq_add_count w.dropped why k).symm
    · rw [Pc.holding_resume]
      exact hforwarded
  | countPush phase hpc =>
    obtain ⟨hpopped, hcore, hfates, hdropped, hforwarded⟩ := h
    rw [hpc] at hpopped hfates hdropped hforwarded
    refine ⟨judged, ?_, hcore, ?_, ?_, ?_⟩
    · rw [Pc.holding_resume]
      exact hpopped
    · rw [Pc.holding_resume]
      exact hfates
    · rw [Pc.holding_resume]
      exact hdropped
    · rw [Pc.holding_resume]
      exact hforwarded

/-- **When the thread holds nothing, nothing is pending.** Thread exit is one such place. -/
theorem Accounts.of_nothing (h : w.Accounts S judged) (hhold : w.pc.holding = .nothing) :
    S.forwardedOf w.popped = w.fates.map Prod.fst ∧
      w.forwarded = (pushedOf w.fates).length ∧
      (∀ why, w.dropped why = (S.dropsOf w.popped).count why) ∧
      w.popped.length = w.forwarded + (S.dropsOf w.popped).length + (lostOf w.fates).length := by
  obtain ⟨hpopped, -, hfates, hdropped, hforwarded⟩ := h
  rw [hhold] at hpopped hfates hdropped hforwarded
  have hjudged : w.popped = judged := hpopped.trans (List.append_nil _)
  have hfates' : S.forwardedOf judged = w.fates.map Prod.fst := hfates.trans (List.append_nil _)
  refine ⟨by rw [hjudged, hfates'], hforwarded.symm, fun why ↦ ?_, ?_⟩
  · rw [hjudged]
    exact (hdropped why).symm
  · have hlen := S.length_forwardedOf_add_length_dropsOf judged
    have hsplit := length_pushedOf_add_length_lostOf w.fates
    have hcount : (pushedOf w.fates).length = w.forwarded := hforwarded
    rw [hfates', List.length_map] at hlen
    rw [hjudged]
    omega

/-- **No more is counted than was popped**, whatever was lost. -/
theorem Accounts.forwarded_add_le (h : w.Accounts S judged) :
    w.forwarded + (S.dropsOf judged).length ≤ w.popped.length := by
  have hlen := S.length_forwardedOf_add_length_dropsOf judged
  have hsplit := length_pushedOf_add_length_lostOf w.fates
  have hforwarded := h.forwarded
  rw [h.fates, List.length_append, List.length_map] at hlen
  rw [h.popped, List.length_append]
  omega

/-- **What was pushed is a part of what the stage forwards**, whatever was lost. -/
theorem Accounts.pushedOf_sublist (h : w.Accounts S judged) :
    (pushedOf w.fates).Sublist (S.forwardedOf judged) := by
  rw [h.fates]
  exact (List.filter_sublist.map Prod.fst).trans (List.sublist_append_left _ _)

/-- Without losses, what was pushed is a prefix of what the stage forwards of any input that starts
with the popped ticks. -/
theorem Accounts.pushedOf_prefix (h : w.Accounts S judged) (hlost : lostOf w.fates = [])
    {ticks : List α} (hticks : w.popped <+: ticks) : pushedOf w.fates <+: S.forwardedOf ticks := by
  have hjudged : judged <+: ticks := by
    refine List.IsPrefix.trans ?_ hticks
    rw [h.popped]
    exact List.prefix_append _ _
  refine List.IsPrefix.trans ?_ (S.forwarding.outputs_prefix S.init hjudged)
  show _ <+: S.forwardedOf judged
  rw [h.fates, pushedOf_eq_map_fst_iff.2 hlost]
  exact List.prefix_append _ _

/-- **A thread counts what it holds uncounted, and nothing else.** -/
theorem Step.counters (hstep : Step S stop w input output w' input' output') :
    w'.forwarded = w.forwarded + w.pc.holding.uncountedPush ∧
      ∀ why, w'.dropped why = w.dropped why + w.pc.holding.uncountedDrop.count why := by
  cases hstep with
  | countPush phase hpc => exact ⟨by rw [hpc]; rfl, fun why ↦ by rw [hpc]; rfl⟩
  | countDrop phase why hpc =>
    refine ⟨by rw [hpc]; rfl, fun k ↦ ?_⟩
    rw [hpc]
    exact update_succ_eq_add_count w.dropped why k
  | enter hpc | leave hpc | popEmpty _ hpc | pop _ _ _ hpc | keep _ _ _ _ hpc | drop _ _ _ _ hpc
  | abandon _ hpc | attempt _ hpc | push _ _ _ hpc | retry _ hpc | overflow _ hpc | rest hpc =>
    exact ⟨by rw [hpc]; rfl, fun why ↦ by rw [hpc]; rfl⟩

/-! ### The thread and its buffers -/

/-- **What left the input was popped.** -/
theorem Step.popped_append_items (hstep : Step S stop w input output w' input' output') :
    w'.popped ++ input'.items = w.popped ++ input.items := by
  cases hstep with
  | pop phase tick _ _ hitems => rw [hitems, List.append_assoc, List.singleton_append]
  | _ => rfl

/-- **What entered the output was pushed.** -/
theorem Step.exists_pushed (hstep : Step S stop w input output w' input' output') :
    ∃ sent, output'.items = output.items ++ sent ∧
      pushedOf w'.fates = pushedOf w.fates ++ sent := by
  cases hstep with
  | push phase tick _ _ _ hitems => exact ⟨[tick], hitems, pushedOf_concat _ _ _⟩
  | abandon => exact ⟨[], (List.append_nil _).symm, pushedOf_concat _ _ _⟩
  | overflow => exact ⟨[], (List.append_nil _).symm, pushedOf_concat _ _ _⟩
  | _ => exact ⟨[], (List.append_nil _).symm, (List.append_nil _).symm⟩

/-! ### Losses -/

/-- After a stop request `process_tick` is not entered again. -/
theorem Step.phase_eq (hstep : Step S true w input output w' input' output')
    (h : w'.pc.phase? = some .processTick) : w.pc.phase? = some .processTick := by
  cases hstep with
  | enter _ hstop => exact absurd hstop (by simp)
  | leave => exact absurd h (by simp [Pc.phase?])
  | popEmpty phase => cases phase <;> exact absurd h (by simp [Pc.phase?, Pc.idle])
  | pop phase tick _ hpc => rw [hpc]; exact h
  | keep phase tick core out hpc => cases phase <;> simp_all [Pc.phase?, Pc.send]
  | drop phase tick core why hpc => rw [hpc]; exact h
  | countDrop phase => cases phase <;> exact absurd h (by simp [Pc.phase?, Pc.resume])
  | abandon => exact absurd h (by simp [Pc.phase?])
  | attempt tick hpc => rw [hpc]; rfl
  | push phase tick _ hpc => rw [hpc]; exact h
  | retry tick hpc => rw [hpc]; rfl
  | overflow => exact absurd h (by simp [Pc.phase?])
  | countPush phase => cases phase <;> exact absurd h (by simp [Pc.phase?, Pc.resume])
  | rest => exact h

/-- **The only ways to meet a fate.** -/
theorem Step.fates_cases (hstep : Step S stop w input output w' input' output') :
    w'.fates = w.fates ∨ ∃ tick fate, w'.fates = w.fates ++ [(tick, fate)] ∧
      (fate = .pushed ∨
        (fate = .lostInProcess ∧ stop = true ∧ w.pc.phase? = some .processTick ∧
          w'.pc = .loopTest) ∨
        (fate = .lostInDrain n ∧ w.pc.phase? = some .drainInput)) := by
  cases hstep with
  | abandon tick hpc hstop =>
    exact Or.inr ⟨tick, _, rfl, Or.inr (Or.inl ⟨rfl, hstop, by rw [hpc]; rfl, rfl⟩)⟩
  | push phase tick => exact Or.inr ⟨tick, _, rfl, Or.inl rfl⟩
  | overflow tick hpc hfull =>
    exact Or.inr ⟨tick, _, rfl, Or.inr (Or.inr ⟨by rw [hfull], by rw [hpc]; rfl⟩)⟩
  | _ => exact Or.inl rfl

/-- Without a stop request `drain_input` is not entered. -/
theorem Step.not_draining (hstep : Step S false w input output w' input' output')
    (hphase : w.pc.phase? ≠ some .drainInput) (hrun : w.pc ≠ .exited) :
    w'.pc.phase? ≠ some .drainInput ∧ w'.pc ≠ .exited := by
  cases hstep with
  | leave _ hstop => exact absurd hstop (by simp)
  | abandon _ _ hstop => exact absurd hstop (by simp)
  | rest hpc => exact ⟨hphase, hrun⟩
  | enter | attempt | retry => simp [Pc.phase?]
  | popEmpty phase hpc => cases phase <;> simp_all [Pc.phase?, Pc.idle]
  | pop phase tick _ hpc => cases phase <;> simp_all [Pc.phase?]
  | keep phase tick core out hpc => cases phase <;> simp_all [Pc.phase?, Pc.send]
  | drop phase tick core why hpc => cases phase <;> simp_all [Pc.phase?]
  | countDrop phase why hpc => cases phase <;> simp_all [Pc.phase?, Pc.resume]
  | push phase tick _ hpc => cases phase <;> simp_all [Pc.phase?]
  | overflow tick hpc => simp_all [Pc.phase?]
  | countPush phase hpc => cases phase <;> simp_all [Pc.phase?, Pc.resume]

/-- Nothing is lost and `drain_input` has not begun. -/
def Undisturbed (w : Worker σ α β κ) : Prop :=
  lostOf w.fates = [] ∧ w.pc.phase? ≠ some .drainInput ∧ w.pc ≠ .exited

omit [DecidableEq κ] in
theorem undisturbed_start (S : FilterStage σ α β κ) : (start S).Undisturbed :=
  ⟨rfl, by simp [start, Pc.phase?], by simp [start]⟩

/-- **Without a stop request nothing is lost.** -/
theorem Undisturbed.step (h : w.Undisturbed)
    (hstep : Step S false w input output w' input' output') : w'.Undisturbed := by
  obtain ⟨hlost, hphase, hrun⟩ := h
  refine ⟨?_, hstep.not_draining hphase hrun⟩
  rcases hstep.fates_cases with hsame | ⟨tick, fate, hnew, rfl | ⟨-, hreq, -⟩ | ⟨-, hdrain⟩⟩
  · exact (congrArg lostOf hsame).trans hlost
  · rw [hnew, lostOf_concat, hlost]
    rfl
  · exact absurd hreq (by simp)
  · exact absurd hdrain hphase

/-- What the thread may have lost, with an output of capacity `n`. -/
structure Losses (n : ℕ) (stop : Bool) (w : Worker σ α β κ) : Prop where
  /-- `process_tick` lost at most one tick. -/
  process_le : lostInProcess w.fates ≤ 1
  /-- It did so after the request, and has returned since. -/
  process_once : lostInProcess w.fates = 1 → stop = true ∧ w.pc.phase? ≠ some .processTick
  /-- `drain_input` lost ticks on a full output only. -/
  drain_full : ∀ fate ∈ w.fates, ∀ held, fate.2 = .lostInDrain held → held = n

omit [DecidableEq κ] in
theorem losses_start (S : FilterStage σ α β κ) : (start S).Losses n stop :=
  ⟨Nat.zero_le _, fun h ↦ absurd h (by simp [start, lostInProcess]),
    fun fate h ↦ absurd h List.not_mem_nil⟩

omit [DecidableEq κ] in
/-- A stop request costs nothing by itself. -/
theorem Losses.request (h : w.Losses n stop) : w.Losses n true :=
  ⟨h.process_le, fun hone ↦ ⟨rfl, (h.process_once hone).2⟩, h.drain_full⟩

/-- A step that does not abandon a tick leaves the record of `process_tick` as it was. -/
theorem Losses.process_of_eq (h : w.Losses n stop)
    (hstep : Step S stop w input output w' input' output')
    (heq : lostInProcess w'.fates = lostInProcess w.fates) :
    lostInProcess w'.fates ≤ 1 ∧
      (lostInProcess w'.fates = 1 → stop = true ∧ w'.pc.phase? ≠ some .processTick) := by
  rw [heq]
  refine ⟨h.process_le, fun hone ↦ ?_⟩
  obtain ⟨rfl, hphase⟩ := h.process_once hone
  exact ⟨rfl, fun hp ↦ hphase (hstep.phase_eq hp)⟩

/-- **Every rule keeps the losses within bounds.** -/
theorem Losses.step (h : w.Losses n stop)
    (hstep : Step S stop w input output w' input' output') : w'.Losses n stop := by
  rcases hstep.fates_cases with hsame | ⟨tick, fate, hnew, hfate⟩
  · obtain ⟨hle, honce⟩ := h.process_of_eq hstep (by rw [hsame])
    exact ⟨hle, honce, hsame ▸ h.drain_full⟩
  have hcount : lostInProcess w'.fates =
      lostInProcess w.fates + if fate = .lostInProcess then 1 else 0 := by
    rw [hnew, lostInProcess, lostInProcess, List.countP_append, List.countP_singleton]
    simp
  have hdrain : (∀ held, fate = .lostInDrain held → held = n) →
      ∀ f ∈ w'.fates, ∀ held, f.2 = .lostInDrain held → held = n := by
    intro hlast f hf
    rw [hnew, List.mem_append, List.mem_singleton] at hf
    rcases hf with hf | rfl
    · exact h.drain_full f hf
    · exact hlast
  rcases hfate with rfl | ⟨rfl, rfl, hphase, hpc'⟩ | ⟨rfl, -⟩
  · obtain ⟨hle, honce⟩ := h.process_of_eq hstep (by rw [hcount]; rfl)
    exact ⟨hle, honce, hdrain (by simp)⟩
  · -- the thread was still in `process_tick`, so this is the first tick it loses there
    have hnone : lostInProcess w.fates ≠ 1 := fun hone ↦ (h.process_once hone).2 hphase
    have hle := h.process_le
    rw [if_pos rfl] at hcount
    exact ⟨by omega, fun _ ↦ ⟨rfl, by rw [hpc']; simp [Pc.phase?]⟩, hdrain (by simp)⟩
  · obtain ⟨hle, honce⟩ := h.process_of_eq hstep (by rw [hcount]; rfl)
    exact ⟨hle, honce, hdrain (by simp)⟩

/-- A thread that has returned does nothing. -/
theorem Step.eq_of_exited (hstep : Step S stop w input output w' input' output')
    (h : w.pc = .exited) : w' = w := by
  cases hstep with
  | rest => rfl
  | _ => simp_all

end Worker

end Accounting

end Mdp
