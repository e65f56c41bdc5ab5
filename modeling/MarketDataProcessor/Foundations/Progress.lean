import MarketDataProcessor.Foundations.StepRun
import Mathlib.Algebra.BigOperators.Group.List.Basic
import Mathlib.Algebra.GroupWithZero.Nat

/-!
# Progress of one party in a run

A safety rule says what no interleaving can break. This module is the other half, for a run among
parties that owe each other nothing: how many steps of its own a party needs, whatever the others
do in between.

`Ranked` is the whole interface. A `rank` counts what the party still has to do; its `own` steps
take at least one off, every other action puts at most `gain` on, and a rank of zero is final. The
bound `Ranked.rank_add_made_le` is then an accounting identity along the run, with no assumption on
the order of the actions and none on fairness: it speaks of the own steps the interleaving does
contain. `Ranked.exists_run` adds the existence of a run to the end, when an own step is always
enabled.

Which steps are own may depend on the state, so that "the step the current phase waits for" is one
party too.

## From the rank to a bound

`rank_add_made_le` is the one induction. An own step moves one unit from the rank to the count, an
action of somebody else adds its gain to the rank and, at most, to the right hand side; only a party
that is done stops counting, which is why the account is stated as a disjunction. The bounds are
arithmetic on it.

`ranked_of_add_le` is the special case without gain in which every own step takes exactly the unit
it owes, so that a program that only counts down has to give one inequality for each action.
-/

namespace StepRun

variable {σ α : Type*} {step : σ → α → Option σ} {own : σ → α → Bool}

/-- The own steps made along an interleaving, in order. -/
def made (step : σ → α → Option σ) (own : σ → α → Bool) (s : σ) (as : List α) : List α :=
  log (fun s a ↦ if own s a then [a] else []) step s as

@[simp] theorem made_nil (s : σ) : made step own s [] = [] := rfl

theorem made_cons {s u : σ} {a : α} (h : step s a = some u) (as : List α) :
    made step own s (a :: as) = (if own s a then [a] else []) ++ made step own u as := by
  rw [made, log, h, Option.elim_some]
  rfl

theorem length_made_cons {s u : σ} {a : α} (h : step s a = some u) (as : List α) :
    (made step own s (a :: as)).length = (own s a).toNat + (made step own u as).length := by
  rw [made_cons h, List.length_append]
  cases own s a <;> rfl

/-- Where the own steps are told by the action alone, they are counted on the interleaving. -/
theorem length_made_eq_countP {p : α → Bool} {s t : σ} {as : List α}
    (h : run step s as = some t) : (made step (fun _ a ↦ p a) s as).length = as.countP p := by
  induction as generalizing s with
  | nil => rfl
  | cons a as ih =>
    obtain ⟨u, hu, hrun⟩ := run_cons_eq_some_iff.1 h
    rw [length_made_cons hu, ih hrun, List.countP_cons, Nat.add_comm]
    cases p a <;> rfl

/-- **A rank** for the own steps, on the states of an invariant. -/
structure Ranked (step : σ → α → Option σ) (I : σ → Prop) (rank : σ → ℕ) (own : σ → α → Bool)
    (gain : α → ℕ) : Prop where
  /-- Every action keeps the invariant. -/
  inv : ∀ {s a t}, I s → step s a = some t → I t
  /-- An own step takes something off, if anything is left. -/
  own_le : ∀ {s a t}, I s → own s a = true → step s a = some t → rank t ≤ rank s - 1
  /-- Any other action puts its gain on at most. -/
  other_le : ∀ {s a t}, I s → own s a = false → step s a = some t → rank t ≤ rank s + gain a
  /-- Nothing is put on once nothing is left. -/
  zero : ∀ {s a t}, I s → rank s = 0 → step s a = some t → rank t = 0

namespace Ranked

variable {I : σ → Prop} {rank : σ → ℕ} {gain : α → ℕ} (h : Ranked step I rank own gain)

include h

/-- The end is final. -/
theorem rank_eq_zero {s t : σ} {as : List α} (hs : I s) (hzero : rank s = 0)
    (hrun : run step s as = some t) : rank t = 0 :=
  (run_invariant (P := fun s ↦ I s ∧ rank s = 0)
    (fun _ _ _ hP hstep ↦ ⟨h.inv hP.1 hstep, h.zero hP.1 hP.2 hstep⟩) ⟨hs, hzero⟩ hrun).2

/-- **The account of a run**: unless the party is done, what is left and the own steps made come to
no more than what was left at the start and what the others put on. -/
theorem rank_add_made_le {s t : σ} {as : List α} (hs : I s) (hrun : run step s as = some t) :
    rank t = 0 ∨
      rank t + (made step own s as).length ≤ rank s + (as.map gain).sum := by
  induction as generalizing s with
  | nil =>
    obtain rfl := Option.some.inj hrun
    exact Or.inr (Nat.le_add_right _ _)
  | cons a as ih =>
    obtain ⟨u, hu, hrest⟩ := run_cons_eq_some_iff.1 hrun
    by_cases hzero : rank s = 0
    · exact Or.inl (h.rank_eq_zero hs hzero hrun)
    · refine (ih (h.inv hs hu) hrest).imp_right fun hle ↦ ?_
      rw [length_made_cons hu, List.map_cons, List.sum_cons]
      cases howner : own s a with
      | true =>
        have hdown := h.own_le hs howner hu
        rw [Bool.toNat_true]
        omega
      | false =>
        have hup := h.other_le hs howner hu
        rw [Bool.toNat_false]
        omega

/-- **Enough own steps finish the party**, in every interleaving. -/
theorem rank_eq_zero_of_le {s t : σ} {as : List α} (hs : I s) (hrun : run step s as = some t)
    (hle : rank s + (as.map gain).sum ≤ (made step own s as).length) : rank t = 0 := by
  rcases h.rank_add_made_le hs hrun with hzero | hacc
  · exact hzero
  · omega

/-- **Own steps are bounded** when they are made only while something is left and nobody puts
anything on. -/
theorem made_le {s t : σ} {as : List α} (hgain : ∀ a, gain a = 0)
    (hpos : ∀ {s a t}, I s → own s a = true → step s a = some t → 0 < rank s) (hs : I s)
    (hrun : run step s as = some t) : rank t + (made step own s as).length ≤ rank s := by
  induction as generalizing s with
  | nil =>
    obtain rfl := Option.some.inj hrun
    exact Nat.le_refl _
  | cons a as ih =>
    obtain ⟨u, hu, hrest⟩ := run_cons_eq_some_iff.1 hrun
    have hle := ih (h.inv hs hu) hrest
    rw [length_made_cons hu]
    cases howner : own s a with
    | true =>
      have hdown := h.own_le hs howner hu
      have hleft := hpos hs howner hu
      rw [Bool.toNat_true]
      omega
    | false =>
      have hup := h.other_le hs howner hu
      rw [hgain, Nat.add_zero] at hup
      rw [Bool.toNat_false]
      omega

/-- **There is a run to the end**, of own steps only, when one is enabled as long as something is
left. -/
theorem exists_run (henabled : ∀ {s}, I s → 0 < rank s → ∃ a t, own s a = true ∧ step s a = some t)
    {s : σ} (hs : I s) :
    ∃ as t, run step s as = some t ∧ rank t = 0 ∧ as.length ≤ rank s := by
  induction hn : rank s using Nat.strongRecOn generalizing s with
  | _ n ih =>
    by_cases hzero : rank s = 0
    · exact ⟨[], s, rfl, hzero, Nat.zero_le _⟩
    · obtain ⟨a, u, howner, hu⟩ := henabled hs (Nat.pos_of_ne_zero hzero)
      have hdown := h.own_le hs howner hu
      obtain ⟨as, t, hrun, hdone, hlen⟩ := ih (rank u) (by omega) (h.inv hs hu) rfl
      refine ⟨a :: as, t, run_cons_eq_some_iff.2 ⟨u, hu, hrun⟩, hdone, ?_⟩
      rw [List.length_cons]
      omega

end Ranked

section Countdown

variable {I : σ → Prop} {rank : σ → ℕ} (hinv : ∀ {s a t}, I s → step s a = some t → I t)
  (hle : ∀ {s a t}, I s → step s a = some t → rank t + (own s a).toNat ≤ rank s)

include hinv hle

/-- **A countdown is a rank**: own steps take one off, other steps put nothing on. -/
theorem ranked_of_add_le : Ranked step I rank own fun _ ↦ 0 where
  inv := hinv
  own_le hs hown hstep := by
    have hdown := hle hs hstep
    rw [hown, Bool.toNat_true] at hdown
    omega
  other_le hs hother hstep := by
    have hdown := hle hs hstep
    rwa [hother, Bool.toNat_false] at hdown
  zero hs hzero hstep := by
    have hdown := hle hs hstep
    omega

/-- A countdown bounds the own steps of a run. -/
theorem made_le_of_add_le {s t : σ} {as : List α} (hs : I s) (hrun : run step s as = some t) :
    rank t + (made step own s as).length ≤ rank s := by
  refine (ranked_of_add_le hinv hle).made_le (fun _ ↦ rfl) (fun hs hown hstep ↦ ?_) hs hrun
  have hdown := hle hs hstep
  rw [hown, Bool.toNat_true] at hdown
  omega

end Countdown

end StepRun
