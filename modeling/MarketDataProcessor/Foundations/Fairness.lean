import MarketDataProcessor.Foundations.StepRun

/-!
# Progress of several parties under a fair schedule

`Progress` bounds the own steps of one party. Here the work is shared: parties hand it on to each
other, a party with nothing to do spins, and only the schedule can see to it that whoever could move
does. The schedule is cut into **rounds**, stretches in which every party makes a step; between two
rounds nothing is assumed, nor about the order inside one.

`Helpful` is the interface. A `rank` that no action raises; parties that are `ready`, whose next
step lowers it; and two conditions on being ready: nobody else takes it away, and somebody is while
anything is left. Then the party that is ready when a round begins is still so when its turn comes,
every round takes something off (`Helpful.rank_lt_of_round`), and as many rounds as the rank says
finish the work (`Helpful.rank_eq_zero_of_rounds`).

## Why rounds

A bound in terms of single steps would be false: a party that has nothing to do may be scheduled for
ever. A bound in terms of rounds says what is needed of a scheduler and no more, and it is a number:
`Helpful.rank_eq_zero_of_rounds` wants as many rounds as the rank, not infinitely many.

The induction of `Helpful.rank_lt_of_round` is over the round, from the state at its beginning, with
the party that is ready there in hand. Until that party moves the rank can only fall, by somebody
else's work, in which case there is nothing left to show; when it moves it is still ready, and takes
one off itself.
-/

namespace StepRun

variable {σ α ι : Type*} {step : σ → α → Option σ}

/-- A stretch of an interleaving in which every party makes a step. -/
def IsRound (party : α → Option ι) (as : List α) : Prop := ∀ i, ∃ a ∈ as, party a = some i

/-- Work shared by the parties `ι`, on the states of an invariant. -/
structure Helpful (step : σ → α → Option σ) (I : σ → Prop) (allowed : α → Prop) (rank : σ → ℕ)
    (party : α → Option ι) (ready : σ → ι → Prop) : Prop where
  /-- Every allowed action keeps the invariant. -/
  inv : ∀ {s a t}, I s → allowed a → step s a = some t → I t
  /-- None puts work on. -/
  rank_le : ∀ {s a t}, I s → allowed a → step s a = some t → rank t ≤ rank s
  /-- A ready party takes work off. -/
  rank_lt : ∀ {s a t i}, I s → party a = some i → ready s i → step s a = some t → rank t < rank s
  /-- A party stays ready until its turn comes. -/
  stays_ready : ∀ {s a t i}, I s → allowed a → party a ≠ some i → ready s i → step s a = some t →
    ready t i
  /-- While work is left, a party is ready. -/
  exists_ready : ∀ {s}, I s → 0 < rank s → ∃ i, ready s i

namespace Helpful

variable {I : σ → Prop} {allowed : α → Prop} {rank : σ → ℕ} {party : α → Option ι}
  {ready : σ → ι → Prop} (h : Helpful step I allowed rank party ready)

include h

/-- No stretch of a run puts work on. -/
theorem rank_le_of_run {s t : σ} {as : List α} (hs : I s) (hallowed : ∀ a ∈ as, allowed a)
    (hrun : run step s as = some t) : I t ∧ rank t ≤ rank s :=
  run_invariant_of_mem (P := fun u ↦ I u ∧ rank u ≤ rank s)
    (fun a ha _ _ hu hstep ↦ ⟨h.inv hu.1 (hallowed a ha) hstep,
      Nat.le_trans (h.rank_le hu.1 (hallowed a ha) hstep) hu.2⟩) ⟨hs, Nat.le_refl _⟩ hrun

/-- A ready party that gets its turn takes work off. -/
theorem rank_lt_of_ready {s t : σ} {as : List α} {i : ι} (hs : I s)
    (hallowed : ∀ a ∈ as, allowed a) (hready : ready s i) (hturn : ∃ a ∈ as, party a = some i)
    (hrun : run step s as = some t) : rank t < rank s := by
  induction as generalizing s with
  | nil => exact absurd hturn (by simp)
  | cons a as ih =>
    obtain ⟨u, hstep, hrest⟩ := run_cons_eq_some_iff.1 hrun
    have ha := hallowed a List.mem_cons_self
    have hallowed' : ∀ b ∈ as, allowed b := fun b hb ↦ hallowed b (List.mem_cons_of_mem a hb)
    have hu := h.inv hs ha hstep
    by_cases hi : party a = some i
    · -- its turn; the rest of the stretch puts nothing on
      exact Nat.lt_of_le_of_lt (h.rank_le_of_run hu hallowed' hrest).2
        (h.rank_lt hs hi hready hstep)
    · have hturn' : ∃ b ∈ as, party b = some i := by
        obtain ⟨b, hb, hparty⟩ := hturn
        rcases List.mem_cons.1 hb with rfl | hb
        · exact absurd hparty hi
        · exact ⟨b, hb, hparty⟩
      have hlt := ih hu hallowed' (h.stays_ready hs ha hi hready hstep) hturn' hrest
      exact Nat.lt_of_lt_of_le hlt (h.rank_le hs ha hstep)

/-- **A round takes work off**, if any is left. -/
theorem rank_lt_of_round {s t : σ} {as : List α} (hs : I s) (hallowed : ∀ a ∈ as, allowed a)
    (hround : IsRound party as) (hpos : 0 < rank s) (hrun : run step s as = some t) :
    rank t < rank s := by
  obtain ⟨i, hready⟩ := h.exists_ready hs hpos
  exact h.rank_lt_of_ready hs hallowed hready (hround i) hrun

/-- **Enough rounds finish the work**, whatever happens inside of them. -/
theorem rank_eq_zero_of_rounds {s t : σ} {rounds : List (List α)} (hs : I s)
    (hallowed : ∀ as ∈ rounds, ∀ a ∈ as, allowed a) (hrounds : ∀ as ∈ rounds, IsRound party as)
    (hlen : rank s ≤ rounds.length) (hrun : run step s rounds.flatten = some t) : rank t = 0 := by
  induction rounds generalizing s with
  | nil =>
    obtain rfl := Option.some.inj hrun
    exact Nat.eq_zero_of_le_zero hlen
  | cons as rounds ih =>
    obtain ⟨u, hfirst, hrest⟩ := run_append_eq_some_iff.1 hrun
    have has := hallowed as List.mem_cons_self
    have hu := h.rank_le_of_run hs has hfirst
    refine ih hu.1 (fun bs hbs ↦ hallowed bs (List.mem_cons_of_mem as hbs))
      (fun bs hbs ↦ hrounds bs (List.mem_cons_of_mem as hbs)) ?_ hrest
    rw [List.length_cons] at hlen
    rcases Nat.eq_zero_or_pos (rank s) with hzero | hpos
    · exact Nat.le_trans hu.2 (hzero ▸ Nat.zero_le _)
    · have hlt := h.rank_lt_of_round hs has (hrounds as List.mem_cons_self) hpos hfirst
      omega

end Helpful

end StepRun
