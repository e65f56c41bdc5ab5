import Mathlib.Data.List.Induction
import Mathlib.Data.Option.Basic

/-!
# Runs of a guarded step function

The scheduling substrate for every concurrent model of the development: a system is a partial step
function `step : σ → α → Option σ`, an interleaving is a list of actions, and a run threads the
state through the list. An action whose guard fails is `none`, so a run exists exactly when every
action of the interleaving was enabled where it was taken.

Nothing here knows what the actions are. The two facts the consumers cite are the splitting of a
run at any point (`run_append`) and the invariant rule (`run_invariant`): a property that every
enabled step preserves holds at the end of every run from a state that has it. Since a prefix of an
interleaving is an interleaving, "at the end of every run" is "in every reachable state". For a
property that some steps do break, `run_holds_iff` is the rule that names them, and
`throughout_iff_avoids` the one for a property that later steps can restore.

## The rules

* Safety: `run_invariant`, with the actions in hand as `run_invariant_of_mem`, with the run so far
  as `run_invariant_along`, and with an observer's log as `run_invariant_log`.
* Exactness: `run_holds_iff` and `throughout_iff_avoids` turn an invariant that some steps break
  into an equivalence between the property and the absence of such steps. The bad steps are
  described by the state they are taken in, so the right-hand side can be checked along the run.
* Two systems: `exists_run_of_simulates` is forward simulation with stuttering, and
  `run_filter_of_relates` the rule for a run and the same run with some actions left out.

Progress has modules of its own, `Progress` for one party and `Fairness` for several.
-/

namespace StepRun

variable {σ α : Type*} (step : σ → α → Option σ)

/-- Thread the state through an interleaving; `none` as soon as an action is not enabled. -/
def run : σ → List α → Option σ
  | s, [] => some s
  | s, a :: as => (step s a).bind fun t ↦ run t as

@[simp] theorem run_nil (s : σ) : run step s [] = some s := rfl

theorem run_cons (s : σ) (a : α) (as : List α) :
    run step s (a :: as) = (step s a).bind fun t ↦ run step t as := rfl

variable {step}

/-- The first action of a run is enabled, and the rest runs from where it leads. -/
theorem run_cons_eq_some_iff {s t : σ} {a : α} {as : List α} :
    run step s (a :: as) = some t ↔ ∃ u, step s a = some u ∧ run step u as = some t := by
  rw [run_cons, Option.bind_eq_some_iff]

/-- **Splitting a run.** -/
theorem run_append (s : σ) (as bs : List α) :
    run step s (as ++ bs) = (run step s as).bind fun t ↦ run step t bs := by
  induction as generalizing s with
  | nil => rfl
  | cons a as ih =>
    rw [List.cons_append, run_cons, run_cons, Option.bind_assoc]
    exact congrArg _ (funext fun t ↦ ih t)

theorem run_append_eq_some_iff {s t : σ} {as bs : List α} :
    run step s (as ++ bs) = some t ↔ ∃ u, run step s as = some u ∧ run step u bs = some t := by
  rw [run_append, Option.bind_eq_some_iff]

/-- One more step. -/
theorem run_concat {s t u : σ} {as : List α} {a : α} (h : run step s as = some t)
    (hlast : step t a = some u) : run step s (as ++ [a]) = some u :=
  run_append_eq_some_iff.2 ⟨t, h, run_cons_eq_some_iff.2 ⟨u, hlast, rfl⟩⟩

/-- What evaluating a run says about its last state. -/
theorem eq_of_run_map {γ : Type*} (f : σ → γ) {s t : σ} {as : List α} {c : γ}
    (h : run step s as = some t) (hmap : (run step s as).map f = some c) : f t = c := by
  rw [h, Option.map_some] at hmap
  exact Option.some.inj hmap

/-- **The invariant rule**, with the actions of the run in hand: a property every enabled step of
the interleaving preserves holds at its end. -/
theorem run_invariant_of_mem {P : σ → Prop} {as : List α}
    (hstep : ∀ a ∈ as, ∀ s t, P s → step s a = some t → P t) {s t : σ} (hs : P s)
    (h : run step s as = some t) : P t := by
  induction as generalizing s with
  | nil =>
    rw [run_nil, Option.some.injEq] at h
    exact h ▸ hs
  | cons a as ih =>
    obtain ⟨u, hu, hrun⟩ := run_cons_eq_some_iff.1 h
    exact ih (fun b hb ↦ hstep b (List.mem_cons_of_mem _ hb))
      (hstep a List.mem_cons_self s u hs hu) hrun

/-- **The invariant rule.** -/
theorem run_invariant {P : σ → Prop} (hstep : ∀ s a t, P s → step s a = some t → P t)
    {s t : σ} {as : List α} (hs : P s) (h : run step s as = some t) : P t :=
  run_invariant_of_mem (fun a _ s t ↦ hstep s a t) hs h

/-- **The invariant rule along a run**, with the run up to each step in hand. -/
theorem run_invariant_along {P : σ → Prop} {s t : σ} {as : List α}
    (hstep : ∀ seen a rest u v, as = seen ++ a :: rest → run step s seen = some u → P u →
      step u a = some v → P v)
    (hs : P s) (h : run step s as = some t) : P t := by
  induction as using List.reverseRecOn generalizing t with
  | nil =>
    rw [run_nil, Option.some.injEq] at h
    exact h ▸ hs
  | append_singleton as a ih =>
    obtain ⟨u, hu, hlast⟩ := run_append_eq_some_iff.1 h
    obtain ⟨v, hv, hnil⟩ := run_cons_eq_some_iff.1 hlast
    rw [run_nil, Option.some.injEq] at hnil
    subst hnil
    refine hstep as a [] u v rfl hu (ih (fun seen b rest w w' heq ↦ ?_) hu) hv
    exact hstep seen b (rest ++ [a]) w w' (by rw [heq, List.append_assoc]; rfl)

/-- **Forward simulation, with stuttering**: when every step is matched by some run of the other
system, possibly an empty one, so is every run. -/
theorem exists_run_of_simulates {τ β : Type*} {step' : τ → β → Option τ} {R : σ → τ → Prop}
    (hstep : ∀ s a t p, R s p → step s a = some t → ∃ bs q, run step' p bs = some q ∧ R t q)
    {s t : σ} {p : τ} {as : List α} (hs : R s p) (h : run step s as = some t) :
    ∃ bs q, run step' p bs = some q ∧ R t q := by
  refine run_invariant (P := fun u ↦ ∃ bs q, run step' p bs = some q ∧ R u q) ?_ ⟨[], p, rfl, hs⟩ h
  rintro u a v ⟨bs, q, hq, hu⟩ huv
  obtain ⟨bs', q', hq', hv⟩ := hstep u a v q hu huv
  exact ⟨bs ++ bs', q', run_append_eq_some_iff.2 ⟨q, hq, hq'⟩, hv⟩

/-- **The rule for an interleaving with parts left out**: a relation between two systems that an
unselected action keeps by moving the first alone, and a selected one by moving both, holds between
the end of a run and the end of a run on the selected actions. The run up to each action is in
hand. -/
theorem run_filter_of_relates {τ : Type*} {step' : τ → α → Option τ} {R : σ → τ → Prop}
    {sel : α → Bool} {s t : σ} {s' : τ} {as : List α} (hs : R s s')
    (hoff : ∀ seen a rest u v w, as = seen ++ a :: rest → run step s seen = some u →
      sel a = false → step u a = some v → R u w → R v w)
    (hon : ∀ seen a rest u v w, as = seen ++ a :: rest → run step s seen = some u →
      sel a = true → step u a = some v → R u w → ∃ x, step' w a = some x ∧ R v x)
    (h : run step s as = some t) : ∃ t', run step' s' (as.filter sel) = some t' ∧ R t t' := by
  induction as using List.reverseRecOn generalizing t with
  | nil =>
    obtain rfl := Option.some.inj h
    exact ⟨s', rfl, hs⟩
  | append_singleton as a ih =>
    obtain ⟨u, hu, hlast⟩ := run_append_eq_some_iff.1 h
    obtain ⟨v, hv, hnil⟩ := run_cons_eq_some_iff.1 hlast
    obtain rfl := Option.some.inj hnil
    obtain ⟨w, hw, huw⟩ := ih
      (fun seen b rest u v w heq ↦ hoff seen b (rest ++ [a]) u v w (by rw [heq]; simp))
      (fun seen b rest u v w heq ↦ hon seen b (rest ++ [a]) u v w (by rw [heq]; simp)) hu
    rw [List.filter_append]
    cases hsel : sel a with
    | false =>
      rw [List.filter_cons_of_neg (Bool.eq_false_iff.1 hsel), List.filter_nil, List.append_nil]
      exact ⟨w, hw, hoff as a [] u v w rfl hu hsel hv huw⟩
    | true =>
      obtain ⟨x, hx, hvx⟩ := hon as a [] u v w rfl hu hsel hv huw
      rw [List.filter_cons_of_pos hsel, List.filter_nil]
      refine ⟨x, run_append_eq_some_iff.2 ⟨w, hw, ?_⟩, hvx⟩
      exact run_cons_eq_some_iff.2 ⟨x, hx, rfl⟩

/-! ### Steps that break a property for good -/

/-- No step of the interleaving is bad where it is taken. -/
def Avoids (step : σ → α → Option σ) (Bad : σ → α → Prop) (s : σ) (as : List α) : Prop :=
  ∀ seen a rest u, as = seen ++ a :: rest → run step s seen = some u → ¬ Bad u a

theorem avoids_cons_iff {Bad : σ → α → Prop} {s u : σ} {a : α} {as : List α}
    (h : step s a = some u) : Avoids step Bad s (a :: as) ↔ ¬ Bad s a ∧ Avoids step Bad u as := by
  constructor
  · intro havoid
    refine ⟨havoid [] a as s rfl rfl, fun seen b rest v heq hv ↦ ?_⟩
    refine havoid (a :: seen) b rest v (by rw [heq]; rfl) ?_
    exact run_cons_eq_some_iff.2 ⟨u, h, hv⟩
  · rintro ⟨hnot, havoid⟩ seen b rest v heq hv
    cases seen with
    | nil =>
      obtain ⟨rfl, -⟩ := List.cons.inj heq
      obtain rfl := Option.some.inj hv
      exact hnot
    | cons c seen =>
      obtain ⟨rfl, htail⟩ := List.cons.inj heq
      obtain ⟨u', hu', hv⟩ := run_cons_eq_some_iff.1 hv
      obtain rfl : u = u' := Option.some.inj (h.symm.trans hu')
      exact havoid seen b rest v htail hv

/-- **The exact rule**: when the bad steps are those that break a property, and nothing restores it,
it holds at the end exactly of the runs without a bad step. -/
theorem run_holds_iff {I P : σ → Prop} {Bad : σ → α → Prop}
    (hstep : ∀ s a t, I s → step s a = some t → I t ∧ (P t ↔ P s ∧ ¬ Bad s a))
    {s t : σ} {as : List α} (hinv : I s) (hs : P s) (h : run step s as = some t) :
    P t ↔ Avoids step Bad s as := by
  suffices hall : P t ↔ P s ∧ Avoids step Bad s as from
    ⟨fun ht ↦ (hall.1 ht).2, fun havoid ↦ hall.2 ⟨hs, havoid⟩⟩
  clear hs
  induction as generalizing s with
  | nil =>
    rw [run_nil, Option.some.injEq] at h
    subst h
    exact ⟨fun ht ↦ ⟨ht, fun seen a rest _ heq ↦ by simp at heq⟩, fun ht ↦ ht.1⟩
  | cons a as ih =>
    obtain ⟨u, hu, hrun⟩ := run_cons_eq_some_iff.1 h
    obtain ⟨hinv', hiff⟩ := hstep s a u hinv hu
    rw [ih hinv' hrun, hiff, avoids_cons_iff hu, and_assoc]

/-! ### Steps that break a property, perhaps for a while -/

/-- The property holds in every state the interleaving goes through. -/
def Throughout (step : σ → α → Option σ) (P : σ → Prop) (s : σ) (as : List α) : Prop :=
  ∀ seen rest u, as = seen ++ rest → run step s seen = some u → P u

theorem throughout_cons_iff {P : σ → Prop} {s u : σ} {a : α} {as : List α}
    (h : step s a = some u) : Throughout step P s (a :: as) ↔ P s ∧ Throughout step P u as := by
  constructor
  · intro hall
    refine ⟨hall [] (a :: as) s rfl rfl, fun seen rest v heq hv ↦ ?_⟩
    refine hall (a :: seen) rest v (by rw [heq]; rfl) ?_
    exact run_cons_eq_some_iff.2 ⟨u, h, hv⟩
  · rintro ⟨hs, hall⟩ seen rest v heq hv
    cases seen with
    | nil =>
      obtain rfl := Option.some.inj hv
      exact hs
    | cons b seen =>
      obtain ⟨rfl, htail⟩ := List.cons.inj heq
      obtain ⟨u', hu', hv⟩ := run_cons_eq_some_iff.1 hv
      obtain rfl : u = u' := Option.some.inj (h.symm.trans hu')
      exact hall seen rest v htail hv

/-- **The exact rule for a property that may come back**: when an invariant gives the property, and
the bad steps break the property while the others keep the invariant, the property holds throughout
exactly the runs without a bad step. -/
theorem throughout_iff_avoids {I P : σ → Prop} {Bad : σ → α → Prop} (hprop : ∀ s, I s → P s)
    (hstep : ∀ s a t, I s → step s a = some t → (¬ Bad s a → I t) ∧ (Bad s a → ¬ P t))
    {s t : σ} {as : List α} (hs : I s) (h : run step s as = some t) :
    Throughout step P s as ↔ Avoids step Bad s as := by
  induction as generalizing s with
  | nil =>
    refine iff_of_true (fun seen rest u heq hu ↦ ?_) fun seen a rest u heq ↦ by simp at heq
    obtain ⟨rfl, -⟩ := List.append_eq_nil_iff.1 heq.symm
    obtain rfl := Option.some.inj hu
    exact hprop s hs
  | cons a as ih =>
    obtain ⟨u, hu, hrun⟩ := run_cons_eq_some_iff.1 h
    obtain ⟨hkeep, hbreak⟩ := hstep s a u hs hu
    rw [throughout_cons_iff hu, avoids_cons_iff hu]
    constructor
    · rintro ⟨-, hall⟩
      have hgood : ¬ Bad s a := fun hbad ↦ hbreak hbad (hall [] as u rfl rfl)
      exact ⟨hgood, (ih (hkeep hgood) hrun).1 hall⟩
    · rintro ⟨hgood, havoid⟩
      exact ⟨hprop s hs, (ih (hkeep hgood) hrun).2 havoid⟩

/-! ### What an observer records -/

section Log

variable {ω : Type*} (observe : σ → α → List ω)

/-- The observations made along an interleaving, in order. -/
def log (step : σ → α → Option σ) : σ → List α → List ω
  | _, [] => []
  | s, a :: as => observe s a ++ (step s a).elim [] fun t ↦ log step t as

variable {observe}

/-- What is recorded along an interleaving that reaches `t` comes before what is recorded from
there. -/
theorem log_append {s t : σ} {as : List α} (h : run step s as = some t) (bs : List α) :
    log observe step s (as ++ bs) = log observe step s as ++ log observe step t bs := by
  induction as generalizing s with
  | nil =>
    obtain rfl := Option.some.inj h
    rfl
  | cons a as ih =>
    obtain ⟨u, hu, hrun⟩ := run_cons_eq_some_iff.1 h
    rw [List.cons_append, log, log, hu, Option.elim_some, Option.elim_some, ih hrun,
      List.append_assoc]

/-- **The invariant rule with a log, for runs without a bad step.** -/
theorem run_invariant_log_of_avoids {P : σ → List ω → Prop} {Bad : σ → α → Prop}
    (hstep : ∀ s seen a t, P s seen → ¬ Bad s a → step s a = some t → P t (seen ++ observe s a))
    {s t : σ} {as : List α} (hs : P s []) (havoid : Avoids step Bad s as)
    (h : run step s as = some t) : P t (log observe step s as) := by
  suffices hall : ∀ seen, P s seen → P t (seen ++ log observe step s as) by
    simpa using hall [] hs
  clear hs
  induction as generalizing s with
  | nil =>
    intro seen hs
    obtain rfl := Option.some.inj h
    rwa [log, List.append_nil]
  | cons a as ih =>
    intro seen hs
    obtain ⟨u, hu, hrun⟩ := run_cons_eq_some_iff.1 h
    obtain ⟨hgood, hrest⟩ := (avoids_cons_iff hu).1 havoid
    rw [log, hu, Option.elim_some, ← List.append_assoc]
    exact ih hrest hrun _ (hstep s seen a u hs hgood hu)

/-- **The invariant rule with a log**: a property of the state and of what was recorded so far. -/
theorem run_invariant_log {P : σ → List ω → Prop}
    (hstep : ∀ s seen a t, P s seen → step s a = some t → P t (seen ++ observe s a))
    {s t : σ} {as : List α} (hs : P s []) (h : run step s as = some t) :
    P t (log observe step s as) := by
  have havoid : Avoids step (fun _ _ ↦ False) s as := fun _ _ _ _ _ _ hbad ↦ hbad
  exact run_invariant_log_of_avoids (fun s seen a t hP _ ↦ hstep s seen a t hP) hs havoid h

end Log

end StepRun
