import Mathlib.Data.List.Basic
import Mathlib.Data.List.Induction

/-!
# Sequential transducers and filter stages

The meaning of a pipeline stage once scheduling is taken away: a **transducer** reads its input one
element at a time, keeps a state and emits finitely many elements per input. Its two readings of an
input list are the state it ends in (`state`) and everything it emitted (`outputs`).

A **filter stage** is the special case in which every element is either forwarded, possibly changed,
or dropped for a named reason. Its verdicts are kept as one list, from which the forwarded elements
and the reasons of the dropped ones are both read off; `length_forwardedOf_add_length_dropsOf` is
then the conservation law of the stage.

## Isolation

`Isolates` is the unwinding condition for two-run statements: a view of the state that elements
outside a selected class neither change nor reach with their output, and that determines what the
selected elements do. From it `Isolates.run_filter` says that the selected part of a run is the run
of the selected part, whatever the rest of the input was.
-/

/-- A sequential transducer with states `σ`, inputs `α` and outputs `β`. -/
structure Transducer (σ α β : Type*) where
  /-- The state after reading an element. -/
  next : σ → α → σ
  /-- What reading an element emits. -/
  emit : σ → α → List β

namespace Transducer

variable {σ α β ν : Type*} (T : Transducer σ α β)

/-- The state after an input list. -/
def state (s : σ) (xs : List α) : σ := xs.foldl T.next s

/-- Everything emitted along an input list. -/
def outputs : σ → List α → List β
  | _, [] => []
  | s, x :: xs => T.emit s x ++ outputs (T.next s x) xs

@[simp] theorem state_cons (s : σ) (x : α) (xs : List α) :
    T.state s (x :: xs) = T.state (T.next s x) xs := rfl

@[simp] theorem outputs_nil (s : σ) : T.outputs s [] = [] := rfl

@[simp] theorem outputs_cons (s : σ) (x : α) (xs : List α) :
    T.outputs s (x :: xs) = T.emit s x ++ T.outputs (T.next s x) xs := rfl

theorem state_append (s : σ) (xs ys : List α) :
    T.state s (xs ++ ys) = T.state (T.state s xs) ys :=
  List.foldl_append

theorem state_concat (s : σ) (xs : List α) (x : α) :
    T.state s (xs ++ [x]) = T.next (T.state s xs) x :=
  T.state_append s xs [x]

/-- **Outputs extend as the input does.** -/
theorem outputs_append (s : σ) (xs ys : List α) :
    T.outputs s (xs ++ ys) = T.outputs s xs ++ T.outputs (T.state s xs) ys := by
  induction xs generalizing s with
  | nil => rfl
  | cons x xs ih => rw [List.cons_append, outputs_cons, outputs_cons, ih, List.append_assoc]; rfl

theorem outputs_concat (s : σ) (xs : List α) (x : α) :
    T.outputs s (xs ++ [x]) = T.outputs s xs ++ T.emit (T.state s xs) x := by
  rw [outputs_append, outputs_cons, outputs_nil, List.append_nil]

theorem outputs_prefix (s : σ) {xs ys : List α} (h : xs <+: ys) :
    T.outputs s xs <+: T.outputs s ys := by
  obtain ⟨zs, rfl⟩ := h
  rw [outputs_append]
  exact List.prefix_append _ _

/-- **The state invariant rule**: a property every accepted element preserves survives an input of
accepted elements. -/
theorem state_invariant {P : σ → Prop} {A : α → Prop}
    (hnext : ∀ s x, A x → P s → P (T.next s x)) {s : σ} {xs : List α}
    (hxs : ∀ x ∈ xs, A x) (hs : P s) : P (T.state s xs) := by
  induction xs generalizing s with
  | nil => exact hs
  | cons x xs ih =>
    exact ih (fun y hy ↦ hxs y (List.mem_cons_of_mem _ hy))
      (hnext s x (hxs x List.mem_cons_self) hs)

/-- **The output rule**: what every accepted element emits under an invariant, a run emits. -/
theorem forall_mem_outputs {P : σ → Prop} {A : α → Prop} {Good : β → Prop}
    (hnext : ∀ s x, A x → P s → P (T.next s x))
    (hemit : ∀ s x, A x → P s → ∀ y ∈ T.emit s x, Good y) {s : σ} {xs : List α}
    (hxs : ∀ x ∈ xs, A x) (hs : P s) : ∀ y ∈ T.outputs s xs, Good y := by
  induction xs generalizing s with
  | nil => simp
  | cons x xs ih =>
    have hx := hxs x List.mem_cons_self
    intro y hy
    rcases List.mem_append.1 hy with hy | hy
    · exact hemit s x hx hs y hy
    · exact ih (fun z hz ↦ hxs z (List.mem_cons_of_mem _ hz)) (hnext s x hx hs) y hy

/-- **What every element of an input meets can be tested**, position by position. -/
theorem forall_state_iff {P : σ → α → Prop} {s : σ} {xs : List α} :
    (∀ seen x rest, xs = seen ++ x :: rest → P (T.state s seen) x) ↔
      ∀ i : Fin xs.length, P (T.state s (xs.take i)) (xs.get i) := by
  constructor
  · intro h i
    refine h _ _ (xs.drop (i + 1)) ?_
    rw [List.get_eq_getElem, List.getElem_cons_drop, List.take_append_drop]
  · rintro h seen x rest rfl
    have hlt : seen.length < (seen ++ x :: rest).length := by simp
    simpa using h ⟨seen.length, hlt⟩

/-- **An output was emitted somewhere along the input.** -/
theorem mem_outputs_iff {s : σ} {xs : List α} {y : β} :
    y ∈ T.outputs s xs ↔ ∃ seen x rest, xs = seen ++ x :: rest ∧ y ∈ T.emit (T.state s seen) x := by
  constructor
  · intro h
    induction xs using List.reverseRecOn with
    | nil => exact absurd h (by simp)
    | append_singleton xs x ih =>
      rw [outputs_concat, List.mem_append] at h
      rcases h with h | h
      · obtain ⟨seen, x', rest, rfl, hy⟩ := ih h
        exact ⟨seen, x', rest ++ [x], by simp, hy⟩
      · exact ⟨xs, x, [], rfl, h⟩
  · rintro ⟨seen, x, rest, rfl, hy⟩
    rw [outputs_append, outputs_cons]
    exact List.mem_append_right _ (List.mem_append_left _ hy)

/-- **Outputs stamped like their inputs** form a subsequence of them, when an element emits at most
one, stamped like itself. -/
theorem outputs_map_sublist {γ : Type*} {f : β → γ} {g : α → γ}
    (hemit : ∀ s x, ((T.emit s x).map f).Sublist [g x]) (s : σ) (xs : List α) :
    ((T.outputs s xs).map f).Sublist (xs.map g) := by
  induction xs generalizing s with
  | nil => exact List.Sublist.refl _
  | cons x xs ih =>
    rw [outputs_cons, List.map_append, List.map_cons, ← List.singleton_append]
    exact (hemit s x).append (ih _)

/-- **The rule for an input with parts left out**: a relation between two runs that an unselected
element keeps by moving the first alone, and a selected one by moving both, holds between the run
and the run on the selected elements. The first run up to each element is in hand. -/
theorem relates_filter {R : σ → σ → Prop} {sel : α → Bool} {s t : σ} {xs : List α} (hst : R s t)
    (hoff : ∀ seen x rest, xs = seen ++ x :: rest → sel x = false → ∀ t,
      R (T.state s seen) t → R (T.next (T.state s seen) x) t)
    (hon : ∀ seen x rest, xs = seen ++ x :: rest → sel x = true → ∀ t,
      R (T.state s seen) t → R (T.next (T.state s seen) x) (T.next t x)) :
    R (T.state s xs) (T.state t (xs.filter sel)) := by
  induction xs using List.reverseRecOn with
  | nil => exact hst
  | append_singleton xs x ih =>
    have hbefore := ih
      (fun seen y rest heq ↦ hoff seen y (rest ++ [x]) (by rw [heq, List.append_assoc]; rfl))
      (fun seen y rest heq ↦ hon seen y (rest ++ [x]) (by rw [heq, List.append_assoc]; rfl))
    rw [state_concat, List.filter_append]
    cases hsel : sel x with
    | false =>
      rw [List.filter_cons_of_neg (by simp [hsel]), List.filter_nil, List.append_nil]
      exact hoff xs x [] rfl hsel _ hbefore
    | true =>
      rw [List.filter_cons_of_pos hsel, List.filter_nil, state_concat]
      exact hon xs x [] rfl hsel _ hbefore

/-! ### Isolation -/

/-- The unwinding condition: on inputs satisfying `Ok`, elements outside `selIn` leave the view and
emit nothing in `selOut`; elements in `selIn` act on the view alone and emit only in `selOut`. -/
structure Isolates (Ok : α → Prop) (view : σ → ν) (selIn : α → Bool) (selOut : β → Bool) :
    Prop where
  /-- An unselected element does not move the view. -/
  view_off : ∀ s x, Ok x → selIn x = false → view (T.next s x) = view s
  /-- An unselected element emits nothing selected. -/
  emit_off : ∀ s x, Ok x → selIn x = false → ∀ y ∈ T.emit s x, selOut y = false
  /-- A selected element moves the view by the view alone. -/
  view_on : ∀ s t x, Ok x → selIn x = true → view s = view t →
    view (T.next s x) = view (T.next t x)
  /-- A selected element emits by the view alone. -/
  emit_on : ∀ s t x, Ok x → selIn x = true → view s = view t → T.emit s x = T.emit t x
  /-- A selected element emits only selected elements. -/
  emit_sel : ∀ s x, Ok x → selIn x = true → ∀ y ∈ T.emit s x, selOut y = true

variable {T} {Ok : α → Prop} {view : σ → ν} {selIn : α → Bool} {selOut : β → Bool}

/-- **The selected part of a run is the run of the selected part**: its view and its outputs. -/
theorem Isolates.run_filter (h : T.Isolates Ok view selIn selOut) {xs : List α}
    (hxs : ∀ x ∈ xs, Ok x) {s t : σ} (hst : view s = view t) :
    view (T.state s xs) = view (T.state t (xs.filter selIn)) ∧
      (T.outputs s xs).filter selOut = T.outputs t (xs.filter selIn) := by
  induction xs generalizing s t with
  | nil => exact ⟨hst, rfl⟩
  | cons x xs ih =>
    have hx := hxs x List.mem_cons_self
    have hrest : ∀ y ∈ xs, Ok y := fun y hy ↦ hxs y (List.mem_cons_of_mem _ hy)
    rw [state_cons, outputs_cons, List.filter_append]
    cases hsel : selIn x with
    | false =>
      -- the second run skips it, and the first shows nothing of it
      have hnone : (T.emit s x).filter selOut = [] :=
        List.filter_eq_nil_iff.2 fun y hy ↦ by simp [h.emit_off s x hx hsel y hy]
      rw [List.filter_cons_of_neg (by simp [hsel]), hnone, List.nil_append]
      exact ih hrest ((h.view_off s x hx hsel).trans hst)
    | true =>
      have hall : (T.emit s x).filter selOut = T.emit s x :=
        List.filter_eq_self.2 fun y hy ↦ h.emit_sel s x hx hsel y hy
      rw [List.filter_cons_of_pos hsel, state_cons, outputs_cons, hall,
        h.emit_on s t x hx hsel hst]
      obtain ⟨hview, hout⟩ := ih hrest (h.view_on s t x hx hsel hst)
      exact ⟨hview, by rw [hout]⟩

end Transducer

/-! ### Filter stages -/

/-- What a filter stage decides about an element. -/
inductive Verdict (β κ : Type*) where
  /-- Forward it, as this element. -/
  | forward (out : β)
  /-- Drop it, for this reason. -/
  | drop (why : κ)
  deriving DecidableEq

namespace Verdict

variable {β κ : Type*}

/-- The forwarded element, if there is one. -/
def forwarded : Verdict β κ → List β
  | forward out => [out]
  | drop _ => []

/-- The reason of the drop, if it is one. -/
def reason : Verdict β κ → List κ
  | forward _ => []
  | drop why => [why]

theorem length_forwarded_add_length_reason (v : Verdict β κ) :
    v.forwarded.length + v.reason.length = 1 := by
  cases v <;> rfl

end Verdict

/-- A stage that forwards or drops each element of its input. -/
structure FilterStage (σ α β κ : Type*) where
  /-- The state a fresh stage starts in. -/
  init : σ
  /-- Judge one element: the new state and the verdict. -/
  classify : σ → α → σ × Verdict β κ

namespace FilterStage

variable {σ α β κ : Type*} (S : FilterStage σ α β κ)

/-- The stage as a transducer of its forwarded elements. -/
def forwarding : Transducer σ α β where
  next s x := (S.classify s x).1
  emit s x := (S.classify s x).2.forwarded

/-- The stage as a transducer of its drop reasons. -/
def dropping : Transducer σ α κ where
  next s x := (S.classify s x).1
  emit s x := (S.classify s x).2.reason

/-- The state of a fresh stage after an input list. -/
def stateAfter (xs : List α) : σ := S.forwarding.state S.init xs

/-- What a fresh stage forwards of an input list. -/
def forwardedOf (xs : List α) : List β := S.forwarding.outputs S.init xs

/-- The drop reasons of a fresh stage along an input list. -/
def dropsOf (xs : List α) : List κ := S.dropping.outputs S.init xs

theorem stateAfter_concat (xs : List α) (x : α) :
    S.stateAfter (xs ++ [x]) = (S.classify (S.stateAfter xs) x).1 :=
  S.forwarding.state_concat S.init xs x

theorem forwardedOf_concat (xs : List α) (x : α) :
    S.forwardedOf (xs ++ [x]) =
      S.forwardedOf xs ++ (S.classify (S.stateAfter xs) x).2.forwarded :=
  S.forwarding.outputs_concat S.init xs x

theorem dropsOf_concat (xs : List α) (x : α) :
    S.dropsOf (xs ++ [x]) = S.dropsOf xs ++ (S.classify (S.stateAfter xs) x).2.reason :=
  S.dropping.outputs_concat S.init xs x

/-- **Conservation**: every element is forwarded or dropped, and none is both. -/
theorem length_forwardedOf_add_length_dropsOf (xs : List α) :
    (S.forwardedOf xs).length + (S.dropsOf xs).length = xs.length := by
  induction xs using List.reverseRecOn with
  | nil => rfl
  | append_singleton xs x ih =>
    rw [forwardedOf_concat, dropsOf_concat, List.length_append, List.length_append,
      List.length_append, List.length_singleton]
    have := (S.classify (S.stateAfter xs) x).2.length_forwarded_add_length_reason
    omega

/-- A stage that forwards as many elements as it reads drops none. -/
theorem count_dropsOf_eq_zero [DecidableEq κ] {xs : List α}
    (h : (S.forwardedOf xs).length = xs.length) (why : κ) : (S.dropsOf xs).count why = 0 := by
  have hlen := S.length_forwardedOf_add_length_dropsOf xs
  have hnil : S.dropsOf xs = [] := List.length_eq_zero_iff.1 (by omega)
  rw [hnil, List.count_nil]

end FilterStage
