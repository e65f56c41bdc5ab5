import Mathlib.Data.List.Chain
import Mathlib.Data.List.Induction

/-!
# Reading a sequence back

What a component that reads a sequence element by element has kept of it, said without the
component. `lastBy` is the last element with a given property, the meaning of a map entry that is
overwritten. `filterAlong` keeps an element by what came before it, the meaning of a filter with
memory; its criterion sees the elements read so far, whether they were kept or not.

Each has one law for a further element (`lastBy_concat_of_pos` and its negation,
`filterAlong_concat`), which is all that an induction along the sequence needs.
`length_filterAlong_eq_iff` and `isChain_filter_filterAlong` are such inductions: nothing is left
out exactly when every element passes where it stands, and a criterion that compares every element
with the last one kept of its class orders each class; `pairwise_filter_iff` turns that order into
one of the whole sequence.

## Two views of an order

`isChain_filter_filterAlong` speaks of neighbours among the kept elements of one class, since a
criterion compares an element with the last one kept. For a transitive relation a chain is an order
of any two, and `pairwise_filter_iff` says that ordering every class is ordering the pairs of one
class in the whole sequence, which is the form in which a consumer states it.

`filterAlong_eq_self_of_prefix` and `forall_split_concat_iff` carry statements about every element
of a sequence to its beginnings and to one element more.
-/

namespace History

variable {α : Type*}

/-! ### The last element with a property -/

/-- The last element with the property. -/
def lastBy (p : α → Bool) (l : List α) : Option α := (l.filter p).getLast?

@[simp] theorem lastBy_nil (p : α → Bool) : lastBy p [] = none := rfl

theorem lastBy_concat_of_pos {p : α → Bool} {a : α} (h : p a = true) (l : List α) :
    lastBy p (l ++ [a]) = some a := by
  rw [lastBy, List.filter_append, List.filter_cons_of_pos h, List.filter_nil,
    List.getLast?_concat]

theorem lastBy_concat_of_neg {p : α → Bool} {a : α} (h : ¬ p a = true) (l : List α) :
    lastBy p (l ++ [a]) = lastBy p l := by
  rw [lastBy, List.filter_append, List.filter_cons_of_neg h, List.filter_nil, List.append_nil]
  rfl

theorem lastBy_eq_none_iff {p : α → Bool} {l : List α} :
    lastBy p l = none ↔ ∀ a ∈ l, ¬ p a = true := by
  rw [lastBy, List.getLast?_eq_none_iff, List.filter_eq_nil_iff]

theorem lastBy_append (p : α → Bool) (l l' : List α) :
    lastBy p (l ++ l') = (lastBy p l').or (lastBy p l) := by
  rw [lastBy, List.filter_append, List.getLast?_append, lastBy, lastBy]

theorem lastBy_replicate (p : α → Bool) (n : ℕ) (a : α) :
    lastBy p (List.replicate n a) = if p a = true ∧ n ≠ 0 then some a else none := by
  rw [lastBy, List.filter_replicate]
  by_cases hp : p a = true
  · rw [if_pos hp, List.getLast?_replicate]
    by_cases hn : n = 0
    · rw [if_pos hn, if_neg fun h ↦ h.2 hn]
    · rw [if_neg hn, if_pos ⟨hp, hn⟩]
  · rw [if_neg hp, if_neg fun h ↦ hp h.1, List.getLast?_nil]

theorem lastBy_map {β : Type*} (f : β → α) (p : α → Bool) (l : List β) :
    lastBy p (l.map f) = (lastBy (p ∘ f) l).map f := by
  rw [lastBy, lastBy, List.filter_map, List.getLast?_map]

/-- The last of the elements with a property, when there is one such element. -/
theorem lastBy_eq_some_of_unique {p : α → Bool} {l : List α} {a : α} (ha : a ∈ l)
    (hp : p a = true) (hunique : ∀ b ∈ l, p b = true → b = a) : lastBy p l = some a := by
  cases hlast : lastBy p l with
  | none => exact absurd hp (lastBy_eq_none_iff.1 hlast a ha)
  | some b =>
    have hmem := List.mem_filter.1 (List.mem_of_getLast? hlast)
    rw [hunique b hmem.1 hmem.2]

/-- An entry of a sequence that grew by one element is an earlier one or the new one. -/
theorem getElem?_concat_cases {l : List α} {a b : α} {k : ℕ} (h : (l ++ [a])[k]? = some b) :
    l[k]? = some b ∨ k = l.length ∧ a = b := by
  rw [List.getElem?_append] at h
  split_ifs at h with hlt
  · exact Or.inl h
  · rw [List.getElem?_singleton] at h
    split_ifs at h with hzero
    exact Or.inr ⟨by omega, Option.some.inj h⟩

/-! ### A filter with memory -/

/-- Keep the elements that pass a criterion on what was read before them, `seen` included. -/
def filterAlongFrom (keep : List α → α → Bool) : List α → List α → List α
  | _, [] => []
  | seen, a :: l =>
    (if keep seen a then [a] else []) ++ filterAlongFrom keep (seen ++ [a]) l

/-- Keep the elements that pass a criterion on what was read before them. -/
def filterAlong (keep : List α → α → Bool) (l : List α) : List α := filterAlongFrom keep [] l

@[simp] theorem filterAlong_nil (keep : List α → α → Bool) : filterAlong keep [] = [] := rfl

private theorem filterAlongFrom_concat (keep : List α → α → Bool) (seen l : List α) (a : α) :
    filterAlongFrom keep seen (l ++ [a]) =
      filterAlongFrom keep seen l ++ if keep (seen ++ l) a then [a] else [] := by
  induction l generalizing seen with
  | nil => simp [filterAlongFrom]
  | cons b l ih =>
    rw [List.cons_append, filterAlongFrom, ih, filterAlongFrom, List.append_assoc seen,
      List.singleton_append, List.append_assoc]

/-- **The criterion is asked about the elements so far.** -/
theorem filterAlong_concat (keep : List α → α → Bool) (l : List α) (a : α) :
    filterAlong keep (l ++ [a]) = filterAlong keep l ++ if keep l a then [a] else [] :=
  filterAlongFrom_concat keep [] l a

theorem filterAlong_sublist (keep : List α → α → Bool) (l : List α) :
    (filterAlong keep l).Sublist l := by
  induction l using List.reverseRecOn with
  | nil => exact List.Sublist.refl _
  | append_singleton l a ih =>
    rw [filterAlong_concat]
    refine ih.append ?_
    split_ifs
    · exact List.Sublist.refl _
    · exact List.nil_sublist _

/-- What holds at every element of a longer list holds at those before, and at the new one. -/
theorem forall_split_concat_iff {Q : List α → α → Prop} (l : List α) (a : α) :
    (∀ seen b rest, l ++ [a] = seen ++ b :: rest → Q seen b) ↔
      (∀ seen b rest, l = seen ++ b :: rest → Q seen b) ∧ Q l a := by
  constructor
  · intro h
    refine ⟨fun seen b rest heq ↦ h seen b (rest ++ [a]) ?_, h l a [] rfl⟩
    rw [heq, List.append_assoc]
    rfl
  · rintro ⟨hbefore, hlast⟩ seen b rest heq
    rcases List.eq_nil_or_concat rest with rfl | ⟨rest, c, rfl⟩
    · obtain ⟨rfl, hsingle⟩ := List.append_inj' heq rfl
      obtain rfl : a = b := (List.cons.inj hsingle).1
      exact hlast
    · rw [List.concat_eq_append, ← List.cons_append, ← List.append_assoc] at heq
      exact hbefore seen b rest (List.append_inj' heq rfl).1

/-- **Nothing is left out exactly when every element passes where it stands.** -/
theorem length_filterAlong_eq_iff (keep : List α → α → Bool) (l : List α) :
    (filterAlong keep l).length = l.length ↔
      ∀ seen a rest, l = seen ++ a :: rest → keep seen a = true := by
  induction l using List.reverseRecOn with
  | nil => exact iff_of_true rfl fun seen a rest heq ↦ by simp at heq
  | append_singleton l a ih =>
    have hle := (filterAlong_sublist keep l).length_le
    rw [forall_split_concat_iff, ← ih, filterAlong_concat, List.length_append, List.length_append,
      List.length_singleton]
    cases keep l a with
    | true => simp
    | false =>
      simp only [Bool.false_eq_true, if_false, List.length_nil, and_false, iff_false]
      omega

/-- What passes through unchanged does so from the beginning. -/
theorem filterAlong_eq_self_of_prefix {keep : List α → α → Bool} {l l' : List α}
    (h : filterAlong keep l' = l') (hpart : l <+: l') : filterAlong keep l = l := by
  obtain ⟨rest, rfl⟩ := hpart
  have hall := (length_filterAlong_eq_iff keep (l ++ rest)).1 (congrArg List.length h)
  refine (filterAlong_sublist keep l).eq_of_length ((length_filterAlong_eq_iff keep l).2 ?_)
  rintro seen a after rfl
  exact hall seen a (after ++ rest) (by rw [List.append_assoc, List.cons_append])

/-- **A criterion that looks at the last kept element of a class orders the class.** -/
theorem isChain_filter_filterAlong {keep : List α → α → Bool} {p : α → Bool} {R : α → α → Prop}
    (hkeep : ∀ seen a, keep seen a = true → p a = true →
      ∀ last ∈ lastBy p (filterAlong keep seen), R last a) (l : List α) :
    ((filterAlong keep l).filter p).IsChain R := by
  induction l using List.reverseRecOn with
  | nil => exact List.IsChain.nil
  | append_singleton l a ih =>
    rw [filterAlong_concat]
    split_ifs with hk
    · rw [List.filter_append, List.isChain_append]
      by_cases hp : p a = true
      · rw [List.filter_cons_of_pos hp, List.filter_nil]
        refine ⟨ih, List.IsChain.singleton a, fun last hlast b hb ↦ ?_⟩
        rw [List.head?_cons, Option.mem_some_iff] at hb
        exact hb ▸ hkeep l a hk hp last hlast
      · rw [List.filter_cons_of_neg hp, List.filter_nil]
        exact ⟨ih, List.IsChain.nil, fun _ _ b hb ↦ by simp at hb⟩
    · rwa [List.append_nil]

/-! ### Order within classes -/

/-- **Each class is ordered exactly when any two elements of one class are.** -/
theorem pairwise_filter_iff {κ : Type*} [DecidableEq κ] (f : α → κ) {R : α → α → Prop}
    {l : List α} :
    (∀ k, (l.filter fun a ↦ decide (f a = k)).Pairwise R) ↔
      l.Pairwise fun a b ↦ f a = f b → R a b := by
  constructor
  · intro h
    refine List.pairwise_iff_forall_sublist.2 fun {a b} hsub heq ↦ ?_
    refine List.pairwise_iff_forall_sublist.1 (List.pairwise_filter.1 (h (f b))) hsub ?_ ?_
    · exact decide_eq_true heq
    · exact decide_eq_true rfl
  · intro h k
    refine List.pairwise_filter.2 (h.imp fun hab ha hb ↦ hab ?_)
    exact (of_decide_eq_true ha).trans (of_decide_eq_true hb).symm

end History
