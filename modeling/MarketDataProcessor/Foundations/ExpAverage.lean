import Mathlib.Algebra.BigOperators.Intervals
import Mathlib.Algebra.BigOperators.Ring.Finset
import Mathlib.Algebra.Order.Archimedean.Basic
import Mathlib.Algebra.Order.Field.Basic
import Mathlib.Data.List.GetD
import Mathlib.Data.List.Induction
import Mathlib.Tactic.Linarith
import Mathlib.Tactic.Ring

/-!
# Exponential averages

The average of a sequence that is kept as one number: each new term is blended in with a fixed
weight `a`. Over a field the average is a weighted sum of the terms with geometrically falling
weights (`average_eq_sum`); with a weight between zero and one it stays among the terms
(`exists_le_average`, `exists_average_le`), and it scales with them (`average_map_mul`).

A term that repeats pulls the average towards itself: the distance shrinks by the factor `1 - a` and
never changes its sign (`sub_blend`), so after `n` repetitions it has shrunk by `(1 - a) ^ n`
(`sub_average_replicate`) and in the end it is below every margin (`exists_forall_abs_sub_le`).

## From one blend to all of them

`sub_blend` is the whole dynamics: what is left of the distance between the average and the new term
is the factor `1 - a` of it. The closed form and the bounds are inductions over the terms from the
end (`average_concat`), so that the last weight is the fresh one; the powers of `1 - a` come in by
`sub_average_replicate`. The limit is the statement that some power is below the margin divided by
the first distance, which is where the field has to be archimedean.
-/

namespace ExpAverage

variable {K : Type*} [Field K] {a : K}

/-- The average after one more term. -/
def blend (a : K) (old term : K) : K := term * a + old * (1 - a)

/-- The average of a first term and the terms after it. -/
def average (a : K) (first : K) (terms : List K) : K := terms.foldl (blend a) first

@[simp] theorem average_nil (first : K) : average a first [] = first := rfl

theorem average_concat (first term : K) (terms : List K) :
    average a first (terms ++ [term]) = blend a (average a first terms) term :=
  List.foldl_append

/-- **The closed form.** -/
theorem average_eq_sum (first : K) (terms : List K) :
    average a first terms = (1 - a) ^ terms.length * first +
      ∑ i ∈ Finset.range terms.length,
        a * (1 - a) ^ (terms.length - (i + 1)) * terms.getD i 0 := by
  induction terms using List.reverseRecOn with
  | nil => simp
  | append_singleton terms term ih =>
    have hlast : (terms ++ [term]).getD terms.length 0 = term := by simp
    have hearlier : ∀ i ∈ Finset.range terms.length,
        a * (1 - a) ^ (terms.length + 1 - (i + 1)) * (terms ++ [term]).getD i 0 =
          (1 - a) * (a * (1 - a) ^ (terms.length - (i + 1)) * terms.getD i 0) := by
      intro i hi
      have hlt := Finset.mem_range.1 hi
      have hexp : terms.length + 1 - (i + 1) = terms.length - (i + 1) + 1 := by omega
      rw [hexp, pow_succ, List.getD_append _ _ _ _ hlt]
      ring
    rw [average_concat, blend, ih, List.length_append, List.length_singleton,
      Finset.sum_range_succ, Finset.sum_congr rfl hearlier, ← Finset.mul_sum, hlast, Nat.sub_self,
      pow_zero, pow_succ]
    ring

/-- **The average scales with its terms.** -/
theorem average_map_mul (c first : K) (terms : List K) :
    average a (c * first) (terms.map (c * ·)) = c * average a first terms := by
  induction terms using List.reverseRecOn with
  | nil => rfl
  | append_singleton terms term ih =>
    rw [List.map_append, List.map_singleton, average_concat, average_concat, ih, blend, blend]
    ring

/-- **A blended term pulls the average towards itself.** -/
theorem sub_blend (old term : K) : term - blend a old term = (1 - a) * (term - old) := by
  rw [blend]
  ring

/-- **A term that repeats is approached geometrically.** -/
theorem sub_average_replicate (first term : K) (n : ℕ) :
    term - average a first (List.replicate n term) = (1 - a) ^ n * (term - first) := by
  induction n with
  | zero => rw [List.replicate_zero, average_nil, pow_zero, one_mul]
  | succ n ih =>
    rw [List.replicate_succ', average_concat, sub_blend, ih, pow_succ]
    ring

variable [LinearOrder K] [IsStrictOrderedRing K]

/-- **The average is not below every term.** -/
theorem exists_le_average (h0 : 0 ≤ a) (h1 : a ≤ 1) (first : K) (terms : List K) :
    ∃ term ∈ first :: terms, term ≤ average a first terms := by
  induction terms using List.reverseRecOn with
  | nil => exact ⟨first, List.mem_cons_self, le_rfl⟩
  | append_singleton terms term ih =>
    obtain ⟨low, hlow, hle⟩ := ih
    rw [average_concat, blend]
    have hw : 0 ≤ 1 - a := by linarith
    rcases le_total term low with hterm | hterm
    · refine ⟨term, by simp, ?_⟩
      nlinarith [mul_le_mul_of_nonneg_right (hterm.trans hle) hw]
    · refine ⟨low, ?_, ?_⟩
      · exact List.mem_append_left [term] hlow
      · nlinarith [mul_le_mul_of_nonneg_right hle hw, mul_le_mul_of_nonneg_right hterm h0]

/-- **The average is not above every term.** -/
theorem exists_average_le (h0 : 0 ≤ a) (h1 : a ≤ 1) (first : K) (terms : List K) :
    ∃ term ∈ first :: terms, average a first terms ≤ term := by
  induction terms using List.reverseRecOn with
  | nil => exact ⟨first, List.mem_cons_self, le_rfl⟩
  | append_singleton terms term ih =>
    obtain ⟨high, hhigh, hle⟩ := ih
    rw [average_concat, blend]
    have hw : 0 ≤ 1 - a := by linarith
    rcases le_total high term with hterm | hterm
    · refine ⟨term, by simp, ?_⟩
      nlinarith [mul_le_mul_of_nonneg_right (hle.trans hterm) hw]
    · refine ⟨high, ?_, ?_⟩
      · exact List.mem_append_left [term] hhigh
      · nlinarith [mul_le_mul_of_nonneg_right hle hw, mul_le_mul_of_nonneg_right hterm h0]

/-- **It is approached in the end**, as closely as one likes, and stays so. -/
theorem exists_forall_abs_sub_le [Archimedean K] (h0 : 0 < a) (h1 : a ≤ 1) (first term : K)
    {margin : K} (hmargin : 0 < margin) :
    ∃ n, ∀ k, n ≤ k → |term - average a first (List.replicate k term)| ≤ margin := by
  have hw0 : 0 ≤ 1 - a := by linarith
  have hw1 : 1 - a < 1 := by linarith
  have hd : 0 < |term - first| + 1 := by positivity
  obtain ⟨n, hn⟩ := exists_pow_lt_of_lt_one (div_pos hmargin hd) hw1
  refine ⟨n, fun k hk ↦ ?_⟩
  have hpow : (1 - a) ^ k ≤ margin / (|term - first| + 1) :=
    (pow_le_pow_of_le_one hw0 hw1.le hk).trans hn.le
  rw [sub_average_replicate, abs_mul, abs_of_nonneg (pow_nonneg hw0 k)]
  calc (1 - a) ^ k * |term - first|
      ≤ margin / (|term - first| + 1) * (|term - first| + 1) :=
        mul_le_mul hpow (by linarith) (abs_nonneg _) (by positivity)
    _ = margin := div_mul_cancel₀ margin hd.ne'

end ExpAverage
