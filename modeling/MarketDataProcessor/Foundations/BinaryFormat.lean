import Mathlib.Data.Int.Log
import Mathlib.Data.Rat.Floor
import Mathlib.Algebra.Order.Field.Rat
import Mathlib.Algebra.Order.Round
import Mathlib.Tactic.Linarith
import Mathlib.Tactic.Positivity

/-!
# Binary floating-point formats

A format is a number of digits and a least exponent; its numbers are the multiples of a unit that
grows with the magnitude, `unitExp` being the exponent of that unit. `round` is rounding to nearest,
ties to even, with gradual underflow and no upper bound on the exponents: whoever uses a format puts
the overflow on top.

Everything here goes through one observation, `le_round` and `round_le`: a multiple of a power of
two that is no finer than the unit is on the grid, and rounding does not cross the grid.

## How the laws follow

`round_eq_self` is both halves of the observation at once: a number of the grid is between itself
and itself. `round_mono` compares the units of the two numbers: if they are the same it is
monotonicity of `roundEven`, and if the larger number has a coarser unit there is a power of two
between them, which is on either grid. `round_round` needs that a rounded number has a unit no finer
than the number it came from, the case of rounding up to the next power of two included.

`round_two_mul` and `round_pos` are about the two ends of the exponents: doubling never leaves the
format when there is no upper bound, and at the lower bound more than half a unit rounds up.
-/

/-- The nearest integer, the even one of two. -/
def roundEven (x : ℚ) : ℤ :=
  if Int.fract x < 1 / 2 ∨ Int.fract x = 1 / 2 ∧ Even ⌊x⌋ then ⌊x⌋ else ⌊x⌋ + 1

theorem floor_le_roundEven (x : ℚ) : ⌊x⌋ ≤ roundEven x := by
  unfold roundEven
  split_ifs <;> omega

theorem roundEven_le_floor_add_one (x : ℚ) : roundEven x ≤ ⌊x⌋ + 1 := by
  unfold roundEven
  split_ifs <;> omega

theorem roundEven_mono {x y : ℚ} (h : x ≤ y) : roundEven x ≤ roundEven y := by
  rcases (Int.floor_le_floor h).eq_or_lt with hfloor | hfloor
  · -- in one cell the fractional parts decide
    have hfract : Int.fract x ≤ Int.fract y := by
      rw [Int.fract, Int.fract, hfloor]
      linarith
    unfold roundEven
    rw [hfloor]
    split_ifs with hx hy hy
    · exact le_rfl
    · omega
    · refine absurd ?_ hx
      rcases hy with hy | ⟨hy, heven⟩
      · exact Or.inl (hfract.trans_lt hy)
      · rcases (hfract.trans_eq hy).eq_or_lt with hx | hx
        · exact Or.inr ⟨hx, heven⟩
        · exact Or.inl hx
    · exact le_rfl
  · exact (roundEven_le_floor_add_one x).trans (le_trans hfloor (floor_le_roundEven y))

theorem roundEven_intCast (n : ℤ) : roundEven n = n := by
  rw [roundEven, Int.fract_intCast, Int.floor_intCast, if_pos (Or.inl (by norm_num))]

/-- More than one half rounds up. -/
theorem roundEven_pos {x : ℚ} (h : 1 / 2 < x) : 0 < roundEven x := by
  by_cases hone : 1 ≤ x
  · have := (Int.le_floor (z := 1)).2 (by exact_mod_cast hone)
    exact lt_of_lt_of_le (by omega) (floor_le_roundEven x)
  · have hfloor : ⌊x⌋ = 0 := Int.floor_eq_zero_iff.2 ⟨by linarith, not_le.1 hone⟩
    have hfract : Int.fract x = x := by rw [Int.fract, hfloor, Int.cast_zero, sub_zero]
    rw [roundEven, hfract, hfloor, if_neg]
    · exact Int.zero_lt_one
    · rintro (hlt | ⟨heq, -⟩)
      · exact absurd hlt (not_lt.2 h.le)
      · exact absurd heq h.ne'

/-- A format, without a bound on its exponents. -/
structure BinaryFormat where
  /-- Digits after the leading one. -/
  digits : ℕ
  /-- The exponent of the least positive number. -/
  minExp : ℤ

namespace BinaryFormat

variable (F : BinaryFormat)

/-- The exponent of the unit at a number's magnitude. -/
def unitExp (q : ℚ) : ℤ := max (Int.log 2 |q| - F.digits) F.minExp

/-- To nearest, ties to even. -/
def round (q : ℚ) : ℚ := roundEven (q / 2 ^ F.unitExp q) * 2 ^ F.unitExp q

variable {F} {p q r : ℚ} {m e : ℤ}

theorem exists_round_eq : ∃ m : ℤ, F.round q = m * 2 ^ F.unitExp q := ⟨_, rfl⟩

/-! ### The grid -/

/-- A multiple of a coarser power of two is a multiple of the unit. -/
theorem exists_grid (h : F.unitExp q ≤ e) (m : ℤ) :
    ∃ n : ℤ, (m * 2 ^ e : ℚ) = n * 2 ^ F.unitExp q := by
  obtain ⟨k, hk⟩ := Int.le.dest h
  refine ⟨m * 2 ^ k, ?_⟩
  rw [← hk, zpow_add₀ two_ne_zero, zpow_natCast]
  push_cast
  ring

/-- **Rounding does not cross the grid**, from above. -/
theorem le_round (h : F.unitExp q ≤ e) (hle : (m * 2 ^ e : ℚ) ≤ q) : m * 2 ^ e ≤ F.round q := by
  obtain ⟨n, hn⟩ := exists_grid h m
  have hunit : (0 : ℚ) < 2 ^ F.unitExp q := zpow_pos two_pos _
  rw [hn] at hle ⊢
  refine mul_le_mul_of_nonneg_right ?_ hunit.le
  have := roundEven_mono ((le_div_iff₀ hunit).2 hle)
  rw [roundEven_intCast] at this
  exact_mod_cast this

/-- **Rounding does not cross the grid**, from below. -/
theorem round_le (h : F.unitExp q ≤ e) (hle : q ≤ (m * 2 ^ e : ℚ)) : F.round q ≤ m * 2 ^ e := by
  obtain ⟨n, hn⟩ := exists_grid h m
  have hunit : (0 : ℚ) < 2 ^ F.unitExp q := zpow_pos two_pos _
  rw [hn] at hle ⊢
  refine mul_le_mul_of_nonneg_right ?_ hunit.le
  have := roundEven_mono ((div_le_iff₀ hunit).2 hle)
  rw [roundEven_intCast] at this
  exact_mod_cast this

/-- **Numbers of the format are exact.** -/
theorem round_eq_self (h : F.unitExp (m * 2 ^ e) ≤ e) : F.round (m * 2 ^ e) = m * 2 ^ e :=
  le_antisymm (round_le h le_rfl) (le_round h le_rfl)

theorem round_zero : F.round 0 = 0 := by
  rw [round, zero_div, ← Int.cast_zero, roundEven_intCast, Int.cast_zero, zero_mul]

theorem round_nonneg (h : 0 ≤ q) : 0 ≤ F.round q := by
  have hgrid := le_round (F := F) (q := q) (m := 0) le_rfl
  rw [Int.cast_zero, zero_mul] at hgrid
  exact hgrid h

/-! ### Magnitudes -/

theorem unitExp_of_pos (h : 0 < q) : F.unitExp q = max (Int.log 2 q - F.digits) F.minExp := by
  rw [unitExp, abs_of_pos h]

theorem unitExp_mono (hp : 0 < p) (h : p ≤ q) : F.unitExp p ≤ F.unitExp q := by
  rw [unitExp_of_pos hp, unitExp_of_pos (hp.trans_le h)]
  have := Int.log_mono_right (b := 2) hp h
  omega

/-- A number below a power of two has a unit that is as many digits finer. -/
theorem unitExp_le_of_lt (hq : 0 < q) (h : q < 2 ^ e) :
    F.unitExp q ≤ max (e - 1 - F.digits) F.minExp := by
  have hlog := (Int.lt_zpow_iff_log_lt (b := 2) (by norm_num) hq).1 (by exact_mod_cast h)
  rw [unitExp_of_pos hq]
  omega

/-- **Rounding is monotone.** -/
theorem round_mono (hp : 0 ≤ p) (h : p ≤ q) : F.round p ≤ F.round q := by
  rcases hp.eq_or_lt with rfl | hp
  · rw [round_zero]
    exact round_nonneg h
  have hq : 0 < q := hp.trans_le h
  rcases (unitExp_mono (F := F) hp h).eq_or_lt with hunit | hunit
  · have hpos : (0 : ℚ) < 2 ^ F.unitExp q := zpow_pos two_pos _
    rw [round, round, hunit]
    refine mul_le_mul_of_nonneg_right ?_ hpos.le
    exact_mod_cast roundEven_mono (div_le_div_of_nonneg_right h hpos.le)
  · -- the power of two at the foot of the larger one's binade is between them
    have hlogp := Int.lt_zpow_succ_log_self (b := 2) (by norm_num) p
    have hlogq := Int.zpow_log_le_self (b := 2) (by norm_num) hq
    have hexp : F.unitExp q = Int.log 2 q - F.digits ∧ Int.log 2 p + 1 ≤ Int.log 2 q := by
      rw [unitExp_of_pos hp, unitExp_of_pos hq] at hunit
      rw [unitExp_of_pos hq]
      omega
    have hfoot : p ≤ ((1 : ℤ) : ℚ) * 2 ^ Int.log 2 q := by
      rw [Int.cast_one, one_mul]
      exact hlogp.le.trans (zpow_le_zpow_right₀ (by norm_num) hexp.2)
    refine (round_le (by omega) hfoot).trans (le_round (by omega) ?_)
    rw [Int.cast_one, one_mul]
    exact_mod_cast hlogq

/-! ### Numbers of the format -/

/-- **Rounding twice is rounding once.** -/
theorem round_round (hq : 0 ≤ q) : F.round (F.round q) = F.round q := by
  rcases (round_nonneg (F := F) hq).eq_or_lt with hzero | hpos
  · rw [← hzero, round_zero]
  have hq : 0 < q := by
    refine hq.lt_of_ne fun h ↦ ?_
    rw [← h, round_zero] at hpos
    exact absurd hpos (lt_irrefl 0)
  -- the result is at most the power of two at the head of the binade
  have hhead : F.round q ≤ ((1 : ℤ) : ℚ) * 2 ^ (F.unitExp q + F.digits + 1) := by
    refine round_le (by omega) ?_
    have hlog := Int.lt_zpow_succ_log_self (b := 2) (by norm_num) q
    rw [Int.cast_one, one_mul]
    refine (le_of_lt (by exact_mod_cast hlog)).trans (zpow_le_zpow_right₀ (by norm_num) ?_)
    rw [unitExp_of_pos hq]
    omega
  rcases hhead.eq_or_lt with heq | hlt
  · rw [heq]
    refine round_eq_self ?_
    rw [Int.cast_one, one_mul]
    refine (unitExp_le_of_lt (e := F.unitExp q + F.digits + 1 + 1) (zpow_pos two_pos _)
      (zpow_lt_zpow_right₀ (by norm_num) (by omega))).trans ?_
    have := le_max_right (Int.log 2 q - F.digits) F.minExp
    rw [unitExp_of_pos hq]
    omega
  · obtain ⟨m, hm⟩ := exists_round_eq (F := F) (q := q)
    rw [Int.cast_one, one_mul] at hlt
    have hunit : F.unitExp (F.round q) ≤ F.unitExp q := by
      refine (unitExp_le_of_lt hpos hlt).trans ?_
      have := le_max_right (Int.log 2 q - F.digits) F.minExp
      rw [unitExp_of_pos hq]
      omega
    rw [hm] at hunit ⊢
    exact round_eq_self hunit

/-- **Twice a number of the format is one.** -/
theorem round_two_mul (hr : 0 < r) (h : F.round r = r) : F.round (2 * r) = 2 * r := by
  obtain ⟨m, hm⟩ := exists_round_eq (F := F) (q := r)
  have hdouble : 2 * r = m * 2 ^ (F.unitExp r + 1) :=
    calc 2 * r = 2 * (m * 2 ^ F.unitExp r) := by rw [← hm, h]
      _ = m * (2 ^ F.unitExp r * 2) := by ring
      _ = m * 2 ^ (F.unitExp r + 1) := by rw [zpow_add_one₀ two_ne_zero]
  rw [hdouble]
  refine round_eq_self ?_
  rw [← hdouble]
  have hlog := Int.lt_zpow_succ_log_self (b := 2) (by norm_num) r
  refine (unitExp_le_of_lt (e := Int.log 2 r + 1 + 1) (by positivity) ?_).trans ?_
  · rw [zpow_add_one₀ two_ne_zero]
    push_cast at hlog
    linarith
  · rw [unitExp_of_pos hr]
    omega

/-- **Gradual underflow**: what is more than half a number of the format does not vanish. -/
theorem round_pos (hr : 0 < r) (h : F.round r = r) (hq : r / 2 < q) : 0 < F.round q := by
  have hqpos : 0 < q := lt_trans (by positivity) hq
  have hunit : (0 : ℚ) < 2 ^ F.unitExp q := zpow_pos two_pos _
  refine mul_pos ?_ hunit
  have hhalf : 1 / 2 < q / 2 ^ F.unitExp q := by
    rw [lt_div_iff₀ hunit]
    rcases max_choice (Int.log 2 q - F.digits) F.minExp with hexp | hexp
    · -- a number with all its digits
      rw [unitExp_of_pos hqpos, hexp]
      have hlog := Int.zpow_log_le_self (b := 2) (by norm_num) hqpos
      have hle : (2 : ℚ) ^ (Int.log 2 q - F.digits) ≤ 2 ^ Int.log 2 q :=
        zpow_le_zpow_right₀ (by norm_num) (by omega)
      have hpos : (0 : ℚ) < 2 ^ Int.log 2 q := zpow_pos two_pos _
      push_cast at hlog
      linarith
    · -- at the bottom of the range, where the unit is the least number
      rw [unitExp_of_pos hqpos, hexp]
      obtain ⟨m, hm⟩ := exists_round_eq (F := F) (q := r)
      rw [h] at hm
      have hrunit : (0 : ℚ) < 2 ^ F.unitExp r := zpow_pos two_pos _
      have hmpos : (0 : ℚ) < m := pos_of_mul_pos_left (hm ▸ hr) hrunit.le
      have hone : (1 : ℚ) ≤ m := by exact_mod_cast (Int.cast_pos.1 hmpos)
      have hmin : (2 : ℚ) ^ F.minExp ≤ 2 ^ F.unitExp r :=
        zpow_le_zpow_right₀ (by norm_num) (le_max_right _ _)
      have hleast : (2 : ℚ) ^ F.unitExp r ≤ r :=
        (le_mul_of_one_le_left hrunit.le hone).trans_eq hm.symm
      linarith
  exact_mod_cast roundEven_pos hhalf

end BinaryFormat
