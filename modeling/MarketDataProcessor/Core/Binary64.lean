import MarketDataProcessor.Core.Double
import MarketDataProcessor.Foundations.BinaryFormat

/-!
# IEEE 754 double precision

The arithmetic a `double` has on the platforms the repository is built for: 53 binary digits, a
least positive number of `2 ^ -1074`, rounding to nearest with ties to even, and an infinity from
`2 ^ 1024` on. `nearest_binary64` says that it is an instance of the laws the results about
published prices are proved from; exact arithmetic is the other.

## What the instance rests on

`BinaryFormat` has the mathematics of a format with a bounded exponent: rounding is monotone, leaves
the numbers of the format alone and doubles with its argument. Added here is the other end, the
infinity from `2 ^ 1024` on. It keeps rounding monotone, since it is above every number, and it
keeps the fixed numbers fixed, since the laws ask for those up to one only. NaN never comes out of
rounding: it is what the operations of `Core.Double` return on infinities of opposite sign, or for
zero times an infinity.
-/

namespace FloatEnv

open Double

/-- The digits and the least exponent of a `double`. -/
def doubleFormat : BinaryFormat where
  digits := 52
  minExp := -1074

/-- Where overflow starts. -/
def doubleLimit : ℚ := 2 ^ 1024

/-- The result of an operation: rounded, then checked for overflow. -/
def roundDouble (q : ℚ) : Double :=
  if doubleLimit ≤ doubleFormat.round q then posInf
  else if doubleFormat.round q ≤ -doubleLimit then negInf
  else fin (doubleFormat.round q)

/-- IEEE 754 arithmetic, with any behaviour of out-of-range conversions. -/
def binary64 (castOverflow : Double → UInt64) : FloatEnv := ⟨roundDouble, castOverflow⟩

theorem one_lt_doubleLimit : 1 < doubleLimit := one_lt_pow₀ one_lt_two (by decide)

theorem roundDouble_of_nonneg {q : ℚ} (hq : 0 ≤ q) :
    roundDouble q =
      if doubleLimit ≤ doubleFormat.round q then posInf else fin (doubleFormat.round q) := by
  have hround := BinaryFormat.round_nonneg (F := doubleFormat) hq
  have hlimit := one_lt_doubleLimit
  rw [roundDouble]
  split_ifs with hover hunder
  · rfl
  · exact absurd hunder (by linarith)
  · rfl

theorem roundDouble_of_exact {r : ℚ} (hr : 0 ≤ r) (h : doubleFormat.round r = r)
    (hlt : r < doubleLimit) : roundDouble r = fin r := by
  rw [roundDouble_of_nonneg hr, h, if_neg (not_le.2 hlt)]

/-- A number that comes out of an operation is one of the format, and in range. -/
theorem roundDouble_eq_fin {q r : ℚ} (h : roundDouble q = fin r) :
    r = doubleFormat.round q ∧ r < doubleLimit := by
  rw [roundDouble] at h
  split_ifs at h with hover
  obtain rfl := Double.fin.inj h
  exact ⟨rfl, not_le.1 hover⟩

/-- What rounds to a positive number is positive. -/
theorem pos_of_round_pos {q : ℚ} (h : 0 < doubleFormat.round q) : 0 < q := by
  by_contra hq
  have hgrid := BinaryFormat.round_le (F := doubleFormat) (q := q) (m := 0) le_rfl
  rw [Int.cast_zero, zero_mul] at hgrid
  exact absurd h (not_lt.2 (hgrid (not_lt.1 hq)))

/-- **Double precision rounds to nearest.** -/
theorem nearest_binary64 (c : Double → UInt64) : (binary64 c).Nearest where
  mono := by
    intro p q hp hle
    have hmono := BinaryFormat.round_mono (F := doubleFormat) hp hle
    show roundDouble p ≤ roundDouble q
    rw [roundDouble_of_nonneg hp, roundDouble_of_nonneg (hp.trans hle)]
    split_ifs with hover hover' hover'
    · exact le_rfl
    · exact absurd (hover.trans hmono) hover'
    · simp [le_def, ble]
    · exact fin_le_fin.2 hmono
  fixed := by
    intro k hk
    have hk' : (k : ℚ) ≤ 2 ^ 32 := by exact_mod_cast hk
    have hle : (k / 2 ^ 32 : ℚ) ≤ 1 := (div_le_one (by norm_num)).2 hk'
    have hgrid : (k / 2 ^ 32 : ℚ) = ((k : ℤ) : ℚ) * 2 ^ (-32 : ℤ) := by
      rw [Int.cast_natCast, zpow_neg, div_eq_mul_inv]
      norm_cast
    refine roundDouble_of_exact (by positivity) ?_ (hle.trans_lt one_lt_doubleLimit)
    rcases Nat.eq_zero_or_pos k with rfl | hpos
    · rw [Nat.cast_zero, zero_div, BinaryFormat.round_zero]
    · have hunit := BinaryFormat.unitExp_le_of_lt (F := doubleFormat) (q := k / 2 ^ 32) (e := 1)
        (by positivity) (hle.trans_lt (by norm_num))
      rw [hgrid] at hunit ⊢
      exact BinaryFormat.round_eq_self (hunit.trans (by decide))
  idem := by
    intro q r hr hround
    obtain ⟨rfl, hlt⟩ := roundDouble_eq_fin hround
    exact roundDouble_of_exact hr.le (BinaryFormat.round_round (pos_of_round_pos hr).le) hlt
  double := by
    intro r hr hround
    obtain ⟨hexact, -⟩ := roundDouble_eq_fin hround
    show roundDouble (2 * r) = _ ∨ roundDouble (2 * r) = _
    rw [roundDouble_of_nonneg (by positivity), BinaryFormat.round_two_mul hr hexact.symm]
    split_ifs with hover
    · exact Or.inr rfl
    · exact Or.inl rfl
  half := by
    intro q r hr hround hlt
    obtain ⟨hexact, -⟩ := roundDouble_eq_fin hround
    have hpos := BinaryFormat.round_pos hr hexact.symm hlt
    show 0 < roundDouble q
    rw [roundDouble_of_nonneg (pos_of_round_pos hpos).le]
    split_ifs with hover
    · exact posInf_pos
    · exact fin_pos.2 hpos

-- one tenth is a little more than one tenth
example : roundDouble (1 / 10) = fin (3602879701896397 / 36028797018963968) := by decide +kernel

end FloatEnv
