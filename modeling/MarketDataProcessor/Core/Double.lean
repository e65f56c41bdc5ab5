import Mathlib.Data.Rat.Floor
import Mathlib.Algebra.Order.Field.Rat
import Mathlib.Tactic.Linarith

/-!
# Double-precision values

The values of a C++ `double`: the finite ones as rationals, the two infinities and NaN. Comparisons
are exact, so they are defined outright; what depends on the platform is collected in a `FloatEnv`:

* `round`, the value an arithmetic operation returns for its exact rational result. IEEE rounding
  and overflow to an infinity are one instance, exact arithmetic (`FloatEnv.exact`) is another;
* `castOverflow`, what `static_cast<uint64_t>` yields outside the range in which the language
  defines it.

Results that do not depend on rounding are proved for every `FloatEnv`; results stated for exact
rational arithmetic instantiate `FloatEnv.exact`; results about prices that stay positive ask for
the laws of rounding to nearest, `FloatEnv.Nearest`.

## Two orders

The comparison operators are the IEEE ones, under which NaN compares with nothing (`flt`, `fle`,
`feq`). An ordered container needs a linear order, so `Double` also carries the one that agrees with
the operators away from NaN and puts NaN at the bottom. A container keyed by NaN has no defined
behaviour in the language; no theorem relies on where the linear order puts it.
-/

/-- The values of a `double`. -/
inductive Double where
  /-- Not a number. -/
  | nan
  /-- `-inf`. -/
  | negInf
  /-- A finite value. -/
  | fin (value : ℚ)
  /-- `+inf`. -/
  | posInf
  deriving DecidableEq

namespace Double

/-! ### The linear order of containers -/

/-- The order of the values, NaN first. -/
def ble : Double → Double → Bool
  | nan, _ => true
  | _, nan => false
  | negInf, _ => true
  | _, negInf => false
  | fin a, fin b => decide (a ≤ b)
  | fin _, posInf => true
  | posInf, fin _ => false
  | posInf, posInf => true

instance : LE Double := ⟨fun x y ↦ ble x y = true⟩

theorem le_def {x y : Double} : x ≤ y ↔ ble x y = true := Iff.rfl

instance decidableLe (x y : Double) : Decidable (x ≤ y) :=
  inferInstanceAs (Decidable (ble x y = true))

@[simp] theorem fin_le_fin {a b : ℚ} : fin a ≤ fin b ↔ a ≤ b := by
  rw [le_def, ble, decide_eq_true_iff]

instance : LinearOrder Double where
  le_refl x := by cases x <;> simp [le_def, ble]
  le_trans x y z hxy hyz := by
    cases x <;> cases y <;> cases z <;> simp_all [le_def, ble]
    exact le_trans hxy hyz
  le_antisymm x y hxy hyx := by
    cases x <;> cases y <;> simp_all [le_def, ble]
    exact le_antisymm hxy hyx
  le_total x y := by
    cases x <;> cases y <;> simp [le_def, ble]
    exact le_total _ _
  toDecidableLE := decidableLe

@[simp] theorem fin_lt_fin {a b : ℚ} : fin a < fin b ↔ a < b := by
  rw [← not_le, fin_le_fin, not_le]

instance : Zero Double := ⟨fin 0⟩

theorem zero_def : (0 : Double) = fin 0 := rfl

theorem posInf_pos : 0 < posInf := by decide

@[simp] theorem fin_pos {a : ℚ} : 0 < fin a ↔ 0 < a := fin_lt_fin

/-- The number a finite value stands for; zero for the others. -/
def value : Double → ℚ
  | fin q => q
  | _ => 0

@[simp] theorem value_fin (q : ℚ) : (fin q).value = q := rfl

/-! ### The comparison operators -/

/-- `x < y`. -/
def flt (x y : Double) : Bool := decide (x ≠ nan ∧ y ≠ nan ∧ x < y)

/-- `x <= y`. -/
def fle (x y : Double) : Bool := decide (x ≠ nan ∧ y ≠ nan ∧ x ≤ y)

/-- `x == y`. -/
def feq (x y : Double) : Bool := decide (x ≠ nan ∧ x = y)

/-- `std::isnan`. -/
def isNan (x : Double) : Bool := decide (x = nan)

/-- `std::isinf`. -/
def isInf (x : Double) : Bool := decide (x = posInf ∨ x = negInf)

@[simp] theorem flt_fin {a b : ℚ} : flt (fin a) (fin b) = decide (a < b) := by simp [flt]

@[simp] theorem fle_fin {a b : ℚ} : fle (fin a) (fin b) = decide (a ≤ b) := by simp [fle]

@[simp] theorem feq_fin {a b : ℚ} : feq (fin a) (fin b) = decide (a = b) := by simp [feq]

/-- `std::clamp(v, lo, hi)`. -/
def clamp (v lo hi : Double) : Double := if flt v lo then lo else if flt hi v then hi else v

@[simp] theorem clamp_nan (lo hi : Double) : clamp nan lo hi = nan := by simp [clamp, flt]

theorem clamp_fin {v lo hi : ℚ} (hle : lo ≤ hi) :
    clamp (fin v) (fin lo) (fin hi) = fin (max lo (min v hi)) := by
  simp only [clamp, flt_fin, decide_eq_true_iff]
  split_ifs with hbelow habove
  · rw [max_eq_left (min_le_of_left_le hbelow.le)]
  · rw [min_eq_right habove.le, max_eq_right hle]
  · rw [min_eq_left (not_lt.1 habove), max_eq_right (not_lt.1 hbelow)]

/-- **What a clamp between finite bounds returns**: a number between them, by its upper bounds. -/
theorem exists_clamp_eq {v : Double} (hv : v ≠ nan) {lo hi : ℚ} (hle : lo ≤ hi) :
    ∃ r, clamp v (fin lo) (fin hi) = fin r ∧ lo ≤ r ∧ r ≤ hi ∧
      ∀ t, r ≤ t ↔ lo ≤ t ∧ (hi ≤ t ∨ v ≤ fin t) := by
  have hlow : flt v (fin lo) = decide (v < fin lo) := by simp [flt, hv]
  have hhigh : flt (fin hi) v = decide (fin hi < v) := by simp [flt, hv]
  rw [clamp, hlow, hhigh]
  rcases lt_or_ge v (fin lo) with hbelow | hbelow
  · rw [if_pos (decide_eq_true hbelow)]
    refine ⟨lo, rfl, le_rfl, hle, fun t ↦ ⟨fun h ↦ ⟨h, Or.inr ?_⟩, fun h ↦ h.1⟩⟩
    exact hbelow.le.trans (fin_le_fin.2 h)
  · rw [if_neg (by simpa using hbelow)]
    rcases lt_or_ge (fin hi) v with habove | habove
    · rw [if_pos (decide_eq_true habove)]
      refine ⟨hi, rfl, hle, le_rfl, fun t ↦ ⟨fun h ↦ ⟨hle.trans h, Or.inl h⟩, ?_⟩⟩
      rintro ⟨-, h | h⟩
      · exact h
      · exact fin_le_fin.1 (habove.le.trans h)
    · rw [if_neg (by simpa using habove)]
      cases v with
      | nan => exact absurd rfl hv
      | negInf => exact absurd hbelow (by simp [le_def, ble])
      | posInf => exact absurd habove (by simp [le_def, ble])
      | fin r =>
        rw [fin_le_fin] at hbelow habove
        refine ⟨r, rfl, hbelow, habove, fun t ↦ ⟨fun h ↦ ⟨hbelow.trans h, ?_⟩, ?_⟩⟩
        · exact Or.inr (fin_le_fin.2 h)
        · rintro ⟨-, h | h⟩
          · exact habove.trans h
          · exact fin_le_fin.1 h

end Double

/-! ### Arithmetic -/

/-- What the language leaves to the platform. -/
structure FloatEnv where
  /-- The value returned for an exact result. -/
  round : ℚ → Double
  /-- The value of `static_cast<uint64_t>` outside its defined range. -/
  castOverflow : Double → UInt64

namespace FloatEnv

open Double

/-- Exact rational arithmetic, with any behaviour of out-of-range conversions. -/
def exact (castOverflow : Double → UInt64) : FloatEnv := ⟨fin, castOverflow⟩

variable (fl : FloatEnv)

/-- `x + y`. -/
def add : Double → Double → Double
  | fin a, fin b => fl.round (a + b)
  | nan, _ => nan
  | _, nan => nan
  | posInf, negInf => nan
  | negInf, posInf => nan
  | posInf, _ => posInf
  | _, posInf => posInf
  | negInf, _ => negInf
  | _, negInf => negInf

/-- `x - y`. -/
def sub (x : Double) : Double → Double
  | fin b => fl.add x (fin (-b))
  | posInf => fl.add x negInf
  | negInf => fl.add x posInf
  | nan => nan

/-- `x * y`. -/
def mul : Double → Double → Double
  | fin a, fin b => fl.round (a * b)
  | nan, _ => nan
  | _, nan => nan
  | fin a, y =>
    if a = 0 then nan else if decide (0 < a) = decide (y = posInf) then posInf else negInf
  | x, fin b =>
    if b = 0 then nan else if decide (0 < b) = decide (x = posInf) then posInf else negInf
  | x, y => if x = y then posInf else negInf

/-- `x / d` for a positive finite divisor. -/
def divBy (x : Double) (d : ℚ) : Double :=
  match x with
  | fin a => fl.round (a / d)
  | x => x

/-- `static_cast<uint64_t>(x)`: truncation toward zero, where the language defines it. -/
def toUInt64 (x : Double) : UInt64 :=
  match x with
  | fin q => if -1 < q ∧ q < 2 ^ 64 then UInt64.ofNat ⌊q⌋.toNat else fl.castOverflow x
  | x => fl.castOverflow x

/-- `static_cast<double>(n)`. -/
def ofUInt64 (n : UInt64) : Double := fl.round n.toNat

@[simp] theorem exact_round (c : Double → UInt64) (q : ℚ) : (exact c).round q = fin q := rfl

@[simp] theorem exact_add_fin (c : Double → UInt64) (a b : ℚ) :
    (exact c).add (fin a) (fin b) = fin (a + b) := rfl

@[simp] theorem exact_sub_fin (c : Double → UInt64) (a b : ℚ) :
    (exact c).sub (fin a) (fin b) = fin (a - b) := by
  rw [sub_eq_add_neg]
  rfl

/-- A sum with a number is bounded as its other summand is. -/
theorem exact_add_fin_le_fin (c : Double → UInt64) {x : Double} (hx : x ≠ nan) (a t : ℚ) :
    (exact c).add x (fin a) ≤ fin t ↔ x ≤ fin (t - a) := by
  cases x with
  | nan => exact absurd rfl hx
  | negInf => exact ⟨fun _ ↦ rfl, fun _ ↦ rfl⟩
  | posInf => exact ⟨fun h ↦ by simp [add, le_def, ble] at h, fun h ↦ by simp [le_def, ble] at h⟩
  | fin b => rw [exact_add_fin, fin_le_fin, fin_le_fin, le_sub_iff_add_le]

theorem exact_add_fin_ne_nan (c : Double → UInt64) {x : Double} (hx : x ≠ nan) (a : ℚ) :
    (exact c).add x (fin a) ≠ nan := by
  cases x <;> simp_all [add]

@[simp] theorem exact_mul_fin (c : Double → UInt64) (a b : ℚ) :
    (exact c).mul (fin a) (fin b) = fin (a * b) := rfl

@[simp] theorem exact_divBy_fin (c : Double → UInt64) (a d : ℚ) :
    (exact c).divBy (fin a) d = fin (a / d) := rfl

/-! ### Truncation of volumes -/

/-- **Where the conversion is defined, it is positive from one on and zero below.** -/
theorem toUInt64_fin_eq_zero_iff {q : ℚ} (h0 : 0 ≤ q) (h64 : q < 2 ^ 64) :
    fl.toUInt64 (fin q) = 0 ↔ q < 1 := by
  have hfloor : 0 ≤ ⌊q⌋ := Int.floor_nonneg.2 h0
  have hlt : ⌊q⌋.toNat < 2 ^ 64 := by
    have : ⌊q⌋ < 2 ^ 64 := Int.floor_lt.2 (by exact_mod_cast h64)
    omega
  have hone : q < 1 ↔ ⌊q⌋ < 1 := by rw [Int.floor_lt, Int.cast_one]
  rw [toUInt64, if_pos ⟨by linarith, h64⟩, ← UInt64.toNat_inj, UInt64.toNat_ofNat_of_lt' hlt, hone]
  show ⌊q⌋.toNat = 0 ↔ ⌊q⌋ < 1
  omega

/-! ### Rounding to nearest -/

section Nearest

/-- What is used of rounding to nearest in a binary format of at least 33 digits. Only numbers that
are not negative occur. Underflow is gradual, and there may be overflow. -/
structure Nearest (fl : FloatEnv) : Prop where
  /-- Rounding is monotone. -/
  mono : ∀ p q : ℚ, 0 ≤ p → p ≤ q → fl.round p ≤ fl.round q
  /-- Fractions of 32 bits are exact. -/
  fixed : ∀ k : ℕ, k ≤ 2 ^ 32 → fl.round (k / 2 ^ 32) = fin (k / 2 ^ 32)
  /-- What comes out is exact. -/
  idem : ∀ q r : ℚ, 0 < r → fl.round q = fin r → fl.round r = fin r
  /-- Doubling is exact, or overflows. -/
  double : ∀ r : ℚ, 0 < r → fl.round r = fin r →
    fl.round (2 * r) = fin (2 * r) ∨ fl.round (2 * r) = posInf
  /-- What is more than half an exact number does not vanish. -/
  half : ∀ q r : ℚ, 0 < r → fl.round r = fin r → r / 2 < q → 0 < fl.round q

/-- The value is one of the format's. -/
def Holds : Double → Prop
  | fin q => fl.round q = fin q
  | _ => True

/-- A positive result of rounding; an infinity is one in a format that overflows. -/
def PosValue (x : Double) : Prop := 0 < x ∧ ∃ q : ℚ, fl.round q = x

/-- A result of rounding that is not negative. -/
def NonnegValue (x : Double) : Prop := 0 ≤ x ∧ ∃ q : ℚ, fl.round q = x

/-- Exact arithmetic has nothing to round. -/
theorem nearest_exact (c : Double → UInt64) : (exact c).Nearest where
  mono := fun _ _ _ h ↦ fin_le_fin.2 h
  fixed := fun _ _ ↦ rfl
  idem := fun _ _ _ _ ↦ rfl
  double := fun _ _ _ ↦ Or.inl rfl
  half := fun _ _ hr _ hq ↦ fin_pos.2 (lt_trans (by linarith) hq)

variable {fl} {x y : Double} {q r w : ℚ}

theorem PosValue.nonnegValue (h : fl.PosValue x) : fl.NonnegValue x := ⟨h.1.le, h.2⟩

theorem posValue_of_holds (hq : 0 < q) (h : fl.Holds (fin q)) : fl.PosValue (fin q) :=
  ⟨fin_pos.2 hq, q, h⟩

theorem NonnegValue.cases (hx : fl.NonnegValue x) : (∃ r : ℚ, 0 ≤ r ∧ x = fin r) ∨ x = posInf := by
  obtain ⟨hnonneg, -⟩ := hx
  cases x with
  | nan => exact absurd hnonneg (by decide)
  | negInf => exact absurd hnonneg (by decide)
  | posInf => exact Or.inr rfl
  | fin r => exact Or.inl ⟨r, fin_le_fin.1 hnonneg, rfl⟩

theorem add_swap (x y : Double) : fl.add x y = fl.add y x := by
  cases x <;> cases y <;> simp [add, add_comm]

theorem mul_posInf_fin (hw : 0 < w) : fl.mul posInf (fin w) = posInf := by
  simp [mul, hw, hw.ne']

namespace Nearest

variable (h : fl.Nearest)

include h

theorem fraction {k : ℕ} (hk : k ≤ 2 ^ 32) (hq : q = k / 2 ^ 32) : fl.round q = fin q := by
  rw [hq]
  exact h.fixed k hk

theorem zero : fl.round 0 = fin 0 := h.fraction (k := 0) (by norm_num) (by norm_num)

theorem one : fl.round 1 = fin 1 := h.fraction (k := 2 ^ 32) le_rfl (by norm_num)

theorem nonnegValue_round (hq : 0 ≤ q) : fl.NonnegValue (fl.round q) :=
  ⟨(h.zero ▸ h.mono 0 q le_rfl hq : fin 0 ≤ fl.round q), q, rfl⟩

/-- Rounding does not go below an exact number. -/
theorem posValue_round (hr : 0 < r) (hexact : fl.round r = fin r) (hle : r ≤ q) :
    fl.PosValue (fl.round q) :=
  ⟨(fin_pos.2 hr).trans_le (hexact ▸ h.mono r q hr.le hle), q, rfl⟩

/-- A number between two exact ones rounds to one. -/
theorem exists_round_mem {lo hi : ℚ} (hlo : fl.round lo = fin lo) (hhi : fl.round hi = fin hi)
    (h0 : 0 ≤ lo) (hle : lo ≤ q) (hge : q ≤ hi) : ∃ r, fl.round q = fin r ∧ lo ≤ r ∧ r ≤ hi := by
  have hbelow := h.mono lo q h0 hle
  have habove := h.mono q hi (h0.trans hle) hge
  rw [hlo] at hbelow
  rw [hhi] at habove
  cases hq : fl.round q with
  | nan => exact absurd (hq ▸ hbelow) (by simp [le_def, ble])
  | negInf => exact absurd (hq ▸ hbelow) (by simp [le_def, ble])
  | posInf => exact absurd (hq ▸ habove) (by simp [le_def, ble])
  | fin r => exact ⟨r, rfl, fin_le_fin.1 (hq ▸ hbelow), fin_le_fin.1 (hq ▸ habove)⟩

/-- A positive value is an exact number or the result of an overflow. -/
theorem posValue_cases (hx : fl.PosValue x) :
    (∃ r : ℚ, 0 < r ∧ x = fin r ∧ fl.round r = fin r) ∨ x = posInf := by
  obtain ⟨hpos, q, hq⟩ := hx
  cases x with
  | nan => exact absurd hpos (by decide)
  | negInf => exact absurd hpos (by decide)
  | posInf => exact Or.inr rfl
  | fin r => exact Or.inl ⟨r, fin_pos.1 hpos, rfl, h.idem q r (fin_pos.1 hpos) hq⟩

/-- **Sums of values are positive when one of the two is.** -/
theorem posValue_add (hx : fl.PosValue x) (hy : fl.NonnegValue y) : fl.PosValue (fl.add x y) := by
  rcases h.posValue_cases hx with ⟨r, hr, rfl, hexact⟩ | rfl
  · rcases hy.cases with ⟨s, hs, rfl⟩ | rfl
    · exact h.posValue_round hr hexact (le_add_of_nonneg_right hs)
    · exact ⟨posInf_pos, hy.2⟩
  · rcases hy.cases with ⟨s, hs, rfl⟩ | rfl
    · exact hx
    · exact hx

/-- Half of a rounded sum is at least the smaller summand: twice that one is exact. -/
theorem posValue_halfSum {a b : ℚ} (ha : 0 < a) (hexact : fl.round a = fin a) (hle : a ≤ b) :
    fl.PosValue (fl.divBy (fl.round (a + b)) 2) := by
  have hmono := h.mono (2 * a) (a + b) (by linarith) (by linarith)
  have hsum := h.posValue_round ha hexact (q := a + b) (by linarith)
  rcases h.posValue_cases hsum with ⟨s, -, hround, -⟩ | hround
  · rw [hround] at hmono ⊢
    refine h.posValue_round ha hexact ?_
    rcases h.double a ha hexact with hdouble | hdouble
    · rw [hdouble, fin_le_fin] at hmono
      linarith
    · rw [hdouble] at hmono
      exact absurd hmono (by simp [le_def, ble])
  · rw [hround] at hsum ⊢
    exact hsum

/-- **A midpoint of positive values is one.** -/
theorem posValue_midpoint (hx : fl.PosValue x) (hy : fl.PosValue y) :
    fl.PosValue (fl.divBy (fl.add x y) 2) := by
  rcases h.posValue_cases hx with ⟨a, ha, rfl, hexact⟩ | rfl
  · rcases h.posValue_cases hy with ⟨b, hb, rfl, hexact'⟩ | rfl
    · rcases le_total a b with hle | hle
      · exact h.posValue_halfSum ha hexact hle
      · rw [add_swap]
        exact h.posValue_halfSum hb hexact' hle
    · exact hy
  · rcases h.posValue_cases hy with ⟨b, -, rfl, -⟩ | rfl <;> exact hx

/-- **Scaling by more than one half keeps a value positive.** -/
theorem posValue_mul (hx : fl.PosValue x) (hw : 1 / 2 < w) : fl.PosValue (fl.mul x (fin w)) := by
  rcases h.posValue_cases hx with ⟨r, hr, rfl, hexact⟩ | rfl
  · refine ⟨h.half (r * w) r hr hexact ?_, _, rfl⟩
    have := mul_lt_mul_of_pos_left hw hr
    linarith
  · rw [mul_posInf_fin (by linarith)]
    exact hx

theorem nonnegValue_mul (hx : fl.PosValue x) (hw : 0 < w) : fl.NonnegValue (fl.mul x (fin w)) := by
  rcases h.posValue_cases hx with ⟨r, hr, rfl, -⟩ | rfl
  · exact h.nonnegValue_round (mul_nonneg hr.le hw.le)
  · rw [mul_posInf_fin hw]
    exact hx.nonnegValue

end Nearest

end Nearest

end FloatEnv
