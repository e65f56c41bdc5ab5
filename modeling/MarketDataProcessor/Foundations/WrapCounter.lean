import Mathlib.Data.Nat.ModEq
import Mathlib.Tactic.NormNum

/-!
# Counters that wrap

Arithmetic of `w`-bit counters that only ever move forward by one, as ring buffers use them: the
counter after `n` increments from an arbitrary start (`advance`), the wrapping distance of two such
values, and the slot a power-of-two mask selects (`maskSlot`).

Everything is stated against the unbounded position `n`. Two positions less than `2 ^ w` apart are
told apart by their counters (`advance_sub_advance_eq_iff`), and two positions less than `N` apart
are told apart by their slots (`maskSlot_advance_ne`). The start is arbitrary, so nothing here
depends on where the counters wrap.

## What a consumer does with it

An implementation keeps counters, its invariant keeps positions: `advance start n` is the only link
between them. A test of the implementation, two counters equal or their distance equal to `N`, is
then read as a statement about positions, provided the distance in question is below `2 ^ w`. Where
no such bound is known, as for loads of two counters at different moments,
`advance_eq_advance_iff_mod` and `toNat_advance_sub_of_le` say what the test means modulo whole
turns.
-/

namespace WrapCounter

variable {w N : ℕ}

/-! ### Positions and counter values -/

/-- The counter after `n` increments from `start`. -/
def advance (start : BitVec w) (n : ℕ) : BitVec w := start + BitVec.ofNat w n

@[simp] theorem advance_zero (start : BitVec w) : advance start 0 = start := by
  simp [advance]

theorem advance_succ (start : BitVec w) (n : ℕ) :
    advance start (n + 1) = advance start n + 1 := by
  rw [advance, advance, BitVec.ofNat_add, ← BitVec.add_assoc]
  rfl

theorem toNat_advance (start : BitVec w) (n : ℕ) :
    (advance start n).toNat = (start.toNat + n) % 2 ^ w := by
  rw [advance, BitVec.toNat_add, BitVec.toNat_ofNat, Nat.add_mod_mod]

/-- The wrapping distance of two counter values is the distance of their positions. -/
theorem advance_sub_advance (start : BitVec w) {m n : ℕ} (h : m ≤ n) :
    advance start n - advance start m = BitVec.ofNat w (n - m) := by
  obtain ⟨d, rfl⟩ := Nat.exists_eq_add_of_le h
  rw [Nat.add_sub_cancel_left, advance, advance, BitVec.ofNat_add, ← BitVec.add_assoc,
    BitVec.add_comm (start + BitVec.ofNat w m), BitVec.add_sub_cancel]

/-- **An equality test on the wrapping distance decides the true distance**, as long as both stay
below the modulus. -/
theorem advance_sub_advance_eq_iff (start : BitVec w) {m n k : ℕ} (h : m ≤ n)
    (hd : n - m < 2 ^ w) (hk : k < 2 ^ w) :
    advance start n - advance start m = BitVec.ofNat w k ↔ n - m = k := by
  rw [advance_sub_advance start h, ← BitVec.toNat_inj, BitVec.toNat_ofNat, BitVec.toNat_ofNat,
    Nat.mod_eq_of_lt hd, Nat.mod_eq_of_lt hk]

/-- Counters agree exactly when positions do. -/
theorem advance_eq_advance_iff (start : BitVec w) {m n : ℕ} (h : m ≤ n) (hd : n - m < 2 ^ w) :
    advance start n = advance start m ↔ n = m := by
  refine ⟨fun heq ↦ ?_, fun heq ↦ heq ▸ rfl⟩
  have hzero : advance start n - advance start m = BitVec.ofNat w 0 := by
    rw [heq, BitVec.sub_self]
  have := (advance_sub_advance_eq_iff start h hd (Nat.two_pow_pos w)).1 hzero
  omega

/-- Without a bound on the distance, counters agree exactly when positions do up to whole turns. -/
theorem advance_eq_advance_iff_mod (start : BitVec w) {m n : ℕ} (h : m ≤ n) :
    advance start n = advance start m ↔ (n - m) % 2 ^ w = 0 := by
  obtain ⟨d, rfl⟩ := Nat.exists_eq_add_of_le h
  have hadd : advance start (m + d) = advance start m + BitVec.ofNat w d := by
    rw [advance, advance, BitVec.ofNat_add, ← BitVec.add_assoc]
  have hzero : BitVec.ofNat w d = 0#w ↔ d % 2 ^ w = 0 := by
    rw [← BitVec.toNat_inj, BitVec.toNat_ofNat, BitVec.toNat_zero]
  rw [Nat.add_sub_cancel_left, ← hzero, hadd]
  exact BitVec.add_right_eq_self

/-- **The distance to a position further on** is what is left of a turn. -/
theorem toNat_advance_sub_of_le (start : BitVec w) {m n : ℕ} (h : m ≤ n) :
    (advance start m - advance start n).toNat = (2 ^ w - (n - m) % 2 ^ w) % 2 ^ w := by
  have hneg : advance start m - advance start n = -(advance start n - advance start m) := by
    rw [BitVec.neg_sub, BitVec.add_comm, ← BitVec.sub_eq_add_neg]
  rw [hneg, advance_sub_advance start h, BitVec.toNat_neg, BitVec.toNat_ofNat]

/-! ### Slots -/

/-- The slot of a counter value: its low bits, under the mask `N - 1`. -/
def maskSlot (N : ℕ) (c : BitVec w) : ℕ := (c &&& BitVec.ofNat w (N - 1)).toNat

theorem maskSlot_lt (hN : 0 < N) (c : BitVec w) : maskSlot N c < N := by
  have hand : maskSlot N c ≤ (BitVec.ofNat w (N - 1)).toNat := by
    rw [maskSlot, BitVec.toNat_and]
    exact Nat.and_le_right
  have hmod : (BitVec.ofNat w (N - 1)).toNat ≤ N - 1 := by
    rw [BitVec.toNat_ofNat]
    exact Nat.mod_le _ _
  omega

/-- On a power of two that fits the counter, the mask is the remainder. -/
theorem maskSlot_eq_mod (hpow : N.isPowerOfTwo) (hle : N ≤ 2 ^ w) (c : BitVec w) :
    maskSlot N c = c.toNat % N := by
  obtain ⟨k, rfl⟩ := hpow
  have hpos : 0 < 2 ^ k := Nat.two_pow_pos k
  rw [maskSlot, BitVec.toNat_and, BitVec.toNat_ofNat, Nat.mod_eq_of_lt (by omega),
    Nat.and_two_pow_sub_one_eq_mod]

theorem maskSlot_advance (hpow : N.isPowerOfTwo) (hle : N ≤ 2 ^ w) (start : BitVec w) (n : ℕ) :
    maskSlot N (advance start n) = (start.toNat + n) % N := by
  -- `N` divides the modulus, so a wrap does not change the remainder
  have hdvd : N ∣ 2 ^ w := by
    obtain ⟨k, rfl⟩ := hpow
    exact Nat.pow_dvd_pow 2 ((Nat.pow_le_pow_iff_right (by norm_num)).1 hle)
  rw [maskSlot_eq_mod hpow hle, toNat_advance, Nat.mod_mod_of_dvd _ hdvd]

/-- **Positions less than `N` apart have different slots.** -/
theorem maskSlot_advance_ne (hpow : N.isPowerOfTwo) (hle : N ≤ 2 ^ w) (start : BitVec w)
    {m n : ℕ} (hlt : m < n) (hd : n < m + N) :
    maskSlot N (advance start m) ≠ maskSlot N (advance start n) := by
  rw [maskSlot_advance hpow hle, maskSlot_advance hpow hle]
  intro heq
  have hdvd : N ∣ (start.toNat + n) - (start.toNat + m) :=
    (Nat.modEq_iff_dvd' (by omega)).1 heq
  have := Nat.le_of_dvd (by omega) hdvd
  omega

end WrapCounter
