import Mathlib.Algebra.Group.Nat.Defs
import Mathlib.Data.Nat.Log

/-! Rounding of natural numbers to a fixed number of significant bits, to
nearest with ties to even, as binary floating point does. -/

/-- The multiple of `2 ^ shift` nearest to `x`, where `shift` is the number of
bits of `x` beyond `bits`; of two equally near ones the even one. -/
def roundToEven (bits x : Nat) : Nat :=
  let unit := 2 ^ (Nat.log2 x + 1 - bits)
  let quotient := x / unit
  let rest := x % unit
  if unit < 2 * rest ∨ (unit = 2 * rest ∧ quotient % 2 = 1) then (quotient + 1) * unit
  else quotient * unit

theorem roundToEven_exact {bits x : Nat} (significant : 0 < bits) (small : x < 2 ^ bits) :
    roundToEven bits x = x := by
  have shift : Nat.log2 x + 1 - bits = 0 := by
    rcases Nat.eq_zero_or_pos x with rfl | positive
    · rw [Nat.log2_zero]
      omega
    · have := (Nat.log2_lt (Nat.pos_iff_ne_zero.mp positive)).mpr small
      omega
  simp only [roundToEven, shift, Nat.pow_zero, Nat.mod_one, Nat.div_one, Nat.mul_one]
  simp

theorem roundToEven_pos {bits x : Nat} (significant : 0 < bits) (positive : 0 < x) :
    0 < roundToEven bits x := by
  have unitPos : 0 < 2 ^ (Nat.log2 x + 1 - bits) := Nat.two_pow_pos _
  have unitLe : 2 ^ (Nat.log2 x + 1 - bits) ≤ x :=
    (Nat.pow_le_pow_right (by omega) (by omega)).trans
      (Nat.log2_self_le (Nat.pos_iff_ne_zero.mp positive))
  have quotient : 0 < x / 2 ^ (Nat.log2 x + 1 - bits) := Nat.div_pos unitLe unitPos
  simp only [roundToEven]
  split
  · exact Nat.mul_pos (Nat.succ_pos _) unitPos
  · exact Nat.mul_pos quotient unitPos

/-- Rounding adds at most one unit of the last kept bit. -/
theorem roundToEven_le {bits shift x : Nat} (significant : 0 < bits)
    (bound : x < 2 ^ (bits + shift)) :
    roundToEven bits x ≤ x + 2 ^ shift := by
  have exponent : Nat.log2 x + 1 - bits ≤ shift := by
    rcases Nat.eq_zero_or_pos x with rfl | positive
    · rw [Nat.log2_zero]
      omega
    · have := (Nat.log2_lt (Nat.pos_iff_ne_zero.mp positive)).mpr bound
      omega
  have unit : 2 ^ (Nat.log2 x + 1 - bits) ≤ 2 ^ shift := Nat.pow_le_pow_right (by omega) exponent
  have below := Nat.div_mul_le_self x (2 ^ (Nat.log2 x + 1 - bits))
  simp only [roundToEven]
  split
  · rw [Nat.add_mul, Nat.one_mul]
    omega
  · omega
