import Mathlib.Data.List.Induction
import Mathlib.Data.Nat.Digits.Defs
import Mathlib.Data.Nat.ModEq
import Mathlib.Tactic.Ring

/-! Polynomial hashes of digit strings, over the natural numbers and in machine
words: when two of them agree modulo a power of two, up to the sign, and the
bytes of a string as a list of digits. -/

/-- The value of the digits behind `seed`; the last digit is the lowest. -/
def polynomialHash (base seed : ℕ) (digits : List ℕ) : ℕ :=
  Nat.ofDigits base (digits.reverse ++ [seed])

namespace polynomialHash
variable (base seed : ℕ)

@[simp] theorem nil : polynomialHash base seed [] = seed := by
  simp [polynomialHash]

@[simp] theorem concat (digits : List ℕ) (digit : ℕ) :
    polynomialHash base seed (digits ++ [digit]) =
      polynomialHash base seed digits * base + digit := by
  simp only [polynomialHash, List.reverse_append, List.reverse_singleton, List.cons_append,
    List.nil_append, Nat.ofDigits_cons]
  ring

theorem append (digits more : List ℕ) :
    polynomialHash base seed (digits ++ more) =
      polynomialHash base (polynomialHash base seed digits) more := by
  induction more using List.reverseRecOn with
  | nil => simp
  | append_singleton more digit ih =>
    rw [← List.append_assoc, concat, concat, ih]

/-- A fold in words of `w` bits computes the polynomial modulo `2 ^ w`. -/
theorem foldl_word (w : ℕ) (digits : List ℕ) :
    digits.foldl (fun hash digit => hash * BitVec.ofNat w base + BitVec.ofNat w digit)
        (BitVec.ofNat w seed) = BitVec.ofNat w (polynomialHash base seed digits) := by
  induction digits using List.reverseRecOn with
  | nil => simp
  | append_singleton digits digit ih =>
    rw [List.foldl_append, ih, concat, BitVec.ofNat_add, BitVec.ofNat_mul]
    rfl

end polynomialHash

/-! ### Residues and magnitudes -/

namespace Residue
variable {m p q r s : ℕ}

/-- The one solution of a linear congruence with an invertible factor. -/
theorem linear_eq_zero_iff {a b root : ℕ} (coprime : Nat.gcd m a = 1)
    (solves : (a * root + b) % m = 0) (small : root < m) (p : ℕ) :
    (a * p + b) % m = 0 ↔ p % m = root := by
  constructor
  · intro zero
    have shifted : a * p + b ≡ a * root + b [MOD m] := zero.trans solves.symm
    have scaled : a * p ≡ a * root [MOD m] := Nat.ModEq.add_right_cancel' b shifted
    have same : p ≡ root [MOD m] := Nat.ModEq.cancel_left_of_coprime coprime scaled
    exact Eq.trans same (Nat.mod_eq_of_lt small)
  · intro residue
    have same : p ≡ root [MOD m] := residue.trans (Nat.mod_eq_of_lt small).symm
    exact Eq.trans ((same.mul_left a).add_right b) solves

/-- Two residues other than zero are opposite iff their sum vanishes. -/
theorem add_eq_zero_iff (positive : 0 < m) (some_left : p % m ≠ 0) :
    (p + q) % m = 0 ↔ p % m + q % m = m := by
  have left := Nat.mod_lt p positive
  have right := Nat.mod_lt q positive
  rw [Nat.add_mod]
  rcases Nat.lt_or_ge (p % m + q % m) m with small | large
  · rw [Nat.mod_eq_of_lt small]
    omega
  · rw [Nat.mod_eq_sub_mod large, Nat.mod_eq_of_lt (by omega)]
    omega

theorem magnitude_eq_iff (left : r < m) (right : s < m) :
    min r (m - r) = min s (m - s) ↔ r = s ∨ r + s = m := by
  rcases Nat.le_total r (m - r) with low | high <;>
    rcases Nat.le_total s (m - s) with low' | high'
  · rw [Nat.min_eq_left low, Nat.min_eq_left low']
    omega
  · rw [Nat.min_eq_left low, Nat.min_eq_right high']
    omega
  · rw [Nat.min_eq_right high, Nat.min_eq_left low']
    omega
  · rw [Nat.min_eq_right high, Nat.min_eq_right high']
    omega

end Residue

/-- The distance of a word to zero. Only the word `2 ^ (w - 1)` keeps its sign bit. -/
theorem BitVec.toNat_abs_eq_min {w : ℕ} (x : BitVec w) :
    x.abs.toNat = min x.toNat (2 ^ w - x.toNat) := by
  have bound := x.isLt
  rw [BitVec.toNat_abs]
  cases sign : x.msb with
  | false =>
    have small := BitVec.msb_eq_false_iff_two_mul_lt.mp sign
    simp only [Bool.false_eq_true, if_false]
    omega
  | true =>
    have large := BitVec.msb_eq_true_iff_two_mul_ge.mp sign
    simp only [if_true]
    omega

/-! ### The bytes of a string -/

namespace ByteArray

theorem toList_loop (bytes : ByteArray) (i : ℕ) (read : List UInt8) :
    toList.loop bytes i read = read.reverse ++ bytes.data.toList.drop i := by
  fun_induction toList.loop bytes i read with
  | case1 i read inside ih =>
    have next : bytes.data.toList.drop i = bytes.get! i :: bytes.data.toList.drop (i + 1) := by
      have inside : i < bytes.data.toList.length := inside
      rw [List.drop_eq_getElem_cons inside]
      congr 1
      simp [get!, getElem!_pos bytes.data i inside]
    rw [ih, next, List.reverse_cons, List.append_assoc]
    rfl
  | case2 i read outside =>
    have outside : bytes.data.toList.length ≤ i := Nat.not_lt.mp outside
    rw [List.drop_eq_nil_of_le outside, List.append_nil]

theorem toList_eq (bytes : ByteArray) : bytes.toList = bytes.data.toList :=
  toList_loop bytes 0 []

@[simp] theorem toList_append (bytes more : ByteArray) :
    (bytes ++ more).toList = bytes.toList ++ more.toList := by
  rw [toList_eq, toList_eq, toList_eq, toList_data_append]

end ByteArray
