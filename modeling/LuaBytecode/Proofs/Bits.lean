import Mathlib.Data.Nat.Bitwise

namespace LuaBytecode

/-- Bits set above a number are added to it. -/
lemma or_shiftLeft {n k : Nat} (h : n < 2 ^ k) (m : Nat) : n ||| m <<< k = n + m * 2 ^ k := by
  rw [Nat.or_comm, ← Nat.shiftLeft_add_eq_or_of_lt h, Nat.add_comm, Nat.shiftLeft_eq]

/-- Clearing the bits of a mask and setting new ones there keeps the bits below and above it. -/
lemma clear_or {w n v k s : Nat} (hw : w < 2 ^ n) (hv : v < 2 ^ s) (hs : k + s ≤ n) :
    w &&& (2 ^ n - ((2 ^ s - 1) <<< k + 1)) ||| v <<< k =
      w % 2 ^ k + v * 2 ^ k + w / 2 ^ (k + s) * 2 ^ (k + s) := by
  have hle : 2 ^ (k + s) ≤ 2 ^ n := Nat.pow_le_pow_right (by decide) hs
  have hm : (2 ^ s - 1) <<< k < 2 ^ n := by
    refine Nat.lt_of_lt_of_le ?_ hle
    rw [Nat.shiftLeft_eq, Nat.pow_add, Nat.mul_comm]
    exact Nat.mul_lt_mul_of_pos_left (Nat.sub_one_lt (Nat.two_pow_pos s).ne')
      (Nat.two_pow_pos k)
  have hsum : w % 2 ^ k + v * 2 ^ k + w / 2 ^ (k + s) * 2 ^ (k + s) =
      w % 2 ^ k ||| (v ||| (w >>> (k + s)) <<< s) <<< k := by
    rw [or_shiftLeft (Nat.mod_lt _ (Nat.two_pow_pos k)), or_shiftLeft hv,
      Nat.shiftRight_eq_div_pow, Nat.add_mul, Nat.pow_add, Nat.mul_assoc, Nat.mul_comm (2 ^ s),
      Nat.add_assoc]
  rw [hsum]
  refine Nat.eq_of_testBit_eq fun j => ?_
  simp only [Nat.testBit_or, Nat.testBit_and, Nat.testBit_shiftLeft, Nat.testBit_shiftRight,
    Nat.testBit_mod_two_pow, Nat.testBit_two_pow_sub_succ hm, Nat.testBit_two_pow_sub_one]
  -- The bit lies below the mask, under it, above it or outside of the word.
  have hwj : n ≤ j → w.testBit j = false := fun h =>
    Nat.testBit_lt_two_pow (hw.trans_le (Nat.pow_le_pow_right (by decide) h))
  have hvj : s ≤ j - k → v.testBit (j - k) = false := fun h =>
    Nat.testBit_lt_two_pow (hv.trans_le (Nat.pow_le_pow_right (by decide) h))
  have hj : k + s ≤ j → k + s + (j - k - s) = j := by omega
  grind

/-- Another hexadecimal digit. -/
lemma shiftLeft_or {d : Nat} (h : d < 16) (n : Nat) : n <<< 4 ||| d = n * 16 + d := by
  rw [Nat.or_comm, or_shiftLeft (k := 4) h]
  omega

end LuaBytecode
