import Mathlib.Data.Nat.Bitwise
import Mathlib.Data.List.Basic

/-!
# Numbers as strings of bits

`bitsOf n x` is the string of the `n` low bits of `x`, the lowest first, and `bitAt` reads a bit of
a string.  A number below `2 ^ n` is found again in every string that `bitsOf n x` is a part of
(`bitAt_append_bitsOf`, `bitAt_middle`).
-/

namespace SeanetSim

/-- The `n` low bits of `x`, the lowest first. -/
def bitsOf (n x : ℕ) : List Bool := (List.range n).map x.testBit

@[simp] theorem length_bitsOf (n x : ℕ) : (bitsOf n x).length = n := by simp [bitsOf]

/-- Bit `k` of a string; nothing is set beyond its end. -/
def bitAt (bits : List Bool) (k : ℕ) : Bool := bits.getD k false

theorem bitAt_bitsOf (n x k : ℕ) : bitAt (bitsOf n x) k = (decide (k < n) && x.testBit k) := by
  by_cases h : k < n <;> simp [bitAt, bitsOf, h]

theorem bitAt_of_le {bits : List Bool} {k : ℕ} (h : bits.length ≤ k) : bitAt bits k = false := by
  simp [bitAt, h]

theorem bitAt_append (s t : List Bool) (k : ℕ) :
    bitAt (s ++ t) k = if k < s.length then bitAt s k else bitAt t (k - s.length) := by
  unfold bitAt
  split_ifs with h
  · exact List.getD_append _ _ _ _ h
  · exact List.getD_append_right _ _ _ _ (by omega)

theorem testBit_of_lt_two_pow {n x k : ℕ} (hx : x < 2 ^ n) (hk : n ≤ k) : x.testBit k = false :=
  Nat.testBit_lt_two_pow (Nat.lt_of_lt_of_le hx (Nat.pow_le_pow_right (by decide) hk))

/-- Behind a string, a number that fits in its bits. -/
theorem bitAt_append_bitsOf (bits : List Bool) {n x : ℕ} (hx : x < 2 ^ n) (k : ℕ) :
    bitAt (bits ++ bitsOf n x) k =
      if k < bits.length then bitAt bits k else x.testBit (k - bits.length) := by
  rw [bitAt_append, bitAt_bitsOf]
  split_ifs with hk
  · rfl
  · by_cases hn : k - bits.length < n
    · simp [hn]
    · rw [testBit_of_lt_two_pow hx (by omega)]
      simp

/-- Between two strings, the bits of a number. -/
theorem bitAt_middle (pre post : List Bool) (x : ℕ) {n k : ℕ} (hk : k < n) :
    bitAt (pre ++ (bitsOf n x ++ post)) (pre.length + k) = x.testBit k := by
  rw [bitAt_append, if_neg (by omega), Nat.add_sub_cancel_left, bitAt_append, length_bitsOf,
    if_pos hk, bitAt_bitsOf, decide_eq_true hk, Bool.true_and]

end SeanetSim
