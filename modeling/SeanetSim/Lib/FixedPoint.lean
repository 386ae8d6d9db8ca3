import Mathlib.Data.Rat.Floor
import Mathlib.Tactic.FieldSimp
import Mathlib.Tactic.Positivity
import Mathlib.Tactic.Ring

/-!
# Fixed-point numbers

An integer stands for a rational number with `f` fractional bits.  The product and the quotient of
two such numbers, truncated toward zero to `f` fractional bits again, are divisions of integers.
-/

namespace SeanetSim.FixedPoint

variable (f : ℕ)

/-- The number that an integer stands for. -/
def toRat (m : ℤ) : ℚ := m / 2 ^ f

/-- The integer that stands for a number truncated toward zero. -/
def truncate (q : ℚ) : ℤ := if 0 ≤ q then ⌊q * 2 ^ f⌋ else ⌈q * 2 ^ f⌉

theorem truncate_neg (q : ℚ) : truncate f (-q) = -truncate f q := by
  unfold truncate
  rcases lt_trichotomy q 0 with hq | rfl | hq
  · rw [if_pos (by linarith), if_neg (by linarith), neg_mul, Int.floor_neg]
  · simp
  · rw [if_neg (by linarith), if_pos hq.le, neg_mul, Int.ceil_neg]

theorem truncate_natCast_div (m n : ℕ) : truncate f (m / n) = (m * 2 ^ f : ℤ).tdiv n := by
  have hcast : (m / n : ℚ) * 2 ^ f = ((m * 2 ^ f : ℕ) : ℤ) / (n : ℕ) := by
    push_cast
    ring
  rw [truncate, if_pos (by positivity), hcast, Rat.floor_intCast_div_natCast,
    ← Int.tdiv_eq_ediv_of_nonneg (by positivity)]
  push_cast
  rfl

theorem truncate_div (m n : ℤ) : truncate f (m / n) = (m * 2 ^ f).tdiv n := by
  obtain ⟨k, rfl | rfl⟩ := m.eq_nat_or_neg <;> obtain ⟨l, rfl | rfl⟩ := n.eq_nat_or_neg <;>
    simp [neg_div, div_neg, truncate_neg, truncate_natCast_div]

theorem truncate_toRat_div_toRat (m n : ℤ) :
    truncate f (toRat f m / toRat f n) = (m * 2 ^ f).tdiv n := by
  rw [← truncate_div, toRat, toRat, div_div_div_cancel_right₀ (by positivity)]

theorem truncate_toRat_mul_toRat (m n : ℤ) :
    truncate f (toRat f m * toRat f n) = (m * n).tdiv (2 ^ f) := by
  have hcast : toRat f m * toRat f n = ((m * n : ℤ) : ℚ) / ((2 ^ f * 2 ^ f : ℤ)) := by
    push_cast
    rw [toRat, toRat, div_mul_div_comm]
  rw [hcast, truncate_div, Int.mul_tdiv_mul_of_pos_left _ _ (by positivity)]

end SeanetSim.FixedPoint
