import Mathlib.Algebra.Order.Ring.Nat
import Mathlib.Tactic.Ring

/-!
# Long division in binary

A division under way keeps the digits of the quotient found so far and what remains.  Before the
next digits are found, the remainder may be doubled and an even divisor halved, each for one digit:
the part of the divisor that was halved away is common to both.
-/

namespace SeanetSim

/-- `digis` digits after the point are found, the next round gives `shift` more. -/
structure LongDivision where
  rem : ℕ
  den : ℕ
  result : ℕ
  digis : ℕ
  shift : ℕ

namespace LongDivision

/-- What is kept is the division of `a` by `b`. -/
def Exact (a b : ℕ) (s : LongDivision) : Prop :=
  ∃ scale, s.den * scale = b ∧
    a * 2 ^ (s.digis + s.shift) = s.result * 2 ^ s.shift * b + s.rem * scale

variable {a b : ℕ} {s : LongDivision}

theorem exact_start (a b : ℕ) : Exact a b ⟨a % b, b, a / b, 0, 0⟩ := by
  refine ⟨1, mul_one b, ?_⟩
  simpa using (Nat.div_add_mod' a b).symm

theorem Exact.double_rem (h : Exact a b s) :
    Exact a b { s with rem := s.rem * 2, shift := s.shift + 1 } := by
  obtain ⟨scale, hden, hval⟩ := h
  refine ⟨scale, hden, ?_⟩
  calc a * 2 ^ (s.digis + (s.shift + 1))
      = a * 2 ^ (s.digis + s.shift) * 2 := by rw [← add_assoc, pow_succ, mul_assoc]
    _ = (s.result * 2 ^ s.shift * b + s.rem * scale) * 2 := by rw [hval]
    _ = s.result * 2 ^ (s.shift + 1) * b + s.rem * 2 * scale := by ring

theorem Exact.halve_den (h : Exact a b s) (heven : s.den % 2 = 0) :
    Exact a b { s with den := s.den / 2, shift := s.shift + 1 } := by
  obtain ⟨scale, hden, hval⟩ := h
  have hhalf : s.den = s.den / 2 * 2 := by omega
  refine ⟨2 * scale, by rw [← mul_assoc, ← hhalf, hden], ?_⟩
  calc a * 2 ^ (s.digis + (s.shift + 1))
      = a * 2 ^ (s.digis + s.shift) * 2 := by rw [← add_assoc, pow_succ, mul_assoc]
    _ = (s.result * 2 ^ s.shift * b + s.rem * scale) * 2 := by rw [hval]
    _ = s.result * 2 ^ (s.shift + 1) * b + s.rem * (2 * scale) := by ring

theorem Exact.divide (h : Exact a b s) :
    Exact a b ⟨s.rem % s.den, s.den, s.result * 2 ^ s.shift + s.rem / s.den,
      s.digis + s.shift, 0⟩ := by
  obtain ⟨scale, hden, hval⟩ := h
  refine ⟨scale, hden, ?_⟩
  have hrem : s.rem = s.rem / s.den * s.den + s.rem % s.den := (Nat.div_add_mod' _ _).symm
  calc a * 2 ^ (s.digis + s.shift + 0)
      = s.result * 2 ^ s.shift * b + (s.rem / s.den * s.den + s.rem % s.den) * scale := by
        rw [← hrem, add_zero, hval]
    _ = s.result * 2 ^ s.shift * b + s.rem / s.den * (s.den * scale) + s.rem % s.den * scale := by
        ring
    _ = (s.result * 2 ^ s.shift + s.rem / s.den) * 2 ^ 0 * b + s.rem % s.den * scale := by
        rw [hden]
        ring

/-- The digits found are not more than the quotient. -/
theorem Exact.result_le (h : Exact a b s) (hb : 0 < b) :
    s.result ≤ a * 2 ^ s.digis / b := by
  obtain ⟨scale, -, hval⟩ := h
  rw [Nat.le_div_iff_mul_le hb]
  have hpos : 0 < 2 ^ s.shift := Nat.two_pow_pos _
  refine Nat.le_of_mul_le_mul_right ?_ hpos
  calc s.result * b * 2 ^ s.shift = s.result * 2 ^ s.shift * b := by ring
    _ ≤ a * 2 ^ (s.digis + s.shift) := hval ▸ Nat.le_add_right _ _
    _ = a * 2 ^ s.digis * 2 ^ s.shift := by rw [pow_add, mul_assoc]

/-- Between two rounds all digits found are those of the quotient. -/
theorem Exact.result_eq (h : Exact a b s) (hshift : s.shift = 0) (hlt : s.rem < s.den)
    (hb : 0 < b) : s.result = a * 2 ^ s.digis / b := by
  obtain ⟨scale, hden, hval⟩ := h
  have hscale : 0 < scale := Nat.pos_of_ne_zero fun h0 => by simp [h0] at hden; omega
  have hrest : s.rem * scale < b := hden ▸ Nat.mul_lt_mul_of_pos_right hlt hscale
  rw [hshift, add_zero, pow_zero, mul_one] at hval
  rw [hval, Nat.mul_comm, Nat.mul_add_div hb, Nat.div_eq_of_lt hrest, add_zero]

/-- Where nothing remains, all further digits are zero. -/
theorem Exact.result_eq_of_rem (h : Exact a b s) (hrem : s.rem = 0) (hb : 0 < b) {n : ℕ}
    (hn : s.digis ≤ n) : s.result * 2 ^ (n - s.digis) = a * 2 ^ n / b := by
  obtain ⟨scale, -, hval⟩ := h
  have hpos : 0 < 2 ^ s.shift := Nat.two_pow_pos _
  have hval : a * 2 ^ s.digis = s.result * b := by
    apply Nat.eq_of_mul_eq_mul_right hpos
    rw [mul_assoc, ← pow_add, hval, hrem]
    ring
  have hpow : 2 ^ n = 2 ^ s.digis * 2 ^ (n - s.digis) := by rw [← pow_add]; congr 1; omega
  rw [hpow, ← mul_assoc, hval, mul_right_comm, Nat.mul_div_cancel _ hb]

end LongDivision

end SeanetSim
