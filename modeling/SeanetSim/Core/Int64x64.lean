import Mathlib.Data.Int.Bitwise
import SeanetSim.Lib.FixedPoint

/-!
# The product of two Q64.64 numbers

`int64x64_t` over a native 128-bit integer.  A product or a quotient is computed on the magnitudes
of the operands, and the sign is put back afterwards.

The mask of the test for an overflow of the product is the complement of a 64-bit word of ones, so
that the test never fails and the product is reduced modulo 2^128: `mul_toInt`.
-/

namespace SeanetSim

open FixedPoint

/-- A Q64.64 fixed-point number. -/
structure Int64x64 where
  v : BitVec 128
deriving DecidableEq, Repr

namespace Int64x64

/-- The mask for the fraction part. -/
def hpMaskLo : BitVec 64 := 0xffffffffffffffff

/-- The mask for the sign and integer part. -/
def hpMaskHi : BitVec 64 := ~~~hpMaskLo

/-- Whether the result is negative, with the magnitudes of the operands. -/
def outputSign (sa sb : BitVec 128) : Bool × BitVec 128 × BitVec 128 :=
  let negA := sa.slt 0
  let negB := sb.slt 0
  let ua := if negA then -sa else sa
  let ub := if negB then -sb else sb
  ((negA && !negB) || (!negA && negB), ua, ub)

/-- The product of two magnitudes; `none` where the operation aborts. -/
def umul (a b : BitVec 128) : Option (BitVec 128) :=
  let aL := a &&& hpMaskLo.setWidth 128
  let bL := b &&& hpMaskLo.setWidth 128
  let aH := (a >>> 64) &&& hpMaskLo.setWidth 128
  let bH := (b >>> 64) &&& hpMaskLo.setWidth 128
  let loPart := aL * bL
  let midPart := aL * bH + aH * bL
  let hiPart := aH * bH
  if hiPart &&& hpMaskHi.setWidth 128 ≠ 0 then none
  else
    let res1 := loPart >>> 64
    let res2 := midPart &&& hpMaskLo.setWidth 128
    let result := res1 + res2
    let res1 := midPart >>> 64
    let res2 := hiPart &&& hpMaskLo.setWidth 128
    let res1 := res1 + res2
    let res1 := res1 <<< 64
    some (result + res1)

def mul (x o : Int64x64) : Option Int64x64 := do
  let (negative, a, b) := outputSign x.v o.v
  let result ← umul a b
  return ⟨if negative then -result else result⟩

/-- The number that the word stands for. -/
def toRat (x : Int64x64) : ℚ := FixedPoint.toRat 64 x.v.toInt

/-! ## Masks, magnitudes and signs -/

theorem toNat_and_hpMaskLo (a : BitVec 128) :
    (a &&& hpMaskLo.setWidth 128).toNat = a.toNat % 2 ^ 64 := by
  have hmask : (hpMaskLo.setWidth 128).toNat = 2 ^ 64 - 1 := by decide
  rw [BitVec.toNat_and, hmask, Nat.and_two_pow_sub_one_eq_mod]

theorem and_hpMaskHi (a : BitVec 128) : a &&& hpMaskHi.setWidth 128 = 0 := by
  have hmask : hpMaskHi.setWidth 128 = 0 := by decide
  rw [hmask]
  exact BitVec.and_zero

theorem toNat_magnitude (a : BitVec 128) :
    (if a.slt 0 then -a else a).toNat = a.toInt.natAbs := by
  have ha := a.isLt
  split
  · rename_i h
    have hneg : a.toInt < 0 := by simpa using BitVec.slt_iff_toInt_lt.1 h
    rw [BitVec.toInt_eq_toNat_cond] at hneg ⊢
    rw [BitVec.toNat_neg]
    split at hneg <;> omega
  · rename_i h
    have hneg : ¬ a.toInt < 0 := fun hlt => h (BitVec.slt_iff_toInt_lt.2 (by simpa using hlt))
    rw [BitVec.toInt_eq_toNat_cond] at hneg ⊢
    split at hneg <;> omega

theorem outputSign_toNat (sa sb : BitVec 128) :
    (outputSign sa sb).2.1.toNat = sa.toInt.natAbs ∧
      (outputSign sa sb).2.2.toNat = sb.toInt.natAbs :=
  ⟨toNat_magnitude sa, toNat_magnitude sb⟩

theorem outputSign_negative (sa sb : BitVec 128) :
    (outputSign sa sb).1 = (decide (sa.toInt < 0) != decide (sb.toInt < 0)) := by
  have hneg (a : BitVec 128) : a.slt 0 = decide (a.toInt < 0) := by
    simp [BitVec.slt]
  simp only [outputSign, hneg]
  cases decide (sa.toInt < 0) <;> cases decide (sb.toInt < 0) <;> rfl

theorem natAbs_toInt_le (a : BitVec 128) : a.toInt.natAbs ≤ 2 ^ 127 := by
  have ha := a.isLt
  rw [BitVec.toInt_eq_toNat_cond]
  split <;> omega

/-- A magnitude with its sign put back is the signed number, reduced to 128 bits. -/
theorem toInt_signed (negative : Bool) (n : ℕ) :
    (if negative then -BitVec.ofNat 128 n else BitVec.ofNat 128 n).toInt =
      (if negative then -(n : ℤ) else n).bmod (2 ^ 128) := by
  have hword : (BitVec.ofNat 128 n).toInt = (n : ℤ).bmod (2 ^ 128) := BitVec.toInt_ofNat n
  cases negative
  · exact hword
  · rw [if_pos rfl, if_pos rfl, BitVec.toInt_neg, hword, Int.bmod_neg_bmod]

theorem mul_eq_signed (m n : ℤ) :
    m * n = if decide (m < 0) != decide (n < 0) then -((m.natAbs * n.natAbs : ℕ) : ℤ)
      else (m.natAbs * n.natAbs : ℕ) := by
  push_cast
  rcases lt_or_ge m 0 with hm | hm <;> rcases lt_or_ge n 0 with hn | hn <;>
    simp [hm, hn, abs_of_neg, abs_of_nonneg, not_lt.2]

theorem signed_tdiv (negative : Bool) (m k : ℕ) :
    (if negative then -(m : ℤ) else m).tdiv k =
      if negative then -((m / k : ℕ) : ℤ) else (m / k : ℕ) := by
  cases negative <;> simp

/-! ## The product -/

theorem umul_eq (a b : BitVec 128) (ha : a.toNat ≤ 2 ^ 127) (hb : b.toNat ≤ 2 ^ 127) :
    umul a b = some (BitVec.ofNat 128 (a.toNat * b.toNat / 2 ^ 64)) := by
  unfold umul
  simp only [and_hpMaskHi, ne_eq, not_true_eq_false, if_false, Option.some.injEq]
  apply BitVec.eq_of_toNat_eq
  simp only [BitVec.toNat_add, BitVec.toNat_mul, BitVec.toNat_shiftLeft, BitVec.toNat_ushiftRight,
    toNat_and_hpMaskLo, BitVec.toNat_ofNat, Nat.shiftRight_eq_div_pow, Nat.shiftLeft_eq]
  have hA : a.toNat = a.toNat / 2 ^ 64 * 2 ^ 64 + a.toNat % 2 ^ 64 := by omega
  have hB : b.toNat = b.toNat / 2 ^ 64 * 2 ^ 64 + b.toNat % 2 ^ 64 := by omega
  have haL : a.toNat % 2 ^ 64 ≤ 2 ^ 64 - 1 := by omega
  have hbL : b.toNat % 2 ^ 64 ≤ 2 ^ 64 - 1 := by omega
  have haH : a.toNat / 2 ^ 64 ≤ 2 ^ 63 := by omega
  have hbH : b.toNat / 2 ^ 64 ≤ 2 ^ 63 := by omega
  generalize a.toNat / 2 ^ 64 = aH, a.toNat % 2 ^ 64 = aL at *
  generalize b.toNat / 2 ^ 64 = bH, b.toNat % 2 ^ 64 = bL at *
  have hprod : a.toNat * b.toNat =
      aH * bH * 2 ^ 64 * 2 ^ 64 + (aL * bH + aH * bL) * 2 ^ 64 + aL * bL := by
    rw [hA, hB]
    ring
  -- no partial product and no sum of them leaves 128 bits
  have hlo : aL * bL ≤ (2 ^ 64 - 1) * (2 ^ 64 - 1) := Nat.mul_le_mul haL hbL
  have hmid : aL * bH ≤ (2 ^ 64 - 1) * 2 ^ 63 := Nat.mul_le_mul haL hbH
  have hmid' : aH * bL ≤ 2 ^ 63 * (2 ^ 64 - 1) := Nat.mul_le_mul haH hbL
  have hhi : aH * bH ≤ 2 ^ 63 * 2 ^ 63 := Nat.mul_le_mul haH hbH
  rw [hprod, Nat.mod_eq_of_lt (a := aH) (by omega), Nat.mod_eq_of_lt (a := bH) (by omega)]
  generalize aL * bL = lo, aL * bH = mid, aH * bL = mid', aH * bH = hi at *
  omega

/-- The product is the true one, truncated, in 128 bits. -/
theorem mul_toInt (x o : Int64x64) :
    ∃ r, x.mul o = some r ∧
      r.v.toInt = (truncate 64 (x.toRat * o.toRat)).bmod (2 ^ 128) := by
  obtain ⟨ha, hb⟩ := outputSign_toNat x.v o.v
  have hmul := umul_eq _ _ (ha.trans_le (natAbs_toInt_le x.v)) (hb.trans_le (natAbs_toInt_le o.v))
  rw [ha, hb] at hmul
  refine ⟨⟨if (outputSign x.v o.v).1 then _ else _⟩, congrArg (Option.bind · _) hmul, ?_⟩
  rw [toInt_signed, outputSign_negative, toRat, toRat, truncate_toRat_mul_toRat, mul_eq_signed]
  have hcast : (2 ^ 64 : ℤ) = (2 ^ 64 : ℕ) := by norm_num
  rw [hcast, signed_tdiv]

/-! ## When the product is the one that was meant -/

/-- The word that stands for the true product, truncated toward zero, has 128 bits. -/
def ProductFits (x o : Int64x64) : Prop :=
  -(2 : ℤ) ^ 191 - 2 ^ 64 < x.v.toInt * o.v.toInt ∧ x.v.toInt * o.v.toInt < 2 ^ 191

instance (x o : Int64x64) : Decidable (ProductFits x o) :=
  inferInstanceAs (Decidable (_ ∧ _))

theorem bmod_eq_self_iff (n : ℤ) :
    n.bmod (2 ^ 128) = n ↔ -(2 : ℤ) ^ 127 ≤ n ∧ n < 2 ^ 127 := by
  rw [Int.bmod_eq_iff (by decide)]
  omega

theorem productFits_iff (x o : Int64x64) :
    ProductFits x o ↔ -(2 : ℤ) ^ 127 ≤ truncate 64 (x.toRat * o.toRat) ∧
      truncate 64 (x.toRat * o.toRat) < 2 ^ 127 := by
  rw [ProductFits, toRat, toRat, truncate_toRat_mul_toRat]
  generalize x.v.toInt * o.v.toInt = p
  rcases Int.le_total 0 p with hp | hp
  · rw [Int.tdiv_eq_ediv_of_nonneg hp]
    omega
  · obtain ⟨q, rfl⟩ : ∃ q, p = -q := ⟨-p, by omega⟩
    rw [Int.neg_tdiv, Int.tdiv_eq_ediv_of_nonneg (by omega)]
    omega

/-- The operation returns the true product, truncated toward zero to 64 fractional bits, or aborts
where the product does not fit. -/
def MulExactOrAborts (x o : Int64x64) : Prop :=
  (∃ r, x.mul o = some r ∧ r.v.toInt = truncate 64 (x.toRat * o.toRat)) ∨
    (x.mul o = none ∧ ¬ ProductFits x o)

theorem mulExactOrAborts_iff (x o : Int64x64) : MulExactOrAborts x o ↔ ProductFits x o := by
  obtain ⟨r, hr, hval⟩ := mul_toInt x o
  have hexact : MulExactOrAborts x o ↔ r.v.toInt = truncate 64 (x.toRat * o.toRat) := by
    simp [MulExactOrAborts, hr]
  rw [hexact, hval, bmod_eq_self_iff, productFits_iff]

/-- The square of 2^32 is computed as zero. -/
theorem mul_wraps : ¬ MulExactOrAborts ⟨1#128 <<< 96⟩ ⟨1#128 <<< 96⟩ := by
  have hmul : mul ⟨1#128 <<< 96⟩ ⟨1#128 <<< 96⟩ = some ⟨0⟩ := by decide
  have htrue : truncate 64 (toRat ⟨1#128 <<< 96⟩ * toRat ⟨1#128 <<< 96⟩) = 2 ^ 128 := by
    rw [toRat, truncate_toRat_mul_toRat]
    decide
  simp only [MulExactOrAborts, hmul, htrue]
  decide

end Int64x64

end SeanetSim
