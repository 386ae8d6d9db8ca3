import SeanetSim.Core.Int64x64Div

/-!
# Division by a precomputed inverse

`Invert` rounds 2^128 / v down and then asks whether the product of `v` with the result has reached
one.  If it has not, or if `v` does not fit a signed word, the inverse is increased by one.  So it
is exact or too large by at most one unit in the last place, and a product with an integer below
2^63 does not reach the next integer.
-/

namespace SeanetSim

namespace Int64x64

def umulByInvert (a b : BitVec 128) : BitVec 128 :=
  let ah := a >>> 64
  let bh := b >>> 64
  let al := a &&& hpMaskLo.setWidth 128
  let bl := b &&& hpMaskLo.setWidth 128
  let hi := ah * bh
  let mid := ah * bl + al * bh
  let mid := mid >>> 64
  hi + mid

def mulByInvert (x o : Int64x64) : Int64x64 :=
  let negResult := x.v.slt 0
  let a := if negResult then -x.v else x.v
  let result := umulByInvert a o.v
  ⟨if negResult then -result else result⟩

/-- The number with an integer and a fraction part. -/
def ofParts (hi lo : BitVec 64) : Int64x64 := ⟨(hi.signExtend 128 <<< 64) ||| lo.setWidth 128⟩

def ofLong (x : BitVec 64) : Int64x64 := ⟨x.signExtend 128 <<< 64⟩

/-- The integer part. -/
def getHigh (x : Int64x64) : BitVec 64 := (x.v.sshiftRight 64).setWidth 64

def invert (turns : ℕ) (v : BitVec 64) : Option Int64x64 :=
  if ¬ 1 < v.toNat then none
  else do
    let result : Int64x64 := ⟨← udiv turns (1#128 <<< 64) (v.setWidth 128)⟩
    let tmp := (ofParts v 0).mulByInvert result
    if tmp.getHigh ≠ 1 then return ⟨result.v + 1⟩
    else return result

/-! ## The product with an inverse -/

/-- Where the first factor is an integer, nothing but the fraction of the product is dropped. -/
theorem toNat_umulByInvert {a : BitVec 128} (b : BitVec 128) {n : ℕ} (hn : n ≤ 2 ^ 63)
    (ha : a.toNat = n * 2 ^ 64) : (umulByInvert a b).toNat = n * b.toNat / 2 ^ 64 := by
  unfold umulByInvert
  have hb := b.isLt
  simp only [BitVec.toNat_add, BitVec.toNat_mul, BitVec.toNat_ushiftRight, toNat_and_hpMaskLo,
    Nat.shiftRight_eq_div_pow, ha]
  have hhigh : n * 2 ^ 64 / 2 ^ 64 = n := Nat.mul_div_cancel _ (Nat.two_pow_pos _)
  have hlow : n * 2 ^ 64 % 2 ^ 64 = 0 := Nat.mul_mod_left _ _
  have hB : b.toNat = b.toNat / 2 ^ 64 * 2 ^ 64 + b.toNat % 2 ^ 64 := by omega
  have hbH : b.toNat / 2 ^ 64 ≤ 2 ^ 64 - 1 := by omega
  have hbL : b.toNat % 2 ^ 64 ≤ 2 ^ 64 - 1 := by omega
  generalize b.toNat / 2 ^ 64 = bH, b.toNat % 2 ^ 64 = bL at *
  have hprod : n * b.toNat = n * bH * 2 ^ 64 + n * bL := by
    rw [hB]
    ring
  have hhi : n * bH ≤ 2 ^ 63 * (2 ^ 64 - 1) := Nat.mul_le_mul hn hbH
  have hmid : n * bL ≤ 2 ^ 63 * (2 ^ 64 - 1) := Nat.mul_le_mul hn hbL
  rw [hhigh, hlow, hprod, Nat.zero_mul]
  generalize n * bH = hi, n * bL = mid at *
  omega

theorem toNat_ofLong (x : BitVec 64) : (ofLong x).v.toNat = x.toNat * 2 ^ 64 := by
  have hx := x.isLt
  rw [ofLong, BitVec.toNat_shiftLeft, Nat.shiftLeft_eq, BitVec.toNat_signExtend,
    BitVec.toNat_setWidth]
  split <;> omega

theorem toInt_getHigh (x : Int64x64) : x.getHigh.toInt = x.v.toInt / 2 ^ 64 := by
  have hx := x.v.isLt
  have hshift : (x.v.sshiftRight 64).toInt = x.v.toInt / 2 ^ 64 := by
    rw [BitVec.toInt_sshiftRight, Int.shiftRight_eq_div_pow]
    rfl
  have hrange : -(2 : ℤ) ^ 127 ≤ x.v.toInt ∧ x.v.toInt < 2 ^ 127 := by
    rw [BitVec.toInt_eq_toNat_cond]
    split <;> omega
  rw [getHigh, BitVec.toInt_setWidth, Int.bmod_eq_iff (by decide), ← hshift,
    BitVec.toInt_eq_toNat_cond]
  rw [BitVec.toInt_eq_toNat_cond] at hshift
  split at hshift <;> split <;> omega

theorem toInt_of_lt {a : BitVec 128} (ha : a.toNat < 2 ^ 127) : a.toInt = a.toNat :=
  BitVec.toInt_eq_toNat_of_lt (by omega)

/-- The product of an integer below 2^63 with an inverse. -/
theorem toNat_mulByInvert {x : BitVec 64} (hx : x.toNat < 2 ^ 63) (o : Int64x64) :
    ((ofLong x).mulByInvert o).v.toNat = x.toNat * o.v.toNat / 2 ^ 64 := by
  have hword := toNat_ofLong x
  have hsign : (ofLong x).v.slt 0 = false := by
    have hzero : (0 : BitVec 128).toInt = 0 := BitVec.toInt_zero
    rw [BitVec.slt, toInt_of_lt (by omega), hzero]
    exact decide_eq_false (Int.not_lt.2 (Int.natCast_nonneg _))
  simp only [mulByInvert, hsign]
  exact toNat_umulByInvert o.v hx.le hword

/-- A divisor that does not fit a signed word is taken for a negative number. -/
theorem getHigh_mulByInvert_le {x : BitVec 64} (hx : 2 ^ 63 ≤ x.toNat) (o : Int64x64) :
    ((ofLong x).mulByInvert o).getHigh.toInt ≤ 0 := by
  have hword := toNat_ofLong x
  have hlt := x.isLt
  have hsign : (ofLong x).v.slt 0 = true := by
    rw [BitVec.slt_iff_toInt_lt, BitVec.toInt_eq_toNat_cond, if_neg (by omega)]
    change _ < (0 : ℤ)
    omega
  have hmag : (-(ofLong x).v).toNat = (2 ^ 64 - x.toNat) * 2 ^ 64 := by
    rw [BitVec.toNat_neg, hword]
    omega
  have hres := toNat_umulByInvert o.v (by omega) hmag
  have hsmall : (umulByInvert (-(ofLong x).v) o.v).toNat < 2 ^ 127 := by
    have hprod : (2 ^ 64 - x.toNat) * o.v.toNat ≤ 2 ^ 63 * (2 ^ 128 - 1) :=
      Nat.mul_le_mul (by omega) (by have := o.v.isLt; omega)
    omega
  rw [toInt_getHigh]
  simp only [mulByInvert, hsign, if_true, BitVec.toInt_neg, toInt_of_lt hsmall]
  generalize (umulByInvert (-(ofLong x).v) o.v).toNat = r at hsmall
  rw [Int.bmod_eq_of_le (by omega) (by omega)]
  omega

/-! ## The inverse -/

/-- An inverse that is exact, or too large by at most one unit in the last place. -/
structure IsInverse (v inv : ℕ) : Prop where
  le : 2 ^ 128 ≤ v * inv
  lt : v * inv ≤ 2 ^ 128 + v

theorem IsInverse.div_eq {v inv x : ℕ} (h : IsInverse v inv) (hv : 0 < v) (hv' : v < 2 ^ 64)
    (hx : x < 2 ^ 63) : x * inv / 2 ^ 64 / 2 ^ 64 = x / v := by
  have hbelow : x / v * v ≤ x := Nat.div_mul_le_self x v
  have habove : x + 1 ≤ (x / v + 1) * v := mul_comm v _ ▸ Nat.lt_mul_div_succ x hv
  rw [Nat.div_div_eq_div_mul]
  apply Nat.div_eq_of_lt_le
  · calc x / v * (2 ^ 64 * 2 ^ 64) ≤ x / v * (v * inv) := Nat.mul_le_mul_left _ h.le
      _ = x / v * v * inv := (mul_assoc ..).symm
      _ ≤ x * inv := Nat.mul_le_mul_right _ hbelow
  · -- the rounding error is smaller than the distance to the next integer
    have herror : x * v < 2 ^ 128 :=
      calc x * v ≤ 2 ^ 63 * 2 ^ 64 := Nat.mul_le_mul hx.le hv'.le
        _ < 2 ^ 128 := by norm_num
    apply Nat.lt_of_mul_lt_mul_left (a := v)
    calc v * (x * inv) = x * (v * inv) := mul_left_comm ..
      _ ≤ x * (2 ^ 128 + v) := Nat.mul_le_mul_left _ h.lt
      _ < (x + 1) * 2 ^ 128 := by rw [mul_add, add_mul]; omega
      _ ≤ (x / v + 1) * v * 2 ^ 128 := Nat.mul_le_mul_right _ habove
      _ = v * ((x / v + 1) * (2 ^ 64 * 2 ^ 64)) := by ring

/-- The inverse rounded down. -/
theorem udiv_inverse {v : BitVec 64} (hv : 2 ≤ v.toNat) {turns : ℕ} (hturns : digits ≤ turns) :
    ∃ q, udiv turns (1#128 <<< 64) (v.setWidth 128) = some q ∧ q.toNat = 2 ^ 128 / v.toNat := by
  have hlt := v.isLt
  have hword : (v.setWidth 128).toNat = v.toNat := by
    rw [BitVec.toNat_setWidth, Nat.mod_eq_of_lt (by omega)]
  have hone : (1#128 <<< 64).toNat * 2 ^ digits = 2 ^ 128 := by decide
  have hle : 2 ^ 128 / v.toNat ≤ 2 ^ 127 := by
    rw [Nat.div_le_iff_le_mul_add_pred (by omega)]
    omega
  refine ⟨_, udiv_eq (by omega) (by omega) (by rw [hone, hword]; omega) hturns, ?_⟩
  rw [hone, hword, BitVec.toNat_ofNat, Nat.mod_eq_of_lt (by omega)]

/-- The self-test passes only for an inverse that was exact already. -/
theorem mul_eq_of_getHigh {v : BitVec 64} {q : Int64x64} (hle : v.toNat * q.v.toNat ≤ 2 ^ 128)
    (hone : ((ofLong v).mulByInvert q).getHigh = 1) : v.toNat * q.v.toNat = 2 ^ 128 := by
  have hone : ((ofLong v).mulByInvert q).getHigh.toInt = 1 := by
    rw [hone]
    decide
  have hsmall : v.toNat < 2 ^ 63 := by
    by_contra hbig
    have hneg := getHigh_mulByInvert_le (not_lt.1 hbig) q
    omega
  have hprod := toNat_mulByInvert hsmall q
  rw [toInt_getHigh, toInt_of_lt (by omega), hprod] at hone
  omega

theorem invert_isInverse {v : BitVec 64} (hv : 2 ≤ v.toNat) {turns : ℕ} (hturns : digits ≤ turns) :
    ∃ inv, invert turns v = some inv ∧ IsInverse v.toNat inv.v.toNat := by
  obtain ⟨q, hq, hval⟩ := udiv_inverse hv hturns
  have hmod := Nat.div_add_mod (2 ^ 128) v.toNat
  have hrest : 2 ^ 128 % v.toNat < v.toNat := Nat.mod_lt _ (by omega)
  have hle : v.toNat * q.toNat ≤ 2 ^ 128 := hval ▸ Nat.mul_div_le _ _
  have hparts : ofParts v 0 = ofLong v := by simp [ofParts, ofLong]
  rw [invert, if_neg (by omega), hq, Option.bind_eq_bind, Option.bind_some]
  dsimp only
  rw [hparts]
  split
  · refine ⟨_, rfl, ?_⟩
    have hhalf : 2 ^ 128 / v.toNat ≤ 2 ^ 128 / 2 := Nat.div_le_div_left hv (by decide)
    have hsucc : (q + 1).toNat = 2 ^ 128 / v.toNat + 1 := by
      rw [BitVec.toNat_add, hval]
      exact Nat.mod_eq_of_lt (by change _ + 1 < _; omega)
    constructor <;> rw [hsucc, mul_add] <;> omega
  · rename_i hhigh
    have hexact := mul_eq_of_getHigh (q := ⟨q⟩) hle (not_ne_iff.1 hhigh)
    exact ⟨⟨q⟩, rfl, hexact.ge, by omega⟩

/-- The division by a precomputed inverse is exact, for every divisor that has one. -/
theorem getHigh_mulByInvert {v x : BitVec 64} (hv : 2 ≤ v.toNat) (hx : x.toNat < 2 ^ 63)
    (turns : ℕ) (hturns : digits ≤ turns) :
    ∃ inv, invert turns v = some inv ∧
      ((ofLong x).mulByInvert inv).getHigh.toInt = x.toNat / v.toNat := by
  obtain ⟨inv, hinv, hexact⟩ := invert_isInverse hv hturns
  refine ⟨inv, hinv, ?_⟩
  have hdiv := hexact.div_eq (by omega) v.isLt hx
  have hprod := toNat_mulByInvert hx inv
  have hle : x.toNat / v.toNat ≤ x.toNat := Nat.div_le_self _ _
  rw [toInt_getHigh, toInt_of_lt (by omega), hprod]
  exact_mod_cast hdiv

theorem getHigh_ten_thirds : ∃ inv, invert digits 3 = some inv ∧
    ((ofLong 10).mulByInvert inv).getHigh.toInt = 3 :=
  getHigh_mulByInvert (v := 3) (x := 10) (by decide) (by decide) digits le_rfl

end Int64x64

end SeanetSim
