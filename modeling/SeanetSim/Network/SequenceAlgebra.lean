import Mathlib.Data.BitVec
import Mathlib.Logic.Basic
import Mathlib.Tactic.Abel
import SeanetSim.Network.SequenceNumber

/-!
# Sequence numbers of any width

The class template `SequenceNumber` for numeric types of any number of bits.  Subtraction is that of
the residues (`sub_eq`), and the order agrees with the sign of the difference for all pairs but
those half the range apart, whose difference has no positive representative.
-/

namespace SeanetSim

/-- `SequenceNumber<NUMERIC_TYPE, SIGNED_TYPE>` for types of `w` bits.  A value of the signed type
is a bit vector too, in two's complement. -/
@[ext] structure SizedSequenceNumber (w : ℕ) where
  value : BitVec w
  deriving DecidableEq

namespace SizedSequenceNumber

variable {w : ℕ}

def maxValue (w : ℕ) : BitVec w := BitVec.allOnes w

def halfMaxValue (w : ℕ) : BitVec w := maxValue w / 2

def add (a : SizedSequenceNumber w) (delta : BitVec w) : SizedSequenceNumber w := ⟨a.value + delta⟩

/-- The difference of two sequence numbers; the casts to the signed type keep the bits. -/
def sub (a b : SizedSequenceNumber w) : BitVec w :=
  if b.value < a.value then
    let diff := a.value - b.value
    if diff < halfMaxValue w then diff else -(maxValue w - a.value + 1 + b.value)
  else
    let diff := b.value - a.value
    if diff < halfMaxValue w then -diff else maxValue w - b.value + 1 + a.value

def gt (a b : SizedSequenceNumber w) : Bool :=
  (decide (b.value < a.value) && decide (a.value - b.value ≤ halfMaxValue w)) ||
    (decide (a.value < b.value) && decide (halfMaxValue w < b.value - a.value))

def le (a b : SizedSequenceNumber w) : Bool := !gt a b

def ge (a b : SizedSequenceNumber w) : Bool := gt a b || a == b

def lt (a b : SizedSequenceNumber w) : Bool := !gt a b && a.value != b.value

variable {a b : SizedSequenceNumber w}

theorem maxValue_eq (w : ℕ) : maxValue w = -1 := BitVec.neg_one_eq_allOnes.symm

theorem sub_eq (a b : SizedSequenceNumber w) : a.sub b = a.value - b.value := by
  rw [sub, maxValue_eq]
  dsimp only
  split_ifs <;> abel

theorem add_sub (a b : SizedSequenceNumber w) : b.add (a.sub b) = a := by
  rw [add, sub_eq, add_sub_cancel]

theorem toNat_halfMaxValue (w : ℕ) : (halfMaxValue (w + 1)).toNat + 1 = 2 ^ w := by
  have hpos := Nat.two_pow_pos w
  rw [halfMaxValue, maxValue, BitVec.toNat_udiv, BitVec.toNat_allOnes]
  cases w with
  | zero => rfl
  | succ w =>
    have htwo : (2 : BitVec (w + 1 + 1)).toNat = 2 := by
      change 2 % 2 ^ (w + 1 + 1) = 2
      apply Nat.mod_eq_of_lt
      have := Nat.two_pow_pos w
      omega
    rw [htwo]
    omega

theorem gt_iff : a.gt b = true ↔
    (b.value.toNat < a.value.toNat ∧ a.value.toNat - b.value.toNat ≤ (halfMaxValue w).toNat) ∨
      (a.value.toNat < b.value.toNat ∧ (halfMaxValue w).toNat < b.value.toNat - a.value.toNat) := by
  simp only [gt, Bool.or_eq_true, Bool.and_eq_true, decide_eq_true_eq, BitVec.lt_def, BitVec.le_def]
  apply or_congr
  · apply and_congr_right
    intro hlt
    rw [BitVec.toNat_sub_of_le (BitVec.le_def.2 hlt.le)]
  · apply and_congr_right
    intro hlt
    rw [BitVec.toNat_sub_of_le (BitVec.le_def.2 hlt.le)]

theorem eq_iff : a = b ↔ a.value.toNat = b.value.toNat := by
  rw [SizedSequenceNumber.ext_iff, BitVec.toNat_inj]

theorem toInt_pos {x : BitVec w} : 0 < x.toInt ↔ 0 < x.toNat ∧ 2 * x.toNat < 2 ^ w := by
  have hlt := x.isLt
  rw [BitVec.toInt_eq_toNat_cond]
  split <;> omega

/-- Where the difference is positive, by the values. -/
theorem toInt_sub_pos {a b : SizedSequenceNumber (w + 1)} : 0 < (a.sub b).toInt ↔
    (b.value.toNat < a.value.toNat ∧ a.value.toNat - b.value.toNat < 2 ^ w) ∨
      (a.value.toNat < b.value.toNat ∧ 2 ^ w < b.value.toNat - a.value.toNat) := by
  have hb := b.value.isLt
  have hpow : 2 ^ (w + 1) = 2 * 2 ^ w := Nat.pow_succ'
  rw [sub_eq, toInt_pos]
  by_cases hle : b.value ≤ a.value
  · have hnat := BitVec.le_def.1 hle
    rw [BitVec.toNat_sub_of_le hle]
    omega
  · have hlt := BitVec.not_le.1 hle
    have hnat := BitVec.lt_def.1 hlt
    rw [BitVec.toNat_sub_of_lt hlt]
    omega

/-- `a` lies half the range below `b`. -/
def HalfBelow (a b : SizedSequenceNumber w) : Prop := a.value.toNat + 2 ^ (w - 1) = b.value.toNat

instance (a b : SizedSequenceNumber w) : Decidable (HalfBelow a b) :=
  inferInstanceAs (Decidable (_ = _))

theorem not_halfBelow_zero (a b : SizedSequenceNumber 0) : ¬ HalfBelow a b := by
  intro h
  have hb := b.value.isLt
  rw [HalfBelow] at h
  omega

theorem sub_of_halfBelow {a b : SizedSequenceNumber w} (h : HalfBelow a b) :
    b.sub a = BitVec.intMin w := by
  cases w with
  | zero => exact absurd h (not_halfBelow_zero a b)
  | succ w =>
    rw [HalfBelow, Nat.add_sub_cancel] at h
    have hle : a.value ≤ b.value := BitVec.le_def.2 (by omega)
    apply BitVec.eq_of_toNat_eq
    rw [sub_eq, BitVec.toNat_sub_of_le hle, BitVec.toNat_intMin, ← h, Nat.add_sub_cancel_left,
      Nat.add_sub_cancel, Nat.mod_eq_of_lt (Nat.pow_lt_pow_right (by decide) (Nat.lt_succ_self w))]

/-- Half the range apart the difference is the least value of the signed type, both ways. -/
theorem sub_eq_intMin {a b : SizedSequenceNumber w} (h : HalfBelow a b ∨ HalfBelow b a) :
    a.sub b = BitVec.intMin w := by
  rcases h with h | h
  · rw [sub_eq, ← neg_sub, ← sub_eq, sub_of_halfBelow h, BitVec.neg_intMin]
  · exact sub_of_halfBelow h

theorem gt_iff_sub_pos (a b : SizedSequenceNumber w) :
    a.gt b = true ↔ 0 < (a.sub b).toInt ∨ HalfBelow a b := by
  cases w with
  | zero =>
    obtain rfl : a = b := SizedSequenceNumber.ext (BitVec.eq_of_zero_length rfl)
    simp [gt_iff, sub_eq, not_halfBelow_zero]
  | succ w =>
    have hhalf := toNat_halfMaxValue w
    rw [gt_iff, toInt_sub_pos, HalfBelow, Nat.add_sub_cancel]
    omega

/-- `<` is the converse of `>`. -/
theorem lt_eq_gt (a b : SizedSequenceNumber w) : a.lt b = b.gt a := by
  have hne : (a.value != b.value) = true ↔ a.value.toNat ≠ b.value.toNat := by
    rw [bne_iff_ne, ne_eq, ← BitVec.toNat_inj]
  rw [Bool.eq_iff_iff, lt, Bool.and_eq_true, Bool.not_eq_true', ← Bool.not_eq_true, gt_iff, gt_iff,
    hne]
  omega

theorem trichotomy (a b : SizedSequenceNumber w) :
    (a.lt b = true ∧ a ≠ b ∧ a.gt b = false) ∨ (a.lt b = false ∧ a = b ∧ a.gt b = false) ∨
      (a.lt b = false ∧ a ≠ b ∧ a.gt b = true) := by
  have hself : a = b → a.gt b = false := by
    rintro rfl
    simp [gt]
  rw [lt]
  cases hgt : a.gt b with
  | true =>
    right
    right
    refine ⟨rfl, fun heq => ?_, rfl⟩
    simp [hself heq] at hgt
  | false =>
    by_cases heq : a = b
    · right
      left
      simp [heq]
    · left
      refine ⟨?_, heq, rfl⟩
      simpa [SizedSequenceNumber.ext_iff] using heq

/-- Addition undoes subtraction and `<`, `=` and `>` exclude each other.  `>` is the sign of the
difference, but for the number half the range below: that one is the greater, and the difference is
the least value of the signed type. -/
theorem sequence_algebra (a b : SizedSequenceNumber w) :
    b.add (a.sub b) = a ∧
    ((a.lt b = true ∧ a ≠ b ∧ a.gt b = false) ∨ (a.lt b = false ∧ a = b ∧ a.gt b = false) ∨
      (a.lt b = false ∧ a ≠ b ∧ a.gt b = true)) ∧
    (a.gt b = true ↔ 0 < (a.sub b).toInt ∨ HalfBelow a b) ∧
    (HalfBelow a b ∨ HalfBelow b a → a.sub b = BitVec.intMin w) :=
  ⟨add_sub a b, trichotomy a b, gt_iff_sub_pos a b, sub_eq_intMin⟩

/-- Number 0 is greater than the number half the range above it, with a negative difference. -/
theorem gt_with_negative_difference :
    (⟨0⟩ : SizedSequenceNumber 32).gt ⟨0x80000000⟩ = true ∧
      ((⟨0⟩ : SizedSequenceNumber 32).sub ⟨0x80000000⟩).toInt < 0 := by
  decide

/-! ### 32 bits -/

/-- `SequenceNumber32`. -/
def ofUInt32 (x : UInt32) : SizedSequenceNumber 32 := ⟨x.toBitVec⟩

@[simp] theorem value_ofUInt32 (x : UInt32) : (ofUInt32 x).value = x.toBitVec := rfl

theorem gt_ofUInt32 (x y : UInt32) : (ofUInt32 x).gt (ofUInt32 y) = SequenceNumber.gt x y := rfl

theorem lt_ofUInt32 (x y : UInt32) : (ofUInt32 x).lt (ofUInt32 y) = SequenceNumber.lt x y := by
  have hne : (x.toBitVec != y.toBitVec) = (x != y) := by
    rw [Bool.eq_iff_iff]
    simp [UInt32.toBitVec_inj]
  rw [lt, SequenceNumber.lt, gt_ofUInt32, value_ofUInt32, value_ofUInt32, hne]

/-- The differences agree but for the number half the range above, where the negation of the least
value overflows. -/
theorem toInt_sub_ofUInt32 {x y : UInt32} (h : ¬ HalfBelow (ofUInt32 y) (ofUInt32 x)) :
    ((ofUInt32 x).sub (ofUInt32 y)).toInt = SequenceNumber.sub x y := by
  have hx := x.toNat_lt
  have hy := y.toNat_lt
  have hhalf : y.toNat + 2 ^ 31 ≠ x.toNat := h
  have hup : ∀ u v : UInt32, (0xffffffff - u + 1 + v).toNat =
      (2 ^ 32 - u.toNat + v.toNat) % 2 ^ 32 := by
    intro u v
    have hu := u.toNat_lt
    rw [UInt32.toNat_add, UInt32.toNat_add, UInt32.toNat_sub,
      show UInt32.toNat 0xffffffff = 4294967295 from rfl, show UInt32.toNat 1 = 1 from rfl]
    omega
  change _ = if y < x then
      if x - y < 0x7fffffff then ((x - y).toNat : ℤ)
      else -SequenceNumber.signed (0xffffffff - x + 1 + y)
    else if y - x < 0x7fffffff then -((y - x).toNat : ℤ)
      else SequenceNumber.signed (0xffffffff - y + 1 + x)
  rw [sub_eq, value_ofUInt32, value_ofUInt32, BitVec.toInt_eq_toNat_cond, BitVec.toNat_sub]
  simp only [SequenceNumber.signed, UInt32.lt_iff_toNat_lt, hup, UInt32.toNat_sub,
    UInt32.toNat_toBitVec, show UInt32.toNat 0x7fffffff = 2147483647 from rfl]
  split_ifs <;> omega

end SizedSequenceNumber

end SeanetSim
