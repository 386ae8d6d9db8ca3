import Mathlib.Data.BitVec
import Mathlib.Logic.Basic
import Mathlib.Tactic.Abel

/-!
# Lollipop counters

A counter starts in the upper half of its type, the linear region, and goes round in the lower half,
the circular region.  Two counters of one region are compared as serial numbers, two counters of
different regions by the distance that the lower one has gone from the other; `Greater` is the order
on the values as natural numbers.
-/

namespace SeanetSim

/-- `LollipopCounter<T>` for an unsigned type of `w` bits. -/
structure LollipopCounter (w : ℕ) where
  value : BitVec w
  sequenceWindow : BitVec w

namespace LollipopCounter

variable {w : ℕ}

def maxValue (w : ℕ) : BitVec w := BitVec.allOnes w

def circularRegion (w : ℕ) : BitVec w := maxValue w >>> 1

/-- `1 << numberOfBits`, where 1 is a 32-bit `int`, converted to the type of the counter; longer
shifts are undefined. -/
def shiftedOne (w numberOfBits : ℕ) : Option (BitVec w) :=
  if numberOfBits < 32 then some ((1#32 <<< numberOfBits).signExtend w) else none

def reset (c : LollipopCounter w) : LollipopCounter w :=
  { c with value := maxValue w - c.sequenceWindow + 1 }

/-- The constructor with the default initial value. -/
def create (w : ℕ) : Option (LollipopCounter w) :=
  (shiftedOne w (w / 2)).map fun window => ⟨maxValue w - window + 1, window⟩

/-- The constructor with an initial value. -/
def ofValue (val : BitVec w) : Option (LollipopCounter w) :=
  (shiftedOne w (w / 2)).map fun window => ⟨val, window⟩

/-- The assignment, which copies the value only. -/
def assign (c o : LollipopCounter w) : LollipopCounter w := { c with value := o.value }

/-- `none` where the size is not less than that of the type, and where the shift is undefined. -/
def setSequenceWindowSize (c : LollipopCounter w) (numberOfBits : ℕ) : Option (LollipopCounter w) :=
  if numberOfBits ≥ w then none
  else (shiftedOne w numberOfBits).map fun window => { c with sequenceWindow := window }.reset

/-- `std::max`. -/
def stdMax (x y : BitVec w) : BitVec w := if x < y then y else x

/-- `std::min`. -/
def stdMin (x y : BitVec w) : BitVec w := if y < x then y else x

def absoluteMagnitudeOfDifference (c val : LollipopCounter w) : BitVec w :=
  let absDiffDirect := stdMax c.value val.value - stdMin c.value val.value
  let absDiffWrapped := stdMin c.value val.value + circularRegion w + 1 - stdMax c.value val.value
  stdMin absDiffDirect absDiffWrapped

/-- Both counters are in the circular region, or both are not. -/
def sameRegion (c val : LollipopCounter w) : Bool :=
  (decide (c.value ≤ circularRegion w) && decide (val.value ≤ circularRegion w)) ||
    (decide (c.value > circularRegion w) && decide (val.value > circularRegion w))

/-- `none` where the program aborts, as the windows differ. -/
def isComparable (c val : LollipopCounter w) : Option Bool :=
  if c.sequenceWindow ≠ val.sequenceWindow then none
  else if c.sameRegion val then
    if c.absoluteMagnitudeOfDifference val > c.sequenceWindow then some false else some true
  else some true

def eq (lhs rhs : LollipopCounter w) : Option Bool :=
  if lhs.sequenceWindow ≠ rhs.sequenceWindow then none else some (lhs.value == rhs.value)

def gt (lhs rhs : LollipopCounter w) : Option Bool :=
  if lhs.sequenceWindow ≠ rhs.sequenceWindow then none
  else if lhs.value = rhs.value then some false
  else if lhs.sameRegion rhs then
    let absDiff := lhs.absoluteMagnitudeOfDifference rhs
    if absDiff > lhs.sequenceWindow then some false
    else
      let serialRegion := (circularRegion w >>> 1) + 1
      some ((decide (lhs.value < rhs.value) && decide (rhs.value - lhs.value > serialRegion)) ||
        (decide (lhs.value > rhs.value) && decide (lhs.value - rhs.value < serialRegion)))
  else
    let lhsIsHigher :=
      decide (lhs.value > circularRegion w) && decide (rhs.value ≤ circularRegion w)
    let difference := if lhsIsHigher then lhs.value - rhs.value else rhs.value - lhs.value
    let distance := maxValue w - difference + 1
    if distance > lhs.sequenceWindow then some lhsIsHigher else some !lhsIsHigher

def lt (lhs rhs : LollipopCounter w) : Option Bool := do
  if ← lhs.isComparable rhs then
    if ← lhs.gt rhs then some false
    else if ← lhs.eq rhs then some false
    else some true
  else some false

/-- The prefix operator `++`. -/
def incr (val : LollipopCounter w) : LollipopCounter w :=
  if val.value + 1 = circularRegion w + 1 then { val with value := 0 }
  else { val with value := val.value + 1 }

/-! ### The order on the values

`C` is the size of a region, half of the size of the type, and `S` the window. -/

section Values

variable {C S x y m n : ℕ}

def SameRegion (C x y : ℕ) : Prop := x < C ∧ y < C ∨ C ≤ x ∧ C ≤ y

/-- How far two values of a region are from each other, on the circle. -/
def gap (C x y : ℕ) : ℕ := Min.min (Max.max x y - Min.min x y) (C - (Max.max x y - Min.min x y))

def Comparable (C S x y : ℕ) : Prop := SameRegion C x y → gap C x y ≤ S

def Greater (C S x y : ℕ) : Prop :=
  (SameRegion C x y ∧ gap C x y ≤ S ∧
      (x < y ∧ (C - 1) / 2 + 1 < y - x ∨ y < x ∧ x - y < (C - 1) / 2 + 1)) ∨
    (y < C ∧ C ≤ x ∧ S < 2 * C - (x - y)) ∨ (x < C ∧ C ≤ y ∧ 2 * C - (y - x) ≤ S)

instance : Decidable (SameRegion C x y) := inferInstanceAs (Decidable (_ ∨ _))

instance : Decidable (Comparable C S x y) := inferInstanceAs (Decidable (_ → _))

instance : Decidable (Greater C S x y) := inferInstanceAs (Decidable (_ ∨ _ ∨ _))

theorem gap_comm (C x y : ℕ) : gap C x y = gap C y x := by
  rw [gap, gap, max_comm x y, min_comm x y]

theorem gap_of_lt (h : x < y) : gap C x y = Min.min (y - x) (C - (y - x)) := by
  rw [gap, max_eq_right h.le, min_eq_left h.le]

theorem sameRegion_comm : SameRegion C x y ↔ SameRegion C y x := by
  rw [SameRegion, SameRegion, and_comm (a := x < C), and_comm (a := C ≤ x)]

theorem not_greater_self (C S x : ℕ) : ¬ Greater C S x x := by
  rw [Greater]
  omega

theorem not_sameRegion_iff : ¬ SameRegion C x y ↔ y < C ∧ C ≤ x ∨ x < C ∧ C ≤ y := by
  rw [SameRegion]
  omega

theorem greater_of_not_sameRegion (h : ¬ SameRegion C x y) : Greater C S x y ↔
    if y < x then S < 2 * C - (x - y) else ¬ S < 2 * C - (y - x) := by
  rw [Greater]
  rcases not_sameRegion_iff.1 h with ⟨hy, hx⟩ | ⟨hx, hy⟩
  · have hnot : ¬ x < C := Nat.not_lt.2 hx
    rw [if_pos (hy.trans_le hx)]
    simp only [h, hy, hx, hnot, true_and, false_and, false_or, or_false]
  · have hnot : ¬ y < C := Nat.not_lt.2 hy
    rw [if_neg (Nat.not_lt.2 (hx.trans_le hy).le)]
    simp only [h, hy, hx, hnot, true_and, false_and, false_or, not_lt]

/-- In one region it is the distance that counts. -/
theorem greater_iff_of_sameRegion (hsame : SameRegion C x y) : Greater C S x y ↔
    gap C x y ≤ S ∧ (x < y ∧ (C - 1) / 2 + 1 < y - x ∨ y < x ∧ x - y < (C - 1) / 2 + 1) := by
  have hregions := not_or.1 (mt not_sameRegion_iff.2 (not_not.2 hsame))
  constructor
  · rintro (⟨-, hserial⟩ | ⟨hy, hx, -⟩ | ⟨hx, hy, -⟩)
    · exact hserial
    · exact absurd ⟨hy, hx⟩ hregions.1
    · exact absurd ⟨hx, hy⟩ hregions.2
  · exact fun hserial => Or.inl ⟨hsame, hserial⟩

theorem greater_of_sameRegion (hsame : SameRegion C x y) (hlt : x < y) :
    (Greater C S x y ↔ gap C x y ≤ S ∧ (C - 1) / 2 + 1 < y - x) ∧
      (Greater C S y x ↔ gap C x y ≤ S ∧ y - x < (C - 1) / 2 + 1) := by
  have hnot : ¬ y < x := Nat.not_lt.2 hlt.le
  rw [greater_iff_of_sameRegion hsame, greater_iff_of_sameRegion (sameRegion_comm.1 hsame),
    gap_comm C y x]
  simp only [hlt, hnot, true_and, false_and, or_false, false_or, and_self]

theorem greater_iff_not_of_lt (hC : C % 2 = 0) (hS : 2 * S < C) (hsame : SameRegion C x y)
    (hlt : x < y) (hgap : gap C x y ≤ S) : Greater C S x y ↔ ¬ Greater C S y x := by
  obtain ⟨hxy, hyx⟩ := greater_of_sameRegion (S := S) hsame hlt
  have hhalf : (C - 1) / 2 + 1 = C / 2 := by omega
  have hne : y - x ≠ C / 2 := by
    intro heq
    rw [gap_of_lt hlt, heq] at hgap
    omega
  rw [hxy, hyx, hhalf]
  simp only [hgap, true_and, not_lt]
  exact ⟨le_of_lt, fun hle => lt_of_le_of_ne hle hne.symm⟩

/-- Where the window is less than half the region, comparable values are ordered one way. -/
theorem greater_iff_not (hC : C % 2 = 0) (hS : 2 * S < C) (hne : x ≠ y)
    (hcmp : Comparable C S x y) : Greater C S x y ↔ ¬ Greater C S y x := by
  by_cases hsame : SameRegion C x y
  · have hgap := hcmp hsame
    rcases Nat.lt_or_gt_of_ne hne with hlt | hlt
    · exact greater_iff_not_of_lt hC hS hsame hlt hgap
    · rw [gap_comm] at hgap
      exact iff_not_comm.1 (greater_iff_not_of_lt hC hS (sameRegion_comm.1 hsame) hlt hgap)
  · rw [greater_of_not_sameRegion hsame, greater_of_not_sameRegion (mt sameRegion_comm.1 hsame)]
    rcases Nat.lt_or_gt_of_ne hne with hlt | hlt
    · rw [if_neg (Nat.not_lt.2 hlt.le), if_pos hlt]
    · rw [if_pos hlt, if_neg (Nat.not_lt.2 hlt.le), not_not]

/-- In a window of half the region or more no one of these two values is the greater one. -/
theorem not_greater_half (hC : C % 2 = 0) :
    ¬ Greater C S 0 (C / 2) ∧ ¬ Greater C S (C / 2) 0 := by
  rw [Greater, Greater]
  simp only [SameRegion]
  omega

/-- The value after the next increment. -/
def next (C x : ℕ) : ℕ := if x + 1 = C then 0 else (x + 1) % (2 * C)

/-- The value after so many increments from the first one. -/
def after (C S m : ℕ) : ℕ := if m < S then 2 * C - S + m else (m - S) % C

theorem next_after (hS : 0 < S) (hle : S ≤ C) (m : ℕ) :
    next C (after C S m) = after C S (m + 1) := by
  rw [next, after, after]
  rcases Nat.lt_trichotomy (m + 1) S with hlt | heq | hgt
  · rw [if_pos (show m < S by omega), if_pos hlt, if_neg (by omega), Nat.mod_eq_of_lt (by omega)]
    omega
  · have hend : 2 * C - S + m + 1 = 2 * C := by omega
    rw [if_pos (show m < S by omega), if_neg (by omega), if_neg (by omega), hend, Nat.mod_self, heq,
      Nat.sub_self, Nat.zero_mod]
  · have hlt := Nat.mod_lt (m - S) (by omega : 0 < C)
    have hsucc : (m + 1 - S) % C = ((m - S) % C + 1) % C := by
      rw [Nat.mod_add_mod]
      congr 1
      omega
    rw [if_neg (show ¬ m < S by omega), if_neg (show ¬ m + 1 < S by omega), hsucc]
    by_cases hend : (m - S) % C + 1 = C
    · rw [if_pos hend, hend, Nat.mod_self]
    · have hlt' : (m - S) % C + 1 < C := by omega
      have hlt : (m - S) % C + 1 < 2 * C := by omega
      rw [if_neg hend, Nat.mod_eq_of_lt hlt', Nat.mod_eq_of_lt hlt]

/-- Less than half a region ahead. -/
theorem greater_of_le (hS : 2 * S < C) (hsame : SameRegion C x y) (hlt : x < y)
    (hle : y - x ≤ S) : Greater C S y x := by
  apply (greater_of_sameRegion hsame hlt).2.2
  rw [gap_of_lt hlt]
  exact ⟨min_le_of_left_le hle, by omega⟩

/-- Less than half a region ahead, over the end of the region. -/
theorem greater_of_wrap (hC : C % 2 = 0) (hS : 2 * S < C) (hsame : SameRegion C x y) (hlt : x < y)
    (hle : C - (y - x) ≤ S) : Greater C S x y := by
  apply (greater_of_sameRegion hsame hlt).1.2
  rw [gap_of_lt hlt]
  exact ⟨min_le_of_right_le hle, by omega⟩

/-- A value is greater than the ones that it has left behind within the window. -/
theorem greater_after (hC : C % 2 = 0) (hS : 2 * S < C) (hn : 0 < n) (hle : n ≤ S) :
    Greater C S (after C S (m + n)) (after C S m) := by
  rw [after, after]
  by_cases hlinear : m + n < S
  · have hsame : SameRegion C (2 * C - S + m) (2 * C - S + (m + n)) := Or.inr (by omega)
    rw [if_pos hlinear, if_pos (by omega)]
    exact greater_of_le hS hsame (by omega) (by omega)
  by_cases hleft : m < S
  · have hsame : ¬ SameRegion C (m + n - S) (2 * C - S + m) := by
      rw [SameRegion]
      omega
    rw [if_neg hlinear, if_pos hleft, Nat.mod_eq_of_lt (by omega), greater_of_not_sameRegion hsame,
      if_neg (by omega)]
    omega
  · have hsum : m + n - S = m - S + n := by omega
    have hlt := Nat.mod_lt (m - S) (by omega : 0 < C)
    rw [if_neg hlinear, if_neg hleft, hsum, ← Nat.mod_add_mod]
    generalize (m - S) % C = r at hlt ⊢
    by_cases hwrap : r + n < C
    · have hsame : SameRegion C r (r + n) := Or.inl ⟨hlt, hwrap⟩
      rw [Nat.mod_eq_of_lt hwrap]
      exact greater_of_le hS hsame (Nat.lt_add_of_pos_right hn) (by omega)
    · have hless : r + n - C < r := by omega
      have hsame : SameRegion C (r + n - C) r := Or.inl ⟨hless.trans hlt, hlt⟩
      rw [Nat.mod_eq_sub_mod (Nat.not_lt.1 hwrap), Nat.mod_eq_of_lt (hless.trans hlt)]
      exact greater_of_wrap hC hS hsame hless (by omega)

end Values

/-! ### The operations on the values

The type has at least one bit, `w + 1` of them, and `C` is `2 ^ w`. -/

section Operations

variable {a b c : LollipopCounter (w + 1)}

theorem toNat_maxValue (w : ℕ) : (maxValue w).toNat + 1 = 2 ^ w := by
  have := Nat.two_pow_pos w
  rw [maxValue, BitVec.toNat_allOnes]
  omega

theorem toNat_circularRegion (w : ℕ) : (circularRegion (w + 1)).toNat + 1 = 2 ^ w := by
  have hmax := toNat_maxValue (w + 1)
  rw [circularRegion, BitVec.toNat_ushiftRight, Nat.shiftRight_eq_div_pow]
  omega

theorem toNat_one (w : ℕ) : (1 : BitVec (w + 1)).toNat = 1 := BitVec.toNat_one w.succ_pos

theorem toNat_circularRegion_add (w : ℕ) : (circularRegion (w + 1) + 1).toNat = 2 ^ w := by
  rw [BitVec.toNat_add, toNat_one, toNat_circularRegion]
  exact Nat.mod_eq_of_lt (Nat.pow_lt_pow_right (by decide) w.lt_succ_self)

/-- Half of the circular region. -/
theorem toNat_serialRegion (w : ℕ) :
    ((circularRegion (w + 1) >>> 1) + 1).toNat = (2 ^ w - 1) / 2 + 1 := by
  have hregion := toNat_circularRegion w
  have hpow : 2 ^ (w + 1) = 2 * 2 ^ w := Nat.pow_succ'
  have hshift : (circularRegion (w + 1) >>> 1).toNat = (2 ^ w - 1) / 2 := by
    rw [BitVec.toNat_ushiftRight, Nat.shiftRight_eq_div_pow]
    omega
  rw [BitVec.toNat_add, toNat_one, hshift]
  apply Nat.mod_eq_of_lt
  have := Nat.two_pow_pos w
  omega

theorem toNat_stdMax (x y : BitVec w) : (stdMax x y).toNat = Max.max x.toNat y.toNat := by
  rw [stdMax]
  split
  · rename_i hlt
    exact (max_eq_right (BitVec.lt_def.1 hlt).le).symm
  · rename_i hlt
    exact (max_eq_left (Nat.le_of_not_lt fun h => hlt (BitVec.lt_def.2 h))).symm

theorem toNat_stdMin (x y : BitVec w) : (stdMin x y).toNat = Min.min x.toNat y.toNat := by
  rw [stdMin]
  split
  · rename_i hlt
    exact (min_eq_right (BitVec.lt_def.1 hlt).le).symm
  · rename_i hlt
    exact (min_eq_left (Nat.le_of_not_lt fun h => hlt (BitVec.lt_def.2 h))).symm

theorem sameRegion_iff (a b : LollipopCounter (w + 1)) :
    a.sameRegion b = true ↔ SameRegion (2 ^ w) a.value.toNat b.value.toNat := by
  have hregion := toNat_circularRegion w
  simp only [sameRegion, SameRegion, Bool.or_eq_true, Bool.and_eq_true, decide_eq_true_eq,
    BitVec.le_def, gt_iff_lt, BitVec.lt_def]
  omega

theorem toNat_absoluteMagnitudeOfDifference
    (h : SameRegion (2 ^ w) a.value.toNat b.value.toNat) :
    (a.absoluteMagnitudeOfDifference b).toNat = gap (2 ^ w) a.value.toNat b.value.toNat := by
  have ha := a.value.isLt
  have hb := b.value.isLt
  have hpow : 2 ^ (w + 1) = 2 * 2 ^ w := Nat.pow_succ'
  have hdirect : (stdMax a.value b.value - stdMin a.value b.value).toNat =
      Max.max a.value.toNat b.value.toNat - Min.min a.value.toNat b.value.toNat := by
    rw [BitVec.toNat_sub_of_le, toNat_stdMax, toNat_stdMin]
    rw [BitVec.le_def, toNat_stdMax, toNat_stdMin]
    omega
  have hwrapped : stdMin a.value b.value + circularRegion (w + 1) + 1 - stdMax a.value b.value =
      circularRegion (w + 1) + 1 - (stdMax a.value b.value - stdMin a.value b.value) := by abel
  have hle : stdMax a.value b.value - stdMin a.value b.value ≤ circularRegion (w + 1) + 1 := by
    rw [BitVec.le_def, hdirect, toNat_circularRegion_add]
    rw [SameRegion] at h
    omega
  rw [absoluteMagnitudeOfDifference, toNat_stdMin, hwrapped, BitVec.toNat_sub_of_le hle, hdirect,
    toNat_circularRegion_add, gap]

theorem isComparable_eq (h : a.sequenceWindow = b.sequenceWindow) : a.isComparable b =
    some (decide (Comparable (2 ^ w) a.sequenceWindow.toNat a.value.toNat b.value.toNat)) := by
  rw [isComparable, if_neg (not_not.2 h)]
  split
  · rename_i hsame
    have hsame := (sameRegion_iff a b).1 hsame
    simp only [gt_iff_lt, BitVec.lt_def, toNat_absoluteMagnitudeOfDifference hsame]
    split <;> simp_all [Comparable]
  · rename_i hsame
    rw [sameRegion_iff] at hsame
    simp [Comparable, hsame]

theorem isComparable_comm (h : a.sequenceWindow = b.sequenceWindow) :
    a.isComparable b = b.isComparable a := by
  rw [isComparable_eq h, isComparable_eq h.symm, h, Option.some_inj, decide_eq_decide, Comparable,
    Comparable, gap_comm, sameRegion_comm]

/-- The comparison of serial numbers, where the subtractions do not wrap. -/
theorem serial_iff (x y r : BitVec w) :
    (decide (x < y) && decide (y - x > r) || decide (x > y) && decide (x - y < r)) = true ↔
      x.toNat < y.toNat ∧ r.toNat < y.toNat - x.toNat ∨
        y.toNat < x.toNat ∧ x.toNat - y.toNat < r.toNat := by
  have hsub : ∀ u v : BitVec w, u.toNat < v.toNat → (v - u).toNat = v.toNat - u.toNat :=
    fun u v hlt => BitVec.toNat_sub_of_le (BitVec.le_def.2 hlt.le)
  simp only [Bool.or_eq_true, Bool.and_eq_true, decide_eq_true_eq, gt_iff_lt, BitVec.lt_def]
  apply or_congr
  · exact and_congr_right fun hlt => by rw [hsub x y hlt]
  · exact and_congr_right fun hlt => by rw [hsub y x hlt]

theorem gt_of_sameRegion (h : a.sequenceWindow = b.sequenceWindow) (hne : a.value ≠ b.value)
    (hsame : a.sameRegion b = true) : a.gt b =
      some (decide (Greater (2 ^ w) a.sequenceWindow.toNat a.value.toNat b.value.toNat)) := by
  have hregion := (sameRegion_iff a b).1 hsame
  have hfar : a.absoluteMagnitudeOfDifference b > a.sequenceWindow ↔
      a.sequenceWindow.toNat < gap (2 ^ w) a.value.toNat b.value.toNat := by
    rw [gt_iff_lt, BitVec.lt_def, toNat_absoluteMagnitudeOfDifference hregion]
  rw [gt, if_neg (not_not.2 h), if_neg hne, if_pos hsame]
  dsimp only
  by_cases hcmp : a.sequenceWindow.toNat < gap (2 ^ w) a.value.toNat b.value.toNat
  · rw [if_pos (hfar.2 hcmp)]
    apply congrArg some
    symm
    apply decide_eq_false
    rw [greater_iff_of_sameRegion hregion]
    exact fun hgreater => Nat.not_le.2 hcmp hgreater.1
  · rw [if_neg (mt hfar.1 hcmp)]
    apply congrArg some
    rw [Bool.eq_iff_iff, decide_eq_true_eq, serial_iff, toNat_serialRegion,
      greater_iff_of_sameRegion hregion]
    exact (and_iff_right (Nat.not_lt.1 hcmp)).symm

/-- The distance that the lower counter has gone from the other one. -/
theorem toNat_distance {x y : BitVec (w + 1)} (h : y < x) :
    (maxValue (w + 1) - (x - y) + 1).toNat = 2 ^ (w + 1) - (x.toNat - y.toNat) := by
  have hx := x.isLt
  have hnat := BitVec.lt_def.1 h
  have hmax := toNat_maxValue (w + 1)
  have hdiff := BitVec.toNat_sub_of_le (BitVec.le_of_lt h)
  have hle : x - y ≤ maxValue (w + 1) := BitVec.le_def.2 (by omega)
  rw [BitVec.toNat_add, toNat_one, BitVec.toNat_sub_of_le hle, hdiff, Nat.mod_eq_of_lt (by omega)]
  omega

theorem distance_gt_iff {x y : BitVec (w + 1)} (h : y < x) (S : BitVec (w + 1)) :
    maxValue (w + 1) - (x - y) + 1 > S ↔ S.toNat < 2 ^ (w + 1) - (x.toNat - y.toNat) := by
  rw [gt_iff_lt, BitVec.lt_def, toNat_distance h]

theorem gt_of_not_sameRegion (h : a.sequenceWindow = b.sequenceWindow)
    (hdiff : a.sameRegion b = false) : a.gt b =
      some (decide (Greater (2 ^ w) a.sequenceWindow.toNat a.value.toNat b.value.toNat)) := by
  have hpow : 2 ^ (w + 1) = 2 * 2 ^ w := Nat.pow_succ'
  have hcircular := toNat_circularRegion w
  have hregion : ¬ SameRegion (2 ^ w) a.value.toNat b.value.toNat := fun hsame => by
    simp [(sameRegion_iff a b).2 hsame] at hdiff
  have hhigh : (decide (a.value > circularRegion (w + 1)) &&
      decide (b.value ≤ circularRegion (w + 1))) = decide (b.value.toNat < a.value.toNat) := by
    rw [Bool.eq_iff_iff]
    simp only [Bool.and_eq_true, decide_eq_true_eq, gt_iff_lt, BitVec.lt_def, BitVec.le_def]
    rw [SameRegion] at hregion
    omega
  have hne : a.value.toNat ≠ b.value.toNat := by
    intro heq
    rw [heq, SameRegion] at hregion
    omega
  rw [gt, if_neg (not_not.2 h), if_neg (mt BitVec.toNat_inj.2 hne), hdiff,
    if_neg Bool.false_ne_true, hhigh]
  dsimp only
  rcases Nat.lt_or_gt_of_ne hne with hlt | hlt
  · have hgreater := greater_of_not_sameRegion (S := a.sequenceWindow.toNat) hregion
    rw [if_neg (Nat.not_lt.2 hlt.le), ← hpow,
      ← distance_gt_iff (BitVec.lt_def.2 hlt) a.sequenceWindow] at hgreater
    rw [decide_eq_false (Nat.not_lt.2 hlt.le), if_neg Bool.false_ne_true]
    split <;> simp_all
  · have hgreater := greater_of_not_sameRegion (S := a.sequenceWindow.toNat) hregion
    rw [if_pos hlt, ← hpow, ← distance_gt_iff (BitVec.lt_def.2 hlt) a.sequenceWindow] at hgreater
    rw [decide_eq_true hlt, if_pos rfl]
    split <;> simp_all

theorem gt_eq (h : a.sequenceWindow = b.sequenceWindow) : a.gt b =
    some (decide (Greater (2 ^ w) a.sequenceWindow.toNat a.value.toNat b.value.toNat)) := by
  by_cases heq : a.value = b.value
  · rw [gt, if_neg (not_not.2 h), if_pos heq, heq]
    exact congrArg some (decide_eq_false (not_greater_self _ _ _)).symm
  · cases hsame : a.sameRegion b with
    | true => exact gt_of_sameRegion h heq hsame
    | false => exact gt_of_not_sameRegion h hsame

theorem lt_eq (h : a.sequenceWindow = b.sequenceWindow)
    (hcmp : a.isComparable b = some true) (hne : a.value ≠ b.value) : a.lt b =
      some (!decide (Greater (2 ^ w) a.sequenceWindow.toNat a.value.toNat b.value.toNat)) := by
  have heq : a.eq b = some false := by simp [eq, h, hne]
  rw [lt, hcmp, gt_eq h, heq]
  cases decide (Greater (2 ^ w) a.sequenceWindow.toNat a.value.toNat b.value.toNat) <;> rfl

theorem toNat_incr (c : LollipopCounter (w + 1)) :
    c.incr.value.toNat = next (2 ^ w) c.value.toNat ∧
      c.incr.sequenceWindow = c.sequenceWindow := by
  have hpow : 2 ^ (w + 1) = 2 * 2 ^ w := Nat.pow_succ'
  have hpos := Nat.two_pow_pos w
  have hadd : (c.value + 1).toNat = (c.value.toNat + 1) % (2 * 2 ^ w) := by
    rw [BitVec.toNat_add, toNat_one, hpow]
  have hiff : c.value + 1 = circularRegion (w + 1) + 1 ↔ c.value.toNat + 1 = 2 ^ w := by
    have hlt := c.value.isLt
    rw [← BitVec.toNat_inj, hadd, toNat_circularRegion_add]
    by_cases htop : c.value.toNat + 1 = 2 * 2 ^ w
    · rw [htop, Nat.mod_self]
      omega
    · rw [Nat.mod_eq_of_lt (by omega)]
  rw [incr, next]
  by_cases hend : c.value.toNat + 1 = 2 ^ w
  · rw [if_pos (hiff.2 hend), if_pos hend]
    exact ⟨rfl, rfl⟩
  · rw [if_neg (mt hiff.1 hend), if_neg hend]
    exact ⟨hadd, rfl⟩

/-- The counter after so many increments from its initial value. -/
theorem toNat_iterate_incr {S : ℕ} (hS : 0 < S) (hle : S ≤ 2 ^ w)
    (hc : c.value.toNat = after (2 ^ w) S 0) (m : ℕ) :
    (incr^[m] c).value.toNat = after (2 ^ w) S m ∧
      (incr^[m] c).sequenceWindow = c.sequenceWindow := by
  induction m with
  | zero => exact ⟨hc, rfl⟩
  | succ m ih =>
    rw [Function.iterate_succ_apply']
    obtain ⟨hvalue, hwindow⟩ := toNat_incr (incr^[m] c)
    rw [ih.1, next_after hS hle] at hvalue
    exact ⟨hvalue, hwindow.trans ih.2⟩

end Operations

/-! ### The window sizes -/

theorem toInt_shift {k : ℕ} (hk : k < 32) :
    (1#32 <<< k).toInt = if k = 31 then -2 ^ 31 else 2 ^ k := by
  have htwo : 1#32 <<< k = BitVec.twoPow 32 k := rfl
  rw [htwo, BitVec.toInt_twoPow, if_neg (by omega)]
  by_cases h : k = 31
  · subst h
    rfl
  · rw [if_neg (by omega), if_neg h]

theorem toNat_shiftedOne {k : ℕ} (hk : k ≤ 30) (hw : k < w) :
    ((1#32 <<< k).signExtend w).toNat = 2 ^ k := by
  have hlt : 2 ^ k < 2 ^ w := Nat.pow_lt_pow_right (by decide) hw
  have hcast : (2 : ℤ) ^ k = (2 ^ k : ℕ) := by push_cast; rfl
  rw [BitVec.signExtend, BitVec.toNat_ofInt, toInt_shift (by omega), if_neg (by omega), hcast,
    ← Int.natCast_mod, Int.toNat_natCast, Nat.mod_eq_of_lt hlt]

/-- The window of 31 bits is sign-extended: it is half of the type or more. -/
theorem toNat_shiftedOne_31 (hw : 31 < w) :
    ((1#32 <<< 31).signExtend w).toNat = 2 ^ w - 2 ^ 31 := by
  have hlt : 2 ^ 31 < 2 ^ w := Nat.pow_lt_pow_right (by decide) hw
  have hmod : (-2 ^ 31 : ℤ) % (2 ^ w : ℕ) = (2 ^ w : ℕ) - 2 ^ 31 := by
    rw [← Int.add_emod_right, Int.emod_eq_of_lt] <;> omega
  rw [BitVec.signExtend, BitVec.toNat_ofInt, toInt_shift (by decide), if_pos rfl, hmod]
  omega

/-- Distinct comparable counters of this window are ordered one way, and the increments of this
counter go up in its window. -/
def Ordered (c : LollipopCounter w) : Prop :=
  (∀ a b : LollipopCounter w, a.sequenceWindow = c.sequenceWindow →
    b.sequenceWindow = c.sequenceWindow → a.value ≠ b.value → a.isComparable b = some true →
      Xor (a.lt b = some true) (b.lt a = some true)) ∧
  ∀ m n, 0 < n → n ≤ c.sequenceWindow.toNat → (incr^[m + n] c).gt (incr^[m] c) = some true

theorem ordered_of_lt {c : LollipopCounter (w + 1)} (hC : 2 ^ w % 2 = 0)
    (hpos : 0 < c.sequenceWindow.toNat) (hS : 2 * c.sequenceWindow.toNat < 2 ^ w)
    (hvalue : c.value.toNat = 2 ^ (w + 1) - c.sequenceWindow.toNat) : Ordered c := by
  have hpow : 2 ^ (w + 1) = 2 * 2 ^ w := Nat.pow_succ'
  constructor
  · intro a b ha hb hne hcmp
    have hab := ha.trans hb.symm
    have hnat := mt BitVec.toNat_inj.1 hne
    have hvalues := isComparable_eq hab
    rw [hcmp, Option.some_inj, eq_comm, decide_eq_true_eq, ha] at hvalues
    have hcmp' : b.isComparable a = some true := by rw [← isComparable_comm hab, hcmp]
    have hxor := greater_iff_not hC hS hnat hvalues
    rw [lt_eq hab hcmp hne, lt_eq hab.symm hcmp' hne.symm, ha, hb]
    simp only [Option.some_inj, Bool.not_eq_true', decide_eq_false_iff_not]
    rw [hxor, xor_iff_iff_not]
  · intro m n hn hle
    have hstart : c.value.toNat = after (2 ^ w) c.sequenceWindow.toNat 0 := by
      rw [hvalue, after, if_pos hpos]
      omega
    obtain ⟨hm, hwindow⟩ := toNat_iterate_incr hpos (by omega) hstart m
    obtain ⟨hmn, hwindow'⟩ := toNat_iterate_incr hpos (by omega) hstart (m + n)
    rw [gt_eq (hwindow'.trans hwindow.symm), hwindow', hm, hmn]
    exact congrArg some (decide_eq_true (greater_after hC hS hn hle))

/-- In a window of half the circular region or more, counter 0 and the one opposite to it are
comparable and each is less than the other. -/
theorem not_ordered_of_le {c : LollipopCounter (w + 1 + 1)} (h : 2 ^ w ≤ c.sequenceWindow.toNat) :
    ¬ Ordered c := by
  have hpow : 2 ^ (w + 1) = 2 * 2 ^ w := Nat.pow_succ'
  have hpow' : 2 ^ (w + 1 + 1) = 2 * 2 ^ (w + 1) := Nat.pow_succ'
  have hpos := Nat.two_pow_pos w
  have hhalf : (BitVec.ofNat (w + 1 + 1) (2 ^ w)).toNat = 2 ^ (w + 1) / 2 := by
    rw [BitVec.toNat_ofNat, Nat.mod_eq_of_lt (by omega)]
    omega
  obtain ⟨a, ha, hwa⟩ : ∃ a : LollipopCounter (w + 1 + 1), a.value.toNat = 0 ∧
      a.sequenceWindow = c.sequenceWindow := ⟨⟨0, c.sequenceWindow⟩, rfl, rfl⟩
  obtain ⟨b, hb, hwb⟩ : ∃ b : LollipopCounter (w + 1 + 1), b.value.toNat = 2 ^ (w + 1) / 2 ∧
      b.sequenceWindow = c.sequenceWindow :=
    ⟨⟨BitVec.ofNat _ (2 ^ w), c.sequenceWindow⟩, hhalf, rfl⟩
  have hab : a.sequenceWindow = b.sequenceWindow := hwa.trans hwb.symm
  have hne : a.value ≠ b.value := by
    intro heq
    rw [heq, hb] at ha
    omega
  have hcmp : a.isComparable b = some true := by
    rw [isComparable_eq hab, ha, hb, hwa]
    apply congrArg some
    apply decide_eq_true
    intro _
    rw [gap_of_lt (by omega)]
    omega
  have hcmp' : b.isComparable a = some true := by rw [← isComparable_comm hab, hcmp]
  obtain ⟨hlow, hhigh⟩ :=
    not_greater_half (C := 2 ^ (w + 1)) (S := c.sequenceWindow.toNat) (by omega)
  have hlt : a.lt b = some true := by simp [lt_eq hab hcmp hne, ha, hb, hwa, hlow]
  have hlt' : b.lt a = some true := by simp [lt_eq hab.symm hcmp' hne.symm, ha, hb, hwb, hhigh]
  rintro ⟨hxor, -⟩
  exact absurd (hxor a b hwa hwb hne hcmp) (by simp [hlt, hlt'])

theorem setSequenceWindowSize_eq (c : LollipopCounter w) {k : ℕ} (hk : k < w) :
    c.setSequenceWindowSize k = if k < 32 then
      some ⟨maxValue w - (1#32 <<< k).signExtend w + 1, (1#32 <<< k).signExtend w⟩ else none := by
  rw [setSequenceWindowSize, if_neg (Nat.not_le.2 hk), shiftedOne]
  split <;> rfl

/-- The initial value is one window below the end of the type. -/
theorem toNat_initial {S : BitVec (w + 1)} (hS : 0 < S.toNat) :
    (maxValue (w + 1) - S + 1).toNat = 2 ^ (w + 1) - S.toNat := by
  have hmax := toNat_maxValue (w + 1)
  have hlt := S.isLt
  have hle : S ≤ maxValue (w + 1) := BitVec.le_def.2 (by omega)
  rw [BitVec.toNat_add, toNat_one, BitVec.toNat_sub_of_le hle, Nat.mod_eq_of_lt (by omega)]
  omega

/-- A window that is admitted orders the counters where it is less than half of the circular region
and `1 << numberOfBits` fits an `int`. -/
theorem ordered_iff (c : LollipopCounter w) {numberOfBits : ℕ} (h : numberOfBits < w) :
    (∃ c', c.setSequenceWindowSize numberOfBits = some c' ∧ Ordered c') ↔
      numberOfBits + 2 < w ∧ numberOfBits ≤ 30 := by
  rw [setSequenceWindowSize_eq c h]
  constructor
  · rintro ⟨c', hc', hordered⟩
    by_cases hk : numberOfBits < 32
    · rw [if_pos hk, Option.some_inj] at hc'
      subst hc'
      rcases w with _ | _ | v
      · exact absurd h (Nat.not_lt_zero _)
      · obtain rfl : numberOfBits = 0 := by omega
        exact absurd (hordered.2 1 1 (by decide) (by decide)) (by decide)
      · by_contra hcond
        apply not_ordered_of_le _ hordered
        dsimp only
        by_cases hk31 : numberOfBits = 31
        · subst hk31
          have hle : 2 ^ 31 ≤ 2 ^ (v + 1) := Nat.pow_le_pow_right (by decide) (by omega)
          rw [toNat_shiftedOne_31 h]
          omega
        · rw [toNat_shiftedOne (by omega) h]
          exact Nat.pow_le_pow_right (by decide) (by omega)
    · simp [hk] at hc'
  · rintro ⟨hw, hk⟩
    obtain ⟨v, rfl⟩ : ∃ v, w = v + 1 + 1 := ⟨w - 2, by omega⟩
    have hS := toNat_shiftedOne hk h
    have hpos := Nat.two_pow_pos numberOfBits
    have hlt : 2 ^ (numberOfBits + 1) < 2 ^ (v + 1) := Nat.pow_lt_pow_right (by decide) (by omega)
    rw [if_pos (by omega)]
    refine ⟨_, rfl, ordered_of_lt (by omega) ?_ ?_ (toNat_initial ?_)⟩
    · exact hS ▸ hpos
    · change 2 * ((1#32 <<< numberOfBits).signExtend (v + 1 + 1)).toNat < 2 ^ (v + 1)
      omega
    · exact hS ▸ hpos

theorem ordered_iff_uint8 :
    (∃ c', (⟨240, 16⟩ : LollipopCounter 8).setSequenceWindowSize 4 = some c' ∧ Ordered c') ↔
      4 + 2 < 8 ∧ 4 ≤ 30 :=
  ordered_iff ⟨240, 16⟩ (by decide)

/-- With a window of 64, the 8-bit counters 0 and 64 are comparable and each is less than the
other. -/
theorem each_less : ∃ c a b : LollipopCounter 8,
    (create 8).bind (·.setSequenceWindowSize 6) = some c ∧
      a = { c with value := 0 } ∧ b = { c with value := 64 } ∧
      a.isComparable b = some true ∧ a.lt b = some true ∧ b.lt a = some true :=
  ⟨_, _, _, rfl, rfl, rfl, by decide, by decide, by decide⟩

end LollipopCounter

end SeanetSim
