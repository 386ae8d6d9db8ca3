import Mathlib.Tactic.SplitIfs
import Mathlib.Data.Int.Order.Basic

/-!
# 10-bit sequence numbers

`SequenceNumber10` compares sequence numbers in the circular order that begins at a modulus base.
A position counts the PDUs without a wrap; `atPosition p base` is the sequence number of the
position `p` with the base of another one, and the operators respect positions less than 1024 ahead
of the base.
-/

namespace SeanetSim

structure SequenceNumber10 where
  value : ℕ
  modulusBase : ℕ
deriving DecidableEq, Repr

namespace SequenceNumber10

/-- The conversion of an `int` to `uint16_t`. -/
def toUInt16 (n : ℤ) : ℕ := (n % 65536).toNat

section Operators

variable (s other : SequenceNumber10) (value modulusBase delta : ℕ)

def ofValue : SequenceNumber10 := ⟨value % 1024, 0⟩

/-- `operator=` of a number, which keeps the base. -/
def assign : SequenceNumber10 := { s with value := value % 1024 }

def setModulusBase : SequenceNumber10 := { s with modulusBase := modulusBase }

/-- `operator++`. -/
def succ : SequenceNumber10 := { s with value := (s.value + 1) % 1024 }

def add : SequenceNumber10 := (ofValue ((s.value + delta) % 1024)).setModulusBase s.modulusBase

def sub : SequenceNumber10 :=
  (ofValue (toUInt16 (((s.value : ℤ) - delta).tmod 1024))).setModulusBase s.modulusBase

def gt : Bool :=
  let v1 := toUInt16 (((s.value : ℤ) - s.modulusBase).tmod 1024)
  let v2 := toUInt16 (((other.value : ℤ) - other.modulusBase).tmod 1024)
  v1 > v2

def le : Bool := !s.gt other

def lt : Bool := !s.gt other && s.value != other.value

end Operators

/-- The sequence number of a position. -/
def valueAt (p : ℤ) : ℕ := (p % 1024).toNat

def atPosition (p base : ℤ) : SequenceNumber10 := ⟨valueAt p, valueAt base⟩

variable {p q base : ℤ}

theorem natCast_valueAt (p : ℤ) : (valueAt p : ℤ) = p % 1024 :=
  Int.toNat_of_nonneg (Int.emod_nonneg p (by decide))

theorem valueAt_lt (p : ℤ) : valueAt p < 1024 := by
  have := natCast_valueAt p
  omega

theorem valueAt_inj (base : ℤ) (hlow : base ≤ p) (hhigh : p < base + 1024) (hlow' : base ≤ q)
    (hhigh' : q < base + 1024) : valueAt p = valueAt q ↔ p = q := by
  have hp := natCast_valueAt p
  have hq := natCast_valueAt q
  omega

/-- A position after the base, where the numbers from the base on wrap. -/
theorem toUInt16_valueAt (hlow : base ≤ p) (hhigh : p < base + 1024) :
    (toUInt16 (((valueAt p : ℤ) - valueAt base).tmod 1024) : ℤ) =
      if base % 1024 ≤ p % 1024 then p - base else 64512 + (p - base) := by
  rw [natCast_valueAt, natCast_valueAt, toUInt16,
    Int.toNat_of_nonneg (Int.emod_nonneg _ (by decide))]
  split_ifs with hwrap
  · have heq : p % 1024 - base % 1024 = p - base := by omega
    rw [heq, Int.tmod_eq_of_lt (by omega) (by omega)]
    omega
  · have heq : p % 1024 - base % 1024 = -(1024 - (p - base)) := by omega
    rw [heq, Int.neg_tmod, Int.tmod_eq_of_lt (by omega) (by omega)]
    omega

theorem gt_atPosition (hlow : base ≤ p) (hhigh : p < base + 1024) (hlow' : base ≤ q)
    (hhigh' : q < base + 1024) : (atPosition p base).gt (atPosition q base) = decide (q < p) := by
  have hp := toUInt16_valueAt hlow hhigh
  have hq := toUInt16_valueAt hlow' hhigh'
  have hlt : (toUInt16 (((valueAt p : ℤ) - valueAt base).tmod 1024) : ℤ) >
      toUInt16 (((valueAt q : ℤ) - valueAt base).tmod 1024) ↔ q < p := by
    rw [hp, hq]
    split_ifs <;> omega
  exact decide_eq_decide.2 (Int.ofNat_lt.symm.trans hlt)

theorem le_atPosition (hlow : base ≤ p) (hhigh : p < base + 1024) (hlow' : base ≤ q)
    (hhigh' : q < base + 1024) : (atPosition p base).le (atPosition q base) = decide (p ≤ q) := by
  rw [le, gt_atPosition hlow hhigh hlow' hhigh', ← decide_not]
  exact decide_eq_decide.2 not_lt

theorem lt_atPosition (hlow : base ≤ p) (hhigh : p < base + 1024) (hlow' : base ≤ q)
    (hhigh' : q < base + 1024) : (atPosition p base).lt (atPosition q base) = decide (p < q) := by
  have hne : ((atPosition p base).value != (atPosition q base).value) = decide (p ≠ q) := by
    rw [Bool.eq_iff_iff, bne_iff_ne, decide_eq_true_iff]
    exact (valueAt_inj base hlow hhigh hlow' hhigh').not
  rw [lt, gt_atPosition hlow hhigh hlow' hhigh', hne, ← decide_not, ← Bool.decide_and]
  exact decide_eq_decide.2 (by omega)

theorem sub_eq {s : SequenceNumber10} (hs : s.value = valueAt p) {delta : ℕ}
    (hdelta : delta < 1024) : s.sub delta = ⟨valueAt (p - delta), s.modulusBase⟩ := by
  have hp := natCast_valueAt p
  have hvalue : toUInt16 (((valueAt p : ℤ) - delta).tmod 1024) % 1024 = valueAt (p - delta) := by
    have hsub := natCast_valueAt (p - delta)
    by_cases hle : (delta : ℤ) ≤ valueAt p
    · rw [Int.tmod_eq_of_lt (by omega) (by omega), toUInt16]
      omega
    · have heq : (valueAt p : ℤ) - delta = -(delta - valueAt p) := by omega
      rw [heq, Int.neg_tmod, Int.tmod_eq_of_lt (by omega) (by omega), toUInt16]
      omega
  rw [sub, hs, ofValue, hvalue, setModulusBase]

theorem add_eq {s : SequenceNumber10} (hs : s.value = valueAt p) (delta : ℕ) :
    s.add delta = ⟨valueAt (p + delta), s.modulusBase⟩ := by
  have hp := natCast_valueAt p
  have hadd := natCast_valueAt (p + delta)
  have hvalue : (valueAt p + delta) % 1024 % 1024 = valueAt (p + delta) := by omega
  rw [add, hs, ofValue, hvalue, setModulusBase]

theorem succ_atPosition : (atPosition p base).succ = atPosition (p + 1) base := by
  have hp := natCast_valueAt p
  have hsucc := natCast_valueAt (p + 1)
  have hvalue : (valueAt p + 1) % 1024 = valueAt (p + 1) := by omega
  rw [succ, atPosition, hvalue]
  rfl

end SequenceNumber10

end SeanetSim
