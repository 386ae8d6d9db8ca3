import Mathlib.Data.Nat.Bitwise
import Mathlib.Data.UInt
import Mathlib.Tactic.IntervalCases

/-!
# Bitmaps

A list of bytes as a list of bits, the most significant bit of each byte first.
-/

namespace SeanetSim

namespace Bitmap

/-- A bit of a byte, the most significant one first. -/
def bitOf (b : UInt8) (k : ℕ) : Bool := b.toNat.testBit (7 - k)

theorem shiftRight_and_one (b : UInt8) {k : ℕ} (hk : k < 8) :
    (b >>> UInt8.ofNat (7 - k)) &&& 1 = if bitOf b k then 1 else 0 := by
  have hshift : (UInt8.ofNat (7 - k)).toNat % 8 = 7 - k := by
    rw [UInt8.toNat_ofNat']
    omega
  have hand : ((b >>> UInt8.ofNat (7 - k)) &&& 1).toNat = b.toNat / 2 ^ (7 - k) % 2 := by
    rw [UInt8.toNat_and, UInt8.toNat_shiftRight, hshift, UInt8.toNat_one, Nat.and_one_is_mod,
      Nat.shiftRight_eq_div_pow]
  apply UInt8.toNat_inj.1
  rw [hand, bitOf, Nat.testBit_eq_decide_div_mod_eq]
  have := Nat.mod_two_eq_zero_or_one (b.toNat / 2 ^ (7 - k))
  split <;> simp_all

theorem toNat_mask {k : ℕ} (hk : k < 8) : (0x80 >>> UInt8.ofNat k : UInt8).toNat = 2 ^ (7 - k) := by
  interval_cases k <;> rfl

theorem bitOf_or {b : UInt8} {k j : ℕ} (hk : k < 8) (hj : j < 8) :
    bitOf (b ||| 0x80 >>> UInt8.ofNat k) j = (decide (j = k) || bitOf b j) := by
  rw [bitOf, bitOf, UInt8.toNat_or, toNat_mask hk, Nat.testBit_or, Nat.testBit_two_pow,
    Bool.or_comm]
  congr 2
  grind

theorem bitOf_and_not {b : UInt8} {k j : ℕ} (hk : k < 8) (hj : j < 8) :
    bitOf (b &&& ~~~(0x80 >>> UInt8.ofNat k)) j = (!decide (j = k) && bitOf b j) := by
  have hnot : (~~~(0x80 >>> UInt8.ofNat k) : UInt8).toNat = 2 ^ 8 - (2 ^ (7 - k) + 1) := by
    rw [UInt8.toNat_not, toNat_mask hk]
    change 256 - 1 - _ = _
    omega
  have hlt : 2 ^ (7 - k) < 2 ^ 8 := Nat.pow_lt_pow_right (by decide) (by omega)
  rw [bitOf, bitOf, UInt8.toNat_and, hnot, Nat.testBit_and, Nat.testBit_two_pow_sub_succ hlt,
    Nat.testBit_two_pow, Bool.and_comm]
  grind

variable {bytes : List UInt8} {k j : ℕ}

/-- The bit at an index. -/
def bitAt (bytes : List UInt8) (k : ℕ) : Bool := bitOf (bytes.getD (k / 8) 0) (k % 8)

/-- The bytes with a bit set or cleared. -/
def setBit (bytes : List UInt8) (k : ℕ) (val : Bool) : List UInt8 :=
  bytes.modify (k / 8) fun b =>
    if val then b ||| 0x80 >>> UInt8.ofNat (k % 8) else b &&& ~~~(0x80 >>> UInt8.ofNat (k % 8))

@[simp] theorem length_setBit (val : Bool) : (setBit bytes k val).length = bytes.length :=
  List.length_modify ..

theorem bitAt_setBit (hk : k < bytes.length * 8) (val : Bool) :
    bitAt (setBit bytes k val) j = if j = k then val else bitAt bytes j := by
  have hat : k / 8 < bytes.length := by omega
  by_cases hbyte : j / 8 = k / 8
  · have hk8 : k % 8 < 8 := Nat.mod_lt _ (by decide)
    have hj8 : j % 8 < 8 := Nat.mod_lt _ (by decide)
    have hiff : j % 8 = k % 8 ↔ j = k := by omega
    have hold : bytes.getD (k / 8) 0 = bytes[k / 8] := by
      rw [List.getD_eq_getElem?_getD, List.getElem?_eq_getElem hat]
      rfl
    have hnew : (setBit bytes k val).getD (k / 8) 0 =
        if val then bytes[k / 8] ||| 0x80 >>> UInt8.ofNat (k % 8)
        else bytes[k / 8] &&& ~~~(0x80 >>> UInt8.ofNat (k % 8)) := by
      rw [setBit, List.getD_eq_getElem?_getD, List.getElem?_modify_eq, List.getElem?_eq_getElem hat]
      rfl
    rw [bitAt, bitAt, hbyte, hold, hnew]
    cases val with
    | true =>
      rw [if_pos rfl, bitOf_or hk8 hj8]
      by_cases heq : j = k <;> simp [hiff, heq]
    | false =>
      rw [if_neg Bool.false_ne_true, bitOf_and_not hk8 hj8]
      by_cases heq : j = k <;> simp [hiff, heq]
  · have hne : j ≠ k := by
      rintro rfl
      exact hbyte rfl
    rw [if_neg hne, bitAt, bitAt, setBit, List.getD_eq_getElem?_getD,
      List.getElem?_modify_ne _ _ (Ne.symm hbyte), List.getD_eq_getElem?_getD]

theorem bitAt_replicate {n : ℕ} (hk : k < n * 8) : bitAt (List.replicate n 0xff) k = true := by
  have hbyte : (List.replicate n (0xff : UInt8)).getD (k / 8) 0 = 0xff := by
    rw [List.getD_eq_getElem?_getD, List.getElem?_replicate, if_pos (by omega)]
    rfl
  have hall : ∀ i < 8, bitOf 0xff i = true := by decide
  rw [bitAt, hbyte]
  exact hall _ (Nat.mod_lt _ (by decide))

end Bitmap

end SeanetSim
