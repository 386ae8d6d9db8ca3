import Mathlib.Data.UInt
import Mathlib.Tactic.SplitIfs

/-!
# Sequence numbers

`SequenceNumber32` compares and subtracts modulo `2 ^ 32`.  The code that works with sequence
numbers is modelled over the class `SequenceNumber` of its operators, so that it can be read twice:
over `UInt32`, as it runs, and over `ℤ`, where nothing wraps.  `wrap` takes the one to the other; it
respects the operators for numbers less than `2 ^ 31` apart (`gt_wrap`, `sub_wrap`).
-/

namespace SeanetSim

/-- The operators `>`, `+` and `-` of `SequenceNumber32`; the right operand of `+` is a number of
bytes. -/
class SequenceNumber (S : Type) where
  gt : S → S → Bool
  add : S → ℕ → S
  sub : S → S → ℤ

/-- The value of a sequence number as an integer: the number of value 0, and `>` between the
values. -/
class SequenceValue (S : Type) extends SequenceNumber S where
  zero : S
  gtValue : S → S → Bool

namespace SequenceNumber

section Operators

variable {S : Type} [SequenceNumber S] [DecidableEq S]

def le (a b : S) : Bool := !gt a b

def ge (a b : S) : Bool := gt a b || a == b

def lt (a b : S) : Bool := !gt a b && a != b

/-- `static_cast<uint32_t> (a - b)`. -/
def distance (a b : S) : ℕ := (sub a b % 0x100000000).toNat

end Operators

/-! ## 32 bits -/

/-- `static_cast<int32_t>`. -/
def signed (x : UInt32) : ℤ := if x.toNat < 0x80000000 then x.toNat else x.toNat - 0x100000000

instance : SequenceNumber UInt32 where
  gt a b := (decide (b < a) && decide (a - b ≤ 0x7fffffff)) ||
    (decide (a < b) && decide (0x7fffffff < b - a))
  add a n := a + UInt32.ofNat n
  sub a b :=
    if b < a then
      let diff := a - b
      if diff < 0x7fffffff then diff.toNat else -signed (0xffffffff - a + 1 + b)
    else
      let diff := b - a
      if diff < 0x7fffffff then -diff.toNat else signed (0xffffffff - b + 1 + a)

instance : SequenceValue UInt32 where
  zero := 0
  gtValue a b := decide (b < a)

/-! ## No wrap -/

instance : SequenceNumber ℤ where
  gt a b := decide (b < a)
  add a n := a + n
  sub a b := a - b

instance : SequenceValue ℤ where
  zero := 0
  gtValue a b := decide (b < a)

section Integers

variable {x y : ℤ}

@[simp] theorem gt_int : gt x y = decide (y < x) := rfl

@[simp] theorem le_int : le x y = decide (x ≤ y) := by
  rw [le, gt_int, Bool.eq_iff_iff]
  simp

@[simp] theorem ge_int : ge x y = decide (y ≤ x) := by
  rw [ge, gt_int, Bool.eq_iff_iff]
  simp only [Bool.or_eq_true, decide_eq_true_eq, beq_iff_eq]
  omega

@[simp] theorem lt_int : lt x y = decide (x < y) := by
  rw [lt, gt_int, Bool.eq_iff_iff]
  simp only [Bool.and_eq_true, Bool.not_eq_true', decide_eq_false_iff_not, bne_iff_ne, ne_eq,
    decide_eq_true_eq]
  omega

@[simp] theorem add_int (x : ℤ) (n : ℕ) : add x n = x + n := rfl

@[simp] theorem sub_int : sub x y = x - y := rfl

end Integers

/-! ## From numbers to 32 bits -/

def wrap (x : ℤ) : UInt32 := UInt32.ofInt x

section Wrap

variable {x y : ℤ}

theorem toNat_wrap (x : ℤ) : ((wrap x).toNat : ℤ) = x % 2 ^ 32 := by
  have hlt : (x % 2 ^ 32).toNat < 2 ^ 32 := by omega
  rw [wrap, UInt32.ofInt, UInt32.toNat_ofNat', Nat.mod_eq_of_lt hlt]
  omega

/-- Equal modulo `2 ^ 32`. -/
theorem wrap_eq_iff : wrap x = wrap y ↔ x % 2 ^ 32 = y % 2 ^ 32 := by
  rw [← toNat_wrap, ← toNat_wrap, ← UInt32.toNat_inj]
  omega

theorem wrap_inj (h : x - y < 2 ^ 32) (h' : y - x < 2 ^ 32) : wrap x = wrap y ↔ x = y := by
  rw [wrap_eq_iff]
  omega

theorem exists_wrap (a : UInt32) : ∃ x : ℤ, wrap x = a := by
  have ha := a.toNat_lt
  have hx := toNat_wrap a.toNat
  refine ⟨a.toNat, UInt32.toNat_inj.1 ?_⟩
  omega

theorem wrap_add (x : ℤ) (n : ℕ) : wrap (x + n) = add (wrap x) n := by
  have hsum := toNat_wrap (x + n)
  have hx := toNat_wrap x
  apply UInt32.toNat_inj.1
  show (wrap (x + n)).toNat = (wrap x + UInt32.ofNat n).toNat
  rw [UInt32.toNat_add, UInt32.toNat_ofNat']
  omega

/-- The distance from one number to another one, upwards. -/
theorem toNat_wrap_sub (x y : ℤ) : ((wrap x - wrap y).toNat : ℤ) = (x - y) % 2 ^ 32 := by
  have hx := toNat_wrap x
  have hy := toNat_wrap y
  have hlt := (wrap y).toNat_lt
  have hlt' := (wrap x).toNat_lt
  rw [UInt32.toNat_sub]
  omega

theorem gt_wrap (h : x - y < 2 ^ 31) (h' : y - x < 2 ^ 31) :
    gt (wrap x) (wrap y) = decide (y < x) := by
  have hx := toNat_wrap x
  have hy := toNat_wrap y
  have hxy := toNat_wrap_sub x y
  have hyx := toNat_wrap_sub y x
  show (decide (wrap y < wrap x) && decide (wrap x - wrap y ≤ 0x7fffffff) ||
    decide (wrap x < wrap y) && decide (0x7fffffff < wrap y - wrap x)) = decide (y < x)
  rw [Bool.eq_iff_iff]
  simp only [Bool.or_eq_true, Bool.and_eq_true, decide_eq_true_eq, UInt32.lt_iff_toNat_lt,
    UInt32.le_iff_toNat_le]
  rw [show UInt32.toNat 0x7fffffff = 2147483647 from rfl]
  omega

theorem le_wrap (h : x - y < 2 ^ 31) (h' : y - x < 2 ^ 31) :
    le (wrap x) (wrap y) = decide (x ≤ y) := by
  rw [le, gt_wrap h h']
  exact le_int

theorem eq_wrap (h : x - y < 2 ^ 31) (h' : y - x < 2 ^ 31) :
    (wrap x == wrap y) = decide (x = y) := by
  have hinj := wrap_inj (x := x) (y := y) (by omega) (by omega)
  rw [Bool.eq_iff_iff]
  simpa using hinj

theorem ge_wrap (h : x - y < 2 ^ 31) (h' : y - x < 2 ^ 31) :
    ge (wrap x) (wrap y) = decide (y ≤ x) := by
  rw [ge, gt_wrap h h', eq_wrap h h']
  exact ge_int

theorem lt_wrap (h : x - y < 2 ^ 31) (h' : y - x < 2 ^ 31) :
    lt (wrap x) (wrap y) = decide (x < y) := by
  have hne : (wrap x != wrap y) = (x != y) := congrArg (!·) (eq_wrap h h')
  rw [lt, gt_wrap h h', hne]
  exact lt_int

theorem sub_wrap (h : x - y < 2 ^ 31) (h' : y - x < 2 ^ 31) : sub (wrap x) (wrap y) = x - y := by
  have hx := toNat_wrap x
  have hy := toNat_wrap y
  have hxy := toNat_wrap_sub x y
  have hyx := toNat_wrap_sub y x
  have hfirst : ∀ a b : UInt32, ((0xffffffff - a + 1 + b).toNat : ℤ) =
      (2 ^ 32 - a.toNat + b.toNat) % 2 ^ 32 := by
    intro a b
    have ha := a.toNat_lt
    have hb := b.toNat_lt
    rw [UInt32.toNat_add, UInt32.toNat_add, UInt32.toNat_sub,
      show UInt32.toNat 0xffffffff = 4294967295 from rfl, show UInt32.toNat 1 = 1 from rfl]
    omega
  have hdown := hfirst (wrap x) (wrap y)
  have hup := hfirst (wrap y) (wrap x)
  show (if wrap y < wrap x then
      if wrap x - wrap y < 0x7fffffff then ((wrap x - wrap y).toNat : ℤ)
      else -signed (0xffffffff - wrap x + 1 + wrap y)
    else if wrap y - wrap x < 0x7fffffff then -((wrap y - wrap x).toNat : ℤ)
      else signed (0xffffffff - wrap y + 1 + wrap x)) = x - y
  simp only [signed, UInt32.lt_iff_toNat_lt]
  rw [show UInt32.toNat 0x7fffffff = 2147483647 from rfl]
  split_ifs <;> omega

theorem distance_wrap (h : x - y < 2 ^ 31) (h' : y - x < 2 ^ 31) :
    distance (wrap x) (wrap y) = distance x y := by
  rw [distance, distance, sub_wrap h h', sub_int]

/-- Downwards it is as in the code, where the difference is cast. -/
theorem distance_int (h : x ≤ y) (h' : y - x < 2 ^ 32) : (distance y x : ℤ) = y - x := by
  rw [distance, sub_int]
  omega

end Wrap

/-! ## Numbers from one number on -/

/-- The operators are those of ℕ on the numbers that follow any number, up to a bound. -/
structure Steady (S : Type) [SequenceNumber S] [DecidableEq S] (bound : ℕ) : Prop where
  add_zero (a : S) : add a 0 = a
  add_add (a : S) (m n : ℕ) : add (add a m) n = add a (m + n)
  lt_add (a : S) {n : ℕ} (hpos : 0 < n) (hlt : n < bound) : lt a (add a n) = true
  le_add (a : S) {m n : ℕ} (hle : m ≤ n) (hlt : n < bound) : le (add a m) (add a n) = true
  between {a b : S} {n : ℕ} (hgt : gt b a = true) (hb : lt b (add a n) = true) (hlt : n < bound) :
    add a (distance b a) = b ∧ 0 < distance b a ∧ distance b a < n

theorem lt_self {S : Type} [SequenceNumber S] [DecidableEq S] (a : S) : lt a a = false := by
  simp [lt]

theorem add_wrap (x : ℤ) (n : ℕ) : add (wrap x) n = wrap (x + n) := (wrap_add x n).symm

theorem steady_uint32 : Steady UInt32 (2 ^ 31) where
  add_zero a := UInt32.add_zero a
  add_add a m n := by
    obtain ⟨x, rfl⟩ := exists_wrap a
    rw [add_wrap, add_wrap, add_wrap, Nat.cast_add, Int.add_assoc]
  lt_add a n hpos hlt := by
    obtain ⟨x, rfl⟩ := exists_wrap a
    rw [add_wrap, lt_wrap (by omega) (by omega), decide_eq_true_eq]
    omega
  le_add a m n hle hlt := by
    obtain ⟨x, rfl⟩ := exists_wrap a
    rw [add_wrap, add_wrap, le_wrap (by omega) (by omega), decide_eq_true_eq]
    omega
  between {a b n} hgt hb hlt := by
    obtain ⟨x, rfl⟩ := exists_wrap a
    obtain ⟨y, rfl, hlo, hhi⟩ : ∃ y, wrap y = b ∧ x - 2 ^ 31 < y ∧ y ≤ x + 2 ^ 31 := by
      obtain ⟨z, rfl⟩ := exists_wrap b
      refine ⟨x - 2 ^ 31 + 1 + (z - x + 2 ^ 31 - 1) % 2 ^ 32, ?_, by omega, by omega⟩
      rw [wrap_eq_iff]
      omega
    rw [add_wrap] at hb ⊢
    -- half way round the order is by the raw values, but then no number lies between
    by_cases hn : n = 0
    · rw [hn, Nat.cast_zero, Int.add_zero, lt, hgt] at hb
      cases hb
    by_cases hhalf : y = x + 2 ^ 31
    · rw [lt_wrap (by omega) (by omega), decide_eq_true_eq] at hb
      omega
    rw [gt_wrap (by omega) (by omega), decide_eq_true_eq] at hgt
    rw [lt_wrap (by omega) (by omega), decide_eq_true_eq] at hb
    have hdistance := distance_int hgt.le (by omega)
    rw [distance_wrap (by omega) (by omega), hdistance]
    refine ⟨congrArg wrap (by omega), by omega, by omega⟩

/-! ## Two numbers from one number on -/

section Offsets

variable (a : UInt32) {m n : ℕ} (hm : m < 2 ^ 31) (hn : n < 2 ^ 31)

include hm hn

theorem gt_offset : gt (add a m) (add a n) = decide (n < m) := by
  obtain ⟨x, rfl⟩ := exists_wrap a
  rw [add_wrap, add_wrap, gt_wrap (by omega) (by omega), decide_eq_decide]
  omega

theorem le_offset : le (add a m) (add a n) = decide (m ≤ n) := by
  rw [le, gt_offset a hm hn, ← decide_not, decide_eq_decide]
  exact Nat.not_lt

theorem offset_inj : add a m = add a n ↔ m = n := by
  obtain ⟨x, rfl⟩ := exists_wrap a
  rw [add_wrap, add_wrap, wrap_inj (by omega) (by omega)]
  omega

theorem ge_offset : ge (add a m) (add a n) = decide (n ≤ m) := by
  have hinj := offset_inj a hm hn
  rw [ge, gt_offset a hm hn, Bool.eq_iff_iff]
  simp only [Bool.or_eq_true, decide_eq_true_eq, beq_iff_eq, hinj]
  omega

theorem lt_offset : lt (add a m) (add a n) = decide (m < n) := by
  have hinj := offset_inj a hm hn
  rw [lt, gt_offset a hm hn, Bool.eq_iff_iff]
  simp only [Bool.and_eq_true, Bool.not_eq_true', decide_eq_false_iff_not, bne_iff_ne, ne_eq, hinj,
    decide_eq_true_eq]
  omega

theorem distance_offset (hle : n ≤ m) : distance (add a m) (add a n) = m - n := by
  obtain ⟨x, rfl⟩ := exists_wrap a
  have hdistance := distance_int (x := x + n) (y := x + m) (by omega) (by omega)
  rw [add_wrap, add_wrap, distance_wrap (by omega) (by omega)]
  omega

end Offsets

end SequenceNumber

end SeanetSim
