import SeanetSim.Core.Int64x64Invert
import SeanetSim.Core.WideInt

/-!
# Q64.64 numbers over wide integers

The second implementation of `int64x64_t`, for compilers without a 128-bit integer.  It computes the
same quotients, inverses and products with an inverse as the first one, bit for bit, and the same
products unless it aborts: here the test for an overflow looks at the high half of a product.
-/

namespace SeanetSim

/-- `int64x64_t` over `cairo_int128_t`. -/
@[ext]
structure Int64x64Cairo where
  v : WideInt
deriving DecidableEq, Repr

namespace Int64x64Cairo

open WideInt

/-- The high bit of a half. -/
def hpCairoMaskHiBit : BitVec 64 := 1#64 <<< 63

/-- Whether the result is negative, with the magnitudes of the operands. -/
def outputSign (sa sb : WideInt) : Bool × WideInt × WideInt :=
  let negA := sa.negative
  let negB := sb.negative
  let ua := if negA then sa.negate else sa
  let ub := if negB then sb.negate else sb
  ((negA && !negB) || (!negA && negB), ua, ub)

/-- The product of two magnitudes; `none` where the operation aborts. -/
def umul (a b : WideInt) : Option WideInt :=
  let loPart := mul64 a.lo b.lo
  let midPart := (mul64 a.lo b.hi).add (mul64 a.hi b.lo)
  let hiPart := mul64 a.hi b.hi
  if hiPart.hi ≠ 0 then none
  else
    let res1 := ofUInt64 loPart.hi
    let res2 := ofUInt64 midPart.lo
    let result := res1.add res2
    let res1 := ofUInt64 midPart.hi
    let res2 := ofUInt64 hiPart.lo
    let res1 := res1.add res2
    let res1 := res1.lsl 64
    some (result.add res1)

def mul (x o : Int64x64Cairo) : Option Int64x64Cairo := do
  let (sign, a, b) := outputSign x.v o.v
  let result ← umul a b
  return ⟨if sign then result.negate else result⟩

/-- The number of fraction bits. -/
def digits : ℕ := 64

/-- The variables of the loops of `Udiv`. -/
structure Division where
  rem : WideInt
  den : WideInt
  result : WideInt
  digis : ℕ
  shift : ℕ

/-- Skip trailing zeros in the divisor. -/
def skipTrailingZeros : ℕ → Division → Option Division :=
  whileLoop (fun s => decide (s.shift < digits) && s.den.lo &&& 1 == 0)
    fun s => some { s with shift := s.shift + 1, den := s.den.rsl 1 }

/-- Skip leading zeros in the remainder. -/
def skipLeadingZeros : ℕ → Division → Option Division :=
  whileLoop (fun s => decide (s.digis + s.shift < digits) && s.rem.hi &&& hpCairoMaskHiBit == 0)
    fun s => some { s with shift := s.shift + 1, rem := s.rem.lsl 1 }

/-- Cast off denominator bits. -/
def castOff : ℕ → Division → Option Division :=
  whileLoop (fun s => decide (s.digis + s.shift < digits) &&
      (s.den.lo &&& 1 == 0 || s.rem.lt s.den))
    fun s => some { s with shift := s.shift + 1, den := s.den.rsl 1 }

/-- Do the division, and add in the quotient as `shift` bits of the fraction. -/
def addDigits (turns : ℕ) (s : Division) : Option Division := do
  let qr ← divrem turns s.rem s.den
  let result := s.result.lsl s.shift
  return { s with
    rem := qr.rem, result := result.add qr.quo, digis := s.digis + s.shift, shift := 0 }

/-- A round: the next digits of the quotient. -/
def round (turns : ℕ) (s : Division) : Option Division := do
  let s ← skipLeadingZeros turns s
  let s ← castOff turns s
  addDigits turns s

def manageRemainder (turns : ℕ) : Division → Option Division :=
  whileLoop (fun s => decide (s.digis < digits) && !s.rem.eq (ofUInt32 0)) (round turns) turns

/-- The quotient of two magnitudes, with a bound on the turns of each loop; `none` where the
assertion that the remainder is less than the divisor fails. -/
def udiv (turns : ℕ) (a b : WideInt) : Option WideInt := do
  let qr ← divrem turns a b
  guard (qr.rem.lt b)
  let s ← skipTrailingZeros turns ⟨qr.rem, b, qr.quo, 0, 0⟩
  let s ← manageRemainder turns s
  -- did we run out of remainder?
  if s.digis < digits then return s.result.lsl (digits - s.digis)
  else return s.result

def div (turns : ℕ) (x o : Int64x64Cairo) : Option Int64x64Cairo := do
  let (sign, a, b) := outputSign x.v o.v
  let result ← udiv turns a b
  return ⟨if sign then result.negate else result⟩

def umulByInvert (a b : WideInt) : WideInt :=
  let hi := mul64 a.hi b.hi
  let mid := (mul64 a.hi b.lo).add (mul64 a.lo b.hi)
  let mid := ⟨mid.hi, 0⟩
  hi.add mid

def mulByInvert (x o : Int64x64Cairo) : Int64x64Cairo :=
  let sign := x.v.negative
  let a := if sign then x.v.negate else x.v
  let result := umulByInvert a o.v
  ⟨if sign then result.negate else result⟩

/-- The number with an integer and a fraction part. -/
def ofParts (hi lo : BitVec 64) : Int64x64Cairo := ⟨⟨lo, hi⟩⟩

/-- The integer part. -/
def getHigh (x : Int64x64Cairo) : BitVec 64 := x.v.hi

def invert (turns : ℕ) (v : BitVec 64) : Option Int64x64Cairo :=
  if ¬ 1 < v.toNat then none
  else do
    let result : Int64x64Cairo := ⟨← udiv turns ⟨0, 1⟩ ⟨v, 0⟩⟩
    let tmp := (ofParts v 0).mulByInvert result
    if tmp.getHigh ≠ 1 then return ⟨result.v.add ⟨1, 0⟩⟩
    else return result

/-! ## The number over a native integer -/

/-- The same bits. -/
def native (x : Int64x64Cairo) : Int64x64 := ⟨x.v.toBitVec⟩

/-! ### Halves -/

variable {a b : WideInt}

theorem toBitVec_and_maskLo (a : WideInt) :
    a.toBitVec &&& Int64x64.hpMaskLo.setWidth 128 = (ofUInt64 a.lo).toBitVec := by
  have hlo := a.lo.isLt
  rw [eq_comm, toBitVec_eq_iff, Int64x64.toNat_and_hpMaskLo, toNat_toBitVec, toNat_ofUInt64,
    WideInt.toNat]
  omega

theorem toBitVec_shiftRight (a : WideInt) : a.toBitVec >>> 64 = (ofUInt64 a.hi).toBitVec := by
  have hlo := a.lo.isLt
  rw [eq_comm, toBitVec_eq_iff, BitVec.toNat_ushiftRight, Nat.shiftRight_eq_div_pow,
    toNat_toBitVec, toNat_ofUInt64,
    WideInt.toNat]
  omega

theorem toBitVec_and_one (a : WideInt) : (a.toBitVec &&& 1 == 0) = (a.lo &&& 1 == 0) := by
  have hone : (1 : BitVec 64).toNat = 1 := by decide
  rw [Bool.eq_iff_iff, Int64x64.and_one_eq_zero_iff, beq_iff_eq, ← BitVec.toNat_inj,
    BitVec.toNat_and, hone, Nat.and_one_is_mod, toNat_toBitVec, WideInt.toNat]
  simp
  omega

theorem toBitVec_and_hiBit (a : WideInt) :
    (a.toBitVec &&& Int64x64.hp128MaskHiBit == 0) = (a.hi &&& hpCairoMaskHiBit == 0) := by
  have hmsb := msbset64_iff a
  rw [msbset64, bne, Bool.not_eq_true', ← Bool.not_eq_true, ← not_lt, not_iff_not] at hmsb
  rw [Bool.eq_iff_iff, Int64x64.and_hiBit_eq_zero_iff, toNat_toBitVec, ← hmsb]
  rfl

/-! ### Signs -/

theorem toBitVec_signed (negative : Bool) (a : WideInt) :
    (if negative then a.negate else a).toBitVec = if negative then -a.toBitVec else a.toBitVec := by
  cases negative
  · rfl
  · exact toBitVec_negate a

theorem outputSign_native (sa sb : WideInt) :
    Int64x64.outputSign sa.toBitVec sb.toBitVec =
      ((outputSign sa sb).1, (outputSign sa sb).2.1.toBitVec, (outputSign sa sb).2.2.toBitVec) := by
  simp only [Int64x64.outputSign, outputSign, negative_eq_slt, toBitVec_signed]

/-! ### Products -/

/-- The halves of the magnitudes, taken alone, make a product that fits. -/
theorem hi_mul64_eq_zero_iff (x y : BitVec 64) :
    (mul64 x y).hi = 0 ↔ x.toNat * y.toNat < 2 ^ 64 := by
  have hlo := (mul64 x y).lo.isLt
  have hprod := toNat_mul64 x y
  have hzero : (0 : BitVec 64).toNat = 0 := by decide
  rw [WideInt.toNat] at hprod
  rw [← BitVec.toNat_inj, ← hprod, hzero]
  omega

theorem umul_map (h : a.hi.toNat * b.hi.toNat < 2 ^ 64) :
    (umul a b).map toBitVec = Int64x64.umul a.toBitVec b.toBitVec := by
  have hhigh := (hi_mul64_eq_zero_iff a.hi b.hi).2 h
  have hlo (x : BitVec 64) : (ofUInt64 x).lo = x := rfl
  rw [umul, if_neg (not_not.2 hhigh), Int64x64.umul]
  simp only [Int64x64.and_hpMaskHi, toBitVec_shiftRight, toBitVec_and_maskLo, hlo, ← toBitVec_mul64,
    ← toBitVec_add, ← toBitVec_lsl _ (by decide : 64 < 128), ne_eq, not_true_eq_false, if_false,
    Option.map_some]

theorem umul_eq_none_iff : umul a b = none ↔ 2 ^ 64 ≤ a.hi.toNat * b.hi.toNat := by
  have hhigh := hi_mul64_eq_zero_iff a.hi b.hi
  rw [umul]
  split <;> rename_i hne
  · exact ⟨fun _ => not_lt.1 (hhigh.not.1 hne), fun _ => rfl⟩
  · exact ⟨nofun, fun hle => absurd (hhigh.1 (not_not.1 hne)) (not_lt.2 hle)⟩

/-- The magnitude of the integer part, rounded down. -/
def highMagnitude (x : Int64x64Cairo) : ℕ := x.v.toBitVec.toInt.natAbs / 2 ^ 64

theorem outputSign_hi (sa sb : WideInt) :
    (outputSign sa sb).2.1.hi.toNat = sa.toBitVec.toInt.natAbs / 2 ^ 64 ∧
      (outputSign sa sb).2.2.hi.toNat = sb.toBitVec.toInt.natAbs / 2 ^ 64 := by
  have hhi (a : WideInt) : a.toNat / 2 ^ 64 = a.hi.toNat := by
    have hlo := a.lo.isLt
    rw [WideInt.toNat]
    omega
  obtain ⟨ha, hb⟩ := Int64x64.outputSign_toNat sa.toBitVec sb.toBitVec
  rw [outputSign_native] at ha hb
  exact ⟨by rw [← ha, toNat_toBitVec, hhi], by rw [← hb, toNat_toBitVec, hhi]⟩

/-- A product aborts where those of the high halves alone are too large, and else is the same as
over a native integer. -/
theorem mul_map (x o : Int64x64Cairo) :
    (x.mul o).map native =
      if x.highMagnitude * o.highMagnitude < 2 ^ 64 then x.native.mul o.native else none := by
  obtain ⟨ha, hb⟩ := outputSign_hi x.v o.v
  have hsign := outputSign_native x.v o.v
  rw [highMagnitude, highMagnitude, ← ha, ← hb, mul, Int64x64.mul, native, native, hsign]
  rcases lt_or_ge ((outputSign x.v o.v).2.1.hi.toNat * (outputSign x.v o.v).2.2.hi.toNat) (2 ^ 64)
    with hlt | hge
  · rw [if_pos hlt]
    dsimp only
    rw [← umul_map hlt]
    cases umul (outputSign x.v o.v).2.1 (outputSign x.v o.v).2.2 with
    | none => rfl
    | some r => exact congrArg (fun v => some (Int64x64.mk v)) (toBitVec_signed _ r)
  · rw [if_neg (not_lt.2 hge)]
    dsimp only
    rw [umul_eq_none_iff.2 hge]
    rfl

/-! ### Quotients -/

def Division.native (s : Division) : Int64x64.Division :=
  ⟨s.rem.toBitVec, s.den.toBitVec, s.result.toBitVec, s.digis, s.shift⟩

/-- No more digits than are needed. -/
def Division.Bounded (s : Division) : Prop := s.digis + s.shift ≤ digits

/-- A division under way that has something left to divide. -/
def Division.Open (s : Division) : Prop := s.Bounded ∧ s.rem.toNat ≠ 0

variable {s t : Division} {turns : ℕ}

theorem skipTrailingZeros_map (turns : ℕ) (s : Division) :
    (skipTrailingZeros turns s).map Division.native =
      Int64x64.skipTrailingZeros turns s.native := by
  refine whileLoop_map _ (fun _ => True) (fun s _ => ?_) (fun s _ _ => ?_)
    (fun _ _ _ _ _ => trivial) trivial turns
  · exact congrArg _ (toBitVec_and_one s.den)
  · have hden : (s.den.rsl 1).toBitVec = s.den.toBitVec >>> 1 := toBitVec_rsl s.den (by decide)
    exact congrArg (fun den => some (Int64x64.Division.mk s.rem.toBitVec den s.result.toBitVec
      s.digis (s.shift + 1))) hden

theorem Bounded_skipTrailingZeros (hdigis : s.digis = 0) (hs : s.Bounded)
    (h : skipTrailingZeros turns s = some t) : t.Bounded := by
  refine (whileLoop_invariant (fun s => s.digis = 0 ∧ s.Bounded) ?_ ⟨hdigis, hs⟩ h).1.2
  rintro s t ⟨hzero, -⟩ hc ht
  obtain rfl := Option.some.inj ht
  have hlt := of_decide_eq_true (Bool.and_eq_true_iff.1 hc).1
  refine ⟨hzero, ?_⟩
  change s.digis + (s.shift + 1) ≤ digits
  omega

theorem skipLeadingZeros_map (turns : ℕ) (s : Division) :
    (skipLeadingZeros turns s).map Division.native = Int64x64.skipLeadingZeros turns s.native := by
  refine whileLoop_map _ (fun _ => True) (fun s _ => ?_) (fun s _ _ => ?_)
    (fun _ _ _ _ _ => trivial) trivial turns
  · exact congrArg _ (toBitVec_and_hiBit s.rem)
  · exact congrArg (fun rem => some (Int64x64.Division.mk rem _ _ _ _))
      (toBitVec_lsl s.rem (by decide))

theorem Open_skipLeadingZeros (hs : s.Open) (h : skipLeadingZeros turns s = some t) : t.Open := by
  refine (whileLoop_invariant Division.Open ?_ hs h).1
  rintro s t ⟨-, hrem⟩ hc ht
  obtain rfl := Option.some.inj ht
  obtain ⟨hlt, hbit⟩ := Bool.and_eq_true_iff.1 hc
  have hlt := of_decide_eq_true hlt
  rw [← toBitVec_and_hiBit, Int64x64.and_hiBit_eq_zero_iff, toNat_toBitVec] at hbit
  refine ⟨?_, ?_⟩
  · change s.digis + (s.shift + 1) ≤ digits
    omega
  · change (s.rem.lsl 1).toNat ≠ 0
    rw [toNat_lsl_one hbit]
    omega

theorem castOff_map (turns : ℕ) (s : Division) :
    (castOff turns s).map Division.native = Int64x64.castOff turns s.native := by
  refine whileLoop_map _ (fun _ => True) (fun s _ => ?_) (fun s _ _ => ?_)
    (fun _ _ _ _ _ => trivial) trivial turns
  · exact congrArg₂ (fun even less => _ && (even || less)) (toBitVec_and_one s.den)
      (lt_eq_ult s.rem s.den).symm
  · have hden : (s.den.rsl 1).toBitVec = s.den.toBitVec >>> 1 := toBitVec_rsl s.den (by decide)
    exact congrArg (fun den => some (Int64x64.Division.mk s.rem.toBitVec den s.result.toBitVec
      s.digis (s.shift + 1))) hden

theorem Open_castOff (hs : s.Open) (h : castOff turns s = some t) : t.Open := by
  refine (whileLoop_invariant Division.Open ?_ hs h).1
  rintro s t ⟨-, hrem⟩ hc ht
  obtain rfl := Option.some.inj ht
  have hlt := of_decide_eq_true (Bool.and_eq_true_iff.1 hc).1
  refine ⟨?_, hrem⟩
  change s.digis + (s.shift + 1) ≤ digits
  omega

theorem toBitVec_eq_zero_iff (a : WideInt) : a.toBitVec = 0 ↔ a.toNat = 0 := by
  have hzero : (0 : BitVec 128).toNat = 0 := BitVec.toNat_zero
  rw [toBitVec_eq_iff, hzero]

theorem addDigits_map (hs : s.Open) (hturns : 128 ≤ turns) :
    (addDigits turns s).map Division.native = Int64x64.addDigits s.native := by
  obtain ⟨hbounded, hrem⟩ := hs
  have hshift : s.shift < 128 := by
    rw [Division.Bounded, digits] at hbounded
    omega
  rw [addDigits, Int64x64.addDigits]
  by_cases hden : s.den.toNat = 0
  · have hzero : s.native.den = 0 := (toBitVec_eq_zero_iff s.den).2 hden
    rw [if_pos hzero, divrem_of_eq hrem hden]
    rfl
  · have hne : s.native.den ≠ 0 := (toBitVec_eq_zero_iff s.den).not.2 hden
    obtain ⟨qr, hqr, hquo, hres⟩ := divrem_of_ne s.rem hden hturns
    rw [if_neg hne, hqr]
    simp only [Option.bind_eq_bind, Option.bind_some, Option.pure_def, Option.map_some,
      Division.native, toBitVec_udiv hquo, toBitVec_umod hres, toBitVec_add, toBitVec_lsl _ hshift]

theorem Bounded_addDigits (hs : s.Bounded) (h : addDigits turns s = some t) : t.Bounded := by
  obtain ⟨qr, -, ht⟩ := Option.bind_eq_some_iff.1 h
  obtain rfl := Option.some.inj ht
  exact hs

theorem round_map (hs : s.Open) (hturns : 128 ≤ turns) :
    (round turns s).map Division.native = Int64x64.round turns s.native := by
  rw [round, Int64x64.round, ← skipLeadingZeros_map]
  cases ht : skipLeadingZeros turns s with
  | none => rfl
  | some t =>
    have hopen := Open_skipLeadingZeros hs ht
    simp only [Option.bind_eq_bind, Option.bind_some, Option.map_some]
    rw [← castOff_map]
    cases hu : castOff turns t with
    | none => rfl
    | some u => exact addDigits_map (Open_castOff hopen hu) hturns

theorem Bounded_round (hs : s.Open) (h : round turns s = some t) : t.Bounded := by
  obtain ⟨u, hu, h⟩ := Option.bind_eq_some_iff.1 h
  obtain ⟨v, hv, h⟩ := Option.bind_eq_some_iff.1 h
  exact Bounded_addDigits (Open_castOff (Open_skipLeadingZeros hs hu) hv).1 h

theorem eq_zero_iff (a : WideInt) : a.eq (ofUInt32 0) ↔ a.toNat = 0 := by
  have hzero : (ofUInt32 0).toNat = 0 := toNat_ofUInt32 0
  rw [eq_iff, ← toNat_inj, hzero]

theorem Open_of_cond (hs : s.Bounded)
    (hc : (decide (s.digis < digits) && !s.rem.eq (ofUInt32 0)) = true) : s.Open := by
  have hrem := (Bool.and_eq_true_iff.1 hc).2
  rw [Bool.not_eq_true', ← Bool.not_eq_true, eq_zero_iff] at hrem
  exact ⟨hs, hrem⟩

theorem manageRemainder_map (hs : s.Bounded) (hturns : 128 ≤ turns) :
    (manageRemainder turns s).map Division.native = Int64x64.manageRemainder turns s.native := by
  refine whileLoop_map _ Division.Bounded (fun s _ => ?_) (fun s hs hc => ?_)
    (fun s t hs hc ht => Bounded_round (Open_of_cond hs hc) ht) hs turns
  · have hzero : (s.rem.toBitVec != 0) = !s.rem.eq (ofUInt32 0) := by
      rw [Bool.eq_iff_iff, bne_iff_ne, Bool.not_eq_true', ← Bool.not_eq_true, eq_zero_iff, ne_eq,
        toBitVec_eq_zero_iff]
    exact congrArg _ hzero
  · exact round_map (Open_of_cond hs hc) hturns

/-- The quotient of two magnitudes, also where none is returned: by zero. -/
theorem udiv_map (a b : WideInt) (hturns : 128 ≤ turns) :
    (udiv turns a b).map toBitVec = Int64x64.udiv turns a.toBitVec b.toBitVec := by
  rw [udiv, Int64x64.udiv]
  by_cases hb : b.toNat = 0
  · rw [if_pos ((toBitVec_eq_zero_iff b).2 hb)]
    cases divrem turns a b with
    | none => rfl
    | some qr =>
      have hlt : qr.rem.lt b = false := by
        rw [← Bool.not_eq_true, lt_iff]
        omega
      simp [hlt]
  · obtain ⟨qr, hqr, hquo, hrem⟩ := divrem_of_ne a hb hturns
    have hlt : qr.rem.lt b = true := by
      rw [lt_iff, hrem]
      exact Nat.mod_lt _ (Nat.pos_of_ne_zero hb)
    have hstart : Division.native ⟨qr.rem, b, qr.quo, 0, 0⟩ =
        ⟨a.toBitVec % b.toBitVec, b.toBitVec, a.toBitVec / b.toBitVec, 0, 0⟩ := by
      rw [Division.native, toBitVec_udiv hquo, toBitVec_umod hrem]
    rw [if_neg ((toBitVec_eq_zero_iff b).not.2 hb), ← hstart, ← skipTrailingZeros_map, hqr]
    simp only [Option.bind_eq_bind, Option.bind_some, hlt, guard_true]
    cases hs : skipTrailingZeros turns ⟨qr.rem, b, qr.quo, 0, 0⟩ with
    | none => rfl
    | some s =>
      have hbounded := Bounded_skipTrailingZeros (s := ⟨qr.rem, b, qr.quo, 0, 0⟩) rfl
        (Nat.zero_le _) hs
      simp only [Option.map_some, Option.bind_some]
      rw [← manageRemainder_map hbounded hturns]
      cases ht : manageRemainder turns s with
      | none => rfl
      | some t =>
        change Option.map toBitVec (if t.digis < 64 then some (t.result.lsl (64 - t.digis))
          else some t.result) = if t.digis < 64 then some (t.result.toBitVec <<< (64 - t.digis))
            else some t.result.toBitVec
        split
        · exact congrArg some (toBitVec_lsl _ (by omega))
        · rfl

theorem div_map (x o : Int64x64Cairo) (hturns : 128 ≤ turns) :
    (x.div turns o).map native = x.native.div turns o.native := by
  rw [div, Int64x64.div, native, native, outputSign_native]
  dsimp only
  rw [← udiv_map _ _ hturns]
  cases udiv turns (outputSign x.v o.v).2.1 (outputSign x.v o.v).2.2 with
  | none => rfl
  | some r => exact congrArg (fun v => some (Int64x64.mk v)) (toBitVec_signed _ r)

/-! ### Inverses -/

theorem umulByInvert_toBitVec (a b : WideInt) :
    (umulByInvert a b).toBitVec = Int64x64.umulByInvert a.toBitVec b.toBitVec := by
  have hlo (x : BitVec 64) : (ofUInt64 x).lo = x := rfl
  simp only [umulByInvert, Int64x64.umulByInvert, toBitVec_shiftRight, toBitVec_and_maskLo,
    ← toBitVec_mul64, ← toBitVec_add]
  rfl

theorem mulByInvert_native (x o : Int64x64Cairo) :
    (x.mulByInvert o).native = x.native.mulByInvert o.native := by
  simp only [mulByInvert, Int64x64.mulByInvert, native, ← negative_eq_slt, ← toBitVec_signed,
    ← umulByInvert_toBitVec]

theorem getHigh_native (x : Int64x64Cairo) : x.native.getHigh = x.getHigh := by
  have hlo := x.v.lo.isLt
  have hhi := x.v.hi.isLt
  rw [← BitVec.toInt_inj, Int64x64.toInt_getHigh, native, getHigh, BitVec.toInt_eq_toNat_cond,
    BitVec.toInt_eq_toNat_cond, toNat_toBitVec, WideInt.toNat]
  split <;> split <;> omega

theorem ofParts_native (v : BitVec 64) : (ofParts v 0).native = Int64x64.ofParts v 0 := by
  have hparts : Int64x64.ofParts v 0 = Int64x64.ofLong v := by
    simp [Int64x64.ofParts, Int64x64.ofLong]
  have hword : (ofParts v 0).v.toNat = (Int64x64.ofLong v).v.toNat := by
    simp [Int64x64.toNat_ofLong, ofParts, WideInt.toNat]
  rw [hparts]
  exact congrArg Int64x64.mk (toBitVec_eq_iff.2 hword)

theorem invert_map (v : BitVec 64) (hturns : 128 ≤ turns) :
    (invert turns v).map native = Int64x64.invert turns v := by
  have hone : toBitVec ⟨0, 1⟩ = 1#128 <<< 64 := by decide
  have hv : toBitVec ⟨v, 0⟩ = v.setWidth 128 := by
    have hlt := v.isLt
    have h := toNat_ofUInt64 v
    rw [toBitVec_eq_iff, BitVec.toNat_setWidth, Nat.mod_eq_of_lt (by omega)]
    exact h
  rw [invert, Int64x64.invert]
  split
  · rfl
  · rw [← hone, ← hv, ← udiv_map _ _ hturns]
    cases hr : udiv turns ⟨0, 1⟩ ⟨v, 0⟩ with
    | none => rfl
    | some r =>
      simp only [Option.bind_eq_bind, Option.bind_some, Option.map_some]
      have hhigh : ((Int64x64.ofParts v 0).mulByInvert ⟨r.toBitVec⟩).getHigh =
          ((ofParts v 0).mulByInvert ⟨r⟩).getHigh := by
        rw [← getHigh_native, mulByInvert_native, ofParts_native]
        rfl
      rw [hhigh]
      split
      · exact congrArg (fun v => some (Int64x64.mk v)) (toBitVec_add r ⟨1, 0⟩)
      · rfl

/-! ## The two implementations -/

/-- Over wide integers every operation gives the same bits as over a native integer, or gives
nothing where that gives nothing; but a product whose integer part alone does not fit aborts. -/
theorem agrees_with_native (x o : Int64x64Cairo) (v : BitVec 64) (hturns : 128 ≤ turns) :
    (x.div turns o).map native = x.native.div turns o.native ∧
      (x.mul o).map native =
        (if x.highMagnitude * o.highMagnitude < 2 ^ 64 then x.native.mul o.native else none) ∧
      (x.mulByInvert o).native = x.native.mulByInvert o.native ∧
      (invert turns v).map native = Int64x64.invert turns v ∧
      x.native.getHigh = x.getHigh :=
  ⟨div_map x o hturns, mul_map x o, mulByInvert_native x o, invert_map v hturns, getHigh_native x⟩

/-- Minus seven by two, with its inverse. -/
theorem agrees_with_native_seven :
    (div 128 (ofParts (-7) 0) (ofParts 2 0)).map native =
      (ofParts (-7) 0).native.div 128 (ofParts 2 0).native ∧
    (invert 128 2).map native = Int64x64.invert 128 2 :=
  have h := agrees_with_native (ofParts (-7) 0) (ofParts 2 0) 2 (le_refl 128)
  ⟨h.1, h.2.2.2.1⟩

/-- The number that the wide integer stands for. -/
def toRat (x : Int64x64Cairo) : ℚ := x.native.toRat

/-- The operation returns the true product, truncated toward zero to 64 fractional bits, or aborts
where the product does not fit. -/
def MulExactOrAborts (x o : Int64x64Cairo) : Prop :=
  (∃ r, x.mul o = some r ∧ r.native.v.toInt = FixedPoint.truncate 64 (x.toRat * o.toRat)) ∨
    (x.mul o = none ∧ ¬ Int64x64.ProductFits x.native o.native)

/-- Where the integer parts alone are too large, the product does not fit. -/
theorem not_productFits_of_high {x o : Int64x64Cairo}
    (h : 2 ^ 64 ≤ x.highMagnitude * o.highMagnitude) :
    ¬ Int64x64.ProductFits x.native o.native := by
  have hprod : 2 ^ 64 * (2 ^ 64 * 2 ^ 64) ≤ (x.native.v.toInt * o.native.v.toInt).natAbs := by
    rw [Int.natAbs_mul]
    calc 2 ^ 64 * (2 ^ 64 * 2 ^ 64)
        ≤ x.highMagnitude * o.highMagnitude * (2 ^ 64 * 2 ^ 64) := Nat.mul_le_mul_right _ h
      _ = x.highMagnitude * 2 ^ 64 * (o.highMagnitude * 2 ^ 64) := by ring
      _ ≤ _ := Nat.mul_le_mul (Nat.div_mul_le_self ..) (Nat.div_mul_le_self ..)
  rintro ⟨hlow, hhigh⟩
  omega

theorem mulExactOrAborts_iff_fits_or_high (x o : Int64x64Cairo) :
    MulExactOrAborts x o ↔
      Int64x64.ProductFits x.native o.native ∨ 2 ^ 64 ≤ x.highMagnitude * o.highMagnitude := by
  have hmap := mul_map x o
  rcases lt_or_ge (x.highMagnitude * o.highMagnitude) (2 ^ 64) with hlt | hge
  · obtain ⟨r, hr, hval⟩ := Int64x64.mul_toInt x.native o.native
    rw [if_pos hlt, hr] at hmap
    obtain ⟨p, hp, rfl⟩ := Option.map_eq_some_iff.1 hmap
    have hexact : MulExactOrAborts x o ↔
        p.native.v.toInt = FixedPoint.truncate 64 (x.toRat * o.toRat) := by
      simp [MulExactOrAborts, hp]
    rw [hexact, hval, toRat, toRat, Int64x64.bmod_eq_self_iff, ← Int64x64.productFits_iff]
    exact (or_iff_left (not_le.2 hlt)).symm
  · rw [if_neg (not_lt.2 hge), Option.map_eq_none_iff] at hmap
    exact ⟨fun _ => .inr hge, fun _ => .inr ⟨hmap, not_productFits_of_high hge⟩⟩

end Int64x64Cairo

end SeanetSim
