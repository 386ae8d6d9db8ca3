import SeanetSim.Core.Int64x64
import SeanetSim.Lib.LongDivision
import SeanetSim.Lib.WhileLoop

/-!
# The quotient of two Q64.64 numbers

`Udiv` finds several binary digits of the quotient in a round: it doubles the remainder until its
highest bit is set, then halves the divisor, and divides.  Halving drops a bit of the divisor only
if the divisor is even or greater than the remainder; the latter never happens, since no divisor is
greater than 2^127.  So all halvings are exact, and each round finds at least one digit.
-/

namespace SeanetSim

open FixedPoint

namespace Int64x64

/-- The high bit of a 128-bit word. -/
def hp128MaskHiBit : BitVec 128 := 1#128 <<< 127

/-- The number of fraction bits. -/
def digits : ℕ := 64

/-- The variables of the loops of `Udiv`. -/
structure Division where
  rem : BitVec 128
  den : BitVec 128
  result : BitVec 128
  digis : ℕ
  shift : ℕ

/-- Skip trailing zeros in the divisor. -/
def skipTrailingZeros : ℕ → Division → Option Division :=
  whileLoop (fun s => decide (s.shift < digits) && s.den &&& 1 == 0)
    fun s => some { s with shift := s.shift + 1, den := s.den >>> 1 }

/-- Skip leading zeros in the remainder. -/
def skipLeadingZeros : ℕ → Division → Option Division :=
  whileLoop (fun s => decide (s.digis + s.shift < digits) && s.rem &&& hp128MaskHiBit == 0)
    fun s => some { s with shift := s.shift + 1, rem := s.rem <<< 1 }

/-- Cast off denominator bits. -/
def castOff : ℕ → Division → Option Division :=
  whileLoop (fun s => decide (s.digis + s.shift < digits) &&
      (s.den &&& 1 == 0 || s.rem.ult s.den))
    fun s => some { s with shift := s.shift + 1, den := s.den >>> 1 }

/-- Do the division, and add in the quotient as `shift` bits of the fraction; `none` where the
divisor is zero. -/
def addDigits (s : Division) : Option Division :=
  if s.den = 0 then none
  else
    let quo := s.rem / s.den
    let rem := s.rem % s.den
    let result := s.result <<< s.shift
    some { s with rem := rem, result := result + quo, digis := s.digis + s.shift, shift := 0 }

/-- A round: the next digits of the quotient. -/
def round (turns : ℕ) (s : Division) : Option Division := do
  let s ← skipLeadingZeros turns s
  let s ← castOff turns s
  addDigits s

def manageRemainder (turns : ℕ) : Division → Option Division :=
  whileLoop (fun s => decide (s.digis < digits) && s.rem != 0) (round turns) turns

/-- The quotient of two magnitudes, with a bound on the turns of each loop. -/
def udiv (turns : ℕ) (a b : BitVec 128) : Option (BitVec 128) :=
  if b = 0 then none
  else do
    let s ← skipTrailingZeros turns ⟨a % b, b, a / b, 0, 0⟩
    let s ← manageRemainder turns s
    -- did we run out of remainder?
    if s.digis < digits then return s.result <<< (digits - s.digis)
    else return s.result

def div (turns : ℕ) (x o : Int64x64) : Option Int64x64 := do
  let (negative, a, b) := outputSign x.v o.v
  let result ← udiv turns a b
  return ⟨if negative then -result else result⟩

/-! ## The invariant of the loops -/

def Division.toNat (s : Division) : LongDivision :=
  ⟨s.rem.toNat, s.den.toNat, s.result.toNat, s.digis, s.shift⟩

/-- A division of `a` by `b` under way. -/
structure Dividing (a b : ℕ) (s : Division) : Prop where
  exact : s.toNat.Exact a b
  pos : 0 < b
  den_pos : 0 < s.den.toNat
  den_le : s.den.toNat ≤ 2 ^ 127
  digits_le : s.digis + s.shift ≤ digits
  rem_lt : s.shift = 0 → s.rem.toNat < s.den.toNat

theorem and_one_eq_zero_iff (a : BitVec 128) : (a &&& 1 == 0) = true ↔ a.toNat % 2 = 0 := by
  rw [beq_iff_eq, ← BitVec.toNat_inj, BitVec.toNat_and]
  exact Nat.and_one_is_mod _ ▸ Iff.rfl

theorem and_hiBit_eq_zero_iff (a : BitVec 128) :
    (a &&& hp128MaskHiBit == 0) = true ↔ a.toNat < 2 ^ 127 := by
  have ha := a.isLt
  have hmask : hp128MaskHiBit.toNat = 2 ^ 127 := by decide
  rw [beq_iff_eq, ← BitVec.toNat_inj, BitVec.toNat_and, hmask, Nat.and_two_pow,
    Nat.testBit_eq_decide_div_mod_eq]
  by_cases hbit : a.toNat / 2 ^ 127 % 2 = 1 <;> simp <;> omega

theorem toNat_shiftLeft_one {a : BitVec 128} (ha : a.toNat < 2 ^ 127) :
    (a <<< 1).toNat = a.toNat * 2 := by
  rw [BitVec.toNat_shiftLeft, Nat.shiftLeft_eq, pow_one, Nat.mod_eq_of_lt (by omega)]

theorem toNat_ushiftRight_one (a : BitVec 128) : (a >>> 1).toNat = a.toNat / 2 := by
  rw [BitVec.toNat_ushiftRight, Nat.shiftRight_eq_div_pow, pow_one]

namespace Dividing

variable {a b : ℕ} {s : Division}

theorem halve_den (h : Dividing a b s) (heven : s.den.toNat % 2 = 0)
    (hlt : s.digis + s.shift < digits) :
    Dividing a b { s with shift := s.shift + 1, den := s.den >>> 1 } := by
  have hpos := h.den_pos
  have hle := h.den_le
  refine ⟨?_, h.pos, ?_, ?_, ?_, ?_⟩
  · simpa only [Division.toNat, toNat_ushiftRight_one] using h.exact.halve_den heven
  · rw [toNat_ushiftRight_one]
    omega
  · rw [toNat_ushiftRight_one]
    omega
  · exact hlt
  · exact fun h0 => absurd h0 (Nat.succ_ne_zero _)

theorem double_rem (h : Dividing a b s) (hrem : s.rem.toNat < 2 ^ 127)
    (hlt : s.digis + s.shift < digits) :
    Dividing a b { s with shift := s.shift + 1, rem := s.rem <<< 1 } := by
  refine ⟨?_, h.pos, h.den_pos, h.den_le, hlt, fun h0 => absurd h0 (Nat.succ_ne_zero _)⟩
  simpa only [Division.toNat, toNat_shiftLeft_one hrem] using h.exact.double_rem

/-- No digit is lost where the quotient has less than 65 digits before the point. -/
theorem addDigits (h : Dividing a b s) (hfits : a * 2 ^ digits / b < 2 ^ 128) :
    ∃ t, Int64x64.addDigits s = some t ∧ Dividing a b t ∧ t.digis = s.digis + s.shift := by
  have hden : s.den ≠ 0 := fun h0 => by simpa [h0] using h.den_pos
  have hdigits := h.digits_le
  have hexact := h.exact.divide
  -- the digits found so far fit, since those of the whole quotient do
  have hresult : s.result.toNat * 2 ^ s.shift + s.rem.toNat / s.den.toNat < 2 ^ 128 :=
    calc s.result.toNat * 2 ^ s.shift + s.rem.toNat / s.den.toNat
        ≤ a * 2 ^ (s.digis + s.shift) / b := hexact.result_le h.pos
      _ ≤ a * 2 ^ digits / b := by gcongr; exact one_le_two
      _ < 2 ^ 128 := hfits
  have hword : (s.result <<< s.shift + s.rem / s.den).toNat =
      s.result.toNat * 2 ^ s.shift + s.rem.toNat / s.den.toNat := by
    rw [BitVec.toNat_add, BitVec.toNat_shiftLeft, Nat.shiftLeft_eq, BitVec.toNat_udiv,
      Nat.mod_add_mod, Nat.mod_eq_of_lt hresult]
  refine ⟨_, if_neg hden, ⟨?_, h.pos, h.den_pos, h.den_le, hdigits, fun _ => ?_⟩, rfl⟩
  · simpa only [Division.toNat, hword, BitVec.toNat_umod] using hexact
  · exact BitVec.toNat_umod ▸ Nat.mod_lt _ h.den_pos

end Dividing

/-! ## The loops -/

variable {a b : ℕ} {s : Division} {turns : ℕ}

theorem skipTrailingZeros_spec (h : Dividing a b s) (hdigis : s.digis = 0)
    (hturns : digits ≤ turns) :
    ∃ t, skipTrailingZeros turns s = some t ∧ Dividing a b t ∧ t.digis = 0 := by
  refine whileLoop_spec (fun s => Dividing a b s ∧ s.digis = 0) (fun s => digits - s.shift)
    ?_ ⟨h, hdigis⟩ (by omega) fun t ht _ => ht
  rintro s ⟨hs, hzero⟩ hc
  obtain ⟨hlt, heven⟩ := Bool.and_eq_true_iff.1 hc
  have hlt := of_decide_eq_true hlt
  refine ⟨_, rfl, ⟨hs.halve_den ((and_one_eq_zero_iff _).1 heven) (by omega), hzero⟩, ?_⟩
  change digits - (s.shift + 1) < digits - s.shift
  omega

/-- The remainder has its highest bit set, or no more digits are needed. -/
def Aligned (s : Division) : Prop := s.digis + s.shift < digits → 2 ^ 127 ≤ s.rem.toNat

theorem skipLeadingZeros_spec (h : Dividing a b s) (hturns : digits ≤ turns) :
    ∃ t, skipLeadingZeros turns s = some t ∧ Dividing a b t ∧ Aligned t ∧ t.digis = s.digis := by
  refine whileLoop_spec (fun t => Dividing a b t ∧ t.digis = s.digis)
    (fun t => digits - t.digis - t.shift) ?_ ⟨h, rfl⟩ (by omega) ?_
  · rintro t ⟨ht, hdigis⟩ hc
    obtain ⟨hlt, hbit⟩ := Bool.and_eq_true_iff.1 hc
    have hlt := of_decide_eq_true hlt
    refine ⟨_, rfl, ⟨ht.double_rem ((and_hiBit_eq_zero_iff _).1 hbit) hlt, hdigis⟩, ?_⟩
    change digits - t.digis - (t.shift + 1) < digits - t.digis - t.shift
    omega
  · rintro t ⟨ht, hdigis⟩ hc
    refine ⟨ht, fun hlt => ?_, hdigis⟩
    rw [decide_eq_true hlt, Bool.true_and] at hc
    exact not_lt.1 ((and_hiBit_eq_zero_iff t.rem).not.1 (Bool.eq_false_iff.1 hc))

theorem castOff_spec (h : Dividing a b s) (haligned : Aligned s) (hturns : digits ≤ turns) :
    ∃ t, castOff turns s = some t ∧ Dividing a b t ∧ Aligned t ∧ t.digis = s.digis := by
  refine whileLoop_spec (fun t => Dividing a b t ∧ Aligned t ∧ t.digis = s.digis)
    (fun t => digits - t.digis - t.shift) ?_ ⟨h, haligned, rfl⟩ (by omega) fun t ht _ => ht
  rintro t ⟨ht, hal, hdigis⟩ hc
  obtain ⟨hlt, hcast⟩ := Bool.and_eq_true_iff.1 hc
  have hlt := of_decide_eq_true hlt
  -- the divisor is not greater than the aligned remainder
  have heven : t.den.toNat % 2 = 0 := by
    rcases Bool.or_eq_true_iff.1 hcast with heven | hless
    · exact (and_one_eq_zero_iff _).1 heven
    · have hless : t.rem.toNat < t.den.toNat := by simpa [BitVec.ult] using hless
      have hrem := hal hlt
      have hden := ht.den_le
      omega
  refine ⟨_, rfl, ⟨ht.halve_den heven hlt, fun h' => hal (by omega), hdigis⟩, ?_⟩
  change digits - t.digis - (t.shift + 1) < digits - t.digis - t.shift
  omega

theorem round_spec (h : Dividing a b s) (hfits : a * 2 ^ digits / b < 2 ^ 128)
    (hdigis : s.digis < digits) (hturns : digits ≤ turns) :
    ∃ t, round turns s = some t ∧ Dividing a b t ∧ s.digis < t.digis := by
  obtain ⟨t, ht, hdiv, hal, heq⟩ := skipLeadingZeros_spec h hturns
  obtain ⟨u, hu, hdiv', hal', heq'⟩ := castOff_spec hdiv hal hturns
  have hshift : 0 < u.shift := by
    refine Nat.pos_of_ne_zero fun hzero => ?_
    have hrem := hal' (by omega)
    have hlt := hdiv'.rem_lt hzero
    have hden := hdiv'.den_le
    omega
  obtain ⟨v, hv, hdiv'', hdigis'⟩ := hdiv'.addDigits hfits
  refine ⟨v, ?_, hdiv'', by omega⟩
  rw [round, ht, Option.bind_eq_bind, Option.bind_some, hu]
  exact hv

theorem manageRemainder_spec (h : Dividing a b s) (hfits : a * 2 ^ digits / b < 2 ^ 128)
    (hturns : digits ≤ turns) :
    ∃ t, manageRemainder turns s = some t ∧ Dividing a b t ∧
      (digits ≤ t.digis ∨ t.rem.toNat = 0) := by
  refine whileLoop_spec (Dividing a b) (fun s => digits - s.digis) ?_ h (by omega) ?_
  · intro s hs hc
    have hlt := of_decide_eq_true (Bool.and_eq_true_iff.1 hc).1
    obtain ⟨t, ht, hdiv, hmore⟩ := round_spec hs hfits hlt hturns
    exact ⟨t, ht, hdiv, by omega⟩
  · intro t ht hc
    refine ⟨ht, ?_⟩
    by_cases hlt : t.digis < digits
    · rw [decide_eq_true hlt, Bool.true_and, bne_eq_false_iff_eq] at hc
      exact .inr (by simp [hc])
    · exact .inl (by omega)

/-! ## The quotient -/

theorem udiv_eq {a b : BitVec 128} (hb : 0 < b.toNat) (hle : b.toNat ≤ 2 ^ 127)
    (hfits : a.toNat * 2 ^ digits / b.toNat < 2 ^ 128) (hturns : digits ≤ turns) :
    udiv turns a b = some (BitVec.ofNat 128 (a.toNat * 2 ^ digits / b.toNat)) := by
  have hne : b ≠ 0 := fun h0 => by simp [h0] at hb
  have hstart : Dividing a.toNat b.toNat ⟨a % b, b, a / b, 0, 0⟩ := by
    refine ⟨?_, hb, hb, hle, Nat.zero_le _, fun _ => ?_⟩
    · simpa only [Division.toNat, BitVec.toNat_umod, BitVec.toNat_udiv] using
        LongDivision.exact_start a.toNat b.toNat
    · exact BitVec.toNat_umod ▸ Nat.mod_lt _ hb
  obtain ⟨s, hs, hdiv, -⟩ := skipTrailingZeros_spec hstart rfl hturns
  obtain ⟨t, ht, hdiv', hend⟩ := manageRemainder_spec hdiv hfits hturns
  have hdigits := hdiv'.digits_le
  rw [udiv, if_neg hne, hs, Option.bind_eq_bind, Option.bind_some, ht, Option.bind_some]
  split
  · rename_i hlt
    have hrem : t.rem.toNat = 0 := hend.resolve_left (by omega)
    have hres := hdiv'.exact.result_eq_of_rem hrem hb (n := digits) hlt.le
    refine congrArg some (BitVec.eq_of_toNat_eq ?_)
    rw [BitVec.toNat_shiftLeft, Nat.shiftLeft_eq, BitVec.toNat_ofNat, ← hres]
    rfl
  · have hall : t.digis = digits := by omega
    have hshift : t.shift = 0 := by omega
    have hres := hdiv'.exact.result_eq hshift (hdiv'.rem_lt hshift) hb
    refine congrArg some (BitVec.eq_of_toNat_eq ?_)
    rw [BitVec.toNat_ofNat, Nat.mod_eq_of_lt hfits, ← hall]
    exact hres

theorem tdiv_eq_signed (m n : ℤ) (k : ℕ) :
    (m * 2 ^ k).tdiv n =
      if decide (m < 0) != decide (n < 0) then -((m.natAbs * 2 ^ k / n.natAbs : ℕ) : ℤ)
      else (m.natAbs * 2 ^ k / n.natAbs : ℕ) := by
  have hnat (i j : ℕ) : ((i * 2 ^ k / j : ℕ) : ℤ) = ((i : ℤ) * 2 ^ k).tdiv j := by
    rw [Int.ofNat_tdiv]
    push_cast
    rfl
  simp only [hnat, Int.natCast_natAbs]
  rcases lt_or_ge m 0 with hm | hm <;> rcases lt_or_ge n 0 with hn | hn <;>
    simp [hm, hn, hm.not_gt, hn.not_gt, abs_of_neg, abs_of_nonneg]

/-- The magnitude of a quotient below 2^63 leaves room for the sign. -/
theorem natAbs_div_lt {m n : ℤ} (hn : n ≠ 0)
    (hq : |FixedPoint.toRat 64 m / FixedPoint.toRat 64 n| < 2 ^ 63) :
    m.natAbs * 2 ^ digits / n.natAbs < 2 ^ 127 := by
  have hpos : 0 < n.natAbs := Int.natAbs_pos.2 hn
  have hlt : m.natAbs < 2 ^ 63 * n.natAbs := by
    rw [FixedPoint.toRat, FixedPoint.toRat, div_div_div_cancel_right₀ (by positivity), abs_div,
      div_lt_iff₀ (by positivity)] at hq
    rw [← Nat.cast_lt (α := ℚ)]
    norm_num at hq
    simpa using hq
  rw [Nat.div_lt_iff_lt_mul hpos, digits]
  omega

/-- The quotient is the true one, truncated, and the loops end. -/
theorem div_eq_truncate (x o : Int64x64) (ho : o.v ≠ 0) (hq : |x.toRat / o.toRat| < 2 ^ 63)
    (turns : ℕ) (hturns : digits ≤ turns) :
    ∃ r, x.div turns o = some r ∧ r.v.toInt = truncate 64 (x.toRat / o.toRat) := by
  obtain ⟨ha, hb⟩ := outputSign_toNat x.v o.v
  have ho' : o.v.toInt ≠ 0 := fun h0 => ho (BitVec.toInt_inj.1 h0)
  have hlt := natAbs_div_lt ho' hq
  have hudiv := udiv_eq (a := (outputSign x.v o.v).2.1)
    (b := (outputSign x.v o.v).2.2) (by omega) (hb.trans_le (natAbs_toInt_le o.v))
    (by rw [ha, hb]; omega) hturns
  rw [ha, hb] at hudiv
  refine ⟨⟨if (outputSign x.v o.v).1 then _ else _⟩, congrArg (Option.bind · _) hudiv, ?_⟩
  have htrue := (truncate_toRat_div_toRat 64 x.v.toInt o.v.toInt).trans (tdiv_eq_signed _ _ digits)
  rw [toInt_signed, outputSign_negative, toRat, toRat, htrue, bmod_eq_self_iff]
  generalize x.v.toInt.natAbs * 2 ^ digits / o.v.toInt.natAbs = q at hlt ⊢
  split <;> omega

/-- Minus seven by two is minus three and a half. -/
theorem div_seven_by_two :
    ∃ r, div digits ⟨-7#128 <<< 64⟩ ⟨2#128 <<< 64⟩ = some r ∧ r.v.toInt = -7 * 2 ^ 63 := by
  have hseven : toRat ⟨-7#128 <<< 64⟩ / toRat ⟨2#128 <<< 64⟩ = -7 / 2 := by
    have hx : (-7#128 <<< 64).toInt = -7 * 2 ^ 64 := by decide
    have ho : (2#128 <<< 64).toInt = 2 * 2 ^ 64 := by decide
    norm_num [toRat, FixedPoint.toRat, hx, ho]
  obtain ⟨r, hr, hval⟩ := div_eq_truncate ⟨-7#128 <<< 64⟩ ⟨2#128 <<< 64⟩ (by decide)
    (by rw [hseven]; norm_num [abs_of_neg]) digits le_rfl
  have htrue := truncate_div 64 (-7) 2
  refine ⟨r, hr, ?_⟩
  rw [hval, hseven]
  exact_mod_cast htrue

end Int64x64

end SeanetSim
