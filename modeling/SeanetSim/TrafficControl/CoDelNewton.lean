import Mathlib.Tactic.Linarith
import SeanetSim.TrafficControl.CoDel
import SeanetSim.Lib.Run

/-!
# The Newton iteration of CoDel

`NewtonStep` brings `m_recInvSqrt` nearer to the reciprocal square root of `m_count`, in 16-bit
fixed point.  In every run the count times the square of the reciprocal is at most one, so that no
intermediate result of a call leaves its machine word (`CoDel.newtonInRange_of_run`).
-/

namespace SeanetSim

namespace CoDel

/-! ## The iteration without machine words -/

/-- `invsqrt2`. -/
def invsqrt2 (r : ℕ) : ℕ := (r * 2 ^ 16) * (r * 2 ^ 16) / 2 ^ 32

/-- `val >> 2`. -/
def newtonVal (r n : ℕ) : ℕ := (3 * 2 ^ 32 - n * invsqrt2 r) / 4

/-- What `NewtonStep` returns if nothing is cut off. -/
def newton (r n : ℕ) : ℕ := newtonVal r n * (r * 2 ^ 16) / 2 ^ 31 / 2 ^ 16

/-- Nothing leaves its machine word in a call of `NewtonStep`. -/
structure NewtonInRange (recInvSqrt : UInt16) (count : UInt32) : Prop where
  subtraction : count.toNat * invsqrt2 recInvSqrt.toNat ≤ 3 * 2 ^ 32
  product : newtonVal recInvSqrt.toNat count.toNat * (recInvSqrt.toNat * 2 ^ 16) < 2 ^ 64
  result : newton recInvSqrt.toNat count.toNat < 2 ^ 16

variable {r n : ℕ}

theorem invsqrt2_eq (r : ℕ) : invsqrt2 r = r * r := by
  have hmul : (r * 2 ^ 16) * (r * 2 ^ 16) = r * r * 2 ^ 32 := by ring
  rw [invsqrt2, hmul, Nat.mul_div_cancel _ (by decide)]

theorem newton_mul_le (r n : ℕ) :
    newton r n * 2 ^ 33 ≤ r * (3 * 2 ^ 32 - n * (r * r)) := by
  have hval : newtonVal r n * 4 ≤ 3 * 2 ^ 32 - n * (r * r) := by
    rw [newtonVal, invsqrt2_eq]
    exact Nat.div_mul_le_self _ _
  have hscale : newtonVal r n * (r * 2 ^ 16) = newtonVal r n * r * 2 ^ 16 := by ring
  have hdiv : newton r n * 2 ^ 31 ≤ newtonVal r n * r := by
    refine Nat.le_of_mul_le_mul_right ?_ (show 0 < 2 ^ 16 by decide)
    rw [newton, Nat.div_div_eq_div_mul, hscale, Nat.mul_assoc]
    exact Nat.div_mul_le_self _ _
  calc newton r n * 2 ^ 33 = newton r n * 2 ^ 31 * 4 := by ring
    _ ≤ newtonVal r n * r * 4 := Nat.mul_le_mul_right 4 hdiv
    _ = r * (newtonVal r n * 4) := by ring
    _ ≤ r * (3 * 2 ^ 32 - n * (r * r)) := Nat.mul_le_mul_left r hval

/-- The cubic that bounds the square of the result: its maximum is at `x = m`. -/
theorem mul_sq_le (m x : ℕ) (h : x ≤ 3 * m) : x * (3 * m - x) ^ 2 ≤ 4 * m ^ 3 := by
  obtain ⟨y, hy⟩ := Nat.exists_eq_add_of_le h
  rw [hy, Nat.add_sub_cancel_left]
  have hcube : 27 * (4 * (m : ℤ) ^ 3) = 27 * (x * y ^ 2) + (2 * x - y) ^ 2 * (x + 4 * y) := by
    have hsum : (3 * m : ℤ) = x + y := by exact_mod_cast hy
    have hcube : 27 * (4 * (m : ℤ) ^ 3) = 4 * (3 * (m : ℤ)) ^ 3 := by ring
    rw [hcube, hsum]
    ring
  have hpos : 0 ≤ (2 * (x : ℤ) - y) ^ 2 * (x + 4 * y) := by positivity
  have hle : (x * y ^ 2 : ℤ) ≤ 4 * m ^ 3 := by linarith
  exact_mod_cast hle

/-- After the iteration, the count times the square of the reciprocal is at most one. -/
theorem mul_newton_sq_le (h : n * (r * r) ≤ 3 * 2 ^ 32) :
    n * (newton r n * newton r n) ≤ 2 ^ 32 := by
  have hle := newton_mul_le r n
  have hcubic := mul_sq_le (2 ^ 32) (n * (r * r)) h
  refine Nat.le_of_mul_le_mul_right ?_ (show 0 < 2 ^ 33 * 2 ^ 33 by decide)
  calc n * (newton r n * newton r n) * (2 ^ 33 * 2 ^ 33)
      = n * ((newton r n * 2 ^ 33) * (newton r n * 2 ^ 33)) := by ring
    _ ≤ n * (r * (3 * 2 ^ 32 - n * (r * r)) * (r * (3 * 2 ^ 32 - n * (r * r)))) :=
        Nat.mul_le_mul_left n (Nat.mul_le_mul hle hle)
    _ = n * (r * r) * (3 * 2 ^ 32 - n * (r * r)) ^ 2 := by ring
    _ ≤ 2 ^ 32 * (2 ^ 33 * 2 ^ 33) := hcubic.trans (by norm_num)

/-- The result is less than one, for a count of at least one. -/
theorem newton_lt (hr : r < 2 ^ 16) (hpos : 0 < n) (h : n * (r * r) ≤ 3 * 2 ^ 32) :
    newton r n < 2 ^ 16 := by
  have hsq := mul_newton_sq_le h
  by_contra hge
  have hbig : 2 ^ 16 * 2 ^ 16 ≤ newton r n * newton r n :=
    Nat.mul_le_mul (Nat.not_lt.1 hge) (Nat.not_lt.1 hge)
  have hone : n = 1 := by
    by_contra hne
    have htwo : 2 * (2 ^ 16 * 2 ^ 16) ≤ n * (newton r n * newton r n) :=
      Nat.mul_le_mul (by omega) hbig
    omega
  have hle := newton_mul_le r n
  rw [hone, Nat.one_mul] at hle h
  -- the cubic is at its maximum only for a reciprocal of one
  have hcubic : (r : ℤ) * (3 * 2 ^ 32 - r * r) =
      2 ^ 49 - (2 ^ 16 - r) * (2 ^ 16 - r) * (2 * 2 ^ 16 + r) := by ring
  have hgap : (0 : ℤ) < (2 ^ 16 - r) * (2 ^ 16 - r) * (2 * 2 ^ 16 + r) := by
    have hd : (0 : ℤ) < 2 ^ 16 - r := by
      have hr' : (r : ℤ) < 2 ^ 16 := by exact_mod_cast hr
      linarith
    positivity
  have hle' : (newton r 1 : ℤ) * 2 ^ 33 ≤ r * (3 * 2 ^ 32 - r * r) := by
    have hcast : ((3 * 2 ^ 32 - r * r : ℕ) : ℤ) = 3 * 2 ^ 32 - r * r := by
      rw [Nat.cast_sub h]
      push_cast
      ring
    rw [← hcast]
    exact_mod_cast hle
  have hge' : (2 ^ 16 : ℤ) ≤ newton r 1 := by
    rw [hone] at hge
    exact_mod_cast Nat.not_lt.1 hge
  linarith

/-- A reciprocal of at most one unit does not grow. -/
theorem newton_le_one (hr : r ≤ 1) (n : ℕ) : newton r n ≤ 1 := by
  have hle := newton_mul_le r n
  have hbound : r * (3 * 2 ^ 32 - n * (r * r)) ≤ 1 * (3 * 2 ^ 32) :=
    Nat.mul_le_mul hr (Nat.sub_le _ _)
  omega

/-! ## The iteration in machine words -/

theorem newtonInRange_of_le {recInvSqrt : UInt16} {count : UInt32}
    (h : count.toNat * (recInvSqrt.toNat * recInvSqrt.toNat) ≤ 3 * 2 ^ 32)
    (hpos : 0 < count.toNat ∨ recInvSqrt.toNat ≤ 1) : NewtonInRange recInvSqrt count where
  subtraction := by rwa [invsqrt2_eq]
  product := by
    have hr := recInvSqrt.toNat_lt
    have hval : newtonVal recInvSqrt.toNat count.toNat ≤ 3 * 2 ^ 30 :=
      Nat.div_le_of_le_mul (Nat.sub_le _ _)
    calc newtonVal recInvSqrt.toNat count.toNat * (recInvSqrt.toNat * 2 ^ 16)
        ≤ 3 * 2 ^ 30 * (2 ^ 16 * 2 ^ 16) :=
          Nat.mul_le_mul hval (Nat.mul_le_mul_right _ hr.le)
      _ < 2 ^ 64 := by norm_num
  result := by
    rcases hpos with hpos | hone
    · exact newton_lt recInvSqrt.toNat_lt hpos h
    · exact (newton_le_one hone _).trans_lt (by decide)

theorem toNat_invsqrt (r : UInt16) : (r.toUInt32 <<< 16).toNat = r.toNat * 2 ^ 16 := by
  have hr := r.toNat_lt
  rw [UInt32.toNat_shiftLeft, UInt16.toNat_toUInt32, show UInt32.toNat 16 % 32 = 16 from rfl,
    Nat.shiftLeft_eq, Nat.mod_eq_of_lt (by omega)]

theorem toNat_invsqrt2 (r : UInt16) :
    (((r.toUInt32 <<< 16).toUInt64 * (r.toUInt32 <<< 16).toUInt64) >>> 32).toUInt32.toNat =
      invsqrt2 r.toNat := by
  have hr := r.toNat_lt
  have hsq : r.toNat * r.toNat < 2 ^ 16 * 2 ^ 16 := Nat.mul_lt_mul'' hr hr
  have hprod : r.toNat * 2 ^ 16 * (r.toNat * 2 ^ 16) = r.toNat * r.toNat * 2 ^ 32 := by ring
  have hfit : r.toNat * 2 ^ 16 * (r.toNat * 2 ^ 16) < 2 ^ 64 := by
    rw [hprod]
    omega
  rw [UInt64.toNat_toUInt32, UInt64.toNat_shiftRight, UInt64.toNat_mul, UInt32.toNat_toUInt64,
    toNat_invsqrt, show UInt64.toNat 32 % 64 = 32 from rfl, Nat.shiftRight_eq_div_pow,
    Nat.mod_eq_of_lt hfit, invsqrt2, hprod, Nat.mul_div_cancel _ (by decide)]
  exact Nat.mod_eq_of_lt (by omega)

theorem toNat_newtonStep {recInvSqrt : UInt16} {count : UInt32}
    (h : NewtonInRange recInvSqrt count) :
    (newtonStep recInvSqrt count).toNat = newton recInvSqrt.toNat count.toNat := by
  obtain ⟨hsub, hprod, hresult⟩ := h
  have hval : ((((3 : UInt64) <<< 32) - count.toUInt64 *
      (((recInvSqrt.toUInt32 <<< 16).toUInt64 *
        (recInvSqrt.toUInt32 <<< 16).toUInt64) >>> 32).toUInt32.toUInt64) >>> 2).toNat =
      newtonVal recInvSqrt.toNat count.toNat := by
    have hmul : (count.toUInt64 * (((recInvSqrt.toUInt32 <<< 16).toUInt64 *
        (recInvSqrt.toUInt32 <<< 16).toUInt64) >>> 32).toUInt32.toUInt64).toNat =
        count.toNat * invsqrt2 recInvSqrt.toNat := by
      rw [UInt64.toNat_mul, UInt32.toNat_toUInt64, UInt32.toNat_toUInt64, toNat_invsqrt2]
      exact Nat.mod_eq_of_lt (by omega)
    have hthree : ((3 : UInt64) <<< 32).toNat = 3 * 2 ^ 32 := rfl
    rw [UInt64.toNat_shiftRight, UInt64.toNat_sub_of_le _ _ (by
      rw [UInt64.le_iff_toNat_le, hmul, hthree]
      exact hsub), hmul, hthree, show UInt64.toNat 2 % 64 = 2 from rfl, Nat.shiftRight_eq_div_pow]
    rfl
  simp only [newtonStep]
  rw [UInt64.toNat_toUInt16, UInt64.toNat_shiftRight, UInt64.toNat_shiftRight, UInt64.toNat_mul,
    hval, UInt32.toNat_toUInt64, toNat_invsqrt, Nat.mod_eq_of_lt hprod,
    show UInt64.toNat 31 % 64 = 31 from rfl, show UInt64.toNat 16 % 64 = 16 from rfl,
    Nat.shiftRight_eq_div_pow, Nat.shiftRight_eq_div_pow]
  exact Nat.mod_eq_of_lt hresult

/-! ## The calls -/

section Calls

variable (c : CoDelConfig) (now : ℕ)

/-- The calls of `NewtonStep` that the loop of the dropping state makes, with their arguments; the
last argument is the internal queue. -/
def loopCalls (s : CoDel) (item : CoDelItem) : List CoDelItem → List (UInt16 × UInt32)
  | [] =>
    if s.dropping && coDelTimeAfterEq (coDelGetTime now) s.dropNext then
      [(s.recInvSqrt, s.count + 1)]
    else []
  | next :: rest =>
    if s.dropping && coDelTimeAfterEq (coDelGetTime now) s.dropNext then
      let s' := { s with count := s.count + 1, recInvSqrt := newtonStep s.recInvSqrt (s.count + 1) }
      let (ok, s') := { s' with queue := rest }.okToDrop c now (some next)
      (s.recInvSqrt, s.count + 1) ::
        if (tryMark c item).isNone && ok then
          let dropNext := controlLaw s'.dropNext (time2CoDel c.interval) s'.recInvSqrt
          loopCalls { s' with dropNext := dropNext } next rest
        else []
    else []

/-- The call with which the dropping state is entered. -/
def startCalls (s : CoDel) : List (UInt16 × UInt32) :=
  let delta := (s.count - s.lastCount).toInt32
  if 1 < delta && coDelTimeBefore (coDelGetTime now - s.dropNext) (16 * time2CoDel c.interval) then
    [(s.recInvSqrt, delta.toUInt32)]
  else []

/-- The calls of `NewtonStep` that `DoDequeue` makes. -/
def newtonCalls (s : CoDel) : List (UInt16 × UInt32) :=
  match s.queue with
  | [] => []
  | item :: rest =>
    let s := { s with queue := rest }
    if c.useL4s && isL4s item then []
    else
      let (ok, s) := s.okToDrop c now (some item)
      if s.dropping then if ok then s.loopCalls c now item s.queue else []
      else if ok then (s.firstDrop c now item).state.startCalls c now
      else []

end Calls

variable {c : CoDelConfig} {now : ℕ} {s t : CoDel}

theorem okToDrop_frame (c : CoDelConfig) (now : ℕ) (s : CoDel) (item : Option CoDelItem) :
    (s.okToDrop c now item).2 =
      { s with firstAboveTime := (s.okToDrop c now item).2.firstAboveTime } := by
  unfold okToDrop
  cases item with
  | none => rfl
  | some item =>
    dsimp only
    split_ifs <;> rfl

/-- Each call takes the reciprocal that the last one has returned. -/
theorem foldl_loopCalls (s : CoDel) (item : CoDelItem) (dropped rest : List CoDelItem) :
    (s.loopCalls c now item rest).foldl (fun _ q => (newtonStep q.1 q.2, q.2))
        (s.recInvSqrt, s.count) =
      ((s.dropLoop c now item dropped rest).state.recInvSqrt,
        (s.dropLoop c now item dropped rest).state.count) := by
  induction rest generalizing s item dropped with
  | nil =>
    unfold loopCalls dropLoop dropTurn
    split_ifs with hturn
    · cases tryMark c item <;> rfl
    · rfl
  | cons next rest ih =>
    unfold loopCalls dropLoop dropTurn
    split_ifs with hturn
    · cases tryMark c item with
      | some marked => rfl
      | none =>
        have hframe := okToDrop_frame c now { s with
          queue := rest, count := s.count + 1
          recInvSqrt := newtonStep s.recInvSqrt (s.count + 1) } (some next)
        dsimp only at hframe ⊢
        generalize okToDrop c now _ (some next) = r at hframe ⊢
        obtain ⟨ok, s'⟩ := r
        have hrec : s'.recInvSqrt = newtonStep s.recInvSqrt (s.count + 1) :=
          congrArg recInvSqrt hframe
        have hcount : s'.count = s.count + 1 := congrArg count hframe
        cases ok with
        | true =>
          have hrest := ih { s' with
            dropNext := controlLaw s'.dropNext (time2CoDel c.interval) s'.recInvSqrt } next
            (dropped ++ [item])
          rw [List.foldl_cons, ← hrec, ← hcount]
          exact hrest
        | false => exact Prod.ext hrec.symm hcount.symm
    · rfl

theorem foldl_startCalls (s : CoDel) :
    (s.startCalls c now).foldl (fun _ q => (newtonStep q.1 q.2, q.2)) (0xffff, 1) =
      ((s.startDropping c now).recInvSqrt, (s.startDropping c now).count) := by
  unfold startCalls startDropping
  dsimp only
  split_ifs <;> rfl

/-! ## What every operation keeps -/

/-- The count times the square of the reciprocal is at most one; the count has not come round since
the dropping state was entered, or the reciprocal has come down to one unit. -/
structure Settled (s : CoDel) : Prop where
  reciprocal : s.count.toNat * (s.recInvSqrt.toNat * s.recInvSqrt.toNat) ≤ 2 ^ 32
  counts : s.lastCount.toNat ≤ s.count.toNat ∨ s.recInvSqrt.toNat ≤ 1

theorem settled_init : Settled init := ⟨by decide, .inl (Nat.le_refl _)⟩

theorem settled_okToDrop (c : CoDelConfig) (now : ℕ) (hs : Settled s) (item : Option CoDelItem) :
    Settled (s.okToDrop c now item).2 := by
  rw [okToDrop_frame]
  exact ⟨hs.reciprocal, hs.counts⟩

/-- A packet more is dropped. -/
theorem Settled.count_succ (hs : Settled s) : NewtonInRange s.recInvSqrt (s.count + 1) ∧
    Settled { s with
      count := s.count + 1, recInvSqrt := newtonStep s.recInvSqrt (s.count + 1) } := by
  obtain ⟨hrec, hcounts⟩ := hs
  have hcount := s.count.toNat_lt
  have hr := s.recInvSqrt.toNat_lt
  have hadd : (s.count + 1).toNat = (s.count.toNat + 1) % 2 ^ 32 := UInt32.toNat_add _ _
  have hsq : s.recInvSqrt.toNat * s.recInvSqrt.toNat ≤ 2 ^ 32 :=
    (Nat.mul_le_mul hr.le hr.le).trans (by norm_num)
  by_cases hwrap : s.count.toNat + 1 = 2 ^ 32
  · -- the count comes round, and the reciprocal is at most one unit
    have hone : s.recInvSqrt.toNat ≤ 1 := by
      by_contra hlt
      have hfour : 2 * 2 ≤ s.recInvSqrt.toNat * s.recInvSqrt.toNat :=
        Nat.mul_le_mul (by omega) (by omega)
      have hbig := Nat.mul_le_mul_left s.count.toNat hfour
      omega
    have hzero : (s.count + 1).toNat = 0 := by rw [hadd, hwrap, Nat.mod_self]
    have hrange : NewtonInRange s.recInvSqrt (s.count + 1) :=
      newtonInRange_of_le (by rw [hzero, Nat.zero_mul]; exact Nat.zero_le _) (.inr hone)
    refine ⟨hrange, ?_, .inr ?_⟩
    · dsimp only
      rw [hzero, Nat.zero_mul]
      exact Nat.zero_le _
    · rw [toNat_newtonStep hrange]
      exact newton_le_one hone _
  · have hsucc : (s.count + 1).toNat = s.count.toNat + 1 := by
      rw [hadd]
      exact Nat.mod_eq_of_lt (by omega)
    have hle : (s.count + 1).toNat * (s.recInvSqrt.toNat * s.recInvSqrt.toNat) ≤ 3 * 2 ^ 32 := by
      rw [hsucc, Nat.succ_mul]
      omega
    have hrange := newtonInRange_of_le hle (.inl (by omega))
    refine ⟨hrange, ?_, hcounts.imp (fun h => ?_) fun h => ?_⟩
    · dsimp only
      rw [toNat_newtonStep hrange]
      exact mul_newton_sq_le hle
    · dsimp only
      omega
    · rw [toNat_newtonStep hrange]
      exact newton_le_one h _

/-- The dropping state is entered. -/
theorem Settled.startDropping (hs : Settled s) :
    (∀ q ∈ s.startCalls c now, NewtonInRange q.1 q.2) ∧ Settled (s.startDropping c now) := by
  obtain ⟨hrec, hcounts⟩ := hs
  unfold CoDel.startDropping startCalls
  dsimp only
  split_ifs with hdelta
  · have hpos : 1 < (s.count - s.lastCount).toInt32 := by
      simpa using (Bool.and_eq_true_iff.1 hdelta).1
    rw [UInt32.toUInt32_toInt32]
    generalize hd : s.count - s.lastCount = delta at hpos ⊢
    have hdpos : 0 < delta.toNat := by
      refine Nat.pos_of_ne_zero fun hzero => ?_
      have heq : delta = 0 := UInt32.toNat_inj.1 hzero
      rw [heq] at hpos
      exact absurd hpos (by decide)
    have hle : delta.toNat * (s.recInvSqrt.toNat * s.recInvSqrt.toNat) ≤ 2 ^ 32 := by
      rcases hcounts with hcounts | hone
      · have hsub : delta.toNat = s.count.toNat - s.lastCount.toNat := by
          rw [← hd]
          exact UInt32.toNat_sub_of_le _ _ (UInt32.le_iff_toNat_le.2 hcounts)
        refine (Nat.mul_le_mul_right _ ?_).trans hrec
        omega
      · have hdelta := delta.toNat_lt
        exact (Nat.mul_le_mul hdelta.le (Nat.mul_le_mul hone hone)).trans (by norm_num)
    have hle' := hle.trans (show 2 ^ 32 ≤ 3 * 2 ^ 32 by norm_num)
    have hrange := newtonInRange_of_le hle' (.inl hdpos)
    refine ⟨List.forall_mem_singleton.2 hrange, ?_, .inl (Nat.le_refl _)⟩
    dsimp only
    rw [toNat_newtonStep hrange]
    exact mul_newton_sq_le hle'
  · refine ⟨nofun, ?_, .inl (Nat.le_refl _)⟩
    dsimp only
    decide

/-- The loop of the dropping state. -/
theorem Settled.dropLoop (hs : Settled s) (item : CoDelItem) (dropped rest : List CoDelItem) :
    (∀ q ∈ s.loopCalls c now item rest, NewtonInRange q.1 q.2) ∧
      Settled (s.dropLoop c now item dropped rest).state := by
  induction rest generalizing s item dropped with
  | nil =>
    obtain ⟨hcall, hstep⟩ := hs.count_succ
    unfold loopCalls CoDel.dropLoop dropTurn
    split_ifs with hturn
    · refine ⟨List.forall_mem_singleton.2 hcall, ?_⟩
      cases tryMark c item with
      | some marked => exact ⟨hstep.reciprocal, hstep.counts⟩
      | none => exact ⟨hstep.reciprocal, hstep.counts⟩
    · exact ⟨List.forall_mem_nil _, hs.reciprocal, hs.counts⟩
  | cons next rest ih =>
    obtain ⟨hcall, hstep⟩ := hs.count_succ
    have hnext := settled_okToDrop c now (s := { s with
        queue := rest, count := s.count + 1
        recInvSqrt := newtonStep s.recInvSqrt (s.count + 1) })
      ⟨hstep.reciprocal, hstep.counts⟩ (some next)
    unfold loopCalls CoDel.dropLoop dropTurn
    split_ifs with hturn
    · rw [List.forall_mem_cons]
      cases tryMark c item with
      | some marked => exact ⟨⟨hcall, List.forall_mem_nil _⟩, hstep.reciprocal, hstep.counts⟩
      | none =>
        dsimp only at hnext ⊢
        generalize CoDel.okToDrop c now _ (some next) = r at hnext ⊢
        obtain ⟨ok, s'⟩ := r
        cases ok with
        | true =>
          obtain ⟨hcalls, hrest⟩ := ih (s := { s' with
            dropNext := controlLaw s'.dropNext (time2CoDel c.interval) s'.recInvSqrt })
            ⟨hnext.reciprocal, hnext.counts⟩ next (dropped ++ [item])
          exact ⟨⟨hcall, hcalls⟩, hrest⟩
        | false => exact ⟨⟨hcall, List.forall_mem_nil _⟩, hnext.reciprocal, hnext.counts⟩
    · exact ⟨List.forall_mem_nil _, hs.reciprocal, hs.counts⟩

theorem settled_firstDrop (hs : Settled s) (item : CoDelItem) :
    Settled (s.firstDrop c now item).state := by
  unfold firstDrop
  cases tryMark c item with
  | some marked => exact hs
  | none =>
    cases s.queue with
    | nil => exact settled_okToDrop c now hs none
    | cons next rest =>
      exact settled_okToDrop c now (s := { s with queue := rest }) ⟨hs.reciprocal, hs.counts⟩
        (some next)

theorem Settled.control (hs : Settled s) (item : CoDelItem) :
    Settled (s.control c now item).state := by
  have hok := settled_okToDrop c now hs (some item)
  unfold CoDel.control
  dsimp only
  split_ifs
  · exact (hok.dropLoop _ _ _).2
  · exact ⟨hok.reciprocal, hok.counts⟩
  · exact (settled_firstDrop hok _).startDropping.2
  · exact hok

/-- The calls of one `DoDequeue`. -/
theorem Settled.newtonCalls (hs : Settled s) :
    ∀ q ∈ s.newtonCalls c now, NewtonInRange q.1 q.2 := by
  unfold CoDel.newtonCalls
  cases s.queue with
  | nil => exact nofun
  | cons item rest =>
    have hok := settled_okToDrop c now (s := { s with queue := rest })
      ⟨hs.reciprocal, hs.counts⟩ (some item)
    dsimp only
    split_ifs
    · exact nofun
    · exact (hok.dropLoop item [] _).1
    · exact nofun
    · exact (settled_firstDrop hok item).startDropping.1
    · exact nofun

/-- What a `DoDequeue` leaves. -/
theorem Settled.doDequeue (hs : Settled s) {item : Option CoDelItem} {dropped : List CoDelItem}
    (h : s.doDequeue c now = some (item, dropped, t)) : Settled t := by
  unfold CoDel.doDequeue at h
  cases hqueue : s.queue with
  | nil =>
    rw [hqueue] at h
    cases h
    exact ⟨hs.reciprocal, hs.counts⟩
  | cons first rest =>
    simp only [hqueue] at h
    by_cases hl4s : (c.useL4s && isL4s first) = true
    · rw [if_pos hl4s] at h
      cases h
      exact ⟨hs.reciprocal, hs.counts⟩
    · rw [if_neg hl4s] at h
      obtain ⟨last, -, h⟩ := Option.map_eq_some_iff.1 h
      cases h
      exact Settled.control (s := { s with queue := rest }) ⟨hs.reciprocal, hs.counts⟩ first

/-! ## Runs -/

theorem Settled.step (hs : Settled s) {e : Event} (h : Step c s e t) : Settled t := by
  cases e with
  | enqueue now item =>
    cases h
    unfold enqueue
    split_ifs
    · exact hs
    · exact ⟨hs.reciprocal, hs.counts⟩
  | dequeue now =>
    obtain ⟨⟨item, dropped, t'⟩, hdequeue, rfl⟩ := Option.map_eq_some_iff.1 h
    exact hs.doDequeue hdequeue

/-- In every run no call of `NewtonStep` leaves a machine word, nor would the next one. -/
theorem newtonInRange_of_run {trace : List (CoDel × Event)} (hrun : Run (Step c) init trace s) :
    (∀ now, ∀ q ∈ s.newtonCalls c now, NewtonInRange q.1 q.2) ∧
      (s.count < 0xffffffff → NewtonInRange s.recInvSqrt (s.count + 1)) := by
  have hs : Settled s := hrun.invariant settled_init fun s e t hs hst => hs.step hst
  exact ⟨fun now => hs.newtonCalls, fun _ => hs.count_succ.1⟩

/-- The second packet that is dropped in a row. -/
theorem newtonInRange_second : ∃ (c : CoDelConfig) (s : CoDel),
    s.newtonCalls c 40960 = [(0xffff, 2)] ∧ NewtonInRange 0xffff 2 := by
  let item : CoDelItem := ⟨0, 1, none, 0, none⟩
  let c : CoDelConfig := ⟨false, false, .packets 10, 1, 10240, 1024, 0⟩
  have hrun : (Run.runOf (apply c) init
      [.enqueue 0 item, .enqueue 0 item, .enqueue 0 item, .enqueue 0 item, .enqueue 0 item,
        .dequeue 2048, .dequeue 20480]).any
      (fun r => r.2.newtonCalls c 40960 == [(0xffff, 2)]) = true := by
    decide +kernel
  obtain ⟨⟨trace, s⟩, hrun, hs⟩ := (Option.any_eq_true _ _).1 hrun
  have hcalls : s.newtonCalls c 40960 = [(0xffff, 2)] := beq_iff_eq.1 hs
  refine ⟨c, s, hcalls, ?_⟩
  have hrange := (newtonInRange_of_run (Run.of_runOf (fun _ _ _ h => h) hrun)).1 40960
  exact hrange (0xffff, 2) (hcalls ▸ List.mem_singleton_self _)

end CoDel

end SeanetSim
