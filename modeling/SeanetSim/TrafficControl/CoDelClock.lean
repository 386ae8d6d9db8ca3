import SeanetSim.Network.SequenceNumber
import SeanetSim.TrafficControl.CoDel
import SeanetSim.Lib.Run

/-!
# CoDel on a wrapping clock

`CoDelTimeAfter` and its like compare 32-bit times as 64-bit integers, so that they are wrong for
two instants with a wrap of the clock between them (`CoDel.coDelTimeAfter_wrap_iff`).  Where no such
instants are compared, the queue disc does what it would do on a clock that never wraps
(`UnboundedCoDel.sameDecisions_of_run`).
-/

namespace SeanetSim

open SequenceNumber

/-- What becomes of packets: whether one is taken in, or which one is returned, maybe marked, and
which ones are dropped. -/
inductive CoDel.Decision
  | enqueued (ok : Bool)
  | dequeued (item : Option CoDelItem) (dropped : List CoDelItem)
deriving DecidableEq

/-- `none` where `DoDequeue` dereferences a null pointer. -/
def CoDel.decision (c : CoDelConfig) (s : CoDel) : CoDel.Event → Option CoDel.Decision
  | .enqueue now item => some (.enqueued (s.enqueue c now item).1)
  | .dequeue now => (s.doDequeue c now).map fun r => .dequeued r.1 r.2.1

/-- The queue disc with a clock that never wraps. -/
structure UnboundedCoDel where
  queue : List CoDelItem
  count : UInt32
  lastCount : UInt32
  dropping : Bool
  recInvSqrt : UInt16
  firstAboveTime : ℤ
  dropNext : ℤ
deriving DecidableEq

namespace UnboundedCoDel

open CoDel (tryMark isL4s newtonStep)

section Code

/-- What a part of `doDequeue` leaves. -/
structure Progress where
  item : Option CoDelItem
  isMarked : Bool
  dropped : List CoDelItem
  state : UnboundedCoDel

def init : UnboundedCoDel := ⟨[], 0, 0, false, 0xffff, 0, 0⟩

/-- A time in units of 1024 ns. -/
def ticks (ns : ℤ) : ℤ := ns >>> (10 : ℕ)

def controlLaw (t interval : ℤ) (recInvSqrt : UInt16) : ℤ :=
  t + interval * (recInvSqrt.toNat * 2 ^ 16) / 2 ^ 32

variable (c : CoDelConfig) (now : ℕ)

def nBytes (s : UnboundedCoDel) : UInt32 := (s.queue.map CoDelItem.size).sum

def isFull (s : UnboundedCoDel) (item : CoDelItem) : Bool :=
  match c.maxSize with
  | .packets value => value < .ofNat s.queue.length + 1
  | .bytes value => value < s.nBytes + item.size

def enqueue (s : UnboundedCoDel) (item : CoDelItem) : Bool × UnboundedCoDel :=
  if s.isFull c item then (false, s)
  else (true, { s with queue := s.queue ++ [{ item with timeStamp := now }] })

/-- The packet has waited for the target at least, with enough bytes behind it. -/
def isAbove (s : UnboundedCoDel) (item : CoDelItem) : Bool :=
  decide (ticks c.target ≤ ticks (now - item.timeStamp)) && decide (c.minBytes ≤ s.nBytes)

def okToDrop (s : UnboundedCoDel) (item : Option CoDelItem) : Bool × UnboundedCoDel :=
  match item with
  | none => (false, { s with firstAboveTime := 0 })
  | some item =>
    if s.isAbove c now item then
      if s.firstAboveTime = 0 then
        (false, { s with firstAboveTime := ticks now + ticks c.interval })
      else (decide (s.firstAboveTime < ticks now), s)
    else (false, { s with firstAboveTime := 0 })

/-- The count with the reciprocal square root that goes with it. -/
def setCount (s : UnboundedCoDel) (count : UInt32) : UnboundedCoDel :=
  { s with count, recInvSqrt := newtonStep s.recInvSqrt count }

def dropTurn (s : UnboundedCoDel) (item : CoDelItem) (dropped : List CoDelItem)
    (next : UnboundedCoDel → Progress) : Progress :=
  if s.dropping && decide (s.dropNext ≤ ticks now) then
    let s := s.setCount (s.count + 1)
    match tryMark c item with
    | some marked =>
      let dropNext := controlLaw (ticks now) (ticks c.interval) s.recInvSqrt
      ⟨some marked, true, dropped, { s with dropNext := dropNext }⟩
    | none => next s
  else ⟨some item, false, dropped, s⟩

def dropLoop (s : UnboundedCoDel) (item : CoDelItem) (dropped : List CoDelItem) :
    List CoDelItem → Progress
  | [] =>
    dropTurn c now { s with queue := [] } item dropped fun s =>
      ⟨none, false, dropped ++ [item], { (s.okToDrop c now none).2 with dropping := false }⟩
  | next :: rest =>
    dropTurn c now { s with queue := next :: rest } item dropped fun s =>
      let (ok, s) := { s with queue := rest }.okToDrop c now (some next)
      if ok then
        let dropNext := controlLaw s.dropNext (ticks c.interval) s.recInvSqrt
        dropLoop { s with dropNext := dropNext } next (dropped ++ [item]) rest
      else ⟨some next, false, dropped ++ [item], { s with dropping := false }⟩

def firstDrop (s : UnboundedCoDel) (item : CoDelItem) : Progress :=
  match tryMark c item, s.queue with
  | some marked, _ => ⟨some marked, true, [], s⟩
  | none, [] => ⟨none, false, [item], (s.okToDrop c now none).2⟩
  | none, next :: rest =>
    ⟨some next, false, [item], ({ s with queue := rest }.okToDrop c now (some next)).2⟩

def startDropping (s : UnboundedCoDel) : UnboundedCoDel :=
  let delta := (s.count - s.lastCount).toInt32
  let s :=
    if 1 < delta && decide (ticks now - s.dropNext < 16 * ticks c.interval) then
      s.setCount delta.toUInt32
    else { s with count := 1, recInvSqrt := 0xffff }
  let dropNext := controlLaw (ticks now) (ticks c.interval) s.recInvSqrt
  { s with dropping := true, lastCount := s.count, dropNext := dropNext }

def control (s : UnboundedCoDel) (item : CoDelItem) : Progress :=
  let (ok, s) := s.okToDrop c now (some item)
  if s.dropping then
    if ok then s.dropLoop c now item [] s.queue
    else ⟨some item, false, [], { s with dropping := false }⟩
  else if ok then
    let p := s.firstDrop c now item
    { p with state := p.state.startDropping c now }
  else ⟨some item, false, [], s⟩

def markAboveThreshold (item : CoDelItem) : CoDelItem :=
  if ticks c.ceThreshold < ticks (now - item.timeStamp) then item.mark.getD item else item

def doDequeue (s : UnboundedCoDel) :
    Option (Option CoDelItem × List CoDelItem × UnboundedCoDel) :=
  match s.queue with
  | [] => some (none, [], { s with dropping := false })
  | item :: rest =>
    let s := { s with queue := rest }
    if c.useL4s && isL4s item then some (some (markAboveThreshold c now item), [], s)
    else
      let p := s.control c now item
      p.item.map fun item =>
        (some (if !p.isMarked && !c.useL4s && c.useEcn then markAboveThreshold c now item
          else item), p.dropped, p.state)

def apply (s : UnboundedCoDel) : CoDel.Event → Option UnboundedCoDel
  | .enqueue now item => some (s.enqueue c now item).2
  | .dequeue now => (s.doDequeue c now).map (·.2.2)

def decision (s : UnboundedCoDel) : CoDel.Event → Option CoDel.Decision
  | .enqueue now item => some (.enqueued (s.enqueue c now item).1)
  | .dequeue now => (s.doDequeue c now).map fun r => .dequeued r.1 r.2.1

def Step (s : UnboundedCoDel) (e : CoDel.Event) (t : UnboundedCoDel) : Prop :=
  s.apply c e = some t

end Code

/-! ## Wrapped times -/

/-- The queue disc with its times cut to 32 bits. -/
def toCoDel (s : UnboundedCoDel) : CoDel :=
  ⟨s.queue, s.count, s.lastCount, s.dropping, s.recInvSqrt, wrap s.firstAboveTime,
    wrap s.dropNext⟩

def Progress.toCoDel (p : Progress) : CoDel.Progress :=
  ⟨p.item, p.isMarked, p.dropped, p.state.toCoDel⟩

/-- No wrap of the clock lies between two instants. -/
def SameEra (a b : ℤ) : Prop := a / 2 ^ 32 = b / 2 ^ 32

instance (a b : ℤ) : Decidable (SameEra a b) := inferInstanceAs (Decidable (_ = _))

/-- What `DoDequeue` asks about its times. -/
inductive Reading
  /-- One of the comparisons of two of them. -/
  | order (a b : ℤ)
  /-- Whether a delay is above the CE threshold. -/
  | threshold (delay ceThreshold : ℤ)
  /-- Whether `m_firstAboveTime` is 0. -/
  | unset (a : ℤ)
deriving DecidableEq

namespace Reading

/-- The compared instants lie less than half a turn of the clock apart. -/
def IsNear : Reading → Prop
  | .order a b | .threshold a b => a - b < 2 ^ 31 ∧ b - a < 2 ^ 31
  | .unset _ => True

/-- The answer does not depend on a wrap of the clock. -/
def IsClear : Reading → Prop
  | .order a b => SameEra a b
  | .threshold a b => SameEra a b ∨ a ≤ b ∧ b % 2 ^ 32 = 2 ^ 32 - 1
  | .unset a => a = 0 ∨ a % 2 ^ 32 ≠ 0

instance : DecidablePred IsNear
  | .order _ _ | .threshold _ _ => inferInstanceAs (Decidable (_ ∧ _))
  | .unset _ => inferInstanceAs (Decidable True)

instance : DecidablePred IsClear
  | .order _ _ => inferInstanceAs (Decidable (SameEra _ _))
  | .threshold _ _ => inferInstanceAs (Decidable (SameEra _ _ ∨ _ ∧ _))
  | .unset _ => inferInstanceAs (Decidable (_ ∨ _))

end Reading

section Readings

variable (c : CoDelConfig) (now : ℕ)

def okReadings (s : UnboundedCoDel) (item : CoDelItem) : List Reading :=
  .order (ticks (now - item.timeStamp)) (ticks c.target) ::
    if s.isAbove c now item then
      .unset s.firstAboveTime ::
        if s.firstAboveTime = 0 then [] else [.order (ticks now) s.firstAboveTime]
    else []

def loopReadings (s : UnboundedCoDel) : List CoDelItem → CoDelItem → List Reading
  | [], _ => [.order (ticks now) s.dropNext]
  | next :: rest, item =>
    .order (ticks now) s.dropNext ::
      if s.dropNext ≤ ticks now ∧ tryMark c item = none then
        let s := { s.setCount (s.count + 1) with queue := rest }
        s.okReadings c now next ++
          if (s.okToDrop c now (some next)).1 then
            loopReadings { s with
              dropNext := controlLaw s.dropNext (ticks c.interval) s.recInvSqrt } rest next
          else []
      else []

def firstReadings (s : UnboundedCoDel) (item : CoDelItem) : List Reading :=
  match tryMark c item, s.queue with
  | none, next :: rest => { s with queue := rest }.okReadings c now next
  | _, _ => []

def startReadings (s : UnboundedCoDel) : List Reading :=
  if 1 < (s.count - s.lastCount).toInt32 then
    [.order (ticks now - s.dropNext) (16 * ticks c.interval)]
  else []

def controlReadings (s : UnboundedCoDel) (item : CoDelItem) : List Reading :=
  s.okReadings c now item ++
    if (s.okToDrop c now (some item)).1 then
      if s.dropping then s.loopReadings c now s.queue item
      else s.firstReadings c now item ++ (s.firstDrop c now item).state.startReadings c now
    else []

def markReadings (item : CoDelItem) : List Reading :=
  [.threshold (ticks (now - item.timeStamp)) (ticks c.ceThreshold)]

def dequeueReadings (s : UnboundedCoDel) : List Reading :=
  match s.queue with
  | [] => []
  | item :: rest =>
    let s := { s with queue := rest }
    if c.useL4s && isL4s item then markReadings c now item
    else
      let p := s.control c now item
      s.controlReadings c now item ++
        if !p.isMarked && !c.useL4s && c.useEcn then p.item.toList.flatMap (markReadings c now)
        else []

def readings (s : UnboundedCoDel) : CoDel.Event → List Reading
  | .enqueue _ _ => []
  | .dequeue now => s.dequeueReadings c now

end Readings

end UnboundedCoDel

namespace CoDel

open UnboundedCoDel (ticks SameEra Reading)

variable {a b : ℤ}

theorem time2CoDel_eq (ns : ℤ) : time2CoDel ns = wrap (ticks ns) := rfl

theorem coDelGetTime_eq (now : ℕ) : coDelGetTime now = wrap (ticks now) := by
  have hticks : ticks now = ((now >>> 10 : ℕ) : ℤ) := rfl
  have hwrap := toNat_wrap (ticks now)
  rw [← UInt32.toNat_inj, coDelGetTime, UInt32.toNat_ofNat']
  omega

theorem coDelTimeAfter_wrap (h : SameEra a b) :
    coDelTimeAfter (wrap a) (wrap b) = decide (b < a) := by
  have ha := toNat_wrap a
  have hb := toNat_wrap b
  unfold SameEra at h
  rw [coDelTimeAfter, decide_eq_decide]
  omega

theorem coDelTimeAfterEq_wrap (h : SameEra a b) :
    coDelTimeAfterEq (wrap a) (wrap b) = decide (b ≤ a) := by
  have ha := toNat_wrap a
  have hb := toNat_wrap b
  unfold SameEra at h
  rw [coDelTimeAfterEq, decide_eq_decide]
  omega

theorem coDelTimeBefore_wrap (h : SameEra a b) :
    coDelTimeBefore (wrap a) (wrap b) = decide (a < b) := by
  have ha := toNat_wrap a
  have hb := toNat_wrap b
  unfold SameEra at h
  rw [coDelTimeBefore, decide_eq_decide]
  omega

theorem coDelTimeAfter_threshold (h : (Reading.threshold a b).IsClear) :
    coDelTimeAfter (wrap a) (wrap b) = decide (b < a) := by
  rcases h with h | ⟨hle, hmax⟩
  · exact coDelTimeAfter_wrap h
  · have ha := toNat_wrap a
    have hb := toNat_wrap b
    rw [coDelTimeAfter, decide_eq_decide]
    omega

theorem wrap_eq_zero (h : (Reading.unset a).IsClear) : wrap a = 0 ↔ a = 0 := by
  have ha := toNat_wrap a
  rw [← UInt32.toNat_inj, UInt32.toNat_zero]
  obtain rfl | hne := h <;> omega

/-- The comparison of two instants that are not half a turn of the clock apart is right exactly if
no wrap lies between them. -/
theorem coDelTimeAfter_wrap_iff (h : a - b < 2 ^ 31) (h' : b - a < 2 ^ 31) :
    coDelTimeAfter (wrap a) (wrap b) = decide (b < a) ↔ SameEra a b := by
  refine ⟨fun heq => ?_, coDelTimeAfter_wrap⟩
  have ha := toNat_wrap a
  have hb := toNat_wrap b
  unfold SameEra
  rw [coDelTimeAfter, decide_eq_decide] at heq
  omega

theorem wrap_sub (a b : ℤ) : wrap a - wrap b = wrap (a - b) := by
  have hsub := toNat_wrap_sub a b
  have hwrap := toNat_wrap (a - b)
  rw [← UInt32.toNat_inj]
  omega

theorem wrap_add_wrap (a b : ℤ) : wrap a + wrap b = wrap (a + b) := by
  have ha := toNat_wrap a
  have hb := toNat_wrap b
  have hwrap := toNat_wrap (a + b)
  rw [← UInt32.toNat_inj, UInt32.toNat_add]
  omega

theorem mul_wrap (n : ℕ) (a : ℤ) : UInt32.ofNat n * wrap a = wrap (n * a) := by
  have ha := toNat_wrap a
  have hwrap := toNat_wrap (n * a)
  rw [← UInt32.toNat_inj, ← Int.natCast_inj, hwrap, UInt32.toNat_mul, Int.natCast_emod,
    Int.natCast_mul, ha, UInt32.toNat_ofNat', Int.natCast_emod]
  simp [Int.mul_emod]

theorem toNat_reciprocalDivide (a : UInt32) (r : UInt16) :
    (reciprocalDivide a (r.toUInt32 <<< 16)).toNat = a.toNat * (r.toNat * 2 ^ 16) / 2 ^ 32 := by
  have ha := a.toNat_lt
  have hr := r.toNat_lt
  have hshift : (r.toUInt32 <<< 16).toNat = r.toNat * 2 ^ 16 := by
    rw [UInt32.toNat_shiftLeft, UInt16.toNat_toUInt32, Nat.shiftLeft_eq]
    exact Nat.mod_eq_of_lt (Nat.mul_lt_mul_of_pos_right hr (by decide))
  have hmul : a.toNat * (r.toNat * 2 ^ 16) < 2 ^ 64 :=
    Nat.mul_lt_mul_of_lt_of_le (c := 2 ^ 32) (d := 2 ^ 32) ha (by omega) (by omega)
  have hdiv : a.toNat * (r.toNat * 2 ^ 16) / 2 ^ 32 < 2 ^ 32 := by omega
  rw [reciprocalDivide, UInt64.toNat_toUInt32, UInt64.toNat_shiftRight, UInt64.toNat_mul,
    UInt32.toNat_toUInt64, UInt32.toNat_toUInt64, hshift, Nat.mod_eq_of_lt hmul,
    Nat.shiftRight_eq_div_pow]
  exact Nat.mod_eq_of_lt hdiv

/-- `ControlLaw`, where the interval fits in 32 bits. -/
theorem controlLaw_wrap {interval : ℕ} (hfit : interval < 2 ^ 32) (a : ℤ) (r : UInt16) :
    controlLaw (wrap a) (wrap interval) r = wrap (UnboundedCoDel.controlLaw a interval r) := by
  have hinterval : (wrap interval).toNat = interval := by
    have hwrap := toNat_wrap interval
    omega
  have hdiv := toNat_reciprocalDivide (wrap interval) r
  rw [hinterval] at hdiv
  rw [controlLaw, UnboundedCoDel.controlLaw]
  have hcast : (interval : ℤ) * (r.toNat * 2 ^ 16) / 2 ^ 32 =
      ((interval * (r.toNat * 2 ^ 16) / 2 ^ 32 : ℕ) : ℤ) := by
    push_cast
    rfl
  rw [hcast, ← hdiv, wrap_add]
  exact congrArg (wrap a + ·) (UInt32.ofNat_toNat ..).symm

end CoDel

namespace UnboundedCoDel

/-! ## The same decisions -/

open CoDel (tryMark isL4s time2CoDel_eq coDelGetTime_eq)

variable {c : CoDelConfig} {now : ℕ} {s : UnboundedCoDel} {item : CoDelItem}
  {dropped rest : List CoDelItem}

theorem controlLaw_toCoDel (hfit : ticks c.interval < 2 ^ 32) (a : ℤ) (r : UInt16) :
    CoDel.controlLaw (wrap a) (CoDel.time2CoDel c.interval) r =
      wrap (controlLaw a (ticks c.interval) r) := by
  have hticks : ticks c.interval = ((c.interval >>> 10 : ℕ) : ℤ) := rfl
  rw [time2CoDel_eq, hticks]
  exact CoDel.controlLaw_wrap (by omega) a r

theorem enqueue_toCoDel (c : CoDelConfig) (now : ℕ) (s : UnboundedCoDel) (item : CoDelItem) :
    s.toCoDel.enqueue c now item =
      ((s.enqueue c now item).1, (s.enqueue c now item).2.toCoDel) := by
  have hfull : s.toCoDel.isFull c item = s.isFull c item := rfl
  rw [CoDel.enqueue, enqueue, hfull]
  cases s.isFull c item <;> rfl

@[simp] theorem okToDrop_none_toCoDel :
    s.toCoDel.okToDrop c now none = (false, (s.okToDrop c now none).2.toCoDel) := rfl

/-- A packet that may be dropped leaves the times as they are. -/
theorem state_of_okToDrop (h : (s.okToDrop c now (some item)).1 = true) :
    (s.okToDrop c now (some item)).2 = s := by
  unfold okToDrop at h ⊢
  dsimp only at h ⊢
  split_ifs at h ⊢
  rfl

theorem okToDrop_toCoDel (h : ∀ r ∈ s.okReadings c now item, r.IsClear) :
    s.toCoDel.okToDrop c now (some item) =
      ((s.okToDrop c now (some item)).1, (s.okToDrop c now (some item)).2.toCoDel) := by
  rw [okReadings, List.forall_mem_cons] at h
  obtain ⟨hdelay, h⟩ := h
  have hbelow : (CoDel.coDelTimeBefore (CoDel.time2CoDel (now - item.timeStamp))
      (CoDel.time2CoDel c.target) || decide (s.toCoDel.nBytes < c.minBytes)) =
        !s.isAbove c now item := by
    have hbytes : s.toCoDel.nBytes = s.nBytes := rfl
    rw [time2CoDel_eq, time2CoDel_eq, CoDel.coDelTimeBefore_wrap hdelay, hbytes, isAbove]
    rw [Bool.not_and]
    congr 1 <;> rw [Bool.eq_iff_iff] <;> simp
  unfold CoDel.okToDrop okToDrop
  dsimp only
  rw [hbelow]
  cases habove : s.isAbove c now item with
  | false => rfl
  | true =>
    rw [habove, if_pos rfl, List.forall_mem_cons] at h
    obtain ⟨hunset, h⟩ := h
    have hzero : s.toCoDel.firstAboveTime = 0 ↔ s.firstAboveTime = 0 := CoDel.wrap_eq_zero hunset
    simp only [Bool.not_true, Bool.false_eq_true, if_false, if_true, hzero]
    split_ifs with hfirst
    · have hadd : CoDel.coDelGetTime now + CoDel.time2CoDel c.interval =
          wrap (ticks now + ticks c.interval) := by
        rw [coDelGetTime_eq, time2CoDel_eq, CoDel.wrap_add_wrap]
      rw [hadd]
      rfl
    · rw [if_neg hfirst, List.forall_mem_singleton] at h
      rw [coDelGetTime_eq]
      exact congrArg (·, s.toCoDel) (CoDel.coDelTimeAfter_wrap h)

theorem dropTurn_toCoDel (hfit : ticks c.interval < 2 ^ 32)
    (hdue : (Reading.order (ticks now) s.dropNext).IsClear) {next : UnboundedCoDel → Progress}
    {next' : CoDel → CoDel.Progress}
    (hnext : s.dropNext ≤ ticks now → tryMark c item = none →
      next' (s.setCount (s.count + 1)).toCoDel = (next (s.setCount (s.count + 1))).toCoDel) :
    s.toCoDel.dropTurn c now item dropped next' = (s.dropTurn c now item dropped next).toCoDel := by
  have hafter : CoDel.coDelTimeAfterEq (CoDel.coDelGetTime now) s.toCoDel.dropNext =
      decide (s.dropNext ≤ ticks now) := by
    rw [coDelGetTime_eq]
    exact CoDel.coDelTimeAfterEq_wrap hdue
  have hdropping : s.toCoDel.dropping = s.dropping := rfl
  rw [CoDel.dropTurn, dropTurn, hafter, hdropping]
  cases hturn : s.dropping && decide (s.dropNext ≤ ticks now) with
  | false => rfl
  | true =>
    rw [Bool.and_eq_true, decide_eq_true_iff] at hturn
    simp only [if_true]
    cases htry : tryMark c item with
    | some marked =>
      have hlaw := controlLaw_toCoDel hfit (ticks now) (s.setCount (s.count + 1)).recInvSqrt
      rw [← coDelGetTime_eq] at hlaw
      exact congrArg (fun t => (⟨some marked, true, dropped,
        { (s.setCount (s.count + 1)).toCoDel with dropNext := t }⟩ : CoDel.Progress)) hlaw
    | none => exact hnext hturn.2 htry

theorem dropLoop_toCoDel (hfit : ticks c.interval < 2 ^ 32)
    (h : ∀ r ∈ s.loopReadings c now rest item, r.IsClear) :
    s.toCoDel.dropLoop c now item dropped rest = (s.dropLoop c now item dropped rest).toCoDel := by
  induction rest generalizing s item dropped with
  | nil =>
    rw [loopReadings, List.forall_mem_singleton] at h
    exact dropTurn_toCoDel (s := { s with queue := [] }) hfit h fun _ _ => rfl
  | cons next rest ih =>
    rw [loopReadings, List.forall_mem_cons] at h
    obtain ⟨hdue, h⟩ := h
    refine dropTurn_toCoDel (s := { s with queue := next :: rest }) hfit hdue fun hnext htry => ?_
    rw [if_pos ⟨hnext, htry⟩] at h
    dsimp only at h
    let t : UnboundedCoDel := { s.setCount (s.count + 1) with queue := rest }
    show (if (t.toCoDel.okToDrop c now (some next)).1 = true then
        CoDel.dropLoop c now { (t.toCoDel.okToDrop c now (some next)).2 with
          dropNext := CoDel.controlLaw (t.toCoDel.okToDrop c now (some next)).2.dropNext
            (CoDel.time2CoDel c.interval) (t.toCoDel.okToDrop c now (some next)).2.recInvSqrt }
          next (dropped ++ [item]) rest
      else ⟨some next, false, dropped ++ [item],
        { (t.toCoDel.okToDrop c now (some next)).2 with dropping := false }⟩) =
      (if (t.okToDrop c now (some next)).1 = true then
        dropLoop c now { (t.okToDrop c now (some next)).2 with
          dropNext := controlLaw (t.okToDrop c now (some next)).2.dropNext
            (ticks c.interval) (t.okToDrop c now (some next)).2.recInvSqrt }
          next (dropped ++ [item]) rest
      else (⟨some next, false, dropped ++ [item],
        { (t.okToDrop c now (some next)).2 with dropping := false }⟩ : Progress)).toCoDel
    obtain ⟨hok, hrest⟩ := List.forall_mem_append.1 h
    rw [okToDrop_toCoDel (s := t) hok]
    cases hdrop : (t.okToDrop c now (some next)).1 with
    | false => rfl
    | true =>
      rw [if_pos hdrop] at hrest
      have hlaw := controlLaw_toCoDel hfit t.dropNext t.recInvSqrt
      simp only [if_true]
      rw [state_of_okToDrop hdrop]
      refine Eq.trans ?_ (ih hrest)
      exact congrArg (fun d => CoDel.dropLoop c now { t.toCoDel with dropNext := d } next
        (dropped ++ [item]) rest) hlaw

theorem firstDrop_toCoDel (h : ∀ r ∈ s.firstReadings c now item, r.IsClear) :
    s.toCoDel.firstDrop c now item = (s.firstDrop c now item).toCoDel := by
  unfold CoDel.firstDrop firstDrop firstReadings at *
  have hqueue : s.toCoDel.queue = s.queue := rfl
  rw [hqueue]
  cases htry : tryMark c item with
  | some marked => rfl
  | none =>
    cases hrest : s.queue with
    | nil => rfl
    | cons next rest =>
      rw [htry, hrest] at h
      have hsame := okToDrop_toCoDel h
      exact congrArg (fun r => (⟨some next, false, [item], r.2⟩ : CoDel.Progress)) hsame

theorem startDropping_toCoDel (hfit : ticks c.interval < 2 ^ 32)
    (h : ∀ r ∈ s.startReadings c now, r.IsClear) :
    s.toCoDel.startDropping c now = (s.startDropping c now).toCoDel := by
  unfold startReadings at h
  have hagain : (decide (1 < (s.count - s.lastCount).toInt32) &&
      CoDel.coDelTimeBefore (CoDel.coDelGetTime now - s.toCoDel.dropNext)
        (16 * CoDel.time2CoDel c.interval)) =
      (decide (1 < (s.count - s.lastCount).toInt32) &&
        decide (ticks now - s.dropNext < 16 * ticks c.interval)) := by
    by_cases hdelta : 1 < (s.count - s.lastCount).toInt32
    · rw [if_pos hdelta, List.forall_mem_singleton] at h
      have hscale : 16 * wrap (ticks c.interval) = wrap (16 * ticks c.interval) :=
        CoDel.mul_wrap 16 _
      have hsub : wrap (ticks now) - s.toCoDel.dropNext = wrap (ticks now - s.dropNext) :=
        CoDel.wrap_sub _ _
      rw [coDelGetTime_eq, time2CoDel_eq, hscale, hsub, CoDel.coDelTimeBefore_wrap h]
    · rw [decide_eq_false hdelta, Bool.false_and, Bool.false_and]
  have hstart (t : UnboundedCoDel) : ({ t.toCoDel with
      dropping := true, lastCount := t.count
      dropNext := CoDel.controlLaw (CoDel.coDelGetTime now) (CoDel.time2CoDel c.interval)
        t.recInvSqrt } : CoDel) = ({ t with
      dropping := true, lastCount := t.count
      dropNext := controlLaw (ticks now) (ticks c.interval) t.recInvSqrt } :
        UnboundedCoDel).toCoDel := by
    have hlaw := controlLaw_toCoDel hfit (ticks now) t.recInvSqrt
    rw [← coDelGetTime_eq] at hlaw
    exact congrArg (fun d => ({ t.toCoDel with
      dropping := true, lastCount := t.count, dropNext := d } : CoDel)) hlaw
  have hcount : s.toCoDel.count - s.toCoDel.lastCount = s.count - s.lastCount := rfl
  unfold CoDel.startDropping startDropping
  dsimp only
  rw [hcount, hagain]
  cases decide (1 < (s.count - s.lastCount).toInt32) &&
    decide (ticks now - s.dropNext < 16 * ticks c.interval) with
  | true => exact hstart (s.setCount _)
  | false => exact hstart { s with count := 1, recInvSqrt := 0xffff }

theorem control_toCoDel (hfit : ticks c.interval < 2 ^ 32)
    (h : ∀ r ∈ s.controlReadings c now item, r.IsClear) :
    s.toCoDel.control c now item = (s.control c now item).toCoDel := by
  rw [controlReadings, List.forall_mem_append] at h
  obtain ⟨hok, h⟩ := h
  unfold CoDel.control control
  rw [okToDrop_toCoDel hok]
  dsimp only
  cases hdrop : (s.okToDrop c now (some item)).1 with
  | false =>
    have hdropping : (s.okToDrop c now (some item)).2.toCoDel.dropping =
      (s.okToDrop c now (some item)).2.dropping := rfl
    rw [hdropping]
    cases (s.okToDrop c now (some item)).2.dropping <;> rfl
  | true =>
    have hdropping : s.toCoDel.dropping = s.dropping := rfl
    rw [if_pos hdrop] at h
    rw [state_of_okToDrop hdrop, hdropping]
    cases hmode : s.dropping with
    | true =>
      rw [if_pos hmode] at h
      exact dropLoop_toCoDel hfit h
    | false =>
      rw [if_neg (by simp [hmode]), List.forall_mem_append] at h
      obtain ⟨hfirst, hstart⟩ := h
      have hstart := startDropping_toCoDel hfit hstart
      simp only [Bool.false_eq_true, if_false, if_true]
      rw [firstDrop_toCoDel hfirst]
      exact congrArg (fun t => (⟨(s.firstDrop c now item).item, (s.firstDrop c now item).isMarked,
        (s.firstDrop c now item).dropped, t⟩ : CoDel.Progress)) hstart

theorem markAboveThreshold_clear (h : ∀ r ∈ markReadings c now item, r.IsClear) :
    CoDel.markAboveThreshold c now item = markAboveThreshold c now item := by
  rw [markReadings, List.forall_mem_singleton] at h
  unfold CoDel.markAboveThreshold markAboveThreshold
  rw [time2CoDel_eq, time2CoDel_eq, CoDel.coDelTimeAfter_threshold h]
  simp only [decide_eq_true_eq]

theorem doDequeue_toCoDel (hfit : ticks c.interval < 2 ^ 32)
    (h : ∀ r ∈ s.dequeueReadings c now, r.IsClear) :
    s.toCoDel.doDequeue c now =
      (s.doDequeue c now).map fun r => (r.1, r.2.1, r.2.2.toCoDel) := by
  unfold CoDel.doDequeue doDequeue
  have hqueue : s.toCoDel.queue = s.queue := rfl
  unfold dequeueReadings at h
  rw [hqueue]
  cases hrest : s.queue with
  | nil => rfl
  | cons item rest =>
    rw [hrest] at h
    dsimp only at h ⊢
    cases hl4s : c.useL4s && isL4s item with
    | true =>
      rw [if_pos hl4s] at h
      simp only [if_true]
      rw [markAboveThreshold_clear h]
      rfl
    | false =>
      rw [if_neg (by simp [hl4s]), List.forall_mem_append] at h
      obtain ⟨hcontrol, hmark⟩ := h
      have hsame : CoDel.control c now { s.toCoDel with queue := rest } item =
          ({ s with queue := rest }.control c now item).toCoDel := control_toCoDel hfit hcontrol
      generalize ({ s with queue := rest } : UnboundedCoDel).control c now item = p at hsame hmark ⊢
      simp only [Bool.false_eq_true, if_false]
      rw [hsame]
      cases hitem : p.item with
      | none => simp [Progress.toCoDel, hitem]
      | some last =>
        rw [hitem] at hmark
        simp only [Progress.toCoDel, hitem, Option.map_some]
        by_cases hthreshold : (!p.isMarked && !c.useL4s && c.useEcn) = true
        · rw [if_pos hthreshold] at hmark ⊢
          have hlast : ∀ r ∈ markReadings c now last, r.IsClear := by simpa using hmark
          rw [if_pos hthreshold, markAboveThreshold_clear hlast]
        · rw [if_neg hthreshold, if_neg hthreshold]

theorem apply_toCoDel {e : CoDel.Event} (hfit : ticks c.interval < 2 ^ 32)
    (h : ∀ r ∈ s.readings c e, r.IsClear) :
    s.toCoDel.decision c e = s.decision c e ∧
      s.toCoDel.apply c e = (s.apply c e).map toCoDel := by
  cases e with
  | enqueue now item =>
    have hsame := enqueue_toCoDel c now s item
    constructor
    · rw [CoDel.decision, decision, hsame]
    · rw [CoDel.apply, apply, hsame]
      rfl
  | dequeue now =>
    have hsame := doDequeue_toCoDel hfit h
    constructor
    · simp only [CoDel.decision, decision, hsame, Option.map_map]
      rfl
    · simp only [CoDel.apply, apply, hsame, Option.map_map]
      rfl

theorem run_toCoDel {trace : List (UnboundedCoDel × CoDel.Event)}
    (hfit : ticks c.interval < 2 ^ 32) (h : Run (Step c) init trace s)
    (hclear : ∀ p ∈ trace, ∀ r ∈ p.1.readings c p.2, r.IsClear) :
    Run (CoDel.Step c) CoDel.init (trace.map fun p => (p.1.toCoDel, p.2)) s.toCoDel := by
  refine h.map_along (I := fun _ => True) (f := toCoDel) trivial ?_ hclear
  intro s e t _ he hst
  refine ⟨trivial, ?_⟩
  have hst : s.apply c e = some t := hst
  rw [CoDel.Step, (apply_toCoDel hfit he).2, hst]
  rfl

/-- In a run in which no answer depends on a wrap of the clock, every decision is the one that is
made on a clock that never wraps. -/
theorem sameDecisions_of_run {trace : List (UnboundedCoDel × CoDel.Event)}
    (hfit : ticks c.interval < 2 ^ 32) (h : Run (Step c) init trace s)
    (hclear : ∀ p ∈ trace, ∀ r ∈ p.1.readings c p.2, r.IsClear) :
    Run (CoDel.Step c) CoDel.init (trace.map fun p => (p.1.toCoDel, p.2)) s.toCoDel ∧
      ∀ e, (∀ r ∈ s.readings c e, r.IsClear) → s.toCoDel.decision c e = s.decision c e :=
  ⟨run_toCoDel hfit h hclear, fun _ he => (apply_toCoDel hfit he).1⟩

/-- A drop of a packet after an interval above the target. -/
theorem sameDecisions_drop : ∃ (c : CoDelConfig) (trace : List (CoDel × CoDel.Event)) (s : CoDel),
    Run (CoDel.Step c) CoDel.init trace s ∧ s.decision c (.dequeue 20480) =
      some (.dequeued (some ⟨2, 1, none, 0, none⟩) [⟨1, 1, none, 0, none⟩]) := by
  let c : CoDelConfig := ⟨false, false, .packets 10, 1, 10240, 1024, 0⟩
  let events : List CoDel.Event := [.enqueue 0 ⟨0, 1, none, 0, none⟩,
    .enqueue 0 ⟨1, 1, none, 0, none⟩, .enqueue 0 ⟨2, 1, none, 0, none⟩,
    .enqueue 0 ⟨3, 1, none, 0, none⟩, .dequeue 2048]
  have hrun : (Run.runOf (apply c) init events).any (fun r =>
      decide (∀ p ∈ r.1, ∀ x ∈ p.1.readings c p.2, x.IsClear) &&
      decide (∀ x ∈ r.2.readings c (.dequeue 20480), x.IsClear) &&
      decide (r.2.decision c (.dequeue 20480) =
        some (.dequeued (some ⟨2, 1, none, 0, none⟩) [⟨1, 1, none, 0, none⟩]))) = true := by
    decide +kernel
  obtain ⟨⟨trace, s⟩, hrun, hs⟩ := (Option.any_eq_true _ _).1 hrun
  simp only [Bool.and_eq_true, decide_eq_true_iff] at hs
  obtain ⟨⟨hclear, hnext⟩, hdrop⟩ := hs
  have hsame := sameDecisions_of_run (by decide) (Run.of_runOf (fun _ _ _ h => h) hrun) hclear
  exact ⟨c, _, s.toCoDel, hsame.1, (hsame.2 _ hnext).trans hdrop⟩

/-- A wrap of the clock between a dequeue and the end of its interval: the next dequeue drops a
packet before that end. -/
theorem decision_ne_wrap : ∃ (c : CoDelConfig) (trace : List (UnboundedCoDel × CoDel.Event))
    (s : UnboundedCoDel) (e : CoDel.Event), ticks c.interval < 2 ^ 32 ∧ Run (Step c) init trace s ∧
      (∀ p ∈ trace ++ [(s, e)], ∀ r ∈ p.1.readings c p.2, r.IsNear) ∧
      Run (CoDel.Step c) CoDel.init (trace.map fun p => (p.1.toCoDel, p.2)) s.toCoDel ∧
      s.toCoDel.decision c e ≠ s.decision c e := by
  let c : CoDelConfig := ⟨false, false, .packets 10, 1, 20480, 1024, 0⟩
  let enqueued : ℕ := (2 ^ 32 - 20) * 1024
  let events : List CoDel.Event := [.enqueue enqueued ⟨0, 1, none, 0, none⟩,
    .enqueue enqueued ⟨1, 1, none, 0, none⟩, .enqueue enqueued ⟨2, 1, none, 0, none⟩,
    .dequeue ((2 ^ 32 - 10) * 1024)]
  let last : CoDel.Event := .dequeue ((2 ^ 32 - 5) * 1024)
  have hrun : (Run.runOf (apply c) init events).any (fun r =>
      decide (∀ p ∈ r.1, ∀ x ∈ p.1.readings c p.2, x.IsClear) &&
      decide (∀ p ∈ r.1 ++ [(r.2, last)], ∀ x ∈ p.1.readings c p.2, x.IsNear) &&
      decide (r.2.toCoDel.decision c last ≠ r.2.decision c last)) = true := by
    decide +kernel
  obtain ⟨⟨trace, s⟩, hrun, hs⟩ := (Option.any_eq_true _ _).1 hrun
  simp only [Bool.and_eq_true, decide_eq_true_iff] at hs
  obtain ⟨⟨hclear, hnear⟩, hne⟩ := hs
  have hfit : ticks c.interval < 2 ^ 32 := by decide
  have hrun : Run (Step c) init trace s := Run.of_runOf (fun _ _ _ h => h) hrun
  exact ⟨c, trace, s, last, hfit, hrun, hnear, run_toCoDel hfit hrun hclear, hne⟩

end UnboundedCoDel

end SeanetSim
