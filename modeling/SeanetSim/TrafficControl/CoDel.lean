import Mathlib.Tactic.Ring
import Mathlib.Data.List.Basic
import Mathlib.Data.UInt

/-!
# The CoDel queue disc

`CoDelQueueDisc` drops or marks packets at the head of its internal queue once they have been in it
for too long.  The times are 32-bit numbers of 1024 ns.  `DoDequeue` takes packets off the queue one
after the other until it has one to return (`CoDel.doDequeue_spec`).
-/

namespace SeanetSim

/-- A packet, with the time at which it was enqueued, the flow hash it is classified by, and the
field of the IP header that has the ECN bits. -/
structure CoDelItem where
  uid : ℕ
  size : UInt32
  flowHash : Option UInt32
  timeStamp : ℕ
  dsField : Option UInt8
deriving DecidableEq, Inhabited

namespace CoDelItem

/-- `Mark`; `none` if the packet cannot be marked. -/
def mark (item : CoDelItem) : Option CoDelItem :=
  item.dsField.bind fun tos =>
    if tos &&& 3 = 0 then none else some { item with dsField := some (tos ||| 3) }

/-- The packet whatever its mark. -/
def unmarked (item : CoDelItem) : CoDelItem := { item with dsField := none }

theorem unmarked_of_mark {item marked : CoDelItem} (h : item.mark = some marked) :
    marked.unmarked = item.unmarked := by
  obtain ⟨tos, -, h⟩ := Option.bind_eq_some_iff.1 h
  split_ifs at h
  cases h
  rfl

/-- The packet after an attempt to mark it. -/
theorem unmarked_getD_mark (item : CoDelItem) : (item.mark.getD item).unmarked = item.unmarked := by
  cases h : item.mark with
  | none => rfl
  | some marked => exact unmarked_of_mark h

end CoDelItem

/-- A limit of a queue disc, in packets or in bytes. -/
inductive QueueSize
  | packets (value : UInt32)
  | bytes (value : UInt32)
deriving DecidableEq

/-- The attributes; times are in nanoseconds. -/
structure CoDelConfig where
  useEcn : Bool
  useL4s : Bool
  maxSize : QueueSize
  minBytes : UInt32
  interval : ℕ
  target : ℕ
  ceThreshold : ℕ

structure CoDel where
  /-- The internal queue. -/
  queue : List CoDelItem
  count : UInt32
  lastCount : UInt32
  dropping : Bool
  recInvSqrt : UInt16
  firstAboveTime : UInt32
  dropNext : UInt32
deriving DecidableEq

namespace CoDel

def init : CoDel := ⟨[], 0, 0, false, 0xffff, 0, 0⟩

/-! ### Arithmetic -/

/-- `Time2CoDel`; `CODEL_SHIFT` is 10. -/
def time2CoDel (ns : ℤ) : UInt32 := .ofInt (ns >>> (10 : ℕ))

def coDelGetTime (now : ℕ) : UInt32 := .ofNat (now >>> 10)

def coDelTimeAfter (a b : UInt32) : Bool := decide (0 < (a.toNat : ℤ) - b.toNat)

def coDelTimeAfterEq (a b : UInt32) : Bool := decide (0 ≤ (a.toNat : ℤ) - b.toNat)

def coDelTimeBefore (a b : UInt32) : Bool := decide ((a.toNat : ℤ) - b.toNat < 0)

def reciprocalDivide (a r : UInt32) : UInt32 := ((a.toUInt64 * r.toUInt64) >>> 32).toUInt32

/-- `NewtonStep`; `REC_INV_SQRT_SHIFT` is 16. -/
def newtonStep (recInvSqrt : UInt16) (count : UInt32) : UInt16 :=
  let invsqrt := recInvSqrt.toUInt32 <<< 16
  let invsqrt2 := ((invsqrt.toUInt64 * invsqrt.toUInt64) >>> 32).toUInt32
  let val := ((3 : UInt64) <<< 32) - count.toUInt64 * invsqrt2.toUInt64
  let val := ((val >>> 2) * invsqrt.toUInt64) >>> 31
  (val >>> 16).toUInt16

def controlLaw (t interval : UInt32) (recInvSqrt : UInt16) : UInt32 :=
  t + reciprocalDivide interval (recInvSqrt.toUInt32 <<< 16)

/-! ### The queue -/

variable (c : CoDelConfig) (now : ℕ)

/-- `GetNBytes` of the internal queue. -/
def nBytes (s : CoDel) : UInt32 := (s.queue.map CoDelItem.size).sum

/-- `GetCurrentSize () + item > GetMaxSize ()`. -/
def isFull (s : CoDel) (item : CoDelItem) : Bool :=
  match c.maxSize with
  | .packets value => value < .ofNat s.queue.length + 1
  | .bytes value => value < s.nBytes + item.size

/-- `DoEnqueue`, and the time stamp that `Enqueue` sets. -/
def enqueue (s : CoDel) (item : CoDelItem) : Bool × CoDel :=
  if s.isFull c item then (false, s)
  else (true, { s with queue := s.queue ++ [{ item with timeStamp := now }] })

/-- `OkToDrop`. -/
def okToDrop (s : CoDel) (item : Option CoDelItem) : Bool × CoDel :=
  match item with
  | none => (false, { s with firstAboveTime := 0 })
  | some item =>
    let sojournTime := time2CoDel (now - item.timeStamp)
    if coDelTimeBefore sojournTime (time2CoDel c.target) || s.nBytes < c.minBytes then
      (false, { s with firstAboveTime := 0 })
    else if s.firstAboveTime = 0 then
      (false, { s with firstAboveTime := coDelGetTime now + time2CoDel c.interval })
    else (coDelTimeAfter (coDelGetTime now) s.firstAboveTime, s)

/-- What a part of `DoDequeue` leaves: the packet at hand, whether it has been marked, and the
packets that have been dropped. -/
structure Progress where
  item : Option CoDelItem
  isMarked : Bool
  dropped : List CoDelItem
  state : CoDel

/-- `m_useEcn && Mark (item)`. -/
def tryMark (item : CoDelItem) : Option CoDelItem := if c.useEcn then item.mark else none

/-- One turn of the loop in the dropping state, with the packet at hand: the loop ends, the packet is
marked, or it is dropped and `next` goes on. -/
def dropTurn (s : CoDel) (item : CoDelItem) (dropped : List CoDelItem) (next : CoDel → Progress) :
    Progress :=
  if s.dropping && coDelTimeAfterEq (coDelGetTime now) s.dropNext then
    let s := { s with count := s.count + 1, recInvSqrt := newtonStep s.recInvSqrt (s.count + 1) }
    match tryMark c item with
    | some marked =>
      let dropNext := controlLaw (coDelGetTime now) (time2CoDel c.interval) s.recInvSqrt
      ⟨some marked, true, dropped, { s with dropNext := dropNext }⟩
    | none => next s
  else ⟨some item, false, dropped, s⟩

/-- The loop of the dropping state; the last argument is the internal queue. -/
def dropLoop (s : CoDel) (item : CoDelItem) (dropped : List CoDelItem) :
    List CoDelItem → Progress
  | [] =>
    dropTurn c now { s with queue := [] } item dropped fun s =>
      ⟨none, false, dropped ++ [item], { (s.okToDrop c now none).2 with dropping := false }⟩
  | next :: rest =>
    dropTurn c now { s with queue := next :: rest } item dropped fun s =>
      let (ok, s) := { s with queue := rest }.okToDrop c now (some next)
      if ok then
        let dropNext := controlLaw s.dropNext (time2CoDel c.interval) s.recInvSqrt
        dropLoop { s with dropNext := dropNext } next (dropped ++ [item]) rest
      else ⟨some next, false, dropped ++ [item], { s with dropping := false }⟩

/-- The packet that is marked or dropped as the dropping state is entered. -/
def firstDrop (s : CoDel) (item : CoDelItem) : Progress :=
  match tryMark c item, s.queue with
  | some marked, _ => ⟨some marked, true, [], s⟩
  | none, [] => ⟨none, false, [item], (s.okToDrop c now none).2⟩
  | none, next :: rest =>
    ⟨some next, false, [item], ({ s with queue := rest }.okToDrop c now (some next)).2⟩

/-- The drop rate with which the dropping state starts. -/
def startDropping (s : CoDel) : CoDel :=
  let delta := (s.count - s.lastCount).toInt32
  let s :=
    if 1 < delta && coDelTimeBefore (coDelGetTime now - s.dropNext) (16 * time2CoDel c.interval) then
      { s with count := delta.toUInt32, recInvSqrt := newtonStep s.recInvSqrt delta.toUInt32 }
    else { s with count := 1, recInvSqrt := 0xffff }
  let dropNext := controlLaw (coDelGetTime now) (time2CoDel c.interval) s.recInvSqrt
  { s with dropping := true, lastCount := s.count, dropNext := dropNext }

/-- The control law of `DoDequeue`, for the packet it took first. -/
def control (s : CoDel) (item : CoDelItem) : Progress :=
  let (ok, s) := s.okToDrop c now (some item)
  if s.dropping then
    if ok then s.dropLoop c now item [] s.queue
    else ⟨some item, false, [], { s with dropping := false }⟩
  else if ok then
    let p := s.firstDrop c now item
    { p with state := p.state.startDropping c now }
  else ⟨some item, false, [], s⟩

/-- The packet, marked as far as it can be if its delay is above the CE threshold. -/
def markAboveThreshold (item : CoDelItem) : CoDelItem :=
  if coDelTimeAfter (time2CoDel (now - item.timeStamp)) (time2CoDel c.ceThreshold) then
    item.mark.getD item
  else item

/-- Whether `m_useL4s` sends a packet past the control law. -/
def isL4s (item : CoDelItem) : Bool :=
  item.dsField.any fun tos => tos &&& 3 == 1 || tos &&& 3 == 3

/-- `DoDequeue`: the packet, those dropped on the way, and the queue disc after it; `none` where a
null pointer is dereferenced. -/
def doDequeue (s : CoDel) : Option (Option CoDelItem × List CoDelItem × CoDel) :=
  match s.queue with
  | [] => some (none, [], { s with dropping := false })
  | item :: rest =>
    let s := { s with queue := rest }
    if c.useL4s && isL4s item then some (some (markAboveThreshold c now item), [], s)
    else
      let p := s.control c now item
      p.item.map fun item => -- `item->GetTimeStamp ()`
        (some (if !p.isMarked && !c.useL4s && c.useEcn then markAboveThreshold c now item else item),
          p.dropped, p.state)

/-! ### Runs -/

/-- What is done to a queue disc. -/
inductive Event
  | enqueue (now : ℕ) (item : CoDelItem)
  | dequeue (now : ℕ)

/-- `none` where `DoDequeue` dereferences a null pointer. -/
def apply (c : CoDelConfig) (s : CoDel) : Event → Option CoDel
  | .enqueue now item => some (s.enqueue c now item).2
  | .dequeue now => (s.doDequeue c now).map (·.2.2)

def Step (c : CoDelConfig) (s : CoDel) (e : Event) (t : CoDel) : Prop := s.apply c e = some t

/-! ### What leaves the queue -/

variable {c : CoDelConfig} {now : ℕ} {s : CoDel} {item : CoDelItem} {dropped rest : List CoDelItem}

@[simp] theorem okToDrop_queue (c : CoDelConfig) (now : ℕ) (s : CoDel) (item : Option CoDelItem) :
    (s.okToDrop c now item).2.queue = s.queue := by
  unfold okToDrop
  split
  · rfl
  · dsimp only
    split_ifs <;> rfl

/-- A packet may only be dropped while there is another one behind it. -/
theorem queue_ne_nil_of_okToDrop (hmin : c.minBytes ≠ 0)
    (h : (s.okToDrop c now (some item)).1 = true) : s.queue ≠ [] := by
  intro hnil
  have hbytes : s.nBytes < c.minBytes := by
    rw [nBytes, hnil, UInt32.lt_iff_toNat_lt]
    exact Nat.pos_of_ne_zero fun hzero => hmin (UInt32.toNat_inj.1 hzero)
  simp [okToDrop, hbytes] at h

theorem unmarked_of_tryMark {marked : CoDelItem} (h : tryMark c item = some marked) :
    marked.unmarked = item.unmarked := by
  unfold tryMark at h
  split_ifs at h
  exact CoDelItem.unmarked_of_mark h

/-- The packets of `l` have been dropped, from the first one, up to the one at hand. -/
def Takes (l : List CoDelItem) (p : Progress) : Prop :=
  ∃ taken : Option CoDelItem, l = p.dropped ++ taken.toList ++ p.state.queue ∧
    p.item.map CoDelItem.unmarked = taken.map CoDelItem.unmarked

/-- One turn: either the packet at hand is kept, or it is dropped and the rest decides. -/
theorem dropTurn_takes {next : CoDel → Progress}
    (hnext : ∀ s' : CoDel, s'.queue = s.queue → Takes (dropped ++ item :: s.queue) (next s')) :
    Takes (dropped ++ item :: s.queue) (s.dropTurn c now item dropped next) := by
  unfold dropTurn
  by_cases hturn : (s.dropping && coDelTimeAfterEq (coDelGetTime now) s.dropNext) = true
  · rw [if_pos hturn]
    cases hmark : tryMark c item with
    | some marked =>
      exact ⟨some item, by simp, congrArg some (unmarked_of_tryMark hmark)⟩
    | none => exact hnext _ rfl
  · rw [if_neg hturn]
    exact ⟨some item, by simp, rfl⟩

theorem dropLoop_takes (s : CoDel) (item : CoDelItem) (dropped rest : List CoDelItem) :
    Takes (dropped ++ item :: rest) (s.dropLoop c now item dropped rest) := by
  induction rest generalizing s item dropped with
  | nil =>
    refine dropTurn_takes (s := { s with queue := [] }) fun s' hs' => ?_
    exact ⟨none, by simp [hs'], rfl⟩
  | cons next rest ih =>
    refine dropTurn_takes (s := { s with queue := next :: rest }) fun s' _ => ?_
    dsimp only
    split_ifs
    · have hrest := ih { ({ s' with queue := rest }.okToDrop c now (some next)).2 with
        dropNext := controlLaw ({ s' with queue := rest }.okToDrop c now (some next)).2.dropNext
          (time2CoDel c.interval)
          ({ s' with queue := rest }.okToDrop c now (some next)).2.recInvSqrt } next
        (dropped ++ [item])
      simpa using hrest
    · exact ⟨some next, by simp, rfl⟩

theorem dropLoop_item (hmin : c.minBytes ≠ 0) (s : CoDel) (item : CoDelItem)
    (dropped : List CoDelItem) (hrest : rest ≠ []) :
    (s.dropLoop c now item dropped rest).item ≠ none := by
  induction rest generalizing s item dropped with
  | nil => exact absurd rfl hrest
  | cons next rest ih =>
    unfold dropLoop dropTurn
    by_cases hturn : (s.dropping && coDelTimeAfterEq (coDelGetTime now) s.dropNext) = true
    · rw [if_pos hturn]
      cases tryMark c item with
      | some marked => nofun
      | none =>
        dsimp only
        split_ifs with hok
        · exact ih _ _ _ (queue_ne_nil_of_okToDrop hmin hok)
        · nofun
    · rw [if_neg hturn]
      nofun

theorem firstDrop_takes (c : CoDelConfig) (now : ℕ) (s : CoDel) (item : CoDelItem) :
    Takes (item :: s.queue) (s.firstDrop c now item) := by
  unfold firstDrop
  cases hmark : tryMark c item with
  | some marked =>
    exact ⟨some item, by simp, congrArg some (unmarked_of_tryMark hmark)⟩
  | none =>
    cases hqueue : s.queue with
    | nil => exact ⟨none, by simp [hqueue], rfl⟩
    | cons next rest => exact ⟨some next, by simp, rfl⟩

theorem firstDrop_item (s : CoDel) (item : CoDelItem) (hrest : s.queue ≠ []) :
    (s.firstDrop c now item).item ≠ none := by
  unfold firstDrop
  cases tryMark c item with
  | some marked => nofun
  | none =>
    cases hqueue : s.queue with
    | nil => exact absurd hqueue hrest
    | cons next rest => nofun

@[simp] theorem startDropping_queue (s : CoDel) : (s.startDropping c now).queue = s.queue := by
  unfold startDropping
  dsimp only
  split_ifs <;> rfl

theorem control_takes (c : CoDelConfig) (now : ℕ) (s : CoDel) (item : CoDelItem) :
    Takes (item :: s.queue) (s.control c now item) := by
  have hqueue := okToDrop_queue c now s (some item)
  have hkept (b : Bool) (s' : CoDel) (hs' : s'.queue = s.queue) :
      Takes (item :: s.queue) ⟨some item, b, [], s'⟩ :=
    ⟨some item, by simp [hs'], rfl⟩
  unfold control
  dsimp only
  split_ifs
  · exact hqueue ▸ dropLoop_takes _ item [] _
  · exact hkept _ _ hqueue
  · obtain ⟨taken, hsplit, hitem⟩ :=
      firstDrop_takes c now (s.okToDrop c now (some item)).2 item
    rw [hqueue] at hsplit
    exact ⟨taken, by simpa using hsplit, hitem⟩
  · exact hkept _ _ hqueue

theorem control_item (hmin : c.minBytes ≠ 0) (s : CoDel) (item : CoDelItem) :
    (s.control c now item).item ≠ none := by
  have hrest (hok : (s.okToDrop c now (some item)).1 = true) :
      (s.okToDrop c now (some item)).2.queue ≠ [] := by
    rw [okToDrop_queue]
    exact queue_ne_nil_of_okToDrop hmin hok
  unfold control
  dsimp only
  split_ifs with hdropping hok hok
  · exact dropLoop_item hmin _ _ _ (hrest hok)
  · nofun
  · exact firstDrop_item _ _ (hrest hok)
  · nofun

theorem unmarked_markAboveThreshold (item : CoDelItem) :
    (markAboveThreshold c now item).unmarked = item.unmarked := by
  unfold markAboveThreshold
  split_ifs
  · exact item.unmarked_getD_mark
  · rfl

/-- The packets leave from the front: those that are dropped, then the one that is returned, maybe
marked.  None is returned only by an empty queue. -/
theorem doDequeue_spec {item : Option CoDelItem} {s' : CoDel}
    (h : s.doDequeue c now = some (item, dropped, s')) :
    ∃ taken : Option CoDelItem, s.queue = dropped ++ taken.toList ++ s'.queue ∧
      item.map CoDelItem.unmarked = taken.map CoDelItem.unmarked ∧
      (item = none → s.queue = []) := by
  unfold doDequeue at h
  cases hqueue : s.queue with
  | nil =>
    simp only [hqueue, Option.some.injEq, Prod.mk.injEq] at h
    obtain ⟨rfl, rfl, rfl⟩ := h
    exact ⟨none, by simp, rfl, fun _ => rfl⟩
  | cons first rest =>
    simp only [hqueue] at h
    by_cases hl4s : (c.useL4s && isL4s first) = true
    · rw [if_pos hl4s] at h
      cases h
      exact ⟨some first, rfl, congrArg some (unmarked_markAboveThreshold first), nofun⟩
    · rw [if_neg hl4s] at h
      obtain ⟨last, hlast, h⟩ := Option.map_eq_some_iff.1 h
      cases h
      obtain ⟨taken, hsplit, hitem⟩ :=
        control_takes c now { s with queue := rest } first
      refine ⟨taken, hsplit, ?_, nofun⟩
      rw [← hitem, hlast]
      split_ifs
      · exact congrArg some (unmarked_markAboveThreshold last)
      · rfl

/-- With a positive `MinBytes` no null pointer is dereferenced. -/
theorem isSome_doDequeue (hmin : c.minBytes ≠ 0) (now : ℕ) (s : CoDel) : (s.doDequeue c now).isSome := by
  unfold doDequeue
  cases s.queue with
  | nil => rfl
  | cons first rest =>
    by_cases hl4s : (c.useL4s && isL4s first) = true
    · simp [hl4s]
    · dsimp only
      rw [if_neg hl4s, Option.isSome_map, Option.isSome_iff_ne_none]
      exact control_item hmin _ _

end CoDel

end SeanetSim
