import SeanetSim.Core.DefaultSimulator
import Mathlib.Data.List.Pairwise
import Mathlib.Data.UInt

/-!
# The life of the events of a simulation

What becomes of an event after it has been scheduled: whether `IsExpired` can tell from the time and
the number in an `EventId` that the event still waits, whether `Remove` finds what it looks for, and
whether an event is invoked that has been cancelled or removed before.
-/

namespace SeanetSim

variable {ι : Type*}

/-- What `Schedule` returns for an event. -/
def BookedEvent.id (b : BookedEvent ι) : EventId ι :=
  ⟨some b.event.impl, b.ts, b.event.key.context, b.uid⟩

namespace EventId

def rank (id : EventId ι) : ℕ ×ₗ ℕ := toLex (id.ts.toNat, id.uid.toNat)

end EventId

namespace DefaultSimulator

variable (s : DefaultSimulator ι)

/-- The place of the event that is running, or ran last, in the order of the keys. -/
def currentRank : ℕ ×ₗ ℕ := toLex (s.currentTs.toNat, s.currentUid.toNat)

/-- The event of an id waits to be executed, or to be executed at the end. -/
def Pending (id : EventId ι) : Prop := (∃ b ∈ s.events, b.id = id) ∨ id ∈ s.destroyEvents

/-- `IsCancelled` of the event of an id. -/
def Cancelled (id : EventId ι) : Prop := ∃ impl ∈ s.cancelled, id.impl = some impl

instance [DecidableEq ι] (id : EventId ι) : Decidable (s.Pending id) :=
  inferInstanceAs (Decidable ((∃ b ∈ s.events, b.id = id) ∨ id ∈ s.destroyEvents))

instance [DecidableEq ι] (id : EventId ι) : Decidable (s.Cancelled id) :=
  inferInstanceAs (Decidable (∃ impl ∈ s.cancelled, id.impl = some impl))

/-- `m_unscheduledEvents`, which is an `int`. -/
def unscheduledInt : Int32 := Int32.ofInt s.unscheduledEvents

/-- The id that a call returns. -/
def returned : SimulatorStep ι → Option (EventId ι)
  | .schedule delay impl =>
    some ⟨some impl, s.currentTs + delay.toUInt64, s.currentContext, s.uid⟩
  | .scheduleNow impl => some ⟨some impl, s.currentTs, s.currentContext, s.uid⟩
  | .scheduleDestroy impl => some ⟨some impl, s.currentTs, 0xffffffff, 2⟩
  | _ => none

/-- The id that a call is given. -/
def passed : SimulatorStep ι → Option (EventId ι)
  | .remove id => some id
  | .cancel id => some id
  | _ => none

/-- How many events a step schedules. -/
def booked : SimulatorStep ι → ℕ
  | .schedule .. => 1
  | .scheduleWithContext .. => 1
  | .scheduleNow _ => 1
  | .scheduleDestroy _ => 1
  | .moveOne => 1
  | _ => 0

/-! ### The numbers of the events -/

/-- One of the first `n` numbers that are given. -/
def Given (n : ℕ) (uid : UInt32) : Prop := ∃ k < n, uid = 4 + UInt32.ofNat k

theorem Given.mono {m n : ℕ} {uid : UInt32} (h : Given m uid) (hmn : m ≤ n) : Given n uid := by
  obtain ⟨k, hk, huid⟩ := h
  exact ⟨k, hk.trans_le hmn, huid⟩

theorem given_next (n : ℕ) : Given (n + 1) (4 + UInt32.ofNat n) := ⟨n, n.lt_succ_self, rfl⟩

theorem next_not_given {n : ℕ} (hn : n < 2 ^ 32) : ¬ Given n (4 + UInt32.ofNat n) := by
  rintro ⟨k, hk, huid⟩
  have hmod := congrArg UInt32.toNat (UInt32.add_right_inj 4 |>.1 huid)
  simp only [UInt32.toNat_ofNat'] at hmod
  omega

end DefaultSimulator

/-! ### What becomes of the events -/

/-- A simulator with what has become of its events. -/
structure EventLife (ι : Type*) where
  sim : DefaultSimulator ι
  /-- How many events have been scheduled, those for the end among them. -/
  booked : ℕ
  /-- The ids that have been returned. -/
  issued : List (EventId ι)
  /-- The events that were waiting when `Cancel` or `Remove` was called for them. -/
  dropped : List (EventId ι)
  /-- The events whose `Notify` has been called. -/
  invoked : List (EventId ι)
  /-- The scheduler has been asked to remove an event that it did not hold. -/
  asked : Bool

namespace EventLife

open DefaultSimulator

variable {l : EventLife ι}

def init : EventLife ι where
  sim := .init
  booked := 0
  issued := []
  dropped := []
  invoked := []
  asked := false

/-- What tells the events apart: those that wait come after the current one and have numbers of
their own, and of an id that has been returned the number is not given again. -/
structure Told (l : EventLife ι) : Prop where
  later : ∀ b ∈ l.sim.events, l.sim.currentRank < b.event.key.rank
  uids : l.sim.events.Pairwise fun a b => a.uid ≠ b.uid
  events : ∀ b ∈ l.sim.events, b.uid ≠ 2 ∧ Given l.booked b.uid
  uid : l.sim.uid = 4 + UInt32.ofNat l.booked
  unscheduled : l.sim.unscheduledEvents = l.sim.events.length
  room : l.sim.events.length < 2 ^ 31
  issued : ∀ id ∈ l.issued, id.impl ≠ none ∧ (id.uid ≠ 2 → Given l.booked id.uid ∧
    (l.sim.currentRank < id.rank → ¬ l.sim.Cancelled id → ∃ b ∈ l.sim.events, b.id = id))
  destroys : ∀ id ∈ l.sim.destroyEvents, id.uid = 2 ∧ id ∈ l.issued
  nodup : l.sim.destroyEvents.Nodup
  dropped : ∀ id ∈ l.dropped, id ∈ l.issued ∧ id ∉ l.invoked ∧
    (l.sim.Pending id → l.sim.Cancelled id)
  invoked : ∀ id ∈ l.invoked, (id.uid = 2 → id ∈ l.issued ∧ id ∉ l.sim.destroyEvents) ∧
    (id.uid ≠ 2 → id.rank ≤ l.sim.currentRank)
  asked : l.asked = false

theorem told_init : Told (init : EventLife ι) where
  later := fun _ hb => absurd hb List.not_mem_nil
  uids := .nil
  events := fun _ hb => absurd hb List.not_mem_nil
  uid := rfl
  unscheduled := rfl
  room := Nat.two_pow_pos 31
  issued := fun _ hid => absurd hid List.not_mem_nil
  destroys := fun _ hid => absurd hid List.not_mem_nil
  nodup := .nil
  dropped := fun _ hid => absurd hid List.not_mem_nil
  invoked := fun _ hid => absurd hid List.not_mem_nil
  asked := rfl

namespace Told

theorem mem_append_of_ne {α : Type*} {before after : List α} {x y : α}
    (hx : x ∈ before ++ y :: after) (hne : x ≠ y) : x ∈ before ++ after := by
  grind

theorem pending_iff_of_uid_ne (h : Told l) {id : EventId ι} (huid : id.uid ≠ 2) :
    l.sim.Pending id ↔ ∃ b ∈ l.sim.events, b.id = id := by
  refine ⟨fun hp => hp.resolve_right fun hd => huid (h.destroys id hd).1, .inl⟩

theorem pending_iff_of_uid_eq (h : Told l) {id : EventId ι} (huid : id.uid = 2) :
    l.sim.Pending id ↔ id ∈ l.sim.destroyEvents := by
  refine ⟨fun hp => hp.resolve_left ?_, .inr⟩
  rintro ⟨b, hb, rfl⟩
  exact (h.events b hb).1 huid

/-- An event that waits has not been invoked. -/
theorem not_invoked (h : Told l) {id : EventId ι} (hp : l.sim.Pending id) : id ∉ l.invoked := by
  intro hid
  obtain ⟨hdestroy, hrank⟩ := h.invoked id hid
  by_cases huid : id.uid = 2
  · exact (hdestroy huid).2 ((h.pending_iff_of_uid_eq huid).1 hp)
  · obtain ⟨b, hb, rfl⟩ := (h.pending_iff_of_uid_ne huid).1 hp
    exact absurd (h.later b hb) (hrank huid).not_gt

/-- An event is scheduled, and its id is returned or not. -/
theorem insert (h : Told l) (hfew : l.booked < 2 ^ 32) (hroom : l.sim.events.length + 1 < 2 ^ 31)
    {ts : UInt64}
    (hrank : l.sim.currentRank < toLex (ts.toNat, l.sim.uid.toNat)) (huid : l.sim.uid ≠ 2)
    (context : UInt32) (impl : ι) {ids : List (EventId ι)}
    (hids : ∀ id ∈ ids, id = ⟨some impl, ts, context, l.sim.uid⟩) :
    Told { l with
      sim := l.sim.insert ts context impl
      booked := l.booked + 1
      issued := ids ++ l.issued } := by
  have hfresh : ¬ Given l.booked l.sim.uid := by
    rw [h.uid]
    exact next_not_given hfew
  have hgiven : Given (l.booked + 1) l.sim.uid := by
    rw [h.uid]
    exact given_next l.booked
  exact
    { later := List.forall_mem_append.2 ⟨h.later, List.forall_mem_singleton.2 hrank⟩
      uids := by
        refine List.pairwise_append.2 ⟨h.uids, List.pairwise_singleton .., fun a ha b hb => ?_⟩
        rw [List.mem_singleton.1 hb]
        intro heq
        apply hfresh
        rw [show l.sim.uid = a.uid from heq.symm]
        exact (h.events a ha).2
      events := by
        refine List.forall_mem_append.2 ⟨fun b hb => ?_, List.forall_mem_singleton.2 ⟨huid, hgiven⟩⟩
        exact ⟨(h.events b hb).1, (h.events b hb).2.mono (Nat.le_succ _)⟩
      uid := by
        change l.sim.uid + 1 = _
        rw [h.uid, UInt32.ofNat_add, UInt32.add_assoc]
        rfl
      unscheduled := by
        change l.sim.unscheduledEvents + 1 = ((l.sim.events ++ [_]).length : ℤ)
        rw [h.unscheduled, List.length_append]
        rfl
      room := by
        change (l.sim.events ++ [_]).length < 2 ^ 31
        rw [List.length_append]
        exact hroom
      issued := by
        refine List.forall_mem_append.2 ⟨fun id hid => ?_, fun id hid => ?_⟩
        · rw [hids id hid]
          exact ⟨Option.some_ne_none _, fun _ =>
            ⟨hgiven, fun _ _ => ⟨_, List.mem_append_right _ List.mem_cons_self, rfl⟩⟩⟩
        · obtain ⟨himpl, hscheduled⟩ := h.issued id hid
          refine ⟨himpl, fun hne => ⟨(hscheduled hne).1.mono (Nat.le_succ _), fun hlt hc => ?_⟩⟩
          obtain ⟨b, hb, hbid⟩ := (hscheduled hne).2 hlt hc
          exact ⟨b, List.mem_append_left _ hb, hbid⟩
      destroys := fun id hid =>
        ⟨(h.destroys id hid).1, List.mem_append_right _ (h.destroys id hid).2⟩
      nodup := h.nodup
      dropped := by
        intro id hid
        obtain ⟨hissued, hnot, hcancel⟩ := h.dropped id hid
        refine ⟨List.mem_append_right _ hissued, hnot, fun hp => hcancel (hp.imp_left ?_)⟩
        rintro ⟨b, hb, rfl⟩
        rcases List.mem_append.1 hb with hb | hb
        · exact ⟨b, hb, rfl⟩
        · rw [List.mem_singleton.1 hb] at hissued
          exact absurd ((h.issued _ hissued).2 huid).1 hfresh
      invoked := by
        intro id hid
        obtain ⟨hdestroy, hrank⟩ := h.invoked id hid
        exact ⟨fun heq => ⟨List.mem_append_right _ (hdestroy heq).1, (hdestroy heq).2⟩, hrank⟩
      asked := h.asked }

theorem scheduleDestroy (h : Told l) {impl : ι}
    (hnew : ⟨some impl, l.sim.currentTs, 0xffffffff, 2⟩ ∉ l.issued) :
    Told { l with
      sim := l.sim.scheduleDestroy impl
      booked := l.booked + 1
      issued := ⟨some impl, l.sim.currentTs, 0xffffffff, 2⟩ :: l.issued } where
  later := h.later
  uids := h.uids
  events := fun b hb => ⟨(h.events b hb).1, (h.events b hb).2.mono (Nat.le_succ _)⟩
  uid := by
    change l.sim.uid + 1 = _
    rw [h.uid, UInt32.ofNat_add, UInt32.add_assoc]
    rfl
  unscheduled := h.unscheduled
  room := h.room
  issued := by
    refine List.forall_mem_cons.2 ⟨⟨Option.some_ne_none _, fun hne => absurd rfl hne⟩, ?_⟩
    intro id hid
    obtain ⟨himpl, hscheduled⟩ := h.issued id hid
    exact ⟨himpl, fun hne => ⟨(hscheduled hne).1.mono (Nat.le_succ _), (hscheduled hne).2⟩⟩
  destroys := by
    refine List.forall_mem_append.2 ⟨fun id hid => ?_, List.forall_mem_singleton.2 ?_⟩
    · exact ⟨(h.destroys id hid).1, List.mem_cons_of_mem _ (h.destroys id hid).2⟩
    · exact ⟨rfl, List.mem_cons_self⟩
  nodup := by
    refine List.nodup_append.2 ⟨h.nodup, List.pairwise_singleton .., fun id hid id' hid' => ?_⟩
    rw [List.mem_singleton.1 hid']
    rintro rfl
    exact hnew (h.destroys _ hid).2
  dropped := by
    intro id hid
    obtain ⟨hissued, hnot, hcancel⟩ := h.dropped id hid
    refine ⟨List.mem_cons_of_mem _ hissued, hnot, fun hp => hcancel (hp.imp_right fun hmem => ?_)⟩
    refine (List.mem_append.1 hmem).resolve_right fun hlast => hnew ?_
    rw [← List.mem_singleton.1 hlast]
    exact hissued
  invoked := by
    intro id hid
    obtain ⟨hdestroy, hrank⟩ := h.invoked id hid
    refine ⟨fun heq => ⟨List.mem_cons_of_mem _ (hdestroy heq).1, fun hmem => ?_⟩, hrank⟩
    rcases List.mem_append.1 hmem with hmem | hmem
    · exact (hdestroy heq).2 hmem
    · apply hnew
      rw [← List.mem_singleton.1 hmem]
      exact (hdestroy heq).1
  asked := h.asked

/-- Events are marked as cancelled. -/
theorem cancelled (h : Told l) (impls : List ι) :
    Told { l with sim := { l.sim with cancelled := impls ++ l.sim.cancelled } } where
  later := h.later
  uids := h.uids
  events := h.events
  uid := h.uid
  unscheduled := h.unscheduled
  room := h.room
  issued := by
    intro id hid
    obtain ⟨himpl, hscheduled⟩ := h.issued id hid
    refine ⟨himpl, fun hne => ⟨(hscheduled hne).1, fun hlt hc => (hscheduled hne).2 hlt ?_⟩⟩
    rintro ⟨impl, hmem, hsome⟩
    exact hc ⟨impl, List.mem_append_right _ hmem, hsome⟩
  destroys := h.destroys
  nodup := h.nodup
  dropped := by
    intro id hid
    obtain ⟨hissued, hnot, hcancel⟩ := h.dropped id hid
    refine ⟨hissued, hnot, fun hp => ?_⟩
    obtain ⟨impl, hmem, hsome⟩ := hcancel hp
    exact ⟨impl, List.mem_append_right _ hmem, hsome⟩
  invoked := h.invoked
  asked := h.asked

/-- `Cancel` or `Remove` has been called for an event. -/
theorem drop (h : Told l) {id : EventId ι} (hid : id ∈ l.issued) (hnot : id ∉ l.invoked)
    (hcancel : l.sim.Pending id → l.sim.Cancelled id) :
    Told { l with dropped := id :: l.dropped } :=
  { h with dropped := List.forall_mem_cons.2 ⟨⟨hid, hnot, hcancel⟩, h.dropped⟩ }

/-- A cancelled event leaves the event list. -/
theorem remove (h : Told l) {before after : List (BookedEvent ι)} {b : BookedEvent ι}
    (hb : l.sim.events = before ++ b :: after) (hcancel : l.sim.Cancelled b.id) :
    Told { l with sim := { l.sim with
      events := before ++ after
      unscheduledEvents := l.sim.unscheduledEvents - 1 } } := by
  have hsub : (before ++ after).Sublist l.sim.events := by
    rw [hb]
    exact (List.Sublist.refl before).append (List.sublist_cons_self b after)
  exact
    { later := fun x hx => h.later x (hsub.subset hx)
      uids := h.uids.sublist hsub
      events := fun x hx => h.events x (hsub.subset hx)
      uid := h.uid
      unscheduled := by
        change l.sim.unscheduledEvents - 1 = ((before ++ after).length : ℤ)
        rw [h.unscheduled, hb]
        simp only [List.length_append, List.length_cons]
        omega
      room := hsub.length_le.trans_lt h.room
      issued := by
        intro id hid
        obtain ⟨himpl, hscheduled⟩ := h.issued id hid
        refine ⟨himpl, fun hne => ⟨(hscheduled hne).1, fun hlt hc => ?_⟩⟩
        obtain ⟨x, hx, rfl⟩ := (hscheduled hne).2 hlt hc
        have hxb : x ≠ b := by
          rintro rfl
          exact hc hcancel
        rw [hb] at hx
        exact ⟨x, mem_append_of_ne hx hxb, rfl⟩
      destroys := h.destroys
      nodup := h.nodup
      dropped := by
        intro id hid
        obtain ⟨hissued, hnot, hcancel⟩ := h.dropped id hid
        refine ⟨hissued, hnot, fun hp => hcancel (hp.imp_left ?_)⟩
        rintro ⟨x, hx, hxid⟩
        exact ⟨x, hsub.subset hx, hxid⟩
      invoked := h.invoked
      asked := h.asked }

/-- An event for the end leaves the list of these. -/
theorem removeDestroy (h : Told l) {others : List (EventId ι)}
    (hsub : others.Sublist l.sim.destroyEvents) :
    Told { l with sim := { l.sim with destroyEvents := others } } where
  later := h.later
  uids := h.uids
  events := h.events
  uid := h.uid
  unscheduled := h.unscheduled
  room := h.room
  issued := h.issued
  destroys := fun id hid => h.destroys id (hsub.subset hid)
  nodup := h.nodup.sublist hsub
  dropped := by
    intro id hid
    obtain ⟨hissued, hnot, hcancel⟩ := h.dropped id hid
    exact ⟨hissued, hnot, fun hp => hcancel (hp.imp_right fun hmem => hsub.subset hmem)⟩
  invoked := by
    intro id hid
    obtain ⟨hdestroy, hrank⟩ := h.invoked id hid
    exact ⟨fun heq => ⟨(hdestroy heq).1, fun hmem => (hdestroy heq).2 (hsub.subset hmem)⟩, hrank⟩
  asked := h.asked

end Told

end EventLife

/-! ### What an id tells -/

namespace DefaultSimulator

variable [DecidableEq ι] {s : DefaultSimulator ι}

/-- `Remove` asks the scheduler for an event that it does not hold. -/
def AsksAbsent (s : DefaultSimulator ι) : SimulatorStep ι → Prop
  | .remove id => id.uid ≠ 2 ∧ s.isExpired id = false ∧ ∀ b ∈ s.events, b.id ≠ id
  | _ => False

theorem cancelled_iff {id : EventId ι} : s.Cancelled id ↔ id.impl.any (· ∈ s.cancelled) = true := by
  unfold Cancelled
  cases id.impl with
  | none => simp
  | some impl => simp

theorem isExpired_of_uid_ne {id : EventId ι} (himpl : id.impl ≠ none) (huid : id.uid ≠ 2) :
    s.isExpired id = false ↔ s.currentRank < id.rank ∧ ¬ s.Cancelled id := by
  have hrank : s.currentRank < id.rank ↔
      ¬ (id.ts < s.currentTs ∨ id.ts = s.currentTs ∧ id.uid ≤ s.currentUid) := by
    rw [currentRank, EventId.rank, Prod.Lex.toLex_lt_toLex, UInt64.lt_iff_toNat_lt,
      UInt32.le_iff_toNat_le, ← UInt64.toNat_inj]
    omega
  obtain ⟨impl, hsome⟩ := Option.ne_none_iff_exists'.1 himpl
  rw [hrank, cancelled_iff, isExpired, if_neg (by simpa using huid)]
  simp [hsome]

theorem isExpired_of_uid_eq {id : EventId ι} (himpl : id.impl ≠ none) (huid : id.uid = 2) :
    s.isExpired id = false ↔ id ∈ s.destroyEvents ∧ ¬ s.Cancelled id := by
  rw [cancelled_iff, isExpired, if_pos (by simpa using huid)]
  by_cases hcancel : id.impl.any (· ∈ s.cancelled) = true
  · simp [hcancel]
  · obtain ⟨impl, hsome⟩ := Option.ne_none_iff_exists'.1 himpl
    simp [hsome, and_comm]

end DefaultSimulator

/-! ### Runs -/

inductive LifeStep (ι : Type*)
  | simulator (e : SimulatorStep ι)
  | destroyOne

namespace EventLife

open DefaultSimulator

variable [DecidableEq ι] {l m : EventLife ι} {e : LifeStep ι}

/-- `Invoke`. -/
def invoke (l : EventLife ι) (id : EventId ι) : List (EventId ι) :=
  if l.sim.Cancelled id then l.invoked else id :: l.invoked

/-- What is recorded of a step of the simulator to `s`. -/
def record (l : EventLife ι) (e : SimulatorStep ι) (s : DefaultSimulator ι) : EventLife ι :=
  { l with
    sim := s
    booked := l.booked + DefaultSimulator.booked e
    issued := (l.sim.returned e).toList ++ l.issued
    dropped := ((passed e).filter (l.sim.Pending ·)).toList ++ l.dropped }

/-- An id that the code of the user can have: one that has been returned, or that of no event. -/
def Known (l : EventLife ι) (id : EventId ι) : Prop := id.impl = none ∨ id ∈ l.issued

inductive Step : EventLife ι → LifeStep ι → EventLife ι → Prop
  | simulator {l : EventLife ι} {e : SimulatorStep ι} {s : DefaultSimulator ι}
      (hst : DefaultSimulator.Step l.sim e s) (hknown : ∀ id ∈ passed e, l.Known id)
      (hheld : ¬ l.sim.AsksAbsent e) (hnext : e ≠ .processOneEvent) :
      Step l (.simulator e) (l.record e s)
  -- what the scheduler does then is open
  | absent {l : EventLife ι} {e : SimulatorStep ι} (hphase : l.sim.Calling)
      (hknown : ∀ id ∈ passed e, l.Known id) (habsent : l.sim.AsksAbsent e) :
      Step l (.simulator e) { l.record e l.sim with asked := true }
  | processOneEvent {l : EventLife ι} {next : BookedEvent ι} {s : DefaultSimulator ι}
      (hst : DefaultSimulator.Step l.sim .processOneEvent s)
      (hnext : s.executed = l.sim.executed ++ [next]) :
      Step l (.simulator .processOneEvent) { l with sim := s, invoked := l.invoke next.id }
  -- a round of the loop of `Destroy`
  | destroyOne {l : EventLife ι} {id : EventId ι} {rest : List (EventId ι)}
      (hphase : l.sim.phase = .idle) (hfront : l.sim.destroyEvents = id :: rest) :
      Step l .destroyOne
        { l with sim := { l.sim with destroyEvents := rest }, invoked := l.invoke id }

/-- What is promised about the life of events. -/
structure Kept (l : EventLife ι) : Prop where
  expired : ∀ id ∈ l.issued, l.sim.isExpired id = false ↔ l.sim.Pending id ∧ ¬ l.sim.Cancelled id
  unscheduled : l.sim.unscheduledInt.toInt = l.sim.events.length
  asked : l.asked = false
  dropped : ∀ id ∈ l.dropped, id ∉ l.invoked

/-- A step gives an event a time and a number that do not come after the current ones, or the number
of the events for the end, or it is the event that is too much for the `int`; or it returns an id
for an event for the end that another one has had. -/
def Confuses (l : EventLife ι) : LifeStep ι → Prop
  | .simulator e =>
    (∃ ts, l.sim.givenTs e = some ts ∧
      (toLex (ts.toNat, l.sim.uid.toNat) ≤ l.sim.currentRank ∨ l.sim.uid = 2 ∨
        2 ^ 31 ≤ l.sim.events.length + 1)) ∨
    ∃ id, l.sim.returned e = some id ∧ id.uid = 2 ∧ id ∈ l.issued
  | .destroyOne => False

instance : Decidable (Confuses l e) :=
  match e with
  | .simulator e => decidable_of_iff
      ((l.sim.givenTs e).any (fun ts => decide (toLex (ts.toNat, l.sim.uid.toNat) ≤
          l.sim.currentRank ∨ l.sim.uid = 2 ∨ 2 ^ 31 ≤ l.sim.events.length + 1)) = true ∨
        (l.sim.returned e).any (fun id => decide (id.uid = 2 ∧ id ∈ l.issued)) = true) (by
      simp only [Confuses, Option.any_eq_true, decide_eq_true_iff])
  | .destroyOne => .isFalse fun h => h

namespace Told

theorem kept (h : Told l) : Kept l where
  expired := by
    intro id hid
    obtain ⟨himpl, hscheduled⟩ := h.issued id hid
    by_cases huid : id.uid = 2
    · rw [isExpired_of_uid_eq himpl huid, h.pending_iff_of_uid_eq huid]
    · rw [isExpired_of_uid_ne himpl huid, h.pending_iff_of_uid_ne huid]
      refine and_congr_left fun hcancel => ⟨fun hlt => (hscheduled huid).2 hlt hcancel, ?_⟩
      rintro ⟨b, hb, rfl⟩
      exact h.later b hb
  unscheduled := by
    have hroom := h.room
    rw [unscheduledInt, h.unscheduled]
    apply Int32.toInt_ofInt_of_le
    · omega
    · omega
  asked := h.asked
  dropped := fun id hid => (h.dropped id hid).2.1

theorem mem_invoke {id id' : EventId ι} (h : id' ∈ l.invoke id) : id' = id ∨ id' ∈ l.invoked := by
  unfold invoke at h
  split at h
  · exact .inr h
  · exact List.mem_cons.1 h

/-- An event that waits is not invoked if it has been cancelled or removed. -/
theorem not_mem_invoke (h : Told l) {id id' : EventId ι} (hp : l.sim.Pending id)
    (hid' : id' ∈ l.dropped) : id' ∉ l.invoke id := by
  obtain ⟨-, hnot, hcancel⟩ := h.dropped id' hid'
  unfold invoke
  split
  · exact hnot
  · rename_i hlive
    rintro hmem
    rcases List.mem_cons.1 hmem with rfl | hmem
    · exact hlive (hcancel hp)
    · exact hnot hmem

theorem destroyOne (h : Told l) {id : EventId ι} {rest : List (EventId ι)}
    (hfront : l.sim.destroyEvents = id :: rest) :
    Told { l with sim := { l.sim with destroyEvents := rest }, invoked := l.invoke id } := by
  have hmem : id ∈ l.sim.destroyEvents := by
    rw [hfront]
    exact List.mem_cons_self
  have hrest := h.removeDestroy (hfront ▸ List.sublist_cons_self id rest)
  have hnodup := h.nodup
  rw [hfront, List.nodup_cons] at hnodup
  exact
    { hrest with
      dropped := by
        intro id' hid'
        obtain ⟨hissued, -, hcancel⟩ := hrest.dropped id' hid'
        exact ⟨hissued, h.not_mem_invoke (.inr hmem) hid', hcancel⟩
      invoked := by
        intro id' hid'
        rcases mem_invoke hid' with rfl | hid'
        · obtain ⟨huid, hissued⟩ := h.destroys _ hmem
          exact ⟨fun _ => ⟨hissued, hnodup.1⟩, fun hne => absurd huid hne⟩
        · exact hrest.invoked id' hid' }

theorem processOneEvent (h : Told l) {before after : List (BookedEvent ι)} {next : BookedEvent ι}
    (hnext : l.sim.events = before ++ next :: after)
    (hleast : ∀ b ∈ l.sim.events, b.event.key.lt next.event.key = false) :
    Told { l with
      sim := l.sim.processOneEvent next (before ++ after)
      invoked := l.invoke next.id } := by
  have hsub : (before ++ after).Sublist l.sim.events := by
    rw [hnext]
    exact (List.Sublist.refl before).append (List.sublist_cons_self next after)
  have hmem : next ∈ l.sim.events := by
    rw [hnext]
    exact List.mem_append_right _ List.mem_cons_self
  have hcurrent := h.later next hmem
  have huids := h.uids
  rw [hnext] at huids
  have hother {b : BookedEvent ι} (hb : b ∈ before ++ after) : b.uid ≠ next.uid := by
    rw [List.pairwise_append, List.pairwise_cons] at huids
    rcases List.mem_append.1 hb with hb | hb
    · exact huids.2.2 b hb next List.mem_cons_self
    · exact (huids.2.1.1 b hb).symm
  exact
    { later := by
        intro b hb
        refine lt_of_le_of_ne ((EventKey.not_lt_iff ..).1 (hleast b (hsub.subset hb))) fun heq => ?_
        refine hother hb (UInt32.toNat_inj.1 ?_)
        exact (congrArg (fun r => (ofLex r).2) heq).symm
      uids := h.uids.sublist hsub
      events := fun x hx => h.events x (hsub.subset hx)
      uid := h.uid
      unscheduled := by
        change l.sim.unscheduledEvents - 1 = ((before ++ after).length : ℤ)
        rw [h.unscheduled, hnext]
        simp only [List.length_append, List.length_cons]
        omega
      room := hsub.length_le.trans_lt h.room
      issued := by
        intro id hid
        obtain ⟨himpl, hscheduled⟩ := h.issued id hid
        refine ⟨himpl, fun hne => ⟨(hscheduled hne).1, fun hlt hc => ?_⟩⟩
        obtain ⟨x, hx, rfl⟩ := (hscheduled hne).2 (hcurrent.trans hlt) hc
        have hxn : x ≠ next := by
          rintro rfl
          exact lt_irrefl _ hlt
        rw [hnext] at hx
        exact ⟨x, mem_append_of_ne hx hxn, rfl⟩
      destroys := h.destroys
      nodup := h.nodup
      dropped := by
        intro id hid
        obtain ⟨hissued, -, hcancel⟩ := h.dropped id hid
        refine ⟨hissued, h.not_mem_invoke (.inl ⟨next, hmem, rfl⟩) hid, fun hp => ?_⟩
        refine hcancel (hp.imp_left ?_)
        rintro ⟨x, hx, hxid⟩
        exact ⟨x, hsub.subset hx, hxid⟩
      invoked := by
        intro id hid
        rcases mem_invoke hid with rfl | hid
        · exact ⟨fun heq => absurd heq (h.events next hmem).1, fun _ => le_rfl⟩
        · obtain ⟨hdestroy, hrank⟩ := h.invoked id hid
          exact ⟨hdestroy, fun hne => (hrank hne).trans hcurrent.le⟩
      asked := h.asked }

theorem pending_of_live (h : Told l) {id : EventId ι} (hid : id ∈ l.issued)
    (hlive : l.sim.isExpired id = false) : l.sim.Pending id := ((h.kept.expired id hid).1 hlive).1

theorem not_asksAbsent (h : Told l) {e : SimulatorStep ι} (hknown : ∀ id ∈ passed e, l.Known id) :
    ¬ l.sim.AsksAbsent e := by
  intro habsent
  cases e with
  | remove id =>
    obtain ⟨huid, hlive, hnone⟩ := habsent
    have hid : id ∈ l.issued := by
      refine (hknown id rfl).resolve_left fun himpl => ?_
      rw [DefaultSimulator.isExpired, if_neg (by simpa using huid)] at hlive
      simp [himpl] at hlive
    obtain ⟨b, hb, hbid⟩ := (h.pending_iff_of_uid_ne huid).1 (h.pending_of_live hid hlive)
    exact hnone b hb hbid
  | _ => exact habsent

/-- The record of a call with an id after which, if the event has been waiting, it is cancelled. -/
theorem record_passed (h : Told l) {s : DefaultSimulator ι} {id : EventId ι} {e : SimulatorStep ι}
    (hpassed : passed e = some id) (hknown : l.Known id) (hbooked : DefaultSimulator.booked e = 0)
    (hreturned : l.sim.returned e = none) (hs : Told { l with sim := s })
    (hcancel : id ∈ l.issued → s.Pending id → s.Cancelled id) : Told (l.record e s) := by
  have hrecord : l.record e s = { l with
      sim := s
      dropped := ((some id).filter (l.sim.Pending ·)).toList ++ l.dropped } := by
    rw [record, hpassed, hbooked, hreturned]
    rfl
  rw [hrecord]
  by_cases hp : l.sim.Pending id
  · have hid : id ∈ l.issued := by
      refine hknown.resolve_left fun himpl => ?_
      rcases hp with ⟨b, -, rfl⟩ | hmem
      · exact Option.some_ne_none _ himpl
      · exact (h.issued id (h.destroys id hmem).2).1 himpl
    have hdrop : ((some id).filter (l.sim.Pending ·)).toList = [id] := by simp [hp]
    rw [hdrop]
    exact hs.drop hid (h.not_invoked hp) (hcancel hid)
  · have hdrop : ((some id).filter (l.sim.Pending ·)).toList = [] := by simp [hp]
    rw [hdrop]
    exact hs

/-- An id that has expired is that of no waiting event, or of a cancelled one. -/
theorem cancelled_of_expired (h : Told l) {id : EventId ι} (hid : id ∈ l.issued)
    (hexpired : l.sim.isExpired id) (hp : l.sim.Pending id) : l.sim.Cancelled id := by
  by_contra hlive
  exact absurd ((h.kept.expired id hid).2 ⟨hp, hlive⟩) (Bool.not_eq_false _ ▸ hexpired)

theorem cancel (h : Told l) {id : EventId ι} (hknown : l.Known id) :
    Told (l.record (.cancel id) (l.sim.cancel id)) := by
  unfold DefaultSimulator.cancel
  split
  · rename_i hexpired
    exact h.record_passed rfl hknown rfl rfl h fun hid => h.cancelled_of_expired hid hexpired
  · refine h.record_passed rfl hknown rfl rfl (h.cancelled _) fun hid _ => ?_
    obtain ⟨impl, hsome⟩ := Option.ne_none_iff_exists'.1 (h.issued id hid).1
    exact ⟨impl, by simp [hsome], hsome⟩

theorem removeOther (h : Told l) {id : EventId ι} (hknown : l.Known id)
    (hid : id.uid = 2 ∨ l.sim.isExpired id) :
    Told (l.record (.remove id) (l.sim.removeOther id)) := by
  unfold DefaultSimulator.removeOther
  split
  · rename_i huid
    have hs := h.removeDestroy (List.erase_sublist (a := id))
    refine h.record_passed rfl hknown rfl rfl hs fun _ hp => ?_
    have hmem := (hs.pending_iff_of_uid_eq (by simpa using huid)).1 hp
    exact absurd hmem h.nodup.not_mem_erase
  · rename_i huid
    have hexpired := hid.resolve_left (by simpa using huid)
    exact h.record_passed rfl hknown rfl rfl h fun hid => h.cancelled_of_expired hid hexpired

theorem removeHeld (h : Told l) {id : EventId ι} (hknown : l.Known id) (hid : id.uid ≠ 2)
    (hlive : l.sim.isExpired id = false) (hheld : ¬ l.sim.AsksAbsent (.remove id))
    {before after : List (BookedEvent ι)} {b : BookedEvent ι}
    (hb : l.sim.events = before ++ b :: after) (huid : b.uid = id.uid) :
    Told (l.record (.remove id) (l.sim.remove id (before ++ after))) := by
  have hmem : b ∈ l.sim.events := by
    rw [hb]
    exact List.mem_append_right _ List.mem_cons_self
  -- the event of that number is the one of the id
  have hbid : b.id = id := by
    have hex : ∃ x ∈ l.sim.events, x.id = id := by
      by_contra hno
      exact hheld ⟨hid, hlive, fun x hx hxid => hno ⟨x, hx, hxid⟩⟩
    obtain ⟨x, hx, rfl⟩ := hex
    by_contra hne
    have : Std.Symm fun a b : BookedEvent ι => a.uid ≠ b.uid := ⟨fun _ _ h => h.symm⟩
    exact h.uids.forall hmem hx (fun heq => hne (congrArg BookedEvent.id heq)) huid
  have hsome : id.impl = some b.event.impl := hbid ▸ rfl
  have hmarked := h.cancelled id.impl.toList
  have hcancel : DefaultSimulator.Cancelled
      { l.sim with cancelled := id.impl.toList ++ l.sim.cancelled } id :=
    ⟨b.event.impl, by simp [hsome], hsome⟩
  have hs := hmarked.remove hb (hbid ▸ hcancel)
  exact h.record_passed rfl hknown rfl rfl hs fun _ _ => hcancel

/-- A step that does not confuse the events keeps them told apart. -/
theorem step (h : Told l) (hfew : l.booked < 2 ^ 32) (hok : ¬ Confuses l e) (hst : Step l e m) :
    Told m := by
  cases hst with
  | absent _ hknown habsent => exact absurd habsent (h.not_asksAbsent hknown)
  | destroyOne _ hfront => exact h.destroyOne hfront
  | processOneEvent hst hnext =>
    cases hst with
    | processOneEvent _ _ hevents hleast =>
      obtain rfl := List.singleton_inj.1 (List.append_cancel_left hnext)
      exact h.processOneEvent hevents hleast
  | simulator hst hknown hheld hnext =>
    rename_i e s
    have hinsert {ts : UInt64} (hgiven : l.sim.givenTs e = some ts) :
        l.sim.currentRank < toLex (ts.toNat, l.sim.uid.toNat) ∧ l.sim.uid ≠ 2 ∧
          l.sim.events.length + 1 < 2 ^ 31 := by
      rw [← not_le, ← not_le (a := 2 ^ 31), ← not_or, ← not_or]
      exact fun hbad => hok (.inl ⟨ts, hgiven, hbad⟩)
    cases hst with
    | schedule =>
      obtain ⟨hrank, huid, hroom⟩ := hinsert rfl
      exact h.insert hfew hroom hrank huid _ _ (List.forall_mem_singleton.2 rfl)
    | scheduleWithContext =>
      obtain ⟨hrank, huid, hroom⟩ := hinsert rfl
      exact h.insert hfew hroom hrank huid _ _ (fun _ hid => absurd hid List.not_mem_nil)
    | handOver => exact { h with }
    | scheduleNow =>
      obtain ⟨hrank, huid, hroom⟩ := hinsert rfl
      exact h.insert hfew hroom hrank huid _ _ (List.forall_mem_singleton.2 rfl)
    | scheduleDestroy => exact h.scheduleDestroy fun hid => hok (.inr ⟨_, rfl, rfl, hid⟩)
    | removeOther _ hid => exact h.removeOther (hknown _ rfl) hid
    | remove _ hid hlive hb huid => exact h.removeHeld (hknown _ rfl) hid hlive hheld hb huid
    | cancel => exact h.cancel (hknown _ rfl)
    | stop => exact { h with }
    | run => exact { h with }
    | processOneEvent => exact absurd rfl hnext
    | invoked => exact { h with }
    | moveOne hphase =>
      rename_i event rest
      have hgiven : l.sim.givenTs .moveOne = some (l.sim.currentTs + event.timestamp) := by
        rw [givenTs, hphase]
      obtain ⟨hrank, huid, hroom⟩ := hinsert hgiven
      exact { h.insert hfew hroom hrank huid event.context event.event
        (fun _ hid => absurd hid List.not_mem_nil) with }
    | moved => exact { h with }
    | leave => exact { h with }

end Told

theorem Step.of_simulator {e : SimulatorStep ι} {s : DefaultSimulator ι}
    (hst : DefaultSimulator.Step l.sim e s) (hpassed : passed e = none)
    (hnext : e ≠ .processOneEvent) : Step l (.simulator e) (l.record e s) := by
  refine .simulator hst (by simp [hpassed]) (fun habsent => ?_) hnext
  cases e with
  | remove id => exact Option.some_ne_none _ hpassed
  | _ => exact habsent

theorem Step.booked_le (hst : Step l e m) : l.booked ≤ m.booked := by
  cases hst with
  | simulator => exact Nat.le_add_right ..
  | absent => exact Nat.le_add_right ..
  | processOneEvent => exact le_rfl
  | destroyOne => exact le_rfl

theorem booked_le_of_run {trace : List (EventLife ι × LifeStep ι)} (h : Run Step init trace m) :
    ∀ p ∈ trace, p.1.booked ≤ m.booked := by
  induction h with
  | nil => exact fun _ hp => absurd hp List.not_mem_nil
  | snoc _ hst ih =>
    refine List.forall_mem_append.2 ⟨fun p hp => (ih p hp).trans hst.booked_le, ?_⟩
    exact List.forall_mem_singleton.2 hst.booked_le

/-- All is kept as long as no event gets a place in the order that is over, or the number of the
events for the end, or is one too much, and no two events for the end get one id. -/
theorem kept_of_run {trace : List (EventLife ι × LifeStep ι)} (h : Run Step init trace m)
    (hfew : m.booked < 2 ^ 32) (hok : ∀ p ∈ trace, ¬ Confuses p.1 p.2) :
    (∀ p ∈ trace, Kept p.1) ∧ Kept m := by
  have hbooked := booked_le_of_run h
  have hstep (l : EventLife ι) (e : LifeStep ι) (m : EventLife ι) (hl : Told l)
      (hp : l.booked < 2 ^ 32 ∧ ¬ Confuses l e) (hst : Step l e m) : Told m :=
    hl.step hp.1 hp.2 hst
  have hall (p) (hp : p ∈ trace) : p.1.booked < 2 ^ 32 ∧ ¬ Confuses p.1 p.2 :=
    ⟨(hbooked p hp).trans_lt hfew, hok p hp⟩
  obtain ⟨hall, hlast⟩ := h.invariant_along (I := Told) told_init hstep hall
  exact ⟨fun p hp => (hall p hp).kept, hlast.kept⟩

/-- Of three events one is cancelled and one is removed, and another one comes at the end. -/
theorem kept_of_run_dropped : ∃ (trace : List (EventLife ℕ × LifeStep ℕ)) (m : EventLife ℕ),
    Run Step init trace m ∧ m.invoked = [⟨some 4, 0, 0xffffffff, 2⟩, ⟨some 3, 7, 0xffffffff, 6⟩] ∧
      (∀ p ∈ trace, Kept p.1) ∧ Kept m := by
  let first : EventId ℕ := ⟨some 1, 5, 0xffffffff, 4⟩
  let second : EventId ℕ := ⟨some 2, 6, 0xffffffff, 5⟩
  let a : BookedEvent ℕ := ⟨⟨1, ⟨5, 4, 0xffffffff⟩⟩, 0⟩
  let b : BookedEvent ℕ := ⟨⟨2, ⟨6, 5, 0xffffffff⟩⟩, 1⟩
  let c : BookedEvent ℕ := ⟨⟨3, ⟨7, 6, 0xffffffff⟩⟩, 2⟩
  have hrun := Run.nil.snoc (.of_simulator (.schedule trivial) rfl (by simp) :
      Step init (.simulator (.schedule 5 1)) _)
    |>.snoc (.of_simulator (.schedule (by trivial)) rfl (by simp) :
      Step _ (.simulator (.schedule 6 2)) _)
    |>.snoc (.of_simulator (.schedule (by trivial)) rfl (by simp) :
      Step _ (.simulator (.schedule 7 3)) _)
    |>.snoc (.of_simulator (.scheduleDestroy (by trivial)) rfl (by simp) :
      Step _ (.simulator (.scheduleDestroy 4)) _)
    |>.snoc (.simulator (.cancel (by trivial)) (by rintro _ ⟨⟩; exact .inr (by decide)) id
        (by simp) : Step _ (.simulator (.cancel first)) _)
    |>.snoc (.simulator (@DefaultSimulator.Step.remove ℕ _ _ second [a] [c] b (by trivial)
        (by decide) (by decide) rfl rfl)
      (by rintro _ ⟨⟩; exact .inr (by decide)) (fun h => h.2.2 b (.tail a (.head [c])) rfl)
        (by simp) : Step _ (.simulator (.remove second)) _)
    |>.snoc (.of_simulator (.run rfl) rfl (by simp))
    |>.snoc (.of_simulator (.moved rfl) rfl (by simp))
    |>.snoc (.processOneEvent (.processOneEvent rfl rfl (List.nil_append _).symm (by decide)) rfl)
    |>.snoc (.of_simulator (.invoked rfl) rfl (by simp))
    |>.snoc (.of_simulator (.moved rfl) rfl (by simp))
    |>.snoc (.processOneEvent (.processOneEvent rfl rfl (List.nil_append _).symm (by decide)) rfl)
    |>.snoc (.of_simulator (.invoked rfl) rfl (by simp))
    |>.snoc (.of_simulator (.moved rfl) rfl (by simp))
    |>.snoc (.of_simulator (.leave rfl (.inl rfl)) rfl (by simp))
    |>.snoc (.destroyOne rfl rfl)
  exact ⟨_, _, hrun, by decide, kept_of_run hrun (by decide) (by decide)⟩

/-! ### A run to the last number -/

/-- The `n`-th of events that schedule one after the other is running, and has nothing to do yet. -/
structure Chained (n : ℕ) (l : EventLife ι) : Prop where
  invoking : l.sim.phase = .invoking
  handed : l.sim.eventsWithContext = []
  stop : l.sim.stop = false
  events : l.sim.events = []
  current : l.sim.currentUid + 1 = l.sim.uid
  uid : l.sim.uid = 4 + UInt32.ofNat n
  booked : l.booked = n
  cancelled : l.sim.cancelled = []

theorem exists_chained_one (impl : ι) :
    ∃ trace m, Run Step init trace m ∧ Chained 1 (m : EventLife ι) := by
  have hrun := Run.nil.snoc (.of_simulator (.schedule trivial) rfl (by simp) :
      Step init (.simulator (.schedule 1 impl)) _)
    |>.snoc (.of_simulator (.run rfl) rfl (by simp))
    |>.snoc (.of_simulator (.moved rfl) rfl (by simp))
    |>.snoc (.processOneEvent (.processOneEvent rfl rfl (List.nil_append _).symm ?_) rfl)
  · exact ⟨_, _, hrun, rfl, rfl, rfl, rfl, rfl, rfl, rfl, rfl⟩
  · exact List.forall_mem_singleton.2 (lt_self _)

theorem Chained.again {n : ℕ} (h : Chained n l) (impl : ι) :
    ∃ trace m, Run Step l trace m ∧ Chained (n + 1) m := by
  have hcalling : l.sim.Calling := by
    rw [Calling, h.invoking]
    trivial
  let ev : BookedEvent ι :=
    ⟨⟨impl, ⟨l.sim.currentTs + 1, l.sim.uid, l.sim.currentContext⟩⟩, l.sim.scheduled⟩
  have hevents : (l.sim.schedule 1 impl).events = [] ++ ev :: [] := by
    rw [DefaultSimulator.schedule, DefaultSimulator.insert, h.events]
    rfl
  have hmoving : (l.sim.schedule 1 impl).swapQueues.phase = .moving [] :=
    congrArg SimulatorPhase.moving h.handed
  have hleast : ∀ b ∈ (l.sim.schedule 1 impl).events, b.event.key.lt ev.event.key = false := by
    rw [hevents]
    exact List.forall_mem_singleton.2 (lt_self _)
  have hrun := Run.nil.snoc (.of_simulator (.schedule hcalling) rfl (by simp) :
      Step l (.simulator (.schedule 1 impl)) _)
    |>.snoc (.of_simulator (.invoked h.invoking) rfl (by simp))
    |>.snoc (.of_simulator (.moved hmoving) rfl (by simp))
    |>.snoc (.processOneEvent (.processOneEvent rfl h.stop hevents hleast) rfl)
  refine ⟨_, _, hrun, rfl, rfl, h.stop, rfl, rfl, ?_, congrArg (· + 1) h.booked, h.cancelled⟩
  change l.sim.uid + 1 = _
  rw [h.uid, UInt32.ofNat_add, UInt32.add_assoc]
  rfl

theorem exists_chained (impl : ι) (n : ℕ) :
    ∃ trace m, Run Step init trace m ∧ Chained (n + 1) (m : EventLife ι) := by
  induction n with
  | zero => exact exists_chained_one impl
  | succ n ih =>
    obtain ⟨trace, l, hrun, hl⟩ := ih
    obtain ⟨trace', m, hrun', hm⟩ := hl.again impl
    exact ⟨_, m, hrun.append hrun', hm⟩

/-- The event with the last number schedules one, which gets the number zero. -/
theorem Chained.not_kept {n : ℕ} (h : Chained n l) (huid : l.sim.uid = 0) (impl : ι) :
    ∃ trace m, Run Step l trace m ∧ m.booked = n + 1 ∧ ¬ Kept m := by
  have hcalling : l.sim.Calling := by
    rw [Calling, h.invoking]
    trivial
  have hst : Step l (.simulator (.scheduleNow impl)) _ :=
    .of_simulator (.scheduleNow hcalling) rfl (by simp)
  refine ⟨_, _, Run.nil.snoc hst, congrArg (· + 1) h.booked, fun hkept => ?_⟩
  let id : EventId ι := ⟨some impl, l.sim.currentTs, l.sim.currentContext, l.sim.uid⟩
  have hpending : (l.sim.scheduleNow impl).Pending id :=
    .inl ⟨_, List.mem_append_right _ List.mem_cons_self, rfl⟩
  have hlive : ¬ (l.sim.scheduleNow impl).Cancelled id := by
    rintro ⟨impl', hmem, -⟩
    exact absurd (h.cancelled ▸ hmem : impl' ∈ []) List.not_mem_nil
  have hexpired := (hkept.expired id List.mem_cons_self).2 ⟨hpending, hlive⟩
  have hne : id.uid ≠ 2 := by
    change l.sim.uid ≠ 2
    rw [huid]
    decide
  have hrank := ((isExpired_of_uid_ne (Option.some_ne_none _) hne).1 hexpired).1
  -- the number of the running event is no less than zero
  rw [currentRank, EventId.rank, Prod.Lex.toLex_lt_toLex] at hrank
  rcases hrank with hts | ⟨-, hlt⟩
  · exact absurd hts (lt_irrefl _)
  · change l.sim.currentUid.toNat < l.sim.uid.toNat at hlt
    rw [huid] at hlt
    exact absurd hlt (Nat.not_lt_zero _)

/-- A simulation comes to the number zero with fewer events than there are numbers. -/
theorem not_kept_wrapped : ¬ ∀ (trace : List (EventLife Unit × LifeStep Unit)) (m : EventLife Unit),
    Run Step init trace m → m.booked < 2 ^ 32 → Kept m := by
  obtain ⟨trace, l, hrun, hl⟩ := exists_chained () (2 ^ 32 - 5)
  have huid : l.sim.uid = 0 := by
    rw [hl.uid]
    decide
  obtain ⟨trace', m, hrun', hbooked, hm⟩ := hl.not_kept huid ()
  refine fun hall => hm (hall _ m (hrun.append hrun') ?_)
  omega

end EventLife

end SeanetSim
