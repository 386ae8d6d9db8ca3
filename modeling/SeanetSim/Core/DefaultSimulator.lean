import SeanetSim.Core.Scheduler
import SeanetSim.Lib.Run

/-!
# The order of the events of a simulation

`DefaultSimulatorImpl` gives every event that it schedules the number `m_uid`, which settles the
order of the events of one time.  It has 32 bits and starts again after the last one.

An event counts as scheduled when it is given its time and its number; the events that another
thread hands over are kept apart until then.  The scheduler is any that returns a least event.  What
the assertions check is not taken for granted, and `Time` adds without a check.
-/

namespace SeanetSim

variable {ι : Type*}

/-- An event of the event list, with how many had been scheduled before it. -/
structure BookedEvent (ι : Type*) where
  event : SchedulerEvent ι
  number : ℕ

structure EventId (ι : Type*) where
  impl : Option ι
  ts : UInt64
  context : UInt32
  uid : UInt32
deriving DecidableEq

structure EventWithContext (ι : Type*) where
  context : UInt32
  timestamp : UInt64
  event : ι

/-- Where the main thread is: outside of `Run`, in its loop, in the event that `ProcessOneEvent`
invokes, or in `ProcessEventsWithContext` with what it has swapped out. -/
inductive SimulatorPhase (ι : Type*)
  | idle
  | loop
  | invoking
  | moving (eventsWithContext : List (EventWithContext ι))

/-- The simulator; `scheduled` and `executed` record what has been scheduled and executed. -/
structure DefaultSimulator (ι : Type*) where
  eventsWithContext : List (EventWithContext ι)
  destroyEvents : List (EventId ι)
  stop : Bool
  events : List (BookedEvent ι)
  uid : UInt32
  currentUid : UInt32
  currentTs : UInt64
  currentContext : UInt32
  eventCount : UInt64
  unscheduledEvents : ℤ
  cancelled : List ι
  phase : SimulatorPhase ι
  scheduled : ℕ
  executed : List (BookedEvent ι)

namespace BookedEvent

def ts (b : BookedEvent ι) : UInt64 := b.event.key.ts

def uid (b : BookedEvent ι) : UInt32 := b.event.key.uid

end BookedEvent

namespace DefaultSimulator

def init : DefaultSimulator ι where
  eventsWithContext := []
  destroyEvents := []
  stop := false
  events := []
  -- uids are allocated from 4
  uid := 4
  currentUid := 0
  currentTs := 0
  currentContext := 0xffffffff
  eventCount := 0
  unscheduledEvents := 0
  cancelled := []
  phase := .idle
  scheduled := 0
  executed := []

variable (s : DefaultSimulator ι)

/-- What all that schedule an event do with it once they know its time. -/
def insert (ts : UInt64) (context : UInt32) (impl : ι) : DefaultSimulator ι :=
  { s with
    events := s.events ++ [⟨⟨impl, ⟨ts, s.uid, context⟩⟩, s.scheduled⟩]
    uid := s.uid + 1
    unscheduledEvents := s.unscheduledEvents + 1
    scheduled := s.scheduled + 1 }

def schedule (delay : Int64) (impl : ι) : DefaultSimulator ι :=
  s.insert (s.currentTs + delay.toUInt64) s.currentContext impl

/-- `ScheduleWithContext` in the main thread. -/
def scheduleWithContext (context : UInt32) (delay : Int64) (impl : ι) : DefaultSimulator ι :=
  s.insert (s.currentTs + delay.toUInt64) context impl

/-- `ScheduleWithContext` in another thread. -/
def handOver (context : UInt32) (delay : Int64) (impl : ι) : DefaultSimulator ι :=
  { s with eventsWithContext := s.eventsWithContext ++ [⟨context, delay.toUInt64, impl⟩] }

def scheduleNow (impl : ι) : DefaultSimulator ι :=
  s.insert s.currentTs s.currentContext impl

def scheduleDestroy (impl : ι) : DefaultSimulator ι :=
  { s with
    destroyEvents := s.destroyEvents ++ [⟨some impl, s.currentTs, 0xffffffff, 2⟩]
    uid := s.uid + 1 }

section Ids

variable [DecidableEq ι]

def isExpired (id : EventId ι) : Bool :=
  if id.uid == 2 then
    if id.impl == none || id.impl.any (· ∈ s.cancelled) then true
    else !(s.destroyEvents.contains id)
  else id.impl == none || id.ts < s.currentTs ||
    (id.ts == s.currentTs && id.uid ≤ s.currentUid) || id.impl.any (· ∈ s.cancelled)

def cancel (id : EventId ι) : DefaultSimulator ι :=
  if s.isExpired id then s else { s with cancelled := id.impl.toList ++ s.cancelled }

/-- `Remove` of an event that is not to be found in the event list any more, or never was. -/
def removeOther (id : EventId ι) : DefaultSimulator ι :=
  if id.uid == 2 then { s with destroyEvents := s.destroyEvents.erase id } else s

end Ids

/-- `Remove` of an event, which leaves the others in the event list. -/
def remove (id : EventId ι) (others : List (BookedEvent ι)) : DefaultSimulator ι :=
  { s with
    events := others
    cancelled := id.impl.toList ++ s.cancelled
    unscheduledEvents := s.unscheduledEvents - 1 }

/-- `ProcessOneEvent` up to the call of `Invoke`, the scheduler having returned `next`. -/
def processOneEvent (next : BookedEvent ι) (others : List (BookedEvent ι)) : DefaultSimulator ι :=
  { s with
    events := others
    unscheduledEvents := s.unscheduledEvents - 1
    eventCount := s.eventCount + 1
    currentTs := next.event.key.ts
    currentContext := next.event.key.context
    currentUid := next.event.key.uid
    phase := .invoking
    executed := s.executed ++ [next] }

/-- The begin of `ProcessEventsWithContext`. -/
def swapQueues : DefaultSimulator ι :=
  { s with eventsWithContext := [], phase := .moving s.eventsWithContext }

/-- A round of the loop of `ProcessEventsWithContext`. -/
def moveOne (event : EventWithContext ι) (rest : List (EventWithContext ι)) : DefaultSimulator ι :=
  { s.insert (s.currentTs + event.timestamp) event.context event.event with phase := .moving rest }

end DefaultSimulator

/-! ### Runs -/

inductive SimulatorStep (ι : Type*)
  | schedule (delay : Int64) (impl : ι)
  | scheduleWithContext (context : UInt32) (delay : Int64) (impl : ι)
  | handOver (context : UInt32) (delay : Int64) (impl : ι)
  | scheduleNow (impl : ι)
  | scheduleDestroy (impl : ι)
  | remove (id : EventId ι)
  | cancel (id : EventId ι)
  | stop
  | run
  | processOneEvent
  | invoked
  | moveOne
  | moved
  | leave

namespace DefaultSimulator

variable {s t : DefaultSimulator ι} {e : SimulatorStep ι}

/-- The main thread runs code of the user. -/
def Calling (s : DefaultSimulator ι) : Prop :=
  match s.phase with
  | .idle => True
  | .invoking => True
  | _ => False

inductive Step [DecidableEq ι] : DefaultSimulator ι → SimulatorStep ι → DefaultSimulator ι → Prop
  | schedule {s : DefaultSimulator ι} {delay : Int64} {impl : ι} (hphase : s.Calling) :
      Step s (.schedule delay impl) (s.schedule delay impl)
  | scheduleWithContext {s : DefaultSimulator ι} {context : UInt32} {delay : Int64} {impl : ι}
      (hphase : s.Calling) :
      Step s (.scheduleWithContext context delay impl) (s.scheduleWithContext context delay impl)
  | handOver {s : DefaultSimulator ι} {context : UInt32} {delay : Int64} {impl : ι} :
      Step s (.handOver context delay impl) (s.handOver context delay impl)
  | scheduleNow {s : DefaultSimulator ι} {impl : ι} (hphase : s.Calling) :
      Step s (.scheduleNow impl) (s.scheduleNow impl)
  | scheduleDestroy {s : DefaultSimulator ι} {impl : ι} (hphase : s.Calling) :
      Step s (.scheduleDestroy impl) (s.scheduleDestroy impl)
  | removeOther {s : DefaultSimulator ι} {id : EventId ι} (hphase : s.Calling)
      (hid : id.uid = 2 ∨ s.isExpired id) : Step s (.remove id) (s.removeOther id)
  -- a scheduler may look for the unique id alone
  | remove {s : DefaultSimulator ι} {id : EventId ι} {before after : List (BookedEvent ι)}
      {b : BookedEvent ι} (hphase : s.Calling) (hid : id.uid ≠ 2) (hexpired : s.isExpired id = false)
      (hb : s.events = before ++ b :: after) (huid : b.uid = id.uid) :
      Step s (.remove id) (s.remove id (before ++ after))
  | cancel {s : DefaultSimulator ι} {id : EventId ι} (hphase : s.Calling) :
      Step s (.cancel id) (s.cancel id)
  | stop {s : DefaultSimulator ι} (hphase : s.Calling) : Step s .stop { s with stop := true }
  | run {s : DefaultSimulator ι} (hphase : s.phase = .idle) :
      Step s .run { s.swapQueues with stop := false }
  | processOneEvent {s : DefaultSimulator ι} {before after : List (BookedEvent ι)}
      {next : BookedEvent ι} (hphase : s.phase = .loop) (hstop : s.stop = false)
      (hnext : s.events = before ++ next :: after)
      (hleast : ∀ b ∈ s.events, b.event.key.lt next.event.key = false) :
      Step s .processOneEvent (s.processOneEvent next (before ++ after))
  | invoked {s : DefaultSimulator ι} (hphase : s.phase = .invoking) : Step s .invoked s.swapQueues
  | moveOne {s : DefaultSimulator ι} {event : EventWithContext ι} {rest : List (EventWithContext ι)}
      (hphase : s.phase = .moving (event :: rest)) : Step s .moveOne (s.moveOne event rest)
  | moved {s : DefaultSimulator ι} (hphase : s.phase = .moving []) :
      Step s .moved { s with phase := .loop }
  | leave {s : DefaultSimulator ι} (hphase : s.phase = .loop) (hstop : s.events = [] ∨ s.stop) :
      Step s .leave { s with phase := .idle }

/-- The events have been executed in the order of their times, and those of one time in the order in
which they were scheduled. -/
def InOrder (s : DefaultSimulator ι) : Prop :=
  s.executed.Pairwise fun a b => a.ts ≤ b.ts ∧ (a.ts = b.ts → a.number < b.number)

/-- The time that a step gives to an event. -/
def givenTs (s : DefaultSimulator ι) : SimulatorStep ι → Option UInt64
  | .schedule delay _ => some (s.currentTs + delay.toUInt64)
  | .scheduleWithContext _ delay _ => some (s.currentTs + delay.toUInt64)
  | .scheduleNow _ => some s.currentTs
  | .moveOne =>
    match s.phase with
    | .moving (event :: _) => some (s.currentTs + event.timestamp)
    | _ => none
  | _ => none

/-- An event is scheduled for a time that is over, or gets a number that does not put it behind the
events that wait for the same time. -/
def Misplaces (s : DefaultSimulator ι) (e : SimulatorStep ι) : Prop :=
  ∃ ts, s.givenTs e = some ts ∧
    (ts < s.currentTs ∨ ∃ b ∈ s.events, b.ts = ts ∧ s.uid ≤ b.uid)

instance : Decidable (Misplaces s e) :=
  decidable_of_iff ((s.givenTs e).any (fun ts => decide (ts < s.currentTs ∨
      ∃ b ∈ s.events, b.ts = ts ∧ s.uid ≤ b.uid)) = true) (by
    simp only [Misplaces, Option.any_eq_true, decide_eq_true_iff])

/-- What keeps the events in order: those that wait are not before the current time, and of two for
the same time the one that was scheduled first has the smaller number. -/
structure Placed (s : DefaultSimulator ι) : Prop where
  inOrder : s.InOrder
  pending : s.events.Pairwise fun a b => a.number < b.number ∧ (a.ts = b.ts → a.uid < b.uid)
  current : ∀ b ∈ s.events, s.currentTs ≤ b.ts
  counted : ∀ b ∈ s.events, b.number < s.scheduled
  past : ∀ a ∈ s.executed, a.ts ≤ s.currentTs ∧ a.number < s.scheduled
  first : ∀ a ∈ s.executed, ∀ b ∈ s.events, a.ts = b.ts → a.number < b.number

theorem placed_init : Placed (init : DefaultSimulator ι) where
  inOrder := .nil
  pending := .nil
  current := fun _ hb => absurd hb List.not_mem_nil
  counted := fun _ hb => absurd hb List.not_mem_nil
  past := fun _ ha => absurd ha List.not_mem_nil
  first := fun _ ha => absurd ha List.not_mem_nil

/-- A step that leaves the events and the clock alone. -/
theorem Placed.congr (h : Placed s) (hevents : t.events = s.events)
    (hexecuted : t.executed = s.executed) (hts : t.currentTs = s.currentTs)
    (hscheduled : t.scheduled = s.scheduled) : Placed t := by
  obtain ⟨hin, hpend, hcur, hcount, hpast, hfirst⟩ := h
  constructor
  · rw [InOrder, hexecuted]
    exact hin
  · rw [hevents]
    exact hpend
  · rw [hevents, hts]
    exact hcur
  · rw [hevents, hscheduled]
    exact hcount
  · rw [hexecuted, hts, hscheduled]
    exact hpast
  · rw [hexecuted, hevents]
    exact hfirst

theorem Placed.insert (h : Placed s) {ts : UInt64} (hts : s.currentTs ≤ ts)
    (huid : ∀ b ∈ s.events, b.ts = ts → b.uid < s.uid) (context : UInt32) (impl : ι) :
    Placed (s.insert ts context impl) where
  inOrder := h.inOrder
  pending := by
    refine List.pairwise_append.2 ⟨h.pending, List.pairwise_singleton .., fun a ha b hb => ?_⟩
    rw [List.mem_singleton.1 hb]
    exact ⟨h.counted a ha, huid a ha⟩
  current := by
    refine List.forall_mem_append.2 ⟨h.current, List.forall_mem_singleton.2 hts⟩
  counted := by
    refine List.forall_mem_append.2 ⟨fun b hb => ?_, List.forall_mem_singleton.2 ?_⟩
    · exact (h.counted b hb).trans (Nat.lt_succ_self _)
    · exact Nat.lt_succ_self _
  past := fun a ha => ⟨(h.past a ha).1, (h.past a ha).2.trans (Nat.lt_succ_self _)⟩
  first := by
    refine fun a ha => List.forall_mem_append.2 ⟨h.first a ha, List.forall_mem_singleton.2 ?_⟩
    exact fun _ => (h.past a ha).2

/-- An event leaves the event list. -/
theorem Placed.remove (h : Placed s) {before after : List (BookedEvent ι)} {b : BookedEvent ι}
    (hb : s.events = before ++ b :: after) (id : EventId ι) :
    Placed (s.remove id (before ++ after)) := by
  have hsub : (before ++ after).Sublist s.events := by
    rw [hb]
    exact (List.Sublist.refl before).append (List.sublist_cons_self b after)
  exact
    { inOrder := h.inOrder
      pending := h.pending.sublist hsub
      current := fun x hx => h.current x (hsub.subset hx)
      counted := fun x hx => h.counted x (hsub.subset hx)
      past := h.past
      first := fun a ha x hx => h.first a ha x (hsub.subset hx) }

/-- Of the events that wait for the same time as the next one, it has been scheduled first. -/
theorem Placed.next_first (h : Placed s) {before after : List (BookedEvent ι)}
    {next : BookedEvent ι} (hnext : s.events = before ++ next :: after)
    (hleast : ∀ b ∈ s.events, b.event.key.lt next.event.key = false) {b : BookedEvent ι}
    (hb : b ∈ before ++ after) : next.ts ≤ b.ts ∧ (next.ts = b.ts → next.number < b.number) := by
  have hpend := h.pending
  rw [hnext, List.pairwise_append, List.pairwise_cons] at hpend
  obtain ⟨-, ⟨hafter, -⟩, hbefore⟩ := hpend
  have hmem : b ∈ s.events := by
    rw [hnext]
    grind
  have hnot : ¬ (b.ts < next.ts ∨ b.ts = next.ts ∧ b.uid < next.uid) := fun hlt =>
    Bool.eq_false_iff.1 (hleast b hmem) ((EventKey.lt_iff_or ..).2 hlt)
  refine ⟨UInt64.not_lt.1 fun hlt => hnot (.inl hlt), fun hts => ?_⟩
  rcases List.mem_append.1 hb with hb | hb
  · have huid := (hbefore b hb next List.mem_cons_self).2 hts.symm
    exact absurd (Or.inr ⟨hts.symm, huid⟩) hnot
  · exact (hafter b hb).1

theorem Placed.processOneEvent (h : Placed s) {before after : List (BookedEvent ι)}
    {next : BookedEvent ι} (hnext : s.events = before ++ next :: after)
    (hleast : ∀ b ∈ s.events, b.event.key.lt next.event.key = false) :
    Placed (s.processOneEvent next (before ++ after)) := by
  have hmem : next ∈ s.events := by
    rw [hnext]
    exact List.mem_append_right _ List.mem_cons_self
  have hrest := h.remove hnext ⟨none, 0, 0, 0⟩
  have hother {b : BookedEvent ι} (hb : b ∈ before ++ after) := h.next_first hnext hleast hb
  exact
    { inOrder := by
        refine List.pairwise_append.2 ⟨h.inOrder, List.pairwise_singleton .., fun a ha b hb => ?_⟩
        rw [List.mem_singleton.1 hb]
        exact ⟨UInt64.le_trans (h.past a ha).1 (h.current next hmem), h.first a ha next hmem⟩
      pending := hrest.pending
      current := fun b hb => (hother hb).1
      counted := hrest.counted
      past := by
        refine List.forall_mem_append.2 ⟨fun a ha => ?_, List.forall_mem_singleton.2 ?_⟩
        · exact ⟨UInt64.le_trans (h.past a ha).1 (h.current next hmem), (h.past a ha).2⟩
        · exact ⟨UInt64.le_refl _, h.counted next hmem⟩
      first := by
        refine List.forall_mem_append.2 ⟨hrest.first, List.forall_mem_singleton.2 ?_⟩
        exact fun b hb => (hother hb).2 }

/-- A step that gives a time to an event and does not misplace it. -/
theorem Placed.insert_of_given (h : Placed s) {ts : UInt64} (hgiven : s.givenTs e = some ts)
    (hok : ¬ Misplaces s e) (context : UInt32) (impl : ι) : Placed (s.insert ts context impl) := by
  have hnot : ¬ (ts < s.currentTs ∨ ∃ b ∈ s.events, b.ts = ts ∧ s.uid ≤ b.uid) :=
    fun hbad => hok ⟨ts, hgiven, hbad⟩
  rw [not_or] at hnot
  refine h.insert (UInt64.not_lt.1 hnot.1) (fun b hb hts => ?_) context impl
  exact UInt32.not_le.1 fun huid => hnot.2 ⟨b, hb, hts, huid⟩

variable [DecidableEq ι]

theorem Placed.step (h : Placed s) (hok : ¬ Misplaces s e) (hst : Step s e t) : Placed t := by
  cases hst with
  | schedule => exact h.insert_of_given rfl hok _ _
  | scheduleWithContext => exact h.insert_of_given rfl hok _ _
  | handOver => exact h.congr rfl rfl rfl rfl
  | scheduleNow => exact h.insert_of_given rfl hok _ _
  | scheduleDestroy => exact h.congr rfl rfl rfl rfl
  | removeOther =>
    unfold removeOther
    split
    · exact h.congr rfl rfl rfl rfl
    · exact h
  | remove _ _ _ hb => exact h.remove hb _
  | cancel =>
    unfold cancel
    split
    · exact h
    · exact h.congr rfl rfl rfl rfl
  | stop => exact h.congr rfl rfl rfl rfl
  | run => exact h.congr rfl rfl rfl rfl
  | processOneEvent _ _ hnext hleast => exact h.processOneEvent hnext hleast
  | invoked => exact h.congr rfl rfl rfl rfl
  | moveOne hphase =>
    rename_i event rest
    have hgiven : s.givenTs .moveOne = some (s.currentTs + event.timestamp) := by
      rw [givenTs, hphase]
    exact (h.insert_of_given hgiven hok event.context event.event).congr rfl rfl rfl rfl
  | moved => exact h.congr rfl rfl rfl rfl
  | leave => exact h.congr rfl rfl rfl rfl

/-- Events are executed in order as long as none is misplaced. -/
theorem inOrder_of_run {trace : List (DefaultSimulator ι × SimulatorStep ι)}
    (h : Run Step init trace t) (hok : ∀ p ∈ trace, ¬ Misplaces p.1 p.2) :
    (∀ p ∈ trace, p.1.InOrder) ∧ t.InOrder := by
  have hstep (s : DefaultSimulator ι) (e : SimulatorStep ι) (t : DefaultSimulator ι)
      (hs : Placed s) (hp : ¬ Misplaces s e) (hst : Step s e t) : Placed t := hs.step hp hst
  obtain ⟨hall, hlast⟩ := h.invariant_along (I := Placed) placed_init hstep hok
  exact ⟨fun p hp => (hall p hp).inOrder, hlast.inOrder⟩

/-- Two events for one time, the first of which schedules a third one for it. -/
theorem inOrder_of_run_nested : ∃ (trace : List (DefaultSimulator ℕ × SimulatorStep ℕ))
    (t : DefaultSimulator ℕ), Run Step init trace t ∧ t.executed.map (·.event.impl) = [1, 2, 3] ∧
      (∀ p ∈ trace, p.1.InOrder) ∧ t.InOrder := by
  have hrun := Run.nil.snoc (.schedule trivial : Step init (.schedule 7 1) (init.schedule 7 1))
    |>.snoc (.schedule (by trivial) : Step _ (.schedule 7 2) _)
    |>.snoc (.run (by rfl)) |>.snoc (.moved (by rfl))
    |>.snoc (.processOneEvent (by rfl) (by rfl) (List.nil_append _).symm (by decide))
    |>.snoc (.scheduleNow (by trivial) : Step _ (.scheduleNow 3) _)
    |>.snoc (.invoked (by rfl)) |>.snoc (.moved (by rfl))
    |>.snoc (.processOneEvent (by rfl) (by rfl) (List.nil_append _).symm (by decide))
    |>.snoc (.invoked (by rfl)) |>.snoc (.moved (by rfl))
    |>.snoc (.processOneEvent (by rfl) (by rfl) (List.nil_append _).symm (by decide))
  exact ⟨_, _, hrun, by decide, inOrder_of_run hrun (by decide)⟩

/-! ### A run past the last number -/

omit [DecidableEq ι] in
theorem lt_self (b : BookedEvent ι) : b.event.key.lt b.event.key = false :=
  (EventKey.not_lt_iff ..).2 le_rfl

/-- An event is being executed, and the simulation is not going to stop after it. -/
structure Going (s : DefaultSimulator ι) : Prop where
  invoking : s.phase = .invoking
  handed : s.eventsWithContext = []
  stop : s.stop = false

/-- The end of an event and the start of the next one. -/
def proceed (s : DefaultSimulator ι) (next : BookedEvent ι) (others : List (BookedEvent ι)) :
    DefaultSimulator ι :=
  { s.swapQueues with phase := .loop }.processOneEvent next others

theorem Going.proceed (h : Going s) {before after : List (BookedEvent ι)} {next : BookedEvent ι}
    (hnext : s.events = before ++ next :: after)
    (hleast : ∀ b ∈ s.events, b.event.key.lt next.event.key = false) :
    Going (s.proceed next (before ++ after)) ∧
      ∃ trace, Run Step s trace (s.proceed next (before ++ after)) := by
  refine ⟨⟨rfl, rfl, h.stop⟩, ?_⟩
  have hmoving : s.swapQueues.phase = .moving [] := congrArg SimulatorPhase.moving h.handed
  have hrun := Run.nil.snoc (Step.invoked h.invoking) |>.snoc (Step.moved hmoving)
  exact ⟨_, hrun.snoc (Step.processOneEvent rfl h.stop hnext hleast)⟩

/-- An event schedules another one and is the only one to do so. -/
theorem Going.again (h : Going s) (hevents : s.events = []) (impl : ι) :
    ∃ trace t, Run Step s trace t ∧ Going t ∧ t.events = [] ∧ t.uid = s.uid + 1 := by
  have hcalling : s.Calling := by
    rw [Calling, h.invoking]
    trivial
  have hsched : Going (s.schedule 1 impl) := ⟨h.invoking, h.handed, h.stop⟩
  have hnext : (s.schedule 1 impl).events =
      [] ++ ⟨⟨impl, ⟨s.currentTs + 1, s.uid, s.currentContext⟩⟩, s.scheduled⟩ :: [] := by
    rw [schedule, insert, hevents]
    rfl
  obtain ⟨hgoing, trace, hrun⟩ := hsched.proceed hnext (by
    rw [hnext]
    exact List.forall_mem_singleton.2 (lt_self _))
  exact ⟨_, _, (Run.nil.snoc (Step.schedule hcalling)).append hrun, hgoing, rfl, rfl⟩

theorem exists_going (impl : ι) (n : ℕ) : ∃ (trace : List (DefaultSimulator ι × SimulatorStep ι))
    (t : DefaultSimulator ι), Run Step init trace t ∧ Going t ∧ t.events = [] ∧ t.uid = 5 + UInt32.ofNat n := by
  induction n with
  | zero =>
    have hrun := Run.nil.snoc (.schedule trivial : Step init (.schedule 1 impl) _)
      |>.snoc (.run rfl) |>.snoc (.moved rfl)
    refine ⟨_, _, hrun.snoc (.processOneEvent rfl rfl (List.nil_append _).symm ?_), ?_⟩
    · exact List.forall_mem_singleton.2 (lt_self _)
    · exact ⟨⟨rfl, rfl, rfl⟩, rfl, rfl⟩
  | succ n ih =>
    obtain ⟨trace, s, hrun, hgoing, hevents, huid⟩ := ih
    obtain ⟨trace', t, hrun', hgoing', hevents', huid'⟩ := hgoing.again hevents impl
    refine ⟨_, t, hrun.append hrun', hgoing', hevents', ?_⟩
    rw [huid', huid, UInt32.ofNat_add, UInt32.add_assoc]
    rfl

/-- The last number and the first one are given for the same time. -/
theorem Going.disorder (h : Going s) (hevents : s.events = []) (huid : s.uid = 0xffffffff)
    (impl : ι) : ∃ trace t, Run Step s trace t ∧ ¬ t.InOrder := by
  have hcalling : s.Calling := by
    rw [Calling, h.invoking]
    trivial
  let first : BookedEvent ι :=
    ⟨⟨impl, ⟨s.currentTs + 1, 0xffffffff, s.currentContext⟩⟩, s.scheduled⟩
  let second : BookedEvent ι :=
    ⟨⟨impl, ⟨s.currentTs + 1, 0, s.currentContext⟩⟩, s.scheduled + 1⟩
  let s₂ := (s.schedule 1 impl).schedule 1 impl
  have hboth : s₂.events = [first] ++ second :: [] := by
    simp only [s₂, schedule, insert, hevents, huid]
    rfl
  have hgoing : Going s₂ := ⟨h.invoking, h.handed, h.stop⟩
  have hless : first.event.key.lt second.event.key = false := by
    refine Bool.eq_false_iff.2 fun hlt => ?_
    rcases (EventKey.lt_iff_or ..).1 hlt with hts | ⟨-, huid⟩
    · exact absurd hts (UInt64.lt_irrefl _)
    · exact absurd huid (by decide : ¬ (0xffffffff : UInt32) < 0)
  obtain ⟨hgoing₁, trace₁, hrun₁⟩ := hgoing.proceed hboth (by
    rw [hboth]
    simp [hless, lt_self])
  obtain ⟨-, trace₂, hrun₂⟩ := hgoing₁.proceed (List.nil_append [first]).symm
    (List.forall_mem_singleton.2 (lt_self first))
  have hcalls := Run.nil.snoc (.schedule hcalling : Step s (.schedule 1 impl) _)
    |>.snoc (.schedule hcalling : Step _ (.schedule 1 impl) s₂)
  refine ⟨_, _, (hcalls.append hrun₁).append hrun₂, fun hin => ?_⟩
  have hpair := (List.pairwise_append.1 hin).2.2 second (List.mem_append_right _ (by simp)) first
    (by simp)
  have hlt : s.scheduled + 1 < s.scheduled := hpair.2 rfl
  omega

/-- A simulation whose events schedule one after the other comes to the last number. -/
theorem not_inOrder_wrapped :
    ¬ ∀ (trace : List (DefaultSimulator Unit × SimulatorStep Unit)) (t : DefaultSimulator Unit),
      Run Step init trace t → t.InOrder := by
  obtain ⟨trace, s, hrun, hgoing, hevents, huid⟩ := exists_going () (2 ^ 32 - 6)
  obtain ⟨trace', t, hrun', hout⟩ := hgoing.disorder hevents (huid.trans (by decide)) ()
  exact fun hall => hout (hall _ t (hrun.append hrun'))

end DefaultSimulator

end SeanetSim
