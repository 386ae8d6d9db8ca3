import Mathlib.Algebra.BigOperators.Group.List.Basic
import SeanetSim.Lib.Run

/-!
# Queue discs

`QueueDisc` keeps packets in internal queues or child queue discs and counts them from the trace
callbacks it has connected there.  How `DoEnqueue` and `DoDequeue` use the queues and children is
open: a `Discipline` is any way to do so through the traced operations.

A packet that was peeked at and one that the device did not take share the slot `requeued`; `peeked`
tells them apart.  The assertions that compare the counters with each other are left out, as these
counters are what the results are about.
-/

namespace SeanetSim

/-- A packet with what the traffic control layer adds to it.  `headers` counts the calls of
`AddHeader`; the size includes the header from the start. -/
structure QueueDiscItem where
  uid : ℕ
  size : UInt32
  txQueueIndex : ℕ
  headers : ℕ
deriving DecidableEq

/-- `AddHeader`. -/
def QueueDiscItem.addHeader (item : QueueDiscItem) : QueueDiscItem :=
  { item with headers := item.headers + 1 }

/-- What an internal queue or a child queue disc reports. -/
inductive TraceEvent
  | enqueue (item : QueueDiscItem)
  | dequeue (item : QueueDiscItem)
  | dropBeforeEnqueue (item : QueueDiscItem)
  | dropAfterDequeue (item : QueueDiscItem)
deriving DecidableEq

/-! ### Counters -/

/-- The totals of `QueueDisc::Stats`, for packets or for bytes. -/
structure Tallies (R : Type) where
  received : R
  sent : R
  enqueued : R
  dequeued : R
  dropped : R
  droppedBeforeEnqueue : R
  droppedAfterDequeue : R
  requeued : R

namespace Tallies

variable {R : Type}

def receive [Add R] (t : Tallies R) (x : R) : Tallies R := { t with received := t.received + x }

def enqueue [Add R] (t : Tallies R) (x : R) : Tallies R := { t with enqueued := t.enqueued + x }

def dequeue [Add R] (t : Tallies R) (x : R) : Tallies R := { t with dequeued := t.dequeued + x }

def dropBeforeEnqueue [Add R] (t : Tallies R) (x : R) : Tallies R :=
  { t with dropped := t.dropped + x, droppedBeforeEnqueue := t.droppedBeforeEnqueue + x }

def dropAfterDequeue [Add R] (t : Tallies R) (x : R) : Tallies R :=
  { t with dropped := t.dropped + x, droppedAfterDequeue := t.droppedAfterDequeue + x }

def requeue [Add R] (t : Tallies R) (x : R) : Tallies R := { t with requeued := t.requeued + x }

/-- `GetStats`, where `x` is the requeued packet. -/
def settle [Sub R] (t : Tallies R) (x : R) : Tallies R :=
  { t with sent := t.dequeued - x - t.droppedAfterDequeue }

end Tallies

/-- What a queue disc counts. -/
structure Accounts where
  nPackets : UInt32
  nBytes : UInt32
  peeked : Bool
  packets : Tallies UInt32
  bytes : Tallies UInt64

namespace Accounts

/-- A callback: the counters after it, and what the queue disc reports in turn. -/
def packetEnqueued (a : Accounts) (item : QueueDiscItem) : Accounts × List TraceEvent :=
  ({ a with
      nPackets := a.nPackets + 1
      nBytes := a.nBytes + item.size
      packets := a.packets.enqueue 1
      bytes := a.bytes.enqueue item.size.toUInt64 },
    [.enqueue item])

/-- A packet that is dequeued for a peek stays in the queue disc. -/
def packetDequeued (a : Accounts) (item : QueueDiscItem) : Accounts × List TraceEvent :=
  if a.peeked then (a, [])
  else
    ({ a with
        nPackets := a.nPackets - 1
        nBytes := a.nBytes - item.size
        packets := a.packets.dequeue 1
        bytes := a.bytes.dequeue item.size.toUInt64 },
      [.dequeue item])

def dropBeforeEnqueue (a : Accounts) (item : QueueDiscItem) : Accounts × List TraceEvent :=
  ({ a with
      packets := a.packets.dropBeforeEnqueue 1
      bytes := a.bytes.dropBeforeEnqueue item.size.toUInt64 },
    [.dropBeforeEnqueue item])

def dropAfterDequeue (a : Accounts) (item : QueueDiscItem) : Accounts × List TraceEvent :=
  let a := { a with
    packets := a.packets.dropAfterDequeue 1
    bytes := a.bytes.dropAfterDequeue item.size.toUInt64 }
  if a.peeked then
    -- the packet is dropped, so it does not stay for the peek
    let (a, events) := { a with peeked := false }.packetDequeued item
    ({ a with peeked := true }, events ++ [.dropAfterDequeue item])
  else (a, [.dropAfterDequeue item])

def notify (a : Accounts) : TraceEvent → Accounts × List TraceEvent
  | .enqueue item => a.packetEnqueued item
  | .dequeue item => a.packetDequeued item
  | .dropBeforeEnqueue item => a.dropBeforeEnqueue item
  | .dropAfterDequeue item => a.dropAfterDequeue item

def notifyAll : List TraceEvent → Accounts → Accounts × List TraceEvent
  | [], a => (a, [])
  | e :: events, a =>
    let (a, emitted) := a.notify e
    let (a, emitted') := notifyAll events a
    (a, emitted ++ emitted')

end Accounts

/-! ### Disciplines -/

/-- Where packets are while `DoEnqueue` or `DoDequeue` runs: still to be enqueued, in a queue or
child, or taken out of it. -/
structure Holding where
  incoming : List QueueDiscItem
  held : List QueueDiscItem
  dequeued : List QueueDiscItem

namespace Holding

/-- A traced operation; `none` if it is about a packet that is not there. -/
def apply (h : Holding) : TraceEvent → Option Holding
  | .enqueue item =>
    if item ∈ h.incoming then
      some { h with incoming := h.incoming.erase item, held := h.held ++ [item] }
    else none
  | .dequeue item =>
    if item ∈ h.held then
      some { h with held := h.held.erase item, dequeued := h.dequeued ++ [item] }
    else none
  | .dropBeforeEnqueue item =>
    if item ∈ h.incoming then some { h with incoming := h.incoming.erase item } else none
  | .dropAfterDequeue item =>
    if item ∈ h.dequeued then some { h with dequeued := h.dequeued.erase item } else none

def replay : List TraceEvent → Holding → Option Holding
  | [], h => some h
  | e :: events, h => (h.apply e).bind (replay events)

/-- The operations lead from one place to the other, in whatever order the packets are kept. -/
def Leads (events : List TraceEvent) (h h' : Holding) : Prop :=
  ∃ r, replay events h = some r ∧ r.incoming = h'.incoming ∧ r.held.Perm h'.held ∧
    r.dequeued = h'.dequeued

end Holding

/-- How a queue disc works on its queues and children.  `Input` is what else it looks at: the time,
random numbers, the queues of the device.  A packet that is offered is enqueued or dropped; those
taken out are dropped, but for the one that is returned. -/
structure Discipline where
  State : Type
  Input : Type
  holds : State → List QueueDiscItem
  doEnqueue : Input → State → QueueDiscItem → Bool × List TraceEvent × State
  doDequeue : Input → State → Option QueueDiscItem × List TraceEvent × State
  /-- `none` where the discipline does not override `DoPeek`. -/
  doPeek : Option (Input → State → Option QueueDiscItem × List TraceEvent × State)
  enqueue_leads (input : Input) (s : State) (item : QueueDiscItem) :
    Holding.Leads (doEnqueue input s item).2.1 ⟨[item], holds s, []⟩
      ⟨[], holds (doEnqueue input s item).2.2, []⟩
  dequeue_leads (input : Input) (s : State) :
    Holding.Leads (doDequeue input s).2.1 ⟨[], holds s, []⟩
      ⟨[], holds (doDequeue input s).2.2, (doDequeue input s).1.toList⟩
  peek_leads : ∀ f ∈ doPeek, ∀ input s,
    Holding.Leads (f input s).2.1 ⟨[], holds s, []⟩ ⟨[], holds (f input s).2.2, []⟩

/-- One internal queue with a limit in packets. -/
def Discipline.dropTail : Discipline where
  State := ℕ × List QueueDiscItem
  Input := Unit
  holds s := s.2
  doEnqueue _ s item :=
    if s.2.length < s.1 then (true, [.enqueue item], (s.1, s.2 ++ [item]))
    else (false, [.dropBeforeEnqueue item], s)
  doDequeue _ s :=
    match s.2 with
    | [] => (none, [], s)
    | item :: rest => (some item, [.dequeue item], (s.1, rest))
  doPeek := none
  enqueue_leads _ s item := by
    split_ifs with hroom
    · exact ⟨⟨[], s.2 ++ [item], []⟩, by simp [Holding.replay, Holding.apply], rfl, .refl _, rfl⟩
    · exact ⟨⟨[], s.2, []⟩, by simp [Holding.replay, Holding.apply], rfl, .refl _, rfl⟩
  dequeue_leads _ s := by
    obtain ⟨maxSize, l⟩ := s
    cases l with
    | nil => exact ⟨⟨[], [], []⟩, rfl, rfl, .refl _, rfl⟩
    | cons item rest =>
      exact ⟨⟨[], rest, [item]⟩, by simp [Holding.replay, Holding.apply], rfl, .refl _, rfl⟩
  peek_leads f hf := by cases hf

/-- The transmission queues of the device: which of them are stopped. -/
structure NetDeviceQueueInterface where
  txQueues : List Bool

/-- The last three fields note what happens; no function reads them. -/
structure QueueDisc (D : Discipline) where
  state : D.State
  devQueueIface : Option NetDeviceQueueInterface
  quota : UInt32
  running : Bool
  requeued : Option QueueDiscItem
  accounts : Accounts
  /-- What `DoDequeue` returned. -/
  dequeued : List QueueDiscItem
  /-- What the send callback got. -/
  sent : List QueueDiscItem
  /-- What `Dequeue` returned to others. -/
  returned : List QueueDiscItem

/-- What one round of `Run` meets, and which transmission queues the device stops as it takes the
packet. -/
structure QueueRound (D : Discipline) where
  input : D.Input
  txQueues : List Bool

inductive QueueEvent (D : Discipline)
  | enqueue (input : D.Input) (uid : ℕ) (size : UInt32) (txQueueIndex : ℕ)
  | dequeue (input : D.Input)
  | peek (input : D.Input)
  | run (rounds : List (QueueRound D))
  | setTxQueues (txQueues : List Bool)

namespace QueueDisc

variable {D : Discipline}

def init (D : Discipline) (state : D.State) (devQueueIface : Option NetDeviceQueueInterface)
    (quota : UInt32) : QueueDisc D where
  state := state
  devQueueIface := devQueueIface
  quota := quota
  running := false
  requeued := none
  accounts := ⟨0, 0, false, ⟨0, 0, 0, 0, 0, 0, 0, 0⟩, ⟨0, 0, 0, 0, 0, 0, 0, 0⟩⟩
  dequeued := []
  sent := []
  returned := []

def getStats (q : QueueDisc D) : Tallies UInt32 × Tallies UInt64 :=
  (q.accounts.packets.settle (if q.requeued.isSome then 1 else 0),
    q.accounts.bytes.settle (q.requeued.elim 0 fun item => item.size.toUInt64))

/-! ### Enqueue, Dequeue and Peek -/

def enqueue (q : QueueDisc D) (input : D.Input) (item : QueueDiscItem) :
    Bool × List TraceEvent × QueueDisc D :=
  let accounts := { q.accounts with
    packets := q.accounts.packets.receive 1
    bytes := q.accounts.bytes.receive item.size.toUInt64 }
  let (retval, events, state) := D.doEnqueue input q.state item
  let (accounts, emitted) := accounts.notifyAll events
  (retval, emitted, { q with state := state, accounts := accounts })

/-- `DoDequeue`, with the callbacks. -/
def doDequeue (q : QueueDisc D) (input : D.Input) :
    Option QueueDiscItem × List TraceEvent × QueueDisc D :=
  let (item, events, state) := D.doDequeue input q.state
  let (accounts, emitted) := q.accounts.notifyAll events
  (item, emitted,
    { q with state := state, accounts := accounts, dequeued := q.dequeued ++ item.toList })

/-- The packet in `requeued` leaves it; if it was peeked at, it is counted as dequeued now. -/
def takeRequeued (q : QueueDisc D) (item : QueueDiscItem) : List TraceEvent × QueueDisc D :=
  if q.accounts.peeked then
    let (accounts, emitted) := { q.accounts with peeked := false }.packetDequeued item
    (emitted, { q with requeued := none, accounts := accounts })
  else ([], { q with requeued := none })

def dequeue (q : QueueDisc D) (input : D.Input) :
    Option QueueDiscItem × List TraceEvent × QueueDisc D :=
  match q.requeued with
  | some item =>
    let (emitted, q) := q.takeRequeued item
    (some item, emitted, q)
  | none => q.doDequeue input

def peek (q : QueueDisc D) (input : D.Input) :
    Option QueueDiscItem × List TraceEvent × QueueDisc D :=
  match D.doPeek with
  | some doPeek =>
    let (item, events, state) := doPeek input q.state
    let (accounts, emitted) := q.accounts.notifyAll events
    (item, emitted, { q with state := state, accounts := accounts })
  | none =>
    match q.requeued with
    | some item => (some item, [], q)
    | none =>
      let (item, emitted, q) :=
        { q with accounts := { q.accounts with peeked := true } }.dequeue input
      (item, emitted, { q with
        requeued := item
        accounts := { q.accounts with peeked := item.isSome } })

/-! ### Run -/

/-- Whether a transmission queue is stopped; without flow control none ever is. -/
def isStopped (q : QueueDisc D) (txQueueIndex : ℕ) : Bool :=
  q.devQueueIface.any fun iface => iface.txQueues.getD txQueueIndex false

def setTxQueues (q : QueueDisc D) (txQueues : List Bool) : QueueDisc D :=
  { q with devQueueIface := q.devQueueIface.map fun _ => ⟨txQueues⟩ }

def dequeuePacket (q : QueueDisc D) (input : D.Input) : Option QueueDiscItem × QueueDisc D :=
  match q.requeued with
  | some item =>
    if q.isStopped item.txQueueIndex then (none, q) else (some item, (q.takeRequeued item).2)
  | none =>
    if q.devQueueIface.all fun iface => 1 < iface.txQueues.length || !q.isStopped 0 then
      let (item, _, q) := q.dequeue input
      (item.map QueueDiscItem.addHeader, q)
    else (none, q)

def requeue (q : QueueDisc D) (item : QueueDiscItem) : QueueDisc D :=
  { q with
    requeued := some item
    accounts := { q.accounts with
      packets := q.accounts.packets.requeue 1
      bytes := q.accounts.bytes.requeue item.size.toUInt64 } }

/-- The packet goes to the device, unless its queue is stopped; `false` if `Run` must not go on. -/
def transmit (q : QueueDisc D) (item : QueueDiscItem) (txQueues : List Bool) :
    Bool × QueueDisc D :=
  if q.isStopped item.txQueueIndex then (false, q.requeue item)
  else
    let q := { q with sent := q.sent ++ [item] }.setTxQueues txQueues
    (!(q.accounts.nPackets == 0 || q.isStopped item.txQueueIndex), q)

def restart (q : QueueDisc D) (round : QueueRound D) : Bool × QueueDisc D :=
  match q.dequeuePacket round.input with
  | (none, q) => (false, q)
  | (some item, q) => q.transmit item round.txQueues

/-- The loop of `Run`, which ends at the latest when the quota is used up; `none` if fewer rounds are
given than there are. -/
def runLoop : ℕ → List (QueueRound D) → QueueDisc D → Option (QueueDisc D)
  | 0, _, q => some q
  | _ + 1, [], _ => none
  | n + 1, round :: rounds, q =>
    let (more, q) := q.restart round
    if more then runLoop n rounds q else some q

/-- The quota is a `uint32_t` that is decremented before it is compared with zero. -/
def run (q : QueueDisc D) (rounds : List (QueueRound D)) : Option (QueueDisc D) :=
  if q.running then some q
  else
    (runLoop (if q.quota = 0 then 0x100000000 else q.quota.toNat) rounds
      { q with running := true }).map fun q => { q with running := false }

/-! ### Runs -/

/-- A packet arrives without a header. -/
def apply (q : QueueDisc D) : QueueEvent D → Option (QueueDisc D)
  | .enqueue input uid size txQueueIndex =>
    some (q.enqueue input ⟨uid, size, txQueueIndex, 0⟩).2.2
  | .dequeue input =>
    let (item, _, q) := q.dequeue input
    some { q with returned := q.returned ++ item.toList }
  | .peek input => some (q.peek input).2.2
  | .run rounds => q.run rounds
  | .setTxQueues txQueues => some (q.setTxQueues txQueues)

def Step (q : QueueDisc D) (e : QueueEvent D) (t : QueueDisc D) : Prop := q.apply e = some t

end QueueDisc

end SeanetSim
