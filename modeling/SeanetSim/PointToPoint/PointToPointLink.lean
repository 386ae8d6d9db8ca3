import Mathlib.Data.List.Pairwise
import Mathlib.Logic.Function.Basic
import SeanetSim.Internet.UdpHeader
import SeanetSim.Network.DropTailQueue

/-!
# A point-to-point link

Two devices on a channel.  A device transmits one packet at a time and keeps the others in its
queue; the end of a transmission and the arrival at the other side are events of the simulator,
which invokes the earliest one and, of several at a time, the one scheduled first.  How long a
packet takes at a data rate is open.  Both devices are attached from the start.
-/

namespace SeanetSim

/-! ### The PPP header -/

/-- `EtherToPpp`; `none` is a failed assertion. -/
def etherToPpp (proto : UInt16) : Option UInt16 :=
  if proto = 0x0800 then some 0x0021
  else if proto = 0x86DD then some 0x0057
  else none

/-- `PppToEther`. -/
def pppToEther (proto : UInt16) : Option UInt16 :=
  if proto = 0x0021 then some 0x0800
  else if proto = 0x0057 then some 0x86DD
  else none

/-- `AddHeader`. -/
def addPppHeader (payload : List UInt8) (protocolNumber : UInt16) : Option (List UInt8) := do
  let protocol ← etherToPpp protocolNumber
  return writeHtonU16 protocol ++ payload

/-- `ProcessHeader`, with the payload that it leaves. -/
def processPppHeader : List UInt8 → Option (List UInt8 × UInt16)
  | b₀ :: b₁ :: payload => do
    let param ← pppToEther (readNtohU16 b₀ b₁)
    return (payload, param)
  | _ => none

/-- A protocol that has a PPP number. -/
def IsEtherType (protocolNumber : UInt16) : Prop :=
  protocolNumber = 0x0800 ∨ protocolNumber = 0x86DD

theorem exists_etherToPpp {protocolNumber : UInt16} (h : IsEtherType protocolNumber) :
    ∃ protocol, etherToPpp protocolNumber = some protocol ∧
      pppToEther protocol = some protocolNumber := by
  rcases h with rfl | rfl
  · exact ⟨0x0021, by decide, by decide⟩
  · exact ⟨0x0057, by decide, by decide⟩

theorem exists_addPppHeader (payload : List UInt8) {protocolNumber : UInt16}
    (h : IsEtherType protocolNumber) :
    ∃ packet, addPppHeader payload protocolNumber = some packet ∧
      packet.length = payload.length + 2 ∧
      processPppHeader packet = some (payload, protocolNumber) := by
  obtain ⟨protocol, hppp, hether⟩ := exists_etherToPpp h
  refine ⟨writeHtonU16 protocol ++ payload, by simp [addPppHeader, hppp], ?_, ?_⟩
  · rw [List.length_append, Nat.add_comm]
    rfl
  · rw [writeHtonU16, List.cons_append, List.cons_append, List.nil_append, processPppHeader,
      readNtohU16_bytes, hether]
    rfl

/-! ### The devices and the channel -/

inductive TxMachineState
  | ready
  | busy
deriving DecidableEq, Repr

/-- `GetSize` of a packet. -/
def packetSize (packet : List UInt8) : UInt32 := UInt32.ofNat packet.length

structure PointToPointNetDevice (ρ : Type) where
  txMachineState : TxMachineState
  currentPkt : Option (List UInt8)
  queue : DropTailQueue (List UInt8)
  bps : ρ
  tInterframeGap : ℕ

/-- The events that a device and the channel schedule. -/
inductive LinkTimer
  | transmitComplete (device : Bool)
  | receive (device : Bool) (packet : List UInt8)
deriving DecidableEq, Repr

/-- The clock, the delay of the channel, the devices and the scheduled events in the order in which
they were scheduled. -/
structure PointToPointLink (ρ : Type) where
  now : ℕ
  delay : ℕ
  device : Bool → PointToPointNetDevice ρ
  events : List (ℕ × LinkTimer)

/-- What happens to the link: `next` is the next event of the simulator, where the error model
decides whether a packet that arrives is corrupt. -/
inductive LinkInput (ρ : Type)
  | tick (time : ℕ)
  | send (device : Bool) (payload : List UInt8) (protocolNumber : UInt16)
  | next (corrupt : Bool)
  | setDataRate (device : Bool) (bps : ρ)
  | setInterframeGap (device : Bool) (gap : ℕ)

/-- What comes of it: `accept` is a `Send` that returns true. -/
inductive LinkOutput
  | accept (device : Bool) (payload : List UInt8) (protocolNumber : UInt16)
  | macTxDrop (device : Bool) (packet : List UInt8)
  | deliver (device : Bool) (payload : List UInt8) (protocolNumber : UInt16)
  | phyRxDrop (device : Bool) (packet : List UInt8)
deriving DecidableEq, Repr

/-- The next event of the simulator and the others. -/
def takeNext : List (ℕ × LinkTimer) → Option ((ℕ × LinkTimer) × List (ℕ × LinkTimer))
  | [] => none
  | e :: rest =>
    match takeNext rest with
    | none => some (e, [])
    | some (next, others) =>
      if e.1 ≤ next.1 then some (e, rest) else some (next, e :: others)

namespace PointToPointLink

variable {ρ : Type}

section Operations

variable (calculateBytesTxTime : ρ → ℕ → ℕ) (l : PointToPointLink ρ)

def setDevice (i : Bool) (d : PointToPointNetDevice ρ) : PointToPointLink ρ :=
  { l with device := Function.update l.device i d }

/-- `PointToPointNetDevice::TransmitStart` with `PointToPointChannel::TransmitStart`. -/
def transmitStart (i : Bool) (packet : List UInt8) : Option (PointToPointLink ρ) := do
  let d := l.device i
  guard (d.txMachineState = .ready)
  let txTime := calculateBytesTxTime d.bps packet.length
  let l := l.setDevice i { d with txMachineState := .busy, currentPkt := some packet }
  return { l with
    events := l.events ++ [(l.now + (txTime + d.tInterframeGap), .transmitComplete i),
      (l.now + (txTime + l.delay), .receive (!i) packet)] }

def transmitComplete (i : Bool) : Option (PointToPointLink ρ) := do
  let d := l.device i
  guard (d.txMachineState = .busy)
  guard (d.currentPkt.isSome = true)
  let (queue, p) ← d.queue.dequeue packetSize
  let l := l.setDevice i { d with txMachineState := .ready, currentPkt := none, queue }
  match p with
  | none => return l
  | some p => l.transmitStart calculateBytesTxTime i p

def receive (i : Bool) (packet : List UInt8) (corrupt : Bool) : Option (List LinkOutput) :=
  if corrupt then some [.phyRxDrop i packet]
  else do
    let (payload, protocol) ← processPppHeader packet
    return [.deliver i payload protocol]

def send (i : Bool) (payload : List UInt8) (protocolNumber : UInt16) :
    Option (PointToPointLink ρ × List LinkOutput) := do
  let packet ← addPppHeader payload protocolNumber
  let d := l.device i
  let (queue, enqueued) := d.queue.enqueue packetSize packet
  if enqueued then
    if d.txMachineState = .ready then do
      let (queue, first) ← queue.dequeue packetSize
      let packet ← first
      let l ← (l.setDevice i { d with queue }).transmitStart calculateBytesTxTime i packet
      return (l, [.accept i payload protocolNumber])
    else return (l.setDevice i { d with queue }, [.accept i payload protocolNumber])
  else return (l.setDevice i { d with queue }, [.macTxDrop i packet])

/-- The call of an event. -/
def invoke (timer : LinkTimer) (corrupt : Bool) : Option (PointToPointLink ρ × List LinkOutput) :=
  match timer with
  | .transmitComplete i => (l.transmitComplete calculateBytesTxTime i).map fun l => (l, [])
  | .receive i packet => (receive i packet corrupt).map fun out => (l, out)

def next? : LinkInput ρ → Option (PointToPointLink ρ × List LinkOutput)
  | .tick time => some ({ l with now := time }, [])
  | .send i payload protocolNumber => l.send calculateBytesTxTime i payload protocolNumber
  | .next corrupt => do
    let ((ts, timer), events) ← takeNext l.events
    { l with now := ts, events }.invoke calculateBytesTxTime timer corrupt
  | .setDataRate i bps => some (l.setDevice i { l.device i with bps }, [])
  | .setInterframeGap i gap => some (l.setDevice i { l.device i with tInterframeGap := gap }, [])

/-- Packets of a known protocol and up to a size are sent, and no event is skipped. -/
def Allowed (limit : ℕ) : LinkInput ρ → Prop
  | .tick time => l.now ≤ time ∧ ∀ e ∈ l.events, time ≤ e.1
  | .send _ payload protocolNumber => payload.length + 2 ≤ limit ∧ IsEtherType protocolNumber
  | .next _ => l.events ≠ []
  | _ => True

end Operations

/-- Two devices that have just been attached. -/
def init (delay : ℕ) (bps : Bool → ρ) (gap : Bool → ℕ) (unit : Bool → QueueSizeUnit)
    (maxSize : Bool → UInt32) : PointToPointLink ρ where
  now := 0
  delay := delay
  device i := ⟨.ready, none, .empty (unit i) (maxSize i), bps i, gap i⟩
  events := []

end PointToPointLink

/-! ### The next event -/

theorem takeNext_eq_none {events : List (ℕ × LinkTimer)} (h : takeNext events = none) :
    events = [] := by
  cases events with
  | nil => rfl
  | cons e rest =>
    rw [takeNext] at h
    cases hrest : takeNext rest with
    | none => simp [hrest] at h
    | some r =>
      rw [hrest] at h
      dsimp only at h
      split at h <;> exact absurd h (by simp)

/-- The next event is the first one of the earliest. -/
theorem takeNext_eq_some {events others : List (ℕ × LinkTimer)} {next : ℕ × LinkTimer}
    (h : takeNext events = some (next, others)) :
    ∃ pre post, events = pre ++ next :: post ∧ others = pre ++ post ∧
      (∀ e ∈ pre, next.1 < e.1) ∧ ∀ e ∈ post, next.1 ≤ e.1 := by
  induction events generalizing next others with
  | nil => exact absurd h (by simp [takeNext])
  | cons e rest ih =>
    rw [takeNext] at h
    cases hrest : takeNext rest with
    | none =>
      rw [hrest] at h
      obtain ⟨rfl, rfl⟩ := Prod.mk.inj (Option.some.inj h)
      rw [takeNext_eq_none hrest]
      exact ⟨[], [], rfl, rfl, by simp, by simp⟩
    | some r =>
      obtain ⟨first, others'⟩ := r
      obtain ⟨pre, post, rfl, rfl, hpre, hpost⟩ := ih hrest
      rw [hrest] at h
      dsimp only at h
      split at h
      · rename_i hle
        obtain ⟨rfl, rfl⟩ := Prod.mk.inj (Option.some.inj h)
        refine ⟨[], pre ++ first :: post, rfl, rfl, by simp, fun x hx => ?_⟩
        rcases List.mem_append.1 hx with hx | hx
        · exact hle.trans (hpre x hx).le
        · rcases List.mem_cons.1 hx with rfl | hx
          · exact hle
          · exact hle.trans (hpost x hx)
      · rename_i hlt
        obtain ⟨rfl, rfl⟩ := Prod.mk.inj (Option.some.inj h)
        refine ⟨e :: pre, post, rfl, rfl, fun x hx => ?_, hpost⟩
        rcases List.mem_cons.1 hx with rfl | hx
        · exact not_le.1 hlt
        · exact hpre x hx

end SeanetSim
