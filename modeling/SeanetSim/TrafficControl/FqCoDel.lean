import Mathlib.Logic.Function.Basic
import Mathlib.Data.Prod.Lex
import SeanetSim.Lib.Run
import SeanetSim.TrafficControl.CoDel

/-!
# The FqCoDel queue disc

`FqCoDelQueueDisc` classifies the packets into flows, each with a CoDel queue disc of its own, and
serves the flows in turn by their deficits: those on `newFlows` first, then those on `oldFlows`.
The flows are the classes of the queue disc, numbered in the order in which they were created.

What the queue disc counts is left out but for `nPackets`, which its limit is about.  A packet that
is dropped is counted out of it in any case, one that is dequeued for a peek not before it leaves.
-/

namespace SeanetSim

inductive FlowStatus
  | inactive
  | newFlow
  | oldFlow
deriving DecidableEq

structure FqCoDelFlow where
  deficit : Int32
  status : FlowStatus
  index : UInt32
  queueDisc : CoDel

/-- The attributes, with `MinBytes` of the queues. -/
structure FqCoDelConfig where
  useEcn : Bool
  useL4s : Bool
  interval : ℕ
  target : ℕ
  ceThreshold : ℕ
  minBytes : UInt32
  maxSize : UInt32
  quantum : UInt32
  flows : UInt32
  setWays : UInt32
  dropBatchSize : UInt32
  enableSetAssociativeHash : Bool

/-- The attributes of the queues of the flows. -/
def FqCoDelConfig.coDel (c : FqCoDelConfig) : CoDelConfig where
  useEcn := c.useEcn
  useL4s := c.useL4s
  maxSize := .packets c.maxSize
  minBytes := c.minBytes
  interval := c.interval
  target := c.target
  ceThreshold := c.ceThreshold

/-- `CheckConfig`, where `SetWays` is not 0. -/
def FqCoDelConfig.checkConfig (c : FqCoDelConfig) : Bool :=
  c.quantum != 0 && (!c.enableSetAssociativeHash || c.flows % c.setWays == 0)

structure FqCoDel where
  classes : ℕ → FqCoDelFlow
  nClasses : ℕ
  newFlows : List ℕ
  oldFlows : List ℕ
  flowsIndices : Std.TreeMap UInt32 ℕ
  tags : Std.TreeMap UInt32 UInt32
  nPackets : UInt32
  requeued : Option CoDelItem
  peeked : Bool

namespace FqCoDel

variable (c : FqCoDelConfig) (now : ℕ) (s : FqCoDel)

/-- A flow that has just been created. -/
def freshFlow (index : UInt32) : FqCoDelFlow := ⟨0, .inactive, index, .init⟩

def init : FqCoDel where
  classes := fun _ => freshFlow 0
  nClasses := 0
  newFlows := []
  oldFlows := []
  flowsIndices := ∅
  tags := ∅
  nPackets := 0
  requeued := none
  peeked := false

def modify (i : ℕ) (f : FqCoDelFlow → FqCoDelFlow) : FqCoDel :=
  { s with classes := Function.update s.classes i (f (s.classes i)) }

/-! ### Classification -/

/-- The first way of the set of a hash. -/
def outerHash (flowHash : UInt32) : UInt32 :=
  let h := flowHash % c.flows
  h - h % c.setWays

/-- The ways of the set: those from `outerHash` below `outerHash + setWays`. -/
def ways (flowHash : UInt32) : List UInt32 :=
  let first := outerHash c flowHash
  (List.range ((first + c.setWays).toNat - first.toNat)).map fun i => first + UInt32.ofNat i

/-- Whether a way has not been created yet, or is tagged with the hash, or is inactive. -/
def usable (flowHash i : UInt32) : Bool :=
  match s.flowsIndices[i]? with
  | none => true
  | some j => s.tags[i]? == some flowHash || (s.classes j).status == .inactive

/-- The way that `SetAssociativeHash` returns. -/
def wayOf (flowHash : UInt32) : UInt32 :=
  ((ways c flowHash).find? (s.usable flowHash)).getD (outerHash c flowHash)

def setAssociativeHash (flowHash : UInt32) : UInt32 × FqCoDel :=
  let h := s.wayOf c flowHash
  (h, { s with tags := s.tags.insert h flowHash })

/-- The number of the queue for a hash. -/
def classify (flowHash : UInt32) : UInt32 × FqCoDel :=
  if c.enableSetAssociativeHash then s.setAssociativeHash c flowHash
  else (flowHash % c.flows, s)

/-- A new class, for the queue `h`. -/
def addClass (h : UInt32) : FqCoDel :=
  { s with
    classes := Function.update s.classes s.nClasses (freshFlow h)
    nClasses := s.nClasses + 1
    flowsIndices := s.flowsIndices.insert h s.nClasses }

/-- The class of a queue, created if need be. -/
def flowAt (h : UInt32) : ℕ × FqCoDel :=
  match s.flowsIndices[h]? with
  | some i => (i, s)
  | none => (s.nClasses, s.addClass h)

/-! ### Enqueue -/

/-- The flow becomes a new one if it has been inactive. -/
def activate (i : ℕ) : FqCoDel :=
  if (s.classes i).status = .inactive then
    { s.modify i fun flow => { flow with status := .newFlow, deficit := c.quantum.toInt32 } with
      newFlows := s.newFlows ++ [i] }
  else s

/-- `Enqueue` of the queue of a flow. -/
def enqueueAt (i : ℕ) (item : CoDelItem) : FqCoDel :=
  let (retval, queueDisc) := (s.classes i).queueDisc.enqueue c.coDel now item
  { s.modify i fun flow => { flow with queueDisc := queueDisc } with
    nPackets := if retval then s.nPackets + 1 else s.nPackets }

/-- The flow with the largest backlog, and the backlog. -/
def fatFlow : UInt32 × ℕ :=
  (List.range s.nClasses).foldl (fun (maxBacklog, index) i =>
    let bytes := (s.classes i).queueDisc.nBytes
    if maxBacklog < bytes then (bytes, i) else (maxBacklog, index)) (0, 0)

/-- The packets that are dropped from a queue; `none` where it runs empty before. -/
def dropBatch (threshold : UInt32) (len count : UInt32) : List CoDelItem → Option (List CoDelItem)
  | [] => none
  | item :: rest =>
    let len := len + item.size
    let count := count + 1
    if count < c.dropBatchSize && len < threshold then
      (dropBatch threshold len count rest).map (item :: ·)
    else some [item]

def fqCoDelDrop : Option FqCoDel :=
  let (maxBacklog, index) := s.fatFlow
  let queue := (s.classes index).queueDisc.queue
  (dropBatch c (maxBacklog >>> 1) 0 0 queue).map fun dropped =>
    { s.modify index fun flow =>
        { flow with queueDisc := { flow.queueDisc with queue := queue.drop dropped.length } } with
      nPackets := s.nPackets - UInt32.ofNat dropped.length }

/-- `DoEnqueue`; `none` where the program stops. -/
def doEnqueue (item : CoDelItem) : Option (Bool × FqCoDel) :=
  match item.flowHash with
  | none => some (false, s)
  | some flowHash =>
    if c.flows = 0 ∨ c.enableSetAssociativeHash ∧ c.setWays = 0 then none
    else
      let (h, s) := s.classify c flowHash
      let (i, s) := s.flowAt h
      let s := (s.activate c i).enqueueAt c now i item
      (if c.maxSize < s.nPackets then s.fqCoDelDrop c else some s).map (true, ·)

/-! ### Dequeue -/

/-- What one turn of the loops of `DoDequeue` comes to. -/
inductive Turn
  | again (s : FqCoDel)
  | done (item : Option CoDelItem) (s : FqCoDel)
  | nullDereference

def increaseDeficit (i : ℕ) (deficit : Int32) : FqCoDel :=
  s.modify i fun flow => { flow with deficit := flow.deficit + deficit }

def setStatus (i : ℕ) (status : FlowStatus) : FqCoDel :=
  s.modify i fun flow => { flow with status := status }

/-- The selected flow is asked for a packet. -/
def serve (i : ℕ) : Turn :=
  match (s.classes i).queueDisc.doDequeue c.coDel now with
  | none => .nullDereference
  | some (item, dropped, queueDisc) =>
    let s := { s.modify i fun flow => { flow with queueDisc := queueDisc } with
      nPackets := s.nPackets - UInt32.ofNat dropped.length }
    match item with
    | some item =>
      let s := s.increaseDeficit i (-item.size).toInt32
      .done (some item) { s with nPackets := if s.peeked then s.nPackets else s.nPackets - 1 }
    | none =>
      if s.newFlows ≠ [] then
        let s := s.setStatus i .oldFlow
        .again { s with oldFlows := s.oldFlows ++ [i], newFlows := s.newFlows.tail }
      else
        let s := s.setStatus i .inactive
        .again { s with oldFlows := s.oldFlows.tail }

/-- One turn of the two inner loops or, with a flow that has a positive deficit, of the outer one.
While old flows are moved there are no new ones, so looking for these first changes nothing. -/
def turn : Turn :=
  match s.newFlows, s.oldFlows with
  | i :: rest, _ =>
    if (s.classes i).deficit ≤ 0 then
      let s := (s.increaseDeficit i c.quantum.toInt32).setStatus i .oldFlow
      .again { s with oldFlows := s.oldFlows ++ [i], newFlows := rest }
    else s.serve c now i
  | [], i :: rest =>
    if (s.classes i).deficit ≤ 0 then
      .again { s.increaseDeficit i c.quantum.toInt32 with oldFlows := rest ++ [i] }
    else s.serve c now i
  | [], [] => .done none s

/-- `DoDequeue`: `none` if the turns do not suffice, `some none` where a null pointer is
dereferenced. -/
def doDequeue : ℕ → FqCoDel → Option (Option (Option CoDelItem × FqCoDel))
  | 0, _ => none
  | turns + 1, s =>
    match s.turn c now with
    | .again s => doDequeue turns s
    | .done item s => some (some (item, s))
    | .nullDereference => some none

/-- `Dequeue` while there is a packet in the slot for requeued ones. -/
def takeRequeued : FqCoDel :=
  { s with
    requeued := none
    peeked := false
    nPackets := if s.peeked then s.nPackets - 1 else s.nPackets }

/-! ### Runs -/

inductive Event
  | enqueue (now : ℕ) (item : CoDelItem)
  | dequeue (now : ℕ)
  | peek (now : ℕ)

/-- A call of `DoDequeue` that returns. -/
def Dequeues (s : FqCoDel) (item : Option CoDelItem) (t : FqCoDel) : Prop :=
  ∃ turns, doDequeue c now turns s = some (some (item, t))

/-- A step of the queue disc, with the packet that `DoDequeue` returns in it. -/
inductive Step (c : FqCoDelConfig) : FqCoDel → Event → Option CoDelItem → FqCoDel → Prop
  | enqueue {s t : FqCoDel} {now : ℕ} {item : CoDelItem} {retval : Bool}
      (h : s.doEnqueue c now item = some (retval, t)) : Step c s (.enqueue now item) none t
  | dequeueRequeued {s : FqCoDel} {now : ℕ} (h : s.requeued ≠ none) :
      Step c s (.dequeue now) none s.takeRequeued
  | dequeue {s t : FqCoDel} {now : ℕ} {item : Option CoDelItem} (h : s.requeued = none)
      (hitem : Dequeues c now s item t) : Step c s (.dequeue now) item t
  | peekRequeued {s : FqCoDel} {now : ℕ} (h : s.requeued ≠ none) : Step c s (.peek now) none s
  | peek {s t : FqCoDel} {now : ℕ} {item : Option CoDelItem} (h : s.requeued = none)
      (hitem : Dequeues c now { s with peeked := true } item t) :
      Step c s (.peek now) item { t with requeued := item, peeked := item.isSome }

/-- A step in which `DoDequeue` takes no more than so many turns. -/
def next (turns : ℕ) : Event → Option (Option CoDelItem × FqCoDel)
  | .enqueue now item => (s.doEnqueue c now item).map fun r => (none, r.2)
  | .dequeue now =>
    if s.requeued = none then (doDequeue c now turns s).join else some (none, s.takeRequeued)
  | .peek now =>
    if s.requeued = none then
      (doDequeue c now turns { s with peeked := true }).join.map fun (item, t) =>
        (item, { t with requeued := item, peeked := item.isSome })
    else some (none, s)

theorem step_of_next {c : FqCoDelConfig} {s t : FqCoDel} {turns : ℕ} {e : Event}
    {item : Option CoDelItem} (h : s.next c turns e = some (item, t)) : Step c s e item t := by
  cases e with
  | enqueue now packet =>
    obtain ⟨⟨retval, t'⟩, henqueue, heq⟩ := Option.map_eq_some_iff.1 h
    cases heq
    exact .enqueue henqueue
  | dequeue now =>
    simp only [next] at h
    split_ifs at h with hslot
    · exact .dequeue hslot ⟨turns, Option.join_eq_some_iff.1 h⟩
    · cases h
      exact .dequeueRequeued hslot
  | peek now =>
    simp only [next] at h
    split_ifs at h with hslot
    · obtain ⟨⟨item', t'⟩, hdequeue, heq⟩ := Option.map_eq_some_iff.1 h
      cases heq
      exact .peek hslot ⟨turns, Option.join_eq_some_iff.1 hdequeue⟩
    · cases h
      exact .peekRequeued hslot

end FqCoDel

end SeanetSim
