import Mathlib.Data.UInt
import Mathlib.Data.List.Nodup
import SeanetSim.Internet.UdpReceive
import SeanetSim.Lib.Run

/-!
# The routes of RIP

Every route that `Rip` learns from a neighbour has a timer: `InvalidateRoute` while the route is
valid, `DeleteRoute` after that.  `HandleResponses` compares an advertised metric with that of the
route without a look at its status, so a neighbour that still reports an invalid route as
unreachable meets the branch for an equal metric: it gives the route a new `InvalidateRoute` timer,
or makes it valid with an infinite metric.  In a run without such a report the routes keep to their
life cycle (`Rip.lifeCycle_of_run`).
-/

namespace SeanetSim

structure RipRte where
  rtePrefix : Ipv4Address
  subnetMask : UInt32
  routeTag : UInt16
  routeMetric : UInt32

/-- `RIP_VALID` and `RIP_INVALID`. -/
inductive RouteStatus
  | valid
  | invalid
deriving DecidableEq

/-- What the timer of a route runs. -/
inductive RipTimerFunction
  | invalidateRoute
  | deleteRoute
deriving DecidableEq

/-- An event of the simulator, with the route that it gets. -/
structure RipTimer where
  uid : ℕ
  time : ℕ
  function : RipTimerFunction
  route : ℕ
deriving DecidableEq

/-- The simulator, and where the next route will be allocated.  No timer refers to a route that was
deleted (`Rip.Coherent`), so it does not matter that memory is not used again. -/
structure RipRuntime where
  now : ℕ
  nextUid : ℕ
  nextPointer : ℕ
  pending : List RipTimer
deriving DecidableEq

namespace RipRuntime

def cancel (rt : RipRuntime) (id : Option ℕ) : RipRuntime :=
  { rt with pending := rt.pending.filter fun e => some e.uid ≠ id }

def schedule (rt : RipRuntime) (delay : ℕ) (function : RipTimerFunction) (route : ℕ) :
    RipRuntime :=
  { rt with
    nextUid := rt.nextUid + 1
    pending := ⟨rt.nextUid, rt.now + delay, function, route⟩ :: rt.pending }

/-- Nothing is left of an event that is no longer pending. -/
def getDelayLeft (rt : RipRuntime) (id : Option ℕ) : ℕ :=
  match rt.pending.find? fun e => some e.uid = id with
  | some e => e.time - rt.now
  | none => 0

end RipRuntime

/-- A route with its event, an element of `m_routes`.  `learned` is not in the code: a response of
a neighbour has made the route or its timer. -/
structure RipRoutingTableEntry where
  pointer : ℕ
  destNetwork : Ipv4Address
  destNetworkMask : UInt32
  gateway : Ipv4Address
  interface : ℕ
  tag : UInt16
  metric : UInt8
  status : RouteStatus
  event : Option ℕ
  learned : Bool
deriving DecidableEq

structure RipConfig where
  linkDown : UInt32
  timeoutDelay : ℕ
  garbageCollectionDelay : ℕ
  interfaceExclusions : ℕ → Bool
  interfaceMetrics : ℕ → Option UInt8

namespace RipRoutingTableEntry

/-- Cancel the event of the route and schedule another one. -/
def rearm (r : RipRoutingTableEntry) (rt : RipRuntime) (delay : ℕ) (function : RipTimerFunction) :
    RipRoutingTableEntry × RipRuntime :=
  ({ r with event := some rt.nextUid }, (rt.cancel r.event).schedule delay function r.pointer)

/-- The body of `InvalidateRoute`. -/
def invalidate (cfg : RipConfig) (r : RipRoutingTableEntry) (rt : RipRuntime) :
    RipRoutingTableEntry × RipRuntime :=
  { r with status := .invalid, metric := cfg.linkDown.toUInt8 }.rearm rt
    cfg.garbageCollectionDelay .deleteRoute

/-- `SetRouteMetric`, `SetRouteStatus` and `SetRouteTag` with what a response says. -/
def report (r : RipRoutingTableEntry) (rteMetric : ℕ) (tag : UInt16) : RipRoutingTableEntry :=
  { r with metric := UInt8.ofNat rteMetric, status := .valid, tag := tag, learned := true }

/-- A new route in place of the route, over the sender of a response; the event is still that of
the old one. -/
def replace (r : RipRoutingTableEntry) (rt : RipRuntime) (rteAddr : Ipv4Address)
    (senderAddress : Ipv4Address) (incomingInterface : ℕ) : RipRoutingTableEntry × RipRuntime :=
  ({ pointer := rt.nextPointer, destNetwork := rteAddr, destNetworkMask := r.destNetworkMask
     gateway := senderAddress, interface := incomingInterface, tag := 0, metric := 0
     status := .invalid, event := r.event, learned := true },
    { rt with nextPointer := rt.nextPointer + 1 })

end RipRoutingTableEntry

open RipRoutingTableEntry

/-- The metric that is compared and stored, infinity at most. -/
def RipConfig.rteMetric (cfg : RipConfig) (incomingInterface : ℕ) (rte : RipRte) : ℕ :=
  let interfaceMetric := ((cfg.interfaceMetrics incomingInterface).getD 1).toUInt32
  min (rte.routeMetric + interfaceMetric).toNat cfg.linkDown.toNat

def RipRte.rteAddr (rte : RipRte) : Ipv4Address := rte.rtePrefix.combineMask rte.subnetMask

/-- The route is one to the prefix of the RTE. -/
def RipRte.isFor (rte : RipRte) (r : RipRoutingTableEntry) : Bool :=
  r.destNetwork.same rte.rteAddr && r.destNetworkMask == rte.subnetMask

/-- What `HandleResponses` does to a route to the prefix of an RTE. -/
def handleRoute (cfg : RipConfig) (senderAddress : Ipv4Address) (incomingInterface : ℕ)
    (rte : RipRte) (r : RipRoutingTableEntry) (rt : RipRuntime) :
    RipRoutingTableEntry × RipRuntime :=
  let rteMetric := cfg.rteMetric incomingInterface rte
  if rteMetric < r.metric.toNat then
    if senderAddress.same r.gateway then
      (r.report rteMetric rte.routeTag).rearm rt cfg.timeoutDelay .invalidateRoute
    else
      let (route, rt) := r.replace rt rte.rteAddr senderAddress incomingInterface
      (route.report rteMetric rte.routeTag).rearm rt cfg.timeoutDelay .invalidateRoute
  else if rteMetric = r.metric.toNat then
    if senderAddress.same r.gateway then
      { r with learned := true }.rearm rt cfg.timeoutDelay .invalidateRoute
    else if rt.getDelayLeft r.event < cfg.timeoutDelay / 2 then
      let (route, rt) := r.replace rt rte.rteAddr senderAddress incomingInterface
      (route.report rteMetric rte.routeTag).rearm rt cfg.timeoutDelay .invalidateRoute
    else (r, rt)
  else if senderAddress.same r.gateway then
    if rteMetric < cfg.linkDown.toNat then
      (r.report rteMetric rte.routeTag).rearm rt cfg.timeoutDelay .invalidateRoute
    else { r with learned := true }.invalidate cfg rt
  else (r, rt)

/-- A pass over the routes. -/
def visit (f : RipRoutingTableEntry → RipRuntime → RipRoutingTableEntry × RipRuntime) :
    List RipRoutingTableEntry → RipRuntime → List RipRoutingTableEntry × RipRuntime
  | [], rt => ([], rt)
  | r :: rest, rt =>
    let (r, rt) := f r rt
    let (rest, rt) := visit f rest rt
    (r :: rest, rt)

/-- What a RIP node knows. -/
structure Rip where
  routes : List RipRoutingTableEntry
  rt : RipRuntime
deriving DecidableEq

namespace Rip

def visitRoutes (s : Rip)
    (f : RipRoutingTableEntry → RipRuntime → RipRoutingTableEntry × RipRuntime) : Rip :=
  let (routes, rt) := visit f s.routes s.rt
  ⟨routes, rt⟩

/-- `InvalidateRoute` for the routes of a kind. -/
def invalidateAll (cfg : RipConfig) (s : Rip) (p : RipRoutingTableEntry → Bool) : Rip :=
  s.visitRoutes fun r rt => if p r then r.invalidate cfg rt else (r, rt)

/-- The route that a response makes to a prefix without one. -/
def newRoute (rt : RipRuntime) (rteAddr : Ipv4Address) (rtePrefixMask : UInt32)
    (senderAddress : Ipv4Address) (incomingInterface rteMetric : ℕ) : RipRoutingTableEntry :=
  { pointer := rt.nextPointer, destNetwork := rteAddr, destNetworkMask := rtePrefixMask
    gateway := senderAddress, interface := incomingInterface, tag := 0
    metric := UInt8.ofNat rteMetric, status := .valid, event := none, learned := true }

/-- One round of the second loop of `HandleResponses`. -/
def handleRte (cfg : RipConfig) (senderAddress : Ipv4Address) (incomingInterface : ℕ) (s : Rip)
    (rte : RipRte) : Rip :=
  let rteMetric := cfg.rteMetric incomingInterface rte
  if s.routes.any rte.isFor then
    s.visitRoutes fun r rt =>
      if rte.isFor r then handleRoute cfg senderAddress incomingInterface rte r rt else (r, rt)
  else if rteMetric ≠ cfg.linkDown.toNat then
    let route := newRoute s.rt rte.rteAddr rte.subnetMask senderAddress incomingInterface rteMetric
    let (route, rt) := route.rearm { s.rt with nextPointer := s.rt.nextPointer + 1 }
      cfg.timeoutDelay .invalidateRoute
    ⟨route :: s.routes, rt⟩
  else s

/-- The first loop of `HandleResponses`: one RTE that is not in order, and the response is
ignored. -/
def accepts (cfg : RipConfig) (rte : RipRte) : Bool :=
  !(rte.routeMetric == 0 || cfg.linkDown < rte.routeMetric || rte.rtePrefix.address == 0x7f000001 ||
    rte.rtePrefix.isBroadcast || rte.rtePrefix.isMulticast)

def handleResponses (cfg : RipConfig) (s : Rip) (rtes : List RipRte) (senderAddress : Ipv4Address)
    (incomingInterface : ℕ) : Rip :=
  if cfg.interfaceExclusions incomingInterface then s
  else if rtes.all (accepts cfg) then
    rtes.foldl (handleRte cfg senderAddress incomingInterface) s
  else s

/-- `AddNetworkRouteTo`, with a next hop or, for a network of the node, without one. -/
def addNetworkRouteTo (s : Rip) (network : Ipv4Address) (networkPrefix : UInt32)
    (nextHop : Ipv4Address) (interface : ℕ) : Rip :=
  let route : RipRoutingTableEntry :=
    { pointer := s.rt.nextPointer, destNetwork := network, destNetworkMask := networkPrefix
      gateway := nextHop, interface := interface, tag := 0, metric := 1, status := .valid
      event := none, learned := false }
  ⟨s.routes ++ [route], { s.rt with nextPointer := s.rt.nextPointer + 1 }⟩

def addDefaultRouteTo (s : Rip) (nextHop : Ipv4Address) (interface : ℕ) : Rip :=
  s.addNetworkRouteTo (.ofUInt32 0) 0 nextHop interface

/-- `InvalidateRoute`, which aborts for a route that is not there; no other has its address. -/
def invalidateRoute (cfg : RipConfig) (s : Rip) (route : ℕ) : Option Rip :=
  if s.routes.any fun r => r.pointer = route then
    some (s.invalidateAll cfg fun r => r.pointer = route)
  else none

/-- `DeleteRoute`, which aborts for a route that is not there. -/
def deleteRoute (s : Rip) (route : ℕ) : Option Rip :=
  if s.routes.any fun r => r.pointer = route then
    some { s with routes := s.routes.eraseP fun r => r.pointer = route }
  else none

end Rip

/-- What happens to a node: a response, an interface with the given global addresses comes up, one
goes down, addresses are added to or removed from an interface that is up, a default route. -/
inductive RipInput
  | response (rtes : List RipRte) (senderAddress : Ipv4Address) (incomingInterface : ℕ)
  | interfaceUp (interface : ℕ) (addresses : List (Ipv4Address × UInt32))
  | interfaceDown (interface : ℕ)
  | addAddress (interface : ℕ) (address : Ipv4Address) (mask : UInt32)
  | removeAddress (interface : ℕ) (address : Ipv4Address) (mask : UInt32)
  | addDefaultRouteTo (nextHop : Ipv4Address) (interface : ℕ)

/-- An input at some time, or the event of a timer. -/
inductive RipEvent
  | input (time : ℕ) (i : RipInput)
  | expire (e : RipTimer)

namespace Rip

/-- A network of the node itself. -/
def addConnected (s : Rip) (interface : ℕ) (address : Ipv4Address) (mask : UInt32) : Rip :=
  s.addNetworkRouteTo (address.combineMask mask) mask (.ofUInt32 0) interface

/-- The routes that `NotifyRemoveAddress` invalidates. -/
def refersTo (interface : ℕ) (address : Ipv4Address) (mask : UInt32) (r : RipRoutingTableEntry) :
    Bool :=
  r.interface = interface && r.destNetworkMask != 0xffffffff &&
    r.destNetwork.same (address.combineMask mask) && r.destNetworkMask == mask

def handle (cfg : RipConfig) (s : Rip) : RipInput → Rip
  | .response rtes senderAddress incomingInterface =>
    s.handleResponses cfg rtes senderAddress incomingInterface
  | .interfaceUp interface addresses =>
    addresses.foldl (fun s a => s.addConnected interface a.1 a.2) s
  | .interfaceDown interface => s.invalidateAll cfg fun r => r.interface = interface
  | .addAddress interface address mask =>
    if cfg.interfaceExclusions interface then s else s.addConnected interface address mask
  | .removeAddress interface address mask => s.invalidateAll cfg (refersTo interface address mask)
  | .addDefaultRouteTo nextHop interface => s.addDefaultRouteTo nextHop interface

/-- The event that runs is no longer pending. -/
def take (s : Rip) (e : RipTimer) : Rip :=
  { s with rt := { s.rt with now := e.time, pending := s.rt.pending.filter (·.uid ≠ e.uid) } }

def expire (cfg : RipConfig) (s : Rip) (e : RipTimer) : Option Rip :=
  match e.function with
  | .invalidateRoute => (s.take e).invalidateRoute cfg e.route
  | .deleteRoute => (s.take e).deleteRoute e.route

/-- Events run in the order of their times. -/
inductive Step (cfg : RipConfig) (s : Rip) : RipEvent → Rip → Prop
  | input {time : ℕ} {i : RipInput} (hnow : s.rt.now ≤ time)
      (hdue : ∀ e ∈ s.rt.pending, time ≤ e.time) :
      Step cfg s (.input time i) ({ s with rt := { s.rt with now := time } }.handle cfg i)
  | expire {e : RipTimer} {t : Rip} (he : e ∈ s.rt.pending)
      (hdue : ∀ e' ∈ s.rt.pending, e.time ≤ e'.time) (ht : s.expire cfg e = some t) :
      Step cfg s (.expire e) t

/-- No routes and no timers. -/
def initial : Rip := ⟨[], ⟨0, 0, 0, []⟩⟩

end Rip

/-! ## Routes and their timers -/

/-- The timer that a route of a status has. -/
def RouteStatus.timer : RouteStatus → RipTimerFunction
  | .valid => .invalidateRoute
  | .invalid => .deleteRoute

namespace Rip

/-- Routes and timers refer to each other. -/
structure Linked (routes : List RipRoutingTableEntry) (rt : RipRuntime) : Prop where
  pointers : (routes.map pointer).Nodup
  allocated : ∀ r ∈ routes, r.pointer < rt.nextPointer
  stamped : ∀ r ∈ routes, ∀ uid, r.event = some uid → uid < rt.nextUid
  issued : ∀ e ∈ rt.pending, e.uid < rt.nextUid
  uids : (rt.pending.map RipTimer.uid).Nodup
  owned : ∀ e ∈ rt.pending, ∃ r ∈ routes, r.pointer = e.route ∧ r.event = some e.uid
  held : ∀ r ∈ routes, ∀ e ∈ rt.pending, r.event = some e.uid → e.route = r.pointer

/-- The route is where it was, or allocated afresh. -/
def Reissued (rt : RipRuntime) (r : RipRoutingTableEntry) (rt₁ : RipRuntime)
    (r₁ : RipRoutingTableEntry) : Prop :=
  (r₁.pointer = r.pointer ∧ rt₁ = rt) ∨
    (r₁.pointer = rt.nextPointer ∧ rt₁ = { rt with nextPointer := rt.nextPointer + 1 })

section Linked

variable {front back routes : List RipRoutingTableEntry} {r r₁ : RipRoutingTableEntry}
  {rt rt₁ : RipRuntime} {delay : ℕ} {function : RipTimerFunction}

theorem Linked.eq_of_pointer (h : Linked routes rt) {r r' : RipRoutingTableEntry} (hr : r ∈ routes)
    (hr' : r' ∈ routes) (hp : r.pointer = r'.pointer) : r = r' :=
  List.inj_on_of_nodup_map h.pointers hr hr' hp

theorem Linked.eq_of_uid (h : Linked routes rt) {e e' : RipTimer} (he : e ∈ rt.pending)
    (he' : e' ∈ rt.pending) (hu : e.uid = e'.uid) : e = e' :=
  List.inj_on_of_nodup_map h.uids he he' hu

/-- The timers of other routes are not those that the route cancels. -/
theorem Linked.ne_event (h : Linked (front ++ r :: back) rt) {e : RipTimer} (he : e ∈ rt.pending)
    (hroute : e.route ≠ r.pointer) : some e.uid ≠ r.event :=
  fun hevent => hroute (h.held r (by simp) e he hevent.symm)

theorem Linked.ne_pointer (h : Linked (front ++ r :: back) rt) {r' : RipRoutingTableEntry}
    (hr' : r' ∈ front ++ back) : r'.pointer ≠ r.pointer := by
  intro hp
  have hnodup := h.pointers
  rw [List.map_append, List.map_cons, List.nodup_middle, ← List.map_append] at hnodup
  exact (List.nodup_cons.1 hnodup).1 (hp ▸ List.mem_map_of_mem hr')

theorem mem_rearm (r : RipRoutingTableEntry) (rt : RipRuntime) (delay : ℕ)
    (function : RipTimerFunction) (e : RipTimer) :
    e ∈ (r.rearm rt delay function).2.pending ↔
      e = ⟨rt.nextUid, rt.now + delay, function, r.pointer⟩ ∨
        (e ∈ rt.pending ∧ some e.uid ≠ r.event) := by
  simp [rearm, RipRuntime.schedule, RipRuntime.cancel]

/-- Routes and timers still refer to each other when the timer of a route is replaced. -/
theorem Linked.rearm (h : Linked (front ++ r :: back) rt) (hre : Reissued rt r rt₁ r₁)
    (hevent : r₁.event = r.event) :
    Linked (front ++ (r₁.rearm rt₁ delay function).1 :: back) (r₁.rearm rt₁ delay function).2 := by
  have hsame : rt₁.nextUid = rt.nextUid ∧ rt₁.pending = rt.pending := by
    obtain ⟨-, rfl⟩ | ⟨-, rfl⟩ := hre <;> exact ⟨rfl, rfl⟩
  have hother : ∀ r' ∈ front ++ back, r' ∈ front ++ r :: back := by
    intro r' hr'
    simp only [List.mem_append, List.mem_cons] at hr' ⊢
    tauto
  have hmem : ∀ r', r' ∈ front ++ (r₁.rearm rt₁ delay function).1 :: back ↔
      r' = (r₁.rearm rt₁ delay function).1 ∨ r' ∈ front ++ back := by
    intro r'
    simp only [List.mem_append, List.mem_cons]
    tauto
  have hfresh : ∀ r' ∈ front ++ back, r'.pointer ≠ r₁.pointer := by
    intro r' hr'
    rcases hre with ⟨hp, -⟩ | ⟨hp, -⟩
    · rw [hp]
      exact h.ne_pointer hr'
    · rw [hp]
      exact (h.allocated r' (hother r' hr')).ne
  refine ⟨?_, ?_, ?_, ?_, ?_, ?_, ?_⟩
  · rw [List.map_append, List.map_cons, List.nodup_middle, ← List.map_append, List.nodup_cons]
    refine ⟨fun hin => ?_, ?_⟩
    · obtain ⟨r', hr', hp⟩ := List.mem_map.1 hin
      exact hfresh r' hr' hp
    · have hnodup := h.pointers
      rw [List.map_append, List.map_cons, List.nodup_middle, ← List.map_append] at hnodup
      exact (List.nodup_cons.1 hnodup).2
  · intro r' hr'
    show r'.pointer < rt₁.nextPointer
    have hr := h.allocated r (by simp)
    rcases (hmem r').1 hr' with rfl | hr'
    · show r₁.pointer < rt₁.nextPointer
      rcases hre with ⟨hp, rfl⟩ | ⟨hp, rfl⟩
      · rw [hp]
        exact hr
      · rw [hp]
        exact Nat.lt_succ_self _
    · have hlt := h.allocated r' (hother r' hr')
      rcases hre with ⟨-, rfl⟩ | ⟨-, rfl⟩
      · exact hlt
      · exact Nat.lt_succ_of_lt hlt
  · intro r' hr' uid huid
    show uid < rt₁.nextUid + 1
    rw [hsame.1]
    rcases (hmem r').1 hr' with rfl | hr'
    · obtain rfl : rt₁.nextUid = uid := Option.some.inj huid
      rw [hsame.1]
      exact Nat.lt_succ_self _
    · exact Nat.lt_succ_of_lt (h.stamped r' (hother r' hr') uid huid)
  · intro e he
    show e.uid < rt₁.nextUid + 1
    rcases (mem_rearm _ _ _ _ e).1 he with rfl | ⟨he, -⟩
    · exact Nat.lt_succ_self _
    · rw [hsame.2] at he
      rw [hsame.1]
      exact Nat.lt_succ_of_lt (h.issued e he)
  · show (rt₁.nextUid :: (rt₁.pending.filter fun e => some e.uid ≠ r₁.event).map RipTimer.uid).Nodup
    rw [hsame.1, hsame.2, List.nodup_cons]
    refine ⟨fun hin => ?_, h.uids.sublist (List.filter_sublist.map _)⟩
    obtain ⟨e, he, huid⟩ := List.mem_map.1 hin
    exact absurd huid (h.issued e (List.mem_of_mem_filter he)).ne
  · intro e he
    rcases (mem_rearm _ _ _ _ e).1 he with rfl | ⟨he, hne⟩
    · exact ⟨_, (hmem _).2 (.inl rfl), rfl, rfl⟩
    · rw [hsame.2] at he
      obtain ⟨r', hr', hroute, huid⟩ := h.owned e he
      refine ⟨r', (hmem r').2 (.inr ?_), hroute, huid⟩
      have hne' : r' ≠ r := by
        rintro rfl
        exact hne (by rw [hevent, huid])
      simp only [List.mem_append, List.mem_cons] at hr' ⊢
      tauto
  · intro r' hr' e he huid
    obtain rfl | hr' := (hmem r').1 hr' <;> obtain rfl | ⟨he, -⟩ := (mem_rearm _ _ _ _ e).1 he
    · rfl
    · rw [hsame.2] at he
      have hlt := h.issued e he
      have heq : rt₁.nextUid = e.uid := Option.some.inj huid
      omega
    · have hlt := h.stamped r' (hother r' hr') _ huid
      exact absurd hlt (by rw [← hsame.1]; exact lt_irrefl _)
    · rw [hsame.2] at he
      exact h.held r' (hother r' hr') e he huid

/-- The timers of the other routes stay. -/
theorem Linked.mem_rearm_of_ne (h : Linked (front ++ r :: back) rt) (hre : Reissued rt r rt₁ r₁)
    (hevent : r₁.event = r.event) {e : RipTimer} (he : e ∈ rt.pending)
    (hroute : e.route ≠ r.pointer) : e ∈ (r₁.rearm rt₁ delay function).2.pending := by
  have hpending : rt₁.pending = rt.pending := by
    obtain ⟨-, rfl⟩ | ⟨-, rfl⟩ := hre <;> rfl
  rw [mem_rearm, hpending, hevent]
  exact .inr ⟨he, h.ne_event he hroute⟩

/-- Room for one more route. -/
theorem Linked.insert (h : Linked (front ++ back) rt) (hp : r.pointer = rt.nextPointer)
    (hevent : r.event = none) :
    Linked (front ++ r :: back) { rt with nextPointer := rt.nextPointer + 1 } := by
  have hmem : ∀ r', r' ∈ front ++ r :: back ↔ r' = r ∨ r' ∈ front ++ back := by
    intro r'
    simp only [List.mem_append, List.mem_cons]
    tauto
  refine ⟨?_, fun r' hr' => ?_, fun r' hr' uid huid => ?_, h.issued, h.uids, fun e he => ?_,
    fun r' hr' e he huid => ?_⟩
  · rw [List.map_append, List.map_cons, List.nodup_middle, ← List.map_append, List.nodup_cons]
    refine ⟨fun hin => ?_, h.pointers⟩
    obtain ⟨r', hr', hp'⟩ := List.mem_map.1 hin
    have hlt := h.allocated r' hr'
    omega
  · show r'.pointer < rt.nextPointer + 1
    rcases (hmem r').1 hr' with rfl | hr'
    · omega
    · exact Nat.lt_succ_of_lt (h.allocated r' hr')
  · rcases (hmem r').1 hr' with rfl | hr'
    · rw [hevent] at huid
      cases huid
    · exact h.stamped r' hr' uid huid
  · obtain ⟨r', hr', howner⟩ := h.owned e he
    exact ⟨r', (hmem r').2 (.inr hr'), howner⟩
  · rcases (hmem r').1 hr' with rfl | hr'
    · rw [hevent] at huid
      cases huid
    · exact h.held r' hr' e he huid

/-- A route goes, with its timer. -/
theorem Linked.erase (h : Linked (front ++ r :: back) rt) {e : RipTimer}
    (hevent : r.event = some e.uid) (now : ℕ) :
    Linked (front ++ back)
      { rt with now := now, pending := rt.pending.filter (·.uid ≠ e.uid) } := by
  have hsub : (front ++ back).Sublist (front ++ r :: back) :=
    (List.sublist_cons_self r back).append_left front
  refine ⟨h.pointers.sublist (hsub.map _), fun r' hr' => h.allocated r' (hsub.subset hr'),
    fun r' hr' => h.stamped r' (hsub.subset hr'),
    fun e' he' => h.issued e' (List.mem_of_mem_filter he'),
    h.uids.sublist (List.filter_sublist.map _), fun e' he' => ?_,
    fun r' hr' e' he' => h.held r' (hsub.subset hr') e' (List.mem_of_mem_filter he')⟩
  obtain ⟨hin, hne⟩ := List.mem_filter.1 he'
  obtain ⟨r', hr', hroute', hevent'⟩ := h.owned e' hin
  refine ⟨r', ?_, hroute', hevent'⟩
  have hne' : r' ≠ r := by
    rintro rfl
    rw [hevent] at hevent'
    exact (of_decide_eq_true hne) (Option.some.inj hevent').symm
  simp only [List.mem_append, List.mem_cons] at hr' ⊢
  tauto

theorem Linked.now (h : Linked routes rt) (now : ℕ) : Linked routes { rt with now := now } :=
  ⟨h.pointers, h.allocated, h.stamped, h.issued, h.uids, h.owned, h.held⟩

theorem Linked.getDelayLeft (h : Linked routes rt) {e : RipTimer} (he : e ∈ rt.pending) :
    rt.getDelayLeft (some e.uid) = e.time - rt.now := by
  unfold RipRuntime.getDelayLeft
  cases hfind : rt.pending.find? fun e' => some e'.uid = some e.uid with
  | none =>
    have hnone := List.find?_eq_none.1 hfind e he
    simp at hnone
  | some e' =>
    have huid := List.find?_some hfind
    rw [h.eq_of_uid (List.mem_of_find?_eq_some hfind) he (by simpa using huid)]

end Linked

/-! ## The life cycle -/

section LifeCycle

variable {cfg : RipConfig} {front back routes : List RipRoutingTableEntry}
  {r r₁ : RipRoutingTableEntry} {rt rt₁ rt' : RipRuntime} {delay : ℕ}

/-- The route has the timer of its status. -/
def Timed (rt : RipRuntime) (r : RipRoutingTableEntry) : Prop :=
  ∃ e ∈ rt.pending, r.event = some e.uid ∧ e.route = r.pointer ∧ e.function = r.status.timer

/-- Valid below infinity. -/
def WellMetric (cfg : RipConfig) (r : RipRoutingTableEntry) : Prop :=
  (r.status = .valid ↔ r.metric.toNat < cfg.linkDown.toNat) ∧ r.metric.toNat ≤ cfg.linkDown.toNat

/-- A route that was added on the node and that no response has touched. -/
def Untouched (r : RipRoutingTableEntry) : Prop :=
  r.learned = false ∧ r.status = .valid ∧ r.metric = 1 ∧ r.event = none

def Sound (cfg : RipConfig) (rt : RipRuntime) (r : RipRoutingTableEntry) : Prop :=
  Untouched r ∨ (Timed rt r ∧ WellMetric cfg r)

/-- Every route is sound, and no timer is left of a route that is not there. -/
structure Coherent (cfg : RipConfig) (routes : List RipRoutingTableEntry) (rt : RipRuntime) :
    Prop extends Linked routes rt where
  sound : ∀ r ∈ routes, Sound cfg rt r

/-- The timers of the route stay. -/
def Frame (r : RipRoutingTableEntry) (rt rt' : RipRuntime) : Prop :=
  rt'.now = rt.now ∧ ∀ e ∈ rt.pending, e.route = r.pointer → e ∈ rt'.pending

theorem Frame.refl (r : RipRoutingTableEntry) (rt : RipRuntime) : Frame r rt rt :=
  ⟨rfl, fun _ he _ => he⟩

theorem Frame.trans {rt'' : RipRuntime} (h : Frame r rt rt') (h' : Frame r rt' rt'') :
    Frame r rt rt'' :=
  ⟨h'.1.trans h.1, fun e he hroute => h'.2 e (h.2 e he hroute) hroute⟩

theorem Timed.frame (h : Timed rt r) (hframe : Frame r rt rt') : Timed rt' r := by
  obtain ⟨e, he, hevent, hroute, hfunction⟩ := h
  exact ⟨e, hframe.2 e he hroute, hevent, hroute, hfunction⟩

theorem Sound.frame (h : Sound cfg rt r) (hframe : Frame r rt rt') : Sound cfg rt' r :=
  h.imp_right fun ⟨htimed, hmetric⟩ => ⟨htimed.frame hframe, hmetric⟩

theorem Coherent.now (h : Coherent cfg routes rt) (now : ℕ) :
    Coherent cfg routes { rt with now := now } :=
  ⟨h.toLinked.now now, h.sound⟩

/-- The time left is the same as long as the timers of the route stay. -/
theorem Sound.getDelayLeft (h : Sound cfg rt r) (hlinked : Linked routes rt)
    {routes' : List RipRoutingTableEntry} (hlinked' : Linked routes' rt')
    (hframe : Frame r rt rt') : rt'.getDelayLeft r.event = rt.getDelayLeft r.event := by
  rcases h with ⟨-, -, -, hevent⟩ | ⟨⟨e, he, hevent, hroute, -⟩, -⟩
  · have hnone : ∀ rt : RipRuntime, rt.getDelayLeft none = 0 := by
      intro rt
      have hfind : rt.pending.find? (fun e => some e.uid = none) = none := by simp
      rw [RipRuntime.getDelayLeft, hfind]
    rw [hevent, hnone, hnone]
  · rw [hevent, hlinked.getDelayLeft he, hlinked'.getDelayLeft (hframe.2 e he hroute), hframe.1]

/-- A route gets a new timer, the one of its status. -/
theorem Linked.coherent_rearm (h : Linked (front ++ r :: back) rt)
    (hsound : ∀ r' ∈ front ++ back, Sound cfg rt r') (hre : Reissued rt r rt₁ r₁)
    (hevent : r₁.event = r.event) (hmetric : WellMetric cfg r₁) :
    Coherent cfg (front ++ (r₁.rearm rt₁ delay r₁.status.timer).1 :: back)
        (r₁.rearm rt₁ delay r₁.status.timer).2 ∧
      ∀ r' ∈ front ++ back, Frame r' rt (r₁.rearm rt₁ delay r₁.status.timer).2 := by
  have hframe : ∀ r' ∈ front ++ back, Frame r' rt (r₁.rearm rt₁ delay r₁.status.timer).2 := by
    intro r' hr'
    refine ⟨?_, fun e he hroute => ?_⟩
    · obtain ⟨-, rfl⟩ | ⟨-, rfl⟩ := hre <;> rfl
    · apply h.mem_rearm_of_ne hre hevent he
      rw [hroute]
      exact h.ne_pointer hr'
  refine ⟨⟨h.rearm hre hevent, fun r' hr' => ?_⟩, hframe⟩
  have hcases : r' = (r₁.rearm rt₁ delay r₁.status.timer).1 ∨ r' ∈ front ++ back := by
    simp only [List.mem_append, List.mem_cons] at hr' ⊢
    tauto
  rcases hcases with rfl | hr'
  · exact .inr ⟨⟨_, (mem_rearm _ _ _ _ _).2 (.inl rfl), rfl, rfl, rfl⟩, hmetric⟩
  · exact (hsound r' hr').frame (hframe r' hr')

/-- What a pass may do to a route: nothing, or give it the timer that it needs. -/
def Keeps (cfg : RipConfig) (result : RipRoutingTableEntry × RipRuntime)
    (r : RipRoutingTableEntry) (rt : RipRuntime) : Prop :=
  result = (r, rt) ∨ ∃ r₁ rt₁ delay, Reissued rt r rt₁ r₁ ∧ r₁.event = r.event ∧
    WellMetric cfg r₁ ∧ result = r₁.rearm rt₁ delay r₁.status.timer

theorem Coherent.step (h : Coherent cfg (front ++ r :: back) rt)
    {result : RipRoutingTableEntry × RipRuntime} (hkeeps : Keeps cfg result r rt) :
    Coherent cfg (front ++ result.1 :: back) result.2 ∧
      ∀ r' ∈ front ++ back, Frame r' rt result.2 := by
  rcases hkeeps with rfl | ⟨r₁, rt₁, delay, hre, hevent, hmetric, rfl⟩
  · exact ⟨h, fun r' _ => .refl r' rt⟩
  · refine h.toLinked.coherent_rearm (fun r' hr' => h.sound r' ?_) hre hevent hmetric
    simp only [List.mem_append, List.mem_cons] at hr' ⊢
    tauto

/-- The routes stay coherent in a pass that keeps each of them so, and a route that it passes over
stays, with its timer. -/
theorem Coherent.pass {f : RipRoutingTableEntry → RipRuntime → RipRoutingTableEntry × RipRuntime}
    (h : Coherent cfg (front ++ routes) rt)
    (hf : ∀ r ∈ routes, ∀ routes' rt', r ∈ routes' → Coherent cfg routes' rt' → Frame r rt rt' →
      Keeps cfg (f r rt') r rt') :
    Coherent cfg (front ++ (visit f routes rt).1) (visit f routes rt).2 ∧
      (∀ r ∈ front, Frame r rt (visit f routes rt).2) ∧
      ∀ r ∈ routes, (∀ routes' rt', r ∈ routes' → Coherent cfg routes' rt' → Frame r rt rt' →
          f r rt' = (r, rt')) →
        r ∈ (visit f routes rt).1 ∧ Frame r rt (visit f routes rt).2 := by
  induction routes generalizing front rt with
  | nil => exact ⟨h, fun r _ => .refl r rt, fun _ hr => absurd hr List.not_mem_nil⟩
  | cons r rest ih =>
    have hin : r ∈ front ++ r :: rest := by simp
    obtain ⟨hstep, hframe⟩ := h.step (hf r List.mem_cons_self _ rt hin h (.refl r rt))
    rw [List.append_cons] at hstep
    have hrest : ∀ r' ∈ rest, Frame r' rt (f r rt).2 :=
      fun r' hr' => hframe r' (List.mem_append_right front hr')
    obtain ⟨hcoherent, hfront, hpassed⟩ := ih hstep fun r' hr' routes' rt' hin' h' hframe' =>
      hf r' (List.mem_cons_of_mem r hr') routes' rt' hin' h' ((hrest r' hr').trans hframe')
    rw [visit]
    refine ⟨by simpa using hcoherent, fun r' hr' => ?_, fun r' hr' hsame => ?_⟩
    · exact (hframe r' (List.mem_append_left rest hr')).trans
        (hfront r' (List.mem_append_left _ hr'))
    · rcases List.mem_cons.1 hr' with rfl | hr'
      · have hself := hsame _ rt hin h (.refl r' rt)
        refine ⟨?_, ?_⟩
        · show r' ∈ (f r' rt).1 :: _
          rw [hself]
          exact List.mem_cons_self
        · have hlast := hfront (f r' rt).1 (List.mem_append_right front List.mem_cons_self)
          rw [hself] at hlast
          show Frame r' rt (visit f rest (f r' rt).2).2
          rw [hself]
          exact hlast
      · obtain ⟨hmem, hframe'⟩ := hpassed r' hr' fun routes' rt' hin' h' hframe' =>
          hsame routes' rt' hin' h' ((hrest r' hr').trans hframe')
        exact ⟨List.mem_cons_of_mem _ hmem, (hrest r' hr').trans hframe'⟩

/-! ### Responses -/

/-- An RTE at infinity for a route that is there already: at an infinite metric it gives the route
another timer or makes it valid, and if infinity is too large for a metric it makes the route
invalid with a finite one. -/
def Spoils (cfg : RipConfig) (senderAddress : Ipv4Address) (incomingInterface : ℕ) (s : Rip)
    (rte : RipRte) : Prop :=
  cfg.rteMetric incomingInterface rte = cfg.linkDown.toNat ∧ ∃ r ∈ s.routes, rte.isFor r = true ∧
    ((r.metric.toNat = cfg.linkDown.toNat ∧ (senderAddress.same r.gateway = true ∨
        s.rt.getDelayLeft r.event < cfg.timeoutDelay / 2)) ∨
      (256 ≤ cfg.linkDown.toNat ∧ senderAddress.same r.gateway = true))

variable {senderAddress : Ipv4Address} {incomingInterface : ℕ} {rte : RipRte} {s : Rip}

theorem rteMetric_le (cfg : RipConfig) (incomingInterface : ℕ) (rte : RipRte) :
    cfg.rteMetric incomingInterface rte ≤ cfg.linkDown.toNat :=
  min_le_right _ _

theorem linkDown_pos (h : accepts cfg rte = true) : 0 < cfg.linkDown.toNat := by
  simp only [accepts, Bool.not_eq_true', Bool.or_eq_false_iff, beq_eq_false_iff_ne, ne_eq,
    decide_eq_false_iff_not] at h
  have hne : rte.routeMetric.toNat ≠ 0 := fun h0 => h.1.1.1.1 (UInt32.toNat_inj.1 h0)
  have hle : rte.routeMetric.toNat ≤ cfg.linkDown.toNat := Nat.not_lt.1 h.1.1.1.2
  omega

theorem Sound.metric_le (h : Sound cfg rt r) (hpos : 0 < cfg.linkDown.toNat) :
    r.metric.toNat ≤ cfg.linkDown.toNat := by
  rcases h with ⟨-, -, hmetric, -⟩ | ⟨-, -, hle⟩
  · rw [hmetric]
    exact hpos
  · exact hle

theorem wellMetric_report {rteMetric : ℕ} (h : rteMetric < cfg.linkDown.toNat) (tag : UInt16) :
    WellMetric cfg (r.report rteMetric tag) := by
  have hle : (UInt8.ofNat rteMetric).toNat ≤ rteMetric := by
    rw [UInt8.toNat_ofNat']
    exact Nat.mod_le _ _
  exact ⟨iff_of_true rfl (hle.trans_lt h), (hle.trans_lt h).le⟩

/-- A route that does not lie at infinity is valid. -/
theorem Sound.valid (h : Sound cfg rt r) (hlt : r.metric.toNat < cfg.linkDown.toNat) :
    r.status = .valid := by
  rcases h with ⟨-, hvalid, -⟩ | ⟨-, hiff, -⟩
  · exact hvalid
  · exact hiff.2 hlt

theorem Keeps.of_rearm {function : RipTimerFunction} (hre : Reissued rt r rt₁ r₁)
    (hevent : r₁.event = r.event) (hmetric : WellMetric cfg r₁)
    (hfunction : function = r₁.status.timer) :
    Keeps cfg (r₁.rearm rt₁ delay function) r rt := by
  subst hfunction
  exact .inr ⟨r₁, rt₁, delay, hre, hevent, hmetric, rfl⟩

theorem keeps_report {rteMetric : ℕ} (hlt : rteMetric < cfg.linkDown.toNat) (tag : UInt16) :
    Keeps cfg ((r.report rteMetric tag).rearm rt delay .invalidateRoute) r rt :=
  .of_rearm (.inl ⟨rfl, rfl⟩) rfl (wellMetric_report hlt tag) rfl

theorem keeps_replace {rteMetric : ℕ} (hlt : rteMetric < cfg.linkDown.toNat) (tag : UInt16)
    (rteAddr : Ipv4Address) :
    Keeps cfg (((r.replace rt rteAddr senderAddress incomingInterface).1.report rteMetric tag).rearm
      (r.replace rt rteAddr senderAddress incomingInterface).2 delay .invalidateRoute) r rt :=
  .of_rearm (.inr ⟨rfl, rfl⟩) rfl (wellMetric_report hlt tag) rfl

/-- Infinity fits in a metric. -/
theorem keeps_invalidate (h256 : cfg.linkDown.toNat < 256) (hp : r₁.pointer = r.pointer)
    (hevent : r₁.event = r.event) : Keeps cfg (r₁.invalidate cfg rt) r rt := by
  have hmetric : cfg.linkDown.toUInt8.toNat = cfg.linkDown.toNat := by
    rw [UInt32.toNat_toUInt8]
    exact Nat.mod_eq_of_lt h256
  refine .of_rearm (.inl ⟨hp, rfl⟩) hevent ⟨iff_of_false nofun ?_, hmetric.le⟩ rfl
  exact hmetric.not_lt

/-- A route for the prefix of an RTE that does not spoil it keeps to its life cycle. -/
theorem keeps_handleRoute (h : Sound cfg rt r) (hpos : 0 < cfg.linkDown.toNat)
    (hin : r ∈ s.routes) (hfor : rte.isFor r = true)
    (hleft : rt.getDelayLeft r.event = s.rt.getDelayLeft r.event)
    (hspoils : ¬ Spoils cfg senderAddress incomingInterface s rte) :
    Keeps cfg (handleRoute cfg senderAddress incomingInterface rte r rt) r rt := by
  have hle := rteMetric_le cfg incomingInterface rte
  have hmetric := h.metric_le hpos
  unfold handleRoute
  dsimp only
  generalize hrte : cfg.rteMetric incomingInterface rte = rteMetric at hle
  have hequal : r.metric.toNat = cfg.linkDown.toNat → rteMetric = cfg.linkDown.toNat →
      ¬ (senderAddress.same r.gateway = true ∨ rt.getDelayLeft r.event < cfg.timeoutDelay / 2) := by
    intro hr hrte' hor
    exact hspoils ⟨hrte.trans hrte', r, hin, hfor, .inl ⟨hr, hleft ▸ hor⟩⟩
  have hfits : rteMetric = cfg.linkDown.toNat → senderAddress.same r.gateway = true →
      cfg.linkDown.toNat < 256 := by
    intro hrte' hsame
    by_contra hbig
    exact hspoils ⟨hrte.trans hrte', r, hin, hfor, .inr ⟨by omega, hsame⟩⟩
  split_ifs with hlower hsame hequal' hsame hshort hsame hbelow
  · exact keeps_report (by omega) _
  · exact keeps_replace (by omega) _ _
  · have hlt : r.metric.toNat < cfg.linkDown.toNat := by
      have hne : ¬ (r.metric.toNat = cfg.linkDown.toNat) := by
        intro heq
        exact hequal heq (by omega) (.inl hsame)
      omega
    have hvalid := h.valid hlt
    exact .of_rearm (.inl ⟨rfl, rfl⟩) rfl ⟨iff_of_true hvalid hlt, hmetric⟩ (by rw [hvalid]; rfl)
  · have hlt : r.metric.toNat ≠ cfg.linkDown.toNat := by
      intro heq
      exact hequal heq (by omega) (.inr hshort)
    exact keeps_replace (by omega) _ _
  · exact .inl rfl
  · exact keeps_report hbelow _
  · exact keeps_invalidate (hfits (by omega) hsame) rfl rfl
  · exact .inl rfl

/-- A route at infinity is left alone by an RTE at infinity. -/
theorem handleRoute_infinity (hin : r ∈ s.routes) (hfor : rte.isFor r = true)
    (hleft : rt.getDelayLeft r.event = s.rt.getDelayLeft r.event)
    (hrte : cfg.rteMetric incomingInterface rte = cfg.linkDown.toNat)
    (hr : r.metric.toNat = cfg.linkDown.toNat)
    (hspoils : ¬ Spoils cfg senderAddress incomingInterface s rte) :
    handleRoute cfg senderAddress incomingInterface rte r rt = (r, rt) := by
  have hquiet : ¬ (senderAddress.same r.gateway = true ∨
      s.rt.getDelayLeft r.event < cfg.timeoutDelay / 2) :=
    fun hor => hspoils ⟨hrte, r, hin, hfor, .inl ⟨hr, hor⟩⟩
  rw [not_or, ← hleft] at hquiet
  unfold handleRoute
  dsimp only
  rw [if_neg (by omega), if_pos (by omega), if_neg hquiet.1, if_neg hquiet.2]

/-- Coherence of a whole node. -/
def Invariant (cfg : RipConfig) (s : Rip) : Prop := Coherent cfg s.routes s.rt

/-- A pass that keeps every route sound. -/
theorem Invariant.visitRoutes
    {f : RipRoutingTableEntry → RipRuntime → RipRoutingTableEntry × RipRuntime}
    (h : Invariant cfg s)
    (hf : ∀ r ∈ s.routes, ∀ rt', Sound cfg rt' r →
      rt'.getDelayLeft r.event = s.rt.getDelayLeft r.event → Keeps cfg (f r rt') r rt') :
    Invariant cfg (s.visitRoutes f) ∧ ∀ r ∈ s.routes,
      (∀ rt', rt'.getDelayLeft r.event = s.rt.getDelayLeft r.event → f r rt' = (r, rt')) →
        r ∈ (s.visitRoutes f).routes ∧ Frame r s.rt (s.visitRoutes f).rt := by
  have hleft : ∀ r ∈ s.routes, ∀ routes' rt', Coherent cfg routes' rt' → Frame r s.rt rt' →
      rt'.getDelayLeft r.event = s.rt.getDelayLeft r.event :=
    fun r hr routes' rt' h' hframe => (h.sound r hr).getDelayLeft h.toLinked h'.toLinked hframe
  have hstart : Coherent cfg ([] ++ s.routes) s.rt := h
  obtain ⟨hcoherent, -, hpassed⟩ := hstart.pass (f := f) fun r hr routes' rt' hin h' hframe =>
    hf r hr rt' (h'.sound r hin) (hleft r hr routes' rt' h' hframe)
  exact ⟨hcoherent, fun r hr hsame => hpassed r hr fun routes' rt' _ h' hframe =>
    hsame rt' (hleft r hr routes' rt' h' hframe)⟩

theorem Invariant.handleRte (h : Invariant cfg s) (hpos : 0 < cfg.linkDown.toNat)
    (hspoils : ¬ Spoils cfg senderAddress incomingInterface s rte) :
    Invariant cfg (s.handleRte cfg senderAddress incomingInterface rte) ∧
      ∀ r ∈ s.routes, r.metric.toNat = cfg.linkDown.toNat →
        (rte.isFor r = true → cfg.rteMetric incomingInterface rte = cfg.linkDown.toNat) →
        r ∈ (s.handleRte cfg senderAddress incomingInterface rte).routes ∧
          Frame r s.rt (s.handleRte cfg senderAddress incomingInterface rte).rt := by
  unfold Rip.handleRte
  dsimp only
  split_ifs with hany hne
  · obtain ⟨hinvariant, hpassed⟩ := h.visitRoutes (f := fun r rt =>
        if rte.isFor r then handleRoute cfg senderAddress incomingInterface rte r rt else (r, rt))
      fun r hr rt' hsound hleft => by
        split_ifs with hfor
        · exact keeps_handleRoute hsound hpos hr hfor hleft hspoils
        · exact .inl rfl
    refine ⟨hinvariant, fun r hr hmetric hreport => hpassed r hr fun rt' hleft => ?_⟩
    split_ifs with hfor
    · exact handleRoute_infinity hr hfor hleft (hreport hfor) hmetric hspoils
    · rfl
  · have hlt := (rteMetric_le cfg incomingInterface rte).lt_of_ne hne
    have hroom : Linked ([] ++ newRoute s.rt rte.rteAddr rte.subnetMask senderAddress
        incomingInterface (cfg.rteMetric incomingInterface rte) :: s.routes) _ :=
      Linked.insert h.toLinked rfl rfl
    have hmetric : WellMetric cfg (newRoute s.rt rte.rteAddr rte.subnetMask senderAddress
        incomingInterface (cfg.rteMetric incomingInterface rte)) :=
      wellMetric_report (r := newRoute s.rt rte.rteAddr rte.subnetMask senderAddress
        incomingInterface (cfg.rteMetric incomingInterface rte)) hlt 0
    obtain ⟨hcoherent, hframe⟩ := hroom.coherent_rearm (fun r' hr' => h.sound r' hr')
      (.inl ⟨rfl, rfl⟩) rfl hmetric
    exact ⟨hcoherent, fun r hr _ _ => ⟨List.mem_cons_of_mem _ hr, hframe r hr⟩⟩
  · exact ⟨h, fun r hr _ _ => ⟨hr, .refl r s.rt⟩⟩

/-- No RTE of a response spoils a route, each in the state that the ones before it leave. -/
def RtesHarmless (cfg : RipConfig) (senderAddress : Ipv4Address) (incomingInterface : ℕ) :
    List RipRte → Rip → Prop
  | [], _ => True
  | rte :: rest, s => ¬ Spoils cfg senderAddress incomingInterface s rte ∧
      RtesHarmless cfg senderAddress incomingInterface rest
        (s.handleRte cfg senderAddress incomingInterface rte)

theorem Invariant.handleRtes {rtes : List RipRte} (h : Invariant cfg s)
    (haccepts : ∀ rte ∈ rtes, accepts cfg rte = true)
    (hharmless : RtesHarmless cfg senderAddress incomingInterface rtes s) :
    Invariant cfg (rtes.foldl (Rip.handleRte cfg senderAddress incomingInterface) s) ∧
      ∀ r ∈ s.routes, r.metric.toNat = cfg.linkDown.toNat →
        (∀ rte ∈ rtes, rte.isFor r = true →
          cfg.rteMetric incomingInterface rte = cfg.linkDown.toNat) →
        r ∈ (rtes.foldl (Rip.handleRte cfg senderAddress incomingInterface) s).routes ∧
          Frame r s.rt (rtes.foldl (Rip.handleRte cfg senderAddress incomingInterface) s).rt := by
  induction rtes generalizing s with
  | nil => exact ⟨h, fun r hr _ _ => ⟨hr, .refl r s.rt⟩⟩
  | cons rte rest ih =>
    obtain ⟨hspoils, hrest⟩ := hharmless
    have hpos := linkDown_pos (haccepts rte List.mem_cons_self)
    obtain ⟨hnext, hkept⟩ := h.handleRte hpos hspoils
    obtain ⟨hlast, hkept'⟩ :=
      ih hnext (fun rte' h' => haccepts rte' (List.mem_cons_of_mem _ h')) hrest
    refine ⟨hlast, fun r hr hmetric hreports => ?_⟩
    obtain ⟨hr', hframe⟩ := hkept r hr hmetric (hreports rte List.mem_cons_self)
    obtain ⟨hr'', hframe'⟩ := hkept' r hr' hmetric fun rte' h' =>
      hreports rte' (List.mem_cons_of_mem _ h')
    exact ⟨hr'', hframe.trans hframe'⟩

/-! ### Other events -/

theorem Invariant.invalidateAll (h : Invariant cfg s) {p : RipRoutingTableEntry → Bool}
    (h256 : (∃ r ∈ s.routes, p r = true) → cfg.linkDown.toNat < 256) :
    Invariant cfg (s.invalidateAll cfg p) := by
  refine (h.visitRoutes fun r hr rt' _ _ => ?_).1
  split_ifs with hp
  · exact keeps_invalidate (h256 ⟨r, hr, hp⟩) rfl rfl
  · exact .inl rfl

theorem Invariant.addNetworkRouteTo (h : Invariant cfg s) (network : Ipv4Address)
    (networkPrefix : UInt32) (nextHop : Ipv4Address) (interface : ℕ) :
    Invariant cfg (s.addNetworkRouteTo network networkPrefix nextHop interface) := by
  have hstart : Linked (s.routes ++ []) s.rt := by
    rw [List.append_nil]
    exact h.toLinked
  refine ⟨hstart.insert rfl rfl, fun r hr => ?_⟩
  rcases List.mem_append.1 hr with hr | hr
  · exact h.sound r hr
  · obtain rfl := List.mem_singleton.1 hr
    exact .inl ⟨rfl, rfl, rfl, rfl⟩

theorem Invariant.addConnected (h : Invariant cfg s) (interface : ℕ)
    (addresses : List (Ipv4Address × UInt32)) :
    Invariant cfg (addresses.foldl (fun s a => s.addConnected interface a.1 a.2) s) := by
  induction addresses generalizing s with
  | nil => exact h
  | cons a rest ih => exact ih (h.addNetworkRouteTo _ _ _ _)

theorem visit_single {f : RipRoutingTableEntry → RipRuntime → RipRoutingTableEntry × RipRuntime}
    {p : RipRoutingTableEntry → Bool} (hp : ∀ r' ∈ routes, p r' = false) (rt : RipRuntime) :
    visit (fun r rt => if p r then f r rt else (r, rt)) routes rt = (routes, rt) := by
  induction routes with
  | nil => rfl
  | cons r rest ih =>
    rw [visit, if_neg (by simp [hp r List.mem_cons_self])]
    simp only [ih fun r' hr' => hp r' (List.mem_cons_of_mem r hr')]

theorem visit_append {f : RipRoutingTableEntry → RipRuntime → RipRoutingTableEntry × RipRuntime}
    (rt : RipRuntime) : visit f (front ++ routes) rt =
      ((visit f front rt).1 ++ (visit f routes (visit f front rt).2).1,
        (visit f routes (visit f front rt).2).2) := by
  induction front generalizing rt with
  | nil => rfl
  | cons r rest ih =>
    rw [List.cons_append, visit, visit]
    simp only [ih, List.cons_append]

/-- The route whose timer runs, among the others. -/
theorem Invariant.exists_owner (h : Invariant cfg s) {e : RipTimer} (he : e ∈ s.rt.pending) :
    ∃ front r back, s.routes = front ++ r :: back ∧ r.pointer = e.route ∧ r.event = some e.uid ∧
      ∀ r' ∈ front ++ back, r'.pointer ≠ e.route := by
  obtain ⟨r, hr, hroute, hevent⟩ := h.owned e he
  obtain ⟨front, back, hsplit⟩ := List.append_of_mem hr
  have hlinked : Linked (front ++ r :: back) s.rt := hsplit ▸ h.toLinked
  exact ⟨front, r, back, hsplit, hroute, hevent, fun r' hr' => hroute ▸ hlinked.ne_pointer hr'⟩

/-- The event that runs needs no cancelling. -/
theorem invalidate_take {e : RipTimer} (hevent : r.event = some e.uid) :
    r.invalidate cfg (s.take e).rt = r.invalidate cfg { s.rt with now := e.time } := by
  have hfilter : (s.rt.pending.filter (·.uid ≠ e.uid)).filter (fun e' => some e'.uid ≠ r.event) =
      s.rt.pending.filter fun e' => some e'.uid ≠ r.event := by
    rw [List.filter_filter, hevent]
    congr 1
    funext e'
    simp
  simp only [invalidate, rearm, RipRuntime.schedule, RipRuntime.cancel, take, hfilter]

theorem invalidateAll_single {e : RipTimer} (hsplit : s.routes = front ++ r :: back)
    (hroute : r.pointer = e.route) (hother : ∀ r' ∈ front ++ back, r'.pointer ≠ e.route) :
    s.invalidateAll cfg (fun r => r.pointer = e.route) =
      ⟨front ++ (r.invalidate cfg s.rt).1 :: back, (r.invalidate cfg s.rt).2⟩ := by
  have hfront : ∀ r' ∈ front, decide (r'.pointer = e.route) = false := by
    intro r' hr'
    simpa using hother r' (List.mem_append_left back hr')
  have hback : ∀ r' ∈ back, decide (r'.pointer = e.route) = false := by
    intro r' hr'
    simpa using hother r' (List.mem_append_right front hr')
  simp only [Rip.invalidateAll, visitRoutes, hsplit]
  rw [visit_append, visit_single hfront, visit, if_pos (by simpa using hroute)]
  simp only [visit_single hback]

theorem Invariant.expire (h : Invariant cfg s) {e : RipTimer} {t : Rip} (he : e ∈ s.rt.pending)
    (h256 : e.function = .invalidateRoute → cfg.linkDown.toNat < 256)
    (ht : s.expire cfg e = some t) : Invariant cfg t := by
  obtain ⟨front, r, back, hsplit, hroute, hevent, hother⟩ := h.exists_owner he
  have hstart : Coherent cfg (front ++ r :: back) { s.rt with now := e.time } :=
    hsplit ▸ Coherent.now h e.time
  unfold Rip.expire at ht
  cases hfunction : e.function with
  | invalidateRoute =>
    rw [hfunction] at ht
    dsimp only [invalidateRoute] at ht
    split_ifs at ht
    obtain rfl := Option.some.inj ht
    rw [invalidateAll_single (s := s.take e) hsplit hroute hother, invalidate_take hevent]
    exact (hstart.step (keeps_invalidate (h256 hfunction) rfl rfl)).1
  | deleteRoute =>
    rw [hfunction] at ht
    dsimp only [deleteRoute] at ht
    split_ifs at ht
    obtain rfl := Option.some.inj ht
    have hlinked : Linked (front ++ r :: back) s.rt := hsplit ▸ h.toLinked
    have herase : s.routes.eraseP (fun r => r.pointer = e.route) = front ++ back := by
      rw [hsplit, List.eraseP_append_right _ fun r' hr' => ?_,
        List.eraseP_cons_of_pos (by simpa using hroute)]
      simpa using hother r' (List.mem_append_left back hr')
    show Coherent cfg (s.routes.eraseP fun r => r.pointer = e.route) (s.take e).rt
    rw [herase]
    refine ⟨hlinked.erase hevent e.time, fun r' hr' => ?_⟩
    have hin : r' ∈ front ++ r :: back := by
      simp only [List.mem_append, List.mem_cons] at hr' ⊢
      tauto
    refine (hstart.sound r' hin).frame ⟨rfl, fun e' he' hroute' => List.mem_filter.2 ⟨he', ?_⟩⟩
    have hne : e'.uid ≠ e.uid := by
      intro huid
      obtain rfl := h.eq_of_uid he' he huid
      exact hother r' hr' hroute'.symm
    simpa using hne

/-! ### Runs -/

/-- What the life cycle of a learned route asks: valid below infinity, and one timer, that of its
status. -/
structure LifeCycle (cfg : RipConfig) (rt : RipRuntime) (r : RipRoutingTableEntry) : Prop where
  valid_iff : r.status = .valid ↔ r.metric.toNat < cfg.linkDown.toNat
  timer : ∃ e : RipTimer, rt.pending.filter (·.route = r.pointer) = [e] ∧ r.event = some e.uid ∧
    e.function = match r.status with
      | .valid => .invalidateRoute
      | .invalid => .deleteRoute

/-- An invalid route that a response only reports unreachable is deleted when it would have been. -/
def NotPostponed (cfg : RipConfig) (s : Rip) : RipEvent → Rip → Prop
  | .input _ (.response rtes _ incomingInterface), t =>
    ∀ r ∈ s.routes, r.learned = true → r.status = .invalid →
      (∀ rte ∈ rtes, rte.isFor r = true →
        cfg.rteMetric incomingInterface rte = cfg.linkDown.toNat) →
      r ∈ t.routes ∧ ∀ e ∈ s.rt.pending, e.route = r.pointer → e ∈ t.rt.pending
  | _, _ => True

/-- No RTE of a response at infinity meets a route at infinity in the branches for an equal metric,
and no route is made invalid if infinity does not fit in a metric. -/
def Harmless (cfg : RipConfig) (s : Rip) : RipEvent → Prop
  | .input time (.response rtes senderAddress incomingInterface) =>
    cfg.interfaceExclusions incomingInterface = false → rtes.all (accepts cfg) = true →
      RtesHarmless cfg senderAddress incomingInterface rtes
        { s with rt := { s.rt with now := time } }
  | .input _ (.interfaceDown interface) =>
    (∃ r ∈ s.routes, r.interface = interface) → cfg.linkDown.toNat < 256
  | .input _ (.removeAddress interface address mask) =>
    (∃ r ∈ s.routes, refersTo interface address mask r = true) → cfg.linkDown.toNat < 256
  | .input _ _ => True
  | .expire e => e.function = .invalidateRoute → cfg.linkDown.toNat < 256

theorem Invariant.lifeCycle (h : Invariant cfg s) {r : RipRoutingTableEntry} (hr : r ∈ s.routes)
    (hlearned : r.learned = true) : LifeCycle cfg s.rt r := by
  rcases h.sound r hr with ⟨hnot, -⟩ | ⟨⟨e, he, hevent, hroute, hfunction⟩, hiff, -⟩
  · rw [hlearned] at hnot
    cases hnot
  · refine ⟨hiff, e, ?_, hevent, ?_⟩
    · have hall : ∀ e' ∈ s.rt.pending.filter (·.route = r.pointer), e' = e := by
        intro e' he'
        obtain ⟨hin, hroute'⟩ := List.mem_filter.1 he'
        obtain ⟨r', hr', howner, hevent'⟩ := h.owned e' hin
        obtain rfl := h.eq_of_pointer hr' hr (howner.trans (of_decide_eq_true hroute'))
        exact h.eq_of_uid hin he (Option.some.inj (hevent'.symm.trans hevent))
      have hmem : e ∈ s.rt.pending.filter (·.route = r.pointer) :=
        List.mem_filter.2 ⟨he, by simpa using hroute⟩
      have hnodup : (s.rt.pending.filter (·.route = r.pointer)).Nodup :=
        (List.Nodup.of_map _ h.uids).filter _
      have hreplicate := List.eq_replicate_of_mem hall
      have hlength := List.length_pos_of_mem hmem
      rw [hreplicate, List.nodup_replicate] at hnodup
      rw [hreplicate, show (s.rt.pending.filter (·.route = r.pointer)).length = 1 by omega]
      rfl
    · rw [hfunction]
      cases r.status <;> rfl

theorem Invariant.invalid_metric (h : Invariant cfg s) {r : RipRoutingTableEntry}
    (hr : r ∈ s.routes) (hlearned : r.learned = true) (hinvalid : r.status = .invalid) :
    r.metric.toNat = cfg.linkDown.toNat := by
  rcases h.sound r hr with ⟨hnot, -⟩ | ⟨-, hiff, hle⟩
  · rw [hlearned] at hnot
    cases hnot
  · have hnlt : ¬ r.metric.toNat < cfg.linkDown.toNat := by
      rw [← hiff, hinvalid]
      exact nofun
    omega

theorem Invariant.handleResponses {rtes : List RipRte} (h : Invariant cfg s)
    (hharmless : cfg.interfaceExclusions incomingInterface = false →
      rtes.all (accepts cfg) = true →
      RtesHarmless cfg senderAddress incomingInterface rtes s) :
    Invariant cfg (s.handleResponses cfg rtes senderAddress incomingInterface) ∧
      ∀ r ∈ s.routes, r.metric.toNat = cfg.linkDown.toNat →
        (∀ rte ∈ rtes, rte.isFor r = true →
          cfg.rteMetric incomingInterface rte = cfg.linkDown.toNat) →
        r ∈ (s.handleResponses cfg rtes senderAddress incomingInterface).routes ∧
          Frame r s.rt (s.handleResponses cfg rtes senderAddress incomingInterface).rt := by
  unfold Rip.handleResponses
  split_ifs with hexcluded haccepts
  · exact ⟨h, fun r hr _ _ => ⟨hr, .refl r s.rt⟩⟩
  · exact h.handleRtes (List.all_eq_true.1 haccepts)
      (hharmless (Bool.eq_false_iff.2 hexcluded) haccepts)
  · exact ⟨h, fun r hr _ _ => ⟨hr, .refl r s.rt⟩⟩

theorem Invariant.step {e : RipEvent} {t : Rip} (h : Invariant cfg s) (hharmless : Harmless cfg s e)
    (hst : Step cfg s e t) : Invariant cfg t ∧ NotPostponed cfg s e t := by
  cases hst with
  | expire he _ ht => exact ⟨h.expire he hharmless ht, trivial⟩
  | input =>
    rename_i time i _ _
    have hnow : Invariant cfg { s with rt := { s.rt with now := time } } := Coherent.now h time
    cases i with
    | response rtes senderAddress incomingInterface =>
      obtain ⟨hinvariant, hkept⟩ := hnow.handleResponses hharmless
      refine ⟨hinvariant, fun r hr hlearned hinvalid hreports => ?_⟩
      obtain ⟨hr', hframe⟩ := hkept r hr (h.invalid_metric hr hlearned hinvalid) hreports
      exact ⟨hr', hframe.2⟩
    | interfaceUp interface addresses =>
      exact ⟨hnow.addConnected interface addresses, trivial⟩
    | interfaceDown interface =>
      refine ⟨hnow.invalidateAll fun ⟨r, hr, hp⟩ => hharmless ⟨r, hr, ?_⟩, trivial⟩
      exact of_decide_eq_true hp
    | addAddress interface address mask =>
      refine ⟨?_, trivial⟩
      show Invariant cfg (if _ then _ else _)
      split_ifs
      · exact hnow
      · exact hnow.addNetworkRouteTo _ _ _ _
    | removeAddress interface address mask => exact ⟨hnow.invalidateAll hharmless, trivial⟩
    | addDefaultRouteTo nextHop interface => exact ⟨hnow.addNetworkRouteTo _ _ _ _, trivial⟩

theorem invariant_initial (cfg : RipConfig) : Invariant cfg initial :=
  ⟨⟨List.nodup_nil, nofun, nofun, nofun, List.nodup_nil, nofun, nofun⟩, nofun⟩

/-- In a run of harmless events every learned route is at every moment where its life cycle asks it
to be, and reports that it is unreachable do not put off its deletion. -/
theorem lifeCycle_of_run {trace : List (Rip × RipEvent)} (h : Run (Step cfg) initial trace s)
    (hharmless : ∀ p ∈ trace, Harmless cfg p.1 p.2) :
    (∀ p ∈ trace, ∀ r ∈ p.1.routes, r.learned = true → LifeCycle cfg p.1.rt r) ∧
      (∀ r ∈ s.routes, r.learned = true → LifeCycle cfg s.rt r) ∧
      ∀ p ∈ trace, ∀ t, Step cfg p.1 p.2 t → NotPostponed cfg p.1 p.2 t := by
  obtain ⟨hbefore, hlast⟩ := h.invariant_along (invariant_initial cfg)
    (fun s e t hinvariant hok hst => (hinvariant.step hok hst).1) hharmless
  exact ⟨fun p hp r hr hlearned => (hbefore p hp).lifeCycle hr hlearned,
    fun r hr hlearned => Invariant.lifeCycle hlast hr hlearned,
    fun p hp t hst => ((hbefore p hp).step (hharmless p hp) hst).2⟩

end LifeCycle

/-! ### A revived route -/

/-- The default parameters, in seconds. -/
def defaultConfig : RipConfig := ⟨16, 180, 120, fun _ => false, fun _ => none⟩

/-- A report of 10.1.0.0/16. -/
def reportOf (metric : UInt32) (senderAddress : UInt32) : RipInput :=
  .response [⟨.ofUInt32 0x0a010000, 0xffff0000, 0, metric⟩] (.ofUInt32 senderAddress) 1

/-- A route to it. -/
def routeTo (pointer : ℕ) (gateway : UInt32) (metric : UInt8) (status : RouteStatus) (event : ℕ) :
    RipRoutingTableEntry :=
  { pointer := pointer, destNetwork := .ofUInt32 0x0a010000, destNetworkMask := 0xffff0000
    gateway := .ofUInt32 gateway, interface := 1, tag := 0, metric := metric, status := status
    event := some event, learned := true }

/-- One neighbour reports the network at 0. -/
def reported : Rip :=
  ⟨[routeTo 0 0x0a000002 2 .valid 0], ⟨0, 1, 1, [⟨0, 180, .invalidateRoute, 0⟩]⟩⟩

/-- The route times out at 180. -/
def timedOut : Rip :=
  ⟨[routeTo 0 0x0a000002 16 .invalid 1], ⟨180, 2, 1, [⟨1, 300, .deleteRoute, 0⟩]⟩⟩

/-- At 250 another neighbour reports the network unreachable. -/
def revived : Rip :=
  ⟨[routeTo 1 0x0a000003 16 .valid 2], ⟨250, 3, 2, [⟨2, 430, .invalidateRoute, 1⟩]⟩⟩

theorem step_reported : Step defaultConfig initial (.input 0 (reportOf 1 0x0a000002)) reported :=
  .input (by decide) (by decide)

theorem step_timedOut :
    Step defaultConfig reported (.expire ⟨0, 180, .invalidateRoute, 0⟩) timedOut :=
  .expire (by decide) (by decide) rfl

theorem step_revived : Step defaultConfig timedOut (.input 250 (reportOf 16 0x0a000003)) revived :=
  .input (by decide) (by decide)

theorem run_timedOut : Run (Step defaultConfig) initial
    [(initial, .input 0 (reportOf 1 0x0a000002)),
      (reported, .expire ⟨0, 180, .invalidateRoute, 0⟩)] timedOut :=
  (Run.nil.snoc step_reported).snoc step_timedOut

theorem lifeCycle_timedOut : timedOut.rt.pending = [⟨1, 300, .deleteRoute, 0⟩] ∧
    ∀ r ∈ timedOut.routes, r.learned = true → LifeCycle defaultConfig timedOut.rt r := by
  refine ⟨rfl, (lifeCycle_of_run run_timedOut fun p hp => ?_).2.1⟩
  obtain rfl | rfl : p = _ ∨ p = _ := by simpa using hp
  · exact fun _ _ => ⟨fun h => absurd h.1 (by decide), trivial⟩
  · exact fun _ => by decide

/-- The report makes the route valid with an infinite metric. -/
theorem not_lifeCycle_revived : ∃ trace, Run (Step defaultConfig) initial trace revived ∧
    ∃ r ∈ revived.routes, r.learned = true ∧ r.status = .valid ∧ r.metric = 16 ∧
      ¬ LifeCycle defaultConfig revived.rt r := by
  refine ⟨_, run_timedOut.snoc step_revived, _, List.mem_cons_self, rfl, rfl, rfl, fun h => ?_⟩
  exact absurd h.valid_iff (by decide)

end Rip

end SeanetSim
