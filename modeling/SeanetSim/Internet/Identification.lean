import Mathlib.Data.UInt
import Mathlib.Data.List.Chain
import Mathlib.Logic.Function.Basic
import SeanetSim.Internet.Fragmentation
import SeanetSim.Internet.UdpReceive
import SeanetSim.Lib.Run

/-!
# Identifications

`Ipv4L3Protocol::Send` numbers the datagrams of each source, destination and protocol.  It takes a
number for every header it builds, before it knows where the datagram goes, and gives it back where
it calls itself with a route, or finds none.  A datagram for an interface that is down is lost in
`SendRealOut`, which gives nothing back: the datagrams on the wire are numbered one after the other
exactly if that does not happen (`Numbering.wellNumbered_iff`).
-/

namespace SeanetSim

namespace Ipv4Address

def isAny (a : Ipv4Address) : Bool := a.address == 0

/-- `224.0.0.0/24`. -/
def isLocalMulticast (a : Ipv4Address) : Bool := a.address &&& 0xffffff00 == 0xe0000000

end Ipv4Address

/-- A packet with the tags that `Send` takes off it. -/
structure OutgoingPacket where
  payload : List UInt8
  ipTtlTag : Option UInt8
  ipTosTag : Option UInt8

/-- The packet after `RemovePacketTag`. -/
def OutgoingPacket.untagged (packet : OutgoingPacket) : OutgoingPacket :=
  { packet with ipTtlTag := none, ipTosTag := none }

/-- An IPv4 header as `BuildHeader` fills it. -/
structure OutgoingHeader where
  source : Ipv4Address
  destination : Ipv4Address
  protocol : UInt8
  payloadSize : UInt16
  ttl : UInt8
  tos : UInt8
  mayFragment : Bool
  identification : UInt16
deriving DecidableEq

/-- An interface with its state and the MTU of its device. -/
structure OutInterface extends Ipv4Interface where
  isUp : Bool
  mtu : UInt32

/-- A route; the gateway may be uninitialized. -/
structure OutgoingRoute where
  gateway : Option Ipv4Address
  outputDevice : ℕ

/-- A datagram that an interface has sent, whole or in fragments. -/
structure SentDatagram where
  header : OutgoingHeader
  interface : ℕ
  target : Ipv4Address
  frames : List Ipv4PayloadHeaderPair
deriving DecidableEq

/-- Source, destination and protocol. -/
abbrev FlowTriple := UInt32 × UInt32 × UInt8

def OutgoingHeader.triple (h : OutgoingHeader) : FlowTriple :=
  (h.source.address, h.destination.address, h.protocol)

abbrev IdentificationKey := UInt64 × UInt8

/-- `std::make_pair (srcDst, protocol)`. -/
def FlowTriple.key (triple : FlowTriple) : IdentificationKey :=
  let (source, destination, protocol) := triple
  (destination.toUInt64 ||| source.toUInt64 <<< 32, protocol)

/-- `m_identification`; a key that is not there is made with 0. -/
abbrev Numbering := IdentificationKey → UInt16

/-- A call of `Send`, with what it finds: the interfaces, and what the routing protocol would
answer. -/
structure SendCall where
  interfaces : List OutInterface
  defaultTtl : UInt8
  packet : OutgoingPacket
  source : Ipv4Address
  destination : Ipv4Address
  protocol : UInt8
  route : Option OutgoingRoute
  routeOutput : Option OutgoingRoute

namespace SendCall

def triple (call : SendCall) : FlowTriple :=
  (call.source.address, call.destination.address, call.protocol)

end SendCall

/-- `m_reverseInterfacesContainer`: the interface that was added last for the device. -/
def getInterfaceForDevice : List OutInterface → ℕ → Option ℕ
  | [], _ => none
  | interface :: rest, device =>
    match getInterfaceForDevice rest device with
    | some index => some (index + 1)
    | none => if interface.device = device then some 0 else none

/-- The interface a route goes out on. -/
def OutgoingRoute.outInterface (route : OutgoingRoute) (interfaces : List OutInterface) :
    Option OutInterface :=
  (getInterfaceForDevice interfaces route.outputDevice).bind fun index => interfaces[index]?

/-- The route that `Send` makes for a broadcast on an interface. -/
def proxyRoute (outInterface : OutInterface) : OutgoingRoute :=
  ⟨some Ipv4Address.getAny, outInterface.device⟩

/-- The source is any, or an address of the interface. -/
def sendIt (source : Ipv4Address) (outInterface : OutInterface) : Bool :=
  source.isAny || outInterface.addresses.any fun addr => addr.localAddress.same source

/-- The interface for a subnet-directed broadcast. -/
def directedInterface (interfaces : List OutInterface) (destination : Ipv4Address) :
    Option OutInterface :=
  interfaces.find? fun outInterface =>
    (((proxyRoute outInterface).outInterface interfaces).map fun i => i.addresses).any fun addrs =>
      addrs.any fun ifAddr =>
        destination.isSubnetDirectedBroadcast ifAddr.mask &&
          (destination.combineMask ifAddr.mask).same (ifAddr.localAddress.combineMask ifAddr.mask)

namespace Numbering

def decreaseIdentification (m : Numbering) (triple : FlowTriple) : Numbering :=
  Function.update m triple.key (m triple.key - 1)

def buildHeader (m : Numbering) (source destination : Ipv4Address) (protocol : UInt8)
    (payloadSize : UInt16) (ttl tos : UInt8) (mayFragment : Bool) : OutgoingHeader × Numbering :=
  let key := FlowTriple.key (source.address, destination.address, protocol)
  ({ source := source, destination := destination, protocol := protocol
     payloadSize := payloadSize, ttl := ttl, tos := tos, mayFragment := mayFragment
     identification := m key }, Function.update m key (m key + 1))

/-- The header of a call. -/
def callHeader (m : Numbering) (call : SendCall) : OutgoingHeader × Numbering :=
  m.buildHeader call.source call.destination call.protocol
    (UInt16.ofNat call.packet.payload.length) (call.packet.ipTtlTag.getD call.defaultTtl)
    (call.packet.ipTosTag.getD 0) true

/-- `SendRealOut`; `none` for a route over an unknown device. -/
def sendRealOut (interfaces : List OutInterface) (route : OutgoingRoute) (gateway : Ipv4Address)
    (payload : List UInt8) (ipHeader : OutgoingHeader) : Option (List SentDatagram) := do
  let interface ← getInterfaceForDevice interfaces route.outputDevice
  let outInterface ← interfaces[interface]?
  let target := if gateway.isAny then ipHeader.destination else gateway
  if outInterface.isUp then
    if outInterface.mtu.toNat < payload.length + 20 then do
      let listFragments ← doFragmentation (wholeDatagram payload) outInterface.mtu
      some [⟨ipHeader, interface, target, listFragments⟩]
    else some [⟨ipHeader, interface, target, [wholeDatagram payload]⟩]
  else some []

/-- Case 1 of `Send`, a packet with a route; it stops where there is no gateway. -/
def sendRouted (m : Numbering) (call : SendCall) (route : OutgoingRoute) :
    Option (Numbering × List SentDatagram) := do
  let (ipHeader, m) := m.callHeader call
  let gateway ← route.gateway
  let sent ← sendRealOut call.interfaces route gateway call.packet.payload ipHeader
  some (m, sent)

/-- The loop of case 2.  The first call takes the tags off the packet. -/
def broadcastLoop (call : SendCall) :
    List OutInterface → OutgoingPacket → Numbering → Option (Numbering × List SentDatagram)
  | [], _, m => some (m, [])
  | outInterface :: rest, pktCopyWithTags, m =>
    if sendIt call.source outInterface then do
      let m := m.decreaseIdentification call.triple
      let (m, sent) ← m.sendRouted { call with packet := pktCopyWithTags } (proxyRoute outInterface)
      let (m, sent') ← broadcastLoop call rest pktCopyWithTags.untagged m
      some (m, sent ++ sent')
    else broadcastLoop call rest pktCopyWithTags m

def send (m : Numbering) (call : SendCall) : Option (Numbering × List SentDatagram) :=
  match call.route with
  | some route => m.sendRouted call route
  | none =>
    let m := (m.callHeader call).2
    if call.destination.isBroadcast || call.destination.isLocalMulticast then
      broadcastLoop call call.interfaces call.packet m
    else
      match directedInterface call.interfaces call.destination with
      | some outInterface =>
        (m.decreaseIdentification call.triple).sendRouted call (proxyRoute outInterface)
      | none =>
        match call.routeOutput with
        | some newRoute => (m.decreaseIdentification call.triple).sendRouted call newRoute
        | none => some (m.decreaseIdentification call.triple, [])

/-- A call that returns, with what it has put on the wire. -/
def Step (m : Numbering) (e : SendCall × List SentDatagram) (m' : Numbering) : Prop :=
  m.send e.1 = some (m', e.2)

/-- The counter of the triple one further. -/
def advance (m : Numbering) (triple : FlowTriple) : Numbering :=
  Function.update m triple.key (m triple.key + 1)

end Numbering

/-- The route's interface is up. -/
def OutgoingRoute.isUp (route : OutgoingRoute) (interfaces : List OutInterface) : Bool :=
  (route.outInterface interfaces).any OutInterface.isUp

/-- The call comes to an interface that is up, or to no route. -/
def SendCall.isCarried (call : SendCall) : Bool :=
  match call.route with
  | some route => route.isUp call.interfaces
  | none =>
    if call.destination.isBroadcast || call.destination.isLocalMulticast then
      call.interfaces.any fun outInterface =>
        sendIt call.source outInterface && (proxyRoute outInterface).isUp call.interfaces
    else
      match directedInterface call.interfaces call.destination with
      | some outInterface => (proxyRoute outInterface).isUp call.interfaces
      | none => call.routeOutput.all fun newRoute => newRoute.isUp call.interfaces

/-! ## Keys -/

theorem FlowTriple.toNat_key (triple : FlowTriple) :
    triple.key.1.toNat = triple.1.toNat * 2 ^ 32 + triple.2.1.toNat := by
  have hs := triple.1.toNat_lt
  have hd := triple.2.1.toNat_lt
  have hshift : triple.1.toNat <<< 32 % 2 ^ 64 = triple.1.toNat <<< 32 := by
    rw [Nat.shiftLeft_eq]
    omega
  simp only [FlowTriple.key, UInt64.toNat_or, UInt64.toNat_shiftLeft, UInt32.toNat_toUInt64]
  rw [show UInt64.toNat 32 % 64 = 32 from rfl, hshift, Nat.or_comm,
    ← Nat.shiftLeft_add_eq_or_of_lt hd, Nat.shiftLeft_eq]

/-- Triples do not share a counter. -/
theorem FlowTriple.key_inj {triple triple' : FlowTriple} (h : triple.key = triple'.key) :
    triple = triple' := by
  have hnat := congrArg (fun key => key.1.toNat) h
  have hd := triple.2.1.toNat_lt
  have hd' := triple'.2.1.toNat_lt
  simp only [toNat_key] at hnat
  have hsource : triple.1 = triple'.1 := UInt32.toNat_inj.1 (by omega)
  have hdestination : triple.2.1 = triple'.2.1 := UInt32.toNat_inj.1 (by omega)
  have hprotocol : triple.2.2 = triple'.2.2 := congrArg (fun key => key.2) h
  exact Prod.ext hsource (Prod.ext hdestination hprotocol)

namespace Numbering

variable {m m' : Numbering} {call : SendCall} {route : OutgoingRoute} {sent : List SentDatagram}

@[simp] theorem advance_key (m : Numbering) (triple : FlowTriple) :
    m.advance triple triple.key = m triple.key + 1 := by
  simp [advance]

theorem advance_of_ne {triple triple' : FlowTriple} (h : triple' ≠ triple) :
    m.advance triple triple'.key = m triple'.key :=
  Function.update_of_ne (fun hkey => h (FlowTriple.key_inj hkey)) _ _

@[simp] theorem decreaseIdentification_advance (m : Numbering) (triple : FlowTriple) :
    (m.advance triple).decreaseIdentification triple = m := by
  simp [decreaseIdentification, advance]

theorem callHeader_snd (m : Numbering) (call : SendCall) :
    (m.callHeader call).2 = m.advance call.triple := rfl

/-! ## One call -/

/-- The header counts as one of the call that finds the counters `m`. -/
def Bears (m : Numbering) (call : SendCall) (d : SentDatagram) : Prop :=
  d.header.triple = call.triple ∧ d.header.identification = m call.triple.key

theorem sendRealOut_spec {interfaces : List OutInterface} {gateway : Ipv4Address}
    {payload : List UInt8} {ipHeader : OutgoingHeader}
    (h : sendRealOut interfaces route gateway payload ipHeader = some sent) :
    (∀ d ∈ sent, d.header = ipHeader) ∧ (sent ≠ [] ↔ route.isUp interfaces = true) := by
  unfold sendRealOut at h
  obtain ⟨index, hindex, h⟩ := Option.bind_eq_some_iff.1 h
  obtain ⟨outInterface, hout, h⟩ := Option.bind_eq_some_iff.1 h
  have hup : route.isUp interfaces = outInterface.isUp := by
    simp [OutgoingRoute.isUp, OutgoingRoute.outInterface, hindex, hout]
  rw [hup]
  dsimp only at h
  generalize (if gateway.isAny = true then ipHeader.destination else gateway) = target at h
  split_ifs at h with hisUp hmtu
  · obtain ⟨listFragments, -, h⟩ := Option.bind_eq_some_iff.1 h
    cases h
    simp [hisUp]
  · cases h
    simp [hisUp]
  · cases h
    simp [hisUp]

theorem sendRouted_spec (h : m.sendRouted call route = some (m', sent)) :
    m' = m.advance call.triple ∧ (∀ d ∈ sent, m.Bears call d) ∧
      (sent ≠ [] ↔ route.isUp call.interfaces = true) := by
  unfold sendRouted at h
  obtain ⟨gateway, -, h⟩ := Option.bind_eq_some_iff.1 h
  obtain ⟨sent', hsent, h⟩ := Option.bind_eq_some_iff.1 h
  cases h
  obtain ⟨hheader, hup⟩ := sendRealOut_spec hsent
  refine ⟨callHeader_snd m call, fun d hd => ?_, hup⟩
  rw [Bears, hheader d hd]
  exact ⟨rfl, rfl⟩

/-- Each round gives the number back that it takes. -/
theorem broadcastLoop_spec {outInterfaces : List OutInterface} {packet : OutgoingPacket}
    (h : broadcastLoop call outInterfaces packet (m.advance call.triple) = some (m', sent)) :
    m' = m.advance call.triple ∧ (∀ d ∈ sent, m.Bears call d) ∧
      (sent ≠ [] ↔ (outInterfaces.any fun outInterface => sendIt call.source outInterface &&
        (proxyRoute outInterface).isUp call.interfaces) = true) := by
  induction outInterfaces generalizing packet sent with
  | nil =>
    cases h
    simp
  | cons outInterface rest ih =>
    unfold broadcastLoop at h
    split_ifs at h with hsendIt
    · rw [decreaseIdentification_advance] at h
      obtain ⟨⟨m₁, sent₁⟩, hrouted, h⟩ := Option.bind_eq_some_iff.1 h
      obtain ⟨⟨m₂, sent₂⟩, hloop, h⟩ := Option.bind_eq_some_iff.1 h
      cases h
      obtain ⟨rfl, hbears₁, hup₁⟩ := sendRouted_spec hrouted
      obtain ⟨hm', hbears₂, hup₂⟩ := ih hloop
      refine ⟨hm', fun d hd => (List.mem_append.1 hd).elim (hbears₁ d) (hbears₂ d), ?_⟩
      rw [List.any_cons, hsendIt, Bool.true_and, Bool.or_eq_true, ← hup₂, ← hup₁]
      simp only [ne_eq, List.append_eq_nil_iff]
      tauto
    · rw [List.any_cons, Bool.eq_false_iff.2 hsendIt]
      simpa using ih h

/-- A call takes a number, unless it finds no route, and every datagram that it puts on the wire
bears it. -/
theorem step_spec (h : m.Step (call, sent) m') :
    (∀ d ∈ sent, m.Bears call d) ∧
      ((m' = m ∧ sent = [] ∧ call.isCarried = true) ∨
        (m' = m.advance call.triple ∧ (sent ≠ [] ↔ call.isCarried = true))) := by
  simp only [Step, send, callHeader_snd, decreaseIdentification_advance] at h
  unfold SendCall.isCarried
  cases hroute : call.route with
  | some route =>
    rw [hroute] at h
    obtain ⟨hm', hbears, hup⟩ := sendRouted_spec h
    exact ⟨hbears, .inr ⟨hm', hup⟩⟩
  | none =>
    rw [hroute] at h
    dsimp only at h ⊢
    split_ifs at h ⊢ with hcast
    · obtain ⟨hm', hbears, hup⟩ := broadcastLoop_spec h
      exact ⟨hbears, .inr ⟨hm', hup⟩⟩
    · cases hdirected : directedInterface call.interfaces call.destination with
      | some outInterface =>
        rw [hdirected] at h
        obtain ⟨hm', hbears, hup⟩ := sendRouted_spec h
        exact ⟨hbears, .inr ⟨hm', hup⟩⟩
      | none =>
        rw [hdirected] at h
        dsimp only at h
        cases houtput : call.routeOutput with
        | some newRoute =>
          rw [houtput] at h
          obtain ⟨hm', hbears, hup⟩ := sendRouted_spec h
          exact ⟨hbears, .inr ⟨hm', by simpa using hup⟩⟩
        | none =>
          rw [houtput] at h
          cases h
          exact ⟨by simp, .inl ⟨rfl, rfl, rfl⟩⟩

/-! ## Runs -/

/-- What the calls of a run have put on the wire of a triple, call by call. -/
def onWire (triple : FlowTriple) (trace : List (Numbering × SendCall × List SentDatagram)) :
    List (List SentDatagram) :=
  (trace.map fun p => p.2.2.filter fun d => d.header.triple = triple).filter (· ≠ [])

/-- The numbers of a triple follow each other on the wire, a call that puts something there takes
one number of its triple, any other call none, and all that one call sends bears the same. -/
structure WellNumbered (trace : List (Numbering × SendCall × List SentDatagram)) : Prop where
  consecutive : ∀ triple, (onWire triple trace).IsChain fun g g' => ∀ d ∈ g, ∀ d' ∈ g',
    d'.header.identification = d.header.identification + 1
  advances : ∀ m call sent, (m, call, sent) ∈ trace → ∀ m', m.Step (call, sent) m' →
    ∀ triple : FlowTriple,
      m' triple.key = m triple.key + if triple = call.triple ∧ sent ≠ [] then 1 else 0
  copies : ∀ m call sent, (m, call, sent) ∈ trace → ∀ d ∈ sent, ∀ d' ∈ sent,
    d'.header.identification = d.header.identification

theorem onWire_snoc (triple : FlowTriple)
    (trace : List (Numbering × SendCall × List SentDatagram)) (m : Numbering) (call : SendCall)
    (sent : List SentDatagram) :
    onWire triple (trace ++ [(m, call, sent)]) = onWire triple trace ++
      [sent.filter fun d => d.header.triple = triple].filter (· ≠ []) := by
  simp [onWire]

/-- A call moves the counter of its triple exactly if it puts something on the wire, unless that is
lost on an interface that is down. -/
theorem advances_iff (h : m.Step (call, sent) m') :
    (∀ triple : FlowTriple,
      m' triple.key = m triple.key + if triple = call.triple ∧ sent ≠ [] then 1 else 0) ↔
      call.isCarried = true := by
  obtain ⟨-, ⟨rfl, rfl, hcarried⟩ | ⟨rfl, hsent⟩⟩ := step_spec h
  · simp [hcarried]
  · rw [← hsent]
    constructor
    · intro hadvances hnil
      have hself := hadvances call.triple
      rw [advance_key, if_neg (by simp [hnil]), add_right_inj] at hself
      exact absurd hself (by decide)
    · intro hne triple
      by_cases htriple : triple = call.triple
      · rw [if_pos ⟨htriple, hne⟩, htriple, advance_key]
      · rw [if_neg (by simp [htriple]), advance_of_ne htriple, add_zero]

/-- The last numbers on the wire are just below the counters, where no call has lost one. -/
theorem consecutive_of_carried {m₀ : Numbering}
    {trace : List (Numbering × SendCall × List SentDatagram)} (h : Run Step m₀ trace m)
    (hcarried : ∀ p ∈ trace, p.2.1.isCarried = true) (triple : FlowTriple) :
    ((onWire triple trace).IsChain fun g g' => ∀ d ∈ g, ∀ d' ∈ g',
      d'.header.identification = d.header.identification + 1) ∧
    ∀ g ∈ (onWire triple trace).getLast?, ∀ d ∈ g,
      d.header.identification + 1 = m triple.key := by
  induction h with
  | nil => simp [onWire]
  | snoc hrun hst ih =>
    rename_i trace m m' e
    obtain ⟨call, sent⟩ := e
    have hlast : call.isCarried = true :=
      hcarried (m, call, sent) (List.mem_append_right trace List.mem_cons_self)
    obtain ⟨hchain, hbelow⟩ := ih fun p hp => hcarried p (List.mem_append_left _ hp)
    obtain ⟨hbears, -⟩ := step_spec hst
    have hadvance := (advances_iff hst).2 hlast triple
    rw [onWire_snoc]
    generalize hgroup : (sent.filter fun d => d.header.triple = triple) = group
    have hmem : ∀ d ∈ group, d ∈ sent ∧ d.header.triple = triple := by
      intro d hd
      rw [← hgroup] at hd
      simpa using hd
    rcases eq_or_ne group [] with rfl | hne
    · -- the call is of another triple, or has sent nothing
      have hstays : m' triple.key = m triple.key := by
        rw [hadvance, if_neg, add_zero]
        rintro ⟨rfl, hne⟩
        obtain ⟨d, hd⟩ := List.exists_mem_of_ne_nil sent hne
        have hin : d ∈ sent.filter fun d => d.header.triple = call.triple := by
          simp [hd, (hbears d hd).1]
        rw [hgroup] at hin
        exact absurd hin List.not_mem_nil
      rw [hstays]
      simpa using ⟨hchain, hbelow⟩
    · obtain ⟨d₀, hd₀⟩ := List.exists_mem_of_ne_nil group hne
      obtain ⟨hsent₀, htriple₀⟩ := hmem d₀ hd₀
      have htriple : triple = call.triple := htriple₀.symm.trans (hbears d₀ hsent₀).1
      have hsent : sent ≠ [] := List.ne_nil_of_mem hsent₀
      have hnumber : ∀ d ∈ group, d.header.identification = m triple.key := by
        intro d hd
        rw [(hbears d (hmem d hd).1).2, htriple]
      rw [if_pos ⟨htriple, hsent⟩] at hadvance
      have hfilter : [group].filter (· ≠ []) = [group] := by simp [hne]
      rw [hfilter]
      refine ⟨List.isChain_append.2 ⟨hchain, List.isChain_singleton _, ?_⟩, ?_⟩
      · intro g hg g' hg' d hd d' hd'
        obtain rfl : group = g' := by simpa using hg'
        rw [hnumber d' hd', hbelow g hg d hd]
      · intro g hg d hd
        obtain rfl : group = g := by simpa using hg
        rw [hnumber d hd, hadvance]

/-- The datagrams of each triple are numbered one after the other, and no number is lost, exactly
if every call comes to an interface that is up, or to no route. -/
theorem wellNumbered_iff {m₀ : Numbering}
    {trace : List (Numbering × SendCall × List SentDatagram)} (h : Run Step m₀ trace m) :
    WellNumbered trace ↔ ∀ p ∈ trace, p.2.1.isCarried = true := by
  have hsteps : ∀ p ∈ trace, ∃ m', p.1.Step p.2 m' := h.forall_step
  constructor
  · rintro hnumbered ⟨m, call, sent⟩ hp
    obtain ⟨m', hst⟩ := hsteps _ hp
    exact (advances_iff hst).1 (hnumbered.advances m call sent hp m' hst)
  · intro hcarried
    refine ⟨fun triple => (consecutive_of_carried h hcarried triple).1, ?_, ?_⟩
    · intro m call sent hp m' hst
      exact (advances_iff hst).2 (hcarried _ hp)
    · intro m call sent hp d hd d' hd'
      obtain ⟨m', hst⟩ := hsteps _ hp
      obtain ⟨hbears, -⟩ := step_spec hst
      rw [(hbears d hd).2, (hbears d' hd').2]

/-- A datagram for a neighbour, over an interface that is up or down. -/
def towardsPeer (isUp : Bool) : SendCall where
  interfaces := [⟨⟨0, []⟩, isUp, 1500⟩]
  defaultTtl := 64
  packet := ⟨[], none, none⟩
  source := .ofUInt32 0x0a000001
  destination := .ofUInt32 0x0a000002
  protocol := 17
  route := some ⟨some (.ofUInt32 0x0a000002), 0⟩
  routeOutput := none

/-- What is sent of it. -/
def towardsPeerSent (identification : UInt16) : SentDatagram where
  header := { source := .ofUInt32 0x0a000001, destination := .ofUInt32 0x0a000002, protocol := 17
              payloadSize := 0, ttl := 64, tos := 0, mayFragment := true
              identification := identification }
  interface := 0
  target := .ofUInt32 0x0a000002
  frames := [wholeDatagram []]

theorem step_towardsPeer_up (m : Numbering) :
    m.Step (towardsPeer true, [towardsPeerSent (m (towardsPeer true).triple.key)])
      (m.advance (towardsPeer true).triple) := rfl

theorem step_towardsPeer_down (m : Numbering) :
    m.Step (towardsPeer false, []) (m.advance (towardsPeer true).triple) := rfl

theorem wellNumbered_up : ∃ trace m, Run Step (fun _ => 0) trace m ∧ trace.length = 2 ∧
    WellNumbered trace := by
  have hrun := (Run.nil.snoc (step_towardsPeer_up fun _ => 0)).snoc (step_towardsPeer_up _)
  exact ⟨_, _, hrun, rfl, (wellNumbered_iff hrun).2 (by decide)⟩

/-- A datagram lost on an interface that is down leaves a gap: the next one is numbered 2. -/
theorem not_wellNumbered_down : ∃ trace m, Run Step (fun _ => 0) trace m ∧
    onWire (towardsPeer true).triple trace = [[towardsPeerSent 0], [towardsPeerSent 2]] ∧
    ¬ WellNumbered trace := by
  have hrun := ((Run.nil.snoc (step_towardsPeer_up fun _ => 0)).snoc
    (step_towardsPeer_down _)).snoc (step_towardsPeer_up _)
  refine ⟨_, _, hrun, by decide, fun h => ?_⟩
  exact absurd (h.consecutive (towardsPeer true).triple) (by decide)

end Numbering

end SeanetSim
