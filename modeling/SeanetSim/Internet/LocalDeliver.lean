import SeanetSim.Internet.UdpReceive

/-!
# Local delivery

The part of `Ipv4L3Protocol` that packets for this node go through: the test whether an address is
one of the node's (`IsDestinationAddress`) and `LocalDeliver`, which answers a datagram without an
endpoint with an ICMP error.  `Node.localDeliver_quiet_iff` says when a UDP datagram is delivered
without one.
-/

namespace SeanetSim

/-- The fields of the IPv4 header that are read here; packets are not fragments. -/
structure Ipv4Header where
  source : Ipv4Address
  destination : Ipv4Address
  protocol : UInt8

/-- An ICMP port unreachable error: the header and the first eight bytes of the packet it is
about. -/
structure DestUnreachPort where
  header : Ipv4Header
  data : List UInt8

/-- A node with its IPv4 stack.  UDP is the only protocol above IPv4 that counts here;
`hasRouteTo` tells whether `RouteOutput` finds a route. -/
structure Node where
  interfaces : List Ipv4Interface
  weakEsModel : Bool
  udp : Option UdpL4Protocol
  hasRouteTo : Ipv4Address → Bool

/-- What comes of a packet delivered up. -/
structure Delivered where
  forwardedUp : List ForwardUp
  icmp : List DestUnreachPort

namespace Node

variable (node : Node)

def getProtocol (protocolNumber : UInt8) : Option UdpL4Protocol :=
  if protocolNumber = UdpHeader.protNumber then node.udp else none

def getInterface (i : Fin node.interfaces.length) : Ipv4Interface := node.interfaces.get i

/-- The address is one of the interface's, or its broadcast address. -/
def onInterface (interface : Ipv4Interface) (address : Ipv4Address) : Bool :=
  interface.addresses.any fun iaddr =>
    address.same iaddr.localAddress || address.same iaddr.broadcast

def isDestinationAddress (address : Ipv4Address) (iif : Fin node.interfaces.length) : Bool :=
  onInterface (node.getInterface iif) address || address.isMulticast || address.isBroadcast ||
    (node.weakEsModel && (List.finRange node.interfaces.length).any fun j =>
      j != iif && onInterface (node.getInterface j) address)

/-- The destination is a broadcast address of a subnet of the interface. -/
def subnetDirected (interface : Ipv4Interface) (destination : Ipv4Address) : Bool :=
  interface.addresses.any fun addr =>
    (addr.localAddress.combineMask addr.mask).same (destination.combineMask addr.mask) &&
      destination.isSubnetDirectedBroadcast addr.mask

/-- `SendDestUnreachPort`; the message is dropped without a route to the source. -/
def sendDestUnreachPort (header : Ipv4Header) (orgData : List UInt8) : List DestUnreachPort :=
  if node.hasRouteTo header.source then [⟨header, orgData.take 8⟩] else []

/-- The `switch` at the end of `LocalDeliver`. -/
def answer (packet : List UInt8) (ip : Ipv4Header) (iif : Fin node.interfaces.length) :
    RxStatus → List DestUnreachPort
  | .rxOk | .rxCsumFailed => []
  | .rxEndpointUnreach =>
    if ip.destination.isBroadcast || ip.destination.isMulticast then []
    else if subnetDirected (node.getInterface iif) ip.destination then []
    else node.sendDestUnreachPort ip packet

def localDeliver (checksumEnabled : Bool) (packet : List UInt8) (ip : Ipv4Header)
    (iif : Fin node.interfaces.length) : Option Delivered :=
  match node.getProtocol ip.protocol with
  | none => some ⟨[], []⟩
  | some protocol => do
    let (status, up) ←
      protocol.receive checksumEnabled ip.source ip.destination (node.getInterface iif) packet
    some ⟨up, node.answer packet ip iif status⟩

/-- No ICMP error leaves the node for an undeliverable packet with this header. -/
def SuppressesIcmp (ip : Ipv4Header) (iif : Fin node.interfaces.length) : Prop :=
  ip.destination.isBroadcast = true ∨ ip.destination.isMulticast = true ∨
    subnetDirected (node.getInterface iif) ip.destination = true ∨ node.hasRouteTo ip.source = false

section LocalDeliver

variable {node} {checksumEnabled : Bool} {packet rest : List UInt8} {ip : Ipv4Header}
  {iif : Fin node.interfaces.length} {udp : UdpL4Protocol} {uh : UdpHeader}

theorem getProtocol_udp (hprotocol : ip.protocol = UdpHeader.protNumber) :
    node.getProtocol ip.protocol = node.udp := by
  simp [getProtocol, hprotocol]

theorem localDeliver_udp (hprotocol : ip.protocol = UdpHeader.protNumber)
    (hudp : node.udp = some udp) :
    node.localDeliver checksumEnabled packet ip iif =
      (udp.receive checksumEnabled ip.source ip.destination (node.getInterface iif) packet).map
        fun received => ⟨received.2, node.answer packet ip iif received.1⟩ := by
  unfold localDeliver
  rw [getProtocol_udp hprotocol, hudp]
  cases h : udp.receive checksumEnabled ip.source ip.destination (node.getInterface iif) packet with
  | none => simp [h]
  | some received => simp [h]

theorem sendDestUnreachPort_eq_nil_iff (node : Node) (ip : Ipv4Header) (packet : List UInt8) :
    node.sendDestUnreachPort ip packet = [] ↔ node.hasRouteTo ip.source = false := by
  unfold sendDestUnreachPort
  split_ifs with h <;> simp [h]

theorem answer_eq_nil_iff (node : Node) (packet : List UInt8) (ip : Ipv4Header)
    (iif : Fin node.interfaces.length) (status : RxStatus) :
    node.answer packet ip iif status = [] ↔
      status ≠ .rxEndpointUnreach ∨ node.SuppressesIcmp ip iif := by
  cases status with
  | rxOk => simp [answer]
  | rxCsumFailed => simp [answer]
  | rxEndpointUnreach =>
    unfold answer SuppressesIcmp
    rw [← sendDestUnreachPort_eq_nil_iff node ip packet]
    dsimp only
    split_ifs with hcast hsubnet
    · rw [Bool.or_eq_true] at hcast
      tauto
    · simp [hsubnet]
    · rw [Bool.or_eq_true, not_or] at hcast
      simp [hcast.1, hcast.2, hsubnet]

/-- The datagram is delivered, with or without an error: no lookup is ambiguous. -/
theorem localDeliver_isSome_iff (hprotocol : ip.protocol = UdpHeader.protNumber)
    (hudp : node.udp = some udp) (h : UdpHeader.deserialize packet = some (uh, rest)) :
    (node.localDeliver checksumEnabled packet ip iif).isSome ↔
      UdpL4Protocol.BadChecksum checksumEnabled ip.source ip.destination packet ∨
        udp.Finds (UdpL4Protocol.flow ip.source ip.destination uh) (node.getInterface iif) ∨
        udp.FindsNone (UdpL4Protocol.flow ip.source ip.destination uh) (node.getInterface iif) := by
  rw [localDeliver_udp hprotocol hudp, Option.isSome_map, UdpL4Protocol.receive_isSome_iff h]

/-- A datagram is delivered without an ICMP error. -/
theorem localDeliver_quiet_iff (hprotocol : ip.protocol = UdpHeader.protNumber)
    (hudp : node.udp = some udp) (h : UdpHeader.deserialize packet = some (uh, rest)) :
    (∃ up, node.localDeliver checksumEnabled packet ip iif = some ⟨up, []⟩) ↔
      UdpL4Protocol.BadChecksum checksumEnabled ip.source ip.destination packet ∨
        udp.Finds (UdpL4Protocol.flow ip.source ip.destination uh) (node.getInterface iif) ∨
        (udp.FindsNone (UdpL4Protocol.flow ip.source ip.destination uh) (node.getInterface iif) ∧
          node.SuppressesIcmp ip iif) := by
  have hsplit : (∃ up, node.localDeliver checksumEnabled packet ip iif = some ⟨up, []⟩) ↔
      (∃ status up, status ≠ RxStatus.rxEndpointUnreach ∧
        udp.receive checksumEnabled ip.source ip.destination (node.getInterface iif) packet =
          some (status, up)) ∨
      ((∃ up, udp.receive checksumEnabled ip.source ip.destination (node.getInterface iif) packet =
          some (.rxEndpointUnreach, up)) ∧ node.SuppressesIcmp ip iif) := by
    rw [localDeliver_udp hprotocol hudp]
    cases udp.receive checksumEnabled ip.source ip.destination (node.getInterface iif) packet with
    | none => simp
    | some received =>
      obtain ⟨status, up⟩ := received
      have hanswer := answer_eq_nil_iff node packet ip iif status
      cases status <;> simpa using hanswer
  rw [hsplit, UdpL4Protocol.receive_ok_iff h, UdpL4Protocol.receive_unreach_iff h]
  tauto

end LocalDeliver

end Node

end SeanetSim
