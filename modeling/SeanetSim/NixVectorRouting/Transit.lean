import SeanetSim.Lib.Relay
import SeanetSim.NixVectorRouting.RouteInput

/-!
# Seanet packets in transit

A Seanet packet travels along a path of nodes, each with its own endpoints.  Every node on the way
delivers a marked copy up and forwards the packet (`Hop.visit`).  The copy may find no endpoint, and
then the node answers with an ICMP error unless something keeps it from that: `harmless_iff`.
-/

namespace SeanetSim

open SeanetProtocol

/-- A node on the way, with the interface the packet comes in on. -/
structure Hop where
  node : Node
  iif : Fin node.interfaces.length

/-- What a node does with a packet. -/
structure Visit where
  delivered : List (List UInt8)
  forwarded : Option Ipv4Packet
  icmp : List DestUnreachPort

/-- `dst` in the Seanet header behind the UDP header. -/
def dstMark (packet : List UInt8) : Option UInt8 := do
  let (_, packet) ← UdpHeader.deserialize packet
  let (sh, _) ← SeanetHeader.deserialize packet
  some sh.dst

namespace Hop

/-- `RouteInput` with `LocalDeliver` as the local delivery callback. -/
def visit (checksumEnabled : Bool) (header : Ipv4Header) (h : Hop) (p : Ipv4Packet) :
    Option Visit := do
  let r ← h.node.routeInput p header h.iif false
  let up ← r.delivered.mapM fun packetCopy =>
    h.node.localDeliver checksumEnabled packetCopy header h.iif
  some ⟨r.delivered, r.forwarded, up.flatMap Delivered.icmp⟩

def isDestination (header : Ipv4Header) (h : Hop) : Bool :=
  h.node.isDestinationAddress header.destination h.iif

end Hop

/-- The visits of a packet on its way. -/
def travel (checksumEnabled : Bool) (header : Ipv4Header) (path : List Hop) (p : Ipv4Packet) :
    Option (List Visit) :=
  relay (Hop.visit checksumEnabled header) Visit.forwarded path p

/-- One copy goes up, marked as not at its destination, and the packet goes on as it is. -/
structure InTransit (p : Ipv4Packet) (v : Visit) : Prop where
  delivered : ∃ packetCopy, v.delivered = [packetCopy] ∧ dstMark packetCopy = some notDst
  forwarded : v.forwarded = some p
  icmp : v.icmp = []

/-- One copy goes up, marked as at its destination, and nothing goes on. -/
structure AtDestination (v : Visit) : Prop where
  delivered : ∃ packetCopy, v.delivered = [packetCopy] ∧ dstMark packetCopy = some isDst
  forwarded : v.forwarded = none

/-- The addresses and ports of a datagram. -/
def seanetFlow (header : Ipv4Header) (packet : List UInt8) : Flow Ipv4Address where
  daddr := header.destination
  dport := readNtohU16 (packet.getD 2 0) (packet.getD 3 0)
  saddr := header.source
  sport := sourcePort packet

namespace Hop

/-- Where the node keeps quiet about a copy in transit: UDP drops it for its checksum, one endpoint
takes it, or no endpoint does and no error may be sent. -/
def Quiet (checksumEnabled : Bool) (header : Ipv4Header) (p : Ipv4Packet) (h : Hop) : Prop :=
  ∃ udp, h.node.udp = some udp ∧
    (UdpL4Protocol.BadChecksum checksumEnabled header.source header.destination
        (marked notDst h.iif p.bytes) ∨
      udp.Finds (seanetFlow header p.bytes) (h.node.getInterface h.iif) ∨
      (udp.FindsNone (seanetFlow header p.bytes) (h.node.getInterface h.iif) ∧
        h.node.SuppressesIcmp header h.iif))

/-- No lookup at the destination is ambiguous. -/
def Unambiguous (checksumEnabled : Bool) (header : Ipv4Header) (p : Ipv4Packet) (h : Hop) : Prop :=
  ∃ udp, h.node.udp = some udp ∧
    (UdpL4Protocol.BadChecksum checksumEnabled header.source header.destination
        (marked isDst h.iif p.bytes) ∨
      udp.Finds (seanetFlow header p.bytes) (h.node.getInterface h.iif) ∨
      udp.FindsNone (seanetFlow header p.bytes) (h.node.getInterface h.iif))

end Hop

/-- A Seanet packet with a nix-vector. -/
structure SeanetPacket (header : Ipv4Header) (p : Ipv4Packet) : Prop where
  isSeanet : IsSeanet header p.bytes
  size : 12 ≤ p.bytes.length
  hasNixVector : p.hasNixVector = true

/-! ## The copy -/

section Copy

variable {header : Ipv4Header} {p : Ipv4Packet} (dst : UInt8) (iif : ℕ) {packet : List UInt8}

theorem dstMark_marked (h : 12 ≤ packet.length) : dstMark (marked dst iif packet) = some dst := by
  match packet, h with
  | s₀ :: s₁ :: d₀ :: d₁ :: l₀ :: l₁ :: c₀ :: c₁ :: a :: t :: d :: i :: rest, _ => rfl

/-- The copy has the ports of the packet. -/
theorem deserialize_marked (header : Ipv4Header) (h : 12 ≤ packet.length) :
    ∃ uh rest, UdpHeader.deserialize (marked dst iif packet) = some (uh, rest) ∧
      UdpL4Protocol.flow header.source header.destination uh = seanetFlow header packet := by
  match packet, h with
  | s₀ :: s₁ :: d₀ :: d₁ :: l₀ :: l₁ :: c₀ :: c₁ :: a :: t :: d :: i :: rest, _ =>
    exact ⟨_, _, rfl, rfl⟩

end Copy

/-! ## One node -/

section Visit

variable {checksumEnabled : Bool} {header : Ipv4Header} {p : Ipv4Packet} {h : Hop}

theorem Hop.udp_of_visit {v : Visit} (hv : h.visit checksumEnabled header p = some v) :
    ∃ udp, h.node.udp = some udp := by
  simp only [visit, Option.bind_eq_bind, Option.bind_eq_some_iff] at hv
  obtain ⟨r, hr, -⟩ := hv
  exact (Node.exists_of_routeInput hr).1

theorem SeanetPacket.headerSize (hp : SeanetPacket header p) :
    UdpHeader.getSerializedSize ≤ p.bytes.length :=
  Nat.le_trans (by decide) hp.size

theorem Hop.visit_transit (hp : SeanetPacket header p) (hdest : h.isDestination header = false)
    {udp : UdpL4Protocol} (hudp : h.node.udp = some udp) :
    h.visit checksumEnabled header p =
      (h.node.localDeliver checksumEnabled (marked notDst h.iif p.bytes) header h.iif).map
        fun up => ⟨[marked notDst h.iif p.bytes], some p, up.icmp⟩ := by
  have hr := Node.routeInput_transit_seanet hudp hp.headerSize hdest hp.isSeanet.2 false
  rw [markCopy_eq _ _ hp.size] at hr
  unfold visit
  rw [hr]
  cases hup : h.node.localDeliver checksumEnabled (marked notDst h.iif p.bytes) header h.iif <;>
    simp [hp.hasNixVector, hup]

theorem Hop.visit_destination (hp : SeanetPacket header p) (hdest : h.isDestination header = true)
    {udp : UdpL4Protocol} (hudp : h.node.udp = some udp) :
    h.visit checksumEnabled header p =
      (h.node.localDeliver checksumEnabled (marked isDst h.iif p.bytes) header h.iif).map
        fun up => ⟨[marked isDst h.iif p.bytes], none, up.icmp⟩ := by
  have hr := Node.routeInput_destination hudp hp.headerSize hdest false
  rw [markCopy_eq _ _ hp.size] at hr
  unfold visit
  rw [hr]
  cases hup : h.node.localDeliver checksumEnabled (marked isDst h.iif p.bytes) header h.iif <;>
    simp [hup]

theorem Hop.visit_transit_iff (hp : SeanetPacket header p)
    (hdest : h.isDestination header = false) :
    (∃ v, h.visit checksumEnabled header p = some v ∧ InTransit p v) ↔
      h.Quiet checksumEnabled header p := by
  obtain ⟨uh, rest, huh, hflow⟩ := deserialize_marked notDst h.iif header hp.size
  constructor
  · intro ⟨v, hv, hin⟩
    obtain ⟨udp, hudp⟩ := Hop.udp_of_visit hv
    rw [Hop.visit_transit hp hdest hudp] at hv
    obtain ⟨⟨up, icmp⟩, hdeliver, rfl⟩ := Option.map_eq_some_iff.1 hv
    cases (hin.icmp : icmp = [])
    have hquiet := (Node.localDeliver_quiet_iff hp.isSeanet.1 hudp huh).1 ⟨up, hdeliver⟩
    rw [hflow] at hquiet
    exact ⟨udp, hudp, hquiet⟩
  · intro ⟨udp, hudp, hquiet⟩
    rw [← hflow] at hquiet
    obtain ⟨up, hdeliver⟩ := (Node.localDeliver_quiet_iff hp.isSeanet.1 hudp huh).2 hquiet
    refine ⟨⟨[marked notDst h.iif p.bytes], some p, []⟩, ?_, ?_⟩
    · rw [Hop.visit_transit hp hdest hudp, hdeliver]
      rfl
    · exact ⟨⟨_, rfl, dstMark_marked notDst h.iif hp.size⟩, rfl, rfl⟩

theorem Hop.visit_destination_iff (hp : SeanetPacket header p)
    (hdest : h.isDestination header = true) :
    (∃ v, h.visit checksumEnabled header p = some v ∧ AtDestination v) ↔
      h.Unambiguous checksumEnabled header p := by
  obtain ⟨uh, rest, huh, hflow⟩ := deserialize_marked isDst h.iif header hp.size
  constructor
  · intro ⟨v, hv, _⟩
    obtain ⟨udp, hudp⟩ := Hop.udp_of_visit hv
    rw [Hop.visit_destination hp hdest hudp] at hv
    obtain ⟨up, hdeliver, -⟩ := Option.map_eq_some_iff.1 hv
    have hfound := (Node.localDeliver_isSome_iff hp.isSeanet.1 hudp huh).1 (by rw [hdeliver]; rfl)
    rw [hflow] at hfound
    exact ⟨udp, hudp, hfound⟩
  · intro ⟨udp, hudp, hfound⟩
    rw [← hflow] at hfound
    obtain ⟨up, hdeliver⟩ := Option.isSome_iff_exists.1
      ((Node.localDeliver_isSome_iff hp.isSeanet.1 hudp huh).2 hfound)
    refine ⟨⟨[marked isDst h.iif p.bytes], none, up.icmp⟩, ?_, ?_⟩
    · rw [Hop.visit_destination hp hdest hudp, hdeliver]
      rfl
    · exact ⟨⟨_, rfl, dstMark_marked isDst h.iif hp.size⟩, rfl⟩

/-- A node on the way that has no endpoint on the destination port is not quiet unless no error may
be sent. -/
theorem Hop.not_quiet_of_port {udp : UdpL4Protocol} (hudp : h.node.udp = some udp)
    (hport : ∀ endP ∈ udp.endPoints, endP.localPort ≠ (seanetFlow header p.bytes).dport)
    (hport6 : ∀ endP ∈ udp.endPoints6, endP.localPort ≠ (seanetFlow header p.bytes).dport)
    (hicmp : ¬ h.node.SuppressesIcmp header h.iif) : ¬ h.Quiet false header p := by
  have hnone := ipv4Lookup_of_port (h.node.getInterface h.iif) hport
  have hnone6 : ipv6Lookup udp.endPoints6 (seanetFlow header p.bytes).mapped none = some [] :=
    ipv6Lookup_of_port none hport6
  intro ⟨udp', hudp', hquiet⟩
  rw [hudp, Option.some.injEq] at hudp'
  subst hudp'
  rcases hquiet with hbad | hfinds | ⟨-, hsuppress⟩
  · exact Bool.false_ne_true hbad.1
  · rcases hfinds with ⟨endP, hfound⟩ | ⟨-, -, endP, hfound⟩
    · rw [hnone] at hfound
      cases hfound
    · rw [hnone6] at hfound
      cases hfound
  · exact hicmp hsuppress

end Visit

/-! ## The path -/

/-- The packet passes every node of `path` and ends at `last`. -/
def Harmless (checksumEnabled : Bool) (header : Ipv4Header) (path : List Hop) (last : Hop)
    (p : Ipv4Packet) : Prop :=
  ∃ visits v, travel checksumEnabled header (path ++ [last]) p = some (visits ++ [v]) ∧
    visits.length = path.length ∧ (∀ w ∈ visits, InTransit p w) ∧ AtDestination v

/-- A Seanet packet reaches its destination harmlessly exactly if every node on the way keeps quiet
about its copy and no lookup at the destination is ambiguous. -/
theorem harmless_iff {header : Ipv4Header} {p : Ipv4Packet} {path : List Hop} {last : Hop}
    (hp : SeanetPacket header p) (hpath : ∀ h ∈ path, h.isDestination header = false)
    (hlast : last.isDestination header = true) (checksumEnabled : Bool) :
    Harmless checksumEnabled header path last p ↔
      (∀ h ∈ path, h.Quiet checksumEnabled header p) ∧
        last.Unambiguous checksumEnabled header p := by
  unfold Harmless travel
  rw [relay_iff (fun _ _ hin => hin.forwarded) (fun _ hat => hat.forwarded),
    Hop.visit_destination_iff hp hlast]
  apply and_congr_left'
  apply forall₂_congr
  intro h hmem
  exact Hop.visit_transit_iff hp (hpath h hmem)

/-- A Seanet packet from 10.0.0.2 to 10.0.9.1 that consists of its headers. -/
def headersOnly : Ipv4Packet where
  bytes := [15, 160, 15, 160, 0, 12, 0, 0, 2, 1, 1, 1]
  hasNixVector := true
  size_lt := by decide

def headersOnlyHeader : Ipv4Header :=
  ⟨.ofUInt32 0x0a000002, .ofUInt32 0x0a000901, UdpHeader.protNumber⟩

theorem seanetPacket_headersOnly : SeanetPacket headersOnlyHeader headersOnly :=
  ⟨⟨rfl, rfl⟩, by decide, rfl⟩

/-- An application that is bound to the Seanet port. -/
def seanetEndPoint : EndPoint Ipv4Address :=
  ⟨true, Ipv4Address.getAny, seanetPort, Ipv4Address.getAny, 0, none⟩

def plainHop (address : UInt32) (endPoints : List (EndPoint Ipv4Address)) : Hop :=
  ⟨plainNode address endPoints, ⟨0, Nat.one_pos⟩⟩

/-- Past one node with a Seanet application. -/
theorem harmless_iff_switch :
    Harmless false headersOnlyHeader [plainHop 0x0a000001 [seanetEndPoint]]
      (plainHop 0x0a000901 [seanetEndPoint]) headersOnly := by
  refine (harmless_iff seanetPacket_headersOnly ?_ rfl false).2 ⟨?_, ?_⟩
  · intro h hmem
    cases List.mem_singleton.1 hmem
    rfl
  · intro h hmem
    cases List.mem_singleton.1 hmem
    exact ⟨_, rfl, .inr (.inl (.inl ⟨seanetEndPoint, rfl⟩))⟩
  · exact ⟨_, rfl, .inr (.inl (.inl ⟨seanetEndPoint, rfl⟩))⟩

/-- Past one node without an endpoint, which answers with a port unreachable error. -/
theorem harmful_without_endPoint :
    SeanetPacket headersOnlyHeader headersOnly ∧
      (plainHop 0x0a000001 []).isDestination headersOnlyHeader = false ∧
      (plainHop 0x0a000901 [seanetEndPoint]).isDestination headersOnlyHeader = true ∧
      (∃ v w, travel false headersOnlyHeader
          ([plainHop 0x0a000001 []] ++ [plainHop 0x0a000901 [seanetEndPoint]]) headersOnly =
            some [v, w] ∧
        v.icmp = [⟨headersOnlyHeader, [15, 160, 15, 160, 0, 4, 0, 0]⟩]) ∧
      ¬ Harmless false headersOnlyHeader [plainHop 0x0a000001 []]
        (plainHop 0x0a000901 [seanetEndPoint]) headersOnly := by
  refine ⟨seanetPacket_headersOnly, rfl, rfl, ⟨_, _, rfl, rfl⟩, ?_⟩
  intro ⟨visits, v, hrun, hlength, htransit, _⟩
  match visits, hlength with
  | [w], _ =>
    have hicmp := (htransit w (List.mem_singleton_self w)).icmp
    cases hrun
    cases hicmp

end SeanetSim
