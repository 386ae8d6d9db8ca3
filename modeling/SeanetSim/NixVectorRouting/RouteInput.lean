import SeanetSim.Applications.SeanetHeader
import SeanetSim.Internet.LocalDeliver

/-!
# `Ipv4NixVectorRouting::RouteInput`

A packet that arrives at a node is delivered up, forwarded along its nix-vector, or both: a packet
with the source port of Seanet is forwarded and a copy of it, marked as not at its destination, is
delivered up.  The delivered copy goes through `UdpHeader` and `SeanetHeader_`, which changes its
length field besides the two bytes of the Seanet header that are set (`markCopy_eq`), and nothing
asks whether the packet has these headers: `routeInput_transparent_iff`.
-/

namespace SeanetSim

open SeanetProtocol

/-- A packet without its IPv4 header. -/
structure Ipv4Packet where
  bytes : List UInt8
  hasNixVector : Bool
  size_lt : bytes.length < 2 ^ 16

/-- What a node hands on: to local delivery, with the number of the interface as in `iif`, and to
the next hop. -/
structure Routed where
  delivered : List (List UInt8)
  forwarded : Option Ipv4Packet
  returned : Bool

def seanetPort : UInt16 := 4000

/-- The copy for local delivery, with `Setdst` and `SetInterface` between the removal of the
headers and their return. -/
def markCopy (dst : UInt8) (iif : ℕ) (packet : List UInt8) : Option (List UInt8) := do
  let (uh, packet) ← UdpHeader.deserialize packet
  let (sh, packet) ← SeanetHeader.deserialize packet
  some (uh.addHeader (((sh.setDst dst).setInterface (UInt8.ofNat iif)).serialize ++ packet))

/-- `RouteInput`, up to the lookup of the next hop; `none` is a failed assertion or a call through
a null pointer or callback. -/
def Node.routeInput (node : Node) (p : Ipv4Packet) (header : Ipv4Header)
    (iif : Fin node.interfaces.length) (lcbIsNull : Bool) : Option Routed := do
  let _ ← node.getProtocol 17
  let (uh, _) ← UdpHeader.deserialize p.bytes
  let isSeanet := uh.sourcePort == seanetPort
  if node.isDestinationAddress header.destination iif then
    if lcbIsNull then some ⟨[], none, false⟩
    else
      let packetCopy ← markCopy isDst iif p.bytes
      some ⟨[packetCopy], none, true⟩
  else
    let delivered ←
      if isSeanet then
        if lcbIsNull then none else (markCopy notDst iif p.bytes).map fun packetCopy => [packetCopy]
      else some []
    if p.hasNixVector then some ⟨delivered, some p, true⟩ else none

/-! ## The delivered copy -/

/-- The bytes of `packet` with a new length field and new values of `dst` and of the interface. -/
def marked (dst : UInt8) (iif : ℕ) (packet : List UInt8) : List UInt8 :=
  packet.take 4 ++
    writeHtonU16 (UdpHeader.rewrittenLength (readNtohU16 (packet.getD 4 0) (packet.getD 5 0))
      packet.length) ++
    (packet.drop 6).take 4 ++ [dst, UInt8.ofNat iif] ++ packet.drop 12

theorem markCopy_eq (dst : UInt8) (iif : ℕ) {packet : List UInt8} (h : 12 ≤ packet.length) :
    markCopy dst iif packet = some (marked dst iif packet) := by
  match packet, h with
  | s₀ :: s₁ :: d₀ :: d₁ :: l₀ :: l₁ :: c₀ :: c₁ :: a :: t :: d :: i :: rest, _ =>
    have hcopy := UdpHeader.addHeader_deserialize s₀ s₁ d₀ d₁ l₀ l₁ c₀ c₁
      (a :: t :: dst :: UInt8.ofNat iif :: rest)
    simp only [markCopy, UdpHeader.deserialize, SeanetHeader.deserialize]
    simpa [marked, SeanetHeader.serialize, SeanetHeader.setDst, SeanetHeader.setInterface,
      UdpHeader.getSerializedSize, Nat.add_comm, Nat.add_left_comm] using hcopy

theorem markCopy_isSome_iff (dst : UInt8) (iif : ℕ) (packet : List UInt8) :
    (markCopy dst iif packet).isSome ↔ 12 ≤ packet.length := by
  constructor
  · intro h
    obtain ⟨copy, hcopy⟩ := Option.isSome_iff_exists.1 h
    simp only [markCopy, Option.bind_eq_bind, Option.bind_eq_some_iff] at hcopy
    obtain ⟨⟨uh, udpRest⟩, hudp, ⟨sh, rest⟩, hsh, -⟩ := hcopy
    have h8 := UdpHeader.length_of_deserialize hudp
    have h4 := SeanetHeader.length_of_deserialize hsh
    simp only [UdpHeader.getSerializedSize] at h8 h4
    omega
  · intro h
    rw [markCopy_eq dst iif h]
    rfl

/-- A marked copy is never the packet itself: the length field differs. -/
theorem marked_ne (dst : UInt8) (iif : ℕ) {packet : List UInt8} (h : 12 ≤ packet.length)
    (hlt : packet.length < 2 ^ 16) : marked dst iif packet ≠ packet := by
  match packet, h with
  | s₀ :: s₁ :: d₀ :: d₁ :: l₀ :: l₁ :: rest, h =>
    intro heq
    have hlength : writeHtonU16 (UdpHeader.rewrittenLength (readNtohU16 l₀ l₁)
        (s₀ :: s₁ :: d₀ :: d₁ :: l₀ :: l₁ :: rest).length) = [l₀, l₁] := by
      have h4 := congrArg (fun l => (l.drop 4).take 2) heq
      simpa [marked, writeHtonU16] using h4
    rw [← writeHtonU16_readNtohU16 l₀ l₁] at hlength
    apply UdpHeader.rewrittenLength_ne (readNtohU16 l₀ l₁)
      (Nat.lt_of_lt_of_le (by decide : UdpHeader.getSerializedSize < 12) h) hlt
    exact writeHtonU16_injective hlength

/-! ## Transparency -/

/-- The source port in the place where UDP has it. -/
def sourcePort (packet : List UInt8) : UInt16 := readNtohU16 (packet.getD 0 0) (packet.getD 1 0)

theorem sourcePort_of_deserialize {packet rest : List UInt8} {uh : UdpHeader}
    (h : UdpHeader.deserialize packet = some (uh, rest)) : uh.sourcePort = sourcePort packet := by
  unfold UdpHeader.deserialize at h
  split at h
  · cases h
    rfl
  · cases h

def IsSeanet (header : Ipv4Header) (packet : List UInt8) : Prop :=
  header.protocol = UdpHeader.protNumber ∧ sourcePort packet = seanetPort

/-- Everything that is handed on has the bytes of `p`. -/
def Routed.Unchanged (r : Routed) (p : Ipv4Packet) : Prop :=
  (∀ packetCopy ∈ r.delivered, packetCopy = p.bytes) ∧ ∀ q ∈ r.forwarded, q.bytes = p.bytes

/-- A marked copy among the packets handed on is a change. -/
theorem Routed.Unchanged.notMem_delivered {r : Routed} {p : Ipv4Packet} (h : r.Unchanged p)
    {dst : UInt8} {iif : ℕ} {packetCopy : List UInt8}
    (hmark : markCopy dst iif p.bytes = some packetCopy) : packetCopy ∉ r.delivered := by
  intro hmem
  have h12 := (markCopy_isSome_iff dst iif p.bytes).1 (by rw [hmark]; rfl)
  rw [markCopy_eq dst iif h12, Option.some.injEq] at hmark
  apply marked_ne dst iif h12 p.size_lt
  rw [hmark]
  exact h.1 packetCopy hmem

section Cases

variable {node : Node} {p : Ipv4Packet} {header : Ipv4Header}
  {iif : Fin node.interfaces.length} {udp : UdpL4Protocol}

/-- Without UDP or with a packet that has no room for its header the program stops. -/
theorem Node.exists_of_routeInput {lcbIsNull : Bool} {r : Routed}
    (h : node.routeInput p header iif lcbIsNull = some r) :
    (∃ udp, node.udp = some udp) ∧ UdpHeader.getSerializedSize ≤ p.bytes.length := by
  simp only [routeInput, Option.bind_eq_bind, Option.bind_eq_some_iff] at h
  obtain ⟨udp, hudp, ⟨uh, rest⟩, huh, -⟩ := h
  refine ⟨⟨udp, hudp⟩, ?_⟩
  rw [UdpHeader.length_of_deserialize huh]
  exact Nat.le_add_right _ _

theorem Node.routeInput_destination (hudp : node.udp = some udp)
    (hsize : UdpHeader.getSerializedSize ≤ p.bytes.length)
    (hdest : node.isDestinationAddress header.destination iif = true) (lcbIsNull : Bool) :
    node.routeInput p header iif lcbIsNull =
      if lcbIsNull then some ⟨[], none, false⟩
      else (markCopy isDst iif p.bytes).map fun packetCopy => ⟨[packetCopy], none, true⟩ := by
  obtain ⟨uh, rest, huh⟩ := UdpHeader.exists_deserialize hsize
  have hprotocol : node.getProtocol 17 = some udp := hudp
  unfold routeInput
  rw [hprotocol, huh]
  cases lcbIsNull with
  | true => simp [hdest]
  | false => cases hcopy : markCopy isDst iif p.bytes <;> simp [hdest]

theorem Node.routeInput_transit (hudp : node.udp = some udp)
    (hsize : UdpHeader.getSerializedSize ≤ p.bytes.length)
    (hdest : node.isDestinationAddress header.destination iif = false)
    (hport : sourcePort p.bytes ≠ seanetPort) (lcbIsNull : Bool) :
    node.routeInput p header iif lcbIsNull =
      if p.hasNixVector then some ⟨[], some p, true⟩ else none := by
  obtain ⟨uh, rest, huh⟩ := UdpHeader.exists_deserialize hsize
  have hprotocol : node.getProtocol 17 = some udp := hudp
  rw [← sourcePort_of_deserialize huh] at hport
  unfold routeInput
  rw [hprotocol, huh]
  simp [hdest, hport]

theorem Node.routeInput_transit_seanet (hudp : node.udp = some udp)
    (hsize : UdpHeader.getSerializedSize ≤ p.bytes.length)
    (hdest : node.isDestinationAddress header.destination iif = false)
    (hport : sourcePort p.bytes = seanetPort) (lcbIsNull : Bool) :
    node.routeInput p header iif lcbIsNull =
      if lcbIsNull then none
      else (markCopy notDst iif p.bytes).bind fun packetCopy =>
        if p.hasNixVector then some ⟨[packetCopy], some p, true⟩ else none := by
  obtain ⟨uh, rest, huh⟩ := UdpHeader.exists_deserialize hsize
  have hprotocol : node.getProtocol 17 = some udp := hudp
  rw [← sourcePort_of_deserialize huh] at hport
  unfold routeInput
  rw [hprotocol, huh]
  cases lcbIsNull with
  | true => simp [hdest, hport]
  | false => cases hcopy : markCopy notDst iif p.bytes <;> simp [hdest, hport]

end Cases

/-- `RouteInput` leaves a packet as it is only at a node that is not its destination, and there
only if the two bytes in the place of the source port are not those of 4000.  The protocol of the
packet does not count. -/
theorem Node.routeInput_transparent_iff (node : Node) (p : Ipv4Packet) (header : Ipv4Header)
    (iif : Fin node.interfaces.length) (lcbIsNull : Bool) :
    (∃ r, node.routeInput p header iif lcbIsNull = some r ∧ r.Unchanged p) ↔
      (∃ udp, node.udp = some udp) ∧ UdpHeader.getSerializedSize ≤ p.bytes.length ∧
        if node.isDestinationAddress header.destination iif then lcbIsNull = true
        else p.hasNixVector = true ∧ sourcePort p.bytes ≠ seanetPort := by
  constructor
  · intro ⟨r, hr, hunchanged⟩
    obtain ⟨⟨udp, hudp⟩, hsize⟩ := Node.exists_of_routeInput hr
    refine ⟨⟨udp, hudp⟩, hsize, ?_⟩
    cases hdest : node.isDestinationAddress header.destination iif with
    | true =>
      rw [Node.routeInput_destination hudp hsize hdest] at hr
      cases lcbIsNull with
      | true => rfl
      | false =>
        obtain ⟨packetCopy, hmark, rfl⟩ := Option.map_eq_some_iff.1 hr
        exact absurd (List.mem_singleton_self _) (hunchanged.notMem_delivered hmark)
    | false =>
      by_cases hport : sourcePort p.bytes = seanetPort
      · rw [Node.routeInput_transit_seanet hudp hsize hdest hport] at hr
        cases lcbIsNull with
        | true => cases hr
        | false =>
          obtain ⟨packetCopy, hmark, hr⟩ := Option.bind_eq_some_iff.1 hr
          split_ifs at hr
          cases hr
          exact absurd (List.mem_singleton_self _) (hunchanged.notMem_delivered hmark)
      · rw [Node.routeInput_transit hudp hsize hdest hport] at hr
        split_ifs at hr with hnix
        exact ⟨hnix, hport⟩
  · intro ⟨⟨udp, hudp⟩, hsize, hcond⟩
    cases hdest : node.isDestinationAddress header.destination iif with
    | true =>
      rw [hdest, if_pos rfl] at hcond
      refine ⟨⟨[], none, false⟩, ?_, by simp [Routed.Unchanged]⟩
      rw [Node.routeInput_destination hudp hsize hdest, if_pos hcond]
    | false =>
      rw [hdest, if_neg Bool.false_ne_true] at hcond
      refine ⟨⟨[], some p, true⟩, ?_, by simp [Routed.Unchanged]⟩
      rw [Node.routeInput_transit hudp hsize hdest hcond.2, if_pos hcond.1]

/-- A node with one /24 interface, without IPv6, and with a route to everywhere. -/
def plainNode (address : UInt32) (endPoints : List (EndPoint Ipv4Address)) : Node where
  interfaces := [⟨0, [⟨.ofUInt32 address, .ofUInt32 (address ||| 0xff), 0xffffff00⟩]⟩]
  weakEsModel := true
  udp := some ⟨endPoints, false, []⟩
  hasRouteTo _ := true

/-- A TCP segment without data from port 80, sequence number 1. -/
def tcpSegment : Ipv4Packet where
  bytes := [0, 80, 192, 1, 0, 0, 0, 1, 0, 0, 0, 0, 80, 16, 255, 255, 0, 0, 0, 0]
  hasNixVector := true
  size_lt := by decide

def tcpSegmentHeader : Ipv4Header := ⟨.ofUInt32 0x0a000002, .ofUInt32 0x0a000001, 6⟩

/-- At its destination the segment gets another sequence number and another acknowledgment
number. -/
theorem Node.routeInput_changes_tcpSegment :
    ¬ IsSeanet tcpSegmentHeader tcpSegment.bytes ∧
      ∃ r, (plainNode 0x0a000001 []).routeInput tcpSegment tcpSegmentHeader ⟨0, by decide⟩ false =
          some r ∧
        r.delivered = [[0, 80, 192, 1, 255, 248, 0, 1, 0, 0, 1, 0, 80, 16, 255, 255, 0, 0, 0, 0]] ∧
        ¬ r.Unchanged tcpSegment := by
  refine ⟨fun h => absurd h.1 (by decide), _, rfl, rfl, ?_⟩
  intro h
  exact absurd (h.1 _ (List.mem_singleton_self _)) (by decide)

end SeanetSim
