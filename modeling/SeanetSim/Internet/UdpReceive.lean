import Mathlib.Tactic.Tauto
import SeanetSim.Internet.UdpHeader
import SeanetSim.Lib.Selection
import SeanetSim.Network.Ipv6Address

/-!
# UDP endpoints

The lookup of an endpoint for a datagram (`Ipv4EndPointDemux::Lookup`, and its twin for IPv6 that a
node with both stacks falls back to) and `UdpL4Protocol::Receive`.  A lookup sorts the endpoints
that match into four classes and returns the most exact one that is not empty; more than one
endpoint in it stops the program.
-/

namespace SeanetSim

/-! ## Interfaces -/

namespace Ipv4Address

def combineMask (a : Ipv4Address) (mask : UInt32) : Ipv4Address := ofUInt32 (a.address &&& mask)

def isSubnetDirectedBroadcast (a : Ipv4Address) (mask : UInt32) : Bool :=
  if mask = 0xffffffff then false else (a.address ||| ~~~ mask) == a.address

end Ipv4Address

structure Ipv4InterfaceAddress where
  localAddress : Ipv4Address
  broadcast : Ipv4Address
  mask : UInt32

structure Ipv4Interface where
  device : ℕ
  addresses : List Ipv4InterfaceAddress

/-! ## Endpoints -/

/-- `Ipv4EndPoint` and `Ipv6EndPoint`. -/
structure EndPoint (A : Type) where
  rxEnabled : Bool
  localAddress : A
  localPort : UInt16
  peerAddress : A
  peerPort : UInt16
  boundNetDevice : Option ℕ

/-- What a lookup finds out about an endpoint that it does not skip. -/
structure EndPointMatch where
  localAddressMatchesExact : Bool
  localAddressMatchesWildCard : Bool
  localAddressMatchesAllRouters : Bool
  remotePortMatchesExact : Bool
  remotePortMatchesWildCard : Bool
  remoteAddressMatchesExact : Bool
  remoteAddressMatchesWildCard : Bool

namespace EndPointMatch

/-- Exact match on all four. -/
def retval4 (m : EndPointMatch) : Bool :=
  m.localAddressMatchesExact && m.remoteAddressMatchesExact && m.remotePortMatchesExact

/-- All but the local address. -/
def retval3 (m : EndPointMatch) : Bool :=
  m.localAddressMatchesWildCard && m.remoteAddressMatchesExact && m.remotePortMatchesExact

/-- Exact on the local port and address. -/
def retval2 (m : EndPointMatch) : Bool :=
  (m.localAddressMatchesExact || m.localAddressMatchesAllRouters) &&
    m.remoteAddressMatchesWildCard && m.remotePortMatchesWildCard

/-- Exact on the local port only. -/
def retval1 (m : EndPointMatch) : Bool :=
  m.localAddressMatchesWildCard && m.remoteAddressMatchesWildCard && m.remotePortMatchesWildCard

end EndPointMatch

/-- The addresses and ports of a datagram, as a lookup gets them. -/
structure Flow (A : Type) where
  daddr : A
  dport : UInt16
  saddr : A
  sport : UInt16

/-- The same ports between the mapped addresses. -/
def Flow.mapped (f : Flow Ipv4Address) : Flow Ipv6Address :=
  { daddr := Ipv6Address.makeIpv4MappedAddress f.daddr
    dport := f.dport
    saddr := Ipv6Address.makeIpv4MappedAddress f.saddr
    sport := f.sport }

/-- The tests both lookups share; `none` where the loop goes on to the next endpoint. -/
def EndPoint.tests {A : Type} (same : A → A → Bool) (any : A) (device : Option ℕ) (f : Flow A)
    (localExact localWildCard localAllRouters : Bool) (endP : EndPoint A) : Option EndPointMatch :=
  let m : EndPointMatch :=
    { localAddressMatchesExact := localExact
      localAddressMatchesWildCard := localWildCard
      localAddressMatchesAllRouters := localAllRouters
      remotePortMatchesExact := endP.peerPort == f.sport
      remotePortMatchesWildCard := endP.peerPort == 0
      remoteAddressMatchesExact := same endP.peerAddress f.saddr
      remoteAddressMatchesWildCard := same endP.peerAddress any }
  if endP.rxEnabled && endP.localPort == f.dport &&
      endP.boundNetDevice.all (fun d => device == some d) &&
      (localExact || localWildCard) &&
      (m.remotePortMatchesExact || m.remotePortMatchesWildCard) &&
      (m.remoteAddressMatchesExact || m.remoteAddressMatchesWildCard) then
    some m
  else none

/-- The end of both lookups: the most exact match, and `NS_ABORT_MSG_IF` on several of them. -/
def mostExact {A : Type} (tests : EndPoint A → Option EndPointMatch)
    (endPoints : List (EndPoint A)) : Option (List (EndPoint A)) :=
  let retval := firstNonempty
    ([EndPointMatch.retval4, EndPointMatch.retval3, EndPointMatch.retval2,
      EndPointMatch.retval1].map fun c => endPoints.filter fun endP => (tests endP).any c)
  if 1 < retval.length then none else some retval

/-- `Ipv4EndPointDemux::Lookup`. -/
def ipv4Lookup (endPoints : List (EndPoint Ipv4Address)) (f : Flow Ipv4Address)
    (incomingInterface : Ipv4Interface) : Option (List (EndPoint Ipv4Address)) :=
  let tests (endP : EndPoint Ipv4Address) :=
    let localExact := endP.localAddress.same f.daddr
    let localAny := !localExact && endP.localAddress.same Ipv4Address.getAny
    let subnetAny := !localExact && !localAny && incomingInterface.addresses.any fun addr =>
      let addrNetpart := addr.localAddress.combineMask addr.mask
      endP.localAddress.same addrNetpart && addrNetpart.same (f.daddr.combineMask addr.mask)
    endP.tests Ipv4Address.same Ipv4Address.getAny (some incomingInterface.device) f localExact
      (localAny || subnetAny) false
  mostExact tests endPoints

/-- `Ipv6EndPointDemux::Lookup`; a missing interface matches no bound endpoint. -/
def ipv6Lookup (endPoints : List (EndPoint Ipv6Address)) (f : Flow Ipv6Address)
    (incomingDevice : Option ℕ) : Option (List (EndPoint Ipv6Address)) :=
  let tests (endP : EndPoint Ipv6Address) :=
    endP.tests (· == ·) Ipv6Address.getAny incomingDevice f (endP.localAddress == f.daddr)
      (endP.localAddress == Ipv6Address.getAny)
      (endP.localAddress == Ipv6Address.getAllRoutersMulticast)
  mostExact tests endPoints

/-- Nothing is found where every endpoint is skipped. -/
theorem mostExact_of_skipped {A : Type} {tests : EndPoint A → Option EndPointMatch}
    {endPoints : List (EndPoint A)} (h : ∀ endP ∈ endPoints, tests endP = none) :
    mostExact tests endPoints = some [] := by
  have hnil : firstNonempty
      ([EndPointMatch.retval4, EndPointMatch.retval3, EndPointMatch.retval2,
        EndPointMatch.retval1].map fun c => endPoints.filter fun endP => (tests endP).any c) =
      [] := by
    rw [firstNonempty_eq_nil_iff]
    intro l hl
    obtain ⟨c, -, rfl⟩ := List.mem_map.1 hl
    apply List.filter_eq_nil_iff.2
    intro endP hmem
    simp [h endP hmem]
  unfold mostExact
  rw [hnil]
  rfl

theorem EndPoint.tests_of_port {A : Type} {same : A → A → Bool} {any : A} {device : Option ℕ}
    {f : Flow A} {localExact localWildCard localAllRouters : Bool} {endP : EndPoint A}
    (h : endP.localPort ≠ f.dport) :
    endP.tests same any device f localExact localWildCard localAllRouters = none := by
  simp [tests, h]

/-- An endpoint on another port takes no datagram. -/
theorem ipv4Lookup_of_port {endPoints : List (EndPoint Ipv4Address)} {f : Flow Ipv4Address}
    (incomingInterface : Ipv4Interface) (h : ∀ endP ∈ endPoints, endP.localPort ≠ f.dport) :
    ipv4Lookup endPoints f incomingInterface = some [] :=
  mostExact_of_skipped fun endP hmem => EndPoint.tests_of_port (h endP hmem)

theorem ipv6Lookup_of_port {endPoints : List (EndPoint Ipv6Address)} {f : Flow Ipv6Address}
    (incomingDevice : Option ℕ) (h : ∀ endP ∈ endPoints, endP.localPort ≠ f.dport) :
    ipv6Lookup endPoints f incomingDevice = some [] :=
  mostExact_of_skipped fun endP hmem => EndPoint.tests_of_port (h endP hmem)

/-- A lookup that returns comes back with one endpoint or with none. -/
theorem mostExact_cases {A : Type} {tests : EndPoint A → Option EndPointMatch}
    {endPoints retval : List (EndPoint A)} (h : mostExact tests endPoints = some retval) :
    retval = [] ∨ ∃ endP, retval = [endP] := by
  unfold mostExact at h
  dsimp only at h
  split_ifs at h with hlen
  cases h
  generalize firstNonempty _ = found at hlen
  match found, hlen with
  | [], _ => exact .inl rfl
  | [endP], _ => exact .inr ⟨endP, rfl⟩
  | endP :: endP' :: found, hlen => simp at hlen

/-! ## `UdpL4Protocol` -/

inductive RxStatus where
  | rxOk
  | rxCsumFailed
  | rxEndpointUnreach
  deriving DecidableEq, Repr

/-- A datagram handed to an endpoint. -/
structure ForwardUp where
  endPoint : EndPoint Ipv4Address ⊕ EndPoint Ipv6Address
  sourcePort : UInt16
  packet : List UInt8

/-- UDP on a node; `hasIpv6` tells whether the node has the IPv6 stack, too. -/
structure UdpL4Protocol where
  endPoints : List (EndPoint Ipv4Address)
  hasIpv6 : Bool
  endPoints6 : List (EndPoint Ipv6Address)

namespace UdpL4Protocol

variable (udp : UdpL4Protocol)

def flow (source destination : Ipv4Address) (uh : UdpHeader) : Flow Ipv4Address :=
  { daddr := destination, dport := uh.destinationPort, saddr := source, sport := uh.sourcePort }

/-- `Receive` for IPv6, as `Receive` for IPv4 calls it: without an interface, and with a mapped
source, for which a wrong checksum does not count. -/
def receiveMapped (source destination : Ipv4Address) (packet : List UInt8) :
    Option (RxStatus × List ForwardUp) := do
  let (uh, rest) ← UdpHeader.deserialize packet
  let found ← ipv6Lookup udp.endPoints6 (flow source destination uh).mapped none
  if found.isEmpty then
    some (.rxEndpointUnreach, [])
  else some (.rxOk, found.map fun endP => ⟨.inr endP, uh.sourcePort, rest⟩)

/-- `Receive`; `checksumEnabled` is `Node::ChecksumEnabled ()`. -/
def receive (checksumEnabled : Bool) (source destination : Ipv4Address)
    (interface : Ipv4Interface) (packet : List UInt8) : Option (RxStatus × List ForwardUp) := do
  let (uh, rest) ← UdpHeader.deserialize packet
  if checksumEnabled && !UdpHeader.isChecksumOk source destination packet then
    some (.rxCsumFailed, [])
  else
    let found ← ipv4Lookup udp.endPoints (flow source destination uh) interface
    if found.isEmpty then
      if udp.hasIpv6 then udp.receiveMapped source destination packet
      else some (.rxEndpointUnreach, [])
    else some (.rxOk, found.map fun endP => ⟨.inl endP, uh.sourcePort, rest⟩)

/-- One endpoint takes the datagram, of IPv4 or, when none of these matches, of IPv6. -/
def Finds (f : Flow Ipv4Address) (interface : Ipv4Interface) : Prop :=
  (∃ endP, ipv4Lookup udp.endPoints f interface = some [endP]) ∨
    (ipv4Lookup udp.endPoints f interface = some [] ∧ udp.hasIpv6 = true ∧
      ∃ endP, ipv6Lookup udp.endPoints6 f.mapped none = some [endP])

/-- No endpoint matches the datagram. -/
def FindsNone (f : Flow Ipv4Address) (interface : Ipv4Interface) : Prop :=
  ipv4Lookup udp.endPoints f interface = some [] ∧
    (udp.hasIpv6 = true → ipv6Lookup udp.endPoints6 f.mapped none = some [])

/-- The checksum is tested and wrong. -/
def BadChecksum (checksumEnabled : Bool) (source destination : Ipv4Address) (packet : List UInt8) :
    Prop :=
  checksumEnabled = true ∧ UdpHeader.isChecksumOk source destination packet = false

section Receive

variable {udp} {checksumEnabled : Bool} {source destination : Ipv4Address}
  {interface : Ipv4Interface} {packet rest : List UInt8} {uh : UdpHeader}

theorem receiveMapped_unreach_iff (h : UdpHeader.deserialize packet = some (uh, rest)) :
    (∃ up, udp.receiveMapped source destination packet = some (.rxEndpointUnreach, up)) ↔
      ipv6Lookup udp.endPoints6 (flow source destination uh).mapped none = some [] := by
  unfold receiveMapped
  rw [h]
  cases hfound : ipv6Lookup udp.endPoints6 (flow source destination uh).mapped none with
  | none => simp [hfound]
  | some found => cases found <;> simp [hfound]

theorem receiveMapped_ok_iff (h : UdpHeader.deserialize packet = some (uh, rest)) :
    (∃ status up, status ≠ RxStatus.rxEndpointUnreach ∧
        udp.receiveMapped source destination packet = some (status, up)) ↔
      ∃ endP, ipv6Lookup udp.endPoints6 (flow source destination uh).mapped none = some [endP] := by
  unfold receiveMapped
  rw [h]
  cases hfound : ipv6Lookup udp.endPoints6 (flow source destination uh).mapped none with
  | none => simp [hfound]
  | some found =>
    rcases mostExact_cases hfound with rfl | ⟨endP, rfl⟩ <;> simp [hfound]

theorem receive_of_badChecksum (h : UdpHeader.deserialize packet = some (uh, rest))
    (hbad : BadChecksum checksumEnabled source destination packet) :
    udp.receive checksumEnabled source destination interface packet =
      some (.rxCsumFailed, []) := by
  unfold receive
  rw [h]
  simp [hbad.1, hbad.2]

theorem receive_of_goodChecksum (h : UdpHeader.deserialize packet = some (uh, rest))
    (hgood : ¬ BadChecksum checksumEnabled source destination packet) :
    udp.receive checksumEnabled source destination interface packet =
      (ipv4Lookup udp.endPoints (flow source destination uh) interface).bind fun found =>
        if found.isEmpty then
          if udp.hasIpv6 then udp.receiveMapped source destination packet
          else some (.rxEndpointUnreach, [])
        else some (.rxOk, found.map fun endP => ⟨.inl endP, uh.sourcePort, rest⟩) := by
  have htest : (checksumEnabled && !UdpHeader.isChecksumOk source destination packet) = false := by
    simpa [BadChecksum] using hgood
  unfold receive
  rw [h]
  simp [htest]

/-- When a datagram comes back as undeliverable. -/
theorem receive_unreach_iff (h : UdpHeader.deserialize packet = some (uh, rest)) :
    (∃ up, udp.receive checksumEnabled source destination interface packet =
        some (.rxEndpointUnreach, up)) ↔
      ¬ BadChecksum checksumEnabled source destination packet ∧
        udp.FindsNone (flow source destination uh) interface := by
  by_cases hbad : BadChecksum checksumEnabled source destination packet
  · simp [receive_of_badChecksum h hbad, hbad]
  rw [receive_of_goodChecksum h hbad]
  unfold FindsNone
  cases hfound : ipv4Lookup udp.endPoints (flow source destination uh) interface with
  | none => simp
  | some found =>
    cases found with
    | cons endP found => simp
    | nil =>
      cases hv6 : udp.hasIpv6 with
      | false => simp [hbad]
      | true => simpa [hbad] using receiveMapped_unreach_iff h

/-- When a datagram stops at UDP without an error. -/
theorem receive_ok_iff (h : UdpHeader.deserialize packet = some (uh, rest)) :
    (∃ status up, status ≠ RxStatus.rxEndpointUnreach ∧
        udp.receive checksumEnabled source destination interface packet = some (status, up)) ↔
      BadChecksum checksumEnabled source destination packet ∨
        udp.Finds (flow source destination uh) interface := by
  by_cases hbad : BadChecksum checksumEnabled source destination packet
  · simp [receive_of_badChecksum h hbad, hbad]
  rw [receive_of_goodChecksum h hbad]
  unfold Finds
  cases hfound : ipv4Lookup udp.endPoints (flow source destination uh) interface with
  | none => simp [hbad]
  | some found =>
    rcases mostExact_cases hfound with rfl | ⟨endP, rfl⟩
    · cases hv6 : udp.hasIpv6 with
      | false => simp [hbad]
      | true => simpa [hbad] using receiveMapped_ok_iff h
    · simp [hbad]

/-- A datagram is received unless a lookup stops the program. -/
theorem receive_isSome_iff (h : UdpHeader.deserialize packet = some (uh, rest)) :
    (udp.receive checksumEnabled source destination interface packet).isSome ↔
      BadChecksum checksumEnabled source destination packet ∨
        udp.Finds (flow source destination uh) interface ∨
        udp.FindsNone (flow source destination uh) interface := by
  have hsplit : (udp.receive checksumEnabled source destination interface packet).isSome ↔
      (∃ status up, status ≠ RxStatus.rxEndpointUnreach ∧
        udp.receive checksumEnabled source destination interface packet = some (status, up)) ∨
      ∃ up, udp.receive checksumEnabled source destination interface packet =
        some (.rxEndpointUnreach, up) := by
    cases udp.receive checksumEnabled source destination interface packet with
    | none => simp
    | some received =>
      obtain ⟨status, up⟩ := received
      cases status <;> simp
  rw [hsplit, receive_ok_iff h, receive_unreach_iff h]
  tauto

end Receive

end UdpL4Protocol

end SeanetSim
