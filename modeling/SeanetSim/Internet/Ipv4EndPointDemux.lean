import SeanetSim.Internet.UdpReceive
import SeanetSim.Lib.Run

/-!
# The table of endpoints

`Ipv4EndPointDemux` allocates endpoints, on a port that is asked for or on an ephemeral one.  The
search for an ephemeral port ends and misses no free one (`allocateEphemeralPort_spec`).  A lookup
stops the program when several endpoints are the most exact match; `Competes` says which pairs of
endpoints can come to that, and without such a pair every lookup finds at most one endpoint
(`ipv4Lookup_unambiguous`).
-/

namespace SeanetSim

/-- The constructor of `Ipv4EndPoint`. -/
def EndPoint.create (address : Ipv4Address) (port : UInt16) : EndPoint Ipv4Address where
  rxEnabled := true
  localAddress := address
  localPort := port
  peerAddress := Ipv4Address.getAny
  peerPort := 0
  boundNetDevice := none

def EndPoint.setPeer {A : Type} (endP : EndPoint A) (address : A) (port : UInt16) : EndPoint A :=
  { endP with peerAddress := address, peerPort := port }

def EndPoint.bindToNetDevice {A : Type} (endP : EndPoint A) (netdevice : Option ℕ) : EndPoint A :=
  { endP with boundNetDevice := netdevice }

structure Ipv4EndPointDemux where
  endPoints : List (EndPoint Ipv4Address)
  ephemeral : UInt16

namespace Ipv4EndPointDemux

/-- `m_portFirst` and `m_portLast`, which only the constructor sets. -/
def portFirst : UInt16 := 49152

def portLast : UInt16 := 65535

def create : Ipv4EndPointDemux := ⟨[], 49152⟩

/-- The port that the search for an ephemeral port tries after this one. -/
def nextPort (port : UInt16) : UInt16 :=
  let port := port + 1
  if port < portFirst ∨ portLast < port then portFirst else port

section Code

variable (d : Ipv4EndPointDemux)

def lookupPortLocal (port : UInt16) : Bool := d.endPoints.any fun endP => endP.localPort == port

def lookupLocal (boundNetDevice : Option ℕ) (addr : Ipv4Address) (port : UInt16) : Bool :=
  d.endPoints.any fun endP =>
    endP.localPort == port && endP.localAddress.same addr && endP.boundNetDevice == boundNetDevice

/-- The loop of `AllocateEphemeralPort`: it gives up when `count` is negative, and `tries` is
`count + 1`. -/
def ephemeralLoop : ℕ → UInt16 → Option UInt16
  | 0, _ => none
  | tries + 1, port =>
    let port := nextPort port
    if d.lookupPortLocal port then ephemeralLoop tries port else some port

/-- The port, which is 0 where none is free. -/
def allocateEphemeralPort : UInt16 × Ipv4EndPointDemux :=
  match d.ephemeralLoop (portLast.toNat - portFirst.toNat + 1) d.ephemeral with
  | none => (0, d)
  | some port => (port, { d with ephemeral := port })

/-- A new endpoint at the end of the list. -/
def push (endP : EndPoint Ipv4Address) : Ipv4EndPointDemux :=
  { d with endPoints := d.endPoints ++ [endP] }

/-! `Allocate`, with its arguments; none where it returns no endpoint. -/

def allocateAddress (address : Ipv4Address) : Option Ipv4EndPointDemux :=
  let (port, d) := d.allocateEphemeralPort
  if port = 0 then none else some (d.push (.create address port))

def allocate : Option Ipv4EndPointDemux := d.allocateAddress Ipv4Address.getAny

def allocateLocal (boundNetDevice : Option ℕ) (address : Ipv4Address) (port : UInt16) :
    Option Ipv4EndPointDemux :=
  if d.lookupLocal boundNetDevice address port || d.lookupLocal none address port then none
  else some (d.push (.create address port))

def allocatePort (boundNetDevice : Option ℕ) (port : UInt16) : Option Ipv4EndPointDemux :=
  d.allocateLocal boundNetDevice Ipv4Address.getAny port

def allocatePeer (boundNetDevice : Option ℕ) (localAddress : Ipv4Address) (localPort : UInt16)
    (peerAddress : Ipv4Address) (peerPort : UInt16) : Option Ipv4EndPointDemux :=
  if d.endPoints.any fun endP =>
      endP.localPort == localPort && endP.localAddress.same localAddress &&
      endP.peerPort == peerPort && endP.peerAddress.same peerAddress &&
      (endP.boundNetDevice == boundNetDevice || endP.boundNetDevice == none) then none
  else some (d.push ((EndPoint.create localAddress localPort).setPeer peerAddress peerPort))

end Code

/-- What is done to a table; an endpoint is designated by its place in the list. -/
inductive Call
  | allocate
  | allocateAddress (address : Ipv4Address)
  | allocatePort (boundNetDevice : Option ℕ) (port : UInt16)
  | allocateLocal (boundNetDevice : Option ℕ) (address : Ipv4Address) (port : UInt16)
  | allocatePeer (boundNetDevice : Option ℕ) (localAddress : Ipv4Address) (localPort : UInt16)
      (peerAddress : Ipv4Address) (peerPort : UInt16)
  | bindToNetDevice (i : ℕ) (netdevice : Option ℕ)
  | setPeer (i : ℕ) (address : Ipv4Address) (port : UInt16)

/-- A call that succeeds. -/
def call (d : Ipv4EndPointDemux) : Call → Option Ipv4EndPointDemux
  | .allocate => d.allocate
  | .allocateAddress address => d.allocateAddress address
  | .allocatePort boundNetDevice port => d.allocatePort boundNetDevice port
  | .allocateLocal boundNetDevice address port => d.allocateLocal boundNetDevice address port
  | .allocatePeer boundNetDevice localAddress localPort peerAddress peerPort =>
    d.allocatePeer boundNetDevice localAddress localPort peerAddress peerPort
  | .bindToNetDevice i netdevice =>
    some { d with endPoints := d.endPoints.modify i (·.bindToNetDevice netdevice) }
  | .setPeer i address port =>
    some { d with endPoints := d.endPoints.modify i (·.setPeer address port) }

/-! ## Ephemeral ports -/

section Ephemeral

variable {d : Ipv4EndPointDemux} {port : UInt16}

theorem lookupPortLocal_iff :
    d.lookupPortLocal port = true ↔ ∃ endP ∈ d.endPoints, endP.localPort = port := by
  simp [lookupPortLocal]

theorem toNat_nextPort (port : UInt16) :
    (nextPort port).toNat =
      if port.toNat + 1 < 49152 ∨ port.toNat = 65535 then 49152 else port.toNat + 1 := by
  have hlt : port.toNat < 65536 := port.toNat_lt
  have hadd : (port + 1).toNat = (port.toNat + 1) % 65536 := UInt16.toNat_add _ _
  have hout : (port + 1 < portFirst ∨ portLast < port + 1) ↔
      (port.toNat + 1) % 65536 < 49152 := by
    rw [UInt16.lt_iff_toNat_lt, UInt16.lt_iff_toNat_lt, hadd]
    change _ < 49152 ∨ 65535 < _ ↔ _
    omega
  unfold nextPort
  dsimp only
  by_cases h : (port.toNat + 1) % 65536 < 49152
  · rw [if_pos (hout.2 h), if_pos (by omega)]
    rfl
  · rw [if_neg (mt hout.1 h), if_neg (by omega), hadd]
    omega

/-- From the first port on, the ports that are tried go round the ephemeral range. -/
theorem toNat_iterate_nextPort (port : UInt16) (i : ℕ) :
    (nextPort^[i + 1] port).toNat =
      49152 + ((nextPort port).toNat - 49152 + i) % 16384 := by
  have hlt : port.toNat < 65536 := port.toNat_lt
  have hfirst := toNat_nextPort port
  induction i with
  | zero =>
    rw [Function.iterate_one]
    split_ifs at hfirst <;> omega
  | succ i ih =>
    rw [Function.iterate_succ_apply', toNat_nextPort, ih]
    split_ifs <;> omega

/-- Every port of the range is tried. -/
theorem exists_iterate_nextPort (start : UInt16) (hport : portFirst ≤ port) :
    ∃ i < 16384, nextPort^[i + 1] start = port := by
  have hlt : port.toNat < 65536 := port.toNat_lt
  rw [UInt16.le_iff_toNat_le] at hport
  change 49152 ≤ _ at hport
  have hfirst := toNat_nextPort start
  have hstart : start.toNat < 65536 := start.toNat_lt
  refine ⟨(port.toNat + 16384 - (nextPort start).toNat) % 16384, Nat.mod_lt _ (by decide), ?_⟩
  rw [← UInt16.toNat_inj, toNat_iterate_nextPort]
  split_ifs at hfirst <;> omega

theorem ephemeralLoop_none {tries : ℕ} :
    d.ephemeralLoop tries port = none ↔
      ∀ i < tries, d.lookupPortLocal (nextPort^[i + 1] port) = true := by
  induction tries generalizing port with
  | zero => simp [ephemeralLoop]
  | succ tries ih =>
    rw [ephemeralLoop]
    split_ifs with hused
    · rw [ih]
      constructor
      · intro h i hi
        cases i with
        | zero => exact hused
        | succ i => exact h i (Nat.lt_of_succ_lt_succ hi)
      · exact fun h i hi => h (i + 1) (Nat.succ_lt_succ hi)
    · exact iff_of_false (by simp) fun h => hused (h 0 (Nat.succ_pos _))

theorem ephemeralLoop_some {tries : ℕ} {found : UInt16}
    (h : d.ephemeralLoop tries port = some found) :
    d.lookupPortLocal found = false ∧ ∃ i, nextPort^[i + 1] port = found := by
  induction tries generalizing port with
  | zero => cases h
  | succ tries ih =>
    rw [ephemeralLoop] at h
    split_ifs at h with hused
    · obtain ⟨hfree, i, hi⟩ := ih h
      exact ⟨hfree, i + 1, hi⟩
    · cases h
      exact ⟨Bool.eq_false_of_not_eq_true hused, 0, rfl⟩

theorem portFirst_le_iterate (port : UInt16) (i : ℕ) : portFirst ≤ nextPort^[i + 1] port := by
  rw [UInt16.le_iff_toNat_le, toNat_iterate_nextPort]
  exact Nat.le_add_right _ _

theorem le_portLast (port : UInt16) : port ≤ portLast := by
  rw [UInt16.le_iff_toNat_le]
  exact Nat.le_of_lt_succ port.toNat_lt

/-- Wherever the search starts, it ends with a port of the ephemeral range that no endpoint uses,
or with 0 where every port of the range is used. -/
theorem allocateEphemeralPort_spec (d : Ipv4EndPointDemux) :
    (d.allocateEphemeralPort.1 = 0 ↔
      ∀ port, portFirst ≤ port → port ≤ portLast → ∃ endP ∈ d.endPoints, endP.localPort = port) ∧
    (d.allocateEphemeralPort.1 ≠ 0 →
      portFirst ≤ d.allocateEphemeralPort.1 ∧ d.allocateEphemeralPort.1 ≤ portLast ∧
      ∀ endP ∈ d.endPoints, endP.localPort ≠ d.allocateEphemeralPort.1) := by
  have htries : portLast.toNat - portFirst.toNat + 1 = 16384 := by decide
  unfold allocateEphemeralPort
  rw [htries]
  cases hloop : d.ephemeralLoop 16384 d.ephemeral with
  | none =>
    refine ⟨iff_of_true rfl fun port hport _ => ?_, fun h => absurd rfl h⟩
    obtain ⟨i, hi, rfl⟩ := exists_iterate_nextPort d.ephemeral hport
    exact lookupPortLocal_iff.1 (ephemeralLoop_none.1 hloop i hi)
  | some port =>
    obtain ⟨hfree, i, hi⟩ := ephemeralLoop_some hloop
    have hfirst : portFirst ≤ port := hi ▸ portFirst_le_iterate d.ephemeral i
    have hunused : ∀ endP ∈ d.endPoints, endP.localPort ≠ port := fun endP hmem heq => by
      rw [lookupPortLocal_iff.2 ⟨endP, hmem, heq⟩] at hfree
      cases hfree
    refine ⟨iff_of_false ?_ fun h => ?_, fun _ => ⟨hfirst, le_portLast port, hunused⟩⟩
    · rintro rfl
      exact absurd hfirst (by decide)
    · obtain ⟨endP, hmem, heq⟩ := h port hfirst (le_portLast port)
      exact hunused endP hmem heq

end Ephemeral

/-! ## The lookup -/

/-- A destination that is neither a broadcast nor a multicast address on the interface. -/
def Unicast (interface : Ipv4Interface) (daddr : Ipv4Address) : Prop :=
  daddr.isBroadcast = false ∧ daddr.isMulticast = false ∧
    ∀ addr ∈ interface.addresses, daddr.same addr.broadcast = false

/-- A local address that stands for another destination: it is `Any`, or the network of an address
of the interface. -/
def StandsFor (interface : Ipv4Interface) (localAddress daddr : Ipv4Address) : Prop :=
  localAddress.address ≠ daddr.address ∧
    (localAddress.address = 0 ∨ ∃ addr ∈ interface.addresses,
      localAddress.address = addr.localAddress.address &&& addr.mask ∧
      localAddress.address = daddr.address &&& addr.mask)

/-- The endpoint takes packets on a port from an interface. -/
structure Receives (interface : Ipv4Interface) (port : UInt16) (endP : EndPoint Ipv4Address) :
    Prop where
  rxEnabled : endP.rxEnabled = true
  localPort : endP.localPort = port
  device : ∀ dev ∈ endP.boundNetDevice, dev = interface.device

def HasPeer (address : Ipv4Address) (port : UInt16) (endP : EndPoint Ipv4Address) : Prop :=
  endP.peerAddress.address = address.address ∧ endP.peerPort = port

section Lookup

variable {f : Flow Ipv4Address} {interface : Ipv4Interface} {endP endP' : EndPoint Ipv4Address}
  {endPoints : List (EndPoint Ipv4Address)}

/-- What a lookup finds out about an endpoint, whether it skips it or not. -/
def lookupMatch (f : Flow Ipv4Address) (interface : Ipv4Interface) (endP : EndPoint Ipv4Address) :
    EndPointMatch :=
  let localExact := endP.localAddress.same f.daddr
  let localAny := !localExact && endP.localAddress.same Ipv4Address.getAny
  let subnetAny := !localExact && !localAny && interface.addresses.any fun addr =>
    let addrNetpart := addr.localAddress.combineMask addr.mask
    endP.localAddress.same addrNetpart && addrNetpart.same (f.daddr.combineMask addr.mask)
  { localAddressMatchesExact := localExact
    localAddressMatchesWildCard := localAny || subnetAny
    localAddressMatchesAllRouters := false
    remotePortMatchesExact := endP.peerPort == f.sport
    remotePortMatchesWildCard := endP.peerPort == 0
    remoteAddressMatchesExact := endP.peerAddress.same f.saddr
    remoteAddressMatchesWildCard := endP.peerAddress.same Ipv4Address.getAny }

/-- The tests of `ipv4Lookup`. -/
def lookupTests (f : Flow Ipv4Address) (interface : Ipv4Interface) (endP : EndPoint Ipv4Address) :
    Option EndPointMatch :=
  let m := lookupMatch f interface endP
  endP.tests Ipv4Address.same Ipv4Address.getAny (some interface.device) f
    m.localAddressMatchesExact m.localAddressMatchesWildCard false

theorem ipv4Lookup_eq : ipv4Lookup endPoints f interface =
    mostExact (lookupTests f interface) endPoints := rfl

structure Tested (f : Flow Ipv4Address) (interface : Ipv4Interface) (endP : EndPoint Ipv4Address)
    (m : EndPointMatch) : Prop where
  localExact : m.localAddressMatchesExact = true ↔ endP.localAddress.address = f.daddr.address
  localWildCard : m.localAddressMatchesWildCard = true ↔
    StandsFor interface endP.localAddress f.daddr
  allRouters : m.localAddressMatchesAllRouters = false
  portExact : m.remotePortMatchesExact = true ↔ endP.peerPort = f.sport
  portWildCard : m.remotePortMatchesWildCard = true ↔ endP.peerPort = 0
  addressExact : m.remoteAddressMatchesExact = true ↔ endP.peerAddress.address = f.saddr.address
  addressWildCard : m.remoteAddressMatchesWildCard = true ↔ endP.peerAddress.address = 0

theorem tested_lookupMatch (f : Flow Ipv4Address) (interface : Ipv4Interface)
    (endP : EndPoint Ipv4Address) : Tested f interface endP (lookupMatch f interface endP) := by
  refine ⟨Ipv4Address.same_iff, ?_, rfl, beq_iff_eq, beq_iff_eq, Ipv4Address.same_iff,
    Ipv4Address.same_iff⟩
  have hnet : ∀ addr : Ipv4InterfaceAddress,
      (endP.localAddress.address = addr.localAddress.address &&& addr.mask ∧
        addr.localAddress.address &&& addr.mask = f.daddr.address &&& addr.mask) ↔
      (endP.localAddress.address = addr.localAddress.address &&& addr.mask ∧
        endP.localAddress.address = f.daddr.address &&& addr.mask) := fun addr =>
    and_congr_right fun h => by rw [h]
  simp only [lookupMatch, Ipv4Address.same, Ipv4Address.getAny, Ipv4Address.combineMask,
    Ipv4Address.ofUInt32, Bool.or_eq_true, Bool.and_eq_true, Bool.not_eq_true', beq_iff_eq,
    beq_eq_false_iff_ne, List.any_eq_true, Bool.and_eq_false_iff, Bool.not_eq_false', hnet,
    StandsFor]
  tauto

/-- An endpoint is in a class that asks for a match of each part. -/
theorem lookupTests_any {c : EndPointMatch → Bool} {p : Prop}
    (hc : ∀ m, Tested f interface endP m → (c m = true ↔ p))
    (hlocal : p → endP.localAddress.address = f.daddr.address ∨
      StandsFor interface endP.localAddress f.daddr)
    (hpeer : p → HasPeer f.saddr f.sport endP ∨ HasPeer Ipv4Address.getAny 0 endP) :
    (lookupTests f interface endP).any c = true ↔ Receives interface f.dport endP ∧ p := by
  have ht := tested_lookupMatch f interface endP
  have hdevice : endP.boundNetDevice.all (fun dev => some interface.device == some dev) = true ↔
      ∀ dev ∈ endP.boundNetDevice, dev = interface.device := by
    cases endP.boundNetDevice with
    | none => simp
    | some dev =>
      simp only [Option.all_some, beq_iff_eq, Option.some.injEq, Option.mem_def, forall_eq']
      exact eq_comm
  rw [← hc _ ht] at hlocal hpeer ⊢
  unfold lookupTests EndPoint.tests
  change Option.any c (if _ then some (lookupMatch f interface endP) else none) = true ↔ _
  split_ifs with htests
  · simp only [Bool.and_eq_true, beq_iff_eq, hdevice] at htests
    obtain ⟨⟨⟨⟨⟨hrx, hport⟩, hdev⟩, -⟩, -⟩, -⟩ := htests
    exact (and_iff_right ⟨hrx, hport, hdev⟩).symm
  · refine iff_of_false (by simp) fun ⟨hrec, hclass⟩ => htests ?_
    simp only [Bool.and_eq_true, beq_iff_eq, hdevice]
    refine ⟨⟨⟨⟨⟨hrec.rxEnabled, hrec.localPort⟩, hrec.device⟩, ?_⟩, ?_⟩, ?_⟩
    · rw [Bool.or_eq_true, ht.localExact, ht.localWildCard]
      exact hlocal hclass
    · have hport := (hpeer hclass).imp And.right And.right
      simpa using hport
    · have haddr := (hpeer hclass).imp And.left And.left
      simpa [Ipv4Address.same, Ipv4Address.getAny] using haddr

theorem retval4_iff : (lookupTests f interface endP).any EndPointMatch.retval4 = true ↔
    Receives interface f.dport endP ∧ endP.localAddress.address = f.daddr.address ∧
      HasPeer f.saddr f.sport endP := by
  refine lookupTests_any (fun m hm => ?_) (fun h => .inl h.1) fun h => .inl h.2
  simp only [EndPointMatch.retval4, Bool.and_eq_true, hm.localExact, hm.addressExact, hm.portExact,
    HasPeer, and_assoc]

theorem retval3_iff : (lookupTests f interface endP).any EndPointMatch.retval3 = true ↔
    Receives interface f.dport endP ∧ StandsFor interface endP.localAddress f.daddr ∧
      HasPeer f.saddr f.sport endP := by
  refine lookupTests_any (fun m hm => ?_) (fun h => .inr h.1) fun h => .inl h.2
  simp only [EndPointMatch.retval3, Bool.and_eq_true, hm.localWildCard, hm.addressExact,
    hm.portExact, HasPeer, and_assoc]

theorem retval2_iff : (lookupTests f interface endP).any EndPointMatch.retval2 = true ↔
    Receives interface f.dport endP ∧ endP.localAddress.address = f.daddr.address ∧
      HasPeer Ipv4Address.getAny 0 endP := by
  refine lookupTests_any (fun m hm => ?_) (fun h => .inl h.1) fun h => .inr h.2
  simp only [EndPointMatch.retval2, Bool.and_eq_true, Bool.or_eq_true, hm.localExact, hm.allRouters,
    hm.addressWildCard, hm.portWildCard, HasPeer, Bool.false_eq_true, or_false, and_assoc]
  rfl

theorem retval1_iff : (lookupTests f interface endP).any EndPointMatch.retval1 = true ↔
    Receives interface f.dport endP ∧ StandsFor interface endP.localAddress f.daddr ∧
      HasPeer Ipv4Address.getAny 0 endP := by
  refine lookupTests_any (fun m hm => ?_) (fun h => .inr h.1) fun h => .inr h.2
  simp only [EndPointMatch.retval1, Bool.and_eq_true, hm.localWildCard, hm.addressWildCard,
    hm.portWildCard, HasPeer, and_assoc]
  rfl

theorem ipv4Lookup_short_iff :
    (∃ retval, ipv4Lookup endPoints f interface = some retval ∧ retval.length ≤ 1) ↔
      (firstNonempty ([EndPointMatch.retval4, EndPointMatch.retval3, EndPointMatch.retval2,
        EndPointMatch.retval1].map fun c =>
          endPoints.filter fun endP => (lookupTests f interface endP).any c)).length ≤ 1 := by
  rw [ipv4Lookup_eq]
  unfold mostExact
  dsimp only
  split_ifs with hlong
  · exact iff_of_false (by simp) (Nat.not_le_of_lt hlong)
  · exact iff_of_true ⟨_, rfl, Nat.le_of_not_lt hlong⟩ (Nat.le_of_not_lt hlong)

end Lookup

/-! ## Endpoints that compete -/

/-- Two endpoints that have one peer and take packets on one port from the interface, to a
destination that is the local address of both, or that both stand for. -/
structure CompeteFor (interface : Ipv4Interface) (daddr : Ipv4Address)
    (endP endP' : EndPoint Ipv4Address) : Prop where
  receives : Receives interface endP.localPort endP
  receives' : Receives interface endP.localPort endP'
  peer : HasPeer endP.peerAddress endP.peerPort endP'
  localAddress :
    (endP.localAddress.address = daddr.address ∧ endP'.localAddress.address = daddr.address) ∨
      (StandsFor interface endP.localAddress daddr ∧ StandsFor interface endP'.localAddress daddr)

/-- The endpoints compete for some unicast destination. -/
def Competes (interfaces : Set Ipv4Interface) (endP endP' : EndPoint Ipv4Address) : Prop :=
  ∃ interface ∈ interfaces, ∃ daddr, Unicast interface daddr ∧ CompeteFor interface daddr endP endP'

/-- They compete for one, and if it is not their local address, no endpoint with this peer has
it. -/
def Contends (interfaces : Set Ipv4Interface) (endPoints : List (EndPoint Ipv4Address))
    (endP endP' : EndPoint Ipv4Address) : Prop :=
  ∃ interface ∈ interfaces, ∃ daddr, Unicast interface daddr ∧
    CompeteFor interface daddr endP endP' ∧
    (StandsFor interface endP.localAddress daddr → ∀ other ∈ endPoints,
      Receives interface endP.localPort other → HasPeer endP.peerAddress endP.peerPort other →
      other.localAddress.address ≠ daddr.address)

section Compete

variable {interfaces : Set Ipv4Interface} {interface : Ipv4Interface} {daddr : Ipv4Address}
  {endP endP' : EndPoint Ipv4Address} {endPoints : List (EndPoint Ipv4Address)}

theorem HasPeer.of_same {address address' : Ipv4Address} {port port' : UInt16}
    (h : HasPeer address port endP) (h' : HasPeer address port endP')
    (hself : HasPeer address' port' endP) : HasPeer address' port' endP' :=
  ⟨h'.1.trans (h.1.symm.trans hself.1), h'.2.trans (h.2.symm.trans hself.2)⟩

theorem hasPeer_self : HasPeer endP.peerAddress endP.peerPort endP := ⟨rfl, rfl⟩

theorem CompeteFor.symm (h : CompeteFor interface daddr endP endP') :
    CompeteFor interface daddr endP' endP := by
  have hport := h.receives'.localPort
  exact ⟨hport ▸ h.receives', hport ▸ h.receives, h.peer.of_same hasPeer_self hasPeer_self,
    h.localAddress.imp And.symm And.symm⟩

theorem Competes.symm (h : Competes interfaces endP endP') : Competes interfaces endP' endP := by
  obtain ⟨interface, hinterface, daddr, hdaddr, hcompete⟩ := h
  exact ⟨interface, hinterface, daddr, hdaddr, hcompete.symm⟩

theorem Contends.competes (h : Contends interfaces endPoints endP endP') :
    Competes interfaces endP endP' := by
  obtain ⟨interface, hinterface, daddr, hdaddr, hcompete, -⟩ := h
  exact ⟨interface, hinterface, daddr, hdaddr, hcompete⟩

/-- Two endpoints that take a packet with one local match and one peer compete for it. -/
theorem competeFor_of_same {f : Flow Ipv4Address} {address : Ipv4Address} {port : UInt16}
    (hrec : Receives interface f.dport endP) (hrec' : Receives interface f.dport endP')
    (hpeer : HasPeer address port endP) (hpeer' : HasPeer address port endP')
    (hlocal : (endP.localAddress.address = f.daddr.address ∧
        endP'.localAddress.address = f.daddr.address) ∨
      (StandsFor interface endP.localAddress f.daddr ∧
        StandsFor interface endP'.localAddress f.daddr)) :
    CompeteFor interface f.daddr endP endP' := by
  have hport := hrec.localPort
  exact ⟨hport ▸ hrec, hport ▸ hrec', hpeer.of_same hpeer' hasPeer_self, hlocal⟩

/-- The endpoints of a class of `Lookup`. -/
def lookupClass (endPoints : List (EndPoint Ipv4Address)) (f : Flow Ipv4Address)
    (interface : Ipv4Interface) (c : EndPointMatch → Bool) : List (EndPoint Ipv4Address) :=
  endPoints.filter fun endP => (lookupTests f interface endP).any c

section Classes

variable {f : Flow Ipv4Address} {address : Ipv4Address} {port : UInt16}
  {c c' : EndPointMatch → Bool}

theorem not_lookupClass_short (hsub : [endP, endP'].Sublist endPoints)
    (hc : (lookupTests f interface endP).any c = true)
    (hc' : (lookupTests f interface endP').any c = true) :
    ¬ (lookupClass endPoints f interface c).length ≤ 1 := fun hle =>
  List.pairwise_iff_forall_sublist.1 (length_filter_le_one_iff.1 hle) hsub ⟨hc, hc'⟩

variable (hpairs : endPoints.Pairwise fun endP endP' => ¬ Contends interfaces endPoints endP endP')
  (hinterface : interface ∈ interfaces) (hdaddr : Unicast interface f.daddr)

include hpairs hinterface hdaddr

/-- A class for the local address itself. -/
theorem lookupClass_exact_short
    (hc : ∀ endP, (lookupTests f interface endP).any c = true ↔ Receives interface f.dport endP ∧
      endP.localAddress.address = f.daddr.address ∧ HasPeer address port endP) :
    (lookupClass endPoints f interface c).length ≤ 1 := by
  refine length_filter_le_one_iff.2 (hpairs.imp fun {endP endP'} hnot hboth => ?_)
  obtain ⟨hrec, hlocal, hpeer⟩ := (hc endP).1 hboth.1
  obtain ⟨hrec', hlocal', hpeer'⟩ := (hc endP').1 hboth.2
  exact hnot ⟨interface, hinterface, f.daddr, hdaddr,
    competeFor_of_same hrec hrec' hpeer hpeer' (.inl ⟨hlocal, hlocal'⟩),
    fun hstands => absurd hlocal hstands.1⟩

/-- A class for what stands for the local address, after the one for the address itself. -/
theorem lookupClass_standsFor_short
    (hc' : ∀ endP, (lookupTests f interface endP).any c' = true ↔ Receives interface f.dport endP ∧
      endP.localAddress.address = f.daddr.address ∧ HasPeer address port endP)
    (hnil : lookupClass endPoints f interface c' = [])
    (hc : ∀ endP, (lookupTests f interface endP).any c = true ↔ Receives interface f.dport endP ∧
      StandsFor interface endP.localAddress f.daddr ∧ HasPeer address port endP) :
    (lookupClass endPoints f interface c).length ≤ 1 := by
  refine length_filter_le_one_iff.2 (hpairs.imp fun {endP endP'} hnot hboth => ?_)
  obtain ⟨hrec, hlocal, hpeer⟩ := (hc endP).1 hboth.1
  obtain ⟨hrec', hlocal', hpeer'⟩ := (hc endP').1 hboth.2
  refine hnot ⟨interface, hinterface, f.daddr, hdaddr,
    competeFor_of_same hrec hrec' hpeer hpeer' (.inr ⟨hlocal, hlocal'⟩), ?_⟩
  intro _ other hother hrecOther hpeerOther heq
  have hport := hrec.localPort
  exact List.filter_eq_nil_iff.1 hnil other hother ((hc' other).2
    ⟨hport ▸ hrecOther, heq, hasPeer_self.of_same hpeerOther hpeer⟩)

end Classes

/-- Endpoints that contend are found together for a packet from their peer. -/
theorem Contends.not_short (h : Contends interfaces endPoints endP endP')
    (hsub : [endP, endP'].Sublist endPoints) : ∃ interface ∈ interfaces, ∃ f : Flow Ipv4Address,
      Unicast interface f.daddr ∧
        ¬ (firstNonempty ([EndPointMatch.retval4, EndPointMatch.retval3, EndPointMatch.retval2,
          EndPointMatch.retval1].map (lookupClass endPoints f interface))).length ≤ 1 := by
  obtain ⟨interface, hinterface, daddr, hdaddr, hcompete, hfree⟩ := h
  refine ⟨interface, hinterface, ⟨daddr, endP.localPort, endP.peerAddress, endP.peerPort⟩, hdaddr,
    fun hshort => ?_⟩
  rw [List.map_cons, List.map_cons] at hshort
  rcases hcompete.localAddress with ⟨hlocal, hlocal'⟩ | ⟨hlocal, hlocal'⟩
  · have hfour := not_lookupClass_short hsub
      (f := ⟨daddr, endP.localPort, endP.peerAddress, endP.peerPort⟩)
      (retval4_iff.2 ⟨hcompete.receives, hlocal, hasPeer_self⟩)
      (retval4_iff.2 ⟨hcompete.receives', hlocal', hcompete.peer⟩)
    rw [firstNonempty_cons_of_ne _ fun hnil => hfour (by rw [hnil]; exact Nat.zero_le _)]
      at hshort
    exact hfour hshort
  · have hthree := not_lookupClass_short hsub
      (f := ⟨daddr, endP.localPort, endP.peerAddress, endP.peerPort⟩)
      (retval3_iff.2 ⟨hcompete.receives, hlocal, hasPeer_self⟩)
      (retval3_iff.2 ⟨hcompete.receives', hlocal', hcompete.peer⟩)
    have hfour : lookupClass endPoints
        ⟨daddr, endP.localPort, endP.peerAddress, endP.peerPort⟩ interface
        EndPointMatch.retval4 = [] := by
      refine List.filter_eq_nil_iff.2 fun other hother hclass => ?_
      obtain ⟨hrec, hexact, hpeer⟩ := retval4_iff.1 hclass
      exact hfree hlocal other hother hrec hpeer hexact
    rw [hfour, firstNonempty, firstNonempty_cons_of_ne _ fun hnil =>
      hthree (by rw [hnil]; exact Nat.zero_le _)] at hshort
    exact hthree hshort

theorem lookups_iff_pairwise :
    (∀ interface ∈ interfaces, ∀ f, Unicast interface f.daddr →
      ∃ retval, ipv4Lookup endPoints f interface = some retval ∧ retval.length ≤ 1) ↔
    endPoints.Pairwise fun endP endP' => ¬ Contends interfaces endPoints endP endP' := by
  simp only [ipv4Lookup_short_iff]
  constructor
  · intro h
    rw [List.pairwise_iff_forall_sublist]
    intro endP endP' hsub hcontends
    obtain ⟨interface, hinterface, f, hdaddr, hlong⟩ := hcontends.not_short hsub
    exact hlong (h interface hinterface f hdaddr)
  · intro hpairs interface hinterface f hdaddr
    change (firstNonempty [lookupClass endPoints f interface EndPointMatch.retval4,
      lookupClass endPoints f interface EndPointMatch.retval3,
      lookupClass endPoints f interface EndPointMatch.retval2,
      lookupClass endPoints f interface EndPointMatch.retval1]).length ≤ 1
    by_cases hfour : lookupClass endPoints f interface EndPointMatch.retval4 = []
    · by_cases hthree : lookupClass endPoints f interface EndPointMatch.retval3 = []
      · by_cases htwo : lookupClass endPoints f interface EndPointMatch.retval2 = []
        · have hone := lookupClass_standsFor_short hpairs hinterface hdaddr (fun _ => retval2_iff)
            htwo fun _ => retval1_iff
          rw [hfour, hthree, htwo]
          simp only [firstNonempty]
          cases hlist : lookupClass endPoints f interface EndPointMatch.retval1 with
          | nil => exact Nat.zero_le _
          | cons endP₁ rest =>
            rw [hlist] at hone
            exact hone
        · rw [hfour, hthree, firstNonempty, firstNonempty, firstNonempty_cons_of_ne _ htwo]
          exact lookupClass_exact_short hpairs hinterface hdaddr fun _ => retval2_iff
      · rw [hfour, firstNonempty, firstNonempty_cons_of_ne _ hthree]
        exact lookupClass_standsFor_short hpairs hinterface hdaddr (fun _ => retval4_iff) hfour
          fun _ => retval3_iff
    · rw [firstNonempty_cons_of_ne _ hfour]
      exact lookupClass_exact_short hpairs hinterface hdaddr fun _ => retval4_iff

end Compete

/-! ## Runs -/

/-- An endpoint that competes with none of the others. -/
def Fresh (interfaces : Set Ipv4Interface) (endP : EndPoint Ipv4Address)
    (others : List (EndPoint Ipv4Address)) : Prop :=
  ∀ other ∈ others, ¬ Competes interfaces other endP

/-- The endpoint that the call makes or changes competes with none of the others. -/
def Separate (interfaces : Set Ipv4Interface) (d : Ipv4EndPointDemux) : Call → Prop
  | .allocate | .allocateAddress _ => True
  | .allocatePort _ port => Fresh interfaces (.create Ipv4Address.getAny port) d.endPoints
  | .allocateLocal _ address port => Fresh interfaces (.create address port) d.endPoints
  | .allocatePeer _ localAddress localPort peerAddress peerPort =>
    Fresh interfaces ((EndPoint.create localAddress localPort).setPeer peerAddress peerPort)
      d.endPoints
  | .bindToNetDevice i netdevice => ∀ front endP back, d.endPoints = front ++ endP :: back →
    front.length = i → Fresh interfaces (endP.bindToNetDevice netdevice) (front ++ back)
  | .setPeer i address port => ∀ front endP back, d.endPoints = front ++ endP :: back →
    front.length = i → Fresh interfaces (endP.setPeer address port) (front ++ back)

section Runs

variable {interfaces : Set Ipv4Interface} {d d' : Ipv4EndPointDemux}

/-- No two endpoints compete. -/
def Apart (interfaces : Set Ipv4Interface) (d : Ipv4EndPointDemux) : Prop :=
  d.endPoints.Pairwise fun endP endP' => ¬ Competes interfaces endP endP'

theorem Apart.push {endP : EndPoint Ipv4Address} (h : d.Apart interfaces)
    (hfresh : Fresh interfaces endP d.endPoints) : (d.push endP).Apart interfaces :=
  List.pairwise_append.2 ⟨h, List.pairwise_singleton _ _, fun other hother _ hmem =>
    List.mem_singleton.1 hmem ▸ hfresh other hother⟩

/-- A free port makes an endpoint that competes with no other one. -/
theorem Apart.allocateAddress (h : d.Apart interfaces) {address : Ipv4Address}
    (hd : d.allocateAddress address = some d') : d'.Apart interfaces := by
  unfold Ipv4EndPointDemux.allocateAddress at hd
  dsimp only at hd
  split_ifs at hd with hport
  cases hd
  have hfree := ((allocateEphemeralPort_spec d).2 hport).2.2
  have hsame : d.allocateEphemeralPort.2.endPoints = d.endPoints := by
    unfold allocateEphemeralPort
    split <;> rfl
  apply Apart.push (by rwa [Apart, hsame])
  rw [hsame]
  rintro other hother ⟨interface, -, daddr, -, hcompete⟩
  exact hfree other hother hcompete.receives'.localPort.symm

theorem Apart.allocateLocal (h : d.Apart interfaces) {boundNetDevice : Option ℕ}
    {address : Ipv4Address} {port : UInt16}
    (hfresh : Fresh interfaces (.create address port) d.endPoints)
    (hd : d.allocateLocal boundNetDevice address port = some d') : d'.Apart interfaces := by
  unfold Ipv4EndPointDemux.allocateLocal at hd
  split_ifs at hd
  cases hd
  exact h.push hfresh

theorem Apart.modify (h : d.Apart interfaces) {i : ℕ}
    {f : EndPoint Ipv4Address → EndPoint Ipv4Address}
    (hfresh : ∀ front endP back, d.endPoints = front ++ endP :: back → front.length = i →
      Fresh interfaces (f endP) (front ++ back)) :
    Apart interfaces { d with endPoints := d.endPoints.modify i f } := by
  by_cases hi : i < d.endPoints.length
  · obtain ⟨front, endP, back, hsplit, hlen, hmodify⟩ := List.exists_of_modify f hi
    have hothers := hfresh front endP back hsplit hlen
    unfold Apart at h ⊢
    rw [hsplit, List.pairwise_append, List.pairwise_cons] at h
    obtain ⟨hfront, ⟨-, hback⟩, hbetween⟩ := h
    dsimp only
    rw [hmodify, List.pairwise_append, List.pairwise_cons]
    refine ⟨hfront, ⟨fun other hother hcompetes => ?_, hback⟩,
      fun other hother other' hother' => ?_⟩
    · exact hothers other (List.mem_append_right _ hother) hcompetes.symm
    · cases hother' with
      | head => exact hothers other (List.mem_append_left _ hother)
      | tail _ hother' => exact hbetween other hother other' (List.mem_cons_of_mem _ hother')
  · rw [List.modify_eq_self (Nat.le_of_not_lt hi)]
    exact h

theorem Apart.call (h : d.Apart interfaces) {c : Call} (hc : Separate interfaces d c)
    (hd : d.call c = some d') : d'.Apart interfaces := by
  cases c with
  | allocate => exact h.allocateAddress hd
  | allocateAddress address => exact h.allocateAddress hd
  | allocatePort boundNetDevice port => exact h.allocateLocal hc hd
  | allocateLocal boundNetDevice address port => exact h.allocateLocal hc hd
  | allocatePeer boundNetDevice localAddress localPort peerAddress peerPort =>
    change d.allocatePeer boundNetDevice localAddress localPort peerAddress peerPort = some d' at hd
    unfold Ipv4EndPointDemux.allocatePeer at hd
    split_ifs at hd
    cases hd
    exact h.push hc
  | bindToNetDevice i netdevice =>
    cases hd
    exact h.modify hc
  | setPeer i address port =>
    cases hd
    exact h.modify hc

end Runs

/-- After any successful calls, the lookups for unicast destinations all find at most one endpoint
exactly if no two endpoints contend; and none do as long as no call makes or changes an endpoint so
that it competes with another one. -/
theorem lookups_unambiguous_iff (interfaces : Set Ipv4Interface) {d : Ipv4EndPointDemux}
    {trace : List (Ipv4EndPointDemux × Call)}
    (hrun : Run (fun d c d' => d.call c = some d') create trace d) :
    ((∀ interface ∈ interfaces, ∀ f, Unicast interface f.daddr →
        ∃ retval, ipv4Lookup d.endPoints f interface = some retval ∧ retval.length ≤ 1) ↔
      d.endPoints.Pairwise fun endP endP' => ¬ Contends interfaces d.endPoints endP endP') ∧
    ((∀ p ∈ trace, Separate interfaces p.1 p.2) →
      d.endPoints.Pairwise fun endP endP' => ¬ Contends interfaces d.endPoints endP endP') := by
  refine ⟨lookups_iff_pairwise, fun hok => ?_⟩
  have hinit : create.Apart interfaces := List.Pairwise.nil
  have hapart := (hrun.invariant_along hinit (fun _ _ _ h hc hd => h.call hc hd) hok).2
  exact hapart.imp fun hnot hcontends => hnot hcontends.competes

/-- An endpoint on port 80, then one on this port for 10.0.0.1. -/
def twoOnPort : Ipv4EndPointDemux :=
  ⟨[.create Ipv4Address.getAny 80, .create (.ofUInt32 0x0a000001) 80], 49152⟩

theorem run_twoOnPort : Run (fun d c d' => d.call c = some d') create
    [(create, .allocatePort none 80), (⟨[.create Ipv4Address.getAny 80], 49152⟩,
      .allocateLocal none (.ofUInt32 0x0a000001) 80)] twoOnPort :=
  .snoc (.snoc .nil rfl) rfl

theorem lookups_unambiguous_iff_twoOnPort :
    ((∀ interface ∈ Set.univ, ∀ f, Unicast interface f.daddr →
        ∃ retval, ipv4Lookup twoOnPort.endPoints f interface = some retval ∧ retval.length ≤ 1) ↔
      twoOnPort.endPoints.Pairwise fun endP endP' =>
        ¬ Contends Set.univ twoOnPort.endPoints endP endP') ∧
    ((∀ p ∈ [(create, Call.allocatePort none 80), (⟨[.create Ipv4Address.getAny 80], 49152⟩,
        .allocateLocal none (.ofUInt32 0x0a000001) 80)], Separate Set.univ p.1 p.2) →
      twoOnPort.endPoints.Pairwise fun endP endP' =>
        ¬ Contends Set.univ twoOnPort.endPoints endP endP') :=
  lookups_unambiguous_iff Set.univ run_twoOnPort

/-- The first of two endpoints on port 80 is bound to a device before the second one, which is
bound to none, is allocated: both take what comes from this device. -/
theorem not_lookups_unambiguous :
    ¬ ∀ (d : Ipv4EndPointDemux) (trace : List (Ipv4EndPointDemux × Call)),
      Run (fun d c d' => d.call c = some d') create trace d →
      ∀ (interface : Ipv4Interface) (f : Flow Ipv4Address), Unicast interface f.daddr →
      ∃ retval, ipv4Lookup d.endPoints f interface = some retval ∧ retval.length ≤ 1 := by
  intro h
  have hrun : Run (fun d c d' => d.call c = some d') create
      [(create, .allocatePort none 80),
        (⟨[.create Ipv4Address.getAny 80], 49152⟩, .bindToNetDevice 0 (some 1)),
        (⟨[(EndPoint.create Ipv4Address.getAny 80).bindToNetDevice (some 1)], 49152⟩,
          .allocatePort none 80)]
      ⟨[(EndPoint.create Ipv4Address.getAny 80).bindToNetDevice (some 1),
        .create Ipv4Address.getAny 80], 49152⟩ :=
    .snoc (.snoc (.snoc .nil rfl) rfl) rfl
  obtain ⟨retval, hlookup, -⟩ := h _ _ hrun ⟨1, []⟩
    ⟨.ofUInt32 0x0a000001, 80, .ofUInt32 0x0a000002, 1000⟩ ⟨rfl, rfl, nofun⟩
  have hnone : ipv4Lookup
      [(EndPoint.create Ipv4Address.getAny 80).bindToNetDevice (some 1),
        .create Ipv4Address.getAny 80] ⟨.ofUInt32 0x0a000001, 80, .ofUInt32 0x0a000002, 1000⟩
      ⟨1, []⟩ = none := rfl
  rw [hnone] at hlookup
  cases hlookup

end Ipv4EndPointDemux

end SeanetSim
