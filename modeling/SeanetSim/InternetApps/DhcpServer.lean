import Mathlib.Data.Prod.Lex
import Mathlib.Data.List.Lex
import SeanetSim.Internet.UdpReceive

/-!
# The DHCP server

`DhcpServer` keeps three containers: what each client has been given (`leasedAddresses`, from the
hardware address of the client), the clients whose lease has run out, the last one in front, and the
addresses that nobody has had yet.  A lease of `0xffffffff` seconds never runs out.

The time stamps of the messages are left out.  Where `asserts` is off, `NS_ASSERT` does nothing.
-/

namespace SeanetSim

/-! ### Addresses of clients -/

/-- An `Address`, with its type. -/
structure HardwareAddress where
  type : UInt8
  data : List UInt8

namespace HardwareAddress

/-- What `operator <` compares, one after the other. -/
def orderKey (a : HardwareAddress) : ℕ ×ₗ ℕ ×ₗ List ℕ :=
  toLex (a.type.toNat, toLex (a.data.length, a.data.map UInt8.toNat))

theorem orderKey_injective : Function.Injective orderKey := by
  rintro ⟨type, data⟩ ⟨type', data'⟩ h
  have ⟨htype, hrest⟩ := Prod.mk.inj (toLex_inj.1 h)
  have hdata := (Prod.mk.inj (toLex_inj.1 hrest)).2
  have hinj : Function.Injective UInt8.toNat := fun _ _ => UInt8.toNat_inj.1
  obtain rfl : type = type' := hinj htype
  obtain rfl : data = data' := List.map_injective_iff.2 hinj hdata
  rfl

instance : LinearOrder HardwareAddress := LinearOrder.lift' orderKey orderKey_injective

/-- `Address ()`, under which the server keeps its own address. -/
def invalid : HardwareAddress := ⟨0, []⟩

end HardwareAddress

/-- The field `m_chaddr` of a header. -/
abbrev Chaddr := Vector UInt8 16

/-- `GetChaddr`. -/
def Chaddr.toAddress (chaddr : Chaddr) : HardwareAddress := ⟨0, chaddr.toList⟩

/-- `SetChaddr`, which fills up with zeros. -/
def Chaddr.ofAddress (a : HardwareAddress) : Chaddr := Vector.ofFn fun i => a.data.getD i 0

/-! ### Messages -/

inductive DhcpType
  | discover
  | offer
  | req
  | ack
  | nack
deriving DecidableEq, Repr

/-- A header; the options that have not been set are `none`. -/
structure DhcpHeader where
  type : DhcpType
  chaddr : Chaddr
  tran : UInt32
  yiaddr : Ipv4Address := .getAny
  req : Ipv4Address := .getAny
  dhcps : Option Ipv4Address := none
  mask : Option UInt32 := none
  lease : Option UInt32 := none
  renew : Option UInt32 := none
  rebind : Option UInt32 := none
  router : Option Ipv4Address := none
deriving DecidableEq

structure InetSocketAddress where
  ipv4 : Ipv4Address
  port : UInt16
deriving DecidableEq

structure DhcpMessage where
  header : DhcpHeader
  destination : InetSocketAddress
deriving DecidableEq

/-! ### The server -/

/-- The attributes; the times are in whole seconds, as they are stored and sent. -/
structure DhcpConfig where
  lease : UInt32
  renew : UInt32
  rebind : UInt32
  poolAddress : Ipv4Address
  minAddress : Ipv4Address
  maxAddress : Ipv4Address
  poolMask : UInt32
  gateway : Ipv4Address
  asserts : Bool

structure Lease where
  address : Ipv4Address
  time : UInt32
deriving DecidableEq

/-- The time of a lease that never runs out. -/
def Lease.infinite : UInt32 := 0xffffffff

abbrev LeasedAddress := Std.TreeMap HardwareAddress Lease

structure DhcpServer where
  started : Bool
  leasedAddresses : LeasedAddress
  expiredAddresses : List HardwareAddress
  availableAddresses : List Ipv4Address

namespace DhcpServer

variable (c : DhcpConfig) (s : DhcpServer)

def init : DhcpServer := ⟨false, ∅, [], []⟩

def inRange (addr : Ipv4Address) : Bool :=
  c.minAddress.address ≤ addr.address && addr.address ≤ c.maxAddress.address

/-- `AddStaticDhcpEntry`. -/
def addStaticDhcpEntry (chaddr : HardwareAddress) (addr : Ipv4Address) : Option DhcpServer :=
  let cleanedCaddr := (Chaddr.ofAddress chaddr).toAddress
  if c.asserts && !inRange c addr then none
  else if c.asserts && !(chaddr.data.length ≤ 16) then none
  else if c.asserts && s.leasedAddresses.contains cleanedCaddr then none
  else if c.asserts && s.availableAddresses.any (·.same addr) then none
  else
    some { s with
      availableAddresses := s.availableAddresses.filter fun a => !a.same addr
      leasedAddresses := s.leasedAddresses.insert cleanedCaddr ⟨addr, Lease.infinite⟩ }

/-- `GetInterfaceForPrefix`, with the addresses of the interface. -/
def interfaceForPrefix (interfaces : List (List Ipv4Address)) : Option (List Ipv4Address) :=
  interfaces.find? fun addresses => addresses.any fun a =>
    (a.combineMask c.poolMask).same (c.poolAddress.combineMask c.poolMask)

/-- The address of the interface that the server takes for its own. -/
def ownAddress (addresses : List Ipv4Address) : Option Ipv4Address :=
  addresses.find? fun a => (a.combineMask c.poolMask).same c.poolAddress && inRange c a

/-- The addresses of the range other than `myOwnAddress`. -/
def pool (myOwnAddress : Ipv4Address) : List Ipv4Address :=
  let range := c.maxAddress.address - c.minAddress.address + 1
  ((List.range range.toNat).map fun searchSeq =>
      Ipv4Address.ofUInt32 (c.minAddress.address + .ofNat searchSeq)).filter
    fun poolAddress => !poolAddress.same myOwnAddress

/-- `StartApplication`, on a node with these addresses on its interfaces. -/
def startApplication (interfaces : List (List Ipv4Address)) : Option DhcpServer :=
  if c.asserts && !(c.minAddress.address < c.maxAddress.address) then none
  else if s.started then none
  else
    match interfaceForPrefix c interfaces with
    | none => none
    | some addresses =>
      let own := ownAddress c addresses
      some { s with
        started := true
        leasedAddresses := match own with
          | none => s.leasedAddresses
          | some a => s.leasedAddresses.insert .invalid ⟨a, Lease.infinite⟩
        availableAddresses := s.availableAddresses ++ pool c (own.getD .uninitialized) }

/-- The next second of a lease. -/
def countDown (l : Lease) : Lease :=
  if l.time ≠ Lease.infinite ∧ l.time ≠ 0 then { l with time := l.time - 1 } else l

/-- `TimerHandler`.  It goes through the clients in the order of their addresses. -/
def timerHandler : DhcpServer :=
  let ended := s.leasedAddresses.toList.filter fun e => e.2.time == 1
  { s with
    leasedAddresses := s.leasedAddresses.map fun _ l => countDown l
    expiredAddresses := (ended.map Prod.fst).reverse ++ s.expiredAddresses }

/-- The choice of an address in `SendOffer`, with the containers after it. -/
def offeredAddress (sourceChaddr : HardwareAddress) : Ipv4Address × DhcpServer :=
  match s.leasedAddresses[sourceChaddr]? with
  | some l =>
    (l.address, { s with expiredAddresses := s.expiredAddresses.filter (· ≠ sourceChaddr) })
  | none =>
    match s.availableAddresses with
    | a :: rest => (a, { s with availableAddresses := rest })
    | [] =>
      match s.expiredAddresses.getLast? with
      | none => (.uninitialized, s)
      | some oldestChaddr =>
        -- `operator []` would add an entry for a client that has none
        (((s.leasedAddresses[oldestChaddr]?).map Lease.address).getD .uninitialized, { s with
          expiredAddresses := s.expiredAddresses.dropLast
          leasedAddresses := s.leasedAddresses.erase oldestChaddr })

def broadcast (senderAddr : InetSocketAddress) : InetSocketAddress := ⟨⟨0xffffffff, 0⟩, senderAddr.port⟩

/-- `SendOffer`; `myAddress` is what `SelectSourceAddress` answers. -/
def sendOffer (header : DhcpHeader) (senderAddr : InetSocketAddress) (myAddress : Ipv4Address) :
    DhcpServer × Option DhcpMessage :=
  let sourceChaddr := header.chaddr.toAddress
  let (offered, s) := s.offeredAddress sourceChaddr
  if offered.same .uninitialized then (s, none)
  else
    ({ s with leasedAddresses := s.leasedAddresses.insert sourceChaddr ⟨offered, c.lease⟩ },
      some
        { header :=
            { type := .offer
              chaddr := .ofAddress sourceChaddr
              tran := header.tran
              yiaddr := offered
              dhcps := some myAddress
              mask := some c.poolMask
              lease := some c.lease
              renew := some c.renew
              rebind := some c.rebind
              router := if c.gateway.same .uninitialized then none else some c.gateway }
          destination := broadcast senderAddr })

/-- The answer to a request, and where it goes. -/
def answer (type : DhcpType) (header : DhcpHeader) (senderAddr : InetSocketAddress) : DhcpMessage :=
  { header :=
      { type
        chaddr := .ofAddress header.chaddr.toAddress
        tran := header.tran
        yiaddr := header.req }
    destination := if senderAddr.ipv4.same header.req then senderAddr else broadcast senderAddr }

/-- `SendAck`. -/
def sendAck (header : DhcpHeader) (senderAddr : InetSocketAddress) : DhcpServer × Option DhcpMessage :=
  let sourceChaddr := header.chaddr.toAddress
  match s.leasedAddresses[sourceChaddr]? with
  | some l =>
    ({ s with leasedAddresses :=
        s.leasedAddresses.insert sourceChaddr { l with time := l.time + c.lease } },
      some (answer .ack header senderAddr))
  | none => (s, some (answer .nack header senderAddr))

/-- `NetHandler`; there is no header where it cannot be read. -/
def netHandler (header : Option DhcpHeader) (senderAddr : InetSocketAddress) (myAddress : Ipv4Address) :
    DhcpServer × Option DhcpMessage :=
  match header with
  | none => (s, none)
  | some header =>
    if header.type = .discover then s.sendOffer c header senderAddr myAddress
    else if header.type = .req && inRange c header.req then s.sendAck c header senderAddr
    else (s, none)

end DhcpServer

/-! ### Runs -/

inductive DhcpEvent
  | addStaticDhcpEntry (chaddr : HardwareAddress) (addr : Ipv4Address)
  | startApplication (interfaces : List (List Ipv4Address))
  | netHandler (header : Option DhcpHeader) (senderAddr : InetSocketAddress) (myAddress : Ipv4Address)
  | timerHandler

/-- What a server does at an event, with the message that it sends; `none` where the program stops
or the event cannot happen. -/
def DhcpServer.apply (c : DhcpConfig) (s : DhcpServer) :
    DhcpEvent → Option (DhcpServer × Option DhcpMessage)
  | .addStaticDhcpEntry chaddr addr => (s.addStaticDhcpEntry c chaddr addr).map (·, none)
  | .startApplication interfaces => (s.startApplication c interfaces).map (·, none)
  | .netHandler header senderAddr myAddress =>
    if s.started then some (s.netHandler c header senderAddr myAddress) else none
  | .timerHandler => if s.started then some (s.timerHandler, none) else none

end SeanetSim
