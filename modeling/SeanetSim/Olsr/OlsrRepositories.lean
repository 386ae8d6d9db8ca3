import Mathlib.Data.Nat.Notation
import Mathlib.Data.UInt

/-!
# The repositories of OLSR

The tuples of which the node keeps sets, and the entries of its routing table.  OLSR compares the 32
bits of addresses, and copies them; they stand for the addresses.
-/

namespace SeanetSim.Olsr

structure IfaceAssocTuple where
  ifaceAddr : UInt32
  mainAddr : UInt32
deriving DecidableEq

structure LinkTuple where
  localIfaceAddr : UInt32
  neighborIfaceAddr : UInt32
  symTime : ℕ
  time : ℕ
deriving DecidableEq

/-- `STATUS_NOT_SYM` and `STATUS_SYM`. -/
inductive NeighborTuple.Status
  | notSym
  | sym
deriving DecidableEq

structure NeighborTuple where
  neighborMainAddr : UInt32
  status : NeighborTuple.Status
  willingness : UInt8
deriving DecidableEq

/-- `OLSR_WILL_NEVER`. -/
def willNever : UInt8 := 0

/-- `OLSR_WILL_ALWAYS`. -/
def willAlways : UInt8 := 7

structure TwoHopNeighborTuple where
  neighborMainAddr : UInt32
  twoHopNeighborAddr : UInt32
deriving DecidableEq

structure TopologyTuple where
  destAddr : UInt32
  lastAddr : UInt32
  sequenceNumber : UInt16
  expirationTime : ℕ
deriving DecidableEq

/-- `operator ==`, which does not look at the expiration time. -/
def TopologyTuple.same (a b : TopologyTuple) : Bool :=
  a.destAddr == b.destAddr && a.lastAddr == b.lastAddr && a.sequenceNumber == b.sequenceNumber

/-- A network that the node announces. -/
@[ext]
structure Association where
  networkAddr : UInt32
  netmask : UInt32
deriving DecidableEq

/-- A network that a gateway has announced. -/
structure AssociationTuple where
  gatewayAddr : UInt32
  networkAddr : UInt32
  netmask : UInt32
deriving DecidableEq

def AssociationTuple.association (tuple : AssociationTuple) : Association :=
  ⟨tuple.networkAddr, tuple.netmask⟩

/-- A route of the node to another one. -/
structure RoutingTableEntry where
  destAddr : UInt32
  nextAddr : UInt32
  interface : UInt32
  distance : UInt32
deriving DecidableEq

/-- The routing table, by destination. -/
abbrev RoutingTable := UInt32 → Option RoutingTableEntry

end SeanetSim.Olsr
