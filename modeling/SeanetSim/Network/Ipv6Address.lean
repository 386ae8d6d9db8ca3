import SeanetSim.Network.Ipv4Address

/-!
# IPv6 addresses

`Ipv6Address` holds the sixteen bytes of the address in network order, and writes them as they are
(`Ipv6Address.deserialize_serialize`).
-/

namespace SeanetSim

abbrev Ipv6Address := Vector UInt8 16

namespace Ipv6Address

def getAny : Ipv6Address := Vector.replicate 16 0

/-- `ff02::2`. -/
def getAllRoutersMulticast : Ipv6Address := #v[0xff, 2, 0, 0, 0, 0, 0, 0, 0, 0, 0, 0, 0, 0, 0, 2]

/-- `::ffff:a.b.c.d`. -/
def makeIpv4MappedAddress (addr : Ipv4Address) : Ipv6Address :=
  #v[0, 0, 0, 0, 0, 0, 0, 0, 0, 0, 0xff, 0xff, addr.serialize.getD 0 0, addr.serialize.getD 1 0,
    addr.serialize.getD 2 0, addr.serialize.getD 3 0]

/-- `Serialize`. -/
def serialize (a : Ipv6Address) : List UInt8 := a.toList

/-- The address in the first sixteen bytes of a buffer. -/
def deserialize (buf : List UInt8) : Ipv6Address := Vector.ofFn fun i => buf.getD i 0

@[simp] theorem length_serialize (a : Ipv6Address) : a.serialize.length = 16 := by
  simp [serialize]

theorem deserialize_serialize (a : Ipv6Address) (rest : List UInt8) :
    deserialize (a.serialize ++ rest) = a := by
  refine Vector.ext fun i hi => ?_
  have hlen : i < a.toList.length := by simpa using hi
  simp [deserialize, serialize, List.getElem?_append_left hlen, Vector.getElem?_eq_getElem hi]

end Ipv6Address

end SeanetSim
