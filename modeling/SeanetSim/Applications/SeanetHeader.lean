import Mathlib.Data.UInt

/-!
# Seanet identifiers, protocol numbers and header

The constants of `seanet-protocol.h`, the 20-byte entity identifiers of `seanet-eid.h`, and the
four-byte header that every Seanet packet starts with (`SeanetHeader`; the routing layer has a copy
of it under the name `SeanetHeader_`).
-/

namespace SeanetSim

/-! ## `seanet-protocol.h` -/

namespace SeanetProtocol

def resolutionApplication : UInt8 := 0x01
def switchApplication : UInt8 := 0x02
def neighInfoApplication : UInt8 := 0x03
def multicastApplication : UInt8 := 0x04

def requestEidNA : UInt8 := 0x01
def replyEidNA : UInt8 := 0x02
def registEidNA : UInt8 := 0x03
def packetFinish : UInt8 := 0x01
def packetNotFinish : UInt8 := 0x00

def requestData : UInt8 := 0x01
def replyData : UInt8 := 0x02
def reseiveData : UInt8 := 0x03

def neighInfoReceive : UInt8 := 0x01
def neighInfoReply : UInt8 := 0x02

def registToSourceDR : UInt8 := 0x01
def registToRN : UInt8 := 0x02
def graftingRequest : UInt8 := 0x03
def multicastDataTrans : UInt8 := 0x04
def registToDestDR : UInt8 := 0x05

def isDst : UInt8 := 0x01
def notDst : UInt8 := 0x00

def maxPayloadLen : ℕ := 255

end SeanetProtocol

/-! ## Identifiers -/

def eidSize : ℕ := 20

/-- `SeanetEID`; two of them are equal when all bytes are. -/
abbrev SeanetEID := Vector UInt8 eidSize

/-- `SeanetEID (buffer)`: the identifier in the first bytes of a buffer. -/
def SeanetEID.read (buffer : List UInt8) : SeanetEID := Vector.ofFn fun i => buffer.getD i 0

theorem SeanetEID.read_append (e : SeanetEID) (rest : List UInt8) :
    SeanetEID.read (e.toList ++ rest) = e := by
  apply Vector.ext
  intro i hi
  have hlen : i < e.toList.length := by simpa using hi
  simp [SeanetEID.read, List.getElem?_append_left hlen, hi]

/-! ## Header -/

structure SeanetHeader where
  applicationType : UInt8
  protocolType : UInt8
  dst : UInt8
  interfaceNum : UInt8
  deriving DecidableEq, Repr

namespace SeanetHeader

/-- `SeanetHeader (at, pt)`. -/
def ofTypes (at' pt : UInt8) : SeanetHeader := ⟨at', pt, 0x01, 0x01⟩

/-- `SeanetHeader (at, pt, dst)`. -/
def ofTypesDst (at' pt dst : UInt8) : SeanetHeader := ⟨at', pt, dst, 0x01⟩

def setDst (h : SeanetHeader) (dst : UInt8) : SeanetHeader := { h with dst := dst }

def setInterface (h : SeanetHeader) (num : UInt8) : SeanetHeader := { h with interfaceNum := num }

def serialize (h : SeanetHeader) : List UInt8 :=
  [h.applicationType, h.protocolType, h.dst, h.interfaceNum]

/-- `Deserialize`, with the bytes left; reading past the end of the buffer is an assertion
failure. -/
def deserialize : List UInt8 → Option (SeanetHeader × List UInt8)
  | a :: p :: d :: i :: rest => some (⟨a, p, d, i⟩, rest)
  | _ => none

@[simp] theorem deserialize_serialize (h : SeanetHeader) (rest : List UInt8) :
    deserialize (h.serialize ++ rest) = some (h, rest) := rfl

theorem length_of_deserialize {buf rest : List UInt8} {h : SeanetHeader}
    (heq : deserialize buf = some (h, rest)) : buf.length = 4 + rest.length := by
  unfold deserialize at heq
  split at heq
  · cases heq
    simp only [List.length_cons]
    omega
  · cases heq

end SeanetHeader

end SeanetSim
