import SeanetSim.Internet.Fragmentation
import SeanetSim.Internet.Ipv6ExtensionHeader

/-!
# Fragmentation of IPv6

`Ipv6ExtensionFragment` cuts a packet behind the headers that every fragment must have, and puts
together what arrives.  `GetFragments` takes these headers off, from the first one, and puts them in
front of each fragment in the same order, so that they come to stand the other way round
(`Ipv6ExtensionFragment.getFragments_spec`).
-/

namespace SeanetSim

/-- The fields of the IPv6 header that fragmentation is about. -/
structure Ipv6Header where
  sourceAddress : Ipv6Address
  nextHeader : UInt8
  payloadLength : UInt16
deriving DecidableEq

abbrev Ipv6PayloadHeaderPair := List UInt8 × Ipv6Header

/-- The fragments of one packet, inserted as those of IPv4 are. -/
structure Ipv6Fragments extends Fragments where
  unfragmentable : Option (List UInt8)

namespace Ipv6Fragments

def empty : Ipv6Fragments := ⟨.empty, none⟩

def addFragment (f : Ipv6Fragments) (fragment : List UInt8) (fragmentOffset : ℕ)
    (moreFragment : Bool) : Ipv6Fragments :=
  { f with toFragments := f.toFragments.addFragment fragment fragmentOffset moreFragment }

/-- The loop of `IsEntire`. -/
def adjacent : ℕ → List (List UInt8 × ℕ) → Bool
  | _, [] => true
  | lastEndOffset, it :: rest =>
    if lastEndOffset ≠ it.2 then false else adjacent ((lastEndOffset + it.1.length) % 2 ^ 16) rest

def isEntire (f : Ipv6Fragments) : Bool :=
  !f.moreFragment && f.fragments != [] && adjacent 0 f.fragments

/-- `GetPacket`, which needs the unfragmentable part. -/
def getPacket (f : Ipv6Fragments) : Option (List UInt8) :=
  f.unfragmentable.map fun p => p ++ f.fragments.flatMap (·.1)

end Ipv6Fragments

/-- `m_fragments`, by source address and identification. -/
structure Ipv6ExtensionFragment where
  fragments : Ipv6Address × UInt32 → Option Ipv6Fragments

namespace Ipv6ExtensionFragment

/-- A part of a packet, with its offset and whether more follow. -/
abbrev Piece := Ipv4PayloadHeaderPair

/-! ## The model -/

/-- The parts that the fragments get, with fuel: the loop does not end where none gets 8 bytes. -/
def cut (p : List UInt8) (maxFragmentablePartSize : UInt32) : ℕ → ℕ → Option (List Piece)
  | 0, _ => none
  | fuel + 1, offset =>
    if (offset + maxFragmentablePartSize.toNat) % 2 ^ 32 < p.length then
      let current := maxFragmentablePartSize.toNat - maxFragmentablePartSize.toNat % 8
      (cut p maxFragmentablePartSize fuel ((offset + current) % 2 ^ 16)).map
        (⟨(p.drop offset).take current, offset, true⟩ :: ·)
    else some [⟨(p.drop offset).take (p.length - offset), offset, false⟩]

/-- The fragment header; what the one before has left in it is overwritten. -/
def fragmentHeader (nextHeader : UInt8) (identification : UInt32) (piece : Piece) :
    Ipv6ExtensionFragmentHeader :=
  ((⟨nextHeader, 0, identification⟩ : Ipv6ExtensionFragmentHeader).setOffset
    (.ofNat piece.fragmentOffset)).setMoreFragment piece.moreFragments

/-- A fragment: the fragment header, and in front of it one after the other the headers. -/
def fragment (unfragmentablePart : List Ipv6ExtensionHeader) (nextHeader : UInt8)
    (identification : UInt32) (ipv6Header : Ipv6Header) (piece : Piece) : Ipv6PayloadHeaderPair :=
  let fragment := unfragmentablePart.foldl (fun fragment header => header.serialize ++ fragment)
    ((fragmentHeader nextHeader identification piece).serialize ++ piece.payload)
  (fragment, { ipv6Header with payloadLength := .ofNat fragment.length })

/-- Each header names the type of the next one, and the last one what follows. -/
def Linked : UInt8 → List Ipv6ExtensionHeader → UInt8 → Prop
  | nextHeader, [], protocol => nextHeader = protocol
  | nextHeader, h :: headers, protocol => nextHeader = h.type ∧ Linked h.nextHeader headers protocol

/-- The headers as bytes. -/
def bytes (headers : List Ipv6ExtensionHeader) : List UInt8 :=
  headers.flatMap Ipv6ExtensionHeader.serialize

/-- The headers with another next header field in the last one. -/
def withLast (nextHeader : UInt8) : List Ipv6ExtensionHeader → List Ipv6ExtensionHeader
  | [] => []
  | [h] => [h.setNextHeader nextHeader]
  | h :: h' :: headers => h :: withLast nextHeader (h' :: headers)

/-- A packet with hop-by-hop and routing headers in front of the payload of an upper layer, of less
than 64K. -/
structure IsDatagram (nextHeader : UInt8) (headers : List Ipv6ExtensionHeader) (protocol : UInt8)
    (payload : List UInt8) : Prop where
  written : ∀ h ∈ headers, h.Written
  kind : ∀ h ∈ headers, h.type = ipv6ExtHopByHop ∨ h.type = ipv6ExtRouting
  linked : Linked nextHeader headers protocol
  upperLayer : protocol ≠ ipv6ExtHopByHop ∧ protocol ≠ ipv6ExtRouting ∧
    protocol ≠ ipv6ExtFragmentation ∧ protocol ≠ ipv6ExtDestination
  size : (bytes headers).length + payload.length < 65536

variable {nextHeader protocol : UInt8} {h : Ipv6ExtensionHeader}
  {headers : List Ipv6ExtensionHeader} {payload : List UInt8}

theorem IsDatagram.tail (hdata : IsDatagram nextHeader (h :: headers) protocol payload) :
    IsDatagram h.nextHeader headers protocol payload where
  written := fun h' hh' => hdata.written h' (List.mem_cons_of_mem _ hh')
  kind := fun h' hh' => hdata.kind h' (List.mem_cons_of_mem _ hh')
  linked := hdata.linked.2
  upperLayer := hdata.upperLayer
  size := by
    have hsize := hdata.size
    rw [bytes, List.flatMap_cons, List.length_append] at hsize
    rw [bytes]
    omega

/-- The parts that `GetFragments` cuts a payload into. -/
structure PiecesOf (payload : List UInt8) (pieces : List Piece) : Prop where
  tiles : Tiles payload 0 payload.length pieces
  empty : payload = [] → pieces = [⟨[], 0, false⟩]

end Ipv6ExtensionFragment

end SeanetSim
