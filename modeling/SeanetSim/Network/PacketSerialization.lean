import SeanetSim.Lib.Buffer
import SeanetSim.Lib.ByteStream
import SeanetSim.Network.ByteTagList
import SeanetSim.Network.NixVector
import SeanetSim.Network.PacketTagList

/-!
# Serialization of packets

`Packet::Serialize` writes five sections, each with a length in front: the nix-vector, the byte
tags, the packet tags, the metadata and the buffer.  It checks the space that is left before each of
them, and each section checks it again before each of its own parts.
-/

namespace SeanetSim

/-- Names and hashes of the types; the id of a type is its place, from 1 on. -/
structure TypeIdRegistry where
  information : List (List UInt8 × UInt32)
  length_le : information.length ≤ 0xffff
  names_nodup : (information.map (·.1)).Nodup
  hashes_nodup : (information.map (·.2)).Nodup

namespace TypeIdRegistry

def empty : TypeIdRegistry := ⟨[], by decide, .nil, .nil⟩

def lookupInformation (reg : TypeIdRegistry) (uid : UInt16) : Option (List UInt8 × UInt32) :=
  if uid = 0 then none else reg.information[uid.toNat - 1]?

def getName (reg : TypeIdRegistry) (uid : UInt16) : List UInt8 :=
  ((reg.lookupInformation uid).map (·.1)).getD []

def getHash (reg : TypeIdRegistry) (uid : UInt16) : UInt32 :=
  ((reg.lookupInformation uid).map (·.2)).getD 0

/-- None where the source stops with an assertion. -/
def lookupByName (reg : TypeIdRegistry) (name : List UInt8) : Option UInt16 :=
  (reg.information.findIdx? (·.1 = name)).map fun i => UInt16.ofNat (i + 1)

def lookupByHash (reg : TypeIdRegistry) (hash : UInt32) : Option UInt16 :=
  (reg.information.findIdx? (·.2 = hash)).map fun i => UInt16.ofNat (i + 1)

end TypeIdRegistry

/-- `(n + 3) & (~3)`. -/
def align4 (n : UInt32) : UInt32 := (n + 3) &&& ~~~3

/-- A part of a section: the size it is checked with, and the bytes it writes. -/
abbrev Piece := UInt32 × List (Option UInt8)

namespace Piece

/-- A number of `n` bytes. -/
def number (n : ℕ) (v : ℕ) : Piece := (UInt32.ofNat n, (bytesLE n v).map some)

def word (v : UInt32) : Piece := number 4 v.toNat

def raw (data : List UInt8) : Piece := (UInt32.ofNat data.length, data.map some)

/-- `memcpy`, and the pointer goes to the next word. -/
def padded (data : List UInt8) : Piece :=
  let size := align4 (UInt32.ofNat data.length)
  (size, data.map some ++ List.replicate (size.toNat - data.length) none)

end Piece

/-- What a serializer has written and counted so far. -/
structure Section where
  out : List (Option UInt8)
  size : UInt32
deriving DecidableEq, Repr

/-- A serializer that returns 0 has written something as well. -/
abbrev Serialized := Except (List (Option UInt8)) Section

namespace Section

def start : Section := ⟨[], 0⟩

def put (maxSize : UInt32) (s : Section) (p : Piece) : Serialized :=
  if s.size + p.1 ≤ maxSize then .ok ⟨s.out ++ p.2, s.size + p.1⟩ else .error s.out

def putAll (maxSize : UInt32) (s : Section) (ps : List Piece) : Serialized :=
  ps.foldlM (put maxSize) s

/-- `*numberOfTags` in the first word. -/
def setCount (s : Section) (n : ℕ) : Section :=
  { s with out := memcpy s.out 0 (Piece.word (UInt32.ofNat n)).2 }

/-- A list of tags, whose number is counted up in the first word. -/
def putTags (maxSize : UInt32) (tags : List (List Piece)) : Serialized := do
  let s ← start.put maxSize (Piece.word 0)
  tags.zipIdx.foldlM (fun s t => do
    let s ← s.putAll maxSize t.1
    .ok (s.setCount (t.2 + 1))) s

end Section

namespace NixVector

def getSerializedSize (nv : NixVector) : UInt32 := 4 + 4 + 4 + UInt32.ofNat (4 * nv.words.length)

def pieces (nv : NixVector) : List Piece :=
  [.word nv.used, .word nv.currentVectorBitSize, .word nv.totalBitSize] ++ nv.words.map .word

def serialize (nv : NixVector) (maxSize : UInt32) : Serialized :=
  Section.start.putAll maxSize nv.pieces

end NixVector

namespace ByteTag

def size (t : ByteTag) : UInt32 := UInt32.ofNat t.data.length

def pieces (reg : TypeIdRegistry) (t : ByteTag) : List Piece :=
  [.word (reg.getHash t.tid), .word t.size, .word t.start.toUInt32, .word t.end_.toUInt32,
    .padded t.data]

end ByteTag

namespace ByteTags

def getSerializedSize (l : ByteTags) : UInt32 :=
  l.beginAll.foldl (fun size t => size + 4 + 3 * 4 + align4 t.size) 4

def serialize (reg : TypeIdRegistry) (l : ByteTags) (maxSize : UInt32) : Serialized :=
  Section.putTags maxSize (l.beginAll.map (·.pieces reg))

end ByteTags

namespace PacketTag

def size (t : PacketTag) : UInt32 := UInt32.ofNat t.data.length

def pieces (reg : TypeIdRegistry) (t : PacketTag) : List Piece :=
  [.word t.size, .word (reg.getHash t.tid), .padded t.data]

/-- `PacketTagList::GetSerializedSize`. -/
def getSerializedSize (tags : List PacketTag) : UInt32 :=
  tags.foldl (fun size t => size + 4 + 4 + align4 t.size) 4

/-- `PacketTagList::Serialize`. -/
def serialize (reg : TypeIdRegistry) (tags : List PacketTag) (maxSize : UInt32) : Serialized :=
  Section.putTags maxSize (tags.map (·.pieces reg))

end PacketTag

/-- A `SmallItem` with its `ExtraItem`, as `ReadItems` reads them. -/
structure MetadataItem where
  typeUid : UInt32
  size : UInt32
  chunkUid : UInt16
  fragmentStart : UInt32
  fragmentEnd : UInt32
  packetUid : UInt64
deriving DecidableEq, Repr

namespace MetadataItem

def uid (item : MetadataItem) : UInt16 := ((item.typeUid &&& 0xfffffffe) >>> 1).toUInt16

/-- Zero for payload, which has no name. -/
def IsPayload (item : MetadataItem) : Prop := (item.typeUid &&& 0xfffffffe) >>> 1 = 0

instance (item : MetadataItem) : Decidable item.IsPayload :=
  inferInstanceAs (Decidable ((item.typeUid &&& 0xfffffffe) >>> 1 = 0))

def name (reg : TypeIdRegistry) (item : MetadataItem) : List UInt8 :=
  if item.IsPayload then [] else reg.getName item.uid

def pieces (reg : TypeIdRegistry) (item : MetadataItem) : List Piece :=
  (if item.IsPayload then [.word 0]
    else [.word (UInt32.ofNat (reg.getName item.uid).length), .raw (reg.getName item.uid)]) ++
  [.number 1 (item.typeUid &&& 1).toNat, .word item.size, .number 2 item.chunkUid.toNat,
    .word item.fragmentStart, .word item.fragmentEnd, .number 8 item.packetUid.toNat]

end MetadataItem

/-- The items from `m_head` to `m_tail`; there are none unless the metadata are enabled. -/
structure PacketMetadata where
  enable : Bool
  packetUid : UInt64
  items : List MetadataItem
  enable_of_items : items ≠ [] → enable = true

namespace PacketMetadata

def getSerializedSize (reg : TypeIdRegistry) (m : PacketMetadata) : UInt32 :=
  if m.enable then
    m.items.foldl (fun size item =>
      size + (if item.IsPayload then 4 else 4 + UInt32.ofNat (reg.getName item.uid).length) +
        (1 + 4 + 2 + 4 + 4 + 8)) 8
  else 8

def pieces (reg : TypeIdRegistry) (m : PacketMetadata) : List Piece :=
  .number 8 m.packetUid.toNat :: m.items.flatMap (·.pieces reg)

def serialize (reg : TypeIdRegistry) (m : PacketMetadata) (maxSize : UInt32) : Serialized :=
  Section.start.putAll maxSize (m.pieces reg)

end PacketMetadata

/-- The bytes of a buffer before its zero area, the size of this area, and the bytes behind it. -/
structure BufferAreas where
  dataStart : List UInt8
  zeroSize : UInt32
  dataEnd : List UInt8
deriving DecidableEq, Repr

namespace BufferAreas

/-- `Buffer::GetSerializedSize`. -/
def getSerializedSize (b : BufferAreas) : UInt32 :=
  4 + 4 + align4 (UInt32.ofNat b.dataStart.length) + 4 + align4 (UInt32.ofNat b.dataEnd.length)

def pieces (b : BufferAreas) : List Piece :=
  [.word b.zeroSize, .word (UInt32.ofNat b.dataStart.length), .padded b.dataStart,
    .word (UInt32.ofNat b.dataEnd.length), .padded b.dataEnd]

/-- `Buffer::Serialize`. -/
def serialize (b : BufferAreas) (maxSize : UInt32) : Serialized :=
  Section.start.putAll maxSize b.pieces

end BufferAreas

/-- A section of a packet: its `GetSerializedSize` and its `Serialize`. -/
structure SectionWriter where
  size : UInt32
  serialize : UInt32 → Serialized

/-- The length, and the section in as much space as it says that it needs. -/
def Section.place (maxSize : UInt32) (s : Section) (w : SectionWriter) : Serialized :=
  if s.size + w.size ≤ maxSize then
    let out := s.out ++ (Piece.word (w.size + 4)).2
    match w.serialize w.size with
    | .ok body => .ok ⟨out ++ body.out ++
        List.replicate ((align4 w.size).toNat - body.out.length) none, s.size + w.size⟩
    | .error body => .error (out ++ body)
  else .error s.out

/-- A packet as its serializers read it. -/
structure NetPacket where
  nixVector : Option NixVector
  byteTagList : ByteTags
  packetTagList : List PacketTag
  metadata : PacketMetadata
  buffer : BufferAreas

namespace NetPacket

/-- A new packet, without tags and with the metadata disabled. -/
def ofBuffer (uid : UInt64) (buffer : BufferAreas) : NetPacket :=
  ⟨none, .empty, [], ⟨false, uid, [], fun h => absurd rfl h⟩, buffer⟩

def sections (reg : TypeIdRegistry) (p : NetPacket) : List SectionWriter :=
  [⟨p.byteTagList.getSerializedSize, p.byteTagList.serialize reg⟩,
    ⟨PacketTag.getSerializedSize p.packetTagList, PacketTag.serialize reg p.packetTagList⟩,
    ⟨p.metadata.getSerializedSize reg, p.metadata.serialize reg⟩,
    ⟨p.buffer.getSerializedSize, p.buffer.serialize⟩]

/-- The size without a nix-vector is that of the length word alone. -/
def nixSize (p : NetPacket) : UInt32 :=
  match p.nixVector with
  | some nv => align4 nv.getSerializedSize + 4
  | none => 4

def getSerializedSize (reg : TypeIdRegistry) (p : NetPacket) : UInt32 :=
  (p.sections reg).foldl (fun size w => size + align4 w.size + 4) p.nixSize

def serializeSections (reg : TypeIdRegistry) (p : NetPacket) (maxSize : UInt32) : Serialized := do
  let s ← match p.nixVector with
    | some nv => Section.start.place maxSize ⟨nv.getSerializedSize, nv.serialize⟩
    | none => Section.start.put maxSize (.word 4)
  (p.sections reg).foldlM (Section.place maxSize) s

/-- `Serialize`: what it returns and what it has written. -/
def serialize (reg : TypeIdRegistry) (p : NetPacket) (maxSize : UInt32) :
    UInt32 × List (Option UInt8) :=
  match p.serializeSections reg maxSize with
  | .ok s => (1, s.out)
  | .error out => (0, out)

end NetPacket

end SeanetSim
