import SeanetSim.Network.BufferRuns
import SeanetSim.Network.PacketSerialization

/-!
# Deserialization of packets

`Packet::Deserialize` reads the five sections with one count of the bytes that remain, and each
section with a count of its own.  A reader has no result where an assertion stops it, or where it
would read behind the bytes it is given; that a section is read completely is such an assertion.
-/

namespace SeanetSim

def readU32 (buf : List UInt8) : Option (UInt32 × List UInt8) :=
  (readLE 4 buf).map fun r => (UInt32.ofNat r.1, r.2)

/-- What a section has still to read, and `sizeCheck`. -/
structure Reader where
  buf : List UInt8
  sizeCheck : UInt32

namespace Reader

/-- The size of a section includes its length word, which has been read. -/
def start (buf : List UInt8) (size : UInt32) : Reader := ⟨buf, size - 4⟩

def word (r : Reader) : Option (UInt32 × Reader) :=
  if 4 ≤ r.sizeCheck then
    (readU32 r.buf).map fun w => (w.1, ⟨w.2, r.sizeCheck - 4⟩)
  else none

/-- Bytes, and the gap behind them. -/
def padded (n : UInt32) (r : Reader) : Option (List UInt8 × Reader) :=
  if n ≤ r.sizeCheck then
    (takeBytes n.toNat r.buf).map fun b =>
      (b.1, ⟨r.buf.drop (align4 n).toNat, r.sizeCheck - align4 n⟩)
  else none

/-- `NS_ASSERT (sizeCheck == 0)`. -/
def done {α : Type} (a : α) (r : Reader) : Option α := if r.sizeCheck = 0 then some a else none

end Reader

namespace NixVector

/-- The loop over the words; each turn takes 4 from `sizeCheck`. -/
def readWords : ℕ → Reader → Option (List UInt32 × Reader)
  | 0, r => some ([], r)
  | fuel + 1, r =>
    if 0 < r.sizeCheck then do
      let (nix, r) ← r.word
      let (words, r) ← readWords fuel r
      some (nix :: words, r)
    else some ([], r)

/-- None for an empty vector, which has no last word. -/
def ofWords (used currentVectorBitSize totalBitSize : UInt32) (words : List UInt32) :
    Option NixVector :=
  words.getLast?.map fun back =>
    ⟨words.dropLast, back, used, currentVectorBitSize, totalBitSize⟩

def deserialize (buf : List UInt8) (size : UInt32) : Option NixVector := do
  let (used, r) ← (Reader.start buf size).word
  let (currentVectorBitSize, r) ← r.word
  let (totalBitSize, r) ← r.word
  let (words, r) ← readWords (r.sizeCheck.toNat / 4 + 1) r
  let nv ← ofWords used currentVectorBitSize totalBitSize words
  r.done nv

end NixVector

namespace ByteTags

def readTags (reg : TypeIdRegistry) : ℕ → Reader → ByteTags → Option (ByteTags × Reader)
  | 0, r, l => some (l, r)
  | n + 1, r, l => do
    let (hash, r) ← r.word
    let tid ← reg.lookupByHash hash
    let (bufferSize, r) ← r.word
    let (start, r) ← r.word
    let (end_, r) ← r.word
    let (data, r) ← r.padded bufferSize
    readTags reg n r (l.add ⟨tid, start.toInt32, end_.toInt32, data⟩)

def deserialize (reg : TypeIdRegistry) (buf : List UInt8) (size : UInt32) : Option ByteTags := do
  let (numberTagData, r) ← (Reader.start buf size).word
  let (l, r) ← readTags reg numberTagData.toNat r empty
  r.done l

end ByteTags

namespace PacketTag

def readTags (reg : TypeIdRegistry) : ℕ → Reader → Option (List PacketTag × Reader)
  | 0, r => some ([], r)
  | n + 1, r => do
    let (tagSize, r) ← r.word
    let (hash, r) ← r.word
    let tid ← reg.lookupByHash hash
    let (data, r) ← r.padded tagSize
    let (tags, r) ← readTags reg n r
    some (⟨tid, data⟩ :: tags, r)

/-- `PacketTagList::Deserialize`. -/
def deserialize (reg : TypeIdRegistry) (buf : List UInt8) (size : UInt32) :
    Option (List PacketTag) := do
  let (numberOfTags, r) ← (Reader.start buf size).word
  let (tags, r) ← readTags reg numberOfTags.toNat r
  r.done tags

end PacketTag

namespace PacketMetadata

/-- `current - start`, and `desSize`. -/
structure RawReader where
  buf : List UInt8
  current : ℕ
  desSize : UInt32

namespace RawReader

variable (maxSize : UInt32)

/-- `ReadFromRaw…`, which compares with the size of the section. -/
def bytes (n : ℕ) (r : RawReader) : Option (List UInt8 × RawReader) :=
  if r.current + n ≤ maxSize.toNat then
    (takeBytes n r.buf).map fun b =>
      (b.1, ⟨b.2, r.current + n, r.desSize - UInt32.ofNat n⟩)
  else none

def number (n : ℕ) (r : RawReader) : Option (ℕ × RawReader) :=
  (r.bytes maxSize n).map fun b => (ofBytesLE b.1, b.2)

end RawReader

/-- The id of the name, zero for payload. -/
def readUid (reg : TypeIdRegistry) (name : List UInt8) : Option UInt16 :=
  if name = [] then some 0 else reg.lookupByName name

/-- The loop over the items, which ends when no byte is left. -/
def readItems (reg : TypeIdRegistry) (maxSize : UInt32) : ℕ → RawReader →
    Option (List MetadataItem × RawReader)
  | 0, r => some ([], r)
  | fuel + 1, r =>
    if 0 < r.desSize then do
      let (uidStringSize, r) ← r.number maxSize 4
      let (uidString, r) ← r.bytes maxSize uidStringSize
      let uid ← readUid reg uidString
      let (isBig, r) ← r.number maxSize 1
      let (size, r) ← r.number maxSize 4
      let (chunkUid, r) ← r.number maxSize 2
      let (fragmentStart, r) ← r.number maxSize 4
      let (fragmentEnd, r) ← r.number maxSize 4
      let (packetUid, r) ← r.number maxSize 8
      let (items, r) ← readItems reg maxSize fuel r
      some (⟨uid.toUInt32 <<< 1 ||| UInt32.ofNat isBig, UInt32.ofNat size, UInt16.ofNat chunkUid,
        UInt32.ofNat fragmentStart, UInt32.ofNat fragmentEnd, UInt64.ofNat packetUid⟩ :: items, r)
    else some ([], r)

/-- The uid of the packet and the items that `AddBig` appends. -/
def deserialize (reg : TypeIdRegistry) (buf : List UInt8) (size : UInt32) :
    Option (UInt64 × List MetadataItem) := do
  let (packetUid, r) ← (RawReader.mk buf 0 (size - 4)).number size 8
  let (items, r) ← readItems reg size (r.desSize.toNat + 1) r
  if r.desSize = 0 then some (UInt64.ofNat packetUid, items) else none

end PacketMetadata

/-- `Buffer::Deserialize` of a new buffer.  Its three steps may each find other `memory`. -/
def Buffers.deserialize (m : Buffers) (memory : ℕ → List UInt8) (buf : List UInt8)
    (size : UInt32) : Option Buffers := do
  let i := m.buffers.length
  let (zeroDataLength, r) ← (Reader.start buf size).word
  let m ← (BufferOp.create zeroDataLength (memory 0)).exec m
  let (dataStartLength, r) ← r.word
  let (dataStart, r) ← r.padded dataStartLength
  let m ← (BufferOp.addAtStart i dataStartLength (memory 1) [(0, .bytes dataStart)]).exec m
  let (dataEndLength, r) ← r.word
  let (dataEnd, r) ← r.padded dataEndLength
  let m ← (BufferOp.addAtEnd i dataEndLength (memory 2) [(0, .bytes dataEnd)]).exec m
  r.done m

/-- What `Deserialize` returns, and the packet that it has filled; its buffer is the last one. -/
structure Deserialized where
  result : UInt32
  nixVector : Option NixVector
  byteTagList : ByteTags
  packetTagList : List PacketTag
  packetUid : UInt64
  items : List MetadataItem
  buffers : Buffers

namespace NetPacket

/-- The length of a section, the section, and the way to the next one. -/
def readSection {α : Type} (read : List UInt8 → UInt32 → Option α) (size : UInt32)
    (buf : List UInt8) : Option (α × UInt32 × List UInt8) := do
  let (n, buf) ← readU32 buf
  if n ≤ size then
    let a ← read buf n
    some (a, size - n, buf.drop (align4 (n - 4)).toNat)
  else none

/-- No nix-vector is read, and nothing passed, if there is only its length. -/
def readNixVector (size : UInt32) (buf : List UInt8) :
    Option (Option NixVector × UInt32 × List UInt8) := do
  let (nixSize, buf) ← readU32 buf
  if nixSize ≤ size then
    if 4 < nixSize then
      let nix ← NixVector.deserialize buf nixSize
      some (some nix, size - nixSize, buf.drop (align4 (nixSize - 4)).toNat)
    else some (none, size - nixSize, buf)
  else none

/-- `Deserialize` of a new packet, whose buffer is one more among those of the program. -/
def deserialize (reg : TypeIdRegistry) (m : Buffers) (memory : ℕ → List UInt8) (buf : List UInt8)
    (size : UInt32) : Option Deserialized := do
  let (nixVector, size, buf) ← readNixVector size buf
  let (byteTagList, size, buf) ← readSection (ByteTags.deserialize reg) size buf
  let (packetTagList, size, buf) ← readSection (PacketTag.deserialize reg) size buf
  let (metadata, size, buf) ← readSection (PacketMetadata.deserialize reg) size buf
  let (buffers, size, _) ← readSection (m.deserialize memory) size buf
  some ⟨if size = 0 then 1 else 0, nixVector, byteTagList, packetTagList, metadata.1, metadata.2,
    buffers⟩

end NetPacket

end SeanetSim
