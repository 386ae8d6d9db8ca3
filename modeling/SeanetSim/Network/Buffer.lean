import Mathlib.Data.UInt
import SeanetSim.Lib.Buffer
import SeanetSim.Lib.SharedBlocks

/-!
# The packet buffer

`Buffer` is the bytes of a packet with an area of zeros in the middle that takes no memory.  Copies
share one block of memory (`Buffer::Data`), which notes in its dirty area what any of them has used:
a buffer grows in place only at an end of this area, and otherwise moves to a block of its own.
Offsets are virtual, that is, those behind the zero area count its bytes.
-/

namespace SeanetSim

/-- `Buffer::Data` without its count; `m_size` is the length of `data`. -/
structure BufferData where
  dirtyStart : UInt32
  dirtyEnd : UInt32
  data : List UInt8
deriving DecidableEq, Repr

def BufferData.size (d : BufferData) : UInt32 := UInt32.ofNat d.data.length

abbrev BufferHeap := SharedBlocks BufferData

structure Buffer where
  data : ℕ
  maxZeroAreaStart : UInt32
  zeroAreaStart : UInt32
  zeroAreaEnd : UInt32
  start : UInt32
  end_ : UInt32
deriving DecidableEq, Repr

/-- The bytes of the block that `Create` finds for a size, at least as many: whatever `memory` is
there, for `Allocate` does not initialize. -/
def Buffer.room (dataSize : UInt32) (memory : List UInt8) : List UInt8 :=
  memory.take (2 ^ 32 - 1) ++ List.replicate (max 1 dataSize.toNat - memory.length) 0

/-- `memcpy` into a block; none where it has been freed or ends before. -/
def SharedBlocks.writeData (h : BufferHeap) (a off : ℕ) (src : List UInt8) : Option BufferHeap := do
  let d ← h.block a
  let data ← writeAt d.value.data off src
  some (h.write a { d.value with data := data })

namespace Buffer

def getSize (b : Buffer) : UInt32 := b.end_ - b.start

def getInternalSize (b : Buffer) : UInt32 := b.zeroAreaStart - b.start + b.end_ - b.zeroAreaEnd

def getInternalEnd (b : Buffer) : UInt32 := b.end_ - (b.zeroAreaEnd - b.zeroAreaStart)

/-- The last line of each operation. -/
def raiseMax (b : Buffer) : Buffer :=
  { b with maxZeroAreaStart := max b.maxZeroAreaStart b.zeroAreaStart }

/-- A new buffer of `zeroSize` zeros. -/
def initialized (h : BufferHeap) (recommendedStart zeroSize : UInt32) (memory : List UInt8) :
    BufferHeap × Buffer :=
  let data := room 0 memory
  let start := min (UInt32.ofNat data.length) recommendedStart
  let zeroAreaEnd := start + zeroSize
  (h.alloc ⟨start, zeroAreaEnd, data⟩, ⟨h.top, start, start, zeroAreaEnd, start, zeroAreaEnd⟩)

/-- The copy constructor. -/
def copy (h : BufferHeap) (o : Buffer) : Option (BufferHeap × Buffer) := do
  let h ← h.share (some o.data)
  some (h, { o with maxZeroAreaStart := o.zeroAreaStart })

/-- `operator =`; the old start of the zero area goes into the recommended one. -/
def assign (h : BufferHeap) (recommendedStart : UInt32) (b o : Buffer) :
    Option (BufferHeap × UInt32 × Buffer) := do
  let h ← if b.data ≠ o.data then do
      let h ← h.release (some b.data)
      h.share (some o.data)
    else some h
  some (h, max recommendedStart b.maxZeroAreaStart, o)

def destroy (h : BufferHeap) (recommendedStart : UInt32) (b : Buffer) :
    Option (BufferHeap × UInt32) := do
  let h ← h.release (some b.data)
  some (h, max recommendedStart b.maxZeroAreaStart)

/-- There is room before the start, and no other buffer has used it. -/
def GrowsAtStart (d : Counted BufferData) (b : Buffer) (start : UInt32) : Prop :=
  start ≤ b.start ∧ ¬ (1 < d.count ∧ d.value.dirtyStart < b.start)

instance (d : Counted BufferData) (b : Buffer) (start : UInt32) :
    Decidable (GrowsAtStart d b start) := by
  unfold GrowsAtStart
  infer_instance

def addAtStart (h : BufferHeap) (b : Buffer) (start : UInt32) (memory : List UInt8) :
    Option (BufferHeap × Buffer) := do
  let d ← h.block b.data
  if GrowsAtStart d b start then
    let b' := { b with start := b.start - start }
    some (h.write b.data { d.value with dirtyStart := b'.start }, b'.raiseMax)
  else
    let newSize := b.getInternalSize + start
    let src ← readAt d.value.data b.start.toNat b.getInternalSize.toNat
    let data ← writeAt (room newSize memory) start.toNat src
    let delta := start - b.start
    let b' := { b with
      data := h.top
      start := b.start + delta - start
      zeroAreaStart := b.zeroAreaStart + delta
      zeroAreaEnd := b.zeroAreaEnd + delta
      end_ := b.end_ + delta }
    let h ← (h.alloc ⟨b'.start, b'.end_, data⟩).release (some b.data)
    some (h, b'.raiseMax)

/-- There is room behind the end, and no other buffer has used it. -/
def GrowsAtEnd (d : Counted BufferData) (b : Buffer) (end_ : UInt32) : Prop :=
  b.getInternalEnd + end_ ≤ d.value.size ∧ ¬ (1 < d.count ∧ b.end_ < d.value.dirtyEnd)

instance (d : Counted BufferData) (b : Buffer) (end_ : UInt32) :
    Decidable (GrowsAtEnd d b end_) := by
  unfold GrowsAtEnd
  infer_instance

def addAtEnd (h : BufferHeap) (b : Buffer) (end_ : UInt32) (memory : List UInt8) :
    Option (BufferHeap × Buffer) := do
  let d ← h.block b.data
  if GrowsAtEnd d b end_ then
    let b' := { b with end_ := b.end_ + end_ }
    some (h.write b.data { d.value with dirtyEnd := b'.end_ }, b'.raiseMax)
  else
    let newSize := b.getInternalSize + end_
    let src ← readAt d.value.data b.start.toNat b.getInternalSize.toNat
    let data ← writeAt (room newSize memory) 0 src
    let delta := -b.start
    let b' := { b with
      data := h.top
      zeroAreaStart := b.zeroAreaStart + delta
      zeroAreaEnd := b.zeroAreaEnd + delta
      end_ := b.end_ + delta + end_
      start := b.start + delta }
    let h ← (h.alloc ⟨b'.start, b'.end_, data⟩).release (some b.data)
    some (h, b'.raiseMax)

def removeAtStart (b : Buffer) (start : UInt32) : Buffer :=
  let newStart := b.start + start
  raiseMax <|
    if newStart ≤ b.zeroAreaStart then
      { b with start := newStart }
    else if newStart ≤ b.zeroAreaEnd then
      let delta := newStart - b.zeroAreaStart
      { b with
        start := b.zeroAreaStart
        zeroAreaEnd := b.zeroAreaEnd - delta
        end_ := b.end_ - delta }
    else if newStart ≤ b.end_ then
      let zeroSize := b.zeroAreaEnd - b.zeroAreaStart
      { b with
        start := newStart - zeroSize
        end_ := b.end_ - zeroSize
        zeroAreaStart := newStart - zeroSize
        zeroAreaEnd := newStart - zeroSize }
    else
      let end_ := b.end_ - (b.zeroAreaEnd - b.zeroAreaStart)
      { b with end_ := end_, start := end_, zeroAreaEnd := end_, zeroAreaStart := end_ }

def removeAtEnd (b : Buffer) (end_ : UInt32) : Buffer :=
  let newEnd := b.end_ - min end_ (b.end_ - b.start)
  raiseMax <|
    if b.zeroAreaEnd < newEnd then
      { b with end_ := newEnd }
    else if b.zeroAreaStart < newEnd then
      { b with end_ := newEnd, zeroAreaEnd := newEnd }
    else if b.start < newEnd then
      { b with end_ := newEnd, zeroAreaEnd := newEnd, zeroAreaStart := newEnd }
    else
      { b with end_ := b.start, zeroAreaEnd := b.start, zeroAreaStart := b.start }

def createFragment (h : BufferHeap) (b : Buffer) (start length : UInt32) :
    Option (BufferHeap × Buffer) := do
  let (h, tmp) ← copy h b
  some (h, (tmp.removeAtStart start).removeAtEnd (b.getSize - (start + length)))

/-- `CopyData` of the whole buffer. -/
def copyData (h : BufferHeap) (b : Buffer) : Option (List UInt8) := do
  let d ← h.block b.data
  let dataStart ← readAt d.value.data b.start.toNat (b.zeroAreaStart - b.start).toNat
  let zeroes := List.replicate (b.zeroAreaEnd - b.zeroAreaStart).toNat 0
  let dataEnd ← readAt d.value.data b.zeroAreaStart.toNat (b.end_ - b.zeroAreaEnd).toNat
  some (dataStart ++ zeroes ++ dataEnd)

/-- `Buffer::Iterator`. -/
structure Iterator where
  zeroStart : UInt32
  zeroEnd : UInt32
  dataStart : UInt32
  dataEnd : UInt32
  current : UInt32
  data : ℕ

/-- `Begin`. -/
def begin_ (b : Buffer) : Iterator :=
  ⟨b.zeroAreaStart, b.zeroAreaEnd, b.start, b.end_, b.start, b.data⟩

/-- `End`. -/
def atEnd (b : Buffer) : Iterator :=
  ⟨b.zeroAreaStart, b.zeroAreaEnd, b.start, b.end_, b.end_, b.data⟩

namespace Iterator

def next (i : Iterator) (delta : UInt32) : Iterator := { i with current := i.current + delta }

def prev (i : Iterator) (delta : UInt32) : Iterator := { i with current := i.current - delta }

def writeU8 (h : BufferHeap) (i : Iterator) (data : UInt8) : Option (BufferHeap × Iterator) := do
  let pos :=
    if i.current < i.zeroStart then i.current else i.current - (i.zeroEnd - i.zeroStart)
  let h ← h.writeData i.data pos.toNat [data]
  some (h, i.next 1)

def write (h : BufferHeap) (i : Iterator) (buffer : List UInt8) :
    Option (BufferHeap × Iterator) := do
  let pos :=
    if i.current ≤ i.zeroStart then i.current else i.current - (i.zeroEnd - i.zeroStart)
  let h ← h.writeData i.data pos.toNat buffer
  some (h, i.next (UInt32.ofNat buffer.length))

end Iterator

end Buffer

/-- A call that writes: `WriteU8` or `Write`. -/
inductive BufferWrite
  | u8 (data : UInt8)
  | bytes (buffer : List UInt8)
deriving DecidableEq, Repr

namespace BufferWrite

def content : BufferWrite → List UInt8
  | u8 data => [data]
  | bytes buffer => buffer

def exec (h : BufferHeap) (i : Buffer.Iterator) : BufferWrite → Option BufferHeap
  | u8 data => (i.writeU8 h data).map (·.1)
  | bytes buffer => (i.write h buffer).map (·.1)

/-- Writes one after the other, each at an offset from the iterator. -/
def execAll (h : BufferHeap) (i : Buffer.Iterator) : List (UInt32 × BufferWrite) → Option BufferHeap
  | [] => some h
  | (k, w) :: ws => do
    let h ← w.exec h (i.next k)
    execAll h i ws

/-- What the writes make of a list of bytes, when they are made at a position of it. -/
def onList (bytes : List UInt8) (pos : ℕ) : List (UInt32 × BufferWrite) → List UInt8
  | [] => bytes
  | (k, w) :: ws => onList (memcpy bytes (pos + k.toNat) w.content) pos ws

/-- The writes are to the first `n` bytes. -/
def Within (n : UInt32) (ws : List (UInt32 × BufferWrite)) : Prop :=
  ∀ w ∈ ws, w.1.toNat + w.2.content.length ≤ n.toNat

instance (n : UInt32) (ws : List (UInt32 × BufferWrite)) : Decidable (Within n ws) :=
  inferInstanceAs (Decidable (∀ w ∈ ws, w.1.toNat + w.2.content.length ≤ n.toNat))

end BufferWrite

namespace Buffer

/-- `AddAtStart`, and writes from `Begin` on. -/
def prepend (h : BufferHeap) (b : Buffer) (start : UInt32) (memory : List UInt8)
    (ws : List (UInt32 × BufferWrite)) : Option (BufferHeap × Buffer) := do
  let (h, b) ← addAtStart h b start memory
  let h ← BufferWrite.execAll h b.begin_ ws
  some (h, b)

/-- `AddAtEnd`, and writes from so many bytes before `End` on. -/
def append (h : BufferHeap) (b : Buffer) (end_ : UInt32) (memory : List UInt8)
    (ws : List (UInt32 × BufferWrite)) : Option (BufferHeap × Buffer) := do
  let (h, b) ← addAtEnd h b end_ memory
  let h ← BufferWrite.execAll h (b.atEnd.prev end_) ws
  some (h, b)

end Buffer

end SeanetSim
