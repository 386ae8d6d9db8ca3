import SeanetSim.Lib.SharedBlocks
import SeanetSim.Network.ByteTagList

/-!
# The memory of byte tag lists

The tags of a `ByteTagList` are in a block (`ByteTagListData`) that copies of the list share.  `Add`
writes behind the tags of its list if no other list has used the space there, which the dirty count
of the block tells, and otherwise to a copy of the block.  Blocks that have been freed are used
again where they are large enough.
-/

namespace SeanetSim

/-- The bytes of a tag in its list: four words and its data. -/
def ByteTag.space (t : ByteTag) : ℕ := 16 + t.data.length

/-- The tag with offsets relative to an adjustment. -/
def ByteTag.relative (adjustment : Int32) (t : ByteTag) : ByteTag :=
  { t with start := t.start - adjustment, end_ := t.end_ - adjustment }

/-- A block, with the tags that have been written to it one behind the other. -/
structure ByteTagListData where
  size : UInt32
  dirty : UInt32
  tags : List ByteTag

/-- The blocks, the sizes of those on the free list, the last one in front, and `g_maxSize`. -/
structure ByteTagHeap where
  blocks : SharedBlocks ByteTagListData
  freeList : List UInt32
  maxSize : UInt32

structure ByteTagList where
  minStart : Int32
  maxEnd : Int32
  adjustment : Int32
  used : UInt32
  data : Option ℕ
deriving DecidableEq, Repr

namespace ByteTagHeap

def init : ByteTagHeap := ⟨.empty, [], 0⟩

/-- Freed blocks that are too small are given up. -/
def allocateSize (size : UInt32) : List UInt32 → UInt32 × List UInt32
  | [] => (size, [])
  | s :: rest => if size ≤ s then (s, rest) else allocateSize size rest

/-- `Allocate`, with what is written to the block then. -/
def allocate (h : ByteTagHeap) (size : UInt32) (tags : List ByteTag) : ByteTagHeap :=
  let (s, rest) := allocateSize size h.freeList
  { h with blocks := h.blocks.alloc ⟨s, size, tags⟩, freeList := rest }

def share (h : ByteTagHeap) (data : Option ℕ) : Option ByteTagHeap :=
  (h.blocks.share data).map ({ h with blocks := · })

def deallocate (h : ByteTagHeap) : Option ℕ → Option ByteTagHeap
  | none => some h
  | some a => do
    let d ← h.blocks.block a
    let maxSize := max h.maxSize d.value.size
    let blocks ← h.blocks.release (some a)
    let freeList :=
      if d.count - 1 = 0 ∧ ¬ (1000 < h.freeList.length ∨ d.value.size < maxSize) then
        d.value.size :: h.freeList
      else h.freeList
    some ⟨blocks, freeList, maxSize⟩

end ByteTagHeap

/-- The tags in so many bytes of a block. -/
def tagsUpTo : ℕ → List ByteTag → List ByteTag
  | _, [] => []
  | 0, _ :: _ => []
  | n + 1, t :: tags => t :: tagsUpTo (n + 1 - t.space) tags

namespace ByteTagList

def empty : ByteTagList := ⟨Int32.maxValue, Int32.minValue, 0, 0, none⟩

def copy (h : ByteTagHeap) (o : ByteTagList) : Option (ByteTagHeap × ByteTagList) :=
  (h.share o.data).map (·, o)

/-- All that the iterator reports; none where it reads from a block that has been freed. -/
def begin_ (h : ByteTagHeap) (l : ByteTagList) (offsetStart offsetEnd : Int32) :
    Option (List ByteTag) :=
  match l.data with
  | none => some []
  | some a => (h.blocks.block a).map fun d =>
    (tagsUpTo l.used.toNat d.value.tags).filterMap
      (ByteTag.item offsetStart offsetEnd l.adjustment)

/-- The fields after `Add` of a tag with relative offsets. -/
def added (l : ByteTagList) (t : ByteTag) (used : UInt32) (data : ℕ) : ByteTagList where
  minStart := if t.start < l.minStart then t.start else l.minStart
  maxEnd := if l.maxEnd < t.end_ then t.end_ else l.maxEnd
  adjustment := l.adjustment
  used := used
  data := some data

/-- `Add`, and the data that is written then. -/
def add (h : ByteTagHeap) (l : ByteTagList) (t : ByteTag) : Option (ByteTagHeap × ByteTagList) :=
  let spaceNeeded := l.used + UInt32.ofNat t.data.length + 16
  let t := t.relative l.adjustment
  match l.data with
  | none => some (h.allocate spaceNeeded [t], l.added t spaceNeeded h.blocks.top)
  | some a => do
    let d ← h.blocks.block a
    let tags := tagsUpTo l.used.toNat d.value.tags ++ [t]
    if d.value.size < spaceNeeded ∨ (d.count ≠ 1 ∧ d.value.dirty ≠ l.used) then
      let h' ← (h.allocate spaceNeeded tags).deallocate (some a)
      some (h', l.added t spaceNeeded h.blocks.top)
    else
      some ({ h with blocks := h.blocks.write a ⟨d.value.size, spaceNeeded, tags⟩ },
        l.added t spaceNeeded a)

/-- `Add` for one item after the other. -/
def addEach (h : ByteTagHeap) (l : ByteTagList) :
    List ByteTag → Option (ByteTagHeap × ByteTagList)
  | [] => some (h, l)
  | t :: ts => do
    let (h, l) ← add h l t
    addEach h l ts

/-- `Add` of a list.  Its items are behind none of the bytes that are written meanwhile, so they are
read at once. -/
def addAll (h : ByteTagHeap) (l o : ByteTagList) : Option (ByteTagHeap × ByteTagList) := do
  addEach h l (← o.begin_ h 0 Int32.maxValue)

def adjust (l : ByteTagList) (adjustment : Int32) : ByteTagList :=
  { l with adjustment := l.adjustment + adjustment }

/-- A local list with the items is assigned to this one and destroyed. -/
def rebuild (h : ByteTagHeap) (l : ByteTagList) (items : List ByteTag) :
    Option (ByteTagHeap × ByteTagList) := do
  let (h, list) ← addEach h empty items
  let h ← h.deallocate l.data
  let h ← h.share list.data
  let h ← h.deallocate list.data
  some (h, list)

def addAtEnd (h : ByteTagHeap) (l : ByteTagList) (appendOffset : Int32) :
    Option (ByteTagHeap × ByteTagList) :=
  if l.maxEnd ≤ appendOffset - l.adjustment then some (h, l)
  else do
    let items ← l.begin_ h 0 Int32.maxValue
    rebuild h l (items.filterMap (ByteTags.clipEnd appendOffset))

def addAtStart (h : ByteTagHeap) (l : ByteTagList) (prependOffset : Int32) :
    Option (ByteTagHeap × ByteTagList) :=
  if prependOffset - l.adjustment ≤ l.minStart then some (h, l)
  else do
    let items ← l.begin_ h 0 Int32.maxValue
    rebuild h l (items.filterMap (ByteTags.clipStart prependOffset))

end ByteTagList

end SeanetSim
