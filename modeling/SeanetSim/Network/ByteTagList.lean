import Mathlib.Data.UInt

/-!
# Byte tags

A byte tag is about a range of the bytes of a packet.  `ByteTagList` keeps the ranges relative to an
adjustment, so that they move with one addition when bytes are put in front or taken away there, and
it clips a range only when other bytes come where it has reached.
-/

namespace SeanetSim

/-- A tag in the list, or as the iterator reports it; its `size` is the length of `data`. -/
structure ByteTag where
  tid : UInt16
  start : Int32
  end_ : Int32
  data : List UInt8
deriving DecidableEq, Repr

/-- `Iterator::PrepareForNext` and `Next`: the tag clipped to the offsets, if it is not skipped. -/
def ByteTag.item (offsetStart offsetEnd adjustment : Int32) (t : ByteTag) : Option ByteTag :=
  let start := t.start + adjustment
  let end_ := t.end_ + adjustment
  if offsetEnd ≤ start ∨ end_ ≤ offsetStart then none
  else some { t with start := max start offsetStart, end_ := min end_ offsetEnd }

/-- A `ByteTagList` with the tags that its memory holds up to `m_used`. -/
structure ByteTags where
  minStart : Int32
  maxEnd : Int32
  adjustment : Int32
  tags : List ByteTag
deriving DecidableEq, Repr

namespace ByteTags

def empty : ByteTags := ⟨Int32.maxValue, Int32.minValue, 0, []⟩

def adjust (l : ByteTags) (adjustment : Int32) : ByteTags :=
  { l with adjustment := l.adjustment + adjustment }

/-- All that the iterator reports from `Begin` on. -/
def begin_ (l : ByteTags) (offsetStart offsetEnd : Int32) : List ByteTag :=
  l.tags.filterMap (ByteTag.item offsetStart offsetEnd l.adjustment)

def beginAll (l : ByteTags) : List ByteTag := l.begin_ 0 Int32.maxValue

/-- `Add`, and the data that is written then. -/
def add (l : ByteTags) (t : ByteTag) : ByteTags :=
  let start := t.start - l.adjustment
  let end_ := t.end_ - l.adjustment
  { l with
    minStart := if start < l.minStart then start else l.minStart
    maxEnd := if l.maxEnd < end_ then end_ else l.maxEnd
    tags := l.tags ++ [{ t with start := start, end_ := end_ }] }

/-- `Add` of a list. -/
def addAll (l o : ByteTags) : ByteTags := o.beginAll.foldl add l

/-- The tag ends where other bytes are going to be. -/
def clipEnd (appendOffset : Int32) (t : ByteTag) : Option ByteTag :=
  if appendOffset ≤ t.start then none
  else some { t with end_ := if appendOffset < t.end_ then appendOffset else t.end_ }

def addAtEnd (l : ByteTags) (appendOffset : Int32) : ByteTags :=
  if l.maxEnd ≤ appendOffset - l.adjustment then l
  else (l.beginAll.filterMap (clipEnd appendOffset)).foldl add empty

def clipStart (prependOffset : Int32) (t : ByteTag) : Option ByteTag :=
  if t.end_ ≤ prependOffset then none
  else some { t with start := if t.start < prependOffset then prependOffset else t.start }

def addAtStart (l : ByteTags) (prependOffset : Int32) : ByteTags :=
  if prependOffset - l.adjustment ≤ l.minStart then l
  else (l.beginAll.filterMap (clipStart prependOffset)).foldl add empty

theorem foldl_add {l : ByteTags} (hl : l.adjustment = 0) (ts : List ByteTag) :
    (ts.foldl add l).adjustment = 0 ∧ (ts.foldl add l).tags = l.tags ++ ts := by
  induction ts generalizing l with
  | nil => exact ⟨hl, (List.append_nil _).symm⟩
  | cons t ts ih =>
    have hadd : (l.add t).tags = l.tags ++ [t] := by
      simp only [add, hl, Int32.sub_zero]
    obtain ⟨hadjustment, htags⟩ := ih (l := l.add t) hl
    exact ⟨hadjustment, by rw [List.foldl_cons, htags, hadd, List.append_assoc]; rfl⟩

theorem int32_max_def (a b : Int32) : max a b = if a ≤ b then b else a := rfl

theorem int32_min_def (a b : Int32) : min a b = if a ≤ b then a else b := rfl

end ByteTags

end SeanetSim
