import Mathlib.Data.UInt
import Mathlib.Logic.Function.Basic

/-!
# Packet tag lists

A `PacketTagList` shares the nodes with its tags with the lists of the copies of its packet, and
each node counts the pointers to it.  All the lists of a program are modelled together, with the
nodes on the heap.

An address is not used a second time, so that a pointer to a node that has been freed would be seen;
an operation has no result if it uses one.  That a list holds one tag of a kind at most, which `Add`
asserts, is not relied on.
-/

namespace SeanetSim

/-- A tag as it serializes itself. -/
structure PacketTag where
  tid : UInt16
  data : List UInt8
deriving DecidableEq, Repr

/-- `TagData`, whose `size` is the length of `data`. -/
structure TagData where
  next : Option ℕ
  count : UInt32
  tid : UInt16
  data : List UInt8
deriving DecidableEq, Repr

def TagData.tag (nd : TagData) : PacketTag := ⟨nd.tid, nd.data⟩

/-- Where a pointer to a node is kept: the `m_next` of a list, or the `next` of a node. -/
abbrev TagPlace := ℕ ⊕ ℕ

@[ext]
structure TagTree where
  nodes : ℕ → Option TagData
  /-- The first address that has not been used. -/
  top : ℕ
  /-- `m_next` of the lists. -/
  lists : ℕ → Option ℕ
  /-- How many lists there have been. -/
  size : ℕ

namespace TagTree

def empty : TagTree := ⟨fun _ => none, 0, fun _ => none, 0⟩

section Operations

variable (s : TagTree)

def setNode (a : ℕ) (nd : TagData) : TagTree :=
  { s with nodes := Function.update s.nodes a (some nd) }

def free (a : ℕ) : TagTree := { s with nodes := Function.update s.nodes a none }

/-- `CreateTagData`, filled with `nd`, at the address `s.top`. -/
def createTagData (nd : TagData) : TagTree := { s.setNode s.top nd with top := s.top + 1 }

/-- `*prevNext = p`. -/
def setPtr (prevNext : TagPlace) (p : Option ℕ) : TagTree :=
  match prevNext with
  | .inl i => { s with lists := Function.update s.lists i p }
  | .inr a =>
    { s with nodes := Function.update s.nodes a ((s.nodes a).map fun nd => { nd with next := p }) }

/-- `p->count++`, if there is a node. -/
def countUp : Option ℕ → Option TagTree
  | none => some s
  | some a => (s.nodes a).map fun nd => s.setNode a { nd with count := nd.count + 1 }

/-- `cur->count--`. -/
def countDown (cur : ℕ) : Option TagTree :=
  (s.nodes cur).map fun nd => s.setNode cur { nd with count := nd.count - 1 }

/-- The list gets a node with `tag` of its own in the place of the shared `cur`. -/
def copyNode (tag : PacketTag) (cur : ℕ) (prevNext : TagPlace) : Option TagTree := do
  let nd ← s.nodes cur
  let s₁ ← s.countDown cur
  let s₂ ← (s₁.createTagData ⟨nd.next, 1, tag.tid, tag.data⟩).countUp nd.next
  return s₂.setPtr prevNext (some s.top)

/-- What the first loop of `COWTraverse` ends with. -/
inductive Search
  | absent
  | found (cur : ℕ) (prevNext : TagPlace)
  | merge (cur : ℕ) (prevNext : TagPlace)

/-- The first loop of `COWTraverse`. -/
def search (tid : UInt16) : ℕ → Option ℕ → TagPlace → Option Search
  | _, none, _ => some .absent
  | 0, some _, _ => none
  | fuel + 1, some cur, prevNext => do
    let nd ← s.nodes cur
    if nd.count > 1 then return .merge cur prevNext
    else if nd.tid = tid then return .found cur prevNext
    else search tid fuel nd.next (.inr cur)

/-- The second loop of `COWTraverse`, which looks whether there is a tag of the kind at all. -/
def holds (tid : UInt16) : ℕ → Option ℕ → Option Bool
  | _, none => some false
  | 0, some _ => none
  | fuel + 1, some it => do
    let nd ← s.nodes it
    if nd.tid = tid then return true
    else holds tid fuel nd.next

/-- The third loop of `COWTraverse`, which copies the nodes before the one of the kind. -/
def copyUntil (tid : UInt16) : ℕ → TagTree → ℕ → TagPlace → Option (TagTree × ℕ × TagPlace)
  | 0, _, _, _ => none
  | fuel + 1, s, cur, prevNext => do
    let nd ← s.nodes cur
    if nd.tid = tid then return (s, cur, prevNext)
    else
      let next ← nd.next
      let s' ← s.copyNode nd.tag cur prevNext
      copyUntil tid fuel s' next (.inr s.top)

/-- A `COWWriter`, with what the tag contains in the end. -/
abbrev Writer := TagTree → Bool → ℕ → TagPlace → Option (TagTree × List UInt8)

/-- `COWTraverse`: what the tag contains in the end, if it has been found. -/
def cowTraverse (i : ℕ) (tid : UInt16) (writer : Writer) :
    Option (TagTree × Option (List UInt8)) := do
  match ← s.search tid s.top (s.lists i) (.inl i) with
  | .absent => return (s, none)
  | .found cur prevNext =>
    let (s', data) ← writer s true cur prevNext
    return (s', some data)
  | .merge cur prevNext =>
    if ← s.holds tid s.top (some cur) then
      let (s', cur', prevNext') ← copyUntil tid s.top s cur prevNext
      let (s'', data) ← writer s' false cur' prevNext'
      return (s'', some data)
    else return (s, none)

def removeWriter : Writer := fun s preMerge cur prevNext => do
  let nd ← s.nodes cur
  let s₁ := s.setPtr prevNext nd.next
  if preMerge then return (s₁.free cur, nd.data)
  else
    let s₂ ← s₁.countDown cur
    return (← s₂.countUp nd.next, nd.data)

/-- What is in a buffer of the size of `old` when `data` has been written to its begin; what does
not fit in is written behind it. -/
def overwrite (old data : List UInt8) : List UInt8 :=
  data.take old.length ++ old.drop data.length

def replaceWriter (tag : PacketTag) : Writer := fun s preMerge cur prevNext => do
  let nd ← s.nodes cur
  if preMerge then return (s.setNode cur { nd with data := overwrite nd.data tag.data }, tag.data)
  else return (← s.copyNode tag cur prevNext, tag.data)

def add (i : ℕ) (tag : PacketTag) : TagTree :=
  (s.createTagData ⟨s.lists i, 1, tag.tid, tag.data⟩).setPtr (.inl i) (some s.top)

def remove (i : ℕ) (tid : UInt16) : Option (TagTree × Option (List UInt8)) :=
  s.cowTraverse i tid removeWriter

def replace (i : ℕ) (tag : PacketTag) : Option (TagTree × Option (List UInt8)) := do
  let (s', found) ← s.cowTraverse i tag.tid (replaceWriter tag)
  if found.isSome then return (s', found)
  else return (s'.add i tag, none)

/-- `free (prev)`, if there is a node. -/
def freePrev : Option ℕ → TagTree
  | none => s
  | some prev => s.free prev

/-- The loop of `RemoveAll`. -/
def release : ℕ → TagTree → Option ℕ → Option ℕ → Option TagTree
  | _, s, none, prev => some (s.freePrev prev)
  | 0, _, some _, _ => none
  | fuel + 1, s, some cur, prev => do
    let nd ← s.nodes cur
    let s' := s.setNode cur { nd with count := nd.count - 1 }
    if nd.count - 1 > 0 then return s'.freePrev prev
    else release fuel (s'.freePrev prev) nd.next (some cur)

def removeAll (i : ℕ) : Option TagTree := do
  let s' ← release s.top s (s.lists i) none
  return s'.setPtr (.inl i) none

/-- The constructor. -/
def create : TagTree := { s with size := s.size + 1 }

/-- The copy constructor. -/
def copy (o : ℕ) : Option TagTree := (s.create.setPtr (.inl s.size) (s.lists o)).countUp (s.lists o)

/-- `operator =`. -/
def assign (i o : ℕ) : Option TagTree :=
  if s.lists i = s.lists o then some s
  else do
    let s' ← s.removeAll i
    (s'.setPtr (.inl i) (s'.lists o)).countUp (s'.lists o)

/-- The loop of `Peek`. -/
def peekFrom (tid : UInt16) : ℕ → Option ℕ → Option (Option (List UInt8))
  | _, none => some none
  | 0, some _ => none
  | fuel + 1, some cur => do
    let nd ← s.nodes cur
    if nd.tid = tid then return some nd.data
    else peekFrom tid fuel nd.next

def peek (i : ℕ) (tid : UInt16) : Option (Option (List UInt8)) :=
  s.peekFrom tid s.top (s.lists i)

/-- All that is found from a node on. -/
def read : ℕ → Option ℕ → Option (List PacketTag)
  | _, none => some []
  | 0, some _ => none
  | fuel + 1, some cur => do
    let nd ← s.nodes cur
    let rest ← read fuel nd.next
    return nd.tag :: rest

def tags (i : ℕ) : Option (List PacketTag) := s.read s.top (s.lists i)

end Operations

end TagTree

inductive TagOp
  | create
  | copy (o : ℕ)
  | assign (i o : ℕ)
  | add (i : ℕ) (tag : PacketTag)
  | remove (i : ℕ) (tid : UInt16)
  | replace (i : ℕ) (tag : PacketTag)
  | removeAll (i : ℕ)
deriving DecidableEq, Repr

namespace TagOp

/-- The lists that an operation is about are there. -/
def Valid (size : ℕ) : TagOp → Prop
  | .create => True
  | .copy o => o < size
  | .assign i o => i < size ∧ o < size
  | .add i _ => i < size
  | .remove i _ => i < size
  | .replace i _ => i < size
  | .removeAll i => i < size

instance (op : TagOp) (size : ℕ) : Decidable (op.Valid size) := by
  unfold Valid
  split <;> infer_instance

/-- The operation on the lists of all packets, with what the tag contains in the end if it has been
found. -/
def exec (s : TagTree) : TagOp → Option (TagTree × Option (List UInt8))
  | .create => some (s.create, none)
  | .copy o => (s.copy o).map (·, none)
  | .assign i o => (s.assign i o).map (·, none)
  | .add i tag => some (s.add i tag, none)
  | .remove i tid => s.remove i tid
  | .replace i tag => s.replace i tag
  | .removeAll i => (s.removeAll i).map (·, none)

/-- A list of tags with `tag` in the place of the first one of its kind. -/
def replaceFirst (tag : PacketTag) : List PacketTag → List PacketTag
  | [] => []
  | t :: l => if t.tid = tag.tid then tag :: l else t :: replaceFirst tag l

/-- What the operation makes of the lists where each has its tags to itself. -/
def onPrivate (ls : List (List PacketTag)) : TagOp → List (List PacketTag)
  | .create => ls ++ [[]]
  | .copy o => ls ++ [ls.getD o []]
  | .assign i o => ls.set i (ls.getD o [])
  | .add i tag => ls.modify i (tag :: ·)
  | .remove i tid => ls.modify i (·.eraseP (·.tid = tid))
  | .replace i tag => ls.modify i fun l =>
      if l.any (·.tid = tag.tid) then replaceFirst tag l else tag :: l
  | .removeAll i => ls.set i []

/-- What the tag contains in the end there. -/
def answer (ls : List (List PacketTag)) : TagOp → Option (List UInt8)
  | .remove i tid => ((ls.getD i []).find? (·.tid = tid)).map (·.data)
  | .replace i tag => ((ls.getD i []).find? (·.tid = tag.tid)).map fun _ => tag.data
  | _ => none

end TagOp

end SeanetSim
