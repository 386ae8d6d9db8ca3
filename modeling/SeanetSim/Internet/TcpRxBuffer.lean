import Mathlib.Data.List.Basic
import Mathlib.Tactic.SplitIfs
import SeanetSim.Network.SequenceNumber
import SeanetSim.Lib.Run

/-!
# The receive buffer of TCP

`TcpRxBuffer` over any type of sequence numbers.  `Add` cuts a segment down to what is not stored
yet and keeps it in a map by sequence number; `Extract` takes bytes from the front.
-/

namespace SeanetSim

open SequenceNumber

/-- A packet in the buffer under the sequence number of its first byte. -/
abbrev RxBlock (S : Type) := S × List UInt8

abbrev SackBlock (S : Type) := S × S

@[ext]
structure TcpRxBuffer (S : Type) where
  sackList : List (SackBlock S)
  nextRxSeq : S
  finSeq : S
  gotFin : Bool
  size : ℕ
  maxBuffer : ℕ
  availBytes : ℕ
  data : List (RxBlock S)
deriving DecidableEq

/-- What is done to a buffer. -/
inductive RxEvent (S : Type)
  | add (headSeq : S) (payload : List UInt8)
  | extract (maxSize : ℕ)
  | setFinSequence (s : S)

/-- The buffers that a run has left, with what was done to them and what the application got. -/
abbrev RxTrace (S : Type) := List (TcpRxBuffer S × RxEvent S × List UInt8)

namespace TcpRxBuffer

section Code

variable {S : Type} [SequenceNumber S] [DecidableEq S]

/-- `lastByteSeq`, the number behind the last byte. -/
def blockEnd (i : RxBlock S) : S := SequenceNumber.add i.1 i.2.length

def maxRxSequence (b : TcpRxBuffer S) : S :=
  if b.gotFin then b.finSeq
  else
    match b.data with
    | [] => SequenceNumber.add b.nextRxSeq b.maxBuffer
    | i :: _ =>
      if gt b.nextRxSeq i.1 then SequenceNumber.add i.1 b.maxBuffer
      else SequenceNumber.add b.nextRxSeq b.maxBuffer

def setFinSequence (b : TcpRxBuffer S) (s : S) : TcpRxBuffer S :=
  { b with
    gotFin := true
    finSeq := s
    nextRxSeq := if b.nextRxSeq = s then SequenceNumber.add b.nextRxSeq 1 else b.nextRxSeq }

/-! ### The map -/

/-- `m_data[key] = p`. -/
def store (key : S) (p : List UInt8) : List (RxBlock S) → List (RxBlock S)
  | [] => [(key, p)]
  | i :: rest =>
    if lt key i.1 then (key, p) :: i :: rest
    else if lt i.1 key then i :: store key p rest
    else (key, p) :: rest

/-- `m_data.find (key) != m_data.end ()`. -/
def isStored (key : S) (data : List (RxBlock S)) : Bool :=
  data.any fun i => !lt key i.1 && !lt i.1 key

/-! ### The list of SACK blocks -/

/-- What comes of two blocks that touch; `none` where an assertion fails. -/
def touch (first current : SackBlock S) : Option (Option (SackBlock S)) :=
  if first.1 = current.2 then
    if lt current.1 first.2 then some (some (current.1, first.2)) else none
  else if first.2 = current.1 then
    if lt first.1 current.2 then some (some (first.1, current.2)) else none
  else some none

/-- The first block that touches the one in front, merged with it, and the blocks without it. -/
def mergeFirst (first : SackBlock S) :
    List (SackBlock S) → Option (Option (SackBlock S × List (SackBlock S)))
  | [] => some none
  | current :: rest => do
    match ← touch first current with
    | some merged => some (some (merged, rest))
    | none =>
      match ← mergeFirst first rest with
      | some (merged, rest) => some (some (merged, current :: rest))
      | none => some none

/-- The loop of `UpdateSackList`, which starts again after each of at most `fuel` merges. -/
def mergeLoop : ℕ → SackBlock S → List (SackBlock S) → Option (List (SackBlock S))
  | 0, first, rest => some (first :: rest)
  | fuel + 1, first, rest => do
    match ← mergeFirst first rest with
    | some (merged, rest) => mergeLoop fuel merged rest
    | none => some (first :: rest)

def updateSackList (b : TcpRxBuffer S) (head tail : S) : Option (TcpRxBuffer S) :=
  if gt head b.nextRxSeq then do
    let sackList ← mergeLoop b.sackList.length (head, tail) b.sackList
    some { b with sackList := if 4 < sackList.length then sackList.dropLast else sackList }
  else none

def clearSackList (seq : S) (sackList : List (SackBlock S)) : Option (List (SackBlock S)) :=
  if sackList.all fun block => lt block.1 block.2 then
    some (sackList.filter fun block => !le block.2 seq)
  else none

/-! ### Add -/

/-- The segment as far as it lies in the window; the window starts at the first stored block. -/
def trimToWindow (b : TcpRxBuffer S) (headSeq tailSeq : S) : S × S :=
  let headSeq := if lt headSeq b.nextRxSeq then b.nextRxSeq else headSeq
  match b.data with
  | [] => (headSeq, tailSeq)
  | i :: _ =>
    let maxSeq := SequenceNumber.add i.1 b.maxBuffer
    let tailSeq := if lt maxSeq tailSeq then maxSeq else tailSeq
    (if lt tailSeq headSeq then tailSeq else headSeq, tailSeq)

/-- The loop over the stored blocks that overlap the segment: the blocks that stay, what is left of
the segment, and the size. -/
def removeOverlap : List (RxBlock S) → S → S → ℕ → List (RxBlock S) × S × S × ℕ
  | [], headSeq, tailSeq, size => ([], headSeq, tailSeq, size)
  | i :: rest, headSeq, tailSeq, size =>
    if le i.1 tailSeq then
      let lastByteSeq := blockEnd i
      if gt lastByteSeq headSeq then
        if gt i.1 headSeq && lt lastByteSeq tailSeq then
          removeOverlap rest headSeq tailSeq (size - i.2.length)
        else
          let headSeq' := if le i.1 headSeq then lastByteSeq else headSeq
          let tailSeq' := if ge lastByteSeq tailSeq then i.1 else tailSeq
          let (rest, result) := removeOverlap rest headSeq' tailSeq' size
          (i :: rest, result)
      else
        let (rest, result) := removeOverlap rest headSeq tailSeq size
        (i :: rest, result)
    else (i :: rest, headSeq, tailSeq, size)

/-- The loop that moves `m_nextRxSeq` over the blocks that are in order. -/
def advance : List (RxBlock S) → TcpRxBuffer S → Option (TcpRxBuffer S)
  | [], b => some b
  | i :: rest, b =>
    if lt i.1 b.nextRxSeq then advance rest b
    else if gt i.1 b.nextRxSeq then some b
    else do
      let sackList ← clearSackList (blockEnd i) b.sackList
      advance rest { b with
        nextRxSeq := blockEnd i, availBytes := b.availBytes + i.2.length, sackList := sackList }

/-- The FIN counts as one number. -/
def accountFin (b : TcpRxBuffer S) : TcpRxBuffer S :=
  if b.gotFin && b.nextRxSeq == b.finSeq then
    { b with nextRxSeq := SequenceNumber.add b.nextRxSeq 1 }
  else b

/-- What `Add` does when the new part of a segment is in the map. -/
def account (b : TcpRxBuffer S) (headSeq tailSeq : S) (length : ℕ) : Option (TcpRxBuffer S) := do
  let b ← (if gt headSeq b.nextRxSeq then b.updateSackList headSeq tailSeq else some b)
  let b ← advance b.data { b with size := b.size + length }
  some b.accountFin

def insert (b : TcpRxBuffer S) (headSeq tailSeq : S) (p : List UInt8) : Option (TcpRxBuffer S) :=
  if isStored headSeq b.data then none
  else account { b with data := store headSeq p b.data } headSeq tailSeq p.length

/-- `none` where an assertion fails. -/
def add (b : TcpRxBuffer S) (seq : S) (payload : List UInt8) : Option (Bool × TcpRxBuffer S) :=
  let (headSeq, tailSeq) := b.trimToWindow seq (SequenceNumber.add seq payload.length)
  let (data, headSeq, tailSeq, size) := removeOverlap b.data headSeq tailSeq b.size
  let b := { b with data := data, size := size }
  if ge headSeq tailSeq then some (false, b)
  else
    let length := distance tailSeq headSeq
    let p := (payload.drop (distance headSeq seq)).take length
    if p.length = length then (b.insert headSeq tailSeq p).map (true, ·) else none

/-! ### Extract -/

/-- The loop of `Extract`; `none` where an assertion fails. -/
def extractLoop (nextRxSeq : S) :
    List (RxBlock S) → ℕ → Option (List UInt8 × List (RxBlock S))
  | data, 0 => some ([], data)
  | [], _ + 1 => none
  | i :: rest, n + 1 =>
    if le i.1 nextRxSeq then
      if i.2.length ≤ n + 1 then do
        let (outPkt, data) ← extractLoop nextRxSeq rest (n + 1 - i.2.length)
        some (i.2 ++ outPkt, data)
      else
        some (i.2.take (n + 1),
          store (SequenceNumber.add i.1 (n + 1)) (i.2.drop (n + 1)) rest)
    else none

/-- The extracted bytes; nothing instead of `nullptr`. -/
def extract (b : TcpRxBuffer S) (maxSize : ℕ) : Option (List UInt8 × TcpRxBuffer S) := do
  let (outPkt, data) ← extractLoop b.nextRxSeq b.data (min maxSize b.availBytes)
  some (outPkt, { b with
    size := b.size - outPkt.length, availBytes := b.availBytes - outPkt.length, data := data })

/-- The buffer after an event, and the bytes that it gives to the application. -/
def execute (b : TcpRxBuffer S) : RxEvent S → Option (List UInt8 × TcpRxBuffer S)
  | .add headSeq payload => (b.add headSeq payload).map fun result => ([], result.2)
  | .extract maxSize => b.extract maxSize
  | .setFinSequence s => some ([], b.setFinSequence s)

def Step (b : TcpRxBuffer S) (e : RxEvent S × List UInt8) (b' : TcpRxBuffer S) : Prop :=
  b.execute e.1 = some (e.2, b')

theorem Step.of_add {b b' c : TcpRxBuffer S} {seq : S} {payload out : List UInt8} {r : Bool}
    (h : Step b (.add seq payload, out) b') (hadd : b.add seq payload = some (r, c)) :
    out = [] ∧ b' = c := by
  have heq : (b.add seq payload).map (fun result => ([], result.2)) = some (out, b') := h
  rw [hadd] at heq
  cases heq
  exact ⟨rfl, rfl⟩

theorem Step.of_extract {b b' c : TcpRxBuffer S} {maxSize : ℕ} {out out' : List UInt8}
    (h : Step b (.extract maxSize, out) b') (hextract : b.extract maxSize = some (out', c)) :
    out = out' ∧ b' = c := by
  have heq : b.extract maxSize = some (out, b') := h
  rw [hextract] at heq
  cases heq
  exact ⟨rfl, rfl⟩

/-- No data, the initial sequence number, the size of the buffer. -/
def empty (nextRxSeq : S) (finSeq : S) (maxBuffer : ℕ) : TcpRxBuffer S where
  sackList := []
  nextRxSeq := nextRxSeq
  finSeq := finSeq
  gotFin := false
  size := 0
  maxBuffer := maxBuffer
  availBytes := 0
  data := []

/-- Only segments, and the application. -/
def NoFin : RxEvent S → Prop
  | .add _ _ => True
  | .extract _ => True
  | .setFinSequence _ => False

instance : (e : RxEvent S) → Decidable (NoFin e)
  | .add _ _ => inferInstanceAs (Decidable True)
  | .extract _ => inferInstanceAs (Decidable True)
  | .setFinSequence _ => inferInstanceAs (Decidable False)

/-- What a sequence of events does, one after the other. -/
def executeAll (b : TcpRxBuffer S) :
    List (RxEvent S) → Option (RxTrace S × TcpRxBuffer S)
  | [] => some ([], b)
  | e :: events => do
    let (out, next) ← b.execute e
    let (trace, last) ← executeAll next events
    some ((b, e, out) :: trace, last)

theorem run_executeAll {b b' : TcpRxBuffer S} {events : List (RxEvent S)}
    {trace : RxTrace S}
    (h : b.executeAll events = some (trace, b')) : Run Step b trace b' := by
  induction events generalizing b trace with
  | nil =>
    cases h
    exact .nil
  | cons e events ih =>
    obtain ⟨⟨out, next⟩, hexecute, h⟩ := Option.bind_eq_some_iff.1 h
    obtain ⟨⟨trace', last⟩, hrest, h⟩ := Option.bind_eq_some_iff.1 h
    cases h
    exact (ih hrest).cons hexecute

end Code

end TcpRxBuffer

end SeanetSim
