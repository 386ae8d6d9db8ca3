import Mathlib.Data.List.Basic
import Mathlib.Tactic.SplitIfs
import SeanetSim.Internet.TcpRxBuffer

/-!
# The transmit buffer of TCP

`TcpTxBuffer` over any type of sequence numbers.  `Add` appends what the application writes,
`CopyFromSequence` cuts segments out of it and keeps them in the sent list until `DiscardUpTo`
removes them; the flags of the items in that list are the scoreboard.

An operation is `none` where an assertion fails or an iterator points to no item.  The assertions
that compare the counters with each other are left out, as these counters are what the results are
about.
-/

namespace SeanetSim

open SequenceNumber SequenceValue

/-- A packet; its size is a `uint32_t`. -/
structure TxPacket where
  bytes : List UInt8
  size_lt : bytes.length < 0x100000000

/-- An item, with the node of the list that holds it: what an iterator designates. -/
structure TcpTxItem (S : Type) where
  node : ℕ
  startSeq : S
  packet : List UInt8
  lost : Bool
  retrans : Bool
  sacked : Bool
  lastSent : ℤ
deriving DecidableEq

@[ext]
structure TcpTxBuffer (S : Type) where
  appList : List (TcpTxItem S)
  sentList : List (TcpTxItem S)
  maxBuffer : UInt32
  size : UInt32
  sentSize : UInt32
  firstByteSeq : S
  /-- The iterator is `none` at the end of the list. -/
  highestSack : Option ℕ × S
  lostOut : UInt32
  sackedOut : UInt32
  retrans : UInt32
  dupAckThresh : UInt32
  renoSack : Bool
  sackEnabled : Bool
  /-- The next list node to be allocated. -/
  nextNode : ℕ
deriving DecidableEq

/-- What is done to a buffer. -/
inductive TxEvent (S : Type)
  | add (p : TxPacket)
  | copyFromSequence (now : ℤ) (numBytes : UInt32) (seq : S)
  | discardUpTo (now : ℤ) (seq : S)
  | update (list : List (SackBlock S))
  | addRenoSack
  | resetRenoSack
  | setSentListLost (resetSack : Bool)
  | resetLastSegmentSent
  | markHeadAsLost
  | deleteRetransmittedFlagFromHead

/-- An item picked from a list, what stands in front of it and behind it, and what has changed on
the way. -/
structure PickedItem (S : Type) where
  front : List (TcpTxItem S)
  item : TcpTxItem S
  back : List (TcpTxItem S)
  retrans : UInt32
  nextNode : ℕ

namespace TcpTxItem

variable {S : Type}

/-- `m_packet->GetSize ()`. -/
def size (item : TcpTxItem S) : UInt32 := UInt32.ofNat item.packet.length

variable [SequenceNumber S]

/-- `SplitItems`: the first `size` bytes in an item of their own. -/
def splitItems (node : ℕ) (t2 : TcpTxItem S) (size : ℕ) : TcpTxItem S × TcpTxItem S :=
  ({ t2 with node := node, packet := t2.packet.take size },
    { t2 with startSeq := SequenceNumber.add t2.startSeq size, packet := t2.packet.drop size })

/-- `MergeItems`, with the counter of retransmitted bytes. -/
def mergeItems (retrans : UInt32) (t1 t2 : TcpTxItem S) : Option (TcpTxItem S × UInt32) :=
  if t1.sacked = t2.sacked ∧ t1.lost = t2.lost then
    some ({ t1 with
        packet := t1.packet ++ t2.packet
        retrans := if t1.retrans = t2.retrans then t1.retrans else false
        lastSent := if t1.lastSent < t2.lastSent then t2.lastSent else t1.lastSent },
      if t1.retrans = t2.retrans then retrans
      else if t1.retrans then retrans - t1.size
      else retrans - t2.size)
  else none

end TcpTxItem

namespace PickedItem

variable {S : Type}

def list (r : PickedItem S) : List (TcpTxItem S) := r.front ++ r.item :: r.back

end PickedItem

namespace TcpTxBuffer

section Code

variable {S : Type} [SequenceValue S] [DecidableEq S]

/-- A buffer before anything is written to it. -/
def init (maxBuffer dupAckThresh : UInt32) (sackEnabled : Bool) (n : S) : TcpTxBuffer S where
  appList := []
  sentList := []
  maxBuffer := maxBuffer
  size := 0
  sentSize := 0
  firstByteSeq := n
  highestSack := (none, zero)
  lostOut := 0
  sackedOut := 0
  retrans := 0
  dupAckThresh := dupAckThresh
  renoSack := false
  sackEnabled := sackEnabled
  nextNode := 0

def tailSequence (b : TcpTxBuffer S) : S := SequenceNumber.add b.firstByteSeq b.size.toNat

def available (b : TcpTxBuffer S) : UInt32 := b.maxBuffer - b.size

/-- The end of what has been sent. -/
def sentEnd (b : TcpTxBuffer S) : S := SequenceNumber.add b.firstByteSeq b.sentSize.toNat

def sizeFromSequence (b : TcpTxBuffer S) (seq : S) : UInt32 :=
  if ge b.tailSequence seq then UInt32.ofNat (distance b.tailSequence seq) else 0

def add (b : TcpTxBuffer S) (p : TxPacket) : Bool × TcpTxBuffer S :=
  let pktSize := UInt32.ofNat p.bytes.length
  if pktSize ≤ b.available then
    if 0 < pktSize then
      let item : TcpTxItem S :=
        { node := b.nextNode, startSeq := zero, packet := p.bytes, lost := false, retrans := false
          sacked := false, lastSent := 0x7fffffffffffffff }
      (true, { b with
        appList := b.appList ++ [item], size := b.size + pktSize, nextNode := b.nextNode + 1 })
    else (true, b)
  else (false, b)

/-! ### CopyFromSequence -/

/-- The walk of `GetPacketFromList`: what is in front of the item that has `seq`, where that item
begins, the item, and what is behind it.  The items of the sent list must not start before
`first`. -/
def findItem (first : Option S) (seq : S) :
    S → List (TcpTxItem S) → Option (List (TcpTxItem S) × S × TcpTxItem S × List (TcpTxItem S))
  | _, [] => none
  | beginOfCurrentPacket, current :: rest =>
    if first.all fun first => ge current.startSeq first then
      let stop := SequenceNumber.add beginOfCurrentPacket current.packet.length
      if lt seq stop then some ([], beginOfCurrentPacket, current, rest)
      else do
        let (front, found) ← findItem first seq stop rest
        some (current :: front, found)
    else none

/-- `GetPacketFromList`, which starts again at most `fuel` times after it has split or merged items.
It compares the current item only with itself, so it never merges one with the previous one. -/
def getPacketFromList (first : Option S) (listStartFrom : S) (numBytes : UInt32) (seq : S) :
    ℕ → List (TcpTxItem S) → UInt32 → ℕ → Option (PickedItem S)
  | 0, _, _, _ => none
  | fuel + 1, list, retrans, node => do
    let (front, beginOfCurrentPacket, current, back) ← findItem first seq listStartFrom list
    if seq = beginOfCurrentPacket then
      let stop := SequenceNumber.add beginOfCurrentPacket current.packet.length
      if le (SequenceNumber.add seq numBytes.toNat) stop then
        if numBytes = current.size then some ⟨front, current, back, retrans, node⟩
        else if numBytes < current.size then
          let (t1, t2) := current.splitItems node numBytes.toNat
          some ⟨front, t1, t2 :: back, retrans, node + 1⟩
        -- the loop would stay at this item for ever
        else none
      else
        match back with
        | [] => some ⟨front, current, [], retrans, node⟩
        | next :: back => do
          let (merged, retrans) ← current.mergeItems retrans next
          getPacketFromList first listStartFrom numBytes seq fuel (front ++ merged :: back)
            retrans node
    else if gt seq beginOfCurrentPacket then
      let (t1, t2) := current.splitItems node (distance seq beginOfCurrentPacket)
      getPacketFromList first listStartFrom numBytes seq fuel (front ++ t1 :: t2 :: back)
        retrans (node + 1)
    else none

def getNewSegment (fuel : ℕ) (b : TcpTxBuffer S) (numBytes : UInt32) :
    Option (TcpTxItem S × TcpTxBuffer S) := do
  let r ← getPacketFromList none b.sentEnd numBytes b.sentEnd fuel b.appList b.retrans b.nextNode
  let item := { r.item with startSeq := b.sentEnd, node := r.nextNode }
  some (item, { b with
    appList := r.front ++ r.back
    sentList := b.sentList ++ [item]
    sentSize := b.sentSize + item.size
    retrans := r.retrans
    nextNode := r.nextNode + 1 })

/-- How much of `numBytes` to retransmit: items with different flags are not merged. -/
def retransmitSize (seq : S) (numBytes : UInt32) : List (TcpTxItem S) → UInt32
  | [] => numBytes
  | item :: rest =>
    if item.startSeq = seq then
      match rest with
      | next :: _ =>
        if !next.sacked && item.lost == next.lost then min numBytes (item.size + next.size)
        else min numBytes item.size
      | [] => min numBytes item.size
    else retransmitSize seq numBytes rest

def getTransmittedSegment (fuel : ℕ) (b : TcpTxBuffer S) (numBytes : UInt32) (seq : S) :
    Option (TcpTxItem S × TcpTxBuffer S) :=
  if ge seq b.firstByteSeq ∧ numBytes ≤ b.sentSize ∧ b.sentList ≠ [] then do
    let s := retransmitSize seq numBytes b.sentList
    let r ← getPacketFromList (some b.firstByteSeq) b.firstByteSeq s seq fuel b.sentList b.retrans
      b.nextNode
    let item := { r.item with retrans := true }
    some (item, { b with
      sentList := r.front ++ item :: r.back
      retrans := if r.item.retrans then r.retrans else r.retrans + r.item.size
      nextNode := r.nextNode })
  else none

/-- The end of `CopyFromSequence`: the time is noted in the item that is returned. -/
def returnItem (now : ℤ) (item : TcpTxItem S) (b : TcpTxBuffer S) :
    Option (Option (TcpTxItem S) × TcpTxBuffer S) :=
  if ge item.startSeq b.firstByteSeq then
    some (some { item with lastSent := now }, { b with
      sentList := b.sentList.map fun i => if i.node = item.node then { i with lastSent := now }
        else i })
  else none

/-- `fuel` bounds the calls of functions by themselves. -/
def copyFromSequence :
    ℕ → ℤ → TcpTxBuffer S → UInt32 → S → Option (Option (TcpTxItem S) × TcpTxBuffer S)
  | 0, _, _, _, _ => none
  | fuel + 1, now, b, numBytes, seq =>
    if gt b.firstByteSeq seq then none
    else
      let s := min numBytes (b.sizeFromSequence seq)
      if s = 0 then some (none, b)
      else if ge b.sentEnd (SequenceNumber.add seq s.toNat) then do
        let (item, b) ← b.getTransmittedSegment fuel s seq
        if item.sacked then none else returnItem now item b
      else if le b.sentEnd seq then
        -- the abort for new data behind a hole
        if b.sentEnd = seq then do
          let (item, b) ← b.getNewSegment fuel s
          if item.retrans then none else returnItem now item b
        else none
      else if gtValue b.sentEnd seq && gtValue (SequenceNumber.add seq s.toNat) b.sentEnd then
        copyFromSequence fuel now b (UInt32.ofNat (distance b.sentEnd seq)) seq
      else none

/-! ### Reno SACKs and the head of the sent list -/

/-- The first item that is not sacked becomes sacked; its size, and where an iterator finds it. -/
def sackFirst : List (TcpTxItem S) → Option (List (TcpTxItem S) × UInt32 × Option ℕ × S)
  | [] => none
  | item :: rest =>
    if item.sacked then do
      let (rest, found) ← sackFirst rest
      some (item :: rest, found)
    else some ({ item with sacked := true } :: rest, item.size, some item.node, item.startSeq)

def addRenoSack (b : TcpTxBuffer S) : Option (TcpTxBuffer S) :=
  match b.sentList with
  | [] => none
  | head :: rest =>
    if b.sackEnabled && rest.isEmpty then none
    else
      match sackFirst rest with
      | some (rest, pktSize, highestSack) =>
        some { b with
          sentList := head :: rest, sackedOut := b.sackedOut + pktSize, highestSack := highestSack
          renoSack := true }
      | none => some { b with renoSack := true }

def markHeadAsLost (b : TcpTxBuffer S) : TcpTxBuffer S :=
  match b.sentList with
  | [] => b
  | head :: rest =>
    { b with
      sentList := { head with sacked := false, retrans := false, lost := true } :: rest
      sackedOut := if head.sacked then b.sackedOut - head.size else b.sackedOut
      retrans := if head.retrans then b.retrans - head.size else b.retrans
      lostOut := if head.lost then b.lostOut else b.lostOut + head.size }

def deleteRetransmittedFlagFromHead (b : TcpTxBuffer S) : Option (TcpTxBuffer S) :=
  if b.sentSize = 0 then some b
  else
    match b.sentList with
    | [] => none
    | head :: rest =>
      some { b with
        sentList := { head with retrans := false } :: rest
        retrans := if head.retrans then b.retrans - head.size else b.retrans }

def resetRenoSack (b : TcpTxBuffer S) : TcpTxBuffer S :=
  { b with
    sackedOut := 0
    sentList := b.sentList.map fun item => { item with sacked := false }
    highestSack := (none, zero) }

def resetLastSegmentSent (b : TcpTxBuffer S) : TcpTxBuffer S :=
  match b.sentList.getLast? with
  | none => b
  | some item =>
    { b with
      sentList := b.sentList.dropLast
      sentSize := b.sentSize - item.size
      retrans := if item.retrans then b.retrans - item.size else b.retrans
      appList := item :: b.appList }

def setSentListLost (b : TcpTxBuffer S) (resetSack : Bool) : TcpTxBuffer S :=
  if resetSack then
    { b with
      retrans := 0
      sackedOut := 0
      lostOut := b.sentSize
      highestSack := (none, zero)
      sentList := b.sentList.map fun item =>
        { item with sacked := false, lost := true, retrans := false } }
  else
    let sentList := b.sentList.map fun item =>
      { item with lost := item.lost || !item.sacked, retrans := false }
    { b with
      retrans := 0
      lostOut := sentList.foldl (fun lostOut item =>
        if item.lost then lostOut + item.size else lostOut) 0
      sentList := sentList }

/-! ### DiscardUpTo -/

def removeFromCounts (b : TcpTxBuffer S) (item : TcpTxItem S) (size : UInt32) : TcpTxBuffer S :=
  { b with
    sackedOut := if item.sacked then b.sackedOut - size else b.sackedOut
    retrans := if item.retrans then b.retrans - size else b.retrans
    lostOut := if item.lost then b.lostOut - size else b.lostOut }

/-- The first item lies behind the sequence number. -/
def removeHead (b : TcpTxBuffer S) (item : TcpTxItem S) (rest : List (TcpTxItem S)) :
    TcpTxBuffer S :=
  removeFromCounts { b with
    size := b.size - item.size
    sentSize := b.sentSize - item.size
    firstByteSeq := SequenceNumber.add b.firstByteSeq item.packet.length
    sentList := rest } item item.size

/-- Part of the first item lies behind the sequence number. -/
def cutHead (b : TcpTxBuffer S) (item : TcpTxItem S) (rest : List (TcpTxItem S))
    (offset : UInt32) : TcpTxBuffer S :=
  removeFromCounts { b with
    size := b.size - offset
    sentSize := b.sentSize - offset
    firstByteSeq := SequenceNumber.add b.firstByteSeq offset.toNat
    sentList := { item with
      packet := item.packet.drop offset.toNat
      startSeq := SequenceNumber.add item.startSeq offset.toNat } :: rest } item offset

/-- An empty sent list gets the first bytes of the application list. -/
def fillSentList (fuel : ℕ) (now : ℤ) (b : TcpTxBuffer S) (offset : UInt32) :
    Option (TcpTxBuffer S) :=
  match b.sentList with
  | [] =>
    match copyFromSequence fuel now b offset b.firstByteSeq with
    | some (some _, b) => some b
    | _ => none
  | _ :: _ => some b

/-- The loop of `DiscardUpTo`; its iterator is always at the first item. -/
def discardLoop : ℕ → ℤ → TcpTxBuffer S → UInt32 → Option (TcpTxBuffer S)
  | 0, _, _, _ => none
  | fuel + 1, now, b, offset =>
    if b.size = 0 ∨ offset = 0 then some b
    else do
      let b ← b.fillSentList fuel now offset
      match b.sentList with
      | [] => none
      | item :: rest =>
        if item.startSeq = b.firstByteSeq then
          if item.size ≤ offset then
            discardLoop fuel now (b.removeHead item rest) (offset - item.size)
          else some (b.cutHead item rest offset)
        else none

/-- Catching the case of ACKing a FIN. -/
def ackFin (b : TcpTxBuffer S) (seq : S) : TcpTxBuffer S :=
  { b with firstByteSeq := if b.size = 0 then seq else b.firstByteSeq }

/-- A sacked head of the sent list passes its flag on to another segment. -/
def moveSackFromHead (b : TcpTxBuffer S) : Option (TcpTxBuffer S) :=
  match b.sentList with
  | [] => some b
  | head :: rest =>
    if head.sacked then
      if head.lost then none
      else do
        let b ← addRenoSack { b with
          sentList := { head with sacked := false } :: rest
          sackedOut := b.sackedOut - head.size }
        some b.markHeadAsLost
    else some b

/-- The highest SACK is forgotten when its item is not in the list any more. -/
def dropStaleSack (b : TcpTxBuffer S) : TcpTxBuffer S :=
  { b with
    highestSack := if le b.highestSack.2 b.firstByteSeq then (none, zero) else b.highestSack }

def discardUpTo (fuel : ℕ) (now : ℤ) (b : TcpTxBuffer S) (seq : S) : Option (TcpTxBuffer S) :=
  if ge b.firstByteSeq seq then some b
  else do
    let b ← b.discardLoop fuel now (UInt32.ofNat (distance seq b.firstByteSeq))
    let b ← (b.ackFin seq).moveSackFromHead
    if (b.sentList.head?.all fun head => decide (head.startSeq = seq)) && ge b.firstByteSeq seq then
      some b.dropStaleSack
    else none

/-! ### Update -/

def findHighestSacked (b : TcpTxBuffer S) : Option ℕ × S :=
  (b.sentList.foldl (fun (ret : (Option ℕ × S) × S) item =>
    (if item.sacked then (some item.node, ret.2) else ret.1,
      SequenceNumber.add ret.2 item.packet.length)) ((none, zero), b.firstByteSeq)).1

/-- An item that a block of the option covers becomes sacked. -/
def sackItem (beginOfCurrentPacket : S) (item : TcpTxItem S) (b : TcpTxBuffer S) :
    TcpTxBuffer S :=
  let stop := SequenceNumber.add beginOfCurrentPacket item.packet.length
  { b with
    lostOut := if item.lost then b.lostOut - item.size else b.lostOut
    sackedOut := b.sackedOut + item.size
    highestSack :=
      if b.highestSack.1 = none || le b.highestSack.2 stop then
        (some item.node, beginOfCurrentPacket)
      else b.highestSack }

/-- The items with those sacked that a block of the option covers, and the bytes newly sacked. -/
def sackBlock (block : SackBlock S) : S → List (TcpTxItem S) → TcpTxBuffer S × UInt32 →
    Option (List (TcpTxItem S) × TcpTxBuffer S × UInt32)
  | _, [], r => some ([], r)
  | beginOfCurrentPacket, item :: rest, (b, bytesSacked) => do
    let stop := SequenceNumber.add beginOfCurrentPacket item.packet.length
    if ge beginOfCurrentPacket block.1 && le stop block.2 then
      if item.sacked then
        if item.lost then none
        else do
          let (rest, r) ← sackBlock block stop rest (b, bytesSacked)
          some (item :: rest, r)
      else do
        let (rest, r) ← sackBlock block stop rest
          (b.sackItem beginOfCurrentPacket item, bytesSacked + item.size)
        some ({ item with lost := false, sacked := true } :: rest, r)
    else if gt stop block.2 then some (item :: rest, (b, bytesSacked))
    else do
      let (rest, r) ← sackBlock block stop rest (b, bytesSacked)
      some (item :: rest, r)

/-- The loop of `Update` over the blocks; `false` where it returns at a block outside the sent
list. -/
def sackBlocks : List (SackBlock S) → TcpTxBuffer S × UInt32 →
    Option (Bool × TcpTxBuffer S × UInt32)
  | [], r => some (true, r)
  | block :: list, (b, bytesSacked) => do
    if lt b.sentEnd block.1 then some (false, b, bytesSacked)
    else do
      let (sentList, b, bytesSacked) ←
        sackBlock block b.firstByteSeq b.sentList (b, bytesSacked)
      sackBlocks list ({ b with sentList := sentList }, bytesSacked)

/-- The loop of `UpdateLostCount` from the last of the items to the first one: the items, how many
of them are sacked, and the bytes that became lost. -/
def markLost (dupAckThresh : UInt32) : List (TcpTxItem S) → List (TcpTxItem S) × ℕ × UInt32
  | [] => ([], 0, 0)
  | item :: rest =>
    let (rest, sacked, lost) := markLost dupAckThresh rest
    let sacked := if item.sacked then sacked + 1 else sacked
    if dupAckThresh.toNat ≤ sacked ∧ item.sacked = false ∧ item.lost = false then
      ({ item with lost := true } :: rest, sacked, lost + item.size)
    else (item :: rest, sacked, lost)

/-- The items up to the one that an iterator designates, and those behind it. -/
def splitAtNode (node : ℕ) :
    List (TcpTxItem S) → Option (List (TcpTxItem S) × List (TcpTxItem S))
  | [] => none
  | item :: rest =>
    if item.node = node then some ([item], rest)
    else do
      let (upTo, behind) ← splitAtNode node rest
      some (item :: upTo, behind)

def updateLostCount (b : TcpTxBuffer S) : Option (TcpTxBuffer S) := do
  let node ← b.highestSack.1
  match ← splitAtNode node b.sentList with
  | ([], _) => none
  | (head :: upTo, behind) =>
    let (upTo, sacked, lost) := markLost b.dupAckThresh upTo
    -- the loop ends before the head, which is marked without a look at its SACK flag
    let mark : Bool := b.dupAckThresh.toNat ≤ sacked && !head.lost
    some { b with
      sentList := { head with lost := head.lost || mark } :: (upTo ++ behind)
      lostOut := if mark then b.lostOut + lost + head.size else b.lostOut + lost }

def update (b : TcpTxBuffer S) (list : List (SackBlock S)) :
    Option (UInt32 × TcpTxBuffer S) := do
  let (inside, b, bytesSacked) ← sackBlocks list (b, 0)
  if inside then
    match if 0 < bytesSacked then b.updateLostCount else some b with
    | none => none
    | some b =>
      if b.sentList.head?.any fun head => !head.sacked then some (bytesSacked, b) else none
  else some (bytesSacked, b)

/-! ### Runs -/

/-- `none` where the counters are out of sync with the size of the sent list. -/
def bytesInFlight (b : TcpTxBuffer S) : Option UInt32 :=
  if b.sackedOut + b.lostOut ≤ b.sentSize then
    some (b.sentSize - (b.sackedOut + b.lostOut) + b.retrans)
  else none

def apply (fuel : ℕ) (b : TcpTxBuffer S) : TxEvent S → Option (TcpTxBuffer S)
  | .add p => some (b.add p).2
  | .copyFromSequence now numBytes seq => (copyFromSequence fuel now b numBytes seq).map (·.2)
  | .discardUpTo now seq => b.discardUpTo fuel now seq
  | .update list => (b.update list).map (·.2)
  | .addRenoSack => b.addRenoSack
  | .resetRenoSack => some b.resetRenoSack
  | .setSentListLost resetSack => some (b.setSentListLost resetSack)
  | .resetLastSegmentSent => some b.resetLastSegmentSent
  | .markHeadAsLost => some b.markHeadAsLost
  | .deleteRetransmittedFlagFromHead => b.deleteRetransmittedFlagFromHead

/-- An operation ends with some number of calls. -/
def Step (b : TcpTxBuffer S) (e : TxEvent S) (t : TcpTxBuffer S) : Prop :=
  ∃ fuel, b.apply fuel e = some t

end Code

end TcpTxBuffer

end SeanetSim
