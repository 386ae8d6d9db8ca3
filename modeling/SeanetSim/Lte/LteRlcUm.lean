import SeanetSim.Lte.RlcSequenceNumber

/-!
# Reception in `LteRlcUm`

`DoReceivePdu` puts a PDU into the reception buffer, a map ordered by the sequence numbers as plain
integers, moves the window VR(UH) - 512 <= SN < VR(UH) and hands what has left it, or is in sequence
from VR(UR) on, to `ReassembleAndDeliver`.  When t-Reordering expires, VR(UR) moves past VR(UX).
-/

namespace SeanetSim

open SequenceNumber10

variable {α : Type*}

/-! ### The reception buffer -/

namespace RxBuffer

variable (sn : ℕ) (packet : α) (buffer : List (ℕ × α))

def count : Bool := buffer.any fun e => e.1 == sn

def find : Option (ℕ × α) := buffer.find? fun e => e.1 == sn

def erase : List (ℕ × α) := buffer.filter fun e => e.1 != sn

/-- `buffer[sn] = packet`. -/
def insert : List (ℕ × α) → List (ℕ × α)
  | [] => [(sn, packet)]
  | e :: rest =>
    if sn < e.1 then (sn, packet) :: e :: rest
    else if sn = e.1 then (sn, packet) :: rest
    else e :: insert rest

/-- The first number from `sn` on that the buffer does not hold. -/
def firstMissing : ℕ → ℕ → ℕ
  | 0, sn => sn
  | fuel + 1, sn => if count sn buffer then firstMissing fuel (sn + 1) else sn

/-- The first sequence number from `sn` on, modulo 1024, that the buffer does not hold. -/
def nextMissing : ℕ → SequenceNumber10 → SequenceNumber10
  | 0, sn => sn
  | fuel + 1, sn => if count sn.value buffer then nextMissing fuel sn.succ else sn

end RxBuffer

/-! ### The receiver -/

/-- The receiving side of `LteRlcUm`, with what it has handed to `ReassembleAndDeliver`. -/
structure LteRlcUm (α : Type*) where
  vrUr : SequenceNumber10
  vrUx : SequenceNumber10
  vrUh : SequenceNumber10
  rxBuffer : List (ℕ × α)
  reorderingTimer : Bool
  reassembled : List α

namespace LteRlcUm

def windowSize : ℕ := 512

/-- The sequence numbers are 10 bits long, which bounds the loops over them. -/
def snCount : ℕ := 1024

def init : LteRlcUm α := ⟨ofValue 0, ofValue 0, ofValue 0, [], false, []⟩

variable (s : LteRlcUm α) (seqNumber : SequenceNumber10) (packet : α)

/-- `IsInsideReorderingWindow`, which also sets the base of VR(UH). -/
def isInsideReorderingWindow : Bool × LteRlcUm α :=
  let vrUh := s.vrUh.setModulusBase (s.vrUh.sub windowSize).value
  let seqNumber := seqNumber.setModulusBase (vrUh.sub windowSize).value
  ((vrUh.sub windowSize).le seqNumber && seqNumber.lt vrUh, { s with vrUh := vrUh })

def reassembleAndDeliver : LteRlcUm α := { s with reassembled := s.reassembled ++ [packet] }

/-- The loop of `ReassembleOutsideWindow` from an iterator on. -/
def reassembleOutsideFrom : LteRlcUm α → List (ℕ × α) → LteRlcUm α
  | s, [] => s
  | s, (sn, packet) :: rest =>
    let (inside, s) := s.isInsideReorderingWindow (ofValue sn)
    if inside then s
    else
      let s := s.reassembleAndDeliver packet
      reassembleOutsideFrom { s with rxBuffer := RxBuffer.erase sn s.rxBuffer } rest

def reassembleOutsideWindow : LteRlcUm α := s.reassembleOutsideFrom s.rxBuffer

/-- `ReassembleSnInterval`. -/
def reassembleSnInterval : ℕ → LteRlcUm α → SequenceNumber10 → SequenceNumber10 → LteRlcUm α
  | 0, s, _, _ => s
  | fuel + 1, s, reassembleSn, highSeqNumber =>
    if reassembleSn.lt highSeqNumber then
      match RxBuffer.find reassembleSn.value s.rxBuffer with
      | some (sn, packet) =>
        let s := s.reassembleAndDeliver packet
        reassembleSnInterval fuel { s with rxBuffer := RxBuffer.erase sn s.rxBuffer }
          reassembleSn.succ highSeqNumber
      | none => reassembleSnInterval fuel s reassembleSn.succ highSeqNumber
    else s

/-- If x falls outside of the reordering window, the window moves. -/
def updateWindow : LteRlcUm α :=
  let (inside, s) := s.isInsideReorderingWindow seqNumber
  if inside then s
  else
    let s := { s with vrUh := seqNumber.add 1 }
    let s := s.reassembleOutsideWindow
    let (inside, s) := s.isInsideReorderingWindow s.vrUr
    if inside then s else { s with vrUr := s.vrUh.sub windowSize }

/-- If the buffer contains VR(UR), what is in sequence leaves it.  The new VR(UR) is counted as a
plain `uint16_t`. -/
def deliverInSequence : LteRlcUm α :=
  if RxBuffer.count s.vrUr.value s.rxBuffer then
    let newVrUr := RxBuffer.firstMissing s.rxBuffer snCount (s.vrUr.value + 1)
    let oldVrUr := s.vrUr
    let s := { s with vrUr := s.vrUr.assign newVrUr }
    s.reassembleSnInterval snCount oldVrUr s.vrUr
  else s

def setModulusBases : LteRlcUm α :=
  let base := (s.vrUh.sub windowSize).value
  { s with
    vrUr := s.vrUr.setModulusBase base
    vrUx := s.vrUx.setModulusBase base
    vrUh := s.vrUh.setModulusBase base }

def stopReorderingTimer : LteRlcUm α :=
  if s.reorderingTimer && (s.vrUx.le s.vrUr ||
      (!(s.isInsideReorderingWindow s.vrUx).1 && s.vrUx.value != s.vrUh.value)) then
    { s with reorderingTimer := false }
  else s

def startReorderingTimer : LteRlcUm α :=
  if s.vrUh.gt s.vrUr then { s with reorderingTimer := true, vrUx := s.vrUh } else s

def updateReorderingTimer : LteRlcUm α :=
  let s := s.setModulusBases.stopReorderingTimer
  if !s.reorderingTimer then s.startReorderingTimer else s

/-- The PDUs that `DoReceivePdu` drops, all three numbers with the same base. -/
def isDiscarded : Bool :=
  (s.vrUr.lt seqNumber && seqNumber.lt s.vrUh && RxBuffer.count seqNumber.value s.rxBuffer) ||
    ((s.vrUh.sub windowSize).le seqNumber && seqNumber.lt s.vrUr)

/-- `DoReceivePdu`. -/
def doReceivePdu : LteRlcUm α :=
  let base := (s.vrUh.sub windowSize).value
  let s := { s with vrUr := s.vrUr.setModulusBase base, vrUh := s.vrUh.setModulusBase base }
  let seqNumber := seqNumber.setModulusBase base
  if s.isDiscarded seqNumber then s
  else
    let s := { s with rxBuffer := RxBuffer.insert seqNumber.value packet s.rxBuffer }
    (s.updateWindow seqNumber).deliverInSequence.updateReorderingTimer

/-- `ExpireReorderingTimer`. -/
def expireReorderingTimer : LteRlcUm α :=
  let newVrUr := RxBuffer.nextMissing s.rxBuffer snCount s.vrUx
  let oldVrUr := s.vrUr
  let s := { s with reorderingTimer := false, vrUr := newVrUr }
  (s.reassembleSnInterval snCount oldVrUr newVrUr).startReorderingTimer

end LteRlcUm

end SeanetSim
