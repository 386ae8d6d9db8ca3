import SeanetSim.Internet.TcpOption

/-!
# The TCP header

`TcpHeader` with its options: the list that `AppendOption` builds up, `Serialize`, and `Deserialize`
with its loop over the option space.
-/

namespace SeanetSim

open TracedReader

/-- What the checksum covers besides the packet.  With source and destination of two kinds it covers
bytes that nobody has written. -/
inductive TcpPseudoHeader
  | ipv4 (source destination : Ipv4Address) (protocol : UInt8)
  | ipv6 (source destination : Ipv6Address) (protocol : UInt8)

/-- `CalculateHeaderChecksum`. -/
def TcpPseudoHeader.checksum (size : UInt16) : TcpPseudoHeader → UInt16
  | ipv4 source destination protocol =>
    ~~~ calculateIpChecksum
      (source.serialize ++ destination.serialize ++ [0, protocol] ++ writeHtonU16 size) 0
  | ipv6 source destination protocol =>
    ~~~ calculateIpChecksum (source.serialize ++ destination.serialize ++ [0, 0] ++
      writeHtonU16 size ++ [0, 0, 0, protocol]) 0

structure TcpHeader where
  sourcePort : UInt16
  destinationPort : UInt16
  sequenceNumber : UInt32
  ackNumber : UInt32
  /-- In words. -/
  length : UInt8
  flags : UInt8
  windowSize : UInt16
  urgentPointer : UInt16
  /-- Set if checksums are enabled. -/
  pseudoHeader : Option TcpPseudoHeader
  goodChecksum : Bool
  options : List TcpOption
  optionsLen : UInt8

namespace TcpHeader

def init : TcpHeader := ⟨0, 0, 0, 0, 5, 0, 0xffff, 0, none, true, [], 0⟩

def maxOptionsLen : UInt8 := 40

/-- The sum of the sizes of the options. -/
def optionLen (options : List TcpOption) : UInt32 := (options.map TcpOption.getSerializedSize).sum

def calculateHeaderLength (h : TcpHeader) : UInt8 :=
  let len := 20 + optionLen h.options
  let len := if len % 4 ≠ 0 then len + (4 - len % 4) else len
  (len >>> 2).toUInt8

def getSerializedSize (h : TcpHeader) : UInt32 := h.calculateHeaderLength.toUInt32 * 4

/-- `AppendOption`; the option may be refused. -/
def appendOption (h : TcpHeader) (option : TcpOption) : Bool × TcpHeader :=
  if h.optionsLen.toUInt32 + option.getSerializedSize ≤ maxOptionsLen.toUInt32 then
    if !TcpOption.isKindKnown option.getKind then (false, h)
    else if option.getKind ≠ 0 then
      let optionsLen := h.optionsLen + option.getSerializedSize.toUInt8
      let totalLen := 20 + 3 + optionsLen.toUInt32
      (true, { h with
        options := h.options ++ [option], optionsLen := optionsLen
        length := (totalLen >>> 2).toUInt8 })
    else (true, h)
  else (false, h)

/-! ### Serialize -/

/-- The part that every header has. -/
def fixedPart (h : TcpHeader) : List UInt8 :=
  writeHtonU16 h.sourcePort ++ writeHtonU16 h.destinationPort ++ writeHtonU32 h.sequenceNumber ++
    writeHtonU32 h.ackNumber ++ writeHtonU16 (h.length.toUInt16 <<< 12 ||| h.flags.toUInt16) ++
    writeHtonU16 h.windowSize ++ writeHtonU16 0 ++ writeHtonU16 h.urgentPointer

/-- The bytes with the checksum over them in its place. -/
def writeChecksum (h : TcpHeader) (bytes : List UInt8) : List UInt8 :=
  match h.pseudoHeader with
  | none => bytes
  | some p =>
    let checksum := calculateIpChecksum bytes (p.checksum (UInt16.ofNat bytes.length))
    bytes.take 16 ++ writeU16 checksum ++ bytes.drop 18

/-- `Serialize`, into a buffer of the serialized size; `none` where it writes behind its end.  An
option whose size has wrapped is longer than any buffer. -/
def serialize (h : TcpHeader) : Option (List UInt8) :=
  let padding := (4 - (optionLen h.options).toNat % 4) % 4
  let bytes := h.fixedPart ++ h.options.flatMap TcpOption.serialize ++ List.replicate padding 0
  if bytes.length ≤ h.getSerializedSize.toNat then some (h.writeChecksum bytes) else none

/-! ### Deserialize -/

/-- What the loop over the option space changes. -/
structure OptionLoop where
  options : List TcpOption
  optionsLen : UInt8
  optionLen : UInt32

/-- The second half of a turn, with what the parser has returned; whether the loop goes on. -/
def takeOption (s : OptionLoop) (optionSize : UInt32) (op : TcpOption) :
    TracedReader (OptionLoop × Bool) :=
  if optionSize ≠ op.getSerializedSize then return (s, false)
  else if optionSize ≤ s.optionLen then do
    next optionSize.toNat
    let optionLen := s.optionLen - optionSize
    let optionsLen := s.optionsLen + optionSize.toUInt8
    if op.getKind = 0 then do
      -- the padding
      next optionLen.toNat
      return (⟨s.options ++ [op], optionsLen + optionLen.toUInt8, 0⟩, true)
    else return (⟨s.options ++ [op], optionsLen, optionLen⟩, true)
  else return (s, false)

/-- One turn of the loop. -/
def optionTurn (s : OptionLoop) : TracedReader (OptionLoop × Bool) :=
  if s.optionLen = 0 then return (s, false)
  else do
    let kind ← here readU8
    let (optionSize, op) ← here (TcpOption.ofKind kind).deserialize
    takeOption s optionSize op

/-- The part that every header has. -/
def readFixedPart (h : TcpHeader) : TracedReader TcpHeader := do
  let sourcePort ← TracedReader.readNtohU16
  let destinationPort ← TracedReader.readNtohU16
  let sequenceNumber ← TracedReader.readNtohU32
  let ackNumber ← TracedReader.readNtohU32
  let field ← TracedReader.readNtohU16
  let windowSize ← TracedReader.readNtohU16
  next 2
  let urgentPointer ← TracedReader.readNtohU16
  return { h with
    sourcePort, destinationPort, sequenceNumber, ackNumber
    flags := (field &&& 0xff).toUInt8, length := (field >>> 12).toUInt8
    windowSize, urgentPointer, options := [], optionsLen := 0 }

def checkChecksum (h : TcpHeader) : TracedReader TcpHeader :=
  match h.pseudoHeader with
  | none => return h
  | some p => do
    let size ← getSize
    let size := UInt16.ofNat size
    let bytes ← there 0 (readBytes size.toNat)
    return { h with goodChecksum := calculateIpChecksum bytes (p.checksum size) == 0 }

/-- What follows the loop. -/
def finish (h : TcpHeader) : Option OptionLoop → TracedReader (Option (UInt32 × TcpHeader))
  | none => return none
  | some s => do
    let h ← { h with options := s.options, optionsLen := s.optionsLen }.checkChecksum
    return some (h.getSerializedSize, h)

/-- The size of the option space that the header announces. -/
def optionSpace (h : TcpHeader) : UInt32 := (h.length.toUInt32 - 5) * 4

/-- `Deserialize` at the start of a buffer; `none` where `fuel` turns of the loop are not enough. -/
def deserialize (fuel : ℕ) (h : TcpHeader) : TracedReader (Option (UInt32 × TcpHeader)) := do
  let h ← h.readFixedPart
  if maxOptionsLen.toUInt32 < h.optionSpace then return some (20, h)
  else do
    let s ← loop optionTurn fuel ⟨[], 0, h.optionSpace⟩
    h.finish s

/-! ### The fixed part -/

section FixedPart

variable (h : TcpHeader)
  (b₀ b₁ b₂ b₃ b₄ b₅ b₆ b₇ b₈ b₉ b₁₀ b₁₁ b₁₂ b₁₃ b₁₄ b₁₅ b₁₆ b₁₇ b₁₈ b₁₉ : UInt8)
  (rest : List UInt8)

theorem run_readFixedPart :
    h.readFixedPart.run (b₀ :: b₁ :: b₂ :: b₃ :: b₄ :: b₅ :: b₆ :: b₇ :: b₈ :: b₉ :: b₁₀ :: b₁₁ ::
      b₁₂ :: b₁₃ :: b₁₄ :: b₁₅ :: b₁₆ :: b₁₇ :: b₁₈ :: b₁₉ :: rest) 0 = some ({ h with
        sourcePort := readNtohU16 b₀ b₁, destinationPort := readNtohU16 b₂ b₃
        sequenceNumber := readNtohU32 b₄ b₅ b₆ b₇, ackNumber := readNtohU32 b₈ b₉ b₁₀ b₁₁
        flags := (readNtohU16 b₁₂ b₁₃ &&& 0xff).toUInt8
        length := (readNtohU16 b₁₂ b₁₃ >>> 12).toUInt8
        windowSize := readNtohU16 b₁₄ b₁₅, urgentPointer := readNtohU16 b₁₈ b₁₉
        options := [], optionsLen := 0 }, 20) := by
  rfl

theorem reach_readFixedPart :
    h.readFixedPart.reach (b₀ :: b₁ :: b₂ :: b₃ :: b₄ :: b₅ :: b₆ :: b₇ :: b₈ :: b₉ :: b₁₀ :: b₁₁ ::
      b₁₂ :: b₁₃ :: b₁₄ :: b₁₅ :: b₁₆ :: b₁₇ :: b₁₈ :: b₁₉ :: rest) 0 = 20 := by
  rfl

end FixedPart

/-- The number of words in the data-offset field. -/
def dataOffset (buf : List UInt8) : UInt8 := buf.getD 12 0 >>> 4

theorem toUInt8_readNtohU16_shift (b₀ b₁ : UInt8) :
    (readNtohU16 b₀ b₁ >>> 12).toUInt8 = b₀ >>> 4 := by
  have h₀ := b₀.toNat_lt
  have h₁ := b₁.toNat_lt
  have hread := toNat_readNtohU16 b₀ b₁
  rw [← UInt8.toNat_inj, UInt16.toNat_toUInt8, UInt16.toNat_shiftRight, UInt8.toNat_shiftRight,
    hread, show UInt16.toNat 12 % 16 = 12 from rfl, show UInt8.toNat 4 % 8 = 4 from rfl,
    Nat.shiftRight_eq_div_pow, Nat.shiftRight_eq_div_pow]
  omega

theorem exists_ten {l : List UInt8} (h : 10 ≤ l.length) :
    ∃ b₀ b₁ b₂ b₃ b₄ b₅ b₆ b₇ b₈ b₉ rest,
      l = b₀ :: b₁ :: b₂ :: b₃ :: b₄ :: b₅ :: b₆ :: b₇ :: b₈ :: b₉ :: rest := by
  match l, h with
  | b₀ :: b₁ :: b₂ :: b₃ :: b₄ :: b₅ :: b₆ :: b₇ :: b₈ :: b₉ :: rest, _ =>
    exact ⟨b₀, b₁, b₂, b₃, b₄, b₅, b₆, b₇, b₈, b₉, rest, rfl⟩

theorem exists_run_readFixedPart {buf : List UInt8} (h : TcpHeader) (hlen : 20 ≤ buf.length) :
    ∃ h', h.readFixedPart.run buf 0 = some (h', 20) ∧ h.readFixedPart.reach buf 0 = 20 ∧
      h'.length = dataOffset buf ∧ h'.pseudoHeader = h.pseudoHeader := by
  obtain ⟨b₀, b₁, b₂, b₃, b₄, b₅, b₆, b₇, b₈, b₉, tail, rfl⟩ := exists_ten (l := buf) (by omega)
  obtain ⟨c₀, c₁, c₂, c₃, c₄, c₅, c₆, c₇, c₈, c₉, rest, rfl⟩ := exists_ten (l := tail) (by
    simp only [List.length_cons] at hlen
    omega)
  exact ⟨_, run_readFixedPart .., reach_readFixedPart .., toUInt8_readNtohU16_shift .., rfl⟩

end TcpHeader

end SeanetSim
