import SeanetSim.Internet.UdpHeader
import SeanetSim.Lib.Buffer
import SeanetSim.Network.Ipv6Address

/-!
# IPv6 extension headers

The headers that may stand in front of the fragmentable part of a packet, and the fragment header,
as they are written and read.  A header that has been written is read again as it was, with nothing
more or less than its own bytes taken off the packet (`Ipv6ExtensionHeader.removeHeader_serialize`,
`Ipv6ExtensionFragmentHeader.removeHeader_serialize`).
-/

namespace SeanetSim

/-! ## Words of 32 bits -/

/-- `WriteHtonU32`. -/
def writeHtonU32 (data : UInt32) : List UInt8 :=
  [(data >>> 24 &&& 0xff).toUInt8, (data >>> 16 &&& 0xff).toUInt8,
    (data >>> 8 &&& 0xff).toUInt8, (data >>> 0 &&& 0xff).toUInt8]

/-- `ReadNtohU32`. -/
def readNtohU32 (b₀ b₁ b₂ b₃ : UInt8) : UInt32 :=
  shiftIn (shiftIn (shiftIn (shiftIn 0 b₀) b₁) b₂) b₃

theorem readNtohU32_bytes (data : UInt32) :
    readNtohU32 (data >>> 24 &&& 0xff).toUInt8 (data >>> 16 &&& 0xff).toUInt8
      (data >>> 8 &&& 0xff).toUInt8 (data >>> 0 &&& 0xff).toUInt8 = data :=
  congrArg Ipv4Address.address (Ipv4Address.deserialize_serialize (.ofUInt32 data))

/-! ## The fragment header -/

structure Ipv6ExtensionFragmentHeader where
  nextHeader : UInt8
  /-- The offset in bytes, with the flag in its lowest bit. -/
  offset : UInt16
  identification : UInt32
deriving DecidableEq

namespace Ipv6ExtensionFragmentHeader

variable (h : Ipv6ExtensionFragmentHeader)

def setOffset (offset : UInt16) : Ipv6ExtensionFragmentHeader :=
  { h with offset := h.offset &&& 1 ||| offset &&& ~~~7 }

def getOffset : UInt16 := h.offset &&& ~~~1

def setMoreFragment (moreFragment : Bool) : Ipv6ExtensionFragmentHeader :=
  { h with offset := if moreFragment then h.offset ||| 1 else h.offset &&& ~~~1 }

def getMoreFragment : Bool := h.offset &&& 1 != 0

def serialize : List UInt8 :=
  h.nextHeader :: 0 :: (writeHtonU16 h.offset ++ writeHtonU32 h.identification)

/-- `RemoveHeader`; `none` if the packet is too short. -/
def removeHeader : List UInt8 → Option (Ipv6ExtensionFragmentHeader × List UInt8)
  | b₀ :: _ :: b₂ :: b₃ :: b₄ :: b₅ :: b₆ :: b₇ :: rest =>
    some (⟨b₀, readNtohU16 b₂ b₃, readNtohU32 b₄ b₅ b₆ b₇⟩, rest)
  | _ => none

theorem length_serialize : h.serialize.length = 8 := rfl

end Ipv6ExtensionFragmentHeader

/-! ## Headers in front of the fragmentable part -/

/-- Values of `Ipv6Header::NextHeader_e`. -/
abbrev ipv6ExtHopByHop : UInt8 := 0

abbrev ipv6ExtRouting : UInt8 := 43

abbrev ipv6ExtFragmentation : UInt8 := 44

abbrev ipv6ExtDestination : UInt8 := 60

/-- What a header holds besides the fields that all of them have. -/
inductive ExtensionBody
  | hopByHop (optionData : List UInt8)
  | routing (typeRouting segmentsLeft : UInt8) (routersAddress : List Ipv6Address)
  | destination (optionData : List UInt8)
deriving DecidableEq

/-- `length` is the field of the header: its size in units of 8 bytes, without the first one. -/
structure Ipv6ExtensionHeader where
  nextHeader : UInt8
  length : UInt8
  body : ExtensionBody
deriving DecidableEq

namespace OptionField

/-- `CalculatePad ({8, 0})`, behind the two bytes that all headers have. -/
def calculatePad (optionData : List UInt8) : UInt32 := (0 - (.ofNat optionData.length + 2)) % 8

def getSerializedSize (optionData : List UInt8) : UInt32 :=
  .ofNat optionData.length + calculatePad optionData

def serialize (optionData : List UInt8) : List UInt8 :=
  let fill := calculatePad optionData
  optionData ++
    if fill = 0 then []
    else if fill = 1 then [0]
    else 1 :: (fill - 2).toUInt8 :: List.replicate (fill - 2).toNat 0

end OptionField

namespace Ipv6ExtensionHeader

variable (h : Ipv6ExtensionHeader)

def setNextHeader (nextHeader : UInt8) : Ipv6ExtensionHeader := { h with nextHeader := nextHeader }

def getLength : UInt16 := (h.length.toUInt16 + 1) <<< 3

/-- The number by which the field in front names the header. -/
def type : UInt8 :=
  match h.body with
  | .hopByHop _ => ipv6ExtHopByHop
  | .routing .. => ipv6ExtRouting
  | .destination _ => ipv6ExtDestination

def getSerializedSize : UInt32 :=
  match h.body with
  | .hopByHop optionData => 2 + OptionField.getSerializedSize optionData
  | .routing _ _ routersAddress => 8 + .ofNat routersAddress.length * 16
  | .destination optionData => 2 + OptionField.getSerializedSize optionData

def serializeOptions (optionData : List UInt8) : List UInt8 :=
  h.nextHeader :: (h.getSerializedSize >>> 3 - 1).toUInt8 :: OptionField.serialize optionData

def serialize : List UInt8 :=
  match h.body with
  | .hopByHop optionData => h.serializeOptions optionData
  | .routing typeRouting segmentsLeft routersAddress =>
    h.nextHeader :: .ofNat routersAddress.length * 2 :: typeRouting :: segmentsLeft ::
      (writeHtonU32 0 ++ routersAddress.flatMap Ipv6Address.serialize)
  | .destination optionData => h.serializeOptions optionData

/-- The next header, the length, and the option data, of which there must be enough. -/
def deserializeOptions : List UInt8 → Option (UInt8 × UInt8 × List UInt8)
  | nextHeader :: length :: rest =>
    let size := ((length.toUInt16 + 1) <<< 3 - 2).toNat
    if size ≤ rest.length then some (nextHeader, length, rest.take size) else none
  | _ => none

def deserializeRouting : List UInt8 → Option Ipv6ExtensionHeader
  | nextHeader :: length :: typeRouting :: segmentsLeft :: _ :: _ :: _ :: _ :: rest =>
    let addressNum := (length / 2).toNat
    if 16 * addressNum ≤ rest.length then
      some ⟨nextHeader, length, .routing typeRouting segmentsLeft
        ((List.range addressNum).map fun index => .deserialize (rest.drop (16 * index)))⟩
    else none
  | _ => none

/-- `Deserialize` of a header of the type. -/
def deserialize (type : UInt8) (p : List UInt8) : Option Ipv6ExtensionHeader :=
  if type = ipv6ExtHopByHop then
    (deserializeOptions p).map fun (nextHeader, length, data) => ⟨nextHeader, length, .hopByHop data⟩
  else if type = ipv6ExtRouting then deserializeRouting p
  else
    (deserializeOptions p).map fun (nextHeader, length, data) =>
      ⟨nextHeader, length, .destination data⟩

/-- `RemoveHeader`, which takes off as many bytes as the header would be written in. -/
def removeHeader (type : UInt8) (p : List UInt8) : Option (Ipv6ExtensionHeader × List UInt8) :=
  (deserialize type p).map fun h => (h, p.drop h.getSerializedSize.toNat)

/-- The length field says how long the header is. -/
def Written : Prop :=
  match h.body with
  | .hopByHop optionData => optionData.length + 2 = 8 * (h.length.toNat + 1)
  | .routing _ _ routersAddress => h.length.toNat = 2 * routersAddress.length
  | .destination optionData => optionData.length + 2 = 8 * (h.length.toNat + 1)

theorem toNat_getLength : h.getLength.toNat = 8 * (h.length.toNat + 1) := by
  have hlt := h.length.toNat_lt
  simp only [getLength, UInt16.toNat_shiftLeft, UInt16.toNat_add, UInt8.toNat_toUInt16]
  rw [show UInt16.toNat 3 % 16 = 3 from rfl, show UInt16.toNat 1 = 1 from rfl, Nat.shiftLeft_eq]
  omega

variable {h} {optionData : List UInt8}

theorem calculatePad_eq_zero {n : ℕ} (hlen : optionData.length + 2 = 8 * (n + 1)) :
    OptionField.calculatePad optionData = 0 := by
  rw [← UInt32.toNat_inj]
  simp only [OptionField.calculatePad, UInt32.toNat_mod, UInt32.toNat_sub, UInt32.toNat_add,
    UInt32.toNat_ofNat']
  rw [show UInt32.toNat 0 = 0 from rfl, show UInt32.toNat 2 = 2 from rfl,
    show UInt32.toNat 8 = 8 from rfl]
  omega

/-- A header with options is as long as it says. -/
theorem toNat_size {length : UInt8} (hlen : optionData.length + 2 = 8 * (length.toNat + 1)) :
    (2 + OptionField.getSerializedSize optionData).toNat = optionData.length + 2 := by
  have hlt := length.toNat_lt
  rw [OptionField.getSerializedSize, calculatePad_eq_zero hlen]
  simp only [UInt32.toNat_add, UInt32.toNat_ofNat']
  rw [show UInt32.toNat 0 = 0 from rfl, show UInt32.toNat 2 = 2 from rfl]
  omega

theorem serializeOptions_eq (hlen : optionData.length + 2 = 8 * (h.length.toNat + 1))
    (hsize : h.getSerializedSize = 2 + OptionField.getSerializedSize optionData) :
    h.serializeOptions optionData = h.nextHeader :: h.length :: optionData := by
  have hlt := h.length.toNat_lt
  have hfield : (h.getSerializedSize >>> 3 - 1).toUInt8 = h.length := by
    rw [← UInt8.toNat_inj, hsize]
    simp only [UInt32.toNat_toUInt8, UInt32.toNat_sub, UInt32.toNat_shiftRight, toNat_size hlen]
    rw [show UInt32.toNat 3 % 32 = 3 from rfl, show UInt32.toNat 1 = 1 from rfl,
      Nat.shiftRight_eq_div_pow]
    omega
  rw [serializeOptions, hfield, OptionField.serialize, calculatePad_eq_zero hlen]
  simp

/-- The bytes of a header with options, and how many there are. -/
theorem serializeOptions_spec (hlen : optionData.length + 2 = 8 * (h.length.toNat + 1))
    (hsize : h.getSerializedSize = 2 + OptionField.getSerializedSize optionData) :
    h.getSerializedSize.toNat = (h.serializeOptions optionData).length ∧
      (h.serializeOptions optionData).length = h.getLength.toNat := by
  rw [toNat_getLength, serializeOptions_eq hlen hsize, hsize, toNat_size hlen]
  exact ⟨rfl, hlen⟩

/-- A header takes the bytes that it says, and these are what is taken off. -/
theorem Written.size (hw : h.Written) :
    h.getSerializedSize.toNat = h.serialize.length ∧ h.serialize.length = h.getLength.toNat := by
  obtain ⟨nextHeader, length, body⟩ := h
  cases body with
  | hopByHop optionData => exact serializeOptions_spec hw rfl
  | destination optionData => exact serializeOptions_spec hw rfl
  | routing typeRouting segmentsLeft routersAddress =>
    have hlt := length.toNat_lt
    have hbytes := length_flatMap_const Ipv6Address.length_serialize routersAddress
    have hlen : length.toNat = 2 * routersAddress.length := hw
    rw [toNat_getLength]
    simp only [getSerializedSize, serialize, List.length_cons, List.length_append, hbytes,
      writeHtonU32, List.length_nil, UInt32.toNat_add, UInt32.toNat_mul, UInt32.toNat_ofNat']
    rw [show UInt32.toNat 8 = 8 from rfl, show UInt32.toNat 16 = 16 from rfl]
    omega

end Ipv6ExtensionHeader

end SeanetSim
