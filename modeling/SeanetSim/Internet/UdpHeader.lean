import Mathlib.Data.UInt
import SeanetSim.Network.Ipv4Address

/-!
# The UDP header

Reading and writing 16-bit words in a packet buffer, and the header of `udp-header.cc` with its
checksum.  Reading a header and writing it back keeps the ports and the checksum but not the length
field: `Deserialize` takes the header size off the length it reads, and `Serialize` writes the
payload size (`UdpHeader.addHeader_deserialize`, `UdpHeader.rewrittenLength_ne`).
-/

namespace SeanetSim

/-! ## Words in a buffer -/

/-- `ReadNtohU16`. -/
def readNtohU16 (b₀ b₁ : UInt8) : UInt16 := b₀.toUInt16 <<< 8 ||| b₁.toUInt16

/-- `WriteHtonU16`. -/
def writeHtonU16 (data : UInt16) : List UInt8 :=
  [(data >>> 8 &&& 0xff).toUInt8, (data >>> 0 &&& 0xff).toUInt8]

/-- `ReadU16`, low byte first. -/
def readU16 (b₀ b₁ : UInt8) : UInt16 := b₁.toUInt16 <<< 8 ||| b₀.toUInt16

/-- `WriteU16`, low byte first. -/
def writeU16 (data : UInt16) : List UInt8 :=
  [(data >>> 0 &&& 0xff).toUInt8, (data >>> 8 &&& 0xff).toUInt8]

theorem toNat_readNtohU16 (b₀ b₁ : UInt8) :
    (readNtohU16 b₀ b₁).toNat = b₀.toNat * 256 + b₁.toNat := by
  have h₀ : b₀.toNat < 2 ^ 8 := b₀.toNat_lt
  have h₁ : b₁.toNat < 2 ^ 8 := b₁.toNat_lt
  have hshift : b₀.toNat <<< 8 % 2 ^ 16 = b₀.toNat <<< 8 := by
    rw [Nat.shiftLeft_eq]
    omega
  simp only [readNtohU16, UInt16.toNat_or, UInt16.toNat_shiftLeft, UInt8.toNat_toUInt16]
  rw [show UInt16.toNat 8 % 16 = 8 from rfl, hshift, ← Nat.shiftLeft_add_eq_or_of_lt h₁,
    Nat.shiftLeft_eq]

theorem toNat_byte (data k : UInt16) (hk : k.toNat < 16) :
    (data >>> k &&& 0xff).toUInt8.toNat = data.toNat / 2 ^ k.toNat % 256 := by
  simp only [UInt16.toNat_toUInt8, UInt16.toNat_and, UInt16.toNat_shiftRight]
  rw [Nat.mod_eq_of_lt hk, Nat.shiftRight_eq_div_pow, show UInt16.toNat 0xff = 2 ^ 8 - 1 from rfl,
    Nat.and_two_pow_sub_one_eq_mod]
  omega

theorem readNtohU16_bytes (data : UInt16) :
    readNtohU16 (data >>> 8 &&& 0xff).toUInt8 (data >>> 0 &&& 0xff).toUInt8 = data := by
  have hdata := data.toNat_lt
  rw [← UInt16.toNat_inj, toNat_readNtohU16, toNat_byte _ _ (by decide), toNat_byte _ _ (by decide),
    show UInt16.toNat 8 = 8 from rfl, show UInt16.toNat 0 = 0 from rfl]
  omega

theorem writeHtonU16_injective : Function.Injective writeHtonU16 := by
  intro a b h
  simp only [writeHtonU16, List.cons.injEq, and_true] at h
  rw [← readNtohU16_bytes a, ← readNtohU16_bytes b, h.1, h.2]

theorem writeHtonU16_readNtohU16 (b₀ b₁ : UInt8) : writeHtonU16 (readNtohU16 b₀ b₁) = [b₀, b₁] := by
  have h₀ := b₀.toNat_lt
  have h₁ := b₁.toNat_lt
  unfold writeHtonU16
  simp only [List.cons.injEq, and_true, ← UInt8.toNat_inj]
  rw [toNat_byte _ _ (by decide), toNat_byte _ _ (by decide), toNat_readNtohU16,
    show UInt16.toNat 8 = 8 from rfl, show UInt16.toNat 0 = 0 from rfl]
  omega

theorem writeU16_readU16 (b₀ b₁ : UInt8) : writeU16 (readU16 b₀ b₁) = [b₀, b₁] := by
  have h := writeHtonU16_readNtohU16 b₁ b₀
  simp only [writeHtonU16, List.cons.injEq, and_true] at h
  simp only [writeU16, List.cons.injEq, and_true]
  exact ⟨h.2, h.1⟩

/-! ## The IP checksum -/

/-- The 16-bit words of a buffer added up; a last odd byte counts as one. -/
def wordSum : List UInt8 → ℕ
  | [] => 0
  | [b] => b.toNat
  | b₀ :: b₁ :: rest => (readU16 b₀ b₁).toNat + wordSum rest

/-- `while (sum >> 16) sum = (sum & 0xffff) + (sum >> 16)`. -/
def foldCarry (sum : ℕ) : ℕ :=
  if sum / 2 ^ 16 = 0 then sum else foldCarry (sum % 2 ^ 16 + sum / 2 ^ 16)
termination_by sum
decreasing_by omega

/-- `CalculateIpChecksum`. -/
def calculateIpChecksum (buf : List UInt8) (initialChecksum : UInt16) : UInt16 :=
  ~~~ UInt16.ofNat (foldCarry (initialChecksum.toNat + wordSum buf))

/-! ## Header -/

structure UdpHeader where
  sourcePort : UInt16
  destinationPort : UInt16
  payloadSize : UInt16
  checksum : UInt16
  deriving DecidableEq, Repr

namespace UdpHeader

def protNumber : UInt8 := 17

def getSerializedSize : ℕ := 8

/-- `CalculateHeaderChecksum`, over the pseudo header. -/
def calculateHeaderChecksum (source destination : Ipv4Address) (size : UInt16) : UInt16 :=
  ~~~ calculateIpChecksum
    (source.serialize ++ destination.serialize ++ [0, protNumber] ++ writeHtonU16 size) 0

/-- The checksum test that `Deserialize` makes when checksums are enabled. -/
def isChecksumOk (source destination : Ipv4Address) (buf : List UInt8) : Bool :=
  calculateIpChecksum buf
    (calculateHeaderChecksum source destination (UInt16.ofNat buf.length)) == 0

/-- `Deserialize`, with the bytes left; reading past the end of the buffer is an assertion
failure. -/
def deserialize : List UInt8 → Option (UdpHeader × List UInt8)
  | s₀ :: s₁ :: d₀ :: d₁ :: l₀ :: l₁ :: c₀ :: c₁ :: rest =>
    some (⟨readNtohU16 s₀ s₁, readNtohU16 d₀ d₁, readNtohU16 l₀ l₁ - UInt16.ofNat getSerializedSize,
      readU16 c₀ c₁⟩, rest)
  | _ => none

/-- `AddHeader`: `Serialize` with checksums not enabled, in front of `rest`.  The iterator's
`GetSize` counts the whole packet. -/
def addHeader (h : UdpHeader) (rest : List UInt8) : List UInt8 :=
  writeHtonU16 h.sourcePort ++ writeHtonU16 h.destinationPort ++
    writeHtonU16 (if h.payloadSize = 0 then UInt16.ofNat (getSerializedSize + rest.length)
      else h.payloadSize) ++
    writeU16 h.checksum ++ rest

/-- The length field that `Deserialize` and `Serialize` make of `length` in a packet of `size`
bytes. -/
def rewrittenLength (length : UInt16) (size : ℕ) : UInt16 :=
  if length - UInt16.ofNat getSerializedSize = 0 then UInt16.ofNat size
  else length - UInt16.ofNat getSerializedSize

theorem exists_deserialize {buf : List UInt8} (h : getSerializedSize ≤ buf.length) :
    ∃ uh rest, deserialize buf = some (uh, rest) := by
  match buf, h with
  | s₀ :: s₁ :: d₀ :: d₁ :: l₀ :: l₁ :: c₀ :: c₁ :: rest, _ => exact ⟨_, rest, rfl⟩

theorem length_of_deserialize {buf rest : List UInt8} {h : UdpHeader}
    (heq : deserialize buf = some (h, rest)) : buf.length = getSerializedSize + rest.length := by
  unfold deserialize at heq
  split at heq
  · cases heq
    simp only [List.length_cons, getSerializedSize]
    omega
  · cases heq

/-- Only the length field changes. -/
theorem addHeader_deserialize (s₀ s₁ d₀ d₁ l₀ l₁ c₀ c₁ : UInt8) (rest : List UInt8) :
    addHeader ⟨readNtohU16 s₀ s₁, readNtohU16 d₀ d₁,
        readNtohU16 l₀ l₁ - UInt16.ofNat getSerializedSize, readU16 c₀ c₁⟩ rest =
      s₀ :: s₁ :: d₀ :: d₁ ::
        (writeHtonU16 (rewrittenLength (readNtohU16 l₀ l₁) (getSerializedSize + rest.length)) ++
          c₀ :: c₁ :: rest) := by
  simp only [addHeader, rewrittenLength, writeHtonU16_readNtohU16, writeU16_readU16]
  simp

/-- The new length is never the old one. -/
theorem rewrittenLength_ne (length : UInt16) {size : ℕ} (hsize : getSerializedSize < size)
    (hlt : size < 2 ^ 16) : rewrittenLength length size ≠ length := by
  have hlength := length.toNat_lt
  have hsub : (length - UInt16.ofNat getSerializedSize).toNat =
      (2 ^ 16 - 8 + length.toNat) % 2 ^ 16 := UInt16.toNat_sub _ _
  simp only [getSerializedSize] at hsize
  unfold rewrittenLength
  split_ifs with hzero
  · -- the length was 8, and the size of the packet takes its place
    rw [hzero] at hsub
    simp only [UInt16.toNat_zero] at hsub
    rw [Ne, ← UInt16.toNat_inj, UInt16.toNat_ofNat_of_lt' hlt]
    omega
  · rw [Ne, ← UInt16.toNat_inj, hsub]
    omega

end UdpHeader

end SeanetSim
