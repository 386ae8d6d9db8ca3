import Mathlib.Data.List.GetD
import Mathlib.Data.UInt
import SeanetSim.Lib.ChainedMap

/-!
# IPv4 addresses with an interface number

`Ipv4Address` carries, besides the address, the number of an interface.  The wire format holds the
address only, so an address that goes through a buffer comes back with interface 0
(`Ipv4Address.deserialize_serialize`).  `operator ==` compares the addresses, while
`Ipv4AddressHash` adds the interface number to the address: the tables keyed by `Ipv4Address` find
a key by a test and a hash that do not look at the same fields.
-/

namespace SeanetSim

/-- Append a byte to a big-endian word under construction. -/
def shiftIn (acc : UInt32) (b : UInt8) : UInt32 := acc <<< 8 ||| b.toUInt32

theorem toNat_shiftIn (acc : UInt32) (b : UInt8) :
    (shiftIn acc b).toNat = acc.toNat % 2 ^ 24 * 256 + b.toNat := by
  have hb : b.toNat < 2 ^ 8 := b.toNat_lt
  have hshift : acc.toNat <<< 8 % 2 ^ 32 = (acc.toNat % 2 ^ 24) <<< 8 := by
    rw [Nat.shiftLeft_eq, Nat.shiftLeft_eq]
    omega
  simp only [shiftIn, UInt32.toNat_or, UInt32.toNat_shiftLeft, UInt8.toNat_toUInt32]
  rw [show UInt32.toNat 8 % 32 = 8 from rfl, hshift, ← Nat.shiftLeft_add_eq_or_of_lt hb,
    Nat.shiftLeft_eq]

/-- Byte of a word at bit `k`. -/
theorem toNat_shiftRight_and (a k : UInt32) (hk : k.toNat < 32) :
    (a >>> k &&& 0xff).toUInt8.toNat = a.toNat / 2 ^ k.toNat % 256 := by
  simp only [UInt32.toNat_toUInt8, UInt32.toNat_and, UInt32.toNat_shiftRight]
  rw [Nat.mod_eq_of_lt hk, Nat.shiftRight_eq_div_pow, show UInt32.toNat 0xff = 2 ^ 8 - 1 from rfl,
    Nat.and_two_pow_sub_one_eq_mod]
  omega

/-- An IPv4 address in host order, with an interface number. -/
@[ext]
structure Ipv4Address where
  address : UInt32
  interfaceNum : UInt32
  deriving DecidableEq, Repr

namespace Ipv4Address

/-- `Ipv4Address (uint32_t)`. -/
def ofUInt32 (address : UInt32) : Ipv4Address := ⟨address, 0⟩

/-- The default-constructed address, 102.102.102.102. -/
def uninitialized : Ipv4Address := ⟨0x66666666, 0⟩

def getAny : Ipv4Address := ⟨0, 0⟩

def getLoopback : Ipv4Address := ⟨0x7f000001, 0⟩

def setInterfaceNum (a : Ipv4Address) (num : UInt32) : Ipv4Address := { a with interfaceNum := num }

/-- `operator ==`, which ignores the interface number. -/
def same (a b : Ipv4Address) : Bool := a.address == b.address

def isBroadcast (a : Ipv4Address) : Bool := a.address == 0xffffffff

def isMulticast (a : Ipv4Address) : Bool := 0xe0000000 ≤ a.address && a.address ≤ 0xefffffff

/-- `Serialize`, network byte order. -/
def serialize (a : Ipv4Address) : List UInt8 :=
  [(a.address >>> 24 &&& 0xff).toUInt8, (a.address >>> 16 &&& 0xff).toUInt8,
    (a.address >>> 8 &&& 0xff).toUInt8, (a.address >>> 0 &&& 0xff).toUInt8]

/-- `Deserialize`: reads the first four bytes of a buffer. -/
def deserialize (buf : List UInt8) : Ipv4Address :=
  ofUInt32 (shiftIn (shiftIn (shiftIn (shiftIn 0 (buf.getD 0 0)) (buf.getD 1 0)) (buf.getD 2 0))
    (buf.getD 3 0))

/-- `Ipv4Address::ConvertFrom (Address (a))`, and what a send through an `Address` makes of `a`. -/
def viaAddress (a : Ipv4Address) : Ipv4Address := deserialize a.serialize

@[simp] theorem setInterfaceNum_address (a : Ipv4Address) (num : UInt32) :
    (a.setInterfaceNum num).address = a.address := rfl

theorem setInterfaceNum_self {a : Ipv4Address} {num : UInt32} (h : a.interfaceNum = num) :
    a.setInterfaceNum num = a := by
  subst h; rfl

@[simp] theorem same_iff {a b : Ipv4Address} : a.same b = true ↔ a.address = b.address := by
  simp [same]

/-- Only the first four bytes count. -/
theorem deserialize_append {buf : List UInt8} (h : 4 ≤ buf.length) (rest : List UInt8) :
    deserialize (buf ++ rest) = deserialize buf := by
  unfold deserialize
  rw [List.getD_append _ _ _ _ (by omega), List.getD_append _ _ _ _ (by omega),
    List.getD_append _ _ _ _ (by omega), List.getD_append _ _ _ _ (by omega)]

/-- The address a buffer holds, as a number. -/
theorem toNat_deserialize (b₀ b₁ b₂ b₃ : UInt8) (rest : List UInt8) :
    (deserialize (b₀ :: b₁ :: b₂ :: b₃ :: rest)).address.toNat =
      ((b₀.toNat * 256 + b₁.toNat) * 256 + b₂.toNat) * 256 + b₃.toNat := by
  have h₀ := b₀.toNat_lt
  have h₁ := b₁.toNat_lt
  have h₂ := b₂.toNat_lt
  simp only [deserialize, ofUInt32, List.getD_cons_zero, List.getD_cons_succ, toNat_shiftIn,
    UInt32.toNat_zero]
  omega

/-- Two buffers hold the same address exactly when their first four bytes agree. -/
theorem deserialize_eq_iff (b₀ b₁ b₂ b₃ c₀ c₁ c₂ c₃ : UInt8) (l l' : List UInt8) :
    deserialize (b₀ :: b₁ :: b₂ :: b₃ :: l) = deserialize (c₀ :: c₁ :: c₂ :: c₃ :: l') ↔
      b₀ = c₀ ∧ b₁ = c₁ ∧ b₂ = c₂ ∧ b₃ = c₃ := by
  constructor
  · intro h
    have hnat := congrArg (fun a => a.address.toNat) h
    simp only [toNat_deserialize] at hnat
    have := b₁.toNat_lt
    have := b₂.toNat_lt
    have := b₃.toNat_lt
    have := c₁.toNat_lt
    have := c₂.toNat_lt
    have := c₃.toNat_lt
    simp only [← UInt8.toNat_inj]
    omega
  · rintro ⟨rfl, rfl, rfl, rfl⟩
    rfl

/-- The address survives the wire, the interface number does not. -/
theorem deserialize_serialize (a : Ipv4Address) :
    deserialize a.serialize = a.setInterfaceNum 0 := by
  refine Ipv4Address.ext (UInt32.toNat_inj.1 ?_) rfl
  have ha := a.address.toNat_lt
  rw [serialize, toNat_deserialize]
  simp only [setInterfaceNum_address]
  rw [toNat_shiftRight_and _ _ (by decide), toNat_shiftRight_and _ _ (by decide),
    toNat_shiftRight_and _ _ (by decide), toNat_shiftRight_and _ _ (by decide),
    show UInt32.toNat 24 = 24 from rfl, show UInt32.toNat 16 = 16 from rfl,
    show UInt32.toNat 8 = 8 from rfl, show UInt32.toNat 0 = 0 from rfl]
  omega

theorem viaAddress_eq (a : Ipv4Address) : a.viaAddress = a.setInterfaceNum 0 :=
  deserialize_serialize a

end Ipv4Address

/-- `Ipv4AddressHash` and `operator ==`, as the hash maps keyed by `Ipv4Address` use them. -/
def ipv4AddressHash : Hashing Ipv4Address where
  hash x := (x.address + x.interfaceNum).toNat
  same := Ipv4Address.same
  same_refl := by simp

end SeanetSim
