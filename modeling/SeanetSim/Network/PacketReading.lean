import SeanetSim.Network.PacketDeserialization
import SeanetSim.Network.PacketSections

/-!
# The sections of a packet are read again

Each section is read as it has been written, whatever is in the gaps: a reader that stands before
what is left of a section (`Reader.Ready`) finds it, and counts it to the end.
-/

namespace SeanetSim

variable {out rest : List (Option UInt8)} {buf : List UInt8} {v size : UInt32}

theorem readU32_eq (h : Agrees ((Piece.word v).2 ++ rest) buf) :
    readU32 buf = some (v, buf.drop 4) ∧ Agrees rest (buf.drop 4) := by
  obtain ⟨hread, hrest⟩ := Agrees.readLE (n := 4) h v.toNat_lt
  exact ⟨by rw [readU32, hread, Option.map_some, UInt32.ofNat_toNat], hrest⟩

namespace Reader

/-- The rest of the section, which the reader counts, and what follows it. -/
structure Ready (rest out : List (Option UInt8)) (r : Reader) : Prop where
  agrees : Agrees (out ++ rest) r.buf
  sizeCheck : r.sizeCheck = UInt32.ofNat out.length
  length_lt : out.length < 2 ^ 32

variable {r : Reader}

theorem Ready.start (h : Agrees (out ++ rest) buf) (hlt : out.length + 4 < 2 ^ 32) :
    Ready rest out (Reader.start buf (UInt32.ofNat (out.length + 4))) :=
  ⟨h, by rw [Reader.start, UInt32.ofNat_add]; exact UInt32.add_sub_cancel .., by omega⟩

theorem Ready.word (h : Ready rest ((Piece.word v).2 ++ out) r) :
    ∃ r', r.word = some (v, r') ∧ Ready rest out r' := by
  have hlt := h.length_lt
  have hsize := h.sizeCheck
  rw [List.length_append, Piece.length_word] at hlt hsize
  obtain ⟨hread, hrest⟩ := readU32_eq (List.append_assoc .. ▸ h.agrees)
  have hle : 4 ≤ r.sizeCheck := by
    rw [hsize, UInt32.le_iff_toNat_le, toNat_ofNat_of_lt hlt]
    exact Nat.le_add_right ..
  refine ⟨_, by rw [Reader.word, if_pos hle, hread, Option.map_some], hrest, ?_, by omega⟩
  dsimp only
  rw [hsize, UInt32.ofNat_add, UInt32.add_comm]
  exact UInt32.add_sub_cancel ..

theorem Ready.padded {data : List UInt8} (hdata : data.length + 3 < 2 ^ 32)
    (h : Ready rest ((Piece.padded data).2 ++ out) r) :
    ∃ r', r.padded (UInt32.ofNat data.length) = some (data, r') ∧ Ready rest out r' := by
  have hlt := h.length_lt
  have hsize := h.sizeCheck
  rw [List.length_append, Piece.length_padded hdata] at hlt hsize
  have hround := le_roundUp data.length
  have hagrees := h.agrees
  rw [Piece.padded_eq hdata, List.append_assoc, List.append_assoc] at hagrees
  have hn := toNat_ofNat_of_lt (n := data.length) (by omega)
  obtain ⟨htake, hgap⟩ := hagrees.takeBytes rfl
  have hrest := hgap.skip
  rw [List.drop_drop, Nat.add_sub_cancel' hround] at hrest
  have hle : UInt32.ofNat data.length ≤ r.sizeCheck := by
    rw [hsize, UInt32.le_iff_toNat_le, hn, toNat_ofNat_of_lt hlt]
    omega
  refine ⟨_, by rw [Reader.padded, if_pos hle, hn, htake, Option.map_some], ?_, ?_, by omega⟩
  · dsimp only
    rwa [Piece.toNat_align4_length hdata]
  · dsimp only
    rw [hsize, align4_ofNat hdata, UInt32.ofNat_add, UInt32.add_comm]
    exact UInt32.add_sub_cancel ..

theorem Ready.done {α : Type} (h : Ready rest [] r) (a : α) : r.done a = some a :=
  if_pos h.sizeCheck

end Reader

/-! ## The sections -/

namespace NixVector

end NixVector

namespace TypeIdRegistry

variable {reg : TypeIdRegistry} {uid : UInt16}

/-- The id has been given to a type. -/
def Registered (reg : TypeIdRegistry) (uid : UInt16) : Prop :=
  uid ≠ 0 ∧ uid.toNat ≤ reg.information.length

instance (reg : TypeIdRegistry) (uid : UInt16) : Decidable (reg.Registered uid) :=
  inferInstanceAs (Decidable (uid ≠ 0 ∧ uid.toNat ≤ reg.information.length))

theorem Registered.lookup (h : reg.Registered uid) : ∃ info,
    reg.lookupInformation uid = some info ∧ reg.information[uid.toNat - 1]? = some info ∧
      UInt16.ofNat (uid.toNat - 1 + 1) = uid := by
  have hpos : 0 < uid.toNat := Nat.pos_of_ne_zero fun hzero => h.1 (UInt16.toNat_inj.1 hzero)
  have hlt : uid.toNat - 1 < reg.information.length := by
    have := h.2
    omega
  refine ⟨reg.information[uid.toNat - 1], ?_, List.getElem?_eq_getElem hlt, ?_⟩
  · rw [lookupInformation, if_neg h.1, List.getElem?_eq_getElem hlt]
  · rw [Nat.sub_add_cancel hpos, UInt16.ofNat_toNat]

end TypeIdRegistry

namespace ByteTags

variable {reg : TypeIdRegistry} {l : ByteTags} {r : Reader}

end ByteTags

namespace PacketTag

variable {reg : TypeIdRegistry} {r : Reader}

end PacketTag

namespace MetadataItem

/-- The name of the type of a header or trailer leads back to it. -/
def Known (reg : TypeIdRegistry) (item : MetadataItem) : Prop :=
  item.IsPayload ∨ reg.Registered item.uid

instance (reg : TypeIdRegistry) (item : MetadataItem) : Decidable (item.Known reg) :=
  inferInstanceAs (Decidable (item.IsPayload ∨ reg.Registered item.uid))

end MetadataItem

namespace PacketMetadata

/-- The rest of the items, which the reader counts, and what follows them. -/
structure RawReader.Ready (maxSize : UInt32) (rest out : List (Option UInt8)) (r : RawReader) :
    Prop where
  agrees : Agrees (out ++ rest) r.buf
  desSize : r.desSize = UInt32.ofNat out.length
  le_maxSize : r.current + out.length ≤ maxSize.toNat

namespace RawReader

variable {maxSize : UInt32} {r : RawReader} {n w : ℕ}

theorem Ready.bytes {l : List UInt8} (h : Ready maxSize rest (l.map some ++ out) r) :
    ∃ r', r.bytes maxSize l.length = some (l, r') ∧ Ready maxSize rest out r' := by
  have hle := h.le_maxSize
  have hsize := h.desSize
  rw [List.length_append, List.length_map] at hle hsize
  obtain ⟨htake, hrest⟩ := (List.append_assoc .. ▸ h.agrees :
    Agrees (l.map some ++ (out ++ rest)) r.buf).takeBytes rfl
  refine ⟨_, by rw [RawReader.bytes, if_pos (by omega), htake, Option.map_some], hrest, ?_, ?_⟩
  · dsimp only
    rw [hsize, UInt32.ofNat_add, UInt32.add_comm]
    exact UInt32.add_sub_cancel ..
  · dsimp only
    omega

theorem Ready.number (hw : w < 256 ^ n) (h : Ready maxSize rest ((Piece.number n w).2 ++ out) r) :
    ∃ r', r.number maxSize n = some (w, r') ∧ Ready maxSize rest out r' := by
  obtain ⟨r', hbytes, h'⟩ := h.bytes
  rw [length_bytesLE] at hbytes
  exact ⟨r', by rw [RawReader.number, hbytes, Option.map_some, ofBytesLE_bytesLE hw], h'⟩

end RawReader

variable {reg : TypeIdRegistry} {maxSize : UInt32} {r : RawReader}

end PacketMetadata

end SeanetSim
