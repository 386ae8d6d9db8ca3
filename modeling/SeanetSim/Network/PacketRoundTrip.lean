import Mathlib.Algebra.BigOperators.Ring.List
import SeanetSim.Network.BufferReading

/-!
# Round trips of packets

`Packet::Deserialize` counts the sections without the gaps behind them, so that it returns 1 only
where the metadata, whose names have any length, need none.
-/

namespace SeanetSim

variable {rest : List (Option UInt8)} {buf : List UInt8} {size : UInt32}

namespace ByteTags

end ByteTags

namespace NetPacket

variable {p : NetPacket} (reg : TypeIdRegistry)

/-- What is written of the nix-vector, or instead of it. -/
def nixBytes (p : NetPacket) : List (Option UInt8) :=
  match p.nixVector with
  | some nv => framed (Piece.bytes nv.pieces)
  | none => (Piece.word 4).2

/-- In as much space as it says that it needs, the packet is written. -/
theorem serialize_eq (h : p.Fits reg) : p.serialize reg (p.getSerializedSize reg) =
    (1, p.nixBytes ++ (p.bodies reg).flatMap framed) := by
  have hsum := sum_bodies reg h
  have hsections := writes_sections reg h
  have hsize := toNat_getSerializedSize reg h
  have hlengths := length_bodies reg h
  have hcounted : p.nixLength + 4 + ((p.bodies reg).map List.length).sum ≤
      (p.getSerializedSize reg).toNat := by
    have hnix := le_roundUp p.nixLength
    have hbyte := le_roundUp p.byteTagList.length
    have hpacket := le_roundUp (PacketTag.length p.packetTagList)
    have hmeta := le_roundUp (p.metadata.length reg)
    have hbuffer := le_roundUp p.buffer.length
    rw [hsize, hlengths]
    simp only [serializedLength, lengths, List.map_cons, List.map_nil, List.sum_cons, List.sum_nil]
    omega
  obtain ⟨size, hs⟩ : ∃ size, p.serializeSections reg (p.getSerializedSize reg) =
      .ok ⟨p.nixBytes ++ (p.bodies reg).flatMap framed, size⟩ := by
    cases hnv : p.nixVector with
    | some nv =>
      have hnix : p.nixLength = (Piece.bytes nv.pieces).length := by
        rw [NixVector.length_bytes_pieces, nixLength, hnv]
      obtain ⟨size, hrun⟩ := Section.foldlM_place_eq (p.getSerializedSize reg)
        (hsections.cons (writes_nixVector reg h hnv)) (s := Section.start)
        (by
          rw [List.map_cons, List.sum_cons, ← hnix]
          change 0 + _ ≤ _
          omega)
        (by
          rw [List.map_cons, List.sum_cons, ← hnix]
          change 0 + _ < _
          omega)
      refine ⟨size, ?_⟩
      rw [serializeSections, nixBytes, hnv]
      exact hrun
    | none =>
      have hput : Section.start.put (p.getSerializedSize reg) (.word 4) =
          .ok ⟨(Piece.word 4).2, 4⟩ := by
        apply Section.put_eq (Piece.exact_word 4)
        rw [Piece.length_word]
        change 0 + 4 ≤ _
        omega
      obtain ⟨size, hrun⟩ := Section.foldlM_place_eq (p.getSerializedSize reg)
        hsections (s := ⟨(Piece.word 4).2, 4⟩)
        (by
          change 4 + _ ≤ _
          omega)
        (by
          change 4 + _ < _
          omega)
      refine ⟨size, ?_⟩
      rw [serializeSections, nixBytes, hnv]
      dsimp only
      rw [hput]
      exact hrun
  rw [serialize, hs]

/-- Every type of a tag, a header or a trailer is registered. -/
structure Known (p : NetPacket) : Prop where
  byteTags : ∀ t ∈ p.byteTagList.beginAll, reg.Registered t.tid
  packetTags : ∀ t ∈ p.packetTagList, reg.Registered t.tid
  items : ∀ i ∈ p.metadata.items, i.Known reg

/-- The new packet holds what `p` does, whose buffer is the `i`-th one. -/
structure Restores (p : NetPacket) (m : Buffers) (i : ℕ) (d : Deserialized) : Prop where
  nixVector : d.nixVector = p.nixVector
  byteTagList : ∀ n, 0 < n → d.byteTagList.begin_ 0 n = p.byteTagList.begin_ 0 n
  packetTagList : d.packetTagList = p.packetTagList
  buffer : ∃ c, m.contents[i]? = some (some c) ∧ d.buffers.contents = m.contents ++ [some c]

/-- `Deserialize` returns 1 and has restored the packet. -/
def RoundTrips (p : NetPacket) (m : Buffers) (i : ℕ) (memory : ℕ → List UInt8)
    (buf : List UInt8) : Prop :=
  ∃ d, deserialize reg m memory buf (p.getSerializedSize reg) = some d ∧ d.result = 1 ∧
    p.Restores m i d

end NetPacket

end SeanetSim