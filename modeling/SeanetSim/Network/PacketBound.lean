import SeanetSim.Network.PacketSections

/-!
# The bound of a serialized packet

`Packet::Serialize` counts its sections, but not the length that it writes in front of each of them
nor the gaps between them.  Where `maxSize` lies in between it returns 1 and has written too much.
-/

namespace SeanetSim

namespace Piece

theorem extent_some_append (p : Piece) (rest : List (Option UInt8)) {l : List UInt8}
    (hp : p.2 = l.map some) : extent (p.2 ++ rest) = l.length + extent rest := by
  rw [extent_append, hp, extent_map_some, List.length_map]
  split_ifs with h
  · rw [h, Nat.add_zero]
  · rfl

theorem extent_word_append (v : UInt32) (rest : List (Option UInt8)) :
    extent ((word v).2 ++ rest) = 4 + extent rest := by
  rw [extent_some_append (word v) rest rfl, length_bytesLE]

/-- No part leaves a gap. -/
theorem extent_bytes {ps : List Piece} (hps : ∀ p ∈ ps, ∃ l : List UInt8, p.2 = l.map some) :
    extent (bytes ps) = (bytes ps).length := by
  induction ps with
  | nil => rfl
  | cons p ps ih =>
    obtain ⟨l, hl⟩ := hps p List.mem_cons_self
    rw [bytes_cons, extent_some_append p _ hl, ih fun q hq => hps q (List.mem_cons_of_mem _ hq),
      List.length_append, hl, List.length_map]

end Piece

/-- The gap behind the last of several data. -/
def lastGap (data : List (List UInt8)) : ℕ :=
  (data.getLast?.map fun d => roundUp d.length - d.length).getD 0

theorem extent_tagsBody {α : Type*} {pieces : α → List Piece} {data : α → List UInt8} {k : ℕ}
    {tags : List α}
    (hextent : ∀ t ∈ tags, extent (Piece.bytes (pieces t)) = k + 1 + (data t).length)
    (hlength : ∀ t ∈ tags, (Piece.bytes (pieces t)).length = k + 1 + roundUp (data t).length) :
    extent (SectionWriter.tagsBody (tags.map pieces)) =
      (SectionWriter.tagsBody (tags.map pieces)).length - lastGap (tags.map data) := by
  rw [SectionWriter.length_tagsBody, SectionWriter.tagsBody, Piece.extent_word_append]
  rcases List.eq_nil_or_concat tags with rfl | ⟨init, t, rfl⟩
  · rfl
  · have ht : t ∈ init.concat t := by rw [List.concat_eq_append]; simp
    have hround := le_roundUp (data t).length
    rw [List.concat_eq_append, List.map_append, List.flatMap_append, extent_append,
      List.map_singleton, List.flatMap_singleton, hextent t ht, if_neg (by omega),
      List.length_append, hlength t ht, lastGap, List.map_append, List.map_singleton,
      List.getLast?_concat, Option.map_some, Option.getD_some]
    omega

namespace ByteTags

variable (reg : TypeIdRegistry) {l : ByteTags}

/-- Where the section ends, without the gap behind its last tag. -/
def written (l : ByteTags) : ℕ := l.length - lastGap (l.beginAll.map (·.data))

theorem extent_body (h : l.length + 3 < 2 ^ 32) : extent (l.body reg) = l.written := by
  rw [written, ← length_body reg h]
  refine extent_tagsBody (k := 15) (fun t ht => ?_) fun t ht => ?_
  · simp only [ByteTag.pieces, Piece.bytes, List.flatMap_cons, List.flatMap_nil,
      Piece.extent_word_append, List.append_nil, Piece.extent_padded (data_lt h ht)]
    omega
  · exact ByteTag.length_bytes_pieces reg (data_lt h ht)

end ByteTags

namespace PacketTag

variable (reg : TypeIdRegistry) {tags : List PacketTag}

def written (tags : List PacketTag) : ℕ := length tags - lastGap (tags.map (·.data))

theorem extent_body (h : length tags + 3 < 2 ^ 32) : extent (body reg tags) = written tags := by
  rw [written, ← length_body reg h]
  refine extent_tagsBody (k := 7) (fun t ht => ?_) fun t ht => ?_
  · simp only [pieces, Piece.bytes, List.flatMap_cons, List.flatMap_nil,
      Piece.extent_word_append, List.append_nil, Piece.extent_padded (data_lt h ht)]
    omega
  · exact length_bytes_pieces reg (data_lt h ht)

end PacketTag

theorem NixVector.extent_pieces (nv : NixVector) :
    extent (Piece.bytes nv.pieces) = 12 + 4 * nv.words.length := by
  rw [← length_bytes_pieces]
  refine Piece.extent_bytes fun p hp => ?_
  obtain ⟨w, rfl⟩ := nv.exists_word_of_mem_pieces p hp
  exact ⟨_, rfl⟩

theorem MetadataItem.noGap_pieces (reg : TypeIdRegistry) (item : MetadataItem) :
    ∀ p ∈ item.pieces reg, ∃ l : List UInt8, p.2 = l.map some := by
  refine List.forall_mem_append.2 ⟨?_, ?_⟩
  · split_ifs
    · simp [Piece.word, Piece.number]
    · simp [Piece.word, Piece.number, Piece.raw]
  · simp [Piece.word, Piece.number]

theorem PacketMetadata.extent_pieces (reg : TypeIdRegistry) (m : PacketMetadata) :
    extent (Piece.bytes (m.pieces reg)) = m.length reg := by
  rw [← length_bytes_pieces]
  refine Piece.extent_bytes fun p hp => ?_
  rcases List.mem_cons.1 hp with rfl | hp
  · exact ⟨_, rfl⟩
  · obtain ⟨item, -, hp⟩ := List.mem_flatMap.1 hp
    exact item.noGap_pieces reg p hp

namespace BufferAreas

variable {b : BufferAreas}

def written (b : BufferAreas) : ℕ := b.length - lastGap [b.dataEnd]

theorem extent_pieces (h : b.length + 3 < 2 ^ 32) :
    extent (Piece.bytes b.pieces) = b.written := by
  obtain ⟨hstart, hend⟩ := data_lt h
  have hround := le_roundUp b.dataEnd.length
  have hrest (rest : List (Option UInt8)) :
      extent ((Piece.padded b.dataStart).2 ++ ((Piece.word (UInt32.ofNat b.dataEnd.length)).2 ++
        rest)) = roundUp b.dataStart.length + (4 + extent rest) := by
    rw [extent_append, Piece.extent_word_append, if_neg (by omega), Piece.length_padded hstart]
  simp only [pieces, Piece.bytes, List.flatMap_cons, List.flatMap_nil,
    Piece.extent_word_append, hrest, List.append_nil, Piece.extent_padded hend, written, lastGap,
    length, List.getLast?_singleton, Option.map_some, Option.getD_some]
  omega

end BufferAreas

/-! ## The whole packet -/

/-- Every section that the check lets through ends in the first `maxSize` bytes.  `counted` bytes
have been counted and `offset` bytes have been passed; a section has a length and ends at its last
written byte. -/
def InsideFrom (maxSize : ℕ) : ℕ → ℕ → List (ℕ × ℕ) → Prop
  | _, _, [] => True
  | counted, offset, (length, written) :: rest => counted + length ≤ maxSize →
    offset + 4 + written ≤ maxSize ∧
      InsideFrom maxSize (counted + length) (offset + 4 + roundUp length) rest

instance (maxSize : ℕ) : (counted offset : ℕ) → (l : List (ℕ × ℕ)) →
    Decidable (InsideFrom maxSize counted offset l)
  | _, _, [] => .isTrue trivial
  | counted, offset, (length, written) :: rest =>
    have := instDecidableInsideFrom maxSize (counted + length) (offset + 4 + roundUp length) rest
    inferInstanceAs (Decidable (counted + length ≤ maxSize → offset + 4 + written ≤ maxSize ∧
      InsideFrom maxSize (counted + length) (offset + 4 + roundUp length) rest))

/-- What has been written, whatever is returned. -/
def Serialized.out : Serialized → List (Option UInt8)
  | .ok s => s.out
  | .error out => out

theorem extent_framed (body : List (Option UInt8)) : extent (framed body) = 4 + extent body := by
  rw [framed, extent_append, extent_replicate_none, if_pos rfl, Piece.extent_word_append]

namespace Section

variable {ws : List SectionWriter} {bodies : List (List (Option UInt8))}

/-- The sections are placed one after the other, and end where their lengths say. -/
theorem foldlM_place (maxSize : UInt32) (h : List.Forall₂ SectionWriter.Writes ws bodies)
    {s : Section}
    (hle : s.size.toNat ≤ maxSize.toNat)
    (hs : s.size.toNat + (bodies.map fun b => b.length + 3).sum < 2 ^ 32) :
    ((∃ s', ws.foldlM (place maxSize) s = .ok s') ↔
      s.size.toNat + (bodies.map List.length).sum ≤ maxSize.toNat) ∧
    (extent (Serialized.out (ws.foldlM (place maxSize) s)) ≤ maxSize.toNat ↔
      extent s.out ≤ maxSize.toNat ∧ InsideFrom maxSize.toNat s.size.toNat s.out.length
        (bodies.map fun b => (b.length, extent b))) := by
  induction h generalizing s with
  | nil => simp [InsideFrom, Serialized.out, pure, Except.pure, hle]
  | @cons w body ws bodies hw _ ih =>
    rw [List.map_cons, List.sum_cons] at hs
    rw [List.foldlM_cons, place_eq hw (by omega) (by omega), List.map_cons, List.sum_cons,
      List.map_cons, InsideFrom]
    split_ifs with hcheck
    · have hsize : (s.size + w.size).toNat = s.size.toNat + body.length := by
        rw [UInt32.toNat_add, hw.toNat_size, Nat.mod_eq_of_lt (by omega)]
      have hextent : extent (s.out ++ framed body) = s.out.length + 4 + extent body := by
        rw [extent_append, extent_framed, if_neg (by omega), Nat.add_assoc]
      have hout : extent s.out ≤ s.out.length := extent_le_length
      obtain ⟨hok, hinside⟩ := ih (s := ⟨s.out ++ framed body, s.size + w.size⟩)
        (by dsimp only; omega) (by dsimp only; omega)
      dsimp only [bind, Except.bind] at hok hinside ⊢
      rw [hok, hinside, hsize, hextent, List.length_append, length_framed, Nat.add_assoc,
        ← Nat.add_assoc s.out.length 4]
      refine ⟨Iff.rfl, ?_, ?_⟩
      · rintro ⟨hend, hrest⟩
        exact ⟨by omega, fun _ => ⟨hend, hrest⟩⟩
      · rintro ⟨-, hrest⟩
        exact hrest hcheck
    · refine ⟨⟨?_, fun hsum => absurd hsum (by omega)⟩, ?_, And.left⟩
      · rintro ⟨s', hs'⟩
        cases hs'
      · exact fun hend => ⟨hend, fun hlen => absurd hlen hcheck⟩

end Section

namespace NetPacket

variable (reg : TypeIdRegistry) {p : NetPacket}

/-- The sections behind the nix-vector: their lengths, and where their last written bytes end. -/
def spans (p : NetPacket) : List (ℕ × ℕ) :=
  [(p.byteTagList.length, p.byteTagList.written),
    (PacketTag.length p.packetTagList, PacketTag.written p.packetTagList),
    (p.metadata.length reg, p.metadata.length reg), (p.buffer.length, p.buffer.written)]

/-- Without a nix-vector, its place is taken by a length word that is counted. -/
def Inside (p : NetPacket) (maxSize : ℕ) : Prop :=
  if p.nixVector.isSome then
    InsideFrom maxSize 0 0 ((p.nixLength, p.nixLength) :: p.spans reg)
  else InsideFrom maxSize 4 4 (p.spans reg)

instance (p : NetPacket) (maxSize : ℕ) : Decidable (p.Inside reg maxSize) :=
  inferInstanceAs (Decidable (if p.nixVector.isSome then
    InsideFrom maxSize 0 0 ((p.nixLength, p.nixLength) :: p.spans reg)
  else InsideFrom maxSize 4 4 (p.spans reg)))

/-- What the checks have counted at the end. -/
def countedLength (p : NetPacket) : ℕ :=
  (if p.nixVector.isSome then p.nixLength else 4) + (p.lengths reg).sum

theorem spans_eq (h : p.Fits reg) :
    (p.bodies reg).map (fun b => (b.length, extent b)) = p.spans reg := by
  obtain ⟨-, hbyte, hpacket, -, hbuffer⟩ := h.bounds
  simp only [bodies, spans, List.map_cons, List.map_nil, ByteTags.length_body reg hbyte,
    PacketTag.length_body reg hpacket, PacketMetadata.length_bytes_pieces,
    BufferAreas.length_bytes_pieces hbuffer, ByteTags.extent_body reg hbyte,
    PacketTag.extent_body reg hpacket, PacketMetadata.extent_pieces,
    BufferAreas.extent_pieces hbuffer]

/-- All checks go through if the space is as long as they count, and the sections are written up to
where one does not. -/
theorem serializeSections_iff (h : p.Fits reg) (maxSize : UInt32) :
    ((∃ s, p.serializeSections reg maxSize = .ok s) ↔ p.countedLength reg ≤ maxSize.toNat) ∧
    (extent (p.serializeSections reg maxSize).out ≤ maxSize.toNat ↔
      p.Inside reg maxSize.toNat) := by
  have hlt := sum_bodies reg h
  have hlengths := length_bodies reg h
  have hspans := spans_eq reg h
  have hsections := writes_sections reg h
  cases hnv : p.nixVector with
  | some nv =>
    have hnix : p.nixLength = (Piece.bytes nv.pieces).length := by
      rw [NixVector.length_bytes_pieces, nixLength, hnv]
    have hall := hsections.cons (writes_nixVector reg h hnv)
    have hrun : p.serializeSections reg maxSize =
        (nv.writer :: p.sections reg).foldlM (Section.place maxSize) Section.start := by
      rw [serializeSections, hnv, List.foldlM_cons]
      rfl
    obtain ⟨hok, hinside⟩ := Section.foldlM_place maxSize hall (s := Section.start)
      (Nat.zero_le _) (by
        rw [List.map_cons, List.sum_cons, ← hnix]
        change 0 + _ < _
        omega)
    rw [hrun, hok, hinside, List.map_cons, List.map_cons, List.sum_cons, hlengths, hspans, ← hnix,
      NixVector.extent_pieces, ← NixVector.length_bytes_pieces, ← hnix, countedLength, Inside, hnv]
    simp [Section.start, extent]
  | none =>
    have hput : Section.start.put maxSize (.word 4) =
        if 4 ≤ maxSize.toNat then .ok ⟨(Piece.word 4).2, 4⟩ else .error [] := by
      simp only [Section.put, UInt32.le_iff_toNat_le]
      rfl
    rw [serializeSections, hnv]
    dsimp only
    rw [hput, countedLength, Inside, hnv]
    simp only [Option.isSome_none, Bool.false_eq_true, if_false]
    split_ifs with hle
    · obtain ⟨hok, hinside⟩ := Section.foldlM_place maxSize hsections
        (s := ⟨(Piece.word 4).2, 4⟩) hle (by
          change 4 + _ < _
          omega)
      rw [hlengths] at hok
      rw [hspans] at hinside
      exact ⟨hok, hinside.trans (and_iff_right hle)⟩
    · refine ⟨⟨?_, fun hsum => absurd hsum (by omega)⟩, iff_of_true (Nat.zero_le _) ?_⟩
      · rintro ⟨s, hs⟩
        cases hs
      · exact fun hsum => absurd hsum (by omega)

/-- `Serialize` stays in the first `maxSize` bytes, and returns 0 exactly if they are too few. -/
def RespectsBound (p : NetPacket) (maxSize : UInt32) : Prop :=
  (∀ (i : ℕ) (b : UInt8), (p.serialize reg maxSize).2[i]? = some (some b) → i < maxSize.toNat) ∧
    ((p.serialize reg maxSize).1 = 0 ↔ maxSize < p.getSerializedSize reg)

theorem serialize_out (p : NetPacket) (maxSize : UInt32) :
    (p.serialize reg maxSize).2 = (p.serializeSections reg maxSize).out := by
  rw [serialize]
  cases p.serializeSections reg maxSize with
  | ok s => rfl
  | error out => rfl

theorem serialize_eq_zero (p : NetPacket) (maxSize : UInt32) :
    (p.serialize reg maxSize).1 = 0 ↔ ¬ ∃ s, p.serializeSections reg maxSize = .ok s := by
  rw [serialize]
  cases p.serializeSections reg maxSize with
  | ok s =>
    exact iff_of_false (fun h => absurd h (by decide : (1 : UInt32) ≠ 0)) fun h => h ⟨s, rfl⟩
  | error out => exact iff_of_true rfl fun ⟨s, hs⟩ => by cases hs

theorem countedLength_le (p : NetPacket) : p.countedLength reg ≤ p.serializedLength reg := by
  have hnix := le_roundUp p.nixLength
  have hbyte := le_roundUp p.byteTagList.length
  have hpacket := le_roundUp (PacketTag.length p.packetTagList)
  have hmeta := le_roundUp (p.metadata.length reg)
  have hbuffer := le_roundUp p.buffer.length
  simp only [countedLength, serializedLength, lengths, List.map_cons, List.map_nil, List.sum_cons,
    List.sum_nil]
  split_ifs
  · omega
  · omega

/-- The bound is respected unless it lies between what is counted and what is written, and as long
as no section that the checks let through ends behind it. -/
theorem respectsBound_iff (h : p.Fits reg) (maxSize : UInt32) : p.RespectsBound reg maxSize ↔
    (p.countedLength reg ≤ maxSize.toNat → p.serializedLength reg ≤ maxSize.toNat) ∧
      p.Inside reg maxSize.toNat := by
  obtain ⟨hok, hinside⟩ := serializeSections_iff reg h maxSize
  have hle := countedLength_le reg p
  rw [RespectsBound, ← extent_le_iff, serialize_out, serialize_eq_zero, hok, hinside,
    UInt32.lt_iff_toNat_lt, toNat_getSerializedSize reg h, and_comm]
  refine and_congr_left fun _ => ⟨fun hiff hcounted => ?_, fun himp => ⟨fun hnot => ?_, ?_⟩⟩
  · exact Nat.le_of_not_lt fun hlt => hiff.2 hlt hcounted
  · omega
  · exact fun hlt hcounted => absurd (himp hcounted) (Nat.not_le_of_lt hlt)

/-- Room for the whole packet, and too little for its second section. -/
theorem respectsBound_iff_three :
    (ofBuffer 7 ⟨[1, 2, 3], 5, []⟩).RespectsBound .empty 52 ∧
      (ofBuffer 7 ⟨[1, 2, 3], 5, []⟩).RespectsBound .empty 7 :=
  ⟨(respectsBound_iff .empty (by decide) 52).2 ⟨by decide, by decide⟩,
    (respectsBound_iff .empty (by decide) 7).2 ⟨by decide, by decide⟩⟩

/-- An empty packet takes 48 bytes, and 40 are accepted. -/
theorem not_respectsBound_forty :
    (ofBuffer 7 ⟨[], 0, []⟩).getSerializedSize .empty = 48 ∧
      ((ofBuffer 7 ⟨[], 0, []⟩).serialize .empty 40).1 = 1 ∧
        ((ofBuffer 7 ⟨[], 0, []⟩).serialize .empty 40).2[47]? = some (some 0) ∧
          ¬ (ofBuffer 7 ⟨[], 0, []⟩).RespectsBound .empty 40 := by
  have hreturned : ((ofBuffer 7 ⟨[], 0, []⟩).serialize .empty 40).1 = 1 := by decide
  refine ⟨by decide, hreturned, by decide, fun h => ?_⟩
  rw [RespectsBound, hreturned] at h
  exact absurd (h.2.2 (by decide)) (by decide)

end NetPacket

end SeanetSim
