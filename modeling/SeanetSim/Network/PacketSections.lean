import Mathlib.Algebra.Order.BigOperators.Group.List
import Mathlib.Algebra.Order.Group.Nat
import SeanetSim.Network.PacketSerialization

/-!
# The sections of a packet

Each section fits exactly into the space it says that it needs (`SectionWriter.Writes`).  What a
packet writes follows from the lengths of its sections alone.
-/

namespace SeanetSim

theorem toNat_ofNat_of_lt {n : ℕ} (h : n < 2 ^ 32) : (UInt32.ofNat n).toNat = n :=
  UInt32.toNat_ofNat_of_lt' h

/-- `n` bytes take so many with the gap that leads to the next word. -/
def roundUp (n : ℕ) : ℕ := (n + 3) / 4 * 4

theorem le_roundUp (n : ℕ) : n ≤ roundUp n := by
  unfold roundUp
  omega

theorem toNat_align4 {n : UInt32} (h : n.toNat + 3 < 2 ^ 32) :
    (align4 n).toNat = roundUp n.toNat := by
  have hadd : (n + 3).toNat = n.toNat + 3 := by
    rw [UInt32.toNat_add, show (3 : UInt32).toNat = 3 from rfl, Nat.mod_eq_of_lt h]
  have hmask : (~~~(3 : UInt32)).toNat = (2 ^ 30 - 1) <<< 2 := rfl
  have hround : roundUp n.toNat = ((n.toNat + 3) >>> 2) <<< 2 := by
    rw [Nat.shiftRight_eq_div_pow, Nat.shiftLeft_eq]
    rfl
  rw [align4, UInt32.toNat_and, hadd, hmask, hround]
  refine Nat.eq_of_testBit_eq fun i => ?_
  rw [Nat.testBit_and, Nat.testBit_shiftLeft, Nat.testBit_shiftLeft, Nat.testBit_two_pow_sub_one,
    Nat.testBit_shiftRight]
  by_cases hi : 2 ≤ i
  · rw [Nat.add_sub_cancel' hi]
    by_cases hbig : i < 32
    · simp [hi, show i - 2 < 30 by omega]
    · have hfalse : (n.toNat + 3).testBit i = false :=
        Nat.testBit_lt_two_pow (h.trans_le (Nat.pow_le_pow_right (by decide) (by omega)))
      simp [hfalse]
  · simp [hi]

namespace Piece

/-- The bytes of parts that stand one behind the other. -/
def bytes (ps : List Piece) : List (Option UInt8) := ps.flatMap (·.2)

/-- The part is as long as it is counted. -/
def Exact (p : Piece) : Prop := p.2.length = p.1.toNat

theorem exact_number {n v : ℕ} (hn : n < 2 ^ 32) : (number n v).Exact := by
  rw [Exact, number, List.length_map, length_bytesLE, toNat_ofNat_of_lt hn]

theorem exact_word (v : UInt32) : (word v).Exact := exact_number (by decide)

theorem exact_raw {data : List UInt8} (h : data.length < 2 ^ 32) : (raw data).Exact := by
  rw [Exact, raw, List.length_map, toNat_ofNat_of_lt h]

@[simp] theorem length_word (v : UInt32) : (word v).2.length = 4 := by
  rw [word, number, List.length_map, length_bytesLE]

variable {data : List UInt8}

theorem padded_eq (h : data.length + 3 < 2 ^ 32) : padded data =
    (align4 (UInt32.ofNat data.length),
      data.map some ++ List.replicate (roundUp data.length - data.length) none) := by
  have hn : (UInt32.ofNat data.length).toNat = data.length :=
    toNat_ofNat_of_lt (by omega)
  rw [padded, toNat_align4 (by rwa [hn]), hn]

theorem toNat_align4_length (h : data.length + 3 < 2 ^ 32) :
    (align4 (UInt32.ofNat data.length)).toNat = roundUp data.length := by
  have hn : (UInt32.ofNat data.length).toNat = data.length :=
    toNat_ofNat_of_lt (by omega)
  rw [toNat_align4 (by rwa [hn]), hn]

theorem length_padded (h : data.length + 3 < 2 ^ 32) :
    (padded data).2.length = roundUp data.length := by
  rw [padded_eq h, List.length_append, List.length_map, List.length_replicate,
    Nat.add_sub_cancel' (le_roundUp _)]

theorem exact_padded (h : data.length + 3 < 2 ^ 32) : (padded data).Exact := by
  rw [Exact, length_padded h, padded_eq h, toNat_align4_length h]

theorem extent_padded (h : data.length + 3 < 2 ^ 32) : extent (padded data).2 = data.length := by
  rw [padded_eq h, extent_append, extent_replicate_none, if_pos rfl, extent_map_some]

theorem bytes_cons (p : Piece) (ps : List Piece) : bytes (p :: ps) = p.2 ++ bytes ps :=
  List.flatMap_cons

theorem bytes_append (ps qs : List Piece) : bytes (ps ++ qs) = bytes ps ++ bytes qs :=
  List.flatMap_append

end Piece

namespace Section

variable {maxSize : UInt32} {s : Section}

theorem put_eq {p : Piece} (hp : p.Exact) (h : s.size.toNat + p.2.length ≤ maxSize.toNat) :
    s.put maxSize p = .ok ⟨s.out ++ p.2, s.size + UInt32.ofNat p.2.length⟩ := by
  have hlt := maxSize.toNat_lt
  have hsum : (s.size + p.1).toNat = s.size.toNat + p.1.toNat := by
    rw [UInt32.toNat_add, Nat.mod_eq_of_lt]
    rw [← hp]
    omega
  rw [put, if_pos (by rw [UInt32.le_iff_toNat_le, hsum, ← hp]; exact h), hp,
    UInt32.ofNat_toNat]

/-- In as much space as they need, all parts are written. -/
theorem putAll_eq {ps : List Piece} (hps : ∀ p ∈ ps, p.Exact)
    (h : s.size.toNat + (Piece.bytes ps).length ≤ maxSize.toNat) :
    s.putAll maxSize ps =
      .ok ⟨s.out ++ Piece.bytes ps, s.size + UInt32.ofNat (Piece.bytes ps).length⟩ := by
  induction ps generalizing s with
  | nil => simp [putAll, Piece.bytes, pure, Except.pure]
  | cons p ps ih =>
    rw [Piece.bytes_cons, List.length_append] at h ⊢
    have hlt := maxSize.toNat_lt
    have hn : (s.size + UInt32.ofNat p.2.length).toNat = s.size.toNat + p.2.length := by
      rw [UInt32.toNat_add, toNat_ofNat_of_lt (by omega), Nat.mod_eq_of_lt (by omega)]
    have hput : s.put maxSize p = _ := put_eq (hps p List.mem_cons_self) (by omega)
    rw [putAll, List.foldlM_cons, hput]
    change putAll maxSize _ ps = _
    rw [ih (fun q hq => hps q (List.mem_cons_of_mem _ hq)) (by rw [hn]; omega)]
    dsimp only
    rw [List.append_assoc, UInt32.add_assoc, ← UInt32.ofNat_add]

theorem setCount_eq {count : UInt32} {body : List (Option UInt8)} {size : UInt32} (n : ℕ) :
    setCount ⟨(Piece.word count).2 ++ body, size⟩ n =
      ⟨(Piece.word (UInt32.ofNat n)).2 ++ body, size⟩ := by
  have hcopy := memcpy_append [] (Piece.word count).2 body (Piece.word (UInt32.ofNat n)).2
    List.length_nil (by rw [Piece.length_word, Piece.length_word])
  exact congrArg (Section.mk · size) hcopy

/-- The tags from the `k`-th on, when those before are written. -/
theorem foldlM_tags {tags : List (List Piece)} (htags : ∀ t ∈ tags, ∀ p ∈ t, p.Exact) (k : ℕ)
    (body : List (Option UInt8)) (size : UInt32)
    (h : size.toNat + (tags.flatMap Piece.bytes).length ≤ maxSize.toNat) :
    (tags.zipIdx k).foldlM (fun s t => do
      let s ← s.putAll maxSize t.1
      .ok (s.setCount (t.2 + 1))) ⟨(Piece.word (UInt32.ofNat k)).2 ++ body, size⟩ =
    (.ok ⟨(Piece.word (UInt32.ofNat (k + tags.length))).2 ++ (body ++ tags.flatMap Piece.bytes),
      size + UInt32.ofNat (tags.flatMap Piece.bytes).length⟩ : Serialized) := by
  induction tags generalizing k body size with
  | nil => simp [pure, Except.pure]
  | cons t tags ih =>
    rw [List.flatMap_cons, List.length_append] at h ⊢
    have hlt := maxSize.toNat_lt
    have hn : (size + UInt32.ofNat (Piece.bytes t).length).toNat =
        size.toNat + (Piece.bytes t).length := by
      rw [UInt32.toNat_add, toNat_ofNat_of_lt (by omega), Nat.mod_eq_of_lt (by omega)]
    have hput : putAll maxSize ⟨(Piece.word (UInt32.ofNat k)).2 ++ body, size⟩ t = _ :=
      putAll_eq (htags t List.mem_cons_self) (by dsimp only; omega)
    rw [List.zipIdx_cons, List.foldlM_cons, hput]
    dsimp only [bind, Except.bind]
    rw [List.append_assoc, setCount_eq]
    apply (ih (fun q hq => htags q (List.mem_cons_of_mem _ hq)) _ _ _ (by rw [hn]; omega)).trans
    rw [List.append_assoc, UInt32.add_assoc, ← UInt32.ofNat_add, List.length_cons,
      Nat.add_right_comm, Nat.add_assoc]

/-- In as much space as they need, all tags are written and counted. -/
theorem putTags_eq {tags : List (List Piece)} (htags : ∀ t ∈ tags, ∀ p ∈ t, p.Exact)
    (h : 4 + (tags.flatMap Piece.bytes).length ≤ maxSize.toNat) :
    putTags maxSize tags =
      .ok ⟨(Piece.word (UInt32.ofNat tags.length)).2 ++ tags.flatMap Piece.bytes,
        UInt32.ofNat (4 + (tags.flatMap Piece.bytes).length)⟩ := by
  have hput : start.put maxSize (Piece.word 0) = _ := put_eq (Piece.exact_word 0)
    (by rw [Piece.length_word]; exact (Nat.le_add_right ..).trans h)
  rw [putTags, hput]
  dsimp only [bind, Except.bind, start]
  have hfold := foldlM_tags htags 0 [] 4 h
  rw [Nat.zero_add, List.append_nil, List.nil_append] at hfold
  exact hfold.trans (by rw [UInt32.ofNat_add]; rfl)

end Section

/-! ## What the sections write -/

/-- The serializer writes `body`, as long as it says. -/
structure SectionWriter.Writes (w : SectionWriter) (body : List (Option UInt8)) : Prop where
  size : w.size = UInt32.ofNat body.length
  length_lt : body.length < 2 ^ 32
  serialize : w.serialize w.size = .ok ⟨body, w.size⟩

namespace SectionWriter

variable {n : UInt32}

theorem Writes.toNat_size {w : SectionWriter} {body : List (Option UInt8)} (h : w.Writes body) :
    w.size.toNat = body.length := by
  rw [h.size, toNat_ofNat_of_lt h.length_lt]

theorem map_size {ws : List SectionWriter} {bodies : List (List (Option UInt8))}
    (h : List.Forall₂ Writes ws bodies) :
    ws.map (·.size.toNat) = bodies.map List.length := by
  induction h with
  | nil => rfl
  | cons hw _ ih => rw [List.map_cons, List.map_cons, ih, hw.toNat_size]

theorem writes_pieces {ps : List Piece} (hps : ∀ p ∈ ps, p.Exact)
    (hlt : (Piece.bytes ps).length < 2 ^ 32) (hn : n = UInt32.ofNat (Piece.bytes ps).length) :
    Writes ⟨n, fun maxSize => Section.start.putAll maxSize ps⟩ (Piece.bytes ps) where
  size := hn
  length_lt := hlt
  serialize := by
    subst hn
    have hput : Section.start.putAll (UInt32.ofNat (Piece.bytes ps).length) ps = _ :=
      Section.putAll_eq hps (by rw [toNat_ofNat_of_lt hlt]; exact Nat.le_of_eq (Nat.zero_add _))
    exact hput.trans (by simp [Section.start])

/-- The section of a list of tags. -/
def tagsBody (tags : List (List Piece)) : List (Option UInt8) :=
  (Piece.word (UInt32.ofNat tags.length)).2 ++ tags.flatMap Piece.bytes

theorem length_tagsBody (tags : List (List Piece)) :
    (tagsBody tags).length = 4 + (tags.flatMap Piece.bytes).length := by
  rw [tagsBody, List.length_append, Piece.length_word]

theorem writes_tags {tags : List (List Piece)} (htags : ∀ t ∈ tags, ∀ p ∈ t, p.Exact)
    (hlt : (tagsBody tags).length < 2 ^ 32) (hn : n = UInt32.ofNat (tagsBody tags).length) :
    Writes ⟨n, fun maxSize => Section.putTags maxSize tags⟩ (tagsBody tags) where
  size := hn
  length_lt := hlt
  serialize := by
    subst hn
    have hput : Section.putTags (UInt32.ofNat (tagsBody tags).length) tags = _ :=
      Section.putTags_eq htags (by rw [toNat_ofNat_of_lt hlt, length_tagsBody])
    exact hput.trans (by rw [length_tagsBody]; rfl)

end SectionWriter

/-- A section with its length in front, filled up to a word. -/
def framed (body : List (Option UInt8)) : List (Option UInt8) :=
  (Piece.word (UInt32.ofNat (body.length + 4))).2 ++ body ++
    List.replicate (roundUp body.length - body.length) none

theorem length_framed (body : List (Option UInt8)) :
    (framed body).length = 4 + roundUp body.length := by
  rw [framed, List.length_append, List.length_append, Piece.length_word, List.length_replicate,
    Nat.add_assoc, Nat.add_sub_cancel' (le_roundUp _)]

namespace Section

variable {maxSize : UInt32} {s : Section}

theorem place_eq {w : SectionWriter} {body : List (Option UInt8)} (hw : w.Writes body)
    (hbody : body.length + 3 < 2 ^ 32) (hs : s.size.toNat + body.length < 2 ^ 32) :
    s.place maxSize w =
      if s.size.toNat + body.length ≤ maxSize.toNat then
        .ok ⟨s.out ++ framed body, s.size + w.size⟩
      else .error s.out := by
  have hsum : (s.size + w.size).toNat = s.size.toNat + body.length := by
    rw [UInt32.toNat_add, hw.toNat_size, Nat.mod_eq_of_lt hs]
  have hword : w.size + 4 = UInt32.ofNat (body.length + 4) := by
    rw [hw.size, UInt32.ofNat_add]
    rfl
  have hgap : (align4 w.size).toNat = roundUp body.length := by
    rw [toNat_align4 (by rwa [hw.toNat_size]), hw.toNat_size]
  simp only [place, UInt32.le_iff_toNat_le, hsum, hw.serialize, hword, hgap, framed,
    List.append_assoc]

/-- In as much space as they count, all sections are placed. -/
theorem foldlM_place_eq (maxSize : UInt32) {ws : List SectionWriter}
    {bodies : List (List (Option UInt8))} (h : List.Forall₂ SectionWriter.Writes ws bodies)
    {s : Section}
    (hle : s.size.toNat + (bodies.map List.length).sum ≤ maxSize.toNat)
    (hs : s.size.toNat + (bodies.map fun b => b.length + 3).sum < 2 ^ 32) :
    ∃ size, ws.foldlM (place maxSize) s = .ok ⟨s.out ++ bodies.flatMap framed, size⟩ := by
  induction h generalizing s with
  | nil => exact ⟨s.size, by rw [List.flatMap_nil, List.append_nil]; rfl⟩
  | @cons w body ws bodies hw _ ih =>
    rw [List.map_cons, List.sum_cons] at hs hle
    have hsize : (s.size + w.size).toNat = s.size.toNat + body.length := by
      rw [UInt32.toNat_add, hw.toNat_size, Nat.mod_eq_of_lt (by omega)]
    obtain ⟨size, hrest⟩ := ih (s := ⟨s.out ++ framed body, s.size + w.size⟩)
      (by dsimp only; omega) (by dsimp only; omega)
    refine ⟨size, ?_⟩
    rw [List.foldlM_cons, place_eq hw (by omega) (by omega), if_pos (by omega), List.flatMap_cons,
      ← List.append_assoc]
    exact hrest

end Section

/-- A sum of sizes, one after the other. -/
theorem foldl_ofNat {α : Type*} {f : UInt32 → α → UInt32} {g : α → ℕ} {l : List α}
    (hf : ∀ a ∈ l, ∀ n, f n a = n + UInt32.ofNat (g a)) (k : ℕ) :
    l.foldl f (UInt32.ofNat k) = UInt32.ofNat (k + (l.map g).sum) := by
  induction l generalizing k with
  | nil => rfl
  | cons a l ih =>
    rw [List.foldl_cons, hf a List.mem_cons_self, ← UInt32.ofNat_add,
      ih fun b hb => hf b (List.mem_cons_of_mem _ hb), List.map_cons, List.sum_cons,
      Nat.add_assoc]

/-! ### Records

Each has a part of `k` bytes and one of any length. -/

section Records

variable {α : Type*} {g : α → ℕ} {l : List α} {k : ℕ}

theorem le_sum_records {a : α} (ha : a ∈ l) : k + g a ≤ (l.map fun a => k + g a).sum :=
  List.single_le_sum (fun _ _ => Nat.zero_le _) _ (List.mem_map_of_mem ha)

end Records

theorem align4_ofNat {n : ℕ} (h : n + 3 < 2 ^ 32) :
    align4 (UInt32.ofNat n) = UInt32.ofNat (roundUp n) := by
  have hn := toNat_ofNat_of_lt (n := n) (by omega)
  rw [← UInt32.ofNat_toNat (x := align4 _), toNat_align4 (by rwa [hn]), hn]

/-! ### The nix-vector -/

namespace NixVector

variable (nv : NixVector)

def writer : SectionWriter := ⟨nv.getSerializedSize, nv.serialize⟩

theorem length_words (l : List UInt32) : (Piece.bytes (l.map .word)).length = 4 * l.length := by
  induction l with
  | nil => rfl
  | cons w l ih =>
    rw [List.map_cons, Piece.bytes_cons, List.length_append, ih, Piece.length_word,
      List.length_cons]
    omega

theorem length_bytes_pieces : (Piece.bytes nv.pieces).length = 12 + 4 * nv.words.length := by
  rw [pieces, Piece.bytes_append, List.length_append, length_words]
  rfl

theorem exists_word_of_mem_pieces : ∀ p ∈ nv.pieces, ∃ w, p = Piece.word w := by
  simp [pieces]

theorem exact_pieces : ∀ p ∈ nv.pieces, p.Exact := by
  intro p hp
  obtain ⟨w, rfl⟩ := nv.exists_word_of_mem_pieces p hp
  exact Piece.exact_word w

theorem writes (h : 12 + 4 * nv.words.length < 2 ^ 32) :
    nv.writer.Writes (Piece.bytes nv.pieces) := by
  apply SectionWriter.writes_pieces nv.exact_pieces (by rwa [length_bytes_pieces])
  rw [length_bytes_pieces, UInt32.ofNat_add]
  rfl

end NixVector

/-! ### Tags -/

namespace ByteTag

variable (reg : TypeIdRegistry) {t : ByteTag}

theorem exact_pieces (h : t.data.length + 3 < 2 ^ 32) : ∀ p ∈ t.pieces reg, p.Exact := by
  simp [pieces, Piece.exact_word, Piece.exact_padded h]

theorem length_bytes_pieces (h : t.data.length + 3 < 2 ^ 32) :
    (Piece.bytes (t.pieces reg)).length = 16 + roundUp t.data.length := by
  simp only [pieces, Piece.bytes, List.flatMap_cons, List.flatMap_nil, List.length_append,
    Piece.length_word, Piece.length_padded h, List.length_nil]
  omega

end ByteTag

namespace ByteTags

variable (reg : TypeIdRegistry) {l : ByteTags}

def writer (l : ByteTags) : SectionWriter := ⟨l.getSerializedSize, l.serialize reg⟩

def body (l : ByteTags) : List (Option UInt8) :=
  SectionWriter.tagsBody (l.beginAll.map (·.pieces reg))

def length (l : ByteTags) : ℕ := 4 + (l.beginAll.map fun t => 16 + roundUp t.data.length).sum

theorem data_lt (h : l.length + 3 < 2 ^ 32) {t : ByteTag} (ht : t ∈ l.beginAll) :
    t.data.length + 3 < 2 ^ 32 := by
  have hle := le_sum_records (k := 16) (g := fun t : ByteTag => roundUp t.data.length) ht
  have := le_roundUp t.data.length
  unfold length at h
  omega

theorem length_body (h : l.length + 3 < 2 ^ 32) : (l.body reg).length = l.length := by
  rw [body, SectionWriter.length_tagsBody, List.flatMap_map, List.length_flatMap, length,
    List.map_congr_left fun t ht => ByteTag.length_bytes_pieces reg (data_lt h ht)]

theorem writes (h : l.length + 3 < 2 ^ 32) : (l.writer reg).Writes (l.body reg) := by
  have hlength := length_body reg h
  refine SectionWriter.writes_tags ?_ (by rw [← body, hlength]; omega) ?_
  · intro ps hps
    obtain ⟨t, ht, rfl⟩ := List.mem_map.1 hps
    exact ByteTag.exact_pieces reg (data_lt h ht)
  · rw [← body, hlength]
    refine foldl_ofNat (k := 4) fun t ht n => ?_
    rw [ByteTag.size, align4_ofNat (data_lt h ht), UInt32.ofNat_add, ← UInt32.add_assoc,
      UInt32.add_assoc n]
    rfl

end ByteTags

namespace PacketTag

variable (reg : TypeIdRegistry) {t : PacketTag} {tags : List PacketTag}

theorem exact_pieces (h : t.data.length + 3 < 2 ^ 32) : ∀ p ∈ t.pieces reg, p.Exact := by
  simp [pieces, Piece.exact_word, Piece.exact_padded h]

theorem length_bytes_pieces (h : t.data.length + 3 < 2 ^ 32) :
    (Piece.bytes (t.pieces reg)).length = 8 + roundUp t.data.length := by
  simp only [pieces, Piece.bytes, List.flatMap_cons, List.flatMap_nil, List.length_append,
    Piece.length_word, Piece.length_padded h, List.length_nil]
  omega

def writer (tags : List PacketTag) : SectionWriter := ⟨getSerializedSize tags, serialize reg tags⟩

def body (tags : List PacketTag) : List (Option UInt8) :=
  SectionWriter.tagsBody (tags.map (·.pieces reg))

def length (tags : List PacketTag) : ℕ := 4 + (tags.map fun t => 8 + roundUp t.data.length).sum

theorem data_lt (h : length tags + 3 < 2 ^ 32) (ht : t ∈ tags) :
    t.data.length + 3 < 2 ^ 32 := by
  have hle := le_sum_records (k := 8) (g := fun t : PacketTag => roundUp t.data.length) ht
  have := le_roundUp t.data.length
  unfold length at h
  omega

theorem length_body (h : length tags + 3 < 2 ^ 32) : (body reg tags).length = length tags := by
  rw [body, SectionWriter.length_tagsBody, List.flatMap_map, List.length_flatMap, length,
    List.map_congr_left fun t ht => length_bytes_pieces reg (data_lt h ht)]

theorem writes (h : length tags + 3 < 2 ^ 32) : (writer reg tags).Writes (body reg tags) := by
  have hlength := length_body reg h
  refine SectionWriter.writes_tags ?_ (by rw [← body, hlength]; omega) ?_
  · intro ps hps
    obtain ⟨t, ht, rfl⟩ := List.mem_map.1 hps
    exact exact_pieces reg (data_lt h ht)
  · rw [← body, hlength]
    refine foldl_ofNat (k := 4) fun t ht n => ?_
    rw [size, align4_ofNat (data_lt h ht), UInt32.ofNat_add, ← UInt32.add_assoc, UInt32.add_assoc n]
    rfl

end PacketTag

/-! ### Metadata and buffer -/

namespace MetadataItem

variable (reg : TypeIdRegistry) {item : MetadataItem}

theorem exact_pieces (h : (item.name reg).length < 2 ^ 32) : ∀ p ∈ item.pieces reg, p.Exact := by
  refine List.forall_mem_append.2 ⟨?_, ?_⟩
  · unfold name at h
    split_ifs at h ⊢
    · simp [Piece.exact_word]
    · simp [Piece.exact_word, Piece.exact_raw h]
  · simp [Piece.exact_word, Piece.exact_number]

theorem length_bytes_pieces (item : MetadataItem) :
    (Piece.bytes (item.pieces reg)).length = 27 + (item.name reg).length := by
  rw [pieces, Piece.bytes_append, List.length_append, name]
  split_ifs
  · rfl
  · simp only [Piece.bytes, List.flatMap_cons, List.flatMap_nil, List.length_append,
      Piece.length_word, Piece.raw, Piece.number, List.length_map, length_bytesLE,
      List.length_nil]
    omega

end MetadataItem

namespace PacketMetadata

variable (reg : TypeIdRegistry) {m : PacketMetadata}

def writer (m : PacketMetadata) : SectionWriter := ⟨m.getSerializedSize reg, m.serialize reg⟩

def length (m : PacketMetadata) : ℕ := 8 + (m.items.map fun i => 27 + (i.name reg).length).sum

theorem length_bytes_pieces (m : PacketMetadata) :
    (Piece.bytes (m.pieces reg)).length = m.length reg := by
  have hitems : (fun i : MetadataItem => ((i.pieces reg).flatMap (·.2)).length) =
      fun i => 27 + (i.name reg).length :=
    funext fun i => MetadataItem.length_bytes_pieces reg i
  rw [pieces, Piece.bytes_cons, List.length_append, Piece.bytes, List.flatMap_assoc,
    List.length_flatMap, hitems]
  rfl

theorem name_lt (h : m.length reg < 2 ^ 32) {item : MetadataItem} (hi : item ∈ m.items) :
    (item.name reg).length < 2 ^ 32 := by
  have hle := le_sum_records (k := 27) (g := fun i : MetadataItem => (i.name reg).length) hi
  unfold length at h
  omega

theorem writes (h : m.length reg < 2 ^ 32) :
    (m.writer reg).Writes (Piece.bytes (m.pieces reg)) := by
  refine SectionWriter.writes_pieces ?_ (by rwa [length_bytes_pieces]) ?_
  · intro p hp
    rcases List.mem_cons.1 hp with rfl | hp
    · exact Piece.exact_number (by decide)
    · obtain ⟨item, hi, hp⟩ := List.mem_flatMap.1 hp
      exact MetadataItem.exact_pieces reg (name_lt reg h hi) p hp
  · rw [length_bytes_pieces, getSerializedSize, length]
    split_ifs with henable
    · refine foldl_ofNat (k := 8) fun item _ n => ?_
      rw [MetadataItem.name]
      split_ifs
      · exact UInt32.add_assoc ..
      · rw [Nat.add_comm 27, UInt32.ofNat_add, UInt32.add_comm 4, UInt32.add_assoc,
          UInt32.add_assoc _ 4]
        rfl
    · have hitems : m.items = [] := Classical.not_not.1 fun hne => henable (m.enable_of_items hne)
      rw [hitems]
      rfl

end PacketMetadata

namespace BufferAreas

variable {b : BufferAreas}

def writer (b : BufferAreas) : SectionWriter := ⟨b.getSerializedSize, b.serialize⟩

def length (b : BufferAreas) : ℕ := 12 + roundUp b.dataStart.length + roundUp b.dataEnd.length

theorem data_lt (h : b.length + 3 < 2 ^ 32) :
    b.dataStart.length + 3 < 2 ^ 32 ∧ b.dataEnd.length + 3 < 2 ^ 32 := by
  have hstart := le_roundUp b.dataStart.length
  have hend := le_roundUp b.dataEnd.length
  unfold length at h
  omega

theorem length_bytes_pieces (h : b.length + 3 < 2 ^ 32) :
    (Piece.bytes b.pieces).length = b.length := by
  obtain ⟨hstart, hend⟩ := data_lt h
  simp only [pieces, Piece.bytes, List.flatMap_cons, List.flatMap_nil, List.length_append,
    Piece.length_word, Piece.length_padded hstart, Piece.length_padded hend, List.length_nil,
    length]
  omega

theorem writes (h : b.length + 3 < 2 ^ 32) : b.writer.Writes (Piece.bytes b.pieces) := by
  obtain ⟨hstart, hend⟩ := data_lt h
  have hlength := length_bytes_pieces h
  refine SectionWriter.writes_pieces ?_ (by rw [hlength]; omega) ?_
  · simp [pieces, Piece.exact_word, Piece.exact_padded hstart, Piece.exact_padded hend]
  · rw [hlength, getSerializedSize, align4_ofNat hstart, align4_ofNat hend, length,
      UInt32.ofNat_add, UInt32.ofNat_add, UInt32.add_assoc (4 + 4) _ 4,
      UInt32.add_comm (UInt32.ofNat (roundUp b.dataStart.length)) 4, ← UInt32.add_assoc (4 + 4)]
    rfl

end BufferAreas

/-! ### The packet -/

namespace NetPacket

variable (reg : TypeIdRegistry) {p : NetPacket}

def nixLength (p : NetPacket) : ℕ :=
  match p.nixVector with
  | some nv => 12 + 4 * nv.words.length
  | none => 0

/-- The lengths of the sections behind the nix-vector. -/
def lengths (p : NetPacket) : List ℕ :=
  [p.byteTagList.length, PacketTag.length p.packetTagList, p.metadata.length reg, p.buffer.length]

def bodies (p : NetPacket) : List (List (Option UInt8)) :=
  [p.byteTagList.body reg, PacketTag.body reg p.packetTagList,
    Piece.bytes (p.metadata.pieces reg), Piece.bytes p.buffer.pieces]

/-- The sections, each with its length in front. -/
def serializedLength (p : NetPacket) : ℕ :=
  4 + roundUp p.nixLength + ((p.lengths reg).map fun n => 4 + roundUp n).sum

/-- The length of the packet is not more than `GetSerializedSize` can count. -/
def Fits (p : NetPacket) : Prop := p.serializedLength reg < 2 ^ 32

instance (p : NetPacket) : Decidable (p.Fits reg) :=
  inferInstanceAs (Decidable (p.serializedLength reg < 2 ^ 32))

theorem Fits.bounds (h : p.Fits reg) : p.nixLength + 3 < 2 ^ 32 ∧
    p.byteTagList.length + 3 < 2 ^ 32 ∧ PacketTag.length p.packetTagList + 3 < 2 ^ 32 ∧
      p.metadata.length reg + 3 < 2 ^ 32 ∧ p.buffer.length + 3 < 2 ^ 32 := by
  simp only [Fits, serializedLength, lengths, List.map_cons, List.map_nil, List.sum_cons,
    List.sum_nil] at h
  have hnix := le_roundUp p.nixLength
  have hbyte := le_roundUp p.byteTagList.length
  have hpacket := le_roundUp (PacketTag.length p.packetTagList)
  have hmeta := le_roundUp (p.metadata.length reg)
  have hbuffer := le_roundUp p.buffer.length
  omega

theorem length_bodies (h : p.Fits reg) : (p.bodies reg).map List.length = p.lengths reg := by
  obtain ⟨-, hbyte, hpacket, -, hbuffer⟩ := h.bounds
  simp only [bodies, lengths, List.map_cons, List.map_nil, ByteTags.length_body reg hbyte,
    PacketTag.length_body reg hpacket, PacketMetadata.length_bytes_pieces,
    BufferAreas.length_bytes_pieces hbuffer]

theorem writes_sections (h : p.Fits reg) :
    List.Forall₂ SectionWriter.Writes (p.sections reg) (p.bodies reg) := by
  obtain ⟨-, hbyte, hpacket, hmeta, hbuffer⟩ := h.bounds
  exact .cons (ByteTags.writes reg hbyte) <| .cons (PacketTag.writes reg hpacket) <|
    .cons (PacketMetadata.writes reg (by omega)) <| .cons (BufferAreas.writes hbuffer) .nil

theorem writes_nixVector (h : p.Fits reg) {nv : NixVector} (hnv : p.nixVector = some nv) :
    nv.writer.Writes (Piece.bytes nv.pieces) := by
  apply nv.writes
  have := h.bounds.1
  rw [nixLength, hnv] at this
  dsimp only at this
  omega

theorem map_size (h : p.Fits reg) : (p.sections reg).map (·.size.toNat) = p.lengths reg := by
  rw [← length_bodies reg h]
  exact SectionWriter.map_size (writes_sections reg h)

theorem toNat_getSerializedSize (h : p.Fits reg) :
    (p.getSerializedSize reg).toNat = p.serializedLength reg := by
  have hsizes := map_size reg h
  have hnix : p.nixSize = UInt32.ofNat (4 + roundUp p.nixLength) := by
    have hlt := h.bounds.1
    unfold nixLength at hlt ⊢
    unfold nixSize
    cases hnv : p.nixVector with
    | some nv =>
      rw [hnv] at hlt
      have hsize := (writes_nixVector reg h hnv).size
      rw [NixVector.length_bytes_pieces] at hsize
      dsimp only [NixVector.writer] at hsize hlt ⊢
      rw [hsize, align4_ofNat hlt, Nat.add_comm 4, UInt32.ofNat_add]
      rfl
    | none => rfl
  have hsum : (p.sections reg).map (fun w => 4 + roundUp w.size.toNat) =
      (p.lengths reg).map fun n => 4 + roundUp n := by
    rw [← hsizes, List.map_map]
    rfl
  have hsections : ∀ w ∈ p.sections reg, ∀ n : UInt32,
      n + align4 w.size + 4 = n + UInt32.ofNat (4 + roundUp w.size.toNat) := by
    intro w hw n
    have hlt : w.size.toNat + 3 < 2 ^ 32 := by
      have hle := List.single_le_sum (fun _ _ => Nat.zero_le _) _
        (List.mem_map_of_mem (f := fun w : SectionWriter => 4 + roundUp w.size.toNat) hw)
      rw [hsum] at hle
      have hround := le_roundUp w.size.toNat
      have hfits := h
      unfold Fits serializedLength at hfits
      omega
    rw [← toNat_align4 hlt, Nat.add_comm 4, UInt32.ofNat_add, UInt32.ofNat_toNat,
      UInt32.add_assoc]
    rfl
  rw [getSerializedSize, hnix, foldl_ofNat hsections, hsum]
  exact toNat_ofNat_of_lt h

theorem sum_bodies (h : p.Fits reg) :
    p.nixLength + ((p.bodies reg).map fun b => b.length + 3).sum + 7 < 2 ^ 32 := by
  have hmap : ((p.bodies reg).map fun b => b.length + 3) = (p.lengths reg).map (· + 3) := by
    rw [← length_bodies reg h, List.map_map]
    rfl
  have hnix := le_roundUp p.nixLength
  have hbyte := le_roundUp p.byteTagList.length
  have hpacket := le_roundUp (PacketTag.length p.packetTagList)
  have hmeta := le_roundUp (p.metadata.length reg)
  have hbuffer := le_roundUp p.buffer.length
  simp only [Fits, serializedLength, lengths, List.map_cons, List.map_nil, List.sum_cons,
    List.sum_nil] at h
  simp only [hmap, lengths, List.map_cons, List.map_nil, List.sum_cons, List.sum_nil]
  omega

end NetPacket

end SeanetSim
