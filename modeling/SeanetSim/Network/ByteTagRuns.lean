import SeanetSim.Lib.Run
import SeanetSim.Network.ByteTagMarks

/-!
# Programs with byte tags

Any number of packets are created, copied, cut, put together and tagged in any order.  The byte tag
iterator reports what marks on the bytes would say, each packet for itself (`MarkedStep`), as long
as no operation overflows an offset, puts a tag on no bytes or leaves an empty packet inside a
range.
-/

namespace SeanetSim

inductive PacketOp
  | create (size : UInt32)
  | copy (o : ℕ)
  | createFragment (o : ℕ) (start length : UInt32)
  | addHeader (i : ℕ) (size : UInt32)
  | removeHeader (i : ℕ) (deserialized : UInt32)
  | addTrailer (i : ℕ) (size : UInt32)
  | removeTrailer (i : ℕ) (deserialized : UInt32)
  | addPaddingAtEnd (i : ℕ) (size : UInt32)
  | removeAtStart (i : ℕ) (size : UInt32)
  | removeAtEnd (i : ℕ) (size : UInt32)
  | addAtEnd (i o : ℕ)
  | addByteTag (i : ℕ) (tid : UInt16) (data : List UInt8)
  | addByteTagRange (i : ℕ) (tid : UInt16) (data : List UInt8) (start end_ : UInt32)
  | destroy (i : ℕ)

namespace PacketOp

/-- The packet `i` has been created and not destroyed. -/
def Live (l : List (Option TaggedPacket)) (i : ℕ) : Prop := ∃ p, l[i]? = some (some p)

instance (l : List (Option TaggedPacket)) (i : ℕ) : Decidable (Live l i) :=
  match h : l[i]? with
  | some (some p) => .isTrue ⟨p, h⟩
  | some none => .isFalse fun ⟨p, hp⟩ => by simp [h] at hp
  | none => .isFalse fun ⟨p, hp⟩ => by simp [h] at hp

/-- The operation is about packets that are there, and asserts nothing that is false. -/
def Valid (l : List (Option TaggedPacket)) : PacketOp → Prop
  | create _ => True
  | copy o => Live l o
  | createFragment o start length => ∃ p, l[o]? = some (some p) ∧ start + length ≤ p.size
  | addHeader i _ | removeHeader i _ | addTrailer i _ | removeTrailer i _ => Live l i
  | addPaddingAtEnd i _ | removeAtStart i _ | removeAtEnd i _ => Live l i
  | addAtEnd i o => Live l i ∧ Live l o
  | addByteTag i _ _ => Live l i
  | addByteTagRange i _ _ start end_ => Live l i ∧ ¬ end_ < start
  | destroy i => Live l i

instance (l : List (Option TaggedPacket)) : (op : PacketOp) → Decidable (op.Valid l)
  | create _ => .isTrue trivial
  | copy o => inferInstanceAs (Decidable (Live l o))
  | createFragment o start length =>
    match h : l[o]? with
    | some (some p) =>
      if hle : start + length ≤ p.size then .isTrue ⟨p, h, hle⟩
      else .isFalse fun ⟨q, hq, hle'⟩ => by
        cases h.symm.trans hq
        exact hle hle'
    | some none => .isFalse fun ⟨p, hp, _⟩ => by simp [h] at hp
    | none => .isFalse fun ⟨p, hp, _⟩ => by simp [h] at hp
  | addHeader i _ | removeHeader i _ | addTrailer i _ | removeTrailer i _ =>
    inferInstanceAs (Decidable (Live l i))
  | addPaddingAtEnd i _ | removeAtStart i _ | removeAtEnd i _ =>
    inferInstanceAs (Decidable (Live l i))
  | addAtEnd i o => inferInstanceAs (Decidable (Live l i ∧ Live l o))
  | addByteTag i _ _ => inferInstanceAs (Decidable (Live l i))
  | addByteTagRange i _ _ start end_ => inferInstanceAs (Decidable (Live l i ∧ ¬ end_ < start))
  | destroy i => inferInstanceAs (Decidable (Live l i))

def exec (m : TaggedPackets) : PacketOp → Option TaggedPackets
  | create size => some (m.create size)
  | copy o => m.derive o TaggedPackets.copy
  | createFragment o start length => m.derive o fun h p => p.createFragment h start length
  | addHeader i size => m.change i fun h p => p.addHeader h size
  | removeHeader i deserialized => m.change i fun h p => some (h, p.removeHeader deserialized)
  | addTrailer i size => m.change i fun h p => p.addTrailer h size
  | removeTrailer i deserialized => m.change i fun h p => some (h, p.removeTrailer deserialized)
  | addPaddingAtEnd i size => m.change i fun h p => p.addPaddingAtEnd h size
  | removeAtStart i size => m.change i fun h p => some (h, p.removeAtStart size)
  | removeAtEnd i size => m.change i fun h p => some (h, p.removeAtEnd size)
  | addAtEnd i o => m.addAtEnd i o
  | addByteTag i tid data => m.change i fun h p => p.addByteTag h tid data
  | addByteTagRange i tid data start end_ =>
    m.change i fun h p => p.addByteTagRange h tid data start end_
  | destroy i => m.destroy i

/-- What the operation does to the marks on bytes, on each packet for itself. -/
def MarkedStep (l : List (Option MarkedPacket)) (op : PacketOp) (l' : List (Option MarkedPacket)) :
    Prop :=
  match op with
  | create size => l' = l ++ [some ⟨size.toNat, []⟩]
  | copy o => ∃ p, l[o]? = some (some p) ∧ l' = l ++ [some p]
  | createFragment o start length => ∃ p, l[o]? = some (some p) ∧
    l' = l ++ [some (p.createFragment start.toNat length.toNat)]
  | addHeader i size => ∃ p, l[i]? = some (some p) ∧ l' = l.set i (some (p.addAtStart size.toNat))
  | addTrailer i size | addPaddingAtEnd i size => ∃ p, l[i]? = some (some p) ∧
    l' = l.set i (some (p.addAtEnd size.toNat))
  | removeHeader i size | removeAtStart i size => ∃ p, l[i]? = some (some p) ∧
    l' = l.set i (some (p.removeAtStart size.toNat))
  | removeTrailer i size | removeAtEnd i size => ∃ p, l[i]? = some (some p) ∧
    l' = l.set i (some (p.removeAtEnd size.toNat))
  | addAtEnd i o => ∃ p q, l[i]? = some (some p) ∧ l[o]? = some (some q) ∧
    l' = l.set i (some (p.append q))
  | addByteTag i tid data => ∃ p, l[i]? = some (some p) ∧
    l' = l.set i (some (p.mark tid data 0 p.size))
  | addByteTagRange i tid data start end_ => ∃ p, l[i]? = some (some p) ∧
    l' = l.set i (some (p.mark tid data start.toNat end_.toNat))
  | destroy i => l' = l.set i none

end PacketOp

namespace TaggedPackets

/-- What the byte tag iterator of a packet reports, as marks on its bytes. -/
def report (h : ByteTagHeap) (p : TaggedPacket) : Option MarkedPacket :=
  (p.getByteTagIterator h).map fun items =>
    ⟨p.size.toNat, items.map fun t => t.range.mark p.size.toNat⟩

def reports (m : TaggedPackets) : List (Option MarkedPacket) :=
  m.packets.map fun o => o.bind (report m.heap)

/-- The packet `i` with the tags of its list. -/
def tags (m : TaggedPackets) (i : ℕ) : Option PacketTags := m.values[i]?.join

/-- The operation overflows no offset, puts no tag on no bytes, and leaves no empty packet inside a
range. -/
def Keeps (m : TaggedPackets) : PacketOp → Prop
  | .create size => size.toNat < 2 ^ 31
  | .createFragment o start length => start.toNat + length.toNat < 2 ^ 32 ∧
    ∀ p ∈ m.tags o, p.HasFragment start length
  | .addHeader i size => ∀ p ∈ m.tags i, p.RoomAtStart size
  | .addTrailer i size | .addPaddingAtEnd i size => ∀ p ∈ m.tags i, p.RoomAtEnd size
  | .removeHeader i size | .removeAtStart i size => ∀ p ∈ m.tags i, p.LeavesAtStart size
  | .removeTrailer i size | .removeAtEnd i size => ∀ p ∈ m.tags i, p.LeavesAtEnd size
  | .addAtEnd i o => ∀ p ∈ m.tags i, ∀ q ∈ m.tags o, p.Appendable q ∧
    spaceOf p.tags.tags + spaceOf q.tags.tags < 2 ^ 32
  | .addByteTag i _ data => ∀ p ∈ m.tags i, p.Taggable 0 p.size ∧
    spaceOf p.tags.tags + 16 + data.length < 2 ^ 32
  | .addByteTagRange i _ data start end_ => ∀ p ∈ m.tags i, p.Taggable start end_ ∧
    spaceOf p.tags.tags + 16 + data.length < 2 ^ 32
  | .copy _ | .destroy _ => True

instance (m : TaggedPackets) : (op : PacketOp) → Decidable (Keeps m op)
  | .create size => inferInstanceAs (Decidable (size.toNat < 2 ^ 31))
  | .createFragment o start length =>
    inferInstanceAs (Decidable (_ ∧ ∀ p ∈ m.tags o, p.HasFragment start length))
  | .addHeader i size => inferInstanceAs (Decidable (∀ p ∈ m.tags i, p.RoomAtStart size))
  | .addTrailer i size | .addPaddingAtEnd i size =>
    inferInstanceAs (Decidable (∀ p ∈ m.tags i, p.RoomAtEnd size))
  | .removeHeader i size | .removeAtStart i size =>
    inferInstanceAs (Decidable (∀ p ∈ m.tags i, p.LeavesAtStart size))
  | .removeTrailer i size | .removeAtEnd i size =>
    inferInstanceAs (Decidable (∀ p ∈ m.tags i, p.LeavesAtEnd size))
  | .addAtEnd i o => inferInstanceAs (Decidable (∀ p ∈ m.tags i, ∀ q ∈ m.tags o, p.Appendable q ∧
    spaceOf p.tags.tags + spaceOf q.tags.tags < 2 ^ 32))
  | .addByteTag i _ data => inferInstanceAs (Decidable (∀ p ∈ m.tags i, p.Taggable 0 p.size ∧
    spaceOf p.tags.tags + 16 + data.length < 2 ^ 32))
  | .addByteTagRange i _ data start end_ => inferInstanceAs (Decidable (∀ p ∈ m.tags i,
    p.Taggable start end_ ∧ spaceOf p.tags.tags + 16 + data.length < 2 ^ 32))
  | .copy _ | .destroy _ => .isTrue trivial

def Step (m : TaggedPackets) (op : PacketOp) (m' : TaggedPackets) : Prop :=
  op.Valid m.packets ∧ op.exec m = some m'

/-- What a program sees of its packets. -/
structure Kept (m : TaggedPackets) : Prop where
  /-- The tags can be read. -/
  reads : ∀ i p, m.find i = some p →
    ∃ items, p.getByteTagIterator m.heap = some items ∧ m.reports[i]? =
      some (some ⟨p.size.toNat, items.map fun t => t.range.mark p.size.toNat⟩)
  /-- No operation uses memory that has been freed. -/
  answers : ∀ op : PacketOp, op.Valid m.packets → Keeps m op → ∃ m', Step m op m'

/-- The offsets of the packets have not overflown. -/
def AllSound (vs : List (Option PacketTags)) : Prop :=
  ∀ (i : ℕ) (v : PacketTags), vs[i]? = some (some v) → v.Sound

/-- The lists lie well in their blocks, and their offsets have not overflown. -/
structure Invariant (m : TaggedPackets) : Prop where
  held : Held m
  sound : AllSound m.values

variable {m m' : TaggedPackets} {i o : ℕ} {p q : TaggedPacket} {op : PacketOp}

theorem invariant_init : Invariant init where
  held := SharedBlocks.held_empty
  sound := fun i v hv => by simp [init, values, ByteTagHeap.values, SharedBlocks.views] at hv

theorem reports_eq (h : Held m) : m.reports = m.values.map (Option.map PacketTags.report) := by
  rw [reports, values, ByteTagHeap.values, SharedBlocks.views, List.map_map]
  refine List.map_congr_left fun o ho => ?_
  cases o with
  | none => rfl
  | some p =>
    obtain ⟨i, hi⟩ := List.mem_iff_getElem?.1 ho
    change report m.heap p = some (p.view (m.heap.blocks.value p.data)).report
    rw [report, TaggedPacket.getByteTagIterator, ByteTagHeap.begin_eq h hi]
    rfl

/-- `op` has a result, which reports what the marks say. -/
def Follows (m : TaggedPackets) (op : PacketOp) : Prop :=
  ∃ m', op.exec m = some m' ∧ Invariant m' ∧ op.MarkedStep m.reports m'.reports

theorem follows_of_does {vs : List (Option PacketTags)} (hdoes : Does (op.exec m) vs)
    (hsound : AllSound vs)
    (hstep : op.MarkedStep m.reports (vs.map (Option.map PacketTags.report))) : Follows m op := by
  obtain ⟨m', hexec, hheld, rfl⟩ := hdoes
  exact ⟨m', hexec, ⟨hheld, hsound⟩, reports_eq hheld ▸ hstep⟩

theorem sound_set {vs : List (Option PacketTags)} {v : PacketTags}
    (h : AllSound vs) (hv : v.Sound) (j : ℕ) : AllSound (vs.set j (some v)) := by
  intro i w hw
  rcases SharedBlocks.getElem?_set_some hw with ⟨-, heq⟩ | ⟨-, hw⟩
  · cases heq
    exact hv
  · exact h i w hw

theorem sound_push {vs : List (Option PacketTags)} {v : PacketTags}
    (h : AllSound vs) (hv : v.Sound) : AllSound (vs ++ [some v]) := by
  intro i w hw
  have hmem := List.mem_of_getElem? hw
  rw [List.mem_append, List.mem_singleton] at hmem
  rcases hmem with hmem | heq
  · obtain ⟨j, hj⟩ := List.mem_iff_getElem?.1 hmem
    exact h j w hj
  · cases heq
    exact hv

theorem tags_eq (hp : m.packets[i]? = some (some p)) :
    m.tags i = some (p.view (m.heap.blocks.value p.data)) := by
  rw [tags, values_getElem hp]
  rfl

theorem reports_getElem (h : Held m) (hp : m.packets[i]? = some (some p)) :
    m.reports[i]? = some (some (p.view (m.heap.blocks.value p.data)).report) := by
  rw [reports_eq h, List.getElem?_map, values_getElem hp]
  rfl

/-- An operation on one packet. -/
theorem change_follows {f : ByteTagHeap → TaggedPacket → Option (ByteTagHeap × TaggedPacket)}
    {v : PacketTags} {r : MarkedPacket} (h : Invariant m) (hp : m.packets[i]? = some (some p))
    (hexec : op.exec m = m.change i f)
    (hf : ByteTagHeap.Turns m.heap m.packets i (f m.heap p) v) (hv : v.Sound ∧ v.report = r)
    (hstep : op.MarkedStep m.reports (m.reports.set i (some r))) : Follows m op := by
  apply follows_of_does (hexec ▸ change_does hp hf) (sound_set h.sound hv.1 i)
  rw [List.map_set, ← reports_eq h.held, Option.map_some, hv.2]
  exact hstep

/-- An operation that makes a packet. -/
theorem push_follows {v : PacketTags} {r : MarkedPacket} (h : Invariant m)
    (hdoes : Does (op.exec m) (m.values ++ [some v])) (hv : v.Sound ∧ v.report = r)
    (hstep : op.MarkedStep m.reports (m.reports ++ [some r])) : Follows m op := by
  apply follows_of_does hdoes (sound_push h.sound hv.1)
  rw [List.map_append, ← reports_eq h.held, List.map_singleton, Option.map_some, hv.2]
  exact hstep

theorem create_follows (h : Invariant m) {size : UInt32} (hsize : size.toNat < 2 ^ 31) :
    Follows m (.create size) := by
  refine push_follows h (create_does h.held size) ⟨⟨hsize, ByteTags.sound_empty, fun _ => ?_⟩, rfl⟩
    rfl
  rintro ⟨r, hr, -⟩
  exact absurd hr List.not_mem_nil

theorem destroy_follows (h : Invariant m) (hfew : Few m) (hp : m.packets[i]? = some (some p)) :
    Follows m (.destroy i) := by
  refine follows_of_does (destroy_does h.held hfew hp) (fun j v hv => ?_) ?_
  · rcases SharedBlocks.getElem?_set_some hv with ⟨-, hnone⟩ | ⟨-, hv⟩
    · cases hnone
    · exact h.sound j v hv
  · rw [List.map_set, ← reports_eq h.held]
    rfl

/-- The bytes of one packet are put behind those of another one, or of itself. -/
theorem addAtEnd_follows (h : Invariant m) (hfew : Few m) (hp : m.packets[i]? = some (some p))
    (hq : m.packets[o]? = some (some q))
    (happ : (p.view (m.heap.blocks.value p.data)).Appendable (q.view (m.heap.blocks.value q.data)))
    (hspace : spaceOf (p.view (m.heap.blocks.value p.data)).tags.tags +
      spaceOf (q.view (m.heap.blocks.value q.data)).tags.tags < 2 ^ 32) :
    Follows m (.addAtEnd i o) := by
  have hsoundp := h.sound i _ (values_getElem hp)
  have hsoundq := h.sound o _ (values_getElem hq)
  have hdoes := addAtEnd_does h.held hfew hp hq hspace
  have hspec : (PacketTags.addAtEnd (p.view (m.heap.blocks.value p.data))
      (if o = i then (p.view (m.heap.blocks.value p.data)).cut
        else q.view (m.heap.blocks.value q.data))).Sound ∧
      (PacketTags.addAtEnd (p.view (m.heap.blocks.value p.data))
        (if o = i then (p.view (m.heap.blocks.value p.data)).cut
          else q.view (m.heap.blocks.value q.data))).report =
        (p.view (m.heap.blocks.value p.data)).report.append
          (q.view (m.heap.blocks.value q.data)).report := by
    by_cases hoi : o = i
    · subst hoi
      cases hp.symm.trans hq
      rw [if_pos rfl]
      obtain ⟨hsound, hreport⟩ := PacketTags.addAtEnd_spec hsoundp
        (PacketTags.cut_spec hsoundp happ.room.2).1 (happ.cut hsoundp)
      exact ⟨hsound, hreport.trans (by rw [PacketTags.report_cut hsoundp happ.room.2])⟩
    · rw [if_neg hoi]
      exact PacketTags.addAtEnd_spec hsoundp hsoundq happ
  refine follows_of_does hdoes (sound_set h.sound hspec.1 i) ?_
  rw [List.map_set, ← reports_eq h.held, Option.map_some, hspec.2]
  exact ⟨_, _, reports_getElem h.held hp, reports_getElem h.held hq, rfl⟩

/-- Every operation that keeps the tags on their bytes. -/
theorem exec_follows (h : Invariant m) (hfew : Few m) (hvalid : op.Valid m.packets)
    (hkeeps : Keeps m op) : Follows m op := by
  have hsound {i : ℕ} {p : TaggedPacket} (hp : m.packets[i]? = some (some p)) :
      (p.view (m.heap.blocks.value p.data)).Sound := h.sound i _ (values_getElem hp)
  have hfew₁ : ByteTagHeap.alive m.packets + 1 < 2 ^ 32 := Nat.lt_of_succ_lt hfew
  have hfew₀ : ByteTagHeap.alive m.packets < 2 ^ 32 := Nat.lt_of_succ_lt hfew₁
  cases op with
  | create size => exact create_follows h hkeeps
  | copy o =>
    obtain ⟨p, hp⟩ := hvalid
    exact push_follows h (copy_does h.held hp) ⟨hsound hp, rfl⟩
      ⟨_, reports_getElem h.held hp, rfl⟩
  | createFragment o start length =>
    obtain ⟨p, hp, hinside⟩ := hvalid
    obtain ⟨hlt, hkeeps⟩ := hkeeps
    have hle : start.toNat + length.toNat ≤ p.size.toNat := by
      rwa [UInt32.le_iff_toNat_le, UInt32.toNat_add, Nat.mod_eq_of_lt hlt] at hinside
    exact push_follows h (createFragment_does h.held hp start length)
      (PacketTags.createFragment_spec (hsound hp) hle (hkeeps _ (tags_eq hp)))
      ⟨_, reports_getElem h.held hp, rfl⟩
  | addHeader i size =>
    obtain ⟨p, hp⟩ := hvalid
    exact change_follows (f := fun h p => p.addHeader h size) h hp rfl
      (ByteTagHeap.addHeader_turns h.held hfew₁ hp size)
      (PacketTags.addHeader_spec (hsound hp) (hkeeps _ (tags_eq hp)))
      ⟨_, reports_getElem h.held hp, rfl⟩
  | removeHeader i deserialized =>
    obtain ⟨p, hp⟩ := hvalid
    exact change_follows (f := fun h p => some (h, p.removeHeader deserialized)) h hp rfl
      (ByteTagHeap.removeAtStart_turns h.held hp deserialized)
      (PacketTags.removeAtStart_spec (hsound hp) (hkeeps _ (tags_eq hp)))
      ⟨_, reports_getElem h.held hp, rfl⟩
  | addTrailer i size =>
    obtain ⟨p, hp⟩ := hvalid
    exact change_follows (f := fun h p => p.addTrailer h size) h hp rfl
      (ByteTagHeap.addPaddingAtEnd_turns h.held hfew₁ hp size)
      (PacketTags.addPaddingAtEnd_spec (hsound hp) (hkeeps _ (tags_eq hp)))
      ⟨_, reports_getElem h.held hp, rfl⟩
  | removeTrailer i deserialized =>
    obtain ⟨p, hp⟩ := hvalid
    exact change_follows (f := fun h p => some (h, p.removeTrailer deserialized)) h hp rfl
      (ByteTagHeap.removeAtEnd_turns h.held hp deserialized)
      (PacketTags.removeAtEnd_spec (hsound hp) (hkeeps _ (tags_eq hp)))
      ⟨_, reports_getElem h.held hp, rfl⟩
  | addPaddingAtEnd i size =>
    obtain ⟨p, hp⟩ := hvalid
    exact change_follows (f := fun h p => p.addPaddingAtEnd h size) h hp rfl
      (ByteTagHeap.addPaddingAtEnd_turns h.held hfew₁ hp size)
      (PacketTags.addPaddingAtEnd_spec (hsound hp) (hkeeps _ (tags_eq hp)))
      ⟨_, reports_getElem h.held hp, rfl⟩
  | removeAtStart i size =>
    obtain ⟨p, hp⟩ := hvalid
    exact change_follows (f := fun h p => some (h, p.removeAtStart size)) h hp rfl
      (ByteTagHeap.removeAtStart_turns h.held hp size)
      (PacketTags.removeAtStart_spec (hsound hp) (hkeeps _ (tags_eq hp)))
      ⟨_, reports_getElem h.held hp, rfl⟩
  | removeAtEnd i size =>
    obtain ⟨p, hp⟩ := hvalid
    exact change_follows (f := fun h p => some (h, p.removeAtEnd size)) h hp rfl
      (ByteTagHeap.removeAtEnd_turns h.held hp size)
      (PacketTags.removeAtEnd_spec (hsound hp) (hkeeps _ (tags_eq hp)))
      ⟨_, reports_getElem h.held hp, rfl⟩
  | addAtEnd i o =>
    obtain ⟨⟨p, hp⟩, q, hq⟩ := hvalid
    obtain ⟨happ, hspace⟩ := hkeeps _ (tags_eq hp) _ (tags_eq hq)
    exact addAtEnd_follows h hfew hp hq happ hspace
  | addByteTag i tid data =>
    obtain ⟨p, hp⟩ := hvalid
    obtain ⟨htag, hspace⟩ := hkeeps _ (tags_eq hp)
    exact change_follows (f := fun h p => p.addByteTag h tid data) h hp rfl
      (ByteTagHeap.addByteTag_turns h.held hfew₀ hp _ (by
        dsimp only [ByteTag.space]
        omega)) (PacketTags.addByteTag_spec (hsound hp) htag tid data)
      ⟨_, reports_getElem h.held hp, rfl⟩
  | addByteTagRange i tid data start end_ =>
    obtain ⟨⟨p, hp⟩, hle⟩ := hvalid
    obtain ⟨htag, hspace⟩ := hkeeps _ (tags_eq hp)
    refine change_follows (f := fun h p => p.addByteTagRange h tid data start end_) h hp rfl
      (v := PacketTags.addByteTag
        (p.view (m.heap.blocks.value p.data)) tid data start end_) ?_
      (PacketTags.addByteTag_spec (hsound hp) htag tid data)
      ⟨_, reports_getElem h.held hp, rfl⟩
    rw [TaggedPacket.addByteTagRange, if_neg hle]
    apply ByteTagHeap.addByteTag_turns h.held hfew₀ hp _
    dsimp only [ByteTag.space]
    omega
  | destroy i =>
    obtain ⟨p, hp⟩ := hvalid
    exact destroy_follows h hfew hp

theorem kept_of_invariant (h : Invariant m) (hfew : Few m) : Kept m where
  reads := fun i p hp => by
    have hp := find_eq_some.1 hp
    refine ⟨_, ByteTagHeap.begin_eq h.held hp 0 p.size.toInt32, ?_⟩
    rw [reports_getElem h.held hp]
    rfl
  answers := fun op hvalid hkeeps => by
    obtain ⟨m', hexec, -, -⟩ := exec_follows h hfew hvalid hkeeps
    exact ⟨m', hvalid, hexec⟩

theorem few_of_length (hfew : m.packets.length + 2 < 2 ^ 32) : Few m :=
  Nat.lt_of_le_of_lt (Nat.add_le_add_right List.countP_le_length 2) hfew

/-- The step, if the packets are there and no freed memory is used. -/
def next? (m : TaggedPackets) (op : PacketOp) : Option TaggedPackets :=
  if op.Valid m.packets then op.exec m else none

theorem step_of_next? (h : m.next? op = some m') : Step m op m' := by
  unfold next? at h
  split at h
  · rename_i hvalid
    exact ⟨hvalid, h⟩
  · exact absurd h (Option.some_ne_none _).symm

/-- What is reported in a run is what the marks on the bytes say in a run of theirs. -/
def Marked (trace : List (TaggedPackets × PacketOp)) (m : TaggedPackets) : Prop :=
  Run PacketOp.MarkedStep [] (trace.map fun p => (p.1.reports, p.2)) m.reports

/-- Byte tags follow their bytes: each packet reports what the marks on its bytes say, if every
operation keeps them. -/
theorem marked_of_run {trace : List (TaggedPackets × PacketOp)} (h : Run Step init trace m)
    (hkeeps : ∀ p ∈ trace, Keeps p.1 p.2) (hfew : ∀ p ∈ trace, Few p.1) (hlast : Few m) :
    Marked trace m ∧ (∀ p ∈ trace, Kept p.1) ∧ Kept m := by
  have hstep (m : TaggedPackets) (op : PacketOp) (m' : TaggedPackets) (hm : Invariant m)
      (hp : Keeps m op ∧ Few m) (hst : Step m op m') :
      Invariant m' ∧ op.MarkedStep m.reports m'.reports := by
    obtain ⟨m'', hexec, hinv, hmarked⟩ := exec_follows hm hp.2 hst.1 hp.1
    rw [hst.2] at hexec
    cases hexec
    exact ⟨hinv, hmarked⟩
  have hall (p) (hp : p ∈ trace) : Keeps p.1 p.2 ∧ Few p.1 := ⟨hkeeps p hp, hfew p hp⟩
  obtain ⟨hinv, hm⟩ := h.invariant_along (I := Invariant) invariant_init
    (fun m op m' hm hp hst => (hstep m op m' hm hp hst).1) hall
  exact ⟨h.map_along (f := reports) (I := Invariant) invariant_init hstep hall,
    fun p hp => kept_of_invariant (hinv p hp) (hfew p hp), kept_of_invariant hm hlast⟩

/-- Two packets share a block, to which one of them adds; they get headers and trailers and are put
together. -/
theorem marked_of_run_shared : ∃ (trace : List (TaggedPackets × PacketOp)) (m : TaggedPackets),
    Run Step init trace m ∧ m.reports = [
        some ⟨7, [⟨1, [7], [false, true, true, false, false, false, false]⟩,
          ⟨1, [7], [false, false, false, true, true, true, false]⟩,
          ⟨2, [], [false, false, false, false, true, true, false]⟩]⟩, none,
        some ⟨3, [⟨1, [7], [true, false, false]⟩, ⟨1, [7], [false, true, true]⟩,
          ⟨2, [], [false, false, true]⟩]⟩] ∧
      Marked trace m ∧ (∀ p ∈ trace, Kept p.1) ∧ Kept m := by
  have hany : (Run.runOf next? init [.create 4, .addByteTag 0 1 [7], .copy 0,
      .addByteTagRange 1 2 [] 1 3, .removeAtStart 0 2, .addHeader 0 1, .removeAtEnd 1 1,
      .addTrailer 1 1, .addAtEnd 0 1, .createFragment 0 2 3, .destroy 1]).any (fun r => decide
        (r.2.reports = [
            some ⟨7, [⟨1, [7], [false, true, true, false, false, false, false]⟩,
              ⟨1, [7], [false, false, false, true, true, true, false]⟩,
              ⟨2, [], [false, false, false, false, true, true, false]⟩]⟩, none,
            some ⟨3, [⟨1, [7], [true, false, false]⟩, ⟨1, [7], [false, true, true]⟩,
              ⟨2, [], [false, false, true]⟩]⟩] ∧ (∀ p ∈ r.1, Keeps p.1 p.2) ∧
          (∀ p ∈ r.1, p.1.packets.length + 2 < 2 ^ 32) ∧ r.2.packets.length + 2 < 2 ^ 32)) =
            true := by decide +kernel
  obtain ⟨⟨trace, m⟩, hrun, hr⟩ := (Option.any_eq_true _ _).1 hany
  obtain ⟨hreports, hkeeps, hfew, hlast⟩ := of_decide_eq_true hr
  have hrun' := Run.of_runOf (fun _ _ _ => step_of_next?) hrun
  exact ⟨trace, m, hrun', hreports, marked_of_run hrun' hkeeps
    (fun p hp => few_of_length (hfew p hp)) (few_of_length hlast)⟩

/-- All bytes of a tagged packet are gone, from both ends, and the tag is still reported. -/
theorem not_marked_empty :
    ¬ ∀ (trace : List (TaggedPackets × PacketOp)) (m : TaggedPackets), Run Step init trace m →
      Marked trace m := by
  intro hall
  have hany : (Run.runOf next? init [.create 10, .addByteTag 0 1 [7], .removeAtStart 0 5]).any
      (fun r => decide (r.2.reports = [some ⟨5, [⟨1, [7], List.replicate 5 true⟩]⟩] ∧
        (r.2.next? (.removeAtEnd 0 5)).any fun m => m.reports = [some ⟨0, [⟨1, [7], []⟩]⟩])) =
          true := by decide +kernel
  obtain ⟨⟨trace, m⟩, hrun, hr⟩ := (Option.any_eq_true _ _).1 hany
  obtain ⟨hbefore, hafter⟩ := of_decide_eq_true hr
  obtain ⟨m', hm', hafter⟩ := (Option.any_eq_true _ _).1 hafter
  have hrun' := (Run.of_runOf (fun _ _ _ => step_of_next?) hrun).snoc (step_of_next? hm')
  have hmarked := hall _ _ hrun'
  rw [Marked, List.map_append] at hmarked
  obtain ⟨p, hp, hset⟩ := hmarked.last
  rw [hbefore] at hp hset
  rw [of_decide_eq_true hafter] at hset
  cases hp
  exact absurd hset (by decide)

end TaggedPackets

end SeanetSim
