import SeanetSim.Network.ByteTagSharing

/-!
# The byte tags of packets

The operations of `Packet` as far as they change its size and the list of its byte tags.  Each
packet does with its tags what it would do with a list of its own (`PacketTags`), although lists
share their memory.
-/

namespace SeanetSim

open SharedBlocks

namespace PacketTags

def addHeader (p : PacketTags) (size : UInt32) : PacketTags :=
  ⟨p.size + size, (p.tags.adjust size.toInt32).addAtStart size.toInt32⟩

def removeAtStart (p : PacketTags) (size : UInt32) : PacketTags :=
  ⟨p.size - min size p.size, p.tags.adjust (-size).toInt32⟩

def removeAtEnd (p : PacketTags) (size : UInt32) : PacketTags :=
  { p with size := p.size - min size p.size }

def addPaddingAtEnd (p : PacketTags) (size : UInt32) : PacketTags :=
  ⟨p.size + size, p.tags.addAtEnd p.size.toInt32⟩

def createFragment (p : PacketTags) (start length : UInt32) : PacketTags :=
  ⟨length, p.tags.adjust (-start).toInt32⟩

/-- The tags end where the packet does. -/
def cut (p : PacketTags) : PacketTags := { p with tags := p.tags.addAtEnd p.size.toInt32 }

/-- What `AddAtEnd` adds to a packet of a size. -/
def appended (o : PacketTags) (size : UInt32) : ByteTags :=
  (o.tags.addAtStart 0).adjust size.toInt32

def addAtEnd (p o : PacketTags) : PacketTags :=
  ⟨p.size + o.size, p.cut.tags.addAll (o.appended p.size)⟩

def addByteTag (p : PacketTags) (tid : UInt16) (data : List UInt8) (start end_ : UInt32) :
    PacketTags :=
  { p with tags := p.tags.add ⟨tid, start.toInt32, end_.toInt32, data⟩ }

end PacketTags

namespace TaggedPacket

def addHeader (h : ByteTagHeap) (p : TaggedPacket) (size : UInt32) :
    Option (ByteTagHeap × TaggedPacket) := do
  let (h, l) ← (p.byteTags.adjust size.toInt32).addAtStart h size.toInt32
  some (h, ⟨p.size + size, l⟩)

/-- The buffer becomes empty if it has fewer bytes. -/
def removeAtStart (p : TaggedPacket) (size : UInt32) : TaggedPacket :=
  ⟨p.size - min size p.size, p.byteTags.adjust (-size).toInt32⟩

/-- `deserialized` is what the header says. -/
def removeHeader (p : TaggedPacket) (deserialized : UInt32) : TaggedPacket :=
  p.removeAtStart deserialized

def removeAtEnd (p : TaggedPacket) (size : UInt32) : TaggedPacket :=
  { p with size := p.size - min size p.size }

def removeTrailer (p : TaggedPacket) (deserialized : UInt32) : TaggedPacket :=
  p.removeAtEnd deserialized

def addPaddingAtEnd (h : ByteTagHeap) (p : TaggedPacket) (size : UInt32) :
    Option (ByteTagHeap × TaggedPacket) := do
  let (h, l) ← p.byteTags.addAtEnd h p.size.toInt32
  some (h, ⟨p.size + size, l⟩)

def addTrailer (h : ByteTagHeap) (p : TaggedPacket) (size : UInt32) :
    Option (ByteTagHeap × TaggedPacket) :=
  addPaddingAtEnd h p size

/-- The local list is copied to the new packet and destroyed. -/
def createFragment (h : ByteTagHeap) (p : TaggedPacket) (start length : UInt32) :
    Option (ByteTagHeap × TaggedPacket) := do
  let (h, byteTagList) ← p.byteTags.copy h
  some (h, ⟨length, byteTagList.adjust (-start).toInt32⟩)

/-- `AddByteTag`, and what the tag writes. -/
def addByteTag (h : ByteTagHeap) (p : TaggedPacket) (tid : UInt16) (data : List UInt8) :
    Option (ByteTagHeap × TaggedPacket) := do
  let (h, l) ← p.byteTags.add h ⟨tid, 0, p.size.toInt32, data⟩
  some (h, { p with byteTags := l })

/-- `AddByteTag` for a range of bytes. -/
def addByteTagRange (h : ByteTagHeap) (p : TaggedPacket) (tid : UInt16) (data : List UInt8)
    (start end_ : UInt32) : Option (ByteTagHeap × TaggedPacket) :=
  if end_ < start then none
  else do
    let (h, l) ← p.byteTags.add h ⟨tid, start.toInt32, end_.toInt32, data⟩
    some (h, { p with byteTags := l })

def getByteTagIterator (h : ByteTagHeap) (p : TaggedPacket) : Option (List ByteTag) :=
  p.byteTags.begin_ h 0 p.size.toInt32

end TaggedPacket

/-- The packets of a program; none for one that has been destroyed. -/
structure TaggedPackets where
  heap : ByteTagHeap
  packets : List (Option TaggedPacket)

namespace TaggedPackets

def init : TaggedPackets := ⟨.init, []⟩

/-- The packet `i`, if there is one. -/
def find (m : TaggedPackets) (i : ℕ) : Option TaggedPacket := m.packets[i]?.join

def change (m : TaggedPackets) (i : ℕ)
    (f : ByteTagHeap → TaggedPacket → Option (ByteTagHeap × TaggedPacket)) :
    Option TaggedPackets := do
  let (heap, p) ← f m.heap (← m.find i)
  some ⟨heap, m.packets.set i (some p)⟩

def create (m : TaggedPackets) (size : UInt32) : TaggedPackets :=
  { m with packets := m.packets ++ [some ⟨size, .empty⟩] }

/-- A new packet, made of the packet `o`. -/
def derive (m : TaggedPackets) (o : ℕ)
    (f : ByteTagHeap → TaggedPacket → Option (ByteTagHeap × TaggedPacket)) :
    Option TaggedPackets := do
  let (heap, p) ← f m.heap (← m.find o)
  some ⟨heap, m.packets ++ [some p]⟩

def copy (h : ByteTagHeap) (p : TaggedPacket) : Option (ByteTagHeap × TaggedPacket) := do
  let (h, l) ← p.byteTags.copy h
  some (h, ⟨p.size, l⟩)

/-- The packets `i` and `o` may be the same. -/
def addAtEnd (m : TaggedPackets) (i o : ℕ) : Option TaggedPackets := do
  let size := (← m.find i).size
  let m ← m.change i fun h p => do
    let (h, l) ← p.byteTags.addAtEnd h size.toInt32
    some (h, { p with byteTags := l })
  let packet ← m.find o
  let (heap, copy) ← packet.byteTags.copy m.heap
  let (heap, copy) ← copy.addAtStart heap 0
  let copy := copy.adjust size.toInt32
  let p ← m.find i
  let (heap, l) ← p.byteTags.addAll heap copy
  let heap ← heap.deallocate copy.data
  some ⟨heap, m.packets.set i (some ⟨size + packet.size, l⟩)⟩

def destroy (m : TaggedPackets) (i : ℕ) : Option TaggedPackets := do
  let p ← m.find i
  let heap ← m.heap.deallocate p.byteTags.data
  some ⟨heap, m.packets.set i none⟩

end TaggedPackets

/-- The adjustment of a list is its own. -/
theorem ByteTagList.Fits.adjust {v : Option ByteTagListData} {l : ByteTagList} (h : l.Fits v)
    (adjustment : Int32) : (l.adjust adjustment).Fits v := by
  cases v with
  | none => exact h
  | some d => exact ⟨h.used, h.le_dirty, h.dirty_le⟩

namespace ByteTagHeap

variable {h h' : ByteTagHeap} {slots : List (Option TaggedPacket)} {p q : TaggedPacket} {i o : ℕ}
  {r : Option (ByteTagHeap × ByteTagList)} {l : ByteTags}

/-- The packet `i` becomes `v`; the others stay as they are. -/
def Turns (h : ByteTagHeap) (slots : List (Option TaggedPacket)) (i : ℕ)
    (r : Option (ByteTagHeap × TaggedPacket)) (v : PacketTags) : Prop :=
  ∃ h' q, r = some (h', q) ∧ Held h' (slots.set i (some q)) ∧
    values h' (slots.set i (some q)) = (values h slots).set i (some v)

/-- The size and the adjustment of a packet are its own. -/
theorem keep_turns (hheld : Held h slots) (hp : slots[i]? = some (some p)) (size : UInt32)
    (adjustment : Int32) :
    Turns h slots i (some (h, ⟨size, p.byteTags.adjust adjustment⟩))
      ⟨size, (p.byteTags.view (h.blocks.value p.data)).adjust adjustment⟩ := by
  obtain ⟨hheld', hviews⟩ := hheld.keep TaggedPacket.view hp
    (k := ⟨size, p.byteTags.adjust adjustment⟩) rfl fun _ hall =>
      (hall i p hp rfl).adjust adjustment
  exact ⟨h, _, rfl, hheld', hviews⟩

theorem adjust_zero (l : ByteTagList) : l.adjust 0 = l := by
  rw [ByteTagList.adjust, Int32.add_zero]

theorem Does.resize (hd : Does h slots i p r l) (hp : slots[i]? = some (some p)) (size : UInt32) :
    Turns h slots i (do
      let (h, l) ← r
      some (h, ⟨size, l⟩)) ⟨size, l⟩ := by
  obtain ⟨h', b, rfl, hheld', hvalues⟩ := hd
  have hi := (List.getElem?_eq_some_iff.1 hp).1
  have hq : (slots.set i (some { p with byteTags := b }))[i]? =
      some (some { p with byteTags := b }) := List.getElem?_set_self hi
  have hview := congrArg PacketTags.tags (view_eq_of_values hi hvalues)
  obtain ⟨h'', q, hr, hheld'', hvalues''⟩ := keep_turns hheld' hq size 0
  rw [adjust_zero] at hr
  cases hr
  rw [List.set_set] at hheld'' hvalues''
  refine ⟨h', ⟨size, b⟩, rfl, hheld'', hvalues''.trans ?_⟩
  rw [hvalues, List.set_set, ByteTags.adjust, Int32.add_zero]
  exact congrArg (fun l => (values h slots).set i (some ⟨size, l⟩)) hview

/-- One operation after the other on a packet. -/
theorem Turns.bind {r : Option (ByteTagHeap × TaggedPacket)} {v w : PacketTags}
    {f : ByteTagHeap × TaggedPacket → Option (ByteTagHeap × TaggedPacket)}
    (ht : Turns h slots i r v) (hp : slots[i]? = some (some p))
    (hf : ∀ h' (q : TaggedPacket), Held h' (slots.set i (some q)) →
      (slots.set i (some q))[i]? = some (some q) → q.view (h'.blocks.value q.data) = v →
      Turns h' (slots.set i (some q)) i (f (h', q)) w) :
    Turns h slots i (r.bind f) w := by
  obtain ⟨h', q, rfl, hheld', hvalues⟩ := ht
  have hi := (List.getElem?_eq_some_iff.1 hp).1
  obtain ⟨h'', q', hr, hheld'', hvalues'⟩ :=
    hf h' q hheld' (List.getElem?_set_self hi) (view_eq_of_values hi hvalues)
  rw [List.set_set] at hheld'' hvalues'
  rw [hvalues, List.set_set] at hvalues'
  exact ⟨h'', q', hr, hheld'', hvalues'⟩

theorem addHeader_turns (hheld : Held h slots) (hfew : alive slots + 1 < 2 ^ 32)
    (hp : slots[i]? = some (some p)) (size : UInt32) :
    Turns h slots i (p.addHeader h size) ((p.view (h.blocks.value p.data)).addHeader size) := by
  refine (keep_turns hheld hp p.size size.toInt32).bind (f := fun r => do
    let (h, l) ← r.2.byteTags.addAtStart r.1 size.toInt32
    some (h, ⟨p.size + size, l⟩)) hp fun h' q hheld' hq hview => ?_
  have hadd := addAtStart_does hheld' ((alive_set hp q).symm ▸ hfew) hq size.toInt32
  rw [show q.byteTags.view (h'.blocks.value q.data) = _ from congrArg PacketTags.tags hview] at hadd
  exact hadd.resize hq _

theorem addPaddingAtEnd_turns (hheld : Held h slots) (hfew : alive slots + 1 < 2 ^ 32)
    (hp : slots[i]? = some (some p)) (size : UInt32) :
    Turns h slots i (p.addPaddingAtEnd h size)
      ((p.view (h.blocks.value p.data)).addPaddingAtEnd size) :=
  (addAtEnd_does hheld hfew hp _).resize hp _

theorem removeAtStart_turns (hheld : Held h slots) (hp : slots[i]? = some (some p))
    (size : UInt32) : Turns h slots i (some (h, p.removeAtStart size))
      ((p.view (h.blocks.value p.data)).removeAtStart size) :=
  keep_turns hheld hp _ _

theorem removeAtEnd_turns (hheld : Held h slots) (hp : slots[i]? = some (some p))
    (size : UInt32) : Turns h slots i (some (h, p.removeAtEnd size))
      ((p.view (h.blocks.value p.data)).removeAtEnd size) :=
  (Does.refl hheld hp).resize hp _

theorem addByteTag_turns (hheld : Held h slots) (hfew : alive slots < 2 ^ 32)
    (hp : slots[i]? = some (some p)) (t : ByteTag)
    (hspace : spaceOf (p.view (h.blocks.value p.data)).tags.tags + t.space < 2 ^ 32) :
    Turns h slots i (do
      let (h, l) ← p.byteTags.add h t
      some (h, ⟨p.size, l⟩)) ⟨p.size, (p.view (h.blocks.value p.data)).tags.add t⟩ := by
  refine (add_does hheld hfew hp ?_).resize hp _
  rwa [← (fits_of_held hheld hp).used_eq]

/-- A new packet with the tags of another one. -/
theorem copy_pushes (hheld : Held h slots) (hp : slots[o]? = some (some p)) (size : UInt32)
    (adjustment : Int32) :
    ∃ h', p.byteTags.copy h = some (h', p.byteTags) ∧
      Held h' (slots ++ [some ⟨size, p.byteTags.adjust adjustment⟩]) ∧
      values h' (slots ++ [some ⟨size, p.byteTags.adjust adjustment⟩]) =
        values h slots ++
          [some ⟨size, (p.byteTags.view (h.blocks.value p.data)).adjust adjustment⟩] := by
  obtain ⟨m', hshare, hheld', hviews⟩ := hheld.push_share TaggedPacket.view hp
    (g := ⟨size, p.byteTags.adjust adjustment⟩) rfl fun _ hfits => hfits.adjust adjustment
  refine ⟨{ h with blocks := m' }, ?_, hheld', hviews⟩
  rw [ByteTagList.copy, show h.share p.byteTags.data = _ from share_spec hshare]
  rfl

/-- `Add` of the list of another packet, which is read first. -/
theorem addAll_does (hheld : Held h slots) (hfew : alive slots < 2 ^ 32)
    (hp : slots[i]? = some (some p)) (ho : slots[o]? = some (some q))
    (hspace : spaceOf (p.byteTags.view (h.blocks.value p.data)).tags +
      spaceOf (q.byteTags.view (h.blocks.value q.data)).tags < 2 ^ 32) :
    Does h slots i p (p.byteTags.addAll h q.byteTags)
      ((p.byteTags.view (h.blocks.value p.data)).addAll
        (q.byteTags.view (h.blocks.value q.data))) := by
  rw [ByteTagList.addAll, begin_eq hheld ho]
  apply addEach_does _ hheld hfew hp
  rw [← (fits_of_held hheld hp).used_eq]
  exact (Nat.add_le_add_left (spaceOf_begin_le _ _ _) _).trans_lt hspace

theorem spaceOf_foldl_add (ts : List ByteTag) :
    spaceOf (ts.foldl ByteTags.add .empty).tags = spaceOf ts := by
  rw [(ByteTags.foldl_add (l := .empty) rfl ts).2]
  rfl

theorem spaceOf_addAtEnd_le (l : ByteTags) (appendOffset : Int32) :
    spaceOf (l.addAtEnd appendOffset).tags ≤ spaceOf l.tags := by
  unfold ByteTags.addAtEnd
  split_ifs
  · exact Nat.le_refl _
  · rw [spaceOf_foldl_add]
    exact (spaceOf_filterMap_le (fun _ _ => clipEnd_data) _).trans (spaceOf_begin_le _ _ _)

theorem spaceOf_addAtStart_le (l : ByteTags) (prependOffset : Int32) :
    spaceOf (l.addAtStart prependOffset).tags ≤ spaceOf l.tags := by
  unfold ByteTags.addAtStart
  split_ifs
  · exact Nat.le_refl _
  · rw [spaceOf_foldl_add]
    exact (spaceOf_filterMap_le (fun _ _ => clipStart_data) _).trans (spaceOf_begin_le _ _ _)

/-- The local copy of a list, as it is added to a packet of a size. -/
theorem appended_turns (hheld : Held h slots) (hfew : alive slots + 1 < 2 ^ 32)
    (hp : slots[i]? = some (some p)) (size : UInt32) :
    Turns h slots i (do
      let (h, copy) ← p.byteTags.addAtStart h 0
      some (h, ⟨p.size, copy.adjust size.toInt32⟩))
      ⟨p.size, (p.view (h.blocks.value p.data)).appended size⟩ := by
  have hstart := (addAtStart_does hheld hfew hp 0).resize hp p.size
  have hadjust := hstart.bind (f := fun r => some (r.1, ⟨p.size, r.2.byteTags.adjust size.toInt32⟩))
    (w := ⟨p.size, (p.view (h.blocks.value p.data)).appended size⟩) hp
    fun h' q hheld' hq hview => by
      have hkeep := keep_turns hheld' hq p.size size.toInt32
      rw [show q.byteTags.view (h'.blocks.value q.data) = _ from congrArg PacketTags.tags hview]
        at hkeep
      exact hkeep
  cases hr : p.byteTags.addAtStart h 0 with
  | none =>
    rw [hr] at hadjust
    exact hadjust
  | some b =>
    rw [hr] at hadjust
    exact hadjust

/-- The local copy of a list is a new variable. -/
theorem appended_pushes (hheld : Held h slots) (hfew : alive slots + 2 < 2 ^ 32)
    (ho : slots[o]? = some (some q)) (size : UInt32) :
    ∃ h₁ h₂ copy, q.byteTags.copy h = some (h₁, q.byteTags) ∧
      q.byteTags.addAtStart h₁ 0 = some (h₂, copy) ∧
      Held h₂ (slots ++ [some ⟨q.size, copy.adjust size.toInt32⟩]) ∧
      values h₂ (slots ++ [some ⟨q.size, copy.adjust size.toInt32⟩]) =
        values h slots ++ [some ⟨q.size, (q.view (h.blocks.value q.data)).appended size⟩] := by
  have hlength : (values h slots).length = slots.length := List.length_map _
  obtain ⟨h₁, hcopy, hheld₁, hvalues₁⟩ := copy_pushes hheld ho q.size 0
  rw [adjust_zero] at hheld₁ hvalues₁
  have hq : TaggedPacket.view (h₁.blocks.value q.data) ⟨q.size, q.byteTags⟩ =
      q.view (h.blocks.value q.data) := by
    have hview := values_getElem (h := h₁) (Held.getElem?_push slots (some ⟨q.size, q.byteTags⟩))
    rw [hvalues₁, ← hlength, Held.getElem?_push, ByteTags.adjust, Int32.add_zero] at hview
    exact (Option.some_inj.1 (Option.some_inj.1 hview)).symm
  obtain ⟨h₂, q₂, hadjust, hheld₂, hvalues₂⟩ := appended_turns hheld₁
    ((congrArg (· + 1) (alive_push slots ⟨q.size, q.byteTags⟩)).trans_lt hfew)
    (Held.getElem?_push slots _) size
  obtain ⟨⟨h₂, copy⟩, hstart, hq₂⟩ := Option.bind_eq_some_iff.1 hadjust
  cases hq₂
  rw [Held.set_push] at hheld₂ hvalues₂
  rw [hvalues₁, ← hlength, Held.set_push] at hvalues₂
  refine ⟨h₁, h₂, copy, hcopy, hstart, hheld₂, hvalues₂.trans ?_⟩
  exact congrArg (fun v : PacketTags => values h slots ++ [some ⟨q.size, v.appended size⟩]) hq

/-- A copy of another list is made, added and destroyed. -/
theorem addCopy_does (hheld : Held h slots) (hfew : alive slots + 2 < 2 ^ 32)
    (hp : slots[i]? = some (some p)) (ho : slots[o]? = some (some q)) (size : UInt32)
    (hspace : spaceOf (p.view (h.blocks.value p.data)).tags.tags +
      spaceOf (q.view (h.blocks.value q.data)).tags.tags < 2 ^ 32) :
    Does h slots i p (do
      let (h, copy) ← q.byteTags.copy h
      let (h, copy) ← copy.addAtStart h 0
      let copy := copy.adjust size.toInt32
      let (h, l) ← p.byteTags.addAll h copy
      let h ← h.deallocate copy.data
      some (h, l))
      ((p.byteTags.view (h.blocks.value p.data)).addAll
        ((q.view (h.blocks.value q.data)).appended size)) := by
  have hi := (List.getElem?_eq_some_iff.1 hp).1
  have hlength : (values h slots).length = slots.length := List.length_map _
  obtain ⟨h₁, h₂, copy, hcopy, hstart, hheld₂, hvalues₂⟩ := appended_pushes hheld hfew ho size
  have hp₂ : (slots ++ [some ⟨q.size, copy.adjust size.toInt32⟩])[i]? = some (some p) :=
    getElem?_push_of_getElem? hp
  have hviewp : p.view (h₂.blocks.value p.data) = p.view (h.blocks.value p.data) := by
    have hview := values_getElem (h := h₂) hp₂
    rw [hvalues₂, getElem?_push_of_getElem? (values_getElem hp)] at hview
    exact (Option.some_inj.1 (Option.some_inj.1 hview)).symm
  have hviewc : TaggedPacket.view (h₂.blocks.value copy.data) ⟨q.size, copy.adjust size.toInt32⟩ =
      ⟨q.size, (q.view (h.blocks.value q.data)).appended size⟩ := by
    have hview := values_getElem (h := h₂)
      (Held.getElem?_push slots (some ⟨q.size, copy.adjust size.toInt32⟩))
    rw [hvalues₂, ← hlength, Held.getElem?_push] at hview
    exact (Option.some_inj.1 (Option.some_inj.1 hview)).symm
  have hspace₂ : spaceOf (p.view (h₂.blocks.value p.data)).tags.tags +
      spaceOf (TaggedPacket.view (h₂.blocks.value copy.data)
        ⟨q.size, copy.adjust size.toInt32⟩).tags.tags < 2 ^ 32 := by
    rw [hviewp, hviewc]
    exact (Nat.add_le_add_left (spaceOf_addAtStart_le _ 0) _).trans_lt hspace
  obtain ⟨h₃, l, hadd, hheld₃, hvalues₃⟩ := addAll_does hheld₂
    ((alive_push slots _).trans_lt (by omega)) hp₂ (Held.getElem?_push slots _) hspace₂
  rw [set_append_of_lt hi] at hheld₃ hvalues₃
  rw [hvalues₂, set_append_of_lt (hlength.symm ▸ hi)] at hvalues₃
  obtain ⟨h₄, hdeallocate, hheld₄, hvalues₄⟩ := destroy_last hheld₃
    ((congrArg (· + 1) (alive_set hp _)).trans_lt (by omega)) hvalues₃
  refine ⟨h₄, l, ?_, hheld₄, hvalues₄.trans ?_⟩
  · simp only [hcopy, hstart, Option.bind_eq_bind, Option.bind_some]
    rw [show ByteTagList.addAll h₂ p.byteTags (copy.adjust size.toInt32) = _ from hadd,
      Option.bind_some]
    change (h₃.deallocate copy.data).bind _ = _
    rw [show h₃.deallocate copy.data = _ from hdeallocate, Option.bind_some]
  · have hp' : p.byteTags.view (h₂.blocks.value p.data) = p.byteTags.view (h.blocks.value p.data) :=
      congrArg PacketTags.tags hviewp
    have hc' : (copy.adjust size.toInt32).view (h₂.blocks.value copy.data) =
        (q.view (h.blocks.value q.data)).appended size := congrArg PacketTags.tags hviewc
    rw [hp', ← hc']
    rfl

end ByteTagHeap

namespace TaggedPackets

variable {m : TaggedPackets} {i o : ℕ} {p q : TaggedPacket} {v : PacketTags}

abbrev Held (m : TaggedPackets) : Prop := ByteTagHeap.Held m.heap m.packets

/-- The packets with the tags of their lists. -/
def values (m : TaggedPackets) : List (Option PacketTags) := m.heap.values m.packets

/-- The packets that there are, and two more, cannot make the count of a block wrap. -/
def Few (m : TaggedPackets) : Prop := ByteTagHeap.alive m.packets + 2 < 2 ^ 32

/-- The operation has a result, with these packets. -/
def Does (r : Option TaggedPackets) (vs : List (Option PacketTags)) : Prop :=
  ∃ m', r = some m' ∧ Held m' ∧ m'.values = vs

theorem find_eq_some : m.find i = some p ↔ m.packets[i]? = some (some p) := Option.join_eq_some_iff

theorem change_does {f : ByteTagHeap → TaggedPacket → Option (ByteTagHeap × TaggedPacket)}
    (hp : m.packets[i]? = some (some p))
    (hf : ByteTagHeap.Turns m.heap m.packets i (f m.heap p) v) :
    Does (m.change i f) (m.values.set i (some v)) := by
  obtain ⟨heap, q, hr, hheld, hvalues⟩ := hf
  refine ⟨⟨heap, m.packets.set i (some q)⟩, ?_, hheld, hvalues⟩
  rw [change, find_eq_some.2 hp, Option.bind_eq_bind, Option.bind_some, hr]
  rfl

theorem create_does (hheld : Held m) (size : UInt32) :
    Does (some (m.create size)) (m.values ++ [some ⟨size, .empty⟩]) := by
  obtain ⟨hheld', hviews⟩ := hheld.push_null TaggedPacket.view (g := ⟨size, .empty⟩) rfl
    fun _ => show ByteTagList.Fits none ByteTagList.empty from rfl
  exact ⟨_, rfl, hheld', hviews⟩

theorem copy_does (hheld : Held m) (hp : m.packets[o]? = some (some p)) :
    Does (m.derive o copy) (m.values ++ [some (p.view (m.heap.blocks.value p.data))]) := by
  obtain ⟨heap, hcopy, hheld', hvalues⟩ := ByteTagHeap.copy_pushes hheld hp p.size 0
  rw [ByteTagHeap.adjust_zero] at hheld' hvalues
  rw [ByteTags.adjust, Int32.add_zero] at hvalues
  refine ⟨⟨heap, m.packets ++ [some p]⟩, ?_, hheld', hvalues⟩
  rw [derive, find_eq_some.2 hp, Option.bind_eq_bind, Option.bind_some, copy, hcopy]
  rfl

theorem createFragment_does (hheld : Held m) (hp : m.packets[o]? = some (some p))
    (start length : UInt32) :
    Does (m.derive o fun h p => p.createFragment h start length)
      (m.values ++ [some ((p.view (m.heap.blocks.value p.data)).createFragment start length)]) := by
  obtain ⟨heap, hcopy, hheld', hvalues⟩ :=
    ByteTagHeap.copy_pushes hheld hp length (-start).toInt32
  refine ⟨⟨heap, _⟩, ?_, hheld', hvalues⟩
  rw [derive, find_eq_some.2 hp, Option.bind_eq_bind, Option.bind_some,
    TaggedPacket.createFragment, hcopy]
  rfl

theorem destroy_does (hheld : Held m) (hfew : Few m) (hp : m.packets[i]? = some (some p)) :
    Does (m.destroy i) (m.values.set i none) := by
  obtain ⟨m', hrelease, -, hheld', hviews, -⟩ := hheld.release TaggedPacket.view
    (ByteTagHeap.holders_lt (Nat.lt_of_le_of_lt (Nat.le_add_right _ 2) hfew)) hp
  obtain ⟨heap, hdeallocate, rfl⟩ := ByteTagHeap.deallocate_spec hrelease
  refine ⟨⟨heap, m.packets.set i none⟩, ?_, hheld', hviews⟩
  rw [destroy, find_eq_some.2 hp, Option.bind_eq_bind, Option.bind_some,
    show m.heap.deallocate p.byteTags.data = _ from hdeallocate]
  rfl

theorem values_getElem (hp : m.packets[i]? = some (some p)) :
    m.values[i]? = some (some (p.view (m.heap.blocks.value p.data))) :=
  ByteTagHeap.values_getElem hp

theorem addAtEnd_does (hheld : Held m) (hfew : Few m) (hp : m.packets[i]? = some (some p))
    (ho : m.packets[o]? = some (some q))
    (hspace : spaceOf (p.view (m.heap.blocks.value p.data)).tags.tags +
      spaceOf (q.view (m.heap.blocks.value q.data)).tags.tags < 2 ^ 32) :
    Does (m.addAtEnd i o) (m.values.set i (some ((p.view (m.heap.blocks.value p.data)).addAtEnd
      (if o = i then (p.view (m.heap.blocks.value p.data)).cut
        else q.view (m.heap.blocks.value q.data))))) := by
  have hi := (List.getElem?_eq_some_iff.1 hp).1
  obtain ⟨heap, l, hcut, hheld₁, hvalues₁⟩ := ByteTagHeap.addAtEnd_does hheld
    (Nat.lt_of_le_of_lt (Nat.le_succ _) hfew) hp p.size.toInt32
  have hp₁ : (m.packets.set i (some { p with byteTags := l }))[i]? =
      some (some { p with byteTags := l }) := List.getElem?_set_self hi
  have hview₁ := ByteTagHeap.view_eq_of_values hi hvalues₁
  obtain ⟨q₁, hq₁, hsize, hview⟩ : ∃ q₁,
      (m.packets.set i (some { p with byteTags := l }))[o]? = some (some q₁) ∧ q₁.size = q.size ∧
        q₁.view (heap.blocks.value q₁.data) =
          if o = i then (p.view (m.heap.blocks.value p.data)).cut
          else q.view (m.heap.blocks.value q.data) := by
    by_cases hoi : o = i
    · subst hoi
      cases hp.symm.trans ho
      exact ⟨_, hp₁, rfl, by rw [if_pos rfl, hview₁]; rfl⟩
    · have hq₁ : (m.packets.set i (some { p with byteTags := l }))[o]? = some (some q) :=
        (List.getElem?_set_ne fun heq => hoi heq.symm).trans ho
      have hview := ByteTagHeap.values_getElem (h := heap) hq₁
      rw [hvalues₁, List.getElem?_set_ne fun heq => hoi heq.symm,
        ByteTagHeap.values_getElem ho] at hview
      exact ⟨q, hq₁, rfl, by
        rw [if_neg hoi, ← Option.some_inj.1 (Option.some_inj.1 hview)]⟩
  have hspace₁ : spaceOf (TaggedPacket.view (heap.blocks.value l.data)
      { p with byteTags := l }).tags.tags + spaceOf (q₁.view (heap.blocks.value q₁.data)).tags.tags <
        2 ^ 32 := by
    have hle := ByteTagHeap.spaceOf_addAtEnd_le (p.view (m.heap.blocks.value p.data)).tags
      p.size.toInt32
    have hq : spaceOf (q₁.view (heap.blocks.value q₁.data)).tags.tags ≤
        spaceOf (q.view (m.heap.blocks.value q.data)).tags.tags := by
      rw [hview]
      split_ifs with hoi
      · subst hoi
        cases hp.symm.trans ho
        exact hle
      · exact Nat.le_refl _
    rw [show TaggedPacket.view (heap.blocks.value l.data) { p with byteTags := l } = _ from hview₁]
    exact (Nat.add_le_add hle hq).trans_lt hspace
  obtain ⟨heap₂, p₂, hadd, hheld₂, hvalues₂⟩ := (ByteTagHeap.addCopy_does hheld₁
    ((congrArg (· + 2) (ByteTagHeap.alive_set hp _)).trans_lt hfew) hp₁ hq₁ p.size
    hspace₁).resize hp₁ (p.size + q.size)
  rw [List.set_set] at hheld₂ hvalues₂
  rw [hvalues₁, List.set_set, hview] at hvalues₂
  refine ⟨⟨heap₂, m.packets.set i (some p₂)⟩, ?_, hheld₂, hvalues₂.trans ?_⟩
  · obtain ⟨⟨h₄, l₃⟩, hlist, hp₂⟩ := Option.bind_eq_some_iff.1 hadd
    obtain ⟨⟨h₁, c₁⟩, hcopy, hlist⟩ := Option.bind_eq_some_iff.1 hlist
    obtain ⟨⟨h₂, c₂⟩, hstart, hlist⟩ := Option.bind_eq_some_iff.1 hlist
    obtain ⟨⟨h₃, l₃⟩, hall, hlist⟩ := Option.bind_eq_some_iff.1 hlist
    obtain ⟨h₄, hdeallocate, hlast⟩ := Option.bind_eq_some_iff.1 hlist
    cases hlast
    cases hp₂
    have hfindp : find ⟨heap, m.packets.set i (some ⟨p.size, l⟩)⟩ i = some ⟨p.size, l⟩ :=
      find_eq_some.2 hp₁
    have hfindq : find ⟨heap, m.packets.set i (some ⟨p.size, l⟩)⟩ o = some q₁ :=
      find_eq_some.2 hq₁
    simp only [addAtEnd, change, find_eq_some.2 hp, hcut, hfindp, hfindq, hcopy, hstart, hall,
      hdeallocate, hsize, List.set_set, Option.bind_eq_bind, Option.bind_some]
  · have hsize' := (congrArg PacketTags.size hview).symm.trans hsize
    have hl : l.view (heap.blocks.value l.data) = (p.view (m.heap.blocks.value p.data)).cut.tags :=
      congrArg PacketTags.tags hview₁
    rw [PacketTags.addAtEnd, ← hl, hsize']
    rfl

end TaggedPackets

end SeanetSim
