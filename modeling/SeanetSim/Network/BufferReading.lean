import SeanetSim.Network.PacketReading

/-!
# The buffer of a packet is read again

`Buffer::Deserialize` makes a buffer of zeros and puts the bytes around it that were there before.
-/

namespace SeanetSim

variable {rest : List (Option UInt8)} {buf : List UInt8} {size : UInt32}

def BufferAreas.content (b : BufferAreas) : List UInt8 :=
  b.dataStart ++ List.replicate b.zeroSize.toNat 0 ++ b.dataEnd

namespace Buffers

variable {m m' : Buffers}

theorem live_of_contents {i : ℕ} {c : List UInt8} (h : m.contents[i]? = some (some c)) :
    ∃ b, m.buffers[i]? = some (some b) := by
  rw [contents, SharedBlocks.views, List.getElem?_map] at h
  obtain ⟨o, ho, hview⟩ := Option.map_eq_some_iff.1 h
  cases o with
  | none => cases hview
  | some b => exact ⟨b, ho⟩

theorem length_contents (m : Buffers) : m.contents.length = m.buffers.length := by
  rw [contents, SharedBlocks.views, List.length_map]

/-- Bytes that fill the new ones. -/
theorem onList_all {fresh data : List UInt8} (h : fresh.length = data.length) :
    BufferWrite.onList fresh 0 [(0, .bytes data)] = data := by
  have hcopy := memcpy_append [] fresh [] data List.length_nil h
  rw [List.nil_append, List.append_nil, List.nil_append, List.append_nil] at hcopy
  exact hcopy

section Grow

variable {i : ℕ} {c data : List UInt8} {n : UInt32}

theorem getSize_eq (hm : Held m) {b : Buffer} (hb : m.find i = some b)
    (hc : m.contents[i]? = some (some c)) : b.getSize.toNat = c.length := by
  obtain ⟨l, hl, -, hsize⟩ := kept_copyData hm hb
  rw [hl] at hc
  cases hc
  exact hsize

theorem within_all (hdata : data.length = n.toNat) :
    BufferWrite.Within n [(0, .bytes data)] := by
  intro w hw
  cases List.mem_singleton.1 hw
  exact Nat.le_of_eq ((Nat.zero_add _).trans hdata)

/-- Data are put in front. -/
theorem addAtStart_all (memory : List UInt8) (hm : Held m) (hfew : Few m)
    (hc : m.contents[i]? = some (some c))
    (hdata : data.length = n.toNat) (hfit : c.length + n.toNat < 2 ^ 32) :
    ∃ m', (BufferOp.addAtStart i n memory [(0, .bytes data)]).exec m = some m' ∧ Held m' ∧
      m'.contents = m.contents.set i (some (data ++ c)) := by
  obtain ⟨b, hb⟩ := live_of_contents hc
  have hsize := getSize_eq hm (find_eq_some.2 hb) hc
  have hok : ¬ Overruns m (.addAtStart i n memory [(0, .bytes data)]) := by
    rintro ⟨b', hb', d, -, -, hover⟩
    rw [find_eq_some.2 hb] at hb'
    cases hb'
    omega
  obtain ⟨m', hexec, hm', c', fresh, hc', hfresh, hcontents⟩ :=
    addAtStart_held hm hfew hb (within_all hdata) hok
  rw [hc] at hc'
  cases hc'
  exact ⟨m', hexec, hm', by rw [hcontents, onList_all (hfresh.trans hdata.symm)]⟩

/-- Data are put behind. -/
theorem addAtEnd_all (memory : List UInt8) (hm : Held m) (hfew : Few m)
    (hc : m.contents[i]? = some (some c))
    (hdata : data.length = n.toNat) (hfit : c.length + n.toNat < 2 ^ 32)
    (hend : ∀ b, m.find i = some b → b.end_.toNat + n.toNat < 2 ^ 32) :
    ∃ m', (BufferOp.addAtEnd i n memory [(0, .bytes data)]).exec m = some m' ∧ Held m' ∧
      m'.contents = m.contents.set i (some (c ++ data)) := by
  obtain ⟨b, hb⟩ := live_of_contents hc
  have hsize := getSize_eq hm (find_eq_some.2 hb) hc
  have hok : ¬ Overruns m (.addAtEnd i n memory [(0, .bytes data)]) := by
    rintro ⟨b', hb', d, -, hover⟩
    have hlt := hend b' hb'
    rw [find_eq_some.2 hb] at hb'
    cases hb'
    split_ifs at hover
    · omega
    · omega
  obtain ⟨m', hexec, hm', c', fresh, hc', hfresh, hcontents⟩ :=
    addAtEnd_held hm hfew hb (within_all hdata) hok
  rw [hc] at hc'
  cases hc'
  exact ⟨m', hexec, hm', by rw [hcontents, onList_all (hfresh.trans hdata.symm)]⟩

end Grow

end Buffers

end SeanetSim
