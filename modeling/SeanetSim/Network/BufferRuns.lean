import SeanetSim.Lib.Run
import SeanetSim.Network.BufferGrowth

/-!
# Programs with buffers

Any number of buffers are created, copied, assigned, cut and made longer in any order.  What they
hold is what lists of bytes would hold, each one for itself (`PlainStep`), as long as no operation
overruns the 32-bit offsets.
-/

namespace SeanetSim

/-- The buffers of a program; none for one that has been destroyed. -/
structure Buffers where
  heap : BufferHeap
  buffers : List (Option Buffer)
  recommendedStart : UInt32

inductive BufferOp
  | create (dataSize : UInt32) (memory : List UInt8)
  | copy (o : ℕ)
  | assign (i o : ℕ)
  | createFragment (o : ℕ) (start length : UInt32)
  | addAtStart (i : ℕ) (start : UInt32) (memory : List UInt8) (ws : List (UInt32 × BufferWrite))
  | addAtEnd (i : ℕ) (end_ : UInt32) (memory : List UInt8) (ws : List (UInt32 × BufferWrite))
  | removeAtStart (i : ℕ) (start : UInt32)
  | removeAtEnd (i : ℕ) (end_ : UInt32)
  | destroy (i : ℕ)

namespace Buffers

def init : Buffers := ⟨.empty, [], 0⟩

/-- The buffer `i`, if there is one. -/
def find (m : Buffers) (i : ℕ) : Option Buffer := m.buffers[i]?.join

/-- What the buffers hold. -/
def contents (m : Buffers) : List (Option (List UInt8)) :=
  SharedBlocks.views (fun b : Buffer => some b.data) Buffer.view m.heap m.buffers

end Buffers

namespace BufferOp

/-- The buffer `i` has been created and not destroyed. -/
def Live (l : List (Option Buffer)) (i : ℕ) : Prop := ∃ b, l[i]? = some (some b)

instance (l : List (Option Buffer)) (i : ℕ) : Decidable (Live l i) :=
  match h : l[i]? with
  | some (some b) => .isTrue ⟨b, h⟩
  | some none => .isFalse fun ⟨b, hb⟩ => by simp [h] at hb
  | none => .isFalse fun ⟨b, hb⟩ => by simp [h] at hb

/-- The operation is about buffers that are there, and writes to the new bytes only. -/
def Valid (l : List (Option Buffer)) : BufferOp → Prop
  | create _ _ => True
  | copy o => Live l o
  | assign i o => Live l i ∧ Live l o
  | createFragment o _ _ => Live l o
  | addAtStart i start _ ws => Live l i ∧ BufferWrite.Within start ws
  | addAtEnd i end_ _ ws => Live l i ∧ BufferWrite.Within end_ ws
  | removeAtStart i _ => Live l i
  | removeAtEnd i _ => Live l i
  | destroy i => Live l i

instance (l : List (Option Buffer)) : (op : BufferOp) → Decidable (op.Valid l)
  | create _ _ => .isTrue trivial
  | copy o => inferInstanceAs (Decidable (Live l o))
  | assign i o => inferInstanceAs (Decidable (Live l i ∧ Live l o))
  | createFragment o _ _ => inferInstanceAs (Decidable (Live l o))
  | addAtStart i start _ ws =>
    inferInstanceAs (Decidable (Live l i ∧ BufferWrite.Within start ws))
  | addAtEnd i end_ _ ws => inferInstanceAs (Decidable (Live l i ∧ BufferWrite.Within end_ ws))
  | removeAtStart i _ => inferInstanceAs (Decidable (Live l i))
  | removeAtEnd i _ => inferInstanceAs (Decidable (Live l i))
  | destroy i => inferInstanceAs (Decidable (Live l i))

def exec (m : Buffers) : BufferOp → Option Buffers
  | create dataSize memory =>
    let r := Buffer.initialized m.heap m.recommendedStart dataSize memory
    some { m with heap := r.1, buffers := m.buffers ++ [some r.2] }
  | copy o => do
    let b ← m.find o
    let (heap, b) ← Buffer.copy m.heap b
    some { m with heap := heap, buffers := m.buffers ++ [some b] }
  | assign i o => do
    let b ← m.find i
    let (heap, recommendedStart, b) ← Buffer.assign m.heap m.recommendedStart b (← m.find o)
    some ⟨heap, m.buffers.set i (some b), recommendedStart⟩
  | createFragment o start length => do
    let b ← m.find o
    let (heap, b) ← Buffer.createFragment m.heap b start length
    some { m with heap := heap, buffers := m.buffers ++ [some b] }
  | addAtStart i start memory ws => do
    let b ← m.find i
    let (heap, b) ← Buffer.prepend m.heap b start memory ws
    some { m with heap := heap, buffers := m.buffers.set i (some b) }
  | addAtEnd i end_ memory ws => do
    let b ← m.find i
    let (heap, b) ← Buffer.append m.heap b end_ memory ws
    some { m with heap := heap, buffers := m.buffers.set i (some b) }
  | removeAtStart i start => do
    let b ← m.find i
    some { m with buffers := m.buffers.set i (some (b.removeAtStart start)) }
  | removeAtEnd i end_ => do
    let b ← m.find i
    some { m with buffers := m.buffers.set i (some (b.removeAtEnd end_)) }
  | destroy i => do
    let b ← m.find i
    let (heap, recommendedStart) ← Buffer.destroy m.heap m.recommendedStart b
    some ⟨heap, m.buffers.set i none, recommendedStart⟩

/-- What the operation does to lists of bytes, each one for itself.  New bytes are any, until they
are written. -/
def PlainStep (l : List (Option (List UInt8))) (op : BufferOp)
    (l' : List (Option (List UInt8))) : Prop :=
  match op with
  | create dataSize _ => l' = l ++ [some (List.replicate dataSize.toNat 0)]
  | copy o => ∃ c, l[o]? = some (some c) ∧ l' = l ++ [some c]
  | assign i o => ∃ c, l[o]? = some (some c) ∧ l' = l.set i (some c)
  | createFragment o start length => ∃ c, l[o]? = some (some c) ∧
    l' = l ++ [some ((c.drop start.toNat).take length.toNat)]
  | addAtStart i start _ ws => ∃ c fresh, l[i]? = some (some c) ∧ fresh.length = start.toNat ∧
    l' = l.set i (some (BufferWrite.onList fresh 0 ws ++ c))
  | addAtEnd i end_ _ ws => ∃ c fresh, l[i]? = some (some c) ∧ fresh.length = end_.toNat ∧
    l' = l.set i (some (c ++ BufferWrite.onList fresh 0 ws))
  | removeAtStart i start => ∃ c, l[i]? = some (some c) ∧
    l' = l.set i (some (c.drop start.toNat))
  | removeAtEnd i end_ => ∃ c, l[i]? = some (some c) ∧
    l' = l.set i (some (c.take (c.length - end_.toNat)))
  | destroy i => l' = l.set i none

end BufferOp

namespace Buffers

/-- A fragment that is not inside, or an offset that does not fit in 32 bits. -/
def Overruns (m : Buffers) : BufferOp → Prop
  | .create dataSize memory => 2 ^ 32 ≤
    (min (UInt32.ofNat (Buffer.room 0 memory).length) m.recommendedStart).toNat + dataSize.toNat
  | .createFragment o start length => ∃ b ∈ m.find o, b.getSize.toNat < start.toNat + length.toNat
  | .addAtStart i start _ _ => ∃ b ∈ m.find i, ∃ d ∈ m.heap.block b.data,
    ¬ Buffer.GrowsAtStart d b start ∧ 2 ^ 32 ≤ b.getSize.toNat + start.toNat
  | .addAtEnd i end_ _ _ => ∃ b ∈ m.find i, ∃ d ∈ m.heap.block b.data,
    2 ^ 32 ≤ (if Buffer.GrowsAtEnd d b end_ then b.end_ else b.getSize).toNat + end_.toNat
  | .removeAtStart i start => ∃ b ∈ m.find i, 2 ^ 32 ≤ b.start.toNat + start.toNat
  | .copy _ | .assign .. | .removeAtEnd .. | .destroy _ => False

instance (m : Buffers) : (op : BufferOp) → Decidable (Overruns m op)
  | .create dataSize memory => inferInstanceAs (Decidable (2 ^ 32 ≤
    (min (UInt32.ofNat (Buffer.room 0 memory).length) m.recommendedStart).toNat + dataSize.toNat))
  | .createFragment o start length => inferInstanceAs (Decidable
    (∃ b ∈ m.find o, b.getSize.toNat < start.toNat + length.toNat))
  | .addAtStart i start _ _ => inferInstanceAs (Decidable
    (∃ b ∈ m.find i, ∃ d ∈ m.heap.block b.data,
      ¬ Buffer.GrowsAtStart d b start ∧ 2 ^ 32 ≤ b.getSize.toNat + start.toNat))
  | .addAtEnd i end_ _ _ => inferInstanceAs (Decidable
    (∃ b ∈ m.find i, ∃ d ∈ m.heap.block b.data,
      2 ^ 32 ≤ (if Buffer.GrowsAtEnd d b end_ then b.end_ else b.getSize).toNat + end_.toNat))
  | .removeAtStart i start =>
    inferInstanceAs (Decidable (∃ b ∈ m.find i, 2 ^ 32 ≤ b.start.toNat + start.toNat))
  | .copy _ | .assign .. | .removeAtEnd .. | .destroy _ => .isFalse id

/-- No block has so many buffers that its count wraps. -/
def Few (m : Buffers) : Prop :=
  ∀ a, SharedBlocks.holders (fun b : Buffer => some b.data) m.buffers a < 2 ^ 32

def Step (m : Buffers) (op : BufferOp) (m' : Buffers) : Prop :=
  op.Valid m.buffers ∧ op.exec m = some m'

/-- What a program sees of its buffers. -/
structure Kept (m : Buffers) : Prop where
  /-- The content can be read. -/
  copyData : ∀ i b, m.find i = some b →
    ∃ l, m.contents[i]? = some (some l) ∧ Buffer.copyData m.heap b = some l ∧
      b.getSize.toNat = l.length
  /-- No operation uses memory that has been freed, or that is not in the block. -/
  answers : ∀ op : BufferOp, op.Valid m.buffers → ¬ Overruns m op → ∃ m', Step m op m'

/-- How the buffers lie in their blocks. -/
abbrev Held (m : Buffers) : Prop := SharedBlocks.Held (fun b : Buffer => some b.data)
  (fun (v : Option BufferData) z b => ∃ d, v = some d ∧ Buffer.Fits d z b) m.heap m.buffers

variable {m m' : Buffers} {i o : ℕ} {b : Buffer} {op : BufferOp}

theorem find_eq_some : m.find i = some b ↔ m.buffers[i]? = some (some b) := Option.join_eq_some_iff

theorem held_init : Held init := SharedBlocks.held_empty

/-- `op` has a result, in which each buffer holds what its list would. -/
def Does (m : Buffers) (op : BufferOp) : Prop :=
  ∃ m', op.exec m = some m' ∧ Held m' ∧ op.PlainStep m.contents m'.contents

theorem block_of_held (h : Held m) (hb : m.buffers[i]? = some (some b)) : ∃ c d z,
    m.heap.block b.data = some ⟨c, d⟩ ∧ Buffer.Fits d z b ∧
      (∀ (j : ℕ) (k : Buffer), m.buffers[j]? = some (some k) → k.data = b.data →
        Buffer.Fits d z k) ∧
      m.contents[i]? = some (some (Buffer.content d b)) := by
  obtain ⟨c, hc⟩ := Option.ne_none_iff_exists'.1 (h.there i b b.data hb rfl)
  obtain ⟨z, hz⟩ := h.exists_note hc
  have hfits (j : ℕ) (k : Buffer) (hk : m.buffers[j]? = some (some k)) (hkb : k.data = b.data) :
      Buffer.Fits c.value z k := by
    obtain ⟨d, hd, hfits⟩ := hz j k hk (congrArg some hkb)
    cases hd
    exact hfits
  refine ⟨c.count, c.value, z, hc, hfits i b hb rfl, hfits, ?_⟩
  rw [contents, SharedBlocks.views, List.getElem?_map, hb]
  change some (some (Buffer.view (m.heap.value (some b.data)) b)) = _
  rw [SharedBlocks.value_some hc]
  rfl

theorem kept_copyData (h : Held m) (hb : m.find i = some b) :
    ∃ l, m.contents[i]? = some (some l) ∧ Buffer.copyData m.heap b = some l ∧
      b.getSize.toNat = l.length := by
  obtain ⟨c, d, z, hd, hfits, -, hcontent⟩ := block_of_held h (find_eq_some.1 hb)
  exact ⟨_, hcontent, hfits.copyData_eq hd, hfits.length_content.symm⟩

theorem create_held (h : Held m) {dataSize : UInt32} {memory : List UInt8}
    (hok : ¬ Overruns m (.create dataSize memory)) : Does m (.create dataSize memory) := by
  have hfit := Nat.lt_of_not_le hok
  obtain ⟨start, hstart⟩ : ∃ start, min (UInt32.ofNat (Buffer.room 0 memory).length)
      m.recommendedStart = start := ⟨_, rfl⟩
  rw [hstart] at hfit
  have hlt := Buffer.length_room_lt 0 memory
  have hle : start.toNat ≤ (Buffer.room 0 memory).length := by
    have := UInt32.toNat_min (UInt32.ofNat (Buffer.room 0 memory).length) m.recommendedStart
    rw [hstart, UInt32.toNat_ofNat_of_lt' hlt] at this
    omega
  have hend : (start + dataSize).toNat = start.toNat + dataSize.toNat := by
    rw [UInt32.toNat_add, Nat.mod_eq_of_lt hfit]
  have hfits : Buffer.Fits ⟨start, start + dataSize, Buffer.room 0 memory⟩ dataSize.toNat
      ⟨m.heap.top, start, start, start + dataSize, start, start + dataSize⟩ := by
    refine ⟨Nat.le_refl _, ?_, Nat.le_refl _, Nat.le_refl _, ?_, ?_, ?_, hlt⟩
    all_goals dsimp only
    all_goals omega
  have hcontent : Buffer.content ⟨start, start + dataSize, Buffer.room 0 memory⟩
      ⟨m.heap.top, start, start, start + dataSize, start, start + dataSize⟩ =
        List.replicate dataSize.toNat 0 := by
    simp [Buffer.content, Buffer.parts, hend, slice_zero]
  obtain ⟨hheld, hviews⟩ := h.push_alloc Buffer.view rfl ⟨_, rfl, hfits⟩
  refine ⟨_, rfl, by simpa only [Buffer.initialized, hstart] using hheld, ?_⟩
  simp only [BufferOp.PlainStep, contents, Buffer.initialized, hstart]
  rw [hviews, ← hcontent]
  rfl

theorem copy_held (h : Held m) (hb : m.buffers[o]? = some (some b)) : Does m (.copy o) := by
  obtain ⟨c, d, z, hd, -, -, hcontent⟩ := block_of_held h hb
  have hvalue : m.heap.value (some b.data) = some d := SharedBlocks.value_some hd
  obtain ⟨heap, hshare, hheld, hviews⟩ := h.push_share Buffer.view hb
    (g := { b with maxZeroAreaStart := b.zeroAreaStart }) rfl fun z hz => by
      obtain ⟨d, hd, hfits⟩ := hz
      exact ⟨d, hd, hfits.start_le, hfits.zeroAreaStart_le, hfits.zeroAreaEnd_le,
        hfits.dirtyStart_le, hfits.zero_le, hfits.le_dirtyEnd, hfits.le_length, hfits.length_lt⟩
  refine ⟨⟨heap, m.buffers ++ [some { b with maxZeroAreaStart := b.zeroAreaStart }],
    m.recommendedStart⟩, ?_, hheld, _, hcontent, ?_⟩
  · rw [BufferOp.exec, find_eq_some.2 hb, Option.bind_eq_bind, Option.bind_some, Buffer.copy,
      hshare]
    rfl
  · rw [contents, hviews, hvalue]
    rfl

theorem createFragment_held (h : Held m) (hb : m.buffers[o]? = some (some b))
    {start length : UInt32} (hok : ¬ Overruns m (.createFragment o start length)) :
    Does m (.createFragment o start length) := by
  obtain ⟨c, d, z, hd, hfits, -, hcontent⟩ := block_of_held h hb
  have hvalue : m.heap.value (some b.data) = some d := SharedBlocks.value_some hd
  have hle : start.toNat + length.toNat ≤ b.getSize.toNat :=
    Nat.le_of_not_lt fun hlt => hok ⟨b, find_eq_some.2 hb, hlt⟩
  obtain ⟨tmp, htmp⟩ : ∃ tmp : Buffer, { b with maxZeroAreaStart := b.zeroAreaStart } = tmp :=
    ⟨_, rfl⟩
  have hcut (z : ℕ) (hfits : Buffer.Fits d z b) :
      Buffer.Fits d z ((tmp.removeAtStart start).removeAtEnd (b.getSize - (start + length))) ∧
        Buffer.content d ((tmp.removeAtStart start).removeAtEnd
          (b.getSize - (start + length))) =
            ((Buffer.content d b).drop start.toNat).take length.toNat := by
    have hsize := hfits.toNat_getSize
    have hlt := b.end_.toNat_lt
    have hbounds := (hfits.start_le.trans hfits.zeroAreaStart_le).trans hfits.zeroAreaEnd_le
    have htmpfits : Buffer.Fits d z tmp := htmp ▸ ⟨hfits.start_le, hfits.zeroAreaStart_le,
      hfits.zeroAreaEnd_le, hfits.dirtyStart_le, hfits.zero_le, hfits.le_dirtyEnd,
      hfits.le_length, hfits.length_lt⟩
    have hstart : tmp.start.toNat + start.toNat < 2 ^ 32 := by
      rw [← htmp]
      dsimp only
      omega
    obtain ⟨hfits', hdrop⟩ := htmpfits.removeAtStart hstart
    obtain ⟨hfits'', htake⟩ := hfits'.removeAtEnd (b.getSize - (start + length))
    have hrest : (b.getSize - (start + length)).toNat =
        b.getSize.toNat - (start.toNat + length.toNat) := by
      have hsum : (start + length).toNat = start.toNat + length.toNat := by
        rw [UInt32.toNat_add, Nat.mod_eq_of_lt (by omega)]
      rw [UInt32.toNat_sub_of_le _ _ (UInt32.le_iff_toNat_le.2 (by omega)), hsum]
    have hsame : Buffer.content d tmp = Buffer.content d b := by
      rw [← htmp]
      rfl
    have hsize' : (tmp.removeAtStart start).getSize.toNat = b.getSize.toNat - start.toNat := by
      rw [← hfits'.length_content, hdrop, List.length_drop, hsame, hfits.length_content]
    refine ⟨hfits'', ?_⟩
    rw [htake, hdrop, hsame, hsize', hrest]
    congr 1
    omega
  have hblock : ((tmp.removeAtStart start).removeAtEnd (b.getSize - (start + length))).data =
      b.data := by
    rw [← htmp]
    unfold Buffer.removeAtEnd Buffer.removeAtStart Buffer.raiseMax
    dsimp only
    split_ifs <;> rfl
  obtain ⟨heap, hshare, hheld, hviews⟩ := h.push_share Buffer.view hb
    (g := (tmp.removeAtStart start).removeAtEnd (b.getSize - (start + length)))
    (congrArg some hblock) fun z hz => by
      rw [hvalue] at hz ⊢
      obtain ⟨d', hd', hfits⟩ := hz
      cases hd'
      exact ⟨d, rfl, (hcut z hfits).1⟩
  refine ⟨⟨heap, m.buffers ++
    [some ((tmp.removeAtStart start).removeAtEnd (b.getSize - (start + length)))],
    m.recommendedStart⟩, ?_, hheld, _, hcontent, ?_⟩
  · rw [BufferOp.exec, find_eq_some.2 hb, Option.bind_eq_bind, Option.bind_some,
      Buffer.createFragment, Buffer.copy, hshare, ← htmp]
    rfl
  · rw [contents, hviews, hvalue, ← (hcut z hfits).2]
    rfl

theorem assign_held (h : Held m) (hfew : Few m) {b' : Buffer}
    (hb : m.buffers[i]? = some (some b)) (hb' : m.buffers[o]? = some (some b')) :
    Does m (.assign i o) := by
  obtain ⟨c, d, z, hd, -, -, hcontent⟩ := block_of_held h hb'
  have hvalue : m.heap.value (some b'.data) = some d := SharedBlocks.value_some hd
  by_cases hsame : b.data = b'.data
  · obtain ⟨hheld, hviews⟩ := h.keep Buffer.view hb (k := b') (congrArg some hsame.symm)
      fun z hz => hz o b' hb' (congrArg some hsame.symm)
    refine ⟨⟨m.heap, m.buffers.set i (some b'), max m.recommendedStart b.maxZeroAreaStart⟩, ?_,
      hheld, _, hcontent, ?_⟩
    · rw [BufferOp.exec, find_eq_some.2 hb, find_eq_some.2 hb', Option.bind_eq_bind,
        Option.bind_some, Option.bind_eq_bind, Option.bind_some, Buffer.assign,
        if_neg (not_not_intro hsame)]
      rfl
    · rw [contents, hviews, hsame, hvalue]
      rfl
  · have hio : o ≠ i := by
      rintro rfl
      rw [hb] at hb'
      cases hb'
      exact hsame rfl
    obtain ⟨h₁, h₂, hrelease, hshare, hheld, hviews⟩ :=
      h.reassign Buffer.view hfew hb hb' hio (l := b') rfl fun _ hz => hz
    refine ⟨⟨h₂, m.buffers.set i (some b'), max m.recommendedStart b.maxZeroAreaStart⟩, ?_,
      hheld, _, hcontent, ?_⟩
    · rw [BufferOp.exec, find_eq_some.2 hb, find_eq_some.2 hb', Option.bind_eq_bind,
        Option.bind_some, Option.bind_eq_bind, Option.bind_some, Buffer.assign, if_pos hsame,
        hrelease, Option.bind_eq_bind, Option.bind_some, hshare]
      rfl
    · rw [contents, hviews, hvalue]
      rfl

theorem removeAtStart_held (h : Held m) (hb : m.buffers[i]? = some (some b)) {start : UInt32}
    (hok : ¬ Overruns m (.removeAtStart i start)) : Does m (.removeAtStart i start) := by
  obtain ⟨c, d, z, hd, hfits, hall, hcontent⟩ := block_of_held h hb
  have hvalue : m.heap.value (some b.data) = some d := SharedBlocks.value_some hd
  have hfit : b.start.toNat + start.toNat < 2 ^ 32 :=
    Nat.lt_of_not_le fun hle => hok ⟨b, find_eq_some.2 hb, hle⟩
  have hblock : (b.removeAtStart start).data = b.data := by
    unfold Buffer.removeAtStart Buffer.raiseMax
    dsimp only
    split_ifs <;> rfl
  obtain ⟨hheld, hviews⟩ := h.keep Buffer.view hb (k := b.removeAtStart start)
    (congrArg some hblock) fun z hz => by
      have hz := hz i b hb rfl
      rw [hvalue] at hz ⊢
      obtain ⟨d', hd', hfits⟩ := hz
      cases hd'
      exact ⟨d, rfl, (hfits.removeAtStart hfit).1⟩
  refine ⟨{ m with buffers := m.buffers.set i (some (b.removeAtStart start)) }, ?_, hheld, _,
    hcontent, ?_⟩
  · rw [BufferOp.exec, find_eq_some.2 hb]
    rfl
  · rw [contents, hviews, hvalue, ← (hfits.removeAtStart hfit).2]
    rfl

theorem removeAtEnd_held (h : Held m) (hb : m.buffers[i]? = some (some b)) (end_ : UInt32) :
    Does m (.removeAtEnd i end_) := by
  obtain ⟨c, d, z, hd, hfits, hall, hcontent⟩ := block_of_held h hb
  have hvalue : m.heap.value (some b.data) = some d := SharedBlocks.value_some hd
  have hblock : (b.removeAtEnd end_).data = b.data := by
    unfold Buffer.removeAtEnd Buffer.raiseMax
    dsimp only
    split_ifs <;> rfl
  obtain ⟨hheld, hviews⟩ := h.keep Buffer.view hb (k := b.removeAtEnd end_)
    (congrArg some hblock) fun z hz => by
      have hz := hz i b hb rfl
      rw [hvalue] at hz ⊢
      obtain ⟨d', hd', hfits⟩ := hz
      cases hd'
      exact ⟨d, rfl, (hfits.removeAtEnd end_).1⟩
  refine ⟨{ m with buffers := m.buffers.set i (some (b.removeAtEnd end_)) }, ?_, hheld, _,
    hcontent, ?_⟩
  · rw [BufferOp.exec, find_eq_some.2 hb]
    rfl
  · rw [contents, hviews, hvalue, hfits.length_content, ← (hfits.removeAtEnd end_).2]
    rfl

theorem destroy_held (h : Held m) (hfew : Few m) (hb : m.buffers[i]? = some (some b)) :
    Does m (.destroy i) := by
  obtain ⟨heap, hrelease, -, hheld, hviews, -⟩ := h.release Buffer.view hfew hb
  refine ⟨⟨heap, m.buffers.set i none, max m.recommendedStart b.maxZeroAreaStart⟩, ?_, hheld,
    hviews⟩
  rw [BufferOp.exec, find_eq_some.2 hb, Option.bind_eq_bind, Option.bind_some, Buffer.destroy,
    hrelease]
  rfl

/-- A buffer grows: in place or not, the others show what they have shown. -/
theorem grow_held (h : Held m) (hfew : Few m) (hb : m.buffers[i]? = some (some b)) {c : UInt32}
    {d : BufferData} {z : ℕ} (hd : m.heap.block b.data = some ⟨c, d⟩)
    (hz : ∀ (j : ℕ) (k : Buffer), m.buffers[j]? = some (some k) → k.data = b.data →
      Buffer.Fits d z k) {r : Option (BufferHeap × Buffer)} {l : List UInt8}
    (hr : Buffer.GrowsInPlace m.heap b c d z r l ∨ Buffer.Moves m.heap b r l) :
    ∃ heap b', r = some (heap, b') ∧
      Held { m with heap := heap, buffers := m.buffers.set i (some b') } ∧
      contents { m with heap := heap, buffers := m.buffers.set i (some b') } =
        m.contents.set i (some l) := by
  rcases hr with
      ⟨d', b', z', hblock, rfl, hfits', rfl, hothers⟩ | ⟨d', b', z', hblock, rfl, hfits', rfl⟩
  · obtain ⟨hheld, hviews⟩ := h.write Buffer.view hb rfl (k := b') (congrArg some hblock) hd
      (fun j k hk hkb => ⟨d, rfl, hz j k hk (Option.some_inj.1 hkb)⟩) ⟨d', rfl, hfits'⟩
      fun hmany k hk => by
        obtain ⟨d₀, hd₀, hk⟩ := hk
        cases hd₀
        have hone : 1 < c := by
          have hcount := h.count_toNat (hfew b.data) hd
          have hpos := (h.count b.data _ hd).2
          rw [UInt32.lt_iff_toNat_lt, UInt32.toNat_one]
          dsimp only at hcount
          omega
        obtain ⟨hkfits, hkcontent⟩ := hothers hone k hk
        exact ⟨⟨d', rfl, hkfits⟩, hkcontent⟩
    exact ⟨_, b', rfl, hheld, hviews⟩
  · obtain ⟨heap, hrelease, hheld, hviews⟩ :=
      h.move Buffer.view hfew hb (k := b') (congrArg some hblock) ⟨d', rfl, hfits'⟩
    exact ⟨heap, b', by rw [hrelease]; rfl, hheld, hviews⟩

theorem addAtStart_held (h : Held m) (hfew : Few m) (hb : m.buffers[i]? = some (some b))
    {start : UInt32} {memory : List UInt8} {ws : List (UInt32 × BufferWrite)}
    (hws : BufferWrite.Within start ws) (hok : ¬ Overruns m (.addAtStart i start memory ws)) :
    Does m (.addAtStart i start memory ws) := by
  obtain ⟨c, d, z, hd, hfits, hall, hcontent⟩ := block_of_held h hb
  have hgrow : ∃ fresh : List UInt8, fresh.length = start.toNat ∧
      (Buffer.GrowsInPlace m.heap b c d z (Buffer.prepend m.heap b start memory ws)
        (BufferWrite.onList fresh 0 ws ++ Buffer.content d b) ∨
      Buffer.Moves m.heap b (Buffer.prepend m.heap b start memory ws)
        (BufferWrite.onList fresh 0 ws ++ Buffer.content d b)) := by
    by_cases hg : Buffer.GrowsAtStart ⟨c, d⟩ b start
    · obtain ⟨fresh, hlength, hr⟩ := Buffer.prepend_inPlace hd hfits hg hws
      exact ⟨fresh, hlength, .inl hr⟩
    · have hfit : b.getSize.toNat + start.toNat < 2 ^ 32 :=
        Nat.lt_of_not_le fun hle => hok ⟨b, find_eq_some.2 hb, _, hd, hg, hle⟩
      obtain ⟨fresh, hlength, hr⟩ :=
        Buffer.prepend_moved hd (h.fresh _ (Nat.le_refl _)) hfits hg hws hfit
      exact ⟨fresh, hlength, .inr hr⟩
  obtain ⟨fresh, hlength, hr⟩ := hgrow
  obtain ⟨heap, b', hresult, hheld, hcontents⟩ := grow_held h hfew hb hd hall hr
  refine ⟨_, ?_, hheld, _, fresh, hcontent, hlength, hcontents⟩
  rw [BufferOp.exec, find_eq_some.2 hb, Option.bind_eq_bind, Option.bind_some, hresult]
  rfl

theorem addAtEnd_held (h : Held m) (hfew : Few m) (hb : m.buffers[i]? = some (some b))
    {end_ : UInt32} {memory : List UInt8} {ws : List (UInt32 × BufferWrite)}
    (hws : BufferWrite.Within end_ ws) (hok : ¬ Overruns m (.addAtEnd i end_ memory ws)) :
    Does m (.addAtEnd i end_ memory ws) := by
  obtain ⟨c, d, z, hd, hfits, hall, hcontent⟩ := block_of_held h hb
  have hgrow : ∃ fresh : List UInt8, fresh.length = end_.toNat ∧
      (Buffer.GrowsInPlace m.heap b c d z (Buffer.append m.heap b end_ memory ws)
        (Buffer.content d b ++ BufferWrite.onList fresh 0 ws) ∨
      Buffer.Moves m.heap b (Buffer.append m.heap b end_ memory ws)
        (Buffer.content d b ++ BufferWrite.onList fresh 0 ws)) := by
    have hfit := Nat.lt_of_not_le fun hle => hok ⟨b, find_eq_some.2 hb, _, hd, hle⟩
    by_cases hg : Buffer.GrowsAtEnd ⟨c, d⟩ b end_
    · rw [if_pos hg] at hfit
      obtain ⟨fresh, hlength, hr⟩ := Buffer.append_inPlace hd hfits hg hws hfit
      exact ⟨fresh, hlength, .inl hr⟩
    · rw [if_neg hg] at hfit
      obtain ⟨fresh, hlength, hr⟩ :=
        Buffer.append_moved hd (h.fresh _ (Nat.le_refl _)) hfits hg hws hfit
      exact ⟨fresh, hlength, .inr hr⟩
  obtain ⟨fresh, hlength, hr⟩ := hgrow
  obtain ⟨heap, b', hresult, hheld, hcontents⟩ := grow_held h hfew hb hd hall hr
  refine ⟨_, ?_, hheld, _, fresh, hcontent, hlength, hcontents⟩
  rw [BufferOp.exec, find_eq_some.2 hb, Option.bind_eq_bind, Option.bind_some, hresult]
  rfl

/-- Every operation on buffers that lie well in their blocks. -/
theorem exec_held (h : Held m) (hfew : Few m) (hvalid : op.Valid m.buffers)
    (hok : ¬ Overruns m op) : Does m op := by
  cases op with
  | create dataSize memory => exact create_held h hok
  | copy o =>
    obtain ⟨b, hb⟩ := hvalid
    exact copy_held h hb
  | assign i o =>
    obtain ⟨⟨b, hb⟩, b', hb'⟩ := hvalid
    exact assign_held h hfew hb hb'
  | createFragment o start length =>
    obtain ⟨b, hb⟩ := hvalid
    exact createFragment_held h hb hok
  | addAtStart i start memory ws =>
    obtain ⟨⟨b, hb⟩, hws⟩ := hvalid
    exact addAtStart_held h hfew hb hws hok
  | addAtEnd i end_ memory ws =>
    obtain ⟨⟨b, hb⟩, hws⟩ := hvalid
    exact addAtEnd_held h hfew hb hws hok
  | removeAtStart i start =>
    obtain ⟨b, hb⟩ := hvalid
    exact removeAtStart_held h hb hok
  | removeAtEnd i end_ =>
    obtain ⟨b, hb⟩ := hvalid
    exact removeAtEnd_held h hb end_
  | destroy i =>
    obtain ⟨b, hb⟩ := hvalid
    exact destroy_held h hfew hb

theorem kept_of_held (h : Held m) (hfew : Few m) : Kept m where
  copyData := fun i b hb => kept_copyData h hb
  answers := fun op hvalid hok => by
    obtain ⟨m', hexec, -, -⟩ := exec_held h hfew hvalid hok
    exact ⟨m', hvalid, hexec⟩

theorem few_of_length (hfew : m.buffers.length < 2 ^ 32) : Few m :=
  fun _ => Nat.lt_of_le_of_lt List.countP_le_length hfew

/-- The step, if the buffers are there and no freed memory is used. -/
def next? (m : Buffers) (op : BufferOp) : Option Buffers :=
  if op.Valid m.buffers then op.exec m else none

theorem step_of_next? (h : m.next? op = some m') : Step m op m' := by
  unfold next? at h
  split at h
  · rename_i hvalid
    exact ⟨hvalid, h⟩
  · exact absurd h (Option.some_ne_none _).symm

/-- What the buffers hold in a run is what lists of bytes hold in a run of theirs. -/
def Plain (trace : List (Buffers × BufferOp)) (m : Buffers) : Prop :=
  Run BufferOp.PlainStep [] (trace.map fun p => (p.1.contents, p.2)) m.contents

/-- Each buffer holds what its list of bytes would, and its content can be read, if no operation
overruns the offsets. -/
theorem plain_of_run {trace : List (Buffers × BufferOp)} (h : Run Step init trace m)
    (hok : ∀ p ∈ trace, ¬ Overruns p.1 p.2) (hfew : ∀ p ∈ trace, Few p.1) (hlast : Few m) :
    Plain trace m ∧ (∀ p ∈ trace, Kept p.1) ∧ Kept m := by
  have hstep (m : Buffers) (op : BufferOp) (m' : Buffers) (hm : Held m)
      (hp : ¬ Overruns m op ∧ Few m) (hst : Step m op m') :
      Held m' ∧ op.PlainStep m.contents m'.contents := by
    obtain ⟨m'', hexec, hheld, hplain⟩ := exec_held hm hp.2 hst.1 hp.1
    rw [hst.2] at hexec
    cases hexec
    exact ⟨hheld, hplain⟩
  have hall (p) (hp : p ∈ trace) : ¬ Overruns p.1 p.2 ∧ Few p.1 := ⟨hok p hp, hfew p hp⟩
  obtain ⟨hheld, hm⟩ := h.invariant_along (I := Held) held_init
    (fun m op m' hm hp hst => (hstep m op m' hm hp hst).1) hall
  exact ⟨h.map_along (f := contents) (I := Held) held_init hstep hall,
    fun p hp => kept_of_held (hheld p hp) (hfew p hp), kept_of_held hm hlast⟩

/-- Two buffers share a block, in which both grow; one is cut into its zero area. -/
theorem plain_of_run_shared : ∃ (trace : List (Buffers × BufferOp)) (m : Buffers),
    Run Step init trace m ∧
      m.contents = [some [1, 2, 0, 0, 0, 9], some [3, 0, 0, 0], some [0, 0]] ∧
        Plain trace m ∧ (∀ p ∈ trace, Kept p.1) ∧ Kept m := by
  have hany : (Run.runOf next? init [.create 3 [], .addAtStart 0 2 [] [(0, .bytes [1, 2])],
      .copy 0, .addAtEnd 0 1 [] [(0, .u8 9)], .removeAtStart 1 2, .addAtStart 1 1 [] [(0, .u8 3)],
      .createFragment 0 2 3, .removeAtEnd 2 1]).any (fun r => decide
        (r.2.contents = [some [1, 2, 0, 0, 0, 9], some [3, 0, 0, 0], some [0, 0]] ∧
          (∀ p ∈ r.1, ¬ Overruns p.1 p.2) ∧ (∀ p ∈ r.1, p.1.buffers.length < 2 ^ 32) ∧
            r.2.buffers.length < 2 ^ 32)) = true := by decide +kernel
  obtain ⟨⟨trace, m⟩, hrun, hr⟩ := (Option.any_eq_true _ _).1 hany
  obtain ⟨hcontents, hok, hfew, hlast⟩ := of_decide_eq_true hr
  have hrun' := Run.of_runOf (fun _ _ _ => step_of_next?) hrun
  exact ⟨trace, m, hrun', hcontents, plain_of_run hrun' hok
    (fun p hp => few_of_length (hfew p hp)) (few_of_length hlast)⟩

/-- More bytes are removed than there are, and one that has been removed before is back. -/
theorem not_plain_removed :
    ¬ ∀ (trace : List (Buffers × BufferOp)) (m : Buffers), Run Step init trace m →
      Plain trace m := by
  intro hall
  have hany : (Run.runOf next? init [.create 0 [], .addAtStart 0 2 [] [(0, .bytes [7, 8])],
      .removeAtStart 0 1]).any (fun r => decide (r.2.contents = [some [8]] ∧
        (r.2.next? (.removeAtStart 0 4294967295)).any fun m => m.contents = [some [7, 8]])) =
          true := by decide +kernel
  obtain ⟨⟨trace, m⟩, hrun, hr⟩ := (Option.any_eq_true _ _).1 hany
  obtain ⟨hbefore, hafter⟩ := of_decide_eq_true hr
  obtain ⟨m', hm', hafter⟩ := (Option.any_eq_true _ _).1 hafter
  have hrun' := (Run.of_runOf (fun _ _ _ => step_of_next?) hrun).snoc (step_of_next? hm')
  have hplain := hall _ _ hrun'
  rw [Plain, List.map_append] at hplain
  obtain ⟨c, hc, hset⟩ := hplain.last
  rw [hbefore] at hc hset
  rw [of_decide_eq_true hafter] at hset
  cases hc
  exact absurd hset (by decide)

end Buffers

end SeanetSim
