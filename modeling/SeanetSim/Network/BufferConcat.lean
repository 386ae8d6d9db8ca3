import SeanetSim.Network.BufferCopying
import SeanetSim.Network.BufferReading

/-!
# One buffer behind another

`AddAtEnd` with a buffer merges zero areas that meet, and otherwise makes a copy without zero area
that has room for the bytes.
-/

namespace SeanetSim

/-- The bytes at a place in the block of a buffer. -/
def Buffer.read (h : BufferHeap) (b : Buffer) (off n : UInt32) : Option (List UInt8) := do
  let d ← h.block b.data
  readAt d.value.data off.toNat n.toNat

namespace Buffers

/-- `CreateFullCopy`, as the last buffer: without zero area, whose bytes are written. -/
def createFullCopy (m : Buffers) (i : ℕ) (memory : ℕ → List UInt8) : Option Buffers := do
  let b ← m.find i
  let zeroes := b.zeroAreaEnd - b.zeroAreaStart
  if zeroes ≠ 0 then
    let tmp := m.buffers.length
    let m ← (BufferOp.create 0 (memory 0)).exec m
    let m ← (BufferOp.addAtStart tmp zeroes (memory 1)
      [(0, .bytes (List.replicate zeroes.toNat 0))]).exec m
    let dataStart := b.zeroAreaStart - b.start
    let m ← (BufferOp.addAtStart tmp dataStart (memory 2)
      [(0, .bytes (← b.read m.heap b.start dataStart))]).exec m
    let dataEnd := b.end_ - b.zeroAreaEnd
    (BufferOp.addAtEnd tmp dataEnd (memory 3)
      [(0, .bytes (← b.read m.heap b.zeroAreaStart dataEnd))]).exec m
  else (BufferOp.copy i).exec m

/-- `*this = CreateFullCopy ()`, after which the copy is gone. -/
def assignFullCopy (m : Buffers) (i : ℕ) (memory : ℕ → List UInt8) : Option Buffers := do
  let tmp := m.buffers.length
  let m ← m.createFullCopy i memory
  let m ← (BufferOp.assign i tmp).exec m
  let m ← (BufferOp.destroy tmp).exec m
  some { m with buffers := m.buffers.dropLast }

/-- `Write` from so many bytes before `End` on. -/
def writeRange (m : Buffers) (i : ℕ) (n : UInt32) (start end_ : Buffer.Iterator) :
    Option Buffers := do
  let b ← m.find i
  let (heap, _) ← (b.atEnd.prev n).writeRange m.heap start end_
  some { m with heap := heap }

/-- The zero areas of the two buffers meet. -/
def Merges (d : Counted BufferData) (b k : Buffer) : Prop :=
  d.count = 1 ∧ b.end_ = b.zeroAreaEnd ∧ b.end_ = d.value.dirtyEnd ∧ k.start = k.zeroAreaStart ∧
    0 < k.zeroAreaEnd - k.zeroAreaStart

instance (d : Counted BufferData) (b k : Buffer) : Decidable (Merges d b k) := by
  unfold Merges
  infer_instance

/-- `AddAtEnd` with a buffer. -/
def addAtEndBuffer (m : Buffers) (i o : ℕ) (memory : ℕ → List UInt8) : Option Buffers := do
  let b ← m.find i
  let k ← m.find o
  let d ← m.heap.block b.data
  if Merges d b k then
    let zeroSize := k.zeroAreaEnd - k.zeroAreaStart
    let zeroAreaEnd := b.zeroAreaEnd + zeroSize
    let b := { b with zeroAreaEnd := zeroAreaEnd, end_ := zeroAreaEnd }
    let heap := m.heap.write b.data { d.value with dirtyEnd := zeroAreaEnd }
    let endData := k.end_ - k.zeroAreaEnd
    let m ← (BufferOp.addAtEnd i endData (memory 0) []).exec
      { m with heap := heap, buffers := m.buffers.set i (some b) }
    m.writeRange i endData (k.atEnd.prev endData) k.atEnd
  else
    let m ← m.assignFullCopy i memory
    let m ← (BufferOp.addAtEnd i k.getSize (memory 4) []).exec m
    m.writeRange i k.getSize k.begin_ k.atEnd

end Buffers

/-- An operation on buffers, or one buffer is put behind another. -/
inductive BufferCall
  | single (op : BufferOp)
  | addAtEndBuffer (i o : ℕ) (memory : ℕ → List UInt8)

namespace BufferCall

open BufferOp (Live)

def Valid (l : List (Option Buffer)) : BufferCall → Prop
  | single op => op.Valid l
  | addAtEndBuffer i o _ => i ≠ o ∧ Live l i ∧ Live l o

instance (l : List (Option Buffer)) : (call : BufferCall) → Decidable (call.Valid l)
  | single op => inferInstanceAs (Decidable (op.Valid l))
  | addAtEndBuffer i o _ => inferInstanceAs (Decidable (i ≠ o ∧ Live l i ∧ Live l o))

def exec (m : Buffers) : BufferCall → Option Buffers
  | single op => op.exec m
  | addAtEndBuffer i o memory => m.addAtEndBuffer i o memory

/-- What the call does to lists of bytes, each one for itself. -/
def PlainStep (l : List (Option (List UInt8))) (call : BufferCall)
    (l' : List (Option (List UInt8))) : Prop :=
  match call with
  | single op => op.PlainStep l l'
  | addAtEndBuffer i o _ => ∃ c c', l[i]? = some (some c) ∧ l[o]? = some (some c') ∧
    l' = l.set i (some (c ++ c'))

/-- An offset does not fit in 32 bits. -/
def Overruns (m : Buffers) : BufferCall → Prop
  | single op => Buffers.Overruns m op
  | addAtEndBuffer i o memory => ∃ b ∈ m.find i, ∃ k ∈ m.find o,
    2 ^ 32 ≤ b.end_.toNat + k.getSize.toNat ∨
      2 ^ 32 ≤ (min (UInt32.ofNat (Buffer.room 0 (memory 0)).length) m.recommendedStart).toNat +
        b.getSize.toNat + k.getSize.toNat

instance (m : Buffers) : (call : BufferCall) → Decidable (Overruns m call)
  | single op => inferInstanceAs (Decidable (Buffers.Overruns m op))
  | addAtEndBuffer i o memory => inferInstanceAs (Decidable (∃ b ∈ m.find i, ∃ k ∈ m.find o,
    2 ^ 32 ≤ b.end_.toNat + k.getSize.toNat ∨
      2 ^ 32 ≤ (min (UInt32.ofNat (Buffer.room 0 (memory 0)).length) m.recommendedStart).toNat +
        b.getSize.toNat + k.getSize.toNat))

/-- Behind merged zero areas there is nothing to copy, and a buffer without zero area does not grow
in the block that is read. -/
def Aligned (m : Buffers) : BufferCall → Prop
  | single _ => True
  | addAtEndBuffer i o _ => ∀ b ∈ m.find i, ∀ k ∈ m.find o, ∀ d ∈ m.heap.block b.data,
    if Buffers.Merges d b k then k.zeroAreaEnd = k.end_
    else ¬ (b.zeroAreaStart = b.zeroAreaEnd ∧ b.data = k.data ∧ Buffer.GrowsAtEnd d b k.getSize)

instance (m : Buffers) : (call : BufferCall) → Decidable (Aligned m call)
  | single _ => .isTrue trivial
  | addAtEndBuffer i o _ => inferInstanceAs (Decidable
    (∀ b ∈ m.find i, ∀ k ∈ m.find o, ∀ d ∈ m.heap.block b.data,
      if Buffers.Merges d b k then k.zeroAreaEnd = k.end_
      else ¬ (b.zeroAreaStart = b.zeroAreaEnd ∧ b.data = k.data ∧
        Buffer.GrowsAtEnd d b k.getSize)))

def Step (m : Buffers) (call : BufferCall) (m' : Buffers) : Prop :=
  call.Valid m.buffers ∧ call.exec m = some m'

end BufferCall

namespace Buffer

variable {h h' : BufferHeap} {b b' k : Buffer} {c c' n : UInt32} {d d' : BufferData} {z z' : ℕ}
  {memory : List UInt8} {ws : List (UInt32 × BufferWrite)}

theorem grown_of_append (hr : append h b n memory ws = some (h', b')) :
    Grown h n b (b.end_ + n) b' := by
  simp only [append, Option.bind_eq_bind, Option.bind_eq_some_iff, Option.some.injEq,
    Prod.exists, Prod.mk.injEq] at hr
  obtain ⟨h₁, b₁, hadd, h₂, -, -, rfl⟩ := hr
  simp only [addAtEnd, Option.bind_eq_bind, Option.bind_eq_some_iff] at hadd
  obtain ⟨d, -, hadd⟩ := hadd
  split_ifs at hadd with hg
  · cases hadd
    exact ⟨.inl rfl, id, .inl rfl⟩
  · simp only [Option.bind_eq_some_iff, Option.some.injEq, Prod.mk.injEq] at hadd
    obtain ⟨-, -, -, -, -, -, -, rfl⟩ := hadd
    refine ⟨.inr rfl, fun heq => congrArg (· + -b.start) heq, .inr ?_⟩
    change b.end_ + -b.start + n = b.end_ - b.start + n
    grind

theorem data_of_append {x : Counted BufferData} (hd : h.block b.data = some x)
    (hg : ¬ GrowsAtEnd x b n) (hr : append h b n memory ws = some (h', b')) : b'.data = h.top := by
  simp only [append, Option.bind_eq_bind, Option.bind_eq_some_iff, Option.some.injEq,
    Prod.exists, Prod.mk.injEq] at hr
  obtain ⟨h₁, b₁, hadd, h₂, -, -, rfl⟩ := hr
  simp only [addAtEnd, hd, Option.bind_eq_bind, Option.bind_some, if_neg hg,
    Option.bind_eq_some_iff, Option.some.injEq, Prod.mk.injEq] at hadd
  obtain ⟨-, -, -, -, -, -, -, rfl⟩ := hadd
  rfl

/-- The bytes of a buffer are copied behind another one without zero area, as `Write` with the bytes
would do it. -/
theorem writeRange_eq_execAll (hd : h.block k.data = some ⟨c, d⟩) (hk : Fits d z k)
    (hd' : h.block b.data = some ⟨c', d'⟩) (hb : Fits d' z' b) (hne : b.data ≠ k.data)
    (hzero : b.zeroAreaStart = b.zeroAreaEnd) (hsize : k.getSize.toNat ≤ b.getSize.toNat) :
    ((b.atEnd.prev k.getSize).writeRange h k.begin_ k.atEnd).map (·.1) =
      BufferWrite.execAll h (b.atEnd.prev k.getSize) [(0, .bytes (content d k))] := by
  have hs := hb.start_le
  have hz := hb.zeroAreaStart_le
  have he := hb.zeroAreaEnd_le
  have hlength := hb.le_length
  have hlt := b.end_.toNat_lt
  have hcontent := hk.length_content
  rw [hb.toNat_getSize] at hsize
  rw [hzero] at hlength
  have hcur : (b.atEnd.prev k.getSize).current.toNat = b.end_.toNat - k.getSize.toNat := by
    refine UInt32.toNat_sub_of_le _ _ (UInt32.le_iff_toNat_le.2 ?_)
    change _ ≤ b.end_.toNat
    omega
  have hcheck : (b.atEnd.prev k.getSize).CheckNoZero (b.atEnd.prev k.getSize).current
      ((b.atEnd.prev k.getSize).current + k.getSize) := by
    intro x hx hle
    have hx' : (UInt32.ofNat x).toNat = x := by
      refine UInt32.toNat_ofNat_of_lt' (hx.trans (UInt32.toNat_lt _))
    rw [UInt32.toNat_add, hcur, Nat.mod_eq_of_lt (by omega)] at hx
    rw [hcur] at hle
    refine ⟨UInt32.le_iff_toNat_le.2 ?_, ?_, UInt32.le_iff_toNat_le.2 ?_⟩
    · change b.start.toNat ≤ _
      omega
    · rintro ⟨hzs, hze⟩
      change b.zeroAreaStart ≤ _ at hzs
      rw [hzero] at hzs
      exact absurd hze (UInt32.not_lt.2 hzs)
    · change _ ≤ b.end_.toNat
      omega
  have hroom : (b.atEnd.prev k.getSize).current.toNat + k.getSize.toNat ≤ d'.data.length := by
    rw [hcur]
    omega
  -- without zero area the place is the offset
  have hpos : (if b.end_ - k.getSize + 0 ≤ b.zeroAreaStart then b.end_ - k.getSize + 0
      else b.end_ - k.getSize + 0 - (b.zeroAreaEnd - b.zeroAreaStart)) = b.end_ - k.getSize := by
    rw [hzero]
    split_ifs
    · exact UInt32.add_zero _
    · grind
  have hwrite : h.writeData b.data (b.end_ - k.getSize).toNat (content d k) =
      some (h.write b.data
        { d' with data := memcpy d'.data (b.end_ - k.getSize).toNat (content d k) }) :=
    BufferWrite.writeData_eq hd' (by rw [hcontent]; exact hroom)
  rw [writeRange_all hd hk hd' hne hb.length_lt hcheck hroom, BufferWrite.execAll,
    BufferWrite.exec, Iterator.write]
  change _ = ((h.writeData b.data (if b.end_ - k.getSize + 0 ≤ b.zeroAreaStart then
    b.end_ - k.getSize + 0 else b.end_ - k.getSize + 0 -
      (b.zeroAreaEnd - b.zeroAreaStart)).toNat (content d k) >>= fun h =>
        some (h, _)).map _ >>= _)
  rw [hpos, hwrite]
  rfl

theorem eq_of_assign {r r' : UInt32} {o : Buffer}
    (ha : assign h r b o = some (h', r', b')) : b' = o ∧ (b.data = o.data → h' = h) := by
  rw [assign] at ha
  split_ifs at ha with hne
  · simp only [Option.bind_eq_bind, Option.bind_eq_some_iff, Option.some.injEq,
      Prod.mk.injEq] at ha
    obtain ⟨-, -, -, -, -, -, rfl⟩ := ha
    exact ⟨rfl, fun heq => absurd heq hne⟩
  · cases ha
    exact ⟨rfl, fun _ => rfl⟩

/-- The content of a buffer that is all zero area. -/
theorem Fits.content_eq_replicate (hb : Fits d z b) (hstart : b.start = b.zeroAreaStart)
    (hlast : b.zeroAreaEnd = b.end_) : content d b = List.replicate b.getSize.toNat 0 := by
  have hsize : b.zeroAreaEnd - b.zeroAreaStart = b.getSize := by rw [← hstart, hlast, getSize]
  dsimp only [content, parts]
  rw [← hsize, hb.toNat_zeroes, ← hstart, hlast, Nat.sub_self, Nat.sub_self, slice_zero,
    List.nil_append]
  exact List.append_nil _

/-- The parts of a content. -/
theorem Fits.read_eq (hb : Fits d z b) (hd : h.block b.data = some ⟨c, d⟩) :
    ∃ front back, b.read h b.start (b.zeroAreaStart - b.start) = some front ∧
      b.read h b.zeroAreaStart (b.end_ - b.zeroAreaEnd) = some back ∧
        front.length = (b.zeroAreaStart - b.start).toNat ∧
          back.length = (b.end_ - b.zeroAreaEnd).toNat ∧ content d b =
            front ++ List.replicate (b.zeroAreaEnd - b.zeroAreaStart).toNat 0 ++ back := by
  have hs := hb.start_le
  have hz := hb.zeroAreaStart_le
  have he := hb.zeroAreaEnd_le
  have hle := hb.le_length
  have hfront : (b.zeroAreaStart - b.start).toNat = b.zeroAreaStart.toNat - b.start.toNat :=
    UInt32.toNat_sub_of_le _ _ hs
  have hback : (b.end_ - b.zeroAreaEnd).toNat = b.end_.toNat - b.zeroAreaEnd.toNat :=
    UInt32.toNat_sub_of_le _ _ he
  have hread (off n : UInt32) (hroom : off.toNat + n.toNat ≤ d.data.length) :
      b.read h off n = some (slice d.data off.toNat n.toNat) := by
    rw [read, hd, Option.bind_eq_bind, Option.bind_some, readAt_eq hroom]
  refine ⟨_, _, hread _ _ (by omega), hread _ _ (by omega), length_slice (by omega),
    length_slice (by omega), ?_⟩
  rw [hfront, hback, hb.toNat_zeroes]
  rfl

end Buffer

namespace Buffers

variable {m m₁ m' : Buffers} {i o : ℕ} {b k t : Buffer} {l data c : List UInt8} {n : UInt32}
  {memory : List UInt8}

/-- There is room in the counts for a buffer that comes and for a copy of it. -/
def Spare (m : Buffers) : Prop :=
  ∀ a, SharedBlocks.holders (fun b : Buffer => some b.data) m.buffers a + 2 < 2 ^ 32

/-- The buffer `t` that holds `l` has come to those of `m`. -/
structure Temporary (m : Buffers) (t : Buffer) (l : List UInt8) (m₁ : Buffers) : Prop where
  buffers : m₁.buffers = m.buffers ++ [some t]
  held : Held m₁
  contents : m₁.contents = m.contents ++ [some l]

/-- A buffer without zero area in a block of its own. -/
structure Apart (m : Buffers) (t : Buffer) : Prop where
  zeroes : t.zeroAreaStart = t.zeroAreaEnd
  data : ∀ (o : ℕ) (k : Buffer), m.buffers[o]? = some (some k) → t.data ≠ k.data

theorem Spare.few (h : Spare m) : Few m := fun a => by
  have := h a
  omega

theorem holders_push_le (l : List (Option Buffer)) (x : Option Buffer) (a : ℕ) :
    SharedBlocks.holders (fun b : Buffer => some b.data) (l ++ [x]) a ≤
      SharedBlocks.holders (fun b : Buffer => some b.data) l a + 1 := by
  unfold SharedBlocks.holders
  rw [List.countP_append]
  exact Nat.add_le_add_left List.countP_le_length _

theorem holders_set_le (l : List (Option Buffer)) (x : Option Buffer) (a : ℕ) :
    SharedBlocks.holders (fun b : Buffer => some b.data) (l.set i x) a ≤
      SharedBlocks.holders (fun b : Buffer => some b.data) l a + 1 := by
  unfold SharedBlocks.holders
  by_cases hi : i < l.length
  · rw [List.countP_set hi]
    split_ifs
    all_goals omega
  · rw [List.set_eq_of_length_le (Nat.le_of_not_lt hi)]
    exact Nat.le_succ _

/-- A buffer that changes is at most one more for its block. -/
theorem Spare.few_set (h : Spare m) {x : Option Buffer}
    (hbuffers : m₁.buffers = m.buffers.set i x) : Few m₁ := fun a => by
  have hle := holders_set_le (i := i) m.buffers x a
  have := h a
  rw [hbuffers]
  omega

/-- Buffers in a block that has the count one are the same. -/
theorem data_ne_of_count (h : Held m) (hfew : Few m) (hb : m.buffers[i]? = some (some b))
    (hk : m.buffers[o]? = some (some k)) (hio : i ≠ o) {x : Counted BufferData}
    (hd : m.heap.block b.data = some x) (hcount : x.count = 1) : b.data ≠ k.data := by
  intro heq
  have hone : SharedBlocks.holders (fun b : Buffer => some b.data) m.buffers b.data = 1 := by
    rw [← h.count_toNat (hfew b.data) hd, hcount]
    rfl
  exact hio (SharedBlocks.eq_of_holders hone hb rfl hk (congrArg some heq.symm)).symm

/-- A buffer that has grown is not in the block of another one, unless it was there and has grown
in place. -/
theorem data_ne_of_append (h : Held m) (hb : m.buffers[i]? = some (some b))
    (hk : m.buffers[o]? = some (some k)) {h' : BufferHeap} {ws : List (UInt32 × BufferWrite)}
    (happend : Buffer.append m.heap b n memory ws = some (h', t))
    (hne : ∀ d ∈ m.heap.block b.data, b.data = k.data → ¬ Buffer.GrowsAtEnd d b n) :
    t.data ≠ k.data := by
  rcases (Buffer.grown_of_append happend).data with hdata | hdata
  · obtain ⟨x, hx⟩ := Option.ne_none_iff_exists'.1 (h.there i b b.data hb rfl)
    intro heq
    have hmoved := Buffer.data_of_append hx (hne x hx (hdata.symm.trans heq)) happend
    exact h.ptr_ne_top hk (congrArg some (heq.symm.trans hmoved))
  · rw [hdata]
    exact fun heq => h.ptr_ne_top hk (congrArg some heq.symm)

namespace Temporary

theorem few (ht : Temporary m t l m₁) (h : Spare m) : Few m₁ := fun a => by
  have hle := holders_push_le m.buffers (some t) a
  have := h a
  rw [ht.buffers]
  omega

theorem find_eq (ht : Temporary m t l m₁) : m₁.find m.buffers.length = some t := by
  rw [find_eq_some, ht.buffers]
  exact List.getElem?_concat_length

theorem contents_getElem? (ht : Temporary m t l m₁) :
    m₁.contents[m.buffers.length]? = some (some l) := by
  rw [ht.contents, ← length_contents]
  exact List.getElem?_concat_length

theorem getElem?_eq (ht : Temporary m t l m₁) (hk : m.buffers[o]? = some (some k)) :
    m₁.buffers[o]? = some (some k) := by
  rw [ht.buffers, List.getElem?_append_left (List.getElem?_eq_some_iff.1 hk).1, hk]

theorem contents_set (ht : Temporary m t l m₁) (l' : List UInt8) :
    m₁.contents.set m.buffers.length (some l') = m.contents ++ [some l'] := by
  rw [ht.contents, ← length_contents, SharedBlocks.Held.set_push]

/-- It gets bytes in front. -/
theorem addAtStart (ht : Temporary m t l m₁) (hspare : Spare m) (memory : List UInt8)
    (hdata : data.length = n.toNat) (hfit : l.length + n.toNat < 2 ^ 32) :
    ∃ t' m₂, (BufferOp.addAtStart m.buffers.length n memory [(0, .bytes data)]).exec m₁ =
      some m₂ ∧ Temporary m t' (data ++ l) m₂ ∧ Buffer.Grown m₁.heap n t t.end_ t' := by
  obtain ⟨m₂, hexec, hheld, hcontents⟩ :=
    addAtStart_all memory ht.held (ht.few hspare) ht.contents_getElem? hdata hfit
  have hexec' := hexec
  simp only [BufferOp.exec, ht.find_eq, Option.bind_eq_bind, Option.bind_some,
    Option.bind_eq_some_iff, Option.some.injEq, Prod.exists] at hexec'
  obtain ⟨h', t', hprepend, rfl⟩ := hexec'
  refine ⟨t', _, hexec, ⟨?_, hheld, hcontents.trans (ht.contents_set _)⟩,
    Buffer.grown_of_prepend hprepend⟩
  dsimp only
  rw [ht.buffers, SharedBlocks.Held.set_push]

/-- It gets bytes behind. -/
theorem addAtEnd (ht : Temporary m t l m₁) (hspare : Spare m) (memory : List UInt8)
    (hdata : data.length = n.toNat) (hfit : l.length + n.toNat < 2 ^ 32)
    (hend : t.end_.toNat + n.toNat < 2 ^ 32) :
    ∃ t' m₂, (BufferOp.addAtEnd m.buffers.length n memory [(0, .bytes data)]).exec m₁ =
      some m₂ ∧ Temporary m t' (l ++ data) m₂ ∧ Buffer.Grown m₁.heap n t (t.end_ + n) t' := by
  have hend' (b : Buffer) (hb : m₁.find m.buffers.length = some b) :
      b.end_.toNat + n.toNat < 2 ^ 32 := by
    rw [ht.find_eq] at hb
    cases hb
    exact hend
  obtain ⟨m₂, hexec, hheld, hcontents⟩ :=
    addAtEnd_all memory ht.held (ht.few hspare) ht.contents_getElem? hdata hfit hend'
  have hexec' := hexec
  simp only [BufferOp.exec, ht.find_eq, Option.bind_eq_bind, Option.bind_some,
    Option.bind_eq_some_iff, Option.some.injEq, Prod.exists] at hexec'
  obtain ⟨h', t', happend, rfl⟩ := hexec'
  refine ⟨t', _, hexec, ⟨?_, hheld, hcontents.trans (ht.contents_set _)⟩,
    Buffer.grown_of_append happend⟩
  dsimp only
  rw [ht.buffers, SharedBlocks.Held.set_push]

theorem getSize_eq (ht : Temporary m t l m₁) : t.getSize.toNat = l.length :=
  Buffers.getSize_eq ht.held ht.find_eq ht.contents_getElem?

theorem end_le (ht : Temporary m t l m₁) {e : UInt32} {t' : Buffer}
    (hg : Buffer.Grown m₁.heap n t e t') :
    t'.end_.toNat ≤ max e.toNat (l.length + n.toNat) := by
  rcases hg.end_ with hend | hend
  · rw [hend]
    exact Nat.le_max_left ..
  · rw [hend, UInt32.toNat_add, ht.getSize_eq]
    exact (Nat.mod_le ..).trans (Nat.le_max_right ..)

/-- It stays in a block of its own. -/
theorem apart_of_grown (ht : Temporary m t l m₁) (ha : Apart m t) {e : UInt32} {t' : Buffer}
    (hg : Buffer.Grown m₁.heap n t e t') : Apart m t' := by
  refine ⟨hg.zeroes ha.zeroes, fun o k hk => ?_⟩
  rcases hg.data with hdata | hdata
  · rw [hdata]
    exact ha.data o k hk
  · rw [hdata]
    exact fun heq => ht.held.ptr_ne_top (ht.getElem?_eq hk) (congrArg some heq.symm)

end Temporary

/-- Where the bytes of a new buffer start. -/
def newStart (m : Buffers) (memory : List UInt8) : ℕ :=
  (min (UInt32.ofNat (Buffer.room 0 memory).length) m.recommendedStart).toNat

theorem temporary_create (h : Held m) (memory : List UInt8) :
    ∃ t m₁, (BufferOp.create 0 memory).exec m = some m₁ ∧ Temporary m t [] m₁ ∧ Apart m t ∧
      t.end_.toNat = m.newStart memory := by
  have hok : ¬ Overruns m (.create 0 memory) := fun hle =>
    absurd (UInt32.toNat_lt _) (Nat.not_lt.2 hle)
  obtain ⟨m₁, hexec, hheld, hcontents⟩ := create_held h hok
  cases hexec
  refine ⟨_, _, rfl, ⟨rfl, hheld, hcontents⟩, ⟨(UInt32.add_zero _).symm, fun o k hk heq => ?_⟩,
    congrArg UInt32.toNat (UInt32.add_zero _)⟩
  exact h.ptr_ne_top hk (congrArg some heq.symm)

/-- What is read of the others is what was there. -/
theorem Temporary.read_eq (h : Held m) (ht : Temporary m t l m₁)
    (hb : m.buffers[i]? = some (some b)) :
    b.read m₁.heap b.start (b.zeroAreaStart - b.start) =
        b.read m.heap b.start (b.zeroAreaStart - b.start) ∧
      b.read m₁.heap b.zeroAreaStart (b.end_ - b.zeroAreaEnd) =
        b.read m.heap b.zeroAreaStart (b.end_ - b.zeroAreaEnd) := by
  obtain ⟨c, d, z, hd, hfits, -, hcontent⟩ := block_of_held h hb
  obtain ⟨c₁, d₁, z₁, hd₁, hfits₁, -, hcontent₁⟩ := block_of_held ht.held (ht.getElem?_eq hb)
  obtain ⟨front, back, hread, hread', hfront, hback, hparts⟩ := hfits.read_eq hd
  obtain ⟨front₁, back₁, hread₁, hread₁', hfront₁, hback₁, hparts₁⟩ := hfits₁.read_eq hd₁
  rw [ht.contents, List.getElem?_append_left (by
    rw [length_contents]
    exact (List.getElem?_eq_some_iff.1 hb).1), hcontent] at hcontent₁
  have hsame := Option.some_inj.1 (Option.some_inj.1 hcontent₁)
  rw [hparts, hparts₁] at hsame
  obtain ⟨hstart, rfl⟩ := List.append_inj' hsame (hback.trans hback₁.symm)
  rw [hread, hread', hread₁, hread₁', List.append_cancel_right hstart]
  exact ⟨rfl, rfl⟩

theorem createFullCopy_zeroes (h : Held m) (hspare : Spare m) {memory : ℕ → List UInt8}
    (hb : m.buffers[i]? = some (some b)) (hc : m.contents[i]? = some (some c))
    (hzero : b.zeroAreaEnd - b.zeroAreaStart ≠ 0)
    (hfit : m.newStart (memory 0) + c.length < 2 ^ 32) :
    ∃ t m₁, m.createFullCopy i memory = some m₁ ∧ Temporary m t c m₁ ∧ Apart m t ∧
      t.end_.toNat ≤ m.newStart (memory 0) + c.length := by
  obtain ⟨c₀, d, z, hd, hfits, -, hcontent⟩ := block_of_held h hb
  rw [hc] at hcontent
  cases hcontent
  obtain ⟨front, back, hread, hread', hfront, hback, hparts⟩ := hfits.read_eq hd
  have hlength := congrArg List.length hparts
  rw [List.length_append, List.length_append, List.length_replicate, hfront, hback] at hlength
  obtain ⟨t₁, m₁, hexec₁, ht₁, hapart₁, hend₁⟩ := temporary_create h (memory 0)
  -- the zeros
  obtain ⟨t₂, m₂, hexec₂, ht₂, hgrown₂⟩ := ht₁.addAtStart hspare (memory 1)
    (List.length_replicate (n := (b.zeroAreaEnd - b.zeroAreaStart).toNat) (a := (0 : UInt8)))
    (by rw [List.length_nil]; omega)
  rw [List.append_nil] at ht₂
  have hend₂ : t₂.end_.toNat ≤ m.newStart (memory 0) +
      (b.zeroAreaEnd - b.zeroAreaStart).toNat := by
    have hle := ht₁.end_le hgrown₂
    rw [hend₁, List.length_nil] at hle
    omega
  -- the bytes before them
  obtain ⟨t₃, m₃, hexec₃, ht₃, hgrown₃⟩ := ht₂.addAtStart hspare (memory 2) hfront (by
    rw [List.length_replicate]
    omega)
  have hend₃ : t₃.end_.toNat ≤ m.newStart (memory 0) +
      (b.zeroAreaStart - b.start).toNat + (b.zeroAreaEnd - b.zeroAreaStart).toNat := by
    have hle := ht₂.end_le hgrown₃
    rw [List.length_replicate] at hle
    omega
  -- the bytes behind them
  obtain ⟨t₄, m₄, hexec₄, ht₄, hgrown₄⟩ := ht₃.addAtEnd hspare (memory 3) hback (by
    rw [List.length_append, List.length_replicate, hfront]
    omega) (by omega)
  have hend₄ : t₄.end_.toNat ≤ m.newStart (memory 0) + (Buffer.content d b).length := by
    have hle := ht₃.end_le hgrown₄
    rw [UInt32.toNat_add, List.length_append, List.length_replicate, hfront] at hle
    omega
  have hapart₂ := ht₁.apart_of_grown hapart₁ hgrown₂
  have hapart₃ := ht₂.apart_of_grown hapart₂ hgrown₃
  refine ⟨t₄, m₄, ?_, hparts ▸ ht₄, ht₃.apart_of_grown hapart₃ hgrown₄, hend₄⟩
  simp only [createFullCopy, find_eq_some.2 hb, Option.bind_eq_bind, Option.bind_some,
    if_pos hzero, hexec₁, hexec₂, (ht₂.read_eq h hb).1, hread, hexec₃, (ht₃.read_eq h hb).2,
    hread', hexec₄]

theorem createFullCopy_copy (h : Held m) (memory : ℕ → List UInt8)
    (hb : m.buffers[i]? = some (some b)) (hc : m.contents[i]? = some (some c))
    (hzero : b.zeroAreaEnd - b.zeroAreaStart = 0) :
    ∃ m₁, m.createFullCopy i memory = some m₁ ∧
      Temporary m { b with maxZeroAreaStart := b.zeroAreaStart } c m₁ ∧
        m.heap.share (some b.data) = some m₁.heap := by
  obtain ⟨m₁, hexec, hheld, c', hc', hcontents⟩ := copy_held h hb
  rw [hc] at hc'
  cases hc'
  have hexec' := hexec
  simp only [BufferOp.exec, find_eq_some.2 hb, Option.bind_eq_bind, Option.bind_some, Buffer.copy,
    Option.bind_eq_some_iff, Option.some.injEq, Prod.exists, Prod.mk.injEq] at hexec'
  obtain ⟨heap, b', ⟨heap', hshare, rfl, rfl⟩, rfl⟩ := hexec'
  refine ⟨_, ?_, ⟨rfl, hheld, hcontents⟩, hshare⟩
  simp only [createFullCopy, find_eq_some.2 hb, Option.bind_eq_bind, Option.bind_some,
    if_neg (not_not_intro hzero), hexec]

theorem buffers_of_assign (hb : m.find i = some b) (hk : m.find o = some k)
    (h : (BufferOp.assign i o).exec m = some m') :
    m'.buffers = m.buffers.set i (some k) ∧ (b.data = k.data → m'.heap = m.heap) := by
  simp only [BufferOp.exec, hb, hk, Option.bind_eq_bind, Option.bind_some,
    Option.bind_eq_some_iff, Option.some.injEq, Prod.exists] at h
  obtain ⟨heap, r, b', hassign, rfl⟩ := h
  obtain ⟨rfl, hheap⟩ := Buffer.eq_of_assign hassign
  exact ⟨rfl, hheap⟩

theorem buffers_of_destroy (hb : m.find i = some b) (h : (BufferOp.destroy i).exec m = some m') :
    m'.buffers = m.buffers.set i none ∧ m.heap.release (some b.data) = some m'.heap := by
  simp only [BufferOp.exec, hb, Buffer.destroy, Option.bind_eq_bind, Option.bind_some,
    Option.bind_eq_some_iff, Option.some.injEq, Prod.exists, Prod.mk.injEq] at h
  obtain ⟨heap, r, ⟨heap', hrelease, rfl, -⟩, rfl⟩ := h
  exact ⟨rfl, hrelease⟩

/-- The temporary is assigned to a buffer of the same content, and goes. -/
theorem Temporary.assign (ht : Temporary m t c m₁) (hspare : Spare m)
    (hb : m.buffers[i]? = some (some b)) (hc : m.contents[i]? = some (some c)) :
    ∃ m₂ m₃, (BufferOp.assign i m.buffers.length).exec m₁ = some m₂ ∧
      (BufferOp.destroy m.buffers.length).exec m₂ = some m₃ ∧
        m₃.buffers = m.buffers.set i (some t) ++ [none] ∧
          Held { m₃ with buffers := m.buffers.set i (some t) } ∧
            Buffers.contents { m₃ with buffers := m.buffers.set i (some t) } = m.contents ∧
              (b.data = t.data → m₁.heap.release (some t.data) = some m₃.heap) := by
  have hi := (List.getElem?_eq_some_iff.1 hb).1
  have hb₁ := ht.getElem?_eq hb
  have hlength : (m.buffers.set i (some t)).length = m.buffers.length := List.length_set
  obtain ⟨m₂, hexec₂, hheld₂, c', hc', hcontents₂⟩ :=
    assign_held ht.held (ht.few hspare) hb₁ (find_eq_some.1 ht.find_eq)
  rw [ht.contents_getElem?] at hc'
  cases hc'
  obtain ⟨hbuffers₂, hheap₂⟩ := buffers_of_assign (find_eq_some.2 hb₁) ht.find_eq hexec₂
  rw [ht.buffers, List.set_append_left _ _ hi] at hbuffers₂
  have hset : m.contents.set i (some c) = m.contents := by
    rw [← (List.getElem?_eq_some_iff.1 hc).2, List.set_getElem_self]
  rw [ht.contents, List.set_append_left _ _ (by rwa [length_contents]), hset] at hcontents₂
  -- the temporary goes
  have hfew : Few m₂ := fun a => by
    have hpush := holders_push_le (m.buffers.set i (some t)) (some t) a
    have hle := holders_set_le (i := i) m.buffers (some t) a
    have := hspare a
    rw [hbuffers₂]
    omega
  have htmp : m₂.buffers[m.buffers.length]? = some (some t) := by
    rw [hbuffers₂, ← hlength, List.getElem?_concat_length]
  obtain ⟨m₃, hexec₃, hheld₃, hcontents₃⟩ := destroy_held hheld₂ hfew htmp
  obtain ⟨hbuffers₃, hrelease⟩ := buffers_of_destroy (find_eq_some.2 htmp) hexec₃
  rw [hbuffers₂, ← hlength, SharedBlocks.Held.set_push] at hbuffers₃
  rw [Held, hbuffers₃] at hheld₃
  dsimp only [BufferOp.PlainStep] at hcontents₃
  rw [hcontents₂, ← length_contents, SharedBlocks.Held.set_push, Buffers.contents,
    hbuffers₃, SharedBlocks.views, List.map_append] at hcontents₃
  refine ⟨m₂, m₃, hexec₂, hexec₃, hbuffers₃, hheld₃.pop, List.append_cancel_right hcontents₃,
    fun heq => ?_⟩
  rw [← hheap₂ heq]
  exact hrelease

/-- What has become of a buffer that a full copy has been assigned to. -/
inductive Copied (m : Buffers) (b : Buffer) (e : ℕ) (m' : Buffers) : Buffer → Prop
  | fresh (t : Buffer) : Apart m t → t.end_.toNat ≤ e → Copied m b e m' t
  | same : b.zeroAreaStart = b.zeroAreaEnd → m'.heap.block b.data = m.heap.block b.data →
    Copied m b e m' { b with maxZeroAreaStart := b.zeroAreaStart }

theorem assignFullCopy_held (h : Held m) (hspare : Spare m) (memory : ℕ → List UInt8)
    (hb : m.buffers[i]? = some (some b)) (hc : m.contents[i]? = some (some c))
    (hfit : m.newStart (memory 0) + c.length < 2 ^ 32) :
    ∃ t m', m.assignFullCopy i memory = some m' ∧ Held m' ∧
      m'.buffers = m.buffers.set i (some t) ∧ m'.contents = m.contents ∧
        Copied m b (m.newStart (memory 0) + c.length) m' t := by
  by_cases hzero : b.zeroAreaEnd - b.zeroAreaStart = 0
  · obtain ⟨m₁, hcopy, ht, hshare⟩ := createFullCopy_copy h memory hb hc hzero
    obtain ⟨m₂, m₃, hassign, hdestroy, hbuffers, hheld, hcontents, hrelease⟩ :=
      ht.assign hspare hb hc
    refine ⟨_, _, ?_, hheld, rfl, hcontents, .same (by grind) ?_⟩
    · simp only [assignFullCopy, Option.bind_eq_bind, hcopy, Option.bind_some, hassign, hdestroy,
        hbuffers, List.dropLast_concat]
    · obtain ⟨x, hx⟩ := Option.ne_none_iff_exists'.1 (h.there i b b.data hb rfl)
      obtain ⟨hcount, hpos⟩ := h.count b.data x hx
      exact SharedBlocks.block_of_share_release hx
        (hcount ▸ SharedBlocks.ofNat_ne_zero hpos (hspare.few b.data)) hshare (hrelease rfl)
  · obtain ⟨t, m₁, hcopy, ht, hapart, hend⟩ := createFullCopy_zeroes h hspare hb hc hzero hfit
    obtain ⟨m₂, m₃, hassign, hdestroy, hbuffers, hheld, hcontents, -⟩ := ht.assign hspare hb hc
    refine ⟨t, _, ?_, hheld, rfl, hcontents, .fresh t hapart hend⟩
    simp only [assignFullCopy, Option.bind_eq_bind, hcopy, Option.bind_some, hassign, hdestroy,
      hbuffers, List.dropLast_concat]

theorem within_nil (n : UInt32) : BufferWrite.Within n [] := fun _ hw =>
  absurd hw List.not_mem_nil

/-- Room is made behind a buffer, in which there may be anything. -/
theorem addAtEnd_room (memory : List UInt8) (h : Held m) (hfew : Few m)
    (hb : m.buffers[i]? = some (some b)) (hc : m.contents[i]? = some (some c))
    (hfit : b.end_.toNat + n.toNat < 2 ^ 32) (hfit' : c.length + n.toNat < 2 ^ 32) :
    ∃ h' t fresh, Buffer.append m.heap b n memory [] = some (h', t) ∧
      (BufferOp.addAtEnd i n memory []).exec m =
        some { m with heap := h', buffers := m.buffers.set i (some t) } ∧
      Held { m with heap := h', buffers := m.buffers.set i (some t) } ∧ fresh.length = n.toNat ∧
        Buffers.contents { m with heap := h', buffers := m.buffers.set i (some t) } =
          m.contents.set i (some (c ++ fresh)) := by
  have hsize := getSize_eq h (find_eq_some.2 hb) hc
  have hok : ¬ Overruns m (.addAtEnd i n memory []) := by
    rintro ⟨b', hb', d, -, hover⟩
    rw [find_eq_some.2 hb] at hb'
    cases hb'
    split_ifs at hover
    all_goals omega
  obtain ⟨m', hexec, hheld, c₁, fresh, hc₁, hfresh, hcontents⟩ :=
    addAtEnd_held h hfew hb (within_nil n) hok
  rw [hc] at hc₁
  cases hc₁
  have hexec' := hexec
  simp only [BufferOp.exec, find_eq_some.2 hb, Option.bind_eq_bind, Option.bind_some,
    Option.bind_eq_some_iff, Option.some.injEq, Prod.exists] at hexec'
  obtain ⟨h', t, happend, rfl⟩ := hexec'
  exact ⟨h', t, fresh, happend, hexec, hheld, hfresh, hcontents⟩

/-- Room is made behind a buffer without zero area, and the bytes of another one are copied to it,
if they are in another block then. -/
theorem addAtEnd_writeRange (memory : List UInt8) (h : Held m) (hfew : Few m)
    (hb : m.buffers[i]? = some (some b))
    (hk : m.buffers[o]? = some (some k)) (hio : i ≠ o) {c' : List UInt8}
    (hc : m.contents[i]? = some (some c)) (hc' : m.contents[o]? = some (some c'))
    (hzero : b.zeroAreaStart = b.zeroAreaEnd) (hfit : b.end_.toNat + k.getSize.toNat < 2 ^ 32)
    (hfit' : c.length + k.getSize.toNat < 2 ^ 32)
    (hne : ∀ d ∈ m.heap.block b.data, b.data = k.data → ¬ Buffer.GrowsAtEnd d b k.getSize) :
    ∃ m', ((BufferOp.addAtEnd i k.getSize memory []).exec m).bind
        (fun m => m.writeRange i k.getSize k.begin_ k.atEnd) = some m' ∧ Held m' ∧
      m'.contents = m.contents.set i (some (c ++ c')) := by
  have hsize := getSize_eq h (find_eq_some.2 hk) hc'
  have hend (b' : Buffer) (hb' : m.find i = some b') :
      b'.end_.toNat + k.getSize.toNat < 2 ^ 32 := by
    rw [find_eq_some.2 hb] at hb'
    cases hb'
    exact hfit
  obtain ⟨m', hexec, hheld, hcontents⟩ :=
    addAtEnd_all memory h hfew hc hsize.symm hfit' hend
  refine ⟨m', ?_, hheld, hcontents⟩
  simp only [BufferOp.exec, find_eq_some.2 hb, Buffer.append, Option.bind_eq_bind,
    Option.bind_some, Option.bind_eq_some_iff, Option.some.injEq, Prod.exists,
    Prod.mk.injEq] at hexec
  obtain ⟨h₃, t, ⟨h₂, t, hadd, h₃, hwrite, rfl, rfl⟩, rfl⟩ := hexec
  -- the buffers before anything is written
  obtain ⟨h₁, t₁, fresh, happend, hexec, hheld₂, hfresh, hcontents₂⟩ :=
    addAtEnd_room memory h hfew hb hc hfit hfit'
  have happend' : Buffer.append m.heap b k.getSize memory [] = some (h₂, t) := by
    rw [Buffer.append, hadd]
    rfl
  rw [happend'] at happend
  cases happend
  have hi := (List.getElem?_eq_some_iff.1 hb).1
  have ht : (m.buffers.set i (some t))[i]? = some (some t) := List.getElem?_set_self hi
  have hk₂ : (m.buffers.set i (some t))[o]? = some (some k) := by
    rw [List.getElem?_set_ne hio, hk]
  obtain ⟨x, d, z, hd, hfits, -, hcontent⟩ := block_of_held hheld₂ hk₂
  obtain ⟨x', d', z', hd', hfits', -, hcontent'⟩ := block_of_held hheld₂ ht
  rw [hcontents₂, List.getElem?_set_ne hio, hc'] at hcontent
  cases hcontent
  rw [hcontents₂, List.getElem?_set_self (by rwa [length_contents])] at hcontent'
  have hroom : k.getSize.toNat ≤ t.getSize.toNat := by
    rw [← hfits'.length_content, ← Option.some_inj.1 (Option.some_inj.1 hcontent'),
      List.length_append]
    exact Nat.le_add_left_of_le (Nat.le_of_eq hfresh.symm)
  have hgrown := Buffer.grown_of_append happend'
  have hother := data_ne_of_append h hb hk happend' hne
  have hcopy := Buffer.writeRange_eq_execAll hd hfits hd' hfits' hother (hgrown.zeroes hzero) hroom
  rw [hwrite] at hcopy
  obtain ⟨⟨h₄, it⟩, hrange, rfl⟩ := Option.map_eq_some_iff.1 hcopy
  have hfind : (Buffers.mk h₂ (m.buffers.set i (some t)) m.recommendedStart).find i = some t :=
    find_eq_some.2 ht
  simp only [hexec, Option.bind_some, writeRange, hfind, Option.bind_eq_bind, hrange]

/-- The zero area of a buffer is made longer. -/
theorem extend_held (h : Held m) (hspare : Spare m) (hb : m.buffers[i]? = some (some b))
    {x : Counted BufferData} (hd : m.heap.block b.data = some x)
    (hc : m.contents[i]? = some (some c)) (hcount : x.count = 1) (hend : b.end_ = b.zeroAreaEnd)
    (hfit : b.end_.toNat + n.toNat < 2 ^ 32) :
    ∃ m₁ : Buffers, { m with
      heap := m.heap.write b.data { x.value with dirtyEnd := b.zeroAreaEnd + n }
      buffers := m.buffers.set i (some { b with
        zeroAreaEnd := b.zeroAreaEnd + n
        end_ := b.zeroAreaEnd + n }) } = m₁ ∧ Held m₁ ∧
      m₁.contents = m.contents.set i (some (c ++ List.replicate n.toNat 0)) := by
  obtain ⟨count, d, z, hd', hfits, hall, hcontent⟩ := block_of_held h hb
  rw [hd] at hd'
  cases hd'
  rw [hc] at hcontent
  cases hcontent
  dsimp only at hcount
  subst hcount
  have hs := hfits.start_le
  have hz := hfits.zeroAreaStart_le
  have hlength := hfits.le_length
  rw [hend] at hlength hfit
  have hnew : (b.zeroAreaEnd + n).toNat = b.zeroAreaEnd.toNat + n.toNat := by
    rw [UInt32.toNat_add, Nat.mod_eq_of_lt hfit]
  have hr : Buffer.GrowsInPlace m.heap b 1 d z
      (some (m.heap.write b.data { d with dirtyEnd := b.zeroAreaEnd + n },
        { b with zeroAreaEnd := b.zeroAreaEnd + n, end_ := b.zeroAreaEnd + n }))
      (Buffer.content d b ++ List.replicate n.toNat 0) := by
    refine ⟨{ d with dirtyEnd := b.zeroAreaEnd + n },
      { b with zeroAreaEnd := b.zeroAreaEnd + n, end_ := b.zeroAreaEnd + n },
      b.zeroAreaEnd.toNat + n.toNat - b.zeroAreaStart.toNat, rfl, rfl,
      ⟨hs, ?_, Nat.le_refl _, hfits.dirtyStart_le, ?_, ?_, ?_, hfits.length_lt⟩, ?_,
      fun hone => absurd hone (UInt32.lt_irrefl 1)⟩
    · dsimp only
      omega
    · dsimp only
      omega
    · dsimp only
      omega
    · dsimp only
      omega
    · have hmore : b.zeroAreaEnd.toNat + n.toNat - b.zeroAreaStart.toNat =
          b.zeroAreaEnd.toNat - b.zeroAreaStart.toNat + n.toNat := by omega
      dsimp only [Buffer.content, Buffer.parts]
      rw [hnew, hend, Nat.sub_self, Nat.sub_self, slice_zero, List.append_nil, List.append_nil,
        hmore, List.replicate_add, List.append_assoc]
  obtain ⟨heap, b', heq, hheld, hcontents⟩ := grow_held h hspare.few hb hd hall (.inl hr)
  cases heq
  exact ⟨_, rfl, hheld, hcontents⟩

/-- Zero areas that meet are merged, and nothing is behind them. -/
theorem addAtEndBuffer_merged (h : Held m) (hspare : Spare m) {memory : ℕ → List UInt8}
    (hb : m.buffers[i]? = some (some b)) (hk : m.buffers[o]? = some (some k)) (hio : i ≠ o)
    {c' : List UInt8} (hc : m.contents[i]? = some (some c))
    (hc' : m.contents[o]? = some (some c')) {x : Counted BufferData}
    (hd : m.heap.block b.data = some x) (hm : Merges x b k) (hlast : k.zeroAreaEnd = k.end_)
    (hfit : b.end_.toNat + k.getSize.toNat < 2 ^ 32) :
    ∃ m', m.addAtEndBuffer i o memory = some m' ∧ Held m' ∧
      m'.contents = m.contents.set i (some (c ++ c')) := by
  obtain ⟨hcount, hend, hdirty, hstart, hzero⟩ := hm
  obtain ⟨y, d, z, hk', hfits, -, hcontent⟩ := block_of_held h hk
  rw [hc'] at hcontent
  cases hcontent
  have hsize : k.zeroAreaEnd - k.zeroAreaStart = k.getSize := by
    rw [← hstart, hlast, Buffer.getSize]
  have hzeroes := hfits.content_eq_replicate hstart hlast
  have hnone : k.end_ - k.zeroAreaEnd = 0 := by
    rw [hlast]
    grind
  obtain ⟨m₁, hm₁, hheld₁, hcontents₁⟩ := extend_held (n := k.getSize) h hspare hb hd hc hcount
    hend hfit
  obtain ⟨b', hb', hdata⟩ : ∃ b' : Buffer, { b with
      zeroAreaEnd := b.zeroAreaEnd + k.getSize
      end_ := b.zeroAreaEnd + k.getSize } = b' ∧ b'.data = b.data := ⟨_, rfl, rfl⟩
  rw [hb'] at hm₁
  have hi := (List.getElem?_eq_some_iff.1 hb).1
  have hbuffers : m₁.buffers = m.buffers.set i (some b') := by rw [← hm₁]
  have hb₁ : m₁.buffers[i]? = some (some b') := by
    rw [hbuffers]
    exact List.getElem?_set_self hi
  have hk₁ : m₁.buffers[o]? = some (some k) := by rw [hbuffers, List.getElem?_set_ne hio, hk]
  -- the buffer grows by no byte
  have hfew₁ := hspare.few_set hbuffers
  have hc₁ : m₁.contents[i]? = some (some (c ++ List.replicate k.getSize.toNat 0)) := by
    rw [hcontents₁]
    exact List.getElem?_set_self (by rwa [length_contents])
  have hsize₁ := getSize_eq hheld₁ (find_eq_some.2 hb₁) hc₁
  obtain ⟨h₂, t, fresh, happend, hexec₂, hheld₂, hfresh, hcontents₂⟩ :=
    addAtEnd_room (n := 0) (memory 0) hheld₁ hfew₁ hb₁ hc₁ (UInt32.toNat_lt _)
      (hsize₁ ▸ UInt32.toNat_lt _)
  -- the other buffer is in another block
  have hother := data_ne_of_count h hspare.few hb hk hio hd hcount
  have hother' := data_ne_of_append hheld₁ hb₁ hk₁ happend
    fun _ _ heq => absurd (hdata.symm.trans heq) hother
  have hfind : (Buffers.mk h₂ (m₁.buffers.set i (some t)) m₁.recommendedStart).find i = some t :=
    find_eq_some.2 (List.getElem?_set_self (List.getElem?_eq_some_iff.1 hb₁).1)
  have hcopy : ((t.atEnd.prev 0).writeRange h₂ (k.atEnd.prev 0) k.atEnd).map (·.1) = some h₂ :=
    Buffer.writeRange_nil hother'
  obtain ⟨⟨h₃, it⟩, hrange, rfl⟩ := Option.map_eq_some_iff.1 hcopy
  refine ⟨_, ?_, hheld₂, ?_⟩
  · simp only [addAtEndBuffer, find_eq_some.2 hb, find_eq_some.2 hk, hd, Option.bind_eq_bind,
      Option.bind_some, if_pos (show Merges x b k from ⟨hcount, hend, hdirty, hstart, hzero⟩),
      hsize, hnone, hb', hm₁, hexec₂, writeRange, hfind, hrange]
  · obtain rfl := List.eq_nil_of_length_eq_zero hfresh
    rw [hcontents₂, hcontents₁, List.set_set, hzeroes]
    exact congrArg (fun l => m.contents.set i (some l)) (List.append_nil _)

/-- A buffer is put behind another one. -/
theorem addAtEndBuffer_held (h : Held m) (hspare : Spare m) {memory : ℕ → List UInt8}
    (hvalid : (BufferCall.addAtEndBuffer i o memory).Valid m.buffers)
    (hok : ¬ BufferCall.Overruns m (.addAtEndBuffer i o memory))
    (haligned : BufferCall.Aligned m (.addAtEndBuffer i o memory)) :
    ∃ m', m.addAtEndBuffer i o memory = some m' ∧ Held m' ∧
      (BufferCall.addAtEndBuffer i o memory).PlainStep m.contents m'.contents := by
  obtain ⟨hio, ⟨b, hb⟩, k, hk⟩ := hvalid
  obtain ⟨y, d, z, hd, hfits, -, hc⟩ := block_of_held h hb
  obtain ⟨y', d', z', hd', hfits', -, hc'⟩ := block_of_held h hk
  have hsize := hfits.length_content
  have hfit : b.end_.toNat + k.getSize.toNat < 2 ^ 32 := Nat.lt_of_not_le fun hle =>
    hok ⟨b, find_eq_some.2 hb, k, find_eq_some.2 hk, .inl hle⟩
  have hfit' : m.newStart (memory 0) + b.getSize.toNat + k.getSize.toNat < 2 ^ 32 :=
    Nat.lt_of_not_le fun hle => hok ⟨b, find_eq_some.2 hb, k, find_eq_some.2 hk, .inr hle⟩
  have hplace := haligned b (find_eq_some.2 hb) k (find_eq_some.2 hk) _ hd
  split_ifs at hplace with hm
  · obtain ⟨m', hexec, hheld, hcontents⟩ :=
      addAtEndBuffer_merged h hspare hb hk hio hc hc' hd hm hplace hfit
    exact ⟨m', hexec, hheld, _, _, hc, hc', hcontents⟩
  · obtain ⟨t, m₁, hcopy, hheld₁, hbuffers, hcontents, ht⟩ :=
      assignFullCopy_held h hspare memory hb hc (by omega)
    have hb₁ : m₁.buffers[i]? = some (some t) := by
      rw [hbuffers]
      exact List.getElem?_set_self (List.getElem?_eq_some_iff.1 hb).1
    have hk₁ : m₁.buffers[o]? = some (some k) := by rw [hbuffers, List.getElem?_set_ne hio, hk]
    have hfew₁ := hspare.few_set hbuffers
    have hready : t.zeroAreaStart = t.zeroAreaEnd ∧ t.end_.toNat + k.getSize.toNat < 2 ^ 32 ∧
        ∀ d ∈ m₁.heap.block t.data, t.data = k.data → ¬ Buffer.GrowsAtEnd d t k.getSize := by
      cases ht with
      | fresh _ hapart hend =>
        exact ⟨hapart.zeroes, by omega, fun _ _ heq => absurd heq (hapart.data o k hk)⟩
      | same hzero hblock =>
        refine ⟨hzero, hfit, fun d₁ hd₁ heq hg => hplace ⟨hzero, heq, ?_⟩⟩
        rw [hblock, hd] at hd₁
        cases hd₁
        exact hg
    obtain ⟨hzero, hend, hne⟩ := hready
    obtain ⟨m', hexec, hheld, hcontents'⟩ := addAtEnd_writeRange (memory 4) hheld₁ hfew₁
      hb₁ hk₁ hio (hcontents ▸ hc) (hcontents ▸ hc') hzero hend (by omega) hne
    refine ⟨m', ?_, hheld, _, _, hc, hc', hcontents ▸ hcontents'⟩
    simp only [addAtEndBuffer, find_eq_some.2 hb, find_eq_some.2 hk, hd, Option.bind_eq_bind,
      Option.bind_some, if_neg hm, hcopy]
    exact hexec

theorem spare_of_length (h : m.buffers.length + 2 < 2 ^ 32) : Spare m := fun a => by
  have hle : SharedBlocks.holders (fun b : Buffer => some b.data) m.buffers a ≤ m.buffers.length :=
    List.countP_le_length
  omega

end Buffers

namespace BufferCall

open Buffers

variable {m m' : Buffers} {call : BufferCall}

/-- The call has a result, in which each buffer holds what its list would. -/
def Does (m : Buffers) (call : BufferCall) : Prop :=
  ∃ m', Step m call m' ∧ Held m' ∧ call.PlainStep m.contents m'.contents

theorem does_of_held (h : Held m) (hspare : Spare m) (hvalid : call.Valid m.buffers)
    (hok : ¬ Overruns m call) (haligned : Aligned m call) : Does m call := by
  cases call with
  | single op =>
    obtain ⟨m', hexec, hheld, hplain⟩ := exec_held h hspare.few hvalid hok
    exact ⟨m', ⟨hvalid, hexec⟩, hheld, hplain⟩
  | addAtEndBuffer i o memory =>
    obtain ⟨m', hexec, hheld, hplain⟩ := addAtEndBuffer_held h hspare hvalid hok haligned
    exact ⟨m', ⟨hvalid, hexec⟩, hheld, hplain⟩

/-- The step, if the buffers are there and the call has a result. -/
def next? (m : Buffers) (call : BufferCall) : Option Buffers :=
  if call.Valid m.buffers then call.exec m else none

theorem step_of_next? (h : next? m call = some m') : Step m call m' := by
  unfold next? at h
  split at h
  · rename_i hvalid
    exact ⟨hvalid, h⟩
  · exact absurd h (Option.some_ne_none _).symm

/-- The content of the first buffer becomes its own, followed by that of the second, and no other
content changes. -/
def Concatenates (m : Buffers) (i o : ℕ) (memory : ℕ → List UInt8) : Prop :=
  ∃ m' c c', Step m (.addAtEndBuffer i o memory) m' ∧ m.contents[i]? = some (some c) ∧
    m.contents[o]? = some (some c') ∧ m'.contents[i]? = some (some (c ++ c')) ∧
      ∀ j, j ≠ i → m'.contents[j]? = m.contents[j]?

/-- Each buffer holds what its list of bytes would, and one buffer is put behind another one, if
every copy goes where it belongs. -/
theorem concatenates_of_run {trace : List (Buffers × BufferCall)} (h : Run Step init trace m)
    (hok : ∀ p ∈ trace, ¬ Overruns p.1 p.2) (hspare : ∀ p ∈ trace, Spare p.1) (hlast : Spare m)
    (haligned : ∀ p ∈ trace, Aligned p.1 p.2) :
    Run PlainStep [] (trace.map fun p => (p.1.contents, p.2)) m.contents ∧
      ∀ i o memory, (addAtEndBuffer i o memory).Valid m.buffers →
        ¬ Overruns m (addAtEndBuffer i o memory) → Aligned m (addAtEndBuffer i o memory) →
          Concatenates m i o memory := by
  have hstep (m : Buffers) (call : BufferCall) (m' : Buffers) (hm : Held m)
      (hp : ¬ Overruns m call ∧ Spare m ∧ Aligned m call) (hst : Step m call m') :
      Held m' ∧ call.PlainStep m.contents m'.contents := by
    obtain ⟨m'', hst', hheld, hplain⟩ := does_of_held hm hp.2.1 hst.1 hp.1 hp.2.2
    obtain rfl := Option.some_inj.1 (hst.2.symm.trans hst'.2)
    exact ⟨hheld, hplain⟩
  have hall (p) (hp : p ∈ trace) : ¬ Overruns p.1 p.2 ∧ Spare p.1 ∧ Aligned p.1 p.2 :=
    ⟨hok p hp, hspare p hp, haligned p hp⟩
  have hm := (h.invariant_along (I := Held) held_init
    (fun m call m' hm hp hst => (hstep m call m' hm hp hst).1) hall).2
  refine ⟨h.map_along (f := contents) (I := Held) held_init hstep hall,
    fun i o memory hvalid hok hal => ?_⟩
  obtain ⟨m', hst, -, c, c', hc, hc', hcontents⟩ := does_of_held hm hlast hvalid hok hal
  have hi := (List.getElem?_eq_some_iff.1 hc).1
  refine ⟨m', c, c', hst, hc, hc', ?_, fun j hj => ?_⟩
  · rw [hcontents, List.getElem?_set_self hi]
  · rw [hcontents, List.getElem?_set_ne hj.symm]

/-- Zeros are put behind zeros, and a buffer behind a copy of it. -/
theorem concatenates_of_run_copies : ∃ (trace : List (Buffers × BufferCall)) (m : Buffers),
    Run Step init trace m ∧
      m.contents = [some [0, 0, 0, 7], some [0], some [0, 0, 0, 7, 0, 0, 0, 7]] ∧
        Run PlainStep [] (trace.map fun p => (p.1.contents, p.2)) m.contents ∧
          Concatenates m 0 1 fun _ => [] := by
  have hany : (Run.runOf next? init [.single (.create 2 []), .single (.create 1 []),
      .addAtEndBuffer 0 1 fun _ => [], .single (.addAtEnd 0 1 [] [(0, .u8 7)]), .single (.copy 0),
      .addAtEndBuffer 2 0 fun _ => []]).any (fun r => decide
        (r.2.contents = [some [0, 0, 0, 7], some [0], some [0, 0, 0, 7, 0, 0, 0, 7]] ∧
          (∀ p ∈ r.1, ¬ Overruns p.1 p.2) ∧ (∀ p ∈ r.1, p.1.buffers.length + 2 < 2 ^ 32) ∧
            r.2.buffers.length + 2 < 2 ^ 32 ∧ (∀ p ∈ r.1, Aligned p.1 p.2) ∧
              (addAtEndBuffer 0 1 fun _ => []).Valid r.2.buffers ∧
                ¬ Overruns r.2 (addAtEndBuffer 0 1 fun _ => []) ∧
                  Aligned r.2 (addAtEndBuffer 0 1 fun _ => []))) = true := by decide +kernel
  obtain ⟨⟨trace, m⟩, hrun, hr⟩ := (Option.any_eq_true _ _).1 hany
  obtain ⟨hcontents, hok, hspare, hlast, haligned, hvalid, hok', haligned'⟩ := of_decide_eq_true hr
  have hrun' := Run.of_runOf (fun _ _ _ => step_of_next?) hrun
  obtain ⟨hplain, hconcat⟩ := concatenates_of_run hrun' hok
    (fun p hp => spare_of_length (hspare p hp)) (spare_of_length hlast) haligned
  exact ⟨trace, m, hrun', hcontents, hplain, hconcat 0 1 _ hvalid hok' haligned'⟩

/-- The bytes behind the zeros are written as far behind their place as there are zeros. -/
theorem not_concatenates_tail :
    ¬ ∀ (trace : List (Buffers × BufferCall)) (m : Buffers), Run Step init trace m →
      (∀ p ∈ trace, ¬ Overruns p.1 p.2) → (∀ p ∈ trace, Spare p.1) → Spare m →
        ∀ i o memory, (addAtEndBuffer i o memory).Valid m.buffers →
          ¬ Overruns m (addAtEndBuffer i o memory) → Concatenates m i o memory := by
  intro hall
  have hany : (Run.runOf next? init [.single (.create 2 [5, 5, 5, 5]), .single (.create 1 []),
      .single (.addAtEnd 1 1 [] [(0, .u8 9)])]).any (fun r => decide
        (r.2.contents = [some [0, 0], some [0, 9]] ∧ (∀ p ∈ r.1, ¬ Overruns p.1 p.2) ∧
          (∀ p ∈ r.1, p.1.buffers.length + 2 < 2 ^ 32) ∧ r.2.buffers.length + 2 < 2 ^ 32 ∧
            (addAtEndBuffer 0 1 fun _ => []).Valid r.2.buffers ∧
              ¬ Overruns r.2 (addAtEndBuffer 0 1 fun _ => []) ∧
                (next? r.2 (addAtEndBuffer 0 1 fun _ => [])).any fun m =>
                  m.contents = [some [0, 0, 0, 5], some [0, 9]])) = true := by decide +kernel
  obtain ⟨⟨trace, m⟩, hrun, hr⟩ := (Option.any_eq_true _ _).1 hany
  obtain ⟨hcontents, hok, hspare, hlast, hvalid, hok', hafter⟩ := of_decide_eq_true hr
  obtain ⟨m', hm', hafter⟩ := (Option.any_eq_true _ _).1 hafter
  have hcontents' := of_decide_eq_true hafter
  obtain ⟨m'', c, c', hst, hc, hc', happend, -⟩ :=
    hall trace m (Run.of_runOf (fun _ _ _ => step_of_next?) hrun) hok
      (fun p hp => spare_of_length (hspare p hp)) (spare_of_length hlast) 0 1 _ hvalid hok'
  obtain rfl := Option.some_inj.1 ((step_of_next? hm').2.symm.trans hst.2)
  rw [hcontents] at hc hc'
  rw [hcontents'] at happend
  cases hc
  cases hc'
  exact absurd happend (by decide)

end BufferCall

end SeanetSim
