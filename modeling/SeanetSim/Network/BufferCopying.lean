import SeanetSim.Network.BufferContent

/-!
# Copying from one buffer to another

`Iterator::Write` with two iterators copies the bytes between them, the zero area included.  It
takes the zero area of the buffer that is read into account, and not that of the one that is
written: its place there is the offset as it is.
-/

namespace SeanetSim

namespace Buffer

namespace Iterator

/-- `Check`. -/
def Check (i : Iterator) (x : UInt32) : Prop :=
  i.dataStart ≤ x ∧ ¬ (i.zeroStart ≤ x ∧ x < i.zeroEnd) ∧ x ≤ i.dataEnd

instance (i : Iterator) (x : UInt32) : Decidable (i.Check x) := by
  unfold Check
  infer_instance

def CheckNoZero (i : Iterator) (start end_ : UInt32) : Prop :=
  ∀ x < end_.toNat, start.toNat ≤ x → i.Check (UInt32.ofNat x)

instance (i : Iterator) (start end_ : UInt32) : Decidable (i.CheckNoZero start end_) := by
  unfold CheckNoZero
  infer_instance

/-- `memcpy` or `memset` at `&m_data[m_current]`, which moves on.  Without bytes there is no access.
-/
def put (h : BufferHeap) (i : Iterator) (bytes : List UInt8) : Option (BufferHeap × Iterator) := do
  let h ← if bytes = [] then some h else h.writeData i.data i.current.toNat bytes
  some (h, i.next (UInt32.ofNat bytes.length))

/-- What `memcpy` reads at an offset; without bytes there is no access. -/
def get (h : BufferHeap) (i : Iterator) (off n : UInt32) : Option (List UInt8) :=
  if n = 0 then some []
  else do
    let d ← h.block i.data
    readAt d.value.data off.toNat n.toNat

/-- The rest of `Write (start, end)`, after the assertions. -/
def copyRange (h : BufferHeap) (i start : Iterator) (size : UInt32) :
    Option (BufferHeap × Iterator) := do
  let front :=
    if start.current ≤ start.zeroStart then min size (start.zeroStart - start.current) else 0
  let (h, i) ← i.put h (← start.get h start.current front)
  let start := start.next front
  let size := size - front
  let zeroes :=
    if start.current ≤ start.zeroEnd then min size (start.zeroEnd - start.current) else 0
  let (h, i) ← i.put h (List.replicate zeroes.toNat 0)
  let start := start.next zeroes
  let size := size - zeroes
  let back := min size (start.dataEnd - start.current)
  i.put h (← start.get h (start.current - (start.zeroEnd - start.zeroStart)) back)

/-- What `Write (start, end)` asserts. -/
structure Copyable (i start end_ : Iterator) : Prop where
  data : start.data = end_.data
  current : start.current ≤ end_.current
  zeroStart : start.zeroStart = end_.zeroStart
  zeroEnd : start.zeroEnd = end_.zeroEnd
  ne : i.data ≠ start.data
  checkNoZero : i.CheckNoZero i.current (i.current + (end_.current - start.current))

theorem copyable_iff {i start end_ : Iterator} : Copyable i start end_ ↔
    start.data = end_.data ∧ start.current ≤ end_.current ∧ start.zeroStart = end_.zeroStart ∧
      start.zeroEnd = end_.zeroEnd ∧ i.data ≠ start.data ∧
      i.CheckNoZero i.current (i.current + (end_.current - start.current)) :=
  ⟨fun h => ⟨h.data, h.current, h.zeroStart, h.zeroEnd, h.ne, h.checkNoZero⟩,
    fun ⟨hdata, hcurrent, hzs, hze, hne, hcheck⟩ => ⟨hdata, hcurrent, hzs, hze, hne, hcheck⟩⟩

instance (i start end_ : Iterator) : Decidable (Copyable i start end_) :=
  decidable_of_iff' _ copyable_iff

/-- `Write (start, end)`. -/
def writeRange (h : BufferHeap) (i start end_ : Iterator) : Option (BufferHeap × Iterator) :=
  if Copyable i start end_ then i.copyRange h start (end_.current - start.current) else none

end Iterator

variable {h h' : BufferHeap} {c c' : UInt32} {d d' : BufferData} {z : ℕ} {b k : Buffer}
  {i : Iterator} {l : List UInt8} {n : UInt32}

theorem memcpy_nil {α : Type*} (l : List α) (off : ℕ) : memcpy l off [] = l := by
  simp [memcpy]

/-- Two copies one behind the other. -/
theorem memcpy_memcpy {α : Type*} {l a b : List α} {off : ℕ}
    (h : off + a.length + b.length ≤ l.length) :
    memcpy (memcpy l off a) (off + a.length) b = memcpy l off (a ++ b) := by
  have hsplit : memcpy l off a = (l.take off ++ a) ++ l.drop (off + a.length) := rfl
  have hlength : (l.take off ++ a).length = off + a.length := by
    rw [List.length_append, List.length_take]
    omega
  rw [hsplit, memcpy_free _ _ _ hlength (by rw [List.length_drop]; omega), List.drop_drop, memcpy,
    List.length_append, Nat.add_assoc, List.append_assoc (l.take off)]

theorem put_eq (hd : h.block i.data = some ⟨c, d⟩)
    (hroom : i.current.toNat + l.length ≤ d.data.length) :
    i.put h l = some (h.write i.data { d with data := memcpy d.data i.current.toNat l },
      i.next (UInt32.ofNat l.length)) := by
  unfold Iterator.put
  split
  · rename_i hnil
    rw [hnil, memcpy_nil, SharedBlocks.write_self hd]
    rfl
  · rw [BufferWrite.writeData_eq hd hroom]
    rfl

theorem get_eq {off : UInt32} (hd : h.block i.data = some ⟨c, d⟩)
    (hroom : off.toNat + n.toNat ≤ d.data.length) :
    i.get h off n = some (slice d.data off.toNat n.toNat) := by
  unfold Iterator.get
  split
  · rename_i hzero
    rw [hzero]
    rfl
  · rw [hd, Option.bind_eq_bind, Option.bind_some, readAt_eq hroom]

theorem min_eq {m n : UInt32} (h : n.toNat ≤ m.toNat) : min m n = n := by
  rw [← UInt32.toNat_inj, UInt32.toNat_min]
  exact Nat.min_eq_right h

/-- Bytes are put behind those that have been put at the same place of a block. -/
theorem put_put {a p : ℕ} {u v : List UInt8} (hd : h.block a = some ⟨c, d⟩) (hi : i.data = a)
    (hcur : i.current.toNat = p + u.length) (hroom : p + u.length + v.length ≤ d.data.length) :
    i.put (h.write a { d with data := memcpy d.data p u }) v =
      some (h.write a { d with data := memcpy d.data p (u ++ v) },
        i.next (UInt32.ofNat v.length)) := by
  subst hi
  have hlength : (memcpy d.data p u).length = d.data.length := length_memcpy (by omega)
  have hput := put_eq (SharedBlocks.block_write (v := { d with data := memcpy d.data p u }) hd)
    (show i.current.toNat + v.length ≤ (memcpy d.data p u).length by omega)
  rw [hput, SharedBlocks.write_write]
  dsimp only
  rw [hcur, memcpy_memcpy hroom]

/-- The iterator at an offset. -/
def iterAt (b : Buffer) (x : UInt32) : Iterator :=
  ⟨b.zeroAreaStart, b.zeroAreaEnd, b.start, b.end_, x, b.data⟩

/-- The three parts that are copied. -/
theorem copyRange_eq (hd : h.block k.data = some ⟨c, d⟩) (hd' : h.block i.data = some ⟨c', d'⟩)
    (hne : i.data ≠ k.data) (hlt : d'.data.length < 2 ^ 32) (x size front zeroes back p : UInt32)
    (hfront : (if x ≤ k.zeroAreaStart then min size (k.zeroAreaStart - x) else 0) = front)
    (hzeroes : (if x + front ≤ k.zeroAreaEnd then
      min (size - front) (k.zeroAreaEnd - (x + front)) else 0) = zeroes)
    (hback : min (size - front - zeroes) (k.end_ - (x + front + zeroes)) = back)
    (hp : x + front + zeroes - (k.zeroAreaEnd - k.zeroAreaStart) = p)
    (hfirst : x.toNat + front.toNat ≤ d.data.length) (hlast : p.toNat + back.toNat ≤ d.data.length)
    (hroom : i.current.toNat + (front.toNat + zeroes.toNat + back.toNat) ≤ d'.data.length) :
    (i.copyRange h (k.iterAt x) size).map (·.1) = some (h.write i.data { d' with
      data := memcpy d'.data i.current.toNat (slice d.data x.toNat front.toNat ++
        List.replicate zeroes.toNat 0 ++ slice d.data p.toNat back.toNat) }) := by
  have hone := length_slice hfirst
  have htwo : (List.replicate zeroes.toNat (0 : UInt8)).length = zeroes.toNat :=
    List.length_replicate
  have hthree := length_slice hlast
  have hget : (k.iterAt x).get h x front = some (slice d.data x.toNat front.toNat) :=
    get_eq hd hfirst
  have hput := put_eq (l := slice d.data x.toNat front.toNat) hd' (by omega)
  have hrange : i.copyRange h (k.iterAt x) size = (do
      let (h, i) ← i.put h (← (k.iterAt x).get h x front)
      let (h, i) ← i.put h (List.replicate zeroes.toNat 0)
      i.put h (← (k.iterAt (x + front + zeroes)).get h p back)) := by
    rw [← hp, ← hback, ← hzeroes, ← hfront]
    rfl
  have hlt₁ : (slice d.data x.toNat front.toNat).length < 2 ^ 32 := by omega
  have hcur₁ : (i.current + UInt32.ofNat (slice d.data x.toNat front.toNat).length).toNat =
      i.current.toNat + front.toNat := by
    rw [UInt32.toNat_add, UInt32.toNat_ofNat_of_lt' hlt₁, Nat.mod_eq_of_lt (by omega), hone]
  have hcur₂ : (i.current + UInt32.ofNat (slice d.data x.toNat front.toNat).length +
      UInt32.ofNat (List.replicate zeroes.toNat (0 : UInt8)).length).toNat =
        i.current.toNat + front.toNat + zeroes.toNat := by
    rw [UInt32.toNat_add, hcur₁, htwo, UInt32.ofNat_toNat, Nat.mod_eq_of_lt (by omega)]
  rw [hrange, hget, Option.bind_eq_bind, Option.bind_some, hput, Option.bind_eq_bind,
    Option.bind_some]
  dsimp only
  -- what is read is in another block
  have hread : (h.write i.data { d' with
      data := memcpy d'.data i.current.toNat
        (slice d.data x.toNat front.toNat ++ List.replicate zeroes.toNat 0) }).block k.data =
          some ⟨c, d⟩ := (SharedBlocks.setBlock_of_ne hne.symm).trans hd
  have hget₂ : (k.iterAt (x + front + zeroes)).get (h.write i.data { d' with
      data := memcpy d'.data i.current.toNat
        (slice d.data x.toNat front.toNat ++ List.replicate zeroes.toNat 0) }) p back =
          some (slice d.data p.toNat back.toNat) := get_eq hread hlast
  have hput₂ := put_put (i := i.next (UInt32.ofNat (slice d.data x.toNat front.toNat).length))
    (p := i.current.toNat) (v := List.replicate zeroes.toNat 0) hd' rfl
    (hcur₁.trans (by rw [hone])) (by omega)
  have hput₃ := put_put (i := (i.next (UInt32.ofNat (slice d.data x.toNat front.toNat).length)).next
      (UInt32.ofNat (List.replicate zeroes.toNat (0 : UInt8)).length)) (p := i.current.toNat)
    (u := slice d.data x.toNat front.toNat ++ List.replicate zeroes.toNat 0)
    (v := slice d.data p.toNat back.toNat) hd' rfl
    (hcur₂.trans (by rw [List.length_append, hone, htwo, Nat.add_assoc]))
    (by rw [List.length_append]; omega)
  rw [hput₂, Option.bind_some]
  dsimp only
  rw [hget₂, Option.bind_some, hput₃]
  rfl

/-- The whole of a buffer is copied. -/
theorem writeRange_all (hd : h.block k.data = some ⟨c, d⟩) (hk : Fits d z k)
    (hd' : h.block i.data = some ⟨c', d'⟩) (hne : i.data ≠ k.data) (hlt : d'.data.length < 2 ^ 32)
    (hcheck : i.CheckNoZero i.current (i.current + k.getSize))
    (hroom : i.current.toNat + k.getSize.toNat ≤ d'.data.length) :
    (i.writeRange h k.begin_ k.atEnd).map (·.1) =
      some (h.write i.data { d' with data := memcpy d'.data i.current.toNat (content d k) }) := by
  have hs := hk.start_le
  have hz := hk.zeroAreaStart_le
  have he := hk.zeroAreaEnd_le
  have hlength := hk.le_length
  have hend := k.end_.toNat_lt
  have hsize := hk.toNat_getSize
  rw [getSize] at hcheck hsize hroom
  have hfront : (k.zeroAreaStart - k.start).toNat = k.zeroAreaStart.toNat - k.start.toNat :=
    UInt32.toNat_sub_of_le _ _ hs
  have hzeroes := hk.toNat_zeroes
  have hback : (k.end_ - k.zeroAreaEnd).toNat = k.end_.toNat - k.zeroAreaEnd.toNat :=
    UInt32.toNat_sub_of_le _ _ he
  have hstart : k.start ≤ k.zeroAreaStart := UInt32.le_iff_toNat_le.2 hs
  have hend' : k.end_ - k.start - (k.zeroAreaStart - k.start) -
      (k.zeroAreaEnd - k.zeroAreaStart) = k.end_ - k.zeroAreaEnd := by grind
  have hmid : k.start + (k.zeroAreaStart - k.start) = k.zeroAreaStart := by grind
  have hlast : k.zeroAreaStart + (k.zeroAreaEnd - k.zeroAreaStart) = k.zeroAreaEnd := by grind
  have hrest : k.zeroAreaEnd - (k.zeroAreaEnd - k.zeroAreaStart) = k.zeroAreaStart := by grind
  have hsub : (k.end_ - k.start - (k.zeroAreaStart - k.start)).toNat =
      k.end_.toNat - k.zeroAreaStart.toNat := by
    rw [UInt32.toNat_sub_of_le _ _ (UInt32.le_iff_toNat_le.2 (by omega)), hsize, hfront]
    omega
  have hcopy := copyRange_eq hd hd' hne hlt k.start (k.end_ - k.start)
    (k.zeroAreaStart - k.start) (k.zeroAreaEnd - k.zeroAreaStart) (k.end_ - k.zeroAreaEnd)
    k.zeroAreaStart
    (by rw [if_pos hstart, min_eq (by omega)])
    (by rw [hmid, if_pos (UInt32.le_iff_toNat_le.2 hz), min_eq (by omega)])
    (by rw [hmid, hlast, hend', min_eq (Nat.le_refl _)]) (by rw [hmid, hlast, hrest])
    (by omega) (by omega) (by omega)
  have hcopyable : i.Copyable k.begin_ k.atEnd :=
    ⟨rfl, UInt32.le_iff_toNat_le.2 (hs.trans (hz.trans he)), rfl, rfl, hne, hcheck⟩
  rw [hfront, hzeroes, hback] at hcopy
  rw [Iterator.writeRange, if_pos hcopyable]
  exact hcopy

/-- Nothing is copied. -/
theorem writeRange_nil (hne : i.data ≠ k.data) :
    (i.writeRange h (k.atEnd.prev 0) k.atEnd).map (·.1) = some h := by
  have hsize : k.end_ - (k.end_ - 0) = 0 := by grind
  have hmin (x : UInt32) : min 0 x = 0 := by
    rw [← UInt32.toNat_inj, UInt32.toNat_min]
    exact Nat.zero_min _
  have hcopyable : i.Copyable (k.atEnd.prev 0) k.atEnd := by
    refine ⟨rfl, UInt32.le_iff_toNat_le.2 (by simp [Iterator.prev, atEnd]), rfl, rfl, hne, ?_⟩
    intro x hx hle
    have hsame : i.current + (k.atEnd.current - (k.atEnd.prev 0).current) = i.current := by
      change i.current + (k.end_ - (k.end_ - 0)) = _
      grind
    rw [hsame] at hx
    omega
  rw [Iterator.writeRange, if_pos hcopyable]
  change (i.copyRange h _ (k.end_ - (k.end_ - 0))).map (·.1) = _
  have hrange : i.copyRange h (k.atEnd.prev 0) 0 = some (h, i) := by
    simp [Iterator.copyRange, Iterator.put, Iterator.get, Iterator.next, hmin]
  rw [hsize, hrange]
  rfl

end Buffer

end SeanetSim
