import SeanetSim.Network.BufferContent

/-!
# Buffers that grow

What `AddAtStart` and `AddAtEnd` do with the writes that follow: a buffer grows in place where this
changes the content of no other buffer of the block, and otherwise moves to a new block.
-/

namespace SeanetSim

namespace Buffer

open BufferWrite

variable {d d' : BufferData} {z : ℕ} {b b' k : Buffer} {h h' : BufferHeap} {c n : UInt32}
  {memory : List UInt8} {ws : List (UInt32 × BufferWrite)}

/-- The block is written to; of this, other buffers show nothing. -/
def GrowsInPlace (h : BufferHeap) (b : Buffer) (c : UInt32) (d : BufferData) (z : ℕ)
    (r : Option (BufferHeap × Buffer)) (l : List UInt8) : Prop :=
  ∃ (d' : BufferData) (b' : Buffer) (z' : ℕ), b'.data = b.data ∧
    r = some (h.write b.data d', b') ∧ Fits d' z' b' ∧ content d' b' = l ∧
      (1 < c → ∀ k, Fits d z k → Fits d' z' k ∧ content d' k = content d k)

/-- The buffer leaves its block for a new one. -/
def Moves (h : BufferHeap) (b : Buffer) (r : Option (BufferHeap × Buffer)) (l : List UInt8) :
    Prop :=
  ∃ (d' : BufferData) (b' : Buffer) (z' : ℕ), b'.data = h.top ∧
    r = ((h.alloc d').release (some b.data)).map (·, b') ∧ Fits d' z' b' ∧ content d' b' = l

theorem le_length_room (n : UInt32) (memory : List UInt8) :
    n.toNat ≤ (room n memory).length := by
  have := n.toNat_lt
  simp only [room, List.length_append, List.length_take, List.length_replicate]
  omega

theorem length_room_lt (n : UInt32) (memory : List UInt8) :
    (room n memory).length < 2 ^ 32 := by
  have := n.toNat_lt
  simp only [room, List.length_append, List.length_take, List.length_replicate]
  omega

theorem parts_grow_front (data : List UInt8) {s zs m : ℕ} (ze e : ℕ) (hm : s + m ≤ zs) :
    parts data s zs ze e = slice data s m ++ parts data (s + m) zs ze e := by
  obtain ⟨r, rfl⟩ := Nat.exists_eq_add_of_le hm
  have hsplit : s + m + r - s = m + r := by omega
  rw [parts, parts, hsplit, slice_add, Nat.add_sub_cancel_left, List.append_assoc,
    List.append_assoc, List.append_assoc]

theorem parts_grow_back (data : List UInt8) (s zs m : ℕ) {ze e : ℕ} (he : ze ≤ e) :
    parts data s zs ze (e + m) = parts data s zs ze e ++ slice data (zs + (e - ze)) m := by
  rw [parts, parts, Nat.sub_add_comm he, slice_add, ← List.append_assoc]

/-- The bounds of a buffer, by the lengths of its parts: `k` bytes, `g` zeros and `t` bytes. -/
structure Lengths (b : Buffer) (k g t : ℕ) : Prop where
  zeroAreaStart : b.zeroAreaStart.toNat = b.start.toNat + k
  zeroAreaEnd : b.zeroAreaEnd.toNat = b.start.toNat + k + g
  end_ : b.end_.toNat = b.start.toNat + k + g + t
  getSize : b.getSize.toNat = k + g + t
  getInternalSize : b.getInternalSize.toNat = k + t
  getInternalEnd : b.getInternalEnd.toNat = b.start.toNat + k + t

theorem Fits.exists_lengths (hb : Fits d z b) : ∃ k g t, Lengths b k g t ∧ g ≤ z ∧
    b.start.toNat + k + t + z ≤ d.dirtyEnd.toNat ∧ b.start.toNat + k + t ≤ d.data.length := by
  have hzero := hb.zero_le
  have hdirty := hb.add_le_dirtyEnd
  have hlength := hb.add_le_length
  have hsize := hb.toNat_getSize
  have hinternal := hb.toNat_getInternalSize
  have hend := hb.toNat_getInternalEnd
  rw [Fits.internalEnd_eq hb.zeroAreaStart_le hb.zeroAreaEnd_le] at hinternal hend
  obtain ⟨k, hk⟩ := Nat.exists_eq_add_of_le hb.start_le
  obtain ⟨g, hg⟩ := Nat.exists_eq_add_of_le hb.zeroAreaStart_le
  obtain ⟨t, ht⟩ := Nat.exists_eq_add_of_le hb.zeroAreaEnd_le
  rw [hg, Nat.add_sub_cancel_left] at hzero
  rw [ht, Nat.add_sub_cancel_left, hk] at hdirty hlength hend hinternal
  rw [ht, hg, hk, Nat.add_assoc, Nat.add_assoc, Nat.add_sub_cancel_left, ← Nat.add_assoc] at hsize
  rw [Nat.add_assoc, Nat.add_sub_cancel_left] at hinternal
  rw [hg, hk] at ht
  rw [hk] at hg
  exact ⟨k, g, t, ⟨hk, hg, ht, hsize, hinternal, hend⟩, hzero, hdirty, hlength⟩

theorem content_eq {k g t : ℕ} (hb : Lengths b k g t) : content d b = parts d.data b.start.toNat
    (b.start.toNat + k) (b.start.toNat + k + g) (b.start.toNat + k + g + t) := by
  rw [content, hb.zeroAreaStart, hb.zeroAreaEnd, hb.end_]

/-- The bytes of a buffer, copied to another position in another block. -/
theorem parts_copied {data r : List UInt8} {s k t q : ℕ} (g : ℕ) (hdata : s + (k + t) ≤ data.length)
    (hr : q + (k + t) ≤ r.length) :
    parts (memcpy r q (slice data s (k + t))) q (q + k) (q + k + g) (q + k + g + t) =
      parts data s (s + k) (s + k + g) (s + k + g + t) := by
  have hlength : (slice data s (k + t)).length = k + t := length_slice hdata
  have hpart (x m : ℕ) (hx : x + m ≤ k + t) :
      slice (memcpy r q (slice data s (k + t))) (q + x) m = slice data (s + x) m := by
    rw [slice_memcpy_part (by omega) (by omega), slice_slice hx]
  have hfront := hpart 0 k (by omega)
  have hback := hpart k t le_rfl
  rw [Nat.add_zero, Nat.add_zero] at hfront
  rw [parts, parts]
  simp only [Nat.add_sub_cancel_left]
  rw [hfront, hback]

/-- What a buffer shows after writes into space that it has got in front. -/
theorem parts_onList_grow_front {x : List UInt8} {s zs : ℕ} (ze e : ℕ) (hzs : s + n.toNat ≤ zs)
    (hdata : zs ≤ x.length) (hws : Within n ws) :
    parts (onList x s ws) s zs ze e =
      onList (slice x s n.toNat) 0 ws ++ parts x (s + n.toNat) zs ze e := by
  have hfresh : (slice x s n.toNat).length = n.toNat := length_slice (by omega)
  rw [parts_onList_front (by omega) hdata fun w hw => (hws w hw).trans (by omega),
    parts_grow_front x ze e hzs, onList_append_left fun w hw => hfresh.symm ▸ hws w hw]

/-- What a buffer shows after writes into space that it has got behind. -/
theorem parts_onList_grow_back {x : List UInt8} {s zs ze e : ℕ} (hs : s ≤ zs) (hz : zs ≤ ze)
    (he : ze ≤ e) (hdata : zs + (e - ze) + n.toNat ≤ x.length) (hws : Within n ws) :
    parts (onList x (zs + (e - ze)) ws) s zs ze (e + n.toNat) =
      parts x s zs ze e ++ onList (slice x (zs + (e - ze)) n.toNat) 0 ws := by
  have hold : ze - s + (e - ze) = (parts x s zs ze e).length := by
    rw [length_parts hs hz he (by omega)]
    omega
  have hinside : ∀ w ∈ ws, e - ze + w.1.toNat + w.2.content.length ≤ e + n.toNat - ze := by
    intro w hw
    have := hws w hw
    omega
  rw [parts_onList_back hs hz (by omega) hinside, parts_grow_back x s zs n.toNat he, hold,
    onList_append_right]

/-- A new block that has room for the bytes of a buffer, from the position `q` on, and for `n` more
bytes. -/
theorem exists_copied {k g t : ℕ} (hb : Lengths b k g t)
    (hlength : b.start.toNat + k + t ≤ d.data.length) {q : ℕ} (hq : q ≤ n.toNat)
    (hsize : k + t + n.toNat < 2 ^ 32) (memory : List UInt8) :
    ∃ src data, readAt d.data b.start.toNat b.getInternalSize.toNat = some src ∧
      writeAt (room (b.getInternalSize + n) memory) q src = some data ∧
        k + t + n.toNat ≤ data.length ∧ data.length < 2 ^ 32 ∧
          parts data q (q + k) (q + k + g) (q + k + g + t) = content d b := by
  rw [Nat.add_assoc] at hlength
  have hnew : (b.getInternalSize + n).toNat = k + t + n.toNat := by
    rw [UInt32.toNat_add, hb.getInternalSize, Nat.mod_eq_of_lt hsize]
  have hroom := le_length_room (b.getInternalSize + n) memory
  have hlt := length_room_lt (b.getInternalSize + n) memory
  rw [hnew] at hroom
  have hsrc : (slice d.data b.start.toNat (k + t)).length = k + t := length_slice hlength
  have hfit : q + (k + t) ≤ (room (b.getInternalSize + n) memory).length := by omega
  have hcopied := parts_copied g hlength hfit
  rw [content_eq hb, hb.getInternalSize]
  refine ⟨_, _, readAt_eq hlength, writeAt_eq (hsrc.symm ▸ hfit), ?_, ?_, hcopied⟩
  · rwa [length_memcpy (hsrc.symm ▸ hfit)]
  · rwa [length_memcpy (hsrc.symm ▸ hfit)]

/-- The positions of writes from `Begin` on. -/
theorem at_begin_next (hzs : b.start.toNat + n.toNat ≤ b.zeroAreaStart.toNat) (hws : Within n ws) :
    ∀ w ∈ ws, At (b.begin_.next w.1) (b.start.toNat + w.1.toNat) w.2.content.length := by
  intro w hw
  have hw := hws w hw
  have hlt := b.zeroAreaStart.toNat_lt
  have hcur : (b.begin_.next w.1).current.toNat = b.start.toNat + w.1.toNat := by
    refine (UInt32.toNat_add ..).trans (Nat.mod_eq_of_lt ?_)
    change b.start.toNat + _ < _
    omega
  refine .inl ⟨?_, hcur.symm⟩
  change _ ≤ b.zeroAreaStart.toNat
  omega

/-- The positions of writes from `n` bytes before `End` on. -/
theorem at_prev_next {p : ℕ} (hz : b.zeroAreaStart.toNat ≤ b.zeroAreaEnd.toNat)
    (he : b.zeroAreaEnd.toNat + n.toNat ≤ b.end_.toNat)
    (hp : p + (b.zeroAreaEnd.toNat - b.zeroAreaStart.toNat) + n.toNat = b.end_.toNat)
    (hws : Within n ws) :
    ∀ w ∈ ws, At ((b.atEnd.prev n).next w.1) (p + w.1.toNat) w.2.content.length := by
  intro w hw
  have hw := hws w hw
  have hlt := b.end_.toNat_lt
  have hprev : (b.atEnd.prev n).current.toNat = b.end_.toNat - n.toNat := by
    refine UInt32.toNat_sub_of_le _ _ (UInt32.le_iff_toNat_le.2 ?_)
    change _ ≤ b.end_.toNat
    omega
  have hcur : ((b.atEnd.prev n).next w.1).current.toNat = b.end_.toNat - n.toNat + w.1.toNat := by
    apply (UInt32.toNat_add ..).trans
    rw [hprev, Nat.mod_eq_of_lt (by omega)]
  refine .inr ⟨hz, ?_, ?_⟩
  · change b.zeroAreaEnd.toNat ≤ _
    omega
  · change _ = _ - (b.zeroAreaEnd.toNat - b.zeroAreaStart.toNat)
    omega

/-- A write in the new block is one before the old block is released. -/
theorem execAll_moved {i : Iterator} {a : ℕ} (hi : i.data = h.top) (ha : h.block a ≠ none)
    (htop : h.block h.top = none) {e : BufferData} {p : ℕ}
    (hat : ∀ w ∈ ws, At (i.next w.1) (p + w.1.toNat) w.2.content.length)
    (hroom : ∀ w ∈ ws, p + w.1.toNat + w.2.content.length ≤ e.data.length) :
    ((h.alloc e).release (some a)).bind (fun h => execAll h i ws) =
      (h.alloc { e with data := onList e.data p ws }).release (some a) := by
  have hne : h.top ≠ a := fun heq => ha (heq ▸ htop)
  obtain ⟨c, hc⟩ := Option.ne_none_iff_exists'.1 ha
  have hc' : (h.alloc e).block a = some c := (SharedBlocks.alloc_of_ne hne.symm).trans hc
  have hnew : ((h.alloc e).setBlock a (if c.count - 1 = 0 then none
      else some { c with count := c.count - 1 })).block i.data = some ⟨1, e⟩ := by
    rw [hi, SharedBlocks.setBlock_of_ne hne]
    exact SharedBlocks.alloc_self
  have hwrite := SharedBlocks.release_write (m := h.alloc e) (a := h.top) (p := some a)
    (v := { e with data := onList e.data p ws }) fun heq => hne (Option.some_inj.1 heq).symm
  rw [SharedBlocks.write_alloc] at hwrite
  rw [hwrite, SharedBlocks.release_some hc', Option.bind_some, execAll_eq hnew hat hroom, hi,
    Option.map_some]

/-- Where a buffer is after it has grown by `n` bytes; its end is `e`, unless it has moved. -/
structure Grown (h : BufferHeap) (n : UInt32) (b : Buffer) (e : UInt32) (b' : Buffer) : Prop where
  data : b'.data = b.data ∨ b'.data = h.top
  zeroes : b.zeroAreaStart = b.zeroAreaEnd → b'.zeroAreaStart = b'.zeroAreaEnd
  end_ : b'.end_ = e ∨ b'.end_ = b.getSize + n

theorem grown_of_prepend (hr : prepend h b n memory ws = some (h', b')) :
    Grown h n b b.end_ b' := by
  simp only [prepend, Option.bind_eq_bind, Option.bind_eq_some_iff, Option.some.injEq,
    Prod.exists, Prod.mk.injEq] at hr
  obtain ⟨h₁, b₁, hadd, h₂, -, -, rfl⟩ := hr
  simp only [addAtStart, Option.bind_eq_bind, Option.bind_eq_some_iff] at hadd
  obtain ⟨d, -, hadd⟩ := hadd
  split_ifs at hadd with hg
  · cases hadd
    exact ⟨.inl rfl, id, .inl rfl⟩
  · simp only [Option.bind_eq_some_iff, Option.some.injEq, Prod.mk.injEq] at hadd
    obtain ⟨-, -, -, -, -, -, -, rfl⟩ := hadd
    refine ⟨.inr rfl, fun heq => congrArg (· + (n - b.start)) heq, .inr ?_⟩
    change b.end_ + (n - b.start) = b.end_ - b.start + n
    grind

theorem prepend_inPlace (hd : h.block b.data = some ⟨c, d⟩) (hb : Fits d z b)
    (hg : GrowsAtStart ⟨c, d⟩ b n) (hws : Within n ws) : ∃ fresh : List UInt8,
      fresh.length = n.toNat ∧ GrowsInPlace h b c d z (prepend h b n memory ws)
        (onList fresh 0 ws ++ content d b) := by
  have hle : n.toNat ≤ b.start.toNat := hg.1
  have hs := hb.start_le
  have hz := hb.zeroAreaStart_le
  have he := hb.zeroAreaEnd_le
  have hlength := hb.le_length
  have hlt := b.start.toNat_lt
  obtain ⟨b', hb', hstart, hblock, hzs, hze, hend⟩ : ∃ b' : Buffer,
      raiseMax { b with start := b.start - n } = b' ∧
        b'.start.toNat = b.start.toNat - n.toNat ∧ b'.data = b.data ∧
        b'.zeroAreaStart = b.zeroAreaStart ∧ b'.zeroAreaEnd = b.zeroAreaEnd ∧ b'.end_ = b.end_ :=
    ⟨_, rfl, UInt32.toNat_sub_of_le _ _ hg.1, rfl, rfl, rfl, rfl⟩
  have hadd : addAtStart h b n memory =
      some (h.write b.data { d with dirtyStart := b'.start }, b') := by
    rw [addAtStart, hd, Option.bind_eq_bind, Option.bind_some, if_pos hg, ← hb']
    rfl
  have hold : b'.start.toNat + n.toNat = b.start.toNat := by omega
  have hfront : b'.start.toNat + n.toNat ≤ b'.zeroAreaStart.toNat := by
    rw [hold, hzs]
    exact hs
  have hroom : ∀ w ∈ ws, b'.start.toNat + w.1.toNat + w.2.content.length ≤ d.data.length := by
    intro w hw
    have := hws w hw
    omega
  have hwritten : (h.write b.data { d with dirtyStart := b'.start }).block b'.begin_.data =
      some ⟨c, { d with dirtyStart := b'.start }⟩ := by
    change SharedBlocks.block _ b'.data = _
    rw [hblock]
    exact SharedBlocks.block_write hd
  have hdata : (onList d.data b'.start.toNat ws).length = d.data.length := length_onList hroom
  refine ⟨slice d.data b'.start.toNat n.toNat, length_slice (by omega),
    { d with dirtyStart := b'.start, data := onList d.data b'.start.toNat ws }, b', z, hblock, ?_,
    ⟨?_, ?_, ?_, Nat.le_refl _, ?_, ?_, ?_, ?_⟩, ?_, fun hone k hk => ?_⟩
  · rw [prepend, hadd, Option.bind_eq_bind, Option.bind_some]
    dsimp only
    rw [execAll_eq hwritten (at_begin_next hfront hws) hroom]
    change some (SharedBlocks.write _ b'.data _, b') = _
    rw [hblock, SharedBlocks.write_write]
  · rw [hzs]
    omega
  · rwa [hzs, hze]
  · rwa [hze, hend]
  · rw [hzs, hze]
    exact hb.zero_le
  · rw [hzs, hze, hend]
    exact hb.le_dirtyEnd
  · rw [hzs, hze, hend]
    exact hdata.symm ▸ hb.le_length
  · exact hdata.symm ▸ hb.length_lt
  · rw [content, parts_onList_grow_front _ _ hfront (by rw [hzs]; omega) hws, hold, hzs, hze, hend]
    rfl
  · -- the bytes of the others begin behind the new ones
    have hfirst : b.start.toNat ≤ k.start.toNat := by
      have hdirty : ¬ d.dirtyStart < b.start := fun hlt => hg.2 ⟨hone, hlt⟩
      rw [UInt32.lt_iff_toNat_lt] at hdirty
      have := hk.dirtyStart_le
      omega
    refine ⟨⟨hk.start_le, hk.zeroAreaStart_le, hk.zeroAreaEnd_le, ?_, hk.zero_le, hk.le_dirtyEnd,
      hdata.symm ▸ hk.le_length, hdata.symm ▸ hk.length_lt⟩, ?_⟩
    · change b'.start.toNat ≤ _
      omega
    · refine parts_onList_of_outside hk.start_le fun w hw => ⟨hroom w hw, .inl ?_⟩
      have := hws w hw
      omega

theorem prepend_moved (hd : h.block b.data = some ⟨c, d⟩) (htop : h.block h.top = none)
    (hb : Fits d z b) (hg : ¬ GrowsAtStart ⟨c, d⟩ b n) (hws : Within n ws)
    (hsize : b.getSize.toNat + n.toNat < 2 ^ 32) : ∃ fresh : List UInt8,
      fresh.length = n.toNat ∧
        Moves h b (prepend h b n memory ws) (onList fresh 0 ws ++ content d b) := by
  obtain ⟨k, g, t, hparts, -, -, hlength⟩ := hb.exists_lengths
  rw [hparts.getSize] at hsize
  have hshift (x : UInt32) {m : ℕ} (hx : x.toNat = b.start.toNat + m) (hm : m + n.toNat < 2 ^ 32) :
      (x + (n - b.start)).toNat = n.toNat + m := by
    have hle : b.start ≤ x := UInt32.le_iff_toNat_le.2 (hx ▸ Nat.le_add_right _ _)
    have hsum : x + (n - b.start) = n + (x - b.start) := by grind
    rw [hsum, UInt32.toNat_add, UInt32.toNat_sub_of_le _ _ hle, hx, Nat.add_sub_cancel_left,
      Nat.add_comm, Nat.mod_eq_of_lt hm, Nat.add_comm]
  obtain ⟨b', hb', hstart, hblock, hzs, hze, hend⟩ : ∃ b' : Buffer,
      raiseMax { b with
        data := h.top
        start := b.start + (n - b.start) - n
        zeroAreaStart := b.zeroAreaStart + (n - b.start)
        zeroAreaEnd := b.zeroAreaEnd + (n - b.start)
        end_ := b.end_ + (n - b.start) } = b' ∧ b'.start.toNat = 0 ∧ b'.data = h.top ∧
        b'.zeroAreaStart.toNat = n.toNat + k ∧ b'.zeroAreaEnd.toNat = n.toNat + (k + g) ∧
        b'.end_.toNat = n.toNat + (k + g + t) := by
    refine ⟨_, rfl, ?_, rfl, hshift _ hparts.zeroAreaStart (by omega),
      hshift _ (hparts.zeroAreaEnd.trans (Nat.add_assoc ..)) (by omega), hshift _ ?_ hsize⟩
    · have hzero : b.start + (n - b.start) - n = 0 := by grind
      change (b.start + (n - b.start) - n).toNat = 0
      rw [hzero]
      rfl
    · rw [hparts.end_, Nat.add_assoc, Nat.add_assoc, Nat.add_assoc]
  rw [← Nat.add_assoc] at hze
  rw [← Nat.add_assoc, ← Nat.add_assoc] at hend
  obtain ⟨src, data, hread, hwrite, hdatalength, hdatalt, hcopied⟩ :=
    exists_copied hparts hlength (Nat.le_refl n.toNat) (by omega) memory
  have hadd : addAtStart h b n memory =
      ((h.alloc ⟨b'.start, b'.end_, data⟩).release (some b.data)).map (·, b') := by
    rw [addAtStart, hd, Option.bind_eq_bind, Option.bind_some, if_neg hg, hread,
      Option.bind_eq_bind, Option.bind_some, hwrite, Option.bind_eq_bind, Option.bind_some, ← hb']
    exact (Option.map_eq_bind ..).symm
  have hroom : n.toNat ≤ data.length := (Nat.le_add_left _ _).trans hdatalength
  have hfront : b'.start.toNat + n.toNat ≤ b'.zeroAreaStart.toNat := by
    rw [hstart, Nat.zero_add, hzs]
    exact Nat.le_add_right _ _
  have hat := at_begin_next hfront hws
  rw [hstart] at hat
  have hwithin : ∀ w ∈ ws, 0 + w.1.toNat + w.2.content.length ≤ data.length := by
    intro w hw
    rw [Nat.zero_add]
    exact (hws w hw).trans hroom
  have hdata' : (onList data 0 ws).length = data.length := length_onList hwithin
  have hmoved := execAll_moved (h := h) (i := b'.begin_) (a := b.data) hblock (by simp [hd]) htop
    (e := ⟨b'.start, b'.end_, data⟩) hat hwithin
  have hbytes : n.toNat + k + g + t - (n.toNat + k + g - (n.toNat + k)) = n.toNat + k + t := by
    rw [Nat.add_sub_cancel_left]
    omega
  have hgap : n.toNat + k + g + t - (n.toNat + k + g - (n.toNat + k)) + g = b'.end_.toNat := by
    rw [hbytes, hend, Nat.add_right_comm]
  refine ⟨slice data 0 n.toNat, length_slice (by rwa [Nat.zero_add]),
    ⟨b'.start, b'.end_, onList data 0 ws⟩, b', g, hblock, ?_,
    ⟨?_, ?_, ?_, Nat.le_refl _, ?_, ?_, ?_, hdata'.symm ▸ hdatalt⟩, ?_⟩
  · rw [prepend, hadd, ← hmoved]
    cases (h.alloc ⟨b'.start, b'.end_, data⟩).release (some b.data) with
    | none => rfl
    | some h' => exact (Option.map_eq_bind ..).symm
  · rw [hstart]
    exact Nat.zero_le _
  · rw [hzs, hze]
    exact Nat.le_add_right _ _
  · rw [hze, hend]
    exact Nat.le_add_right _ _
  · rw [hzs, hze, Nat.add_sub_cancel_left]
  · rw [hzs, hze, hend, hgap, hend]
  · rw [hzs, hze, hend, hbytes, hdata']
    omega
  · have hle : n.toNat + k ≤ data.length := by omega
    rw [content, hstart, parts_onList_grow_front _ _ (hstart ▸ hfront) (hzs ▸ hle) hws,
      Nat.zero_add, hzs, hze, hend, hcopied]

theorem append_inPlace (hd : h.block b.data = some ⟨c, d⟩) (hb : Fits d z b)
    (hg : GrowsAtEnd ⟨c, d⟩ b n) (hws : Within n ws) (hfit : b.end_.toNat + n.toNat < 2 ^ 32) :
    ∃ fresh : List UInt8, fresh.length = n.toNat ∧
      GrowsInPlace h b c d z (append h b n memory ws) (content d b ++ onList fresh 0 ws) := by
  have hs := hb.start_le
  have hz := hb.zeroAreaStart_le
  have he := hb.zeroAreaEnd_le
  have hlength := hb.le_length
  have hzero := hb.zero_le
  have hdirty := hb.le_dirtyEnd
  have hinternal := hb.toNat_getInternalEnd
  have hsize : (BufferData.size d).toNat = d.data.length := UInt32.toNat_ofNat_of_lt' hb.length_lt
  have hspace : b.getInternalEnd.toNat + n.toNat ≤ d.data.length := by
    have hle := UInt32.le_iff_toNat_le.1 hg.1
    rw [UInt32.toNat_add, Nat.mod_eq_of_lt (by omega)] at hle
    exact hsize ▸ hle
  obtain ⟨b', hb', hend, hblock, hstart, hzs, hze⟩ : ∃ b' : Buffer,
      raiseMax { b with end_ := b.end_ + n } = b' ∧ b'.end_.toNat = b.end_.toNat + n.toNat ∧
        b'.data = b.data ∧ b'.start = b.start ∧ b'.zeroAreaStart = b.zeroAreaStart ∧
        b'.zeroAreaEnd = b.zeroAreaEnd :=
    ⟨_, rfl, (UInt32.toNat_add ..).trans (Nat.mod_eq_of_lt hfit), rfl, rfl, rfl, rfl⟩
  have hadd : addAtEnd h b n memory =
      some (h.write b.data { d with dirtyEnd := b'.end_ }, b') := by
    rw [addAtEnd, hd, Option.bind_eq_bind, Option.bind_some, if_pos hg, ← hb']
    rfl
  have hat := at_prev_next (b := b') (p := b.getInternalEnd.toNat) (by rwa [hzs, hze])
    (by rw [hze]; omega) (by rw [hzs, hze]; omega) hws
  have hroom : ∀ w ∈ ws,
      b.getInternalEnd.toNat + w.1.toNat + w.2.content.length ≤ d.data.length := by
    intro w hw
    have := hws w hw
    omega
  have hwritten : (h.write b.data { d with dirtyEnd := b'.end_ }).block (b'.atEnd.prev n).data =
      some ⟨c, { d with dirtyEnd := b'.end_ }⟩ := by
    change SharedBlocks.block _ b'.data = _
    rw [hblock]
    exact SharedBlocks.block_write hd
  have hdata : (onList d.data b.getInternalEnd.toNat ws).length = d.data.length :=
    length_onList hroom
  refine ⟨slice d.data b.getInternalEnd.toNat n.toNat, length_slice hspace,
    { d with dirtyEnd := b'.end_, data := onList d.data b.getInternalEnd.toNat ws }, b',
    b.zeroAreaEnd.toNat - b.zeroAreaStart.toNat, hblock, ?_, ⟨?_, ?_, ?_, ?_, ?_, ?_, ?_, ?_⟩, ?_,
    fun hone k hk => ?_⟩
  · rw [append, hadd, Option.bind_eq_bind, Option.bind_some]
    dsimp only
    rw [execAll_eq hwritten hat hroom]
    change some (SharedBlocks.write _ b'.data _, b') = _
    rw [hblock, SharedBlocks.write_write]
  · rwa [hstart, hzs]
  · rwa [hzs, hze]
  · rw [hze]
    omega
  · rw [hstart]
    exact hb.dirtyStart_le
  · rw [hzs, hze]
  · change _ ≤ b'.end_.toNat
    rw [hzs, hze]
    omega
  · rw [hzs, hze]
    exact hdata.symm ▸ (by omega)
  · exact hdata.symm ▸ hb.length_lt
  · have hpos : b.getInternalEnd.toNat =
        b.zeroAreaStart.toNat + (b.end_.toNat - b.zeroAreaEnd.toNat) := by omega
    rw [content, hstart, hzs, hze, hend, hpos, parts_onList_grow_back hs hz he (by omega) hws]
    rfl
  · -- the bytes of the others end before the new ones
    have hlast : b.end_.toNat = d.dirtyEnd.toNat := by
      have hdirty' : ¬ b.end_ < d.dirtyEnd := fun hlt => hg.2 ⟨hone, hlt⟩
      rw [UInt32.lt_iff_toNat_lt] at hdirty'
      omega
    have hks := hk.start_le
    have hkz := hk.zeroAreaStart_le
    have hke := hk.zeroAreaEnd_le
    have hkzero := hk.zero_le
    have hkdirty := hk.le_dirtyEnd
    refine ⟨⟨hks, hkz, hke, hk.dirtyStart_le, by omega, ?_, hdata.symm ▸ hk.le_length,
      hdata.symm ▸ hk.length_lt⟩, ?_⟩
    · change _ ≤ b'.end_.toNat
      omega
    · exact parts_onList_of_outside hks fun w hw => ⟨hroom w hw, .inr (by omega)⟩

theorem append_moved (hd : h.block b.data = some ⟨c, d⟩) (htop : h.block h.top = none)
    (hb : Fits d z b) (hg : ¬ GrowsAtEnd ⟨c, d⟩ b n) (hws : Within n ws)
    (hsize : b.getSize.toNat + n.toNat < 2 ^ 32) : ∃ fresh : List UInt8,
      fresh.length = n.toNat ∧
        Moves h b (append h b n memory ws) (content d b ++ onList fresh 0 ws) := by
  obtain ⟨k, g, t, hparts, -, -, hlength⟩ := hb.exists_lengths
  rw [hparts.getSize] at hsize
  have hshift (x : UInt32) {m : ℕ} (hx : x.toNat = b.start.toNat + m) :
      (x + -b.start).toNat = m := by
    have hle : b.start ≤ x := UInt32.le_iff_toNat_le.2 (hx ▸ Nat.le_add_right _ _)
    rw [← UInt32.sub_eq_add_neg, UInt32.toNat_sub_of_le _ _ hle, hx, Nat.add_sub_cancel_left]
  have hall : b.end_.toNat = b.start.toNat + (k + g + t) := by
    rw [hparts.end_, Nat.add_assoc, Nat.add_assoc, Nat.add_assoc]
  obtain ⟨b', hb', hstart, hblock, hzs, hze, hend⟩ : ∃ b' : Buffer,
      raiseMax { b with
        data := h.top
        zeroAreaStart := b.zeroAreaStart + -b.start
        zeroAreaEnd := b.zeroAreaEnd + -b.start
        end_ := b.end_ + -b.start + n
        start := b.start + -b.start } = b' ∧ b'.start.toNat = 0 ∧ b'.data = h.top ∧
        b'.zeroAreaStart.toNat = k ∧ b'.zeroAreaEnd.toNat = k + g ∧
        b'.end_.toNat = k + g + t + n.toNat := by
    refine ⟨_, rfl, hshift _ (Nat.add_zero _).symm, rfl, hshift _ hparts.zeroAreaStart,
      hshift _ (hparts.zeroAreaEnd.trans (Nat.add_assoc ..)), ?_⟩
    change (b.end_ + -b.start + n).toNat = _
    rw [UInt32.toNat_add, hshift _ hall, Nat.mod_eq_of_lt hsize]
  obtain ⟨src, data, hread, hwrite, hdatalength, hdatalt, hcopied⟩ :=
    exists_copied hparts hlength (Nat.zero_le n.toNat) (by omega) memory
  rw [Nat.zero_add] at hcopied
  have hadd : addAtEnd h b n memory =
      ((h.alloc ⟨b'.start, b'.end_, data⟩).release (some b.data)).map (·, b') := by
    rw [addAtEnd, hd, Option.bind_eq_bind, Option.bind_some, if_neg hg, hread,
      Option.bind_eq_bind, Option.bind_some, hwrite, Option.bind_eq_bind, Option.bind_some, ← hb']
    exact (Option.map_eq_bind ..).symm
  have hinternal : k + t = k + (k + g + t - (k + g)) := by rw [Nat.add_sub_cancel_left]
  have hat := at_prev_next (b := b') (p := k + t) (by rw [hzs, hze]; exact Nat.le_add_right _ _)
    (by rw [hze, hend]; omega) (by rw [hzs, hze, hend, Nat.add_sub_cancel_left]; omega) hws
  have hwithin : ∀ w ∈ ws, k + t + w.1.toNat + w.2.content.length ≤ data.length := by
    intro w hw
    rw [Nat.add_assoc (k + t)]
    exact (Nat.add_le_add_left (hws w hw) _).trans hdatalength
  have hdata' : (onList data (k + t) ws).length = data.length := length_onList hwithin
  have hmoved := execAll_moved (h := h) (i := b'.atEnd.prev n) (a := b.data) hblock (by simp [hd])
    htop (e := ⟨b'.start, b'.end_, data⟩) hat hwithin
  have hbytes : k + g + t + n.toNat - (k + g - k) = k + t + n.toNat := by
    rw [Nat.add_sub_cancel_left]
    omega
  refine ⟨slice data (k + t) n.toNat, length_slice hdatalength,
    ⟨b'.start, b'.end_, onList data (k + t) ws⟩, b', g, hblock, ?_,
    ⟨?_, ?_, ?_, Nat.le_refl _, ?_, ?_, ?_, hdata'.symm ▸ hdatalt⟩, ?_⟩
  · rw [append, hadd, ← hmoved]
    cases (h.alloc ⟨b'.start, b'.end_, data⟩).release (some b.data) with
    | none => rfl
    | some h' => exact (Option.map_eq_bind ..).symm
  · rw [hstart]
    exact Nat.zero_le _
  · rw [hzs, hze]
    exact Nat.le_add_right _ _
  · rw [hze, hend, Nat.add_assoc]
    exact Nat.le_add_right _ _
  · rw [hzs, hze, Nat.add_sub_cancel_left]
  · rw [hzs, hze, hend, hbytes]
    omega
  · rw [hzs, hze, hend, hbytes, hdata']
    exact hdatalength
  · rw [content, hstart, hzs, hze, hend, hinternal, parts_onList_grow_back (Nat.zero_le _)
      (Nat.le_add_right _ _) (Nat.le_add_right _ _) (hinternal ▸ hdatalength) hws, hcopied]

end Buffer

end SeanetSim
