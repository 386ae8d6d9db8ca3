import SeanetSim.Network.Buffer

/-!
# What a buffer holds

`Buffer.Fits` says how a buffer lies in its block: its bytes are inside, within the dirty area, and
no other buffer of the block goes further than one whose end is that of the dirty area.  Each
operation keeps it and does to the content, with the zero area expanded, what it would do to a list.
-/

namespace SeanetSim

namespace Buffer

/-- Bytes, zeros and bytes again, where the zeros take no memory. -/
def parts (data : List UInt8) (start zeroStart zeroEnd end_ : ℕ) : List UInt8 :=
  slice data start (zeroStart - start) ++ List.replicate (zeroEnd - zeroStart) 0 ++
    slice data zeroStart (end_ - zeroEnd)

section parts

variable {data : List UInt8} {s zs ze e n : ℕ}

theorem length_parts (hs : s ≤ zs) (hz : zs ≤ ze) (he : ze ≤ e)
    (hdata : e - (ze - zs) ≤ data.length) : (parts data s zs ze e).length = e - s := by
  rw [parts, List.length_append, List.length_append, List.length_replicate,
    length_slice (by omega), length_slice (by omega)]
  omega

theorem drop_parts_of_le_zeroStart (hn : s + n ≤ zs) (hdata : zs ≤ data.length) :
    (parts data s zs ze e).drop n = parts data (s + n) zs ze e := by
  rw [parts, parts, List.append_assoc, List.append_assoc,
    List.drop_append_of_le_length (by rw [length_slice (by omega)]; omega), drop_slice,
    Nat.sub_sub]

theorem drop_parts_of_le_zeroEnd (hs : s ≤ zs) (hn : zs ≤ s + n) (hn' : s + n ≤ ze)
    (hdata : zs ≤ data.length) : (parts data s zs ze e).drop n =
      parts data zs zs (ze - (s + n - zs)) (e - (s + n - zs)) := by
  obtain ⟨k, hk⟩ := Nat.exists_eq_add_of_le hn
  have hn : n = (slice data s (zs - s)).length + k := by
    rw [length_slice (by omega)]
    omega
  rw [parts, parts, Nat.sub_self, slice_zero, List.nil_append, List.append_assoc, hn,
    ← List.drop_drop, List.drop_left, List.drop_append_of_le_length (by simp; omega),
    List.drop_replicate, ← hn]
  congr 2 <;> omega

theorem drop_parts_of_le_end (hs : s ≤ zs) (hz : zs ≤ ze) (hn : ze ≤ s + n)
    (hdata : zs ≤ data.length) : (parts data s zs ze e).drop n =
      parts data (s + n - (ze - zs)) (s + n - (ze - zs)) (s + n - (ze - zs)) (e - (ze - zs)) := by
  obtain ⟨k, hk⟩ := Nat.exists_eq_add_of_le hn
  have hn : n = (slice data s (zs - s) ++ List.replicate (ze - zs) 0).length + k := by
    rw [List.length_append, length_slice (by omega), List.length_replicate]
    omega
  rw [parts, parts, Nat.sub_self, slice_zero, List.nil_append, List.replicate_zero,
    List.nil_append, hn, ← List.drop_drop, List.drop_left, drop_slice, ← hn]
  congr 1 <;> omega

theorem parts_nil : parts data s s s s = [] := by simp [parts, slice_zero]

theorem take_parts_of_zeroEnd_le (hs : s ≤ zs) (hz : zs ≤ ze) (hn : ze ≤ s + n)
    (hn' : s + n ≤ e) (hdata : zs ≤ data.length) :
    (parts data s zs ze e).take n = parts data s zs ze (s + n) := by
  obtain ⟨k, hk⟩ := Nat.exists_eq_add_of_le hn
  have hn : n = (slice data s (zs - s) ++ List.replicate (ze - zs) 0).length + k := by
    rw [List.length_append, length_slice (by omega), List.length_replicate]
    omega
  rw [parts, parts, hn, List.take_length_add_append, take_slice, ← hn]
  congr 2
  omega

theorem take_parts_of_zeroStart_le (hs : s ≤ zs) (hn : zs ≤ s + n) (hn' : s + n ≤ ze)
    (hdata : zs ≤ data.length) :
    (parts data s zs ze e).take n = parts data s zs (s + n) (s + n) := by
  obtain ⟨k, hk⟩ := Nat.exists_eq_add_of_le hn
  have hn : n = (slice data s (zs - s)).length + k := by
    rw [length_slice (by omega)]
    omega
  rw [parts, parts, Nat.sub_self, slice_zero, List.append_nil, List.append_assoc, hn,
    List.take_length_add_append, List.take_append_of_le_length (by simp; omega),
    List.take_replicate, ← hn]
  congr 2
  omega

theorem take_parts_of_le (hn : s + n ≤ zs) (hdata : zs ≤ data.length) :
    (parts data s zs ze e).take n = parts data s (s + n) (s + n) (s + n) := by
  rw [parts, parts, Nat.sub_self, slice_zero, List.replicate_zero, List.append_nil,
    List.append_nil, List.append_assoc,
    List.take_append_of_le_length (by rw [length_slice (by omega)]; omega), take_slice]
  congr 1
  omega

end parts

/-- The content of a buffer, with its zero area expanded. -/
def content (d : BufferData) (b : Buffer) : List UInt8 :=
  parts d.data b.start.toNat b.zeroAreaStart.toNat b.zeroAreaEnd.toNat b.end_.toNat

/-- What is read of a buffer from the memory it points to. -/
def view (v : Option BufferData) (b : Buffer) : List UInt8 := (v.map fun d => content d b).getD []

/-- How a buffer lies in its block.  No zero area is longer than `z`, and no bytes go further than
those of a buffer that has such an area and ends where the dirty area does. -/
structure Fits (d : BufferData) (z : ℕ) (b : Buffer) : Prop where
  start_le : b.start.toNat ≤ b.zeroAreaStart.toNat
  zeroAreaStart_le : b.zeroAreaStart.toNat ≤ b.zeroAreaEnd.toNat
  zeroAreaEnd_le : b.zeroAreaEnd.toNat ≤ b.end_.toNat
  dirtyStart_le : d.dirtyStart.toNat ≤ b.start.toNat
  zero_le : b.zeroAreaEnd.toNat - b.zeroAreaStart.toNat ≤ z
  le_dirtyEnd : b.end_.toNat - (b.zeroAreaEnd.toNat - b.zeroAreaStart.toNat) + z ≤
    d.dirtyEnd.toNat
  le_length : b.end_.toNat - (b.zeroAreaEnd.toNat - b.zeroAreaStart.toNat) ≤ d.data.length
  length_lt : d.data.length < 2 ^ 32

variable {d : BufferData} {z : ℕ} {b : Buffer} {h : BufferHeap} {n : UInt32}

namespace Fits

theorem toNat_zeroes (hb : Fits d z b) : (b.zeroAreaEnd - b.zeroAreaStart).toNat =
    b.zeroAreaEnd.toNat - b.zeroAreaStart.toNat :=
  UInt32.toNat_sub_of_le _ _ hb.zeroAreaStart_le

theorem toNat_getSize (hb : Fits d z b) :
    b.getSize.toNat = b.end_.toNat - b.start.toNat :=
  UInt32.toNat_sub_of_le _ _
    ((hb.start_le.trans hb.zeroAreaStart_le).trans hb.zeroAreaEnd_le)

theorem toNat_getInternalEnd (hb : Fits d z b) : b.getInternalEnd.toNat =
    b.end_.toNat - (b.zeroAreaEnd.toNat - b.zeroAreaStart.toNat) := by
  have hz := hb.toNat_zeroes
  have hle := hb.zeroAreaEnd_le
  rw [getInternalEnd, UInt32.toNat_sub_of_le _ _ (UInt32.le_iff_toNat_le.2 (by omega)), hz]

theorem toNat_getInternalSize (hb : Fits d z b) : b.getInternalSize.toNat =
    b.end_.toNat - (b.zeroAreaEnd.toNat - b.zeroAreaStart.toNat) - b.start.toNat := by
  have hs := hb.start_le
  have hz := hb.zeroAreaStart_le
  have he := hb.zeroAreaEnd_le
  have hlt := b.end_.toNat_lt
  have hsplit : b.zeroAreaStart - b.start + b.end_ - b.zeroAreaEnd =
      (b.end_ - b.zeroAreaEnd) + (b.zeroAreaStart - b.start) := by grind
  rw [getInternalSize, hsplit, UInt32.toNat_add, UInt32.toNat_sub_of_le _ _ he,
    UInt32.toNat_sub_of_le _ _ hs, Nat.mod_eq_of_lt (by omega)]
  omega

theorem length_content (hb : Fits d z b) : (content d b).length = b.getSize.toNat := by
  rw [hb.toNat_getSize]
  exact length_parts hb.start_le hb.zeroAreaStart_le hb.zeroAreaEnd_le hb.le_length

/-- `CopyData` reads what is there. -/
theorem copyData_eq (hb : Fits d z b) {c : UInt32} (hd : h.block b.data = some ⟨c, d⟩) :
    copyData h b = some (content d b) := by
  have hs := hb.start_le
  have hz := hb.zeroAreaStart_le
  have he := hb.zeroAreaEnd_le
  have hle := hb.le_length
  have hfront : (b.zeroAreaStart - b.start).toNat = b.zeroAreaStart.toNat - b.start.toNat :=
    UInt32.toNat_sub_of_le _ _ hs
  have hback : (b.end_ - b.zeroAreaEnd).toNat = b.end_.toNat - b.zeroAreaEnd.toNat :=
    UInt32.toNat_sub_of_le _ _ he
  rw [copyData, hd, Option.bind_eq_bind, Option.bind_some, hfront, hback, hb.toNat_zeroes,
    readAt_eq (show _ ≤ d.data.length by omega), readAt_eq (show _ ≤ d.data.length by omega)]
  rfl

theorem raiseMax (hb : Fits d z b) : Fits d z b.raiseMax := ⟨hb.start_le,
  hb.zeroAreaStart_le, hb.zeroAreaEnd_le, hb.dirtyStart_le, hb.zero_le, hb.le_dirtyEnd,
  hb.le_length, hb.length_lt⟩

/-- The end of the bytes of a buffer, without its zero area. -/
theorem internalEnd_eq {zs ze e : ℕ} (hz : zs ≤ ze) (he : ze ≤ e) :
    e - (ze - zs) = zs + (e - ze) := by
  omega

theorem add_le_dirtyEnd (hb : Fits d z b) :
    b.zeroAreaStart.toNat + (b.end_.toNat - b.zeroAreaEnd.toNat) + z ≤ d.dirtyEnd.toNat := by
  rw [← internalEnd_eq hb.zeroAreaStart_le hb.zeroAreaEnd_le]
  exact hb.le_dirtyEnd

theorem add_le_length (hb : Fits d z b) :
    b.zeroAreaStart.toNat + (b.end_.toNat - b.zeroAreaEnd.toNat) ≤ d.data.length := by
  rw [← internalEnd_eq hb.zeroAreaStart_le hb.zeroAreaEnd_le]
  exact hb.le_length

theorem zeroAreaStart_le_length (hb : Fits d z b) : b.zeroAreaStart.toNat ≤ d.data.length :=
  (Nat.le_add_right _ _).trans hb.add_le_length

/-- A buffer with these bounds fits where another one does: its bytes go no further. -/
theorem of_bounds (hb : Fits d z b) {b' : Buffer} {s zs ze e : ℕ} (hs' : b'.start.toNat = s)
    (hzs' : b'.zeroAreaStart.toNat = zs) (hze' : b'.zeroAreaEnd.toNat = ze)
    (he' : b'.end_.toNat = e) (hs : s ≤ zs) (hz : zs ≤ ze) (he : ze ≤ e)
    (hstart : b.start.toNat ≤ s) (hzero : ze - zs ≤ z)
    (hend : zs + (e - ze) ≤ b.zeroAreaStart.toNat + (b.end_.toNat - b.zeroAreaEnd.toNat)) :
    Fits d z b' := by
  subst hs' hzs' hze' he'
  refine ⟨hs, hz, he, hb.dirtyStart_le.trans hstart, hzero, ?_, ?_, hb.length_lt⟩
  · rw [internalEnd_eq hz he]
    exact (Nat.add_le_add_right hend z).trans hb.add_le_dirtyEnd
  · rw [internalEnd_eq hz he]
    exact hend.trans hb.add_le_length

/-- Bytes at the start are removed, if the new start is no 32-bit overflow. -/
theorem removeAtStart (hb : Fits d z b) (hn : b.start.toNat + n.toNat < 2 ^ 32) :
    Fits d z (b.removeAtStart n) ∧
      content d (b.removeAtStart n) = (content d b).drop n.toNat := by
  have hs := hb.start_le
  have hz := hb.zeroAreaStart_le
  have he := hb.zeroAreaEnd_le
  have hzero := hb.zero_le
  have hdata := hb.zeroAreaStart_le_length
  have hnew : (b.start + n).toNat = b.start.toNat + n.toNat := by
    rw [UInt32.toNat_add, Nat.mod_eq_of_lt hn]
  unfold Buffer.removeAtStart content
  simp only [UInt32.le_iff_toNat_le, hnew]
  split_ifs with h₁ h₂ h₃
  · refine ⟨.raiseMax (hb.of_bounds hnew rfl rfl rfl h₁ hz he (Nat.le_add_right _ _) hzero le_rfl),
      ?_⟩
    simp only [Buffer.raiseMax, hnew]
    rw [drop_parts_of_le_zeroStart h₁ hdata]
  · obtain ⟨r, hr⟩ := Nat.exists_eq_add_of_le h₂
    obtain ⟨t, ht⟩ := Nat.exists_eq_add_of_le he
    have hle : b.zeroAreaStart.toNat ≤ b.start.toNat + n.toNat := Nat.le_of_not_le h₁
    have hdelta : (b.start + n - b.zeroAreaStart).toNat =
        b.start.toNat + n.toNat - b.zeroAreaStart.toNat := by
      rw [UInt32.toNat_sub_of_le _ _ (UInt32.le_iff_toNat_le.2 (hnew ▸ hle)), hnew]
    have hzeroEnd : (b.zeroAreaEnd - (b.start + n - b.zeroAreaStart)).toNat =
        b.zeroAreaStart.toNat + r := by
      rw [UInt32.toNat_sub_of_le _ _ (UInt32.le_iff_toNat_le.2 (by omega)), hdelta, hr]
      omega
    have hend : (b.end_ - (b.start + n - b.zeroAreaStart)).toNat =
        b.zeroAreaStart.toNat + r + t := by
      rw [UInt32.toNat_sub_of_le _ _ (UInt32.le_iff_toNat_le.2 (by omega)), hdelta, ht, hr]
      omega
    have hgap : b.zeroAreaStart.toNat + r - b.zeroAreaStart.toNat ≤ z := by omega
    have hlast : b.zeroAreaStart.toNat + (b.zeroAreaStart.toNat + r + t -
        (b.zeroAreaStart.toNat + r)) ≤
          b.zeroAreaStart.toNat + (b.end_.toNat - b.zeroAreaEnd.toNat) := by
      rw [ht, Nat.add_sub_cancel_left, Nat.add_sub_cancel_left]
    refine ⟨.raiseMax (hb.of_bounds rfl rfl hzeroEnd hend le_rfl (Nat.le_add_right _ _)
      (Nat.le_add_right _ _) hs hgap hlast), ?_⟩
    simp only [Buffer.raiseMax, hzeroEnd, hend]
    rw [drop_parts_of_le_zeroEnd hs hle h₂ hdata]
    congr 1 <;> omega
  · have hzeroes := hb.toNat_zeroes
    have hle : b.zeroAreaEnd.toNat ≤ b.start.toNat + n.toNat := Nat.le_of_not_le h₂
    have hgap : b.zeroAreaEnd.toNat - b.zeroAreaStart.toNat ≤ b.start.toNat + n.toNat :=
      (Nat.sub_le _ _).trans hle
    have hgap' : b.zeroAreaEnd.toNat - b.zeroAreaStart.toNat ≤ b.end_.toNat :=
      (Nat.sub_le _ _).trans he
    have hstart : (b.start + n - (b.zeroAreaEnd - b.zeroAreaStart)).toNat =
        b.start.toNat + n.toNat - (b.zeroAreaEnd.toNat - b.zeroAreaStart.toNat) := by
      rw [UInt32.toNat_sub_of_le, hnew, hzeroes]
      rwa [UInt32.le_iff_toNat_le, hnew, hzeroes]
    have hend : (b.end_ - (b.zeroAreaEnd - b.zeroAreaStart)).toNat =
        b.end_.toNat - (b.zeroAreaEnd.toNat - b.zeroAreaStart.toNat) := hb.toNat_getInternalEnd
    have hfirst : b.start.toNat ≤
        b.start.toNat + n.toNat - (b.zeroAreaEnd.toNat - b.zeroAreaStart.toNat) := by omega
    have hlast := internalEnd_eq hz he
    have horder := Nat.sub_le_sub_right h₃ (b.zeroAreaEnd.toNat - b.zeroAreaStart.toNat)
    refine ⟨.raiseMax (hb.of_bounds hstart hstart hstart hend le_rfl le_rfl horder hfirst ?_ ?_),
      ?_⟩
    · rw [Nat.sub_self]
      exact Nat.zero_le z
    · rw [Nat.add_sub_cancel' horder, hlast]
    · simp only [Buffer.raiseMax, hstart, hend]
      rw [drop_parts_of_le_end hs hz hle hdata]
  · have hend : (b.end_ - (b.zeroAreaEnd - b.zeroAreaStart)).toNat =
        b.end_.toNat - (b.zeroAreaEnd.toNat - b.zeroAreaStart.toNat) := hb.toNat_getInternalEnd
    have hlast := internalEnd_eq hz he
    have hlen := length_parts hs hz he hb.le_length
    rw [hlast] at hend
    refine ⟨.raiseMax (hb.of_bounds hend hend hend hend le_rfl le_rfl le_rfl
      (hs.trans (Nat.le_add_right _ _)) ?_ ?_), ?_⟩
    · rw [Nat.sub_self]
      exact Nat.zero_le z
    · rw [Nat.sub_self, Nat.add_zero]
    · rw [Buffer.raiseMax]
      dsimp only
      rw [parts_nil, List.drop_eq_nil_of_le]
      rw [hlen]
      omega

theorem min_add_sub (m n : ℕ) : min m n + (n - m) = n := by omega

/-- Bytes at the end are removed. -/
theorem removeAtEnd (hb : Fits d z b) (n : UInt32) :
    Fits d z (b.removeAtEnd n) ∧ content d (b.removeAtEnd n) =
      (content d b).take (b.getSize.toNat - n.toNat) := by
  have hsize := hb.toNat_getSize
  have hs := hb.start_le
  have hz := hb.zeroAreaStart_le
  have he := hb.zeroAreaEnd_le
  have hzero := hb.zero_le
  have hdata := hb.zeroAreaStart_le_length
  obtain ⟨k, hk⟩ : ∃ k, b.getSize.toNat - n.toNat = k := ⟨_, rfl⟩
  obtain ⟨m, hm⟩ : ∃ m, min n.toNat b.getSize.toNat = m := ⟨_, rfl⟩
  have hmin : (min n (b.end_ - b.start)).toNat = m := (UInt32.toNat_min n b.getSize).trans hm
  have hcut : m + k = b.getSize.toNat := by
    rw [← hm, ← hk]
    exact min_add_sub _ _
  have hall : b.start.toNat + b.getSize.toNat = b.end_.toNat := by
    rw [hsize]
    exact Nat.add_sub_cancel' ((hs.trans hz).trans he)
  have hend : m + (b.start.toNat + k) = b.end_.toNat := by rw [← hall, ← hcut, Nat.add_left_comm]
  have hkend : b.start.toNat + k ≤ b.end_.toNat := hend ▸ Nat.le_add_left _ _
  have hnew : (b.end_ - min n (b.end_ - b.start)).toNat = b.start.toNat + k := by
    have hle : m ≤ b.end_.toNat := hend ▸ Nat.le_add_right _ _
    rw [UInt32.toNat_sub_of_le _ _ (UInt32.le_iff_toNat_le.2 (hmin ▸ hle)), hmin, ← hend,
      Nat.add_sub_cancel_left]
  rw [hk]
  unfold Buffer.removeAtEnd content
  simp only [UInt32.lt_iff_toNat_lt, hnew]
  split_ifs with h₁ h₂ h₃
  · refine ⟨.raiseMax (hb.of_bounds rfl rfl rfl hnew hs hz h₁.le le_rfl hzero ?_), ?_⟩
    · exact Nat.add_le_add_left (Nat.sub_le_sub_right hkend _) _
    · simp only [Buffer.raiseMax, hnew]
      rw [take_parts_of_zeroEnd_le hs hz h₁.le hkend hdata]
  · have hle := Nat.not_lt.1 h₁
    refine ⟨.raiseMax (hb.of_bounds rfl rfl hnew hnew hs h₂.le le_rfl le_rfl
      ((Nat.sub_le_sub_right hle _).trans hzero) ?_), ?_⟩
    · rw [Nat.sub_self]
      exact Nat.add_le_add_left (Nat.zero_le _) _
    · simp only [Buffer.raiseMax, hnew]
      rw [take_parts_of_zeroStart_le hs h₂.le hle hdata]
  · have hle := Nat.not_lt.1 h₂
    refine ⟨.raiseMax (hb.of_bounds rfl hnew hnew hnew (Nat.le_add_right _ _) le_rfl le_rfl le_rfl
      ?_ ?_), ?_⟩
    · rw [Nat.sub_self]
      exact Nat.zero_le z
    · rw [Nat.sub_self, Nat.add_zero]
      exact hle.trans (Nat.le_add_right _ _)
    · simp only [Buffer.raiseMax, hnew]
      rw [take_parts_of_le hle hdata]
  · have hk0 : k = 0 := by omega
    refine ⟨.raiseMax (hb.of_bounds rfl rfl rfl rfl le_rfl le_rfl le_rfl le_rfl ?_ ?_), ?_⟩
    · rw [Nat.sub_self]
      exact Nat.zero_le z
    · rw [Nat.sub_self, Nat.add_zero]
      exact hs.trans (Nat.le_add_right _ _)
    · rw [Buffer.raiseMax]
      dsimp only
      rw [parts_nil, hk0, List.take_zero]

end Fits

/-! ## Writes -/

section writes

variable {data src : List UInt8} {s zs ze e k pos : ℕ}

/-- A write to the bytes before the zero area. -/
theorem parts_memcpy_front (hs : s ≤ zs) (hk : k + src.length ≤ zs - s) (hdata : zs ≤ data.length) :
    parts (memcpy data (s + k) src) s zs ze e = memcpy (parts data s zs ze e) k src := by
  have hlength : (slice data s (zs - s)).length = zs - s := length_slice (by omega)
  rw [parts, parts, slice_memcpy_inside (by omega) (by omega) (by omega),
    slice_memcpy_of_ge (by omega) (by omega), Nat.add_sub_cancel_left,
    memcpy_append_left (by rw [List.length_append]; omega), memcpy_append_left (by omega)]

/-- A write to the bytes behind the zero area. -/
theorem parts_memcpy_back (hs : s ≤ zs) (hz : zs ≤ ze) (hk : k + src.length ≤ e - ze)
    (hdata : zs + (e - ze) ≤ data.length) : parts (memcpy data (zs + k) src) s zs ze e =
      memcpy (parts data s zs ze e) (ze - s + k) src := by
  have hlength : (slice data s (zs - s) ++ List.replicate (ze - zs) 0).length = ze - s := by
    rw [List.length_append, length_slice (by omega), List.length_replicate]
    omega
  rw [parts, parts, slice_memcpy_of_le (by omega) (by omega),
    slice_memcpy_inside (by omega) (by omega) (by omega), Nat.add_sub_cancel_left, ← hlength,
    memcpy_append_right]

/-- A write to bytes that are not those of the buffer. -/
theorem parts_memcpy_of_outside (hs : s ≤ zs) (h : pos + src.length ≤ s ∨ zs + (e - ze) ≤ pos)
    (hpos : pos + src.length ≤ data.length) :
    parts (memcpy data pos src) s zs ze e = parts data s zs ze e := by
  rcases h with h | h
  · rw [parts, parts, slice_memcpy_of_ge h hpos, slice_memcpy_of_ge (h.trans hs) hpos]
  · rw [parts, parts, slice_memcpy_of_le (by omega) (by omega),
      slice_memcpy_of_le h (by omega)]

end writes

end Buffer

namespace BufferWrite

open Buffer

variable {h : BufferHeap} {i : Buffer.Iterator} {d : BufferData} {c n : UInt32} {p m : ℕ}
  {w : BufferWrite} {ws : List (UInt32 × BufferWrite)} {x y : List UInt8}

theorem writeData_eq {src : List UInt8} {a : ℕ} (hd : h.block a = some ⟨c, d⟩)
    (hroom : p + src.length ≤ d.data.length) :
    h.writeData a p src = some (h.write a { d with data := memcpy d.data p src }) := by
  rw [SharedBlocks.writeData, hd, Option.bind_eq_bind, Option.bind_some, writeAt_eq hroom]
  rfl

/-- The iterator stands at the position `p` of its block, with room for `len` bytes. -/
def At (i : Buffer.Iterator) (p len : ℕ) : Prop :=
  (i.current.toNat + len ≤ i.zeroStart.toNat ∧ p = i.current.toNat) ∨
    (i.zeroStart.toNat ≤ i.zeroEnd.toNat ∧ i.zeroEnd.toNat ≤ i.current.toNat ∧
      p = i.current.toNat - (i.zeroEnd.toNat - i.zeroStart.toNat))

theorem exec_eq (hd : h.block i.data = some ⟨c, d⟩) (hat : At i p w.content.length)
    (hroom : p + w.content.length ≤ d.data.length) :
    w.exec h i = some (h.write i.data { d with data := memcpy d.data p w.content }) := by
  have hback (hz : i.zeroStart.toNat ≤ i.zeroEnd.toNat)
      (he : i.zeroEnd.toNat ≤ i.current.toNat) :
      (i.current - (i.zeroEnd - i.zeroStart)).toNat =
        i.current.toNat - (i.zeroEnd.toNat - i.zeroStart.toNat) := by
    have hzeroes := UInt32.toNat_sub_of_le _ _ (UInt32.le_iff_toNat_le.2 hz)
    rw [UInt32.toNat_sub_of_le _ _ (UInt32.le_iff_toNat_le.2 (by omega)), hzeroes]
  cases w with
  | u8 v =>
    have hpos : (if i.current < i.zeroStart then i.current
        else i.current - (i.zeroEnd - i.zeroStart)).toNat = p := by
      simp only [UInt32.lt_iff_toNat_lt]
      rcases hat with ⟨hlt, hp⟩ | ⟨hz, he, hp⟩
      · rw [if_pos (by simp only [content, List.length_singleton] at hlt; omega), hp]
      · rw [if_neg (by omega), hback hz he, hp]
    have hwrite : h.writeData i.data p [v] = _ := writeData_eq hd hroom
    rw [exec, Buffer.Iterator.writeU8, hpos, hwrite]
    rfl
  | bytes l =>
    have hpos : (if i.current ≤ i.zeroStart then i.current
        else i.current - (i.zeroEnd - i.zeroStart)).toNat = p := by
      simp only [UInt32.le_iff_toNat_le]
      rcases hat with ⟨hlt, hp⟩ | ⟨hz, he, hp⟩
      · rw [if_pos (by omega), hp]
      · split_ifs with hle
        · omega
        · rw [hback hz he, hp]
    have hwrite : h.writeData i.data p l = _ := writeData_eq hd hroom
    rw [exec, Buffer.Iterator.write, hpos, hwrite]
    rfl

/-- Writes at the position `p` of a block. -/
theorem execAll_eq (hd : h.block i.data = some ⟨c, d⟩)
    (hat : ∀ w ∈ ws, At (i.next w.1) (p + w.1.toNat) w.2.content.length)
    (hroom : ∀ w ∈ ws, p + w.1.toNat + w.2.content.length ≤ d.data.length) :
    execAll h i ws = some (h.write i.data { d with data := onList d.data p ws }) := by
  induction ws generalizing h d with
  | nil => exact congrArg some (SharedBlocks.write_self hd).symm
  | cons w ws ih =>
    obtain ⟨k, w⟩ := w
    have hd' : (i.next k).data = i.data := rfl
    rw [List.forall_mem_cons] at hat hroom
    rw [execAll, exec_eq (hd'.symm ▸ hd) hat.1 hroom.1, Option.bind_eq_bind, Option.bind_some, hd',
      ih (SharedBlocks.block_write hd) hat.2 fun w hw => ?_, SharedBlocks.write_write]
    · rfl
    · change _ ≤ (memcpy _ _ _).length
      rw [length_memcpy hroom.1]
      exact hroom.2 w hw

/-- Writes to two lists keep what single ones keep. -/
theorem onList_rel {P : List UInt8 → List UInt8 → Prop} (hP : P x y)
    (hstep : ∀ u v, ∀ w ∈ ws, P u v →
      P (memcpy u (p + w.1.toNat) w.2.content) (memcpy v (m + w.1.toNat) w.2.content)) :
    P (onList x p ws) (onList y m ws) := by
  induction ws generalizing x y with
  | nil => exact hP
  | cons w ws ih =>
    exact ih (hstep x y w List.mem_cons_self hP)
      fun u v w hw => hstep u v w (List.mem_cons_of_mem _ hw)

theorem length_onList (hws : ∀ w ∈ ws, p + w.1.toNat + w.2.content.length ≤ x.length) :
    (onList x p ws).length = x.length :=
  onList_rel (P := fun u _ => u.length = x.length) (y := x) (m := p) rfl
    fun u _ w hw hu => by rw [length_memcpy (hu ▸ hws w hw), hu]

theorem onList_append_left {a b : List UInt8}
    (hws : ∀ w ∈ ws, w.1.toNat + w.2.content.length ≤ a.length) :
    onList (a ++ b) 0 ws = onList a 0 ws ++ b := by
  refine (onList_rel (P := fun u v => u = v ++ b ∧ v.length = a.length) ⟨rfl, rfl⟩
    fun u v w hw huv => ?_).1
  obtain ⟨rfl, hv⟩ := huv
  have hle : 0 + w.1.toNat + w.2.content.length ≤ v.length := by
    rw [Nat.zero_add, hv]
    exact hws w hw
  exact ⟨memcpy_append_left hle, by rw [length_memcpy hle, hv]⟩

theorem onList_append_right {a b : List UInt8} :
    onList (a ++ b) a.length ws = a ++ onList b 0 ws :=
  onList_rel (P := fun u v => u = a ++ v) rfl fun u v w hw huv => by
    rw [huv, Nat.zero_add, memcpy_append_right]

variable {s zs ze e : ℕ}

theorem parts_onList_front (hs : s ≤ zs) (hdata : zs ≤ x.length)
    (hws : ∀ w ∈ ws, w.1.toNat + w.2.content.length ≤ zs - s) :
    parts (onList x s ws) s zs ze e = onList (parts x s zs ze e) 0 ws :=
  (onList_rel (P := fun u v => u.length = x.length ∧ parts u s zs ze e = v) ⟨rfl, rfl⟩
    fun u v w hw huv => by
      obtain ⟨hu, rfl⟩ := huv
      have hle := hws w hw
      rw [Nat.zero_add]
      exact ⟨by rw [length_memcpy (by omega), hu], parts_memcpy_front hs hle (hu.symm ▸ hdata)⟩).2

theorem parts_onList_back (hs : s ≤ zs) (hz : zs ≤ ze) (hdata : zs + (e - ze) ≤ x.length)
    {k : ℕ} (hws : ∀ w ∈ ws, k + w.1.toNat + w.2.content.length ≤ e - ze) :
    parts (onList x (zs + k) ws) s zs ze e = onList (parts x s zs ze e) (ze - s + k) ws :=
  (onList_rel (P := fun u v => u.length = x.length ∧ parts u s zs ze e = v) ⟨rfl, rfl⟩
    fun u v w hw huv => by
      obtain ⟨hu, rfl⟩ := huv
      have hle := hws w hw
      rw [Nat.add_assoc, Nat.add_assoc]
      exact ⟨by rw [length_memcpy (by omega), hu],
        parts_memcpy_back hs hz hle (hu.symm ▸ hdata)⟩).2

theorem parts_onList_of_outside (hs : s ≤ zs)
    (hws : ∀ w ∈ ws, p + w.1.toNat + w.2.content.length ≤ x.length ∧
      (p + w.1.toNat + w.2.content.length ≤ s ∨ zs + (e - ze) ≤ p + w.1.toNat)) :
    parts (onList x p ws) s zs ze e = parts x s zs ze e :=
  (onList_rel (P := fun u _ => u.length = x.length ∧ parts u s zs ze e = parts x s zs ze e)
    (y := x) (m := p) ⟨rfl, rfl⟩ fun u v w hw hu => by
      obtain ⟨hroom, hout⟩ := hws w hw
      obtain ⟨hu, hparts⟩ := hu
      exact ⟨by rw [length_memcpy (hu.symm ▸ hroom), hu],
        by rw [parts_memcpy_of_outside hs hout (hu.symm ▸ hroom), hparts]⟩).2

end BufferWrite

end SeanetSim
