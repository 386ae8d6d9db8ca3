import Mathlib.Data.List.Basic

/-!
# Byte buffers

Copying bytes into a buffer (`memcpy`) and reading records of a constant width that stand back to
back in it.
-/

namespace SeanetSim

variable {α β : Type*}

/-- `memcpy (buf + off, src, …)`, for all of `src`. -/
def memcpy (buf : List α) (off : ℕ) (src : List α) : List α :=
  buf.take off ++ src ++ buf.drop (off + src.length)

/-- Copying replaces a part of the same length. -/
theorem memcpy_append (a b c src : List α) {off : ℕ} (ha : a.length = off)
    (hb : b.length = src.length) : memcpy (a ++ b ++ c) off src = a ++ src ++ c := by
  subst ha
  unfold memcpy
  rw [← hb, ← List.length_append, List.drop_left, List.append_assoc a b, List.take_left]

/-- A copy into the free part of a buffer. -/
theorem memcpy_free (a free src : List α) {off : ℕ} (ha : a.length = off)
    (hfree : src.length ≤ free.length) :
    memcpy (a ++ free) off src = a ++ src ++ free.drop src.length := by
  have hsplit : a ++ free = a ++ free.take src.length ++ free.drop src.length := by
    rw [List.append_assoc, List.take_append_drop]
  rw [hsplit, memcpy_append _ _ _ _ ha (by rw [List.length_take]; omega)]

theorem length_memcpy {buf src : List α} {off : ℕ} (h : off + src.length ≤ buf.length) :
    (memcpy buf off src).length = buf.length := by
  simp only [memcpy, List.length_append, List.length_take, List.length_drop]
  omega

/-- The `n` bytes at `buf + off`. -/
def slice (buf : List α) (off n : ℕ) : List α := (buf.drop off).take n

/-- `memcpy (…, buf + off, n)`; none where it reads behind the end. -/
def readAt (buf : List α) (off n : ℕ) : Option (List α) :=
  if off + n ≤ buf.length then some (slice buf off n) else none

/-- `memcpy (buf + off, src, …)`; none where it writes behind the end. -/
def writeAt (buf : List α) (off : ℕ) (src : List α) : Option (List α) :=
  if off + src.length ≤ buf.length then some (memcpy buf off src) else none

section slice

variable {buf src : List α} {off pos k m n : ℕ}

theorem length_slice (h : off + n ≤ buf.length) : (slice buf off n).length = n := by
  simp only [slice, List.length_take, List.length_drop]
  omega

theorem slice_zero : slice buf off 0 = [] := List.take_zero

theorem drop_slice : (slice buf off n).drop k = slice buf (off + k) (n - k) := by
  rw [slice, slice, List.drop_take, List.drop_drop]

theorem take_slice : (slice buf off n).take k = slice buf off (min k n) := by
  rw [slice, slice, List.take_take]

theorem slice_add : slice buf off (m + n) = slice buf off m ++ slice buf (off + m) n := by
  rw [slice, slice, slice, List.take_add, List.drop_drop]

/-- A copy of bytes behind those that are read. -/
theorem slice_memcpy_of_le (h : off + n ≤ pos) (hpos : pos ≤ buf.length) :
    slice (memcpy buf pos src) off n = slice buf off n := by
  rw [slice, slice, memcpy, List.append_assoc,
    List.drop_append_of_le_length (by rw [List.length_take]; omega),
    List.take_append_of_le_length (by rw [List.length_drop, List.length_take]; omega),
    List.drop_take, List.take_take, Nat.min_eq_left (by omega)]

/-- A copy of bytes before those that are read. -/
theorem slice_memcpy_of_ge (h : pos + src.length ≤ off) (hpos : pos + src.length ≤ buf.length) :
    slice (memcpy buf pos src) off n = slice buf off n := by
  have hlength : (buf.take pos ++ src).length = pos + src.length := by
    rw [List.length_append, List.length_take]
    omega
  rw [slice, slice, memcpy, List.drop_append, List.drop_eq_nil_of_le (by omega), List.nil_append,
    hlength, List.drop_drop, Nat.add_sub_cancel' h]

theorem slice_memcpy (hpos : pos + src.length ≤ buf.length) :
    slice (memcpy buf pos src) pos src.length = src := by
  rw [slice, memcpy, List.append_assoc, List.drop_left' (by rw [List.length_take]; omega),
    List.take_left]

/-- A copy among the bytes that are read. -/
theorem slice_memcpy_inside (hoff : off ≤ pos) (h : pos + src.length ≤ off + n)
    (hn : off + n ≤ buf.length) :
    slice (memcpy buf pos src) off n = memcpy (slice buf off n) (pos - off) src := by
  obtain ⟨k, rfl⟩ := Nat.exists_eq_add_of_le hoff
  obtain ⟨r, hr⟩ := Nat.exists_eq_add_of_le h
  have hsplit : n = k + (src.length + r) := by omega
  have hkeep : slice (memcpy buf (off + k) src) (off + k + src.length) r =
      slice buf (off + k + src.length) r := slice_memcpy_of_ge (Nat.le_refl _) (by omega)
  rw [hsplit, slice_add, slice_add, slice_memcpy_of_le (Nat.le_refl _) (by omega),
    slice_memcpy (by omega), hkeep, slice_add, slice_add, Nat.add_sub_cancel_left,
    ← List.append_assoc, ← List.append_assoc,
    memcpy_append _ _ _ _ (length_slice (by omega)) (length_slice (by omega))]

theorem slice_slice (h : k + m ≤ n) : slice (slice buf off n) k m = slice buf (off + k) m := by
  rw [slice, drop_slice, take_slice, Nat.min_eq_left (by omega)]

/-- Some of the bytes that have been copied. -/
theorem slice_memcpy_part (hpos : pos + src.length ≤ buf.length) (h : k + m ≤ src.length) :
    slice (memcpy buf pos src) (pos + k) m = slice src k m := by
  rw [← slice_slice h, slice_memcpy hpos]

theorem memcpy_append_left {a b : List α} (h : off + src.length ≤ a.length) :
    memcpy (a ++ b) off src = memcpy a off src ++ b := by
  rw [memcpy, memcpy, List.take_append_of_le_length (by omega),
    List.drop_append_of_le_length h, ← List.append_assoc]

theorem memcpy_append_right {a b : List α} :
    memcpy (a ++ b) (a.length + off) src = a ++ memcpy b off src := by
  rw [memcpy, memcpy, List.take_length_add_append, Nat.add_assoc, ← List.drop_drop,
    List.drop_left, List.append_assoc, List.append_assoc, List.append_assoc]

end slice

theorem readAt_eq {buf : List α} {off n : ℕ} (h : off + n ≤ buf.length) :
    readAt buf off n = some (slice buf off n) := if_pos h

theorem writeAt_eq {buf src : List α} {off : ℕ} (h : off + src.length ≤ buf.length) :
    writeAt buf off src = some (memcpy buf off src) := if_pos h

theorem length_flatMap_const {f : α → List β} {w : ℕ} (hf : ∀ a, (f a).length = w) (l : List α) :
    (l.flatMap f).length = w * l.length := by
  rw [List.length_flatMap, List.map_congr_left fun a _ => hf a, List.map_const',
    List.sum_replicate_nat, Nat.mul_comm]

/-- The `i`-th of several records of constant width. -/
theorem drop_flatMap_const {f : α → List β} {w : ℕ} (hf : ∀ a, (f a).length = w) (l : List α)
    (i : ℕ) : (l.flatMap f).drop (w * i) = (l.drop i).flatMap f := by
  induction l generalizing i with
  | nil => simp
  | cons a l ih =>
    cases i with
    | zero => simp
    | succ i =>
      have hadd : w * (i + 1) = (f a).length + w * i := by
        rw [hf, Nat.mul_add, Nat.mul_one, Nat.add_comm]
      rw [List.flatMap_cons, hadd, ← List.drop_drop, List.drop_left, ih, List.drop_succ_cons]

end SeanetSim
