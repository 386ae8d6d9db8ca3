import Mathlib.Data.List.Basic
import Mathlib.Data.UInt

/-!
# Bytes with gaps

What a serializer leaves in memory: numbers in little-endian order, byte strings, and gaps that it
skips to keep its pointer aligned, where the memory holds anything (`Agrees`).  `extent` is the end
of what it has written.
-/

namespace SeanetSim

/-- A number in `n` bytes, the lowest one first. -/
def bytesLE : ℕ → ℕ → List UInt8
  | 0, _ => []
  | n + 1, v => UInt8.ofNat v :: bytesLE n (v / 256)

def ofBytesLE : List UInt8 → ℕ
  | [] => 0
  | b :: bs => b.toNat + 256 * ofBytesLE bs

@[simp] theorem length_bytesLE (n v : ℕ) : (bytesLE n v).length = n := by
  induction n generalizing v with
  | zero => rfl
  | succ n ih => rw [bytesLE, List.length_cons, ih]

theorem ofBytesLE_bytesLE {n v : ℕ} (h : v < 256 ^ n) : ofBytesLE (bytesLE n v) = v := by
  induction n generalizing v with
  | zero =>
    rw [Nat.pow_zero] at h
    rw [Nat.lt_one_iff.1 h]
    rfl
  | succ n ih =>
    rw [Nat.pow_succ] at h
    have hbyte : (UInt8.ofNat v).toNat = v % 256 := UInt8.toNat_ofNat'
    rw [bytesLE, ofBytesLE, ih (by omega), hbyte]
    omega

/-- The first `n` bytes and the rest; none where there are fewer. -/
def takeBytes (n : ℕ) (buf : List UInt8) : Option (List UInt8 × List UInt8) :=
  if n ≤ buf.length then some (buf.take n, buf.drop n) else none

/-- A number of `n` bytes and the rest. -/
def readLE (n : ℕ) (buf : List UInt8) : Option (ℕ × List UInt8) :=
  (takeBytes n buf).map fun r => (ofBytesLE r.1, r.2)

/-- Memory that holds what has been written, and anything in the gaps. -/
def Agrees (out : List (Option UInt8)) (buf : List UInt8) : Prop :=
  ∀ (i : ℕ) (b : UInt8), out[i]? = some (some b) → buf[i]? = some b

/-- The end of the last byte that has been written. -/
def extent : List (Option UInt8) → ℕ
  | [] => 0
  | b :: out => if b = none ∧ extent out = 0 then 0 else extent out + 1

attribute [grind =] extent

variable {out rest : List (Option UInt8)} {buf l : List UInt8} {n m v : ℕ}

theorem agrees_append : Agrees (out ++ rest) buf ↔ Agrees out buf ∧
    Agrees rest (buf.drop out.length) := by
  constructor
  · refine fun h => ⟨fun i b hi => h i b ?_, fun i b hi => ?_⟩
    · rw [List.getElem?_append_left (List.getElem?_eq_some_iff.1 hi).1, hi]
    · rw [List.getElem?_drop]
      apply h _ b
      rw [List.getElem?_append_right (Nat.le_add_right ..), Nat.add_sub_cancel_left, hi]
  · rintro ⟨h, h'⟩ i b hi
    by_cases hlt : i < out.length
    · rw [List.getElem?_append_left hlt] at hi
      exact h i b hi
    · have hle := Nat.le_of_not_lt hlt
      rw [List.getElem?_append_right hle] at hi
      have := h' _ b hi
      rwa [List.getElem?_drop, Nat.add_sub_cancel' hle] at this

theorem agrees_map_some : Agrees (l.map some) buf ↔ l <+: buf := by
  constructor
  · intro h
    rw [List.prefix_iff_getElem?]
    intro i hi
    exact h i l[i] (by rw [List.getElem?_map, List.getElem?_eq_getElem hi, Option.map_some])
  · rintro ⟨t, rfl⟩ i b hi
    rw [List.getElem?_map] at hi
    obtain ⟨c, hc, hcb⟩ := Option.map_eq_some_iff.1 hi
    cases hcb
    rw [List.getElem?_append_left (List.getElem?_eq_some_iff.1 hc).1, hc]

/-- Bytes that have been written are read again. -/
theorem Agrees.takeBytes (h : Agrees (l.map some ++ rest) buf) (hn : l.length = n) :
    takeBytes n buf = some (l, buf.drop n) ∧ Agrees rest (buf.drop n) := by
  subst hn
  obtain ⟨hl, hrest⟩ := agrees_append.1 h
  rw [List.length_map] at hrest
  obtain ⟨t, rfl⟩ := agrees_map_some.1 hl
  refine ⟨?_, hrest⟩
  rw [SeanetSim.takeBytes, if_pos (by simp), List.take_left]

/-- A number that has been written is read again. -/
theorem Agrees.readLE (h : Agrees ((bytesLE n v).map some ++ rest) buf) (hv : v < 256 ^ n) :
    readLE n buf = some (v, buf.drop n) ∧ Agrees rest (buf.drop n) := by
  obtain ⟨htake, hrest⟩ := h.takeBytes (length_bytesLE n v)
  exact ⟨by rw [SeanetSim.readLE, htake, Option.map_some, ofBytesLE_bytesLE hv], hrest⟩

/-- A gap is skipped. -/
theorem Agrees.skip (h : Agrees (List.replicate n none ++ rest) buf) :
    Agrees rest (buf.drop n) := by
  have := (agrees_append.1 h).2
  rwa [List.length_replicate] at this

/-! ## The extent -/

theorem extent_append : extent (out ++ rest) =
    if extent rest = 0 then extent out else out.length + extent rest := by
  induction out with
  | nil =>
    rw [List.nil_append, List.length_nil, Nat.zero_add]
    split_ifs with h
    · exact h
    · rfl
  | cons b out ih =>
    rw [List.cons_append, extent, ih, extent, List.length_cons]
    by_cases h : extent rest = 0
    · rw [if_pos h, if_pos h]
    · rw [if_neg h, if_neg h, if_neg (by omega)]
      omega

@[simp] theorem extent_replicate_none (n : ℕ) : extent (List.replicate n none) = 0 := by
  induction n with
  | zero => rfl
  | succ n ih => rw [List.replicate_succ, extent, ih, if_pos ⟨rfl, rfl⟩]

@[simp] theorem extent_map_some (l : List UInt8) : extent (l.map some) = l.length := by
  induction l with
  | nil => rfl
  | cons b l ih =>
    rw [List.map_cons, extent, ih, if_neg fun h => Option.some_ne_none b h.1, List.length_cons]

theorem extent_le_length : extent out ≤ out.length := by
  induction out with
  | nil => exact Nat.le_refl 0
  | cons b out ih =>
    rw [extent, List.length_cons]
    split_ifs with h
    · exact Nat.zero_le _
    · exact Nat.succ_le_succ ih

/-- All bytes that have been written are before `n` exactly if the extent is. -/
theorem extent_le_iff :
    extent out ≤ n ↔ ∀ (i : ℕ) (b : UInt8), out[i]? = some (some b) → i < n := by
  induction out generalizing n with
  | nil => simp [extent]
  | cons o out ih =>
    have htail (n : ℕ) : (∀ (i : ℕ) (b : UInt8), (o :: out)[i]? = some (some b) → i < n + 1) ↔
        ∀ (i : ℕ) (b : UInt8), out[i]? = some (some b) → i < n := by
      constructor
      · intro h i b hi
        exact Nat.lt_of_succ_lt_succ (h (i + 1) b (by rwa [List.getElem?_cons_succ]))
      · intro h i b hi
        cases i with
        | zero => exact Nat.succ_pos n
        | succ i => exact Nat.succ_lt_succ (h i b (by rwa [List.getElem?_cons_succ] at hi))
    rw [extent]
    split_ifs with h
    · obtain ⟨rfl, hzero⟩ := h
      refine ⟨fun _ i b hi => ?_, fun _ => Nat.zero_le n⟩
      cases i with
      | zero => simp at hi
      | succ i =>
        have hnone := (ih (n := 0)).1 (Nat.le_of_eq hzero) i b (by simpa using hi)
        exact absurd hnone (Nat.not_lt_zero i)
    · cases n with
      | succ n => rw [htail, Nat.succ_le_succ_iff, ih]
      | zero =>
        refine ⟨fun hle => absurd hle (by omega), fun hall => absurd ?_ h⟩
        cases o with
        | some b => exact absurd (hall 0 b rfl) (Nat.lt_irrefl 0)
        | none =>
          refine ⟨rfl, Nat.le_zero.1 (ih.2 fun i b hi => ?_)⟩
          exact absurd (hall (i + 1) b (by rwa [List.getElem?_cons_succ])) (Nat.not_lt_zero _)

end SeanetSim
