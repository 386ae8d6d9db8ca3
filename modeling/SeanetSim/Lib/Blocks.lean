import Mathlib.Algebra.Order.Group.Int
import Mathlib.Data.List.Basic
import Mathlib.Tactic.SplitIfs

/-!
# Blocks of a stream

Pieces of a stream, each under the position of its first element: chains of adjacent blocks, blocks
in order with gaps between them, and what they hold of the stream.
-/

namespace SeanetSim

namespace Blocks

variable {α : Type*}

/-- The position behind the last element. -/
def stop (i : ℤ × List α) : ℤ := i.1 + i.2.length

/-- Nonempty blocks in order, none of which reaches into the next one. -/
def Ordered (data : List (ℤ × List α)) : Prop :=
  (∀ i ∈ data, i.1 < stop i) ∧ data.Pairwise fun i j => stop i ≤ j.1

/-- Nonempty blocks from `lo` to `hi` without a gap. -/
def Chain : ℤ → List (ℤ × List α) → ℤ → Prop
  | lo, [], hi => lo = hi
  | lo, i :: rest, hi => i.1 = lo ∧ i.1 < stop i ∧ Chain (stop i) rest hi

/-- The number of elements. -/
def total : List (ℤ × List α) → ℕ
  | [] => 0
  | i :: rest => i.2.length + total rest

/-- Some block has the element at a position. -/
def Covers (data : List (ℤ × List α)) (x : ℤ) : Prop := ∃ i ∈ data, i.1 ≤ x ∧ x < stop i

/-- The elements of a stream from a position on. -/
def piece (stream : ℤ → α) (lo : ℤ) (n : ℕ) : List α :=
  (List.range n).map fun k : ℕ => stream (lo + k)

/-- The blocks are pieces of the stream. -/
def Holds (stream : ℤ → α) (data : List (ℤ × List α)) : Prop :=
  ∀ i ∈ data, i.2 = piece stream i.1 i.2.length

variable {data front back : List (ℤ × List α)} {i : ℤ × List α} {lo mid hi x : ℤ}
  {stream : ℤ → α}

/-! ## Lists of blocks -/

@[simp] theorem ordered_nil : Ordered ([] : List (ℤ × List α)) := ⟨nofun, .nil⟩

theorem ordered_cons :
    Ordered (i :: data) ↔ i.1 < stop i ∧ (∀ j ∈ data, stop i ≤ j.1) ∧ Ordered data := by
  unfold Ordered
  rw [List.forall_mem_cons, List.pairwise_cons]
  tauto

theorem ordered_append : Ordered (front ++ back) ↔
    Ordered front ∧ Ordered back ∧ ∀ i ∈ front, ∀ j ∈ back, stop i ≤ j.1 := by
  unfold Ordered
  rw [List.pairwise_append]
  simp only [List.mem_append, or_imp, forall_and]
  tauto

theorem Ordered.lt (h : Ordered data) (hi' : i ∈ data) : i.1 < stop i := h.1 i hi'

@[simp] theorem total_nil : total ([] : List (ℤ × List α)) = 0 := rfl

@[simp] theorem total_cons : total (i :: data) = i.2.length + total data := rfl

@[simp] theorem total_append : total (front ++ back) = total front + total back := by
  induction front with
  | nil => simp
  | cons i rest ih => rw [List.cons_append, total_cons, total_cons, ih, Nat.add_assoc]

@[simp] theorem covers_nil : ¬ Covers ([] : List (ℤ × List α)) x := by simp [Covers]

@[simp] theorem covers_cons : Covers (i :: data) x ↔ (i.1 ≤ x ∧ x < stop i) ∨ Covers data x := by
  simp [Covers]

@[simp] theorem covers_append : Covers (front ++ back) x ↔ Covers front x ∨ Covers back x := by
  simp [Covers, or_and_right, exists_or]

theorem holds_cons : Holds stream (i :: data) ↔
    i.2 = piece stream i.1 i.2.length ∧ Holds stream data := List.forall_mem_cons

theorem holds_append :
    Holds stream (front ++ back) ↔ Holds stream front ∧ Holds stream back :=
  List.forall_mem_append

/-! ## Pieces of a stream -/

@[simp] theorem length_piece (n : ℕ) : (piece stream lo n).length = n := by simp [piece]

theorem piece_add (m n : ℕ) :
    piece stream lo (m + n) = piece stream lo m ++ piece stream (lo + m) n := by
  simp [piece, List.range_add, add_assoc]

theorem take_piece {m n : ℕ} (h : m ≤ n) : (piece stream lo n).take m = piece stream lo m := by
  obtain ⟨k, rfl⟩ := Nat.exists_eq_add_of_le h
  rw [piece_add, List.take_left' (length_piece m)]

theorem drop_piece {m n : ℕ} (h : m ≤ n) :
    (piece stream lo n).drop m = piece stream (lo + m) (n - m) := by
  obtain ⟨k, rfl⟩ := Nat.exists_eq_add_of_le h
  rw [piece_add, List.drop_left' (length_piece m), Nat.add_sub_cancel_left]

theorem Chain.append (h : Chain lo front mid) (h' : Chain mid back hi) :
    Chain lo (front ++ back) hi := by
  induction front generalizing lo with
  | nil =>
    have hlo : lo = mid := h
    rwa [hlo]
  | cons i rest ih => exact ⟨h.1, h.2.1, ih h.2.2⟩

theorem Chain.hi_eq (h : Chain lo data hi) : hi = lo + total data := by
  induction data generalizing lo with
  | nil =>
    have hlo : lo = hi := h
    rw [total_nil, ← hlo]
    omega
  | cons i rest ih =>
    have hrest := ih h.2.2
    rw [stop, h.1] at hrest
    rw [total_cons]
    omega

theorem Chain.le (h : Chain lo data hi) : lo ≤ hi := by
  have := h.hi_eq
  omega

theorem Chain.bounds (h : Chain lo data hi) :
    ∀ i ∈ data, lo ≤ i.1 ∧ i.1 < stop i ∧ stop i ≤ hi := by
  induction data generalizing lo with
  | nil => exact nofun
  | cons i rest ih =>
    obtain ⟨hfirst, hlt, hrest⟩ := h
    intro j hj
    rcases List.mem_cons.1 hj with rfl | hj
    · exact ⟨hfirst.ge, hlt, hrest.le⟩
    · have := ih hrest j hj
      omega

theorem Chain.ordered (h : Chain lo data hi) : Ordered data := by
  induction data generalizing lo with
  | nil => exact ordered_nil
  | cons i rest ih =>
    exact ordered_cons.2 ⟨h.2.1, fun j hj => (h.2.2.bounds j hj).1, ih h.2.2⟩

theorem Chain.covers (h : Chain lo data hi) (hlo : lo ≤ x) (hhi : x < hi) : Covers data x := by
  induction data generalizing lo with
  | nil =>
    have hlo' : lo = hi := h
    omega
  | cons i rest ih =>
    obtain ⟨hfirst, -, hrest⟩ := h
    by_cases hx : x < stop i
    · exact covers_cons.2 (.inl ⟨by omega, hx⟩)
    · exact covers_cons.2 (.inr (ih hrest (by omega)))

theorem Chain.hi_le (h : Chain lo data hi) (hlo : lo ≤ x) (hdata : ∀ i ∈ data, stop i ≤ x) :
    hi ≤ x := by
  induction data generalizing lo with
  | nil =>
    have hlo' : lo = hi := h
    omega
  | cons i rest ih =>
    obtain ⟨hfirst, hrest⟩ := List.forall_mem_cons.1 hdata
    exact ih h.2.2 hfirst hrest

/-- Blocks in order have no more elements than there is room for. -/
theorem Ordered.total_le (h : Ordered data) (hle : lo ≤ hi)
    (hdata : ∀ i ∈ data, lo ≤ i.1 ∧ stop i ≤ hi) : lo + total data ≤ hi := by
  induction data generalizing lo with
  | nil => simpa using hle
  | cons i rest ih =>
    obtain ⟨-, hafter, hrest⟩ := ordered_cons.1 h
    obtain ⟨⟨hlo, hhi⟩, hdata⟩ := List.forall_mem_cons.1 hdata
    have htotal := ih hrest hhi fun j hj => ⟨hafter j hj, (hdata j hj).2⟩
    rw [stop] at htotal
    rw [total_cons]
    omega

/-- What a chain holds, one block after the other. -/
theorem Chain.flatMap (h : Chain lo data hi) (hdata : Holds stream data) :
    data.flatMap (·.2) = piece stream lo (total data) := by
  induction data generalizing lo with
  | nil => rfl
  | cons i rest ih =>
    obtain ⟨hfirst, -, hrest⟩ := h
    obtain ⟨hi', hdata⟩ := holds_cons.1 hdata
    rw [List.flatMap_cons, ih hrest hdata, total_cons, piece_add, ← hfirst, ← hi']
    rfl

/-- The blocks that continue a chain, and those behind the first gap. -/
theorem exists_chain (h : Ordered data) (hlo : ∀ i ∈ data, lo ≤ i.1) :
    ∃ front back hi, data = front ++ back ∧ Chain lo front hi ∧ ∀ i ∈ back, hi < i.1 := by
  induction data generalizing lo with
  | nil => exact ⟨[], [], lo, rfl, rfl, nofun⟩
  | cons i rest ih =>
    obtain ⟨hlt, hafter, hrest⟩ := ordered_cons.1 h
    have hfirst := hlo i List.mem_cons_self
    by_cases heq : i.1 = lo
    · obtain ⟨front, back, hi, rfl, hchain, hback⟩ := ih hrest hafter
      exact ⟨i :: front, back, hi, rfl, ⟨heq, hlt, hchain⟩, hback⟩
    · refine ⟨[], i :: rest, lo, rfl, rfl, fun j hj => ?_⟩
      rcases List.mem_cons.1 hj with rfl | hj
      · omega
      · have := hafter j hj
        omega

end Blocks

end SeanetSim
