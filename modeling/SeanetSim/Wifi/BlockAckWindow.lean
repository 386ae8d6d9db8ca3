import Mathlib.Data.Set.Insert
import SeanetSim.Lib.CircularBuffer

/-!
# Block Ack windows

`BlockAckWindow` slides over a bitmap that is a circular buffer.  `Marks` is what it stands for: the
numbers, without the wrap at 4096, whose bits are set from the start of the window on.
-/

namespace SeanetSim

structure BlockAckWindow where
  winStart : ℕ
  window : List Bool
  head : ℕ
deriving DecidableEq, Repr

namespace BlockAckWindow

def init (winStart winSize : ℕ) : BlockAckWindow := ⟨winStart, List.replicate winSize false, 0⟩

section Operations

variable (b : BlockAckWindow)

def reset (winStart : ℕ) : BlockAckWindow := init winStart b.window.length

def getWinSize : ℕ := b.window.length

/-- `At`, for a read. -/
def at? (distance : ℕ) : Option Bool :=
  if distance < b.window.length then circularAt b.window b.head distance else none

/-- `At`, for a write. -/
def setAt (distance : ℕ) (x : Bool) : Option BlockAckWindow :=
  if distance < b.window.length then
    some { b with window := b.window.set ((b.head + distance) % b.window.length) x }
  else none

/-- The loop of `Advance`. -/
def clearHeads : ℕ → BlockAckWindow → Option BlockAckWindow
  | 0, b => some b
  | count + 1, b =>
    if b.head < b.window.length then
      clearHeads count
        { b with window := b.window.set b.head false, head := (b.head + 1) % b.window.length }
    else none

def advance (count : ℕ) : Option BlockAckWindow :=
  if b.window.length ≤ count then some (b.reset ((b.winStart + count) % 4096))
  else (clearHeads count b).map fun b' => { b' with winStart := (b.winStart + count) % 4096 }

end Operations

/-- A window of `size` numbers from `start` on, whose bits say which ones are marked. -/
structure Marks (b : BlockAckWindow) (size start : ℕ) (marked : Set ℕ) : Prop where
  winStart : b.winStart = start % 4096
  length : b.window.length = size
  head : b.head < size
  bit : ∀ d < size, ∃ x, circularAt b.window b.head d = some x ∧ (x = true ↔ start + d ∈ marked)
  /-- Nothing behind the window is marked. -/
  bounded : ∀ n ∈ marked, n < start + size

variable {b : BlockAckWindow} {size start n : ℕ} {marked : Set ℕ}

theorem marks_init (hsize : 0 < size) (start : ℕ) (h : ∀ n ∈ marked, n < start) :
    Marks (init (start % 4096) size) size start marked where
  winStart := rfl
  length := List.length_replicate
  head := hsize
  bit := by
    intro d hd
    refine ⟨false, ?_, ?_⟩
    · unfold circularAt init
      rw [List.getElem?_replicate, List.length_replicate, if_pos (Nat.mod_lt _ hsize)]
    · have hnot : start + d ∉ marked := fun hmem => absurd (h _ hmem) (by omega)
      simp [hnot]
  bounded := fun n hn => (h n hn).trans_le (Nat.le_add_right start size)

namespace Marks

theorem at_eq (h : Marks b size start marked) {d : ℕ} (hd : d < size) :
    ∃ x, b.at? d = some x ∧ (x = true ↔ start + d ∈ marked) := by
  rw [at?, h.length, if_pos hd]
  exact h.bit d hd

theorem setAt_true (h : Marks b size start marked) {d : ℕ} (hd : d < size) :
    ∃ b', b.setAt d true = some b' ∧ Marks b' size start (insert (start + d) marked) := by
  rw [setAt, h.length, if_pos hd]
  refine ⟨_, rfl, h.winStart, List.length_set.trans h.length, h.head, fun e he => ?_, ?_⟩
  · have hset := circularAt_set b.head (h.length ▸ hd) (h.length ▸ he) true
    rw [h.length] at hset
    rw [hset]
    split
    · rename_i heq
      exact ⟨true, rfl, by simp [heq]⟩
    · rename_i hne
      obtain ⟨x, hx, hmark⟩ := h.bit e he
      refine ⟨x, hx, hmark.trans ?_⟩
      exact ⟨.inr, fun hor => hor.resolve_left fun heq => hne (Nat.add_left_cancel heq)⟩
  · intro n hn
    rcases hn with rfl | hn
    · exact Nat.add_lt_add_left hd start
    · exact h.bounded n hn

/-- What is behind the start has no bit. -/
theorem insert_of_lt (h : Marks b size start marked) (hn : n < start) :
    Marks b size start (insert n marked) where
  winStart := h.winStart
  length := h.length
  head := h.head
  bit := by
    intro d hd
    obtain ⟨x, hx, hmark⟩ := h.bit d hd
    refine ⟨x, hx, hmark.trans ⟨.inr, fun hor => hor.resolve_left fun heq => ?_⟩⟩
    omega
  bounded := by
    rintro k (rfl | hk)
    · exact hn.trans_le (Nat.le_add_right start size)
    · exact h.bounded k hk

/-- A turn of the loop of `Advance`, which leaves the start to its end. -/
theorem clearHead (h : Marks { b with winStart := start % 4096 } size start marked) :
    Marks ⟨(start + 1) % 4096, b.window.set b.head false, (b.head + 1) % b.window.length⟩ size
      (start + 1) marked where
  winStart := rfl
  length := List.length_set.trans h.length
  head := by
    rw [h.length]
    exact Nat.mod_lt _ (Nat.zero_lt_of_lt h.head)
  bit := by
    intro d hd
    have hlength : b.window.length = size := h.length
    have hsucc := circularAt_succ (hlength ▸ h.head) (hlength ▸ hd) false
    rw [hsucc, hlength]
    split
    · rename_i hlt
      obtain ⟨x, hx, hmark⟩ := h.bit (d + 1) hlt
      refine ⟨x, hx, ?_⟩
      rwa [Nat.add_assoc, Nat.add_comm 1]
    · refine ⟨false, rfl, ?_⟩
      have hnot : start + 1 + d ∉ marked := fun hmem => by
        have := h.bounded _ hmem
        omega
      simp [hnot]
  bounded := fun n hn => (h.bounded n hn).trans_le (by omega)

theorem clearHeads_eq (h : Marks { b with winStart := start % 4096 } size start marked)
    (count : ℕ) : ∃ b', clearHeads count b = some b' ∧
      Marks { b' with winStart := (start + count) % 4096 } size (start + count) marked := by
  induction count generalizing b start with
  | zero => exact ⟨b, rfl, h⟩
  | succ count ih =>
    have hlt : b.head < b.window.length := h.head.trans_eq h.length.symm
    obtain ⟨b', hb', hmarks⟩ := ih (b := ⟨b.winStart, b.window.set b.head false,
      (b.head + 1) % b.window.length⟩) h.clearHead
    rw [Nat.add_assoc, Nat.add_comm 1] at hmarks
    refine ⟨b', ?_, hmarks⟩
    rw [clearHeads, if_pos hlt]
    exact hb'

/-- What is marked stays so, except where the window has gone by. -/
theorem advance_eq (h : Marks b size start marked) (count : ℕ) :
    ∃ b', b.advance count = some b' ∧ Marks b' size (start + count) marked := by
  rw [advance, h.length, h.winStart, Nat.mod_add_mod]
  have hpos := Nat.zero_lt_of_lt h.head
  split
  · rename_i hle
    refine ⟨_, rfl, ?_⟩
    rw [reset, h.length]
    exact marks_init hpos _ fun n hn => (h.bounded n hn).trans_le (Nat.add_le_add_left hle start)
  · have hstart : Marks { b with winStart := start % 4096 } size start marked := by
      rw [← h.winStart]
      exact h
    obtain ⟨b', hb', hmarks⟩ := hstart.clearHeads_eq count
    exact ⟨_, congrArg (Option.map _) hb', hmarks⟩

end Marks

end BlockAckWindow

end SeanetSim
