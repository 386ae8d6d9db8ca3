import Mathlib.Logic.Equiv.Basic
import Mathlib.Order.Lattice

/-!
# Binary heaps

Keys at the places from 1 to `n - 1`, the children of `i` at `2 * i` and `2 * i + 1`.  A heap with a
wrong key at one place (`RaisedTo`, `LoweredTo`) stays one when the key is exchanged with that of
the parent or of the smaller child, and the wrong key is at the other place then.
-/

namespace SeanetSim

variable {κ : Type*} [LinearOrder κ] {f : ℕ → κ} {n i c : ℕ}

/-- No key is less than that of its parent. -/
def HeapOrdered (f : ℕ → κ) (n : ℕ) : Prop := ∀ i, 1 < i → i < n → f (i / 2) ≤ f i

/-- The heap order but for the key at `i`, which may be too small. -/
structure RaisedTo (f : ℕ → κ) (n i : ℕ) : Prop where
  ordered : ∀ j, 1 < j → j < n → j ≠ i → f (j / 2) ≤ f j
  around : 1 < i → ∀ j, j < n → j / 2 = i → f (i / 2) ≤ f j

/-- The heap order but for the key at `i`, which may be too large. -/
structure LoweredTo (f : ℕ → κ) (n i : ℕ) : Prop where
  ordered : ∀ j, 1 < j → j < n → j / 2 ≠ i → f (j / 2) ≤ f j
  around : 1 < i → ∀ j, j < n → j / 2 = i → f (i / 2) ≤ f j

theorem HeapOrdered.root_le (h : HeapOrdered f n) (hi : 1 ≤ i) (hn : i < n) : f 1 ≤ f i := by
  induction i using Nat.strongRecOn with
  | ind i ih =>
    by_cases hroot : i = 1
    · rw [hroot]
    · exact le_trans (ih (i / 2) (by omega) (by omega) (by omega)) (h i (by omega) hn)

theorem RaisedTo.heapOrdered (h : RaisedTo f n i) (hi : 1 < i → f (i / 2) ≤ f i) :
    HeapOrdered f n := by
  intro j hj hn
  by_cases hji : j = i
  · rw [hji] at hj ⊢
    exact hi hj
  · exact h.ordered j hj hn hji

theorem LoweredTo.heapOrdered (h : LoweredTo f n i) (hi : ∀ j, 1 < j → j < n → j / 2 = i → f i ≤ f j) :
    HeapOrdered f n := by
  intro j hj hn
  by_cases hji : j / 2 = i
  · rw [hji]
    exact hi j hj hn hji
  · exact h.ordered j hj hn hji

/-- Exchange with the parent. -/
theorem RaisedTo.exch (h : RaisedTo f n i) (hi : 1 < i) (hn : i < n) (hlt : f i < f (i / 2)) :
    RaisedTo (f ∘ Equiv.swap i (i / 2)) n (i / 2) := by
  have hother {j : ℕ} (hj : j ≠ i) (hj' : j ≠ i / 2) : (f ∘ Equiv.swap i (i / 2)) j = f j :=
    congrArg f (Equiv.swap_apply_of_ne_of_ne hj hj')
  have hat : (f ∘ Equiv.swap i (i / 2)) i = f (i / 2) := congrArg f (Equiv.swap_apply_left ..)
  have hparent : (f ∘ Equiv.swap i (i / 2)) (i / 2) = f i := congrArg f (Equiv.swap_apply_right ..)
  refine ⟨fun j hj hjn hne => ?_, fun hgrand j hjn hji => ?_⟩
  · by_cases hji : j = i
    · rw [hji, hat, hparent]
      exact hlt.le
    · rw [hother hji hne]
      by_cases hchild : j / 2 = i
      · rw [hchild, hat]
        exact h.around hi j hjn hchild
      · by_cases hsib : j / 2 = i / 2
        · rw [hsib, hparent]
          have := h.ordered j hj hjn hji
          rw [hsib] at this
          exact hlt.le.trans this
        · rw [hother hchild hsib]
          exact h.ordered j hj hjn hji
  · rw [hother (by omega) (by omega)]
    have hup := h.ordered (i / 2) hgrand (by omega) (by omega)
    by_cases hj : j = i
    · rw [hj, hat]
      exact hup
    · rw [hother hj (by omega)]
      have := h.ordered j (by omega) hjn hj
      rw [hji] at this
      exact hup.trans this

/-- Exchange with the smallest child. -/
theorem LoweredTo.exch (h : LoweredTo f n i) (hc : c / 2 = i) (hn : c < n)
    (hle : f c ≤ f i) (hmin : ∀ j, 1 < j → j < n → j / 2 = i → f c ≤ f j) :
    LoweredTo (f ∘ Equiv.swap i c) n c := by
  have hother {j : ℕ} (hj : j ≠ i) (hj' : j ≠ c) : (f ∘ Equiv.swap i c) j = f j :=
    congrArg f (Equiv.swap_apply_of_ne_of_ne hj hj')
  have hat : (f ∘ Equiv.swap i c) i = f c := congrArg f (Equiv.swap_apply_left ..)
  have hchild : (f ∘ Equiv.swap i c) c = f i := congrArg f (Equiv.swap_apply_right ..)
  refine ⟨fun j hj hjn hne => ?_, fun _ j hjn hjc => ?_⟩
  · by_cases hjc : j = c
    · rw [hjc, hc, hat, hchild]
      exact hle
    · by_cases hji : j = i
      · rw [hji, hat, hother (by omega) (by omega)]
        exact h.around (hji ▸ hj) c hn hc
      · rw [hother hji hjc]
        by_cases hsib : j / 2 = i
        · rw [hsib, hat]
          exact hmin j hj hjn hsib
        · rw [hother hsib hne]
          exact h.ordered j hj hjn hsib
  · rw [hc, hat, hother (by omega) (by omega)]
    have := h.ordered j (by omega) hjn (by omega)
    rwa [hjc] at this

end SeanetSim
