import Mathlib.Data.List.TakeWhile
import Mathlib.Data.List.Induction

/-!
# Windows that slide over numbers

Numbers arrive, and a window of `W` numbers ends at the greatest one so far.  A number is in it from
the first arrival that reaches it to the first one that passes it; in between it is marked by every
arrival that is congruent to it.
-/

namespace SeanetSim

namespace WindowHistory

variable {W s y : ℕ} {l : List ℕ}

/-- What arrives while the number is in the window. -/
def during (W : ℕ) (l : List ℕ) (s : ℕ) : List ℕ := (l.takeWhile (· < s + W)).dropWhile (· < s)

def Marked (W : ℕ) (l : List ℕ) (s : ℕ) : Prop := ∃ x ∈ during W l s, x % W = s % W

instance (W : ℕ) (l : List ℕ) : DecidablePred (Marked W l) := fun s =>
  inferInstanceAs (Decidable (∃ x ∈ during W l s, x % W = s % W))

/-- A number that is passed before it arrives. -/
def Lost (W : ℕ) (l : List ℕ) (s : ℕ) : Prop :=
  (∃ x ∈ l, s + W ≤ x) ∧ s ∉ l.takeWhile (· < s + W)

instance (W : ℕ) (l : List ℕ) : DecidablePred (Lost W l) := fun s =>
  inferInstanceAs (Decidable ((∃ x ∈ l, s + W ≤ x) ∧ s ∉ l.takeWhile (· < s + W)))

theorem takeWhile_eq_self (h : ∀ x ∈ l, x < s) : l.takeWhile (· < s) = l :=
  List.takeWhile_eq_self_iff.2 fun x hx => decide_eq_true (h x hx)

theorem takeWhile_append_of_passed (h : ∃ x ∈ l, s + W ≤ x) (l' : List ℕ) :
    (l ++ l').takeWhile (· < s + W) = l.takeWhile (· < s + W) := by
  obtain ⟨x, hx, hle⟩ := h
  induction l with
  | nil => exact absurd hx List.not_mem_nil
  | cons a l ih =>
    rw [List.cons_append, List.takeWhile_cons, List.takeWhile_cons]
    split
    · rename_i ha
      rcases List.mem_cons.1 hx with rfl | hx
      · exact absurd (of_decide_eq_true ha) (Nat.not_lt.2 hle)
      · rw [ih hx]
    · rfl

theorem takeWhile_append_of_le (h : s + W ≤ y) :
    (l ++ [y]).takeWhile (· < s + W) = l.takeWhile (· < s + W) := by
  by_cases hall : ∀ x ∈ l, x < s + W
  · rw [List.takeWhile_append_of_pos fun x hx => decide_eq_true (hall x hx), takeWhile_eq_self hall,
      List.takeWhile_cons_of_neg (by simpa using h), List.append_nil]
  · push Not at hall
    exact takeWhile_append_of_passed hall [y]

/-- No arrival marks a number that is not in the window yet. -/
theorem not_marked_of_lt (h : ∀ x ∈ l, x < s) : ¬ Marked W l s := by
  rintro ⟨x, hx, -⟩
  have hnil : during W l s = [] := List.dropWhile_eq_nil_iff.2 fun x hx =>
    decide_eq_true (h x ((List.takeWhile_prefix _).subset hx))
  rw [hnil] at hx
  exact absurd hx List.not_mem_nil

/-- A number that the next arrival passes, or that has been passed, keeps its mark. -/
theorem marked_append_of_le (h : ∃ x ∈ l ++ [y], s + W ≤ x) :
    Marked W (l ++ [y]) s ↔ Marked W l s := by
  have htake : (l ++ [y]).takeWhile (· < s + W) = l.takeWhile (· < s + W) := by
    obtain ⟨x, hx, hle⟩ := h
    rcases List.mem_append.1 hx with hx | hx
    · exact takeWhile_append_of_passed ⟨x, hx, hle⟩ [y]
    · rw [List.mem_singleton.1 hx] at hle
      exact takeWhile_append_of_le hle
  rw [Marked, Marked, during, during, htake]

/-- A number in the window is marked by the next arrival if that is congruent to it. -/
theorem marked_append (hlt : ∀ x ∈ l ++ [y], x < s + W) (hle : ∃ x ∈ l ++ [y], s ≤ x) :
    Marked W (l ++ [y]) s ↔ Marked W l s ∨ y % W = s % W := by
  have hduring : during W (l ++ [y]) s = during W l s ++ [y] := by
    rw [during, during, takeWhile_eq_self hlt,
      takeWhile_eq_self fun x hx => hlt x (List.mem_append_left _ hx), List.dropWhile_append]
    split
    · rename_i hempty
      have hall := List.dropWhile_eq_nil_iff.1 (List.isEmpty_iff.1 hempty)
      obtain ⟨x, hx, hsx⟩ := hle
      rcases List.mem_append.1 hx with hx | hx
      · exact absurd (of_decide_eq_true (hall x hx)) (Nat.not_lt.2 hsx)
      · rw [List.mem_singleton.1 hx] at hsx
        rw [List.isEmpty_iff.1 hempty, List.dropWhile_cons_of_neg (by simpa using hsx)]
        rfl
    · rfl
  rw [Marked, Marked, hduring]
  simp only [List.mem_append, List.mem_singleton, or_and_right, exists_or, exists_eq_left]

/-- A number that arrives before it is passed is marked. -/
theorem marked_of_mem (h : s ∈ l.takeWhile (· < s + W)) : Marked W l s := by
  refine ⟨s, ?_, rfl⟩
  rw [← List.takeWhile_append_dropWhile (p := (· < s)) (l := l.takeWhile (· < s + W))] at h
  rcases List.mem_append.1 h with h | h
  · have hlt := List.mem_takeWhile_imp (p := fun x => decide (x < s)) h
    exact absurd (of_decide_eq_true hlt) (Nat.lt_irrefl s)
  · exact h

end WindowHistory

end SeanetSim
