import Mathlib.Data.List.Perm.Basic
import Mathlib.Data.List.Infix
import Mathlib.Data.List.Nodup

/-!
# Arrivals

The elements of a list come one after the other, in any order and some more than once, until each of
them has come.
-/

namespace SeanetSim

variable {α : Type*} {all arrivals : List α}

/-- Nothing comes again while something is missing. -/
def Timely (all arrivals : List α) : Prop :=
  ∀ pre x post, arrivals = pre ++ x :: post → (∃ y ∈ all, y ∉ pre) → x ∉ pre

theorem Timely.nodup (h : Timely all arrivals) {pre post : List α} {x : α}
    (hsplit : arrivals = pre ++ x :: post) (hmissing : ∃ y ∈ all, y ∉ pre) : (pre ++ [x]).Nodup := by
  induction pre using List.reverseRecOn generalizing x post with
  | nil => exact List.nodup_singleton x
  | append_singleton pre z ih =>
    have hbefore : ∃ y ∈ all, y ∉ pre := by
      obtain ⟨y, hy, hnot⟩ := hmissing
      exact ⟨y, hy, fun hmem => hnot (List.mem_append_left _ hmem)⟩
    have hx := h _ x post hsplit hmissing
    have hsplit' : arrivals = pre ++ z :: x :: post := by simp [hsplit]
    have hpre := ih hsplit' hbefore
    exact List.nodup_append.2 ⟨hpre, List.nodup_singleton x, by
      rintro a ha b hb rfl
      rw [List.mem_singleton.1 hb] at ha
      exact hx ha⟩

end SeanetSim
