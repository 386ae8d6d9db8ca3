import Mathlib.Data.List.Induction
import Mathlib.Logic.Basic

/-!
# Programs that can fail

Steps one after the other, and a loop over a list whose body changes a state or fails.
-/

namespace SeanetSim

universe u

variable {σ τ : Type u} {α ε : Type*} {f : σ → α → Except ε σ} {l : List α} {s t : σ}

theorem bind_eq_ok {x : Except ε σ} {g : σ → Except ε τ} {b : τ} :
    x >>= g = .ok b ↔ ∃ a, x = .ok a ∧ g a = .ok b := by
  cases x <;> simp [bind, Except.bind]

theorem foldlM_nil_eq_ok : [].foldlM f s = .ok t ↔ s = t := by
  simp [pure, Except.pure]

theorem foldlM_cons_eq_ok {a : α} :
    (a :: l).foldlM f s = .ok t ↔ ∃ u, f s a = .ok u ∧ l.foldlM f u = .ok t := by
  rw [List.foldlM_cons, bind_eq_ok]

theorem foldlM_append_eq_ok {l' : List α} :
    (l ++ l').foldlM f s = .ok t ↔ ∃ u, l.foldlM f s = .ok u ∧ l'.foldlM f u = .ok t := by
  rw [List.foldlM_append, bind_eq_ok]

/-- What every round keeps holds at the end. -/
theorem foldlM_invariant {I : σ → Prop} (hstep : ∀ s t, ∀ a ∈ l, I s → f s a = .ok t → I t)
    (hs : I s) (h : l.foldlM f s = .ok t) : I t := by
  induction l generalizing s with
  | nil => exact foldlM_nil_eq_ok.1 h ▸ hs
  | cons a l ih =>
    obtain ⟨u, hu, hrest⟩ := foldlM_cons_eq_ok.1 h
    exact ih (fun s t b hb => hstep s t b (List.mem_cons_of_mem _ hb))
      (hstep s u a List.mem_cons_self hs hu) hrest

/-- A loop in which no round fails, with what holds of the elements so far. -/
theorem foldlM_of_rounds {f : σ → α → Option σ} {P : List α → σ → Prop} (hs : P [] s)
    (hstep : ∀ l', ∀ a ∈ l, ∀ s, P l' s → ∃ t, f s a = some t ∧ P (l' ++ [a]) t) :
    ∃ t, l.foldlM f s = some t ∧ P l t := by
  induction l using List.reverseRecOn with
  | nil => exact ⟨s, rfl, hs⟩
  | append_singleton l a ih =>
    obtain ⟨t, ht, hP⟩ := ih fun l' b hb => hstep l' b (List.mem_append_left _ hb)
    obtain ⟨u, hu, hP'⟩ := hstep l a (List.mem_append_right l List.mem_cons_self) t hP
    refine ⟨u, ?_, hP'⟩
    rw [List.foldlM_append, ht, Option.bind_eq_bind, Option.bind_some, List.foldlM_cons, hu]
    rfl

end SeanetSim
