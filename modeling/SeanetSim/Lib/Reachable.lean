import Mathlib.Logic.Relation
import Mathlib.Data.Set.Basic

/-!
# Reachable states

Transition systems given by a set of initial states and a step relation.  `Reachable.invariant`
turns a step lemma into a statement about whole runs, and `Reachable.simulate` carries a run of one
system to a run of another, one step being matched by any number of steps.
-/

namespace SeanetSim

open Relation

section Systems

variable {σ τ : Type*} {init : Set σ} {step : σ → σ → Prop}

/-- The states reached from an initial state by finitely many steps. -/
def Reachable (init : Set σ) (step : σ → σ → Prop) (s : σ) : Prop :=
  ∃ s₀ ∈ init, ReflTransGen step s₀ s

theorem Reachable.of_init {s : σ} (h : s ∈ init) : Reachable init step s := ⟨s, h, .refl⟩

theorem Reachable.tail {s t : σ} (hs : Reachable init step s) (hst : step s t) :
    Reachable init step t := by
  obtain ⟨s₀, h₀, hrun⟩ := hs
  exact ⟨s₀, h₀, hrun.tail hst⟩

theorem Reachable.mono {step' : σ → σ → Prop} (h : ∀ s t, step s t → step' s t) {s : σ}
    (hs : Reachable init step s) : Reachable init step' s := by
  obtain ⟨s₀, h₀, hrun⟩ := hs
  exact ⟨s₀, h₀, ReflTransGen.mono h _ _ hrun⟩

/-- What holds initially and is kept by every step holds in every reachable state. -/
theorem Reachable.invariant {I : σ → Prop} (hinit : ∀ s ∈ init, I s)
    (hstep : ∀ s t, I s → step s t → I t) {s : σ} (hs : Reachable init step s) : I s := by
  obtain ⟨s₀, h₀, hrun⟩ := hs
  induction hrun with
  | refl => exact hinit s₀ h₀
  | tail _ hst ih => exact hstep _ _ ih hst

/-- A relation that matches initial states and steps matches every reachable state. -/
theorem Reachable.simulate {init' : Set τ} {step' : τ → τ → Prop} {R : σ → τ → Prop}
    (hinit : ∀ s ∈ init, ∃ t ∈ init', R s t)
    (hstep : ∀ s s' t, R s t → step s s' → ∃ t', ReflTransGen step' t t' ∧ R s' t')
    {s : σ} (hs : Reachable init step s) : ∃ t, Reachable init' step' t ∧ R s t := by
  obtain ⟨s₀, h₀, hrun⟩ := hs
  induction hrun with
  | refl =>
    obtain ⟨t, ht, hR⟩ := hinit s₀ h₀
    exact ⟨t, .of_init ht, hR⟩
  | tail _ hst ih =>
    obtain ⟨t, ⟨t₀, ht₀, hrun'⟩, hR⟩ := ih
    obtain ⟨t', hsteps, hR'⟩ := hstep _ _ t hR hst
    exact ⟨t', ⟨t₀, ht₀, hrun'.trans hsteps⟩, hR'⟩

end Systems

end SeanetSim
