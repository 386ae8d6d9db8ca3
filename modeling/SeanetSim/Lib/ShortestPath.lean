import Mathlib.Data.Nat.Find
import Mathlib.Data.Nat.Notation

/-!
# Shortest paths

A graph with costs, as the relation of its edges.  `PathCost.le_of_cut` is the argument of
Dijkstra's algorithm: a path that leaves a set is at least as long as the shortest path with one
edge across.  Shortest paths end with tight edges (`IsDist.exists_tight`).
-/

namespace SeanetSim

variable {V : Type*}

/-- The costs of the paths from `s`. -/
inductive PathCost (edge : V → V → ℕ → Prop) (s : V) : V → ℕ → Prop
  | nil : PathCost edge s s 0
  | snoc {v w : V} {d k : ℕ} (hpath : PathCost edge s v d) (hedge : edge v w k) :
      PathCost edge s w (d + k)

/-- The cost of a cheapest path from `s`. -/
def IsDist (edge : V → V → ℕ → Prop) (s v : V) (d : ℕ) : Prop :=
  PathCost edge s v d ∧ ∀ d', PathCost edge s v d' → d ≤ d'

variable {edge : V → V → ℕ → Prop} {s v w : V} {d d' k m : ℕ}

theorem IsDist.unique (h : IsDist edge s v d) (h' : IsDist edge s v d') : d = d' :=
  le_antisymm (h.2 d' h'.1) (h'.2 d h.1)

theorem PathCost.exists_isDist (h : PathCost edge s v d) :
    ∃ d₀, IsDist edge s v d₀ ∧ d₀ ≤ d := by
  classical
  have hex : ∃ d, PathCost edge s v d := ⟨d, h⟩
  exact ⟨Nat.find hex, ⟨Nat.find_spec hex, fun d' hd' => Nat.find_min' hex hd'⟩,
    Nat.find_min' hex h⟩

theorem IsDist.le_add (hv : IsDist edge s v d) (hedge : edge v w k) (hw : IsDist edge s w d') :
    d' ≤ d + k := hw.2 _ (hv.1.snoc hedge)

/-- The last edge of a shortest path is tight. -/
theorem IsDist.exists_tight (h : IsDist edge s w d) (hne : w ≠ s) :
    ∃ v dv k, edge v w k ∧ IsDist edge s v dv ∧ dv + k = d := by
  cases h.1 with
  | nil => exact absurd rfl hne
  | snoc hpath hedge =>
    obtain ⟨dv, hdv, hle⟩ := hpath.exists_isDist
    have hge := hdv.le_add hedge h
    exact ⟨_, dv, _, hedge, hdv, by omega⟩

/-- If every edge that leaves a set around `s` ends at a cost of at least `m`, then so does every
path. -/
theorem PathCost.le_of_cut {T : V → Prop} (hs : T s)
    (hT : ∀ v d w k, T v → PathCost edge s v d → edge v w k → ¬ T w → m ≤ d + k)
    (h : PathCost edge s w d) (hw : ¬ T w) : m ≤ d := by
  induction h with
  | nil => exact absurd hs hw
  | snoc hpath hedge ih =>
    rename_i v w d k
    by_cases hv : T v
    · exact hT v d w k hv hpath hedge hw
    · exact le_trans (ih hv) (Nat.le_add_right d k)

end SeanetSim
