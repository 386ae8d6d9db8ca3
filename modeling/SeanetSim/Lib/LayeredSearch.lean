import Mathlib.Data.Nat.Notation
import Mathlib.Logic.Function.Basic
import Mathlib.Order.Bounds.Defs

/-!
# Search by layers

Distances are given out in rounds.  In the round `h` the vertices without a distance that an edge
from a vertex at the distance `h` leads to get the distance `h + 1`.  When the rounds start at the
distance `b` and end with one in which nothing changes, each vertex that has got a distance has that
of a shortest path from the vertices at `b`, without edges from those nearer than `b`:
`Layered.isLeast`.
-/

namespace SeanetSim

variable {V : Type*}

/-- The lengths of the paths to a vertex, when those of `base` are at `b`. -/
inductive LayerPath (base : V → Prop) (edge : V → V → Prop) (b : ℕ) : V → ℕ → Prop
  | base {x : V} (h : base x) : LayerPath base edge b x b
  | step {x y : V} {d : ℕ} (hpath : LayerPath base edge b x d) (hedge : edge x y) :
      LayerPath base edge b y (d + 1)

section LayerPath

variable {base base' : V → Prop} {edge edge' : V → V → Prop} {b d : ℕ} {x : V}

theorem LayerPath.le (h : LayerPath base edge b x d) : b ≤ d := by
  induction h with
  | base => exact Nat.le_refl b
  | step _ _ ih => exact Nat.le_succ_of_le ih

theorem LayerPath.mono (hbase : ∀ x, base x → base' x) (hedge : ∀ x y, edge x y → edge' x y)
    (h : LayerPath base edge b x d) : LayerPath base' edge' b x d := by
  induction h with
  | base h => exact .base (hbase _ h)
  | step _ h ih => exact ih.step (hedge _ _ h)

end LayerPath

/-! ## The distances that have been given out -/

variable {edges : List (V × V)} {b h d : ℕ} {dist₀ dist : V → Option ℕ} {x : V}

/-- An edge from a vertex that is not nearer than `b`. -/
def OuterEdge (edges : List (V × V)) (b : ℕ) (dist₀ : V → Option ℕ) (x y : V) : Prop :=
  (x, y) ∈ edges ∧ ∀ d, dist₀ x = some d → b ≤ d

/-- The lengths of the paths from the vertices at `b`. -/
abbrev OuterPath (edges : List (V × V)) (b : ℕ) (dist₀ : V → Option ℕ) : V → ℕ → Prop :=
  LayerPath (dist₀ · = some b) (OuterEdge edges b dist₀) b

/-- What is known before the round `h`, when the rounds have started with `dist₀` at `b`. -/
structure Layered (edges : List (V × V)) (b : ℕ) (dist₀ : V → Option ℕ) (h : ℕ)
    (dist : V → Option ℕ) : Prop where
  keep : ∀ x d, dist₀ x = some d → dist x = some d
  near : ∀ x d, dist x = some d → d ≤ b → dist₀ x = some d
  sound : ∀ x d, dist x = some d → b ≤ d → d ≤ h ∧ OuterPath edges b dist₀ x d
  complete : ∀ x d, OuterPath edges b dist₀ x d → d ≤ h → ∃ d' ≤ d, dist x = some d'

namespace Layered

theorem init (hle : ∀ x d, dist₀ x = some d → d ≤ b) : Layered edges b dist₀ b dist₀ where
  keep := fun _ _ hx => hx
  near := fun _ _ hx _ => hx
  sound := fun x d hx hd => by
    obtain rfl := Nat.le_antisymm (hle x d hx) hd
    exact ⟨Nat.le_refl d, .base hx⟩
  complete := fun x d hpath hd => by
    cases hpath with
    | base hx => exact ⟨b, Nat.le_refl b, hx⟩
    | step hpath => exact absurd hpath.le (by omega)

/-- The edges are from vertices at `b` or behind. -/
theorem le_of_outer (hl : Layered edges b dist₀ h dist)
    (hx : ∀ d, dist₀ x = some d → b ≤ d) (hd : dist x = some d) : b ≤ d := by
  by_contra hlt
  exact hlt (hx d (hl.near x d hd (by omega)))

theorem le (hl : Layered edges b dist₀ h dist) (hb : b ≤ h) (hd : dist x = some d) : d ≤ h := by
  by_cases hle : b ≤ d
  · exact (hl.sound x d hd hle).1
  · omega

/-- Where an edge from a vertex leads whose round is over. -/
theorem next (hl : Layered edges b dist₀ h dist) {y : V} (hedge : OuterEdge edges b dist₀ y x)
    (hy : dist y = some d) (hd : d < h) : ∃ d' ≤ d + 1, dist x = some d' :=
  hl.complete x (d + 1)
    ((hl.sound y d hy (hl.le_of_outer hedge.2 hy)).2.step hedge) hd

/-- After a round in which nothing changes, each vertex on a path has a distance that is no longer,
if the vertices at the last distance lead to others with one. -/
theorem complete_of_closed (hl : Layered edges b dist₀ h dist) (hb : b ≤ h)
    (hclosed : ∀ x y, OuterEdge edges b dist₀ y x → dist y = some h → dist x ≠ none)
    (hpath : OuterPath edges b dist₀ x d) : ∃ d' ≤ d, dist x = some d' := by
  induction hpath with
  | base hx => exact ⟨b, Nat.le_refl b, hl.keep _ b hx⟩
  | step hpath hedge ih =>
    rename_i y z d
    obtain ⟨d', hle, hy⟩ := ih
    rcases Nat.lt_or_eq_of_le (hl.le hb hy) with hlt | heq
    · obtain ⟨d'', hle', hx⟩ := hl.next hedge hy hlt
      exact ⟨d'', by omega, hx⟩
    · subst heq
      obtain ⟨d'', hx⟩ := Option.ne_none_iff_exists'.1 (hclosed z y hedge hy)
      have hle' := hl.le hb hx
      exact ⟨d'', by omega, hx⟩

/-- The distances of the vertices that have got one. -/
theorem isLeast (hl : Layered edges b dist₀ h dist) (hb : b ≤ h)
    (hclosed : ∀ x y, OuterEdge edges b dist₀ y x → dist y = some h → dist x ≠ none)
    (hx : dist x = some d) (hd : b ≤ d) : IsLeast {d | OuterPath edges b dist₀ x d} d := by
  refine ⟨(hl.sound x d hx hd).2, fun d' hpath => ?_⟩
  obtain ⟨d'', hle, hx'⟩ := hl.complete_of_closed hb hclosed hpath
  rw [hx] at hx'
  cases hx'
  exact hle

end Layered

/-! ## The rounds -/

variable [DecidableEq V]

/-- An edge in the round `h`. -/
def reach (h : ℕ) (dist : V → Option ℕ) (e : V × V) : V → Option ℕ :=
  if dist e.2 = none ∧ dist e.1 = some h then Function.update dist e.2 (some (h + 1)) else dist

/-- The round `h`. -/
def layer (edges : List (V × V)) (h : ℕ) (dist : V → Option ℕ) : V → Option ℕ :=
  edges.foldl (reach h) dist

theorem reach_of_some {e : V × V} (hx : dist x = some d) : reach h dist e x = some d := by
  unfold reach
  split
  · rename_i hreach
    have hne : x ≠ e.2 := by
      rintro rfl
      rw [hx] at hreach
      exact absurd hreach.1 (Option.some_ne_none d)
    rw [Function.update_of_ne hne, hx]
  · exact hx

theorem layer_of_some (hx : dist x = some d) : layer edges h dist x = some d := by
  induction edges generalizing dist with
  | nil => exact hx
  | cons e edges ih => exact ih (reach_of_some hx)

/-- What an edge changes has the distance `h + 1`. -/
theorem reach_of_none {e : V × V} (hx : dist x = none) : reach h dist e x =
    if e.2 = x ∧ dist e.1 = some h then some (h + 1) else none := by
  unfold reach
  by_cases heq : e.2 = x
  · subst heq
    by_cases hsource : dist e.1 = some h
    · rw [if_pos ⟨hx, hsource⟩, if_pos ⟨rfl, hsource⟩, Function.update_self]
    · rw [if_neg fun hand => hsource hand.2, if_neg fun hand => hsource hand.2, hx]
  · rw [if_neg (c := e.2 = x ∧ dist e.1 = some h) fun hand => heq hand.1]
    split
    · rw [Function.update_of_ne fun h => heq h.symm, hx]
    · exact hx

theorem reach_eq_some_iff {e : V × V} : reach h dist e x = some h ↔ dist x = some h := by
  cases hx : dist x with
  | some d => rw [reach_of_some hx]
  | none =>
    rw [reach_of_none hx]
    split
    · simp
    · simp

/-- What a round changes, with the distances before it. -/
theorem layer_of_none (hx : dist x = none) : layer edges h dist x =
    if ∃ e ∈ edges, e.2 = x ∧ dist e.1 = some h then some (h + 1) else none := by
  induction edges generalizing dist with
  | nil => exact hx.trans (if_neg (by simp)).symm
  | cons e edges ih =>
    change layer edges h (reach h dist e) x = _
    by_cases he : e.2 = x ∧ dist e.1 = some h
    · have hreach : reach h dist e x = some (h + 1) := by rw [reach_of_none hx, if_pos he]
      rw [layer_of_some hreach, if_pos ⟨e, List.mem_cons_self, he⟩]
    · have hreach : reach h dist e x = none := by rw [reach_of_none hx, if_neg he]
      rw [ih hreach]
      refine if_congr ?_ rfl rfl
      simp only [reach_eq_some_iff, List.mem_cons]
      constructor
      · rintro ⟨e', he', hand⟩
        exact ⟨e', .inr he', hand⟩
      · rintro ⟨e', rfl | he', hand⟩
        · exact absurd hand he
        · exact ⟨e', he', hand⟩

/-- A round goes one layer further. -/
theorem Layered.layer (hl : Layered edges b dist₀ h dist) (hb : b ≤ h) :
    Layered edges b dist₀ (h + 1) (layer edges h dist) where
  keep := fun x d hx => layer_of_some (hl.keep x d hx)
  near := fun x d hx hd => by
    cases hold : dist x with
    | some d' =>
      rw [layer_of_some hold] at hx
      exact hl.near x d (hold.trans hx) hd
    | none =>
      rw [layer_of_none hold] at hx
      split at hx
      · cases hx
        omega
      · cases hx
  sound := fun x d hx hd => by
    cases hold : dist x with
    | some d' =>
      rw [layer_of_some hold] at hx
      obtain ⟨hle, hpath⟩ := hl.sound x d (hold.trans hx) hd
      exact ⟨Nat.le_succ_of_le hle, hpath⟩
    | none =>
      rw [layer_of_none hold] at hx
      split at hx
      · rename_i hedge
        obtain ⟨⟨y, z⟩, hmem, rfl, hy⟩ := hedge
        cases hx
        refine ⟨Nat.le_refl _, (hl.sound y h hy hb).2.step ⟨hmem, fun d hd => ?_⟩⟩
        rw [hl.keep y d hd] at hy
        cases hy
        exact hb
      · cases hx
  complete := fun x d hpath hd => by
    cases hpath with
    | base hx => exact ⟨b, Nat.le_refl b, layer_of_some (hl.keep x b hx)⟩
    | step hpath hedge =>
      rename_i y d
      obtain ⟨d', hle, hy⟩ := hl.complete y d hpath (by omega)
      rcases Nat.lt_or_eq_of_le (hl.le hb hy) with hlt | heq
      · obtain ⟨d'', hle', hx⟩ := hl.next hedge hy hlt
        exact ⟨d'', by omega, layer_of_some hx⟩
      · subst heq
        cases hold : dist x with
        | some d'' =>
          have hle' := hl.le hb hold
          exact ⟨d'', by omega, layer_of_some hold⟩
        | none =>
          rw [layer_of_none hold, if_pos ⟨(y, x), hedge.1, rfl, hy⟩]
          exact ⟨d' + 1, by omega, rfl⟩

/-- When a round changes nothing, the vertices at the last distance lead to others with one. -/
theorem ne_none_of_layer_eq (heq : layer edges h dist = dist) {y : V}
    (hedge : OuterEdge edges b dist₀ y x) (hy : dist y = some h) : dist x ≠ none := by
  intro hx
  have hlayer : layer edges h dist x = _ := layer_of_none hx
  rw [heq, hx, if_pos ⟨(y, x), hedge.1, rfl, hy⟩] at hlayer
  exact absurd hlayer.symm (Option.some_ne_none _)

/-- The edges that lead to vertices without a distance. -/
def missing (edges : List (V × V)) (dist : V → Option ℕ) : ℕ :=
  (edges.filter fun e => dist e.2 = none).length

/-- A round that changes something reaches a vertex. -/
theorem missing_layer_lt (hne : layer edges h dist ≠ dist) :
    missing edges (layer edges h dist) < missing edges dist := by
  obtain ⟨x, hx⟩ := Function.ne_iff.1 hne
  have hnone : dist x = none := by
    by_contra hsome
    obtain ⟨d, hd⟩ := Option.ne_none_iff_exists'.1 hsome
    exact hx ((layer_of_some hd).trans hd.symm)
  have hsplit : edges.filter (fun e => layer edges h dist e.2 = none) =
      (edges.filter fun e => dist e.2 = none).filter
        fun e => layer edges h dist e.2 = none := by
    rw [List.filter_filter]
    refine List.filter_congr fun e _ => ?_
    cases he : dist e.2 with
    | none => simp
    | some d => simp [layer_of_some he]
  have hlayer : layer edges h dist x = _ := layer_of_none hnone
  rw [missing, missing, hsplit]
  apply List.length_filter_lt_length_iff_exists.2
  split at hlayer
  · rename_i hedge
    obtain ⟨e, he, rfl, -⟩ := hedge
    exact ⟨e, List.mem_filter.2 ⟨he, decide_eq_true hnone⟩, by simp [hlayer]⟩
  · exact absurd (hlayer.trans hnone.symm) hx

end SeanetSim
