import Mathlib.Combinatorics.SimpleGraph.Acyclic

/-!
# Sides of the links of a tree

`LeadsTo G a b v` says that the path from `a` to `v` begins with the link from `a` to `b`.  In a tree
exactly one link of `a` leads to another node `v`, and a link leads to `v` from exactly one of its
ends; what leads on from there without turning back leads away from where it has come from.
-/

namespace SeanetSim

variable {V : Type*} {G : SimpleGraph V} {a b c v : V}

/-- The path from `a` to `v` begins with the link to `b`. -/
def LeadsTo (G : SimpleGraph V) (a b v : V) : Prop :=
  ∃ (h : G.Adj a b) (w : G.Walk b v), (SimpleGraph.Walk.cons h w).IsPath

namespace LeadsTo

theorem adj (h : LeadsTo G a b v) : G.Adj a b := h.1

theorem self (h : G.Adj a b) : LeadsTo G a b b :=
  ⟨h, .nil, SimpleGraph.Walk.IsPath.nil.cons (by simpa using h.ne)⟩

theorem unique (hG : G.IsTree) (h : LeadsTo G a b v) (h' : LeadsTo G a c v) : b = c := by
  obtain ⟨hadj, w, hw⟩ := h
  obtain ⟨hadj', w', hw'⟩ := h'
  have heq := (hG.existsUnique_path a v).unique hw hw'
  simpa only [SimpleGraph.Walk.snd_cons] using congrArg SimpleGraph.Walk.snd heq

theorem exists_of_ne (hG : G.IsTree) (hne : a ≠ v) : ∃ b, LeadsTo G a b v := by
  obtain ⟨w, hw, -⟩ := hG.existsUnique_path a v
  cases w with
  | nil => exact absurd rfl hne
  | cons h w => exact ⟨_, h, w, hw⟩

/-- A link leads to a node from one of its ends. -/
theorem or_symm (hG : G.IsTree) (h : G.Adj a b) (v : V) : LeadsTo G a b v ∨ LeadsTo G b a v := by
  obtain ⟨w, hw, -⟩ := hG.existsUnique_path b v
  by_cases hmem : a ∈ w.support
  · have hsnd := hG.isAcyclic.eq_snd_of_adj_start hw h.symm hmem
    cases w with
    | nil =>
      rw [SimpleGraph.Walk.support_nil, List.mem_singleton] at hmem
      exact absurd hmem h.ne
    | cons h' w =>
      rw [SimpleGraph.Walk.snd_cons] at hsnd
      subst hsnd
      exact .inr ⟨h', w, hw⟩
  · exact .inl ⟨h, w, hw.cons hmem⟩

theorem not_symm (hG : G.IsTree) (h : LeadsTo G a b v) : ¬ LeadsTo G b a v := by
  rintro ⟨hadj', w', hw'⟩
  obtain ⟨hadj, w, hw⟩ := h
  rw [SimpleGraph.Walk.cons_isPath_iff] at hw
  have heq := (hG.existsUnique_path b v).unique hw.1 hw'
  apply hw.2
  rw [heq, SimpleGraph.Walk.support_cons]
  exact List.mem_cons_of_mem _ w'.start_mem_support

/-- What leads on to a node without turning back leads to it from further away. -/
theorem trans (hG : G.IsTree) (h : G.Adj a b) (hnext : LeadsTo G b c v) (hne : c ≠ a) :
    LeadsTo G a b v :=
  (or_symm hG h v).resolve_right fun hback => hne (unique hG hnext hback)

/-- The way on to a node leads not back. -/
theorem exists_next (hG : G.IsTree) (h : LeadsTo G a b v) (hne : b ≠ v) :
    ∃ c, c ≠ a ∧ LeadsTo G b c v := by
  obtain ⟨c, hc⟩ := exists_of_ne hG hne
  refine ⟨c, fun heq => ?_, hc⟩
  exact not_symm hG h (heq ▸ hc)

/-- What has come from the side of a node goes on away from it. -/
theorem away (hG : G.IsTree) (h : LeadsTo G b a v) (hadj : G.Adj b c) (hne : c ≠ a) :
    LeadsTo G c b v :=
  (or_symm hG hadj v).resolve_left fun hforth => hne (unique hG hforth h)

theorem ne_self (h : LeadsTo G a b v) : v ≠ a := by
  rintro rfl
  obtain ⟨hadj, w, hw⟩ := h
  exact ((SimpleGraph.Walk.cons_isPath_iff hadj w).1 hw).2 w.end_mem_support

end LeadsTo

open scoped Classical in
/-- At most one of the links leads to a node. -/
theorem countP_leadsTo (hG : G.IsTree) {l : List V} (hnodup : l.Nodup) (a v : V) :
    l.countP (fun b => LeadsTo G a b v) = if ∃ b ∈ l, LeadsTo G a b v then 1 else 0 := by
  induction l with
  | nil => simp
  | cons b l ih =>
    obtain ⟨hb, hl⟩ := List.nodup_cons.1 hnodup
    rw [List.countP_cons, ih hl]
    by_cases hlead : LeadsTo G a b v
    · have hnone : ¬ ∃ c ∈ l, LeadsTo G a c v := by
        rintro ⟨c, hc, hlead'⟩
        exact hb (hlead.unique hG hlead' ▸ hc)
      rw [if_neg hnone]
      simp [hlead]
    · simp [hlead]

section Side

variable [Fintype V]

open scoped Classical in
/-- The nodes that a link leads to. -/
noncomputable def side (G : SimpleGraph V) (a b : V) : Finset V :=
  Finset.univ.filter fun v => LeadsTo G a b v

theorem mem_side : v ∈ side G a b ↔ LeadsTo G a b v := by
  simp [side]

theorem card_side_le (G : SimpleGraph V) (a b : V) : (side G a b).card ≤ Fintype.card V :=
  Finset.card_le_univ _

open scoped Classical in
/-- The sides of different links of a node are disjoint. -/
theorem sum_card_side (hG : G.IsTree) {l : List V} (hnodup : l.Nodup) (a : V) :
    (l.map fun b => (side G a b).card).sum =
      (Finset.univ.filter fun v => ∃ b ∈ l, LeadsTo G a b v).card := by
  induction l with
  | nil => simp
  | cons b l ih =>
    obtain ⟨hb, hl⟩ := List.nodup_cons.1 hnodup
    have hunion : (Finset.univ.filter fun v => ∃ c ∈ b :: l, LeadsTo G a c v) =
        side G a b ∪ Finset.univ.filter fun v => ∃ c ∈ l, LeadsTo G a c v := by
      ext v
      simp [mem_side]
    have hdisjoint : Disjoint (side G a b)
        (Finset.univ.filter fun v => ∃ c ∈ l, LeadsTo G a c v) := by
      rw [Finset.disjoint_left]
      intro v hv hv'
      obtain ⟨c, hc, hlead⟩ := (Finset.mem_filter.1 hv').2
      exact hb ((mem_side.1 hv).unique hG hlead ▸ hc)
    rw [List.map_cons, List.sum_cons, ih hl, hunion, Finset.card_union_of_disjoint hdisjoint]

open scoped Classical in
/-- Beyond a link there is more than beyond the links that go on from it. -/
theorem sum_card_side_lt (hG : G.IsTree) (hadj : G.Adj a b) {l : List V} (hnodup : l.Nodup)
    (hne : a ∉ l) : (l.map fun c => (side G b c).card).sum < (side G a b).card := by
  rw [sum_card_side hG hnodup]
  apply Finset.card_lt_card
  rw [Finset.ssubset_iff_of_subset]
  · refine ⟨b, mem_side.2 (.self hadj), fun hmem => ?_⟩
    obtain ⟨c, -, hlead⟩ := (Finset.mem_filter.1 hmem).2
    exact hlead.ne_self rfl
  · intro v hmem
    obtain ⟨c, hc, hlead⟩ := (Finset.mem_filter.1 hmem).2
    exact mem_side.2 (.trans hG hadj hlead fun heq => hne (heq ▸ hc))

end Side

end SeanetSim
