import Mathlib.Data.Set.Insert

/-!
# Covering goals

Records say through what each goal can be reached.  A goal is covered when it can be reached through
something that has been chosen; where records are left out step by step, each step only has to cover
the goals of those that it leaves out (`Covering.choose`).
-/

namespace SeanetSim

variable {ρ α β : Type*} (via : ρ → α) (goal : ρ → β)

/-- The goal of each record is covered, or the record is left. -/
structure Covering (records left : List ρ) (chosen : Set α) : Prop where
  left_sublist : left.Sublist records
  covered : ∀ t ∈ records, t ∈ left ∨ ∃ t' ∈ records, goal t' = goal t ∧ via t' ∈ chosen

namespace Covering

variable {via goal} {records left left' : List ρ} {chosen chosen' : Set α}

theorem start : Covering via goal records records chosen :=
  ⟨List.Sublist.refl _, fun _ ht => .inl ht⟩

/-- More is chosen, and less is left. -/
theorem choose (h : Covering via goal records left chosen) (hchosen : chosen ⊆ chosen')
    (hleft : left'.Sublist left)
    (hcovered : ∀ t ∈ left, t ∉ left' → ∃ t' ∈ left, goal t' = goal t ∧ via t' ∈ chosen') :
    Covering via goal records left' chosen' where
  left_sublist := hleft.trans h.left_sublist
  covered := by
    intro t ht
    by_cases hmem : t ∈ left'
    · exact .inl hmem
    · right
      rcases h.covered t ht with hold | ⟨t', ht', hgoal, hvia⟩
      · obtain ⟨t', ht', hgoal, hvia⟩ := hcovered t hold hmem
        exact ⟨t', h.left_sublist.subset ht', hgoal, hvia⟩
      · exact ⟨t', ht', hgoal, hchosen hvia⟩

/-- Nothing is left. -/
theorem complete (h : Covering via goal records [] chosen) {t : ρ} (ht : t ∈ records) :
    ∃ t' ∈ records, goal t' = goal t ∧ via t' ∈ chosen :=
  (h.covered t ht).resolve_left List.not_mem_nil

end Covering

end SeanetSim
