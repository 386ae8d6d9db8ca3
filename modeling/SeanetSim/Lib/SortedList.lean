import Mathlib.Data.List.Destutter
import Mathlib.Data.List.Sort

/-!
# Lists sorted by a comparison

Sorted lists of C++: `upper_bound` with `insert`, `sort`, and `sort` with `unique`, each for a
comparison `lt` that stands for "has the smaller key" (`hkey`).  Elements with the same key keep
their order.
-/

namespace SeanetSim

variable {α κ : Type*} (lt : α → α → Bool)

/-- `insert` at `upper_bound`: in front of the first element that is greater. -/
def insertUpper (a : α) (l : List α) : List α := l.orderedInsert (fun x y => lt x y) a

/-- `sort`. -/
def stableSort (l : List α) : List α := l.insertionSort fun x y => lt y x = false

/-- `sort` and `unique`. -/
def sortUnique [DecidableEq α] (l : List α) : List α := (stableSort lt l).destutter (· ≠ ·)

variable {lt} {a b : α} {l : List α}

theorem perm_insertUpper : (insertUpper lt a l).Perm (a :: l) := List.perm_orderedInsert ..

theorem mem_insertUpper : b ∈ insertUpper lt a l ↔ b = a ∨ b ∈ l := List.mem_orderedInsert ..

theorem perm_stableSort : (stableSort lt l).Perm l := List.perm_insertionSort ..

section Key

variable [LinearOrder κ] {key : α → κ} (hkey : ∀ a b, lt a b = true ↔ key a < key b)
include hkey

theorem lt_eq_false_iff : lt b a = false ↔ key a ≤ key b := by
  rw [← Bool.not_eq_true, hkey, not_lt]

theorem pairwise_insertUpper (h : l.Pairwise fun x y => key x ≤ key y) :
    (insertUpper lt a l).Pairwise fun x y => key x ≤ key y := by
  induction l with
  | nil => exact List.pairwise_singleton _ _
  | cons b l ih =>
    rw [List.pairwise_cons] at h
    rw [insertUpper, List.orderedInsert_cons]
    split_ifs with hlt
    · rw [hkey] at hlt
      refine List.pairwise_cons.2 ⟨fun c hc => ?_, List.pairwise_cons.2 h⟩
      rcases List.mem_cons.1 hc with rfl | hc
      · exact hlt.le
      · exact hlt.le.trans (h.1 c hc)
    · rw [Bool.not_eq_true, lt_eq_false_iff hkey] at hlt
      refine List.pairwise_cons.2 ⟨fun c hc => ?_, ih h.2⟩
      rcases mem_insertUpper.1 hc with rfl | hc
      · exact hlt
      · exact h.1 c hc

theorem pairwise_stableSort : (stableSort lt l).Pairwise fun x y => key x ≤ key y := by
  have htotal : Std.Total fun x y => lt y x = false :=
    ⟨fun x y => by simpa only [lt_eq_false_iff hkey] using le_total (key x) (key y)⟩
  have htrans : IsTrans α fun x y => lt y x = false :=
    ⟨fun x y z => by simpa only [lt_eq_false_iff hkey] using le_trans⟩
  exact (List.pairwise_insertionSort _ l).imp (lt_eq_false_iff hkey).1

variable [DecidableEq α]

theorem sortUnique_eq_dedup (hinj : Function.Injective key) :
    sortUnique lt l = (stableSort lt l).dedup := by
  have hantisymm : Std.Antisymm fun x y => key x ≤ key y :=
    ⟨fun x y hxy hyx => hinj (le_antisymm hxy hyx)⟩
  exact (pairwise_stableSort hkey).destutter_eq_dedup

theorem mem_sortUnique (hinj : Function.Injective key) : a ∈ sortUnique lt l ↔ a ∈ l := by
  rw [sortUnique_eq_dedup hkey hinj, List.mem_dedup, perm_stableSort.mem_iff]

theorem nodup_sortUnique (hinj : Function.Injective key) : (sortUnique lt l).Nodup := by
  rw [sortUnique_eq_dedup hkey hinj]
  exact List.nodup_dedup _

theorem pairwise_sortUnique (hinj : Function.Injective key) :
    (sortUnique lt l).Pairwise fun x y => key x ≤ key y := by
  rw [sortUnique_eq_dedup hkey hinj]
  exact (pairwise_stableSort hkey).sublist (List.dedup_sublist _)

end Key

end SeanetSim
