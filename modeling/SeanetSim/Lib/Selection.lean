import Mathlib.Data.List.TakeWhile
import Mathlib.Order.Lattice

/-!
# Selecting the best candidates

A loop over a list of candidates, some of which have a score.  It holds the best candidate so far
with its score and replaces it by a candidate whose score stands in the relation `r` to it: `<`
keeps the first of several best candidates, `≤` the last one.  And the choice among candidates that
are sorted into classes, the best class first: `firstNonempty`.  What a list has before an element
(`before`) decides whether a search for the first match finds that element.
-/

namespace SeanetSim

variable {α T : Type*} {r : T → T → Prop} [DecidableRel r] {score : α → Option T}

/-- One round of the loop. -/
def keepBest (r : T → T → Prop) [DecidableRel r] (score : α → Option T) (best : α × T) (a : α) :
    α × T :=
  match score a with
  | some d => if r d best.2 then (a, d) else best
  | none => best

variable (r score) in
theorem keepBest_cases (best : α × T) (a : α) :
    keepBest r score best a = best ∨
      ∃ d, score a = some d ∧ r d best.2 ∧ keepBest r score best a = (a, d) := by
  unfold keepBest
  split
  · next d hd =>
    split_ifs with hr
    · exact .inr ⟨d, hd, hr, rfl⟩
    · exact .inl rfl
  · exact .inl rfl

variable (r score) in
/-- Unless the loop ends with what it started from, because no candidate is better, it ends with a
better candidate and its score. -/
theorem foldl_keepBest_cases [IsTrans T r] (l : List α) (best : α × T) :
    (l.foldl (keepBest r score) best = best ∧ ∀ a ∈ l, ∀ d, score a = some d → ¬ r d best.2) ∨
      ∃ a ∈ l, ∃ d, score a = some d ∧ r d best.2 ∧ l.foldl (keepBest r score) best = (a, d) := by
  induction l generalizing best with
  | nil => exact .inl ⟨rfl, fun _ ha => absurd ha List.not_mem_nil⟩
  | cons a l ih =>
    rw [List.foldl_cons]
    rcases ih (keepBest r score best a) with ⟨h, hnone⟩ | ⟨b, hb, d, hd, hr, h⟩
    · rcases keepBest_cases r score best a with ha | ⟨d, hd, hr, ha⟩
      · by_cases hbetter : ∃ d, score a = some d ∧ r d best.2
        · obtain ⟨d, hd, hr⟩ := hbetter
          refine .inr ⟨a, List.mem_cons_self .., d, hd, hr, h.trans ?_⟩
          rw [keepBest, hd]
          exact if_pos hr
        · rw [ha] at h hnone
          refine .inl ⟨by rw [ha, h], fun b hb d hd hr => ?_⟩
          rcases List.mem_cons.1 hb with rfl | hb
          · exact hbetter ⟨d, hd, hr⟩
          · exact hnone b hb d hd hr
      · exact .inr ⟨a, List.mem_cons_self .., d, hd, hr, h.trans ha⟩
    · refine .inr ⟨b, List.mem_cons_of_mem _ hb, d, hd, ?_, h⟩
      rcases keepBest_cases r score best a with ha | ⟨d', -, hr', ha⟩
      · rwa [ha] at hr
      · rw [ha] at hr
        exact IsTrans.trans _ _ _ hr hr'

variable (r score) in
/-- The loop ends with what it started from or with a better candidate and its score. -/
theorem foldl_keepBest_mem [IsTrans T r] (l : List α) (best : α × T) :
    l.foldl (keepBest r score) best = best ∨
      ∃ a ∈ l, ∃ d, score a = some d ∧ r d best.2 ∧ l.foldl (keepBest r score) best = (a, d) :=
  (foldl_keepBest_cases r score l best).imp_left And.left

theorem keepBest_some (f : α → T) (best : α × T) (a : α) :
    keepBest r (fun a => some (f a)) best a = if r (f a) best.2 then (a, f a) else best := rfl

section Order

variable [LinearOrder T] (hle : ∀ a b, r a b → a ≤ b) (hge : ∀ a b, ¬ r a b → b ≤ a)

include hle in
theorem foldl_keepBest_le_best (l : List α) (best : α × T) :
    (l.foldl (keepBest r score) best).2 ≤ best.2 := by
  induction l generalizing best with
  | nil => exact le_rfl
  | cons a l ih =>
    apply le_trans (ih (keepBest r score best a))
    rcases keepBest_cases r score best a with ha | ⟨d, -, hr, ha⟩
    · rw [ha]
    · rw [ha]
      exact hle _ _ hr

include hge in
theorem keepBest_le (best : α × T) {a : α} {d : T} (hd : score a = some d) :
    (keepBest r score best a).2 ≤ d := by
  unfold keepBest
  rw [hd]
  dsimp only
  split_ifs with h
  · exact le_rfl
  · exact hge _ _ h

include hle hge in
/-- The loop ends with a score no candidate falls below. -/
theorem foldl_keepBest_le {l : List α} (best : α × T) {a : α} {d : T} (ha : a ∈ l)
    (hd : score a = some d) : (l.foldl (keepBest r score) best).2 ≤ d := by
  induction l generalizing best with
  | nil => exact absurd ha List.not_mem_nil
  | cons b l ih =>
    rw [List.foldl_cons]
    rcases List.mem_cons.1 ha with rfl | ha
    · exact le_trans (foldl_keepBest_le_best hle l _) (keepBest_le hge best hd)
    · exact ih _ ha

end Order

/-! ## Classes -/

/-- The candidates of the first class that has any. -/
def firstNonempty : List (List α) → List α
  | [] => []
  | [] :: classes => firstNonempty classes
  | (a :: l) :: _ => a :: l

theorem firstNonempty_eq_nil_iff (classes : List (List α)) :
    firstNonempty classes = [] ↔ ∀ l ∈ classes, l = [] := by
  induction classes with
  | nil => simp [firstNonempty]
  | cons l classes ih => cases l <;> simp [firstNonempty, ih]

theorem firstNonempty_cons_of_ne {l : List α} (classes : List (List α)) (h : l ≠ []) :
    firstNonempty (l :: classes) = l := by
  cases l with
  | nil => exact absurd rfl h
  | cons a l => rfl

/-- At most one element passes a test. -/
theorem length_filter_le_one_iff {p : α → Bool} {l : List α} :
    (l.filter p).length ≤ 1 ↔ l.Pairwise fun a b => ¬ (p a = true ∧ p b = true) := by
  rw [List.pairwise_iff_forall_sublist]
  constructor
  · intro hle a b hsub ⟨ha, hb⟩
    have hlen := (hsub.filter p).length_le
    rw [List.filter_cons_of_pos ha, List.filter_cons_of_pos hb] at hlen
    simp at hlen
    omega
  · intro hnone
    by_contra hlong
    match hl : l.filter p, hlong with
    | [], hlong => exact hlong (Nat.zero_le _)
    | [_], hlong => exact hlong (Nat.le_refl _)
    | a :: b :: rest, _ =>
      have hsub : [a, b].Sublist (l.filter p) := by
        rw [hl]
        exact ((List.nil_sublist rest).cons_cons b).cons_cons a
      have hpass : ∀ x ∈ [a, b], p x = true := fun x hx => (List.mem_filter.1 (hsub.subset hx)).2
      exact hnone (hsub.trans List.filter_sublist) ⟨hpass a (by simp), hpass b (by simp)⟩

/-! ## The first match -/

section Before

variable {α : Type*} [DecidableEq α] {l : List α} {a b : α} {p : α → Bool}

/-- What a list has before an element. -/
def before (l : List α) (a : α) : List α := l.takeWhile (· ≠ a)

theorem before_cons_self (a : α) (l : List α) : before (a :: l) a = [] := by simp [before]

theorem before_cons_of_ne (l : List α) (h : b ≠ a) : before (b :: l) a = b :: before l a := by
  simp [before, h]

theorem not_mem_before (l : List α) (a : α) : a ∉ before l a := by
  intro h
  simpa using List.mem_takeWhile_imp h

theorem find?_eq_of_before (ha : a ∈ l) (hpa : p a = true) (hbefore : ∀ b ∈ before l a, p b = false) :
    l.find? p = some a := by
  induction l with
  | nil => cases ha
  | cons b l ih =>
    by_cases hba : b = a
    · rw [hba, List.find?_cons_of_pos hpa]
    · rw [before_cons_of_ne l hba] at hbefore
      rw [List.find?_cons_of_neg (by simp [hbefore b List.mem_cons_self])]
      refine ih ?_ fun b' hb' => hbefore b' (List.mem_cons_of_mem _ hb')
      exact (List.mem_cons.1 ha).resolve_left (Ne.symm hba)

theorem find?_before (h : l.find? p = some a) : ∀ b ∈ before l a, p b = false := by
  induction l with
  | nil => cases h
  | cons b l ih =>
    by_cases hpb : p b = true
    · rw [List.find?_cons_of_pos hpb] at h
      obtain rfl := Option.some.inj h
      rw [before_cons_self]
      nofun
    · rw [List.find?_cons_of_neg hpb] at h
      have hba : b ≠ a := fun heq => hpb (heq ▸ List.find?_some h)
      rw [before_cons_of_ne l hba]
      exact List.forall_mem_cons.2 ⟨Bool.eq_false_iff.2 hpb, ih h⟩

/-- Where something before an element has the property, the first one that has it is before the
element. -/
theorem find?_mem_before (hb : b ∈ before l a) (hpb : p b = true) :
    ∃ b' ∈ before l a, l.find? p = some b' := by
  induction l with
  | nil => cases hb
  | cons d l ih =>
    by_cases hda : d = a
    · rw [hda, before_cons_self] at hb
      cases hb
    · rw [before_cons_of_ne l hda] at hb ⊢
      by_cases hpd : p d = true
      · exact ⟨d, List.mem_cons_self, List.find?_cons_of_pos hpd⟩
      · have hbd : b ≠ d := fun heq => hpd (heq ▸ hpb)
        obtain ⟨b', hb', hfind⟩ := ih ((List.mem_cons.1 hb).resolve_left hbd)
        exact ⟨b', List.mem_cons_of_mem _ hb', (List.find?_cons_of_neg hpd).trans hfind⟩

theorem mem_before_or (ha : a ∈ l) (hb : b ∈ l) (hne : a ≠ b) :
    a ∈ before l b ∨ b ∈ before l a := by
  induction l with
  | nil => cases ha
  | cons d l ih =>
    by_cases hda : d = a
    · left
      rw [hda, before_cons_of_ne l hne]
      exact List.mem_cons_self
    · by_cases hdb : d = b
      · right
        rw [hdb, before_cons_of_ne l (Ne.symm hne)]
        exact List.mem_cons_self
      · rw [before_cons_of_ne l hda, before_cons_of_ne l hdb]
        have ha' := (List.mem_cons.1 ha).resolve_left (Ne.symm hda)
        have hb' := (List.mem_cons.1 hb).resolve_left (Ne.symm hdb)
        exact (ih ha' hb').imp (List.mem_cons_of_mem _) (List.mem_cons_of_mem _)

end Before

end SeanetSim
