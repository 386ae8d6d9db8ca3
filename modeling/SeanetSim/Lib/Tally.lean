import Mathlib.Data.List.Basic
import Mathlib.Data.UInt

/-!
# Tallies

The total weight of the elements of a list that have a property, and a counter of 32 bits that
keeps such a total.
-/

namespace SeanetSim

section Tallies

variable {α β : Type*} {w : α → ℕ} {p q r : α → Bool} {l : List α}

/-- The weight of the elements that have a property. -/
def tally (w : α → ℕ) (p : α → Bool) : List α → ℕ
  | [] => 0
  | a :: l => (if p a then w a else 0) + tally w p l

@[simp] theorem tally_nil : tally w p [] = 0 := rfl

@[simp] theorem tally_cons (a : α) (l : List α) :
    tally w p (a :: l) = (if p a then w a else 0) + tally w p l := rfl

@[simp] theorem tally_append (l m : List α) : tally w p (l ++ m) = tally w p l + tally w p m := by
  induction l with
  | nil => simp
  | cons a l ih => rw [List.cons_append, tally_cons, tally_cons, ih, Nat.add_assoc]

theorem tally_eq_zero (h : ∀ a ∈ l, p a = false) : tally w p l = 0 := by
  induction l with
  | nil => rfl
  | cons a l ih =>
    obtain ⟨ha, hl⟩ := List.forall_mem_cons.1 h
    rw [tally_cons, ha, ih hl]
    rfl

/-- Elements may change as long as they keep their weight. -/
theorem tally_map {w' : β → ℕ} {p' : β → Bool} {f : β → α} {l : List β}
    (hw : ∀ b ∈ l, w (f b) = w' b) (hp : ∀ b ∈ l, p (f b) = p' b) :
    tally w p (l.map f) = tally w' p' l := by
  induction l with
  | nil => rfl
  | cons b l ih =>
    obtain ⟨hwb, hw⟩ := List.forall_mem_cons.1 hw
    obtain ⟨hpb, hp⟩ := List.forall_mem_cons.1 hp
    rw [List.map_cons, tally_cons, tally_cons, hwb, hpb, ih hw hp]

/-- Two properties that exclude each other. -/
theorem tally_add_le (hpq : ∀ a ∈ l, (p a && q a) = false) (hp : ∀ a ∈ l, p a → r a)
    (hq : ∀ a ∈ l, q a → r a) : tally w p l + tally w q l ≤ tally w r l := by
  induction l with
  | nil => simp
  | cons a l ih =>
    obtain ⟨hpqa, hpq⟩ := List.forall_mem_cons.1 hpq
    obtain ⟨hpa, hp⟩ := List.forall_mem_cons.1 hp
    obtain ⟨hqa, hq⟩ := List.forall_mem_cons.1 hq
    have hl := ih hpq hp hq
    simp only [tally_cons]
    cases hp' : p a <;> cases hq' : q a <;> simp_all <;> omega

theorem tally_le (h : ∀ a ∈ l, p a → q a) : tally w p l ≤ tally w q l := by
  have hle := tally_add_le (w := w) (p := p) (q := fun _ => false) (r := q) (l := l)
    (fun a _ => Bool.and_false _) h (fun _ _ => nofun)
  omega

end Tallies

/-! ## Counters -/

section Counters

variable {c : UInt32} {n : ℕ}

theorem toNat_add_ofNat (h : c.toNat + n < 2 ^ 32) : (c + UInt32.ofNat n).toNat = c.toNat + n := by
  rw [UInt32.toNat_add, UInt32.toNat_ofNat']
  omega

theorem toNat_sub_ofNat (h : n ≤ c.toNat) : (c - UInt32.ofNat n).toNat = c.toNat - n := by
  have hc := c.toNat_lt
  rw [UInt32.toNat_sub, UInt32.toNat_ofNat']
  omega

end Counters

end SeanetSim
