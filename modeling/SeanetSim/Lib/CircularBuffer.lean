import Mathlib.Data.Nat.ModEq

/-!
# Circular buffers

A list whose first element is the one at a head, and that goes on from its end at its begin.  To
move the head forward is to drop the first element and to have a new last one.
-/

namespace SeanetSim

variable {α : Type*} {l : List α} {head d e : ℕ}

/-- The element `d` places after the head. -/
def circularAt (l : List α) (head d : ℕ) : Option α := l[(head + d) % l.length]?

theorem circularIndex_inj {n : ℕ} (hd : d < n) (he : e < n)
    (h : (head + d) % n = (head + e) % n) : d = e :=
  Nat.ModEq.eq_of_lt_of_lt (Nat.ModEq.add_left_cancel' head h) hd he

theorem circularAt_set (head : ℕ) (hd : d < l.length) (he : e < l.length) (x : α) :
    circularAt (l.set ((head + d) % l.length) x) head e =
      if e = d then some x else circularAt l head e := by
  unfold circularAt
  rw [List.length_set]
  have hlt : (head + d) % l.length < l.length := Nat.mod_lt _ (Nat.zero_lt_of_lt hd)
  split
  · rename_i h
    rw [h, List.getElem?_set_self hlt]
  · rename_i h
    exact List.getElem?_set_ne fun heq => h (circularIndex_inj hd he heq).symm

/-- What is `d` places after the next head. -/
theorem circularAt_succ (hhead : head < l.length) (hd : d < l.length) (x : α) :
    circularAt (l.set head x) ((head + 1) % l.length) d =
      if d + 1 < l.length then circularAt l head (d + 1) else some x := by
  have hindex : circularAt (l.set head x) ((head + 1) % l.length) d =
      circularAt (l.set head x) head (d + 1) := by
    unfold circularAt
    rw [List.length_set, Nat.mod_add_mod, Nat.add_assoc, Nat.add_comm 1]
  rw [hindex]
  split
  · rename_i hlt
    have hset := circularAt_set head (Nat.zero_lt_of_lt hd) hlt x
    rwa [Nat.add_zero, Nat.mod_eq_of_lt hhead, if_neg (Nat.succ_ne_zero d)] at hset
  · have hlast : d + 1 = l.length := by omega
    unfold circularAt
    rw [List.length_set, hlast, Nat.add_mod_right, Nat.mod_eq_of_lt hhead,
      List.getElem?_set_self hhead]

end SeanetSim
