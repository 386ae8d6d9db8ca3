import Mathlib.Data.Prod.Lex

/-!
# Events of a scheduler

A scheduler keeps events by their keys, the earliest first and of one time the one with the smaller
unique id.
-/

namespace SeanetSim

structure EventKey where
  ts : UInt64
  uid : UInt32
  context : UInt32
deriving DecidableEq, Repr

namespace EventKey

variable (a b : EventKey)

/-- `operator ==`, which looks at the unique ids alone. -/
def same : Bool := a.uid == b.uid

/-- `operator <`. -/
def lt : Bool :=
  if a.ts < b.ts then true
  else if a.ts == b.ts && a.uid < b.uid then true
  else false

/-- `operator >`. -/
def gt : Bool :=
  if a.ts > b.ts then true
  else if a.ts == b.ts && a.uid > b.uid then true
  else false

/-- The place of a key in the order. -/
def rank : ℕ ×ₗ ℕ := toLex (a.ts.toNat, a.uid.toNat)

theorem lt_iff_or : a.lt b ↔ a.ts < b.ts ∨ a.ts = b.ts ∧ a.uid < b.uid := by
  unfold lt
  by_cases hlt : a.ts < b.ts
  · simp [hlt]
  · simp [hlt]

theorem lt_iff : a.lt b ↔ a.rank < b.rank := by
  rw [lt_iff_or, rank, rank, Prod.Lex.toLex_lt_toLex]
  simp only [UInt64.lt_iff_toNat_lt, UInt32.lt_iff_toNat_lt, UInt64.toNat_inj]

theorem gt_iff : a.gt b ↔ b.rank < a.rank := by
  rw [← lt_iff, lt_iff_or, gt]
  by_cases hlt : b.ts < a.ts
  · simp [hlt]
  · simp [hlt, eq_comm (a := a.ts)]

theorem not_lt_iff : a.lt b = false ↔ b.rank ≤ a.rank := by
  rw [← not_lt, ← lt_iff, Bool.not_eq_true]

end EventKey

/-- `Scheduler::Event`, with what the event does in `impl`. -/
structure SchedulerEvent (ι : Type*) where
  impl : ι
  key : EventKey
deriving DecidableEq, Repr

inductive SchedulerOp (ι : Type*)
  | insert (ev : SchedulerEvent ι)
  | removeNext
  | remove (ev : SchedulerEvent ι)

end SeanetSim
