import Mathlib.Logic.Function.Iterate
import SeanetSim.Lib.Run
import SeanetSim.TrafficControl.CoDel

/-!
# CoDel drops the whole queue

With a `MinBytes` of zero, `OkToDrop` lets the last packet of the queue be dropped.  `DoDequeue`
then has no packet left and still reads its time stamp (`CoDel.returns_iff`).
-/

namespace SeanetSim

namespace CoDel

section Conditions

variable (c : CoDelConfig) (now : ℕ)

/-- The packet has not been in the queue for less than the target. -/
def isAbove (item : CoDelItem) : Bool :=
  !coDelTimeBefore (time2CoDel (now - item.timeStamp)) (time2CoDel c.target)

/-- The delay has been above the target for an interval. -/
def intervalOver (s : CoDel) : Bool :=
  s.firstAboveTime != 0 && coDelTimeAfter (coDelGetTime now) s.firstAboveTime

/-- The drop rate after a packet has been dropped in the dropping state. -/
def afterDrop (s : CoDel) : CoDel :=
  let s := { s with count := s.count + 1, recInvSqrt := newtonStep s.recInvSqrt (s.count + 1) }
  { s with dropNext := controlLaw s.dropNext (time2CoDel c.interval) s.recInvSqrt }

/-- The control law may drop every packet of the queue and mark none: all of them are due in the
dropping state, or there is only one. -/
structure DropsAll (s : CoDel) : Prop where
  nonempty : s.queue ≠ []
  minBytes : c.minBytes = 0
  controlled : ∀ item ∈ s.queue.head?, (c.useL4s && isL4s item) = false
  above : ∀ item ∈ s.queue, isAbove c now item = true
  unmarkable : ∀ item ∈ s.queue, tryMark c item = none
  interval : s.intervalOver now = true
  due : if s.dropping then ∀ k < s.queue.length,
      coDelTimeAfterEq (coDelGetTime now) ((afterDrop c)^[k] s).dropNext = true
    else s.queue.length = 1

end Conditions

variable {c : CoDelConfig} {now : ℕ} {s : CoDel} {item : CoDelItem} {rest : List CoDelItem}

theorem okToDrop_of_minBytes (hmin : c.minBytes = 0) (hover : s.intervalOver now = true)
    (item : CoDelItem) : s.okToDrop c now (some item) =
      (isAbove c now item, if isAbove c now item then s else { s with firstAboveTime := 0 }) := by
  obtain ⟨hne, hafter⟩ := Bool.and_eq_true_iff.1 hover
  have hzero : s.firstAboveTime ≠ 0 := bne_iff_ne.1 hne
  have hbytes : ¬ s.nBytes < c.minBytes := by
    rw [hmin, UInt32.lt_iff_toNat_lt]
    exact Nat.not_lt_zero _
  unfold okToDrop isAbove
  cases hbefore : coDelTimeBefore (time2CoDel (now - item.timeStamp)) (time2CoDel c.target) <;>
    simp [hbytes, hzero, hafter, hbefore]

/-- A packet may be dropped only once the interval is over. -/
theorem intervalOver_of_okToDrop (h : (s.okToDrop c now (some item)).1 = true) :
    s.intervalOver now = true ∧ isAbove c now item = true ∧
      (s.okToDrop c now (some item)).2 = s := by
  unfold okToDrop at h ⊢
  dsimp only at h ⊢
  split_ifs at h ⊢ with hbelow hzero
  dsimp only at h
  obtain ⟨hbefore, -⟩ := Bool.or_eq_false_iff.1 (Bool.eq_false_iff.2 hbelow)
  refine ⟨?_, ?_, rfl⟩
  · rw [intervalOver, h, Bool.and_true]
    exact bne_iff_ne.2 hzero
  · rw [isAbove, hbefore]
    rfl

theorem iterate_afterDrop_congr {t : CoDel} (hcount : t.count = s.count)
    (hrec : t.recInvSqrt = s.recInvSqrt) (hnext : t.dropNext = s.dropNext) (k : ℕ) :
    ((afterDrop c)^[k] t).dropNext = ((afterDrop c)^[k] s).dropNext := by
  induction k generalizing s t with
  | zero => exact hnext
  | succ k ih =>
    rw [Function.iterate_succ_apply, Function.iterate_succ_apply]
    refine ih ?_ ?_ ?_ <;> simp only [afterDrop, hcount, hrec, hnext]

/-- A turn of the loop that drops its packet, and whether another turn follows. -/
theorem dropLoop_cons (hmin : c.minBytes = 0) (hover : s.intervalOver now = true)
    (hdropping : s.dropping = true)
    (hdue : coDelTimeAfterEq (coDelGetTime now) s.dropNext = true) (htry : tryMark c item = none)
    (dropped : List CoDelItem) (next : CoDelItem) (rest : List CoDelItem) :
    (s.dropLoop c now item dropped (next :: rest)).item =
      if isAbove c now next then
        (dropLoop c now { afterDrop c s with queue := rest } next (dropped ++ [item]) rest).item
      else some next := by
  have hok := okToDrop_of_minBytes (s := { s with
    queue := rest, count := s.count + 1
    recInvSqrt := newtonStep s.recInvSqrt (s.count + 1) }) hmin hover next
  have hturn : (s.dropping && coDelTimeAfterEq (coDelGetTime now) s.dropNext) = true := by
    rw [hdropping, hdue, Bool.true_and]
  rw [dropLoop, dropTurn, if_pos hturn, htry]
  dsimp only
  rw [hok]
  cases isAbove c now next <;> rfl

/-- The loop of the dropping state is left without a packet exactly if all of them are due. -/
theorem dropLoop_item_eq_none_iff (hmin : c.minBytes = 0) (hover : s.intervalOver now = true)
    (hdropping : s.dropping = true) (item : CoDelItem) (dropped rest : List CoDelItem) :
    (s.dropLoop c now item dropped rest).item = none ↔
      (∀ i ∈ item :: rest, tryMark c i = none) ∧ (∀ i ∈ rest, isAbove c now i = true) ∧
        ∀ k < rest.length + 1,
          coDelTimeAfterEq (coDelGetTime now) ((afterDrop c)^[k] s).dropNext = true := by
  rw [List.forall_mem_cons, Nat.forall_lt_succ_left, Function.iterate_zero_apply]
  simp only [Function.iterate_succ_apply]
  induction rest generalizing s item dropped with
  | nil =>
    unfold dropLoop dropTurn
    dsimp only
    rw [hdropping, Bool.true_and]
    cases hdue : coDelTimeAfterEq (coDelGetTime now) s.dropNext with
    | false => simp
    | true => cases htry : tryMark c item <;> simp
  | cons next rest ih =>
    cases hdue : coDelTimeAfterEq (coDelGetTime now) s.dropNext with
    | false =>
      unfold dropLoop dropTurn
      simp [hdue]
    | true =>
      cases htry : tryMark c item with
      | some marked =>
        unfold dropLoop dropTurn
        simp [hdropping, hdue, htry]
      | none =>
        rw [dropLoop_cons hmin hover hdropping hdue htry]
        cases habove : isAbove c now next with
        | false => simp [habove]
        | true =>
          have hcongr (k : ℕ) := iterate_afterDrop_congr (c := c) (s := afterDrop c s)
            (t := { afterDrop c s with queue := rest }) rfl rfl rfl (k + 1)
          simp only [Function.iterate_succ_apply] at hcongr
          rw [if_pos rfl, ih (s := { afterDrop c s with queue := rest }) hover hdropping]
          simp only [hcongr, List.forall_mem_cons, List.length_cons, habove, true_and,
            Nat.forall_lt_succ_left, Function.iterate_succ_apply, Function.iterate_zero_apply]

theorem firstDrop_item_eq_none_iff (s : CoDel) (item : CoDelItem) :
    (s.firstDrop c now item).item = none ↔ tryMark c item = none ∧ s.queue = [] := by
  unfold firstDrop
  cases tryMark c item with
  | some marked => simp
  | none => cases s.queue <;> simp

/-- The control law leaves no packet exactly if it drops them all. -/
theorem control_item_eq_none_iff (hmin : c.minBytes = 0) (s : CoDel) (item : CoDelItem) :
    (s.control c now item).item = none ↔ s.intervalOver now = true ∧
      (∀ i ∈ item :: s.queue, isAbove c now i = true) ∧
      (∀ i ∈ item :: s.queue, tryMark c i = none) ∧
      if s.dropping then ∀ k < s.queue.length + 1,
          coDelTimeAfterEq (coDelGetTime now) ((afterDrop c)^[k] s).dropNext = true
        else s.queue = [] := by
  unfold control
  dsimp only
  cases hok : (s.okToDrop c now (some item)).1 with
  | false =>
    apply iff_of_false
    · split_ifs <;> simp_all
    · rintro ⟨hover, habove, -⟩
      rw [okToDrop_of_minBytes hmin hover, habove item List.mem_cons_self] at hok
      cases hok
  | true =>
    obtain ⟨hover, habove, hsame⟩ := intervalOver_of_okToDrop hok
    rw [hsame]
    cases hdropping : s.dropping with
    | true =>
      simp only [if_true]
      rw [dropLoop_item_eq_none_iff hmin hover hdropping]
      simp [hover, habove, and_left_comm]
    | false =>
      simp only [Bool.false_eq_true, if_false, if_true]
      rw [firstDrop_item_eq_none_iff]
      constructor
      · rintro ⟨htry, hqueue⟩
        simp [hover, habove, htry, hqueue]
      · rintro ⟨-, -, htry, hqueue⟩
        exact ⟨htry item List.mem_cons_self, hqueue⟩

/-- A null pointer is dereferenced exactly where every packet of the queue is dropped. -/
theorem doDequeue_eq_none_iff : s.doDequeue c now = none ↔ DropsAll c now s := by
  unfold doDequeue
  cases hqueue : s.queue with
  | nil => exact iff_of_false nofun fun h => h.nonempty hqueue
  | cons item rest =>
    dsimp only
    cases hl4s : c.useL4s && isL4s item with
    | true =>
      refine iff_of_false nofun fun h => ?_
      rw [h.controlled item (by rw [hqueue]; rfl)] at hl4s
      cases hl4s
    | false =>
      rw [if_neg Bool.false_ne_true, Option.map_eq_none_iff]
      by_cases hmin : c.minBytes = 0
      · have hcongr (k : ℕ) := iterate_afterDrop_congr (c := c) (s := s)
          (t := { s with queue := rest }) rfl rfl rfl k
        rw [control_item_eq_none_iff hmin]
        simp only [hcongr]
        constructor
        · rintro ⟨hover, habove, htry, hdue⟩
          have hhead : ∀ i ∈ s.queue.head?, (c.useL4s && isL4s i) = false := by
            rw [hqueue, List.head?_cons]
            rintro i ⟨⟩
            exact hl4s
          refine ⟨by simp [hqueue], hmin, hhead, hqueue ▸ habove, hqueue ▸ htry, hover, ?_⟩
          simpa [hqueue] using hdue
        · intro h
          refine ⟨h.interval, hqueue ▸ h.above, hqueue ▸ h.unmarkable, ?_⟩
          simpa [hqueue] using h.due
      · exact iff_of_false (control_item hmin _ _) fun h => hmin h.minBytes

/-- The call returns, and null exactly where the queue was empty or all its packets have been
dropped. -/
def Returns (c : CoDelConfig) (now : ℕ) (s : CoDel) : Prop :=
  ∃ item dropped t, s.doDequeue c now = some (item, dropped, t) ∧
    (item = none ↔ s.queue = [] ∨ dropped = s.queue)

/-- `DoDequeue` does what it should exactly where it may not drop every packet of the queue. -/
theorem returns_iff (c : CoDelConfig) (now : ℕ) (s : CoDel) :
    Returns c now s ↔ ¬ DropsAll c now s := by
  rw [← doDequeue_eq_none_iff]
  constructor
  · rintro ⟨item, dropped, t, h, -⟩ hnone
    rw [hnone] at h
    cases h
  · intro hsome
    obtain ⟨⟨item, dropped, t⟩, h⟩ := Option.ne_none_iff_exists'.1 hsome
    refine ⟨item, dropped, t, h, ?_⟩
    obtain ⟨taken, hqueue, hitem, hempty⟩ := doDequeue_spec h
    refine ⟨fun hnone => .inl (hempty hnone), fun hall => ?_⟩
    have htaken : taken = none := by
      rcases hall with hnil | hall
      · rw [hnil] at hqueue
        cases taken with
        | none => rfl
        | some taken => simp at hqueue
      · rw [hall, List.append_assoc, List.self_eq_append_right, List.append_eq_nil_iff] at hqueue
        exact Option.toList_eq_nil_iff.1 hqueue.1
    rw [htaken] at hitem
    exact Option.map_eq_none_iff.1 hitem

/-- The last of two packets, after an interval above the target. -/
theorem not_returns_last : ∃ (c : CoDelConfig) (trace : List (CoDel × Event)) (s : CoDel),
    Run (Step c) init trace s ∧ s.doDequeue c 20480 = none ∧ ¬ Returns c 20480 s := by
  let item : CoDelItem := ⟨0, 1, none, 0, none⟩
  let c : CoDelConfig := ⟨false, false, .packets 10, 0, 10240, 1024, 0⟩
  have hrun : (Run.runOf (apply c) init [.enqueue 0 item, .enqueue 0 item, .dequeue 2048]).any
      (fun r => (r.2.doDequeue c 20480).isNone) = true := by
    decide +kernel
  obtain ⟨⟨trace, s⟩, hrun, hs⟩ := (Option.any_eq_true _ _).1 hrun
  have hnone : s.doDequeue c 20480 = none := Option.isNone_iff_eq_none.1 hs
  refine ⟨c, trace, s, Run.of_runOf (fun _ _ _ h => h) hrun, hnone, ?_⟩
  rintro ⟨item, dropped, t, h, -⟩
  rw [hnone] at h
  cases h

end CoDel

end SeanetSim
