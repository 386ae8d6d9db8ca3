import SeanetSim.TrafficControl.FqCoDel

/-!
# Flow lists of FqCoDel

The status of a flow says on which list it is, once and on no other, and a flow without a list has
no packets (`FqCoDel.FlowLists`).  So `DoDequeue` knows from which list the flow at hand came, it
comes to an end, and it returns nothing only if there is nothing to return
(`FqCoDel.flowLists_of_run`).
-/

namespace SeanetSim

namespace FqCoDel

variable {c : FqCoDelConfig} {now : ℕ} {s t : FqCoDel} {i j : ℕ} {f : FqCoDelFlow → FqCoDelFlow}

@[simp] theorem modify_self : (s.modify i f).classes i = f (s.classes i) := Function.update_self ..

@[simp] theorem modify_of_ne (h : j ≠ i) : (s.modify i f).classes j = s.classes j :=
  Function.update_of_ne h ..

@[simp] theorem modify_newFlows : (s.modify i f).newFlows = s.newFlows := rfl

@[simp] theorem modify_oldFlows : (s.modify i f).oldFlows = s.oldFlows := rfl

/-! ### Invariants -/

/-- What the lists have to do with the status of the flows. -/
structure FlowLists (s : FqCoDel) : Prop where
  newFlow : ∀ i, (s.classes i).status = .newFlow → s.newFlows.count i = 1 ∧ i ∉ s.oldFlows
  oldFlow : ∀ i, (s.classes i).status = .oldFlow → s.oldFlows.count i = 1 ∧ i ∉ s.newFlows
  inactive : ∀ i, (s.classes i).status = .inactive →
    i ∉ s.newFlows ∧ i ∉ s.oldFlows ∧ (s.classes i).queueDisc.queue = []

/-- How often a flow is on the list for a status. -/
def entries (status listed : FlowStatus) : ℕ := if status = listed then 1 else 0

/-- The same by the numbers of entries, with the classes that have been created. -/
structure Regular (s : FqCoDel) : Prop where
  new_count : ∀ i, s.newFlows.count i = entries (s.classes i).status .newFlow
  old_count : ∀ i, s.oldFlows.count i = entries (s.classes i).status .oldFlow
  drained : ∀ i, (s.classes i).status = .inactive → (s.classes i).queueDisc.queue = []
  idle : ∀ i, s.nClasses ≤ i → (s.classes i).status = .inactive
  indexed : ∀ h i, s.flowsIndices[h]? = some i ↔ i < s.nClasses ∧ (s.classes i).index = h

theorem Regular.flowLists (hs : s.Regular) : s.FlowLists := by
  refine ⟨fun i hi => ⟨?_, ?_⟩, fun i hi => ⟨?_, ?_⟩, fun i hi => ⟨?_, ?_, hs.drained i hi⟩⟩
  · rw [hs.new_count, hi]
    rfl
  · rw [← List.count_eq_zero, hs.old_count, hi]
    rfl
  · rw [hs.old_count, hi]
    rfl
  · rw [← List.count_eq_zero, hs.new_count, hi]
    rfl
  · rw [← List.count_eq_zero, hs.new_count, hi]
    rfl
  · rw [← List.count_eq_zero, hs.old_count, hi]
    rfl

theorem regular_init : Regular init :=
  ⟨fun _ => rfl, fun _ => rfl, fun _ _ => rfl, fun _ _ => rfl, fun h i => by simp [init]⟩

theorem Regular.status_of_mem_new (hs : s.Regular) (hi : i ∈ s.newFlows) :
    (s.classes i).status = .newFlow := by
  have hpos := List.count_pos_iff.2 hi
  rw [hs.new_count, entries] at hpos
  by_contra hne
  simp [hne] at hpos

theorem Regular.status_of_mem_old (hs : s.Regular) (hi : i ∈ s.oldFlows) :
    (s.classes i).status = .oldFlow := by
  have hpos := List.count_pos_iff.2 hi
  rw [hs.old_count, entries] at hpos
  by_contra hne
  simp [hne] at hpos

theorem Regular.lt_nClasses (hs : s.Regular) (hi : (s.classes i).status ≠ .inactive) :
    i < s.nClasses := by
  by_contra hle
  exact hi (hs.idle i (by omega))

/-- One flow changes, and its entries on the lists with it. -/
theorem Regular.of_update (hs : s.Regular) (hi : i < s.nClasses)
    (hclasses : ∀ j ≠ i, t.classes j = s.classes j) (hn : t.nClasses = s.nClasses)
    (hindices : t.flowsIndices = s.flowsIndices)
    (hindex : (t.classes i).index = (s.classes i).index)
    (hnew : ∀ j ≠ i, t.newFlows.count j = s.newFlows.count j)
    (hold : ∀ j ≠ i, t.oldFlows.count j = s.oldFlows.count j)
    (hnew_self : t.newFlows.count i = entries (t.classes i).status .newFlow)
    (hold_self : t.oldFlows.count i = entries (t.classes i).status .oldFlow)
    (hdrained : (t.classes i).status = .inactive → (t.classes i).queueDisc.queue = []) :
    t.Regular := by
  refine ⟨fun j => ?_, fun j => ?_, fun j => ?_, fun j hj => ?_, fun h j => ?_⟩ <;>
    by_cases hji : j = i
  · rw [hji, hnew_self]
  · rw [hclasses j hji, hnew j hji, hs.new_count]
  · rw [hji, hold_self]
  · rw [hclasses j hji, hold j hji, hs.old_count]
  · rw [hji]
    exact hdrained
  · rw [hclasses j hji]
    exact hs.drained j
  · rw [hn, hji] at hj
    exact absurd hi (not_lt.2 hj)
  · rw [hclasses j hji]
    exact hs.idle j (hn ▸ hj)
  · rw [hindices, hn, hji, hindex, hs.indexed]
  · rw [hindices, hn, hclasses j hji, hs.indexed]

/-- The queue of a flow with a status changes. -/
theorem Regular.of_queue (hs : s.Regular) (hi : (s.classes i).status ≠ .inactive)
    (hclasses : ∀ j ≠ i, t.classes j = s.classes j) (hn : t.nClasses = s.nClasses)
    (hindices : t.flowsIndices = s.flowsIndices)
    (hindex : (t.classes i).index = (s.classes i).index) (hnew : t.newFlows = s.newFlows)
    (hold : t.oldFlows = s.oldFlows) (hstatus : (t.classes i).status = (s.classes i).status) :
    t.Regular := by
  apply hs.of_update (hs.lt_nClasses hi) hclasses hn hindices hindex
  · exact fun _ _ => hnew ▸ rfl
  · exact fun _ _ => hold ▸ rfl
  · rw [hnew, hstatus, hs.new_count]
  · rw [hold, hstatus, hs.old_count]
  · exact fun hinactive => absurd (hstatus.symm.trans hinactive) hi

/-! ### Enqueue -/

theorem getElem?_addClass (s : FqCoDel) (h h' : UInt32) :
    (s.addClass h).flowsIndices[h']? = if h = h' then some s.nClasses else s.flowsIndices[h']? := by
  simp [addClass, Std.TreeMap.getElem?_insert]

theorem addClass_self (s : FqCoDel) (h : UInt32) :
    (s.addClass h).classes s.nClasses = freshFlow h := Function.update_self ..

theorem addClass_of_ne (h : UInt32) (hi : i ≠ s.nClasses) :
    (s.addClass h).classes i = s.classes i := Function.update_of_ne hi ..

theorem Regular.addClass (hs : s.Regular) {h : UInt32} (hfree : s.flowsIndices[h]? = none) :
    (s.addClass h).Regular := by
  have hstatus (i : ℕ) : ((s.addClass h).classes i).status = (s.classes i).status := by
    by_cases hi : i = s.nClasses
    · rw [hi, addClass_self, hs.idle s.nClasses le_rfl]
      rfl
    · rw [addClass_of_ne h hi]
  refine ⟨fun i => ?_, fun i => ?_, fun i hi => ?_, fun i hi => ?_, fun h' i => ?_⟩
  · rw [hstatus]
    exact hs.new_count i
  · rw [hstatus]
    exact hs.old_count i
  · rw [hstatus] at hi
    by_cases hin : i = s.nClasses
    · rw [hin, addClass_self]
      rfl
    · rw [addClass_of_ne h hin]
      exact hs.drained i hi
  · rw [hstatus]
    exact hs.idle i (Nat.le_of_succ_le hi)
  · rw [getElem?_addClass]
    have hlt : i < (s.addClass h).nClasses ↔ i < s.nClasses ∨ i = s.nClasses := Nat.lt_succ_iff_lt_or_eq
    rw [hlt]
    by_cases hin : i = s.nClasses
    · subst hin
      rw [addClass_self]
      by_cases hh : h = h'
      · simp [hh, freshFlow]
      · simpa [hh, freshFlow] using fun hsome => absurd ((hs.indexed h' _).1 hsome).1 (lt_irrefl _)
    · rw [addClass_of_ne h hin]
      by_cases hh : h = h'
      · subst hh
        have hnone := hs.indexed h i
        rw [hfree] at hnone
        simpa [hin, Ne.symm hin] using hnone
      · simpa [hh, hin] using hs.indexed h' i

theorem Regular.flowAt (hs : s.Regular) (h : UInt32) :
    (s.flowAt h).2.Regular ∧ (s.flowAt h).1 < (s.flowAt h).2.nClasses := by
  unfold FqCoDel.flowAt
  cases hfound : s.flowsIndices[h]? with
  | some i => exact ⟨hs, ((hs.indexed h i).1 hfound).1⟩
  | none => exact ⟨hs.addClass hfound, Nat.lt_succ_self _⟩

theorem Regular.activate (hs : s.Regular) (hi : i < s.nClasses) : (s.activate c i).Regular := by
  unfold FqCoDel.activate
  split_ifs with hinactive
  · have hnew := hs.new_count i
    have hold := hs.old_count i
    rw [hinactive] at hnew hold
    refine hs.of_update hi (fun j hj => by simp [hj]) rfl rfl (by simp) (fun j hj => ?_)
      (fun _ _ => rfl) ?_ ?_ (by simp)
    · simp [List.count_append, Ne.symm hj]
    · simp [List.count_append, hnew, entries]
    · simpa [entries] using hold
  · exact hs

theorem activate_status (s : FqCoDel) (i : ℕ) : ((s.activate c i).classes i).status ≠ .inactive := by
  unfold FqCoDel.activate
  split_ifs with hinactive
  · simp
  · exact hinactive

theorem Regular.enqueueAt (hs : s.Regular) (now : ℕ) (item : CoDelItem)
    (hi : (s.classes i).status ≠ .inactive) : (s.enqueueAt c now i item).Regular :=
  hs.of_queue hi (fun j hj => by simp [FqCoDel.enqueueAt, hj]) rfl rfl
    (by simp [FqCoDel.enqueueAt]) rfl rfl (by simp [FqCoDel.enqueueAt])

/-- An overload drop takes packets from the front of a queue that has some. -/
theorem fqCoDelDrop_some (h : s.fqCoDelDrop c = some t) :
    ∃ i n, (s.classes i).queueDisc.queue ≠ [] ∧
      t = { s.modify i fun flow => { flow with queueDisc :=
        { flow.queueDisc with queue := (s.classes i).queueDisc.queue.drop n } } with
        nPackets := s.nPackets - UInt32.ofNat n } := by
  unfold FqCoDel.fqCoDelDrop at h
  generalize s.fatFlow = fat at h
  obtain ⟨maxBacklog, i⟩ := fat
  obtain ⟨dropped, hdropped, rfl⟩ := Option.map_eq_some_iff.1 h
  refine ⟨i, dropped.length, fun hnil => ?_, rfl⟩
  rw [hnil] at hdropped
  cases hdropped

theorem Regular.fqCoDelDrop (hs : s.Regular) (h : s.fqCoDelDrop c = some t) : t.Regular := by
  obtain ⟨i, n, hne, rfl⟩ := fqCoDelDrop_some h
  have hactive : (s.classes i).status ≠ .inactive := fun hi => hne (hs.drained i hi)
  exact hs.of_queue hactive (fun j hj => by simp [hj]) rfl rfl (by simp) rfl rfl (by simp)

theorem Regular.tags (hs : s.Regular) (tags : Std.TreeMap UInt32 UInt32) :
    { s with tags := tags }.Regular :=
  ⟨hs.new_count, hs.old_count, hs.drained, hs.idle, hs.indexed⟩

theorem Regular.classify (hs : s.Regular) (flowHash : UInt32) : (s.classify c flowHash).2.Regular := by
  unfold FqCoDel.classify
  split_ifs
  · exact hs.tags _
  · exact hs

theorem Regular.doEnqueue (hs : s.Regular) {item : CoDelItem} {retval : Bool}
    (h : s.doEnqueue c now item = some (retval, t)) : t.Regular := by
  unfold FqCoDel.doEnqueue at h
  cases hhash : item.flowHash with
  | none =>
    simp only [hhash, Option.some.injEq, Prod.mk.injEq] at h
    exact h.2 ▸ hs
  | some flowHash =>
    simp only [hhash] at h
    split_ifs at h with hzero hover
    all_goals
      have ⟨hflow, hlt⟩ := (hs.classify (c := c) flowHash).flowAt (s.classify c flowHash).1
      have hput := (hflow.activate (c := c) hlt).enqueueAt (c := c) now item
        (activate_status _ _)
    · obtain ⟨t', ht', heq⟩ := Option.map_eq_some_iff.1 h
      cases heq
      exact hput.fqCoDelDrop ht'
    · cases h
      exact hput

/-! ### Dequeue -/

/-- A flow is asked for a packet: it is the first new one, or the first old one if there is no new
one. -/
def Selected (s : FqCoDel) (i : ℕ) : Prop :=
  s.newFlows.head? = some i ∨ s.newFlows = [] ∧ s.oldFlows.head? = some i

/-- The flow after its queue has been asked. -/
def served (s : FqCoDel) (i : ℕ) (dropped : List CoDelItem) (queueDisc : CoDel) : FqCoDel :=
  { s.modify i fun flow => { flow with queueDisc := queueDisc } with
    nPackets := s.nPackets - UInt32.ofNat dropped.length }

/-- What a turn can do. -/
inductive Turns (c : FqCoDelConfig) (now : ℕ) (s : FqCoDel) : Turn → Prop
  | empty (hnew : s.newFlows = []) (hold : s.oldFlows = []) : Turns c now s (.done none s)
  | refillNew {i : ℕ} {rest : List ℕ} (hnew : s.newFlows = i :: rest)
      (hdeficit : (s.classes i).deficit ≤ 0) :
      Turns c now s (.again { (s.increaseDeficit i c.quantum.toInt32).setStatus i .oldFlow with
        oldFlows := s.oldFlows ++ [i], newFlows := rest })
  | refillOld {i : ℕ} {rest : List ℕ} (hnew : s.newFlows = []) (hold : s.oldFlows = i :: rest)
      (hdeficit : (s.classes i).deficit ≤ 0) :
      Turns c now s (.again { s.increaseDeficit i c.quantum.toInt32 with oldFlows := rest ++ [i] })
  | nullDereference {i : ℕ} (hnull : (s.classes i).queueDisc.doDequeue c.coDel now = none) :
      Turns c now s .nullDereference
  | packet {i : ℕ} {item : CoDelItem} {dropped : List CoDelItem} {queueDisc : CoDel} {n : UInt32}
      (hsel : Selected s i)
      (hitem : (s.classes i).queueDisc.doDequeue c.coDel now = some (some item, dropped, queueDisc)) :
      Turns c now s (.done (some item)
        { (s.served i dropped queueDisc).increaseDeficit i (-item.size).toInt32 with nPackets := n })
  | noneNew {i : ℕ} {rest : List ℕ} {dropped : List CoDelItem} {queueDisc : CoDel}
      (hnew : s.newFlows = i :: rest)
      (hnone : (s.classes i).queueDisc.doDequeue c.coDel now = some (none, dropped, queueDisc)) :
      Turns c now s (.again { (s.served i dropped queueDisc).setStatus i .oldFlow with
        oldFlows := s.oldFlows ++ [i], newFlows := rest })
  | noneOld {i : ℕ} {rest : List ℕ} {dropped : List CoDelItem} {queueDisc : CoDel}
      (hnew : s.newFlows = []) (hold : s.oldFlows = i :: rest)
      (hnone : (s.classes i).queueDisc.doDequeue c.coDel now = some (none, dropped, queueDisc)) :
      Turns c now s (.again { (s.served i dropped queueDisc).setStatus i .inactive with
        oldFlows := rest })

theorem turns_serve (c : FqCoDelConfig) (now : ℕ) (hsel : Selected s i) :
    Turns c now s (s.serve c now i) := by
  unfold serve
  cases hcase : (s.classes i).queueDisc.doDequeue c.coDel now with
  | none => exact .nullDereference hcase
  | some out =>
    obtain ⟨item, dropped, queueDisc⟩ := out
    cases item with
    | some item => exact .packet hsel hcase
    | none =>
      rcases hsel with hnew | ⟨hnew, hold⟩
      · obtain ⟨rest, hnew⟩ := List.head?_eq_some_iff.1 hnew
        have hturn : Turns c now s _ := .noneNew hnew hcase
        simpa [served, setStatus, modify, hnew] using hturn
      · obtain ⟨rest, hold⟩ := List.head?_eq_some_iff.1 hold
        have hturn : Turns c now s _ := .noneOld hnew hold hcase
        simpa [served, setStatus, modify, hnew, hold] using hturn

theorem turns_turn (c : FqCoDelConfig) (now : ℕ) (s : FqCoDel) : Turns c now s (s.turn c now) := by
  unfold turn
  cases hnew : s.newFlows with
  | cons i rest =>
    dsimp only
    split_ifs with hdeficit
    · exact .refillNew hnew hdeficit
    · exact turns_serve c now (.inl (by simp [hnew]))
  | nil =>
    cases hold : s.oldFlows with
    | cons i rest =>
      dsimp only
      split_ifs with hdeficit
      · have hturn : Turns c now s _ := .refillOld hnew hold hdeficit
        simpa [increaseDeficit, modify, hnew] using hturn
      · exact turns_serve c now (.inr ⟨hnew, by simp [hold]⟩)
    | nil => exact .empty hnew hold

/-- The queue disc that a turn leaves. -/
def Turn.state : Turn → Option FqCoDel
  | .again s => some s
  | .done _ s => some s
  | .nullDereference => none

theorem Regular.selected (hs : s.Regular) (hsel : Selected s i) :
    (s.classes i).status ≠ .inactive := by
  rcases hsel with hnew | ⟨-, hold⟩
  · rw [hs.status_of_mem_new (List.mem_of_head? hnew)]
    nofun
  · rw [hs.status_of_mem_old (List.mem_of_head? hold)]
    nofun

/-- A first new flow becomes the last old one. -/
theorem Regular.moveToOld (hs : s.Regular) {rest : List ℕ} (hnew : s.newFlows = i :: rest)
    (hclasses : ∀ j ≠ i, t.classes j = s.classes j) (hn : t.nClasses = s.nClasses)
    (hindices : t.flowsIndices = s.flowsIndices)
    (hindex : (t.classes i).index = (s.classes i).index)
    (hstatus : (t.classes i).status = .oldFlow) (hold' : t.oldFlows = s.oldFlows ++ [i])
    (hnew' : t.newFlows = rest) : t.Regular := by
  have hi := hs.status_of_mem_new (hnew ▸ List.mem_cons_self : i ∈ s.newFlows)
  have hcount := hs.new_count i
  have hcount' := hs.old_count i
  rw [hi] at hcount hcount'
  refine hs.of_update (hs.lt_nClasses (by rw [hi]; nofun)) hclasses hn hindices hindex
    (fun j hj => ?_) (fun j hj => ?_) ?_ ?_ fun hinactive => ?_
  · rw [hnew', hnew, List.count_cons_of_ne (Ne.symm hj)]
  · simp [hold', List.count_append, Ne.symm hj]
  · rw [hnew, List.count_cons_self] at hcount
    rw [hnew', hstatus]
    exact Nat.succ.inj hcount
  · rw [hold', hstatus, List.count_append, hcount', List.count_singleton_self]
    rfl
  · rw [hstatus] at hinactive
    cases hinactive

theorem Regular.turns (hs : s.Regular) {out : Turn} (h : Turns c now s out) :
    ∀ t ∈ out.state, t.Regular := by
  rintro t ht
  cases h with
  | empty hnew hold =>
    cases ht
    exact hs
  | refillNew hnew hdeficit =>
    cases ht
    exact hs.moveToOld hnew (fun j hj => by simp [setStatus, increaseDeficit, hj]) rfl rfl
      (by simp [setStatus, increaseDeficit]) (by simp [setStatus]) rfl rfl
  | refillOld hnew hold hdeficit =>
    cases ht
    rename_i i rest
    have hi := hs.status_of_mem_old (hold ▸ List.mem_cons_self : i ∈ s.oldFlows)
    have hcount (j : ℕ) : (rest ++ [i]).count j = s.oldFlows.count j := by
      rw [hold]
      exact (List.perm_append_singleton i rest).count_eq j
    refine hs.of_update (hs.lt_nClasses (by rw [hi]; nofun))
      (fun j hj => by simp [increaseDeficit, hj]) rfl rfl (by simp [increaseDeficit])
      (fun _ _ => rfl) (fun j _ => hcount j) ?_ ?_ ?_
    · simpa [increaseDeficit] using hs.new_count i
    · simpa [increaseDeficit] using (hcount i).trans (hs.old_count i)
    · simp [increaseDeficit, hi]
  | nullDereference hnull => cases ht
  | packet hsel hitem =>
    cases ht
    exact hs.of_queue (hs.selected hsel) (fun j hj => by simp [increaseDeficit, served, hj]) rfl rfl
      (by simp [increaseDeficit, served]) rfl rfl (by simp [increaseDeficit, served])
  | noneNew hnew hnone =>
    cases ht
    exact hs.moveToOld hnew (fun j hj => by simp [setStatus, served, hj]) rfl rfl
      (by simp [setStatus, served]) (by simp [setStatus]) rfl rfl
  | noneOld hnew hold hnone =>
    cases ht
    rename_i i rest dropped queueDisc
    have hi := hs.status_of_mem_old (hold ▸ List.mem_cons_self : i ∈ s.oldFlows)
    have hcount := hs.old_count i
    rw [hi, hold, List.count_cons_self] at hcount
    obtain ⟨taken, hsplit, hitem, hempty⟩ := CoDel.doDequeue_spec hnone
    rw [hempty rfl] at hsplit
    refine hs.of_update (hs.lt_nClasses (by rw [hi]; nofun))
      (fun j hj => by simp [setStatus, served, hj]) rfl rfl (by simp [setStatus, served])
      (fun _ _ => rfl) (fun j hj => ?_) ?_ ?_ fun _ => ?_
    · rw [hold, List.count_cons_of_ne (Ne.symm hj)]
    · simpa [setStatus, served, entries, hi] using hs.new_count i
    · simpa [setStatus, entries] using Nat.succ.inj hcount
    · have hdrained : dropped = [] ∧ taken = none ∧ queueDisc.queue = [] := by simpa using hsplit
      simpa [setStatus, served] using hdrained.2.2

/-! ### The turns come to an end -/

/-- The turns that a flow can be passed over, at most. -/
def patience (s : FqCoDel) (i : ℕ) : ℕ := (1 - (s.classes i).deficit.toInt).toNat

/-- What decreases with each turn: a new flow leaves its list, an old one leaves its list, or an old
one has its deficit increased. -/
def measure (s : FqCoDel) : ℕ ×ₗ ℕ ×ₗ ℕ :=
  toLex (s.newFlows.length, toLex (s.oldFlows.length, (s.oldFlows.map s.patience).sum))

theorem patience_increase {d quantum : Int32} (hd : d ≤ 0) (hq : 0 < quantum) :
    (1 - (d + quantum).toInt).toNat < (1 - d.toInt).toNat := by
  have hd' := Int32.le_iff_toInt_le.1 hd
  have hq' := Int32.lt_iff_toInt_lt.1 hq
  have hle := d.le_toInt
  have hlt := quantum.toInt_lt
  rw [Int32.toInt_zero] at hd' hq'
  rw [Int32.toInt_add, Int.bmod_eq_of_le (by omega) (by omega)]
  omega

theorem toInt32_pos {quantum : UInt32} (hpos : 0 < quantum) (hlt : quantum < 0x80000000) :
    0 < quantum.toInt32 := by
  have hpos' : 0 < quantum.toNat := UInt32.lt_iff_toNat_lt.1 hpos
  have hlt' : quantum.toNat < 2147483648 := UInt32.lt_iff_toNat_lt.1 hlt
  have htoInt : quantum.toInt32.toInt = quantum.toNat := by
    change quantum.toBitVec.toInt = _
    rw [BitVec.toInt_eq_toNat_of_lt (by rw [UInt32.toNat_toBitVec]; omega), UInt32.toNat_toBitVec]
  rw [Int32.lt_iff_toInt_lt, htoInt, Int32.toInt_zero]
  omega

theorem Regular.measure_lt (hs : s.Regular) (hpos : 0 < c.quantum) (hlt : c.quantum < 0x80000000)
    (h : Turns c now s (.again t)) : t.measure < s.measure := by
  cases h with
  | refillNew hnew hdeficit =>
    refine Prod.Lex.toLex_lt_toLex.2 (.inl ?_)
    simp [hnew]
  | refillOld hnew hold hdeficit =>
    rename_i i rest
    have hnotin : i ∉ rest := by
      have hcount := hs.old_count i
      rw [hs.status_of_mem_old (hold ▸ List.mem_cons_self), hold, List.count_cons_self] at hcount
      exact List.count_eq_zero.1 (Nat.succ.inj hcount)
    have hothers : rest.map (s.increaseDeficit i c.quantum.toInt32).patience =
        rest.map s.patience := by
      refine List.map_congr_left fun j hj => ?_
      have hji : j ≠ i := fun heq => hnotin (heq ▸ hj)
      simp [patience, increaseDeficit, hji]
    have hself : (s.increaseDeficit i c.quantum.toInt32).patience i < s.patience i := by
      have hdecrease := patience_increase hdeficit (toInt32_pos hpos hlt)
      simpa [patience, increaseDeficit] using hdecrease
    refine Prod.Lex.toLex_lt_toLex.2 (.inr ⟨rfl, Prod.Lex.toLex_lt_toLex.2 (.inr ⟨?_, ?_⟩)⟩)
    · simp [hold]
    · change ((rest ++ [i]).map (s.increaseDeficit i c.quantum.toInt32).patience).sum < _
      rw [List.map_append, List.sum_append, hothers, hold, List.map_cons, List.sum_cons]
      simpa [add_comm] using hself
  | noneNew hnew hnone =>
    refine Prod.Lex.toLex_lt_toLex.2 (.inl ?_)
    simp [hnew]
  | noneOld hnew hold hnone =>
    refine Prod.Lex.toLex_lt_toLex.2 (.inr ⟨rfl, Prod.Lex.toLex_lt_toLex.2 (.inl ?_)⟩)
    simp [hold]

theorem doDequeue_add {n : ℕ} {r : Option (Option CoDelItem × FqCoDel)}
    (h : doDequeue c now n s = some r) (k : ℕ) : doDequeue c now (n + k) s = some r := by
  induction n generalizing s with
  | zero => cases h
  | succ n ih =>
    rw [Nat.succ_add]
    simp only [doDequeue] at h ⊢
    cases hturn : s.turn c now with
    | again s' =>
      simp only [hturn] at h
      exact ih h
    | done item s' =>
      simp only [hturn] at h
      exact h
    | nullDereference =>
      simp only [hturn] at h
      exact h

/-- Enough turns give a result. -/
theorem Regular.exists_doDequeue (hs : s.Regular) (hpos : 0 < c.quantum)
    (hlt : c.quantum < 0x80000000) (now : ℕ) : ∃ n r, doDequeue c now n s = some r := by
  induction hm : s.measure using WellFoundedLT.induction generalizing s with
  | ind m ih =>
    subst hm
    have hturns := turns_turn c now s
    cases hturn : s.turn c now with
    | again s' =>
      rw [hturn] at hturns
      obtain ⟨n, r, hr⟩ := ih _ (hs.measure_lt hpos hlt hturns) (hs.turns hturns s' rfl) rfl
      refine ⟨n + 1, r, ?_⟩
      simpa only [doDequeue, hturn] using hr
    | done item s' => exact ⟨1, some (item, s'), by simp only [doDequeue, hturn]⟩
    | nullDereference => exact ⟨1, none, by simp only [doDequeue, hturn]⟩

/-- What each turn keeps holds in the end. -/
theorem doDequeue_induct {P : FqCoDel → Prop} {n : ℕ} {item : Option CoDelItem}
    (hP : ∀ s out, P s → Turns c now s out → ∀ t ∈ out.state, P t) (hs : P s)
    (h : doDequeue c now n s = some (some (item, t))) : P t := by
  induction n generalizing s with
  | zero => cases h
  | succ n ih =>
    simp only [doDequeue] at h
    have hturns := turns_turn c now s
    cases hturn : s.turn c now with
    | again s' =>
      rw [hturn] at hturns
      simp only [hturn] at h
      exact ih (hP s _ hs hturns s' rfl) h
    | done item' s' =>
      rw [hturn] at hturns
      simp only [hturn, Option.some.injEq, Prod.mk.injEq] at h
      exact h.2 ▸ hP s _ hs hturns s' rfl
    | nullDereference => simp [hturn] at h

theorem Regular.dequeues (hs : s.Regular) {item : Option CoDelItem} (h : Dequeues c now s item t) :
    t.Regular :=
  have ⟨_, h⟩ := h
  doDequeue_induct (fun _ _ hs hturns => hs.turns hturns) hs h

/-! ### What is returned -/

/-- A flow that has no packet for the turn has none at all. -/
theorem queue_of_none {dropped : List CoDelItem} {queueDisc : CoDel}
    (hnone : (s.classes i).queueDisc.doDequeue c.coDel now = some (none, dropped, queueDisc)) :
    queueDisc.queue = (s.classes i).queueDisc.queue := by
  obtain ⟨taken, hsplit, -, hempty⟩ := CoDel.doDequeue_spec hnone
  rw [hempty rfl] at hsplit ⊢
  exact (List.append_eq_nil_iff.1 hsplit.symm).2

/-- The turns before the last one leave the queues alone. -/
theorem Turns.queue_again (h : Turns c now s (.again t)) (j : ℕ) :
    (t.classes j).queueDisc.queue = (s.classes j).queueDisc.queue := by
  cases h with
  | refillNew hnew hdeficit =>
    rename_i i rest
    by_cases hji : j = i
    · simp [hji, setStatus, increaseDeficit]
    · simp [setStatus, increaseDeficit, hji]
  | refillOld hnew hold hdeficit =>
    rename_i i rest
    by_cases hji : j = i
    · simp [hji, increaseDeficit]
    · simp [increaseDeficit, hji]
  | noneNew hnew hnone =>
    rename_i i rest dropped queueDisc
    by_cases hji : j = i
    · simp [hji, setStatus, served, queue_of_none hnone]
    · simp [setStatus, served, hji]
  | noneOld hnew hold hnone =>
    rename_i i rest dropped queueDisc
    by_cases hji : j = i
    · simp [hji, setStatus, served, queue_of_none hnone]
    · simp [setStatus, served, hji]

theorem Regular.queue_of_empty (hs : s.Regular) (hnew : s.newFlows = []) (hold : s.oldFlows = [])
    (i : ℕ) : (s.classes i).queueDisc.queue = [] := by
  apply hs.drained i
  have hcount := hs.new_count i
  have hcount' := hs.old_count i
  rw [hnew, List.count_nil] at hcount
  rw [hold, List.count_nil] at hcount'
  cases hstatus : (s.classes i).status with
  | inactive => rfl
  | newFlow => simp [hstatus, entries] at hcount
  | oldFlow => simp [hstatus, entries] at hcount'

theorem Regular.queue_of_dequeues_none (hs : s.Regular) (h : Dequeues c now s none t) (i : ℕ) :
    (s.classes i).queueDisc.queue = [] := by
  obtain ⟨n, h⟩ := h
  induction n generalizing s with
  | zero => cases h
  | succ n ih =>
    simp only [doDequeue] at h
    have hturns := turns_turn c now s
    cases hturn : s.turn c now with
    | again s' =>
      rw [hturn] at hturns
      simp only [hturn] at h
      exact (hturns.queue_again i).symm.trans (ih (hs.turns hturns s' rfl) h)
    | done item s' =>
      rw [hturn] at hturns
      simp only [hturn, Option.some.injEq, Prod.mk.injEq] at h
      obtain ⟨rfl, rfl⟩ := h
      cases hturns with
      | empty hnew hold => exact hs.queue_of_empty hnew hold i
    | nullDereference => simp [hturn] at h

theorem doDequeue_ne_null (hmin : c.minBytes ≠ 0) (n : ℕ) (s : FqCoDel) :
    doDequeue c now n s ≠ some none := by
  induction n generalizing s with
  | zero => nofun
  | succ n ih =>
    intro h
    simp only [doDequeue] at h
    have hturns := turns_turn c now s
    cases hturn : s.turn c now with
    | again s' =>
      simp only [hturn] at h
      exact ih s' h
    | done item s' => simp [hturn] at h
    | nullDereference =>
      rw [hturn] at hturns
      cases hturns with
      | nullDereference hnull =>
        rename_i i
        have hsome := CoDel.isSome_doDequeue (c := c.coDel) hmin now (s.classes i).queueDisc
        rw [hnull] at hsome
        cases hsome

/-! ### Runs -/

theorem Regular.slot (hs : s.Regular) (requeued : Option CoDelItem) (peeked : Bool)
    (nPackets : UInt32) :
    { s with requeued := requeued, peeked := peeked, nPackets := nPackets }.Regular :=
  ⟨hs.new_count, hs.old_count, hs.drained, hs.idle, hs.indexed⟩

theorem Regular.step (hs : s.Regular) {e : Event} {item : Option CoDelItem}
    (h : Step c s e item t) : t.Regular := by
  cases h with
  | enqueue h => exact hs.doEnqueue h
  | dequeueRequeued h => exact hs.slot none false _
  | dequeue h hitem => exact hs.dequeues hitem
  | peekRequeued h => exact hs
  | peek h hitem => exact ((hs.slot s.requeued true s.nPackets).dequeues hitem).slot _ _ _

/-- What `DoDequeue` does in a state: it comes to an end, which is no null dereference if `MinBytes`
is positive, and it returns nothing only if there is no packet in any queue. -/
structure ServesAll (c : FqCoDelConfig) (s : FqCoDel) : Prop where
  terminates : ∀ now, ∃ n r, ∀ turns ≥ n, doDequeue c now turns s = some r
  no_null : c.minBytes ≠ 0 → ∀ now turns, doDequeue c now turns s ≠ some none
  works : ∀ now t, Dequeues c now s none t → ∀ i, (s.classes i).queueDisc.queue = []

theorem Regular.servesAll (hs : s.Regular) (hpos : 0 < c.quantum) (hlt : c.quantum < 0x80000000) :
    ServesAll c s := by
  refine ⟨fun now => ?_, fun hmin _ n => doDequeue_ne_null hmin n s, fun _ _ h =>
    hs.queue_of_dequeues_none h⟩
  obtain ⟨n, r, hr⟩ := hs.exists_doDequeue hpos hlt now
  refine ⟨n, r, fun turns hturns => ?_⟩
  obtain ⟨k, rfl⟩ := Nat.exists_eq_add_of_le hturns
  exact doDequeue_add hr k

/-- In every state of a run the lists are right, and so is what `DoDequeue` does then, for a dequeue
or for a peek. -/
theorem flowLists_of_run (hpos : 0 < c.quantum) (hlt : c.quantum < 0x80000000)
    {trace : List (FqCoDel × Event)}
    (h : Run (fun s e t => ∃ item, Step c s e item t) init trace s) :
    FlowLists s ∧ ∀ peeked, ServesAll c { s with peeked := peeked } := by
  have hs : s.Regular :=
    h.invariant regular_init fun _ _ _ hs hst =>
      have ⟨_, hst⟩ := hst
      hs.step hst
  exact ⟨hs.flowLists, fun peeked => (hs.slot s.requeued peeked s.nPackets).servesAll hpos hlt⟩

/-- Eight queues in sets of four. -/
def sampleConfig (maxSize : UInt32) : FqCoDelConfig where
  useEcn := true
  useL4s := false
  interval := 100000000
  target := 5000000
  ceThreshold := 9223372036854775807
  minBytes := 1500
  maxSize := maxSize
  quantum := 300
  flows := 8
  setWays := 4
  dropBatchSize := 64
  enableSetAssociativeHash := true

def sampleItem (uid : ℕ) (flowHash : UInt32) : CoDelItem := ⟨uid, 200, some flowHash, 0, some 0⟩

/-- The fourth packet is too many, so the first flow loses two.  When it runs empty it becomes an old
one, and the second flow is served. -/
theorem flowLists_sample : ∃ s : FqCoDel, s.newFlows = [1] ∧ s.oldFlows = [0] ∧
    FlowLists s ∧ ∀ peeked, ServesAll (sampleConfig 3) { s with peeked := peeked } := by
  have hrun : (Run.runOf (fun s e => (s.next (sampleConfig 3) 10 e).map (·.2)) init
      [.enqueue 0 (sampleItem 1 16), .enqueue 0 (sampleItem 2 16), .enqueue 0 (sampleItem 3 16),
        .enqueue 0 (sampleItem 4 21), .peek 1000, .dequeue 2000, .dequeue 3000]).any
      (fun r => decide (r.2.newFlows = [1] ∧ r.2.oldFlows = [0])) = true := by
    decide +kernel
  obtain ⟨⟨trace, s⟩, hrun, hr⟩ := (Option.any_eq_true _ _).1 hrun
  obtain ⟨hnew, hold⟩ := of_decide_eq_true hr
  refine ⟨s, hnew, hold, flowLists_of_run (by decide) (by decide) (Run.of_runOf ?_ hrun)⟩
  intro s e t h
  obtain ⟨⟨item, t'⟩, hnext, rfl⟩ := Option.map_eq_some_iff.1 h
  exact ⟨item, step_of_next hnext⟩

end FqCoDel

end SeanetSim
