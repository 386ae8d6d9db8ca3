import SeanetSim.TrafficControl.FlowQueues

/-!
# The order of the packets of a flow

While each flow keeps its queue, its packets leave in the order in which they came, without those
that are dropped.  It does so in a run without a set overflow exactly if no packet comes for a flow
that has some in its queue, while an earlier way of the set is inactive (`FqCoDel.inOrder_iff`).
-/

namespace SeanetSim

namespace FqCoDel

variable {c : FqCoDelConfig} {x : UInt32} {l l' : List CoDelItem}

/-- The packet that a step brings, with its time stamp. -/
def Event.arriving : Event → Option CoDelItem
  | .enqueue now item => some { item with timeStamp := now }
  | .dequeue _ => none
  | .peek _ => none

/-- A queue disc with the packets that have come and those that `DoDequeue` has returned. -/
structure FlowLog where
  queueDisc : FqCoDel
  arrived : List CoDelItem
  departed : List CoDelItem

/-- The packets of a flow, whatever their marks. -/
def flowPackets (x : UInt32) (l : List CoDelItem) : List CoDelItem :=
  (l.map CoDelItem.unmarked).filter fun item => item.flowHash = some x

@[simp] theorem flowPackets_append (x : UInt32) (l l' : List CoDelItem) :
    flowPackets x (l ++ l') = flowPackets x l ++ flowPackets x l' := by
  simp [flowPackets]

theorem flowPackets_sublist (x : UInt32) (h : l.Sublist l') :
    (flowPackets x l).Sublist (flowPackets x l') :=
  (h.map _).filter _

theorem flowPackets_eq_nil (h : ¬ ∃ item ∈ l, item.flowHash = some x) : flowPackets x l = [] := by
  rw [flowPackets, List.filter_eq_nil_iff]
  intro item hitem hx
  obtain ⟨item', hmem, rfl⟩ := List.mem_map.1 hitem
  exact h ⟨item', hmem, of_decide_eq_true hx⟩

theorem flowPackets_toList {item taken : Option CoDelItem}
    (h : item.map CoDelItem.unmarked = taken.map CoDelItem.unmarked) (x : UInt32) :
    flowPackets x item.toList = flowPackets x taken.toList := by
  have hmap := congrArg Option.toList h
  simp only [Option.toList_map] at hmap
  rw [flowPackets, flowPackets, hmap]

namespace FlowLog

def init : FlowLog := ⟨.init, [], []⟩

/-- A step.  A packet that is peeked at leaves before any other, so it has departed. -/
def Step (c : FqCoDelConfig) (z : FlowLog) (e : Event) (z' : FlowLog) : Prop :=
  ∃ item, FqCoDel.Step c z.queueDisc e item z'.queueDisc ∧
    z'.arrived = z.arrived ++ e.arriving.toList ∧ z'.departed = z.departed ++ item.toList

/-- The packets of each flow have left in the order in which they came. -/
def InOrder (z : FlowLog) : Prop :=
  ∀ x, (flowPackets x z.departed).Sublist (flowPackets x z.arrived)

/-- So they have if those in a queue are the next to leave. -/
def Queued (z : FlowLog) : Prop :=
  ∀ x i, (flowPackets x (z.departed ++ (z.queueDisc.classes i).queueDisc.queue)).Sublist
    (flowPackets x z.arrived)

variable {z z' : FlowLog}

theorem Queued.inOrder (h : z.Queued) : z.InOrder :=
  fun x => (flowPackets_sublist x (List.sublist_append_left _ _)).trans (h x 0)

theorem queued_init : init.Queued := fun _ _ => .refl _

/-- A packet comes into a queue. -/
theorem Queued.arrive (h : z.Queued) {item : CoDelItem} (harrived : z'.arrived = z.arrived ++ [item])
    (hdeparted : z'.departed = z.departed)
    (hqueue : ∀ j, ∃ l, l.Sublist [item] ∧ (z'.queueDisc.classes j).queueDisc.queue.Sublist
      ((z.queueDisc.classes j).queueDisc.queue ++ l)) : z'.Queued := by
  intro x j
  obtain ⟨l, hl, hsub⟩ := hqueue j
  rw [harrived, hdeparted, flowPackets_append, flowPackets_append]
  have hput := flowPackets_sublist x hsub
  rw [flowPackets_append] at hput
  calc
    (flowPackets x z.departed ++ flowPackets x (z'.queueDisc.classes j).queueDisc.queue).Sublist
        (flowPackets x z.departed ++ (flowPackets x (z.queueDisc.classes j).queueDisc.queue ++
          flowPackets x l)) := hput.append_left _
    List.Sublist _ (flowPackets x (z.departed ++ (z.queueDisc.classes j).queueDisc.queue) ++
          flowPackets x [item]) := by
      rw [flowPackets_append, List.append_assoc]
      exact ((flowPackets_sublist x hl).append_left _).append_left _
    List.Sublist _ (flowPackets x z.arrived ++ flowPackets x [item]) := (h x j).append_right _

/-- A packet leaves a queue, while no other queue has any of its flow. -/
theorem Queued.depart (h : z.Queued) (hs : z.queueDisc.Regular) (htag : Tagged c z.queueDisc)
    {item : Option CoDelItem} (hleaves : Leaves z.queueDisc item z'.queueDisc)
    (harrived : z'.arrived = z.arrived) (hdeparted : z'.departed = z.departed ++ item.toList) :
    z'.Queued := by
  obtain ⟨i, dropped, taken, hitem, hsplit, hothers⟩ := hleaves.queue
  intro x j
  rw [harrived, hdeparted]
  simp only [flowPackets_append, flowPackets_toList hitem]
  have hleft := h x i
  rw [hsplit] at hleft
  simp only [flowPackets_append, List.append_assoc] at hleft ⊢
  by_cases hj : j = i
  · subst hj
    exact ((List.sublist_append_right _ _).append_left _).trans hleft
  · by_cases hx : ∃ item ∈ taken.toList, item.flowHash = some x
    · -- the packet is of the flow, so the queue `j` has none of it
      obtain ⟨item, hmem, hhash⟩ := hx
      have hholds : Holds z.queueDisc i x := ⟨item, by simp [hsplit, hmem], hhash⟩
      have hnone : flowPackets x (z'.queueDisc.classes j).queueDisc.queue = [] := by
        rw [hothers j hj]
        exact flowPackets_eq_nil fun hother => hj (htag.unique hs hother hholds)
      rw [hnone, List.append_nil]
      refine .trans (.append_left ?_ _) hleft
      exact (List.sublist_append_left _ _).trans (List.sublist_append_right _ _)
    · rw [flowPackets_eq_nil hx, List.nil_append, hothers j hj, ← flowPackets_append]
      exact h x j

/-- Nothing comes or leaves. -/
theorem Queued.stay (h : z.Queued) (harrived : z'.arrived = z.arrived)
    (hdeparted : z'.departed = z.departed)
    (hclasses : z'.queueDisc.classes = z.queueDisc.classes) : z'.Queued := by
  intro x j
  rw [harrived, hdeparted, hclasses]
  exact h x j

theorem Queued.step (h : z.Queued) (hs : z.queueDisc.Regular) (htag : Tagged c z.queueDisc)
    (henable : c.enableSetAssociativeHash = true) {e : Event} (hstep : Step c z e z') :
    z'.Queued := by
  obtain ⟨s, arrived, departed⟩ := z
  obtain ⟨t, arrived', departed'⟩ := z'
  obtain ⟨item, hstep, rfl, rfl⟩ := hstep
  cases hstep with
  | enqueue henqueue =>
    rename_i now item retval
    refine h.arrive rfl (List.append_nil _) fun j => ?_
    rcases item.flowHash.eq_none_or_eq_some with hx | ⟨x, hx⟩
    · simp only [FqCoDel.doEnqueue, hx, Option.some.injEq, Prod.mk.injEq] at henqueue
      exact ⟨[], List.nil_sublist _, by rw [henqueue.2, List.append_nil]⟩
    · refine ⟨_, ?_, (hs.puts henable hx henqueue).queue j⟩
      split_ifs
      · exact .refl _
      · exact List.nil_sublist _
  | dequeueRequeued hslot => exact h.stay (List.append_nil _) (List.append_nil _) rfl
  | dequeue hslot hitem => exact h.depart hs htag (.of_dequeues hitem) (List.append_nil _) rfl
  | peekRequeued hslot => exact h.stay (List.append_nil _) (List.append_nil _) rfl
  | peek hslot hitem =>
    obtain ⟨htags, hindices, hindex, hqueue⟩ := Leaves.of_dequeues hitem
    exact h.depart hs htag ⟨htags, hindices, hindex, hqueue⟩ (List.append_nil _) rfl

/-- What holds as long as each flow keeps its queue. -/
structure Steady (c : FqCoDelConfig) (z : FlowLog) : Prop where
  regular : z.queueDisc.Regular
  tagged : Tagged c z.queueDisc
  queued : z.Queued

theorem steady_init : Steady c init := ⟨regular_init, tagged_init, queued_init⟩

theorem Steady.step (hz : Steady c z) (henable : c.enableSetAssociativeHash = true) {e : Event}
    (h : Step c z e z') (hover : ¬ Overflows c z.queueDisc e)
    (hkeeps : KeepsFlow c z.queueDisc e) : Steady c z' := by
  have hqueued := hz.queued.step hz.regular hz.tagged henable h
  obtain ⟨item, hstep, -⟩ := h
  exact ⟨hz.regular.step hstep, hz.tagged.step hz.regular henable hstep hover hkeeps, hqueued⟩

end FlowLog

/-- In a run in which no set overflows, every packet of a flow with packets in a queue is put into
that queue, and the packets of each flow leave in the order in which they came, exactly if none
comes while an earlier way is inactive. -/
theorem inOrder_iff (henable : c.enableSetAssociativeHash = true)
    {trace : List (FlowLog × Event)} {z : FlowLog} (h : Run (FlowLog.Step c) .init trace z)
    (hover : ∀ p ∈ trace, ¬ Overflows c p.1.queueDisc p.2) :
    ((∀ p ∈ trace, KeepsFlow c p.1.queueDisc p.2) ∧ z.InOrder) ↔
      ∀ p ∈ trace, ¬ EarlierInactive c p.1.queueDisc p.2 := by
  have hiff (z : FlowLog) (e : Event) (hz : z.Steady c) :
      KeepsFlow c z.queueDisc e ↔ ¬ EarlierInactive c z.queueDisc e :=
    hz.tagged.keepsFlow_iff hz.regular henable e
  obtain ⟨hall, hlast⟩ := (h.restrict hover).forall_step_iff FlowLog.steady_init
    (fun z e _ hz _ => hiff z e hz) fun z e z' hz hkeeps hst => hz.step henable hst.1 hst.2 hkeeps
  rw [← hall]
  exact and_iff_left_of_imp fun hkeeps => (hlast hkeeps).queued.inOrder

/-! ### A run that is out of order -/

instance (c : FqCoDelConfig) (s : FqCoDel) (e : Event) : Decidable (Overflows c s e) :=
  match e with
  | .enqueue _ item =>
    -- the list of the ways is gone through, not the whole type
    decidable_of_iff (∃ x ∈ item.flowHash, (ways c x).all (fun w => !s.usable x w) = true)
      (by simp only [Overflows, List.all_eq_true, Bool.not_eq_true', Option.mem_def])
  | .dequeue _ => instDecidableFalse
  | .peek _ => instDecidableFalse

namespace FlowLog

/-- A step in which `DoDequeue` takes no more than so many turns. -/
def next (c : FqCoDelConfig) (turns : ℕ) (z : FlowLog) (e : Event) : Option FlowLog :=
  (z.queueDisc.next c turns e).map fun (item, queueDisc) =>
    ⟨queueDisc, z.arrived ++ e.arriving.toList, z.departed ++ item.toList⟩

theorem step_of_next {turns : ℕ} {z z' : FlowLog} {e : Event} (h : z.next c turns e = some z') :
    Step c z e z' := by
  obtain ⟨⟨item, queueDisc⟩, hnext, rfl⟩ := Option.map_eq_some_iff.1 h
  exact ⟨item, FqCoDel.step_of_next hnext, rfl, rfl⟩

end FlowLog

/-- The first flow runs empty while the second one, of the same set, has a packet left.  The next
packet of the second flow takes the way of the first one. -/
def sampleEvents : List Event :=
  [.enqueue 0 (sampleItem 1 16), .enqueue 0 (sampleItem 2 24), .enqueue 0 (sampleItem 3 24),
    .enqueue 0 (sampleItem 4 24), .enqueue 0 (sampleItem 5 24), .dequeue 1000, .dequeue 2000,
    .dequeue 3000, .dequeue 4000, .enqueue 5000 (sampleItem 6 24), .dequeue 6000, .dequeue 7000]

theorem exists_sampleEvents : ∃ trace z,
    Run (FlowLog.Step (sampleConfig 10)) .init trace z ∧
      (∀ p ∈ trace, ¬ Overflows (sampleConfig 10) p.1.queueDisc p.2) ∧
      z.departed.map (·.uid) = [1, 2, 3, 4, 6, 5] ∧ ¬ z.InOrder := by
  have hrun : (Run.runOf (FlowLog.next (sampleConfig 10) 10) .init sampleEvents).any
      (fun r => decide ((∀ p ∈ r.1, ¬ Overflows (sampleConfig 10) p.1.queueDisc p.2) ∧
        r.2.departed.map (·.uid) = [1, 2, 3, 4, 6, 5] ∧
        ¬ (flowPackets 24 r.2.departed).Sublist (flowPackets 24 r.2.arrived))) = true := by
    decide +kernel
  obtain ⟨⟨trace, z⟩, hrun, hr⟩ := (Option.any_eq_true _ _).1 hrun
  obtain ⟨hover, hdeparted, hout⟩ := of_decide_eq_true hr
  exact ⟨trace, z, Run.of_runOf (fun _ _ _ => FlowLog.step_of_next) hrun, hover, hdeparted,
    fun hin => hout (hin 24)⟩

theorem not_inOrder_of_run : ¬ ∀ (c : FqCoDelConfig) (trace : List (FlowLog × Event)) (z : FlowLog),
    c.enableSetAssociativeHash = true → Run (FlowLog.Step c) .init trace z →
      (∀ p ∈ trace, ¬ Overflows c p.1.queueDisc p.2) →
        (∀ p ∈ trace, KeepsFlow c p.1.queueDisc p.2) ∧ z.InOrder := by
  obtain ⟨trace, z, hrun, hover, -, hout⟩ := exists_sampleEvents
  exact fun hall => hout (hall _ trace z rfl hrun hover).2

theorem inOrder_iff_sample : ∃ trace z,
    Run (FlowLog.Step (sampleConfig 10)) .init trace z ∧
      z.departed.map (·.uid) = [1, 2, 3, 4, 6, 5] ∧
      ¬ ∀ p ∈ trace, ¬ EarlierInactive (sampleConfig 10) p.1.queueDisc p.2 := by
  obtain ⟨trace, z, hrun, hover, hdeparted, hout⟩ := exists_sampleEvents
  exact ⟨trace, z, hrun, hdeparted, fun hno => hout ((inOrder_iff rfl hrun hover).2 hno).2⟩

end FqCoDel

end SeanetSim
