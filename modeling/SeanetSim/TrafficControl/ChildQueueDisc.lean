import SeanetSim.TrafficControl.QueueAccounts

/-!
# Queue discs inside queue discs

A queue disc reports to its parent what its own queues and children report to it, only that a packet
under a peek is not reported as dequeued before it leaves.  So for the parent it works through
traced operations (`Discipline.ofChild`), and what holds of every queue disc holds of a tree of them.
-/

namespace SeanetSim

namespace Holding

variable {h h' r : Holding} {events events' : List TraceEvent}

theorem replay_append :
    replay (events ++ events') h = (replay events h).bind (replay events') := by
  induction events generalizing h with
  | nil => rfl
  | cons e events ih =>
    rw [List.cons_append, replay, replay, Option.bind_assoc]
    congr 1
    funext r
    exact ih

end Holding

namespace Accounts

/-- The packets as the parent sees them: one that is taken out under a peek is still there. -/
structure Mirrors (peeked : Bool) (kept : List QueueDiscItem) (h outer : Holding) : Prop where
  incoming : outer.incoming = h.incoming
  held : outer.held.Perm (h.held ++ (if peeked then h.dequeued else []) ++ kept)
  dequeued : outer.dequeued = if peeked then [] else h.dequeued

variable {a : Accounts} {h h' outer : Holding} {kept : List QueueDiscItem} {e : TraceEvent}
  {events : List TraceEvent}

theorem notify_mirrors (hm : Mirrors a.peeked kept h outer) (happly : h.apply e = some h') :
    ∃ outer', Holding.replay (a.notify e).2 outer = some outer' ∧
      Mirrors a.peeked kept h' outer' := by
  obtain ⟨hincoming, hheld, hdequeued⟩ := hm
  cases e with
  | enqueue item =>
    simp only [Holding.apply] at happly
    split_ifs at happly with hmem
    cases happly
    refine ⟨⟨outer.incoming.erase item, outer.held ++ [item], outer.dequeued⟩, ?_, ?_, ?_, ?_⟩
    · simp [notify, packetEnqueued, Holding.replay, Holding.apply, hincoming, hmem]
    · rw [hincoming]
    · refine List.perm_iff_count.2 fun x => ?_
      have hcount := hheld.count_eq x
      simp only [List.count_append] at hcount ⊢
      omega
    · exact hdequeued
  | dropBeforeEnqueue item =>
    simp only [Holding.apply] at happly
    split_ifs at happly with hmem
    cases happly
    refine ⟨⟨outer.incoming.erase item, outer.held, outer.dequeued⟩, ?_, ?_, hheld, hdequeued⟩
    · simp [notify, dropBeforeEnqueue, Holding.replay, Holding.apply, hincoming, hmem]
    · rw [hincoming]
  | dequeue item =>
    simp only [Holding.apply] at happly
    split_ifs at happly with hmem
    cases happly
    cases hcase : a.peeked with
    | true =>
      -- the packet stays, and nothing is reported
      rw [hcase] at hheld hdequeued
      refine ⟨outer, by simp [notify, packetDequeued, hcase, Holding.replay], hincoming, ?_,
        hdequeued⟩
      refine List.perm_iff_count.2 fun x => ?_
      have hcount := hheld.count_eq x
      have herase := (List.perm_cons_erase hmem).count_eq x
      simp only [if_true, List.count_append, List.count_cons, List.count_nil] at hcount herase ⊢
      omega
    | false =>
      rw [hcase] at hheld hdequeued
      simp only [Bool.false_eq_true, if_false, List.append_nil] at hheld hdequeued
      have hmem' : item ∈ outer.held := hheld.mem_iff.2 (List.mem_append_left _ hmem)
      refine ⟨⟨outer.incoming, outer.held.erase item, outer.dequeued ++ [item]⟩, ?_, hincoming, ?_,
        ?_⟩
      · simp [notify, packetDequeued, hcase, Holding.replay, Holding.apply, hmem']
      · simp only [Bool.false_eq_true, if_false, List.append_nil]
        rw [← List.erase_append_left _ hmem]
        exact hheld.erase item
      · simp [hdequeued]
  | dropAfterDequeue item =>
    simp only [Holding.apply] at happly
    split_ifs at happly with hmem
    cases happly
    cases hcase : a.peeked with
    | true =>
      -- the packet that has stayed for the peek leaves now
      rw [hcase] at hheld hdequeued
      simp only [if_true] at hheld hdequeued
      have hmem' : item ∈ outer.held :=
        hheld.mem_iff.2 (List.mem_append_left _ (List.mem_append_right _ hmem))
      refine ⟨⟨outer.incoming, outer.held.erase item, []⟩, ?_, hincoming, ?_, rfl⟩
      · simp [notify, dropAfterDequeue, packetDequeued, hcase, Holding.replay, Holding.apply, hmem',
          hdequeued]
      · refine List.perm_iff_count.2 fun x => ?_
        have hcount := (hheld.erase item).count_eq x
        have herase := (List.perm_cons_erase hmem).count_eq x
        have houter := (List.perm_cons_erase hmem').count_eq x
        have hall := hheld.count_eq x
        simp only [if_true, List.count_append, List.count_cons] at hcount herase houter hall ⊢
        omega
    | false =>
      rw [hcase] at hheld hdequeued
      simp only [Bool.false_eq_true, if_false, List.append_nil] at hheld hdequeued
      refine ⟨⟨outer.incoming, outer.held, outer.dequeued.erase item⟩, ?_, hincoming, ?_, ?_⟩
      · simp [notify, dropAfterDequeue, hcase, Holding.replay, Holding.apply, hdequeued, hmem]
      · simpa using hheld
      · simp [hdequeued]

theorem notifyAll_mirrors (hm : Mirrors a.peeked kept h outer)
    (hreplay : Holding.replay events h = some h') :
    ∃ outer', Holding.replay (a.notifyAll events).2 outer = some outer' ∧
      Mirrors a.peeked kept h' outer' := by
  induction events generalizing a h outer with
  | nil =>
    cases hreplay
    exact ⟨outer, rfl, hm⟩
  | cons e events ih =>
    obtain ⟨h₁, happly, hrest⟩ := Option.bind_eq_some_iff.1 hreplay
    obtain ⟨outer₁, hfirst, hm₁⟩ := notify_mirrors hm happly
    rw [← notify_peeked a e] at hm₁ ⊢
    obtain ⟨outer', hemitted, hm'⟩ := ih hm₁ hrest
    refine ⟨outer', ?_, hm'⟩
    simp only [notifyAll, Holding.replay_append, hfirst, Option.bind_some]
    exact hemitted

/-- What is reported of an operation of a discipline. -/
theorem notifyAll_leads (a : Accounts) (kept : List QueueDiscItem)
    (hleads : Holding.Leads events h h') :
    Holding.Leads (a.notifyAll events).2
      ⟨h.incoming, h.held ++ (if a.peeked then h.dequeued else []) ++ kept,
        if a.peeked then [] else h.dequeued⟩
      ⟨h'.incoming, h'.held ++ (if a.peeked then h'.dequeued else []) ++ kept,
        if a.peeked then [] else h'.dequeued⟩ := by
  obtain ⟨r, hreplay, hincoming, hheld, hdequeued⟩ := hleads
  have hstart : Mirrors a.peeked kept h
      ⟨h.incoming, h.held ++ (if a.peeked then h.dequeued else []) ++ kept,
        if a.peeked then [] else h.dequeued⟩ := ⟨rfl, .refl _, rfl⟩
  obtain ⟨outer, hemitted, hm⟩ := notifyAll_mirrors hstart hreplay
  refine ⟨outer, hemitted, hm.incoming.trans hincoming, hm.held.trans ?_, ?_⟩
  · rw [hdequeued]
    exact (hheld.append_right _).append_right _
  · rw [hm.dequeued, hdequeued]

end Accounts

namespace QueueDisc

variable {D : Discipline} {q : QueueDisc D}

/-- Only `Run` requeues packets, and only a root queue disc runs. -/
def Settled (q : QueueDisc D) : Prop := q.accounts.peeked = q.requeued.isSome

theorem enqueue_settled (hq : Settled q) (input : D.Input) (item : QueueDiscItem) :
    Settled (q.enqueue input item).2.2 :=
  (Accounts.notifyAll_peeked _ _).trans hq

theorem enqueue_leads (q : QueueDisc D) (input : D.Input) (item : QueueDiscItem) :
    Holding.Leads (q.enqueue input item).2.1 ⟨[item], q.inside, []⟩
      ⟨[], (q.enqueue input item).2.2.inside, []⟩ := by
  have hleads := Accounts.notifyAll_leads { q.accounts with
      packets := q.accounts.packets.receive 1
      bytes := q.accounts.bytes.receive item.size.toUInt64 }
    (if q.accounts.peeked then q.requeued.toList else []) (D.enqueue_leads input q.state item)
  have hsame := Accounts.notifyAll_peeked (D.doEnqueue input q.state item).2.1 { q.accounts with
      packets := q.accounts.packets.receive 1
      bytes := q.accounts.bytes.receive item.size.toUInt64 }
  simp only [ite_self, List.append_nil] at hleads
  simp only [inside, enqueue, hsame]
  exact hleads

/-- `DoDequeue` of a child that holds no packet apart. -/
theorem doDequeue_leads (q : QueueDisc D) (input : D.Input) :
    Holding.Leads (q.doDequeue input).2.1 ⟨[], D.holds q.state, []⟩
      ⟨[], D.holds (q.doDequeue input).2.2.state ++
          (if q.accounts.peeked then (q.doDequeue input).1.toList else []),
        if q.accounts.peeked then [] else (q.doDequeue input).1.toList⟩ := by
  have hleads := Accounts.notifyAll_leads q.accounts [] (D.dequeue_leads input q.state)
  simp only [ite_self, List.append_nil] at hleads
  exact hleads

theorem leads_nil {h : Holding} : Holding.Leads [] h h := ⟨h, rfl, rfl, .refl _, rfl⟩

theorem dequeue_settled (hq : Settled q) (input : D.Input) :
    Settled (q.dequeue input).2.2 := by
  unfold Settled at hq ⊢
  unfold dequeue
  cases hrequeued : q.requeued with
  | some item =>
    rw [hrequeued] at hq
    simp only [takeRequeued, hq, Option.isSome_some, if_true, Accounts.packetDequeued]
    rfl
  | none =>
    rw [hrequeued] at hq
    simp only [doDequeue, Accounts.notifyAll_peeked, hq, hrequeued]

theorem dequeue_leads (hq : Settled q) (input : D.Input) :
    Holding.Leads (q.dequeue input).2.1 ⟨[], q.inside, []⟩
      ⟨[], (q.dequeue input).2.2.inside, (q.dequeue input).1.toList⟩ := by
  unfold Settled at hq
  unfold dequeue
  cases hrequeued : q.requeued with
  | some item =>
    rw [hrequeued, Option.isSome_some] at hq
    refine ⟨⟨[], (D.holds q.state ++ [item]).erase item, [item]⟩, ?_, rfl, ?_, rfl⟩
    · simp [takeRequeued, hq, Accounts.packetDequeued, Holding.replay, Holding.apply, inside,
        hrequeued]
    · have hperm := (List.perm_append_singleton item (D.holds q.state)).erase item
      simpa [takeRequeued, hq, Accounts.packetDequeued, inside] using hperm
  | none =>
    rw [hrequeued, Option.isSome_none] at hq
    have hleads := q.doDequeue_leads input
    have hsame := doDequeue_peeked q input
    simp only [hq, Bool.false_eq_true, if_false, List.append_nil] at hleads hsame
    simpa [inside, hq, hsame] using hleads

theorem peek_settled (hq : Settled q) (input : D.Input) : Settled (q.peek input).2.2 := by
  cases hpeek : D.doPeek with
  | some doPeek =>
    simp only [peek, hpeek]
    exact (Accounts.notifyAll_peeked _ _).trans hq
  | none =>
    cases hrequeued : q.requeued with
    | some item =>
      simp only [peek, hpeek, hrequeued]
      exact hq
    | none =>
      rw [peek_eq hpeek hrequeued]
      rfl

theorem peek_leads (q : QueueDisc D) (input : D.Input) :
    Holding.Leads (q.peek input).2.1 ⟨[], q.inside, []⟩ ⟨[], (q.peek input).2.2.inside, []⟩ := by
  cases hpeek : D.doPeek with
  | some doPeek =>
    have hleads := Accounts.notifyAll_leads q.accounts
      (if q.accounts.peeked then q.requeued.toList else [])
      (D.peek_leads doPeek hpeek input q.state)
    have hsame := Accounts.notifyAll_peeked (doPeek input q.state).2.1 q.accounts
    simp only [ite_self, List.append_nil] at hleads
    simp only [peek, hpeek, inside, hsame]
    exact hleads
  | none =>
    cases hrequeued : q.requeued with
    | some item =>
      simp only [peek, hpeek, hrequeued]
      exact leads_nil
    | none =>
      have hleads : Holding.Leads (q.peeking.doDequeue input).2.1 ⟨[], D.holds q.state, []⟩ _ :=
        q.peeking.doDequeue_leads input
      have hpeeking : q.peeking.accounts.peeked = true := rfl
      have hemitted : (q.peek input).2.1 = (q.peeking.doDequeue input).2.1 := by
        simp only [peek, hpeek, hrequeued, dequeue, peeking]
      simp only [hpeeking, if_true] at hleads
      rw [hemitted, peek_eq hpeek hrequeued]
      cases hitem : (q.peeking.doDequeue input).1 with
      | none =>
        rw [hitem] at hleads
        simpa [inside, hrequeued] using hleads
      | some item =>
        rw [hitem] at hleads
        simpa [inside, hrequeued] using hleads

end QueueDisc

/-- The discipline of a queue disc with one child, which it asks for everything. -/
def Discipline.ofChild (D : Discipline) : Discipline where
  State := { q : QueueDisc D // q.Settled }
  Input := D.Input
  holds q := q.1.inside
  doEnqueue input q item :=
    let r := q.1.enqueue input item
    (r.1, r.2.1, ⟨r.2.2, QueueDisc.enqueue_settled q.2 input item⟩)
  doDequeue input q :=
    let r := q.1.dequeue input
    (r.1, r.2.1, ⟨r.2.2, QueueDisc.dequeue_settled q.2 input⟩)
  doPeek := some fun input q =>
    let r := q.1.peek input
    (r.1, r.2.1, ⟨r.2.2, QueueDisc.peek_settled q.2 input⟩)
  enqueue_leads input q item := q.1.enqueue_leads input item
  dequeue_leads input q := QueueDisc.dequeue_leads q.2 input
  peek_leads f hf input q := by
    cases hf
    exact q.1.peek_leads input

end SeanetSim
