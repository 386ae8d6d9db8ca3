import Mathlib.Data.UInt
import Mathlib.Tactic.Abel
import SeanetSim.TrafficControl.QueueDisc

/-!
# What a queue disc counts

The counters of a queue disc follow the packets: those in its queues, its children and under a peek,
those that have been given away and those that were dropped (`QueueDisc.statistics_of_run`).
`GetStats` takes a packet under a peek for one that was dequeued before, so it reports one packet too
few as sent exactly as long as there is one.
-/

namespace SeanetSim

open scoped UInt32.CommRing UInt64.CommRing

/-! ## Weights -/

section Weigh

variable {R : Type} [AddCommMonoid R] (w : QueueDiscItem → R) (item : QueueDiscItem)
  (l m : List QueueDiscItem)

/-- The number of packets or of bytes in a list. -/
def weigh : R := (l.map w).sum

@[simp] theorem weigh_nil : weigh w [] = 0 := rfl

@[simp] theorem weigh_cons : weigh w (item :: l) = w item + weigh w l := List.sum_cons

@[simp] theorem weigh_append : weigh w (l ++ m) = weigh w l + weigh w m := by
  rw [weigh, List.map_append, List.sum_append]
  rfl

variable {l m item}

theorem weigh_perm (h : l.Perm m) : weigh w l = weigh w m := (h.map w).sum_eq

end Weigh

/-! ## Totals -/

/-- The totals agree with the weight of what is still to be enqueued, what is inside and what has
been given away. -/
structure Tallies.Balanced {R : Type} [Add R] (t : Tallies R) (incoming inside outside : R) :
    Prop where
  received : t.received = t.enqueued + t.droppedBeforeEnqueue + incoming
  enqueued : t.enqueued = t.dequeued + inside
  dequeued : t.dequeued = outside + t.droppedAfterDequeue
  dropped : t.dropped = t.droppedBeforeEnqueue + t.droppedAfterDequeue

namespace Tallies.Balanced

variable {R : Type} [AddCommGroup R] {t : Tallies R} {x y z i : R}

theorem receive (h : t.Balanced 0 y z) (i : R) : (t.receive i).Balanced i y z := by
  obtain ⟨hreceived, henqueued, hdequeued, hdropped⟩ := h
  refine ⟨?_, henqueued, hdequeued, hdropped⟩
  simp only [Tallies.receive, hreceived, add_zero]

theorem enqueue (h : t.Balanced (i + x) y z) : (t.enqueue i).Balanced x (i + y) z := by
  obtain ⟨hreceived, henqueued, hdequeued, hdropped⟩ := h
  refine ⟨?_, ?_, hdequeued, hdropped⟩
  · simp only [Tallies.enqueue, hreceived]
    abel
  · simp only [Tallies.enqueue, henqueued]
    abel

theorem dequeue (h : t.Balanced x (i + y) z) : (t.dequeue i).Balanced x y (i + z) := by
  obtain ⟨hreceived, henqueued, hdequeued, hdropped⟩ := h
  refine ⟨hreceived, ?_, ?_, hdropped⟩
  · simp only [Tallies.dequeue, henqueued]
    abel
  · simp only [Tallies.dequeue, hdequeued]
    abel

theorem dropBeforeEnqueue (h : t.Balanced (i + x) y z) :
    (t.dropBeforeEnqueue i).Balanced x y z := by
  obtain ⟨hreceived, henqueued, hdequeued, hdropped⟩ := h
  refine ⟨?_, henqueued, hdequeued, ?_⟩
  · simp only [Tallies.dropBeforeEnqueue, hreceived]
    abel
  · simp only [Tallies.dropBeforeEnqueue, hdropped]
    abel

theorem dropAfterDequeue (h : t.Balanced x y (i + z)) :
    (t.dropAfterDequeue i).Balanced x y z := by
  obtain ⟨hreceived, henqueued, hdequeued, hdropped⟩ := h
  refine ⟨hreceived, henqueued, ?_, ?_⟩
  · simp only [Tallies.dropAfterDequeue, hdequeued]
    abel
  · simp only [Tallies.dropAfterDequeue, hdropped]
    abel

theorem requeue (h : t.Balanced x y z) (i : R) : (t.requeue i).Balanced x y z :=
  ⟨h.received, h.enqueued, h.dequeued, h.dropped⟩

/-- `GetStats` is right where the requeued packet has been counted as dequeued. -/
theorem settle_sent {w : R} (h : t.Balanced x y (i + w)) : (t.settle i).sent = w := by
  simp only [Tallies.settle, h.dequeued]
  abel

theorem settle_sent_eq_iff (h : t.Balanced x y z) : (t.settle i).sent = z ↔ i = 0 := by
  have hsent : (t.settle i).sent = z - i := by
    simp only [Tallies.settle, h.dequeued]
    abel
  rw [hsent, sub_eq_self]

end Tallies.Balanced

/-! ## Callbacks -/

namespace Accounts

/-- The counters agree with the packets that are still to be enqueued, those inside, and those that
have been given away. -/
structure Agrees (a : Accounts) (incoming inside outside : List QueueDiscItem) : Prop where
  nPackets : a.nPackets = weigh (fun _ => 1) inside
  nBytes : a.nBytes = weigh (·.size) inside
  packets : a.packets.Balanced (weigh (fun _ => 1) incoming) (weigh (fun _ => 1) inside)
    (weigh (fun _ => 1) outside)
  bytes : a.bytes.Balanced (weigh (·.size.toUInt64) incoming) (weigh (·.size.toUInt64) inside)
    (weigh (·.size.toUInt64) outside)

variable {a : Accounts} {item : QueueDiscItem} {x x' y y' z z' : List QueueDiscItem}

theorem Agrees.perm (h : a.Agrees x y z) (hx : x.Perm x') (hy : y.Perm y') (hz : z.Perm z') :
    a.Agrees x' y' z' := by
  obtain ⟨hn, hb, hpackets, hbytes⟩ := h
  rw [weigh_perm _ hx, weigh_perm _ hy, weigh_perm _ hz] at hpackets hbytes
  exact ⟨hn.trans (weigh_perm _ hy), hb.trans (weigh_perm _ hy), hpackets, hbytes⟩

theorem packetEnqueued_agrees (h : a.Agrees (item :: x) y z) :
    (a.packetEnqueued item).1.Agrees x (item :: y) z := by
  obtain ⟨hn, hb, hpackets, hbytes⟩ := h
  simp only [weigh_cons] at hpackets hbytes
  refine ⟨?_, ?_, ?_, ?_⟩
  · rw [weigh_cons, ← hn]
    exact add_comm _ _
  · rw [weigh_cons, ← hb]
    exact add_comm _ _
  · rw [weigh_cons]
    exact hpackets.enqueue
  · rw [weigh_cons]
    exact hbytes.enqueue

theorem packetDequeued_agrees (hpeeked : a.peeked = false) (h : a.Agrees x (item :: y) z) :
    (a.packetDequeued item).1.Agrees x y (item :: z) := by
  obtain ⟨hn, hb, hpackets, hbytes⟩ := h
  simp only [weigh_cons] at hn hb hpackets hbytes
  rw [packetDequeued, if_neg (by simp [hpeeked])]
  refine ⟨?_, ?_, ?_, ?_⟩
  · exact sub_eq_of_eq_add' hn
  · exact sub_eq_of_eq_add' hb
  · rw [weigh_cons]
    exact hpackets.dequeue
  · rw [weigh_cons]
    exact hbytes.dequeue

theorem dropBeforeEnqueue_agrees (h : a.Agrees (item :: x) y z) :
    (a.dropBeforeEnqueue item).1.Agrees x y z := by
  obtain ⟨hn, hb, hpackets, hbytes⟩ := h
  simp only [weigh_cons] at hpackets hbytes
  exact ⟨hn, hb, hpackets.dropBeforeEnqueue, hbytes.dropBeforeEnqueue⟩

theorem Agrees.setPeeked (h : a.Agrees x y z) (peeked : Bool) :
    Agrees { a with peeked := peeked } x y z :=
  ⟨h.nPackets, h.nBytes, h.packets, h.bytes⟩

theorem dropAfterDequeue_agrees (hpeeked : a.peeked = false) (h : a.Agrees x y (item :: z)) :
    (a.dropAfterDequeue item).1.Agrees x y z := by
  obtain ⟨hn, hb, hpackets, hbytes⟩ := h
  simp only [weigh_cons] at hpackets hbytes
  simp only [dropAfterDequeue, hpeeked, Bool.false_eq_true, if_false]
  exact ⟨hn, hb, hpackets.dropAfterDequeue, hbytes.dropAfterDequeue⟩

/-- A packet that is dropped under a peek is counted as dequeued with it. -/
theorem dropAfterDequeue_peeked_agrees (hpeeked : a.peeked = true)
    (h : a.Agrees x (item :: y) z) : (a.dropAfterDequeue item).1.Agrees x y z := by
  have hdequeued := packetDequeued_agrees rfl (h.setPeeked false)
  have hdropped := dropAfterDequeue_agrees (by simp [packetDequeued]) hdequeued
  simp only [packetDequeued, dropAfterDequeue, hpeeked, Bool.false_eq_true, if_false,
    if_true] at hdropped ⊢
  exact hdropped.setPeeked true

/-- What a queue disc holds while an operation runs: a packet that was taken out for a peek stays. -/
def inside (a : Accounts) (h : Holding) (kept : List QueueDiscItem) : List QueueDiscItem :=
  h.held ++ (if a.peeked then h.dequeued else []) ++ kept

def outside (a : Accounts) (h : Holding) (out : List QueueDiscItem) : List QueueDiscItem :=
  (if a.peeked then [] else h.dequeued) ++ out

/-- The counters agree with where the packets are: `kept` is the packet under a peek, and `out` are
those that have been given away. -/
def Follows (a : Accounts) (h : Holding) (kept out : List QueueDiscItem) : Prop :=
  a.Agrees h.incoming (a.inside h kept) (a.outside h out)

variable {h h' : Holding} {kept out : List QueueDiscItem} {e : TraceEvent}
  {events : List TraceEvent}

theorem notify_peeked (a : Accounts) (e : TraceEvent) : (a.notify e).1.peeked = a.peeked := by
  cases e with
  | enqueue item | dropBeforeEnqueue item => rfl
  | dequeue item =>
    simp only [notify, packetDequeued]
    split_ifs <;> rfl
  | dropAfterDequeue item =>
    simp only [notify, dropAfterDequeue]
    split_ifs with hpeeked
    · exact hpeeked.symm
    · rfl

theorem notify_follows (hf : a.Follows h kept out) (happly : h.apply e = some h') :
    (a.notify e).1.Follows h' kept out := by
  have hpeeked := notify_peeked a e
  unfold Follows inside outside at hf ⊢
  rw [hpeeked]
  cases e with
  | enqueue item =>
    simp only [Holding.apply] at happly
    split_ifs at happly with hmem
    cases happly
    refine (packetEnqueued_agrees (hf.perm (List.perm_cons_erase hmem) (.refl _) (.refl _))).perm
      (.refl _) ?_ (.refl _)
    rw [List.append_assoc, List.append_assoc, List.append_assoc]
    exact List.perm_middle.symm
  | dropBeforeEnqueue item =>
    simp only [Holding.apply] at happly
    split_ifs at happly with hmem
    cases happly
    exact dropBeforeEnqueue_agrees (hf.perm (List.perm_cons_erase hmem) (.refl _) (.refl _))
  | dequeue item =>
    simp only [Holding.apply] at happly
    split_ifs at happly with hmem
    cases happly
    have hheld := List.perm_cons_erase hmem
    cases hcase : a.peeked with
    | true =>
      rw [hcase] at hf
      simp only [notify, packetDequeued, hcase, if_true] at hf ⊢
      refine hf.perm (.refl _) ?_ (.refl _)
      refine .append_right _ ((hheld.append_right _).trans ?_)
      rw [← List.append_assoc]
      exact (List.perm_append_singleton _ _).symm
    | false =>
      rw [hcase] at hf
      simp only [Bool.false_eq_true, if_false, List.append_nil] at hf ⊢
      apply (packetDequeued_agrees hcase (hf.perm (.refl _) (hheld.append_right _) (.refl _))).perm
        (.refl _) (.refl _)
      rw [List.append_assoc]
      exact List.perm_middle.symm
  | dropAfterDequeue item =>
    simp only [Holding.apply] at happly
    split_ifs at happly with hmem
    cases happly
    have hdequeued := List.perm_cons_erase hmem
    cases hcase : a.peeked with
    | true =>
      rw [hcase] at hf
      simp only [if_true, List.nil_append] at hf ⊢
      refine dropAfterDequeue_peeked_agrees hcase (hf.perm (.refl _) ?_ (.refl _))
      refine (((hdequeued.append_left _).trans List.perm_middle).append_right _)
    | false =>
      rw [hcase] at hf
      simp only [Bool.false_eq_true, if_false] at hf ⊢
      exact dropAfterDequeue_agrees hcase
        (hf.perm (.refl _) (.refl _) (hdequeued.append_right _))

theorem notifyAll_peeked (events : List TraceEvent) (a : Accounts) :
    (a.notifyAll events).1.peeked = a.peeked := by
  induction events generalizing a with
  | nil => rfl
  | cons e events ih => exact (ih _).trans (notify_peeked a e)

theorem notifyAll_follows (hf : a.Follows h kept out) (hreplay : Holding.replay events h = some h') :
    (a.notifyAll events).1.Follows h' kept out := by
  induction events generalizing a h with
  | nil =>
    cases hreplay
    exact hf
  | cons e events ih =>
    obtain ⟨h₁, happly, hrest⟩ := Option.bind_eq_some_iff.1 hreplay
    exact ih (notify_follows hf happly) hrest

/-- The counters after an operation of a discipline. -/
theorem notifyAll_agrees (hf : a.Follows h kept out) (hleads : Holding.Leads events h h') :
    (a.notifyAll events).1.Follows h' kept out := by
  obtain ⟨r, hreplay, hincoming, hheld, hdequeued⟩ := hleads
  have hr := notifyAll_follows hf hreplay
  unfold Follows inside outside at hr ⊢
  rw [hincoming, hdequeued] at hr
  exact hr.perm (.refl _) ((hheld.append_right _).append_right _) (.refl _)

theorem receive_agrees (h : a.Agrees [] y z) (item : QueueDiscItem) :
    Agrees { a with
      packets := a.packets.receive 1
      bytes := a.bytes.receive item.size.toUInt64 } [item] y z := by
  obtain ⟨hn, hb, hpackets, hbytes⟩ := h
  refine ⟨hn, hb, ?_, ?_⟩
  · rw [weigh_cons, weigh_nil, add_zero]
    exact hpackets.receive 1
  · rw [weigh_cons, weigh_nil, add_zero]
    exact hbytes.receive _

theorem requeue_agrees (h : a.Agrees x y z) (item : QueueDiscItem) :
    Agrees { a with
      packets := a.packets.requeue 1
      bytes := a.bytes.requeue item.size.toUInt64 } x y z :=
  ⟨h.nPackets, h.nBytes, h.packets.requeue _, h.bytes.requeue _⟩

/-- `AddHeader` does not change the size. -/
theorem Agrees.addHeader (h : a.Agrees x y (item :: z)) : a.Agrees x y (item.addHeader :: z) :=
  ⟨h.nPackets, h.nBytes, h.packets, h.bytes⟩

end Accounts

/-! ## Operations -/

namespace QueueDisc

variable {D : Discipline} {q t : QueueDisc D} {input : D.Input} {item : QueueDiscItem}

/-- What is physically held: in the queues, in the children, and under a peek. -/
def inside (q : QueueDisc D) : List QueueDiscItem :=
  D.holds q.state ++ if q.accounts.peeked then q.requeued.toList else []

/-- What has been dequeued and not dropped. -/
def outside (q : QueueDisc D) : List QueueDiscItem :=
  (if q.accounts.peeked then [] else q.requeued.toList) ++ (q.sent ++ q.returned)

/-- What every operation keeps. -/
structure Counted (q : QueueDisc D) : Prop where
  agrees : q.accounts.Agrees [] q.inside q.outside
  peeked : q.accounts.peeked = true → q.requeued ≠ none

/-- The counters after the traced operations of the discipline. -/
theorem notifyAll_counted {a : Accounts} {incoming : List QueueDiscItem} {state : D.State}
    {events : List TraceEvent} (hpeeked : a.peeked = true → q.requeued ≠ none)
    (hsame : a.peeked = q.accounts.peeked) (ha : a.Agrees incoming q.inside q.outside)
    (hleads : Holding.Leads events ⟨incoming, D.holds q.state, []⟩ ⟨[], D.holds state, []⟩) :
    Counted { q with state := state, accounts := (a.notifyAll events).1 } := by
  have hnotify := Accounts.notifyAll_peeked events a
  refine ⟨?_, fun h => hpeeked (hnotify.symm.trans h)⟩
  have hf : a.Follows ⟨incoming, D.holds q.state, []⟩
      (if q.accounts.peeked then q.requeued.toList else []) q.outside := by
    simpa [Accounts.Follows, Accounts.inside, Accounts.outside, inside] using ha
  have hafter := Accounts.notifyAll_agrees hf hleads
  simp only [Accounts.Follows, Accounts.inside, Accounts.outside, ite_self, List.append_nil,
    List.nil_append] at hafter
  simp only [inside, outside, hnotify, hsame]
  exact hafter

theorem enqueue_counted (hq : Counted q) (input : D.Input) (item : QueueDiscItem) :
    Counted (q.enqueue input item).2.2 := by
  obtain ⟨hagrees, hpeeked⟩ := hq
  exact notifyAll_counted hpeeked rfl (Accounts.receive_agrees hagrees item)
    (D.enqueue_leads input q.state item)

/-- `DoDequeue` takes a packet out, or keeps it for a peek. -/
theorem doDequeue_follows {kept out : List QueueDiscItem}
    (h : q.accounts.Agrees [] (D.holds q.state ++ kept) out) (input : D.Input) :
    (q.doDequeue input).2.2.accounts.Follows ⟨[], D.holds (q.doDequeue input).2.2.state,
      (q.doDequeue input).1.toList⟩ kept out := by
  refine Accounts.notifyAll_agrees ?_ (D.dequeue_leads input q.state)
  simpa [Accounts.Follows, Accounts.inside, Accounts.outside] using h

theorem doDequeue_peeked (q : QueueDisc D) (input : D.Input) :
    (q.doDequeue input).2.2.accounts.peeked = q.accounts.peeked :=
  Accounts.notifyAll_peeked _ _

/-- A packet has left the queue disc, and is on its way. -/
structure Given (q : QueueDisc D) (item : Option QueueDiscItem) : Prop where
  agrees : q.accounts.Agrees [] (D.holds q.state) (item.toList ++ (q.sent ++ q.returned))
  peeked : q.accounts.peeked = false
  requeued : q.requeued = none

theorem Given.counted (hq : Given q none) : Counted q := by
  obtain ⟨hagrees, hpeeked, hrequeued⟩ := hq
  refine ⟨?_, fun h => ?_⟩
  · simpa [inside, outside, hpeeked, hrequeued] using hagrees
  · rw [hpeeked] at h
    cases h

theorem Given.returned {item : Option QueueDiscItem} (hq : Given q item) :
    Counted { q with returned := q.returned ++ item.toList } := by
  obtain ⟨hagrees, hpeeked, hrequeued⟩ := hq
  refine ⟨hagrees.perm (.refl _) ?_ ?_, fun h => ?_⟩
  · simp [inside, hpeeked]
  · simp only [outside, hpeeked, hrequeued, Bool.false_eq_true, if_false, Option.toList_none,
      List.nil_append]
    rw [← List.append_assoc q.sent]
    exact List.perm_append_comm
  · rw [hpeeked] at h
    cases h

theorem takeRequeued_given (hq : Counted q) (hitem : q.requeued = some item) :
    Given (q.takeRequeued item).2 (some item) := by
  obtain ⟨hagrees, -⟩ := hq
  simp only [inside, outside, hitem, Option.toList_some] at hagrees
  cases hpeeked : q.accounts.peeked with
  | true =>
    simp only [hpeeked, if_true, List.nil_append] at hagrees
    have hswap := hagrees.perm (.refl _) (List.perm_append_singleton _ _) (.refl _)
    have hdequeued := Accounts.packetDequeued_agrees rfl (hswap.setPeeked false)
    simp only [takeRequeued, hpeeked, if_true]
    exact ⟨hdequeued, by simp [Accounts.packetDequeued], rfl⟩
  | false =>
    simp only [hpeeked, Bool.false_eq_true, if_false, List.append_nil] at hagrees
    simp only [takeRequeued, hpeeked, Bool.false_eq_true, if_false]
    exact ⟨hagrees, hpeeked, rfl⟩

theorem dequeue_given (hq : Counted q) (input : D.Input) :
    Given (q.dequeue input).2.2 (q.dequeue input).1 := by
  unfold dequeue
  cases hrequeued : q.requeued with
  | some item => exact takeRequeued_given hq hrequeued
  | none =>
    obtain ⟨hagrees, hpeeked⟩ := hq
    have hnot : q.accounts.peeked = false := by
      by_contra h
      exact hpeeked (Bool.not_eq_false _ ▸ h) hrequeued
    have hsame := doDequeue_peeked q input
    simp only [inside, outside, hnot, Bool.false_eq_true, if_false, hrequeued, Option.toList_none,
      List.nil_append] at hagrees
    have hfollows := doDequeue_follows hagrees input
    simp only [Accounts.Follows, Accounts.inside, Accounts.outside, hsame, hnot,
      Bool.false_eq_true, if_false, List.append_nil] at hfollows
    exact ⟨hfollows, hsame.trans hnot, hrequeued⟩

/-- `m_peeked` is set. -/
def peeking (q : QueueDisc D) : QueueDisc D :=
  { q with accounts := { q.accounts with peeked := true } }

theorem peek_eq (hpeek : D.doPeek = none) (hrequeued : q.requeued = none) (input : D.Input) :
    (q.peek input).2.2 = { (q.peeking.doDequeue input).2.2 with
      requeued := (q.peeking.doDequeue input).1
      accounts := { (q.peeking.doDequeue input).2.2.accounts with
        peeked := (q.peeking.doDequeue input).1.isSome } } := by
  simp only [peek, hpeek, hrequeued, dequeue, peeking]

theorem peek_counted (hq : Counted q) (input : D.Input) : Counted (q.peek input).2.2 := by
  cases hpeek : D.doPeek with
  | some doPeek =>
    simp only [peek, hpeek]
    exact notifyAll_counted hq.peeked rfl hq.agrees (D.peek_leads doPeek hpeek input q.state)
  | none =>
    cases hrequeued : q.requeued with
    | some item =>
      simp only [peek, hpeek, hrequeued]
      exact hq
    | none =>
      obtain ⟨hagrees, -⟩ := hq
      simp only [inside, outside, hrequeued, Option.toList_none, ite_self,
        List.nil_append] at hagrees
      have hfollows : (q.peeking.doDequeue input).2.2.accounts.Follows _ [] _ :=
        doDequeue_follows (hagrees.setPeeked true) input
      have hsame : (q.peeking.doDequeue input).2.2.accounts.peeked = true := doDequeue_peeked _ _
      have hout : (q.peeking.doDequeue input).2.2.sent ++ (q.peeking.doDequeue input).2.2.returned =
          q.sent ++ q.returned := rfl
      rw [peek_eq hpeek hrequeued]
      simp only [Accounts.Follows, Accounts.inside, Accounts.outside, hsame, if_true,
        List.append_nil, List.nil_append, ← hout] at hfollows
      generalize q.peeking.doDequeue input = r at hfollows
      obtain ⟨item, emitted, t⟩ := r
      cases item with
      | some item =>
        refine ⟨?_, fun _ h => ?_⟩
        · simpa [inside, outside] using hfollows.setPeeked true
        · cases h
      | none =>
        refine ⟨?_, fun h => ?_⟩
        · simpa [inside, outside] using hfollows.setPeeked false
        · cases h

/-! ### Run -/

theorem setTxQueues_counted (hq : Counted q) (txQueues : List Bool) :
    Counted (q.setTxQueues txQueues) := ⟨hq.agrees, hq.peeked⟩

theorem dequeuePacket_counted (hq : Counted q) (input : D.Input) :
    ((q.dequeuePacket input).1 = none ∧ Counted (q.dequeuePacket input).2) ∨
      ∃ item, (q.dequeuePacket input).1 = some item ∧
        Given (q.dequeuePacket input).2 (some item) := by
  unfold dequeuePacket
  cases hrequeued : q.requeued with
  | some item =>
    dsimp only
    split_ifs with hstopped
    · exact .inl ⟨rfl, hq⟩
    · exact .inr ⟨item, rfl, takeRequeued_given hq hrequeued⟩
  | none =>
    dsimp only
    split_ifs with hready
    · have hgiven := dequeue_given hq input
      generalize q.dequeue input = r at hgiven
      obtain ⟨item, emitted, t⟩ := r
      cases item with
      | none => exact .inl ⟨rfl, hgiven.counted⟩
      | some item =>
        exact .inr ⟨item.addHeader, rfl, hgiven.agrees.addHeader, hgiven.peeked, hgiven.requeued⟩
    · exact .inl ⟨rfl, hq⟩

theorem dequeuePacket_peeked (hq : Counted q) (hpeeked : q.accounts.peeked = false)
    (input : D.Input) : (q.dequeuePacket input).2.accounts.peeked = false := by
  unfold dequeuePacket
  cases hrequeued : q.requeued with
  | some item =>
    dsimp only
    split_ifs with hstopped
    · exact hpeeked
    · exact (takeRequeued_given hq hrequeued).peeked
  | none =>
    dsimp only
    split_ifs with hready
    · exact (dequeue_given hq input).peeked
    · exact hpeeked

theorem transmit_counted (hq : Given q (some item)) (txQueues : List Bool) :
    Counted (q.transmit item txQueues).2 := by
  obtain ⟨hagrees, hpeeked, hrequeued⟩ := hq
  unfold transmit
  split_ifs with hstopped
  · refine ⟨?_, fun h => ?_⟩
    · simpa [requeue, inside, outside, hpeeked] using Accounts.requeue_agrees hagrees item
    · exact nofun
  · refine setTxQueues_counted ⟨?_, fun h => ?_⟩ txQueues
    · apply hagrees.perm (.refl _)
      · simp [inside, hpeeked]
      · simp only [outside, hpeeked, hrequeued, Bool.false_eq_true, if_false, Option.toList_none,
          List.nil_append, Option.toList_some, List.append_assoc, List.singleton_append]
        exact List.perm_middle.symm
    · rw [hpeeked] at h
      cases h

theorem restart_counted (hq : Counted q) (round : QueueRound D) :
    Counted (q.restart round).2 := by
  unfold restart
  have hcases := dequeuePacket_counted hq round.input
  generalize q.dequeuePacket round.input = r at hcases
  obtain ⟨item, t⟩ := r
  rcases hcases with ⟨rfl, ht⟩ | ⟨item, rfl, ht⟩
  · exact ht
  · exact transmit_counted ht round.txQueues

theorem transmit_peeked (q : QueueDisc D) (item : QueueDiscItem) (txQueues : List Bool) :
    (q.transmit item txQueues).2.accounts.peeked = q.accounts.peeked := by
  unfold transmit
  split_ifs <;> rfl

theorem restart_peeked (hq : Counted q) (hpeeked : q.accounts.peeked = false)
    (round : QueueRound D) : (q.restart round).2.accounts.peeked = false := by
  have hpacket := dequeuePacket_peeked hq hpeeked round.input
  unfold restart
  split
  · rename_i hcase
    rwa [hcase] at hpacket
  · rename_i hcase
    rw [hcase] at hpacket
    exact (transmit_peeked _ _ _).trans hpacket

theorem runLoop_counted {n : ℕ} {rounds : List (QueueRound D)} (hq : Counted q)
    (h : runLoop n rounds q = some t) :
    Counted t ∧ (q.accounts.peeked = false → t.accounts.peeked = false) := by
  induction n generalizing q rounds with
  | zero =>
    cases h
    exact ⟨hq, id⟩
  | succ n ih =>
    cases rounds with
    | nil => cases h
    | cons round rounds =>
      have hrestart := restart_counted hq round
      simp only [runLoop] at h
      split_ifs at h
      · have ⟨ht, hpeeked⟩ := ih hrestart h
        exact ⟨ht, fun hnot => hpeeked (restart_peeked hq hnot round)⟩
      · cases h
        exact ⟨hrestart, fun hnot => restart_peeked hq hnot round⟩

theorem run_counted {rounds : List (QueueRound D)} (hq : Counted q) (h : q.run rounds = some t) :
    Counted t ∧ (q.accounts.peeked = false → t.accounts.peeked = false) := by
  unfold run at h
  split at h
  · cases h
    exact ⟨hq, id⟩
  · obtain ⟨r, hloop, rfl⟩ := Option.map_eq_some_iff.1 h
    have hstart : Counted { q with running := true } := ⟨hq.agrees, hq.peeked⟩
    have ⟨hr, hpeeked⟩ := runLoop_counted hstart hloop
    exact ⟨⟨hr.agrees, hr.peeked⟩, hpeeked⟩

/-! ### Runs -/

variable {e : QueueEvent D} {trace : List (QueueDisc D × QueueEvent D)}

theorem init_counted {state : D.State} (hempty : D.holds state = [])
    (devQueueIface : Option NetDeviceQueueInterface) (quota : UInt32) :
    Counted (init D state devQueueIface quota) := by
  refine ⟨?_, nofun⟩
  simp only [inside, outside, init, hempty]
  exact ⟨rfl, rfl, ⟨rfl, rfl, rfl, rfl⟩, ⟨rfl, rfl, rfl, rfl⟩⟩

theorem step_counted (hq : Counted q) (h : Step q e t) : Counted t := by
  cases e with
  | enqueue input uid size txQueueIndex =>
    cases h
    exact enqueue_counted hq input _
  | dequeue input =>
    cases h
    exact (dequeue_given hq input).returned
  | peek input =>
    cases h
    exact peek_counted hq input
  | run rounds => exact (run_counted hq h).1
  | setTxQueues txQueues =>
    cases h
    exact setTxQueues_counted hq txQueues

/-- The counters of a queue disc, as unsigned integers of their width. -/
structure Accounted (q : QueueDisc D) : Prop where
  nPackets : q.accounts.nPackets = UInt32.ofNat q.inside.length
  nBytes : q.accounts.nBytes = UInt32.ofNat (q.inside.map (·.size.toNat)).sum
  received : q.accounts.packets.received =
    q.accounts.packets.enqueued + q.accounts.packets.droppedBeforeEnqueue
  stored : q.accounts.packets.enqueued - q.accounts.packets.dequeued = q.accounts.nPackets

/-- `GetStats` reports as sent what the send callback got and what `Dequeue` returned. -/
def ReportsSent (q : QueueDisc D) : Prop :=
  q.getStats.1.sent = UInt32.ofNat (q.sent ++ q.returned).length ∧
    q.getStats.2.sent = UInt64.ofNat ((q.sent ++ q.returned).map (·.size.toNat)).sum

theorem weigh_packets (l : List QueueDiscItem) :
    weigh (fun _ => (1 : UInt32)) l = UInt32.ofNat l.length := by
  induction l with
  | nil => rfl
  | cons item l ih =>
    rw [weigh_cons, ih, List.length_cons, UInt32.ofNat_add]
    exact add_comm _ _

theorem weigh_bytes (l : List QueueDiscItem) :
    weigh (·.size) l = UInt32.ofNat (l.map (·.size.toNat)).sum := by
  induction l with
  | nil => rfl
  | cons item l ih =>
    rw [weigh_cons, ih, List.map_cons, List.sum_cons, UInt32.ofNat_add, UInt32.ofNat_toNat]

theorem weigh_bytes64 (l : List QueueDiscItem) :
    weigh (·.size.toUInt64) l = UInt64.ofNat (l.map (·.size.toNat)).sum := by
  induction l with
  | nil => rfl
  | cons item l ih =>
    rw [weigh_cons, ih, List.map_cons, List.sum_cons, UInt64.ofNat_add, ← UInt32.toNat_toUInt64,
      UInt64.ofNat_toNat]

theorem Counted.accounted (hq : Counted q) : Accounted q := by
  obtain ⟨⟨hn, hb, hpackets, -⟩, -⟩ := hq
  refine ⟨hn.trans (weigh_packets _), hb.trans (weigh_bytes _), ?_, ?_⟩
  · rw [hpackets.received]
    exact add_zero _
  · rw [hpackets.enqueued, hn]
    exact add_sub_cancel_left _ _

/-- A packet under a peek is taken off what has been sent, though it was not counted there. -/
theorem Counted.reportsSent_iff (hq : Counted q) : ReportsSent q ↔ q.accounts.peeked = false := by
  obtain ⟨⟨hn, hb, hpackets, hbytes⟩, hpeeked⟩ := hq
  unfold ReportsSent
  rw [← weigh_packets, ← weigh_bytes64]
  unfold outside at hpackets hbytes
  unfold getStats
  cases hcase : q.accounts.peeked with
  | true =>
    obtain ⟨item, hitem⟩ := Option.ne_none_iff_exists'.1 (hpeeked hcase)
    simp only [hcase, if_true, List.nil_append] at hpackets
    simp only [hitem, Option.isSome_some, if_true, reduceCtorEq, iff_false]
    rintro ⟨hsent, -⟩
    exact absurd (hpackets.settle_sent_eq_iff.1 hsent) (by decide)
  | false =>
    simp only [hcase, Bool.false_eq_true, if_false, weigh_append _ q.requeued.toList]
      at hpackets hbytes
    simp only [iff_true]
    cases hrequeued : q.requeued with
    | none =>
      rw [hrequeued] at hpackets hbytes
      exact ⟨hpackets.settle_sent, hbytes.settle_sent⟩
    | some item =>
      rw [hrequeued] at hpackets hbytes
      simp only [Option.toList_some, weigh_cons, weigh_nil, add_zero] at hpackets hbytes
      exact ⟨hpackets.settle_sent, hbytes.settle_sent⟩

/-- A call of `Peek` that takes a packet out of the queues. -/
def PeeksPacket (p : QueueDisc D × QueueEvent D) : Prop :=
  match p.2 with
  | .peek input => D.doPeek = none ∧ p.1.requeued = none ∧ (D.doDequeue input p.1.state).1 ≠ none
  | _ => False

theorem step_peeked_iff (hq : Counted q) (hnot : q.accounts.peeked = false) (h : Step q e t) :
    t.accounts.peeked = false ↔ ¬ PeeksPacket (q, e) := by
  cases e with
  | enqueue input uid size txQueueIndex =>
    cases h
    exact iff_of_true ((Accounts.notifyAll_peeked _ _).trans hnot) not_false
  | dequeue input =>
    cases h
    exact iff_of_true (dequeue_given hq input).peeked not_false
  | run rounds => exact iff_of_true ((run_counted hq h).2 hnot) not_false
  | setTxQueues txQueues =>
    cases h
    exact iff_of_true hnot not_false
  | peek input =>
    cases h
    cases hpeek : D.doPeek with
    | some doPeek =>
      simp only [peek, hpeek, PeeksPacket]
      exact iff_of_true ((Accounts.notifyAll_peeked _ _).trans hnot) (by simp)
    | none =>
      cases hrequeued : q.requeued with
      | some item =>
        simp only [peek, hpeek, hrequeued, PeeksPacket]
        exact iff_of_true hnot (by simp)
      | none =>
        rw [peek_eq hpeek hrequeued]
        simp only [PeeksPacket, hpeek, hrequeued, true_and, not_not]
        exact Option.isSome_eq_false_iff.trans Option.isNone_iff_eq_none

/-- The counters are right in every state, and what `GetStats` reports as sent is right in every
state exactly if `Peek` never takes a packet out of the queues. -/
theorem statistics_of_run {state : D.State} {devQueueIface : Option NetDeviceQueueInterface}
    {quota : UInt32} (hempty : D.holds state = [])
    (hrun : Run Step (init D state devQueueIface quota) trace q) :
    ((∀ p ∈ trace, Accounted p.1) ∧ Accounted q) ∧
      (((∀ p ∈ trace, ReportsSent p.1) ∧ ReportsSent q) ↔ ∀ p ∈ trace, ¬ PeeksPacket p) := by
  have hinit := init_counted hempty devQueueIface quota
  have hstep : ∀ (s : QueueDisc D) e t, Counted s → Step s e t → Counted t :=
    fun _ _ _ => step_counted
  constructor
  · have hok : ∀ p ∈ trace, True := fun _ _ => trivial
    have ⟨htrace, hq⟩ := hrun.invariant_along hinit (fun s e t hs _ hst => hstep s e t hs hst) hok
    exact ⟨fun p hp => (htrace p hp).accounted, hq.accounted⟩
  · apply hrun.forall_iff ReportsSent (fun s e => PeeksPacket (s, e))
    · exact hinit.reportsSent_iff.2 rfl
    · intro trace s e t hs hst hgood
      have hcounted := hs.invariant hinit hstep
      rw [hcounted.reportsSent_iff] at hgood
      rw [(hstep s e t hcounted hst).reportsSent_iff]
      exact step_peeked_iff hcounted hgood hst

/-- Of three packets one is dropped, one is sent, and one waits for its device queue to be woken. -/
theorem accounted_requeued : ∃ (trace : List (QueueDisc .dropTail × QueueEvent .dropTail))
    (q : QueueDisc .dropTail), q.getStats.1.sent = 1 ∧ q.requeued = some ⟨2, 50, 1, 1⟩ ∧
      q.accounts.packets.dropped = 1 ∧ ((∀ p ∈ trace, Accounted p.1) ∧ Accounted q) ∧
      (((∀ p ∈ trace, ReportsSent p.1) ∧ ReportsSent q) ↔ ∀ p ∈ trace, ¬ PeeksPacket p) := by
  have hrun : (Run.runOf apply (init .dropTail (2, []) (some ⟨[false, true]⟩) 64)
      [.enqueue () 1 40 0, .enqueue () 2 50 1, .enqueue () 3 60 0,
        .run [⟨(), [false, true]⟩, ⟨(), [false, true]⟩]]).any
      (fun r => decide (r.2.getStats.1.sent = 1 ∧ r.2.requeued = some ⟨2, 50, 1, 1⟩ ∧
        r.2.accounts.packets.dropped = 1)) = true := by
    decide +kernel
  obtain ⟨⟨trace, q⟩, hrun, hr⟩ := (Option.any_eq_true _ _).1 hrun
  have ⟨hsent, hrequeued, hdropped⟩ := of_decide_eq_true hr
  exact ⟨trace, q, hsent, hrequeued, hdropped,
    statistics_of_run rfl (Run.of_runOf (fun _ _ _ h => h) hrun)⟩

/-- A packet is peeked at: the statistics say that `2 ^ 32 - 1` packets have been sent. -/
theorem not_reportsSent_peek : ∃ (trace : List (QueueDisc .dropTail × QueueEvent .dropTail))
    (q : QueueDisc .dropTail), Run Step (init .dropTail (2, []) none 64) trace q ∧
      trace.map (·.2) = [.enqueue () 1 40 0, .peek ()] ∧ q.sent = [] ∧ q.returned = [] ∧
      q.getStats.1.sent = 0xffffffff ∧ ¬ ReportsSent q := by
  have hrun : (Run.runOf apply (init .dropTail (2, []) none 64)
      [.enqueue () 1 40 0, .peek ()]).any (fun r => decide (r.2.sent = [] ∧ r.2.returned = [] ∧
        r.2.getStats.1.sent = 0xffffffff)) = true := by
    decide +kernel
  obtain ⟨⟨trace, q⟩, hrun, hr⟩ := (Option.any_eq_true _ _).1 hrun
  have ⟨hsent, hreturned, hstats⟩ := of_decide_eq_true hr
  refine ⟨trace, q, Run.of_runOf (fun _ _ _ h => h) hrun, Run.runOf_events hrun, hsent, hreturned,
    hstats, ?_⟩
  rintro ⟨hreports, -⟩
  rw [hstats, hsent, hreturned] at hreports
  exact absurd hreports (by decide)

end QueueDisc

end SeanetSim
