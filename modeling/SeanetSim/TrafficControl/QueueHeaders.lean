import SeanetSim.TrafficControl.QueueAccounts

/-!
# Headers of the packets that are sent

`DequeuePacket` adds the header to a packet that it dequeues, and none to one that it finds in the
slot for requeued packets, which has got it before.  A packet under a peek is in that slot too, so it
goes out without a header (`QueueDisc.headers_of_run`).  The order of the packets is that of
`DoDequeue` in any case.
-/

namespace SeanetSim

/-- The packet before `AddHeader`. -/
def QueueDiscItem.bare (item : QueueDiscItem) : QueueDiscItem := { item with headers := 0 }

namespace Holding

variable {h h' : Holding} {e : TraceEvent} {events : List TraceEvent} {P : QueueDiscItem → Prop}

/-- All packets have a property. -/
def All (P : QueueDiscItem → Prop) (h : Holding) : Prop :=
  (∀ i ∈ h.incoming, P i) ∧ (∀ i ∈ h.held, P i) ∧ ∀ i ∈ h.dequeued, P i

theorem All.apply (hall : h.All P) (happly : h.apply e = some h') : h'.All P := by
  obtain ⟨hincoming, hheld, hdequeued⟩ := hall
  cases e with
  | enqueue item =>
    simp only [Holding.apply] at happly
    split_ifs at happly with hmem
    cases happly
    refine ⟨fun i hi => hincoming i (List.mem_of_mem_erase hi), ?_, hdequeued⟩
    exact List.forall_mem_append.2 ⟨hheld, List.forall_mem_singleton.2 (hincoming item hmem)⟩
  | dequeue item =>
    simp only [Holding.apply] at happly
    split_ifs at happly with hmem
    cases happly
    refine ⟨hincoming, fun i hi => hheld i (List.mem_of_mem_erase hi), ?_⟩
    exact List.forall_mem_append.2 ⟨hdequeued, List.forall_mem_singleton.2 (hheld item hmem)⟩
  | dropBeforeEnqueue item =>
    simp only [Holding.apply] at happly
    split_ifs at happly with hmem
    cases happly
    exact ⟨fun i hi => hincoming i (List.mem_of_mem_erase hi), hheld, hdequeued⟩
  | dropAfterDequeue item =>
    simp only [Holding.apply] at happly
    split_ifs at happly with hmem
    cases happly
    exact ⟨hincoming, hheld, fun i hi => hdequeued i (List.mem_of_mem_erase hi)⟩

theorem All.leads (hall : h.All P) (hleads : Leads events h h') : h'.All P := by
  obtain ⟨r, hreplay, hincoming, hheld, hdequeued⟩ := hleads
  have hr : r.All P := by
    clear hincoming hheld hdequeued
    induction events generalizing h with
    | nil =>
      cases hreplay
      exact hall
    | cons e events ih =>
      obtain ⟨h₁, happly, hrest⟩ := Option.bind_eq_some_iff.1 hreplay
      exact ih (hall.apply happly) hrest
  exact ⟨hincoming ▸ hr.1, fun i hi => hr.2.1 i (hheld.mem_iff.2 hi), hdequeued ▸ hr.2.2⟩

end Holding

namespace QueueDisc

variable {D : Discipline} {q t : QueueDisc D} {input : D.Input} {item : QueueDiscItem}

/-- Every packet that was handed to the send callback has got its header once. -/
def HeadersOnce (q : QueueDisc D) : Prop := ∀ item ∈ q.sent, item.headers = 1

/-- The packets were handed over in the order in which `DoDequeue` returned them. -/
def InOrder (q : QueueDisc D) : Prop := q.sent.map QueueDiscItem.bare <+: q.dequeued

/-- Where packets without a header are, and those with one. -/
structure Tracked (q : QueueDisc D) : Prop where
  held : ∀ i ∈ D.holds q.state, i.headers = 0
  requeued : ∀ i ∈ q.requeued, i.headers = if q.accounts.peeked then 0 else 1
  peeked : q.accounts.peeked = true → q.requeued ≠ none
  order : q.dequeued = (q.sent ++ q.requeued.toList).map QueueDiscItem.bare

theorem bare_of_headers (h : item.headers = 0) : item.bare = item := by
  rw [QueueDiscItem.bare, ← h]

theorem Tracked.inOrder (hq : Tracked q) : InOrder q := by
  rw [InOrder, hq.order, List.map_append]
  exact List.prefix_append _ _

theorem enqueue_tracked (hq : Tracked q) (input : D.Input) (hitem : item.headers = 0) :
    Tracked (q.enqueue input item).2.2 := by
  obtain ⟨hheld, hrequeued, hpeeked, horder⟩ := hq
  have hall : Holding.All (fun i => i.headers = 0) ⟨[item], D.holds q.state, []⟩ :=
    ⟨List.forall_mem_singleton.2 hitem, hheld, nofun⟩
  have hsame : (q.enqueue input item).2.2.accounts.peeked = q.accounts.peeked :=
    Accounts.notifyAll_peeked _ _
  refine ⟨(hall.leads (D.enqueue_leads input q.state item)).2.1, ?_, ?_, horder⟩
  · rw [hsame]
    exact hrequeued
  · rw [hsame]
    exact hpeeked

theorem doDequeue_bare (hheld : ∀ i ∈ D.holds q.state, i.headers = 0) (input : D.Input) :
    (∀ i ∈ D.holds (q.doDequeue input).2.2.state, i.headers = 0) ∧
      ∀ i ∈ (q.doDequeue input).1, i.headers = 0 := by
  have hall : Holding.All (fun i => i.headers = 0) ⟨[], D.holds q.state, []⟩ := ⟨nofun, hheld, nofun⟩
  have hafter := hall.leads (D.dequeue_leads input q.state)
  exact ⟨hafter.2.1, fun i hi => hafter.2.2 i (Option.mem_toList.2 hi)⟩

theorem doDequeue_order (hheld : ∀ i ∈ D.holds q.state, i.headers = 0)
    (horder : q.dequeued = q.sent.map QueueDiscItem.bare) (input : D.Input) :
    (q.doDequeue input).2.2.dequeued =
      (q.sent ++ (q.doDequeue input).1.toList).map QueueDiscItem.bare := by
  have ⟨_, hbare⟩ := doDequeue_bare hheld input
  rw [List.map_append, ← horder]
  apply congrArg (q.dequeued ++ ·)
  cases hitem : (q.doDequeue input).1 with
  | none => simpa [doDequeue] using hitem
  | some item =>
    have hsame : (D.doDequeue input q.state).1 = some item := hitem
    simp [hsame, bare_of_headers (hbare item hitem)]

theorem peek_tracked (hq : Tracked q) (input : D.Input) : Tracked (q.peek input).2.2 := by
  obtain ⟨hheld, hrequeued, hpeeked, horder⟩ := hq
  cases hpeek : D.doPeek with
  | some doPeek =>
    have hall : Holding.All (fun i => i.headers = 0) ⟨[], D.holds q.state, []⟩ :=
      ⟨nofun, hheld, nofun⟩
    have hafter := hall.leads (D.peek_leads doPeek hpeek input q.state)
    simp only [peek, hpeek]
    refine ⟨hafter.2.1, ?_, ?_, horder⟩
    · rw [Accounts.notifyAll_peeked]
      exact hrequeued
    · rw [Accounts.notifyAll_peeked]
      exact hpeeked
  | none =>
    cases hcase : q.requeued with
    | some item =>
      simp only [peek, hpeek, hcase]
      exact ⟨hheld, hrequeued, hpeeked, horder⟩
    | none =>
      obtain ⟨hheld', hbare⟩ := doDequeue_bare (q := q.peeking) hheld input
      rw [hcase, Option.toList_none, List.append_nil] at horder
      have horder' := doDequeue_order (q := q.peeking) hheld horder input
      rw [peek_eq hpeek hcase]
      refine ⟨hheld', ?_, ?_, ?_⟩
      · intro i hi
        rw [hbare i hi]
        dsimp only at hi ⊢
        rw [hi]
        rfl
      · intro h hnone
        rw [show (q.peeking.doDequeue input).1 = none from hnone] at h
        cases h
      · exact horder'

/-! ### Run -/

/-- The packet under a peek is about to be sent. -/
def SendsPeeked (q : QueueDisc D) : Prop :=
  q.accounts.peeked = true ∧ ∃ item ∈ q.requeued, q.isStopped item.txQueueIndex = false

theorem not_sendsPeeked (h : q.accounts.peeked = false) : ¬ SendsPeeked q := fun hs =>
  absurd (h.symm.trans hs.1) Bool.false_ne_true

theorem takeRequeued_peeked (q : QueueDisc D) (item : QueueDiscItem) :
    (q.takeRequeued item).2.accounts.peeked = false := by
  unfold takeRequeued
  split_ifs with hpeeked
  · simp [Accounts.packetDequeued]
  · exact Bool.not_eq_true _ ▸ hpeeked

/-- What a packet that `DequeuePacket` returns is, and what it leaves. -/
structure Ready (q t : QueueDisc D) (item : QueueDiscItem) : Prop where
  held : ∀ i ∈ D.holds t.state, i.headers = 0
  requeued : t.requeued = none
  peeked : t.accounts.peeked = false
  order : t.dequeued = (q.sent ++ [item]).map QueueDiscItem.bare
  sent : t.sent = q.sent
  iface : t.devQueueIface = q.devQueueIface

theorem dequeuePacket_ready (hq : Tracked q) (input : D.Input) :
    ((q.dequeuePacket input).1 = none ∧ Tracked (q.dequeuePacket input).2 ∧ ¬ SendsPeeked q ∧
      (q.dequeuePacket input).2.sent = q.sent ∧
      (q.accounts.peeked = false → (q.dequeuePacket input).2.accounts.peeked = false)) ∨
    ∃ item, (q.dequeuePacket input).1 = some item ∧ Ready q (q.dequeuePacket input).2 item ∧
      (item.headers = 0 ∧ SendsPeeked q ∧ q.isStopped item.txQueueIndex = false ∨
        item.headers = 1 ∧ ¬ SendsPeeked q) := by
  obtain ⟨hheld, hheaders, hpeeked, horder⟩ := hq
  cases hrequeued : q.requeued with
  | some item =>
    simp only [dequeuePacket, hrequeued]
    split_ifs with hstopped
    · refine .inl ⟨rfl, ⟨hheld, hheaders, hpeeked, horder⟩, ?_, rfl, id⟩
      rintro ⟨-, i, hi, hnot⟩
      rw [hrequeued] at hi
      cases hi
      rw [hstopped] at hnot
      cases hnot
    · rw [hrequeued] at horder
      have hitem := hheaders item hrequeued
      have hnot : q.isStopped item.txQueueIndex = false := Bool.not_eq_true _ ▸ hstopped
      have hready : Ready q (q.takeRequeued item).2 item := by
        refine ⟨?_, ?_, takeRequeued_peeked q item, ?_, ?_, ?_⟩ <;>
          (unfold takeRequeued; split_ifs)
        all_goals first | exact hheld | rfl | exact horder
      refine .inr ⟨item, rfl, hready, ?_⟩
      cases hcase : q.accounts.peeked with
      | true =>
        rw [hcase, if_pos rfl] at hitem
        exact .inl ⟨hitem, ⟨hcase, item, hrequeued, hnot⟩, hnot⟩
      | false =>
        rw [hcase, if_neg Bool.false_ne_true] at hitem
        exact .inr ⟨hitem, not_sendsPeeked hcase⟩
  | none =>
    have hnot : q.accounts.peeked = false := by
      by_contra h
      exact hpeeked (Bool.not_eq_false _ ▸ h) hrequeued
    have hsends := not_sendsPeeked hnot
    simp only [dequeuePacket, hrequeued, dequeue]
    split_ifs with hready
    · obtain ⟨hheld', hbare⟩ := doDequeue_bare hheld input
      have hsame : (q.doDequeue input).2.2.accounts.peeked = false :=
        (doDequeue_peeked q input).trans hnot
      rw [hrequeued, Option.toList_none, List.append_nil] at horder
      have horder' := doDequeue_order hheld horder input
      cases hitem : (q.doDequeue input).1 with
      | none =>
        rw [hitem] at horder'
        refine .inl ⟨rfl, ⟨hheld', ?_, ?_, ?_⟩, hsends, rfl, fun _ => hsame⟩
        · intro i hi
          cases hrequeued.symm.trans hi
        · exact fun h => absurd (hsame.symm.trans h) Bool.false_ne_true
        · rw [show (q.doDequeue input).2.2.requeued = none from hrequeued]
          exact horder'
      | some item =>
        rw [hitem] at horder'
        refine .inr ⟨item.addHeader, rfl, ⟨hheld', hrequeued, hsame, ?_, rfl, rfl⟩, .inr ⟨?_, hsends⟩⟩
        · rw [horder', List.map_append, List.map_append]
          rfl
        · rw [QueueDiscItem.addHeader, hbare item hitem]
    · exact .inl ⟨rfl, ⟨hheld, hheaders, hpeeked, horder⟩, hsends, rfl, id⟩

/-- What a round of `Run` sends, and what it leaves. -/
structure Sends (q t : QueueDisc D) (out : List QueueDiscItem) : Prop where
  tracked : Tracked t
  sent : t.sent = q.sent ++ out
  headers : (∀ i ∈ out, i.headers = 1) ↔ ¬ SendsPeeked q

theorem transmit_sends {r : QueueDisc D} (hr : Ready q r item) (txQueues : List Bool)
    (hitem : item.headers = 0 ∧ SendsPeeked q ∧ q.isStopped item.txQueueIndex = false ∨
      item.headers = 1 ∧ ¬ SendsPeeked q) :
    ∃ out, Sends q (r.transmit item txQueues).2 out ∧
      (r.transmit item txQueues).2.accounts.peeked = false := by
  obtain ⟨hheld, hrequeued, hpeeked, horder, hsent, hiface⟩ := hr
  have hstopped : r.isStopped item.txQueueIndex = q.isStopped item.txQueueIndex := by
    rw [isStopped, isStopped, hiface]
  unfold transmit
  rw [hstopped]
  split_ifs with hcase
  · rcases hitem with ⟨-, -, hnot⟩ | ⟨hheaders, hsends⟩
    · rw [hcase] at hnot
      cases hnot
    · refine ⟨[], ⟨⟨hheld, ?_, ?_, ?_⟩, ?_, ?_⟩, hpeeked⟩
      · intro i hi
        cases hi
        show item.headers = if r.accounts.peeked then 0 else 1
        rw [hpeeked, hheaders]
        rfl
      · exact fun h => absurd (hpeeked.symm.trans h) Bool.false_ne_true
      · rw [← hsent] at horder
        exact horder
      · rw [List.append_nil]
        exact hsent
      · exact iff_of_true (by simp) hsends
  · refine ⟨[item], ⟨⟨hheld, ?_, ?_, ?_⟩, ?_, ?_⟩, hpeeked⟩
    · exact fun i hi => absurd (hrequeued.symm.trans hi) nofun
    · exact fun h => absurd (hpeeked.symm.trans h) Bool.false_ne_true
    · rw [← hsent] at horder
      show r.dequeued = (r.sent ++ [item] ++ r.requeued.toList).map QueueDiscItem.bare
      rw [hrequeued, Option.toList_none, List.append_nil]
      exact horder
    · exact congrArg (· ++ [item]) hsent
    · rcases hitem with ⟨hheaders, hsends, -⟩ | ⟨hheaders, hsends⟩
      · simp [hheaders, hsends]
      · simp [hheaders, hsends]

theorem restart_sends (hq : Tracked q) (round : QueueRound D) :
    ∃ out, Sends q (q.restart round).2 out ∧
      (q.accounts.peeked = false ∨ (q.restart round).1 = true →
        (q.restart round).2.accounts.peeked = false) := by
  have hcases := dequeuePacket_ready hq round.input
  unfold restart
  generalize q.dequeuePacket round.input = r at hcases
  obtain ⟨item, t⟩ := r
  rcases hcases with ⟨rfl, ht, hsends, hsent, hpeeked⟩ | ⟨item, rfl, hready, hitem⟩
  · refine ⟨[], ⟨ht, ?_, iff_of_true (by simp) hsends⟩, ?_⟩
    · rw [List.append_nil]
      exact hsent
    · rintro (hnot | hmore)
      · exact hpeeked hnot
      · cases hmore
  · obtain ⟨out, hout, hpeeked⟩ := transmit_sends hready round.txQueues hitem
    exact ⟨out, hout, fun _ => hpeeked⟩

/-- Once no packet is under a peek, every packet is sent with its header. -/
theorem runLoop_sends {n : ℕ} {rounds : List (QueueRound D)} (hq : Tracked q)
    (hnot : q.accounts.peeked = false) (h : runLoop n rounds q = some t) :
    ∃ out, Sends q t out := by
  have hsends := not_sendsPeeked hnot
  induction n generalizing q rounds with
  | zero =>
    cases h
    exact ⟨[], hq, (List.append_nil _).symm, iff_of_true (by simp) hsends⟩
  | succ n ih =>
    cases rounds with
    | nil => cases h
    | cons round rounds =>
      obtain ⟨out, hout, hpeeked⟩ := restart_sends hq round
      simp only [runLoop] at h
      split_ifs at h
      · have hnot' := hpeeked (.inl hnot)
        obtain ⟨rest, ht, hsent, hheaders⟩ := ih hout.tracked hnot' h (not_sendsPeeked hnot')
        refine ⟨out ++ rest, ht, ?_, iff_of_true ?_ hsends⟩
        · rw [hsent, hout.sent, List.append_assoc]
        · exact List.forall_mem_append.2
            ⟨hout.headers.2 hsends, hheaders.2 (not_sendsPeeked hnot')⟩
      · cases h
        exact ⟨out, hout⟩

theorem run_sends {rounds : List (QueueRound D)} (hq : Tracked q) (hrunning : q.running = false)
    (h : q.run rounds = some t) : ∃ out, Sends q t out := by
  unfold run at h
  rw [hrunning, if_neg Bool.false_ne_true] at h
  obtain ⟨r, hloop, rfl⟩ := Option.map_eq_some_iff.1 h
  have hstart : Tracked { q with running := true } := ⟨hq.held, hq.requeued, hq.peeked, hq.order⟩
  obtain ⟨n, hn⟩ : ∃ n, (if q.quota = 0 then 0x100000000 else q.quota.toNat) = n + 1 := by
    apply Nat.exists_eq_succ_of_ne_zero
    split_ifs with hzero
    · decide
    · exact fun h => hzero (UInt32.toNat_inj.1 h)
  rw [hn] at hloop
  cases rounds with
  | nil => cases hloop
  | cons round rounds =>
    obtain ⟨out, hout, hpeeked⟩ := restart_sends hstart round
    simp only [runLoop] at hloop
    split_ifs at hloop with hmore
    · have hnot := hpeeked (.inr hmore)
      obtain ⟨rest, hr, hsent, hheaders⟩ := runLoop_sends hout.tracked hnot hloop
      refine ⟨out ++ rest, ⟨hr.held, hr.requeued, hr.peeked, hr.order⟩, ?_, ?_⟩
      · rw [← List.append_assoc, ← hout.sent]
        exact hsent
      · rw [List.forall_mem_append, iff_of_true (hheaders.2 (not_sendsPeeked hnot)) trivial,
          and_true]
        exact hout.headers
    · cases hloop
      exact ⟨out, ⟨hout.tracked.held, hout.tracked.requeued, hout.tracked.peeked,
        hout.tracked.order⟩, hout.sent, hout.headers⟩

/-! ### Runs -/

variable {e : QueueEvent D} {trace : List (QueueDisc D × QueueEvent D)}

/-- `Dequeue` is called from outside. -/
def IsDequeue : QueueEvent D → Prop
  | .dequeue _ => True
  | _ => False

/-- `Run` finds a packet under a peek, and the device takes it. -/
def RunsPeeked (p : QueueDisc D × QueueEvent D) : Prop :=
  match p.2 with
  | .run _ => SendsPeeked p.1
  | _ => False

theorem init_tracked {state : D.State} (hempty : D.holds state = [])
    (devQueueIface : Option NetDeviceQueueInterface) (quota : UInt32) :
    Tracked (init D state devQueueIface quota) := by
  refine ⟨?_, nofun, nofun, rfl⟩
  simp [init, hempty]

theorem peek_fields (q : QueueDisc D) (input : D.Input) :
    (q.peek input).2.2.running = q.running ∧ (q.peek input).2.2.sent = q.sent := by
  cases hpeek : D.doPeek with
  | some doPeek => constructor <;> simp only [peek, hpeek]
  | none =>
    cases hrequeued : q.requeued with
    | some item => constructor <;> simp only [peek, hpeek, hrequeued]
    | none =>
      rw [peek_eq hpeek hrequeued]
      exact ⟨rfl, rfl⟩

theorem run_running {rounds : List (QueueRound D)} (hrunning : q.running = false)
    (h : q.run rounds = some t) : t.running = false := by
  unfold run at h
  rw [hrunning, if_neg Bool.false_ne_true] at h
  obtain ⟨r, -, rfl⟩ := Option.map_eq_some_iff.1 h
  rfl

theorem step_tracked (hq : Tracked q) (hrunning : q.running = false) (he : ¬ IsDequeue e)
    (h : Step q e t) :
    t.running = false ∧ Tracked t ∧ (HeadersOnce q → (HeadersOnce t ↔ ¬ RunsPeeked (q, e))) := by
  cases e with
  | enqueue input uid size txQueueIndex =>
    cases h
    exact ⟨hrunning, enqueue_tracked hq input rfl, fun hgood => iff_of_true hgood not_false⟩
  | dequeue input => exact absurd trivial he
  | peek input =>
    cases h
    obtain ⟨hsame, hsent⟩ := peek_fields q input
    refine ⟨hsame.trans hrunning, peek_tracked hq input, fun hgood => iff_of_true ?_ not_false⟩
    rw [HeadersOnce, hsent]
    exact hgood
  | run rounds =>
    obtain ⟨out, ht, hsent, hheaders⟩ := run_sends hq hrunning h
    refine ⟨run_running hrunning h, ht, fun hgood => ?_⟩
    have hbefore : ∀ i ∈ q.sent, i.headers = 1 := hgood
    rw [HeadersOnce, hsent, List.forall_mem_append, iff_of_true hbefore trivial, true_and]
    exact hheaders
  | setTxQueues txQueues =>
    cases h
    exact ⟨hrunning, ⟨hq.held, hq.requeued, hq.peeked, hq.order⟩,
      fun hgood => iff_of_true hgood not_false⟩

/-- The packets are handed over in order in every state, and every packet has got its header once in
every state exactly if the device never takes a packet that is under a peek. -/
theorem headers_of_run {state : D.State} {devQueueIface : Option NetDeviceQueueInterface}
    {quota : UInt32} (hempty : D.holds state = [])
    (hrun : Run Step (init D state devQueueIface quota) trace q)
    (hroot : ∀ p ∈ trace, ¬ IsDequeue p.2) :
    ((∀ p ∈ trace, InOrder p.1) ∧ InOrder q) ∧
      (((∀ p ∈ trace, HeadersOnce p.1) ∧ HeadersOnce q) ↔ ∀ p ∈ trace, ¬ RunsPeeked p) := by
  have hinit : (init D state devQueueIface quota).running = false ∧
      Tracked (init D state devQueueIface quota) :=
    ⟨rfl, init_tracked hempty devQueueIface quota⟩
  have hstep : ∀ (s : QueueDisc D) e t, s.running = false ∧ Tracked s → ¬ IsDequeue e →
      Step s e t → t.running = false ∧ Tracked t := by
    intro s e t hs he hst
    obtain ⟨hrunning, ht, -⟩ := step_tracked hs.2 hs.1 he hst
    exact ⟨hrunning, ht⟩
  constructor
  · have ⟨htrace, hq⟩ := hrun.invariant_along
      (I := fun s => s.running = false ∧ Tracked s) hinit hstep hroot
    exact ⟨fun p hp => (htrace p hp).2.inOrder, hq.2.inOrder⟩
  · apply (hrun.restrict hroot).forall_iff HeadersOnce (fun s e => RunsPeeked (s, e))
    · exact fun i hi => absurd hi List.not_mem_nil
    · intro trace s e t hs hst hgood
      have hs' := hs.invariant (I := fun s => s.running = false ∧ Tracked s) hinit
        fun s e t hs hst => hstep s e t hs hst.2 hst.1
      exact (step_tracked hs'.2 hs'.1 hst.2 hst.1).2.2 hgood

/-- The second packet is requeued with its header, peeked at, and sent when its device queue is
woken. -/
theorem headers_woken : ∃ (trace : List (QueueDisc .dropTail × QueueEvent .dropTail))
    (q : QueueDisc .dropTail), q.sent = [⟨1, 40, 0, 1⟩, ⟨2, 50, 1, 1⟩] ∧
      ((∀ p ∈ trace, InOrder p.1) ∧ InOrder q) ∧
      (((∀ p ∈ trace, HeadersOnce p.1) ∧ HeadersOnce q) ↔ ∀ p ∈ trace, ¬ RunsPeeked p) := by
  have hrun : (Run.runOf apply (init .dropTail (9, []) (some ⟨[false, true]⟩) 64)
      [.enqueue () 1 40 0, .enqueue () 2 50 1, .run [⟨(), [false, true]⟩, ⟨(), [false, true]⟩],
        .peek (), .setTxQueues [false, false], .run [⟨(), [false, false]⟩]]).any
      (fun r => decide (r.2.sent = [⟨1, 40, 0, 1⟩, ⟨2, 50, 1, 1⟩])) = true := by
    decide +kernel
  obtain ⟨⟨trace, q⟩, hrun, hr⟩ := (Option.any_eq_true _ _).1 hrun
  have hroot : ∀ p ∈ trace, ¬ IsDequeue p.2 := by
    intro p hp
    have he := List.mem_map_of_mem (f := (·.2)) hp
    rw [Run.runOf_events hrun] at he
    revert he
    generalize p.2 = e
    simp only [List.mem_cons, List.not_mem_nil, or_false]
    rintro (rfl | rfl | rfl | rfl | rfl | rfl) <;> exact not_false
  exact ⟨trace, q, of_decide_eq_true hr,
    headers_of_run rfl (Run.of_runOf (fun _ _ _ h => h) hrun) hroot⟩

/-- A packet is peeked at and sent without a header. -/
theorem not_headersOnce_peek : ∃ (trace : List (QueueDisc .dropTail × QueueEvent .dropTail))
    (q : QueueDisc .dropTail), Run Step (init .dropTail (2, []) none 64) trace q ∧
      trace.map (·.2) = [.enqueue () 1 40 0, .peek (), .run [⟨(), []⟩]] ∧
      q.sent = [⟨1, 40, 0, 0⟩] ∧ ¬ HeadersOnce q := by
  have hrun : (Run.runOf apply (init .dropTail (2, []) none 64)
      [.enqueue () 1 40 0, .peek (), .run [⟨(), []⟩]]).any
      (fun r => decide (r.2.sent = [⟨1, 40, 0, 0⟩])) = true := by
    decide +kernel
  obtain ⟨⟨trace, q⟩, hrun, hr⟩ := (Option.any_eq_true _ _).1 hrun
  have hsent : q.sent = [⟨1, 40, 0, 0⟩] := of_decide_eq_true hr
  refine ⟨trace, q, Run.of_runOf (fun _ _ _ h => h) hrun, Run.runOf_events hrun, hsent, ?_⟩
  intro h
  exact absurd (h ⟨1, 40, 0, 0⟩ (hsent ▸ List.mem_singleton.2 rfl)) (by decide)

end QueueDisc

end SeanetSim
