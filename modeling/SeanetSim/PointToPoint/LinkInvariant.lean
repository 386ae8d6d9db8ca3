import SeanetSim.PointToPoint.PointToPointLink

/-!
# What every event of a link keeps

A device is busy exactly while one `TransmitComplete` is scheduled for it, and its queue is empty
when it is not.  The packets on the wire arrive in the order in which they were sent, since none is
sent before the one before it has left (`PointToPointLink.Side`).  A step takes packets from the
front and adds them at the end (`PointToPointLink.Effect`).
-/

namespace SeanetSim

namespace PointToPointLink

variable {ρ : Type} {limit : ℕ}

/-! ### The events of a direction -/

/-- When the transmission of a device ends. -/
def completions (i : Bool) (events : List (ℕ × LinkTimer)) : List ℕ :=
  events.filterMap fun e => if e.2 = .transmitComplete i then some e.1 else none

/-- What a timer brings to a device. -/
def arrivalAt (i : Bool) : ℕ × LinkTimer → Option (ℕ × List UInt8)
  | (ts, .receive d packet) => if d = i then some (ts, packet) else none
  | (_, .transmitComplete _) => none

/-- The packets on the way to a device. -/
def arrivals (i : Bool) (events : List (ℕ × LinkTimer)) : List (ℕ × List UInt8) :=
  events.filterMap (arrivalAt i)

theorem completions_append (i : Bool) (l₁ l₂ : List (ℕ × LinkTimer)) :
    completions i (l₁ ++ l₂) = completions i l₁ ++ completions i l₂ :=
  List.filterMap_append

theorem arrivals_append (i : Bool) (l₁ l₂ : List (ℕ × LinkTimer)) :
    arrivals i (l₁ ++ l₂) = arrivals i l₁ ++ arrivals i l₂ :=
  List.filterMap_append

theorem le_of_mem_arrivals {i : Bool} {events : List (ℕ × LinkTimer)} {t : ℕ}
    (h : ∀ e ∈ events, t ≤ e.1) : ∀ x ∈ arrivals i events, t ≤ x.1 := by
  intro x hx
  obtain ⟨⟨ts, timer⟩, he, hx⟩ := List.mem_filterMap.1 hx
  cases timer with
  | transmitComplete d => exact absurd hx (by simp [arrivalAt])
  | receive d packet =>
    rw [arrivalAt] at hx
    split at hx
    · obtain rfl := Option.some.inj hx
      exact h _ he
    · exact absurd hx (by simp)

theorem lt_of_mem_arrivals {i : Bool} {events : List (ℕ × LinkTimer)} {t : ℕ}
    (h : ∀ e ∈ events, t < e.1) : ∀ x ∈ arrivals i events, t < x.1 :=
  le_of_mem_arrivals (t := t + 1) h

/-! ### One direction -/

/-- A packet with a header. -/
def WellFormed (packet : List UInt8) : Prop := ∃ m, processPppHeader packet = some m

/-- The queue of a device and the packets that it has sent. -/
structure Path (limit : ℕ) (d : PointToPointNetDevice ρ) (arrivals : List (ℕ × List UInt8)) :
    Prop where
  queue : d.queue.Ok packetSize limit
  queued : ∀ packet ∈ d.queue.packets, WellFormed packet
  sent : ∀ x ∈ arrivals, WellFormed x.2
  sorted : arrivals.Pairwise fun x y => x.1 ≤ y.1

/-- A device that is ready has nothing to send; one that is busy is so until its transmission ends,
and what it has sent arrives no later than a delay after that. -/
def Side (limit delay now : ℕ) (d : PointToPointNetDevice ρ) (completions : List ℕ)
    (arrivals : List (ℕ × List UInt8)) : Prop :=
  Path limit d arrivals ∧
    ((d.txMachineState = .ready ∧ d.currentPkt = none ∧ d.queue.packets = [] ∧ completions = [] ∧
        ∀ x ∈ arrivals, x.1 ≤ now + delay) ∨
      ∃ t, d.txMachineState = .busy ∧ d.currentPkt.isSome = true ∧ completions = [t] ∧
        ∀ x ∈ arrivals, x.1 ≤ t + delay)

structure Ok (limit : ℕ) (l : PointToPointLink ρ) : Prop where
  events : ∀ e ∈ l.events, l.now ≤ e.1
  side : ∀ i, Side limit l.delay l.now (l.device i) (completions i l.events)
    (arrivals (!i) l.events)

variable {delay now : ℕ} {d : PointToPointNetDevice ρ} {done : List ℕ}
  {wire : List (ℕ × List UInt8)} {packet : List UInt8}

theorem Side.tick (h : Side limit delay now d done wire) {time : ℕ} (hle : now ≤ time) :
    Side limit delay time d done wire := by
  obtain ⟨hpath, ⟨hready, hnone, hempty, hdone, hwire⟩ | hbusy⟩ := h
  · exact ⟨hpath, .inl ⟨hready, hnone, hempty, hdone,
      fun x hx => (hwire x hx).trans (Nat.add_le_add_right hle delay)⟩⟩
  · exact ⟨hpath, .inr hbusy⟩

/-- The packet at the front of the wire arrives. -/
theorem Side.arrive {x : ℕ × List UInt8} (h : Side limit delay now d done (x :: wire)) :
    Side limit delay now d done wire := by
  have hsub : ∀ y ∈ wire, y ∈ x :: wire := fun y hy => List.mem_cons_of_mem x hy
  obtain ⟨⟨hqueue, hqueued, hsent, hsorted⟩, hstate⟩ := h
  refine ⟨⟨hqueue, hqueued, fun y hy => hsent y (hsub y hy), hsorted.of_cons⟩, ?_⟩
  rcases hstate with ⟨hready, hnone, hempty, hdone, hwire⟩ | ⟨t, hbusy, hsome, hdone, hwire⟩
  · exact .inl ⟨hready, hnone, hempty, hdone, fun y hy => hwire y (hsub y hy)⟩
  · exact .inr ⟨t, hbusy, hsome, hdone, fun y hy => hwire y (hsub y hy)⟩

/-- A device starts to transmit when all that it has sent arrives within a delay. -/
theorem Path.start (h : Path limit d wire) (hwire : ∀ x ∈ wire, x.1 ≤ now + delay)
    (hpacket : WellFormed packet) (txTime : ℕ) :
    Side limit delay now { d with txMachineState := .busy, currentPkt := some packet }
      [now + (txTime + d.tInterframeGap)] (wire ++ [(now + (txTime + delay), packet)]) := by
  have hlast : ∀ x ∈ wire, x.1 ≤ now + (txTime + delay) := fun x hx =>
    (hwire x hx).trans (by omega)
  refine ⟨⟨h.queue, h.queued, ?_, ?_⟩, .inr ⟨_, rfl, rfl, rfl, ?_⟩⟩
  · intro x hx
    rcases List.mem_append.1 hx with hx | hx
    · exact h.sent x hx
    · rw [List.mem_singleton.1 hx]
      exact hpacket
  · rw [List.pairwise_append]
    refine ⟨h.sorted, List.pairwise_singleton _ _, fun x hx y hy => ?_⟩
    rw [List.mem_singleton.1 hy]
    exact hlast x hx
  · intro x hx
    rcases List.mem_append.1 hx with hx | hx
    · exact (hlast x hx).trans (by omega)
    · rw [List.mem_singleton.1 hx]
      dsimp only
      omega

/-! ### What goes through a direction -/

/-- What a device has accepted and the other one has not received: first what is on the wire, then
what is queued. -/
def underWay (i : Bool) (l : PointToPointLink ρ) : List (Option (List UInt8 × UInt16)) :=
  ((arrivals (!i) l.events).map Prod.snd ++ (l.device i).queue.packets).map processPppHeader

/-- What a device accepts for sending. -/
def accepted (i : Bool) : LinkOutput → Option (List UInt8 × UInt16)
  | .accept d payload protocolNumber => if d = i then some (payload, protocolNumber) else none
  | _ => none

/-- What arrives at a device, corrupt or not. -/
def arrived (i : Bool) : LinkOutput → Option (Option (List UInt8 × UInt16))
  | .deliver d payload protocolNumber =>
    if d = i then some (some (payload, protocolNumber)) else none
  | .phyRxDrop d packet => if d = i then some (processPppHeader packet) else none
  | _ => none

/-- A step keeps the invariant and the order of what goes through. -/
structure Moves (limit : ℕ) (l l' : PointToPointLink ρ) (out : List LinkOutput) : Prop where
  ok : Ok limit l'
  flow : ∀ i, l.underWay i ++ (out.filterMap (accepted i)).map some =
    out.filterMap (arrived !i) ++ l'.underWay i

variable {l : PointToPointLink ρ} {i : Bool}

@[simp] theorem setDevice_device_self (l : PointToPointLink ρ) (i : Bool)
    (d : PointToPointNetDevice ρ) : (l.setDevice i d).device i = d := by
  simp [setDevice]

@[simp] theorem setDevice_device_not (l : PointToPointLink ρ) (i : Bool)
    (d : PointToPointNetDevice ρ) : (l.setDevice i d).device (!i) = l.device (!i) := by
  simp [setDevice]

/-- What holds of both directions, shown for that of a device and for the other one. -/
theorem forall_direction {P : Bool → Prop} (i : Bool) (h : P i) (hother : P (!i)) : ∀ j, P j := by
  intro j
  rcases Bool.eq_or_eq_not j i with rfl | rfl
  · exact h
  · exact hother

theorem underWay_setDevice_self (l : PointToPointLink ρ) (i : Bool) (d : PointToPointNetDevice ρ) :
    (l.setDevice i d).underWay i =
      ((arrivals (!i) l.events).map Prod.snd ++ d.queue.packets).map processPppHeader := by
  rw [underWay, setDevice_device_self]
  rfl

theorem underWay_setDevice_not (l : PointToPointLink ρ) (i : Bool) (d : PointToPointNetDevice ρ) :
    (l.setDevice i d).underWay (!i) = l.underWay !i := by
  rw [underWay, underWay, setDevice_device_not]
  rfl

/-- Only the device of one direction changes. -/
theorem ok_setDevice {d : PointToPointNetDevice ρ} (hevents : ∀ e ∈ l.events, l.now ≤ e.1)
    (hside : Side limit l.delay l.now d (completions i l.events) (arrivals (!i) l.events))
    (hother : Side limit l.delay l.now (l.device !i) (completions (!i) l.events)
      (arrivals i l.events)) : Ok limit (l.setDevice i d) where
  events := hevents
  side := by
    refine forall_direction i ?_ ?_
    · rw [setDevice_device_self]
      exact hside
    · rw [setDevice_device_not, Bool.not_not]
      exact hother

/-! ### The start of a transmission -/

/-- A link after `TransmitStart` by a device that was ready. -/
def started (l : PointToPointLink ρ) (i : Bool) (packet : List UInt8) (txTime : ℕ) :
    PointToPointLink ρ :=
  { l.setDevice i { l.device i with txMachineState := .busy, currentPkt := some packet } with
    events := l.events ++ [(l.now + (txTime + (l.device i).tInterframeGap), .transmitComplete i),
      (l.now + (txTime + l.delay), .receive (!i) packet)] }

variable {calculateBytesTxTime : ρ → ℕ → ℕ}

theorem transmitStart_eq (h : (l.device i).txMachineState = .ready) :
    l.transmitStart calculateBytesTxTime i packet =
      some (l.started i packet (calculateBytesTxTime (l.device i).bps packet.length)) := by
  simp [transmitStart, started, setDevice, h]

section Started

variable (l : PointToPointLink ρ) (i : Bool) (packet : List UInt8) (txTime : ℕ)

theorem started_completions_self : completions i (l.started i packet txTime).events =
    completions i l.events ++ [l.now + (txTime + (l.device i).tInterframeGap)] := by
  simp [started, completions]

theorem started_completions_not : completions (!i) (l.started i packet txTime).events =
    completions (!i) l.events := by
  simp [started, completions]

theorem started_arrivals_not : arrivals (!i) (l.started i packet txTime).events =
    arrivals (!i) l.events ++ [(l.now + (txTime + l.delay), packet)] := by
  simp [started, arrivals, arrivalAt, List.filterMap_cons]

theorem started_arrivals_self : arrivals i (l.started i packet txTime).events =
    arrivals i l.events := by
  simp [started, arrivals, arrivalAt]

theorem started_device_self : (l.started i packet txTime).device i =
    { l.device i with txMachineState := .busy, currentPkt := some packet } :=
  setDevice_device_self l i _

theorem started_device_not : (l.started i packet txTime).device (!i) = l.device !i :=
  setDevice_device_not l i _

theorem started_underWay_self : (l.started i packet txTime).underWay i =
    ((arrivals (!i) l.events).map Prod.snd ++ packet :: (l.device i).queue.packets).map
      processPppHeader := by
  rw [underWay, started_arrivals_not, started_device_self]
  simp

theorem started_underWay_not : (l.started i packet txTime).underWay (!i) = l.underWay !i := by
  rw [underWay, underWay, Bool.not_not, started_arrivals_self, started_device_not]

end Started

/-- A device that has sent nothing of late starts to transmit. -/
theorem ok_started (hevents : ∀ e ∈ l.events, l.now ≤ e.1)
    (hpath : Path limit (l.device i) (arrivals (!i) l.events))
    (hdone : completions i l.events = [])
    (hwire : ∀ x ∈ arrivals (!i) l.events, x.1 ≤ l.now + l.delay) (hpacket : WellFormed packet)
    (hother : Side limit l.delay l.now (l.device !i) (completions (!i) l.events)
      (arrivals i l.events)) (txTime : ℕ) : Ok limit (l.started i packet txTime) where
  events := by
    intro e he
    rcases List.mem_append.1 he with he | he
    · exact hevents e he
    · rw [List.mem_pair] at he
      rcases he with rfl | rfl <;> exact Nat.le_add_right _ _
  side := by
    refine forall_direction i ?_ ?_
    · rw [started_completions_self, started_arrivals_not, started_device_self, hdone]
      exact hpath.start hwire hpacket txTime
    · rw [started_completions_not, Bool.not_not, started_arrivals_self, started_device_not]
      exact hother

/-! ### The next event -/

/-- The link when the next event is invoked. -/
def advance (l : PointToPointLink ρ) (ts : ℕ) (events : List (ℕ × LinkTimer)) :
    PointToPointLink ρ :=
  { l with now := ts, events }

section Next

variable {ts : ℕ} {timer : LinkTimer} {pre post : List (ℕ × LinkTimer)}

/-- Nothing is skipped when the next event is taken. -/
theorem Ok.le_of_next (h : Ok limit l) (hl : l.events = pre ++ (ts, timer) :: post)
    (hpre : ∀ e ∈ pre, ts < e.1) (hpost : ∀ e ∈ post, ts ≤ e.1) :
    l.now ≤ ts ∧ ∀ e ∈ pre ++ post, ts ≤ e.1 := by
  refine ⟨h.events (ts, timer) (by simp [hl]), fun e he => ?_⟩
  rcases List.mem_append.1 he with he | he
  · exact (hpre e he).le
  · exact hpost e he

theorem completions_transmitComplete_self :
    completions i (pre ++ (ts, .transmitComplete i) :: post) =
      completions i pre ++ ts :: completions i post := by
  simp [completions]

theorem completions_transmitComplete_not :
    completions (!i) (pre ++ (ts, .transmitComplete i) :: post) =
      completions (!i) (pre ++ post) := by
  simp [completions]

theorem arrivals_transmitComplete (j : Bool) :
    arrivals j (pre ++ (ts, .transmitComplete i) :: post) = arrivals j (pre ++ post) := by
  simp [arrivals, arrivalAt, List.filterMap_cons]

theorem completions_receive (j : Bool) :
    completions j (pre ++ (ts, .receive i packet) :: post) = completions j (pre ++ post) := by
  simp [completions]

theorem arrivals_receive_self : arrivals i (pre ++ (ts, .receive i packet) :: post) =
    arrivals i pre ++ (ts, packet) :: arrivals i post := by
  simp [arrivals, arrivalAt]

theorem arrivals_receive_not :
    arrivals (!i) (pre ++ (ts, .receive i packet) :: post) = arrivals (!i) (pre ++ post) := by
  simp [arrivals, arrivalAt]

/-- What a device sees when its transmission ends. -/
theorem Ok.complete (h : Ok limit l) (hl : l.events = pre ++ (ts, .transmitComplete i) :: post) :
    (l.device i).txMachineState = .busy ∧ (l.device i).currentPkt.isSome = true ∧
      completions i (pre ++ post) = [] ∧ Path limit (l.device i) (arrivals (!i) (pre ++ post)) ∧
      ∀ x ∈ arrivals (!i) (pre ++ post), x.1 ≤ ts + l.delay := by
  have hside := h.side i
  rw [hl, completions_transmitComplete_self, arrivals_transmitComplete] at hside
  obtain ⟨hpath, ⟨-, -, -, hdone, -⟩ | ⟨t, hbusy, hsome, hdone, hwire⟩⟩ := hside
  · exact absurd hdone (by simp)
  · obtain ⟨hnil, hrest⟩ | ⟨hone, hnil⟩ := List.append_eq_singleton_iff.1 hdone
    · obtain ⟨rfl, hpost⟩ := List.cons.inj hrest
      exact ⟨hbusy, hsome, by rw [completions_append, hnil, hpost]; rfl, hpath, hwire⟩
    · exact absurd hnil (by simp)

/-- The packet that arrives is the first one on the wire. -/
theorem Ok.first (h : Ok limit l) (hl : l.events = pre ++ (ts, .receive i packet) :: post)
    (hpre : ∀ e ∈ pre, ts < e.1) :
    arrivals i l.events = (ts, packet) :: arrivals i (pre ++ post) := by
  have hsorted := (h.side !i).1.sorted
  rw [Bool.not_not, hl, arrivals_receive_self, List.pairwise_append] at hsorted
  have hnil : arrivals i pre = [] := by
    refine List.eq_nil_iff_forall_not_mem.2 fun x hx => ?_
    have hlt := lt_of_mem_arrivals hpre x hx
    have hle := hsorted.2.2 x hx (ts, packet) (List.mem_cons_self ..)
    exact absurd hlt (not_lt.2 hle)
  rw [hl, arrivals_receive_self, arrivals_append, hnil]
  rfl

/-! ### The steps -/

/-- The other direction does not notice that a transmission ends. -/
theorem Ok.other (h : Ok limit l) (hl : l.events = pre ++ (ts, .transmitComplete i) :: post)
    (hle : l.now ≤ ts) : Side limit l.delay ts (l.device !i) (completions (!i) (pre ++ post))
      (arrivals i (pre ++ post)) := by
  have hside := (h.side !i).tick hle
  rw [hl, completions_transmitComplete_not, arrivals_transmitComplete, Bool.not_not] at hside
  exact hside

theorem underWay_advance (hl : l.events = pre ++ (ts, .transmitComplete i) :: post) (j : Bool) :
    (l.advance ts (pre ++ post)).underWay j = l.underWay j := by
  rw [underWay, underWay, hl, arrivals_transmitComplete]
  rfl

/-- The end of a transmission. -/
theorem exists_transmitComplete (calculateBytesTxTime : ρ → ℕ → ℕ) (h : Ok limit l)
    (hl : l.events = pre ++ (ts, .transmitComplete i) :: post)
    (hpre : ∀ e ∈ pre, ts < e.1) (hpost : ∀ e ∈ post, ts ≤ e.1) :
    ∃ l', (l.advance ts (pre ++ post)).transmitComplete calculateBytesTxTime i = some l' ∧
      Moves limit l l' [] := by
  obtain ⟨hbusy, hsome, hdone, hpath, hwire⟩ := h.complete hl
  obtain ⟨hle, hevents⟩ := h.le_of_next hl hpre hpost
  have hother := h.other hl hle
  have hflow := fun j => underWay_advance hl j
  obtain ⟨hempty, hdeq⟩ | ⟨p, packets, queue, hqueue, hdeq, hok, hpackets⟩ :=
    DropTailQueue.dequeue_cases hpath.queue
  · -- Nothing is left to send.
    refine ⟨(l.advance ts (pre ++ post)).setDevice i
      { l.device i with txMachineState := .ready, currentPkt := none },
      by simp [transmitComplete, advance, hbusy, hsome, hdeq],
      ok_setDevice hevents ⟨⟨hpath.queue, hpath.queued, hpath.sent, hpath.sorted⟩,
        .inl ⟨rfl, rfl, hempty, hdone, hwire⟩⟩ hother, forall_direction i ?_ ?_⟩
    · rw [underWay_setDevice_self, ← hflow]
      exact List.append_nil _
    · rw [underWay_setDevice_not, hflow]
      exact List.append_nil _
  · -- The first of the queue is sent.
    have hpath' : Path limit { l.device i with
        txMachineState := .ready, currentPkt := none, queue } (arrivals (!i) (pre ++ post)) :=
      ⟨hok, fun q hq => hpath.queued q (by
        rw [hqueue]
        exact List.mem_cons_of_mem p (hpackets ▸ hq)), hpath.sent, hpath.sorted⟩
    have hp : WellFormed p := hpath.queued p (by simp [hqueue])
    refine ⟨((l.advance ts (pre ++ post)).setDevice i
      { l.device i with txMachineState := .ready, currentPkt := none, queue }).started i p
        (calculateBytesTxTime (l.device i).bps p.length), ?_, ?_, forall_direction i ?_ ?_⟩
    · simp [transmitComplete, transmitStart_eq, advance, hbusy, hsome, hdeq]
    · refine ok_started hevents ?_ hdone hwire hp ?_ _
      · rw [setDevice_device_self]
        exact hpath'
      · rw [setDevice_device_not]
        exact hother
    · rw [started_underWay_self, setDevice_device_self, ← hflow, underWay]
      change _ ++ [] = List.map processPppHeader (_ ++ p :: queue.packets)
      rw [List.append_nil, hpackets, ← hqueue]
      rfl
    · rw [started_underWay_not, underWay_setDevice_not, hflow]
      exact List.append_nil _

/-- The packet that arrives is the first one that is under way. -/
theorem moves_receive (h : Ok limit l) (hl : l.events = pre ++ (ts, .receive i packet) :: post)
    (hpre : ∀ e ∈ pre, ts < e.1) (hpost : ∀ e ∈ post, ts ≤ e.1) {out : List LinkOutput}
    (harrived : out.filterMap (arrived i) = [processPppHeader packet])
    (hnot : out.filterMap (arrived !i) = []) (haccepted : ∀ j, out.filterMap (accepted j) = []) :
    Moves limit l (l.advance ts (pre ++ post)) out := by
  obtain ⟨hle, hevents⟩ := h.le_of_next hl hpre hpost
  have hfirst := h.first hl hpre
  have hother : arrivals (!i) l.events = arrivals (!i) (pre ++ post) := by
    rw [hl, arrivals_receive_not]
  refine ⟨⟨hevents, forall_direction i ?_ ?_⟩, forall_direction i ?_ ?_⟩
  · have hside := (h.side i).tick hle
    rw [hl, completions_receive, arrivals_receive_not] at hside
    exact hside
  · have hside := (h.side !i).tick hle
    rw [Bool.not_not, hfirst, hl, completions_receive] at hside
    rw [Bool.not_not]
    exact hside.arrive
  · rw [haccepted, hnot, underWay, underWay, hother]
    exact List.append_nil _
  · rw [haccepted, Bool.not_not, harrived, underWay, underWay, Bool.not_not, hfirst]
    exact List.append_nil _

/-- An arrival. -/
theorem exists_receive (h : Ok limit l) (hl : l.events = pre ++ (ts, .receive i packet) :: post)
    (hpre : ∀ e ∈ pre, ts < e.1) (hpost : ∀ e ∈ post, ts ≤ e.1) (corrupt : Bool) :
    ∃ out, receive i packet corrupt = some out ∧
      Moves limit l (l.advance ts (pre ++ post)) out := by
  have hmem : (ts, packet) ∈ arrivals i l.events := by
    rw [h.first hl hpre]
    exact List.mem_cons_self ..
  have hwell := (h.side !i).1.sent (ts, packet) (by rwa [Bool.not_not])
  obtain ⟨⟨payload, protocol⟩, hm⟩ := hwell
  cases corrupt with
  | true =>
    exact ⟨_, rfl, moves_receive h hl hpre hpost (by simp [arrived]) (by simp [arrived])
      (by simp [accepted])⟩
  | false =>
    refine ⟨[.deliver i payload protocol], by simp [receive, hm], moves_receive h hl hpre hpost ?_
      (by simp [arrived]) (by simp [accepted])⟩
    simp [arrived, hm]

end Next

/-! ### A packet to send -/

theorem Path.enqueue (h : Path limit d wire) {queue : DropTailQueue (List UInt8)}
    (hqueue : queue.Ok packetSize limit) (hpackets : queue.packets = d.queue.packets ++ [packet])
    (hpacket : WellFormed packet) : Path limit { d with queue } wire where
  queue := hqueue
  queued := by
    intro q hq
    rw [hpackets] at hq
    rcases List.mem_append.1 hq with hq | hq
    · exact h.queued q hq
    · rw [List.mem_singleton.1 hq]
      exact hpacket
  sent := h.sent
  sorted := h.sorted

theorem Ok.side_not (h : Ok limit l) (i : Bool) : Side limit l.delay l.now (l.device !i)
    (completions (!i) l.events) (arrivals i l.events) := by
  have hside := h.side !i
  rwa [Bool.not_not] at hside

section Send

variable {payload : List UInt8} {protocolNumber : UInt16} {queue : DropTailQueue (List UInt8)}

/-- A packet that is dropped because the queue is full. -/
theorem moves_drop (h : Ok limit l) (i : Bool) (packet : List UInt8) :
    Moves limit l (l.setDevice i (l.device i)) [.macTxDrop i packet] := by
  refine ⟨ok_setDevice h.events (h.side i) (h.side_not i), forall_direction i ?_ ?_⟩
  · rw [underWay_setDevice_self]
    simp [accepted, arrived, underWay, List.filterMap_cons]
  · rw [underWay_setDevice_not]
    simp [accepted, arrived, List.filterMap_cons]

/-- A packet that waits for the end of a transmission. -/
theorem moves_wait (h : Ok limit l) (hbusy : (l.device i).txMachineState = .busy)
    (hok : queue.Ok packetSize limit)
    (hpackets : queue.packets = (l.device i).queue.packets ++ [packet])
    (hprocess : processPppHeader packet = some (payload, protocolNumber)) :
    Moves limit l (l.setDevice i { l.device i with queue })
      [.accept i payload protocolNumber] := by
  obtain ⟨hpath, ⟨hready, -⟩ | hstate⟩ := h.side i
  · exact absurd (hbusy.symm.trans hready) (by decide)
  · refine ⟨ok_setDevice h.events ⟨hpath.enqueue hok hpackets ⟨_, hprocess⟩, .inr hstate⟩
      (h.side_not i), forall_direction i ?_ ?_⟩
    · rw [underWay_setDevice_self, hpackets, underWay]
      simp [accepted, arrived, hprocess, List.filterMap_cons]
    · rw [underWay_setDevice_not]
      simp [accepted, arrived, List.filterMap_cons]

/-- A packet that a device sends at once, by way of its empty queue. -/
theorem moves_start (h : Ok limit l) (hready : (l.device i).txMachineState = .ready)
    (hok : queue.Ok packetSize limit) (hempty : queue.packets = [])
    (hprocess : processPppHeader packet = some (payload, protocolNumber)) (txTime : ℕ) :
    Moves limit l ((l.setDevice i { l.device i with queue }).started i packet txTime)
      [.accept i payload protocolNumber] := by
  obtain ⟨hpath, ⟨-, -, hqueue, hdone, hwire⟩ | ⟨t, hbusy, -⟩⟩ := h.side i
  · refine ⟨?_, forall_direction i ?_ ?_⟩
    · refine ok_started (l := l.setDevice i { l.device i with queue }) h.events ?_ hdone hwire
        ⟨_, hprocess⟩ ?_ txTime
      · rw [setDevice_device_self]
        exact ⟨hok, by simp [hempty], hpath.sent, hpath.sorted⟩
      · rw [setDevice_device_not]
        exact h.side_not i
    · rw [started_underWay_self, setDevice_device_self, hempty, underWay, hqueue]
      simp [accepted, arrived, hprocess, setDevice, List.filterMap_cons]
    · rw [started_underWay_not, underWay_setDevice_not]
      simp [accepted, arrived, List.filterMap_cons]
  · exact absurd (hbusy.symm.trans hready) (by decide)

theorem exists_send (calculateBytesTxTime : ρ → ℕ → ℕ) (h : Ok limit l)
    (hlen : payload.length + 2 ≤ limit) (htype : IsEtherType protocolNumber) :
    ∃ r, l.send calculateBytesTxTime i payload protocolNumber = some r ∧
      Moves limit l r.1 r.2 := by
  obtain ⟨packet, hadd, hlength, hprocess⟩ := exists_addPppHeader payload htype
  obtain ⟨hpath, hstate⟩ := h.side i
  have hlimit := hpath.queue.fits.limit_lt
  have hsize : (packetSize packet).toNat = payload.length + 2 := by
    rw [packetSize, UInt32.toNat_ofNat_of_lt' (hlength ▸ hlen.trans_lt hlimit), hlength]
  rcases DropTailQueue.enqueue_cases hpath.queue packet (by omega) (by omega) with
    hfull | ⟨queue, henq, hok, hpackets⟩
  · exact ⟨(l.setDevice i (l.device i), [.macTxDrop i packet]), by simp [send, hadd, hfull],
      moves_drop h i packet⟩
  · rcases hstate with ⟨hready, -, hempty, -⟩ | ⟨t, hbusy, -⟩
    · -- The queue holds this packet alone.
      rw [hempty, List.nil_append] at hpackets
      obtain ⟨hnil, -⟩ | ⟨first, rest, queue', hfirst, hdeq, hok', hrest⟩ :=
        DropTailQueue.dequeue_cases hok
      · exact absurd (hpackets.symm.trans hnil) (List.cons_ne_nil _ _)
      obtain ⟨rfl, rfl⟩ := List.cons.inj (hpackets.symm.trans hfirst)
      exact ⟨((l.setDevice i { l.device i with queue := queue' }).started i packet
        (calculateBytesTxTime (l.device i).bps packet.length),
          [.accept i payload protocolNumber]),
        by simp [send, transmitStart_eq, hadd, henq, hready, hdeq],
        moves_start h hready hok' hrest hprocess _⟩
    · exact ⟨(l.setDevice i { l.device i with queue }, [.accept i payload protocolNumber]),
        by simp [send, hadd, henq, hbusy], moves_wait h hbusy hok hpackets hprocess⟩

end Send

/-! ### Every event -/

theorem Moves.of_same {l' : PointToPointLink ρ} (h : Ok limit l')
    (hsame : ∀ j, l'.underWay j = l.underWay j) : Moves limit l l' [] where
  ok := h
  flow j := by
    rw [hsame j]
    exact List.append_nil _

/-- A change of the rate or the gap of a device. -/
theorem moves_configure (h : Ok limit l) {d : PointToPointNetDevice ρ}
    (hside : ∀ done wire, Side limit l.delay l.now (l.device i) done wire →
      Side limit l.delay l.now d done wire)
    (hqueue : d.queue = (l.device i).queue) : Moves limit l (l.setDevice i d) [] := by
  refine .of_same (ok_setDevice h.events (hside _ _ (h.side i)) (h.side_not i))
    (forall_direction i ?_ (underWay_setDevice_not l i d))
  rw [underWay_setDevice_self, hqueue]
  rfl

theorem exists_invoke (calculateBytesTxTime : ρ → ℕ → ℕ) (h : Ok limit l) (hne : l.events ≠ [])
    (corrupt : Bool) :
    ∃ r, l.next? calculateBytesTxTime (.next corrupt) = some r ∧ Moves limit l r.1 r.2 := by
  cases htake : takeNext l.events with
  | none => exact absurd (takeNext_eq_none htake) hne
  | some r =>
    obtain ⟨⟨ts, timer⟩, events⟩ := r
    obtain ⟨pre, post, hl, rfl, hpre, hpost⟩ := takeNext_eq_some htake
    cases timer with
    | transmitComplete i =>
      obtain ⟨l', hl', hmoves⟩ := exists_transmitComplete calculateBytesTxTime h hl hpre hpost
      rw [advance] at hl'
      exact ⟨(l', []), by simp [next?, invoke, htake, hl'], hmoves⟩
    | receive i packet =>
      obtain ⟨out, hout, hmoves⟩ := exists_receive h hl hpre hpost corrupt
      exact ⟨(l.advance ts (pre ++ post), out), by simp [next?, invoke, htake, hout, advance],
        hmoves⟩

/-- Every allowed event is handled, and keeps the invariant and the order. -/
theorem exists_next (calculateBytesTxTime : ρ → ℕ → ℕ) (h : Ok limit l) {input : LinkInput ρ}
    (hinput : l.Allowed limit input) :
    ∃ r, l.next? calculateBytesTxTime input = some r ∧ Moves limit l r.1 r.2 := by
  cases input with
  | tick time =>
    obtain ⟨hle, hevents⟩ := hinput
    exact ⟨({ l with now := time }, []), rfl,
      .of_same ⟨hevents, fun i => (h.side i).tick hle⟩ fun _ => rfl⟩
  | send i payload protocolNumber =>
    exact exists_send calculateBytesTxTime h hinput.1 hinput.2
  | next corrupt => exact exists_invoke calculateBytesTxTime h hinput corrupt
  | setDataRate i bps =>
    exact ⟨(l.setDevice i { l.device i with bps }, []), rfl,
      moves_configure h (fun _ _ ⟨hpath, hstate⟩ =>
        ⟨⟨hpath.queue, hpath.queued, hpath.sent, hpath.sorted⟩, hstate⟩) rfl⟩
  | setInterframeGap i gap =>
    exact ⟨(l.setDevice i { l.device i with tInterframeGap := gap }, []), rfl,
      moves_configure h (fun _ _ ⟨hpath, hstate⟩ =>
        ⟨⟨hpath.queue, hpath.queued, hpath.sent, hpath.sorted⟩, hstate⟩) rfl⟩

theorem ok_init {delay : ℕ} {bps : Bool → ρ} {gap : Bool → ℕ} {unit : Bool → QueueSizeUnit}
    {maxSize : Bool → UInt32}
    (hfits : ∀ i, (DropTailQueue.empty (unit i) (maxSize i) :
      DropTailQueue (List UInt8)).Fits limit) :
    Ok limit (init delay bps gap unit maxSize) where
  events := by simp [init]
  side i := ⟨⟨DropTailQueue.ok_empty (hfits i), by simp [init, DropTailQueue.empty],
    by simp [init, arrivals], List.Pairwise.nil⟩,
    .inl ⟨rfl, rfl, rfl, rfl, by simp [init, arrivals]⟩⟩

end PointToPointLink

end SeanetSim
