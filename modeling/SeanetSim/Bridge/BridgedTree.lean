import Mathlib.Combinatorics.SimpleGraph.Connectivity.Finite
import Mathlib.Data.List.Count
import SeanetSim.Bridge.BridgeNetDevice
import SeanetSim.Lib.Run
import SeanetSim.Lib.TreeSides

/-!
# Frames in a tree of bridges

Bridges and hosts are joined by links that form a tree; the ports of a bridge are named by the
nodes at the other ends of their links.  Each copy of a frame in flight is handled by the device at
the end of its link, in any order, and what a bridge has learned expires at any time.

At any time the copies of a frame on their way to a host and those that it has received are one
together, and what a bridge has learned leads towards the host.
-/

namespace SeanetSim

variable {V A : Type*}

/-- The links of bridges and hosts, and the addresses of their devices. -/
structure BridgedTree (V A : Type*) where
  graph : SimpleGraph V
  isTree : graph.IsTree
  ports : V → List V
  ports_nodup : ∀ v, (ports v).Nodup
  mem_ports : ∀ v p, p ∈ ports v ↔ graph.Adj v p
  isHost : V → Bool
  host_ports : ∀ h, isHost h → (ports h).length = 1
  /-- The address of a host's device or of a `BridgeNetDevice`. -/
  address : V → A
  /-- The address of the device that is the port of a bridge. -/
  portAddress : V → V → A
  broadcast : A
  isGroup : A → Bool
  address_inj : ∀ h v, isHost h → address v = address h → v = h
  portAddress_ne : ∀ h b p, isHost h → portAddress b p ≠ address h
  address_ne_broadcast : ∀ h, isHost h → address h ≠ broadcast
  address_not_group : ∀ h, isHost h → isGroup (address h) = false

/-- A frame; `uid` tells it from the others. -/
structure BridgedFrame (A : Type*) where
  uid : ℕ
  source : A
  destination : A
deriving DecidableEq, Repr

/-- A copy of a frame on the link between two nodes. -/
structure FrameCopy (V A : Type*) where
  sender : V
  receiver : V
  frame : BridgedFrame A

/-- The devices, and the frames that hosts have sent and received. -/
structure BridgedNetwork (V A : Type*) where
  now : ℕ
  bridges : V → BridgeNetDevice V A
  inFlight : List (FrameCopy V A)
  received : List (V × BridgedFrame A)
  sent : List (BridgedFrame A)

inductive BridgedEvent (V A : Type*)
  | send (host : V) (destination : A)
  | handle (i : ℕ)
  | advance (dt : ℕ)
  | setExpirationTime (bridge : V) (time : ℕ)

namespace BridgedTree

variable (net : BridgedTree V A) (y : BridgedNetwork V A)

/-- How the device with the address `own` classifies a frame. -/
def packetType [DecidableEq A] (own destination : A) : PacketType :=
  if destination = net.broadcast then .broadcast
  else if net.isGroup destination then .multicast
  else if destination = own then .host
  else .otherHost

/-- Nothing has been learned or sent yet. -/
def init (enableLearning : V → Bool) (expirationTime : V → ℕ) : BridgedNetwork V A :=
  { now := 0
    bridges := fun b =>
      ⟨net.address b, net.ports b, enableLearning b, expirationTime b, fun _ => none⟩
    inFlight := []
    received := []
    sent := [] }

def copies (sender : V) (frame : BridgedFrame A) (ports : List V) : List (FrameCopy V A) :=
  ports.map fun p => ⟨sender, p, frame⟩

def send (host : V) (destination : A) : BridgedNetwork V A :=
  let frame := ⟨y.sent.length, net.address host, destination⟩
  { y with
    inFlight := y.inFlight ++ copies host frame (net.ports host)
    sent := y.sent ++ [frame] }

section Arrivals

variable [DecidableEq V] [DecidableEq A]

/-- A copy arrives at a host, which takes it unless it is for another one. -/
def hostReceive (host : V) (frame : BridgedFrame A) : BridgedNetwork V A :=
  if net.packetType (net.address host) frame.destination ≠ .otherHost then
    { y with received := y.received ++ [(host, frame)] }
  else y

/-- A copy arrives at a bridge. -/
def bridgeReceive (bridge incomingPort : V) (frame : BridgedFrame A) : BridgedNetwork V A :=
  let (out, b) := (y.bridges bridge).receiveFromDevice y.now incomingPort frame.source
    frame.destination (net.packetType (net.portAddress bridge incomingPort) frame.destination)
  { y with
    bridges := Function.update y.bridges bridge b
    inFlight := y.inFlight ++ copies bridge frame out }

/-- A copy in flight arrives. -/
def handle (i : ℕ) : BridgedNetwork V A :=
  match y.inFlight[i]? with
  | some c =>
    let y := { y with inFlight := y.inFlight.eraseIdx i }
    if net.isHost c.receiver then net.hostReceive y c.receiver c.frame
    else net.bridgeReceive y c.receiver c.sender c.frame
  | none => y

def next : BridgedEvent V A → BridgedNetwork V A
  | .send host destination => net.send y host destination
  | .handle i => net.handle y i
  | .advance dt => { y with now := y.now + dt }
  | .setExpirationTime b time =>
    { y with
      bridges := Function.update y.bridges b { y.bridges b with expirationTime := time } }

end Arrivals

/-- Hosts send to hosts or broadcast. -/
def Enabled : BridgedEvent V A → Prop
  | .send host destination => net.isHost host = true ∧
      (destination = net.broadcast ∨ ∃ h, net.isHost h = true ∧ destination = net.address h)
  | .handle i => i < y.inFlight.length
  | .advance _ | .setExpirationTime _ _ => True

def Step [DecidableEq V] [DecidableEq A] (y : BridgedNetwork V A) (e : BridgedEvent V A)
    (z : BridgedNetwork V A) : Prop :=
  net.Enabled y e ∧ z = net.next y e

/-- The frame has been sent to the host by another one. -/
def IsFor (frame : BridgedFrame A) (host : V) : Prop :=
  net.isHost host = true ∧ frame.source ≠ net.address host ∧
    (frame.destination = net.broadcast ∨ frame.destination = net.address host)

instance [DecidableEq A] (frame : BridgedFrame A) (host : V) : Decidable (net.IsFor frame host) :=
  inferInstanceAs (Decidable (_ ∧ _))

/-- The step handles a copy of the frame. -/
def Handles [DecidableEq A] (frame : BridgedFrame A)
    (p : BridgedNetwork V A × BridgedEvent V A) : Bool :=
  match p.2 with
  | .handle i => p.1.inFlight[i]?.any fun c => c.frame = frame
  | _ => false

/-! ### Copies on their way -/

/-- An address is that of hosts that a port of `b` leads to. -/
def Towards (b : V) (address : A) (port : V) : Prop :=
  ∀ h, net.isHost h = true → address = net.address h → LeadsTo net.graph b port h

open scoped Classical in
/-- The copies of a frame that are on their way to a node. -/
noncomputable def onTheWay (frame : BridgedFrame A) (host : V) (l : List (FrameCopy V A)) : ℕ :=
  l.countP fun c => c.frame = frame ∧ LeadsTo net.graph c.sender c.receiver host

variable {net} {frame f : BridgedFrame A} {host b p q t : V}
  {l l' : List (FrameCopy V A)} {ports : List V}

theorem onTheWay_append : net.onTheWay f t (l ++ l') = net.onTheWay f t l + net.onTheWay f t l' :=
  List.countP_append

theorem onTheWay_perm (h : l.Perm l') : net.onTheWay f t l = net.onTheWay f t l' :=
  h.countP_eq _

theorem onTheWay_eq_zero (h : ∀ c ∈ l, c.frame ≠ f) : net.onTheWay f t l = 0 := by
  classical
  exact List.countP_eq_zero.2 fun c hc hway => h c hc (of_decide_eq_true hway).1

open scoped Classical in
theorem onTheWay_copies (hnodup : ports.Nodup) :
    net.onTheWay frame t (copies b frame ports) =
      if ∃ p ∈ ports, LeadsTo net.graph b p t then 1 else 0 := by
  rw [onTheWay, copies, List.countP_map, ← countP_leadsTo net.isTree hnodup]
  refine List.countP_congr fun p _ => ?_
  simp

theorem onTheWay_copies_of_ne (hne : frame ≠ f) : net.onTheWay f t (copies b frame ports) = 0 := by
  apply onTheWay_eq_zero
  intro c hc
  obtain ⟨p, -, rfl⟩ := List.mem_map.1 hc
  exact hne

/-- A host has one link. -/
theorem ports_host (hhost : net.isHost host = true) :
    ∃ p, net.ports host = [p] ∧ net.graph.Adj host p := by
  obtain ⟨p, hp⟩ := List.length_eq_one_iff.1 (net.host_ports host hhost)
  exact ⟨p, hp, (net.mem_ports host p).1 (hp ▸ List.mem_singleton_self p)⟩

theorem eq_of_adj_host (hhost : net.isHost host = true) (hp : net.graph.Adj host p)
    (hq : net.graph.Adj host q) : p = q := by
  obtain ⟨r, hr, -⟩ := ports_host hhost
  rw [← net.mem_ports, hr, List.mem_singleton] at hp hq
  rw [hp, hq]

variable [DecidableEq V]

/-- A copy that a bridge gets on its way to a host goes on through one port that leads to it. -/
theorem out_spec {copy : FrameCopy V A} {out : List V}
    (hadj : net.graph.Adj copy.sender copy.receiver)
    (hbridge : net.isHost copy.receiver = false)
    (hout : out = (net.ports copy.receiver).filter (fun p => p ≠ copy.sender) ∨
      ∃ p h₁, out = [p] ∧ p ≠ copy.sender ∧ net.isHost h₁ = true ∧
        copy.frame.destination = net.address h₁ ∧ LeadsTo net.graph copy.receiver p h₁) :
    out.Nodup ∧ (∀ p ∈ out, p ≠ copy.sender ∧ net.graph.Adj copy.receiver p) ∧
      ∀ t, net.IsFor copy.frame t → ((∃ p ∈ out, LeadsTo net.graph copy.receiver p t) ↔
        LeadsTo net.graph copy.sender copy.receiver t) := by
  have hback : (∀ p ∈ out, p ≠ copy.sender ∧ net.graph.Adj copy.receiver p) → ∀ t,
      (∃ p ∈ out, LeadsTo net.graph copy.receiver p t) →
        LeadsTo net.graph copy.sender copy.receiver t := by
    rintro hports t ⟨p, hp, hlead⟩
    exact .trans net.isTree hadj hlead (hports p hp).1
  have hforth : ∀ t, net.IsFor copy.frame t → LeadsTo net.graph copy.sender copy.receiver t →
      ∃ q, q ≠ copy.sender ∧ LeadsTo net.graph copy.receiver q t := by
    intro t ht hlead
    apply hlead.exists_next net.isTree
    rintro rfl
    rw [ht.1] at hbridge
    cases hbridge
  rcases hout with rfl | ⟨p, h₁, rfl, hp, hhost₁, hdestination, hlead₁⟩
  · have hports : ∀ p ∈ (net.ports copy.receiver).filter (fun p => p ≠ copy.sender),
        p ≠ copy.sender ∧ net.graph.Adj copy.receiver p := by
      intro p hp
      obtain ⟨hp, hne⟩ := List.mem_filter.1 hp
      exact ⟨of_decide_eq_true hne, (net.mem_ports _ p).1 hp⟩
    refine ⟨(net.ports_nodup _).filter _, hports, fun t ht => ⟨hback hports t, fun hlead => ?_⟩⟩
    obtain ⟨q, hq, hnext⟩ := hforth t ht hlead
    refine ⟨q, List.mem_filter.2 ⟨(net.mem_ports _ q).2 hnext.adj, decide_eq_true hq⟩, hnext⟩
  · have hports : ∀ q ∈ [p], q ≠ copy.sender ∧ net.graph.Adj copy.receiver q := by
      intro q hq
      rw [List.mem_singleton.1 hq]
      exact ⟨hp, hlead₁.adj⟩
    refine ⟨List.nodup_singleton p, hports, fun t ht => ⟨hback hports t, fun _ => ?_⟩⟩
    have heq : net.address t = net.address h₁ := by
      rcases ht.2.2 with hbroadcast | heq
      · exact absurd (hdestination.symm.trans hbroadcast) (net.address_ne_broadcast h₁ hhost₁)
      · exact heq.symm.trans hdestination
    obtain rfl := net.address_inj h₁ t hhost₁ heq
    exact ⟨p, List.mem_singleton_self p, hlead₁⟩

variable [DecidableEq A]

omit [DecidableEq V] in
theorem packetType_host (hhost : net.isHost host = true) (own : A) :
    net.packetType own (net.address host) =
      if net.address host = own then .host else .otherHost := by
  rw [packetType, if_neg (net.address_ne_broadcast host hhost), net.address_not_group host hhost]
  rfl

omit [DecidableEq V] in
theorem packetType_broadcast (own : A) : net.packetType own net.broadcast = .broadcast :=
  if_pos rfl

/-- What holds of a network at any time. -/
structure Sound (net : BridgedTree V A) (y : BridgedNetwork V A) : Prop where
  address_eq : ∀ b, (y.bridges b).address = net.address b
  ports_eq : ∀ b, (y.bridges b).ports = net.ports b
  learned : ∀ b, BridgeNetDevice.Learned (net.Towards b) (y.bridges b)
  uid_lt : ∀ f ∈ y.sent, f.uid < y.sent.length
  destination : ∀ f ∈ y.sent,
    f.destination = net.broadcast ∨ ∃ h, net.isHost h = true ∧ f.destination = net.address h
  flight : ∀ c ∈ y.inFlight, c.frame ∈ y.sent ∧ ∃ h, net.isHost h = true ∧
    c.frame.source = net.address h ∧ LeadsTo net.graph c.receiver c.sender h
  received : ∀ r ∈ y.received, r.2 ∈ y.sent ∧ net.IsFor r.2 r.1
  once : ∀ f ∈ y.sent, ∀ host, net.IsFor f host →
    y.received.count (host, f) + net.onTheWay f host y.inFlight = 1

variable {y : BridgedNetwork V A}

namespace Sound

variable (h : net.Sound y)
include h

/-- A new frame is on its way to all other hosts. -/
theorem send {destination : A} (hhost : net.isHost host = true)
    (hdestination : destination = net.broadcast ∨
      ∃ h, net.isHost h = true ∧ destination = net.address h) :
    net.Sound (net.send y host destination) := by
  obtain ⟨p, hp, hadj⟩ := ports_host hhost
  have hnew : ⟨y.sent.length, net.address host, destination⟩ ∉ y.sent := fun hmem =>
    (h.uid_lt _ hmem).false
  have hsent : ∀ f ∈ y.sent, f ∈ (net.send y host destination).sent := fun f hf =>
    List.mem_append_left _ hf
  refine ⟨h.address_eq, h.ports_eq, h.learned, fun f hf => ?_, fun f hf => ?_, fun c hc => ?_,
    fun r hr => ?_, fun f hf t ht => ?_⟩
  · rcases List.mem_append.1 hf with hf | hf
    · have := h.uid_lt f hf
      simp only [BridgedTree.send, List.length_append, List.length_singleton]
      omega
    · rw [List.mem_singleton.1 hf]
      simp [BridgedTree.send]
  · rcases List.mem_append.1 hf with hf | hf
    · exact h.destination f hf
    · rw [List.mem_singleton.1 hf]
      exact hdestination
  · rcases List.mem_append.1 hc with hc | hc
    · exact ⟨hsent _ (h.flight c hc).1, (h.flight c hc).2⟩
    · obtain ⟨q, hq, rfl⟩ := List.mem_map.1 hc
      refine ⟨List.mem_append_right _ (List.mem_singleton_self _), host, hhost, rfl, ?_⟩
      exact .self ((net.mem_ports host q).1 hq).symm
  · exact ⟨hsent _ (h.received r hr).1, (h.received r hr).2⟩
  · have hway : net.onTheWay f t (net.send y host destination).inFlight = _ := onTheWay_append
    rw [hway]
    rcases List.mem_append.1 hf with hf | hf
    · have hne : ⟨y.sent.length, net.address host, destination⟩ ≠ f := fun heq => hnew (heq ▸ hf)
      rw [onTheWay_copies_of_ne hne]
      exact h.once f hf t ht
    · obtain rfl := List.mem_singleton.1 hf
      have hne : host ≠ t := by
        rintro rfl
        exact ht.2.1 rfl
      have hcount : y.received.count (t, ⟨y.sent.length, net.address host, destination⟩) = 0 :=
        List.count_eq_zero.2 fun hmem => hnew (h.received _ hmem).1
      obtain ⟨q, hq⟩ := LeadsTo.exists_of_ne net.isTree hne
      have hlead : ∃ p ∈ net.ports host, LeadsTo net.graph host p t :=
        ⟨q, (net.mem_ports host q).2 hq.adj, hq⟩
      have hold : net.onTheWay ⟨y.sent.length, net.address host, destination⟩ t y.inFlight = 0 :=
        onTheWay_eq_zero fun c hc heq => hnew (heq ▸ (h.flight c hc).1)
      rw [onTheWay_copies (net.ports_nodup host), if_pos hlead, hold]
      exact congrArg (· + 1) hcount

section Arrival

variable {copy : FrameCopy V A} {rest : List (FrameCopy V A)}
  (hperm : (copy :: rest).Perm y.inFlight)
include hperm

/-- A copy comes from the side of its source. -/
theorem source_copy : copy.frame ∈ y.sent ∧
    net.Towards copy.receiver copy.frame.source copy.sender ∧
    copy.frame.source ≠ net.address copy.receiver ∧ net.graph.Adj copy.sender copy.receiver := by
  obtain ⟨hsent, h₀, hhost₀, hsource, hlead⟩ := h.flight copy (hperm.subset List.mem_cons_self)
  refine ⟨hsent, fun h' hhost' hsource' => ?_, fun heq => ?_, hlead.adj.symm⟩
  · rw [← net.address_inj h' h₀ hhost' (hsource.symm.trans hsource')]
    exact hlead
  · exact hlead.ne_self (net.address_inj h₀ _ hhost₀ (heq.symm.trans hsource)).symm

theorem flight_rest : ∀ c ∈ rest, c.frame ∈ y.sent ∧ ∃ h, net.isHost h = true ∧
    c.frame.source = net.address h ∧ LeadsTo net.graph c.receiver c.sender h :=
  fun c hc => h.flight c (hperm.subset (List.mem_cons_of_mem _ hc))

omit h [DecidableEq V] in
open scoped Classical in
theorem onTheWay_inFlight (f : BridgedFrame A) (t : V) : net.onTheWay f t y.inFlight =
    net.onTheWay f t rest +
      if copy.frame = f ∧ LeadsTo net.graph copy.sender copy.receiver t then 1 else 0 := by
  rw [← onTheWay_perm hperm, onTheWay, List.countP_cons, onTheWay]
  simp only [decide_eq_true_iff]

/-- A host takes the frames that are for it. -/
theorem packetType_ne_iff (hhost : net.isHost copy.receiver = true) :
    net.packetType (net.address copy.receiver) copy.frame.destination ≠ .otherHost ↔
      net.IsFor copy.frame copy.receiver := by
  obtain ⟨hsent, -, hsource, -⟩ := h.source_copy hperm
  simp only [IsFor, hhost, hsource, ne_eq, not_false_eq_true, true_and]
  rcases h.destination _ hsent with hdestination | ⟨h₁, hhost₁, hdestination⟩
  · rw [hdestination, packetType_broadcast]
    simp
  · have hne := net.address_ne_broadcast h₁ hhost₁
    rw [hdestination, packetType_host hhost₁]
    split_ifs with heq <;> simp [heq, hne]

/-- The copy that a host gets is the last one on its way to it. -/
theorem hostReceive (hhost : net.isHost copy.receiver = true) :
    net.Sound (net.hostReceive { y with inFlight := rest } copy.receiver copy.frame) := by
  obtain ⟨hsent, -, -, hadj⟩ := h.source_copy hperm
  have hflight := h.flight_rest hperm
  have hlast : ∀ t, LeadsTo net.graph copy.sender copy.receiver t ↔ copy.receiver = t := by
    intro t
    constructor
    · intro hlead
      by_contra hne
      obtain ⟨q, hq, hnext⟩ := hlead.exists_next net.isTree hne
      exact hq (eq_of_adj_host hhost hnext.adj hadj.symm)
    · rintro rfl
      exact .self hadj
  have hold : ∀ f ∈ y.sent, ∀ t, net.IsFor f t → y.received.count (t, f) +
      (net.onTheWay f t rest + if copy.frame = f ∧ copy.receiver = t then 1 else 0) = 1 := by
    intro f hf t ht
    have hold := h.once f hf t ht
    rw [onTheWay_inFlight hperm f t] at hold
    simpa only [hlast] using hold
  rw [BridgedTree.hostReceive, ite_congr (propext (h.packetType_ne_iff hperm hhost))
    (fun _ => rfl) fun _ => rfl]
  split_ifs with hfor
  · refine ⟨h.address_eq, h.ports_eq, h.learned, h.uid_lt, h.destination, hflight, fun r hr => ?_,
      fun f hf t ht => ?_⟩
    · rcases List.mem_append.1 hr with hr | hr
      · exact h.received r hr
      · rw [List.mem_singleton.1 hr]
        exact ⟨hsent, hfor⟩
    · have hold := hold f hf t ht
      rw [List.count_append, List.count_singleton]
      simp only [beq_iff_eq, Prod.mk.injEq, and_comm (a := copy.receiver = t)]
      omega
  · refine ⟨h.address_eq, h.ports_eq, h.learned, h.uid_lt, h.destination, hflight, h.received,
      fun f hf t ht => ?_⟩
    have hold := hold f hf t ht
    rw [if_neg] at hold
    · exact hold
    · rintro ⟨rfl, rfl⟩
      exact hfor ht

/-- A bridge sends a copy through all other ports, or through the one for its destination. -/
theorem receive_cases (hbridge : net.isHost copy.receiver = false) :
    let out := ((y.bridges copy.receiver).receiveFromDevice y.now copy.sender copy.frame.source
      copy.frame.destination (net.packetType (net.portAddress copy.receiver copy.sender)
        copy.frame.destination)).1
    out = (net.ports copy.receiver).filter (fun p => p ≠ copy.sender) ∨
      ∃ p h₁, out = [p] ∧ p ≠ copy.sender ∧ net.isHost h₁ = true ∧
        copy.frame.destination = net.address h₁ ∧ LeadsTo net.graph copy.receiver p h₁ := by
  obtain ⟨hsent, hsource, -, -⟩ := h.source_copy hperm
  have hother : (y.bridges copy.receiver).otherPorts copy.sender =
      (net.ports copy.receiver).filter fun p => p ≠ copy.sender := by
    rw [BridgeNetDevice.otherPorts, h.ports_eq]
  rcases h.destination _ hsent with hdestination | ⟨h₁, hhost₁, hdestination⟩
  · left
    rw [hdestination, packetType_broadcast, ← hother]
    have hkeeps : BridgeNetDevice.Keeps (net.Towards copy.receiver) (y.bridges copy.receiver)
        ((y.bridges copy.receiver).learn y.now copy.frame.source copy.sender) :=
      BridgeNetDevice.keeps_learn hsource
    rw [BridgeNetDevice.receiveFromDevice, BridgeNetDevice.forwardBroadcast,
      BridgeNetDevice.otherPorts, hkeeps.ports_eq]
    rfl
  · have hport := net.portAddress_ne h₁ copy.receiver copy.sender hhost₁
    have hself : copy.frame.destination ≠ (y.bridges copy.receiver).address := by
      rw [hdestination, h.address_eq]
      intro heq
      rw [net.address_inj h₁ copy.receiver hhost₁ heq.symm, hhost₁] at hbridge
      cases hbridge
    have htype : net.packetType (net.portAddress copy.receiver copy.sender)
        copy.frame.destination = .otherHost := by
      rw [hdestination, packetType_host hhost₁, if_neg hport.symm]
    rw [htype, BridgeNetDevice.receiveFromDevice, if_neg hself, ← hother]
    apply (BridgeNetDevice.forwardUnicast_cases (h.learned _) hsource).imp_right
    rintro ⟨p, hp, hgood, hout⟩
    exact ⟨p, h₁, hout, hp, hhost₁, hdestination, hgood h₁ hhost₁ hdestination⟩

theorem bridgeReceive (hbridge : net.isHost copy.receiver = false) :
    net.Sound (net.bridgeReceive { y with inFlight := rest } copy.receiver copy.sender
      copy.frame) := by
  obtain ⟨hsent, hsource, -, hadj⟩ := h.source_copy hperm
  obtain ⟨-, h₀, hhost₀, hsource₀, hlead₀⟩ := h.flight copy (hperm.subset List.mem_cons_self)
  have hcases := h.receive_cases hperm hbridge
  have hkeeps : BridgeNetDevice.Keeps (net.Towards copy.receiver) (y.bridges copy.receiver)
      ((y.bridges copy.receiver).receiveFromDevice y.now copy.sender copy.frame.source
        copy.frame.destination (net.packetType (net.portAddress copy.receiver copy.sender)
          copy.frame.destination)).2 := BridgeNetDevice.keeps_receiveFromDevice hsource _
  rw [BridgedTree.bridgeReceive]
  generalize (y.bridges copy.receiver).receiveFromDevice y.now copy.sender copy.frame.source
    copy.frame.destination (net.packetType (net.portAddress copy.receiver copy.sender)
      copy.frame.destination) = r at hcases hkeeps ⊢
  obtain ⟨out, b⟩ := r
  simp only at hcases hkeeps ⊢
  obtain ⟨hnodup, hports, hway⟩ := out_spec hadj hbridge hcases
  refine ⟨?_, ?_, ?_, h.uid_lt, h.destination, fun c hc => ?_, h.received, fun f hf t ht => ?_⟩
  · exact (Function.forall_update_iff _ fun v (b : BridgeNetDevice V A) =>
      b.address = net.address v).2
      ⟨hkeeps.address_eq.trans (h.address_eq _), fun v _ => h.address_eq v⟩
  · exact (Function.forall_update_iff _ fun v (b : BridgeNetDevice V A) =>
      b.ports = net.ports v).2
      ⟨hkeeps.ports_eq.trans (h.ports_eq _), fun v _ => h.ports_eq v⟩
  · exact (Function.forall_update_iff _ fun v b => BridgeNetDevice.Learned (net.Towards v) b).2
      ⟨hkeeps.learned (h.learned _), fun v _ => h.learned v⟩
  · rcases List.mem_append.1 hc with hc | hc
    · exact h.flight_rest hperm c hc
    · obtain ⟨p, hp, rfl⟩ := List.mem_map.1 hc
      obtain ⟨hne, hadj'⟩ := hports p hp
      exact ⟨hsent, h₀, hhost₀, hsource₀, hlead₀.away net.isTree hadj' hne⟩
  · have hold := h.once f hf t ht
    rw [onTheWay_inFlight hperm] at hold
    rw [onTheWay_append]
    by_cases hframe : copy.frame = f
    · subst hframe
      rw [onTheWay_copies hnodup]
      by_cases hlead : LeadsTo net.graph copy.sender copy.receiver t
      · rw [if_pos ⟨rfl, hlead⟩] at hold
        rw [if_pos ((hway t ht).2 hlead)]
        exact hold
      · rw [if_neg fun hway => hlead hway.2] at hold
        rw [if_neg (mt (hway t ht).1 hlead)]
        exact hold
    · rw [onTheWay_copies_of_ne hframe]
      simpa only [hframe, false_and, if_false] using hold

end Arrival

theorem handle {i : ℕ} (hi : i < y.inFlight.length) : net.Sound (net.handle y i) := by
  have hperm := List.getElem_cons_eraseIdx_perm hi
  rw [BridgedTree.handle, List.getElem?_eq_getElem hi]
  cases hhost : net.isHost y.inFlight[i].receiver with
  | true =>
    simp only [hhost, if_true]
    exact h.hostReceive hperm hhost
  | false =>
    simp only [hhost, Bool.false_eq_true, if_false]
    exact h.bridgeReceive hperm hhost

theorem step {e : BridgedEvent V A} {z : BridgedNetwork V A} (hst : net.Step y e z) :
    net.Sound z := by
  obtain ⟨henabled, rfl⟩ := hst
  cases e with
  | send host destination => exact h.send henabled.1 henabled.2
  | handle i => exact h.handle henabled
  | advance dt =>
    exact ⟨h.address_eq, h.ports_eq, h.learned, h.uid_lt, h.destination, h.flight, h.received,
      h.once⟩
  | setExpirationTime b time =>
    refine ⟨?_, ?_, ?_, h.uid_lt, h.destination, h.flight, h.received, h.once⟩
    · exact (Function.forall_update_iff _ fun v (b : BridgeNetDevice V A) =>
      b.address = net.address v).2
        ⟨h.address_eq b, fun v _ => h.address_eq v⟩
    · exact (Function.forall_update_iff _ fun v (b : BridgeNetDevice V A) =>
      b.ports = net.ports v).2
        ⟨h.ports_eq b, fun v _ => h.ports_eq v⟩
    · exact (Function.forall_update_iff _ fun v b => BridgeNetDevice.Learned (net.Towards v) b).2
        ⟨h.learned b, fun v _ => h.learned v⟩

end Sound

theorem sound_init (enableLearning : V → Bool) (expirationTime : V → ℕ) :
    net.Sound (net.init enableLearning expirationTime) where
  address_eq _ := rfl
  ports_eq _ := rfl
  learned _ _ _ hstate := by cases hstate
  uid_lt _ hf := absurd hf List.not_mem_nil
  destination _ hf := absurd hf List.not_mem_nil
  flight _ hc := absurd hc List.not_mem_nil
  received _ hr := absurd hr List.not_mem_nil
  once _ hf := absurd hf List.not_mem_nil

/-! ### How many copies of a frame there are -/

section Weight

variable [Fintype V]

/-- How many nodes the copies of a frame in flight may still reach. -/
noncomputable def weight (net : BridgedTree V A) (f : BridgedFrame A)
    (l : List (FrameCopy V A)) : ℕ :=
  (l.map fun c => if c.frame = f then (side net.graph c.sender c.receiver).card else 0).sum

omit [DecidableEq V]

theorem weight_append : net.weight f (l ++ l') = net.weight f l + net.weight f l' := by
  rw [weight, List.map_append, List.sum_append]
  rfl

theorem weight_perm (h : l.Perm l') : net.weight f l = net.weight f l' :=
  (h.map _).sum_eq

theorem weight_copies :
    net.weight f (copies b frame ports) =
      if frame = f then (ports.map fun p => (side net.graph b p).card).sum else 0 := by
  rw [weight, copies, List.map_map]
  split_ifs with heq
  · simp [Function.comp_def, heq]
  · simp [Function.comp_def, heq]

theorem weight_eq_zero (h : ∀ c ∈ l, c.frame ≠ f) : net.weight f l = 0 := by
  refine List.sum_eq_zero fun n hn => ?_
  obtain ⟨c, hc, rfl⟩ := List.mem_map.1 hn
  exact if_neg (h c hc)

end Weight

section Bound

variable [Fintype V]

/-- Handling a copy leaves fewer nodes for the frame to reach. -/
theorem weight_handle (h : net.Sound y) {i : ℕ} (hi : i < y.inFlight.length)
    (f : BridgedFrame A) : net.weight f (net.handle y i).inFlight +
      (if y.inFlight[i].frame = f then 1 else 0) ≤ net.weight f y.inFlight := by
  have hperm := List.getElem_cons_eraseIdx_perm hi
  obtain ⟨-, -, -, hadj⟩ := h.source_copy hperm
  rw [← weight_perm hperm, BridgedTree.handle, List.getElem?_eq_getElem hi]
  generalize y.inFlight[i] = copy at hperm hadj ⊢
  have hcons : net.weight f (copy :: y.inFlight.eraseIdx i) =
      (if copy.frame = f then (side net.graph copy.sender copy.receiver).card else 0) +
        net.weight f (y.inFlight.eraseIdx i) := List.sum_cons
  have hpos : 0 < (side net.graph copy.sender copy.receiver).card :=
    Finset.card_pos.2 ⟨_, mem_side.2 (.self hadj)⟩
  rw [hcons]
  cases hhost : net.isHost copy.receiver with
  | true =>
    simp only [hhost, if_true]
    have hrest : (net.hostReceive { y with inFlight := y.inFlight.eraseIdx i } copy.receiver
        copy.frame).inFlight = y.inFlight.eraseIdx i := by
      unfold hostReceive
      split_ifs <;> rfl
    rw [hrest]
    split_ifs <;> omega
  | false =>
    simp only [hhost, Bool.false_eq_true, if_false]
    obtain ⟨hnodup, hports, -⟩ := out_spec hadj hhost (h.receive_cases hperm hhost)
    have hlt := sum_card_side_lt net.isTree hadj hnodup fun hmem => (hports _ hmem).1 rfl
    simp only [bridgeReceive, weight_append, weight_copies]
    split_ifs <;> omega

/-- No frame is handled more often than there are nodes. -/
theorem handles_le {enableLearning : V → Bool} {expirationTime : V → ℕ}
    {trace : List (BridgedNetwork V A × BridgedEvent V A)} {z : BridgedNetwork V A}
    (h : Run net.Step (net.init enableLearning expirationTime) trace z) (f : BridgedFrame A) :
    net.Sound z ∧ (f ∉ z.sent → trace.countP (Handles f) = 0) ∧
      trace.countP (Handles f) + net.weight f z.inFlight ≤ Fintype.card V := by
  induction h with
  | nil => exact ⟨sound_init _ _, fun _ => rfl, Nat.zero_le _⟩
  | snoc hrun hst ih =>
    rename_i trace s z e
    obtain ⟨hs, hunsent, hle⟩ := ih
    have hz := hs.step hst
    obtain ⟨henabled, rfl⟩ := hst
    rw [List.countP_append, List.countP_singleton]
    refine ⟨hz, ?_⟩
    cases e with
    | send host destination =>
      obtain ⟨p, hp, -⟩ := ports_host henabled.1
      have hweight : net.weight f (net.send s host destination).inFlight = _ := weight_append
      rw [show Handles f (s, .send host destination) = false from rfl, next, hweight, weight_copies,
        hp]
      simp only [Bool.false_eq_true, if_false, Nat.add_zero]
      refine ⟨fun hf => hunsent fun hmem => hf (List.mem_append_left _ hmem), ?_⟩
      split_ifs with hframe
      · -- the new frame has not been in flight yet
        have hnew : f ∉ s.sent := fun hmem => by
          have hlt := hs.uid_lt f hmem
          rw [← hframe] at hlt
          exact hlt.false
        have hnone : net.weight f s.inFlight = 0 :=
          weight_eq_zero fun c hc heq => hnew (heq ▸ (hs.flight c hc).1)
        have hside := card_side_le net.graph host p
        rw [hunsent hnew, hnone]
        simpa using hside
      · exact hle
    | handle i =>
      have hi : i < s.inFlight.length := henabled
      have hweight := weight_handle hs hi f
      have hhandles : Handles f (s, .handle i) = decide (s.inFlight[i].frame = f) := by
        simp only [Handles, List.getElem?_eq_getElem hi, Option.any_some]
      have hsent : (net.handle s i).sent = s.sent := by
        rw [BridgedTree.handle, List.getElem?_eq_getElem hi]
        simp only [hostReceive]
        split_ifs <;> rfl
      rw [hhandles, next, hsent]
      simp only [decide_eq_true_iff]
      refine ⟨fun hf => ?_, by omega⟩
      rw [hunsent hf, if_neg]
      rintro rfl
      exact hf (hs.flight _ (List.getElem_mem hi)).1
    | advance dt => exact ⟨hunsent, hle⟩
    | setExpirationTime b time => exact ⟨hunsent, hle⟩

/-- In a tree of bridges, whatever the order in which copies are handled and entries expire, a
learned port leads towards its host, and a frame is received once by the hosts that it is for and by
no others: not more than once at any time, and exactly once when none of its copies is in flight any
more, which takes no more steps than there are nodes. -/
theorem delivered_of_run {enableLearning : V → Bool} {expirationTime : V → ℕ}
    {trace : List (BridgedNetwork V A × BridgedEvent V A)} {z : BridgedNetwork V A}
    (h : Run net.Step (net.init enableLearning expirationTime) trace z) :
    (∀ b host port, net.isHost host = true →
      ((z.bridges b).getLearnedState z.now (net.address host)).1 = some port →
        LeadsTo net.graph b port host) ∧
    ∀ f ∈ z.sent,
      (∀ host, z.received.count (host, f) ≤ if net.IsFor f host then 1 else 0) ∧
      ((∀ c ∈ z.inFlight, c.frame ≠ f) →
        ∀ host, z.received.count (host, f) = if net.IsFor f host then 1 else 0) ∧
      trace.countP (Handles f) ≤ Fintype.card V := by
  refine ⟨fun b host port hhost hport => ?_, fun f hf => ⟨fun host => ?_, fun hdone host => ?_, ?_⟩⟩
  · have hz := (handles_le h ⟨0, net.address host, net.broadcast⟩).1
    exact BridgeNetDevice.good_getLearnedState (hz.learned b) hport host hhost rfl
  · have hz := (handles_le h f).1
    split_ifs with hfor
    · have := hz.once f hf host hfor
      omega
    · exact (List.count_eq_zero.2 fun hmem => hfor (hz.received _ hmem).2).le
  · have hz := (handles_le h f).1
    split_ifs with hfor
    · have := hz.once f hf host hfor
      rwa [onTheWay_eq_zero hdone] at this
    · exact List.count_eq_zero.2 fun hmem => hfor (hz.received _ hmem).2
  · exact (Nat.le_add_right _ _).trans (handles_le h f).2.2

end Bound

/-! ### Two bridges and three hosts -/

section Sample

instance [Fintype V] (y : BridgedNetwork V A) (e : BridgedEvent V A) :
    Decidable (net.Enabled y e) :=
  match e with
  | .send host destination => inferInstanceAs (Decidable (net.isHost host = true ∧
      (destination = net.broadcast ∨ ∃ h, net.isHost h = true ∧ destination = net.address h)))
  | .handle i => inferInstanceAs (Decidable (i < y.inFlight.length))
  | .advance _ => inferInstanceAs (Decidable True)
  | .setExpirationTime _ _ => inferInstanceAs (Decidable True)

/-- `next`, if the event can happen. -/
def next? [Fintype V] (net : BridgedTree V A)
    (y : BridgedNetwork V A) (e : BridgedEvent V A) : Option (BridgedNetwork V A) :=
  if net.Enabled y e then some (net.next y e) else none

theorem step_of_next? [Fintype V] {y z : BridgedNetwork V A}
    {e : BridgedEvent V A} (h : net.next? y e = some z) : net.Step y e z := by
  unfold next? at h
  split_ifs at h with henabled
  exact ⟨henabled, (Option.some.inj h).symm⟩

def samplePorts (v : Fin 6) : List (Fin 6) := [[1], [0, 2, 4], [1, 3, 5], [2], [1], [2]].getD v []

/-- The bridges 1 and 2 with the hosts 0 and 4, and 3 and 5. -/
def sampleGraph : SimpleGraph (Fin 6) where
  Adj v p := p ∈ samplePorts v
  symm := ⟨by decide⟩
  loopless := ⟨by decide⟩

instance : DecidableRel sampleGraph.Adj :=
  fun v p => inferInstanceAs (Decidable (p ∈ samplePorts v))

theorem isTree_sampleGraph : sampleGraph.IsTree := by
  rw [SimpleGraph.isTree_iff_connected_and_card, Nat.card_eq_fintype_card,
    Nat.card_eq_fintype_card]
  exact ⟨by decide +kernel, by decide +kernel⟩

def sampleTree : BridgedTree (Fin 6) ℕ where
  graph := sampleGraph
  isTree := isTree_sampleGraph
  ports := samplePorts
  ports_nodup := by decide
  mem_ports _ _ := Iff.rfl
  isHost v := v = 0 || 3 ≤ v
  host_ports := by decide
  address v := v.val
  portAddress b p := 10 * b.val + p.val + 10
  broadcast := 0xff
  isGroup a := a = 0xff
  address_inj h v _ heq := Fin.val_injective heq
  portAddress_ne h b p _ heq := by omega
  address_ne_broadcast := by decide
  address_not_group := by decide

/-- A frame floods the tree, the answer goes straight back, and after the expiry of what has been
learned so does a broadcast. -/
theorem delivered_of_run_reply :
    ∃ (trace : List (BridgedNetwork (Fin 6) ℕ × BridgedEvent (Fin 6) ℕ))
      (z : BridgedNetwork (Fin 6) ℕ),
      Run sampleTree.Step (sampleTree.init (fun _ => true) fun _ => 5) trace z ∧
      z.received = [(3, ⟨0, 0, 3⟩), (0, ⟨1, 3, 0⟩), (0, ⟨2, 4, 0xff⟩), (3, ⟨2, 4, 0xff⟩),
        (5, ⟨2, 4, 0xff⟩)] ∧
      (∀ b host port, sampleTree.isHost host = true →
        ((z.bridges b).getLearnedState z.now (sampleTree.address host)).1 = some port →
          LeadsTo sampleGraph b port host) ∧
      ∀ f ∈ z.sent, ∀ host,
        z.received.count (host, f) = if sampleTree.IsFor f host then 1 else 0 := by
  have hrun : (Run.runOf sampleTree.next? (sampleTree.init (fun _ => true) fun _ => 5)
      [.send 0 3, .handle 0, .handle 0, .handle 1, .handle 0, .handle 0, .send 3 0, .handle 0,
        .handle 0, .handle 0, .advance 6, .send 4 0xff, .handle 0, .handle 0, .handle 0, .handle 0,
        .handle 0]).any
      (fun r => decide (r.2.inFlight.isEmpty = true ∧ r.2.received =
        [(3, ⟨0, 0, 3⟩), (0, ⟨1, 3, 0⟩), (0, ⟨2, 4, 0xff⟩), (3, ⟨2, 4, 0xff⟩), (5, ⟨2, 4, 0xff⟩)]))
      = true := by
    decide +kernel
  obtain ⟨⟨trace, z⟩, hrun, hr⟩ := (Option.any_eq_true _ _).1 hrun
  obtain ⟨hempty, hreceived⟩ := of_decide_eq_true hr
  have hsteps : Run sampleTree.Step (sampleTree.init (fun _ => true) fun _ => 5) trace z :=
    Run.of_runOf (fun _ _ _ => step_of_next?) hrun
  obtain ⟨hlearned, hframes⟩ := delivered_of_run hsteps
  refine ⟨trace, z, hsteps, hreceived, hlearned, fun f hf => (hframes f hf).2.1 fun c hc => ?_⟩
  rw [List.isEmpty_iff.1 hempty] at hc
  exact absurd hc List.not_mem_nil

end Sample

end BridgedTree

end SeanetSim
