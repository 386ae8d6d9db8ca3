import SeanetSim.Internet.RipRoutes

/-!
# The updates of RIP

`DoSendRouteUpdate` fills a header with the routes that an interface is to hear of, and sends it
each time it is full.  It goes through the sockets, of which an interface has one for each of its
addresses, and takes a route for one to a network of the interface by the network address alone.
-/

namespace SeanetSim

/-- `InterfaceAddressScope_e`. -/
inductive InterfaceAddressScope
  | host
  | link
  | global
deriving DecidableEq

structure ScopedInterfaceAddress extends Ipv4InterfaceAddress where
  scope : InterfaceAddressScope

namespace ScopedInterfaceAddress

/-- The constructor from an address and a mask. -/
def ofMask (localAddress : Ipv4Address) (mask : UInt32) : ScopedInterfaceAddress :=
  { localAddress, mask, broadcast := .ofUInt32 (localAddress.address ||| ~~~ mask)
    scope := .global }

/-- The network of the address. -/
def network (a : ScopedInterfaceAddress) : Ipv4Address := a.localAddress.combineMask a.mask

end ScopedInterfaceAddress

/-- `SplitHorizonType_e`. -/
inductive SplitHorizonType
  | noSplitHorizon
  | splitHorizon
  | poisonReverse
deriving DecidableEq

/-- A route with the flag that it has changed since the last update. -/
structure RipTableEntry extends RipRoutingTableEntry where
  changed : Bool
deriving DecidableEq

/-- What is sent to a port of a destination, through the socket of an interface or through the
multicast socket. -/
structure RipPacket where
  socket : Option ℕ
  destination : Ipv4Address
  port : UInt16
  ttl : UInt8
  rtes : List RipRte

/-- What the updates of a node depend on.  `sockets` has the interface of each socket. -/
structure RipNode where
  routes : List RipTableEntry
  sockets : List ℕ
  getMtu : ℕ → UInt16
  addresses : ℕ → List ScopedInterfaceAddress
  splitHorizonStrategy : SplitHorizonType

/-- `RIP_ALL_NODE`. -/
def ripAllNode : Ipv4Address := .ofUInt32 0xe0000009

/-- `RIP_PORT`. -/
def ripPort : UInt16 := 520

/-- The RTEs that a packet has room for, behind the headers of IP, UDP and RIP. -/
def maxRte (mtu : UInt16) : UInt16 := ((mtu.toUInt32 - 20 - 8 - 4) / 20).toUInt16

/-- The loop over the routes, each with the RTE that it adds to the header, and the packet that is
sent behind it.  A header that has been sent is cleared. -/
def fillPackets (maxRte : UInt16) : List RipRte → List (Option RipRte) → List (List RipRte)
  | hdr, [] => if 0 < UInt16.ofNat hdr.length then [hdr] else []
  | hdr, rte :: rest =>
    if UInt16.ofNat (hdr ++ rte.toList).length = maxRte then
      (hdr ++ rte.toList) :: fillPackets maxRte [] rest
    else fillPackets maxRte (hdr ++ rte.toList) rest

namespace RipTableEntry

def isGlobal (r : RipTableEntry) : Bool :=
  (ScopedInterfaceAddress.ofMask r.destNetwork r.destNetworkMask).scope == .global

def isDefaultRoute (r : RipTableEntry) (interface : ℕ) : Bool :=
  r.destNetwork.same .getAny && r.destNetworkMask == 0 && r.interface != interface

/-- The RTE for the route, with infinity where it is poisoned. -/
def toRte (r : RipTableEntry) (cfg : RipConfig) (strategy : SplitHorizonType) (interface : ℕ) :
    RipRte :=
  { rtePrefix := r.destNetwork, subnetMask := r.destNetworkMask, routeTag := r.tag
    routeMetric :=
      if strategy = .poisonReverse ∧ r.interface = interface then cfg.linkDown
      else r.metric.toUInt32 }

end RipTableEntry

namespace RipNode

variable (cfg : RipConfig) (n : RipNode) (periodic : Bool) (interface : ℕ)

/-- The sockets that `DoInitialize` makes, for interfaces with their addresses. -/
def openSockets (interfaces : List (ℕ × List ScopedInterfaceAddress)) : List ℕ :=
  interfaces.flatMap fun i =>
    if cfg.interfaceExclusions i.1 then []
    else (i.2.filter fun a => a.scope ≠ .host).map fun _ => i.1

def sameNetwork (r : RipTableEntry) : Bool :=
  (n.addresses interface).any fun a => a.network.same r.destNetwork

/-- What a route adds to the header. -/
def updateRte (r : RipTableEntry) : Option RipRte :=
  let splitHorizoning := r.interface == interface
  if (r.isGlobal || r.isDefaultRoute interface) && (periodic || r.changed) &&
      !n.sameNetwork interface r then
    let rte := r.toRte cfg n.splitHorizonStrategy interface
    if n.splitHorizonStrategy = .splitHorizon ∧ !splitHorizoning then some rte
    else if n.splitHorizonStrategy ≠ .splitHorizon then some rte
    else none
  else none

/-- What a socket sends. -/
def socketUpdate : List RipPacket :=
  if cfg.interfaceExclusions interface then []
  else (fillPackets (maxRte (n.getMtu interface)) []
    (n.routes.map (n.updateRte cfg periodic interface))).map fun rtes =>
      ⟨some interface, ripAllNode, ripPort, 1, rtes⟩

def doSendRouteUpdate : List RipPacket × RipNode :=
  (n.sockets.flatMap (n.socketUpdate cfg periodic),
    { n with routes := n.routes.map fun r => { r with changed := false } })

/-! ## What an update is to carry -/

/-- The route is one to a network that the interface is attached to. -/
def IsOwnNetwork (r : RipTableEntry) : Prop :=
  ∃ a ∈ n.addresses interface, a.network.same r.destNetwork = true ∧ a.mask = r.destNetworkMask

/-- The route is to be in an update on the interface. -/
structure Eligible (r : RipTableEntry) : Prop where
  scope : r.isGlobal = true ∨ r.isDefaultRoute interface = true
  changed : periodic = true ∨ r.changed = true
  foreign : ¬ n.IsOwnNetwork interface r
  horizon : n.splitHorizonStrategy = .splitHorizon → r.interface ≠ interface

instance (r : RipTableEntry) : Decidable (n.IsOwnNetwork interface r) :=
  inferInstanceAs (Decidable (∃ a ∈ n.addresses interface,
    a.network.same r.destNetwork = true ∧ a.mask = r.destNetworkMask))

instance (r : RipTableEntry) : Decidable (n.Eligible periodic interface r) :=
  decidable_of_iff ((r.isGlobal = true ∨ r.isDefaultRoute interface = true) ∧
      (periodic = true ∨ r.changed = true) ∧ ¬ n.IsOwnNetwork interface r ∧
        (n.splitHorizonStrategy = .splitHorizon → r.interface ≠ interface))
    ⟨fun h => ⟨h.1, h.2.1, h.2.2.1, h.2.2.2⟩, fun h => ⟨h.scope, h.changed, h.foreign, h.horizon⟩⟩

/-- The RTEs of an update. -/
def update : List RipRte :=
  (n.routes.filter fun r => n.Eligible periodic interface r).map fun r =>
    r.toRte cfg n.splitHorizonStrategy interface

/-- What is sent on an interface. -/
def packetsOn (packets : List RipPacket) (interface : ℕ) : List RipPacket :=
  packets.filter fun p => p.socket = some interface

/-- The packets on an interface carry each RTE of the update once, in packets that are neither empty
nor too large. -/
structure CarriesUpdate (packets : List RipPacket) : Prop where
  once : ((packetsOn packets interface).flatMap RipPacket.rtes).Perm
    (n.update cfg periodic interface)
  size : ∀ p ∈ packetsOn packets interface, p.rtes.length ≤ (maxRte (n.getMtu interface)).toNat
  nonempty : ∀ p ∈ packetsOn packets interface, p.rtes ≠ []

end RipNode

/-! ## Full headers -/

section FillPackets

variable {m : UInt16} {hdr : List RipRte} {l : List (Option RipRte)}

theorem ofNat_length_eq_iff (h : hdr.length ≤ m.toNat) :
    UInt16.ofNat hdr.length = m ↔ hdr.length = m.toNat := by
  have hlt := m.toNat_lt
  rw [← UInt16.toNat_inj, UInt16.toNat_ofNat', Nat.mod_eq_of_lt (by omega)]

theorem ofNat_length_pos_iff (h : hdr.length < m.toNat) :
    0 < UInt16.ofNat hdr.length ↔ hdr ≠ [] := by
  have hlt := m.toNat_lt
  rw [UInt16.lt_iff_toNat_lt, UInt16.toNat_ofNat', Nat.mod_eq_of_lt (by omega)]
  exact List.length_pos_iff

theorem length_append_toList_le (h : hdr.length < m.toNat) (rte : Option RipRte) :
    (hdr ++ rte.toList).length ≤ m.toNat := by
  cases rte <;> simp <;> omega

/-- Nothing is lost and nothing is sent twice. -/
theorem flatten_fillPackets (h : hdr.length < m.toNat) :
    (fillPackets m hdr l).flatten = hdr ++ l.filterMap id := by
  induction l generalizing hdr with
  | nil =>
    rw [fillPackets, List.filterMap_nil, List.append_nil]
    split_ifs with hpos
    · rw [List.flatten_singleton]
    · rw [ofNat_length_pos_iff h, not_not] at hpos
      rw [hpos, List.flatten_nil]
  | cons rte rest ih =>
    have hle := length_append_toList_le h rte
    have hcons : (rte :: rest).filterMap id = rte.toList ++ rest.filterMap id := by
      cases rte <;> rfl
    rw [fillPackets, hcons, ← List.append_assoc]
    split_ifs with hfull
    · rw [List.flatten_cons, ih (by rw [List.length_nil]; omega), List.nil_append]
    · rw [ofNat_length_eq_iff hle] at hfull
      exact ih (by omega)

theorem length_of_mem_fillPackets (h : hdr.length < m.toNat) {p : List RipRte}
    (hp : p ∈ fillPackets m hdr l) : p ≠ [] ∧ p.length ≤ m.toNat := by
  induction l generalizing hdr with
  | nil =>
    rw [fillPackets] at hp
    split_ifs at hp with hpos
    · rw [List.mem_singleton.1 hp]
      exact ⟨(ofNat_length_pos_iff h).1 hpos, h.le⟩
    · cases hp
  | cons rte rest ih =>
    have hle := length_append_toList_le h rte
    rw [fillPackets] at hp
    split_ifs at hp with hfull
    · rw [ofNat_length_eq_iff hle] at hfull
      rcases List.mem_cons.1 hp with rfl | hp
      · exact ⟨List.ne_nil_of_length_pos (by omega), hle⟩
      · exact ih (by rw [List.length_nil]; omega) hp
    · rw [ofNat_length_eq_iff hle] at hfull
      exact ih (by omega) hp

end FillPackets

/-- A packet has room for an RTE exactly if the MTU has. -/
theorem maxRte_pos {mtu : UInt16} (h : 52 ≤ mtu.toNat) : 0 < (maxRte mtu).toNat := by
  have hlt := mtu.toNat_lt
  have hspace : (mtu.toUInt32 - 20 - 8 - 4).toNat = mtu.toNat - 32 := by
    rw [UInt32.toNat_sub, UInt32.toNat_sub, UInt32.toNat_sub, UInt16.toNat_toUInt32,
      show UInt32.toNat 20 = 20 from rfl, show UInt32.toNat 8 = 8 from rfl,
      show UInt32.toNat 4 = 4 from rfl]
    omega
  rw [maxRte, UInt32.toNat_toUInt16, UInt32.toNat_div, hspace, show UInt32.toNat 20 = 20 from rfl]
  omega

namespace RipNode

variable {cfg : RipConfig} {n : RipNode} {periodic : Bool} {interface : ℕ} {r : RipTableEntry}

theorem sameNetwork_of_isOwnNetwork (h : n.IsOwnNetwork interface r) :
    n.sameNetwork interface r = true := by
  obtain ⟨a, ha, hnetwork, -⟩ := h
  exact List.any_eq_true.2 ⟨a, ha, hnetwork⟩

theorem eligible_and_iff : n.Eligible periodic interface r ∧ n.sameNetwork interface r = false ↔
    ((r.isGlobal || r.isDefaultRoute interface) && (periodic || r.changed) &&
        !n.sameNetwork interface r) = true ∧
      (n.splitHorizonStrategy = .splitHorizon → r.interface ≠ interface) := by
  simp only [Bool.and_eq_true, Bool.or_eq_true, Bool.not_eq_true']
  constructor
  · exact fun ⟨h, hsame⟩ => ⟨⟨⟨h.scope, h.changed⟩, hsame⟩, h.horizon⟩
  · rintro ⟨⟨⟨hscope, hchanged⟩, hsame⟩, hhorizon⟩
    refine ⟨⟨hscope, hchanged, fun hown => ?_, hhorizon⟩, hsame⟩
    rw [sameNetwork_of_isOwnNetwork hown] at hsame
    cases hsame

theorem updateRte_eq : n.updateRte cfg periodic interface r =
    if n.Eligible periodic interface r ∧ n.sameNetwork interface r = false then
      some (r.toRte cfg n.splitHorizonStrategy interface) else none := by
  rw [if_congr eligible_and_iff rfl rfl, updateRte]
  dsimp only
  cases (r.isGlobal || r.isDefaultRoute interface) && (periodic || r.changed) &&
      !n.sameNetwork interface r with
  | false => rfl
  | true =>
    rw [if_pos rfl]
    by_cases hsplit : n.splitHorizonStrategy = .splitHorizon
    · by_cases hinterface : r.interface = interface
      · simp [hsplit, hinterface]
      · simp [hsplit, hinterface]
    · simp [hsplit]

/-- The RTEs that a socket sends. -/
def sent (cfg : RipConfig) (n : RipNode) (periodic : Bool) (interface : ℕ) : List RipRte :=
  (n.routes.filter fun r =>
    n.Eligible periodic interface r ∧ n.sameNetwork interface r = false).map fun r =>
      r.toRte cfg n.splitHorizonStrategy interface

theorem filterMap_updateRte :
    (n.routes.map (n.updateRte cfg periodic interface)).filterMap id =
      n.sent cfg periodic interface := by
  rw [List.filterMap_map, sent]
  induction n.routes with
  | nil => rfl
  | cons r routes ih =>
    rw [List.filterMap_cons, List.filter_cons, Function.comp_apply, id, updateRte_eq]
    by_cases hr : n.Eligible periodic interface r ∧ n.sameNetwork interface r = false
    · rw [if_pos hr, if_pos (decide_eq_true hr), List.map_cons, ih]
    · rw [if_neg hr, if_neg (by rwa [decide_eq_true_iff]), ih]

/-! ## All sockets -/

theorem socket_of_mem {p : RipPacket} (hp : p ∈ n.socketUpdate cfg periodic interface) :
    p.socket = some interface := by
  unfold socketUpdate at hp
  split_ifs at hp
  · cases hp
  · obtain ⟨rtes, -, rfl⟩ := List.mem_map.1 hp
    rfl

theorem packetsOn_socketUpdate (i : ℕ) : packetsOn (n.socketUpdate cfg periodic i) interface =
    if i = interface then n.socketUpdate cfg periodic interface else [] := by
  unfold packetsOn
  split_ifs with hi
  · rw [hi, List.filter_eq_self]
    exact fun p hp => decide_eq_true (socket_of_mem hp)
  · rw [List.filter_eq_nil_iff]
    intro p hp hsocket
    rw [decide_eq_true_iff, socket_of_mem hp, Option.some.injEq] at hsocket
    exact hi hsocket

/-- Every socket of an interface sends the same. -/
theorem packetsOn_doSendRouteUpdate :
    packetsOn (n.doSendRouteUpdate cfg periodic).1 interface =
      (List.replicate (n.sockets.count interface)
        (n.socketUpdate cfg periodic interface)).flatten := by
  show packetsOn (n.sockets.flatMap (n.socketUpdate cfg periodic)) interface = _
  induction n.sockets with
  | nil => rfl
  | cons i sockets ih =>
    have hsplit : packetsOn ((i :: sockets).flatMap (n.socketUpdate cfg periodic)) interface =
        packetsOn (n.socketUpdate cfg periodic i) interface ++
          packetsOn (sockets.flatMap (n.socketUpdate cfg periodic)) interface := by
      rw [List.flatMap_cons]
      exact List.filter_append _ _
    rw [hsplit, ih, packetsOn_socketUpdate]
    by_cases hi : i = interface
    · rw [if_pos hi, hi, List.count_cons_self, List.replicate_succ, List.flatten_cons]
    · rw [if_neg hi, List.count_cons_of_ne hi, List.nil_append]

section Sockets

variable (hexcl : cfg.interfaceExclusions interface = false)
  (hmtu : 52 ≤ (n.getMtu interface).toNat)

include hexcl hmtu

theorem flatMap_socketUpdate :
    (n.socketUpdate cfg periodic interface).flatMap RipPacket.rtes =
      n.sent cfg periodic interface := by
  have hpos := maxRte_pos hmtu
  rw [socketUpdate, hexcl, if_neg (by decide), List.flatMap_map, ← filterMap_updateRte]
  exact List.flatMap_id.trans (flatten_fillPackets (by simpa using hpos))

theorem mem_socketUpdate {p : RipPacket} (hp : p ∈ n.socketUpdate cfg periodic interface) :
    p.rtes ≠ [] ∧ p.rtes.length ≤ (maxRte (n.getMtu interface)).toNat := by
  rw [socketUpdate, hexcl, if_neg (by decide)] at hp
  obtain ⟨rtes, hrtes, rfl⟩ := List.mem_map.1 hp
  exact length_of_mem_fillPackets (by simpa using maxRte_pos hmtu) hrtes

theorem rtes_doSendRouteUpdate :
    (packetsOn (n.doSendRouteUpdate cfg periodic).1 interface).flatMap RipPacket.rtes =
      (List.replicate (n.sockets.count interface) (n.sent cfg periodic interface)).flatten := by
  rw [packetsOn_doSendRouteUpdate]
  induction n.sockets.count interface with
  | zero => rfl
  | succ k ih =>
    rw [List.replicate_succ, List.replicate_succ, List.flatten_cons, List.flatten_cons,
      List.flatMap_append, ih, flatMap_socketUpdate hexcl hmtu]

theorem mem_doSendRouteUpdate {p : RipPacket}
    (hp : p ∈ packetsOn (n.doSendRouteUpdate cfg periodic).1 interface) :
    p.rtes ≠ [] ∧ p.rtes.length ≤ (maxRte (n.getMtu interface)).toNat := by
  rw [packetsOn_doSendRouteUpdate] at hp
  obtain ⟨packets, hpackets, hp⟩ := List.mem_flatten.1 hp
  rw [List.eq_of_mem_replicate hpackets] at hp
  exact mem_socketUpdate hexcl hmtu hp

end Sockets

theorem mem_sent {rte : RipRte} : rte ∈ n.sent cfg periodic interface ↔
    ∃ r ∈ n.routes, (n.Eligible periodic interface r ∧ n.sameNetwork interface r = false) ∧
      r.toRte cfg n.splitHorizonStrategy interface = rte := by
  simp only [sent, List.mem_map, List.mem_filter, decide_eq_true_iff, and_assoc]

theorem mem_update {rte : RipRte} : rte ∈ n.update cfg periodic interface ↔
    ∃ r ∈ n.routes, n.Eligible periodic interface r ∧
      r.toRte cfg n.splitHorizonStrategy interface = rte := by
  simp only [update, List.mem_map, List.mem_filter, decide_eq_true_iff, and_assoc]

/-- Only the network address of a route decides whether it is taken for an own network. -/
theorem sameNetwork_of_mem_sent
    (h : r.toRte cfg n.splitHorizonStrategy interface ∈ n.sent cfg periodic interface) :
    n.sameNetwork interface r = false := by
  obtain ⟨r', -, ⟨-, hsame⟩, hrte⟩ := mem_sent.1 h
  have hnetwork : r'.destNetwork = r.destNetwork := congrArg RipRte.rtePrefix hrte
  rwa [sameNetwork, hnetwork] at hsame

theorem sent_eq_update (h : ∀ r ∈ n.routes, n.Eligible periodic interface r →
    n.sameNetwork interface r = false) :
    n.sent cfg periodic interface = n.update cfg periodic interface := by
  refine congrArg (List.map _) (List.filter_congr fun r hr => ?_)
  rw [decide_eq_decide]
  exact and_iff_left_of_imp (h r hr)

theorem update_eq_nil_iff :
    n.update cfg periodic interface = [] ↔ ∀ r ∈ n.routes, ¬ n.Eligible periodic interface r := by
  simp only [update, List.map_eq_nil_iff, List.filter_eq_nil_iff, decide_eq_true_iff]

/-- An update is carried as it is to be exactly if there is nothing to carry, or if the interface
has one socket and none of the routes has the address of an own network under another mask. -/
theorem carriesUpdate_iff (cfg : RipConfig) (n : RipNode) (periodic : Bool) (interface : ℕ)
    (hexcl : cfg.interfaceExclusions interface = false)
    (hmtu : 52 ≤ (n.getMtu interface).toNat) :
    n.CarriesUpdate cfg periodic interface (n.doSendRouteUpdate cfg periodic).1 ↔
      (∀ r ∈ n.routes, ¬ n.Eligible periodic interface r) ∨
        (n.sockets.count interface = 1 ∧
          ∀ r ∈ n.routes, n.Eligible periodic interface r →
            n.sameNetwork interface r = false) := by
  have hrtes : (packetsOn (n.doSendRouteUpdate cfg periodic).1 interface).flatMap RipPacket.rtes =
      (List.replicate (n.sockets.count interface) (n.sent cfg periodic interface)).flatten :=
    rtes_doSendRouteUpdate hexcl hmtu
  have hsize : ∀ p ∈ packetsOn (n.doSendRouteUpdate cfg periodic).1 interface,
      p.rtes ≠ [] ∧ p.rtes.length ≤ (maxRte (n.getMtu interface)).toNat :=
    fun p hp => mem_doSendRouteUpdate hexcl hmtu hp
  have hnil : n.update cfg periodic interface = [] ↔ _ := update_eq_nil_iff
  rw [← hnil]
  constructor
  · rintro ⟨honce, -, -⟩
    rw [hrtes] at honce
    rw [or_iff_not_imp_left]
    intro hupdate
    have hforeign : ∀ r ∈ n.routes, n.Eligible periodic interface r →
        n.sameNetwork interface r = false := by
      intro r hr heligible
      have hmem := honce.mem_iff.2 (mem_update.2 ⟨r, hr, heligible, rfl⟩)
      obtain ⟨rtes, hrtes, hmem⟩ := List.mem_flatten.1 hmem
      rw [List.eq_of_mem_replicate hrtes] at hmem
      exact sameNetwork_of_mem_sent hmem
    have hlength := honce.length_eq
    have hpos := List.length_pos_iff.2 hupdate
    rw [sent_eq_update hforeign, List.length_flatten, List.map_replicate,
      List.sum_replicate_nat] at hlength
    exact ⟨Nat.eq_of_mul_eq_mul_right hpos (hlength.trans (Nat.one_mul _).symm), hforeign⟩
  · intro h
    refine ⟨?_, fun p hp => (hsize p hp).2, fun p hp => (hsize p hp).1⟩
    rw [hrtes]
    rcases h with hupdate | ⟨hcount, hforeign⟩
    · have hnone := hnil.1 hupdate
      rw [sent_eq_update fun r hr heligible => absurd heligible (hnone r hr), hupdate,
        List.flatten_replicate_nil]
    · rw [hcount, sent_eq_update hforeign, List.replicate_one, List.flatten_singleton]

/-- An interface with one address, and a route behind another interface. -/
theorem carriesUpdate_oneAddress : ∃ (cfg : RipConfig) (n : RipNode),
    n.sockets = openSockets cfg [(1, n.addresses 1)] ∧
      (n.update cfg true 1).length = 1 ∧
      n.CarriesUpdate cfg true 1 (n.doSendRouteUpdate cfg true).1 := by
  let cfg : RipConfig := ⟨16, 180, 120, fun _ => false, fun _ => none⟩
  let n : RipNode :=
    { routes := [⟨⟨0, .ofUInt32 0x0a010000, 0xffff0000, .ofUInt32 0x0a000202, 2, 0, 1, .valid, none,
        true⟩, false⟩]
      sockets := [1]
      getMtu := fun _ => 1500
      addresses := fun _ => [.ofMask (.ofUInt32 0x0a000001) 0xffffff00]
      splitHorizonStrategy := .splitHorizon }
  exact ⟨cfg, n, rfl, by decide +kernel,
    (carriesUpdate_iff cfg n true 1 rfl (by decide +kernel)).2 (.inr ⟨rfl, by decide +kernel⟩)⟩

/-- The same with two addresses: each of their sockets sends the route. -/
theorem not_carriesUpdate_twoAddresses : ∃ (cfg : RipConfig) (n : RipNode),
    cfg.interfaceExclusions 1 = false ∧ 52 ≤ (n.getMtu 1).toNat ∧
      n.sockets = openSockets cfg [(1, n.addresses 1)] ∧
      ¬ n.CarriesUpdate cfg true 1 (n.doSendRouteUpdate cfg true).1 := by
  let cfg : RipConfig := ⟨16, 180, 120, fun _ => false, fun _ => none⟩
  let n : RipNode :=
    { routes := [⟨⟨0, .ofUInt32 0x0a010000, 0xffff0000, .ofUInt32 0x0a000202, 2, 0, 1, .valid, none,
        true⟩, false⟩]
      sockets := [1, 1]
      getMtu := fun _ => 1500
      addresses := fun _ => [.ofMask (.ofUInt32 0x0a000001) 0xffffff00,
        .ofMask (.ofUInt32 0x0a000101) 0xffffff00]
      splitHorizonStrategy := .splitHorizon }
  refine ⟨cfg, n, rfl, by decide +kernel, rfl, fun h => ?_⟩
  have hne : ((packetsOn (n.doSendRouteUpdate cfg true).1 1).flatMap RipPacket.rtes).length ≠
      (n.update cfg true 1).length := by decide +kernel
  exact hne h.once.length_eq

end RipNode

end SeanetSim
