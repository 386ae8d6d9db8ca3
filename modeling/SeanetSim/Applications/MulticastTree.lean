import SeanetSim.Applications.GraftTarget
import SeanetSim.Lib.Branches

/-!
# The multicast tree of an identifier

Nodes are named by their addresses.  An identifier is registered at its root node; then any number
of DRs join, each sending a graft that visits the nodes of a path in order, and the grafts in
flight, late starts and all other packets interleave in any way.  Such a run grows a connected set
by branches (`Lib/Branches`): the members are the nodes that list the identifier under interface 0,
and the anchors are the addresses the identifier resolves to.  So whenever no graft is in flight
the tree is connected and contains the root node (`tree_connected`).
-/

namespace SeanetSim

open AddressMap Relation SeanetProtocol SwitchApplicationv4

variable {M : Type → Type} [AddressMap M]

/-! ## Packets about an identifier -/

namespace Packet

/-- A receiver's request for `e` at its DR. -/
def Joins (pkt : Packet) (e : SeanetEID) : Prop :=
  pkt.eid = e ∧ pkt.header.applicationType = multicastApplication ∧ pkt.header.dst ≠ notDst ∧
    pkt.header.protocolType = registToDestDR

/-- A graft for `e`, in transit or at its target. -/
def Grafts (pkt : Packet) (e : SeanetEID) : Prop :=
  pkt.eid = e ∧ pkt.header.applicationType = multicastApplication ∧
    pkt.header.protocolType = graftingRequest

/-- Data of `e` to be stored at the switch. -/
def Stores (pkt : Packet) (e : SeanetEID) : Prop :=
  pkt.eid = e ∧ pkt.header.applicationType = switchApplication ∧ pkt.header.dst ≠ notDst ∧
    pkt.header.protocolType = reseiveData

end Packet

/-- The packet registers `e` at node `a`: `REGIST_TO_RN` at the root node, or
`REGIST_TO_SOURCE_DR` at a DR that is the root node itself. -/
def Net.Registers (net : Net UInt32 M) (a : UInt32) (self : Ipv4Address) (pkt : Packet)
    (e : SeanetEID) : Prop :=
  pkt.eid = e ∧ pkt.header.applicationType = multicastApplication ∧ pkt.header.dst ≠ notDst ∧
    (pkt.header.protocolType = registToRN ∨ pkt.header.protocolType = registToSourceDR ∧
      (chooseRN (net.switches a) net.tables self
        (self.setInterfaceNum pkt.header.interfaceNum.toUInt32)).same
        (self.setInterfaceNum pkt.header.interfaceNum.toUInt32) = true)

/-- Everything that is no registration, join, graft or storing of `e`. -/
inductive Net.Background (e : SeanetEID) : Net UInt32 M → Net UInt32 M → Prop
  | start {net : Net UInt32 M} (a : UInt32) : Background e net (net.start a)
  | handle {net : Net UInt32 M} {a : UInt32} {self : Ipv4Address} (now : Time) {pkt : Packet}
      (source : Address) (ha : net.Runs a self) (hregisters : ¬ net.Registers a self pkt e)
      (hjoins : ¬ pkt.Joins e) (hgrafts : ¬ pkt.Grafts e) (hstores : ¬ pkt.Stores e) :
      Background e net (net.receive a self now pkt source)

/-! ## Effect of the packets -/

section Effect

variable (sw : SwitchApplicationv4 M) (T : Tables M) (self : Ipv4Address) (now : Time)
  {pkt : Packet}
  (source : Address) {e : SeanetEID}

theorem frontEnd_registers {net : Net UInt32 M} {a : UInt32} {self : Ipv4Address}
    (h : net.Registers a self pkt e) :
    let T := (frontEnd (net.switches a) net.tables self now pkt source).tables
    let i4a := self.setInterfaceNum pkt.header.interfaceNum.toUInt32
    T.multicastTable = addBoth net.tables.multicastTable i4a e ∧
      T.resolutionTable = addEIDNAINFO net.tables.resolutionTable e i4a := by
  obtain ⟨rfl, happ, hdst, hproto⟩ := h
  dsimp only
  rw [frontEnd, if_neg hdst, if_neg (by rw [happ]; decide), if_neg (by rw [happ]; decide),
    if_pos happ, multicastHandle]
  rcases hproto with hproto | ⟨hproto, hself⟩
  · rw [if_neg (by rw [hproto]; decide), if_pos hproto]
    exact ⟨rfl, rfl⟩
  · rw [if_pos hproto, registToSourceDRHandle, if_pos hself]
    exact ⟨rfl, rfl⟩

theorem frontEnd_joins (h : pkt.Joins e) :
    let T' := (frontEnd sw T self now pkt source).tables
    T'.multicastTable =
        addBoth T.multicastTable (self.setInterfaceNum pkt.header.interfaceNum.toUInt32) e ∧
      T'.resolutionTable = T.resolutionTable := by
  obtain ⟨rfl, happ, hdst, hproto⟩ := h
  dsimp only
  rw [frontEnd, if_neg hdst, if_neg (by rw [happ]; decide), if_neg (by rw [happ]; decide),
    if_pos happ, multicastHandle, if_neg (by rw [hproto]; decide), if_neg (by rw [hproto]; decide),
    if_neg (by rw [hproto]; decide), if_pos hproto]
  exact ⟨rfl, rfl⟩

/-- A graft lists the identifier; in transit the node also becomes an address of it. -/
theorem frontEnd_grafts (h : pkt.Grafts e) :
    let T' := (frontEnd sw T self now pkt source).tables
    let i4a := self.setInterfaceNum pkt.header.interfaceNum.toUInt32
    T'.multicastTable = addBoth T.multicastTable i4a e ∧
      T'.resolutionTable = if pkt.header.dst = notDst then addEIDNAINFO T.resolutionTable e i4a
        else T.resolutionTable := by
  obtain ⟨rfl, happ, hproto⟩ := h
  dsimp only
  by_cases hdst : pkt.header.dst = notDst
  · rw [frontEnd, if_pos hdst, if_pos happ, if_pos hdst, transitHandle,
      if_neg (by rw [hproto]; decide), if_pos hproto]
    exact ⟨rfl, rfl⟩
  · rw [frontEnd, if_neg hdst, if_neg (by rw [happ]; decide), if_neg (by rw [happ]; decide),
      if_pos happ, if_neg hdst, multicastHandle, if_neg (by rw [hproto]; decide),
      if_neg (by rw [hproto]; decide), if_pos hproto]
    exact ⟨rfl, rfl⟩

/-- A packet about `e` of no other kind leaves the multicast and the resolution table alone. -/
theorem frontEnd_background {net : Net UInt32 M} {a : UInt32} {self : Ipv4Address}
    (he : pkt.eid = e)
    (hregisters : ¬ net.Registers a self pkt e) (hjoins : ¬ pkt.Joins e) (hgrafts : ¬ pkt.Grafts e)
    (hstores : ¬ pkt.Stores e) :
    let T := (frontEnd (net.switches a) net.tables self now pkt source).tables
    T.multicastTable = net.tables.multicastTable ∧
      T.resolutionTable = net.tables.resolutionTable := by
  dsimp only
  unfold frontEnd
  dsimp only
  split_ifs with hdst happ happ hn happ
  · unfold transitHandle
    split_ifs with h₁ h₂
    · exact ⟨rfl, rfl⟩
    · exact absurd ⟨he, happ, h₂⟩ hgrafts
    · exact ⟨rfl, rfl⟩
  · exact ⟨rfl, rfl⟩
  · unfold switchProtocolHandle requestDataHandle
    split_ifs with h₁ h₂ h₃
    · exact ⟨rfl, rfl⟩
    · exact ⟨rfl, rfl⟩
    · exact absurd ⟨he, happ, hdst, h₃⟩ hstores
    · exact ⟨rfl, rfl⟩
  · unfold neigthInfoProtocolHandle
    dsimp only
    split_ifs <;> exact ⟨rfl, rfl⟩
  · unfold multicastHandle registToSourceDRHandle
    dsimp only
    split_ifs with h₁ hself h₂ h₃ h₄
    · exact absurd ⟨he, happ, hdst, .inr ⟨h₁, hself⟩⟩ hregisters
    · exact ⟨rfl, rfl⟩
    · exact absurd ⟨he, happ, hdst, .inl h₂⟩ hregisters
    · exact absurd ⟨he, happ, h₃⟩ hgrafts
    · exact absurd ⟨he, happ, hdst, h₄⟩ hjoins
    · exact ⟨rfl, rfl⟩
  · exact ⟨rfl, rfl⟩

end Effect

/-! ## Nodes named by their addresses -/

/-- The first interface of a node that is not the loopback has the address that names the node,
and a switch knows itself by no other address. -/
structure Net.Named (net : Net UInt32 M) : Prop where
  interface : ∀ a addri,
    (net.switches a).interfaces.find? (fun x => !x.same .getLoopback) = some addri →
      addri.address = a
  localAddress : ∀ a self, (net.switches a).localAddress = some self → self = ⟨a, 0⟩

/-- Nothing has started, and the nodes are named by their addresses. -/
def Net.NamedInit : Set (Net UInt32 M) := {net | net ∈ Net.Init ∧ net.Named}

/-- The nodes that list `e` under interface 0. -/
def Net.tree (net : Net UInt32 M) (e : SeanetEID) : Set UInt32 :=
  {a | e ∈ castList net.tables.multicastTable ⟨a, 0⟩}

/-- The nodes a graft for `e` may be sent to. -/
def Net.targets (net : Net UInt32 M) (e : SeanetEID) : Set UInt32 :=
  {a | ⟨a, 0⟩ ∈ addresses net.tables.resolutionTable e}

/-- What every step keeps: the names, the resolution table, and that only running switches list
the identifier. -/
structure Net.TreeInv (net : Net UInt32 M) (e : SeanetEID) : Prop where
  named : net.Named
  resolution : ResolutionInv net.tables.resolutionTable
  running : ∀ a ∈ net.tree e, ∃ self, net.Runs a self

theorem Net.Named.receive {net : Net UInt32 M} (h : net.Named) (a : UInt32) (self : Ipv4Address)
    (now : Time) (pkt : Packet) (source : Address) : (net.receive a self now pkt source).Named where
  interface b addri hb := by
    rw [Net.receive_interfaces] at hb
    exact h.interface b addri hb
  localAddress b self' hb := by
    rw [Net.receive_localAddress] at hb
    exact h.localAddress b self' hb

theorem Net.Named.start {net : Net UInt32 M} (h : net.Named) (a : UInt32) :
    (net.start a).Named where
  interface b addri hb := by
    rw [Net.start_interfaces] at hb
    exact h.interface b addri hb
  localAddress b self hb := by
    rcases Net.localAddress_start hb with hb | ⟨addri, haddri, rfl⟩
    · exact h.localAddress b self hb
    · rw [Ipv4Address.viaAddress_eq, ← h.interface b addri haddri]
      rfl

/-! ## What a step does to the tree -/

section PairKeyed

variable [PairKeyed M] {net net' : Net UInt32 M} {a : UInt32} {self : Ipv4Address} {e : SeanetEID}

theorem tree_of_addBoth {k : UInt32} (h : net'.tables.multicastTable =
    addBoth net.tables.multicastTable ((⟨a, 0⟩ : Ipv4Address).setInterfaceNum k) e) :
    net'.tree e = insert a (net.tree e) := by
  ext x
  simp only [Net.tree, h, Set.mem_ofPred_eq, Set.mem_insert_iff, mem_castList_addBoth]
  constructor
  · rintro (hx | ⟨-, hx | hx⟩)
    · exact .inr hx
    · exact .inl (congrArg Ipv4Address.address hx)
    · exact .inl (congrArg Ipv4Address.address hx)
  · rintro (rfl | hx)
    · exact .inr ⟨trivial, .inr rfl⟩
    · exact .inl hx

omit [AddressMap M] [PairKeyed M] in
theorem targets_of_addEIDNAINFO {k : UInt32} (hres : ResolutionInv net.tables.resolutionTable)
    (h : net'.tables.resolutionTable = addEIDNAINFO net.tables.resolutionTable e
      ((⟨a, 0⟩ : Ipv4Address).setInterfaceNum k)) :
    net'.targets e = insert a (net.targets e) := by
  ext x
  simp only [Net.targets, h, Set.mem_ofPred_eq, Set.mem_insert_iff, mem_addresses_addEIDNAINFO hres]
  constructor
  · rintro (hx | ⟨-, hx⟩)
    · exact .inr hx
    · exact .inl (congrArg Ipv4Address.address hx)
  · rintro (rfl | hx)
    · exact .inr ⟨trivial, rfl⟩
    · exact .inl hx

theorem receive_registers {pkt : Packet} (hinv : net.TreeInv e) (ha : net.Runs a self) (now : Time)
    (source : Address) (h : net.Registers a self pkt e) :
    (net.receive a self now pkt source).tree e = insert a (net.tree e) ∧
      (net.receive a self now pkt source).targets e = insert a (net.targets e) := by
  obtain rfl := hinv.named.localAddress a self ha.2
  obtain ⟨hm, hr⟩ := frontEnd_registers now source h
  exact ⟨tree_of_addBoth hm, targets_of_addEIDNAINFO hinv.resolution hr⟩

theorem receive_joins {pkt : Packet} (hinv : net.TreeInv e) (ha : net.Runs a self) (now : Time)
    (source : Address) (h : pkt.Joins e) :
    (net.receive a self now pkt source).tree e = insert a (net.tree e) ∧
      (net.receive a self now pkt source).targets e = net.targets e := by
  obtain rfl := hinv.named.localAddress a self ha.2
  obtain ⟨hm, hr⟩ := frontEnd_joins (net.switches a) net.tables ⟨a, 0⟩ now source h
  exact ⟨tree_of_addBoth hm, by simp only [Net.targets, Net.receive, hr]⟩

theorem receive_grafts {pkt : Packet} (hinv : net.TreeInv e) (ha : net.Runs a self) (now : Time)
    (source : Address) (h : pkt.Grafts e) :
    (net.receive a self now pkt source).tree e = insert a (net.tree e) ∧
      (net.receive a self now pkt source).targets e =
        if pkt.header.dst = notDst then insert a (net.targets e) else net.targets e := by
  obtain rfl := hinv.named.localAddress a self ha.2
  obtain ⟨hm, hr⟩ := frontEnd_grafts (net.switches a) net.tables ⟨a, 0⟩ now source h
  refine ⟨tree_of_addBoth hm, ?_⟩
  split_ifs at hr ⊢ with hdst
  · exact targets_of_addEIDNAINFO hinv.resolution hr
  · simp only [Net.targets, Net.receive, hr]

/-- A packet about another identifier changes nothing for `e`. -/
theorem TableEffect.other_eid {T : Tables M} {pkt : Packet} {multicast : CastTable M}
    {resolution : ResolutionTable} (hres : ResolutionInv T.resolutionTable) (he : e ≠ pkt.eid)
    (heff : TableEffect T self pkt multicast resolution) :
    (∀ k, e ∈ castList multicast k ↔ e ∈ castList T.multicastTable k) ∧
      ∀ x, x ∈ addresses resolution e ↔ x ∈ addresses T.resolutionTable e := by
  cases heff with
  | unchanged => exact ⟨fun _ => Iff.rfl, fun _ => Iff.rfl⟩
  | listed _ => simp [mem_castList_addBoth, he]
  | anchored _ => simp [mem_castList_addBoth, mem_addresses_addEIDNAINFO hres, he]
  | stored _ => simp [mem_addresses_addEIDNAINFO hres, he]

theorem start_tree (hinv : net.TreeInv e) (a : UInt32) :
    (net.start a).tree e = net.tree e ∧ (net.start a).targets e = net.targets e := by
  rcases net.start_cases a with hs | ⟨hstarted, hs | ⟨addri, haddri, hs⟩⟩ <;> rw [hs]
  · exact ⟨rfl, rfl⟩
  · exact ⟨rfl, rfl⟩
  · refine ⟨?_, rfl⟩
    ext x
    simp only [Net.tree, Set.mem_ofPred_eq, castList_store]
    split_ifs with hx
    · -- the switch of `a` has not run, so nothing is listed under its address
      obtain rfl : x = a :=
        (congrArg Ipv4Address.address hx).trans (hinv.named.interface a _ haddri)
      constructor
      · simp
      · intro hx'
        obtain ⟨self, hruns⟩ := hinv.running x hx'
        exact absurd (hruns.1.symm.trans hstarted) (by decide)
    · rfl

theorem background_tree (hinv : net.TreeInv e) (h : net.Background e net') :
    net'.tree e = net.tree e ∧ net'.targets e = net.targets e := by
  cases h with
  | start a => exact start_tree hinv a
  | @handle a self now pkt source ha hregisters hjoins hgrafts hstores =>
    by_cases he : pkt.eid = e
    · obtain ⟨hm, hr⟩ := frontEnd_background now source he hregisters hjoins hgrafts
        hstores
      simp [Net.tree, Net.targets, Net.receive, hm, hr]
    · obtain ⟨hm, hr⟩ := (frontEnd_tableEffect (net.switches a) net.tables self now pkt
        source).other_eid hinv.resolution (Ne.symm he)
      simp [Net.tree, Net.targets, Net.receive, hm, hr]

omit [PairKeyed M] in
theorem Net.TreeInv.receive (hinv : net.TreeInv e) (ha : net.Runs a self) (now : Time)
    (pkt : Packet) (source : Address)
    (htree : (net.receive a self now pkt source).tree e ⊆ insert a (net.tree e)) :
    (net.receive a self now pkt source).TreeInv e where
  named := hinv.named.receive a self now pkt source
  resolution := hinv.resolution.of_effect (frontEnd_tableEffect _ _ _ _ _ _)
  running x hx := by
    rcases htree hx with rfl | hx
    · exact ⟨self, Net.runs_receive.2 ha⟩
    · obtain ⟨self', hruns⟩ := hinv.running x hx
      exact ⟨self', Net.runs_receive.2 hruns⟩

theorem Net.TreeInv.background (hinv : net.TreeInv e) (h : net.Background e net') :
    net'.TreeInv e := by
  have htree := (background_tree hinv h).1
  cases h with
  | start a =>
    refine ⟨hinv.named.start a, ?_, fun x hx => ?_⟩
    · rw [Net.start, startApplication_resolutionTable]
      exact hinv.resolution
    · obtain ⟨self, hruns⟩ := hinv.running x (htree ▸ hx)
      exact ⟨self, hruns.start a⟩
  | @handle a self now pkt source ha _ _ _ _ =>
    exact hinv.receive ha now pkt source (htree.subset.trans (Set.subset_insert _ _))

/-- Before the registration nothing lists the identifier. -/
theorem treeInv_of_background (hnet : Reachable Net.NamedInit (Net.Background e) net) :
    net.TreeInv e ∧ net.tree e = ∅ ∧ net.targets e = ∅ := by
  apply hnet.invariant (I := fun net => net.TreeInv e ∧ net.tree e = ∅ ∧ net.targets e = ∅)
  · rintro _ ⟨⟨config, rfl⟩, hnamed⟩
    have htree : (Net.initial (M := M) config).tree e = ∅ := by
      ext x
      simp [Net.tree, Net.initial, castList, PairKeyed.find_empty]
    refine ⟨⟨hnamed, resolutionInv_empty, ?_⟩, htree, ?_⟩
    · simp [htree]
    · ext x
      simp [Net.targets, Net.initial, addresses]
  · rintro net net' ⟨hinv, htree, htargets⟩ hstep
    obtain ⟨htree', htargets'⟩ := background_tree hinv hstep
    exact ⟨hinv.background hstep, htree'.trans htree, htargets'.trans htargets⟩

end PairKeyed

/-! ## Grafts in flight -/

/-- The net, and for every graft for the identifier in flight the nodes it still has to visit. -/
structure GraftNet (M : Type → Type) where
  net : Net UInt32 M
  inflight : List (List UInt32)

namespace GraftNet

/-- `e` has just been registered at `rn`, and nothing else has been done for it. -/
inductive Init (e : SeanetEID) (rn : UInt32) : GraftNet M → Prop
  | registered {net : Net UInt32 M} {self : Ipv4Address} (now : Time) {pkt : Packet}
      (source : Address)
      (hnet : Reachable Net.NamedInit (Net.Background e) net) (hrn : net.Runs rn self)
      (hpkt : net.Registers rn self pkt e) : Init e rn ⟨net.receive rn self now pkt source, []⟩

/-- A DR joins and sends a graft along a path of the topology; a graft reaches the next node of its
path; or something happens that is no business of `e`. -/
inductive Step (G : SimpleGraph UInt32) (e : SeanetEID) : GraftNet M → GraftNet M → Prop
  | join {s : GraftNet M} {d : UInt32} {self : Ipv4Address} (now : Time) {pkt : Packet}
      (source : Address) {graft : Datagram} {hops : List UInt32} (hd : s.net.Runs d self)
      (hpkt : pkt.Joins e) (hsent : s.net.sentBy d self now pkt source = [graft])
      (hpath : IsBranch G d graft.dest.address hops) :
      Step G e s ⟨s.net.receive d self now pkt source, hops :: s.inflight⟩
  | transit {s : GraftNet M} {l₁ l₂ : List (List UInt32)} {a b : UInt32} {rest : List UInt32}
      {self : Ipv4Address} (now : Time) {pkt : Packet} (source : Address)
      (hflight : s.inflight = l₁ ++ (a :: b :: rest) :: l₂) (ha : s.net.Runs a self)
      (hpkt : pkt.Grafts e) (hdst : pkt.header.dst = notDst) :
      Step G e s ⟨s.net.receive a self now pkt source, l₁ ++ (b :: rest) :: l₂⟩
  | arrive {s : GraftNet M} {l₁ l₂ : List (List UInt32)} {a : UInt32} {self : Ipv4Address}
      (now : Time) {pkt : Packet} (source : Address) (hflight : s.inflight = l₁ ++ [a] :: l₂)
      (ha : s.net.Runs a self) (hpkt : pkt.Grafts e) (hdst : pkt.header.dst = isDst) :
      Step G e s ⟨s.net.receive a self now pkt source, l₁ ++ l₂⟩
  | other {s : GraftNet M} {net : Net UInt32 M} (h : s.net.Background e net) :
      Step G e s ⟨net, s.inflight⟩

/-- The growing set that the run is about. -/
def growth (s : GraftNet M) (e : SeanetEID) : Growth UInt32 :=
  ⟨s.net.tree e, s.net.targets e, s.inflight⟩

/-- The invariant of the net, and that the identifier has a node to graft to. -/
structure Inv (s : GraftNet M) (e : SeanetEID) : Prop where
  tree : s.net.TreeInv e
  targets : (s.net.targets e).Nonempty

variable [PairKeyed M] {G : SimpleGraph UInt32} {e : SeanetEID} {rn : UInt32} {s s' : GraftNet M}

theorem inv_init (hs : Init e rn s) : s.Inv e ∧ s.growth e = .root rn := by
  obtain ⟨now, source, hnet, hrn, hpkt⟩ := hs
  obtain ⟨hinv, htree, htargets⟩ := treeInv_of_background hnet
  obtain ⟨htree', htargets'⟩ := receive_registers hinv hrn now source hpkt
  rw [htree] at htree'
  rw [htargets] at htargets'
  refine ⟨⟨hinv.receive hrn now _ source ?_, ?_⟩, ?_⟩
  · rw [htree', htree]
  · rw [htargets']
    exact Set.insert_nonempty _ _
  · rw [growth, htree', htargets', Growth.root]
    simp

/-- A step grows the set by one step, or not at all. -/
theorem step_growth (h : s.Inv e) (hstep : Step G e s s') :
    s'.Inv e ∧ ReflTransGen (Growth.Step G) (s.growth e) (s'.growth e) := by
  cases hstep with
  | @join d self now pkt source graft hops hd hpkt hsent hpath =>
    obtain ⟨htree, htargets⟩ := receive_joins h.tree hd now source hpkt
    refine ⟨⟨h.tree.receive hd now pkt source htree.subset, htargets ▸ h.targets⟩, .single ?_⟩
    unfold growth
    rw [htree, htargets]
    refine .join ?_ hpath
    -- the identifier is registered, so the graft goes to one of its addresses
    obtain ⟨rfl, happ, hdst, hproto⟩ := hpkt
    obtain ⟨x, hx⟩ := h.targets
    obtain ⟨T, hT, hsent'⟩ := sentBy_registToDestDR s.net d self now source hdst happ hproto
    obtain rfl := List.singleton_injective (hsent.symm.trans hsent')
    have hmem := findNearestNode_mem_addresses (s.net.switches d) (hT ▸ h.tree.resolution)
      (hT ▸ registered_of_mem hx)
    rw [hT] at hmem
    exact hmem
  | @transit l₁ l₂ a b rest self now pkt source hflight ha hpkt hdst =>
    obtain ⟨htree, htargets⟩ := receive_grafts h.tree ha now source hpkt
    rw [if_pos hdst] at htargets
    refine ⟨⟨h.tree.receive ha now pkt source htree.subset, ?_⟩, .single ?_⟩
    · rw [htargets]
      exact Set.insert_nonempty _ _
    · unfold growth
      rw [htree, htargets]
      exact .visit hflight
  | @arrive l₁ l₂ a self now pkt source hflight ha hpkt hdst =>
    obtain ⟨htree, htargets⟩ := receive_grafts h.tree ha now source hpkt
    rw [if_neg (by rw [hdst]; decide)] at htargets
    refine ⟨⟨h.tree.receive ha now pkt source htree.subset, htargets ▸ h.targets⟩, .single ?_⟩
    unfold growth
    rw [htree, htargets]
    exact .finish hflight
  | other hback =>
    obtain ⟨htree, htargets⟩ := background_tree h.tree hback
    refine ⟨⟨h.tree.background hback, htargets ▸ h.targets⟩, ?_⟩
    unfold growth
    rw [htree, htargets]

/-- Every run is a run of the growing set. -/
theorem growth_reachable (hs : Reachable {s | Init e rn s} (Step G e) s) :
    Reachable {.root rn} (Growth.Step G) (s.growth e) := by
  have hsim : ∃ t, Reachable {.root rn} (Growth.Step G) t ∧ s.Inv e ∧ t = s.growth e := by
    apply hs.simulate (R := fun s t => s.Inv e ∧ t = s.growth e)
    · intro s hs
      obtain ⟨hinv, hroot⟩ := inv_init hs
      exact ⟨_, rfl, hinv, hroot.symm⟩
    · rintro s s' t ⟨hinv, rfl⟩ hstep
      obtain ⟨hinv', hgrowth⟩ := step_growth hinv hstep
      exact ⟨_, hgrowth, hinv', rfl⟩
  obtain ⟨t, ht, -, rfl⟩ := hsim
  exact ht

/-- In every reachable state without a graft in flight the nodes that list the identifier contain
its root node and induce a connected subgraph of the topology. -/
theorem tree_connected (hs : Reachable {s | Init e rn s} (Step G e) s) (hidle : s.inflight = []) :
    rn ∈ s.net.tree e ∧ (G.induce (s.net.tree e)).Connected :=
  Growth.connected_members (growth_reachable hs) hidle

/-! ## A join -/

/-- 10.0.0.1 has registered the identifier of zeros, and the switch of 10.0.0.2 has started. -/
def registeredNet : Net UInt32 PairMap :=
  ((Net.lone 0x0a000001).receive 0x0a000001 ⟨0x0a000001, 0⟩ 0 registration []).start 0x0a000002

/-- 10.0.0.2 has joined. -/
def joinedNet : Net UInt32 PairMap :=
  registeredNet.receive 0x0a000002 ⟨0x0a000002, 0⟩ 0 joinRequest []

/-- The graft of 10.0.0.2 has arrived at 10.0.0.1. -/
def graftedNet : Net UInt32 PairMap :=
  joinedNet.receive 0x0a000001 ⟨0x0a000001, 0⟩ 0
    ⟨.ofTypes multicastApplication graftingRequest, joinRequest.eid, 0⟩ []

theorem reachable_registeredNet : Reachable {s | Init registration.eid 0x0a000001 s}
    (Step ⊤ registration.eid) ⟨registeredNet, []⟩ := by
  have hnamed : (Net.initial fun a => ⟨.seanet, false, [⟨a, 0⟩]⟩ : Net UInt32 PairMap).Named := by
    refine ⟨fun a addri h => ?_, fun a self h => nomatch h⟩
    obtain rfl := List.mem_singleton.1 (List.mem_of_find?_eq_some h)
    rfl
  have hinit : (Net.initial fun a => ⟨.seanet, false, [⟨a, 0⟩]⟩ : Net UInt32 PairMap) ∈
      Net.NamedInit := ⟨⟨_, rfl⟩, hnamed⟩
  have hlone : Reachable Net.NamedInit (Net.Background registration.eid) (Net.lone 0x0a000001) :=
    (Reachable.of_init hinit).tail (.start 0x0a000001)
  refine Reachable.tail (.of_init (.registered 0 [] hlone Net.runs_lone ?_)) (.other (.start _))
  exact ⟨rfl, rfl, by decide, .inl rfl⟩

theorem reachable_graftedNet : Reachable {s | Init registration.eid 0x0a000001 s}
    (Step ⊤ registration.eid) ⟨graftedNet, []⟩ := by
  have hjoin : Step ⊤ registration.eid ⟨registeredNet, []⟩ ⟨joinedNet, [[0x0a000001]]⟩ := by
    refine .join 0 [] ?_ ⟨rfl, rfl, by decide, rfl⟩ rfl ⟨?_, rfl⟩
    · constructor <;> decide
    · exact List.isChain_pair.2 (.inr (by decide))
  have harrive : Step ⊤ registration.eid ⟨joinedNet, [[0x0a000001]]⟩ ⟨graftedNet, []⟩ := by
    have hruns : joinedNet.Runs 0x0a000001 ⟨0x0a000001, 0⟩ := by constructor <;> decide
    have hgraft : Packet.Grafts ⟨.ofTypes multicastApplication graftingRequest, joinRequest.eid, 0⟩
        registration.eid := ⟨rfl, rfl, rfl⟩
    have hstep := Step.arrive (s := ⟨joinedNet, [] ++ [0x0a000001] :: []⟩) (G := ⊤) 0 [] rfl hruns
      hgraft rfl
    exact hstep
  exact (reachable_registeredNet.tail hjoin).tail harrive

theorem tree_connected_graftedNet :
    0x0a000001 ∈ graftedNet.tree registration.eid ∧
      ((⊤ : SimpleGraph UInt32).induce (graftedNet.tree registration.eid)).Connected :=
  tree_connected reachable_graftedNet rfl

end GraftNet

end SeanetSim
