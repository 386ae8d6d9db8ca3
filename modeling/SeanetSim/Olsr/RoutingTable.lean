import SeanetSim.Lib.Fallible
import SeanetSim.Lib.WhileLoop
import SeanetSim.Olsr.OlsrRepositories
import Mathlib.Logic.Function.Basic

/-!
# The routing table of OLSR

`RoutingTableComputation` up to the routes to associated networks: the symmetric neighbours, their
two-hop neighbours, the destinations of the topology set in rounds, and last the other addresses of
the nodes that have been found.
-/

namespace SeanetSim.Olsr

/-- What `RoutingTableComputation` reads: the sets, the time, and the addresses of each interface of
`m_ipv4`, whose number is a 32-bit one. -/
structure OlsrNode where
  mainAddress : UInt32
  links : List LinkTuple
  neighbors : List NeighborTuple
  twoHopNeighbors : List TwoHopNeighborTuple
  topologySet : List TopologyTuple
  ifaceAssocSet : List IfaceAssocTuple
  now : ℕ
  interfaces : List (List UInt32)
  length_interfaces : interfaces.length < 2 ^ 32

namespace OlsrNode

variable (s : OlsrNode)

def getMainAddress (ifaceAddr : UInt32) : UInt32 :=
  match s.ifaceAssocSet.find? (·.ifaceAddr = ifaceAddr) with
  | some tuple => tuple.mainAddr
  | none => ifaceAddr

def findSymNeighborTuple (mainAddr : UInt32) : Option NeighborTuple :=
  s.neighbors.find? fun tuple => tuple.neighborMainAddr = mainAddr ∧ tuple.status = .sym

/-- `AddEntry` with an interface. -/
def addEntry (table : RoutingTable) (dest next interface distance : UInt32) :
    Option RoutingTable :=
  if 0 < distance then
    some (Function.update table dest (some ⟨dest, next, interface, distance⟩))
  else none

/-- `AddEntry` with an address of an interface; none where it is that of no interface. -/
def addEntryAt (table : RoutingTable) (dest next interfaceAddress distance : UInt32) :
    Option RoutingTable := do
  let i ← s.interfaces.findIdx? (interfaceAddress ∈ ·)
  addEntry table dest next (UInt32.ofNat i) distance

/-- The link tuple is one of the neighbour and has not expired. -/
def Links (nbTuple : NeighborTuple) (linkTuple : LinkTuple) : Prop :=
  s.getMainAddress linkTuple.neighborIfaceAddr = nbTuple.neighborMainAddr ∧
    s.now ≤ linkTuple.time

instance (nbTuple : NeighborTuple) (linkTuple : LinkTuple) :
    Decidable (s.Links nbTuple linkTuple) := by
  unfold Links
  infer_instance

/-- The table, `nb_main_addr` and `lt`. -/
abbrev NeighborTurn := RoutingTable × Bool × Option LinkTuple

/-- Step 2, for a link tuple. -/
def linkTurn (nbTuple : NeighborTuple) (c : NeighborTurn) (linkTuple : LinkTuple) :
    Option NeighborTurn :=
  if s.Links nbTuple linkTuple then do
    let table ← s.addEntryAt c.1 linkTuple.neighborIfaceAddr linkTuple.neighborIfaceAddr
      linkTuple.localIfaceAddr 1
    some (table, c.2.1 || linkTuple.neighborIfaceAddr = nbTuple.neighborMainAddr, some linkTuple)
  else some c

/-- Step 2, for a neighbour. -/
def neighborTurn (table : RoutingTable) (nbTuple : NeighborTuple) : Option RoutingTable :=
  if nbTuple.status = .sym then do
    let (table, nbMainAddr, lt) ← s.links.foldlM (s.linkTurn nbTuple) (table, false, none)
    match nbMainAddr, lt with
    | false, some lt =>
      s.addEntryAt table nbTuple.neighborMainAddr lt.neighborIfaceAddr lt.localIfaceAddr 1
    | _, _ => some table
  else some table

/-- Step 3, for a two-hop neighbour tuple. -/
def twoHopTurn (table : RoutingTable) (nb2hopTuple : TwoHopNeighborTuple) : Option RoutingTable :=
  if (s.findSymNeighborTuple nb2hopTuple.twoHopNeighborAddr).isSome then some table
  else if nb2hopTuple.twoHopNeighborAddr = s.mainAddress then some table
  else if s.neighbors.any fun neighbor =>
      neighbor.neighborMainAddr = nb2hopTuple.neighborMainAddr ∧
        neighbor.willingness ≠ willNever then
    match table nb2hopTuple.neighborMainAddr with
    | some entry =>
      addEntry table nb2hopTuple.twoHopNeighborAddr entry.nextAddr entry.interface 2
    | none => some table
  else some table

/-- Step 3.1, for a topology tuple: the table and `added`. -/
def topologyTurn (h : UInt32) (c : RoutingTable × Bool) (topologyTuple : TopologyTuple) :
    Option (RoutingTable × Bool) :=
  match c.1 topologyTuple.destAddr, c.1 topologyTuple.lastAddr with
  | none, some lastAddrEntry =>
    if lastAddrEntry.distance = h then do
      let table ← addEntry c.1 topologyTuple.destAddr lastAddrEntry.nextAddr
        lastAddrEntry.interface (h + 1)
      some (table, true)
    else some c
  | _, _ => some c

/-- Where the rounds of step 3.1 are; it is the last one if nothing has been added. -/
structure TopologyRounds where
  h : UInt32
  table : RoutingTable
  added : Bool

/-- A round of step 3.1. -/
def topologyRound (c : TopologyRounds) : Option TopologyRounds := do
  let (table, added) ← s.topologySet.foldlM (topologyTurn c.h) (c.table, false)
  some ⟨c.h + 1, table, added⟩

/-- Step 4, for an interface association tuple. -/
def aliasTurn (table : RoutingTable) (tuple : IfaceAssocTuple) : Option RoutingTable :=
  match table tuple.mainAddr, table tuple.ifaceAddr with
  | some entry1, none =>
    addEntry table tuple.ifaceAddr entry1.nextAddr entry1.interface entry1.distance
  | _, _ => some table

/-- The table, if the rounds of step 3.1 end within `turns`. -/
def routingTableComputation (turns : ℕ) : Option RoutingTable := do
  let table ← s.neighbors.foldlM s.neighborTurn fun _ => none
  let table ← s.twoHopNeighbors.foldlM s.twoHopTurn table
  let c ← whileLoop TopologyRounds.added s.topologyRound turns ⟨2, table, true⟩
  s.ifaceAssocSet.foldlM aliasTurn c.table

/-! ## Next hops -/

/-- The link tuple is one of a symmetric neighbour and has not expired. -/
structure Linked (nbTuple : NeighborTuple) (linkTuple : LinkTuple) : Prop where
  mem_neighbors : nbTuple ∈ s.neighbors
  sym : nbTuple.status = .sym
  mem_links : linkTuple ∈ s.links
  links : s.Links nbTuple linkTuple

/-- The interface has the address. -/
def HasAddress (interface addr : UInt32) : Prop :=
  ∃ addrs, s.interfaces[interface.toNat]? = some addrs ∧ addr ∈ addrs

/-- The next hop is the other end of a link of a symmetric neighbour. -/
structure Routed (entry : RoutingTableEntry) : Prop where
  via : ∃ nbTuple linkTuple, s.Linked nbTuple linkTuple ∧
    entry.nextAddr = linkTuple.neighborIfaceAddr ∧
      s.HasAddress entry.interface linkTuple.localIfaceAddr
  pos : 0 < entry.distance

/-- The links of symmetric neighbours are on interfaces of the node. -/
def LocalLinks : Prop :=
  ∀ nbTuple linkTuple, s.Linked nbTuple linkTuple →
    ∃ addrs ∈ s.interfaces, linkTuple.localIfaceAddr ∈ addrs

/-- All next hops are such ends of links. -/
def NextHops (table : RoutingTable) : Prop := ∀ a entry, table a = some entry → s.Routed entry

variable {s} {table table' : RoutingTable} {a : UInt32} {entry : RoutingTableEntry}

theorem localLinks_of_links
    (h : ∀ linkTuple ∈ s.links, ∃ addrs ∈ s.interfaces, linkTuple.localIfaceAddr ∈ addrs) :
    s.LocalLinks := fun _ linkTuple hl => h linkTuple hl.mem_links

theorem NextHops.update (h : s.NextHops table) (he : s.Routed entry) (dest : UInt32) :
    s.NextHops (Function.update table dest (some entry)) := by
  intro a e hae
  by_cases heq : a = dest
  · subst heq
    rw [Function.update_self] at hae
    cases hae
    exact he
  · rw [Function.update_of_ne heq] at hae
    exact h a e hae

theorem update_ne_none {dest : UInt32} :
    Function.update table dest (some entry) a ≠ none ↔ table a ≠ none ∨ a = dest := by
  by_cases heq : a = dest
  · subst heq
    simp
  · simp [heq]

/-- An entry whose next hop is the other end of a link. -/
theorem addEntryAt_eq (hlocal : s.LocalLinks) {nbTuple : NeighborTuple} {linkTuple : LinkTuple}
    (hl : s.Linked nbTuple linkTuple) (table : RoutingTable) (dest : UInt32) :
    ∃ entry, s.addEntryAt table dest linkTuple.neighborIfaceAddr linkTuple.localIfaceAddr 1 =
      some (Function.update table dest (some entry)) ∧ entry.distance = 1 ∧ s.Routed entry := by
  obtain ⟨addrs, hmem, haddr⟩ := hlocal nbTuple linkTuple hl
  have hsome : (s.interfaces.findIdx? (linkTuple.localIfaceAddr ∈ ·)).isSome :=
    List.findIdx?_isSome.trans (List.any_eq_true.2 ⟨addrs, hmem, decide_eq_true haddr⟩)
  obtain ⟨i, hi⟩ := Option.isSome_iff_exists.1 hsome
  obtain ⟨hlt, hat, -⟩ := List.findIdx?_eq_some_iff_getElem.1 hi
  have hnat : (UInt32.ofNat i).toNat = i :=
    UInt32.toNat_ofNat_of_lt' (hlt.trans s.length_interfaces)
  refine ⟨⟨dest, linkTuple.neighborIfaceAddr, UInt32.ofNat i, 1⟩, ?_, rfl,
    ⟨nbTuple, linkTuple, hl, rfl, s.interfaces[i], ?_, of_decide_eq_true hat⟩,
    show (0 : UInt32) < 1 by decide⟩
  · rw [addEntryAt, hi]
    rfl
  · dsimp only
    rw [hnat, List.getElem?_eq_getElem hlt]

/-! ## The symmetric neighbours -/

/-- A table of neighbours, at a set of addresses. -/
structure NeighborTable (s : OlsrNode) (keys : UInt32 → Prop) (table : RoutingTable) : Prop where
  nextHops : s.NextHops table
  distance : ∀ a entry, table a = some entry → entry.distance = 1
  keys : ∀ a, table a ≠ none ↔ keys a

variable {keys keys' : UInt32 → Prop} {nbTuple : NeighborTuple} {linkTuple : LinkTuple}

theorem NeighborTable.congr (h : NeighborTable s keys table) (hk : ∀ a, keys a ↔ keys' a) :
    NeighborTable s keys' table :=
  ⟨h.nextHops, h.distance, fun a => (h.keys a).trans (hk a)⟩

theorem NeighborTable.add (h : NeighborTable s keys table) (hlocal : s.LocalLinks)
    (hl : s.Linked nbTuple linkTuple) (dest : UInt32) :
    ∃ table', s.addEntryAt table dest linkTuple.neighborIfaceAddr linkTuple.localIfaceAddr 1 =
      some table' ∧ NeighborTable s (fun a => keys a ∨ a = dest) table' := by
  obtain ⟨entry, hadd, hone, hrouted⟩ := addEntryAt_eq hlocal hl table dest
  refine ⟨_, hadd, h.nextHops.update hrouted dest, fun a e hae => ?_, fun a => ?_⟩
  · by_cases heq : a = dest
    · subst heq
      rw [Function.update_self] at hae
      cases hae
      exact hone
    · rw [Function.update_of_ne heq] at hae
      exact h.distance a e hae
  · rw [update_ne_none, h.keys]

/-- What the links of a neighbour have come to. -/
structure LinkRounds (s : OlsrNode) (nbTuple : NeighborTuple) (keys : UInt32 → Prop)
    (links : List LinkTuple) (c : NeighborTurn) : Prop where
  table : NeighborTable s
    (fun a => keys a ∨ ∃ linkTuple ∈ links, s.Links nbTuple linkTuple ∧
      a = linkTuple.neighborIfaceAddr) c.1
  main : c.2.1 = true → ∃ linkTuple ∈ links, s.Links nbTuple linkTuple ∧
    linkTuple.neighborIfaceAddr = nbTuple.neighborMainAddr
  some : ∀ linkTuple, c.2.2 = some linkTuple → linkTuple ∈ links ∧ s.Links nbTuple linkTuple
  none : c.2.2 = none → ∀ linkTuple ∈ links, ¬ s.Links nbTuple linkTuple

theorem linkRounds (hlocal : s.LocalLinks) (hnb : nbTuple ∈ s.neighbors)
    (hsym : nbTuple.status = .sym) (h : NeighborTable s keys table) :
    ∃ c, s.links.foldlM (s.linkTurn nbTuple) (table, false, none) = some c ∧
      LinkRounds s nbTuple keys s.links c := by
  refine foldlM_of_rounds (P := LinkRounds s nbTuple keys) ⟨h.congr fun a => by simp, by simp,
    by simp, by simp⟩ fun links linkTuple hmem c hc => ?_
  by_cases hlinks : s.Links nbTuple linkTuple
  · obtain ⟨table', hadd, htable'⟩ := hc.table.add hlocal ⟨hnb, hsym, hmem, hlinks⟩
      linkTuple.neighborIfaceAddr
    refine ⟨_, by rw [linkTurn, if_pos hlinks, hadd]; rfl, htable'.congr fun a => ?_,
      fun htrue => ?_, fun lt hlt => ?_, fun hnone => absurd hnone (Option.some_ne_none _)⟩
    · simp only [List.mem_append, List.mem_singleton]
      grind
    · rcases Bool.or_eq_true_iff.1 htrue with htrue | hmain
      · obtain ⟨lt, hlt, hand⟩ := hc.main htrue
        exact ⟨lt, List.mem_append_left _ hlt, hand⟩
      · exact ⟨linkTuple, List.mem_append_right _ List.mem_cons_self, hlinks,
          of_decide_eq_true hmain⟩
    · cases hlt
      exact ⟨List.mem_append_right _ List.mem_cons_self, hlinks⟩
  · refine ⟨c, if_neg hlinks, hc.table.congr fun a => ?_, fun htrue => ?_, fun lt hlt => ?_,
      fun hnone lt hlt => ?_⟩
    · simp only [List.mem_append, List.mem_singleton]
      grind
    · obtain ⟨lt, hlt, hand⟩ := hc.main htrue
      exact ⟨lt, List.mem_append_left _ hlt, hand⟩
    · exact ⟨List.mem_append_left _ (hc.some lt hlt).1, (hc.some lt hlt).2⟩
    · rcases List.mem_append.1 hlt with hlt | hlt
      · exact hc.none hnone lt hlt
      · rw [List.mem_singleton.1 hlt]
        exact hlinks

/-- The turn of a neighbour. -/
theorem neighborTurn_spec (hlocal : s.LocalLinks) (hnb : nbTuple ∈ s.neighbors)
    (h : NeighborTable s keys table) :
    ∃ table', s.neighborTurn table nbTuple = some table' ∧ NeighborTable s (fun a => keys a ∨
      (nbTuple.status = .sym ∧ ∃ linkTuple ∈ s.links, s.Links nbTuple linkTuple ∧
        (a = linkTuple.neighborIfaceAddr ∨ a = nbTuple.neighborMainAddr))) table' := by
  by_cases hsym : nbTuple.status = .sym
  · obtain ⟨⟨table', main, lt⟩, hfold, hc⟩ := linkRounds hlocal hnb hsym h
    have hmain := hc.main
    have hsome := hc.some
    have hnone := hc.none
    rw [neighborTurn, if_pos hsym, hfold, Option.bind_eq_bind, Option.bind_some]
    dsimp only at hmain hsome hnone ⊢
    split
    · rename_i lt
      obtain ⟨hlt, hlinks⟩ := hsome lt rfl
      obtain ⟨table'', hadd, htable⟩ :=
        hc.table.add hlocal ⟨hnb, hsym, hlt, hlinks⟩ nbTuple.neighborMainAddr
      refine ⟨table'', hadd, htable.congr fun a => ?_⟩
      grind
    · rename_i hno
      refine ⟨table', rfl, hc.table.congr fun a => ?_⟩
      cases main with
      | true =>
        obtain ⟨lt, hlt, hlinks, haddr⟩ := hmain rfl
        grind
      | false =>
        cases lt with
        | none => grind
        | some lt => exact absurd rfl (hno lt rfl)
  · refine ⟨table, if_neg hsym, h.congr fun a => ?_⟩
    simp [hsym]

/-- The addresses of the symmetric neighbours with a link that has not expired. -/
def Near (s : OlsrNode) (a : UInt32) : Prop :=
  ∃ nbTuple linkTuple, s.Linked nbTuple linkTuple ∧
    (a = linkTuple.neighborIfaceAddr ∨ a = nbTuple.neighborMainAddr)

theorem near_iff : s.Near a ↔ ∃ nbTuple ∈ s.neighbors, nbTuple.status = .sym ∧
    ∃ linkTuple ∈ s.links, s.Links nbTuple linkTuple ∧
      (a = linkTuple.neighborIfaceAddr ∨ a = nbTuple.neighborMainAddr) := by
  constructor
  · rintro ⟨nbTuple, linkTuple, ⟨hnb, hsym, hlink, hlinks⟩, ha⟩
    exact ⟨nbTuple, hnb, hsym, linkTuple, hlink, hlinks, ha⟩
  · rintro ⟨nbTuple, hnb, hsym, linkTuple, hlink, hlinks, ha⟩
    exact ⟨nbTuple, linkTuple, ⟨hnb, hsym, hlink, hlinks⟩, ha⟩

instance : DecidablePred s.Near := fun _ => decidable_of_iff' _ near_iff

/-- Step 2. -/
theorem neighborTable (hlocal : s.LocalLinks) :
    ∃ table, s.neighbors.foldlM s.neighborTurn (fun _ => none) = some table ∧
      NeighborTable s s.Near table := by
  have hempty : NeighborTable s (fun a => ∃ nbTuple ∈ ([] : List NeighborTuple),
      nbTuple.status = .sym ∧ ∃ linkTuple ∈ s.links, s.Links nbTuple linkTuple ∧
        (a = linkTuple.neighborIfaceAddr ∨ a = nbTuple.neighborMainAddr)) fun _ => none :=
    ⟨fun a e hae => absurd hae.symm (Option.some_ne_none e),
      fun a e hae => absurd hae.symm (Option.some_ne_none e), fun a => by simp⟩
  obtain ⟨table, hfold, htable⟩ := foldlM_of_rounds (l := s.neighbors)
    (P := fun l => NeighborTable s fun a => ∃ nbTuple ∈ l, nbTuple.status = .sym ∧
      ∃ linkTuple ∈ s.links, s.Links nbTuple linkTuple ∧
        (a = linkTuple.neighborIfaceAddr ∨ a = nbTuple.neighborMainAddr)) hempty
    fun l nbTuple hnb table htable => by
      obtain ⟨table', hturn, htable'⟩ := neighborTurn_spec hlocal hnb htable
      refine ⟨table', hturn, htable'.congr fun a => ?_⟩
      simp only [List.mem_append, List.mem_singleton]
      grind
  exact ⟨table, hfold, htable.congr fun a => near_iff.symm⟩

/-! ## The two-hop neighbours -/

/-- A two-hop tuple has the address, which is no main address of a symmetric neighbour. -/
def Listed (s : OlsrNode) (a : UInt32) : Prop :=
  (∃ tuple ∈ s.twoHopNeighbors, tuple.twoHopNeighborAddr = a) ∧ s.findSymNeighborTuple a = none

/-- The two-hop tuple is one of a willing symmetric neighbour with a link that has not expired. -/
def Reached (s : OlsrNode) (tuple : TwoHopNeighborTuple) : Prop :=
  ∃ nbTuple linkTuple, s.Linked nbTuple linkTuple ∧ nbTuple.willingness ≠ willNever ∧
    nbTuple.neighborMainAddr = tuple.neighborMainAddr

/-- The two-hop tuple leads to a node that is neither a symmetric neighbour nor the node itself. -/
def Beyond (s : OlsrNode) (tuple : TwoHopNeighborTuple) : Prop :=
  s.findSymNeighborTuple tuple.twoHopNeighborAddr = none ∧
    tuple.twoHopNeighborAddr ≠ s.mainAddress

/-- The willing neighbours that two-hop tuples are of are symmetric, by their main addresses. -/
def SymTwoHops (s : OlsrNode) : Prop :=
  ∀ tuple ∈ s.twoHopNeighbors, ∀ nbTuple ∈ s.neighbors,
    nbTuple.neighborMainAddr = tuple.neighborMainAddr → nbTuple.willingness ≠ willNever →
      nbTuple.status = .sym ∧
        s.getMainAddress nbTuple.neighborMainAddr = nbTuple.neighborMainAddr

instance : Decidable s.SymTwoHops := by
  unfold SymTwoHops
  infer_instance

/-- What the two-hop tuples have come to. -/
structure TwoHopRounds (s : OlsrNode) (l : List TwoHopNeighborTuple) (table : RoutingTable) :
    Prop where
  nextHops : s.NextHops table
  distance : ∀ a entry, table a = some entry →
    entry.distance = 1 ∧ s.Near a ∨ entry.distance = 2 ∧ s.Listed a
  keys : ∀ a, s.Near a → table a ≠ none
  beyond : s.SymTwoHops → ∀ a, (∃ entry, table a = some entry ∧ entry.distance = 2) ↔
    ∃ tuple ∈ l, tuple.twoHopNeighborAddr = a ∧ s.Beyond tuple ∧ s.Reached tuple

theorem NeighborTable.twoHopRounds (h : NeighborTable s s.Near table) :
    TwoHopRounds s [] table where
  nextHops := h.nextHops
  distance := fun a e hae => .inl ⟨h.distance a e hae, (h.keys a).1 (by simp [hae])⟩
  keys := fun a => (h.keys a).2
  beyond := fun _ a => by
    constructor
    · rintro ⟨e, hae, htwo⟩
      rw [h.distance a e hae] at htwo
      exact absurd htwo (by decide)
    · rintro ⟨tuple, hmem, -⟩
      exact absurd hmem List.not_mem_nil

variable {l : List TwoHopNeighborTuple} {tuple : TwoHopNeighborTuple}

/-- A tuple that changes nothing. -/
theorem TwoHopRounds.skip (h : TwoHopRounds s l table)
    (hskip : s.SymTwoHops → ¬ (s.Beyond tuple ∧ s.Reached tuple)) :
    TwoHopRounds s (l ++ [tuple]) table where
  nextHops := h.nextHops
  distance := h.distance
  keys := h.keys
  beyond := fun hsym a => by
    rw [h.beyond hsym]
    have := hskip hsym
    simp only [List.mem_append, List.mem_singleton]
    grind

/-- A tuple that gives an entry. -/
theorem TwoHopRounds.add (h : TwoHopRounds s l table) (hmem : tuple ∈ s.twoHopNeighbors)
    (hbeyond : s.Beyond tuple) (hreached : s.SymTwoHops → s.Reached tuple)
    {entry : RoutingTableEntry} (hentry : table tuple.neighborMainAddr = some entry) :
    TwoHopRounds s (l ++ [tuple]) (Function.update table tuple.twoHopNeighborAddr
      (some ⟨tuple.twoHopNeighborAddr, entry.nextAddr, entry.interface, 2⟩)) where
  nextHops := by
    have hrouted : s.Routed ⟨tuple.twoHopNeighborAddr, entry.nextAddr, entry.interface, 2⟩ :=
      ⟨(h.nextHops _ entry hentry).via, show (0 : UInt32) < 2 by decide⟩
    exact h.nextHops.update hrouted _
  distance := fun a e hae => by
    by_cases heq : a = tuple.twoHopNeighborAddr
    · subst heq
      rw [Function.update_self] at hae
      cases hae
      exact .inr ⟨rfl, ⟨tuple, hmem, rfl⟩, hbeyond.1⟩
    · rw [Function.update_of_ne heq] at hae
      exact h.distance a e hae
  keys := fun a ha => update_ne_none.2 (.inl (h.keys a ha))
  beyond := fun hsym a => by
    have hreached := hreached hsym
    by_cases heq : a = tuple.twoHopNeighborAddr
    · subst heq
      rw [Function.update_self]
      exact ⟨fun _ => ⟨tuple, List.mem_append_right _ List.mem_cons_self, rfl, hbeyond, hreached⟩,
        fun _ => ⟨_, rfl, rfl⟩⟩
    · rw [Function.update_of_ne heq, h.beyond hsym]
      simp only [List.mem_append, List.mem_singleton]
      grind

/-- Whose main address an entry for a neighbour of a two-hop tuple is. -/
theorem TwoHopRounds.reached_iff (h : TwoHopRounds s l table) (hmem : tuple ∈ s.twoHopNeighbors)
    (hsym : s.SymTwoHops) : s.Reached tuple ↔
      (∃ nbTuple ∈ s.neighbors, nbTuple.neighborMainAddr = tuple.neighborMainAddr ∧
        nbTuple.willingness ≠ willNever) ∧ table tuple.neighborMainAddr ≠ none := by
  constructor
  · rintro ⟨nbTuple, linkTuple, hl, hwill, haddr⟩
    exact ⟨⟨nbTuple, hl.mem_neighbors, haddr, hwill⟩,
      h.keys _ ⟨nbTuple, linkTuple, hl, .inr haddr.symm⟩⟩
  · rintro ⟨⟨nbTuple, hnb, haddr, hwill⟩, hsome⟩
    obtain ⟨hstatus, hmain⟩ := hsym tuple hmem nbTuple hnb haddr hwill
    obtain ⟨e, he⟩ := Option.ne_none_iff_exists'.1 hsome
    rcases h.distance _ e he with ⟨-, nbTuple', linkTuple, hl, ha⟩ | ⟨-, -, hnone⟩
    · refine ⟨nbTuple, linkTuple, ⟨hnb, hstatus, hl.mem_links, ?_, hl.links.2⟩, hwill, haddr⟩
      rcases ha with ha | ha
      · rw [← ha, ← haddr, hmain]
      · rw [hl.links.1, ← ha, haddr]
    · have hfind := List.find?_eq_none.1 hnone nbTuple hnb
      exact absurd (decide_eq_true ⟨haddr, hstatus⟩) hfind

/-- Step 3. -/
theorem twoHopRounds (h : NeighborTable s s.Near table) :
    ∃ table', s.twoHopNeighbors.foldlM s.twoHopTurn table = some table' ∧
      TwoHopRounds s s.twoHopNeighbors table' := by
  refine foldlM_of_rounds (P := TwoHopRounds s) h.twoHopRounds fun l tuple hmem table hl => ?_
  have hreached := hl.reached_iff hmem
  unfold twoHopTurn
  split
  · rename_i hneighbor
    refine ⟨table, rfl, hl.skip fun _ hand => ?_⟩
    rw [hand.1.1] at hneighbor
    exact absurd hneighbor (by decide)
  rename_i hneighbor
  split
  · rename_i hself
    exact ⟨table, rfl, hl.skip fun _ hand => hand.1.2 hself⟩
  rename_i hself
  have hbeyond : s.Beyond tuple := ⟨Option.not_isSome_iff_eq_none.1 hneighbor, hself⟩
  split
  · rename_i hany
    simp only [List.any_eq_true, decide_eq_true_eq] at hany
    split
    · rename_i entry hentry
      exact ⟨_, if_pos (by decide), hl.add hmem hbeyond
        (fun hsym => (hreached hsym).2 ⟨hany, by simp [hentry]⟩) hentry⟩
    · rename_i hentry
      exact ⟨table, rfl, hl.skip fun hsym hand => ((hreached hsym).1 hand.2).2 hentry⟩
  · rename_i hany
    simp only [List.any_eq_true, decide_eq_true_eq] at hany
    exact ⟨table, rfl, hl.skip fun hsym hand => hany ((hreached hsym).1 hand.2).1⟩

end OlsrNode

end SeanetSim.Olsr
