import SeanetSim.Lib.Reachable
import SeanetSim.NixVectorRouting.RouteCache

/-!
# Forwarding with cached routes

Packets with nix-vectors on their way through a network that does not change.  `RouteInput` takes
the index out of the vector but prefers the route that an earlier packet to the destination has left
in the cache.  Every path goes on from a node to the first of the neighbours closest to the
destination, so that all packets to it agree: `Network.cached_route_agrees`.
-/

namespace SeanetSim

/-- A packet at a node, to be routed there. -/
structure NixPacket (N A : Type) where
  location : N
  destination : A
  nixVector : NixVector
deriving DecidableEq

/-- The caches of the nodes and the packets between them. -/
structure Traffic (N D A : Type) where
  routing : N → NixRouting D A
  packets : List (NixPacket N A)

def Traffic.quiet {N D A : Type} : Traffic N D A := ⟨fun _ => NixRouting.initial, []⟩

/-- `send` is a call of `RouteOutput` without an output device; the packets are numbered. -/
inductive TrafficEvent (N A : Type)
  | send (source : N) (destination : A)
  | forward (packet : ℕ)
  | deliver (packet : ℕ)
  | lose (packet : ℕ)

namespace Network

variable {N D C A : Type} [DecidableEq N] [DecidableEq D] [DecidableEq A] (net : Network N D C A)

omit [DecidableEq N] in
/-- `RouteInput` for a packet that is not for the node, once the caches have been flushed if
necessary: the route and the vector for `UnicastForwardCallback`. -/
def routeInput (n : N) (destination : A) (nixVector : NixVector) (s : NixRouting D A) :
    Option (NixRouting D A × Ipv4Route D A × NixVector) := do
  let s := net.countNeighbors n s
  let numberOfBits := NixVector.bitCount s.totalNeighbors
  let (nodeIndex, nixVector) ← nixVector.extractNeighborIndex numberOfBits
  match s.ipv4RouteCache destination with
  | some rtentry => some (s, rtentry, nixVector)
  | none => do
    let rtentry ← net.buildRoute n destination none nodeIndex
    some ({ s with
        ipv4RouteCache := Function.update s.ipv4RouteCache destination (some rtentry) },
      rtentry, nixVector)

/-- The packet at the node that has the gateway's address, across the output device. -/
def transmit (rtentry : Ipv4Route D A) (nixVector : NixVector) : List (NixPacket N A) :=
  match (net.across rtentry.outputDevice).find? fun r => some (net.address r) = rtentry.gateway with
  | some r => [⟨net.node r, rtentry.destination, nixVector⟩]
  | none => []

def trafficStep (s : Traffic N D A) : TrafficEvent N A → Option (Traffic N D A)
  | .send source destination => do
    let (routing, out) ← net.routeOutput net.getNodeByIp source destination none (s.routing source)
    let sent := match out.rtentry, out.nixVector with
      | some rtentry, some nixVector => net.transmit rtentry nixVector
      | _, _ => []
    some ⟨Function.update s.routing source routing, s.packets ++ sent⟩
  | .forward packet => do
    let p ← s.packets[packet]?
    if net.getNodeByIp p.destination = some p.location then none
    else do
      let (routing, rtentry, nixVector) ←
        net.routeInput p.location p.destination p.nixVector (s.routing p.location)
      some ⟨Function.update s.routing p.location routing,
        s.packets.eraseIdx packet ++ net.transmit rtentry nixVector⟩
  | .deliver packet => do
    let p ← s.packets[packet]?
    if net.getNodeByIp p.destination = some p.location then
      some { s with packets := s.packets.eraseIdx packet }
    else none
  | .lose packet => some { s with packets := s.packets.eraseIdx packet }

/-- For a packet that is to be forwarded, a route in the cache is the one of the packet's own
index. -/
def CacheAgrees (s : Traffic N D A) (p : NixPacket N A) : Prop :=
  net.getNodeByIp p.destination ≠ some p.location → ∀ rtentry,
    (s.routing p.location).ipv4RouteCache p.destination = some rtentry →
    ∀ nodeIndex nixVector, p.nixVector.extractNeighborIndex (NixVector.bitCount
        (net.countNeighbors p.location (s.routing p.location)).totalNeighbors) =
      some (nodeIndex, nixVector) →
    rtentry.gateway = (net.findNetDeviceForNixIndex p.location nodeIndex).2.map net.address ∧
      (net.devices p.location)[(net.findNetDeviceForNixIndex p.location nodeIndex).1]? =
        some rtentry.outputDevice

/-! ## The paths of the packets -/

omit [DecidableEq N] [DecidableEq A] in
/-- The nodes that `BFS` sees from a node. -/
def graph (n : N) : List N := (net.devices n).flatMap net.reached

/-- Along every path that a vector is built for, encoder and decoder agree and no counter wraps. -/
def AllSound : Prop := ∀ source dest p, Greedy net.graph dest source p → net.Sound source p

/-- The vector has the indices of the path from the node to the destination. -/
def OnPath (n : N) (destination : A) (nixVector : NixVector) : Prop :=
  ∃ dest p, net.getNodeByIp destination = some dest ∧ Greedy net.graph dest n p ∧
    nixVector.Carries (net.entries n p)

/-- The route goes through the last link to the next node of the path. -/
def RouteOnPath (n : N) (destination : A) (rtentry : Ipv4Route D A) : Prop :=
  ∃ dest v p r, net.getNodeByIp destination = some dest ∧ Greedy net.graph dest n (v :: p) ∧
    net.lastLink n v = some (rtentry.outputDevice, r) ∧
    rtentry.gateway = some (net.address r) ∧ rtentry.destination = destination

/-- What a node keeps is about the paths of the graph. -/
structure NodeConsistent (n : N) (s : NixRouting D A) : Prop where
  count : s.totalNeighbors = 0 ∨ s.totalNeighbors = net.findTotalNeighbors n
  vectors : ∀ destination nixVector, s.nixCache destination = some (some nixVector) →
    net.OnPath n destination nixVector ∧ net.getNodeByIp destination ≠ some n
  routes : ∀ destination rtentry, s.ipv4RouteCache destination = some rtentry →
    net.RouteOnPath n destination rtentry

structure Consistent (s : Traffic N D A) : Prop where
  nodes : ∀ n, net.NodeConsistent n (s.routing n)
  packets : ∀ p ∈ s.packets, net.OnPath p.location p.destination p.nixVector

section Invariant

variable {net} {n v : N} {destination : A} {nixVector : NixVector} {s : NixRouting D A}

omit [DecidableEq A] in
theorem children_none_eq (source : N) : net.children source none = net.graph :=
  funext fun n => children_none source n

omit [DecidableEq A] in
theorem mem_links_of_lastLink {link : D × D} (h : net.lastLink n v = some link) :
    link ∈ net.links n ∧ net.node link.2 = v := by
  have hnode := List.find?_some h
  exact ⟨List.mem_reverse.1 (List.mem_of_find?_eq_some h), of_decide_eq_true hnode⟩

omit [DecidableEq N] [DecidableEq A] in
theorem mem_across_of_links {d r : D} (h : (d, r) ∈ net.links n) :
    d ∈ net.devices n ∧ r ∈ net.across d := by
  have ⟨d', hd', hmem⟩ := List.mem_flatMap.1 h
  have ⟨r', hr', heq⟩ := List.mem_map.1 hmem
  cases heq
  exact ⟨hd', hr'⟩

omit [DecidableEq N] [DecidableEq A] in
/-- Devices across a link are known by their addresses. -/
theorem eq_of_address {d d' r r' : D} (hr : r ∈ net.across d) (hr' : r' ∈ net.across d')
    (heq : net.address r = net.address r') : r = r' := by
  have hmem : ∀ {d r}, r ∈ net.across d →
      r ∈ (net.nodes.flatMap net.devices).filter fun d => !net.isLoopback d := by
    intro d r hr
    have ⟨hdevice, hloopback⟩ := attached_of_across hr
    refine List.mem_filter.2 ⟨List.mem_flatMap.2 ⟨_, net.mem_nodes _, hdevice⟩, ?_⟩
    rw [hloopback]
    rfl
  exact List.inj_on_of_nodup_map net.distinct (hmem hr) (hmem hr') heq

/-- A packet on a path goes to the next node of the path. -/
theorem transmit_eq {rtentry : Ipv4Route D A} {r : D}
    (hlast : net.lastLink n v = some (rtentry.outputDevice, r))
    (hgateway : rtentry.gateway = some (net.address r)) (nixVector : NixVector) :
    net.transmit rtentry nixVector = [⟨v, rtentry.destination, nixVector⟩] := by
  have ⟨hlink, hnode⟩ := mem_links_of_lastLink hlast
  have ⟨_, hacross⟩ := mem_across_of_links hlink
  have hsome : ((net.across rtentry.outputDevice).find? fun r =>
      some (net.address r) = rtentry.gateway).isSome := by
    rw [List.find?_isSome]
    exact ⟨r, hacross, decide_eq_true hgateway.symm⟩
  have ⟨r', hr'⟩ := Option.isSome_iff_exists.1 hsome
  have hfound := List.find?_some hr'
  have haddress : some (net.address r') = some (net.address r) :=
    (of_decide_eq_true hfound).trans hgateway
  have heq := eq_of_address (List.mem_of_find?_eq_some hr') hacross (Option.some.inj haddress)
  rw [transmit, hr', heq]
  dsimp only
  rw [hnode]

omit [DecidableEq A] in
/-- What a node reads from a vector on a path. -/
theorem takeIndex_of_path {dest : N} {p : List N} (hsound : net.AllSound)
    (hp : Greedy net.graph dest n (v :: p))
    (hcarries : nixVector.Carries (net.entries n (v :: p))) :
    ∃ nodeIndex nixVector' i d r, net.takeIndex n nixVector = some (nodeIndex, nixVector') ∧
      net.findNetDeviceForNixIndex n nodeIndex = (i, some r) ∧ (net.devices n)[i]? = some d ∧
      net.lastLink n v = some (d, r) ∧ nixVector'.Carries (net.entries v p) := by
  have hsound' := hsound n dest _ hp
  have hv : v ∈ net.children n none n := by
    rw [children_none_eq]
    exact hp.2.1.mem
  have hmem := mem_of_children (fun _ h => absurd h.symm (Option.some_ne_none _)) hv
  have ⟨nodeIndex, nixVector', i, d, r, htake, hfind, hdevice, hlast, _, hrest⟩ :=
    takeIndex_eq (hsound'.agree (n, v) List.mem_cons_self) (hsound'.size (n, v) List.mem_cons_self)
      hmem hcarries
  exact ⟨nodeIndex, nixVector', i, d, r, htake, hfind, hdevice, hlast, hrest⟩

/-- The route that is built for the index of a path. -/
theorem buildRoute_of_path {dest : N} {p : List N} {nodeIndex : UInt32} {i : ℕ} {d r : D}
    {rtentry : Ipv4Route D A} (hdest : net.getNodeByIp destination = some dest)
    (hp : Greedy net.graph dest n (v :: p))
    (hfind : net.findNetDeviceForNixIndex n nodeIndex = (i, some r))
    (hdevice : (net.devices n)[i]? = some d) (hlast : net.lastLink n v = some (d, r))
    (hbuild : net.buildRoute n destination none nodeIndex = some rtentry) :
    net.RouteOnPath n destination rtentry := by
  have ⟨device, hchoose, heq⟩ := Option.map_eq_some_iff.1 hbuild
  rw [hfind] at hchoose heq
  cases hchoose.symm.trans hdevice
  subst heq
  exact ⟨dest, v, p, r, hdest, hp, hlast, rfl, rfl⟩

/-- The vector that a node builds is on the path to its destination. -/
theorem onPath_of_getNixVector (hsound : net.AllSound)
    (h : net.getNixVectorTo n (net.getNodeByIp destination) none = some (some nixVector)) :
    net.OnPath n destination nixVector ∧ net.getNodeByIp destination ≠ some n := by
  have ⟨dest, p, hdest, hne, hp, hadd⟩ := greedy_of_getNixVector h
  rw [children_none_eq] at hp
  have hsound' := hsound n dest p hp
  have hwalk : Walk (net.children n none) n p dest := by
    rw [children_none_eq]
    exact hp.walk
  have hfits := hsound'.fits (fun _ h => absurd h.symm (Option.some_ne_none _)) hwalk
  have ⟨built, hbuilt, _, hcarries⟩ := NixVector.carries_addAll hfits
  cases hadd.symm.trans hbuilt
  refine ⟨⟨dest, p, hdest, hp, hcarries hsound'.bits⟩, ?_⟩
  rw [hdest]
  exact fun heq => hne (Option.some.inj heq).symm

/-! ## What the calls keep -/

theorem NodeConsistent.initial (n : N) : net.NodeConsistent n NixRouting.initial where
  count := .inl rfl
  vectors := fun _ _ h => by cases h
  routes := fun _ _ h => by cases h

theorem NodeConsistent.countNeighbors (h : net.NodeConsistent n s) :
    net.NodeConsistent n (net.countNeighbors n s) where
  count := .inr (countNeighbors_totalNeighbors h.count)
  vectors := by
    rw [countNeighbors_nixCache]
    exact h.vectors
  routes := by
    rw [countNeighbors_ipv4RouteCache]
    exact h.routes

theorem NodeConsistent.insertRoute (h : net.NodeConsistent n s) {rtentry : Ipv4Route D A}
    (hroute : net.RouteOnPath n destination rtentry) :
    net.NodeConsistent n { s with
      ipv4RouteCache := Function.update s.ipv4RouteCache destination (some rtentry) } where
  count := h.count
  vectors := h.vectors
  routes := by
    apply (Function.forall_update_iff s.ipv4RouteCache fun destination' cached =>
      ∀ rtentry', cached = some rtentry' → net.RouteOnPath n destination' rtentry').2
    exact ⟨fun _ heq => Option.some.inj heq ▸ hroute, fun destination' _ => h.routes destination'⟩

theorem NodeConsistent.lookupNixVector (h : net.NodeConsistent n s) (hsound : net.AllSound)
    {v : Option NixVector} {t : NixRouting D A}
    (hlookup : net.lookupNixVector net.getNodeByIp n destination none s = some (v, t)) :
    net.NodeConsistent n t ∧ ∀ nixVector, v = some nixVector →
      net.OnPath n destination nixVector ∧ net.getNodeByIp destination ≠ some n := by
  unfold Network.lookupNixVector at hlookup
  split at hlookup
  · rename_i cached hcached
    cases hlookup
    exact ⟨h, fun _ heq => Option.some.inj heq ▸ h.vectors _ _ hcached⟩
  · obtain ⟨built, hbuilt, heq⟩ := Option.bind_eq_some_iff.1 hlookup
    cases heq
    exact ⟨h, fun _ heq => onPath_of_getNixVector hsound (heq ▸ hbuilt)⟩
  · obtain ⟨built, hbuilt, heq⟩ := Option.bind_eq_some_iff.1 hlookup
    cases heq
    have hpath : ∀ nixVector, v = some nixVector →
        net.OnPath n destination nixVector ∧ net.getNodeByIp destination ≠ some n :=
      fun _ heq => onPath_of_getNixVector hsound (heq ▸ hbuilt)
    refine ⟨⟨h.count, ?_, h.routes⟩, hpath⟩
    apply (Function.forall_update_iff s.nixCache fun destination' cached => ∀ nixVector,
      cached = some (some nixVector) →
        net.OnPath n destination' nixVector ∧ net.getNodeByIp destination' ≠ some n).2
    exact ⟨fun nixVector heq => hpath nixVector (Option.some.inj heq),
      fun destination' _ => h.vectors destination'⟩

/-- A path that does not end here goes on. -/
theorem OnPath.next (h : net.OnPath n destination nixVector)
    (hne : net.getNodeByIp destination ≠ some n) :
    ∃ dest v p, net.getNodeByIp destination = some dest ∧ Greedy net.graph dest n (v :: p) ∧
      nixVector.Carries (net.entries n (v :: p)) := by
  have ⟨dest, p, hdest, hp, hcarries⟩ := h
  cases p with
  | nil =>
    have heq : n = dest := hp
    rw [heq] at hne
    exact absurd hdest hne
  | cons v p => exact ⟨dest, v, p, hdest, hp, hcarries⟩

/-- A route on the path takes the packet to the next node. -/
theorem RouteOnPath.transmit {rtentry : Ipv4Route D A} (h : net.RouteOnPath n destination rtentry)
    {dest : N} {p : List N} (hdest : net.getNodeByIp destination = some dest)
    (hp : Greedy net.graph dest n (v :: p)) (hcarries : nixVector.Carries (net.entries v p)) :
    ∀ q ∈ net.transmit rtentry nixVector, net.OnPath q.location q.destination q.nixVector := by
  have ⟨dest', v', p', r, hdest', hp', hlast, hgateway, hdestination⟩ := h
  cases hdest.symm.trans hdest'
  cases hp.unique hp'
  rw [transmit_eq hlast hgateway, hdestination]
  intro q hq
  rw [List.mem_singleton.1 hq]
  exact ⟨dest, p, hdest, hp.2.2, hcarries⟩

/-- What is taken from a vector on a path, with the number of neighbours that the node keeps. -/
theorem NodeConsistent.takeIndex (h : net.NodeConsistent n s) (hsound : net.AllSound)
    (hpath : net.OnPath n destination nixVector) (hne : net.getNodeByIp destination ≠ some n)
    {taken : UInt32 × NixVector} (htaken : nixVector.extractNeighborIndex
      (NixVector.bitCount (net.countNeighbors n s).totalNeighbors) = some taken) :
    ∃ dest v p i d r, net.getNodeByIp destination = some dest ∧
      Greedy net.graph dest n (v :: p) ∧
      net.findNetDeviceForNixIndex n taken.1 = (i, some r) ∧ (net.devices n)[i]? = some d ∧
      net.lastLink n v = some (d, r) ∧ taken.2.Carries (net.entries v p) := by
  have ⟨dest, v, p, hdest, hp, hcarries⟩ := hpath.next hne
  have ⟨nodeIndex, nixVector', i, d, r, htake, hfind, hdevice, hlast, hrest⟩ :=
    takeIndex_of_path hsound hp hcarries
  rw [countNeighbors_totalNeighbors h.count] at htaken
  cases htake.symm.trans htaken
  exact ⟨dest, v, p, i, d, r, hdest, hp, hfind, hdevice, hlast, hrest⟩

omit [DecidableEq N] in
/-- What `RouteInput` leaves in the caches. -/
theorem routeInput_state {t : NixRouting D A} {rtentry : Ipv4Route D A} {nixVector' : NixVector}
    (h : net.routeInput n destination nixVector s = some (t, rtentry, nixVector')) :
    t.totalNeighbors = (net.countNeighbors n s).totalNeighbors ∧ t.nixCache = s.nixCache := by
  have ⟨taken, _, hrest⟩ := Option.bind_eq_some_iff.1 h
  dsimp only at hrest
  split at hrest
  · cases hrest
    exact ⟨rfl, countNeighbors_nixCache s⟩
  · have ⟨built, _, heq⟩ := Option.bind_eq_some_iff.1 hrest
    cases heq
    exact ⟨rfl, countNeighbors_nixCache s⟩

theorem NodeConsistent.routeInput (h : net.NodeConsistent n s) (hsound : net.AllSound)
    (hpath : net.OnPath n destination nixVector) (hne : net.getNodeByIp destination ≠ some n)
    {t : NixRouting D A} {rtentry : Ipv4Route D A} {nixVector' : NixVector}
    (hcall : net.routeInput n destination nixVector s = some (t, rtentry, nixVector')) :
    net.NodeConsistent n t ∧
      ∀ q ∈ net.transmit rtentry nixVector', net.OnPath q.location q.destination q.nixVector := by
  have ⟨taken, htaken, hrest⟩ := Option.bind_eq_some_iff.1 hcall
  have ⟨dest, v, p, i, d, r, hdest, hp, hfind, hdevice, hlast, hcarries⟩ :=
    h.takeIndex hsound hpath hne htaken
  dsimp only at hrest
  split at hrest
  · rename_i cached hcached
    cases hrest
    have hroute := h.countNeighbors.routes _ _ hcached
    exact ⟨h.countNeighbors, hroute.transmit hdest hp hcarries⟩
  · have ⟨built, hbuilt, heq⟩ := Option.bind_eq_some_iff.1 hrest
    cases heq
    have hroute := buildRoute_of_path hdest hp hfind hdevice hlast hbuilt
    exact ⟨h.countNeighbors.insertRoute hroute, hroute.transmit hdest hp hcarries⟩

theorem NodeConsistent.routeOutput (h : net.NodeConsistent n s) (hsound : net.AllSound)
    {t : NixRouting D A} {out : RouteOutput D A}
    (hcall : net.routeOutput net.getNodeByIp n destination none s = some (t, out)) :
    net.NodeConsistent n t ∧ ∀ rtentry nixVector, out.rtentry = some rtentry →
      out.nixVector = some nixVector → ∀ q ∈ net.transmit rtentry nixVector,
        net.OnPath q.location q.destination q.nixVector := by
  have ⟨⟨v, s'⟩, hlookup, hrest⟩ := Option.bind_eq_some_iff.1 hcall
  have ⟨hs', hvector⟩ := h.lookupNixVector hsound hlookup
  cases v with
  | none =>
    cases hrest
    exact ⟨hs', fun _ _ hfalse => by cases hfalse⟩
  | some nixVector =>
    have ⟨hpath, hne⟩ := hvector nixVector rfl
    have ⟨taken, htaken, hroute⟩ := Option.bind_eq_some_iff.1 hrest
    have ⟨dest, v, p, i, d, r, hdest, hp, hfind, hdevice, hlast, hcarries⟩ :=
      hs'.takeIndex hsound hpath hne htaken
    dsimp only at hroute
    split at hroute
    · rename_i cached hcached
      have ⟨_, hdevice⟩ := Option.filter_eq_some_iff.1 hcached
      exact absurd (of_decide_eq_true hdevice) (Option.some_ne_none _)
    · have ⟨built, hbuilt, heq⟩ := Option.bind_eq_some_iff.1 hroute
      cases heq
      have hroute' := buildRoute_of_path hdest hp hfind hdevice hlast hbuilt
      refine ⟨hs'.countNeighbors.insertRoute hroute', fun rtentry nixVector' hrt hnv => ?_⟩
      cases hrt
      cases hnv
      exact hroute'.transmit hdest hp hcarries

theorem Consistent.step (hsound : net.AllSound) {s t : Traffic N D A} {e : TrafficEvent N A}
    (h : net.Consistent s) (hstep : net.trafficStep s e = some t) : net.Consistent t := by
  have hupdate : ∀ {n} {routing : NixRouting D A}, net.NodeConsistent n routing →
      ∀ m, net.NodeConsistent m (Function.update s.routing n routing m) := fun hn =>
    (Function.forall_update_iff s.routing fun m routing => net.NodeConsistent m routing).2
      ⟨hn, fun m _ => h.nodes m⟩
  have herase : ∀ packet, ∀ q ∈ s.packets.eraseIdx packet,
      net.OnPath q.location q.destination q.nixVector :=
    fun _ q hq => h.packets q (List.mem_of_mem_eraseIdx hq)
  cases e with
  | send source destination =>
    obtain ⟨⟨routing, out⟩, hcall, heq⟩ := Option.bind_eq_some_iff.1 hstep
    obtain ⟨hn, hsent⟩ := (h.nodes source).routeOutput hsound hcall
    cases heq
    refine ⟨hupdate hn, fun q hq => ?_⟩
    rcases List.mem_append.1 hq with hq | hq
    · exact h.packets q hq
    · split at hq
      · rename_i rtentry nixVector hrt hnv
        exact hsent rtentry nixVector hrt hnv q hq
      · exact absurd hq List.not_mem_nil
  | forward packet =>
    obtain ⟨p, hp, hrest⟩ := Option.bind_eq_some_iff.1 hstep
    split_ifs at hrest with hhere
    obtain ⟨⟨routing, rtentry, nixVector⟩, hcall, heq⟩ := Option.bind_eq_some_iff.1 hrest
    obtain ⟨hn, hsent⟩ := (h.nodes p.location).routeInput hsound
      (h.packets p (List.mem_of_getElem? hp)) hhere hcall
    cases heq
    refine ⟨hupdate hn, fun q hq => ?_⟩
    rcases List.mem_append.1 hq with hq | hq
    · exact herase packet q hq
    · exact hsent q hq
  | deliver packet =>
    obtain ⟨p, hp, hrest⟩ := Option.bind_eq_some_iff.1 hstep
    split_ifs at hrest
    cases hrest
    exact ⟨h.nodes, herase packet⟩
  | lose packet =>
    cases hstep
    exact ⟨h.nodes, herase packet⟩

theorem Consistent.cacheAgrees (hsound : net.AllSound) {s : Traffic N D A}
    (h : net.Consistent s) : ∀ p ∈ s.packets, net.CacheAgrees s p := by
  intro p hp hne rtentry hcached nodeIndex nixVector htaken
  have ⟨dest, v, q, i, d, r, hdest, hq, hfind, hdevice, hlast, _⟩ :=
    (h.nodes p.location).takeIndex hsound (h.packets p hp) hne htaken
  have ⟨dest', v', q', r', hdest', hq', hlast', hgateway, _⟩ :=
    (h.nodes p.location).routes _ _ hcached
  cases hdest.symm.trans hdest'
  cases hq.unique hq'
  cases hlast.symm.trans hlast'
  rw [hfind, hgateway]
  exact ⟨rfl, hdevice⟩

/-- Where encoder and decoder agree, whatever packets have filled the caches, in any order: the
cached route of a packet that is to be forwarded is the one its own index gives. -/
theorem cached_route_agrees (net : Network N D C A) (hsound : net.AllSound) {s : Traffic N D A}
    (hs : Reachable {Traffic.quiet} (fun s t => ∃ e, net.trafficStep s e = some t) s) :
    ∀ p ∈ s.packets, net.CacheAgrees s p := by
  have hconsistent : net.Consistent s := by
    apply hs.invariant
    · intro s₀ h₀
      rw [Set.mem_singleton_iff.1 h₀]
      exact ⟨NodeConsistent.initial, fun p hp => absurd hp List.not_mem_nil⟩
    · intro s t h ⟨e, hstep⟩
      exact h.step hsound hstep
  exact hconsistent.cacheAgrees hsound

end Invariant

end Network

/-- Node 0 has its device 0 on the channel with nodes 1 and 4 in a bridge, device 1.  From 1 a path
leads over 2 to 3, and a second link to 4. -/
def bridgedRouter : Network (Fin 5) (Fin 10) (Fin 5) (Fin 10) where
  nodes := [0, 1, 2, 3, 4]
  devices := fun n => match n with
    | 0 => [0, 1]
    | 1 => [2, 3, 4]
    | 2 => [5, 6]
    | 3 => [7]
    | 4 => [8, 9]
  node := fun d => match d with
    | 0 | 1 => 0
    | 2 | 3 | 4 => 1
    | 5 | 6 => 2
    | 7 => 3
    | 8 | 9 => 4
  isBridge := fun d => d = 1
  bridgePorts := fun d => if d = 1 then [0] else []
  channel := fun d => match d with
    | 0 | 2 | 8 => some 0
    | 1 => some 1
    | 3 | 6 => some 2
    | 5 | 7 => some 3
    | 4 | 9 => some 4
  channelDevices := fun c => match c with
    | 0 | 1 => [0, 2, 8]
    | 2 => [3, 6]
    | 3 => [5, 7]
    | 4 => [4, 9]
  isLinkUp := fun _ => true
  isUp := fun _ => true
  address := fun d => d
  isLoopback := fun _ => false
  depth := 2
  loopFree := by decide
  mem_nodes := by decide
  node_devices := by decide
  attached := by decide
  distinct := by decide

/-- Node 4 sends to node 3, and node 1 forwards the packet.  Then node 0 sends to node 3: it takes
two bits where one has been added, and node 1 is left with another index. -/
theorem not_cached_route_agrees : ¬ ∀ (net : Network (Fin 5) (Fin 10) (Fin 5) (Fin 10))
    (s : Traffic (Fin 5) (Fin 10) (Fin 10)),
    Reachable {Traffic.quiet} (fun s t => ∃ e, net.trafficStep s e = some t) s →
    ∀ p ∈ s.packets, net.CacheAgrees s p := by
  intro h
  have hrun : ([.send 4 7, .forward 0, .send 0 7].foldlM
      (fun s e => bridgedRouter.trafficStep s e) Traffic.quiet).map (fun s =>
        (s.packets[1]?, (s.routing 1).ipv4RouteCache 7, (s.routing 1).totalNeighbors)) =
      some (some ⟨1, 7, ⟨[], 2, 2, 4, 4⟩⟩, some ⟨3, some 6, 7, 3⟩, 3) := by decide
  have ⟨s, hs, hstate⟩ := Option.map_eq_some_iff.1 hrun
  have hpacket : s.packets[1]? = some ⟨1, 7, ⟨[], 2, 2, 4, 4⟩⟩ := congrArg Prod.fst hstate
  have hcached : (s.routing 1).ipv4RouteCache 7 = some ⟨3, some 6, 7, 3⟩ :=
    congrArg (fun x => x.2.1) hstate
  have htotal : (s.routing 1).totalNeighbors = 3 := congrArg (fun x => x.2.2) hstate
  have ⟨_, hrun'⟩ := Run.of_foldlM hs
  have hreachable := hrun'.reachable
  have hagrees := h bridgedRouter s hreachable _ (List.mem_of_getElem? hpacket) (by decide) _
    hcached
  have hcount : (bridgedRouter.countNeighbors 1 (s.routing 1)).totalNeighbors = 3 := by
    rw [Network.countNeighbors, htotal, if_neg (by decide), htotal]
  rw [hcount] at hagrees
  have hgateway := (hagrees 2 ⟨[], 2, 4, 4, 4⟩ (by decide)).1
  exact absurd hgateway (by decide)

/-- A second packet on the way of a first one. -/
theorem cached_route_agrees_diamond : ∃ s : Traffic (Fin 4) (Fin 8) (Fin 8),
    Reachable {Traffic.quiet} (fun s t => ∃ e, diamond.trafficStep s e = some t) s ∧
      (∃ p ∈ s.packets, diamond.getNodeByIp p.destination ≠ some p.location ∧
        ((s.routing p.location).ipv4RouteCache p.destination).isSome) ∧
      ∀ p ∈ s.packets, diamond.CacheAgrees s p := by
  have hrun : ([.send 0 6, .forward 0, .send 0 6].foldlM
      (fun s e => diamond.trafficStep s e) Traffic.quiet).map (fun s => s.packets.any fun p =>
        decide (diamond.getNodeByIp p.destination ≠ some p.location ∧
          ((s.routing p.location).ipv4RouteCache p.destination).isSome)) = some true := by decide
  have ⟨s, hs, hpacket⟩ := Option.map_eq_some_iff.1 hrun
  have ⟨_, hrun'⟩ := Run.of_foldlM hs
  have hreachable := hrun'.reachable
  have ⟨p, hp, hforwarded⟩ := List.any_eq_true.1 hpacket
  refine ⟨s, hreachable, ⟨p, hp, of_decide_eq_true hforwarded⟩,
    Network.cached_route_agrees diamond ?_ hreachable⟩
  intro source dest q hq
  rw [← Network.children_none_eq source] at hq
  exact Network.sound_of_nodes (by decide) (by decide) (by decide) hq

end SeanetSim
