import SeanetSim.Internet.Ipv4StaticRouting
import SeanetSim.Lib.Selection
import SeanetSim.Olsr.OlsrRepositories

/-!
# The HNA routes of OLSR

The last step of `RoutingTableComputation` empties the table of the routes to associated networks
and fills it again.  The loop that empties it removes the first route as long as its counter is
below the number of routes, which shrinks while the counter grows: only half of the routes go
(`clearHna_eq`).  A route that is left over gives way to a nearer gateway and to nothing else, so
the table is rebuilt exactly when no other routes are left over: `isRebuilt_iff`.
-/

namespace SeanetSim.Olsr

/-- A route of `m_hnaRoutingTable` with its metric. -/
abbrev HnaRoute := Ipv4RoutingTableEntry × UInt32

/-- The network that a route leads to. -/
def network (route : HnaRoute) : Association := ⟨route.1.dest.address, route.1.destNetworkMask⟩

/-- The route that `AddNetworkRouteTo` appends. -/
def networkRouteTo (net : Association) (gateway : RoutingTableEntry) : HnaRoute :=
  ({ dest := .ofUInt32 net.networkAddr
     destNetworkMask := net.netmask
     gateway := .ofUInt32 gateway.nextAddr
     interface := gateway.interface }, gateway.distance)

/-- The loop that clears the table, from a value of its counter on. -/
def clearHna : ℕ → List HnaRoute → List HnaRoute
  | _, [] => []
  | i, route :: routes =>
    if i < (route :: routes).length then clearHna (i + 1) routes else route :: routes

/-- The turn for one tuple of the association set. -/
def addAssociation (localHnaAssociations : List Association) (table : RoutingTable)
    (routes : List HnaRoute) (tuple : AssociationTuple) : List HnaRoute :=
  if localHnaAssociations.any fun localHnaAssoc =>
      localHnaAssoc.networkAddr == tuple.networkAddr && localHnaAssoc.netmask == tuple.netmask then
    routes
  else
    let gatewayEntry := table tuple.gatewayAddr
    let routeIndex := routes.findIdx fun route =>
      route.1.dest.address == tuple.networkAddr && route.1.destNetworkMask == tuple.netmask
    match routes[routeIndex]?, gatewayEntry with
    | none, some gatewayEntry => routes ++ [networkRouteTo tuple.association gatewayEntry]
    | some route, some gatewayEntry =>
      if route.2 > gatewayEntry.distance then
        routes.eraseIdx routeIndex ++ [networkRouteTo tuple.association gatewayEntry]
      else routes
    | _, none => routes

/-- The HNA part of `RoutingTableComputation`, with the routing table that the steps before it have
computed. -/
def hnaComputation (localHnaAssociations : List Association)
    (associationSet : List AssociationTuple) (table : RoutingTable) (routes : List HnaRoute) :
    List HnaRoute :=
  associationSet.foldl (addAssociation localHnaAssociations table) (clearHna 0 routes)

/-! ## The loop that clears the table -/

theorem clearHna_eq (i : ℕ) (routes : List HnaRoute) :
    clearHna i routes = routes.drop ((routes.length + 1 - i) / 2) := by
  induction routes generalizing i with
  | nil => rw [clearHna, List.drop_nil]
  | cons route routes ih =>
    rw [clearHna, ih]
    split
    · rename_i h
      have hhalf : ((route :: routes).length + 1 - i) / 2 =
          (routes.length + 1 - (i + 1)) / 2 + 1 := by
        rw [List.length_cons] at h ⊢
        omega
      rw [hhalf, List.drop_succ_cons]
    · rename_i h
      have hhalf : ((route :: routes).length + 1 - i) / 2 = 0 := by omega
      rw [hhalf, List.drop_zero]

/-! ## The routes to one network -/

variable {localHnaAssociations : List Association} {associationSet : List AssociationTuple}
  {table : RoutingTable} {routes : List HnaRoute} {net : Association}

/-- The routes to the reachable gateways of a network that the node does not announce itself. -/
def gatewayEntries (localHnaAssociations : List Association)
    (associationSet : List AssociationTuple) (table : RoutingTable) (net : Association) :
    List RoutingTableEntry :=
  if net ∈ localHnaAssociations then []
  else (associationSet.filter fun tuple => tuple.association = net).filterMap
    fun tuple => table tuple.gatewayAddr

def routesTo (net : Association) (routes : List HnaRoute) : List HnaRoute :=
  routes.filter fun route => network route = net

/-- One turn, seen from the routes to its network. -/
def keepNearer (net : Association) : List HnaRoute → RoutingTableEntry → List HnaRoute
  | [], gateway => [networkRouteTo net gateway]
  | route :: rest, gateway =>
    if gateway.distance < route.2 then rest ++ [networkRouteTo net gateway] else route :: rest

theorem filter_eraseIdx_findIdx (p : HnaRoute → Bool) (l : List HnaRoute) :
    (l.eraseIdx (l.findIdx p)).filter p = (l.filter p).tail := by
  induction l with
  | nil => rfl
  | cons a l ih =>
    cases hp : p a <;> simp [List.findIdx_cons, hp, ih]

theorem filter_eraseIdx_findIdx_of_disjoint {p q : HnaRoute → Bool} (hpq : ∀ a, p a → ¬ q a)
    (l : List HnaRoute) : (l.eraseIdx (l.findIdx p)).filter q = l.filter q := by
  induction l with
  | nil => rfl
  | cons a l ih =>
    cases hp : p a
    · simp [List.findIdx_cons, hp, List.filter_cons, ih]
    · simp [List.findIdx_cons, hp, hpq a hp]

theorem network_networkRouteTo (net : Association) (gateway : RoutingTableEntry) :
    network (networkRouteTo net gateway) = net := rfl

theorem routesTo_append_networkRouteTo (net' : Association) (gateway : RoutingTableEntry) :
    routesTo net (routes ++ [networkRouteTo net' gateway]) =
      if net' = net then routesTo net routes ++ [networkRouteTo net gateway]
      else routesTo net routes := by
  unfold routesTo
  rw [List.filter_append, List.filter_singleton, network_networkRouteTo]
  split_ifs with h
  · rw [h, decide_eq_true rfl, cond_true]
  · rw [decide_eq_false h, cond_false, List.append_nil]

theorem addAssociation_eq (tuple : AssociationTuple) :
    addAssociation localHnaAssociations table routes tuple =
      if tuple.association ∈ localHnaAssociations then routes
      else
        match (routesTo tuple.association routes).head?, table tuple.gatewayAddr with
        | none, some gateway => routes ++ [networkRouteTo tuple.association gateway]
        | some route, some gateway =>
          if gateway.distance < route.2 then
            routes.eraseIdx (routes.findIdx fun route => network route = tuple.association) ++
              [networkRouteTo tuple.association gateway]
          else routes
        | _, none => routes := by
  have hassoc (a : Association) : (a.networkAddr == tuple.networkAddr &&
      a.netmask == tuple.netmask) = decide (a = tuple.association) := by
    rw [Bool.eq_iff_iff]
    simp [AssociationTuple.association, Association.ext_iff]
  have hlocal : (localHnaAssociations.any fun a => decide (a = tuple.association)) =
      decide (tuple.association ∈ localHnaAssociations) := by
    rw [Bool.eq_iff_iff]
    simp
  have hnet (route : HnaRoute) : (route.1.dest.address == tuple.networkAddr &&
      route.1.destNetworkMask == tuple.netmask) = decide (network route = tuple.association) :=
    hassoc (network route)
  unfold addAssociation
  simp only [hassoc, hlocal, hnet, ← List.find?_eq_getElem?_findIdx, ← List.head?_filter,
    decide_eq_true_eq]
  rfl

theorem routesTo_eraseIdx (net' : Association) :
    routesTo net (routes.eraseIdx (routes.findIdx fun route => network route = net')) =
      if net' = net then (routesTo net routes).tail else routesTo net routes := by
  split_ifs with h
  · rw [h]
    exact filter_eraseIdx_findIdx _ _
  · refine filter_eraseIdx_findIdx_of_disjoint (fun route hroute => ?_) _
    rw [decide_eq_true_eq] at hroute ⊢
    exact fun heq => h (hroute.symm.trans heq)

theorem gatewayEntries_singleton (tuple : AssociationTuple) :
    gatewayEntries localHnaAssociations [tuple] table net =
      if net ∈ localHnaAssociations ∨ tuple.association ≠ net then []
      else (table tuple.gatewayAddr).toList := by
  unfold gatewayEntries
  by_cases hlocal : net ∈ localHnaAssociations
  · simp [hlocal]
  · by_cases hnet : tuple.association = net
    · cases hgw : table tuple.gatewayAddr <;> simp [hlocal, hnet, hgw]
    · simp [hlocal, hnet]

/-- A turn changes the routes to its own network only. -/
theorem routesTo_addAssociation (tuple : AssociationTuple) :
    routesTo net (addAssociation localHnaAssociations table routes tuple) =
      (gatewayEntries localHnaAssociations [tuple] table net).foldl (keepNearer net)
        (routesTo net routes) := by
  rw [addAssociation_eq, gatewayEntries_singleton]
  by_cases hnet : tuple.association = net
  · subst hnet
    by_cases hlocal : tuple.association ∈ localHnaAssociations
    · rw [if_pos hlocal, if_pos (.inl hlocal), List.foldl_nil]
    rw [if_neg hlocal, if_neg (by simp [hlocal])]
    cases table tuple.gatewayAddr with
    | none => cases (routesTo tuple.association routes).head? <;> rfl
    | some gateway =>
      cases hroutes : routesTo tuple.association routes with
      | nil =>
        change routesTo _ (routes ++ _) = [_]
        rw [routesTo_append_networkRouteTo, if_pos rfl, hroutes, List.nil_append]
      | cons route rest =>
        change routesTo _ (if _ then _ else _) = if _ then _ else _
        split_ifs
        · rw [routesTo_append_networkRouteTo, if_pos rfl, routesTo_eraseIdx, if_pos rfl, hroutes,
            List.tail_cons]
        · exact hroutes
  · have hnone : (if net ∈ localHnaAssociations ∨ tuple.association ≠ net then []
        else (table tuple.gatewayAddr).toList) = [] := if_pos (.inr hnet)
    rw [hnone, List.foldl_nil]
    split_ifs
    · rfl
    · split
      · rw [routesTo_append_networkRouteTo, if_neg hnet]
      · split_ifs
        · rw [routesTo_append_networkRouteTo, if_neg hnet, routesTo_eraseIdx, if_neg hnet]
        · rfl
      · rfl

theorem gatewayEntries_cons (tuple : AssociationTuple) (tuples : List AssociationTuple) :
    gatewayEntries localHnaAssociations (tuple :: tuples) table net =
      gatewayEntries localHnaAssociations [tuple] table net ++
        gatewayEntries localHnaAssociations tuples table net := by
  unfold gatewayEntries
  split_ifs
  · rfl
  · rw [← List.filterMap_append, ← List.filter_append, List.singleton_append]

/-- The routes to a network after the loop over the association set. -/
theorem routesTo_hnaComputation (routes : List HnaRoute) :
    routesTo net (hnaComputation localHnaAssociations associationSet table routes) =
      (gatewayEntries localHnaAssociations associationSet table net).foldl (keepNearer net)
        (routesTo net (clearHna 0 routes)) := by
  unfold hnaComputation
  generalize clearHna 0 routes = left
  induction associationSet generalizing left with
  | nil => simp [gatewayEntries]
  | cons tuple tuples ih =>
    rw [List.foldl_cons, ih, routesTo_addAssociation, gatewayEntries_cons tuple tuples,
      List.foldl_append]

/-! ## Keeping the nearer gateway -/

theorem length_keepNearer (net : Association) (l : List HnaRoute) (gateway : RoutingTableEntry) :
    (keepNearer net l gateway).length = max 1 l.length := by
  cases l with
  | nil => rfl
  | cons route rest =>
    rw [keepNearer]
    split_ifs <;> simp

theorem length_foldl_keepNearer (net : Association) (gateways : List RoutingTableEntry)
    {l : List HnaRoute} (h : l ≠ []) : (gateways.foldl (keepNearer net) l).length = l.length := by
  have hpos : 0 < l.length := List.length_pos_iff.2 h
  induction gateways generalizing l with
  | nil => rfl
  | cons gateway gateways ih =>
    have hlen := length_keepNearer net l gateway
    rw [List.foldl_cons, ih (List.ne_nil_of_length_pos (by omega)) (by omega), hlen]
    omega

/-- The entry of a nearest gateway. -/
def IsNearest (gateways : List RoutingTableEntry) (gateway : RoutingTableEntry) : Prop :=
  gateway ∈ gateways ∧ ∀ other ∈ gateways, gateway.distance ≤ other.distance

/-- The loop over the gateways of a network, from a single route on. -/
theorem foldl_keepNearer_singleton (gateways : List RoutingTableEntry) (route : HnaRoute) :
    gateways.foldl (keepNearer net) [route] =
      [((gateways.map (networkRouteTo net)).foldl (keepBest (· < ·) fun r => some r.2.toNat)
        (route, route.2.toNat)).1] := by
  induction gateways generalizing route with
  | nil => rfl
  | cons gateway gateways ih =>
    rw [List.foldl_cons, List.map_cons, List.foldl_cons, keepBest_some, keepNearer]
    have hiff : (networkRouteTo net gateway).2.toNat < (route, route.2.toNat).2 ↔
        gateway.distance < route.2 := UInt32.lt_iff_toNat_lt.symm
    by_cases hlt : gateway.distance < route.2
    · rw [if_pos hlt, if_pos (hiff.2 hlt)]
      exact ih (networkRouteTo net gateway)
    · rw [if_neg hlt, if_neg (mt hiff.1 hlt)]
      exact ih route

theorem foldl_keepNearer_cases (net : Association) (gateways : List RoutingTableEntry)
    (route : HnaRoute) :
    (gateways.foldl (keepNearer net) [route] = [route] ∧
        ∀ gateway ∈ gateways, route.2 ≤ gateway.distance) ∨
      ∃ gateway, IsNearest gateways gateway ∧ gateway.distance < route.2 ∧
        gateways.foldl (keepNearer net) [route] = [networkRouteTo net gateway] := by
  rw [foldl_keepNearer_singleton]
  have hle (g : RoutingTableEntry) (hg : g ∈ gateways) :
      (((gateways.map (networkRouteTo net)).foldl
        (keepBest (· < ·) fun r : HnaRoute => some r.2.toNat) (route, route.2.toNat)).2 : ℕ) ≤ _ :=
    foldl_keepBest_le (fun _ _ => le_of_lt) (fun _ _ => not_lt.1) (route, route.2.toNat)
      (List.mem_map_of_mem (f := networkRouteTo net) hg) rfl
  rcases foldl_keepBest_cases (· < ·) (fun r : HnaRoute => some r.2.toNat)
      (gateways.map (networkRouteTo net)) (route, route.2.toNat) with
    ⟨h, hnone⟩ | ⟨r, hr, d, hd, hlt, h⟩
  · refine .inl ⟨by rw [h], fun g hg => UInt32.le_iff_toNat_le.2 (not_lt.1 ?_)⟩
    exact hnone _ (List.mem_map_of_mem hg) _ rfl
  · obtain ⟨gateway, hmem, rfl⟩ := List.mem_map.1 hr
    obtain rfl := Option.some.inj hd
    rw [h] at hle
    refine .inr ⟨gateway, ⟨hmem, fun g hg => UInt32.le_iff_toNat_le.2 (hle g hg)⟩,
      UInt32.lt_iff_toNat_lt.2 hlt, by rw [h]⟩

theorem foldl_keepNearer_nil {gateways : List RoutingTableEntry} (h : gateways ≠ []) :
    ∃ gateway, IsNearest gateways gateway ∧
      gateways.foldl (keepNearer net) [] = [networkRouteTo net gateway] := by
  cases gateways with
  | nil => exact absurd rfl h
  | cons first rest =>
    rw [List.foldl_cons]
    rcases foldl_keepNearer_cases net rest (networkRouteTo net first) with
      ⟨heq, hle⟩ | ⟨gateway, ⟨hmem, hle⟩, hlt, heq⟩
    · exact ⟨first, ⟨List.mem_cons_self, List.forall_mem_cons.2 ⟨UInt32.le_refl _, hle⟩⟩, heq⟩
    · exact ⟨gateway, ⟨List.mem_cons_of_mem _ hmem,
        List.forall_mem_cons.2 ⟨UInt32.le_of_lt hlt, hle⟩⟩, heq⟩

/-! ## The table after the computation -/

/-- One route to every announced network with a reachable gateway, through a nearest one, and no
other routes. -/
def IsRebuilt (localHnaAssociations : List Association) (associationSet : List AssociationTuple)
    (table : RoutingTable) (routes : List HnaRoute) : Prop :=
  ∀ net,
    let gateways := gatewayEntries localHnaAssociations associationSet table net
    (gateways = [] → routesTo net routes = []) ∧
      (gateways ≠ [] → ∃ gateway, IsNearest gateways gateway ∧
        routesTo net routes = [networkRouteTo net gateway])

/-- At most one route to a network is left over, and then a nearest gateway either replaces it or
has that very route. -/
def GivesWay (gateways : List RoutingTableEntry) (net : Association)
    (left : List HnaRoute) : Prop :=
  left = [] ∨ ∃ route, left = [route] ∧ ∃ gateway, IsNearest gateways gateway ∧
    (gateway.distance < route.2 ∨ route = networkRouteTo net gateway)

theorem foldl_keepNearer_iff (gateways : List RoutingTableEntry) (left : List HnaRoute) :
    ((gateways = [] → gateways.foldl (keepNearer net) left = []) ∧
      (gateways ≠ [] → ∃ gateway, IsNearest gateways gateway ∧
        gateways.foldl (keepNearer net) left = [networkRouteTo net gateway])) ↔
      GivesWay gateways net left := by
  constructor
  · rintro ⟨hempty, hone⟩
    by_cases hleft : left = []
    · exact .inl hleft
    have hlen := length_foldl_keepNearer net gateways hleft
    have hne : gateways ≠ [] := by
      rintro rfl
      exact hleft (hempty rfl)
    obtain ⟨gateway, hnear, heq⟩ := hone hne
    rw [heq] at hlen
    obtain ⟨route, rfl⟩ := List.length_eq_one_iff.1 hlen.symm
    refine .inr ⟨route, rfl, gateway, hnear, ?_⟩
    rcases foldl_keepNearer_cases net gateways route with
      ⟨hsame, -⟩ | ⟨other, hother, hlt, -⟩
    · exact .inr (List.singleton_inj.1 (hsame.symm.trans heq))
    · exact .inl (UInt32.lt_of_le_of_lt (hnear.2 other hother.1) hlt)
  · rintro (rfl | ⟨route, rfl, gateway, hnear, hway⟩)
    · exact ⟨fun h => by rw [h]; rfl, foldl_keepNearer_nil⟩
    · refine ⟨fun h => ?_, fun _ => ?_⟩
      · rw [h] at hnear
        exact absurd hnear.1 List.not_mem_nil
      rcases foldl_keepNearer_cases net gateways route with
        ⟨hsame, hle⟩ | ⟨other, hother, hlt, heq⟩
      · have hroute := hway.resolve_left (UInt32.not_lt.2 (hle gateway hnear.1))
        exact ⟨gateway, hnear, hroute ▸ hsame⟩
      · exact ⟨other, hother, heq⟩

/-- The table is rebuilt exactly if every route in its second half gives way. -/
theorem isRebuilt_iff (localHnaAssociations : List Association)
    (associationSet : List AssociationTuple) (table : RoutingTable) (routes : List HnaRoute) :
    IsRebuilt localHnaAssociations associationSet table
        (hnaComputation localHnaAssociations associationSet table routes) ↔
      ∀ net, GivesWay (gatewayEntries localHnaAssociations associationSet table net) net
        (routesTo net (routes.drop ((routes.length + 1) / 2))) := by
  refine forall_congr' fun net => ?_
  rw [routesTo_hnaComputation, clearHna_eq, Nat.sub_zero]
  exact foldl_keepNearer_iff ..

/-- Of two routes to networks that nobody announces any more, one stays. -/
theorem not_isRebuilt_two_routes :
    ¬ IsRebuilt [] [] (fun _ => none)
      (hnaComputation [] [] (fun _ => none)
        [networkRouteTo ⟨0x0a000000, 0xff000000⟩ ⟨0x0b000001, 0x0b000001, 1, 1⟩,
          networkRouteTo ⟨0x0c000000, 0xff000000⟩ ⟨0x0b000001, 0x0b000001, 1, 1⟩]) := by
  intro h
  have hstale := (h ⟨0x0c000000, 0xff000000⟩).1 (by decide)
  revert hstale
  decide

end SeanetSim.Olsr
