import SeanetSim.GlobalRouting.NextHop

/-!
# Stub nodes

A router whose only transit link is a point-to-point link gets a default route from
`CheckForStubNode`.  The full calculation has one exit for everything behind that link: the next hop
is the link data of the first record by which the neighbour names the router, whatever its type,
where `CheckForStubNode` looks at point-to-point records only (`SpfContext.stubAgrees_iff`).
-/

namespace SeanetSim

namespace SpfContext

variable {c : SpfContext} {rootLsa wLsa : GlobalRoutingLSA} {l : GlobalRoutingLinkRecord}
  {s t : SpfState} {v w x : SPFVertex} {fuel : ℕ}

/-! ### Routes of a vertex -/

section Routes

variable {r : GlobalRoute} {node : ℕ} {kind : RouteKind} {dest mask : UInt32}

theorem exit_of_mem_exitRoutes (h : r ∈ exitRoutes v node kind dest mask) :
    (r.nextHop, r.interface) ∈ v.ecmpRootExits ∧ 0 ≤ r.interface := by
  obtain ⟨exit, hexit, rfl⟩ := List.mem_map.1 h
  have hmem := List.mem_filter.1 hexit
  exact ⟨hmem.1, of_decide_eq_true hmem.2⟩

theorem exit_of_mem_spfIntraAddRouter (h : r ∈ c.spfIntraAddRouter v) :
    (r.nextHop, r.interface) ∈ v.ecmpRootExits ∧ 0 ≤ r.interface := by
  unfold spfIntraAddRouter at h
  split at h
  · nomatch h
  · obtain ⟨lr, -, h⟩ := List.mem_flatMap.1 h
    exact exit_of_mem_exitRoutes h

theorem exit_of_mem_spfIntraAddTransit (h : r ∈ c.spfIntraAddTransit v) :
    (r.nextHop, r.interface) ∈ v.ecmpRootExits ∧ 0 ≤ r.interface := by
  unfold spfIntraAddTransit at h
  split at h
  · nomatch h
  · obtain ⟨node, -, h⟩ := List.mem_flatMap.1 h
    exact exit_of_mem_exitRoutes h

theorem exit_of_mem_stubRoutes (h : r ∈ c.stubRoutes v) :
    (r.nextHop, r.interface) ∈ v.ecmpRootExits ∧ 0 ≤ r.interface := by
  obtain ⟨l, -, h⟩ := List.mem_flatMap.1 h
  unfold spfIntraAddStub at h
  split_ifs at h
  · nomatch h
  · split at h
    · nomatch h
    · exact exit_of_mem_exitRoutes h

theorem exit_of_mem_externalRoutes {extlsa : AsExternalLSA} (h : r ∈ c.externalRoutes extlsa v) :
    (r.nextHop, r.interface) ∈ v.ecmpRootExits ∧ 0 ≤ r.interface := by
  unfold externalRoutes spfAddASExternal at h
  split_ifs at h
  · nomatch h
  · split at h
    · nomatch h
    · exact exit_of_mem_exitRoutes h
  · nomatch h

/-- A walk over the tree adds what it adds at the vertices. -/
theorem forall_routes_of_processVertex {P : GlobalRoute → Prop}
    {visit : SPFVertex → List GlobalRoute} {tree : List SPFVertex}
    (htree : ∀ x ∈ tree, ∀ r ∈ visit x, P r) {a b : List UInt32 × List GlobalRoute}
    (hv : ∀ r ∈ visit v, P r) (ha : ∀ r ∈ a.2, P r)
    (h : processVertex visit tree fuel v a = .ok b) : ∀ r ∈ b.2, P r := by
  induction fuel generalizing v a b with
  | zero => nomatch h
  | succ fuel ih =>
    rw [processVertex] at h
    have hvisit : ∀ r ∈ a.2 ++ visit v, P r := List.forall_mem_append.2 ⟨ha, hv⟩
    refine foldlM_invariant (I := fun b => ∀ r ∈ b.2, P r)
      (fun a' b' child hchild ha' hstep => ?_) hvisit h
    have hmem := (List.mem_filter.1 hchild).1
    split_ifs at hstep with hdone
    · cases hstep
      exact ha'
    · obtain ⟨u, hu, hok⟩ := bind_eq_ok.1 hstep
      have hroutes : ∀ r ∈ u.2, P r := ih (htree child hmem) ha' hu
      cases hok
      exact hroutes

end Routes

theorem isNetwork_of_mem_linkRecords (h : l ∈ wLsa.linkRecords) : wLsa.isNetwork = false := by
  unfold GlobalRoutingLSA.linkRecords at h
  unfold GlobalRoutingLSA.isNetwork
  split at h
  · rfl
  · nomatch h

/-! ### One exit -/

/-- A vertex with no other exit than `exit`, and not a network next to the root. -/
structure StubVertex (c : SpfContext) (exit : NodeExit) (x : SPFVertex) : Prop where
  mem_lsdb : x.lsa ∈ c.lsdb.database
  exits : ∀ e ∈ x.ecmpRootExits, e = exit
  parents : c.root ∈ x.parents → x.isNetwork = false

/-- Such vertices, and routes by that exit. -/
structure StubState (c : SpfContext) (exit : NodeExit) (s : SpfState) : Prop where
  tree : ∀ x ∈ s.tree, c.StubVertex exit x
  candidate : ∀ x ∈ s.candidate, c.StubVertex exit x
  routes : ∀ r ∈ s.routes, (r.nextHop, r.interface) = exit ∧ 0 ≤ r.interface

theorem StubState.addToTree {exit : NodeExit} (hs : c.StubState exit s)
    (hv : c.StubVertex exit v) : c.StubState exit (c.addToTree v s) := by
  refine ⟨List.forall_mem_append.2 ⟨hs.tree, List.forall_mem_singleton.2 hv⟩, hs.candidate,
    List.forall_mem_append.2 ⟨hs.routes, fun r hr => ?_⟩⟩
  split_ifs at hr
  · exact (exit_of_mem_spfIntraAddTransit hr).imp_left (hv.exits _)
  · exact (exit_of_mem_spfIntraAddRouter hr).imp_left (hv.exits _)

theorem StubState.secondStage {exit : NodeExit} (hs : c.StubState exit s)
    (hv : c.StubVertex exit v) (h : c.secondStage fuel v s = .ok t) :
    ∀ r ∈ t.routes, (r.nextHop, r.interface) = exit ∧ 0 ≤ r.interface := by
  have hwalk {visit : SPFVertex → List GlobalRoute}
      (hvisit : ∀ x, ∀ r ∈ visit x,
        (r.nextHop, r.interface) ∈ x.ecmpRootExits ∧ 0 ≤ r.interface) {u : SpfState}
      (hu : c.StubState exit u) {b : List UInt32 × List GlobalRoute}
      (hb : processVertex visit u.tree fuel v ([], u.routes) = .ok b) :
      c.StubState exit { u with routes := b.2 } := by
    refine ⟨hu.tree, hu.candidate, ?_⟩
    refine forall_routes_of_processVertex (fun x hx r hr => ?_) (fun r hr => ?_) hu.routes hb
    · exact (hvisit x r hr).imp_left ((hu.tree x hx).exits _)
    · exact (hvisit v r hr).imp_left (hv.exits _)
  obtain ⟨u, hu, h⟩ := bind_eq_ok.1 h
  obtain ⟨b, hb, hok⟩ := bind_eq_ok.1 hu
  cases hok
  have hstubs := hwalk (fun x r hr => exit_of_mem_stubRoutes hr) hs hb
  refine (foldlM_invariant (fun u u' extlsa _ hu hu' => ?_) hstubs h : c.StubState _ t).routes
  obtain ⟨b, hb, hok⟩ := bind_eq_ok.1 hu'
  cases hok
  exact hwalk (fun x r hr => exit_of_mem_externalRoutes hr) hu hb

/-- A root with the transit link `l` to the router `wLsa`, and what is behind it. -/
structure StubRoot (c : SpfContext) (rootLsa : GlobalRoutingLSA) (l : GlobalRoutingLinkRecord)
    (wLsa : GlobalRoutingLSA) : Prop where
  getLSA_root : c.lsdb.getLSA c.root = some rootLsa
  links : rootLsa.linkRecords.filter (fun l => l.linkType != .stubNetwork) = [l]
  getLSA_link : c.lsdb.getLSA l.linkId = some wLsa
  isNetwork : wLsa.isNetwork = false

/-- The exit over the link, if `lr` is the first record that names the root. -/
def stubExit (c : SpfContext) (l lr : GlobalRoutingLinkRecord) : NodeExit :=
  (lr.linkData, c.findOutgoingInterfaceId l.linkData 0xffffffff)

section Stub

variable {lr : GlobalRoutingLinkRecord} (hstub : c.StubRoot rootLsa l wLsa)
  (hlr : wLsa.linkRecords.find? (fun lr => lr.linkId = c.root) = some lr)
include hstub

theorem StubRoot.lsa_of_isRoot (hv : v.lsa ∈ c.lsdb.database) (hroot : c.isRoot v = true) :
    v.lsa = rootLsa := by
  have hid : v.lsa.linkStateId = rootLsa.linkStateId := by
    rw [GlobalRouteManagerLSDB.id_of_getLSA hstub.getLSA_root]
    exact isRoot_iff.1 hroot
  exact GlobalRouteManagerLSDB.eq_of_id_eq hv
    (GlobalRouteManagerLSDB.mem_of_getLSA hstub.getLSA_root) hid

/-- The root has one link. -/
theorem StubRoot.links_root : c.links rootLsa = [(some l, wLsa)] := by
  have hlinks := hstub.links
  unfold SpfContext.links
  unfold GlobalRoutingLSA.linkRecords at hlinks
  cases hbody : rootLsa.body with
  | routerLSA linkRecords =>
    rw [hbody] at hlinks
    simp only [recordLinks]
    rw [hlinks, List.filterMap_cons, hstub.getLSA_link]
    rfl
  | networkLSA networkMask attachedRouters =>
    rw [hbody] at hlinks
    cases hlinks

include hlr

/-- Over a link, a vertex gets the exit of the vertex before it; over the link of the root, the
exit. -/
theorem StubRoot.hop {l' : Option GlobalRoutingLinkRecord} {exits : List NodeExit}
    (distance : UInt32) (hv : c.StubVertex (c.stubExit l lr) v)
    (hw : w.lsa ∈ c.lsdb.database)
    (hlink : c.isRoot v = true → l' = some l ∧ w.lsa = wLsa)
    (hexits : c.HopExits v w l' exits) :
    c.StubVertex (c.stubExit l lr) ⟨w.lsa, distance, exits, [v.vertexId]⟩ := by
  have hnext (hroot : c.isRoot v = true) : w.isNetwork = false := by
    rw [SPFVertex.isNetwork, (hlink hroot).2]
    exact hstub.isNetwork
  refine ⟨hw, fun e he => ?_, fun hparent => ?_⟩
  · cases hexits with
    | adjacentRouter hroot _ hl hremote =>
      obtain ⟨hl', hwLsa⟩ := hlink hroot
      cases hl.symm.trans hl'
      rw [spfGetNextLink_none, hwLsa, isRoot_iff.1 hroot, hlr] at hremote
      cases hremote
      exact List.mem_singleton.1 he
    | adjacentNetwork hroot hbody =>
      have hnet := hnext hroot
      simp [SPFVertex.isNetwork, GlobalRoutingLSA.isNetwork, hbody] at hnet
    | overNetwork _ hnet hparent =>
      have := hv.parents (List.mem_of_mem_head? hparent)
      rw [hnet] at this
      cases this
    | unnamed _ hnet hparent =>
      have := hv.parents (List.mem_of_mem_head? hparent)
      rw [hnet] at this
      cases this
    | farNetwork _ _ _ hexit => exact hv.exits e (hexit ▸ he)
    | farRouter => exact hv.exits e he
  · exact hnext (isRoot_iff.2 (List.mem_singleton.1 hparent).symm)

theorem StubRoot.considered {l' : Option GlobalRoutingLinkRecord} {xLsa : GlobalRoutingLSA}
    (hs : c.StubState (c.stubExit l lr) s) (hv : c.StubVertex (c.stubExit l lr) v)
    (hx : xLsa ∈ c.lsdb.database)
    (hlink : c.isRoot v = true → l' = some l ∧ xLsa = wLsa)
    (h : c.Considered v l' xLsa s t) : c.StubState (c.stubExit l lr) t := by
  cases h with
  | known => exact hs
  | longer => exact hs
  | fresh _ hexits =>
    refine ⟨hs.tree, fun y hy => ?_, hs.routes⟩
    rcases mem_insertUpper.1 hy with rfl | hy
    · exact hstub.hop hlr _ hv hx hlink hexits
    · exact hs.candidate y hy
  | equal _ hfind _ hexits =>
    refine ⟨hs.tree, fun y hy => ?_, hs.routes⟩
    rcases CandidateQueue.mem_update hy with rfl | ⟨hy, -⟩
    · have hcw := hs.candidate _ (CandidateQueue.mem_of_find hfind)
      have hw := hstub.hop hlr (linkDistance v l') hv hx hlink hexits
      have hlsa := GlobalRouteManagerLSDB.eq_of_id_eq hcw.mem_lsdb hx
        (CandidateQueue.id_of_find hfind)
      refine ⟨hcw.mem_lsdb, fun e he => ?_, fun hp => ?_⟩
      · exact (SPFVertex.mem_merge_ecmpRootExits.1 he).elim (hcw.exits e) (hw.exits e)
      · rcases (SPFVertex.mem_merge_parents c.address_injective).1 hp with hp | hp
        · exact hcw.parents hp
        · rw [SPFVertex.isNetwork, SPFVertex.merge_lsa, hlsa]
          exact hw.parents hp
    · exact hs.candidate y hy
  | shorter _ hfind _ hexits =>
    refine ⟨hs.tree, fun y hy => ?_, hs.routes⟩
    have hcw := hs.candidate _ (CandidateQueue.mem_of_find hfind)
    have hlsa := GlobalRouteManagerLSDB.eq_of_id_eq hcw.mem_lsdb hx
      (CandidateQueue.id_of_find hfind)
    rcases CandidateQueue.mem_update (perm_stableSort.mem_iff.1 hy) with rfl | ⟨hy, -⟩
    · exact hstub.hop hlr _ hv hcw.mem_lsdb (fun hroot => hlsa ▸ hlink hroot) hexits
    · exact hs.candidate y hy

theorem StubRoot.spfNext (hs : c.StubState (c.stubExit l lr) s)
    (hv : c.StubVertex (c.stubExit l lr) v) (h : c.spfNext fuel v s = .ok t) :
    c.StubState (c.stubExit l lr) t := by
  obtain ⟨-, h⟩ := spfNext_eq_ok.1 h
  refine foldlM_invariant (fun u u' link hlink hu hu' => ?_) hs h
  refine hstub.considered hlr hu hv (mem_lsdb_of_mem_links hlink) (fun hroot => ?_)
    (considered_of_considerVertex hu')
  rw [hstub.lsa_of_isRoot hv.mem_lsdb hroot, hstub.links_root] at hlink
  rw [List.mem_singleton.1 hlink]
  exact ⟨rfl, rfl⟩

theorem StubRoot.spfLoop {n : ℕ} (hs : c.StubState (c.stubExit l lr) s)
    (hv : c.StubVertex (c.stubExit l lr) v) :
    c.StubState (c.stubExit l lr) (c.spfLoop fuel n v s).1 := by
  induction n generalizing v s with
  | zero => exact hs
  | succ n ih =>
    rw [SpfContext.spfLoop]
    cases hnext : c.spfNext fuel v s with
    | error e => exact hs
    | ok t =>
      have ht := hstub.spfNext hlr hs hv hnext
      cases hqueue : t.candidate with
      | nil => simpa [hqueue] using ht
      | cons w candidate =>
        have hall := ht.candidate
        rw [hqueue, List.forall_mem_cons] at hall
        have hrest : c.StubState (c.stubExit l lr) { t with candidate := candidate } :=
          ⟨ht.tree, hall.2, ht.routes⟩
        simpa [hqueue] using ih (hrest.addToTree hall.1) hall.1

omit hlr in
theorem StubRoot.started (exit : NodeExit) :
    c.StubVertex exit (start rootLsa).1 ∧ c.StubState exit (start rootLsa).2 := by
  have hroot : c.StubVertex exit (start rootLsa).1 :=
    ⟨GlobalRouteManagerLSDB.mem_of_getLSA hstub.getLSA_root, by simp [start],
      by simp [start, SPFVertex.ofLSA, SPFVertex.setDistanceFromRoot]⟩
  exact ⟨hroot, List.forall_mem_singleton.2 hroot, by simp [start],
    by simp [start]⟩

omit hlr in
/-- All routes have the exit that those of the first stage have. -/
theorem StubRoot.routes_of_spfLoop {exit : NodeExit} {r : GlobalRoute}
    (hloop : c.StubState exit (c.spfLoop fuel fuel (start rootLsa).1 (start rootLsa).2).1)
    (hr : r ∈ (c.spfStages fuel rootLsa).1.routes) :
    (r.nextHop, r.interface) = exit ∧ 0 ≤ r.interface := by
  have hroot := (hstub.started exit).1
  revert hr
  rw [spfStages]
  dsimp only
  split
  · next s e heq =>
    rw [heq] at hloop
    exact hloop.routes r
  · next s heq =>
    rw [heq] at hloop
    split
    · exact hloop.routes r
    · next t ht => exact hloop.secondStage hroot ht r

/-- All routes of the full calculation have the same exit. -/
theorem StubRoot.exit_of_mem_routes {r : GlobalRoute}
    (hr : r ∈ (c.spfStages fuel rootLsa).1.routes) :
    (r.nextHop, r.interface) = c.stubExit l lr ∧ 0 ≤ r.interface := by
  obtain ⟨hroot, hstart⟩ := hstub.started (c.stubExit l lr)
  exact hstub.routes_of_spfLoop (hstub.spfLoop hlr hstart hroot) hr

omit hlr in
/-- A link of the root to itself leads nowhere. -/
theorem StubRoot.spfLoop_self (hself : l.linkId = c.root) (n : ℕ) :
    (c.spfLoop fuel n (start rootLsa).1 (start rootLsa).2).1 = (start rootLsa).2 := by
  have hstatus : (start rootLsa).2.status wLsa.linkStateId = .inSpfTree := by
    simp [start, GlobalRouteManagerLSDB.id_of_getLSA hstub.getLSA_link, hself,
      GlobalRouteManagerLSDB.id_of_getLSA hstub.getLSA_root]
  cases n with
  | zero => rfl
  | succ n =>
    rw [SpfContext.spfLoop]
    cases hnext : c.spfNext fuel (start rootLsa).1 (start rootLsa).2 with
    | error e => rfl
    | ok t =>
      obtain ⟨-, hlinks⟩ := spfNext_eq_ok.1 hnext
      rw [show (start rootLsa).1.lsa = rootLsa from rfl, hstub.links_root] at hlinks
      obtain ⟨u, hu, hnil⟩ := foldlM_cons_eq_ok.1 hlinks
      cases foldlM_nil_eq_ok.1 hnil
      have hknown := considered_of_considerVertex hu
      cases hknown with
      | known => rfl
      | fresh h => rw [hstatus] at h; nomatch h
      | longer h => rw [hstatus] at h; nomatch h
      | equal h => rw [hstatus] at h; nomatch h
      | shorter h => rw [hstatus] at h; nomatch h

/-- The neighbour gets its routes first. -/
theorem StubRoot.routes_of_spfStages (hroot : l.linkId ≠ c.root) :
    (c.spfStages 1 rootLsa).1.routes =
      c.spfIntraAddRouter
        ⟨wLsa, linkDistance (start rootLsa).1 (some l), [c.stubExit l lr], [c.root]⟩ := by
  have hid : rootLsa.linkStateId = c.root :=
    GlobalRouteManagerLSDB.id_of_getLSA hstub.getLSA_root
  have hwid : wLsa.linkStateId = l.linkId :=
    GlobalRouteManagerLSDB.id_of_getLSA hstub.getLSA_link
  have hremote : spfGetNextLink (.ofLSA wLsa) (start rootLsa).1 none = some lr := by
    rw [spfGetNextLink_none, ← hlr, ← hid]
    rfl
  have hclosed : c.Closed (start rootLsa).1.lsa.linkRecords := by
    intro l' hl' htype
    have hmem : l' ∈ rootLsa.linkRecords.filter fun l => l.linkType != .stubNetwork :=
      List.mem_filter.2 ⟨hl', bne_iff_ne.2 htype⟩
    rw [hstub.links] at hmem
    rw [List.mem_singleton.1 hmem]
    exact ⟨wLsa, hstub.getLSA_link⟩
  have hstatus : (start rootLsa).2.status wLsa.linkStateId = .notExplored := by
    simp [start, hwid, hid, hroot]
  have hconsider : c.considerVertex 1 (start rootLsa).1 (some l) wLsa (start rootLsa).2 =
      .ok { (start rootLsa).2 with
        status := Function.update (start rootLsa).2.status wLsa.linkStateId .candidate
        candidate :=
          [⟨wLsa, linkDistance (start rootLsa).1 (some l), [c.stubExit l lr], [c.root]⟩] } := by
    have hhop := @spfNexthopCalculation_adjacentRouter c 1 (start rootLsa).1 (.ofLSA wLsa)
      (linkDistance (start rootLsa).1 (some l)) l lr (isRoot_iff.2 hid) hstub.isNetwork hremote
    rw [considerVertex, hstatus, ← hid]
    dsimp only
    rw [hhop]
    rfl
  have hnext := spfNext_eq_ok.2 ⟨hclosed, show c.considerLinks 1 (start rootLsa).1
    (c.links rootLsa) (start rootLsa).2 = _ by
      rw [hstub.links_root, considerLinks, List.foldlM_cons, hconsider]
      rfl⟩
  rw [spfStages]
  dsimp only
  rw [SpfContext.spfLoop, hnext]
  have hnet (distance : UInt32) (exits : List NodeExit) (parents : List UInt32) :
      (⟨wLsa, distance, exits, parents⟩ : SPFVertex).isNetwork = false := hstub.isNetwork
  simp [SpfContext.spfLoop, SpfContext.addToTree, start, hnet]

end Stub

/-- Every route that the full calculation installs, before it is stopped or at its end, agrees with
the default route. -/
def StubAgrees (c : SpfContext) (rootLsa : GlobalRoutingLSA) : Prop :=
  ∀ route, c.checkForStubNode rootLsa = .ok (some [route]) →
    ∀ fuel, ∀ r ∈ (c.spfStages fuel rootLsa).1.routes,
      r.nextHop = route.nextHop ∧ r.interface = route.interface

/-- If the link leads to another router and has an interface, no record of another type with other
link data names the root before the first point-to-point record that does. -/
def FirstRecordAgrees (c : SpfContext) (l : GlobalRoutingLinkRecord) : Prop :=
  ∀ wLsa, c.lsdb.getLSA l.linkId = some wLsa → l.linkId ≠ c.root →
    0 ≤ c.findOutgoingInterfaceId l.linkData 0xffffffff →
    ∀ lr₀, wLsa.linkRecords.find? (fun lr =>
      lr.linkType == .pointToPoint && lr.linkId == c.root) = some lr₀ →
    ∀ lr, wLsa.linkRecords.find? (fun lr => lr.linkId = c.root) = some lr →
      lr.linkData = lr₀.linkData

theorem defaultRoute_of_checkForStubNode (hroot : c.lsdb.getLSA c.root = some rootLsa)
    (hlinks : rootLsa.linkRecords.filter (fun l => l.linkType != .stubNetwork) = [l])
    (hp2p : l.linkType = .pointToPoint) {route : GlobalRoute}
    (h : c.checkForStubNode rootLsa = .ok (some [route])) :
    ∃ wLsa lr₀, c.lsdb.getLSA l.linkId = some wLsa ∧
      wLsa.linkRecords.find? (fun lr =>
        lr.linkType == .pointToPoint && lr.linkId == c.root) = some lr₀ ∧
      route.nextHop = lr₀.linkData ∧
      route.interface = c.findOutgoingInterfaceId l.linkData 0xffffffff := by
  rw [checkForStubNode, hlinks] at h
  simp only [hp2p, reduceCtorEq, if_false, GlobalRouteManagerLSDB.id_of_getLSA hroot] at h
  split at h
  · nomatch h
  · next wLsa hw =>
    split at h
    · nomatch h
    · next lr₀ hlr₀ =>
      split at h
      · nomatch h
      · obtain rfl := List.singleton_inj.1 (Option.some.inj (Except.ok.inj h))
        exact ⟨wLsa, lr₀, hw, hlr₀, rfl, rfl⟩

/-- The default route has the exit of the full calculation exactly if the type of the records that
the neighbour names the root by makes no difference. -/
theorem stubAgrees_iff (hroot : c.lsdb.getLSA c.root = some rootLsa)
    (hlinks : rootLsa.linkRecords.filter (fun l => l.linkType != .stubNetwork) = [l])
    (hp2p : l.linkType = .pointToPoint) : c.StubAgrees rootLsa ↔ c.FirstRecordAgrees l := by
  have hid : rootLsa.linkStateId = c.root := GlobalRouteManagerLSDB.id_of_getLSA hroot
  have hstub {wLsa : GlobalRoutingLSA} (hw : c.lsdb.getLSA l.linkId = some wLsa)
      {p : GlobalRoutingLinkRecord → Bool} {lr₀ : GlobalRoutingLinkRecord}
      (hlr₀ : wLsa.linkRecords.find? p = some lr₀) : c.StubRoot rootLsa l wLsa :=
    ⟨hroot, hlinks, hw, isNetwork_of_mem_linkRecords (List.mem_of_find?_eq_some hlr₀)⟩
  constructor
  · intro hagrees wLsa hw hne hif lr₀ hlr₀ lr hlr
    cases hnode : c.rootNodes.head? with
    | none =>
      simp [findOutgoingInterfaceId, hnode] at hif
    | some node =>
      have hdefault : c.checkForStubNode rootLsa = .ok (some [⟨node.2, .network, 0, 0, lr₀.linkData,
          c.findOutgoingInterfaceId l.linkData 0xffffffff⟩]) := by
        simp [checkForStubNode, hlinks, hp2p, hw, hid, hlr₀, hnode]
      have hroutes := (hstub hw hlr).routes_of_spfStages hlr hne
      have hmem : ⟨node.2, .host, lr₀.linkData, 0xffffffff, lr.linkData,
          c.findOutgoingInterfaceId l.linkData 0xffffffff⟩ ∈ (c.spfStages 1 rootLsa).1.routes := by
        have hfirst := List.find?_some hlr₀
        have hlink := List.mem_of_find?_eq_some hlr₀
        rw [hroutes, spfIntraAddRouter, hnode]
        refine List.mem_flatMap.2 ⟨lr₀, List.mem_filter.2 ⟨hlink, ?_⟩, ?_⟩
        · exact (Bool.and_eq_true_iff.1 hfirst).1
        · simp [exitRoutes, stubExit, hif]
      exact (hagrees _ hdefault 1 _ hmem).1
  · intro hfirst route hroute fuel r hr
    obtain ⟨wLsa, lr₀, hw, hlr₀, hnextHop, hinterface⟩ :=
      defaultRoute_of_checkForStubNode hroot hlinks hp2p hroute
    have hw' := hstub hw hlr₀
    have hexit : (r.nextHop, r.interface) =
        (lr₀.linkData, c.findOutgoingInterfaceId l.linkData 0xffffffff) := by
      by_cases hself : l.linkId = c.root
      · have hstart := (hw'.started (lr₀.linkData, c.findOutgoingInterfaceId l.linkData
          0xffffffff)).2
        rw [← hw'.spfLoop_self hself fuel] at hstart
        exact (hw'.routes_of_spfLoop hstart hr).1
      · obtain ⟨lr, hlr⟩ : ∃ lr, wLsa.linkRecords.find? (fun lr => lr.linkId = c.root) =
            some lr := by
          have hnames := List.find?_some hlr₀
          apply Option.isSome_iff_exists.1
          apply List.find?_isSome.2
          exact ⟨lr₀, List.mem_of_find?_eq_some hlr₀, by simpa using (Bool.and_eq_true_iff.1 hnames).2⟩
        obtain ⟨hexit, hif⟩ := hw'.exit_of_mem_routes hlr hr
        have hinterface := (Prod.mk.inj hexit).2
        rw [hexit, stubExit, hfirst wLsa hw hself (hinterface ▸ hif) lr₀ hlr₀ lr hlr]
    rw [hnextHop, hinterface]
    exact Prod.mk.inj hexit

/-! ### A neighbour with a stub network -/

/-- Router 0.0.0.0 with a point-to-point link to router 0.0.0.1. -/
def stubLink : GlobalRoutingLinkRecord := ⟨1, 0x0a010101, .pointToPoint, 1⟩

def stubRootLsa : GlobalRoutingLSA := ⟨0, .routerLSA [stubLink]⟩

/-- The link back. -/
def linkBack : GlobalRoutingLinkRecord := ⟨0, 0x0a010102, .pointToPoint, 1⟩

/-- The two routers and the node of the first one, for the link records of the other one. -/
def twoRouters (linkRecords : List GlobalRoutingLinkRecord) : SpfContext where
  lsdb := (GlobalRouteManagerLSDB.empty.insert stubRootLsa).insert ⟨1, .routerLSA linkRecords⟩
  nodes := [⟨some 0, [[0x7f000001], [0x0a010101]]⟩]
  root := 0
  address := UInt32.toNat
  address_injective := fun _ _ => UInt32.toNat_inj.1

theorem stubAgrees_linkBack :
    (twoRouters [linkBack]).StubAgrees stubRootLsa ↔
      (twoRouters [linkBack]).FirstRecordAgrees stubLink :=
  stubAgrees_iff (by decide) (by decide) (by decide)

/-- A record of the stub network 0.0.0.0/24 names router 0.0.0.0, and its mask becomes the next
hop. -/
theorem not_stubAgrees_stubNetwork :
    ¬ ∀ (c : SpfContext) (rootLsa : GlobalRoutingLSA) (l : GlobalRoutingLinkRecord),
      c.lsdb.getLSA c.root = some rootLsa →
      rootLsa.linkRecords.filter (fun l => l.linkType != .stubNetwork) = [l] →
      l.linkType = .pointToPoint → c.StubAgrees rootLsa := by
  intro h
  have hagrees := h (twoRouters [⟨0, 0xffffff00, .stubNetwork, 1⟩, linkBack]) stubRootLsa stubLink
    (by decide) (by decide) (by decide)
  have hroute := hagrees ⟨0, .network, 0, 0, 0x0a010102, 1⟩ (by decide) 1
    ⟨0, .host, 0x0a010102, 0xffffffff, 0xffffff00, 1⟩ (by decide)
  exact absurd hroute.1 (by decide)

end SpfContext

end SeanetSim
