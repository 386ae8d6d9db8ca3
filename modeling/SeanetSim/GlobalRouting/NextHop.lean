import SeanetSim.GlobalRouting.SpfCalculate
import SeanetSim.Lib.Fallible

/-!
# Next hops

The exits that a vertex gets over a link are those of the rules of `SpfContext.HopExits`; where none
of them applies, `SPFNexthopCalculation` does not come back.  `SpfContext.Considered` says what
`SPFNext` makes of the candidate queue for one link.
-/

namespace SeanetSim

/-- Without a previous link, the first one. -/
theorem spfGetNextLink_none (v w : SPFVertex) :
    spfGetNextLink v w none = v.lsa.linkRecords.find? fun l => l.linkId = w.vertexId := by
  unfold spfGetNextLink
  induction v.lsa.linkRecords with
  | nil => rfl
  | cons l linkRecords ih =>
    rw [nextLink, List.find?_cons]
    by_cases h : l.linkId = w.vertexId
    · simp [h]
    · simpa [h] using ih

/-- `prev_link` acts as a flag. -/
theorem spfGetNextLink_some (v w : SPFVertex) (l l' : GlobalRoutingLinkRecord) :
    spfGetNextLink v w (some l) = spfGetNextLink v w (some l') := rfl

theorem spfGetNextLink_setRootExitDirection (v w : SPFVertex) (e : NodeExit)
    (prevLink : Option GlobalRoutingLinkRecord) :
    spfGetNextLink (v.setRootExitDirection e) w prevLink = spfGetNextLink v w prevLink := rfl

/-- With a previous link and one link more, there is always one more. -/
theorem hopsOverNetwork_ne_ok {v w : SPFVertex} {l l' : GlobalRoutingLinkRecord}
    (h : spfGetNextLink w v (some l) = some l') (fuel : ℕ) (w' : SPFVertex) :
    hopsOverNetwork v fuel (some l) w ≠ .ok w' := by
  induction fuel generalizing w l l' with
  | zero => exact fun h => nomatch h
  | succ fuel ih =>
    intro hok
    rw [hopsOverNetwork, h] at hok
    obtain ⟨exit, -, hrest⟩ := bind_eq_ok.1 hok
    have hnext : spfGetNextLink (w.setRootExitDirection (l'.linkData, exit.2)) v (some l') =
        some l' := by
      rw [spfGetNextLink_setRootExitDirection, spfGetNextLink_some w v l' l, h]
    exact ih hnext hrest

/-- No link leaves the exits as they are, and there may not be a third one. -/
theorem hopsOverNetwork_eq_ok {v w w' : SPFVertex} {fuel : ℕ}
    (h : hopsOverNetwork v fuel none w = .ok w') :
    spfGetNextLink w v none = none ∧ w' = w ∨
      ∃ linkRemote exit, spfGetNextLink w v none = some linkRemote ∧ v.ecmpRootExits = [exit] ∧
        spfGetNextLink w v (some linkRemote) = none ∧
        w' = w.setRootExitDirection (linkRemote.linkData, exit.2) := by
  cases fuel with
  | zero => nomatch h
  | succ fuel =>
    rw [hopsOverNetwork] at h
    cases hfirst : spfGetNextLink w v none with
    | none =>
      rw [hfirst] at h
      exact Or.inl ⟨rfl, (Except.ok.inj h).symm⟩
    | some linkRemote =>
      rw [hfirst] at h
      obtain ⟨exit, hexit, h⟩ := bind_eq_ok.1 h
      cases fuel with
      | zero => nomatch h
      | succ fuel =>
        cases hnext : spfGetNextLink w v (some linkRemote) with
        | none =>
          rw [hopsOverNetwork, spfGetNextLink_setRootExitDirection, hnext] at h
          exact Or.inr ⟨linkRemote, exit, rfl, SPFVertex.getRootExitDirection_eq_ok_iff.1 hexit,
            hnext, (Except.ok.inj h).symm⟩
        | some l =>
          rw [← spfGetNextLink_setRootExitDirection w v (linkRemote.linkData, exit.2)] at hnext
          exact absurd h (hopsOverNetwork_ne_ok hnext _ _)

namespace SpfContext

/-- The exits that `w` gets over a link of `v`. -/
inductive HopExits (c : SpfContext) (v w : SPFVertex) (l : Option GlobalRoutingLinkRecord) :
    List NodeExit → Prop
  | adjacentRouter {link linkRemote : GlobalRoutingLinkRecord} (hv : c.isRoot v = true)
      (hw : w.isNetwork = false) (hl : l = some link)
      (hremote : spfGetNextLink w v none = some linkRemote) :
      HopExits c v w l [(linkRemote.linkData, c.findOutgoingInterfaceId link.linkData 0xffffffff)]
  | adjacentNetwork {networkMask : UInt32} {attachedRouters : List UInt32} (hv : c.isRoot v = true)
      (hw : w.lsa.body = .networkLSA networkMask attachedRouters) :
      HopExits c v w l [(0, c.findOutgoingInterfaceId w.vertexId networkMask)]
  | overNetwork {linkRemote : GlobalRoutingLinkRecord} {exit : NodeExit} (hv : c.isRoot v = false)
      (hnet : v.isNetwork = true) (hparent : v.parents.head? = some c.root)
      (hw : w.isNetwork = false) (hremote : spfGetNextLink w v none = some linkRemote)
      (hexit : v.ecmpRootExits = [exit]) (hlast : spfGetNextLink w v (some linkRemote) = none) :
      HopExits c v w l [(linkRemote.linkData, exit.2)]
  | unnamed (hv : c.isRoot v = false) (hnet : v.isNetwork = true)
      (hparent : v.parents.head? = some c.root) (hw : w.isNetwork = false)
      (hremote : spfGetNextLink w v none = none) : HopExits c v w l w.ecmpRootExits
  | farNetwork {exit : NodeExit} (hv : c.isRoot v = false) (hnet : v.isNetwork = true)
      (hparent : v.parents.head? ≠ some c.root) (hexit : v.ecmpRootExits = [exit]) :
      HopExits c v w l [exit]
  | farRouter (hv : c.isRoot v = false) (hnet : v.isNetwork = false) :
      HopExits c v w l v.ecmpRootExits

variable {c : SpfContext} {fuel : ℕ} {v w w' : SPFVertex} {l : Option GlobalRoutingLinkRecord}
  {distance : UInt32}

theorem hopExits_of_spfNexthopCalculation
    (h : c.spfNexthopCalculation fuel v w l distance = .ok w') :
    ∃ exits, c.HopExits v w l exits ∧ w' = ⟨w.lsa, distance, exits, [v.vertexId]⟩ := by
  unfold spfNexthopCalculation at h
  cases hv : c.isRoot v with
  | true =>
    rw [hv, if_pos rfl] at h
    cases hw : w.lsa.body with
    | routerLSA linkRecords =>
      rw [hw] at h
      have hnet : w.isNetwork = false := by
        simp [SPFVertex.isNetwork, GlobalRoutingLSA.isNetwork, hw]
      cases hl : l with
      | none =>
        rw [hl] at h
        nomatch h
      | some link =>
        rw [hl] at h
        cases hremote : spfGetNextLink w v none with
        | none =>
          rw [hremote] at h
          nomatch h
        | some linkRemote =>
          rw [hremote] at h
          exact ⟨_, .adjacentRouter hv hnet rfl hremote, (Except.ok.inj h).symm⟩
    | networkLSA networkMask attachedRouters =>
      rw [hw] at h
      exact ⟨_, .adjacentNetwork hv hw, (Except.ok.inj h).symm⟩
  | false =>
    rw [hv, if_neg Bool.false_ne_true] at h
    cases hnet : v.isNetwork with
    | false =>
      rw [hnet, if_neg Bool.false_ne_true] at h
      exact ⟨_, .farRouter hv hnet, (Except.ok.inj h).symm⟩
    | true =>
      rw [hnet, if_pos rfl] at h
      by_cases hparent : v.parents.head? = some c.root
      · rw [if_pos hparent] at h
        cases hw : w.isNetwork with
        | true =>
          rw [hw] at h
          nomatch h
        | false =>
          rw [hw, if_neg Bool.false_ne_true] at h
          obtain ⟨u, hu, heq⟩ := bind_eq_ok.1 h
          rcases hopsOverNetwork_eq_ok hu with ⟨hremote, rfl⟩ | ⟨linkRemote, exit, hremote, hexit,
            hlast, rfl⟩
          · exact ⟨_, .unnamed hv hnet hparent hw hremote, (Except.ok.inj heq).symm⟩
          · exact ⟨_, .overNetwork hv hnet hparent hw hremote hexit hlast, (Except.ok.inj heq).symm⟩
      · rw [if_neg hparent] at h
        obtain ⟨exit, hexit, h⟩ := bind_eq_ok.1 h
        exact ⟨_, .farNetwork hv hnet hparent (SPFVertex.getRootExitDirection_eq_ok_iff.1 hexit),
          (Except.ok.inj h).symm⟩

/-- A router next to the root takes no loop. -/
theorem spfNexthopCalculation_adjacentRouter {link linkRemote : GlobalRoutingLinkRecord}
    (hv : c.isRoot v = true) (hw : w.isNetwork = false)
    (hremote : spfGetNextLink w v none = some linkRemote) :
    c.spfNexthopCalculation fuel v w (some link) distance = .ok ⟨w.lsa, distance,
      [(linkRemote.linkData, c.findOutgoingInterfaceId link.linkData 0xffffffff)],
      [v.vertexId]⟩ := by
  unfold spfNexthopCalculation
  rw [hv, if_pos rfl, hremote]
  cases hbody : w.lsa.body with
  | routerLSA linkRecords => rfl
  | networkLSA networkMask attachedRouters =>
    simp [SPFVertex.isNetwork, GlobalRoutingLSA.isNetwork, hbody] at hw

/-- The rules say all about a calculation with enough fuel for its loop. -/
theorem spfNexthopCalculation_of_hopExits {exits : List NodeExit} (hfuel : 2 ≤ fuel)
    (h : c.HopExits v w l exits) :
    c.spfNexthopCalculation fuel v w l distance = .ok ⟨w.lsa, distance, exits, [v.vertexId]⟩ := by
  obtain ⟨n, rfl⟩ : ∃ n, fuel = n + 2 := ⟨fuel - 2, by omega⟩
  cases h with
  | adjacentRouter hv hw hl hremote =>
    rw [hl]
    exact spfNexthopCalculation_adjacentRouter hv hw hremote
  | adjacentNetwork hv hw =>
    unfold spfNexthopCalculation
    rw [hv, if_pos rfl, hw]
    rfl
  | overNetwork hv hnet hparent hw hremote hexit hlast =>
    rename_i linkRemote exit
    have hnext : spfGetNextLink (w.setRootExitDirection (linkRemote.linkData, exit.2)) v
        (some linkRemote) = none := hlast
    simp [spfNexthopCalculation, hv, hnet, hparent, hw, hopsOverNetwork, hremote, hnext,
      SPFVertex.getRootExitDirection_eq_ok_iff.2 hexit, bind, Except.bind]
    rfl
  | unnamed hv hnet hparent hw hremote =>
    simp [spfNexthopCalculation, hv, hnet, hparent, hw, hopsOverNetwork, hremote, bind, Except.bind]
    rfl
  | farNetwork hv hnet hparent hexit =>
    simp [spfNexthopCalculation, hv, hnet, hparent, SPFVertex.getRootExitDirection_eq_ok_iff.2 hexit, bind, Except.bind]
    rfl
  | farRouter hv hnet =>
    simp [spfNexthopCalculation, hv, hnet]
    rfl

/-! ### Links -/

/-- The links of a router, but those to stub networks, with what they lead to. -/
def recordLinks (c : SpfContext) (linkRecords : List GlobalRoutingLinkRecord) :
    List (Option GlobalRoutingLinkRecord × GlobalRoutingLSA) :=
  (linkRecords.filter fun l => l.linkType != .stubNetwork).filterMap fun l =>
    (c.lsdb.getLSA l.linkId).map fun wLsa => (some l, wLsa)

/-- The links of a network. -/
def attachedLinks (c : SpfContext) (attachedRouters : List UInt32) :
    List (Option GlobalRoutingLinkRecord × GlobalRoutingLSA) :=
  attachedRouters.filterMap fun attached =>
    (c.lsdb.getLSAByLinkData attached).map fun wLsa => (none, wLsa)

def links (c : SpfContext) (lsa : GlobalRoutingLSA) :
    List (Option GlobalRoutingLinkRecord × GlobalRoutingLSA) :=
  match lsa.body with
  | .routerLSA linkRecords => c.recordLinks linkRecords
  | .networkLSA _ attachedRouters => c.attachedLinks attachedRouters

/-- Every link record of a transit link names an LSA of the database. -/
def Closed (c : SpfContext) (linkRecords : List GlobalRoutingLinkRecord) : Prop :=
  ∀ l ∈ linkRecords, l.linkType ≠ .stubNetwork → ∃ wLsa, c.lsdb.getLSA l.linkId = some wLsa

/-- One link after the other. -/
def considerLinks (c : SpfContext) (fuel : ℕ) (v : SPFVertex)
    (links : List (Option GlobalRoutingLinkRecord × GlobalRoutingLSA)) (s : SpfState) :
    Except SpfError SpfState :=
  links.foldlM (fun s link => c.considerVertex fuel v link.1 link.2 s) s

variable {lsa wLsa : GlobalRoutingLSA} {s t : SpfState}

/-- A link is over a record of a router, or leads from a network to a router. -/
theorem mem_links_iff : (l, wLsa) ∈ c.links lsa ↔
    (∃ record ∈ lsa.linkRecords, record.linkType ≠ .stubNetwork ∧ l = some record ∧
      c.lsdb.getLSA record.linkId = some wLsa) ∨
    ∃ networkMask attachedRouters, lsa.body = .networkLSA networkMask attachedRouters ∧ l = none ∧
      ∃ attached ∈ attachedRouters, c.lsdb.getLSAByLinkData attached = some wLsa := by
  unfold links GlobalRoutingLSA.linkRecords
  cases lsa.body with
  | routerLSA linkRecords =>
    simp only [recordLinks, List.mem_filterMap, List.mem_filter, bne_iff_ne, Option.map_eq_some_iff,
      Prod.mk.injEq]
    constructor
    · rintro ⟨record, ⟨hmem, htype⟩, wLsa', hget, rfl, rfl⟩
      exact Or.inl ⟨record, hmem, htype, rfl, hget⟩
    · rintro (⟨record, hmem, htype, rfl, hget⟩ | ⟨networkMask, attachedRouters, hbody, -⟩)
      · exact ⟨record, ⟨hmem, htype⟩, wLsa, hget, rfl, rfl⟩
      · nomatch hbody
  | networkLSA networkMask attachedRouters =>
    simp only [attachedLinks, List.mem_filterMap, Option.map_eq_some_iff, Prod.mk.injEq]
    constructor
    · rintro ⟨attached, hmem, wLsa', hget, rfl, rfl⟩
      exact Or.inr ⟨networkMask, attachedRouters, rfl, rfl, attached, hmem, hget⟩
    · rintro (⟨record, hmem, -⟩ | ⟨_, _, hbody, rfl, attached, hmem, hget⟩)
      · nomatch hmem
      · cases hbody
        exact ⟨attached, hmem, wLsa, hget, rfl, rfl⟩

theorem mem_lsdb_of_mem_links (h : (l, wLsa) ∈ c.links lsa) : wLsa ∈ c.lsdb.database := by
  rcases mem_links_iff.1 h with ⟨_, _, _, _, hget⟩ | ⟨_, _, _, _, _, _, hget⟩
  · exact GlobalRouteManagerLSDB.mem_of_getLSA hget
  · exact GlobalRouteManagerLSDB.mem_of_getLSAByLinkData hget

theorem considerLinkRecord_eq_ok {record : GlobalRoutingLinkRecord} :
    c.considerLinkRecord fuel v s record = .ok t ↔
      c.Closed [record] ∧ c.considerLinks fuel v (c.recordLinks [record]) s = .ok t := by
  unfold considerLinkRecord considerLinks recordLinks Closed
  cases htype : record.linkType <;> cases hget : c.lsdb.getLSA record.linkId <;>
    simp [htype, hget, foldlM_cons_eq_ok, foldlM_nil_eq_ok, -List.foldlM_cons, -List.foldlM_nil]

theorem foldlM_considerLinkRecord {linkRecords : List GlobalRoutingLinkRecord} :
    linkRecords.foldlM (c.considerLinkRecord fuel v) s = .ok t ↔
      c.Closed linkRecords ∧ c.considerLinks fuel v (c.recordLinks linkRecords) s = .ok t := by
  induction linkRecords generalizing s with
  | nil => simp [Closed, considerLinks, recordLinks]
  | cons record linkRecords ih =>
    have hlinks : c.recordLinks (record :: linkRecords) =
        c.recordLinks [record] ++ c.recordLinks linkRecords := by
      unfold recordLinks
      rw [← List.filterMap_append, ← List.filter_append, List.singleton_append]
    have hclosed : c.Closed (record :: linkRecords) ↔
        c.Closed [record] ∧ c.Closed linkRecords := by
      simp [Closed]
    rw [foldlM_cons_eq_ok, hlinks, hclosed, considerLinks, foldlM_append_eq_ok]
    simp only [considerLinkRecord_eq_ok, ih, considerLinks]
    constructor
    · rintro ⟨u, ⟨h₁, h₂⟩, h₃, h₄⟩
      exact ⟨⟨h₁, h₃⟩, u, h₂, h₄⟩
    · rintro ⟨⟨h₁, h₃⟩, u, h₂, h₄⟩
      exact ⟨u, ⟨h₁, h₂⟩, h₃, h₄⟩

theorem foldlM_considerAttachedRouter {attachedRouters : List UInt32} :
    attachedRouters.foldlM (c.considerAttachedRouter fuel v) s =
      c.considerLinks fuel v (c.attachedLinks attachedRouters) s := by
  induction attachedRouters generalizing s with
  | nil => rfl
  | cons attached attachedRouters ih =>
    rw [List.foldlM_cons, attachedLinks, List.filterMap_cons, considerAttachedRouter]
    cases c.lsdb.getLSAByLinkData attached with
    | none => exact ih
    | some wLsa =>
      rw [considerLinks, Option.map_some, List.foldlM_cons]
      exact congrArg _ (funext fun u => ih)

/-- `SPFNext` goes through the links. -/
theorem spfNext_eq_ok : c.spfNext fuel v s = .ok t ↔
    c.Closed v.lsa.linkRecords ∧ c.considerLinks fuel v (c.links v.lsa) s = .ok t := by
  unfold spfNext links GlobalRoutingLSA.linkRecords
  cases v.lsa.body with
  | routerLSA linkRecords => exact foldlM_considerLinkRecord
  | networkLSA networkMask attachedRouters =>
    dsimp only
    rw [foldlM_considerAttachedRouter]
    simp [Closed]

/-! ### Candidates -/

/-- What one link of `v` to `wLsa` does. -/
inductive Considered (c : SpfContext) (v : SPFVertex) (l : Option GlobalRoutingLinkRecord)
    (wLsa : GlobalRoutingLSA) (s : SpfState) : SpfState → Prop
  | known (hstatus : s.status wLsa.linkStateId = .inSpfTree) : Considered c v l wLsa s s
  | fresh {exits : List NodeExit} (hstatus : s.status wLsa.linkStateId = .notExplored)
      (hexits : c.HopExits v (.ofLSA wLsa) l exits) :
      Considered c v l wLsa s { s with
        status := Function.update s.status wLsa.linkStateId .candidate
        candidate := CandidateQueue.push ⟨wLsa, linkDistance v l, exits, [v.vertexId]⟩
          s.candidate }
  | longer {cw : SPFVertex} (hstatus : s.status wLsa.linkStateId = .candidate)
      (hfind : CandidateQueue.find wLsa.linkStateId s.candidate = some cw)
      (hdist : cw.distanceFromRoot < linkDistance v l) : Considered c v l wLsa s s
  | equal {cw : SPFVertex} {exits : List NodeExit}
      (hstatus : s.status wLsa.linkStateId = .candidate)
      (hfind : CandidateQueue.find wLsa.linkStateId s.candidate = some cw)
      (hdist : cw.distanceFromRoot = linkDistance v l)
      (hexits : c.HopExits v (.ofLSA wLsa) l exits) :
      Considered c v l wLsa s { s with
        candidate := CandidateQueue.update wLsa.linkStateId
          (cw.merge c.address ⟨wLsa, linkDistance v l, exits, [v.vertexId]⟩) s.candidate }
  | shorter {cw : SPFVertex} {exits : List NodeExit}
      (hstatus : s.status wLsa.linkStateId = .candidate)
      (hfind : CandidateQueue.find wLsa.linkStateId s.candidate = some cw)
      (hdist : linkDistance v l < cw.distanceFromRoot) (hexits : c.HopExits v cw l exits) :
      Considered c v l wLsa s { s with
        candidate := CandidateQueue.reorder (CandidateQueue.update wLsa.linkStateId
          ⟨cw.lsa, linkDistance v l, exits, [v.vertexId]⟩ s.candidate) }

theorem considered_of_considerVertex (h : c.considerVertex fuel v l wLsa s = .ok t) :
    c.Considered v l wLsa s t := by
  unfold considerVertex at h
  cases hstatus : s.status wLsa.linkStateId with
  | inSpfTree =>
    rw [hstatus] at h
    cases h
    exact .known hstatus
  | notExplored =>
    rw [hstatus] at h
    obtain ⟨w, hw, heq⟩ := bind_eq_ok.1 h
    obtain ⟨exits, hexits, rfl⟩ := hopExits_of_spfNexthopCalculation hw
    cases heq
    exact .fresh hstatus hexits
  | candidate =>
    rw [hstatus] at h
    cases hfind : CandidateQueue.find wLsa.linkStateId s.candidate with
    | none =>
      rw [hfind] at h
      nomatch h
    | some cw =>
      simp only [hfind] at h
      split_ifs at h with hlt heq
      · cases h
        exact .longer hstatus hfind hlt
      · obtain ⟨w, hw, hok⟩ := bind_eq_ok.1 h
        obtain ⟨exits, hexits, rfl⟩ := hopExits_of_spfNexthopCalculation hw
        cases hok
        exact .equal hstatus hfind heq hexits
      · obtain ⟨w, hw, hok⟩ := bind_eq_ok.1 h
        obtain ⟨exits, hexits, rfl⟩ := hopExits_of_spfNexthopCalculation hw
        cases hok
        have hlt' : linkDistance v l < cw.distanceFromRoot :=
          UInt32.lt_of_le_of_ne (UInt32.not_lt.1 hlt) (Ne.symm heq)
        exact .shorter hstatus hfind hlt' hexits

theorem considerVertex_of_considered (hfuel : 2 ≤ fuel) (h : c.Considered v l wLsa s t) :
    c.considerVertex fuel v l wLsa s = .ok t := by
  unfold considerVertex
  cases h with
  | known hstatus => rw [hstatus]
  | fresh hstatus hexits =>
    rw [hstatus]
    simp only [spfNexthopCalculation_of_hopExits hfuel hexits]
    rfl
  | longer hstatus hfind hdist => simp [hstatus, hfind, hdist]
  | equal hstatus hfind hdist hexits =>
    rw [hstatus, hfind]
    simp only [hdist, UInt32.lt_irrefl, if_false, if_true,
      spfNexthopCalculation_of_hopExits hfuel hexits]
    rfl
  | shorter hstatus hfind hdist hexits =>
    rw [hstatus, hfind]
    simp only [UInt32.lt_asymm hdist, (UInt32.ne_of_lt hdist).symm, if_false,
      spfNexthopCalculation_of_hopExits hfuel hexits]
    rfl

end SpfContext

end SeanetSim
