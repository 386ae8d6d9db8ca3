import Mathlib.Logic.Function.Basic
import SeanetSim.GlobalRouting.SpfVertex

/-!
# The SPF calculation of global routing

`SPFCalculate` builds the tree of shortest paths from the router that it calculates the routes of:
`SPFNext` looks at the links of a vertex of the tree and puts the vertices behind them on the
candidate list, the first candidate joins the tree with its routes, and so on until there is no
candidate left.  Then it adds the routes to stub networks and external ones.  For a router with one
point-to-point link and nothing else, `CheckForStubNode` puts a default route in place of all that.
-/

namespace SeanetSim

inductive SPFStatus
  | notExplored
  | candidate
  | inSpfTree
  deriving DecidableEq, Repr

/-- What a calculation reads: the database, `NodeList`, the id of the root, and where the vertices
that have been put into the candidate queue are in memory. -/
structure SpfContext where
  lsdb : GlobalRouteManagerLSDB
  nodes : List RoutingNode
  root : UInt32
  address : UInt32 → ℕ
  address_injective : Function.Injective address

/-- What it changes: the status of the LSAs, the vertices of the tree in the order in which they
have joined it, the candidate queue, and the routes. -/
structure SpfState where
  status : UInt32 → SPFStatus
  tree : List SPFVertex
  candidate : List SPFVertex
  routes : List GlobalRoute

/-- The records with an id as their link id, `SPFGetNextLink`'s loop: it skips one until it has
found `prev_link`, and another one if `skip` is set. -/
def nextLink (id : UInt32) :
    Bool → Bool → List GlobalRoutingLinkRecord → Option GlobalRoutingLinkRecord
  | _, _, [] => none
  | skip, foundPrevLink, l :: linkRecords =>
    if l.linkId = id then
      if !foundPrevLink then nextLink id skip true linkRecords
      else if skip = false then some l
      else nextLink id false foundPrevLink linkRecords
    else nextLink id skip foundPrevLink linkRecords

/-- `SPFGetNextLink`. -/
def spfGetNextLink (v w : SPFVertex) (prevLink : Option GlobalRoutingLinkRecord) :
    Option GlobalRoutingLinkRecord :=
  nextLink w.vertexId prevLink.isSome prevLink.isNone v.lsa.linkRecords

/-- The loop of `SPFNexthopCalculation` over the links from `w` to a network `v` of the root. -/
def hopsOverNetwork (v : SPFVertex) : ℕ → Option GlobalRoutingLinkRecord → SPFVertex →
    Except SpfError SPFVertex
  | 0, _, _ => .error .outOfFuel
  | fuel + 1, prevLink, w =>
    match spfGetNextLink w v prevLink with
    | none => .ok w
    | some linkRemote => do
      let exit ← v.getRootExitDirection
      hopsOverNetwork v fuel (some linkRemote)
        (w.setRootExitDirection (linkRemote.linkData, exit.2))

namespace SpfContext

variable (c : SpfContext)

/-- The nodes with the `GlobalRouter` of the root. -/
def rootNodes : List (RoutingNode × ℕ) :=
  c.nodes.zipIdx.filter fun node => node.1.routerId == some c.root

def findOutgoingInterfaceId (a amask : UInt32) : ℤ :=
  match c.rootNodes.head? with
  | some (node, _) => node.getInterfaceForPrefix a amask
  | none => -1

def isRoot (v : SPFVertex) : Bool := v.vertexId == c.root

variable {c} in
theorem isRoot_iff {v : SPFVertex} : c.isRoot v = true ↔ v.vertexId = c.root := beq_iff_eq

/-- `SPFNexthopCalculation`, what it makes of `w`. -/
def spfNexthopCalculation (fuel : ℕ) (v w : SPFVertex) (l : Option GlobalRoutingLinkRecord)
    (distance : UInt32) : Except SpfError SPFVertex :=
  if c.isRoot v then
    match w.lsa.body with
    | .routerLSA _ =>
      match l, spfGetNextLink w v none with
      | none, _ => .error (.assertion "l")
      | some _, none => .error .nullPointer
      | some l, some linkRemote =>
        let outIf := c.findOutgoingInterfaceId l.linkData 0xffffffff
        .ok (((w.setRootExitDirection (linkRemote.linkData, outIf)).setDistanceFromRoot
          distance).setParent v)
    | .networkLSA networkMask _ =>
      let outIf := c.findOutgoingInterfaceId w.vertexId networkMask
      .ok (((w.setRootExitDirection (0, outIf)).setDistanceFromRoot distance).setParent v)
  else if v.isNetwork then
    if v.parents.head? = some c.root then
      if w.isNetwork then
        .error (.assertion "w->GetVertexType () == SPFVertex::VertexRouter")
      else do
        let w ← hopsOverNetwork v fuel none w
        .ok ((w.setDistanceFromRoot distance).setParent v)
    else do
      let exit ← v.getRootExitDirection
      .ok (((w.setRootExitDirection exit).setDistanceFromRoot distance).setParent v)
  else .ok (((w.inheritAllRootExitDirections v).setDistanceFromRoot distance).setParent v)

/-- The distance of a vertex that a link of `v` leads to. -/
def linkDistance (v : SPFVertex) (l : Option GlobalRoutingLinkRecord) : UInt32 :=
  match l with
  | some l => v.distanceFromRoot + l.metric.toUInt32
  | none => v.distanceFromRoot

/-- `SPFNext` from (c) on: `v` has a link to `w_lsa`, the link record `l` if `v` is a router.

For an equal cost, the parents of the vertex that is merged and thrown away have it as their child
in between only. -/
def considerVertex (fuel : ℕ) (v : SPFVertex) (l : Option GlobalRoutingLinkRecord)
    (wLsa : GlobalRoutingLSA) (s : SpfState) : Except SpfError SpfState :=
  let distance := linkDistance v l
  match s.status wLsa.linkStateId with
  | .inSpfTree => .ok s
  | .notExplored => do
    let w ← c.spfNexthopCalculation fuel v (.ofLSA wLsa) l distance
    .ok { s with
      status := Function.update s.status wLsa.linkStateId .candidate
      candidate := CandidateQueue.push w s.candidate }
  | .candidate =>
    match CandidateQueue.find wLsa.linkStateId s.candidate with
    | none => .error .nullPointer
    | some cw =>
      if cw.distanceFromRoot < distance then .ok s
      else if cw.distanceFromRoot = distance then do
        let w ← c.spfNexthopCalculation fuel v (.ofLSA wLsa) l distance
        .ok { s with
          candidate := CandidateQueue.update wLsa.linkStateId (cw.merge c.address w)
            s.candidate }
      else do
        let cw ← c.spfNexthopCalculation fuel v cw l distance
        .ok { s with
          candidate := CandidateQueue.reorder
            (CandidateQueue.update wLsa.linkStateId cw s.candidate) }

/-- `SPFNext` for one link record of a router. -/
def considerLinkRecord (fuel : ℕ) (v : SPFVertex) (s : SpfState) (l : GlobalRoutingLinkRecord) :
    Except SpfError SpfState :=
  match l.linkType with
  | .stubNetwork => .ok s
  | .pointToPoint | .transitNetwork =>
    match c.lsdb.getLSA l.linkId with
    | none => .error (.assertion "w_lsa")
    | some wLsa => c.considerVertex fuel v (some l) wLsa s

/-- `SPFNext` for one attached router of a network. -/
def considerAttachedRouter (fuel : ℕ) (v : SPFVertex) (s : SpfState) (attached : UInt32) :
    Except SpfError SpfState :=
  match c.lsdb.getLSAByLinkData attached with
  | none => .ok s
  | some wLsa => c.considerVertex fuel v none wLsa s

def spfNext (fuel : ℕ) (v : SPFVertex) (s : SpfState) : Except SpfError SpfState :=
  match v.lsa.body with
  | .routerLSA linkRecords => linkRecords.foldlM (c.considerLinkRecord fuel v) s
  | .networkLSA _ attachedRouters => attachedRouters.foldlM (c.considerAttachedRouter fuel v) s

/-! ### Routes -/

/-- One route for every exit with an output interface. -/
def exitRoutes (v : SPFVertex) (node : ℕ) (kind : RouteKind) (dest mask : UInt32) :
    List GlobalRoute :=
  (v.ecmpRootExits.filter fun exit => decide (0 ≤ exit.2)).map fun exit =>
    ⟨node, kind, dest, mask, exit.1, exit.2⟩

/-- `SPFIntraAddRouter`, host routes to the link data of the point-to-point links. -/
def spfIntraAddRouter (v : SPFVertex) : List GlobalRoute :=
  match c.rootNodes.head? with
  | none => []
  | some (_, node) =>
    (v.lsa.linkRecords.filter fun lr => lr.linkType == .pointToPoint).flatMap fun lr =>
      exitRoutes v node .host lr.linkData 0xffffffff

/-- `SPFIntraAddTransit`, which does not stop at the first node. -/
def spfIntraAddTransit (v : SPFVertex) : List GlobalRoute :=
  match v.lsa.body with
  | .routerLSA _ => []
  | .networkLSA networkMask _ => c.rootNodes.flatMap fun node =>
    exitRoutes v node.2 .network (v.vertexId &&& networkMask) networkMask

def spfIntraAddStub (l : GlobalRoutingLinkRecord) (v : SPFVertex) : List GlobalRoute :=
  if c.isRoot v then []
  else
    match c.rootNodes.head? with
    | none => []
    | some (_, node) => exitRoutes v node .network (l.linkId &&& l.linkData) l.linkData

def spfAddASExternal (extlsa : AsExternalLSA) (v : SPFVertex) : List GlobalRoute :=
  if c.isRoot v then []
  else
    match c.rootNodes.head? with
    | none => []
    | some (_, node) =>
      exitRoutes v node .asExternal (extlsa.linkStateId &&& extlsa.networkMask) extlsa.networkMask

/-! ### The tree -/

/-- A vertex joins the tree. -/
def addToTree (v : SPFVertex) (s : SpfState) : SpfState :=
  { s with
    status := Function.update s.status v.vertexId .inSpfTree
    tree := s.tree ++ [v]
    routes := s.routes ++
      if v.isNetwork then c.spfIntraAddTransit v else c.spfIntraAddRouter v }

/-- The loop of `SPFCalculate`, with the state at its end. -/
def spfLoop (fuel : ℕ) : ℕ → SPFVertex → SpfState → SpfState × Except SpfError Unit
  | 0, _, s => (s, .error .outOfFuel)
  | n + 1, v, s =>
    match c.spfNext fuel v s with
    | .error e => (s, .error e)
    | .ok t =>
      match t.candidate with
      | [] => (t, .ok ())
      | v :: candidate => spfLoop fuel n v (c.addToTree v { t with candidate := candidate })

/-- `Initialize`, and the root in the tree. -/
def start (rootLsa : GlobalRoutingLSA) : SPFVertex × SpfState :=
  let v := (SPFVertex.ofLSA rootLsa).setDistanceFromRoot 0
  (v, ⟨Function.update (fun _ => .notExplored) rootLsa.linkStateId .inSpfTree, [v], [], []⟩)

/-! ### The second stage -/

/-- `m_children` of a vertex, in the order of the calls of `SPFVertexAddParent`. -/
def children (tree : List SPFVertex) (v : SPFVertex) : List SPFVertex :=
  tree.filter fun child => v.vertexId ∈ child.parents

/-- `SPFProcessStubs` and `ProcessASExternals`: `visit` a vertex, then those of its children that
have not been processed.  The state has the ids of the vertices that have been. -/
def processVertex (visit : SPFVertex → List GlobalRoute) (tree : List SPFVertex) :
    ℕ → SPFVertex → List UInt32 × List GlobalRoute →
      Except SpfError (List UInt32 × List GlobalRoute)
  | 0, _, _ => .error .outOfFuel
  | fuel + 1, v, (processed, routes) =>
    (children tree v).foldlM (fun s child =>
      if child.vertexId ∈ s.1 then .ok s
      else do
        let t ← processVertex visit tree fuel child s
        .ok (child.vertexId :: t.1, t.2)) (processed, routes ++ visit v)

/-- What `SPFProcessStubs` does at a vertex. -/
def stubRoutes (v : SPFVertex) : List GlobalRoute :=
  (v.lsa.linkRecords.filter fun l => l.linkType == .stubNetwork).flatMap fun l =>
    c.spfIntraAddStub l v

/-- What `ProcessASExternals` does at a vertex. -/
def externalRoutes (extlsa : AsExternalLSA) (v : SPFVertex) : List GlobalRoute :=
  if !v.isNetwork && v.vertexId == extlsa.advertisingRouter then c.spfAddASExternal extlsa v
  else []

def spfProcessStubs (fuel : ℕ) (root : SPFVertex) (s : SpfState) : Except SpfError SpfState := do
  let t ← processVertex c.stubRoutes s.tree fuel root ([], s.routes)
  .ok { s with routes := t.2 }

/-- `ClearVertexProcessed` and `ProcessASExternals`. -/
def processASExternals (fuel : ℕ) (root : SPFVertex) (s : SpfState) (extlsa : AsExternalLSA) :
    Except SpfError SpfState := do
  let t ← processVertex (c.externalRoutes extlsa) s.tree fuel root ([], s.routes)
  .ok { s with routes := t.2 }

/-- Second stage of SPF calculation procedure. -/
def secondStage (fuel : ℕ) (root : SPFVertex) (s : SpfState) : Except SpfError SpfState := do
  let s ← c.spfProcessStubs fuel root s
  c.lsdb.extdatabase.foldlM (c.processASExternals fuel root) s

/-- `SPFCalculate` after `CheckForStubNode`. -/
def spfStages (fuel : ℕ) (rootLsa : GlobalRoutingLSA) : SpfState × Except SpfError Unit :=
  let (root, s) := start rootLsa
  match c.spfLoop fuel fuel root s with
  | (s, .error e) => (s, .error e)
  | (s, .ok ()) =>
    match c.secondStage fuel root s with
    | .error e => (s, .error e)
    | .ok s => (s, .ok ())

/-! ### Stub nodes -/

/-- `CheckForStubNode`, with the routes that it adds if it returns true.  The node of the LSA of
the root is the one with the `GlobalRouter` of the root. -/
def checkForStubNode (rootLsa : GlobalRoutingLSA) : Except SpfError (Option (List GlobalRoute)) :=
  match rootLsa.linkRecords.filter fun l => l.linkType != .stubNetwork with
  | [] => .ok (some [])
  | [transitLink] =>
    if transitLink.linkType = .transitNetwork then .ok none
    else
      match c.lsdb.getLSA transitLink.linkId with
      | none => .error .nullPointer
      | some wLsa =>
        match wLsa.linkRecords.find? fun lr =>
          lr.linkType == .pointToPoint && lr.linkId == rootLsa.linkStateId with
        | none => .ok none
        | some lr =>
          match c.rootNodes.head? with
          | none => .error (.assertion "router")
          | some (_, node) => .ok (some [⟨node, .network, 0, 0, lr.linkData,
              c.findOutgoingInterfaceId transitLink.linkData 0xffffffff⟩])
  | _ => .ok none

def spfCalculate (fuel : ℕ) : Option (SpfState × Except SpfError Unit) :=
  (c.lsdb.getLSA c.root).map fun rootLsa =>
    let s := (start rootLsa).2
    match if c.nodes.isEmpty then .ok none else c.checkForStubNode rootLsa with
    | .error e => (s, .error e)
    | .ok (some routes) => ({ s with routes := routes }, .ok ())
    | .ok none => c.spfStages fuel rootLsa

end SpfContext

end SeanetSim
