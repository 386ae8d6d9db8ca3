import Mathlib.Data.List.Nodup
import Mathlib.Data.UInt

/-!
# The link state database of global routing

Every router exports an LSA with its link records, and the designated router of a network one with
the addresses of the routers attached to it.  The database is a map by link state id
(`GlobalRouteManagerLSDB`); the LSAs of external routes are kept apart from it.  Addresses are
compared without their interface numbers throughout, so they are taken as `UInt32` here.
-/

namespace SeanetSim

/-- The types of link records that routers export. -/
inductive LinkType
  | pointToPoint
  | transitNetwork
  | stubNetwork
  deriving DecidableEq, Repr

structure GlobalRoutingLinkRecord where
  linkId : UInt32
  linkData : UInt32
  linkType : LinkType
  metric : UInt16
  deriving DecidableEq, Repr

/-- What an LSA says besides its id: `m_linkRecords` of a `RouterLSA`, `m_networkLSANetworkMask` and
`m_attachedRouters` of a `NetworkLSA`. -/
inductive LsaBody
  | routerLSA (linkRecords : List GlobalRoutingLinkRecord)
  | networkLSA (networkMask : UInt32) (attachedRouters : List UInt32)
  deriving DecidableEq, Repr

structure GlobalRoutingLSA where
  linkStateId : UInt32
  body : LsaBody
  deriving DecidableEq, Repr

/-- An LSA of type `ASExternalLSAs`. -/
structure AsExternalLSA where
  linkStateId : UInt32
  networkMask : UInt32
  advertisingRouter : UInt32
  deriving DecidableEq, Repr

namespace GlobalRoutingLSA

def linkRecords (lsa : GlobalRoutingLSA) : List GlobalRoutingLinkRecord :=
  match lsa.body with
  | .routerLSA linkRecords => linkRecords
  | .networkLSA .. => []

def isNetwork (lsa : GlobalRoutingLSA) : Bool :=
  match lsa.body with
  | .routerLSA _ => false
  | .networkLSA .. => true

end GlobalRoutingLSA

/-- `m_database`, in the order of its keys, and `m_extdatabase`. -/
structure GlobalRouteManagerLSDB where
  database : List GlobalRoutingLSA
  extdatabase : List AsExternalLSA
  sorted : database.Pairwise fun a b => a.linkStateId < b.linkStateId

/-- `insert` of a map: an LSA under the same id stays as it is. -/
def insertLSA (lsa : GlobalRoutingLSA) : List GlobalRoutingLSA → List GlobalRoutingLSA
  | [] => [lsa]
  | a :: database =>
    if lsa.linkStateId < a.linkStateId then lsa :: a :: database
    else if lsa.linkStateId = a.linkStateId then a :: database
    else a :: insertLSA lsa database

theorem mem_insertLSA {lsa a : GlobalRoutingLSA} {database : List GlobalRoutingLSA}
    (h : a ∈ insertLSA lsa database) : a = lsa ∨ a ∈ database := by
  induction database with
  | nil => exact Or.inl (List.mem_singleton.1 h)
  | cons b database ih =>
    rw [insertLSA] at h
    split_ifs at h
    · exact List.mem_cons.1 h
    · exact Or.inr h
    · rcases List.mem_cons.1 h with rfl | h
      · exact Or.inr List.mem_cons_self
      · exact (ih h).imp_right (List.mem_cons_of_mem _)

theorem pairwise_insertLSA (lsa : GlobalRoutingLSA) {database : List GlobalRoutingLSA}
    (h : database.Pairwise fun a b => a.linkStateId < b.linkStateId) :
    (insertLSA lsa database).Pairwise fun a b => a.linkStateId < b.linkStateId := by
  induction database with
  | nil => exact List.pairwise_singleton _ _
  | cons a database ih =>
    rw [List.pairwise_cons] at h
    rw [insertLSA]
    split_ifs with hlt heq
    · refine List.pairwise_cons.2 ⟨fun b hb => ?_, List.pairwise_cons.2 h⟩
      rcases List.mem_cons.1 hb with rfl | hb
      · exact hlt
      · exact UInt32.lt_trans hlt (h.1 b hb)
    · exact List.pairwise_cons.2 h
    · refine List.pairwise_cons.2 ⟨fun b hb => ?_, ih h.2⟩
      rcases mem_insertLSA hb with rfl | hb
      · exact UInt32.lt_of_le_of_ne (UInt32.not_lt.1 hlt) (Ne.symm heq)
      · exact h.1 b hb

namespace GlobalRouteManagerLSDB

def empty : GlobalRouteManagerLSDB := ⟨[], [], List.Pairwise.nil⟩

/-- `Insert` under the id of the LSA. -/
def insert (db : GlobalRouteManagerLSDB) (lsa : GlobalRoutingLSA) : GlobalRouteManagerLSDB :=
  { db with
    database := insertLSA lsa db.database
    sorted := pairwise_insertLSA lsa db.sorted }

variable (db : GlobalRouteManagerLSDB)

def getLSA (addr : UInt32) : Option GlobalRoutingLSA :=
  db.database.find? fun lsa => lsa.linkStateId == addr

/-- The first LSA with a record of a transit network that has the address as its link data. -/
def getLSAByLinkData (addr : UInt32) : Option GlobalRoutingLSA :=
  db.database.find? fun lsa =>
    lsa.linkRecords.any fun lr => lr.linkType == .transitNetwork && lr.linkData == addr

variable {db} {addr : UInt32} {lsa lsa' : GlobalRoutingLSA}

theorem nodup_ids (db : GlobalRouteManagerLSDB) : (db.database.map (·.linkStateId)).Nodup :=
  List.pairwise_map.2 (db.sorted.imp UInt32.ne_of_lt)

theorem eq_of_id_eq (h : lsa ∈ db.database) (h' : lsa' ∈ db.database)
    (hid : lsa.linkStateId = lsa'.linkStateId) : lsa = lsa' :=
  List.inj_on_of_nodup_map db.nodup_ids h h' hid

theorem mem_of_getLSA (h : db.getLSA addr = some lsa) : lsa ∈ db.database :=
  List.mem_of_find?_eq_some h

theorem id_of_getLSA (h : db.getLSA addr = some lsa) : lsa.linkStateId = addr := by
  simpa using List.find?_some h

theorem mem_of_getLSAByLinkData (h : db.getLSAByLinkData addr = some lsa) : lsa ∈ db.database :=
  List.mem_of_find?_eq_some h

end GlobalRouteManagerLSDB

/-- A node of `NodeList`: the id of its `GlobalRouter`, if it has one, and the local addresses of
its IPv4 interfaces. -/
structure RoutingNode where
  routerId : Option UInt32
  interfaces : List (List UInt32)
  deriving DecidableEq, Repr

/-- `GetInterfaceForPrefix`, -1 if there is none. -/
def RoutingNode.getInterfaceForPrefix (node : RoutingNode) (address mask : UInt32) : ℤ :=
  match node.interfaces.findIdx? fun locals => locals.any (· &&& mask == address &&& mask) with
  | some interface => interface
  | none => -1

inductive RouteKind
  | host
  | network
  | asExternal
  deriving DecidableEq, Repr

/-- A route of the `Ipv4GlobalRouting` of a node. -/
structure GlobalRoute where
  node : ℕ
  kind : RouteKind
  dest : UInt32
  mask : UInt32
  nextHop : UInt32
  interface : ℤ
  deriving DecidableEq, Repr

end SeanetSim
