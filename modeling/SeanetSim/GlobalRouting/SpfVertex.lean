import Mathlib.Data.Prod.Lex
import SeanetSim.GlobalRouting.LinkState
import SeanetSim.Lib.SortedList

/-!
# Vertices of the shortest path tree

A vertex has a distance from the root, the exits by which the root reaches it, and its parents.
The candidate queue orders vertices by their distances, networks before routers
(`compareSPFVertex_iff`).

A vertex stands for an LSA.  Its parents are given by their ids: all vertices that can be parents
are in the tree, which has one vertex for an LSA.
-/

namespace SeanetSim

/-- `NodeExit_t`: the next hop and the output interface of the root. -/
abbrev NodeExit := UInt32 × ℤ

/-- `operator <` of pairs. -/
def NodeExit.lt (e e' : NodeExit) : Bool := e.1 < e'.1 || (!(e'.1 < e.1) && e.2 < e'.2)

/-- What stops a calculation: a null pointer is used, an assertion fails, or it has no end. -/
inductive SpfError
  | nullPointer
  | assertion (message : String)
  | outOfFuel
  deriving DecidableEq, Repr

structure SPFVertex where
  lsa : GlobalRoutingLSA
  distanceFromRoot : UInt32
  ecmpRootExits : List NodeExit
  parents : List UInt32
  deriving DecidableEq, Repr

namespace SPFVertex

/-- A new vertex, at distance `SPF_INFINITY`. -/
def ofLSA (lsa : GlobalRoutingLSA) : SPFVertex := ⟨lsa, 0xffffffff, [], []⟩

def vertexId (v : SPFVertex) : UInt32 := v.lsa.linkStateId

/-- The vertex type is `VertexNetwork`, not `VertexRouter`. -/
def isNetwork (v : SPFVertex) : Bool := v.lsa.isNetwork

def setDistanceFromRoot (v : SPFVertex) (distance : UInt32) : SPFVertex :=
  { v with distanceFromRoot := distance }

def setParent (v parent : SPFVertex) : SPFVertex := { v with parents := [parent.vertexId] }

def setRootExitDirection (v : SPFVertex) (exit : NodeExit) : SPFVertex :=
  { v with ecmpRootExits := [exit] }

/-- `GetRootExitDirection ()`, for a vertex with one exit. -/
def getRootExitDirection (v : SPFVertex) : Except SpfError NodeExit :=
  match v.ecmpRootExits with
  | [] => .error (.assertion "Index out-of-range when accessing SPFVertex::m_ecmpRootExits!")
  | [exit] => .ok exit
  | _ => .error (.assertion "Assumed there is at most one exit from the root to this vertex")

def mergeRootExitDirections (v vertex : SPFVertex) : SPFVertex :=
  { v with ecmpRootExits := sortUnique NodeExit.lt (v.ecmpRootExits ++ vertex.ecmpRootExits) }

def inheritAllRootExitDirections (v vertex : SPFVertex) : SPFVertex :=
  { v with ecmpRootExits := vertex.ecmpRootExits }

/-- `MergeParent`, which sorts pointers: `address` says where the vertices are in memory. -/
def mergeParent (address : UInt32 → ℕ) (v vertex : SPFVertex) : SPFVertex :=
  { v with
    parents := sortUnique (fun p q => address p < address q) (v.parents ++ vertex.parents) }

/-- What becomes of a vertex when a path of the same cost is found, which `vertex` is made for. -/
def merge (address : UInt32 → ℕ) (v vertex : SPFVertex) : SPFVertex :=
  (v.mergeRootExitDirections vertex).mergeParent address vertex

section Fields

variable (v w : SPFVertex) (e : NodeExit) (d : UInt32) (lsa : GlobalRoutingLSA)
  (address : UInt32 → ℕ)

@[simp] theorem ofLSA_lsa : (ofLSA lsa).lsa = lsa := rfl

@[simp] theorem ofLSA_ecmpRootExits : (ofLSA lsa).ecmpRootExits = [] := rfl

@[simp] theorem setDistanceFromRoot_lsa : (v.setDistanceFromRoot d).lsa = v.lsa := rfl

@[simp] theorem setDistanceFromRoot_distanceFromRoot :
    (v.setDistanceFromRoot d).distanceFromRoot = d := rfl

@[simp] theorem setDistanceFromRoot_ecmpRootExits :
    (v.setDistanceFromRoot d).ecmpRootExits = v.ecmpRootExits := rfl

@[simp] theorem setParent_lsa : (v.setParent w).lsa = v.lsa := rfl

@[simp] theorem setParent_distanceFromRoot :
    (v.setParent w).distanceFromRoot = v.distanceFromRoot := rfl

@[simp] theorem setParent_ecmpRootExits : (v.setParent w).ecmpRootExits = v.ecmpRootExits := rfl

@[simp] theorem setParent_parents : (v.setParent w).parents = [w.vertexId] := rfl

@[simp] theorem setRootExitDirection_lsa : (v.setRootExitDirection e).lsa = v.lsa := rfl

@[simp] theorem setRootExitDirection_ecmpRootExits :
    (v.setRootExitDirection e).ecmpRootExits = [e] := rfl

@[simp] theorem inheritAllRootExitDirections_lsa :
    (v.inheritAllRootExitDirections w).lsa = v.lsa := rfl

@[simp] theorem inheritAllRootExitDirections_ecmpRootExits :
    (v.inheritAllRootExitDirections w).ecmpRootExits = w.ecmpRootExits := rfl

@[simp] theorem merge_lsa : (v.merge address w).lsa = v.lsa := rfl

@[simp] theorem merge_distanceFromRoot :
    (v.merge address w).distanceFromRoot = v.distanceFromRoot := rfl

end Fields

/-- The assertions hold exactly for one exit. -/
theorem getRootExitDirection_eq_ok_iff {v : SPFVertex} {exit : NodeExit} :
    v.getRootExitDirection = .ok exit ↔ v.ecmpRootExits = [exit] := by
  unfold getRootExitDirection
  split <;> simp_all

end SPFVertex

/-! ### Merging -/

/-- The order of the pairs. -/
def NodeExit.key (e : NodeExit) : ℕ ×ₗ ℤ := toLex (e.1.toNat, e.2)

theorem NodeExit.lt_iff (e e' : NodeExit) : e.lt e' = true ↔ e.key < e'.key := by
  simp only [NodeExit.lt, NodeExit.key, Prod.Lex.toLex_lt_toLex, Bool.or_eq_true,
    Bool.and_eq_true, Bool.not_eq_true', decide_eq_true_eq, decide_eq_false_iff_not,
    UInt32.lt_iff_toNat_lt]
  omega

theorem NodeExit.key_injective : Function.Injective NodeExit.key := by
  intro e e' h
  have hpair := toLex.injective h
  rw [Prod.mk.injEq] at hpair
  exact Prod.ext (UInt32.toNat_inj.1 hpair.1) hpair.2

namespace SPFVertex

variable {v w : SPFVertex} {e : NodeExit} {address : UInt32 → ℕ} {p : UInt32}

theorem mem_merge_ecmpRootExits : e ∈ (v.merge address w).ecmpRootExits ↔
    e ∈ v.ecmpRootExits ∨ e ∈ w.ecmpRootExits := by
  rw [merge, mergeParent, mergeRootExitDirections,
    mem_sortUnique NodeExit.lt_iff NodeExit.key_injective, List.mem_append]

theorem nodup_merge_ecmpRootExits : (v.merge address w).ecmpRootExits.Nodup :=
  nodup_sortUnique NodeExit.lt_iff NodeExit.key_injective

theorem mem_merge_parents (hinj : Function.Injective address) :
    p ∈ (v.merge address w).parents ↔ p ∈ v.parents ∨ p ∈ w.parents := by
  rw [merge, mergeParent, mem_sortUnique (by simp) hinj, List.mem_append]
  rfl

theorem pairwise_merge_parents (hinj : Function.Injective address) :
    (v.merge address w).parents.Pairwise fun p q => address p ≤ address q :=
  pairwise_sortUnique (by simp) hinj

end SPFVertex

/-! ### The candidate queue -/

/-- `CandidateQueue::CompareSPFVertex`. -/
def compareSPFVertex (v₁ v₂ : SPFVertex) : Bool :=
  if v₁.distanceFromRoot < v₂.distanceFromRoot then true
  else if v₁.distanceFromRoot = v₂.distanceFromRoot then v₁.isNetwork && !v₂.isNetwork
  else false

/-- Twice the distance, and one more for a router. -/
def SPFVertex.rank (v : SPFVertex) : ℕ :=
  2 * v.distanceFromRoot.toNat + if v.isNetwork then 0 else 1

theorem compareSPFVertex_iff (v₁ v₂ : SPFVertex) :
    compareSPFVertex v₁ v₂ = true ↔ v₁.rank < v₂.rank := by
  unfold compareSPFVertex SPFVertex.rank
  simp only [UInt32.lt_iff_toNat_lt, ← UInt32.toNat_inj]
  cases v₁.isNetwork <;> cases v₂.isNetwork <;> simp <;> omega

namespace CandidateQueue

def push (vNew : SPFVertex) (candidates : List SPFVertex) : List SPFVertex :=
  insertUpper compareSPFVertex vNew candidates

def find (addr : UInt32) (candidates : List SPFVertex) : Option SPFVertex :=
  candidates.find? fun v => v.vertexId == addr

def reorder (candidates : List SPFVertex) : List SPFVertex := stableSort compareSPFVertex candidates

/-- What becomes of the queue when its vertex with an id is changed. -/
def update (addr : UInt32) (v : SPFVertex) (candidates : List SPFVertex) : List SPFVertex :=
  candidates.map fun w => if w.vertexId = addr then v else w

variable {addr : UInt32} {v w : SPFVertex} {candidates : List SPFVertex}

theorem mem_of_find (h : find addr candidates = some v) : v ∈ candidates :=
  List.mem_of_find?_eq_some h

theorem id_of_find (h : find addr candidates = some v) : v.vertexId = addr := by
  simpa using List.find?_some h

theorem mem_update (h : w ∈ update addr v candidates) :
    w = v ∨ w ∈ candidates ∧ w.vertexId ≠ addr := by
  obtain ⟨x, hx, rfl⟩ := List.mem_map.1 h
  split_ifs with hid
  · exact Or.inl rfl
  · exact Or.inr ⟨hx, hid⟩

end CandidateQueue

end SeanetSim
