import Mathlib.Combinatorics.SimpleGraph.Connectivity.Subgraph
import SeanetSim.Lib.Reachable

/-!
# Growing a connected set by branches

A set of vertices of a graph grows around a root.  A new vertex starts a branch towards an anchor
of the set; the vertices of a branch join the set one after the other, while other branches grow,
and the inner vertices of a branch become anchors as soon as they have joined.  The set alone need
not be connected while branches are half built, but the set together with the vertices that the
pending branches still have to visit is (`Growth.connected_covered`), so it is connected whenever
no branch is pending (`Growth.connected_members`).
-/

namespace SeanetSim

open Relation

variable {V : Type*} (G : SimpleGraph V)

/-- The vertices a branch from `d` to `t` visits after `d`: neighbours in the graph one after the
other (a vertex may also hand the branch to itself), the last one `t`. -/
def IsBranch (d t : V) (hops : List V) : Prop :=
  (d :: hops).IsChain (fun a b => a = b ∨ G.Adj a b) ∧ hops.getLast? = some t

/-- Two vertices of `S` joined by a path inside `S`. -/
def JoinedIn (S : Set V) : V → V → Prop :=
  ReflTransGen fun a b => G.Adj a b ∧ a ∈ S ∧ b ∈ S

variable {G}

theorem JoinedIn.mono {S T : Set V} (h : S ⊆ T) {a b : V} (hab : JoinedIn G S a b) :
    JoinedIn G T a b :=
  ReflTransGen.mono (fun _ _ ⟨hadj, ha, hb⟩ => ⟨hadj, h ha, h hb⟩) _ _ hab

theorem JoinedIn.symm {S : Set V} {a b : V} (hab : JoinedIn G S a b) : JoinedIn G S b a := by
  induction hab with
  | refl => exact .refl
  | tail _ h ih => exact .head ⟨h.1.symm, h.2.2, h.2.1⟩ ih

theorem JoinedIn.reachable {S : Set V} {a b : V} (hab : JoinedIn G S a b) (ha : a ∈ S)
    (hb : b ∈ S) :
    (G.induce S).Reachable ⟨a, ha⟩ ⟨b, hb⟩ := by
  induction hab with
  | refl => exact .refl _
  | tail _ h ih => exact (ih h.2.1).trans (SimpleGraph.Adj.reachable h.1)

/-- A set all of whose vertices are joined to one of them inside the set is connected. -/
theorem connected_of_joinedIn {S : Set V} {r : V} (hr : r ∈ S) (h : ∀ a ∈ S, JoinedIn G S a r) :
    (G.induce S).Connected :=
  SimpleGraph.induce_connected_of_patches r hr fun {v} hv =>
    ⟨S, subset_rfl, hr, hv, (h v hv).symm.reachable hr hv⟩

/-- Every vertex of a branch is joined to its last vertex inside the branch. -/
theorem IsBranch.joinedIn {d t : V} {hops : List V} (h : IsBranch G d t hops) :
    ∀ a ∈ d :: hops, JoinedIn G {v | v ∈ d :: hops} a t := by
  obtain ⟨hchain, hlast⟩ := h
  induction hops generalizing d with
  | nil => simp at hlast
  | cons b rest ih =>
    obtain ⟨hdb, hchain⟩ := List.isChain_cons_cons.1 hchain
    have htail : ∀ a ∈ b :: rest, JoinedIn G {v | v ∈ d :: b :: rest} a t := by
      rcases rest with _ | ⟨c, rest⟩
      · obtain rfl : b = t := by simpa using hlast
        intro a ha
        obtain rfl : a = b := by simpa using ha
        exact .refl
      · have hlast' : (c :: rest).getLast? = some t := by simpa using hlast
        intro a ha
        exact (ih hchain hlast' a ha).mono fun v hv => List.mem_cons_of_mem _ hv
    intro a ha
    rcases List.mem_cons.1 ha with rfl | ha
    · rcases hdb with rfl | hadj
      · exact htail a (by simp)
      · exact ReflTransGen.head ⟨hadj, by simp, by simp⟩ (htail b (by simp))
    · exact htail a ha

/-- A growing set: its members, the members a new branch may go to, and for every pending branch
the vertices it still has to visit. -/
structure Growth (V : Type*) where
  members : Set V
  anchors : Set V
  pending : List (List V)

namespace Growth

/-- The members and the vertices the pending branches will add. -/
def covered (s : Growth V) : Set V := s.members ∪ {v | ∃ hops ∈ s.pending, v ∈ hops}

/-- The set before anything has grown. -/
def root (r : V) : Growth V := ⟨{r}, {r}, []⟩

variable (G) in
/-- One vertex starts a branch, or one pending branch visits its next vertex; inner vertices
become anchors. -/
inductive Step : Growth V → Growth V → Prop
  | join {s : Growth V} {d t : V} {hops : List V} (ht : t ∈ s.anchors) (hb : IsBranch G d t hops) :
      Step s ⟨insert d s.members, s.anchors, hops :: s.pending⟩
  | visit {s : Growth V} {l₁ l₂ : List (List V)} {v w : V} {rest : List V}
      (hp : s.pending = l₁ ++ (v :: w :: rest) :: l₂) :
      Step s ⟨insert v s.members, insert v s.anchors, l₁ ++ (w :: rest) :: l₂⟩
  | finish {s : Growth V} {l₁ l₂ : List (List V)} {v : V} (hp : s.pending = l₁ ++ [v] :: l₂) :
      Step s ⟨insert v s.members, s.anchors, l₁ ++ l₂⟩

/-- The root and the anchors are members, and the covered set is joined to the root. -/
structure Inv (G : SimpleGraph V) (r : V) (s : Growth V) : Prop where
  root_mem : r ∈ s.members
  anchors_subset : s.anchors ⊆ s.members
  joined : ∀ a ∈ s.covered, JoinedIn G s.covered a r

theorem inv_root (r : V) : Inv G r (root r) where
  root_mem := by simp [root]
  anchors_subset := subset_rfl
  joined := by
    intro a ha
    obtain rfl : a = r := by simpa [covered, root] using ha
    exact .refl

/-- Visiting a vertex moves it from the pending part of the covered set to the members. -/
theorem covered_visit {s : Growth V} {l₁ l₂ : List (List V)} {v : V} {rest : List V}
    (hp : s.pending = l₁ ++ (v :: rest) :: l₂) (A : Set V) :
    (⟨insert v s.members, A, l₁ ++ rest :: l₂⟩ : Growth V).covered = s.covered := by
  ext a
  simp only [covered, hp, Set.mem_union, Set.mem_insert_iff, Set.mem_ofPred_eq, List.mem_append,
    List.mem_cons]
  grind

theorem covered_finish {s : Growth V} {l₁ l₂ : List (List V)} {v : V}
    (hp : s.pending = l₁ ++ [v] :: l₂) (A : Set V) :
    (⟨insert v s.members, A, l₁ ++ l₂⟩ : Growth V).covered = s.covered := by
  rw [← covered_visit hp A]
  ext a
  simp only [covered, Set.mem_union, Set.mem_ofPred_eq, List.mem_append, List.mem_cons]
  grind

theorem covered_join (s : Growth V) (d : V) (hops : List V) :
    (⟨insert d s.members, s.anchors, hops :: s.pending⟩ : Growth V).covered =
      s.covered ∪ {v | v ∈ d :: hops} := by
  ext a
  simp only [covered, Set.mem_union, Set.mem_insert_iff, Set.mem_ofPred_eq, List.mem_cons]
  grind

theorem inv_step {r : V} {s s' : Growth V} (h : Inv G r s) (hstep : Step G s s') : Inv G r s' := by
  cases hstep with
  | @join d t hops ht hb =>
    have hcov : t ∈ s.covered := Or.inl (h.anchors_subset ht)
    refine ⟨Set.mem_insert_of_mem _ h.root_mem,
      h.anchors_subset.trans (Set.subset_insert _ _), ?_⟩
    rw [covered_join]
    rintro a (ha | ha)
    · exact (h.joined a ha).mono Set.subset_union_left
    · -- a new vertex goes along its branch to the anchor, and from there to the root
      exact ((hb.joinedIn a ha).mono Set.subset_union_right).trans
        ((h.joined t hcov).mono Set.subset_union_left)
  | @visit l₁ l₂ v w rest hp =>
    refine ⟨Set.mem_insert_of_mem _ h.root_mem, Set.insert_subset_insert h.anchors_subset, ?_⟩
    rw [covered_visit hp]
    exact h.joined
  | @finish l₁ l₂ v hp =>
    refine ⟨Set.mem_insert_of_mem _ h.root_mem,
      h.anchors_subset.trans (Set.subset_insert _ _), ?_⟩
    rw [covered_finish hp]
    exact h.joined

theorem inv_reachable {r : V} {s : Growth V} (hs : Reachable {root r} (Step G) s) : Inv G r s :=
  hs.invariant (by rintro s rfl; exact inv_root r) fun _ _ => inv_step

/-- Members and pending vertices together are always connected. -/
theorem connected_covered {r : V} {s : Growth V} (hs : Reachable {root r} (Step G) s) :
    (G.induce s.covered).Connected :=
  connected_of_joinedIn (Or.inl (inv_reachable hs).root_mem) (inv_reachable hs).joined

/-- The members are connected whenever no branch is pending. -/
theorem connected_members {r : V} {s : Growth V} (hs : Reachable {root r} (Step G) s)
    (hp : s.pending = []) : r ∈ s.members ∧ (G.induce s.members).Connected := by
  have hcov : s.covered = s.members := by simp [covered, hp]
  exact ⟨(inv_reachable hs).root_mem, hcov ▸ connected_covered hs⟩

end Growth

end SeanetSim
