import Mathlib.Data.List.Nodup
import Mathlib.Data.List.Perm.Subperm
import Mathlib.Logic.Function.Basic
import Mathlib.Order.Lattice

/-!
# Breadth-first search with a parent function

`breadthFirst` is the search with a queue that stops when the destination is in front.  `Explored`
says what it knows of the graph, in terms of the order in which the vertices are discovered.  The
path that the parents give is a shortest one (`Explored.shortest`), and at each of its vertices it
goes on to the first of the successors that are closest to the destination (`Explored.greedy`), so
that the rest of a path does not depend on where it started.
-/

namespace SeanetSim

variable {V : Type*}

/-! ## Paths -/

/-- A walk from `u` to `w`, by the vertices after `u`. -/
def Walk (succ : V → List V) : V → List V → V → Prop
  | u, [], w => u = w
  | u, v :: p, w => v ∈ succ u ∧ Walk succ v p w

/-- The path from the source to a vertex that its ancestors make. -/
inductive TreePath (parent : V → Option V) (source : V) : List V → V → Prop
  | root : TreePath parent source [] source
  | child {p : List V} {u v : V} : TreePath parent source p u → v ≠ source → parent v = some u →
      TreePath parent source (p ++ [v]) v

/-- A path down the tree. -/
def Descends (parent : V → Option V) (source : V) : V → List V → V → Prop
  | u, [], w => u = w
  | u, v :: p, w => v ≠ source ∧ parent v = some u ∧ Descends parent source v p w

section Paths

variable {succ : V → List V} {source u v w : V} {parent : V → Option V} {p : List V}

theorem Walk.concat (h : Walk succ u p v) (hw : w ∈ succ v) : Walk succ u (p ++ [w]) w := by
  induction p generalizing u with
  | nil =>
    cases h
    exact ⟨hw, rfl⟩
  | cons x p ih => exact ⟨h.1, ih h.2⟩

theorem Descends.concat (h : Descends parent source u p v) (hne : w ≠ source)
    (hw : parent w = some v) : Descends parent source u (p ++ [w]) w := by
  induction p generalizing u with
  | nil =>
    cases h
    exact ⟨hne, hw, rfl⟩
  | cons x p ih => exact ⟨h.1, h.2.1, ih h.2.2⟩

theorem TreePath.descends (h : TreePath parent source p v) : Descends parent source source p v := by
  induction h with
  | root => rfl
  | child _ hne hparent ih => exact ih.concat hne hparent

theorem TreePath.append {q : List V} (h : TreePath parent source p u)
    (hq : Descends parent source u q v) : TreePath parent source (p ++ q) v := by
  induction q generalizing u p with
  | nil =>
    cases hq
    rwa [List.append_nil]
  | cons x q ih =>
    rw [List.append_cons]
    exact ih (h.child hq.1 hq.2.1) hq.2.2

theorem TreePath.eq_nil (h : TreePath parent source p source) : p = [] := by
  cases h with
  | root => rfl
  | child _ hne _ => exact absurd rfl hne

end Paths

/-! ## The search -/

variable [DecidableEq V]

/-- A successor that is new gets its parent and a place at the end of the queue. -/
def discover (curr : V) (s : (V → Option V) × List V) (v : V) : (V → Option V) × List V :=
  if s.1 v = none then (Function.update s.1 v (some curr), s.2 ++ [v]) else s

/-- The loop of the search, with fuel for its iterations. -/
def breadthFirstLoop (succ : V → List V) (dest : V) :
    ℕ → (V → Option V) → List V → Option (Bool × (V → Option V))
  | 0, _, _ => none
  | _ + 1, parent, [] => some (false, parent)
  | fuel + 1, parent, curr :: queue =>
    if curr = dest then some (true, parent)
    else
      let s := (succ curr).foldl (discover curr) (parent, queue)
      breadthFirstLoop succ dest fuel s.1 s.2

/-- Whether the destination is found, and the parents of the vertices that are. -/
def breadthFirst (succ : V → List V) (fuel : ℕ) (source dest : V) :
    Option (Bool × (V → Option V)) :=
  breadthFirstLoop succ dest fuel (Function.update (fun _ => none) source (some source)) [source]

/-- `order` are the vertices discovered so far; the successors of the first `limit` of them are
among them. -/
structure Explored (succ : V → List V) (source : V) (parent : V → Option V) (order : List V)
    (limit : ℕ) : Prop where
  nodup : order.Nodup
  seen : ∀ v, parent v ≠ none ↔ v ∈ order
  root : parent source = some source
  up : ∀ v ∈ order, v ≠ source → ∃ p ∈ order, parent v = some p ∧
    order.idxOf p < order.idxOf v ∧ order.idxOf p ≤ limit
  mono : ∀ v w p q, v ≠ source → w ≠ source → parent v = some p → parent w = some q →
    order.idxOf v ≤ order.idxOf w → order.idxOf p ≤ order.idxOf q
  closed : ∀ u ∈ order, order.idxOf u < limit → ∀ v ∈ succ u, v ∈ order ∧
    (v ≠ source → ∀ p, parent v = some p → order.idxOf p ≤ order.idxOf u)
  sibling : ∀ v p, v ≠ source → parent v = some p → ∃ l l', succ p = l ++ v :: l' ∧
    ∀ y ∈ l, y ∈ order ∧ order.idxOf y < order.idxOf v

section Step

variable {succ : V → List V} {source dest curr v : V} {parent : V → Option V} {order : List V}
  {limit : ℕ}

theorem idxOf_append_singleton_of_mem {u : V} (hu : u ∈ order) :
    (order ++ [v]).idxOf u = order.idxOf u := List.idxOf_append_of_mem hu

theorem idxOf_append_singleton_self (hv : v ∉ order) : (order ++ [v]).idxOf v = order.length := by
  rw [List.idxOf_append_of_notMem hv, List.idxOf_cons_self, Nat.add_zero]

/-- The successors of the next vertex are scanned one after the other. -/
structure Scanning (succ : V → List V) (source : V) (parent : V → Option V) (order : List V)
    (limit : ℕ) (curr : V) (scanned : List V) : Prop
    extends Explored succ source parent order limit where
  here : order[limit]? = some curr
  scanned : ∀ v ∈ scanned, v ∈ order

theorem Explored.mem_of_parent (h : Explored succ source parent order limit) {p : V}
    (hp : parent v = some p) : v ∈ order := (h.seen v).1 (by rw [hp]; exact Option.some_ne_none p)

theorem Explored.parent_mem (h : Explored succ source parent order limit) {p : V}
    (hv : v ≠ source) (hp : parent v = some p) :
    p ∈ order ∧ order.idxOf p < order.idxOf v ∧ order.idxOf p ≤ limit := by
  obtain ⟨q, hq, hpq, hlt, hle⟩ := h.up v (h.mem_of_parent hp) hv
  cases hp.symm.trans hpq
  exact ⟨hq, hlt, hle⟩

theorem Scanning.curr_mem {scanned : List V}
    (h : Scanning succ source parent order limit curr scanned) :
    curr ∈ order ∧ order.idxOf curr = limit := by
  obtain ⟨hlt, hget⟩ := List.getElem?_eq_some_iff.1 h.here
  subst hget
  exact ⟨List.getElem_mem hlt, h.nodup.idxOf_getElem limit hlt⟩

/-- A vertex that has not been seen is appended. -/
theorem Scanning.new {scanned rest : List V}
    (h : Scanning succ source parent order limit curr scanned)
    (hsucc : succ curr = scanned ++ v :: rest) (hnone : parent v = none) :
    Scanning succ source (Function.update parent v (some curr)) (order ++ [v]) limit curr
      (scanned ++ [v]) := by
  obtain ⟨hcurr, hlimit⟩ := h.curr_mem
  have hv : v ∉ order := fun hmem => (h.seen v).2 hmem hnone
  have hsource : source ≠ v := fun heq => by
    rw [← heq, h.root] at hnone
    cases hnone
  have hnew : (order ++ [v]).idxOf v = order.length := idxOf_append_singleton_self hv
  have hold : ∀ {u}, u ∈ order → (order ++ [v]).idxOf u = order.idxOf u := fun hu =>
    idxOf_append_singleton_of_mem hu
  have hlt : ∀ {u}, u ∈ order → order.idxOf u < order.length := fun hu =>
    List.idxOf_lt_length_of_mem hu
  have hne : ∀ {u}, u ∈ order → u ≠ v := fun hu heq => hv (heq ▸ hu)
  constructor
  · constructor
    · exact List.nodup_append.2 ⟨h.nodup, List.nodup_singleton v, fun a ha b hb => by
        rw [List.mem_singleton.1 hb]
        exact hne ha⟩
    · intro w
      by_cases hw : w = v
      · subst hw
        simp
      · rw [Function.update_of_ne hw, h.seen w]
        simp [hw]
    · rw [Function.update_of_ne hsource, h.root]
    · intro w hw hwsource
      rw [List.mem_append, List.mem_singleton] at hw
      rcases hw with hw | rfl
      · obtain ⟨p, hp, hparent, hidx, hle⟩ := h.up w hw hwsource
        refine ⟨p, List.mem_append_left _ hp, ?_, ?_, ?_⟩
        · rw [Function.update_of_ne (hne hw), hparent]
        · rwa [hold hp, hold hw]
        · rwa [hold hp]
      · refine ⟨curr, List.mem_append_left _ hcurr, Function.update_self .., ?_, ?_⟩
        · rw [hold hcurr, hnew]
          exact hlt hcurr
        · rw [hold hcurr, hlimit]
    · intro w w' p q hw hw' hp hq hle
      by_cases hwv : w = v
      · subst hwv
        rw [Function.update_self] at hp
        cases hp
        by_cases hwv' : w' = w
        · subst hwv'
          rw [Function.update_self] at hq
          cases hq
          exact Nat.le_refl _
        · rw [Function.update_of_ne hwv'] at hq
          have hmem := h.mem_of_parent hq
          rw [hnew, hold hmem] at hle
          exact absurd (hlt hmem) (Nat.not_lt.2 hle)
      · rw [Function.update_of_ne hwv] at hp
        obtain ⟨hpmem, -, hplim⟩ := h.parent_mem hw hp
        by_cases hwv' : w' = v
        · subst hwv'
          rw [Function.update_self] at hq
          cases hq
          rwa [hold hpmem, hold hcurr, hlimit]
        · rw [Function.update_of_ne hwv'] at hq
          rw [hold (h.mem_of_parent hp), hold (h.mem_of_parent hq)] at hle
          rw [hold hpmem, hold (h.parent_mem hw' hq).1]
          exact h.mono w w' p q hw hw' hp hq hle
    · intro u hu hlim w hw
      rw [List.mem_append, List.mem_singleton] at hu
      rcases hu with hu | rfl
      · rw [hold hu] at hlim ⊢
        obtain ⟨hmem, hleast⟩ := h.closed u hu hlim w hw
        refine ⟨List.mem_append_left _ hmem, fun hwsource p hp => ?_⟩
        rw [Function.update_of_ne (hne hmem)] at hp
        rw [hold (h.parent_mem hwsource hp).1]
        exact hleast hwsource p hp
      · have := hlt hcurr
        rw [hnew] at hlim
        omega
    · intro w p hw hp
      by_cases hwv : w = v
      · subst hwv
        rw [Function.update_self] at hp
        cases hp
        refine ⟨scanned, rest, hsucc, fun y hy => ?_⟩
        have hmem := h.scanned y hy
        rw [hnew, hold hmem]
        exact ⟨List.mem_append_left _ hmem, hlt hmem⟩
      · rw [Function.update_of_ne hwv] at hp
        obtain ⟨l, l', hl, hbefore⟩ := h.sibling w p hw hp
        refine ⟨l, l', hl, fun y hy => ?_⟩
        obtain ⟨hmem, hidx⟩ := hbefore y hy
        rw [hold hmem, hold (h.mem_of_parent hp)]
        exact ⟨List.mem_append_left _ hmem, hidx⟩
  · obtain ⟨hin, -⟩ := List.getElem?_eq_some_iff.1 h.here
    rw [List.getElem?_append_left hin, h.here]
  · intro w hw
    rw [List.mem_append, List.mem_singleton] at hw ⊢
    exact hw.imp_left (h.scanned w)

theorem Scanning.discover {scanned rest : List V}
    (h : Scanning succ source parent order limit curr scanned) (queue : List V)
    (hsucc : succ curr = scanned ++ v :: rest) :
    ∃ order', (SeanetSim.discover curr (parent, queue) v).2 = queue ++ order' ∧
      Scanning succ source (SeanetSim.discover curr (parent, queue) v).1 (order ++ order') limit
        curr (scanned ++ [v]) := by
  unfold SeanetSim.discover
  split_ifs with hnone
  · exact ⟨[v], rfl, h.new hsucc hnone⟩
  · refine ⟨[], (List.append_nil _).symm, ?_⟩
    rw [List.append_nil]
    refine { h with scanned := fun w hw => ?_ }
    rw [List.mem_append, List.mem_singleton] at hw
    rcases hw with hw | rfl
    · exact h.scanned w hw
    · exact (h.seen w).1 hnone

/-- All successors of a vertex. -/
theorem Scanning.foldl {scanned rest : List V}
    (h : Scanning succ source parent order limit curr scanned) (queue : List V)
    (hsucc : succ curr = scanned ++ rest) :
    ∃ order', (rest.foldl (SeanetSim.discover curr) (parent, queue)).2 = queue ++ order' ∧
      Scanning succ source (rest.foldl (SeanetSim.discover curr) (parent, queue)).1
        (order ++ order') limit curr (succ curr) := by
  induction rest generalizing parent order scanned queue with
  | nil =>
    rw [List.append_nil] at hsucc
    refine ⟨[], (List.append_nil _).symm, ?_⟩
    rw [List.append_nil, hsucc]
    exact h
  | cons v rest ih =>
    have ⟨order₁, hqueue₁, h₁⟩ := h.discover queue hsucc
    rw [List.append_cons] at hsucc
    have ⟨order₂, hqueue₂, h₂⟩ := ih h₁ (queue ++ order₁) hsucc
    rw [List.foldl_cons]
    rw [← hqueue₁, Prod.eta] at hqueue₂ h₂
    rw [hqueue₁, List.append_assoc] at hqueue₂
    rw [List.append_assoc] at h₂
    exact ⟨order₁ ++ order₂, hqueue₂, h₂⟩

/-- The next vertex of the queue is done. -/
theorem Explored.step {queue : List V} (h : Explored succ source parent order limit)
    (hqueue : order.drop limit = curr :: queue) :
    ∃ order', ((succ curr).foldl (SeanetSim.discover curr) (parent, queue)).2 = queue ++ order' ∧
      Explored succ source ((succ curr).foldl (SeanetSim.discover curr) (parent, queue)).1
        (order ++ order') (limit + 1) := by
  have hhere : order[limit]? = some curr := by
    rw [← Nat.add_zero limit, ← List.getElem?_drop, hqueue]
    rfl
  have hstart : Scanning succ source parent order limit curr [] :=
    { h with here := hhere, scanned := fun _ hv => absurd hv List.not_mem_nil }
  have ⟨order', hqueue', hdone⟩ := hstart.foldl queue (List.nil_append _).symm
  refine ⟨order', hqueue', { hdone with up := ?_, closed := ?_ }⟩
  · intro v hv hsource
    have ⟨p, hp, hparent, hlt, hle⟩ := hdone.up v hv hsource
    exact ⟨p, hp, hparent, hlt, Nat.le_succ_of_le hle⟩
  · intro u hu hlt v hv
    have ⟨hcurr, hlimit⟩ := hdone.curr_mem
    by_cases hlimitu : (order ++ order').idxOf u < limit
    · exact hdone.closed u hu hlimitu v hv
    · have hidx : (order ++ order').idxOf u = limit := by omega
      have heq : u = curr := (List.idxOf_inj hu).1 (hidx.trans hlimit.symm)
      subst heq
      refine ⟨hdone.scanned v hv, fun hsource p hp => ?_⟩
      rw [hidx]
      exact (hdone.parent_mem hsource hp).2.2

end Step

section Search

variable {succ : V → List V} {source dest : V} {parent : V → Option V} {order : List V} {limit : ℕ}

/-- What the search knows in the end: the destination is the first vertex whose successors are not
known, or it has not been discovered and there is no such vertex. -/
def Searched (succ : V → List V) (source dest : V) (found : Bool) (parent : V → Option V) : Prop :=
  ∃ order limit, Explored succ source parent order limit ∧
    (found = true → dest ∈ order ∧ order.idxOf dest = limit) ∧
    (found = false → dest ∉ order ∧ order.length ≤ limit)

theorem Explored.start : Explored succ source
    (Function.update (fun _ => none) source (some source)) [source] 0 where
  nodup := List.nodup_singleton source
  seen := fun v => by
    rw [List.mem_singleton, Function.update_apply]
    split_ifs with h <;> simp [h]
  root := Function.update_self ..
  up := fun v hv hne => absurd (List.mem_singleton.1 hv) hne
  mono := fun v w p q hv hw hp => by
    rw [Function.update_of_ne hv] at hp
    cases hp
  closed := fun u _ hlt => absurd hlt (Nat.not_lt_zero _)
  sibling := fun v p hv hp => by
    rw [Function.update_of_ne hv] at hp
    cases hp

/-- The search ends within as many iterations as there are vertices. -/
theorem breadthFirstLoop_spec {nodes : List V} (hall : ∀ v, v ∈ nodes) {fuel : ℕ} {queue : List V}
    (h : Explored succ source parent order limit) (hqueue : order.drop limit = queue)
    (hlimit : limit ≤ order.length) (hdest : dest ∈ order → limit ≤ order.idxOf dest)
    (hfuel : nodes.length < limit + fuel) :
    ∃ found parent', breadthFirstLoop succ dest fuel parent queue = some (found, parent') ∧
      Searched succ source dest found parent' := by
  have hlength : order.length ≤ nodes.length :=
    (h.nodup.subperm fun v _ => hall v).length_le
  induction fuel generalizing parent order limit queue with
  | zero => omega
  | succ fuel ih =>
    cases queue with
    | nil =>
      have hle : order.length ≤ limit := List.drop_eq_nil_iff.1 hqueue
      refine ⟨false, parent, rfl, order, limit, h, fun hfalse => absurd hfalse (by decide), ?_⟩
      intro _
      refine ⟨fun hmem => ?_, hle⟩
      have := hdest hmem
      have := List.idxOf_lt_length_of_mem hmem
      omega
    | cons curr queue =>
      have hhere : order[limit]? = some curr := by
        rw [← Nat.add_zero limit, ← List.getElem?_drop, hqueue]
        rfl
      have ⟨hlt, hget⟩ := List.getElem?_eq_some_iff.1 hhere
      have hidx : order.idxOf curr = limit := by
        rw [← hget]
        exact h.nodup.idxOf_getElem limit hlt
      have hmem : curr ∈ order := by
        rw [← hget]
        exact List.getElem_mem hlt
      unfold breadthFirstLoop
      split_ifs with hcurr
      · rw [hcurr] at hmem hidx
        exact ⟨true, parent, rfl, order, limit, h, fun _ => ⟨hmem, hidx⟩,
          fun hfalse => absurd hfalse (by decide)⟩
      · have ⟨order', hqueue', hnext⟩ := h.step hqueue
        have hrest : order.drop (limit + 1) = queue := by
          rw [← List.drop_drop, hqueue]
          rfl
        apply ih hnext
        · rw [List.drop_append_of_le_length hlt, hrest, hqueue']
        · rw [List.length_append]
          omega
        · intro hin
          by_cases hold : dest ∈ order
          · rw [List.idxOf_append_of_mem hold]
            have hle := hdest hold
            have hne : order.idxOf dest ≠ limit := fun heq =>
              hcurr ((List.idxOf_inj hmem).1 (hidx.trans heq.symm))
            omega
          · rw [List.idxOf_append_of_notMem hold]
            omega
        · omega
        · exact (hnext.nodup.subperm fun v _ => hall v).length_le

theorem breadthFirst_spec {nodes : List V} (hall : ∀ v, v ∈ nodes) (succ : V → List V)
    (source dest : V) :
    ∃ found parent, breadthFirst succ (nodes.length + 1) source dest = some (found, parent) ∧
      Searched succ source dest found parent :=
  breadthFirstLoop_spec hall Explored.start rfl (Nat.zero_le _) (fun _ => Nat.zero_le _) (by omega)

end Search

/-! ## The tree -/

section Tree

variable {succ : V → List V} {source dest u v w : V} {parent : V → Option V} {order : List V}
  {limit : ℕ} {p q : List V}

namespace Explored

theorem source_mem (h : Explored succ source parent order limit) : source ∈ order :=
  h.mem_of_parent h.root

theorem idxOf_source (h : Explored succ source parent order limit) : order.idxOf source = 0 := by
  have hpos : 0 < order.length := List.length_pos_of_mem h.source_mem
  have hfirst : order.idxOf order[0] = 0 := h.nodup.idxOf_getElem 0 hpos
  by_cases heq : order[0] = source
  · rw [← heq, hfirst]
  · have ⟨_, _, _, hlt, _⟩ := h.up order[0] (List.getElem_mem hpos) heq
    omega

theorem mem_succ (h : Explored succ source parent order limit) (hne : v ≠ source)
    (hv : parent v = some u) : v ∈ succ u := by
  have ⟨l, l', hl, _⟩ := h.sibling v u hne hv
  rw [hl]
  exact List.mem_append_right l List.mem_cons_self

theorem exists_treePath (h : Explored succ source parent order limit) (hv : v ∈ order) :
    ∃ p, TreePath parent source p v := by
  induction hn : order.idxOf v using Nat.strong_induction_on generalizing v with
  | _ n ih =>
    by_cases heq : v = source
    · subst heq
      exact ⟨[], .root⟩
    · have ⟨u, hu, hparent, hlt, _⟩ := h.up v hv heq
      have ⟨p, hp⟩ := ih _ (by omega) hu rfl
      exact ⟨p ++ [v], hp.child heq hparent⟩

theorem treePath_mem (h : Explored succ source parent order limit)
    (hp : TreePath parent source p v) : v ∈ order := by
  cases hp with
  | root => exact h.source_mem
  | child _ _ hparent => exact h.mem_of_parent hparent

theorem treePath_walk (h : Explored succ source parent order limit)
    (hp : TreePath parent source p v) : Walk succ source p v := by
  induction hp with
  | root => rfl
  | child _ hne hparent ih => exact ih.concat (h.mem_succ hne hparent)

theorem descends_walk (h : Explored succ source parent order limit)
    (hp : Descends parent source u p v) : Walk succ u p v := by
  induction p generalizing u with
  | nil => exact hp
  | cons x p ih => exact ⟨h.mem_succ hp.1 hp.2.1, ih hp.2.2⟩

theorem descends_idxOf_le (h : Explored succ source parent order limit)
    (hp : Descends parent source u p v) : order.idxOf u ≤ order.idxOf v := by
  induction p generalizing u with
  | nil => rw [hp]
  | cons x p ih =>
    have hlt := (h.parent_mem hp.1 hp.2.1).2.1
    have hle := ih hp.2.2
    omega

/-- A vertex that is discovered later is not closer to the source. -/
theorem length_le (h : Explored succ source parent order limit) (hp : TreePath parent source p v)
    (hq : TreePath parent source q w) (hle : order.idxOf v ≤ order.idxOf w) :
    p.length ≤ q.length := by
  induction hq generalizing p v with
  | root =>
    rw [h.idxOf_source] at hle
    have heq : v = source := by
      apply (List.idxOf_inj (h.treePath_mem hp)).1
      rw [h.idxOf_source]
      omega
    subst heq
    rw [hp.eq_nil]
  | child _ hwne hw ih =>
    cases hp with
    | root => exact Nat.zero_le _
    | child hp hvne hv =>
      have hparents := h.mono _ _ _ _ hvne hwne hv hw hle
      rw [List.length_append, List.length_append]
      exact Nat.add_le_add_right (ih hp hparents) 1

/-- One step along an edge goes at most one level down. -/
theorem length_le_succ (h : Explored succ source parent order limit)
    (hp : TreePath parent source p u) (hq : TreePath parent source q v)
    (hlt : order.idxOf u < limit) (hv : v ∈ succ u) : q.length ≤ p.length + 1 := by
  cases hq with
  | root => exact Nat.zero_le _
  | child hq hne hparent =>
    have ⟨_, hleast⟩ := h.closed u (h.treePath_mem hp) hlt v hv
    rw [List.length_append]
    exact Nat.add_le_add_right (h.length_le hq hp (hleast hne _ hparent)) 1

theorem length_le_walk (h : Explored succ source parent order limit)
    (hdest : order.idxOf dest = limit) {path : List V} (hpath : TreePath parent source path dest)
    (hp : TreePath parent source p u) (hq : Walk succ u q dest) :
    path.length ≤ p.length + q.length := by
  induction q generalizing u p with
  | nil =>
    cases hq
    exact h.length_le hpath hp (Nat.le_refl _)
  | cons v q ih =>
    by_cases hlt : order.idxOf u < limit
    · have ⟨hv, _⟩ := h.closed u (h.treePath_mem hp) hlt v hq.1
      have ⟨p', hp'⟩ := h.exists_treePath hv
      have hstep := h.length_le_succ hp hp' hlt hq.1
      have hrest := ih hp' hq.2
      rw [List.length_cons]
      omega
    · have hle := h.length_le hpath hp (by omega)
      omega

/-- The path of the tree is a shortest one. -/
theorem shortest (h : Explored succ source parent order limit) (hdest : order.idxOf dest = limit)
    (hp : TreePath parent source p dest) (hq : Walk succ source q dest) : p.length ≤ q.length := by
  have := h.length_le_walk hdest hp .root hq
  rwa [List.length_nil, Nat.zero_add] at this

/-- A vertex that is discovered before one of the path down to the destination is farther from the
destination. -/
theorem length_lt (h : Explored succ source parent order limit) (hdest : order.idxOf dest = limit)
    (hv : Descends parent source v p dest) (hu : u ∈ order) (hlt : order.idxOf u < order.idxOf v)
    (hq : Walk succ u q dest) : p.length < q.length := by
  induction p generalizing u v q with
  | nil =>
    cases hv
    cases q with
    | nil =>
      cases hq
      exact absurd hlt (Nat.lt_irrefl _)
    | cons x q => exact Nat.succ_pos _
  | cons v' p ih =>
    have ⟨hne, hparent, hdown⟩ := hv
    have hvle := h.descends_idxOf_le hv
    have ⟨_, hvlt, _⟩ := h.parent_mem hne hparent
    cases q with
    | nil =>
      cases hq
      omega
    | cons x q =>
      have ⟨hx, hleast⟩ := h.closed u hu (by omega) x hq.1
      apply Nat.succ_lt_succ
      by_cases hxlt : order.idxOf x < order.idxOf v'
      · exact ih hdown hx hxlt hq.2
      · have hxne : x ≠ source := fun heq => by
          rw [heq, h.idxOf_source] at hxlt
          omega
        have ⟨y, _, hy, _⟩ := h.up x hx hxne
        have hmono := h.mono v' x v y hne hxne hparent hy (by omega)
        have := hleast hxne y hy
        omega

end Explored

/-- The first of the successors of `u` that are closest to the destination. -/
def NextHop (succ : V → List V) (dest u v : V) : Prop :=
  ∃ l l' n, succ u = l ++ v :: l' ∧ (∃ q, Walk succ v q dest ∧ q.length = n) ∧
    (∀ y ∈ succ u, ∀ q, Walk succ y q dest → n ≤ q.length) ∧
    ∀ y ∈ l, ∀ q, Walk succ y q dest → n < q.length

/-- A path that goes to the next hop at each of its vertices. -/
def Greedy (succ : V → List V) (dest : V) : V → List V → Prop
  | u, [] => u = dest
  | u, v :: p => u ≠ dest ∧ NextHop succ dest u v ∧ Greedy succ dest v p

/-- The path that the search finds depends on nothing but the destination from each of its vertices
on. -/
theorem Explored.greedy (h : Explored succ source parent order limit)
    (hdest : order.idxOf dest = limit) (hu : u ∈ order) (hp : Descends parent source u p dest) :
    Greedy succ dest u p := by
  induction p generalizing u with
  | nil => exact hp
  | cons v p ih =>
    have ⟨hne, hparent, hdown⟩ := hp
    have hvlt := (h.parent_mem hne hparent).2.1
    have hvle := h.descends_idxOf_le hdown
    have ⟨l, l', hsucc, hbefore⟩ := h.sibling v u hne hparent
    refine ⟨fun heq => ?_, ⟨l, l', p.length, hsucc, ⟨p, h.descends_walk hdown, rfl⟩, ?_, ?_⟩,
      ih (h.mem_of_parent hparent) hdown⟩
    · subst heq
      omega
    · intro y hy q hq
      have ⟨pu, hpu⟩ := h.exists_treePath hu
      have ⟨hymem, _⟩ := h.closed u hu (by omega) y hy
      have ⟨py, hpy⟩ := h.exists_treePath hymem
      have hstep := h.length_le_succ hpu hpy (by omega) hy
      have hwalk := h.length_le_walk hdest (hpu.append hp) hpy hq
      rw [List.length_append, List.length_cons] at hwalk
      omega
    · intro y hy q hq
      have ⟨hmem, hylt⟩ := hbefore y hy
      exact h.length_lt hdest hdown hmem hylt hq

omit [DecidableEq V] in
theorem NextHop.mem (h : NextHop succ dest u v) : v ∈ succ u := by
  have ⟨l, l', _, hl, _⟩ := h
  rw [hl]
  exact List.mem_append_right l List.mem_cons_self

omit [DecidableEq V] in
theorem NextHop.unique (hv : NextHop succ dest u v) (hw : NextHop succ dest u w) : v = w := by
  have ⟨l, l', n, hl, ⟨q, hq, hqn⟩, hleast, hfirst⟩ := hv
  have ⟨m, m', k, hm, ⟨r, hr, hrk⟩, hleast', hfirst'⟩ := hw
  have hnk := hleast w hw.mem r hr
  have hkn := hleast' v hv.mem q hq
  rcases List.append_eq_append_iff.1 (hl.symm.trans hm) with ⟨a, hla, hta⟩ | ⟨a, hla, hta⟩
  · cases a with
    | nil => exact (List.cons.inj hta).1
    | cons x a =>
      cases hta
      have := hfirst' v (hla ▸ List.mem_append_right l List.mem_cons_self) q hq
      omega
  · cases a with
    | nil => exact (List.cons.inj hta).1.symm
    | cons x a =>
      cases hta
      have := hfirst w (hla ▸ List.mem_append_right m List.mem_cons_self) r hr
      omega

omit [DecidableEq V] in
theorem Greedy.walk (h : Greedy succ dest u p) : Walk succ u p dest := by
  induction p generalizing u with
  | nil => exact h
  | cons v p ih => exact ⟨h.2.1.mem, ih h.2.2⟩

omit [DecidableEq V] in
theorem Greedy.unique (hp : Greedy succ dest u p) (hq : Greedy succ dest u q) : p = q := by
  induction p generalizing u q with
  | nil =>
    cases q with
    | nil => rfl
    | cons v q => exact absurd hp hq.1
  | cons v p ih =>
    cases q with
    | nil => exact absurd hq hp.1
    | cons w q =>
      have heq := hp.2.1.unique hq.2.1
      subst heq
      rw [ih hp.2.2 hq.2.2]

/-- Where the search ends without the destination, nothing leads there. -/
theorem Explored.not_walk (h : Explored succ source parent order limit)
    (hlimit : order.length ≤ limit) (hdest : dest ∉ order) (hu : u ∈ order) :
    ¬ Walk succ u q dest := by
  induction q generalizing u with
  | nil =>
    intro hq
    cases hq
    exact hdest hu
  | cons v q ih =>
    intro hq
    have hlt := List.idxOf_lt_length_of_mem hu
    exact ih (h.closed u hu (by omega) v hq.1).1 hq.2

theorem TreePath.length_le_idxOf (h : Explored succ source parent order limit)
    (hp : TreePath parent source p v) : p.length ≤ order.idxOf v := by
  induction hp with
  | root => exact Nat.zero_le _
  | child _ hne hparent ih =>
    have hlt := (h.parent_mem hne hparent).2.1
    rw [List.length_append, List.length_singleton]
    omega

/-- What the parents say of the destination once the search has ended. -/
inductive SearchOutcome (succ : V → List V) (source dest : V) (parent : V → Option V)
    (bound : ℕ) : Prop
  | found {p : List V} (path : TreePath parent source p dest) (length : p.length < bound)
      (walk : Walk succ source p dest) (greedy : Greedy succ dest source p)
      (shortest : ∀ q, Walk succ source q dest → p.length ≤ q.length)
  | unreachable (unseen : parent dest = none) (walk : ∀ q, ¬ Walk succ source q dest)

theorem breadthFirst_outcome {nodes : List V} (hall : ∀ v, v ∈ nodes) (succ : V → List V)
    (source dest : V) :
    ∃ found parent, breadthFirst succ (nodes.length + 1) source dest = some (found, parent) ∧
      SearchOutcome succ source dest parent nodes.length := by
  have ⟨found, parent, hsearch, order, limit, h, hfound, hnot⟩ :=
    breadthFirst_spec hall succ source dest
  refine ⟨found, parent, hsearch, ?_⟩
  cases found with
  | true =>
    have ⟨hmem, hidx⟩ := hfound rfl
    have ⟨p, hp⟩ := h.exists_treePath hmem
    have hlt := List.idxOf_lt_length_of_mem hmem
    have hle := (h.nodup.subperm fun v _ => hall v).length_le
    have hbound := TreePath.length_le_idxOf h hp
    exact .found hp (by omega) (h.treePath_walk hp) (h.greedy hidx h.source_mem hp.descends)
      fun q hq => h.shortest hidx hp hq
  | false =>
    have ⟨hmem, hlimit⟩ := hnot rfl
    apply SearchOutcome.unreachable
    · by_contra hseen
      exact hmem ((h.seen dest).1 hseen)
    · exact fun q => h.not_walk hlimit hmem h.source_mem

end Tree

end SeanetSim
