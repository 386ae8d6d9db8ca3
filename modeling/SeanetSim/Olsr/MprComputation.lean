import Mathlib.Data.Finset.Union
import SeanetSim.Lib.SetCover
import SeanetSim.Lib.SortedList
import SeanetSim.Lib.WhileLoop
import SeanetSim.Olsr.OlsrRepositories

/-!
# Multipoint relays

`MprComputation` chooses neighbours through which all strict two-hop neighbours can be reached:
those that always want to, those without whom one of the two-hop neighbours is lost, and then
greedily until no two-hop neighbour is left (`MprState.covers_mprComputation`).
-/

namespace SeanetSim.Olsr

/-- What `MprComputation` reads of the state. -/
structure MprState where
  mainAddress : UInt32
  neighbors : List NeighborTuple
  twoHopNeighbors : List TwoHopNeighborTuple

/-- `CoverTwoHopNeighbors`. -/
def coverTwoHopNeighbors (neighborMainAddr : UInt32) (n2 : List TwoHopNeighborTuple) :
    List TwoHopNeighborTuple :=
  let toRemove := (n2.filter fun twoHopNeigh =>
    twoHopNeigh.neighborMainAddr = neighborMainAddr).map (·.twoHopNeighborAddr)
  n2.filter fun twoHopNeigh => twoHopNeigh.twoHopNeighborAddr ∉ toRemove

/-- What `MprComputation` has come to: `mprSet` and `N2`. -/
structure MprChoice where
  mprSet : Finset UInt32
  n2 : List TwoHopNeighborTuple

namespace MprState

variable (s : MprState)

def findNeighborTuple (mainAddr : UInt32) : Option NeighborTuple :=
  s.neighbors.find? (·.neighborMainAddr = mainAddr)

def degree (tuple : NeighborTuple) : ℕ :=
  (s.twoHopNeighbors.filter fun nb2hopTuple =>
    nb2hopTuple.neighborMainAddr = tuple.neighborMainAddr ∧
      s.findNeighborTuple nb2hopTuple.neighborMainAddr = none).length

/-- `N`. -/
def symNeighbors : List NeighborTuple := s.neighbors.filter (·.status = .sym)

/-- Whether a two-hop neighbour tuple is in `N2`. -/
def inN2 (twoHopNeigh : TwoHopNeighborTuple) : Bool :=
  twoHopNeigh.twoHopNeighborAddr ≠ s.mainAddress ∧
    -- the willingness of the first neighbour with the address counts
    (s.symNeighbors.find? (·.neighborMainAddr = twoHopNeigh.neighborMainAddr)).any
      (·.willingness ≠ willNever) ∧
    ∀ neigh ∈ s.symNeighbors, neigh.neighborMainAddr ≠ twoHopNeigh.twoHopNeighborAddr

def n2 : List TwoHopNeighborTuple := s.twoHopNeighbors.filter s.inN2

/-- A turn of step 1. -/
def alwaysTurn (c : MprChoice) (neighbor : NeighborTuple) : MprChoice :=
  if neighbor.willingness = willAlways then
    ⟨insert neighbor.neighborMainAddr c.mprSet,
      coverTwoHopNeighbors neighbor.neighborMainAddr c.n2⟩
  else c

/-- Step 1. -/
def chooseAlways : MprChoice := s.symNeighbors.foldl alwaysTurn ⟨∅, s.n2⟩

/-- Whether no other neighbour reaches the two-hop neighbour. -/
def onlyOne (n2 : List TwoHopNeighborTuple) (twoHopNeigh : TwoHopNeighborTuple) : Bool :=
  ∀ otherTwoHopNeigh ∈ n2, otherTwoHopNeigh.twoHopNeighborAddr = twoHopNeigh.twoHopNeighborAddr →
    otherTwoHopNeigh.neighborMainAddr = twoHopNeigh.neighborMainAddr

/-- The loop of step 3: `mprSet` and `coveredTwoHopNeighbors`. -/
def chooseOnly (n2 : List TwoHopNeighborTuple) (mprSet : Finset UInt32) :
    Finset UInt32 × Finset UInt32 :=
  n2.foldl (fun r twoHopNeigh =>
    if onlyOne n2 twoHopNeigh then
      (insert twoHopNeigh.neighborMainAddr r.1,
        r.2 ∪ ((n2.filter (·.neighborMainAddr = twoHopNeigh.neighborMainAddr)).map
          (·.twoHopNeighborAddr)).toFinset)
    else r) (mprSet, ∅)

/-- Step 3. -/
def coverOnly (c : MprChoice) : MprChoice :=
  let r := chooseOnly c.n2 c.mprSet
  ⟨r.1, c.n2.filter (·.twoHopNeighborAddr ∉ r.2)⟩

/-- Step 4.1, for one neighbour. -/
def reach (n2 : List TwoHopNeighborTuple) (nbTuple : NeighborTuple) : ℕ :=
  (n2.filter (nbTuple.neighborMainAddr = ·.neighborMainAddr)).length

/-- Step 4.2, for one neighbour: `max` and `max_r`. -/
def better (max : Option (NeighborTuple × ℕ)) (nbTuple : NeighborTuple) (r : ℕ) :
    Option (NeighborTuple × ℕ) :=
  match max with
  | none => some (nbTuple, r)
  | some (nb, maxR) =>
    if nbTuple.willingness > nb.willingness then some (nbTuple, r)
    else if nbTuple.willingness = nb.willingness then
      if r > maxR then some (nbTuple, r)
      else if r = maxR then
        if s.degree nbTuple > s.degree nb then some (nbTuple, r) else max
      else max
    else max

/-- Step 4.2: `max`.  The neighbours are taken by their reachability. -/
def best (n2 : List TwoHopNeighborTuple) : Option NeighborTuple :=
  let rs := sortUnique (fun a b : ℕ => a < b) (s.symNeighbors.map (reach n2))
  (rs.foldl (fun max r =>
    if r = 0 then max
    else (s.symNeighbors.filter (reach n2 · = r)).foldl (s.better · · r) max) none).map (·.1)

/-- A turn of step 4. -/
def chooseBest (c : MprChoice) : MprChoice :=
  match s.best c.n2 with
  | none => c
  | some max =>
    ⟨insert max.neighborMainAddr c.mprSet, coverTwoHopNeighbors max.neighborMainAddr c.n2⟩

/-- The set that `MprComputation` stores, if the loop of step 4 ends within `turns`. -/
def mprComputation (turns : ℕ) : Option (Finset UInt32) :=
  (whileLoop (fun c : MprChoice => !c.n2.isEmpty) (fun c => some (s.chooseBest c)) turns
    (coverOnly s.chooseAlways)).map (·.mprSet)

/-- A member of the MPR set is a symmetric neighbour that is willing. -/
def Willing (a : UInt32) : Prop :=
  ∃ nb ∈ s.neighbors, nb.neighborMainAddr = a ∧ nb.status = .sym ∧ nb.willingness ≠ willNever

/-- A node that is a two-hop neighbour only, and can be reached through someone who is willing. -/
structure StrictTwoHop (x : UInt32) : Prop where
  ne_main : x ≠ s.mainAddress
  not_neighbor : ∀ nb ∈ s.neighbors, nb.status = .sym → nb.neighborMainAddr ≠ x
  reachable : ∃ t ∈ s.twoHopNeighbors, t.twoHopNeighborAddr = x ∧ s.Willing t.neighborMainAddr

/-- What the MPR set is for. -/
structure Covers (mprSet : Finset UInt32) : Prop where
  willing : ∀ a ∈ mprSet, s.Willing a
  always : ∀ nb ∈ s.neighbors, nb.status = .sym → nb.willingness = willAlways →
    nb.neighborMainAddr ∈ mprSet
  covers : ∀ x, s.StrictTwoHop x →
    ∃ t ∈ s.twoHopNeighbors, t.twoHopNeighborAddr = x ∧ t.neighborMainAddr ∈ mprSet

end MprState

/-! ### What is covered -/

section Choice

variable {s : MprState} {c : MprChoice} {n2 : List TwoHopNeighborTuple} {t : TwoHopNeighborTuple}
  {a x : UInt32} {nb : NeighborTuple}

theorem mem_coverTwoHopNeighbors : t ∈ coverTwoHopNeighbors a n2 ↔ t ∈ n2 ∧
    ∀ t' ∈ n2, t'.neighborMainAddr = a → t'.twoHopNeighborAddr ≠ t.twoHopNeighborAddr := by
  simp [coverTwoHopNeighbors]

namespace MprState

theorem mem_symNeighbors : nb ∈ s.symNeighbors ↔ nb ∈ s.neighbors ∧ nb.status = .sym := by
  simp [symNeighbors]

theorem willing_of_mem (hnb : nb ∈ s.symNeighbors) (hwill : nb.willingness ≠ willNever) :
    s.Willing nb.neighborMainAddr :=
  ⟨nb, (mem_symNeighbors.1 hnb).1, rfl, (mem_symNeighbors.1 hnb).2, hwill⟩

theorem inN2_iff : s.inN2 t ↔ t.twoHopNeighborAddr ≠ s.mainAddress ∧
    (∃ nb, s.symNeighbors.find? (·.neighborMainAddr = t.neighborMainAddr) = some nb ∧
      nb.willingness ≠ willNever) ∧
    ∀ nb ∈ s.symNeighbors, nb.neighborMainAddr ≠ t.twoHopNeighborAddr := by
  simp [inN2, Option.any_eq_true]

/-- Each tuple of `N2` is through a neighbour that is willing. -/
theorem willing_of_mem_n2 (ht : t ∈ s.n2) : s.Willing t.neighborMainAddr := by
  obtain ⟨-, ⟨nb, hfind, hwill⟩, -⟩ := inN2_iff.1 (List.mem_filter.1 ht).2
  have hmain := List.find?_some hfind
  have hw := willing_of_mem (List.mem_of_find?_eq_some hfind) hwill
  rwa [of_decide_eq_true hmain] at hw

theorem mem_n2 (hnodup : (s.neighbors.map (·.neighborMainAddr)).Nodup)
    (ht : t ∈ s.twoHopNeighbors) (hmain : t.twoHopNeighborAddr ≠ s.mainAddress)
    (hnot : ∀ nb ∈ s.neighbors, nb.status = .sym → nb.neighborMainAddr ≠ t.twoHopNeighborAddr)
    (hwilling : s.Willing t.neighborMainAddr) : t ∈ s.n2 := by
  obtain ⟨nb, hnb, heq, hsym, hwill⟩ := hwilling
  have hmem := mem_symNeighbors.2 ⟨hnb, hsym⟩
  have hsome : (s.symNeighbors.find? (·.neighborMainAddr = t.neighborMainAddr)).isSome :=
    List.find?_isSome.2 ⟨nb, hmem, decide_eq_true heq⟩
  obtain ⟨nb', hfind⟩ := Option.isSome_iff_exists.1 hsome
  have heq' := List.find?_some hfind
  -- there is only one neighbour with the address
  obtain rfl : nb' = nb := List.inj_on_of_nodup_map hnodup
    (mem_symNeighbors.1 (List.mem_of_find?_eq_some hfind)).1 hnb
    ((of_decide_eq_true heq').trans heq.symm)
  refine List.mem_filter.2 ⟨ht, inN2_iff.2 ⟨hmain, ⟨nb', hfind, hwill⟩, fun nb hnb => ?_⟩⟩
  exact hnot nb (mem_symNeighbors.1 hnb).1 (mem_symNeighbors.1 hnb).2

/-- A choice that leaves nothing out. -/
structure Chooses (s : MprState) (c : MprChoice) : Prop where
  covering : Covering (·.neighborMainAddr) (·.twoHopNeighborAddr) s.n2 c.n2 {a | a ∈ c.mprSet}
  willing : ∀ a ∈ c.mprSet, s.Willing a

theorem Chooses.cover (h : Chooses s c) (ha : s.Willing a) :
    Chooses s ⟨insert a c.mprSet, coverTwoHopNeighbors a c.n2⟩ where
  covering := by
    refine h.covering.choose (fun b hb => Finset.mem_insert_of_mem hb)
      List.filter_sublist fun t ht hnot => ?_
    by_contra hnone
    refine hnot (mem_coverTwoHopNeighbors.2 ⟨ht, fun t' ht' hvia hgoal => hnone ?_⟩)
    exact ⟨t', ht', hgoal, hvia ▸ Finset.mem_insert_self a c.mprSet⟩
  willing := by
    intro b hb
    rcases Finset.mem_insert.1 hb with rfl | hb
    · exact ha
    · exact h.willing b hb

/-! ### Step 1 -/

theorem willAlways_ne_willNever : willAlways ≠ willNever := by decide

theorem chooses_always {l : List NeighborTuple} (hl : ∀ nb ∈ l, nb ∈ s.symNeighbors)
    (h : Chooses s c) : Chooses s (l.foldl alwaysTurn c) ∧
      c.mprSet ⊆ (l.foldl alwaysTurn c).mprSet ∧
      ∀ nb ∈ l, nb.willingness = willAlways →
        nb.neighborMainAddr ∈ (l.foldl alwaysTurn c).mprSet := by
  induction l generalizing c with
  | nil => exact ⟨h, Finset.Subset.refl _, List.forall_mem_nil _⟩
  | cons nb l ih =>
    obtain ⟨hnb, hl⟩ := List.forall_mem_cons.1 hl
    rw [List.foldl_cons, alwaysTurn]
    split
    · rename_i halways
      have hwilling := willing_of_mem hnb (halways.trans_ne willAlways_ne_willNever)
      obtain ⟨hchooses, hsub, hall⟩ := ih hl (h.cover hwilling)
      have hself := hsub (Finset.mem_insert_self nb.neighborMainAddr c.mprSet)
      exact ⟨hchooses, (Finset.subset_insert ..).trans hsub,
        List.forall_mem_cons.2 ⟨fun _ => hself, hall⟩⟩
    · rename_i hnot
      obtain ⟨hchooses, hsub, hall⟩ := ih hl h
      exact ⟨hchooses, hsub, List.forall_mem_cons.2 ⟨fun halways => absurd halways hnot, hall⟩⟩

theorem chooses_chooseAlways (s : MprState) : Chooses s s.chooseAlways ∧
    ∀ nb ∈ s.symNeighbors, nb.willingness = willAlways →
      nb.neighborMainAddr ∈ s.chooseAlways.mprSet := by
  have hstart : Chooses s ⟨∅, s.n2⟩ :=
    ⟨Covering.start, fun a ha => absurd ha (Finset.notMem_empty a)⟩
  have hall := chooses_always (fun nb hnb => hnb) hstart
  exact ⟨hall.1, hall.2.2⟩

/-! ### Step 3 -/

theorem chooseOnly_spec (n2 : List TwoHopNeighborTuple) (mprSet : Finset UInt32) :
    mprSet ⊆ (chooseOnly n2 mprSet).1 ∧
    (∀ a ∈ (chooseOnly n2 mprSet).1, a ∈ mprSet ∨ ∃ t ∈ n2, t.neighborMainAddr = a) ∧
    ∀ x ∈ (chooseOnly n2 mprSet).2, ∃ t ∈ n2, t.twoHopNeighborAddr = x ∧
      t.neighborMainAddr ∈ (chooseOnly n2 mprSet).1 := by
  apply List.foldlRecOn (motive := fun r : Finset UInt32 × Finset UInt32 => mprSet ⊆ r.1 ∧
    (∀ a ∈ r.1, a ∈ mprSet ∨ ∃ t ∈ n2, t.neighborMainAddr = a) ∧
    ∀ x ∈ r.2, ∃ t ∈ n2, t.twoHopNeighborAddr = x ∧ t.neighborMainAddr ∈ r.1) n2 _
    ⟨Finset.Subset.refl _, fun a ha => .inl ha, fun x hx => absurd hx (Finset.notMem_empty x)⟩
  intro r ⟨hsub, hfrom, hcovered⟩ t ht
  split
  · refine ⟨hsub.trans (Finset.subset_insert ..), fun a ha => ?_, fun x hx => ?_⟩
    · rcases Finset.mem_insert.1 ha with rfl | ha
      · exact .inr ⟨t, ht, rfl⟩
      · exact hfrom a ha
    · rcases Finset.mem_union.1 hx with hx | hx
      · obtain ⟨u, hu, hgoal, hvia⟩ := hcovered x hx
        exact ⟨u, hu, hgoal, Finset.mem_insert_of_mem hvia⟩
      · obtain ⟨u, hu, rfl⟩ := List.mem_map.1 (List.mem_toFinset.1 hx)
        have ⟨hmem, hvia⟩ := List.mem_filter.1 hu
        refine ⟨u, hmem, rfl, ?_⟩
        rw [of_decide_eq_true hvia]
        exact Finset.mem_insert_self ..
  · exact ⟨hsub, hfrom, hcovered⟩

theorem Chooses.coverOnly (h : Chooses s c) :
    Chooses s (coverOnly c) ∧ c.mprSet ⊆ (MprState.coverOnly c).mprSet := by
  obtain ⟨hsub, hfrom, hcovered⟩ := chooseOnly_spec c.n2 c.mprSet
  refine ⟨⟨h.covering.choose (fun a ha => hsub ha) List.filter_sublist
    fun t ht hnot => ?_, fun a ha => ?_⟩, hsub⟩
  · by_contra hnone
    refine hnot (List.mem_filter.2 ⟨ht, decide_eq_true fun hmem => hnone ?_⟩)
    exact hcovered _ hmem
  · rcases hfrom a ha with ha | ⟨t, ht, rfl⟩
    · exact h.willing a ha
    · exact willing_of_mem_n2 (h.covering.left_sublist.subset ht)

/-! ### Step 4 -/

theorem isSome_foldl {β γ : Type*} {op : Option β → γ → Option β} {l : List γ}
    (hkeep : ∀ b a, b.isSome → (op b a).isSome) (hnew : ∃ a ∈ l, ∀ b, (op b a).isSome)
    (b : Option β) : (l.foldl op b).isSome := by
  have hfold {l : List γ} {b : Option β} (hb : b.isSome) : (l.foldl op b).isSome :=
    List.foldlRecOn (motive := (·.isSome)) l op hb fun b hb a _ => hkeep b a hb
  obtain ⟨a, ha, hop⟩ := hnew
  obtain ⟨l₁, l₂, rfl⟩ := List.append_of_mem ha
  rw [List.foldl_append, List.foldl_cons]
  exact hfold (hop _)

theorem isSome_better (max : Option (NeighborTuple × ℕ)) (nb : NeighborTuple) (r : ℕ) :
    (s.better max nb r).isSome := by
  unfold better
  split
  · rfl
  · split_ifs <;> rfl

theorem better_cases (max : Option (NeighborTuple × ℕ)) (nb : NeighborTuple) (r : ℕ) :
    s.better max nb r = some (nb, r) ∨ s.better max nb r = max := by
  unfold better
  split
  · exact .inl rfl
  · split_ifs <;> simp

/-- Where some neighbour reaches something, one that does is chosen. -/
theorem best_spec (hnb : nb ∈ s.symNeighbors) (hreach : reach n2 nb ≠ 0) :
    ∃ max, s.best n2 = some max ∧ max ∈ s.symNeighbors ∧ reach n2 max ≠ 0 := by
  let op (max : Option (NeighborTuple × ℕ)) (r : ℕ) : Option (NeighborTuple × ℕ) :=
    if r = 0 then max
    else (s.symNeighbors.filter (reach n2 · = r)).foldl (s.better · · r) max
  let rs := sortUnique (fun a b : ℕ => a < b) (s.symNeighbors.map (reach n2))
  have hsome : (rs.foldl op none).isSome := by
    refine isSome_foldl (fun max r hmax => ?_) ⟨reach n2 nb, ?_, fun max => ?_⟩ none
    · unfold op
      split
      · exact hmax
      · exact List.foldlRecOn (motive := (·.isSome)) _ _ hmax fun b _ nb _ => isSome_better b nb r
    · apply (mem_sortUnique (by simp) Function.injective_id).2
      exact List.mem_map_of_mem hnb
    · unfold op
      rw [if_neg hreach]
      refine isSome_foldl (fun b nb _ => isSome_better b nb _) ⟨nb, ?_, fun b => ?_⟩ max
      · exact List.mem_filter.2 ⟨hnb, decide_eq_true rfl⟩
      · exact isSome_better b nb _
  have hmem : ∀ p ∈ rs.foldl op none, p.1 ∈ s.symNeighbors ∧ reach n2 p.1 ≠ 0 := by
    refine List.foldlRecOn (motive := fun max : Option (NeighborTuple × ℕ) =>
      ∀ p ∈ max, p.1 ∈ s.symNeighbors ∧ reach n2 p.1 ≠ 0) rs op (by simp) fun max hmax r _ => ?_
    unfold op
    split
    · exact hmax
    · rename_i hr
      refine List.foldlRecOn (motive := fun max : Option (NeighborTuple × ℕ) =>
        ∀ p ∈ max, p.1 ∈ s.symNeighbors ∧ reach n2 p.1 ≠ 0) _ _ hmax fun b hb nb hnb p hp => ?_
      have ⟨hsym, heq⟩ := List.mem_filter.1 hnb
      rcases better_cases (s := s) b nb r with hnew | hold
      · rw [hnew] at hp
        cases hp
        exact ⟨hsym, (of_decide_eq_true heq).trans_ne hr⟩
      · rw [hold] at hp
        exact hb p hp
  obtain ⟨p, hp⟩ := Option.isSome_iff_exists.1 hsome
  exact ⟨p.1, congrArg (Option.map _) hp, hmem p hp⟩

theorem reach_ne_zero : reach n2 nb ≠ 0 ↔ ∃ t ∈ n2, t.neighborMainAddr = nb.neighborMainAddr := by
  unfold reach
  rw [Ne, List.length_eq_zero_iff, List.filter_eq_nil_iff]
  simp [eq_comm]

theorem chooses_chooseBest (h : Chooses s c) (hne : c.n2 ≠ []) :
    Chooses s (s.chooseBest c) ∧ c.mprSet ⊆ (s.chooseBest c).mprSet ∧
      (s.chooseBest c).n2.length < c.n2.length := by
  obtain ⟨t, ht⟩ := List.exists_mem_of_ne_nil _ hne
  obtain ⟨nb, hnb, hmain, hsym, -⟩ := willing_of_mem_n2 (h.covering.left_sublist.subset ht)
  obtain ⟨max, hbest, hmax, hreach⟩ := best_spec (mem_symNeighbors.2 ⟨hnb, hsym⟩)
    (reach_ne_zero.2 ⟨t, ht, hmain.symm⟩)
  obtain ⟨u, hu, hvia⟩ := reach_ne_zero.1 hreach
  have hwilling := willing_of_mem_n2 (h.covering.left_sublist.subset hu)
  rw [hvia] at hwilling
  rw [chooseBest, hbest]
  refine ⟨h.cover hwilling, Finset.subset_insert .., ?_⟩
  refine List.length_filter_lt_length_iff_exists.2 ⟨u, hu, ?_⟩
  have hremoved : ∃ t ∈ c.n2, t.neighborMainAddr = max.neighborMainAddr ∧
      t.twoHopNeighborAddr = u.twoHopNeighborAddr := ⟨u, hu, hvia, rfl⟩
  simpa using hremoved

/-! ### The MPR set -/

/-- `MprComputation` ends, with a set that covers the two-hop neighbours. -/
theorem covers_mprComputation {turns : ℕ} (hturns : s.twoHopNeighbors.length ≤ turns)
    (hnodup : (s.neighbors.map (·.neighborMainAddr)).Nodup) :
    ∃ mprSet, s.mprComputation turns = some mprSet ∧ s.Covers mprSet := by
  obtain ⟨halways, hall⟩ := chooses_chooseAlways s
  obtain ⟨hstart, hsub⟩ := halways.coverOnly
  have hlength : (coverOnly s.chooseAlways).n2.length ≤ turns :=
    (hstart.covering.left_sublist.trans List.filter_sublist).length_le.trans hturns
  have hturn (c : MprChoice) (hI : Chooses s c ∧ (coverOnly s.chooseAlways).mprSet ⊆ c.mprSet)
      (hne : (!c.n2.isEmpty) = true) : ∃ c', some (s.chooseBest c) = some c' ∧
        (Chooses s c' ∧ (coverOnly s.chooseAlways).mprSet ⊆ c'.mprSet) ∧
        c'.n2.length < c.n2.length := by
    obtain ⟨hnext, hgrow, hlt⟩ := chooses_chooseBest hI.1 (by simpa using hne)
    exact ⟨_, rfl, ⟨hnext, hI.2.trans hgrow⟩, hlt⟩
  obtain ⟨c, hc, ⟨hchooses, hmpr⟩, hempty⟩ := whileLoop_of_measure
    (fun c => Chooses s c ∧ (coverOnly s.chooseAlways).mprSet ⊆ c.mprSet) (fun c => c.n2.length)
    hturn ⟨hstart, Finset.Subset.refl _⟩ hlength
  refine ⟨c.mprSet, congrArg (Option.map _) hc, hchooses.willing, fun nb hnb hsym hwill => ?_,
    fun x hx => ?_⟩
  · exact hmpr (hsub (hall nb (mem_symNeighbors.2 ⟨hnb, hsym⟩) hwill))
  · obtain ⟨t, ht, rfl, hwilling⟩ := hx.reachable
    have hn2 := mem_n2 hnodup ht hx.ne_main hx.not_neighbor hwilling
    have hnone : c.n2 = [] := by simpa using hempty
    have hcovering := hchooses.covering
    rw [hnone] at hcovering
    obtain ⟨u, hu, hgoal, hvia⟩ := hcovering.complete hn2
    exact ⟨u, List.mem_of_mem_filter hu, hgoal, hvia⟩

/-- Two neighbours reach a node, and one of them is chosen for it. -/
theorem covers_mprComputation_two : ∃ mprSet,
    MprState.mprComputation ⟨0, [⟨1, .sym, 3⟩, ⟨2, .sym, 3⟩], [⟨1, 8⟩, ⟨2, 8⟩, ⟨2, 9⟩]⟩ 3 =
      some mprSet ∧
    MprState.Covers ⟨0, [⟨1, .sym, 3⟩, ⟨2, .sym, 3⟩], [⟨1, 8⟩, ⟨2, 8⟩, ⟨2, 9⟩]⟩ mprSet :=
  covers_mprComputation (by decide) (by decide)

end MprState

end Choice

end SeanetSim.Olsr
