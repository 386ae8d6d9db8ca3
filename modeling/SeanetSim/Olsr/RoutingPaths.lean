import SeanetSim.Lib.LayeredSearch
import SeanetSim.Olsr.RoutingTable

/-!
# The lengths of OLSR routes

The rounds over the topology set are a search by layers, from the two-hop neighbours on.  Its paths
do not go on from the symmetric neighbours: these are at the distance one, and no round is for them.
-/

namespace SeanetSim.Olsr.OlsrNode

variable {s : OlsrNode} {table table' : RoutingTable} {a h : UInt32} {entry : RoutingTableEntry}

/-- The distances in the table. -/
def dist (table : RoutingTable) (a : UInt32) : Option ℕ := (table a).map (·.distance.toNat)

/-- The topology set as edges. -/
def edges (s : OlsrNode) : List (UInt32 × UInt32) :=
  s.topologySet.map fun tuple => (tuple.lastAddr, tuple.destAddr)

theorem dist_eq_none_iff : dist table a = none ↔ table a = none := Option.map_eq_none_iff

theorem dist_eq_some_iff {d : ℕ} :
    dist table a = some d ↔ ∃ entry, table a = some entry ∧ entry.distance.toNat = d :=
  Option.map_eq_some_iff

theorem dist_update (table : RoutingTable) (dest : UInt32) (entry : RoutingTableEntry) :
    dist (Function.update table dest (some entry)) =
      Function.update (dist table) dest (some entry.distance.toNat) := by
  funext a
  by_cases heq : a = dest
  · subst heq
    rw [dist, Function.update_self, Function.update_self]
    rfl
  · rw [dist, Function.update_of_ne heq, Function.update_of_ne heq, dist]

/-! ## The rounds -/

theorem topologyTurn_spec {c : RoutingTable × Bool} (hn : s.NextHops c.1)
    (hlt : h.toNat + 1 < 2 ^ 32) (tuple : TopologyTuple) :
    ∃ c', topologyTurn h c tuple = some c' ∧ s.NextHops c'.1 ∧
      dist c'.1 = reach h.toNat (dist c.1) (tuple.lastAddr, tuple.destAddr) ∧
        (c' = c ∨ c'.2 = true ∧ c.1 tuple.destAddr = none ∧ c'.1 tuple.destAddr ≠ none) := by
  have hnext : (h + 1).toNat = h.toNat + 1 := by
    rw [UInt32.toNat_add, UInt32.toNat_one, Nat.mod_eq_of_lt hlt]
  have hpos : 0 < h + 1 := by
    rw [UInt32.lt_iff_toNat_lt, hnext]
    exact Nat.succ_pos _
  have hsame (hno : ¬ (c.1 tuple.destAddr = none ∧
      ∃ entry, c.1 tuple.lastAddr = some entry ∧ entry.distance = h)) :
      dist c.1 = reach h.toNat (dist c.1) (tuple.lastAddr, tuple.destAddr) := by
    refine (if_neg ?_).symm
    rintro ⟨hdest, hlast⟩
    obtain ⟨entry, hentry, hdist⟩ := dist_eq_some_iff.1 hlast
    exact hno ⟨dist_eq_none_iff.1 hdest, entry, hentry, UInt32.toNat_inj.1 hdist⟩
  unfold topologyTurn
  split
  · rename_i entry hdest hlast
    split
    · rename_i hdistance
      refine ⟨(Function.update c.1 tuple.destAddr
        (some ⟨tuple.destAddr, entry.nextAddr, entry.interface, h + 1⟩), true),
        by rw [addEntry, if_pos hpos]; rfl, hn.update ⟨?_, hpos⟩ _, ?_,
        .inr ⟨rfl, hdest, update_ne_none.2 (.inr rfl)⟩⟩
      · exact (hn _ entry hlast).via
      · have hreach : dist c.1 tuple.destAddr = none ∧
            dist c.1 tuple.lastAddr = some h.toNat :=
          ⟨dist_eq_none_iff.2 hdest, dist_eq_some_iff.2 ⟨entry, hlast, congrArg _ hdistance⟩⟩
        rw [dist_update, reach, if_pos hreach, hnext]
    · rename_i hdistance
      refine ⟨c, rfl, hn, hsame fun hand => ?_, .inl rfl⟩
      obtain ⟨-, entry', hentry', heq⟩ := hand
      rw [hlast] at hentry'
      cases hentry'
      exact hdistance heq
  · rename_i hno
    refine ⟨c, rfl, hn, hsame fun hand => ?_, .inl rfl⟩
    obtain ⟨hdest, entry, hlast, -⟩ := hand
    exact hno entry hdest hlast

/-- What a round has come to. -/
structure RoundSteps (s : OlsrNode) (h : UInt32) (table : RoutingTable)
    (l : List TopologyTuple) (c : RoutingTable × Bool) : Prop where
  nextHops : s.NextHops c.1
  dist : dist c.1 =
    layer (l.map fun tuple => (tuple.lastAddr, tuple.destAddr)) h.toNat (dist table)
  same : c.2 = false → c.1 = table
  ne : c.2 = true → OlsrNode.dist c.1 ≠ OlsrNode.dist table

theorem roundSteps (hn : s.NextHops table) (hlt : h.toNat + 1 < 2 ^ 32) :
    ∃ c, s.topologySet.foldlM (topologyTurn h) (table, false) = some c ∧
      RoundSteps s h table s.topologySet c := by
  refine foldlM_of_rounds (P := RoundSteps s h table)
    ⟨hn, rfl, fun _ => rfl, fun hfalse => absurd hfalse Bool.false_ne_true⟩
    fun l tuple hmem c hc => ?_
  obtain ⟨c', hturn, hn', hdist, hadded⟩ := topologyTurn_spec hc.nextHops hlt tuple
  refine ⟨c', hturn, hn', ?_, fun hfalse => ?_, fun htrue => ?_⟩
  · rw [hdist, hc.dist, List.map_append, layer, layer, List.foldl_append]
    rfl
  · rcases hadded with rfl | ⟨htrue, -⟩
    · exact hc.same hfalse
    · exact absurd (htrue.symm.trans hfalse) (by decide)
  · rcases hadded with rfl | ⟨-, hdest, hdest'⟩
    · exact hc.ne htrue
    · intro heq
      obtain ⟨d, hd⟩ := Option.ne_none_iff_exists'.1 (mt dist_eq_none_iff.1 hdest')
      rw [heq] at hd
      have hsome : layer (l.map fun tuple => (tuple.lastAddr, tuple.destAddr)) h.toNat
          (OlsrNode.dist table) _ = _ := layer_of_some hd
      rw [← hc.dist, dist_eq_none_iff.2 hdest] at hsome
      exact absurd hsome.symm (Option.some_ne_none d)

/-- Where the rounds are that have started with a table of neighbours and two-hop neighbours. -/
structure Rounds (s : OlsrNode) (table : RoutingTable) (c : TopologyRounds) : Prop where
  nextHops : s.NextHops c.table
  layered : c.added = true → 2 ≤ c.h.toNat ∧
    Layered s.edges 2 (dist table) c.h.toNat (dist c.table) ∧
      c.h.toNat + missing s.edges (dist c.table) ≤ s.topologySet.length + 2
  closed : c.added = false → ∃ k, 2 ≤ k ∧ Layered s.edges 2 (dist table) k (dist c.table) ∧
    layer s.edges k (dist c.table) = dist c.table

theorem missing_le (s : OlsrNode) (d : UInt32 → Option ℕ) :
    missing s.edges d ≤ s.topologySet.length := by
  have hle := List.length_filter_le (fun e : UInt32 × UInt32 => d e.2 = none) s.edges
  rwa [edges, List.length_map] at hle

theorem rounds_topologyRound (hlt : s.topologySet.length + 3 < 2 ^ 32) {c : TopologyRounds}
    (hc : Rounds s table c) (hadded : c.added = true) :
    ∃ c', s.topologyRound c = some c' ∧ Rounds s table c' ∧
      missing s.edges (dist c'.table) + (if c'.added then 1 else 0) <
        missing s.edges (dist c.table) + if c.added then 1 else 0 := by
  obtain ⟨hh, hlayered, hmissing⟩ := hc.layered hadded
  obtain ⟨⟨table', added⟩, hfold, hsteps⟩ := roundSteps hc.nextHops (h := c.h) (by omega)
  have hdist : dist table' = layer s.edges c.h.toNat (dist c.table) := hsteps.dist
  have hnext : (c.h + 1).toNat = c.h.toNat + 1 := by
    rw [UInt32.toNat_add, UInt32.toNat_one, Nat.mod_eq_of_lt (by omega)]
  refine ⟨⟨c.h + 1, table', added⟩, by rw [topologyRound, hfold]; rfl, ⟨hsteps.nextHops,
    fun htrue => ?_, fun hfalse => ?_⟩, ?_⟩
  · have hlt := missing_layer_lt (hdist ▸ hsteps.ne htrue)
    dsimp only
    rw [hnext, hdist]
    exact ⟨by omega, hlayered.layer hh, by omega⟩
  · have hsame : table' = c.table := hsteps.same hfalse
    dsimp only
    rw [hsame] at hdist ⊢
    exact ⟨c.h.toNat, hh, hlayered, hdist.symm⟩
  · cases added with
    | true =>
      have hlt := missing_layer_lt (hdist ▸ hsteps.ne rfl)
      rw [if_pos hadded, if_pos rfl]
      dsimp only
      rw [hdist]
      exact Nat.add_lt_add_right hlt 1
    | false =>
      have hsame : table' = c.table := hsteps.same rfl
      rw [if_pos hadded, if_neg Bool.false_ne_true]
      dsimp only
      rw [hsame]
      exact Nat.lt_succ_self _

/-- Step 3.1. -/
theorem rounds_whileLoop (hlt : s.topologySet.length + 3 < 2 ^ 32) (hn : s.NextHops table)
    (hle : ∀ a d, dist table a = some d → d ≤ 2) {turns : ℕ}
    (hturns : s.topologySet.length < turns) :
    ∃ c, whileLoop TopologyRounds.added s.topologyRound turns ⟨2, table, true⟩ = some c ∧
      Rounds s table c ∧ c.added = false := by
  have hmissing := missing_le s (dist table)
  have hinit : Rounds s table ⟨2, table, true⟩ := by
    refine ⟨hn, fun _ => ⟨Nat.le_refl 2, .init hle, ?_⟩, fun hfalse => ?_⟩
    · change 2 + missing s.edges (dist table) ≤ _
      omega
    · exact absurd hfalse.symm Bool.false_ne_true
  apply whileLoop_of_measure (Rounds s table)
    (fun c => missing s.edges (dist c.table) + if c.added then 1 else 0)
    (fun c hc hadded => rounds_topologyRound hlt hc hadded) hinit
  change missing s.edges (dist table) + 1 ≤ turns
  omega

/-! ## The other addresses -/

/-- The address is not associated to another one. -/
def IsMain (s : OlsrNode) (a : UInt32) : Prop :=
  ∀ tuple ∈ s.ifaceAssocSet, tuple.ifaceAddr = a → tuple.mainAddr = a

instance : DecidablePred s.IsMain := fun _ => by
  unfold IsMain
  infer_instance

/-- What the interface association tuples have come to. -/
structure AliasRounds (s : OlsrNode) (table table' : RoutingTable) : Prop where
  nextHops : s.NextHops table'
  keep : ∀ a entry, table a = some entry → table' a = some entry
  main : ∀ a, s.IsMain a → table' a = table a

/-- Step 4. -/
theorem aliasRounds (hn : s.NextHops table) :
    ∃ table', s.ifaceAssocSet.foldlM aliasTurn table = some table' ∧
      AliasRounds s table table' := by
  refine foldlM_of_rounds (P := fun _ => AliasRounds s table)
    ⟨hn, fun _ _ h => h, fun _ _ => rfl⟩ fun _ tuple hmem table' ht => ?_
  unfold aliasTurn
  split
  · rename_i entry hmain hiface
    have hold := ht.nextHops _ entry hmain
    have hrouted : s.Routed ⟨tuple.ifaceAddr, entry.nextAddr, entry.interface, entry.distance⟩ :=
      ⟨hold.via, hold.pos⟩
    refine ⟨_, if_pos hold.pos, ht.nextHops.update hrouted _, fun a e hae => ?_, fun a ha => ?_⟩
    · have hold := ht.keep a e hae
      have hne : a ≠ tuple.ifaceAddr := by
        rintro rfl
        rw [hiface] at hold
        exact absurd hold.symm (Option.some_ne_none e)
      rw [Function.update_of_ne hne, hold]
    · have hne : a ≠ tuple.ifaceAddr := by
        rintro rfl
        rw [ha tuple hmem rfl, hiface] at hmain
        exact absurd hmain.symm (Option.some_ne_none entry)
      rw [Function.update_of_ne hne, ht.main a ha]
  · exact ⟨table', rfl, ht⟩

/-! ## The table -/

theorem reached_iff {tuple : TwoHopNeighborTuple} : s.Reached tuple ↔
    ∃ nbTuple ∈ s.neighbors, nbTuple.status = .sym ∧ nbTuple.willingness ≠ willNever ∧
      nbTuple.neighborMainAddr = tuple.neighborMainAddr ∧
        ∃ linkTuple ∈ s.links, s.Links nbTuple linkTuple := by
  constructor
  · rintro ⟨nbTuple, linkTuple, ⟨hnb, hsym, hlink, hlinks⟩, hwill, haddr⟩
    exact ⟨nbTuple, hnb, hsym, hwill, haddr, linkTuple, hlink, hlinks⟩
  · rintro ⟨nbTuple, hnb, hsym, hwill, haddr, linkTuple, hlink, hlinks⟩
    exact ⟨nbTuple, linkTuple, ⟨hnb, hsym, hlink, hlinks⟩, hwill, haddr⟩

instance : DecidablePred s.Reached := fun _ => decidable_of_iff' _ reached_iff

/-- A topology tuple leads from `a` to `dest`. -/
def Topology (s : OlsrNode) (a dest : UInt32) : Prop :=
  ∃ tuple ∈ s.topologySet, tuple.lastAddr = a ∧ tuple.destAddr = dest

/-- A two-hop tuple of a willing symmetric neighbour leads to the address. -/
def TwoHop (s : OlsrNode) (a : UInt32) : Prop :=
  ∃ tuple ∈ s.twoHopNeighbors, tuple.twoHopNeighborAddr = a ∧ s.Reached tuple

instance (a dest : UInt32) : Decidable (s.Topology a dest) := by
  unfold Topology
  infer_instance

instance : DecidablePred s.TwoHop := fun _ => by
  unfold TwoHop
  infer_instance

/-- It is neither the main address of a symmetric neighbour nor that of the node. -/
def TwoHopBeyond (s : OlsrNode) (a : UInt32) : Prop :=
  ∃ tuple ∈ s.twoHopNeighbors, tuple.twoHopNeighborAddr = a ∧ s.Beyond tuple ∧ s.Reached tuple

/-- The lengths of the paths over a two-hop tuple and topology tuples. -/
abbrev Path (s : OlsrNode) : UInt32 → ℕ → Prop := LayerPath s.TwoHop s.Topology 2

/-- The lengths of those that do not come back to a symmetric neighbour before the end. -/
abbrev BeyondPath (s : OlsrNode) : UInt32 → ℕ → Prop :=
  LayerPath s.TwoHopBeyond (fun a dest => s.Topology a dest ∧ (s.Near a → s.TwoHopBeyond a)) 2

/-- The addresses of symmetric neighbours are at the distance one. -/
def Nearest (s : OlsrNode) (listed : UInt32 → Prop) (table : RoutingTable) : Prop :=
  ∀ a, s.Near a → ¬ listed a → ∃ entry, table a = some entry ∧ entry.distance = 1

/-- The other main addresses have the lengths of shortest paths. -/
def Shortest (s : OlsrNode) (path : UInt32 → ℕ → Prop) (table : RoutingTable) : Prop :=
  ∀ a entry, table a = some entry → ¬ s.Near a → s.IsMain a →
    IsLeast {d | path a d} entry.distance.toNat

variable {l : List TwoHopNeighborTuple}

theorem TwoHopRounds.dist_eq (h : TwoHopRounds s l table) {d : ℕ} (hd : dist table a = some d) :
    d = 1 ∧ s.Near a ∨ d = 2 := by
  obtain ⟨e, hae, rfl⟩ := dist_eq_some_iff.1 hd
  rcases h.distance a e hae with ⟨hone, hnear⟩ | ⟨htwo, -⟩
  · exact .inl ⟨congrArg UInt32.toNat hone, hnear⟩
  · exact .inr (congrArg UInt32.toNat htwo)

theorem TwoHopRounds.dist_eq_two (h : TwoHopRounds s s.twoHopNeighbors table)
    (hsym : s.SymTwoHops) : dist table a = some 2 ↔ s.TwoHopBeyond a := by
  rw [TwoHopBeyond, ← h.beyond hsym, dist_eq_some_iff]
  refine exists_congr fun e => and_congr_right fun _ => ?_
  rw [← UInt32.toNat_inj]
  rfl

theorem TwoHopRounds.outerEdge_iff (h : TwoHopRounds s s.twoHopNeighbors table)
    (hsym : s.SymTwoHops) {dest : UInt32} : OuterEdge s.edges 2 (dist table) a dest ↔
      s.Topology a dest ∧ (s.Near a → s.TwoHopBeyond a) := by
  have hedges : (a, dest) ∈ s.edges ↔ s.Topology a dest := by
    simp only [edges, List.mem_map, Prod.mk.injEq, Topology]
  rw [OuterEdge, hedges, ← h.dist_eq_two hsym]
  refine and_congr_right fun _ => ⟨fun hle hnear => ?_, fun htwo d hd => ?_⟩
  · obtain ⟨e, hae⟩ := Option.ne_none_iff_exists'.1 (h.keys a hnear)
    have hd : dist table a = some e.distance.toNat := dist_eq_some_iff.2 ⟨e, hae, rfl⟩
    rcases h.dist_eq hd with ⟨hone, -⟩ | htwo
    · exact absurd (hle _ hd) (by omega)
    · rw [hd, htwo]
  · rcases h.dist_eq hd with ⟨rfl, hnear⟩ | rfl
    · rw [htwo hnear] at hd
      cases hd
    · exact Nat.le_refl 2

/-- The paths of the rounds, for consistent two-hop tuples. -/
theorem TwoHopRounds.outerPath_iff (h : TwoHopRounds s s.twoHopNeighbors table)
    (hsym : s.SymTwoHops) {d : ℕ} :
    OuterPath s.edges 2 (dist table) a d ↔ s.BeyondPath a d :=
  ⟨LayerPath.mono (fun _ => (h.dist_eq_two hsym).1) fun _ _ => (h.outerEdge_iff hsym).1,
    LayerPath.mono (fun _ => (h.dist_eq_two hsym).2) fun _ _ => (h.outerEdge_iff hsym).2⟩

/-- The computation ends, and this is what is in the table. -/
theorem routingTableComputation_spec (hlocal : s.LocalLinks)
    (hlt : s.topologySet.length + 3 < 2 ^ 32) {turns : ℕ} (hturns : s.topologySet.length < turns) :
    ∃ table, s.routingTableComputation turns = some table ∧ s.NextHops table ∧
      s.Nearest s.Listed table ∧ (s.SymTwoHops → s.Shortest s.BeyondPath table) := by
  obtain ⟨table₁, hfold₁, ht₁⟩ := neighborTable hlocal
  obtain ⟨table₂, hfold₂, ht₂⟩ := twoHopRounds ht₁
  have hle (a : UInt32) (d : ℕ) (hd : dist table₂ a = some d) : d ≤ 2 := by
    rcases ht₂.dist_eq hd with ⟨rfl, -⟩ | rfl
    all_goals omega
  obtain ⟨c, hloop, hc, hadded⟩ := rounds_whileLoop hlt ht₂.nextHops hle hturns
  obtain ⟨k, hk, hlayered, hclosed⟩ := hc.closed hadded
  obtain ⟨table₄, hfold₄, ht₄⟩ := aliasRounds hc.nextHops
  refine ⟨table₄, ?_, ht₄.nextHops, fun a hnear hlisted => ?_, fun hsym a e hae hnear hmain => ?_⟩
  · simp only [routingTableComputation, hfold₁, hfold₂, hloop, hfold₄, Option.bind_eq_bind,
      Option.bind_some]
  · obtain ⟨e₂, hae₂⟩ := Option.ne_none_iff_exists'.1 (ht₂.keys a hnear)
    rcases ht₂.distance a e₂ hae₂ with ⟨hone, -⟩ | ⟨-, hlisted'⟩
    · have hd := hlayered.keep a _ (dist_eq_some_iff.2 ⟨e₂, hae₂, rfl⟩)
      obtain ⟨e, hae, hdistance⟩ := dist_eq_some_iff.1 hd
      exact ⟨e, ht₄.keep a e hae, (UInt32.toNat_inj.1 hdistance).trans hone⟩
    · exact absurd hlisted' hlisted
  · rw [ht₄.main a hmain] at hae
    have hd : dist c.table a = some e.distance.toNat := dist_eq_some_iff.2 ⟨e, hae, rfl⟩
    have htwo : 2 ≤ e.distance.toNat := by
      by_contra hless
      rcases ht₂.dist_eq (hlayered.near a _ hd (by omega)) with ⟨-, hnear'⟩ | htwo
      · exact hnear hnear'
      · omega
    have hleast := hlayered.isLeast hk
      (fun x y hedge hy => ne_none_of_layer_eq hclosed hedge hy) hd htwo
    rwa [Set.ext fun d => ht₂.outerPath_iff hsym] at hleast

/-- A node with one interface, whose links do not expire. -/
def oneInterface (peers : List UInt32) (neighbors : List NeighborTuple)
    (twoHopNeighbors : List TwoHopNeighborTuple) (topology : List (UInt32 × UInt32))
    (ifaceAssocSet : List IfaceAssocTuple) : OlsrNode where
  mainAddress := 100
  links := peers.map fun peer => ⟨100, peer, 9, 9⟩
  neighbors := neighbors
  twoHopNeighbors := twoHopNeighbors
  topologySet := topology.map fun e => ⟨e.2, e.1, 0, 9⟩
  ifaceAssocSet := ifaceAssocSet
  now := 0
  interfaces := [[100]]
  length_interfaces := by decide

/-- Two neighbours with a two-hop neighbour each, and a node behind one of these. -/
def treeNode : OlsrNode :=
  oneInterface [1, 4] [⟨1, .sym, 3⟩, ⟨4, .sym, 3⟩] [⟨1, 2⟩, ⟨4, 5⟩] [(2, 3)] []

theorem routingTableComputation_spec_treeNode :
    ∃ table, treeNode.routingTableComputation 2 = some table ∧ table 3 = some ⟨3, 1, 0, 3⟩ ∧
      treeNode.NextHops table ∧ treeNode.Nearest treeNode.Listed table ∧
        treeNode.Shortest treeNode.BeyondPath table := by
  obtain ⟨table, hcomp, hnext, hnear, hshort⟩ := routingTableComputation_spec (s := treeNode)
    (localLinks_of_links (by decide)) (by decide) (show treeNode.topologySet.length < 2 by decide)
  have hthree : (treeNode.routingTableComputation 2).bind (fun table => table 3) =
      some ⟨3, 1, 0, 3⟩ := by decide +kernel
  rw [hcomp] at hthree
  exact ⟨table, hcomp, hthree, hnext, hnear, hshort (by decide)⟩

/-- The computation ends with the addresses of symmetric neighbours at the distance one and the
other main addresses at the lengths of shortest paths of any kind. -/
def FindsShortest (s : OlsrNode) : Prop :=
  ∀ turns, s.topologySet.length < turns → ∃ table, s.routingTableComputation turns = some table ∧
    s.NextHops table ∧ s.Nearest (fun _ => False) table ∧ s.Shortest s.Path table

/-- A shortest path that comes back to a neighbour. -/
def backNode : OlsrNode :=
  oneInterface [1, 4] [⟨1, .sym, 3⟩, ⟨4, .sym, 3⟩] [⟨1, 2⟩]
    [(2, 4), (4, 3), (2, 5), (5, 6), (6, 3)] []

/-- A two-hop tuple that leads to the node itself. -/
def selfNode : OlsrNode := oneInterface [1] [⟨1, .sym, 3⟩] [⟨1, 2⟩, ⟨1, 100⟩] [(2, 100)] []

/-- A two-hop tuple that leads to another address of a neighbour. -/
def aliasNode : OlsrNode := oneInterface [1, 11] [⟨1, .sym, 3⟩] [⟨1, 11⟩] [] [⟨11, 1⟩]

/-- A two-hop tuple of a neighbour that is not symmetric. -/
def asymNode : OlsrNode := oneInterface [1] [⟨1, .sym, 3⟩, ⟨2, .notSym, 3⟩] [⟨1, 2⟩, ⟨2, 3⟩] [] []

/-- A two-hop tuple of a neighbour without a link, whose address is another one of a neighbour. -/
def unlinkedNode : OlsrNode :=
  oneInterface [2] [⟨1, .sym, 3⟩, ⟨2, .sym, 3⟩] [⟨2, 3⟩] [] [⟨2, 1⟩]

/-- A link that is on no interface. -/
def strayNode : OlsrNode :=
  { oneInterface [1] [⟨1, .sym, 3⟩] [] [] [] with
    interfaces := []
    length_interfaces := by decide }

theorem twoHop_of_path (h : s.Path a 2) : s.TwoHop a := by
  cases h with
  | base htwo => exact htwo
  | step hpath => exact absurd hpath.le (by decide)

/-- An entry that is in the table. -/
theorem entry_of_computation {turns : ℕ} {x : UInt32}
    (hentry : (s.routingTableComputation turns).bind (fun table => table x) = some entry)
    (hcomp : s.routingTableComputation turns = some table) : table x = some entry := by
  rw [hcomp] at hentry
  exact hentry

theorem not_findsShortest : ¬ backNode.FindsShortest ∧ ¬ selfNode.FindsShortest ∧
    ¬ aliasNode.FindsShortest ∧ ¬ asymNode.FindsShortest ∧ ¬ unlinkedNode.FindsShortest ∧
      ¬ strayNode.FindsShortest := by
  refine ⟨fun h => ?_, fun h => ?_, fun h => ?_, fun h => ?_, fun h => ?_, fun h => ?_⟩
  · obtain ⟨table, hcomp, -, -, hshort⟩ := h 6 (by decide)
    have hentry : (backNode.routingTableComputation 6).bind (fun table => table 3) =
        some ⟨3, 1, 0, 5⟩ := by decide +kernel
    have hleast := hshort 3 _ (entry_of_computation hentry hcomp) (by decide) (by decide)
    have htwo : backNode.Path 2 2 := .base (by decide)
    have hpath : backNode.Path 3 4 :=
      (htwo.step (show backNode.Topology 2 4 by decide)).step (by decide)
    exact absurd (hleast.2 hpath) (by decide)
  · obtain ⟨table, hcomp, -, -, hshort⟩ := h 2 (by decide)
    have hentry : (selfNode.routingTableComputation 2).bind (fun table => table 100) =
        some ⟨100, 1, 0, 3⟩ := by decide +kernel
    have hleast := hshort 100 _ (entry_of_computation hentry hcomp) (by decide) (by decide)
    have hpath : selfNode.Path 100 2 := .base (by decide)
    exact absurd (hleast.2 hpath) (by decide)
  · obtain ⟨table, hcomp, -, hnear, -⟩ := h 1 (by decide)
    have hentry : (aliasNode.routingTableComputation 1).bind (fun table => table 11) =
        some ⟨11, 1, 0, 2⟩ := by decide +kernel
    obtain ⟨e, he, hone⟩ := hnear 11 (by decide) id
    rw [entry_of_computation hentry hcomp] at he
    cases he
    exact absurd hone (by decide)
  · obtain ⟨table, hcomp, -, -, hshort⟩ := h 1 (by decide)
    have hentry : (asymNode.routingTableComputation 1).bind (fun table => table 3) =
        some ⟨3, 1, 0, 2⟩ := by decide +kernel
    have hleast := hshort 3 _ (entry_of_computation hentry hcomp) (by decide) (by decide)
    exact absurd (twoHop_of_path hleast.1) (by decide)
  · obtain ⟨table, hcomp, -, -, hshort⟩ := h 1 (by decide)
    have hentry : (unlinkedNode.routingTableComputation 1).bind (fun table => table 3) =
        some ⟨3, 2, 0, 2⟩ := by decide +kernel
    have hleast := hshort 3 _ (entry_of_computation hentry hcomp) (by decide) (by decide)
    exact absurd (twoHop_of_path hleast.1) (by decide)
  · obtain ⟨table, hcomp, -⟩ := h 1 (by decide)
    have hnone : (strayNode.routingTableComputation 1).isNone = true := by decide +kernel
    rw [hcomp] at hnone
    exact absurd hnone Bool.false_ne_true

end SeanetSim.Olsr.OlsrNode
