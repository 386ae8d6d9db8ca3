import SeanetSim.GlobalRouting.NextHop

/-!
# Labels of candidates

A candidate knows the cheapest of the links to it that have been looked at, and has the exits and
parents that these links give it (`SpfContext.Label`).  `SPFNext` looks at one more link at a time;
what becomes of the label of the vertex behind it is the content of `Label.replace` (a cheaper
link), `Label.merge` (a link as cheap as the others) and `Label.longer`.
-/

namespace SeanetSim

/-- A link with the LSA of the vertex that it leads to. -/
abbrev SpfLink := Option GlobalRoutingLinkRecord × GlobalRoutingLSA

/-- The metric of a link of a router; a network has no metrics. -/
def linkCost (l : Option GlobalRoutingLinkRecord) : ℕ := l.elim 0 fun l => l.metric.toNat

namespace SpfContext

variable {c : SpfContext} {seen : SPFVertex → SpfLink → Prop} {u v w x : SPFVertex}
  {link : SpfLink} {l : Option GlobalRoutingLinkRecord} {e : NodeExit} {exits : List NodeExit}

/-- A link whose cost is that of the label. -/
def Tight (seen : SPFVertex → SpfLink → Prop) (x u : SPFVertex) (link : SpfLink) : Prop :=
  seen u link ∧ link.2 = x.lsa ∧
    x.distanceFromRoot.toNat = u.distanceFromRoot.toNat + linkCost link.1

/-- An exit that a link gives to the vertex behind it. -/
def Contributes (c : SpfContext) (u : SPFVertex) (link : SpfLink) (e : NodeExit) : Prop :=
  ∃ exits, c.HopExits u (.ofLSA link.2) link.1 exits ∧ e ∈ exits

/-- What the distance, the exits and the parents of a candidate have to do with the links to it
that have been looked at. -/
structure Label (c : SpfContext) (seen : SPFVertex → SpfLink → Prop) (x : SPFVertex) : Prop where
  reached : ∃ u link, Tight seen x u link
  least : ∀ u link, seen u link → link.2 = x.lsa →
    x.distanceFromRoot.toNat ≤ u.distanceFromRoot.toNat + linkCost link.1
  exits : ∀ e, e ∈ x.ecmpRootExits ↔ ∃ u link, Tight seen x u link ∧ c.Contributes u link e
  nodup : x.ecmpRootExits.Nodup
  parents : ∀ p, p ∈ x.parents ↔ ∃ u link, Tight seen x u link ∧ p = u.vertexId
  sorted : x.parents.Pairwise fun p q => c.address p ≤ c.address q
  hops : ∀ u link, Tight seen x u link →
    ∃ exits, c.HopExits u (.ofLSA link.2) link.1 exits

/-- The links seen, and one more. -/
def andSeen (seen : SPFVertex → SpfLink → Prop) (v : SPFVertex) (link : SpfLink) :
    SPFVertex → SpfLink → Prop := fun u link' => seen u link' ∨ u = v ∧ link' = link

/-- The link adds its cost to the distance, without a carry out of the 32 bits. -/
def Fits (v : SPFVertex) (l : Option GlobalRoutingLinkRecord) : Prop :=
  v.distanceFromRoot.toNat + linkCost l < 2 ^ 32

/-- A link gives its exits whatever it is the first one for. -/
theorem HopExits.unique {exits' : List NodeExit} (h : c.HopExits v w l exits)
    (h' : c.HopExits v w l exits') : exits = exits' := by
  have hok := @spfNexthopCalculation_of_hopExits c 2 v w l 0 _ le_rfl h
  rw [spfNexthopCalculation_of_hopExits le_rfl h'] at hok
  cases hok
  rfl

theorem HopExits.nodup (h : c.HopExits v (.ofLSA w.lsa) l exits)
    (hv : v.ecmpRootExits.Nodup) : exits.Nodup := by
  cases h with
  | adjacentRouter => exact List.nodup_singleton _
  | adjacentNetwork => exact List.nodup_singleton _
  | overNetwork => exact List.nodup_singleton _
  | unnamed => exact List.nodup_nil
  | farNetwork => exact List.nodup_singleton _
  | farRouter => exact hv

/-- The exits that the vertex has had before do not matter, unless `v` is a network of the root
that it does not name. -/
theorem HopExits.ofLSA (h : c.HopExits v w l exits)
    (hnamed : v.isNetwork = true → v.parents.head? = some c.root →
      spfGetNextLink w v none ≠ none) : c.HopExits v (.ofLSA w.lsa) l exits := by
  cases h with
  | adjacentRouter hv hw hl hremote => exact .adjacentRouter hv hw hl hremote
  | adjacentNetwork hv hw => exact .adjacentNetwork hv hw
  | overNetwork hv hnet hparent hw hremote hexit hlast =>
    exact .overNetwork hv hnet hparent hw hremote hexit hlast
  | unnamed _ hnet hparent _ hremote => exact absurd hremote (hnamed hnet hparent)
  | farNetwork hv hnet hparent hexit => exact .farNetwork hv hnet hparent hexit
  | farRouter hv hnet => exact .farRouter hv hnet

theorem contributes_iff (h : c.HopExits u (.ofLSA link.2) link.1 exits) :
    c.Contributes u link e ↔ e ∈ exits := by
  constructor
  · rintro ⟨exits', h', he⟩
    rwa [h.unique h']
  · exact fun he => ⟨exits, h, he⟩

/-- A link to another vertex, or one that costs more. -/
theorem Label.skip (h : c.Label seen x) (hlt : link.2 = x.lsa →
    x.distanceFromRoot.toNat < v.distanceFromRoot.toNat + linkCost link.1) :
    c.Label (andSeen seen v link) x := by
  have htight (u : SPFVertex) (link' : SpfLink) :
      Tight (andSeen seen v link) x u link' ↔ Tight seen x u link' := by
    unfold Tight andSeen
    constructor
    · rintro ⟨hseen | ⟨rfl, rfl⟩, hlsa, hdist⟩
      · exact ⟨hseen, hlsa, hdist⟩
      · have := hlt hlsa
        omega
    · exact fun h => ⟨Or.inl h.1, h.2⟩
  refine ⟨?_, ?_, ?_, h.nodup, ?_, h.sorted, ?_⟩
  · simpa only [htight] using h.reached
  · rintro u link' (hseen | ⟨rfl, rfl⟩) hlsa
    · exact h.least u link' hseen hlsa
    · exact (hlt hlsa).le
  · simpa only [htight] using h.exits
  · simpa only [htight] using h.parents
  · simpa only [htight] using h.hops

/-- A link that costs less than all others gives the vertex a new label. -/
theorem Label.replace {wLsa : GlobalRoutingLSA} {distance : UInt32}
    (hdistance : distance.toNat = v.distanceFromRoot.toNat + linkCost l)
    (hless : ∀ u link', seen u link' → link'.2 = wLsa →
      distance.toNat < u.distanceFromRoot.toNat + linkCost link'.1)
    (hexits : c.HopExits v (.ofLSA wLsa) l exits) (hnodup : exits.Nodup) :
    c.Label (andSeen seen v (l, wLsa)) ⟨wLsa, distance, exits, [v.vertexId]⟩ := by
  have htight (u : SPFVertex) (link' : SpfLink) :
      Tight (andSeen seen v (l, wLsa)) ⟨wLsa, distance, exits, [v.vertexId]⟩ u link' ↔
        u = v ∧ link' = (l, wLsa) := by
    unfold Tight andSeen
    constructor
    · rintro ⟨hseen | h, hlsa, hdist⟩
      · have := hless u link' hseen hlsa
        dsimp only at hdist
        omega
      · exact h
    · rintro ⟨rfl, rfl⟩
      exact ⟨Or.inr ⟨rfl, rfl⟩, rfl, hdistance⟩
  refine ⟨⟨v, (l, wLsa), (htight v _).2 ⟨rfl, rfl⟩⟩, ?_, fun e => ?_, hnodup, fun p => ?_,
    List.pairwise_singleton _ _, ?_⟩
  · rintro u link' (hseen | ⟨rfl, rfl⟩) hlsa
    · exact (hless u link' hseen hlsa).le
    · exact hdistance.le
  · simp only [htight]
    constructor
    · exact fun he => ⟨v, _, ⟨rfl, rfl⟩, exits, hexits, he⟩
    · rintro ⟨u, link', ⟨rfl, rfl⟩, he⟩
      exact (contributes_iff hexits).1 he
  · simp [htight]
  · intro u link' ht
    obtain ⟨rfl, rfl⟩ := (htight u link').1 ht
    exact ⟨exits, hexits⟩

/-- A link as cheap as the cheapest of the others. -/
theorem Label.merge (h : c.Label seen x)
    (hequal : x.distanceFromRoot.toNat = v.distanceFromRoot.toNat + linkCost l)
    (hexits : c.HopExits v (.ofLSA x.lsa) l exits) (distance : UInt32) :
    c.Label (andSeen seen v (l, x.lsa))
      (x.merge c.address ⟨x.lsa, distance, exits, [v.vertexId]⟩) := by
  have htight (u : SPFVertex) (link' : SpfLink) :
      Tight (andSeen seen v (l, x.lsa))
        (x.merge c.address ⟨x.lsa, distance, exits, [v.vertexId]⟩) u link' ↔
        Tight seen x u link' ∨ u = v ∧ link' = (l, x.lsa) := by
    unfold Tight andSeen
    constructor
    · rintro ⟨hseen | h, hlsa, hdist⟩
      · exact Or.inl ⟨hseen, hlsa, hdist⟩
      · exact Or.inr h
    · rintro (⟨hseen, hlsa, hdist⟩ | ⟨rfl, rfl⟩)
      · exact ⟨Or.inl hseen, hlsa, hdist⟩
      · exact ⟨Or.inr ⟨rfl, rfl⟩, rfl, hequal⟩
  refine ⟨⟨v, (l, x.lsa), (htight v _).2 (Or.inr ⟨rfl, rfl⟩)⟩, ?_, fun e => ?_,
    SPFVertex.nodup_merge_ecmpRootExits, fun p => ?_,
    SPFVertex.pairwise_merge_parents c.address_injective, ?_⟩
  · rintro u link' (hseen | ⟨rfl, rfl⟩) hlsa
    · exact h.least u link' hseen hlsa
    · exact hequal.le
  · rw [SPFVertex.mem_merge_ecmpRootExits, h.exits]
    simp only [htight]
    constructor
    · rintro (⟨u, link', ht, he⟩ | he)
      · exact ⟨u, link', Or.inl ht, he⟩
      · exact ⟨v, _, Or.inr ⟨rfl, rfl⟩, exits, hexits, he⟩
    · rintro ⟨u, link', ht | ⟨rfl, rfl⟩, he⟩
      · exact Or.inl ⟨u, link', ht, he⟩
      · exact Or.inr ((contributes_iff hexits).1 he)
  · rw [SPFVertex.mem_merge_parents c.address_injective, h.parents]
    simp only [htight, List.mem_singleton]
    constructor
    · rintro (⟨u, link', ht, rfl⟩ | rfl)
      · exact ⟨u, link', Or.inl ht, rfl⟩
      · exact ⟨v, _, Or.inr ⟨rfl, rfl⟩, rfl⟩
    · rintro ⟨u, link', ht | ⟨rfl, rfl⟩, rfl⟩
      · exact Or.inl ⟨u, link', ht, rfl⟩
      · exact Or.inr rfl
  · intro u link' ht
    rcases (htight u link').1 ht with ht | ⟨rfl, rfl⟩
    · exact h.hops u link' ht
    · exact ⟨exits, hexits⟩

end SpfContext

end SeanetSim
