import SeanetSim.Internet.RipUpdates

/-!
# The requests of RIP

`HandleRequests` answers a request for the whole table, and one for the routes to given prefixes.
For the latter it looks for a route whose network is the prefix as it stands: the masked address
that `CombineMask` returns is dropped, and the masks are not compared.
-/

namespace SeanetSim

namespace RipNode

variable (cfg : RipConfig) (n : RipNode)

/-! ## Requests -/

/-- What a route adds to an answer with the whole table. -/
def tableRte (incomingInterface : ℕ) (r : RipTableEntry) : Option RipRte :=
  let splitHorizoning := r.interface == incomingInterface
  if (r.isGlobal || r.isDefaultRoute incomingInterface) && r.status == .valid then
    if n.splitHorizonStrategy ≠ .splitHorizon ∨
        (n.splitHorizonStrategy = .splitHorizon ∧ !splitHorizoning) then
      some (r.toRte cfg n.splitHorizonStrategy incomingInterface)
    else none
  else none

/-- The route that an RTE is answered with. -/
def routeFor (rte : RipRte) : Option RipTableEntry :=
  n.routes.find? fun r => r.isGlobal && r.status == .valid && rte.rtePrefix.same r.destNetwork

def answerRte (rte : RipRte) : RipRte :=
  match n.routeFor rte with
  | some r => { rte with routeMetric := r.metric.toUInt32, routeTag := r.tag }
  | none => { rte with routeMetric := cfg.linkDown, routeTag := 0 }

/-- A request for the whole table. -/
def asksForAll (rte : RipRte) : Bool :=
  rte.rtePrefix.same .getAny && rte.subnetMask == 0 && rte.routeMetric == cfg.linkDown

/-- `HandleRequests`; `none` where no socket is found for the answer. -/
def handleRequests (rtes : List RipRte) (senderAddress : Ipv4Address) (senderPort : UInt16)
    (incomingInterface : ℕ) : Option (List RipPacket) :=
  let ttl := if senderAddress.same ripAllNode then 1 else 255
  match rtes with
  | [] => some []
  | [rte] =>
    if asksForAll cfg rte && !cfg.interfaceExclusions incomingInterface then
      if incomingInterface ∈ n.sockets then
        some ((fillPackets (maxRte (n.getMtu incomingInterface)) []
          (n.routes.map (n.tableRte cfg incomingInterface))).map fun rtes =>
            ⟨some incomingInterface, senderAddress, ripPort, ttl, rtes⟩)
      else none
    else some []
  | rtes => some [⟨none, senderAddress, senderPort, ttl, rtes.map (n.answerRte cfg)⟩]

/-! ## What an answer is to say -/

/-- The route is a valid one to the masked prefix of the RTE, under its mask. -/
def IsRouteFor (rte : RipRte) (r : RipTableEntry) : Prop :=
  r.status = .valid ∧ rte.isFor r.toRipRoutingTableEntry = true

instance (rte : RipRte) (r : RipTableEntry) : Decidable (IsRouteFor rte r) :=
  inferInstanceAs (Decidable (_ ∧ _))

/-- The RTE of an answer to an RTE of a request: the prefix with the metric and the tag of a route
to it, or with infinity if there is none. -/
structure Answers (rte rte' : RipRte) : Prop where
  network : rte'.rtePrefix = rte.rtePrefix
  mask : rte'.subnetMask = rte.subnetMask
  route : (∃ r ∈ n.routes, IsRouteFor rte r ∧
      rte'.routeMetric = r.metric.toUInt32 ∧ rte'.routeTag = r.tag) ∨
    ((∀ r ∈ n.routes, ¬ IsRouteFor rte r) ∧ rte'.routeMetric = cfg.linkDown)

/-- One packet is sent, with an answer for each RTE in the order of the request. -/
def AnswersAll (rtes : List RipRte) (packets : Option (List RipPacket)) : Prop :=
  ∃ p, packets = some [p] ∧ List.Forall₂ (n.Answers cfg) rtes p.rtes

/-- The first valid route whose network is the prefix as it stands agrees in metric and tag with a
route to the masked prefix; a route with infinity and without tag is as good as none. -/
def Agrees (rte : RipRte) : Prop :=
  match n.routeFor rte with
  | some r =>
    (∃ r' ∈ n.routes, IsRouteFor rte r' ∧ r'.metric = r.metric ∧ r'.tag = r.tag) ∨
      ((∀ r' ∈ n.routes, ¬ IsRouteFor rte r') ∧ r.metric.toUInt32 = cfg.linkDown)
  | none =>
    (∃ r' ∈ n.routes, IsRouteFor rte r' ∧ r'.metric.toUInt32 = cfg.linkDown ∧ r'.tag = 0) ∨
      ∀ r' ∈ n.routes, ¬ IsRouteFor rte r'

instance (rte : RipRte) : Decidable (n.Agrees cfg rte) := by
  unfold Agrees
  split <;> infer_instance

variable {cfg n}

theorem answers_answerRte_iff (rte : RipRte) :
    n.Answers cfg rte (n.answerRte cfg rte) ↔ n.Agrees cfg rte := by
  unfold answerRte Agrees
  cases n.routeFor rte with
  | some r =>
    have hmetric (r' : RipTableEntry) : r.metric.toUInt32 = r'.metric.toUInt32 ↔
        r'.metric = r.metric := by
      rw [← UInt32.toNat_inj, UInt8.toNat_toUInt32, UInt8.toNat_toUInt32, UInt8.toNat_inj]
      exact eq_comm
    dsimp only
    constructor
    · rintro ⟨-, -, ⟨r', hr', hfor, hmetric', htag⟩ | hnone⟩
      · exact .inl ⟨r', hr', hfor, (hmetric r').1 hmetric', htag.symm⟩
      · exact .inr hnone
    · rintro (⟨r', hr', hfor, hmetric', htag⟩ | hnone)
      · exact ⟨rfl, rfl, .inl ⟨r', hr', hfor, (hmetric r').2 hmetric', htag.symm⟩⟩
      · exact ⟨rfl, rfl, .inr hnone⟩
  | none =>
    dsimp only
    constructor
    · rintro ⟨-, -, ⟨r', hr', hfor, hmetric, htag⟩ | ⟨hnone, -⟩⟩
      · exact .inl ⟨r', hr', hfor, hmetric.symm, htag.symm⟩
      · exact .inr hnone
    · rintro (⟨r', hr', hfor, hmetric, htag⟩ | hnone)
      · exact ⟨rfl, rfl, .inl ⟨r', hr', hfor, hmetric.symm, htag.symm⟩⟩
      · exact ⟨rfl, rfl, .inr ⟨hnone, rfl⟩⟩

/-- A request with two or more RTEs is answered by one packet. -/
theorem handleRequests_eq {rtes : List RipRte} (h : 2 ≤ rtes.length) (senderAddress : Ipv4Address)
    (senderPort : UInt16) (incomingInterface : ℕ) :
    n.handleRequests cfg rtes senderAddress senderPort incomingInterface =
      some [⟨none, senderAddress, senderPort, if senderAddress.same ripAllNode then 1 else 255,
        rtes.map (n.answerRte cfg)⟩] := by
  match rtes, h with
  | _ :: _ :: _, _ => rfl

/-- A request for routes is answered right exactly if for each of its RTEs the first valid route
with the prefix as network agrees with the routes to the masked prefix. -/
theorem answersAll_iff (cfg : RipConfig) (n : RipNode) (rtes : List RipRte)
    (senderAddress : Ipv4Address) (senderPort : UInt16) (incomingInterface : ℕ)
    (h : 2 ≤ rtes.length) :
    n.AnswersAll cfg rtes
        (n.handleRequests cfg rtes senderAddress senderPort incomingInterface) ↔
      ∀ rte ∈ rtes, n.Agrees cfg rte := by
  have hall : List.Forall₂ (n.Answers cfg) rtes (rtes.map (n.answerRte cfg)) ↔
      ∀ rte ∈ rtes, n.Agrees cfg rte := by
    rw [List.forall₂_map_right_iff, List.forall₂_same]
    exact forall₂_congr fun rte _ => answers_answerRte_iff rte
  rw [handleRequests_eq h, ← hall]
  constructor
  · rintro ⟨p, hp, hrtes⟩
    cases hp
    exact hrtes
  · exact fun hrtes => ⟨_, rfl, hrtes⟩

/-- A request for the two routes of a node, and for a prefix without a route. -/
theorem answersAll_routes : ∃ (cfg : RipConfig) (n : RipNode),
    n.AnswersAll cfg [⟨.ofUInt32 0x0a000000, 0xffff0000, 0, 0⟩,
      ⟨.ofUInt32 0x0a010000, 0xffff0000, 0, 0⟩, ⟨.ofUInt32 0x0a020000, 0xffff0000, 0, 0⟩]
        (n.handleRequests cfg [⟨.ofUInt32 0x0a000000, 0xffff0000, 0, 0⟩,
          ⟨.ofUInt32 0x0a010000, 0xffff0000, 0, 0⟩, ⟨.ofUInt32 0x0a020000, 0xffff0000, 0, 0⟩]
            (.ofUInt32 0x0a000007) 520 1) := by
  let cfg : RipConfig := ⟨16, 180, 120, fun _ => false, fun _ => none⟩
  let n : RipNode :=
    { routes := [⟨⟨0, .ofUInt32 0x0a000000, 0xffff0000, .ofUInt32 0, 1, 0, 1, .valid, none,
          false⟩, false⟩,
        ⟨⟨1, .ofUInt32 0x0a010000, 0xffff0000, .ofUInt32 0x0a000002, 1, 7, 3, .valid, none,
          true⟩, false⟩]
      sockets := [1]
      getMtu := fun _ => 1500
      addresses := fun _ => []
      splitHorizonStrategy := .splitHorizon }
  exact ⟨cfg, n, (answersAll_iff cfg n _ _ _ _ (by decide)).2 (by decide +kernel)⟩

/-- Two routes to a network address under different masks: a request for the second one is answered
with the metric of the first one. -/
theorem not_answersAll_masks : ∃ (cfg : RipConfig) (n : RipNode) (rtes : List RipRte),
    2 ≤ rtes.length ∧
      ¬ n.AnswersAll cfg rtes (n.handleRequests cfg rtes (.ofUInt32 0x0a000007) 520 1) := by
  let cfg : RipConfig := ⟨16, 180, 120, fun _ => false, fun _ => none⟩
  let n : RipNode :=
    { routes := [⟨⟨0, .ofUInt32 0x0a000000, 0xffff0000, .ofUInt32 0x0a640002, 1, 0, 3, .valid, none,
          true⟩, false⟩,
        ⟨⟨1, .ofUInt32 0x0a000000, 0xffffff00, .ofUInt32 0x0a640003, 1, 0, 5, .valid, none,
          true⟩, false⟩]
      sockets := [1]
      getMtu := fun _ => 1500
      addresses := fun _ => []
      splitHorizonStrategy := .splitHorizon }
  let rte : RipRte := ⟨.ofUInt32 0x0a000000, 0xffffff00, 0, 0⟩
  refine ⟨cfg, n, [rte, rte], by decide, ?_⟩
  rintro ⟨p, hp, hrtes⟩
  cases hp
  have hagrees : n.Agrees cfg rte := (answers_answerRte_iff rte).1 (List.forall₂_cons.1 hrtes).1
  exact absurd hagrees (by decide +kernel)

end RipNode

end SeanetSim
