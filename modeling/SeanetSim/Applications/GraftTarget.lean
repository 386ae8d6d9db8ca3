import SeanetSim.Applications.SwitchTables
import SeanetSim.Lib.Selection

/-!
# The target of a graft

`FindNearestNode` picks one of the addresses of a registered identifier, and falls back on the
default-constructed address otherwise; `REGIST_TO_DEST_DR` sends the graft in both cases.  So in
every reachable state the graft goes to an address of the resolution table exactly when the
identifier is registered (`graft_dest_mem_iff`).
-/

namespace SeanetSim

open AddressMap SeanetProtocol SwitchApplicationv4

variable {ι : Type*} [DecidableEq ι] {M : Type → Type} [AddressMap M]

/-- A `GRAFITING_REQUEST` for `e`. -/
def Datagram.IsGraft (d : Datagram) (e : SeanetEID) : Prop :=
  d.header.applicationType = multicastApplication ∧ d.header.protocolType = graftingRequest ∧
    d.payload = .eid e

/-! ## The nearest node -/

theorem closer_eq_keepBest (delay : Ipv4Address → Option Time) :
    closer delay = keepBest (· < ·) delay := by
  funext shortest temp
  unfold closer keepBest
  cases delay temp with
  | none => rfl
  | some d => rfl

theorem findNearestNode_mem (sw : SwitchApplicationv4 M) {T : Tables M} {e : SeanetEID}
    {l : List Ipv4Address} (he : T.resolutionTable e = some (some l)) (hl : l ≠ []) :
    findNearestNode sw T e ∈ l := by
  obtain ⟨a, l, rfl⟩ := List.exists_cons_of_ne_nil hl
  unfold findNearestNode
  rw [he]
  dsimp only
  split_ifs
  · rw [List.getLastD_cons]
    rcases l.eq_nil_or_concat with rfl | ⟨l', b, rfl⟩ <;> simp
  · rw [List.headD_cons, closer_eq_keepBest]
    rcases foldl_keepBest_mem (· < ·) (find sw.delayTable) (a :: l) (a, 1000000000) with
      h | ⟨b, hb, d, -, -, h⟩ <;> rw [h]
    · exact List.mem_cons_self ..
    · exact hb

/-- For a registered identifier the choice falls on one of its addresses. -/
theorem findNearestNode_mem_addresses (sw : SwitchApplicationv4 M) {T : Tables M} {e : SeanetEID}
    (h : ResolutionInv T.resolutionTable) (he : Registered T.resolutionTable e) :
    (findNearestNode sw T e).setInterfaceNum 0 ∈ addresses T.resolutionTable e := by
  obtain ⟨l, hl⟩ := he
  have hmem : findNearestNode sw T e ∈ addresses T.resolutionTable e := by
    rw [addresses_of_registered hl]
    exact findNearestNode_mem sw hl (h.ne_nil e l hl)
  rwa [Ipv4Address.setInterfaceNum_self (h.interface e _ hmem)]

/-! ## Reachable states -/

theorem ResolutionInv.of_effect {T : Tables M} {self : Ipv4Address} {pkt : Packet}
    {multicast : CastTable M} {resolution : ResolutionTable} (h : ResolutionInv T.resolutionTable)
    (heff : TableEffect T self pkt multicast resolution) : ResolutionInv resolution := by
  cases heff with
  | unchanged => exact h
  | listed _ => exact h
  | anchored _ => exact h.addEIDNAINFO _ _
  | stored _ => exact h.addEIDNAINFO _ _

theorem startApplication_resolutionTable (sw : SwitchApplicationv4 M) (T : Tables M) :
    (startApplication sw T).2.resolutionTable = T.resolutionTable := by
  unfold startApplication
  split_ifs
  · rfl
  · split <;> rfl

theorem resolutionInv_reachable {net : Net ι M} (hnet : Reachable Net.Init Net.Step net) :
    ResolutionInv net.tables.resolutionTable := by
  apply hnet.invariant (I := fun net => ResolutionInv net.tables.resolutionTable)
  · rintro _ ⟨config, rfl⟩
    exact resolutionInv_empty
  · rintro net _ h (⟨⟨i⟩⟩ | ⟨now, source, -, -⟩)
    · exact (startApplication_resolutionTable (net.switches i) net.tables).symm ▸ h
    · exact h.of_effect (frontEnd_tableEffect _ _ _ _ _ _)

omit [DecidableEq ι] in
/-- A join request at its DR sends one graft, to the node `FindNearestNode` names. -/
theorem sentBy_registToDestDR (net : Net ι M) (i : ι) (self : Ipv4Address) (now : Time)
    {pkt : Packet} (source : Address) (hdst : pkt.header.dst ≠ notDst)
    (happ : pkt.header.applicationType = multicastApplication)
    (hproto : pkt.header.protocolType = registToDestDR) :
    ∃ T : Tables M, T.resolutionTable = net.tables.resolutionTable ∧
      net.sentBy i self now pkt source =
        [⟨.ofTypes multicastApplication graftingRequest, .eid pkt.eid,
          (findNearestNode (net.switches i) T pkt.eid).setInterfaceNum 0⟩] := by
  refine ⟨{ net.tables with
    multicastTable := addBoth net.tables.multicastTable
      (self.setInterfaceNum pkt.header.interfaceNum.toUInt32) pkt.eid }, rfl, ?_⟩
  rw [Net.sentBy, frontEnd, if_neg hdst, if_neg (by rw [happ]; decide),
    if_neg (by rw [happ]; decide), if_pos happ, multicastHandle, if_neg (by rw [hproto]; decide),
    if_neg (by rw [hproto]; decide), if_neg (by rw [hproto]; decide), if_pos hproto]
  simp only [registToDestDRHandle, sendPacket, Ipv4Address.deserialize_serialize]

omit [DecidableEq ι] in
/-- In transit a join request sends nothing. -/
theorem sentBy_registToDestDR_transit (net : Net ι M) (i : ι) (self : Ipv4Address) (now : Time)
    {pkt : Packet} (source : Address) (hdst : pkt.header.dst = notDst)
    (happ : pkt.header.applicationType = multicastApplication)
    (hproto : pkt.header.protocolType = registToDestDR) :
    net.sentBy i self now pkt source = [] := by
  rw [Net.sentBy, frontEnd, if_pos hdst, if_pos happ, transitHandle,
    if_neg (by rw [hproto]; decide), if_neg (by rw [hproto]; decide)]

/-- In every reachable state, the grafts that handling a `REGIST_TO_DEST_DR` for an identifier sends
go to addresses the identifier resolves to exactly when the packet is in transit (and nothing is
sent) or the identifier is registered. -/
theorem graft_dest_mem_iff {net : Net ι M} (hnet : Reachable Net.Init Net.Step net) {i : ι}
    {self : Ipv4Address} (_hi : net.Runs i self) (now : Time) {pkt : Packet} (source : Address)
    (happ : pkt.header.applicationType = multicastApplication)
    (hproto : pkt.header.protocolType = registToDestDR) :
    (∀ d ∈ net.sentBy i self now pkt source, d.IsGraft pkt.eid →
      d.dest ∈ addresses net.tables.resolutionTable pkt.eid) ↔
    pkt.header.dst = notDst ∨ Registered net.tables.resolutionTable pkt.eid := by
  have hinv := resolutionInv_reachable hnet
  by_cases hdst : pkt.header.dst = notDst
  · simp [sentBy_registToDestDR_transit net i self now source hdst happ hproto, hdst]
  · obtain ⟨T, hT, hsent⟩ := sentBy_registToDestDR net i self now source hdst happ hproto
    rw [hsent]
    constructor
    · intro h
      have hmem := h _ (List.mem_singleton_self _) ⟨rfl, rfl, rfl⟩
      by_contra hreg
      have hnil : addresses net.tables.resolutionTable pkt.eid = [] := by
        unfold addresses
        split
        · next l hl => exact absurd (.inr ⟨l, hl⟩) hreg
        · rfl
      rw [hnil] at hmem
      exact List.not_mem_nil hmem
    · rintro (h | hreg) d hd -
      · exact absurd h hdst
      · rw [← hT] at hinv hreg ⊢
        rw [List.mem_singleton.1 hd]
        exact findNearestNode_mem_addresses (net.switches i) hinv hreg

/-- A receiver's request for an identifier of zeros. -/
def joinRequest : Packet :=
  ⟨.ofTypes multicastApplication registToDestDR, Vector.replicate eidSize 0, 0⟩

theorem graft_dest_mem_iff_lone :
    (∀ d ∈ (Net.lone 0x0a000001).sentBy 0x0a000001 ⟨0x0a000001, 0⟩ 0 joinRequest [],
      d.IsGraft joinRequest.eid →
        d.dest ∈ addresses (Net.lone 0x0a000001).tables.resolutionTable joinRequest.eid) ↔
    joinRequest.header.dst = notDst ∨
      Registered (Net.lone 0x0a000001).tables.resolutionTable joinRequest.eid :=
  graft_dest_mem_iff (Net.Started.reachable (Net.lone_mem_started _)) Net.runs_lone 0 [] rfl rfl

/-- A switch that has just started grafts to 102.102.102.102. -/
theorem graft_dest_unregistered :
    ¬ ∀ (net : Net UInt32 PairMap) (i : UInt32) (self : Ipv4Address) (now : Time) (pkt : Packet)
      (source : Address), Reachable Net.Init Net.Step net → net.Runs i self →
      pkt.header.applicationType = multicastApplication →
      pkt.header.protocolType = registToDestDR →
      ∀ d ∈ net.sentBy i self now pkt source, d.IsGraft pkt.eid →
        d.dest ∈ addresses net.tables.resolutionTable pkt.eid := by
  intro h
  have hsent : (Net.lone 0x0a000001).sentBy 0x0a000001 ⟨0x0a000001, 0⟩ 0 joinRequest [] =
      [⟨.ofTypes multicastApplication graftingRequest, .eid joinRequest.eid, .uninitialized⟩] := rfl
  have hmem := h (Net.lone 0x0a000001) 0x0a000001 ⟨0x0a000001, 0⟩ 0 joinRequest []
    (Net.Started.reachable (Net.lone_mem_started _)) Net.runs_lone rfl rfl _
    (hsent ▸ List.mem_singleton_self _) ⟨rfl, rfl, rfl⟩
  exact List.not_mem_nil hmem

end SeanetSim
