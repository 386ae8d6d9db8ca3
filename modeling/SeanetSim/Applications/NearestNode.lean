import SeanetSim.Applications.GraftTarget
import SeanetSim.Lib.Run

/-!
# The nearest node

What `FindNearestNode` finds.  Outside the tree type `SPT` it is a member with the shortest known
delay as long as a delay is below the bound that the search starts with, or the first member has the
shortest one (`findNearestNode_nearest_iff`).  In the tree type `SPT` it is the node that has been
recorded last, so the source of the tree as long as no other node has been recorded
(`findNearestNode_eq_source_iff`).
-/

namespace SeanetSim

open AddressMap SeanetProtocol SwitchApplicationv4

variable {ι : Type*} [DecidableEq ι] {M : Type → Type} [AddressMap M]

/-! ## The shortest delay -/

/-- A member has the shortest of the known delays of the members. -/
def NearestMember (delay : Ipv4Address → Option Time) (l : List Ipv4Address) (a : Ipv4Address) :
    Prop :=
  a ∈ l ∧ ∃ d, delay a = some d ∧ ∀ b ∈ l, ∀ e, delay b = some e → d ≤ e

/-- The nearest node has the shortest known delay exactly if some delay is below the bound of the
search or the first member has the shortest one. -/
theorem findNearestNode_nearest_iff (sw : SwitchApplicationv4 M) {T : Tables M} {e : SeanetEID}
    {l : List Ipv4Address} (htree : sw.treeType ≠ .spt) (he : T.resolutionTable e = some (some l))
    (hknown : ∃ a ∈ l, (find sw.delayTable a).isSome) :
    NearestMember (find sw.delayTable) l (findNearestNode sw T e) ↔
      (∃ a ∈ l, ∃ d < 1000000000, find sw.delayTable a = some d) ∨
        ∃ first ∈ l.head?, NearestMember (find sw.delayTable) l first := by
  obtain ⟨a, ha, -⟩ := hknown
  obtain ⟨first, rest, rfl⟩ := List.exists_cons_of_ne_nil (List.ne_nil_of_mem ha)
  have hfind : findNearestNode sw T e = ((first :: rest).foldl
      (keepBest (· < ·) (find sw.delayTable)) (first, 1000000000)).1 := by
    rw [findNearestNode, he]
    dsimp only
    rw [if_neg htree, closer_eq_keepBest, List.headD_cons]
  have hle {b : Ipv4Address} {d : Time} (hb : b ∈ first :: rest)
      (hd : find sw.delayTable b = some d) :=
    foldl_keepBest_le (fun _ _ => le_of_lt) (fun _ _ => le_of_not_gt) (first, 1000000000) hb hd
  rw [hfind]
  rcases foldl_keepBest_mem (· < ·) (find sw.delayTable) (first :: rest) (first, 1000000000) with
    h | ⟨b, hb, d, hd, hlt, h⟩
  · rw [h] at hle ⊢
    constructor
    · exact fun hnear => .inr ⟨first, rfl, hnear⟩
    · rintro (⟨b, hb, d, hlt, hd⟩ | ⟨a, ha, hnear⟩)
      · exact absurd (hle hb hd) (not_le.2 hlt)
      · exact Option.some.inj ha ▸ hnear
  · rw [h] at hle ⊢
    refine ⟨fun _ => .inl ⟨b, hb, d, hlt, hd⟩, fun _ => ⟨hb, d, hd, fun b' hb' d' hd' => ?_⟩⟩
    exact hle hb' hd'

/-- A switch that knows the delays to 10.0.0.1 and 10.0.0.2, in this order. -/
def delaySwitch (d₁ d₂ : Time) : SwitchApplicationv4 PairMap :=
  { (SwitchConfig.create ⟨.seanet, false, []⟩ : SwitchApplicationv4 PairMap) with
    delayTable := store (store (empty : PairMap Time) ⟨0x0a000001, 0⟩ d₁) ⟨0x0a000002, 0⟩ d₂ }

/-- Every identifier resolves to 10.0.0.1 and 10.0.0.2. -/
def twoMembers : Tables PairMap :=
  ⟨empty, empty, fun _ => some (some [⟨0x0a000001, 0⟩, ⟨0x0a000002, 0⟩])⟩

theorem findNearestNode_nearest_iff_second :
    NearestMember (find (delaySwitch 5 3).delayTable) [⟨0x0a000001, 0⟩, ⟨0x0a000002, 0⟩]
        (findNearestNode (delaySwitch 5 3) twoMembers (Vector.replicate eidSize 0)) ↔
      (∃ a ∈ [(⟨0x0a000001, 0⟩ : Ipv4Address), ⟨0x0a000002, 0⟩], ∃ d < 1000000000,
        find (delaySwitch 5 3).delayTable a = some d) ∨
        ∃ first ∈ [(⟨0x0a000001, 0⟩ : Ipv4Address), ⟨0x0a000002, 0⟩].head?,
          NearestMember (find (delaySwitch 5 3).delayTable) [⟨0x0a000001, 0⟩, ⟨0x0a000002, 0⟩]
            first :=
  findNearestNode_nearest_iff (delaySwitch 5 3) (by decide) rfl
    ⟨⟨0x0a000001, 0⟩, by decide, by decide⟩

/-- With delays of three and two seconds the search ends at the first member. -/
theorem not_nearestMember_far :
    ¬ ∀ (sw : SwitchApplicationv4 PairMap) (T : Tables PairMap) (e : SeanetEID)
      (l : List Ipv4Address), sw.treeType ≠ .spt → T.resolutionTable e = some (some l) →
      (∃ a ∈ l, (find sw.delayTable a).isSome) →
      NearestMember (find sw.delayTable) l (findNearestNode sw T e) := by
  intro h
  obtain ⟨-, d, hd, hle⟩ := h (delaySwitch 3000000000 2000000000) twoMembers
    (Vector.replicate eidSize 0) [⟨0x0a000001, 0⟩, ⟨0x0a000002, 0⟩] (by decide) rfl
    ⟨⟨0x0a000001, 0⟩, by decide, by decide⟩
  have hfound : find (delaySwitch 3000000000 2000000000).delayTable
      (findNearestNode (delaySwitch 3000000000 2000000000) twoMembers
        (Vector.replicate eidSize 0)) = some 3000000000 := by decide
  obtain rfl := Option.some.inj (hfound.symm.trans hd)
  exact absurd (hle ⟨0x0a000002, 0⟩ (by decide) 2000000000 (by decide)) (by decide)

/-! ## The source of a tree -/

/-- A switch starts, or a running switch handles a packet. -/
inductive NetEvent (ι : Type*)
  | start (i : ι)
  | receive (i : ι) (self : Ipv4Address) (now : Time) (pkt : Packet) (source : Address)

inductive Net.Happens : Net ι M → NetEvent ι → Net ι M → Prop
  | start {net : Net ι M} (i : ι) : Happens net (.start i) (net.start i)
  | receive {net : Net ι M} {i : ι} {self : Ipv4Address} (now : Time) (pkt : Packet)
      (source : Address) (hi : net.Runs i self) :
      Happens net (.receive i self now pkt source) (net.receive i self now pkt source)

/-- In the tree type `SPT` the switch that handles the packet becomes an address of its
identifier. -/
def Packet.recordsNode (pkt : Packet) : Bool :=
  if pkt.header.dst = notDst then
    pkt.header.applicationType = multicastApplication ∧ pkt.header.protocolType = graftingRequest
  else
    pkt.header.applicationType = switchApplication ∧ pkt.header.protocolType = reseiveData ∨
      pkt.header.applicationType = multicastApplication ∧
        (pkt.header.protocolType = registToSourceDR ∨ pkt.header.protocolType = registToRN)

/-- The node that an event records for an identifier. -/
def NetEvent.records (e : SeanetEID) : NetEvent ι → Option Ipv4Address
  | .start _ => none
  | .receive _ self _ pkt _ =>
    if pkt.eid = e ∧ pkt.recordsNode then some (self.setInterfaceNum 0) else none

/-- The nodes that have been recorded for an identifier, in this order. -/
def recorded (e : SeanetEID) (trace : List (Net ι M × NetEvent ι)) : List Ipv4Address :=
  trace.filterMap fun p => p.2.records e

section ResolutionTable

variable (sw : SwitchApplicationv4 M) (T : Tables M) (self : Ipv4Address) (now : Time) (pkt : Packet)
  (source : Address)

omit [DecidableEq ι]

theorem transitHandle_resolutionTable (k : UInt32) :
    (transitHandle sw T (self.setInterfaceNum k) now pkt source).tables.resolutionTable =
      if pkt.header.protocolType = graftingRequest then addEIDNAINFO T.resolutionTable pkt.eid self
      else T.resolutionTable := by
  unfold transitHandle
  by_cases hrn : pkt.header.protocolType = registToRN
  · rw [if_pos hrn, if_neg (by rw [hrn]; decide)]
  · rw [if_neg hrn]
    split_ifs
    · rfl
    · rfl

omit [AddressMap M] in
theorem switchProtocolHandle_resolutionTable :
    (switchProtocolHandle sw T self pkt source).tables.resolutionTable =
      if pkt.header.protocolType = reseiveData then addEIDNAINFO T.resolutionTable pkt.eid self
      else T.resolutionTable := by
  unfold switchProtocolHandle requestDataHandle
  by_cases hrequest : pkt.header.protocolType = requestData
  · have hne : pkt.header.protocolType ≠ reseiveData := by
      rw [hrequest]
      decide
    rw [if_pos hrequest, if_neg hne]
    split_ifs
    · rfl
    · rfl
  · rw [if_neg hrequest]
    split_ifs
    · rfl
    · rfl

theorem neigthInfoProtocolHandle_resolutionTable :
    (neigthInfoProtocolHandle sw T now pkt source).tables.resolutionTable = T.resolutionTable := by
  unfold neigthInfoProtocolHandle
  dsimp only
  split_ifs
  all_goals rfl

variable {sw}

theorem multicastHandle_resolutionTable (htree : sw.treeType = .spt) (k : UInt32) :
    (multicastHandle sw T self (self.setInterfaceNum k) now pkt source).tables.resolutionTable =
      if pkt.header.protocolType = registToSourceDR ∨ pkt.header.protocolType = registToRN then
        addEIDNAINFO T.resolutionTable pkt.eid self
      else T.resolutionTable := by
  unfold multicastHandle registToSourceDRHandle
  by_cases hsource : pkt.header.protocolType = registToSourceDR
  · have hself : (chooseRN sw T self (self.setInterfaceNum k)).same (self.setInterfaceNum k) := by
      rw [chooseRN, htree]
      exact Ipv4Address.same_iff.2 rfl
    rw [if_pos hsource, if_pos hself, if_pos (Or.inl hsource)]
    rfl
  · rw [if_neg hsource]
    by_cases hrn : pkt.header.protocolType = registToRN
    · rw [if_pos hrn, if_pos (Or.inr hrn)]
      rfl
    · rw [if_neg hrn, if_neg (not_or.2 ⟨hsource, hrn⟩)]
      split_ifs
      all_goals rfl

/-- In the tree type `SPT` the packet alone says whether the switch is recorded. -/
theorem frontEnd_resolutionTable_spt (htree : sw.treeType = .spt) :
    (frontEnd sw T self now pkt source).tables.resolutionTable =
      if pkt.recordsNode then addEIDNAINFO T.resolutionTable pkt.eid self
      else T.resolutionTable := by
  unfold frontEnd Packet.recordsNode
  dsimp only
  by_cases hdst : pkt.header.dst = notDst
  · rw [if_pos hdst, if_pos hdst]
    by_cases hm : pkt.header.applicationType = multicastApplication
    · rw [if_pos hm, transitHandle_resolutionTable]
      simp [hm]
    · simp [hm]
  · rw [if_neg hdst, if_neg hdst]
    by_cases hs : pkt.header.applicationType = switchApplication
    · have hm : switchApplication ≠ multicastApplication := by decide
      rw [if_pos hs, switchProtocolHandle_resolutionTable]
      simp [hs, hm]
    · rw [if_neg hs]
      by_cases hn : pkt.header.applicationType = neighInfoApplication
      · have hm : neighInfoApplication ≠ multicastApplication := by decide
        have hs : neighInfoApplication ≠ switchApplication := by decide
        rw [if_pos hn, neigthInfoProtocolHandle_resolutionTable]
        simp [hn, hm, hs]
      · rw [if_neg hn]
        by_cases hm : pkt.header.applicationType = multicastApplication
        · have hs : multicastApplication ≠ switchApplication := by decide
          rw [if_pos hm, multicastHandle_resolutionTable T self now pkt source htree]
          simp [hm, hs]
        · simp [hs, hm]

end ResolutionTable

omit [DecidableEq ι] in
/-- Of a node that is recorded again the place stays. -/
theorem addresses_concat {table : ResolutionTable} (h : ResolutionInv table) {e : SeanetEID}
    {nodes : List Ipv4Address} (hmem : ∀ a, a ∈ addresses table e ↔ a ∈ nodes)
    (hhead : (addresses table e).head? = nodes.head?) (a : Ipv4Address) :
    (∀ b, b ∈ addresses (addEIDNAINFO table e a) e ↔ b ∈ nodes ++ [a.setInterfaceNum 0]) ∧
      (addresses (addEIDNAINFO table e a) e).head? = (nodes ++ [a.setInterfaceNum 0]).head? := by
  constructor
  · intro b
    rw [mem_addresses_addEIDNAINFO h, hmem, List.mem_append, List.mem_singleton]
    exact or_congr_right (and_iff_right rfl)
  · rw [addresses_addEIDNAINFO h, List.head?_append, ← hhead]
    split_ifs with hnew
    · rw [List.head?_append]
    · cases hl : addresses table e with
      | nil => exact absurd ⟨rfl, hl ▸ List.not_mem_nil⟩ hnew
      | cons b l => rfl

omit [DecidableEq ι] in
/-- The last member is the first one exactly if there is no other. -/
theorem getLastD_eq_iff {α : Type*} {l : List α} {a d : α} (hnodup : l.Nodup)
    (hhead : l.head? = some a) : l.getLastD d = a ↔ ∀ b ∈ l, b = a := by
  obtain ⟨rest, rfl⟩ := List.head?_eq_some_iff.1 hhead
  rw [List.getLastD_cons]
  rcases rest.eq_nil_or_concat' with rfl | ⟨rest, b, rfl⟩
  · simp
  · rw [List.getLastD_concat]
    have hb : b ∈ rest ++ [b] := List.mem_append_right _ (List.mem_singleton_self b)
    have hne : b ≠ a := fun heq => (List.nodup_cons.1 hnodup).1 (heq ▸ hb)
    exact iff_of_false hne fun hall => hne (hall b (List.mem_cons_of_mem _ hb))

/-! ## Runs in the tree type `SPT` -/

theorem Net.start_treeType (net : Net ι M) (i j : ι) :
    ((net.start i).switches j).treeType = (net.switches j).treeType := by
  by_cases hj : j = i
  · subst hj
    rcases net.start_cases j with h | ⟨-, h | ⟨_, -, h⟩⟩ <;> simp [h]
  · simp [Net.start, Function.update_of_ne hj]

theorem Net.receive_treeType (net : Net ι M) (i j : ι) (self : Ipv4Address) (now : Time)
    (pkt : Packet) (source : Address) :
    ((net.receive i self now pkt source).switches j).treeType = (net.switches j).treeType := by
  unfold Net.receive
  by_cases hj : j = i
  · subst hj
    obtain ⟨d, t, hsw⟩ := frontEnd_sw (net.switches j) net.tables self now pkt source
    simp [hsw]
  · simp [Function.update_of_ne hj]

/-- What is known of the tables when all switches have the tree type `SPT`. -/
structure SourceInv (net : Net ι M) (trace : List (Net ι M × NetEvent ι)) : Prop where
  treeType : ∀ i, (net.switches i).treeType = .spt
  resolution : ResolutionInv net.tables.resolutionTable
  mem : ∀ e a, a ∈ addresses net.tables.resolutionTable e ↔ a ∈ recorded e trace
  head : ∀ e, (addresses net.tables.resolutionTable e).head? = (recorded e trace).head?

theorem sourceInv_of_run {config : ι → SwitchConfig} (hspt : ∀ i, (config i).treeType = .spt)
    {trace : List (Net ι M × NetEvent ι)} {net : Net ι M}
    (h : Run Net.Happens (Net.initial config) trace net) : SourceInv net trace := by
  induction h with
  | nil => exact ⟨hspt, resolutionInv_empty, fun _ _ => Iff.rfl, fun _ => rfl⟩
  | snoc hrun hst ih =>
    rename_i trace net net' event
    have hrecorded (e : SeanetEID) :
        recorded e (trace ++ [(net, event)]) = recorded e trace ++ (event.records e).toList := by
      rw [recorded, List.filterMap_append]
      cases hr : event.records e <;> simp [recorded, hr]
    cases hst with
    | start i =>
      have htable : (net.start i).tables.resolutionTable = net.tables.resolutionTable :=
        startApplication_resolutionTable (net.switches i) net.tables
      refine ⟨fun j => ?_, htable ▸ ih.resolution, fun e a => ?_, fun e => ?_⟩
      · exact (net.start_treeType i j).trans (ih.treeType j)
      · rw [hrecorded, htable]
        exact (ih.mem e a).trans (List.append_nil _ ▸ Iff.rfl)
      · rw [hrecorded, htable]
        exact (ih.head e).trans (congrArg List.head? (List.append_nil _).symm)
    | receive now pkt source hi =>
      rename_i i self
      have htable : (net.receive i self now pkt source).tables.resolutionTable =
          if pkt.recordsNode then addEIDNAINFO net.tables.resolutionTable pkt.eid self
          else net.tables.resolutionTable :=
        frontEnd_resolutionTable_spt net.tables self now pkt source (ih.treeType i)
      have htype (j : ι) :
          ((net.receive i self now pkt source).switches j).treeType = .spt :=
        (net.receive_treeType i j self now pkt source).trans (ih.treeType j)
      have hkept {e : SeanetEID} (hnone : (NetEvent.receive i self now pkt source).records e = none)
          (hsame : addresses (net.receive i self now pkt source).tables.resolutionTable e =
            addresses net.tables.resolutionTable e) :
          (∀ a, a ∈ addresses (net.receive i self now pkt source).tables.resolutionTable e ↔
            a ∈ recorded e (trace ++ [(net, .receive i self now pkt source)])) ∧
          (addresses (net.receive i self now pkt source).tables.resolutionTable e).head? =
            (recorded e (trace ++ [(net, .receive i self now pkt source)])).head? := by
        rw [hrecorded, hnone, Option.toList_none, List.append_nil, hsame]
        exact ⟨ih.mem e, ih.head e⟩
      by_cases hrecords : pkt.recordsNode
      · rw [if_pos hrecords] at htable
        have hnodes (e : SeanetEID) :
            (∀ a, a ∈ addresses (net.receive i self now pkt source).tables.resolutionTable e ↔
              a ∈ recorded e (trace ++ [(net, .receive i self now pkt source)])) ∧
            (addresses (net.receive i self now pkt source).tables.resolutionTable e).head? =
              (recorded e (trace ++ [(net, .receive i self now pkt source)])).head? := by
          by_cases he : pkt.eid = e
          · subst he
            have hsome : (NetEvent.receive i self now pkt source).records pkt.eid =
                some (self.setInterfaceNum 0) := if_pos ⟨rfl, hrecords⟩
            rw [hrecorded, hsome, htable]
            exact addresses_concat ih.resolution (ih.mem _) (ih.head _) self
          · apply hkept (if_neg fun hboth => he hboth.1)
            rw [htable, addresses_addEIDNAINFO ih.resolution, if_neg fun hnew => he hnew.1.symm]
        exact ⟨htype, htable ▸ ih.resolution.addEIDNAINFO _ _, fun e => (hnodes e).1,
          fun e => (hnodes e).2⟩
      · rw [if_neg hrecords] at htable
        have hnodes (e : SeanetEID) := hkept (e := e) (if_neg fun hboth => hrecords hboth.2)
          (congrArg (addresses · e) htable)
        exact ⟨htype, htable ▸ ih.resolution, fun e => (hnodes e).1, fun e => (hnodes e).2⟩

/-- In the tree type `SPT` the nearest node is the source of the tree, which has been recorded
first, exactly if no other node has been recorded. -/
theorem findNearestNode_eq_source_iff {config : ι → SwitchConfig}
    (hspt : ∀ i, (config i).treeType = .spt) {trace : List (Net ι M × NetEvent ι)} {net : Net ι M}
    (h : Run Net.Happens (Net.initial config) trace net) {e : SeanetEID} {source : Ipv4Address}
    (hsource : (recorded e trace).head? = some source) (i : ι) :
    findNearestNode (net.switches i) net.tables e = source ↔
      ∀ node ∈ recorded e trace, node = source := by
  have hinv := sourceInv_of_run hspt h
  have hhead := (hinv.head e).trans hsource
  obtain ⟨l, hl⟩ : Registered net.tables.resolutionTable e :=
    registered_of_mem (List.mem_of_head? hhead)
  rw [addresses_of_registered hl] at hhead
  have hmem (a : Ipv4Address) : a ∈ l ↔ a ∈ recorded e trace := by
    rw [← hinv.mem, addresses_of_registered hl]
  have hnodup : l.Nodup := addresses_of_registered hl ▸ hinv.resolution.nodup e
  rw [findNearestNode, hl]
  dsimp only
  rw [if_pos (hinv.treeType i), getLastD_eq_iff hnodup hhead]
  exact forall_congr' fun a => by rw [hmem]

/-- A registration at the DR of the source, for an identifier of zeros. -/
def sourceRegistration : Packet :=
  ⟨.ofTypes multicastApplication registToSourceDR, Vector.replicate eidSize 0, 0⟩

/-- A graft for an identifier of zeros on its way. -/
def passingGraft : Packet :=
  ⟨.ofTypesDst multicastApplication graftingRequest notDst, Vector.replicate eidSize 0, 0⟩

/-- Switches of the tree type `SPT` whose nodes are named by their addresses. -/
def sptConfig (b : UInt32) : SwitchConfig := ⟨.spt, false, [⟨b, 0⟩]⟩

/-- The source is registered at 10.0.0.1. -/
def sourceNet : Net UInt32 PairMap :=
  ((Net.initial sptConfig).start 0x0a000001).receive 0x0a000001 ⟨0x0a000001, 0⟩ 0 sourceRegistration []

def sourceTrace : List (Net UInt32 PairMap × NetEvent UInt32) :=
  [(Net.initial sptConfig, .start 0x0a000001),
    ((Net.initial sptConfig).start 0x0a000001,
      .receive 0x0a000001 ⟨0x0a000001, 0⟩ 0 sourceRegistration [])]

theorem run_sourceNet : Run Net.Happens (Net.initial sptConfig) sourceTrace sourceNet :=
  (Run.nil.snoc (.start 0x0a000001)).snoc (.receive 0 sourceRegistration []
    (by constructor <;> decide))

theorem findNearestNode_eq_source_iff_single :
    findNearestNode (sourceNet.switches 0x0a000002) sourceNet.tables (Vector.replicate eidSize 0) =
      ⟨0x0a000001, 0⟩ ↔
      ∀ node ∈ recorded (Vector.replicate eidSize 0) sourceTrace, node = ⟨0x0a000001, 0⟩ :=
  findNearestNode_eq_source_iff (fun _ => rfl) run_sourceNet (by decide) 0x0a000002

/-- After a graft has passed 10.0.0.2, the nearest node is 10.0.0.2. -/
theorem findNearestNode_ne_source :
    ¬ ∀ (config : UInt32 → SwitchConfig) (trace : List (Net UInt32 PairMap × NetEvent UInt32))
      (net : Net UInt32 PairMap) (e : SeanetEID) (source : Ipv4Address) (i : UInt32),
      (∀ i, (config i).treeType = .spt) → Run Net.Happens (Net.initial config) trace net →
      (recorded e trace).head? = some source →
      findNearestNode (net.switches i) net.tables e = source := by
  intro h
  have hruns : (sourceNet.start 0x0a000002).Runs 0x0a000002 ⟨0x0a000002, 0⟩ := by
    constructor <;> decide
  have hrun := (run_sourceNet.snoc (.start 0x0a000002)).snoc (.receive 1 passingGraft [] hruns)
  have hsource := h sptConfig _ _ (Vector.replicate eidSize 0) ⟨0x0a000001, 0⟩ 0x0a000003
    (fun _ => rfl) hrun (by decide)
  exact absurd hsource (by decide)

end SeanetSim
