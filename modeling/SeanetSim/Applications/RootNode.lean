import SeanetSim.Applications.SwitchTables
import SeanetSim.Lib.Selection

/-!
# Root nodes

A DR chooses the root node among the keys of its delay table.  A delay is only recorded for a key of
the multicast table, and those are addresses of switches that have started or handled a packet
(`RootInv`), so the registrations a DR sends go to running switches (`rootNode_runs`).  This holds
with the hash map of the code too: it may confuse the interfaces of an address, but it finds a value
only under a key of the same address.
-/

namespace SeanetSim

open AddressMap SeanetProtocol SwitchApplicationv4

variable {ι : Type*} [DecidableEq ι] {M : Type → Type} [AddressMap M]

/-- A `REGIST_TO_RN`. -/
def Datagram.IsRegistToRN (d : Datagram) : Prop :=
  d.header.applicationType = multicastApplication ∧ d.header.protocolType = registToRN

/-- A writer's registration, arrived at its DR. -/
def Packet.IsRegistToSourceDR (pkt : Packet) : Prop :=
  pkt.header.applicationType = multicastApplication ∧ pkt.header.dst ≠ notDst ∧
    pkt.header.protocolType = registToSourceDR

/-! ## The choice -/

/-- The loop of `GetRootNode` keeps the best key by score. -/
theorem foldl_score_eq_keepBest (score : Ipv4Address → ℕ) (l : List (Ipv4Address × Time))
    (selected : Ipv4Address × ℕ) :
    l.foldl (fun selected it => if score it.1 ≤ selected.2 then (it.1, score it.1) else selected)
        selected =
      (l.map Prod.fst).foldl (keepBest (· ≤ ·) fun k => some (score k)) selected := by
  rw [List.foldl_map]
  rfl

/-- The root node is a key of the delay table, or the switch itself when the table is empty. -/
theorem getRootNode_mem (sw : SwitchApplicationv4 M) (T : Tables M) (self : Ipv4Address) :
    getRootNode sw T self = self ∨
      ∃ it ∈ toList sw.delayTable, it.1 = getRootNode sw T self := by
  unfold getRootNode
  split
  · exact .inl rfl
  · next e l hl =>
    right
    rw [hl, foldl_score_eq_keepBest]
    rcases foldl_keepBest_mem (· ≤ ·) (fun k => some (getSwitchSocre T k))
        ((e :: l).map Prod.fst) (e.1, 10000) with h | ⟨k, hk, d, -, -, h⟩
    · exact ⟨e, List.mem_cons_self .., by rw [h]⟩
    · obtain ⟨it, hit, rfl⟩ := List.mem_map.1 hk
      exact ⟨it, hit, by rw [h]⟩

/-! ## Effect of a packet -/

theorem frontEnd_delayTable (sw : SwitchApplicationv4 M) (T : Tables M) (self : Ipv4Address)
    (now : Time) (pkt : Packet) (source : Address) :
    (frontEnd sw T self now pkt source).sw.delayTable = sw.delayTable ∨
      (find T.multicastTable (.deserialize source)).isSome ∧ ∃ d,
        (frontEnd sw T self now pkt source).sw.delayTable =
          store sw.delayTable (.deserialize source) d := by
  unfold frontEnd
  dsimp only
  split_ifs
  · unfold transitHandle
    split_ifs <;> exact .inl rfl
  · exact .inl rfl
  · unfold switchProtocolHandle requestDataHandle receiveDataHandle addEIDTable
    split_ifs <;> exact .inl rfl
  · unfold neigthInfoProtocolHandle
    dsimp only
    split_ifs with h₁ h₂ hfind
    · exact .inl rfl
    · exact .inr ⟨hfind, _, rfl⟩
    · exact .inl rfl
    · exact .inl rfl
  · unfold multicastHandle registToSourceDRHandle registToRNHandle graftingRequestHandle
      registToDestDRHandle
    dsimp only
    split_ifs <;> exact .inl rfl
  · exact .inl rfl

theorem not_isRegistToRN_neighInfoReply (now : Time) (dst : Address) :
    ¬ (SwitchApplicationv4.neighInfoReply now dst).IsRegistToRN := by
  rintro ⟨happ, -⟩
  exact absurd (show neighInfoApplication = multicastApplication from happ) (by decide)

theorem not_isRegistToRN_sendPacket (e : SeanetEID) {header : SeanetHeader} (dst : Address)
    (h : header.applicationType ≠ multicastApplication ∨ header.protocolType ≠ registToRN) :
    ¬ (sendPacket e header dst).IsRegistToRN := by
  rintro ⟨happ, hproto⟩
  rcases h with h | h
  · exact h happ
  · exact h hproto

/-- A `REGIST_TO_RN` goes to the root node that the switch chooses. -/
theorem dest_of_isRegistToRN {sw : SwitchApplicationv4 M} {T : Tables M} {self : Ipv4Address}
    {now : Time} {pkt : Packet} {source : Address} {d : Datagram}
    (hd : d ∈ (frontEnd sw T self now pkt source).sent) (hrn : d.IsRegistToRN) :
    d.dest = (chooseRN sw T self
      (self.setInterfaceNum pkt.header.interfaceNum.toUInt32)).setInterfaceNum 0 := by
  unfold frontEnd at hd
  dsimp only at hd
  split_ifs at hd
  · unfold transitHandle at hd
    split_ifs at hd <;> simp only [List.not_mem_nil, List.mem_singleton] at hd
    exact absurd (hd ▸ hrn) (not_isRegistToRN_neighInfoReply now source)
  · simp at hd
  · unfold switchProtocolHandle requestDataHandle receiveDataHandle at hd
    split_ifs at hd <;> simp only [List.not_mem_nil, List.mem_singleton] at hd
    exact absurd (hd ▸ hrn) (not_isRegistToRN_sendPacket _ _ (.inl (by decide)))
  · unfold neigthInfoProtocolHandle at hd
    dsimp only at hd
    split_ifs at hd <;> simp only [List.not_mem_nil, List.mem_singleton] at hd
    exact absurd (hd ▸ hrn) (not_isRegistToRN_neighInfoReply now source)
  · unfold multicastHandle registToSourceDRHandle registToRNHandle graftingRequestHandle
      registToDestDRHandle at hd
    dsimp only at hd
    split_ifs at hd <;> simp only [List.not_mem_nil, List.mem_cons, or_false] at hd
    · rw [hd]
      exact Ipv4Address.deserialize_serialize _
    · exact absurd (hd ▸ hrn) (not_isRegistToRN_neighInfoReply now _)
    · rcases hd with hd | hd
      · exact absurd (hd ▸ hrn) (not_isRegistToRN_sendPacket _ _ (.inr (by decide)))
      · exact absurd (hd ▸ hrn) (not_isRegistToRN_neighInfoReply now source)
    · exact absurd (hd ▸ hrn) (not_isRegistToRN_sendPacket _ _ (.inr (by decide)))
  · simp at hd

theorem frontEnd_registToSourceDR {sw : SwitchApplicationv4 M} {T : Tables M} {self : Ipv4Address}
    {now : Time} {pkt : Packet} {source : Address} (h : pkt.IsRegistToSourceDR) :
    frontEnd sw T self now pkt source = registToSourceDRHandle sw T self
      (self.setInterfaceNum pkt.header.interfaceNum.toUInt32) pkt.eid := by
  obtain ⟨happ, hdst, hproto⟩ := h
  rw [frontEnd, if_neg hdst, if_neg (by rw [happ]; decide), if_neg (by rw [happ]; decide),
    if_pos happ, multicastHandle, if_pos hproto]

theorem key_of_mem_addCastTable [AddressKeyed M] {table : CastTable M} {a : Ipv4Address}
    {b : SeanetEID} {e : Ipv4Address × Option (List SeanetEID)}
    (h : e ∈ toList (addCastTable table a b)) : e.1 = a ∨ ∃ w, (e.1, w) ∈ toList table := by
  unfold addCastTable at h
  split at h
  · exact AddressKeyed.key_of_mem_store h
  · exact AddressKeyed.key_of_mem_store h
  · split_ifs at h
    · exact .inr ⟨e.2, h⟩
    · exact AddressKeyed.key_of_mem_store h

/-- Listing an identifier adds keys of the address it is listed under only. -/
theorem key_of_mem_addBoth [AddressKeyed M] {table : CastTable M} {a : Ipv4Address} {b : SeanetEID}
    {e : Ipv4Address × Option (List SeanetEID)} (h : e ∈ toList (addBoth table a b)) :
    e.1.address = a.address ∨ ∃ w, (e.1, w) ∈ toList table := by
  rcases key_of_mem_addCastTable h with h | ⟨w, h⟩
  · exact .inl (by rw [h, Ipv4Address.setInterfaceNum_address])
  · rcases key_of_mem_addCastTable h with h | h
    · exact .inl (congrArg Ipv4Address.address h)
    · exact .inr h

theorem TableEffect.key_mem [AddressKeyed M] {T : Tables M} {self : Ipv4Address} {pkt : Packet}
    {multicast : CastTable M} {resolution : ResolutionTable}
    (heff : TableEffect T self pkt multicast resolution) {e : Ipv4Address × Option (List SeanetEID)}
    (he : e ∈ toList multicast) :
    e.1.address = self.address ∨ ∃ w, (e.1, w) ∈ toList T.multicastTable := by
  cases heff with
  | unchanged => exact .inr ⟨e.2, he⟩
  | listed _ =>
    have hkey := key_of_mem_addBoth he
    rwa [Ipv4Address.setInterfaceNum_address] at hkey
  | anchored _ =>
    have hkey := key_of_mem_addBoth he
    rwa [Ipv4Address.setInterfaceNum_address] at hkey
  | stored _ => exact .inr ⟨e.2, he⟩

/-! ## Invariant -/

/-- Switches know themselves by interface-0 addresses; every key of the multicast table is an
address of a running switch, on some interface; and every key of a delay table is the address by
which a running switch knows itself. -/
structure RootInv (net : Net ι M) : Prop where
  localAddress : ∀ i self, (net.switches i).localAddress = some self → self.interfaceNum = 0
  multicast : ∀ e ∈ toList net.tables.multicastTable, ∃ j, net.Runs j (e.1.setInterfaceNum 0)
  delay : ∀ i, ∀ e ∈ toList (net.switches i).delayTable, ∃ j, net.Runs j e.1

section AddressKeyed

variable [AddressKeyed M]

omit [DecidableEq ι] in
theorem rootInv_initial (config : ι → SwitchConfig) : RootInv (Net.initial (M := M) config) where
  localAddress i self h := nomatch h
  multicast e he := by
    rw [Net.initial, AddressKeyed.toList_empty] at he
    exact absurd he List.not_mem_nil
  delay i e he := by
    have he : e ∈ toList (empty : M Time) := he
    rw [AddressKeyed.toList_empty] at he
    exact absurd he List.not_mem_nil

theorem RootInv.start {net : Net ι M} (h : RootInv net) (i : ι) : RootInv (net.start i) where
  localAddress j self hj := by
    rcases Net.localAddress_start hj with hj | ⟨addri, -, rfl⟩
    · exact h.localAddress j self hj
    · rfl
  multicast e he := by
    have hold : (∃ w, (e.1, w) ∈ toList net.tables.multicastTable) →
        ∃ j, (net.start i).Runs j (e.1.setInterfaceNum 0) := by
      rintro ⟨w, hw⟩
      obtain ⟨j, hj⟩ := h.multicast _ hw
      exact ⟨j, hj.start i⟩
    rcases net.start_cases i with hs | ⟨-, hs | ⟨addri, -, hs⟩⟩
    · exact hold ⟨e.2, by rwa [hs] at he⟩
    · exact hold ⟨e.2, by rwa [hs] at he⟩
    · rw [hs] at he
      rcases AddressKeyed.key_of_mem_store he with hk | hw
      · refine ⟨i, ?_⟩
        rw [hs, hk, ← Ipv4Address.viaAddress_eq]
        simp [Net.Runs]
      · exact hold hw
  delay j e he := by
    rw [Net.start_delayTable] at he
    obtain ⟨k, hk⟩ := h.delay j e he
    exact ⟨k, hk.start i⟩

theorem RootInv.receive {net : Net ι M} (h : RootInv net) {i : ι} {self : Ipv4Address}
    (hi : net.Runs i self) (now : Time) (pkt : Packet) (source : Address) :
    RootInv (net.receive i self now pkt source) where
  localAddress j self' hj := by
    rw [Net.receive_localAddress] at hj
    exact h.localAddress j self' hj
  multicast e he := by
    simp only [Net.runs_receive]
    rcases (frontEnd_tableEffect (net.switches i) net.tables self now pkt source).key_mem he with
      haddr | ⟨w, hw⟩
    · have hself : e.1.setInterfaceNum 0 = self :=
        Ipv4Address.ext haddr (h.localAddress i self hi.2).symm
      exact ⟨i, hself ▸ hi⟩
    · exact h.multicast (e.1, w) hw
  delay j e he := by
    simp only [Net.runs_receive]
    by_cases hji : j = i
    · subst hji
      have he : e ∈ toList
          ((net.switches j).frontEnd net.tables self now pkt source).sw.delayTable := by
        simpa [Net.receive] using he
      rcases frontEnd_delayTable (net.switches j) net.tables self now pkt source with
        hd | ⟨hfind, d, hd⟩ <;> rw [hd] at he
      · exact h.delay j e he
      · rcases AddressKeyed.key_of_mem_store he with hk | ⟨w, hw⟩
        · -- the sender has a key in the multicast table, so it is a running switch
          obtain ⟨v, hv⟩ := Option.isSome_iff_exists.1 hfind
          obtain ⟨k, haddr, hmem⟩ := AddressKeyed.mem_of_find hv
          have hkey : k.setInterfaceNum 0 = e.1 := by
            rw [hk]
            exact Ipv4Address.ext haddr rfl
          exact hkey ▸ h.multicast _ hmem
        · exact h.delay j (e.1, w) hw
    · exact h.delay j e (by simpa [Net.receive, Function.update_of_ne hji] using he)

theorem rootInv_reachable {net : Net ι M} (hnet : Reachable Net.Init Net.Step net) :
    RootInv net := by
  apply hnet.invariant
  · rintro _ ⟨config, rfl⟩
    exact rootInv_initial config
  · rintro net _ h (⟨⟨i⟩⟩ | ⟨now, source, hi, -⟩)
    · exact h.start i
    · exact h.receive hi now _ source

omit [DecidableEq ι] [AddressKeyed M] in
/-- The root node a switch of the tree type `Seanet` chooses is a running switch. -/
theorem RootInv.chooseRN_runs {net : Net ι M} (h : RootInv net) {i : ι} {self : Ipv4Address}
    (hi : net.Runs i self) (htree : (net.switches i).treeType = .seanet) (i4a : Ipv4Address) :
    ∃ j, net.Runs j ((chooseRN (net.switches i) net.tables self i4a).setInterfaceNum 0) := by
  rw [chooseRN, htree]
  dsimp only
  rcases getRootNode_mem (net.switches i) net.tables self with hself | ⟨it, hit, hkey⟩
  · rw [hself, Ipv4Address.setInterfaceNum_self (h.localAddress i self hi.2)]
    exact ⟨i, hi⟩
  · obtain ⟨j, hj⟩ := h.delay i it hit
    rw [← hkey, Ipv4Address.setInterfaceNum_self (h.localAddress j it.1 hj.2)]
    exact ⟨j, hj⟩

/-- In every reachable state the keys of the delay tables are the local addresses of running
switches, and the registrations a running switch of the tree type `Seanet` sends go to running
switches.  A writer's registration makes the DR send one, or is carried out at the DR because the
root node is the DR itself. -/
theorem rootNode_runs {net : Net ι M} (hnet : Reachable Net.Init Net.Step net) :
    (∀ i, ∀ e ∈ toList (net.switches i).delayTable, ∃ j, net.Runs j e.1) ∧
      ∀ i self, net.Runs i self → (net.switches i).treeType = .seanet →
        ∀ (now : Time) (pkt : Packet) (source : Address),
          (∀ d ∈ net.sentBy i self now pkt source, d.IsRegistToRN → ∃ j, net.Runs j d.dest) ∧
          (pkt.IsRegistToSourceDR →
            (∃ d, net.sentBy i self now pkt source = [d] ∧ d.IsRegistToRN ∧
              d.payload = .eid pkt.eid) ∨
            (getRootNode (net.switches i) net.tables self).same self = true ∧
              (net.receive i self now pkt source).tables = regist net.tables
                (self.setInterfaceNum pkt.header.interfaceNum.toUInt32) pkt.eid) := by
  have hinv := rootInv_reachable hnet
  refine ⟨hinv.delay, fun i self hi htree now pkt source => ⟨fun d hd hrn => ?_, fun h => ?_⟩⟩
  · rw [dest_of_isRegistToRN hd hrn]
    exact hinv.chooseRN_runs hi htree _
  · rw [Net.sentBy, Net.receive, frontEnd_registToSourceDR h, registToSourceDRHandle]
    dsimp only
    split_ifs with hself
    · rw [chooseRN, htree] at hself
      exact .inr ⟨hself, rfl⟩
    · exact .inl ⟨_, rfl, ⟨rfl, rfl⟩, rfl⟩

end AddressKeyed

/-- 10.0.0.1 has measured the delay to 10.0.0.2. -/
def measuredNet : Net UInt32 PairMap :=
  ((Net.lone 0x0a000001).start 0x0a000002).receive 0x0a000001 ⟨0x0a000001, 0⟩ 3
    ⟨.ofTypesDst neighInfoApplication SeanetProtocol.neighInfoReply isDst,
      Vector.replicate eidSize 0, 1⟩
    [10, 0, 0, 2]

theorem reachable_measuredNet : Reachable Net.Init Net.Step measuredNet := by
  have hstarted := (Net.Started.reachable (Net.lone_mem_started 0x0a000001)).tail
    (.inl (.mk 0x0a000002))
  exact hstarted.tail (.inr (.mk 3 [10, 0, 0, 2] (by constructor <;> decide) trivial))

/-- A writer's registration at 10.0.0.1 goes to 10.0.0.2, which runs. -/
theorem rootNode_runs_measuredNet : ∃ j, measuredNet.Runs j ⟨0x0a000002, 0⟩ := by
  have hsent : measuredNet.sentBy 0x0a000001 ⟨0x0a000001, 0⟩ 4
      ⟨.ofTypes multicastApplication registToSourceDR, Vector.replicate eidSize 0, 0⟩ [] =
      [⟨.ofTypes multicastApplication registToRN, .eid (Vector.replicate eidSize 0),
        ⟨0x0a000002, 0⟩⟩] := by decide
  obtain ⟨hruns, -⟩ := (rootNode_runs reachable_measuredNet).2 0x0a000001 ⟨0x0a000001, 0⟩
    (by constructor <;> decide) (by decide) 4
    ⟨.ofTypes multicastApplication registToSourceDR, Vector.replicate eidSize 0, 0⟩ []
  exact hruns _ (hsent ▸ List.mem_singleton_self _) ⟨rfl, rfl⟩

end SeanetSim
