import SeanetSim.Applications.SwitchNet

/-!
# The tables of the switches

What the table helpers do to the lists under a key, over any map keyed by the pair (address,
interface), and what `FrontEnd` can do to the tables (`frontEnd_tableEffect`).  The invariant of the
shared tables (`TableInv`) follows for every run of multicast packets (`tableInv_run`).
-/

namespace SeanetSim

open AddressMap SeanetProtocol SwitchApplicationv4

variable {M : Type → Type} [AddressMap M]

/-! ## Lists under a key -/

/-- The identifiers listed under a key; none under a null pointer. -/
def castList (table : CastTable M) (k : Ipv4Address) : List SeanetEID :=
  match find table k with
  | some (some l) => l
  | _ => []

/-- The addresses an identifier resolves to. -/
def addresses (table : ResolutionTable) (e : SeanetEID) : List Ipv4Address :=
  match table e with
  | some (some l) => l
  | _ => []

/-- The identifier has a list of addresses. -/
def Registered (table : ResolutionTable) (e : SeanetEID) : Prop := ∃ l, table e = some (some l)

theorem checkDuplicate_iff {l : List SeanetEID} {b : SeanetEID} :
    checkDuplicate l b = true ↔ b ∈ l := by
  simp [checkDuplicate, List.any_eq_true]

section PairKeyed

variable [PairKeyed M]

theorem castList_store (table : CastTable M) (a k : Ipv4Address) (o : Option (List SeanetEID)) :
    castList (store table a o) k = if k = a then o.getD [] else castList table k := by
  unfold castList
  rw [PairKeyed.find_store]
  by_cases h : k = a
  · rw [if_pos h, if_pos h]
    cases o <;> rfl
  · rw [if_neg h, if_neg h]

theorem castList_addCastTable (table : CastTable M) (a : Ipv4Address) (b : SeanetEID)
    (k : Ipv4Address) :
    castList (addCastTable table a b) k =
      if k = a ∧ b ∉ castList table a then castList table a ++ [b] else castList table k := by
  have hlist : castList table a = match find table a with | some (some l) => l | _ => [] := rfl
  unfold addCastTable
  rcases hf : find table a with _ | _ | l <;> rw [hf] at hlist <;> dsimp only at hlist ⊢
  · rw [castList_store, hlist]
    simp
  · rw [castList_store, hlist]
    simp
  · split_ifs with hdup hk hk
    · exact absurd (checkDuplicate_iff.1 hdup) (hlist ▸ hk.2)
    · rfl
    · rw [castList_store, if_pos hk.1, hlist]
      rfl
    · rw [checkDuplicate_iff, ← hlist] at hdup
      rw [castList_store, if_neg fun h => hk ⟨h, hdup⟩]

theorem mem_castList_addCastTable {table : CastTable M} {a k : Ipv4Address} {b e : SeanetEID} :
    e ∈ castList (addCastTable table a b) k ↔ e ∈ castList table k ∨ (k = a ∧ e = b) := by
  rw [castList_addCastTable]
  split_ifs with h
  · obtain ⟨rfl, hb⟩ := h
    simp
  · constructor
    · exact .inl
    · rintro (he | ⟨rfl, rfl⟩)
      · exact he
      · exact not_not.1 fun he => h ⟨rfl, he⟩

theorem nodup_addCastTable {table : CastTable M} (h : ∀ k, (castList table k).Nodup)
    (a : Ipv4Address) (b : SeanetEID) (k : Ipv4Address) :
    (castList (addCastTable table a b) k).Nodup := by
  rw [castList_addCastTable]
  split_ifs with hk
  · rw [List.nodup_append]
    refine ⟨h a, List.nodup_singleton b, ?_⟩
    rintro x hx y hy rfl
    exact hk.2 (List.mem_singleton.1 hy ▸ hx)
  · exact h k

/-- An identifier is listed under both keys, and nothing else changes. -/
theorem mem_castList_addBoth {table : CastTable M} {a k : Ipv4Address} {b e : SeanetEID} :
    e ∈ castList (addBoth table a b) k ↔
      e ∈ castList table k ∨ (e = b ∧ (k = a ∨ k = a.setInterfaceNum 0)) := by
  rw [addBoth, mem_castList_addCastTable, mem_castList_addCastTable]
  tauto

theorem nodup_addBoth {table : CastTable M} (h : ∀ k, (castList table k).Nodup) (a : Ipv4Address)
    (b : SeanetEID) (k : Ipv4Address) : (castList (addBoth table a b) k).Nodup :=
  nodup_addCastTable (nodup_addCastTable h a b) _ b k

end PairKeyed

/-! ## Resolution -/

/-- Addresses in the resolution table: never a null or an empty list, all of interface 0, none
twice. -/
structure ResolutionInv (table : ResolutionTable) : Prop where
  not_null : ∀ e, table e ≠ some none
  ne_nil : ∀ e l, table e = some (some l) → l ≠ []
  interface : ∀ e, ∀ a ∈ addresses table e, a.interfaceNum = 0
  nodup : ∀ e, (addresses table e).Nodup

theorem resolutionInv_empty : ResolutionInv fun _ => none where
  not_null := by simp
  ne_nil := by simp
  interface := by simp [addresses]
  nodup := by simp [addresses]

theorem addresses_of_registered {table : ResolutionTable} {e : SeanetEID} {l : List Ipv4Address}
    (h : table e = some (some l)) : addresses table e = l := by
  rw [addresses, h]

theorem registered_of_mem {table : ResolutionTable} {e : SeanetEID} {a : Ipv4Address}
    (h : a ∈ addresses table e) : Registered table e := by
  unfold addresses at h
  split at h
  · next l hl => exact ⟨l, hl⟩
  · exact absurd h List.not_mem_nil

theorem addresses_update (table : ResolutionTable) (e e' : SeanetEID) (l : List Ipv4Address) :
    addresses (Function.update table e (some (some l))) e' =
      if e' = e then l else addresses table e' := by
  unfold addresses
  by_cases h : e' = e
  · subst h
    simp
  · rw [Function.update_of_ne h, if_neg h]

/-- In a table of interface-0 addresses, the address is appended when it is not listed yet. -/
theorem addresses_addEIDNAINFO {table : ResolutionTable} (h : ResolutionInv table)
    (e e' : SeanetEID)
    (a : Ipv4Address) :
    addresses (addEIDNAINFO table e a) e' =
      if e' = e ∧ a.setInterfaceNum 0 ∉ addresses table e
      then addresses table e ++ [a.setInterfaceNum 0] else addresses table e' := by
  unfold addEIDNAINFO
  rcases he : table e with _ | _ | l
  · have hnil : addresses table e = [] := by rw [addresses, he]
    simp only [addresses_update, hnil]
    simp
  · exact absurd he (h.not_null e)
  · have hl := addresses_of_registered he
    have hany : (l.any fun x => x.same (a.setInterfaceNum 0)) = true ↔ a.setInterfaceNum 0 ∈ l := by
      rw [List.any_eq_true]
      constructor
      · rintro ⟨x, hx, hs⟩
        have hx0 := h.interface e x (hl ▸ hx)
        rwa [← Ipv4Address.ext (x := x) (Ipv4Address.same_iff.1 hs) hx0]
      · exact fun hx => ⟨_, hx, Ipv4Address.same_iff.2 rfl⟩
    dsimp only
    split_ifs with h₁ h₂ h₂
    · exact absurd (hany.1 h₁) (hl ▸ h₂.2)
    · rfl
    · rw [addresses_update, if_pos h₂.1, hl]
    · rw [addresses_update, if_neg fun h' => h₂ ⟨h', hl ▸ fun hx => h₁ (hany.2 hx)⟩]

theorem mem_addresses_addEIDNAINFO {table : ResolutionTable} (h : ResolutionInv table)
    {e e' : SeanetEID} {a x : Ipv4Address} :
    x ∈ addresses (addEIDNAINFO table e a) e' ↔
      x ∈ addresses table e' ∨ (e' = e ∧ x = a.setInterfaceNum 0) := by
  rw [addresses_addEIDNAINFO h]
  split_ifs with hc
  · obtain ⟨rfl, -⟩ := hc
    simp
  · constructor
    · exact .inl
    · rintro (hx | ⟨rfl, rfl⟩)
      · exact hx
      · exact not_not.1 fun hx => hc ⟨rfl, hx⟩

/-- The identifiers with a list are those that had one and the one just added. -/
theorem addEIDNAINFO_apply {table : ResolutionTable} (h : ResolutionInv table) (e e' : SeanetEID)
    (a : Ipv4Address) :
    addEIDNAINFO table e a e' =
      if e' = e then some (some (addresses (addEIDNAINFO table e a) e)) else table e' := by
  unfold addEIDNAINFO
  rcases he : table e with _ | _ | l
  · simp [Function.update_apply, addresses_update]
  · exact absurd he (h.not_null e)
  · dsimp only
    split_ifs with h₁ h₂ h₂
    · rw [h₂, he, addresses_of_registered he]
    · rfl
    · simp [addresses_update, h₂]
    · rw [Function.update_of_ne h₂]

theorem ResolutionInv.addEIDNAINFO {table : ResolutionTable} (h : ResolutionInv table)
    (e : SeanetEID) (a : Ipv4Address) :
    ResolutionInv (SwitchApplicationv4.addEIDNAINFO table e a) where
  not_null := by
    intro e'
    rw [addEIDNAINFO_apply h]
    split_ifs
    · simp
    · exact h.not_null e'
  ne_nil := by
    intro e' l hl
    rw [addEIDNAINFO_apply h] at hl
    split_ifs at hl with hee
    · obtain rfl : addresses (SwitchApplicationv4.addEIDNAINFO table e a) e = l := by simpa using hl
      exact List.ne_nil_of_mem ((mem_addresses_addEIDNAINFO h).2 (.inr ⟨rfl, rfl⟩))
    · exact h.ne_nil e' l hl
  interface := by
    intro e' x hx
    rcases (mem_addresses_addEIDNAINFO h).1 hx with hx | ⟨-, rfl⟩
    · exact h.interface e' x hx
    · rfl
  nodup := by
    intro e'
    rw [addresses_addEIDNAINFO h]
    split_ifs with hc
    · rw [List.nodup_append]
      refine ⟨h.nodup e, List.nodup_singleton _, ?_⟩
      rintro x hx y hy rfl
      exact hc.2 (List.mem_singleton.1 hy ▸ hx)
    · exact h.nodup e'

/-! ## Effect of a packet on the tables -/

/-- What handling `pkt` may do to the multicast and the resolution table: nothing; list the
identifier under the switch; also make the switch an address of the identifier; or, for stored
data, only the latter. -/
inductive TableEffect (T : Tables M) (self : Ipv4Address) (pkt : Packet) :
    CastTable M → ResolutionTable → Prop
  | unchanged : TableEffect T self pkt T.multicastTable T.resolutionTable
  | listed (h : pkt.header.applicationType = multicastApplication) :
      TableEffect T self pkt
        (addBoth T.multicastTable (self.setInterfaceNum pkt.header.interfaceNum.toUInt32) pkt.eid)
        T.resolutionTable
  | anchored (h : pkt.header.applicationType = multicastApplication) :
      TableEffect T self pkt
        (addBoth T.multicastTable (self.setInterfaceNum pkt.header.interfaceNum.toUInt32) pkt.eid)
        (addEIDNAINFO T.resolutionTable pkt.eid
          (self.setInterfaceNum pkt.header.interfaceNum.toUInt32))
  | stored (h : pkt.header.applicationType = switchApplication) :
      TableEffect T self pkt T.multicastTable (addEIDNAINFO T.resolutionTable pkt.eid self)

theorem frontEnd_tableEffect (sw : SwitchApplicationv4 M) (T : Tables M) (self : Ipv4Address)
    (now : Time) (pkt : Packet) (source : Address) :
    TableEffect T self pkt (frontEnd sw T self now pkt source).tables.multicastTable
      (frontEnd sw T self now pkt source).tables.resolutionTable := by
  unfold frontEnd
  dsimp only
  split_ifs with hdst hm hs hn hm
  · unfold transitHandle
    split_ifs
    · exact .unchanged
    · exact .anchored hm
    · exact .unchanged
  · exact .unchanged
  · unfold switchProtocolHandle requestDataHandle receiveDataHandle
    split_ifs
    · exact .unchanged
    · exact .unchanged
    · exact .stored hs
    · exact .unchanged
  · unfold neigthInfoProtocolHandle
    dsimp only
    split_ifs <;> exact .unchanged
  · unfold multicastHandle registToSourceDRHandle registToRNHandle graftingRequestHandle
      registToDestDRHandle
    dsimp only
    split_ifs
    · exact .anchored hm
    · exact .unchanged
    · exact .anchored hm
    · exact .listed hm
    · exact .listed hm
    · exact .unchanged
  · exact .unchanged

/-! ## Invariant of the shared tables -/

/-- No identifier is listed twice under a key; interface 0 of an address lists what its other
interfaces list; no identifier resolves to an address twice, or to one of another interface than
0; and an address an identifier resolves to lists that identifier. -/
structure TableInv (multicast : CastTable M) (resolution : ResolutionTable) : Prop where
  multicast_nodup : ∀ k, (castList multicast k).Nodup
  multicast_aggregate : ∀ k, ∀ e ∈ castList multicast k,
    e ∈ castList multicast (k.setInterfaceNum 0)
  resolution_nodup : ∀ e, (addresses resolution e).Nodup
  resolution_interface : ∀ e, ∀ a ∈ addresses resolution e, a.interfaceNum = 0
  resolution_listed : ∀ e, ∀ a ∈ addresses resolution e,
    e ∈ castList multicast (a.setInterfaceNum 0)

/-- The invariant that a step keeps: `TableInv`, with no null or empty list of addresses. -/
structure TableInvStrong (multicast : CastTable M) (resolution : ResolutionTable) : Prop
    extends TableInv multicast resolution where
  resolution : ResolutionInv resolution

section PairKeyed

variable [PairKeyed M]

/-- Listing an identifier under a switch keeps the lists free of duplicates and aggregated. -/
theorem aggregate_addBoth {table : CastTable M}
    (h : ∀ k, ∀ e ∈ castList table k, e ∈ castList table (k.setInterfaceNum 0)) (a : Ipv4Address)
    (b : SeanetEID) :
    ∀ k, ∀ e ∈ castList (addBoth table a b) k,
      e ∈ castList (addBoth table a b) (k.setInterfaceNum 0) := by
  intro k e he
  rw [mem_castList_addBoth] at he ⊢
  rcases he with he | ⟨rfl, rfl | rfl⟩
  · exact .inl (h k e he)
  · exact .inr ⟨rfl, .inr rfl⟩
  · exact .inr ⟨rfl, .inr rfl⟩

theorem TableInvStrong.of_effect {T : Tables M} {self : Ipv4Address} {pkt : Packet}
    {multicast : CastTable M} {resolution : ResolutionTable}
    (h : TableInvStrong T.multicastTable T.resolutionTable)
    (happ : pkt.header.applicationType = multicastApplication)
    (heff : TableEffect T self pkt multicast resolution) : TableInvStrong multicast resolution := by
  cases heff with
  | unchanged => exact h
  | listed _ =>
    refine ⟨⟨nodup_addBoth h.multicast_nodup _ _, aggregate_addBoth h.multicast_aggregate _ _,
      h.resolution_nodup, h.resolution_interface, ?_⟩, h.resolution⟩
    intro e a ha
    exact mem_castList_addBoth.2 (.inl (h.resolution_listed e a ha))
  | anchored _ =>
    have hres := h.resolution.addEIDNAINFO pkt.eid
      (self.setInterfaceNum pkt.header.interfaceNum.toUInt32)
    refine ⟨⟨nodup_addBoth h.multicast_nodup _ _, aggregate_addBoth h.multicast_aggregate _ _,
      hres.nodup, hres.interface, ?_⟩, hres⟩
    intro e a ha
    rw [mem_castList_addBoth]
    rcases (mem_addresses_addEIDNAINFO h.resolution).1 ha with ha | ⟨rfl, rfl⟩
    · exact .inl (h.resolution_listed e a ha)
    · exact .inr ⟨rfl, .inr rfl⟩
  | stored hs => exact absurd (happ.symm.trans hs) (by decide)

/-- Switches that have only started have listed nothing. -/
theorem tableInvStrong_of_started {ι : Type*} [DecidableEq ι] {net : Net ι M}
    (hnet : net ∈ Net.Started) :
    TableInvStrong net.tables.multicastTable net.tables.resolutionTable := by
  have hempty : (∀ k, castList net.tables.multicastTable k = []) ∧
      net.tables.resolutionTable = fun _ => none := by
    apply hnet.invariant (I := fun net => (∀ k, castList net.tables.multicastTable k = []) ∧
      net.tables.resolutionTable = fun _ => none)
    · rintro _ ⟨config, rfl⟩
      refine ⟨fun k => ?_, rfl⟩
      simp [castList, Net.initial, PairKeyed.find_empty]
    · rintro net _ ⟨hlist, hres⟩ ⟨i⟩
      unfold Net.start startApplication
      dsimp only
      split_ifs
      · exact ⟨hlist, hres⟩
      · split
        · exact ⟨hlist, hres⟩
        · refine ⟨fun k => ?_, hres⟩
          rw [castList_store, hlist k]
          simp
  obtain ⟨hlist, hres⟩ := hempty
  have haddr : ∀ e, addresses net.tables.resolutionTable e = [] := fun e => by rw [hres]; rfl
  exact ⟨⟨by simp [hlist], by simp [hlist], by simp [haddr], by simp [haddr], by simp [haddr]⟩,
    hres ▸ resolutionInv_empty⟩

/-- The tables satisfy the invariant after any run of multicast packets, in any order and with any
destination mark and interface, handled by any switches after they have started. -/
theorem tableInv_run {ι : Type*} [DecidableEq ι] {net : Net ι M}
    (hnet : Reachable Net.Started
      (Net.Receive fun pkt => pkt.header.applicationType = multicastApplication) net) :
    TableInv net.tables.multicastTable net.tables.resolutionTable := by
  refine (hnet.invariant (I := fun net =>
    TableInvStrong net.tables.multicastTable net.tables.resolutionTable) ?_ ?_).toTableInv
  · exact fun net h => tableInvStrong_of_started h
  · rintro net _ h ⟨now, source, -, happ⟩
    exact h.of_effect happ (frontEnd_tableEffect _ _ _ _ _ _)

end PairKeyed

/-- A registration for an identifier of zeros, as it arrives at its root node. -/
def registration : Packet :=
  ⟨.ofTypes multicastApplication registToRN, Vector.replicate eidSize 0, 0⟩

theorem tableInv_registration :
    TableInv ((Net.lone 0x0a000001).receive 0x0a000001 ⟨0x0a000001, 0⟩ 0 registration []
        ).tables.multicastTable
      ((Net.lone 0x0a000001).receive 0x0a000001 ⟨0x0a000001, 0⟩ 0 registration []
        ).tables.resolutionTable :=
  tableInv_run ((Reachable.of_init (Net.lone_mem_started _)).tail (.mk 0 [] Net.runs_lone rfl))

end SeanetSim
