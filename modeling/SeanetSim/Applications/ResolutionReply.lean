import SeanetSim.Applications.ResolutionApplication
import SeanetSim.Applications.SwitchNet
import SeanetSim.Lib.Selection

/-!
# Receivers of resolution replies

Two receivers of the packets of `ResolutionApplication`.  `StorageClientApplicationv4` takes the
byte behind the identifier for the number of addresses and reads the first address one byte early;
`requests_first_iff` says when it still asks the first registered address for data.
`SwitchApplicationv4` reads the format right but starts its search for the nearest address anew with
every packet; `grafts_nearest_iff` says when it still grafts to the nearest of all addresses.
-/

namespace SeanetSim

open SeanetProtocol ResolutionApplicationv4

/-! ## The last packet -/

/-- The addresses in the last packet of a reply. -/
def lastBatch (l : List AddressBuffer) : List AddressBuffer := l.drop (10 * ((l.length - 1) / 10))

theorem lastBatch_of_length_le {l : List AddressBuffer} (h : l.length ≤ 10) : lastBatch l = l := by
  unfold lastBatch
  have hzero : (l.length - 1) / 10 = 0 := by omega
  rw [hzero]
  rfl

theorem lastBatch_append {batch l : List AddressBuffer} (hlen : batch.length = 10) (hne : l ≠ []) :
    lastBatch (batch ++ l) = lastBatch l := by
  have hpos := List.length_pos_iff.2 hne
  unfold lastBatch
  have hindex :
      10 * (((batch ++ l).length - 1) / 10) = batch.length + 10 * ((l.length - 1) / 10) := by
    rw [List.length_append]
    omega
  rw [hindex, ← List.drop_drop, List.drop_left]

theorem lastBatch_subset (l : List AddressBuffer) : lastBatch l ⊆ l := List.drop_subset _ _

theorem lastBatch_length (l : List AddressBuffer) (hne : l ≠ []) :
    0 < (lastBatch l).length ∧ (lastBatch l).length ≤ 10 := by
  have hpos := List.length_pos_iff.2 hne
  unfold lastBatch
  rw [List.length_drop]
  omega

theorem IsReplies.ne_nil {e : SeanetEID} {l : List AddressBuffer} {ps : List (List UInt8)}
    (h : IsReplies e l ps) : l ≠ [] := by
  cases h with
  | last hne _ _ => exact hne
  | more hlen _ _ => exact fun hnil => by simp [(List.append_eq_nil_iff.1 hnil).1] at hlen

/-- Only the last packet is marked as finished, and it holds the last batch. -/
theorem IsReplies.split {e : SeanetEID} {l : List AddressBuffer} {ps : List (List UInt8)}
    (h : IsReplies e l ps) :
    ∃ ps' p, ps = ps' ++ [p] ∧ IsReply e packetFinish (lastBatch l) p ∧
      ∀ q ∈ ps', ∃ batch, batch ≠ [] ∧ batch.length ≤ 10 ∧ batch ⊆ l ∧
        IsReply e packetNotFinish batch q := by
  induction h with
  | last hne hlen hp => exact ⟨[], _, rfl, by rwa [lastBatch_of_length_le hlen], by simp⟩
  | @more batch l p ps hlen hp hps ih =>
    obtain ⟨ps', q, rfl, hq, hps'⟩ := ih
    refine ⟨p :: ps', q, rfl, by rwa [lastBatch_append hlen hps.ne_nil], ?_⟩
    intro q' hq'
    rcases List.mem_cons.1 hq' with rfl | hq'
    · exact ⟨batch, by rintro rfl; simp at hlen, hlen.le, List.subset_append_left _ _, hp⟩
    · obtain ⟨batch', hne, hlen', hsub, hreply⟩ := hps' q' hq'
      exact ⟨batch', hne, hlen', List.Subset.trans hsub (List.subset_append_right _ _), hreply⟩

/-! ## Reading a packet -/

section Read

variable {e : SeanetEID} {finished : UInt8} {batch : List AddressBuffer} {p : List UInt8}

theorem IsReply.read_eid (h : IsReply e finished batch p) : SeanetEID.read p = e := by
  obtain ⟨rest, rfl⟩ := h
  exact SeanetEID.read_append e _

theorem IsReply.drop_eid (h : IsReply e finished batch p) :
    ∃ rest, p.drop eidSize =
      finished :: UInt8.ofNat batch.length :: (batch.flatMap (·.toList) ++ rest) := by
  obtain ⟨rest, rfl⟩ := h
  have hlen : e.toList.length = eidSize := e.length_toList
  exact ⟨rest, List.drop_left' hlen⟩

theorem getD_eq_of_drop {l : List UInt8} {i k : ℕ} {a d : UInt8} (h : (l.drop i)[k]? = some a) :
    l.getD (i + k) d = a := by
  rw [List.getElem?_drop] at h
  rw [List.getD_eq_getElem?_getD, h]
  rfl

theorem IsReply.getD_finished (h : IsReply e finished batch p) : p.getD eidSize 0 = finished := by
  obtain ⟨rest, hdrop⟩ := h.drop_eid
  exact getD_eq_of_drop (i := eidSize) (k := 0) (by rw [hdrop]; rfl)

theorem IsReply.getD_count (h : IsReply e finished batch p) :
    p.getD (eidSize + 1) 0 = UInt8.ofNat batch.length := by
  obtain ⟨rest, hdrop⟩ := h.drop_eid
  exact getD_eq_of_drop (i := eidSize) (k := 1) (by rw [hdrop]; rfl)

/-- The `i`-th address of a packet. -/
theorem IsReply.deserialize_entry (h : IsReply e finished batch p) {i : ℕ} (hi : i < batch.length) :
    Ipv4Address.deserialize (p.drop (eidSize + 2 + 18 * i)) = batch[i].address := by
  obtain ⟨rest, hdrop⟩ := h.drop_eid
  have hentries : p.drop (eidSize + 2) = batch.flatMap (·.toList) ++ rest := by
    rw [← List.drop_drop, hdrop]
    rfl
  have hle : 18 * i ≤ (batch.flatMap (·.toList)).length := by
    rw [length_flatMap_toList]
    omega
  rw [← List.drop_drop, hentries, List.drop_append_of_le_length hle,
    drop_flatMap_const (fun buf => buf.length_toList), List.drop_eq_getElem_cons hi,
    List.flatMap_cons, List.append_assoc]
  exact Ipv4Address.deserialize_append (by rw [Vector.length_toList]; omega) _

end Read

/-- 10.0.0.1, port 4000, as it is kept when it registers. -/
def oneBuffer : AddressBuffer := #v[10, 0, 0, 1, 0xa0, 0x0f, 0, 0, 0, 0, 0, 0, 0, 0, 0, 0, 0, 0]

/-! ## The storage client -/

namespace StorageClientApplicationv4

open SwitchApplicationv4

/-- `ResolutionReplyHandle`: the packets sent for a reply. -/
def resolutionReplyHandle (buffer : List UInt8) : List Datagram :=
  let se := SeanetEID.read buffer
  let ipnum := buffer.getD eidSize 0
  if 1 ≤ ipnum then
    let ipv4 := Ipv4Address.deserialize (buffer.drop (eidSize + 1))
    [sendPacket se (.ofTypesDst switchApplication requestData isDst) ipv4.serialize]
  else []

def resolutionProtocolHandle (buffer : List UInt8) (protocolType : UInt8) : List Datagram :=
  if protocolType = replyEidNA then resolutionReplyHandle buffer else []

/-- A `REQUEST_DATA` for `e` sent to `dest`. -/
def requestDataTo (e : SeanetEID) (dest : Ipv4Address) : Datagram :=
  ⟨.ofTypesDst switchApplication requestData isDst, .eid e, dest⟩

/-- What the client asks for data is the address made of the number of addresses in the last
packet and the first three bytes of the first of them. -/
def misread (l : List AddressBuffer) : List UInt8 :=
  UInt8.ofNat (lastBatch l).length :: (lastBatch l).flatMap (·.toList)

theorem resolutionProtocolHandle_notFinish {e : SeanetEID} {batch : List AddressBuffer}
    {p : List UInt8} (h : IsReply e packetNotFinish batch p) :
    resolutionProtocolHandle p replyEidNA = [] := by
  rw [resolutionProtocolHandle, if_pos rfl, resolutionReplyHandle, h.getD_finished]
  exact if_neg (by decide)

theorem resolutionProtocolHandle_finish {e : SeanetEID} {batch : List AddressBuffer}
    {p : List UInt8} (hne : batch ≠ []) (h : IsReply e packetFinish batch p) :
    resolutionProtocolHandle p replyEidNA = [requestDataTo e
      (.deserialize (UInt8.ofNat batch.length :: batch.flatMap (·.toList)))] := by
  obtain ⟨rest, hdrop⟩ := h.drop_eid
  have hbytes : p.drop (eidSize + 1) =
      UInt8.ofNat batch.length :: batch.flatMap (·.toList) ++ rest := by
    rw [← List.drop_drop, hdrop]
    rfl
  have hlen : 4 ≤ (UInt8.ofNat batch.length :: batch.flatMap (·.toList)).length := by
    have hpos := List.length_pos_iff.2 hne
    rw [List.length_cons, length_flatMap_toList]
    omega
  rw [resolutionProtocolHandle, if_pos rfl, resolutionReplyHandle, h.getD_finished, h.read_eid,
    if_pos (by decide), hbytes, Ipv4Address.deserialize_append hlen]
  simp only [sendPacket, Ipv4Address.deserialize_serialize]
  rfl

/-- The client asks once, and asks the misread address. -/
theorem requests_misread {e : SeanetEID} {l : List AddressBuffer} {ps : List (List UInt8)}
    (h : IsReplies e l ps) :
    ps.flatMap (resolutionProtocolHandle · replyEidNA) =
      [requestDataTo e (.deserialize (misread l))] := by
  obtain ⟨ps', p, rfl, hp, hps'⟩ := h.split
  have hfront : ps'.flatMap (resolutionProtocolHandle · replyEidNA) = [] := by
    rw [List.flatMap_eq_nil_iff]
    intro q hq
    obtain ⟨batch, -, -, -, hreply⟩ := hps' q hq
    exact resolutionProtocolHandle_notFinish hreply
  have hne := List.length_pos_iff.1 (lastBatch_length l h.ne_nil).1
  rw [List.flatMap_append, hfront, List.flatMap_singleton, List.nil_append,
    resolutionProtocolHandle_finish hne hp]
  rfl

/-- The bytes of the first registered address are the number of addresses in the last packet and
the first three bytes of the first address in it. -/
def FirstIsMisread (l : List AddressBuffer) : Prop :=
  ∃ a b, l.head? = some a ∧ (lastBatch l).head? = some b ∧
    a.toList.take 4 = UInt8.ofNat (lastBatch l).length :: b.toList.take 3

theorem deserialize_misread_eq_iff {l : List AddressBuffer} (hne : l ≠ []) :
    Ipv4Address.deserialize (misread l) = (l.head hne).address ↔ FirstIsMisread l := by
  have hpos := (lastBatch_length l hne).1
  obtain ⟨b, tail, htail⟩ := List.exists_cons_of_length_pos hpos
  obtain ⟨arest, ha⟩ := (l.head hne).toList_eq
  obtain ⟨brest, hb⟩ := b.toList_eq
  have hmisread : misread l = UInt8.ofNat (lastBatch l).length :: b[0] :: b[1] :: b[2] ::
      (b[3] :: brest ++ tail.flatMap (·.toList)) := by
    rw [misread, htail, List.flatMap_cons, hb]
    rfl
  rw [hmisread, AddressBuffer.address, ha, Ipv4Address.deserialize_eq_iff]
  have hbytes : (l.head hne).toList.take 4 =
      UInt8.ofNat (lastBatch l).length :: b.toList.take 3 ↔
        UInt8.ofNat (lastBatch l).length = (l.head hne)[0] ∧ b[0] = (l.head hne)[1] ∧
          b[1] = (l.head hne)[2] ∧ b[2] = (l.head hne)[3] := by
    rw [ha, hb]
    simp [eq_comm]
  rw [← hbytes]
  constructor
  · intro h
    exact ⟨l.head hne, b, List.head?_eq_some_head hne, by rw [htail]; rfl, h⟩
  · intro ⟨a', b', ha', hb', h⟩
    cases Option.some.inj ((List.head?_eq_some_head hne).symm.trans ha')
    rw [htail] at hb'
    cases hb'
    exact h

/-- Decoding the packets the resolution server sends for an identifier, the client asks for data
once, and asks the first registered address exactly when the misread one is the same. -/
theorem requests_first_iff {app : ResolutionApplicationv4} {buffer : List UInt8}
    {value : List AddressBuffer} (garbage : Vector UInt8 (maxPayloadLen - eidSize))
    (hvalue : app.lookupEIDNATable (.read buffer) = some value) (hne : value ≠ []) :
    (app.requestHandle buffer garbage).flatMap (resolutionProtocolHandle · replyEidNA) =
        [requestDataTo (.read buffer) (value.head hne).address] ↔ FirstIsMisread value := by
  rw [requests_misread (isReplies_requestHandle garbage hvalue hne), List.cons_eq_cons,
    and_iff_left rfl, ← deserialize_misread_eq_iff hne]
  constructor
  · exact congrArg Datagram.dest
  · exact congrArg (requestDataTo (.read buffer))

/-- A server where every identifier has been registered once. -/
def oneAddress : ResolutionApplicationv4 := ⟨fun _ => some [oneBuffer]⟩

theorem requests_first_iff_oneAddress :
    (oneAddress.requestHandle [] (Vector.replicate _ 0)).flatMap
        (resolutionProtocolHandle · replyEidNA) = [requestDataTo (.read []) oneBuffer.address] ↔
      FirstIsMisread [oneBuffer] :=
  requests_first_iff (Vector.replicate _ 0) rfl (List.cons_ne_nil _ _)

/-- The client asks 1.10.0.0 for data. -/
theorem requests_not_first :
    ¬ ∀ (app : ResolutionApplicationv4) (buffer : List UInt8) (value : List AddressBuffer)
      (garbage : Vector UInt8 (maxPayloadLen - eidSize)) (hne : value ≠ []),
      app.lookupEIDNATable (.read buffer) = some value →
      (app.requestHandle buffer garbage).flatMap (resolutionProtocolHandle · replyEidNA) =
        [requestDataTo (.read buffer) (value.head hne).address] := by
  intro h
  have hall := h oneAddress [] _ (Vector.replicate _ 0) (List.cons_ne_nil _ _) rfl
  rw [requests_misread (isReplies_requestHandle (Vector.replicate _ 0) rfl
    (List.cons_ne_nil _ _))] at hall
  exact absurd (congrArg (List.map Datagram.dest) hall) (by decide)

end StorageClientApplicationv4

/-! ## The switch -/

namespace SwitchApplicationv4

open AddressMap

variable {M : Type → Type} [AddressMap M]

/-- The local variables of `ResolutionProtocolHandle`, and the probes it sends. -/
structure Search where
  shortest : Ipv4Address × Time
  sent : List Datagram

/-- One round of the loop over the addresses of a packet. -/
def Search.round (delay : Ipv4Address → Option Time) (now : Time) (buffer : List UInt8)
    (st : Search)
    (i : ℕ) : Search :=
  let ipv4 := Ipv4Address.deserialize (buffer.drop (eidSize + 2 + 18 * i))
  let shortest := if i = 0 then (ipv4, st.shortest.2) else st.shortest
  match delay ipv4 with
  | some d => ⟨if d < shortest.2 then (ipv4, d) else shortest, st.sent⟩
  | none => ⟨shortest, st.sent ++ [neighInfoDetec now ipv4.serialize]⟩

/-- `ResolutionProtocolHandle`: the packets sent for a reply. -/
def resolutionProtocolHandle (sw : SwitchApplicationv4 M) (now : Time) (buffer : List UInt8)
    (protocolType : UInt8) : List Datagram :=
  if protocolType = replyEidNA then
    let se := SeanetEID.read buffer
    let finished := buffer.getD eidSize 0
    let ipnum := buffer.getD (eidSize + 1) 0
    let st := (List.range ipnum.toNat).foldl (Search.round (find sw.delayTable) now buffer)
      ⟨(.uninitialized, 1000000000), []⟩
    if finished = 1 then
      st.sent ++ [sendPacket se (.ofTypes multicastApplication graftingRequest)
        st.shortest.1.serialize]
    else st.sent
  else []

/-- A `GRAFITING_REQUEST` for `e` sent to `dest`. -/
def graftTo (e : SeanetEID) (dest : Ipv4Address) : Datagram :=
  ⟨.ofTypes multicastApplication graftingRequest, .eid e, dest⟩

/-- The address a switch settles for among those of a packet. -/
def nearestOf (delay : Ipv4Address → Option Time) (batch : List AddressBuffer) : Ipv4Address :=
  ((batch.map (·.address)).foldl (keepBest (· < ·) delay)
    ((batch.map (·.address)).headD .uninitialized, 1000000000)).1

/-- With all delays known the loop keeps the best address and probes nothing. -/
theorem foldl_round (delay : Ipv4Address → Option Time) (now : Time) (buffer : List UInt8) {n : ℕ}
    (hknown : ∀ i < n,
      (delay (.deserialize (buffer.drop (eidSize + 2 + 18 * i)))).isSome = true) (hn : 0 < n)
    (start : Ipv4Address) (t : Time) :
    (List.range n).foldl (Search.round delay now buffer) ⟨(start, t), []⟩ =
      ⟨((List.range n).map fun i => .deserialize (buffer.drop (eidSize + 2 + 18 * i))).foldl
        (keepBest (· < ·) delay) (.deserialize (buffer.drop (eidSize + 2 + 18 * 0)), t), []⟩ := by
  induction n with
  | zero => exact absurd hn (Nat.lt_irrefl 0)
  | succ n ih =>
    obtain ⟨d, hd⟩ := Option.isSome_iff_exists.1 (hknown n (Nat.lt_succ_self n))
    rw [List.range_succ, List.foldl_append, List.map_append, List.foldl_append]
    rcases Nat.eq_zero_or_pos n with rfl | hpos
    · simp only [List.range_zero, List.foldl_nil, List.map_nil, List.foldl_cons, List.map_cons,
        Search.round, keepBest, hd, if_pos]
    · rw [ih (fun i hi => hknown i (Nat.lt_succ_of_lt hi)) hpos]
      simp only [List.foldl_cons, List.foldl_nil, List.map_cons, List.map_nil, Search.round,
        keepBest, hd, if_neg hpos.ne']

theorem nearestOf_cases (delay : Ipv4Address → Option Time) {batch : List AddressBuffer}
    (hne : batch ≠ []) :
    (nearestOf delay batch = (batch.head hne).address ∧
        ∀ buf ∈ batch, ∀ d, delay buf.address = some d → 1000000000 ≤ d) ∨
      ∃ buf ∈ batch, nearestOf delay batch = buf.address ∧
        ∃ d < 1000000000, delay buf.address = some d ∧
          ∀ buf' ∈ batch, ∀ d', delay buf'.address = some d' → d ≤ d' := by
  obtain ⟨a, l, rfl⟩ := List.exists_cons_of_ne_nil hne
  have hle : ∀ buf ∈ a :: l, ∀ d, delay buf.address = some d →
      (((a :: l).map (·.address)).foldl (keepBest (· < ·) delay) (a.address, 1000000000)).2 ≤ d :=
    fun buf hbuf d hd => foldl_keepBest_le (fun _ _ h => le_of_lt h) (fun _ _ h => not_lt.1 h) _
      (List.mem_map_of_mem hbuf) hd
  unfold nearestOf
  rw [List.map_cons, List.headD_cons, ← List.map_cons]
  rcases foldl_keepBest_mem (· < ·) delay ((a :: l).map (·.address)) (a.address, 1000000000) with
    h | ⟨b, hb, d, hd, hlt, h⟩
  · rw [h] at hle ⊢
    exact .inl ⟨rfl, hle⟩
  · rw [h] at hle ⊢
    obtain ⟨buf, hbuf, rfl⟩ := List.mem_map.1 hb
    exact .inr ⟨buf, hbuf, rfl, d, hlt, hd, hle⟩

theorem nearestOf_mem (delay : Ipv4Address → Option Time) {batch : List AddressBuffer}
    (hne : batch ≠ []) : ∃ buf ∈ batch, nearestOf delay batch = buf.address := by
  rcases nearestOf_cases delay hne with ⟨h, -⟩ | ⟨buf, hbuf, h, -⟩
  · exact ⟨_, List.head_mem hne, h⟩
  · exact ⟨buf, hbuf, h⟩

/-- What a switch that knows the delays of a packet sends for it. -/
theorem resolutionProtocolHandle_reply {sw : SwitchApplicationv4 M} (now : Time) {e : SeanetEID}
    {finished : UInt8} {batch : List AddressBuffer} {p : List UInt8}
    (h : IsReply e finished batch p) (hne : batch ≠ []) (hlen : batch.length ≤ 10)
    (hknown : ∀ buf ∈ batch, (find sw.delayTable buf.address).isSome = true) :
    resolutionProtocolHandle sw now p replyEidNA =
      if finished = 1 then [graftTo e (nearestOf (find sw.delayTable) batch)] else [] := by
  have hpos := List.length_pos_iff.2 hne
  have hcount : (p.getD (eidSize + 1) 0).toNat = batch.length := by
    rw [h.getD_count, UInt8.toNat_ofNat']
    omega
  have haddress : (List.range batch.length).map
      (fun i => Ipv4Address.deserialize (p.drop (eidSize + 2 + 18 * i))) =
        batch.map (·.address) := by
    apply List.ext_getElem
    · simp
    · intro i hi _
      simp only [List.getElem_map, List.getElem_range]
      exact h.deserialize_entry (by simpa using hi)
  have hhead : Ipv4Address.deserialize (p.drop (eidSize + 2 + 18 * 0)) =
      (batch.map (·.address)).headD .uninitialized := by
    rw [h.deserialize_entry hpos]
    obtain ⟨a, l, rfl⟩ := List.exists_cons_of_ne_nil hne
    rfl
  have hloop := foldl_round (find sw.delayTable) now p (n := batch.length)
    (fun i hi => by rw [h.deserialize_entry hi]; exact hknown _ (List.getElem_mem hi)) hpos
    .uninitialized 1000000000
  rw [haddress, hhead] at hloop
  obtain ⟨buf, -, hbuf⟩ := nearestOf_mem (find sw.delayTable) hne
  have hinterface : (nearestOf (find sw.delayTable) batch).interfaceNum = 0 := by rw [hbuf]; rfl
  rw [resolutionProtocolHandle, if_pos rfl, h.read_eid, h.getD_finished]
  dsimp only
  rw [hcount, hloop]
  dsimp only [sendPacket]
  rw [Ipv4Address.deserialize_serialize]
  change (if finished = 1 then [graftTo e
    ((nearestOf (find sw.delayTable) batch).setInterfaceNum 0)] else []) = _
  rw [Ipv4Address.setInterfaceNum_self hinterface]

/-- A switch that knows all delays grafts once, to the nearest address of the last packet. -/
theorem grafts_nearestOf_lastBatch {sw : SwitchApplicationv4 M} (now : Time) {e : SeanetEID}
    {l : List AddressBuffer} {ps : List (List UInt8)} (h : IsReplies e l ps)
    (hknown : ∀ buf ∈ l, (find sw.delayTable buf.address).isSome = true) :
    ps.flatMap (resolutionProtocolHandle sw now · replyEidNA) =
      [graftTo e (nearestOf (find sw.delayTable) (lastBatch l))] := by
  obtain ⟨ps', p, rfl, hp, hps'⟩ := h.split
  have hfront : ps'.flatMap (resolutionProtocolHandle sw now · replyEidNA) = [] := by
    rw [List.flatMap_eq_nil_iff]
    intro q hq
    obtain ⟨batch, hne, hlen, hsub, hreply⟩ := hps' q hq
    rw [resolutionProtocolHandle_reply now hreply hne hlen fun buf hbuf => hknown buf (hsub hbuf)]
    exact if_neg (by decide)
  obtain ⟨hpos, hlen⟩ := lastBatch_length l h.ne_nil
  rw [List.flatMap_append, hfront, List.flatMap_singleton, List.nil_append,
    resolutionProtocolHandle_reply now hp (List.length_pos_iff.1 hpos) hlen
      fun buf hbuf => hknown buf (lastBatch_subset l hbuf)]
  exact if_pos rfl

/-- An address of the list with a delay no other address of the list falls below. -/
def Nearest (delay : Ipv4Address → Option Time) (l : List AddressBuffer) (a : Ipv4Address) : Prop :=
  (∃ buf ∈ l, buf.address = a) ∧ ∃ d, delay a = some d ∧
    ∀ buf ∈ l, ∀ d', delay buf.address = some d' → d ≤ d'

/-- A nearest address of the whole list is in the last packet, and has a delay below the start value
of the search or comes first there. -/
def NearestInLastBatch (delay : Ipv4Address → Option Time) (l : List AddressBuffer) : Prop :=
  ∃ buf ∈ lastBatch l, Nearest delay l buf.address ∧
    ((∃ d < 1000000000, delay buf.address = some d) ∨
      (lastBatch l).head?.map (·.address) = some buf.address)

theorem nearest_nearestOf_iff {delay : Ipv4Address → Option Time} {l : List AddressBuffer}
    (hne : l ≠ []) :
    Nearest delay l (nearestOf delay (lastBatch l)) ↔ NearestInLastBatch delay l := by
  have hbatch := List.length_pos_iff.1 (lastBatch_length l hne).1
  have hhead := List.head?_eq_some_head hbatch
  rcases nearestOf_cases delay hbatch with ⟨h, hfar⟩ | ⟨buf, hbuf, h, d, hlt, hd, hle⟩
  · rw [h]
    constructor
    · exact fun hnear => ⟨_, List.head_mem hbatch, hnear, .inr (by rw [hhead]; rfl)⟩
    · rintro ⟨buf, hbuf, hnear, ⟨d, hlt, hd⟩ | hfirst⟩
      · exact absurd (hfar buf hbuf d hd) (not_le.2 hlt)
      · have hfirst' : ((lastBatch l).head hbatch).address = buf.address := by
          rw [hhead] at hfirst
          exact Option.some.inj hfirst
        rwa [hfirst']
  · rw [h]
    constructor
    · exact fun hnear => ⟨buf, hbuf, hnear, .inl ⟨d, hlt, hd⟩⟩
    · rintro ⟨buf', hbuf', ⟨-, d', hd', hle'⟩, -⟩
      refine ⟨⟨buf, lastBatch_subset l hbuf, rfl⟩, d, hd, fun b hb e he => ?_⟩
      exact le_trans (hle buf' hbuf' d' hd') (hle' b hb e he)

/-- Fed with the packets the resolution server sends for an identifier, all of whose addresses have
a known delay, the switch grafts once and to a nearest one of them exactly when the last packet has
one that the search does not miss. -/
theorem grafts_nearest_iff {sw : SwitchApplicationv4 M} (now : Time) {app : ResolutionApplicationv4}
    {buffer : List UInt8} {value : List AddressBuffer}
    (garbage : Vector UInt8 (maxPayloadLen - eidSize))
    (hvalue : app.lookupEIDNATable (.read buffer) = some value) (hne : value ≠ [])
    (hknown : ∀ buf ∈ value, (find sw.delayTable buf.address).isSome = true) :
    (∃ a, Nearest (find sw.delayTable) value a ∧
      (app.requestHandle buffer garbage).flatMap (resolutionProtocolHandle sw now · replyEidNA) =
        [graftTo (.read buffer) a]) ↔ NearestInLastBatch (find sw.delayTable) value := by
  rw [grafts_nearestOf_lastBatch now (isReplies_requestHandle garbage hvalue hne) hknown,
    ← nearest_nearestOf_iff hne]
  constructor
  · rintro ⟨a, hnear, hsent⟩
    obtain rfl : nearestOf (find sw.delayTable) (lastBatch value) = a :=
      congrArg Datagram.dest (List.cons_eq_cons.1 hsent).1
    exact hnear
  · exact fun hnear => ⟨_, hnear, rfl⟩

/-- 10.0.0.2, port 4000. -/
def farBuffer : AddressBuffer := #v[10, 0, 0, 2, 0xa0, 0x0f, 0, 0, 0, 0, 0, 0, 0, 0, 0, 0, 0, 0]

/-- A server with eleven addresses for every identifier, the first one 10.0.0.1. -/
def elevenAddresses : ResolutionApplicationv4 :=
  ⟨fun _ => some (oneBuffer :: List.replicate 10 farBuffer)⟩

/-- A switch to which 10.0.0.1 is nearer than 10.0.0.2. -/
def nearSwitch : SwitchApplicationv4 PairMap :=
  { (SwitchConfig.create ⟨.seanet, false, []⟩ : SwitchApplicationv4 PairMap) with
    delayTable := store (store (empty : PairMap Time) ⟨0x0a000001, 0⟩ 1) ⟨0x0a000002, 0⟩ 5 }

theorem elevenAddresses_known : ∀ buf ∈ oneBuffer :: List.replicate 10 farBuffer,
    (find nearSwitch.delayTable buf.address).isSome = true := by
  intro buf hmem
  cases List.mem_cons.1 hmem with
  | inl heq =>
    rw [heq]
    rfl
  | inr hfar =>
    rw [List.eq_of_mem_replicate hfar]
    rfl

theorem grafts_nearest_iff_elevenAddresses :
    (∃ a, Nearest (find nearSwitch.delayTable) (oneBuffer :: List.replicate 10 farBuffer) a ∧
      (elevenAddresses.requestHandle [] (Vector.replicate _ 0)).flatMap
        (resolutionProtocolHandle nearSwitch 0 · replyEidNA) = [graftTo (.read []) a]) ↔
    NearestInLastBatch (find nearSwitch.delayTable) (oneBuffer :: List.replicate 10 farBuffer) :=
  grafts_nearest_iff 0 (Vector.replicate _ 0) rfl (List.cons_ne_nil _ _) elevenAddresses_known

/-- The switch grafts to 10.0.0.2, the only address of the second packet. -/
theorem grafts_not_nearest :
    ¬ ∀ (sw : SwitchApplicationv4 PairMap) (now : Time) (app : ResolutionApplicationv4)
      (buffer : List UInt8) (value : List AddressBuffer)
      (garbage : Vector UInt8 (maxPayloadLen - eidSize)),
      app.lookupEIDNATable (.read buffer) = some value → value ≠ [] →
      (∀ buf ∈ value, (find sw.delayTable buf.address).isSome = true) →
      ∃ a, Nearest (find sw.delayTable) value a ∧
        (app.requestHandle buffer garbage).flatMap (resolutionProtocolHandle sw now · replyEidNA) =
          [graftTo (.read buffer) a] := by
  intro h
  obtain ⟨a, ⟨-, d, hd, hle⟩, hsent⟩ := h nearSwitch 0 elevenAddresses [] _ (Vector.replicate _ 0)
    rfl (List.cons_ne_nil _ _) elevenAddresses_known
  have hfar : nearestOf (find nearSwitch.delayTable)
      (lastBatch (oneBuffer :: List.replicate 10 farBuffer)) = ⟨0x0a000002, 0⟩ := by decide
  rw [grafts_nearestOf_lastBatch 0 (isReplies_requestHandle (Vector.replicate _ 0) rfl
    (List.cons_ne_nil _ _)) elevenAddresses_known, hfar] at hsent
  obtain rfl : ⟨0x0a000002, 0⟩ = a := congrArg Datagram.dest (List.cons_eq_cons.1 hsent).1
  obtain rfl : 5 = d := Option.some.inj hd
  exact absurd (hle _ (List.mem_cons_self ..) 1 (by decide)) (by decide)

end SwitchApplicationv4

end SeanetSim
