import SeanetSim.Applications.ResolutionApplication

/-!
# The batches of a reply

`requestHandleChecked` is `RequestHandle` with every write into the reply buffer checked against its
end.  No check fails, and the payloads that are sent carry the registered addresses in order, at
most ten in each, with the mark of the end in the last one only: `requestHandleChecked_batches`.
-/

namespace SeanetSim

open SeanetProtocol

namespace ResolutionApplicationv4

/-! ## Checked writes -/

def Reply.roundChecked (st : Reply) (buf : AddressBuffer) (last : Bool) : Option Reply := do
  let res ← writeAt st.res (eidSize + 2 + 18 * (st.ipnum % 10)) buf.toList
  let ipnum := st.ipnum + 1
  if ipnum % 10 = 0 then
    let finished := if last then packetFinish else packetNotFinish
    let res ← writeAt res eidSize [finished]
    let res ← writeAt res (eidSize + 1) [10]
    let cleared ← writeAt res eidSize (List.replicate (maxPayloadLen - eidSize) 0)
    some ⟨cleared, ipnum, st.sent ++ [res]⟩
  else some ⟨res, ipnum, st.sent⟩

def Reply.loopChecked (st : Reply) : List AddressBuffer → Option Reply
  | [] => some st
  | buf :: rest => do
    let st ← st.roundChecked buf rest.isEmpty
    st.loopChecked rest

def Reply.flushChecked (st : Reply) : Option (List (List UInt8)) :=
  if st.ipnum % 10 ≠ 0 then do
    let res ← writeAt st.res eidSize [packetFinish]
    let res ← writeAt res (eidSize + 1) [UInt8.ofNat (st.ipnum % 10)]
    some (st.sent ++ [res])
  else some st.sent

/-- `RequestHandle`; none where it writes behind the end of the buffer `res`, which holds `garbage`
when the function starts. -/
def requestHandleChecked (app : ResolutionApplicationv4) (buffer : List UInt8)
    (garbage : Vector UInt8 maxPayloadLen) : Option (List (List UInt8)) :=
  let se := SeanetEID.read buffer
  match app.lookupEIDNATable se with
  | none => some []
  | some value => do
    let res ← writeAt garbage.toList 0 se.toList
    let st ← (Reply.mk res 0 []).loopChecked value
    st.flushChecked

section Checked

variable {st : Reply}

theorem writeAt_res {res : List UInt8} (hlen : res.length = maxPayloadLen) (off : ℕ)
    (src : List UInt8) (h : off + src.length ≤ maxPayloadLen) :
    writeAt res off src = some (memcpy res off src) ∧
      (memcpy res off src).length = maxPayloadLen := by
  rw [← hlen] at h
  exact ⟨if_pos h, (length_memcpy h).trans hlen⟩

/-- A mark takes one byte. -/
theorem writeAt_mark {res : List UInt8} (hlen : res.length = maxPayloadLen) (off : ℕ) (mark : UInt8)
    (h : off < maxPayloadLen) :
    writeAt res off [mark] = some (memcpy res off [mark]) ∧
      (memcpy res off [mark]).length = maxPayloadLen :=
  writeAt_res hlen off [mark] h

/-- Ten addresses fit behind the marks. -/
theorem Reply.roundChecked_eq (hlen : st.res.length = maxPayloadLen) (buf : AddressBuffer)
    (last : Bool) : st.roundChecked buf last = some (st.round buf last) ∧
      (st.round buf last).res.length = maxPayloadLen := by
  have hmod : st.ipnum % 10 < 10 := Nat.mod_lt _ (by decide)
  have hbuf : eidSize + 2 + 18 * (st.ipnum % 10) + buf.toList.length ≤ maxPayloadLen := by
    rw [buf.length_toList]
    change 20 + 2 + 18 * (st.ipnum % 10) + 18 ≤ 255
    omega
  obtain ⟨hwrite, hres⟩ := writeAt_res hlen _ _ hbuf
  unfold Reply.roundChecked Reply.round
  rw [hwrite]
  dsimp only [Option.bind_eq_bind, Option.bind_some]
  generalize (if last = true then packetFinish else packetNotFinish) = finished
  split_ifs with hfull
  · obtain ⟨hmark, hmarked⟩ := writeAt_mark hres eidSize finished (by decide)
    obtain ⟨hcount, hcounted⟩ := writeAt_mark hmarked (eidSize + 1) 10 (by decide)
    obtain ⟨hclear, hcleared⟩ := writeAt_res hcounted eidSize
      (List.replicate (maxPayloadLen - eidSize) 0) (by rw [List.length_replicate]; decide)
    rw [hmark, Option.bind_some, hcount, Option.bind_some, hclear]
    exact ⟨rfl, hcleared⟩
  · exact ⟨rfl, hres⟩

theorem Reply.loopChecked_eq (l : List AddressBuffer) (hlen : st.res.length = maxPayloadLen) :
    st.loopChecked l = some (st.loop l) ∧ (st.loop l).res.length = maxPayloadLen := by
  induction l generalizing st with
  | nil => exact ⟨rfl, hlen⟩
  | cons buf l ih =>
    obtain ⟨hround, hlen'⟩ := Reply.roundChecked_eq hlen buf l.isEmpty
    rw [Reply.loopChecked, Reply.loop, hround]
    exact ih hlen'

theorem Reply.flushChecked_eq (hlen : st.res.length = maxPayloadLen) :
    st.flushChecked = some st.flush := by
  unfold Reply.flushChecked Reply.flush
  split_ifs
  · obtain ⟨hmark, hmarked⟩ := writeAt_mark hlen eidSize packetFinish (by decide)
    obtain ⟨hcount, -⟩ := writeAt_mark hmarked (eidSize + 1) (UInt8.ofNat (st.ipnum % 10))
      (by decide)
    rw [hmark]
    dsimp only [Option.bind_eq_bind, Option.bind_some]
    rw [hcount]
    rfl
  · rfl

/-- No write passes the end of the buffer. -/
theorem requestHandleChecked_eq (app : ResolutionApplicationv4) (buffer : List UInt8)
    (garbage : Vector UInt8 maxPayloadLen) :
    app.requestHandleChecked buffer garbage =
      some (app.requestHandle buffer (garbage.drop eidSize)) := by
  unfold requestHandleChecked requestHandle
  dsimp only
  cases app.lookupEIDNATable (SeanetEID.read buffer) with
  | none => rfl
  | some value =>
    have hlen : (SeanetEID.read buffer).toList.length = eidSize :=
      (SeanetEID.read buffer).length_toList
    obtain ⟨hwrite, hres⟩ := writeAt_res garbage.length_toList 0 (SeanetEID.read buffer).toList
      (by rw [hlen]; decide)
    have hstart : memcpy garbage.toList 0 (SeanetEID.read buffer).toList =
        (SeanetEID.read buffer).toList ++ (garbage.drop eidSize).toList := by
      rw [memcpy, hlen, Vector.toList_drop, List.take_zero, Nat.zero_add, List.nil_append]
    rw [hstart] at hwrite hres
    obtain ⟨hloop, hlen'⟩ :=
      Reply.loopChecked_eq value (show (Reply.mk _ 0 []).res.length = maxPayloadLen from hres)
    dsimp only [Option.bind_eq_bind]
    rw [hwrite, Option.bind_some, hloop, Option.bind_some, Reply.flushChecked_eq hlen']

end Checked

/-! ## The batches -/

/-- The payload is for the identifier and carries the addresses of the batch, with their number. -/
structure Carries (e : SeanetEID) (batch : List AddressBuffer) (p : List UInt8) : Prop where
  eid : p.take eidSize = e.toList
  pos : 1 ≤ batch.length
  le : batch.length ≤ 10
  count : p[eidSize + 1]?.map UInt8.toNat = some batch.length
  addresses : slice p (eidSize + 2) (18 * batch.length) = batch.flatMap (·.toList)

variable {e : SeanetEID} {finished : UInt8} {batch value : List AddressBuffer} {p : List UInt8}
  {ps : List (List UInt8)}

theorem carries_of_isReply (h : IsReply e finished batch p) (hne : batch ≠ [])
    (hle : batch.length ≤ 10) : Carries e batch p ∧ p[eidSize]? = some finished := by
  obtain ⟨rest, rfl⟩ := h
  have hlen : e.toList.length = eidSize := e.length_toList
  have hbody : (batch.flatMap (·.toList)).length = 18 * batch.length := length_flatMap_toList batch
  have hhead : ∀ l : List UInt8, (e.toList ++ l).drop eidSize = l := fun l => by
    rw [List.drop_append_of_le_length hlen.ge, List.drop_of_length_le hlen.le, List.nil_append]
  refine ⟨⟨?_, List.length_pos_of_ne_nil hne, hle, ?_, ?_⟩, ?_⟩
  · rw [List.take_append_of_le_length hlen.ge, List.take_of_length_le hlen.le]
  · rw [← List.getElem?_drop, hhead, List.getElem?_cons_succ, List.getElem?_cons_zero,
      Option.map_some, UInt8.toNat_ofNat', Nat.mod_eq_of_lt (by omega)]
  · rw [slice, ← List.drop_drop, hhead, ← hbody]
    simp
  · change (e.toList ++ finished :: _)[eidSize + 0]? = _
    rw [← List.getElem?_drop, hhead, List.getElem?_cons_zero]

theorem carries_of_isReplies (h : IsReplies e value ps) :
    ∃ batches, batches.flatten = value ∧ List.Forall₂ (Carries e) batches ps ∧
      ps.map (·[eidSize]?) =
        List.replicate (ps.length - 1) (some packetNotFinish) ++ [some packetFinish] := by
  induction h with
  | @last batch p hne hlen hp =>
    obtain ⟨hcarries, hmark⟩ := carries_of_isReply hp hne hlen
    exact ⟨[batch], by simp, .cons hcarries .nil, by simp [hmark]⟩
  | @more batch l p ps hlen hp hps ih =>
    obtain ⟨batches, hflat, hcarries, hmarks⟩ := ih
    have hne : batch ≠ [] := List.ne_nil_of_length_pos (by omega)
    obtain ⟨hcarry, hmark⟩ := carries_of_isReply hp hne hlen.le
    have hpos : 0 < ps.length := by
      cases hps <;> simp
    refine ⟨batch :: batches, by rw [List.flatten_cons, hflat], .cons hcarry hcarries, ?_⟩
    have hcount : (p :: ps).length - 1 = (ps.length - 1) + 1 := by
      rw [List.length_cons]
      omega
    rw [List.map_cons, hmark, hmarks, hcount, List.replicate_succ, List.cons_append]

/-- A request for an identifier with registered addresses is answered by payloads that carry these
addresses, cut into batches, and of which only the last one is marked as finished; every write
stays within the buffer. -/
theorem requestHandleChecked_batches (app : ResolutionApplicationv4) (buffer : List UInt8)
    (garbage : Vector UInt8 maxPayloadLen)
    (hvalue : app.lookupEIDNATable (.read buffer) = some value) (hne : value ≠ []) :
    ∃ ps batches, app.requestHandleChecked buffer garbage = some ps ∧
      batches.flatten = value ∧ List.Forall₂ (Carries (.read buffer)) batches ps ∧
      ps.map (·[eidSize]?) =
        List.replicate (ps.length - 1) (some packetNotFinish) ++ [some packetFinish] := by
  obtain ⟨batches, hbatches⟩ :=
    carries_of_isReplies (isReplies_requestHandle (garbage.drop eidSize) hvalue hne)
  exact ⟨_, batches, requestHandleChecked_eq app buffer garbage, hbatches⟩

/-- Eleven addresses: ten and one. -/
theorem requestHandleChecked_batches_eleven :
    ∃ ps batches, (ResolutionApplicationv4.mk fun _ =>
        some (List.replicate 11 (Vector.replicate 18 10))).requestHandleChecked []
        (Vector.replicate _ 0) = some ps ∧
      batches.flatten = List.replicate 11 (Vector.replicate 18 10) ∧
      List.Forall₂ (Carries (.read [])) batches ps ∧
      ps.map (·[eidSize]?) =
        List.replicate (ps.length - 1) (some packetNotFinish) ++ [some packetFinish] :=
  requestHandleChecked_batches _ [] _ rfl (by decide)

end ResolutionApplicationv4

end SeanetSim
