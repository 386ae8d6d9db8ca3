import Mathlib.Logic.Function.Basic
import SeanetSim.Applications.SeanetHeader
import SeanetSim.Lib.Buffer
import SeanetSim.Network.Ipv4Address

/-!
# The resolution server

`ResolutionApplicationv4` keeps the addresses registered for each identifier and answers a request
with `REPLY_EID_NA` packets of at most ten addresses each.  `requestHandle` follows the loop of the
code, which fills one buffer and sends it whenever it is full; `IsReplies` says what the packets
are, and `isReplies_requestHandle` that the loop sends such packets.
-/

namespace SeanetSim

open SeanetProtocol

/-- The 18 bytes kept for a registered address: the bytes `CopyTo` writes, and what was in the
new buffer behind them. -/
abbrev AddressBuffer := Vector UInt8 18

def AddressBuffer.address (buf : AddressBuffer) : Ipv4Address := .deserialize buf.toList

theorem AddressBuffer.toList_eq (buf : AddressBuffer) :
    ∃ rest, buf.toList = buf[0] :: buf[1] :: buf[2] :: buf[3] :: rest := by
  have hlen := buf.length_toList
  refine ⟨buf.toList.drop 4, ?_⟩
  rw [← List.drop_zero (l := buf.toList), List.drop_eq_getElem_cons (by omega),
    List.drop_eq_getElem_cons (by omega), List.drop_eq_getElem_cons (by omega),
    List.drop_eq_getElem_cons (by omega)]
  simp

structure ResolutionApplicationv4 where
  eidNaTable : SeanetEID → Option (List AddressBuffer)

namespace ResolutionApplicationv4

/-! ## The table -/

def lookupEIDNATable (app : ResolutionApplicationv4) (se : SeanetEID) :
    Option (List AddressBuffer) :=
  app.eidNaTable se

def addEIDNATable (app : ResolutionApplicationv4) (se : SeanetEID) (buf : AddressBuffer) :
    ResolutionApplicationv4 :=
  match app.lookupEIDNATable se with
  | none => ⟨Function.update app.eidNaTable se (some [buf])⟩
  | some lh => ⟨Function.update app.eidNaTable se (some (lh ++ [buf]))⟩

def registHandle (app : ResolutionApplicationv4) (buffer : List UInt8) (source : AddressBuffer) :
    ResolutionApplicationv4 :=
  app.addEIDNATable (.read buffer) source

/-! ## The reply -/

/-- The local variables of `RequestHandle`, and the payloads sent so far. -/
structure Reply where
  res : List UInt8
  ipnum : ℕ
  sent : List (List UInt8)

/-- One round of the loop over the registered addresses. -/
def Reply.round (st : Reply) (buf : AddressBuffer) (last : Bool) : Reply :=
  let res := memcpy st.res (eidSize + 2 + 18 * (st.ipnum % 10)) buf.toList
  let ipnum := st.ipnum + 1
  if ipnum % 10 = 0 then
    let finished := if last then packetFinish else packetNotFinish
    let res := memcpy (memcpy res eidSize [finished]) (eidSize + 1) [10]
    ⟨memcpy res eidSize (List.replicate (maxPayloadLen - eidSize) 0), ipnum, st.sent ++ [res]⟩
  else ⟨res, ipnum, st.sent⟩

def Reply.loop (st : Reply) : List AddressBuffer → Reply
  | [] => st
  | buf :: rest => (st.round buf rest.isEmpty).loop rest

/-- After the loop the addresses left over are sent. -/
def Reply.flush (st : Reply) : List (List UInt8) :=
  if st.ipnum % 10 ≠ 0 then
    let res := memcpy (memcpy st.res eidSize [packetFinish]) (eidSize + 1)
      [UInt8.ofNat (st.ipnum % 10)]
    st.sent ++ [res]
  else st.sent

/-- The payloads `RequestHandle` sends for a request; `garbage` is what the buffer holds behind
the identifier. -/
def requestHandle (app : ResolutionApplicationv4) (buffer : List UInt8)
    (garbage : Vector UInt8 (maxPayloadLen - eidSize)) : List (List UInt8) :=
  let se := SeanetEID.read buffer
  match app.lookupEIDNATable se with
  | none => []
  | some value => ((Reply.mk (se.toList ++ garbage.toList) 0 []).loop value).flush

end ResolutionApplicationv4

/-! ## What the packets are -/

/-- A payload with the identifier, the mark, the number of addresses, and the addresses. -/
def IsReply (e : SeanetEID) (finished : UInt8) (batch : List AddressBuffer) (p : List UInt8) :
    Prop :=
  ∃ rest, p = e.toList ++ finished :: UInt8.ofNat batch.length :: (batch.flatMap (·.toList) ++ rest)

/-- The payloads of a reply: batches of ten addresses, and a last one of at most ten that is marked
as finished. -/
inductive IsReplies (e : SeanetEID) : List AddressBuffer → List (List UInt8) → Prop
  | last {batch : List AddressBuffer} {p : List UInt8} (hne : batch ≠ []) (hlen : batch.length ≤ 10)
      (hp : IsReply e packetFinish batch p) : IsReplies e batch [p]
  | more {batch l : List AddressBuffer} {p : List UInt8} {ps : List (List UInt8)}
      (hlen : batch.length = 10) (hp : IsReply e packetNotFinish batch p)
      (hps : IsReplies e l ps) : IsReplies e (batch ++ l) (p :: ps)

namespace ResolutionApplicationv4

/-- The loop has put the addresses of `batch` into the buffer since it last sent it. -/
structure Reply.Filling (st : Reply) (e : SeanetEID) (batch : List AddressBuffer) : Prop where
  res : ∃ x y rest, st.res = e.toList ++ x :: y :: (batch.flatMap (·.toList) ++ rest) ∧
    18 * batch.length + rest.length = maxPayloadLen - eidSize - 2
  ipnum : st.ipnum % 10 = batch.length

theorem length_flatMap_toList (batch : List AddressBuffer) :
    (batch.flatMap (·.toList)).length = 18 * batch.length :=
  length_flatMap_const (fun buf => buf.length_toList) batch

theorem memcpy_marks (e : SeanetEID) (x y a b : UInt8) (body : List UInt8) :
    memcpy (memcpy (e.toList ++ x :: y :: body) eidSize [a]) (eidSize + 1) [b] =
      e.toList ++ a :: b :: body := by
  have hlen : e.toList.length = eidSize := e.length_toList
  have hfirst : memcpy (e.toList ++ x :: y :: body) eidSize [a] = e.toList ++ a :: y :: body := by
    have h := memcpy_append _ [x] (y :: body) [a] hlen rfl
    simpa using h
  have hlen' : (e.toList ++ [a]).length = eidSize + 1 := by simp [hlen]
  have h := memcpy_append _ [y] body [b] hlen' rfl
  rw [hfirst]
  simpa using h

theorem memset_payload (e : SeanetEID) {body : List UInt8}
    (hbody : body.length = maxPayloadLen - eidSize) :
    memcpy (e.toList ++ body) eidSize (List.replicate (maxPayloadLen - eidSize) 0) =
      e.toList ++ List.replicate (maxPayloadLen - eidSize) 0 := by
  have hlen : e.toList.length = eidSize := e.length_toList
  have h := memcpy_append _ body [] (List.replicate (maxPayloadLen - eidSize) 0) hlen
    (by simpa using hbody)
  simpa using h

/-- An address is copied behind the others. -/
theorem Reply.Filling.memcpy {st : Reply} {e : SeanetEID} {batch : List AddressBuffer}
    (h : st.Filling e batch) (hlt : batch.length < 10) (buf : AddressBuffer) :
    ∃ x y rest, SeanetSim.memcpy st.res (eidSize + 2 + 18 * (st.ipnum % 10)) buf.toList =
        e.toList ++ x :: y :: ((batch ++ [buf]).flatMap (·.toList) ++ rest) ∧
      18 * (batch ++ [buf]).length + rest.length = maxPayloadLen - eidSize - 2 := by
  obtain ⟨x, y, rest, hres, hrest⟩ := h.res
  have hfree : buf.toList.length ≤ rest.length := by
    rw [buf.length_toList]
    have : maxPayloadLen - eidSize - 2 = 233 := rfl
    omega
  have hoff : (e.toList ++ x :: y :: batch.flatMap (·.toList)).length =
      eidSize + 2 + 18 * (st.ipnum % 10) := by
    rw [h.ipnum]
    simp only [List.length_append, List.length_cons, length_flatMap_toList, Vector.length_toList]
    omega
  have hcopy := memcpy_free _ rest buf.toList hoff hfree
  refine ⟨x, y, rest.drop 18, ?_, ?_⟩
  · rw [hres]
    simpa using hcopy
  · rw [buf.length_toList] at hfree
    simp only [List.length_append, List.length_singleton, List.length_drop]
    omega

/-- After a batch has been sent the buffer holds the identifier and zeros. -/
theorem filling_memset (e : SeanetEID) {finished count : UInt8} {body : List UInt8} {ipnum : ℕ}
    (hbody : body.length = maxPayloadLen - eidSize - 2) (hipnum : ipnum % 10 = 0)
    (sent : List (List UInt8)) :
    Reply.Filling ⟨SeanetSim.memcpy (e.toList ++ finished :: count :: body) eidSize
      (List.replicate (maxPayloadLen - eidSize) 0), ipnum, sent⟩ e [] where
  res := by
    refine ⟨0, 0, List.replicate (maxPayloadLen - eidSize - 2) 0, ?_, by simp⟩
    have hzeros : List.replicate (maxPayloadLen - eidSize) (0 : UInt8) =
        0 :: 0 :: List.replicate (maxPayloadLen - eidSize - 2) 0 := by
      have hlen : maxPayloadLen - eidSize = maxPayloadLen - eidSize - 2 + 1 + 1 := rfl
      rw [hlen, List.replicate_succ, List.replicate_succ]
      rfl
    have hlen : (finished :: count :: body).length = maxPayloadLen - eidSize := by
      rw [List.length_cons, List.length_cons, hbody]
      rfl
    rw [memset_payload e hlen, hzeros]
    rfl
  ipnum := hipnum

/-- A round adds the address to the batch, or sends the batch it completes. -/
theorem Reply.Filling.round {st : Reply} {e : SeanetEID} {batch : List AddressBuffer}
    (h : st.Filling e batch) (hlt : batch.length < 10) (buf : AddressBuffer) (last : Bool) :
    (batch.length + 1 < 10 ∧ (st.round buf last).Filling e (batch ++ [buf]) ∧
        (st.round buf last).sent = st.sent) ∨
      (batch.length + 1 = 10 ∧ (st.round buf last).Filling e [] ∧
        ∃ p, (st.round buf last).sent = st.sent ++ [p] ∧
          IsReply e (if last then packetFinish else packetNotFinish) (batch ++ [buf]) p) := by
  obtain ⟨x, y, rest, hres, hrest⟩ := h.memcpy hlt buf
  have hcount := h.ipnum
  have hlen : (batch ++ [buf]).length = batch.length + 1 := by simp
  unfold Reply.round
  dsimp only
  generalize (if last = true then packetFinish else packetNotFinish) = finished
  rw [hres]
  by_cases hfull : (st.ipnum + 1) % 10 = 0
  · have hten : batch.length + 1 = 10 := by omega
    rw [if_pos hfull, memcpy_marks]
    refine .inr ⟨hten, filling_memset e ?_ hfull _, _, rfl, rest, ?_⟩
    · rw [List.length_append, length_flatMap_toList]
      exact hrest
    · rw [hlen, hten]
      rfl
  · rw [if_neg hfull]
    refine .inl ⟨by omega, ⟨⟨x, y, rest, rfl, hrest⟩, ?_⟩, rfl⟩
    rw [hlen]
    change (st.ipnum + 1) % 10 = batch.length + 1
    omega

/-- The addresses left over are sent as the last batch. -/
theorem Reply.Filling.flush {st : Reply} {e : SeanetEID} {batch : List AddressBuffer}
    (h : st.Filling e batch) :
    (batch = [] ∧ st.flush = st.sent) ∨
      (batch ≠ [] ∧ ∃ p, st.flush = st.sent ++ [p] ∧ IsReply e packetFinish batch p) := by
  obtain ⟨x, y, rest, hres, -⟩ := h.res
  have hcount := h.ipnum
  unfold Reply.flush
  dsimp only
  split_ifs with hleft
  · refine .inr ⟨fun hnil => hleft (by rw [hcount, hnil]; rfl), _, rfl, rest, ?_⟩
    rw [hres, memcpy_marks, hcount]
  · refine .inl ⟨List.length_eq_zero_iff.1 ?_, rfl⟩
    omega

/-- From a partly filled buffer on, the loop sends the batches of what is in it and what follows. -/
theorem Reply.Filling.loop {e : SeanetEID} (l : List AddressBuffer) {st : Reply}
    {batch : List AddressBuffer} (h : st.Filling e batch) (hlt : batch.length < 10)
    (hne : batch ++ l ≠ []) :
    ∃ ps, (st.loop l).flush = st.sent ++ ps ∧ IsReplies e (batch ++ l) ps := by
  induction l generalizing st batch with
  | nil =>
    rw [List.append_nil] at hne ⊢
    rcases h.flush with ⟨hnil, -⟩ | ⟨-, p, hflush, hp⟩
    · exact absurd hnil hne
    · exact ⟨[p], hflush, .last hne hlt.le hp⟩
  | cons buf l ih =>
    rw [Reply.loop, List.append_cons]
    rcases h.round hlt buf l.isEmpty with ⟨hlt', hfill, hsent⟩ | ⟨hten, hfill, p, hsent, hp⟩
    · obtain ⟨ps, hflush, hps⟩ := ih hfill (by simpa using hlt') (by simp)
      exact ⟨ps, hsent ▸ hflush, hps⟩
    · have hlen : (batch ++ [buf]).length = 10 := by simpa using hten
      rcases l.eq_nil_or_concat with rfl | hl
      · -- the last address completes a batch, and nothing is left over
        rw [List.append_nil]
        rcases hfill.flush with ⟨-, hflush⟩ | ⟨hne', -⟩
        · exact ⟨[p], hflush.trans hsent, .last (by simp) hlen.le hp⟩
        · exact absurd rfl hne'
      · have hl : l ≠ [] := by
          obtain ⟨l', a, rfl⟩ := hl
          simp
        obtain ⟨ps, hflush, hps⟩ := ih hfill (by simp) (by simpa using hl)
        refine ⟨p :: ps, ?_, .more hlen ?_ hps⟩
        · rw [hflush, hsent, List.append_assoc]
          rfl
        · rwa [List.isEmpty_eq_false_iff.2 hl] at hp

/-- A request for a registered identifier is answered by its addresses in batches of ten. -/
theorem isReplies_requestHandle {app : ResolutionApplicationv4} {buffer : List UInt8}
    {value : List AddressBuffer} (garbage : Vector UInt8 (maxPayloadLen - eidSize))
    (hvalue : app.lookupEIDNATable (.read buffer) = some value) (hne : value ≠ []) :
    IsReplies (.read buffer) value (app.requestHandle buffer garbage) := by
  have hfill : (Reply.mk ((SeanetEID.read buffer).toList ++ garbage.toList) 0 []).Filling
      (.read buffer) [] := by
    have hlen := garbage.length_toList
    obtain ⟨x, y, rest, hrest⟩ : ∃ x y rest, garbage.toList = x :: y :: rest := by
      rcases hg : garbage.toList with _ | ⟨x, _ | ⟨y, rest⟩⟩
      · rw [hg] at hlen
        exact absurd hlen (by decide)
      · rw [hg] at hlen
        exact absurd hlen (by simp [maxPayloadLen, eidSize])
      · exact ⟨x, y, rest, rfl⟩
    refine ⟨⟨x, y, rest, by rw [hrest]; rfl, ?_⟩, rfl⟩
    rw [hrest, List.length_cons, List.length_cons] at hlen
    rw [List.length_nil]
    omega
  obtain ⟨ps, hflush, hps⟩ := hfill.loop value (by simp) (by simpa using hne)
  unfold requestHandle
  dsimp only
  rw [hvalue]
  dsimp only
  rw [hflush]
  exact hps

end ResolutionApplicationv4

end SeanetSim
