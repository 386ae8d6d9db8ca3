import Mathlib.Data.List.Nodup
import Mathlib.Data.Set.Insert
import SeanetSim.Lib.Run
import SeanetSim.Olsr.OlsrRepositories

/-!
# The topology set of OLSR

A TC message replaces the topology tuples that an earlier message of its originator has left, unless
there is a tuple with a greater sequence number.  `FindNewerTopologyTuple` and
`EraseOlderTopologyTuples` compare the 16 bits of the numbers, so after a wrap all messages are
taken for old ones as long as a tuple from before the wrap is stored.  In a run in which no message
finds a tuple with a greater number the tuples follow the latest messages: `tracks_of_run`.

A timer of a topology tuple may fire at any time here; it looks at the time itself.
-/

namespace SeanetSim.Olsr

/-- A TC message, with the fields of its header that are read. -/
structure Tc where
  originatorAddress : UInt32
  vTime : ℕ
  ansn : UInt16
  neighborAddresses : List UInt32
deriving DecidableEq

/-! ## The sets -/

/-- The first tuple for a neighbour decides. -/
def findSymLinkTuple (linkSet : List LinkTuple) (ifaceAddr : UInt32) (now : ℕ) :
    Option LinkTuple :=
  match linkSet.find? fun it => it.neighborIfaceAddr == ifaceAddr with
  | some it => if it.symTime > now then some it else none
  | none => none

def findTopologyTuple (topologySet : List TopologyTuple) (destAddr lastAddr : UInt32) :
    Option TopologyTuple :=
  topologySet.find? fun it => it.destAddr == destAddr && it.lastAddr == lastAddr

def findNewerTopologyTuple (topologySet : List TopologyTuple) (lastAddr : UInt32) (ansn : UInt16) :
    Option TopologyTuple :=
  topologySet.find? fun it => it.lastAddr == lastAddr && decide (it.sequenceNumber > ansn)

def eraseTopologyTuple (topologySet : List TopologyTuple) (tuple : TopologyTuple) :
    List TopologyTuple :=
  topologySet.eraseP fun it => it.same tuple

def eraseOlderTopologyTuples (topologySet : List TopologyTuple) (lastAddr : UInt32)
    (ansn : UInt16) : List TopologyTuple :=
  topologySet.filter fun it => !(it.lastAddr == lastAddr && decide (it.sequenceNumber < ansn))

/-- Write the expiration time of the tuple that `findTopologyTuple` finds. -/
def setExpirationTime (destAddr lastAddr : UInt32) (expirationTime : ℕ) :
    List TopologyTuple → List TopologyTuple
  | [] => []
  | it :: rest =>
    if it.destAddr == destAddr && it.lastAddr == lastAddr then
      { it with expirationTime := expirationTime } :: rest
    else it :: setExpirationTime destAddr lastAddr expirationTime rest

/-- What `ProcessTc` does for one of the advertised neighbours. -/
def recordNeighbor (now : ℕ) (msg : Tc) (topologySet : List TopologyTuple) (addr : UInt32) :
    List TopologyTuple :=
  match findTopologyTuple topologySet addr msg.originatorAddress with
  | some _ => setExpirationTime addr msg.originatorAddress (now + msg.vTime) topologySet
  | none => topologySet ++ [⟨addr, msg.originatorAddress, msg.ansn, now + msg.vTime⟩]

def processTc (linkSet : List LinkTuple) (now : ℕ) (senderIface : UInt32) (msg : Tc)
    (topologySet : List TopologyTuple) : List TopologyTuple :=
  match findSymLinkTuple linkSet senderIface now with
  | none => topologySet
  | some _ =>
    match findNewerTopologyTuple topologySet msg.originatorAddress msg.ansn with
    | some _ => topologySet
    | none =>
      msg.neighborAddresses.foldl (recordNeighbor now msg)
        (eraseOlderTopologyTuples topologySet msg.originatorAddress msg.ansn)

def topologyTupleTimerExpire (now : ℕ) (destAddr lastAddr : UInt32)
    (topologySet : List TopologyTuple) : List TopologyTuple :=
  match findTopologyTuple topologySet destAddr lastAddr with
  | none => topologySet
  | some tuple =>
    if tuple.expirationTime < now then eraseTopologyTuple topologySet tuple
    else topologySet

/-! ## The tuples of one originator -/

variable {originator : UInt32} {topologySet : List TopologyTuple}

/-- The neighbours that the topology set has for an originator. -/
def destinations (originator : UInt32) (topologySet : List TopologyTuple) : List UInt32 :=
  (topologySet.filter fun it => it.lastAddr = originator).map (·.destAddr)

theorem mem_destinations_iff {dest : UInt32} : dest ∈ destinations originator topologySet ↔
    ∃ it ∈ topologySet, it.lastAddr = originator ∧ it.destAddr = dest := by
  simp [destinations, and_assoc]

theorem findTopologyTuple_eq_none_iff {dest : UInt32} :
    findTopologyTuple topologySet dest originator = none ↔
      dest ∉ destinations originator topologySet := by
  rw [findTopologyTuple, List.find?_eq_none, mem_destinations_iff]
  simp only [Bool.and_eq_true, beq_iff_eq]
  exact ⟨fun h ⟨it, hmem, hlast, hdest⟩ => h it hmem ⟨hdest, hlast⟩,
    fun h it hmem ⟨hdest, hlast⟩ => h ⟨it, hmem, hlast, hdest⟩⟩

theorem findNewerTopologyTuple_eq_none_iff {ansn : UInt16} :
    findNewerTopologyTuple topologySet originator ansn = none ↔
      ∀ it ∈ topologySet, it.lastAddr = originator → it.sequenceNumber ≤ ansn := by
  rw [findNewerTopologyTuple, List.find?_eq_none]
  simp only [Bool.and_eq_true, beq_iff_eq, decide_eq_true_eq, not_and, UInt16.not_lt]

/-- The topology set has one tuple for each of these neighbours of the originator, all with one
sequence number, and each with one of these expiration times. -/
structure Recorded (originator : UInt32) (neighbors : Set UInt32) (ansn : UInt16) (times : Set ℕ)
    (topologySet : List TopologyTuple) : Prop where
  nodup : (destinations originator topologySet).Nodup
  mem_iff : ∀ dest, dest ∈ destinations originator topologySet ↔ dest ∈ neighbors
  ansn_eq : ∀ it ∈ topologySet, it.lastAddr = originator → it.sequenceNumber = ansn
  time_mem : ∀ it ∈ topologySet, it.lastAddr = originator → it.expirationTime ∈ times

theorem mem_setExpirationTime {destAddr lastAddr : UInt32} {time : ℕ} {it : TopologyTuple}
    (h : it ∈ setExpirationTime destAddr lastAddr time topologySet) :
    it ∈ topologySet ∨ ∃ old ∈ topologySet, it = { old with expirationTime := time } := by
  induction topologySet with
  | nil => exact absurd h List.not_mem_nil
  | cons first rest ih =>
    rw [setExpirationTime] at h
    split at h
    · rcases List.mem_cons.1 h with rfl | h
      · exact .inr ⟨first, List.mem_cons_self, rfl⟩
      · exact .inl (List.mem_cons_of_mem _ h)
    · rcases List.mem_cons.1 h with rfl | h
      · exact .inl List.mem_cons_self
      · exact (ih h).imp (List.mem_cons_of_mem _)
          fun ⟨old, hold, heq⟩ => ⟨old, List.mem_cons_of_mem _ hold, heq⟩

theorem destinations_cons (it : TopologyTuple) :
    destinations originator (it :: topologySet) =
      if it.lastAddr = originator then it.destAddr :: destinations originator topologySet
      else destinations originator topologySet := by
  by_cases h : it.lastAddr = originator <;> simp [destinations, h]

theorem destinations_setExpirationTime (destAddr lastAddr : UInt32) (time : ℕ) :
    destinations originator (setExpirationTime destAddr lastAddr time topologySet) =
      destinations originator topologySet := by
  induction topologySet with
  | nil => rfl
  | cons first rest ih =>
    rw [setExpirationTime]
    split
    · rw [destinations_cons, destinations_cons]
    · rw [destinations_cons, destinations_cons, ih]

theorem destinations_append (it : TopologyTuple) :
    destinations originator (topologySet ++ [it]) =
      if it.lastAddr = originator then destinations originator topologySet ++ [it.destAddr]
      else destinations originator topologySet := by
  by_cases h : it.lastAddr = originator <;> simp [destinations, h]

namespace Recorded

variable {neighbors : Set UInt32} {times : Set ℕ}

theorem recordNeighbor {now : ℕ} {msg : Tc} (h : Recorded msg.originatorAddress neighbors msg.ansn
    times topologySet) (htime : now + msg.vTime ∈ times) (addr : UInt32) :
    Recorded msg.originatorAddress (insert addr neighbors) msg.ansn times
      (Olsr.recordNeighbor now msg topologySet addr) := by
  unfold Olsr.recordNeighbor
  cases hfind : findTopologyTuple topologySet addr msg.originatorAddress with
  | some found =>
    have hmem : addr ∈ destinations msg.originatorAddress topologySet := by
      by_contra hnot
      rw [findTopologyTuple_eq_none_iff.2 hnot] at hfind
      cases hfind
    have hinsert : insert addr neighbors = neighbors :=
      Set.insert_eq_of_mem ((h.mem_iff addr).1 hmem)
    constructor
    · rw [destinations_setExpirationTime]
      exact h.nodup
    · rw [destinations_setExpirationTime, hinsert]
      exact h.mem_iff
    · intro it hit hlast
      rcases mem_setExpirationTime hit with hit | ⟨old, hold, rfl⟩
      · exact h.ansn_eq it hit hlast
      · exact h.ansn_eq old hold hlast
    · intro it hit hlast
      rcases mem_setExpirationTime hit with hit | ⟨old, -, rfl⟩
      · exact h.time_mem it hit hlast
      · exact htime
  | none =>
    have hnot := findTopologyTuple_eq_none_iff.1 hfind
    have happend : destinations msg.originatorAddress
        (topologySet ++ [⟨addr, msg.originatorAddress, msg.ansn, now + msg.vTime⟩]) =
          destinations msg.originatorAddress topologySet ++ [addr] := by
      rw [destinations_append, if_pos rfl]
    constructor
    · rw [happend]
      exact List.nodup_append_comm.1 (List.nodup_cons.2 ⟨hnot, h.nodup⟩)
    · intro dest
      rw [happend, List.mem_append, List.mem_singleton, h.mem_iff, Set.mem_insert_iff, or_comm]
    · exact List.forall_mem_append.2 ⟨h.ansn_eq, List.forall_mem_singleton.2 fun _ => rfl⟩
    · exact List.forall_mem_append.2 ⟨h.time_mem, List.forall_mem_singleton.2 fun _ => htime⟩

theorem foldl_recordNeighbor {now : ℕ} {msg : Tc} (h : Recorded msg.originatorAddress neighbors
    msg.ansn times topologySet) (htime : now + msg.vTime ∈ times) (addrs : List UInt32) :
    Recorded msg.originatorAddress ({addr | addr ∈ addrs} ∪ neighbors) msg.ansn times
      (addrs.foldl (Olsr.recordNeighbor now msg) topologySet) := by
  induction addrs generalizing topologySet neighbors with
  | nil => simpa using h
  | cons addr addrs ih =>
    have hset : {a | a ∈ addr :: addrs} ∪ neighbors =
        {a | a ∈ addrs} ∪ insert addr neighbors := by
      ext a
      simp only [Set.mem_union, Set.mem_ofPred_eq, List.mem_cons, Set.mem_insert_iff]
      tauto
    rw [hset]
    exact ih (h.recordNeighbor htime addr)

end Recorded

/-! ## What the originator has advertised -/

/-- A TC message with the time of its reception. -/
abbrev Received := ℕ × Tc

/-- The neighbours advertised by some messages. -/
def advertised (messages : List Received) : Set UInt32 :=
  {addr | ∃ m ∈ messages, addr ∈ m.2.neighborAddresses}

/-- The times until which some messages are valid. -/
def validUntil (messages : List Received) : Set ℕ := {time | ∃ m ∈ messages, time = m.1 + m.2.vTime}

/-- The messages under the latest ANSN, after one more message. -/
def latestWith (latest : List Received) (m : Received) : List Received :=
  m :: latest.filter fun m' => m'.2.ansn = m.2.ansn

/-- The topology set has the neighbours advertised by the latest messages, which have one ANSN. -/
def UpToDate (originator : UInt32) (latest : List Received) (topologySet : List TopologyTuple) :
    Prop :=
  ∃ ansn, (∀ m ∈ latest, m.2.ansn = ansn) ∧
    Recorded originator (advertised latest) ansn (validUntil latest) topologySet

theorem advertised_latestWith (latest : List Received) (m : Received) :
    advertised (latestWith latest m) = {addr | addr ∈ m.2.neighborAddresses} ∪
      advertised (latest.filter fun m' => m'.2.ansn = m.2.ansn) := by
  ext addr
  simp [advertised, latestWith]

theorem Recorded.of_none {ansn : UInt16} {times : Set ℕ}
    (h : ∀ it ∈ topologySet, it.lastAddr ≠ originator) :
    Recorded originator ∅ ansn times topologySet := by
  have hempty : destinations originator topologySet = [] := by
    rw [List.eq_nil_iff_forall_not_mem]
    intro dest hdest
    obtain ⟨it, hit, hlast, -⟩ := mem_destinations_iff.1 hdest
    exact h it hit hlast
  constructor
  · rw [hempty]
    exact List.nodup_nil
  · intro dest
    simp [hempty]
  · exact fun it hit hlast => absurd hlast (h it hit)
  · exact fun it hit hlast => absurd hlast (h it hit)

/-- What is left of the tuples if none of them is newer: all of them for one more message with the
same ANSN, and none for a message with another one. -/
theorem Recorded.eraseOlder {latest : List Received} {ansn ansn' : UInt16}
    (hansn : ∀ m ∈ latest, m.2.ansn = ansn)
    (h : Recorded originator (advertised latest) ansn (validUntil latest) topologySet)
    (hnewer : findNewerTopologyTuple topologySet originator ansn' = none) :
    Recorded originator (advertised (latest.filter fun m => m.2.ansn = ansn')) ansn'
      (validUntil (latest.filter fun m => m.2.ansn = ansn'))
      (eraseOlderTopologyTuples topologySet originator ansn') := by
  have hle := findNewerTopologyTuple_eq_none_iff.1 hnewer
  by_cases heq : ansn = ansn'
  · subst heq
    have hall : latest.filter (fun m => m.2.ansn = ansn) = latest :=
      List.filter_eq_self.2 fun m hm => decide_eq_true (hansn m hm)
    have hkeep : eraseOlderTopologyTuples topologySet originator ansn = topologySet := by
      refine List.filter_eq_self.2 fun it hit => ?_
      by_cases hlast : it.lastAddr = originator
      · simp [h.ansn_eq it hit hlast]
      · simp [hlast]
    rw [hall, hkeep]
    exact h
  · have hnone : latest.filter (fun m => m.2.ansn = ansn') = [] := by
      rw [List.filter_eq_nil_iff]
      intro m hm
      rw [decide_eq_true_eq, hansn m hm]
      exact heq
    have hempty : advertised ([] : List Received) = ∅ := by simp [advertised]
    rw [hnone, hempty]
    refine .of_none fun it hit hlast => ?_
    obtain ⟨hmem, hkept⟩ := List.mem_filter.1 hit
    have hlt : it.sequenceNumber < ansn' := by
      apply UInt16.lt_of_le_of_ne (hle it hmem hlast)
      rw [h.ansn_eq it hmem hlast]
      exact heq
    simp [hlast, hlt] at hkept

theorem Recorded.mono {neighbors : Set UInt32} {ansn : UInt16} {times times' : Set ℕ}
    (h : Recorded originator neighbors ansn times topologySet) (hsub : times ⊆ times') :
    Recorded originator neighbors ansn times' topologySet :=
  ⟨h.nodup, h.mem_iff, h.ansn_eq, fun it hit hlast => hsub (h.time_mem it hit hlast)⟩

theorem UpToDate.processTc {linkSet : List LinkTuple} {now : ℕ} {senderIface : UInt32} {msg : Tc}
    {latest : List Received} (h : UpToDate msg.originatorAddress latest topologySet)
    (hsym : findSymLinkTuple linkSet senderIface now ≠ none)
    (hnewer : findNewerTopologyTuple topologySet msg.originatorAddress msg.ansn = none) :
    UpToDate msg.originatorAddress (latestWith latest (now, msg))
      (Olsr.processTc linkSet now senderIface msg topologySet) := by
  obtain ⟨ansn, hansn, hrec⟩ := h
  obtain ⟨link, hlink⟩ := Option.ne_none_iff_exists'.1 hsym
  refine ⟨msg.ansn, ?_, ?_⟩
  · refine List.forall_mem_cons.2 ⟨rfl, fun m hm => ?_⟩
    exact of_decide_eq_true (List.mem_filter.1 hm).2
  · rw [advertised_latestWith, Olsr.processTc, hlink, hnewer]
    have htime : now + msg.vTime ∈ validUntil (latestWith latest (now, msg)) :=
      ⟨(now, msg), List.mem_cons_self, rfl⟩
    refine Recorded.foldl_recordNeighbor ((hrec.eraseOlder hansn hnewer).mono ?_) htime _
    rintro time ⟨m, hm, rfl⟩
    exact ⟨m, List.mem_cons_of_mem _ hm, rfl⟩

theorem findTopologyTuple_eq_some {dest : UInt32} {it : TopologyTuple}
    (h : findTopologyTuple topologySet dest originator = some it) :
    it ∈ topologySet ∧ it.destAddr = dest ∧ it.lastAddr = originator := by
  have hkey := List.find?_some h
  rw [Bool.and_eq_true, beq_iff_eq, beq_iff_eq] at hkey
  exact ⟨List.mem_of_find?_eq_some h, hkey⟩

theorem destinations_eraseTopologyTuple {tuple : TopologyTuple}
    (hother : tuple.lastAddr ≠ originator) :
    destinations originator (eraseTopologyTuple topologySet tuple) =
      destinations originator topologySet := by
  unfold eraseTopologyTuple
  induction topologySet with
  | nil => rfl
  | cons it rest ih =>
    cases hsame : it.same tuple with
    | true =>
      have hlast : it.lastAddr = tuple.lastAddr := by
        simp only [TopologyTuple.same, Bool.and_eq_true, beq_iff_eq] at hsame
        exact hsame.1.2
      have herase : (it :: rest).eraseP (fun it => it.same tuple) = rest :=
        List.eraseP_cons_of_pos hsame
      rw [herase, destinations_cons, hlast, if_neg hother]
    | false =>
      rw [List.eraseP_cons_of_neg (by simp [hsame]), destinations_cons, destinations_cons, ih]

/-- A timer removes nothing of an originator whose latest messages are all valid. -/
theorem UpToDate.topologyTupleTimerExpire {now : ℕ} {latest : List Received}
    (h : UpToDate originator latest topologySet) (hvalid : ∀ m ∈ latest, now ≤ m.1 + m.2.vTime)
    (destAddr lastAddr : UInt32) :
    UpToDate originator latest
      (Olsr.topologyTupleTimerExpire now destAddr lastAddr topologySet) := by
  obtain ⟨ansn, hansn, hrec⟩ := h
  refine ⟨ansn, hansn, ?_⟩
  unfold Olsr.topologyTupleTimerExpire
  cases hfind : findTopologyTuple topologySet destAddr lastAddr with
  | none => exact hrec
  | some tuple =>
    obtain ⟨hmem, -, hlast⟩ := findTopologyTuple_eq_some hfind
    dsimp only
    split_ifs with hexpired
    · have hother : tuple.lastAddr ≠ originator := by
        intro heq
        obtain ⟨m, hm, htime⟩ := hrec.time_mem tuple hmem heq
        have hle := hvalid m hm
        omega
      constructor
      · rw [destinations_eraseTopologyTuple hother]
        exact hrec.nodup
      · rw [destinations_eraseTopologyTuple hother]
        exact hrec.mem_iff
      · exact fun it hit => hrec.ansn_eq it (List.mem_of_mem_eraseP hit)
      · exact fun it hit => hrec.time_mem it (List.mem_of_mem_eraseP hit)
    · exact hrec

/-! ## Runs -/

/-- The node that listens to an originator.  `latest` is not in the code: the messages of the
originator under its latest ANSN. -/
structure Listener where
  linkSet : List LinkTuple
  topologySet : List TopologyTuple
  latest : List Received
deriving DecidableEq

inductive Event
  | tc (now : ℕ) (senderIface : UInt32) (msg : Tc)
  | timer (now : ℕ) (destAddr lastAddr : UInt32)
  | links (linkSet : List LinkTuple)
deriving DecidableEq

namespace Listener

def apply (s : Listener) : Event → Listener
  | .tc now senderIface msg =>
    { s with
      topologySet := processTc s.linkSet now senderIface msg s.topologySet
      latest := latestWith s.latest (now, msg) }
  | .timer now destAddr lastAddr =>
    { s with topologySet := topologyTupleTimerExpire now destAddr lastAddr s.topologySet }
  | .links linkSet => { s with linkSet := linkSet }

/-- The latest messages are still valid. -/
def Valid (s : Listener) (now : ℕ) : Prop := ∀ m ∈ s.latest, now ≤ m.1 + m.2.vTime

/-- The next event may be a message of the originator from a symmetric neighbour, whose ANSN has
advanced by less than half of its space. -/
def Next (originator : UInt32) (s : Listener) : Event → Prop
  | .tc now senderIface msg =>
    msg.originatorAddress = originator ∧ findSymLinkTuple s.linkSet senderIface now ≠ none ∧
      s.Valid now ∧ ∀ m ∈ s.latest, (msg.ansn - m.2.ansn).toNat < 2 ^ 15
  | .timer now _ _ => s.Valid now
  | .links _ => True

def Step (originator : UInt32) (s : Listener) (e : Event) (t : Listener) : Prop :=
  s.Next originator e ∧ t = s.apply e

/-- The topology tuples of the originator are the neighbours that it has advertised under its latest
ANSN, one tuple for each. -/
def Tracks (originator : UInt32) (s : Listener) : Prop :=
  (destinations originator s.topologySet).Nodup ∧
    ∀ dest, dest ∈ destinations originator s.topologySet ↔ dest ∈ advertised s.latest

/-- No stored tuple of the originator has a greater sequence number than the message. -/
def NoneNewer (originator : UInt32) (s : Listener) : Event → Prop
  | .tc _ _ msg => findNewerTopologyTuple s.topologySet originator msg.ansn = none
  | _ => True

variable {s t : Listener} {e : Event}

/-- A message that meets a tuple with a greater sequence number is discarded, and leaves tuples
that are not under its ANSN. -/
theorem noneNewer_of_upToDate (hst : Step originator s e t)
    (ht : UpToDate originator t.latest t.topologySet) : s.NoneNewer originator e := by
  obtain ⟨hnext, rfl⟩ := hst
  cases e with
  | tc now senderIface msg =>
    obtain ⟨rfl, hsym, -, -⟩ := hnext
    obtain ⟨link, hlink⟩ := Option.ne_none_iff_exists'.1 hsym
    obtain ⟨ansn, hansn, hrec⟩ := ht
    obtain rfl : msg.ansn = ansn := hansn (now, msg) List.mem_cons_self
    cases hnewer : findNewerTopologyTuple s.topologySet msg.originatorAddress msg.ansn with
    | none => exact hnewer
    | some newer =>
      have hkept : (s.apply (.tc now senderIface msg)).topologySet = s.topologySet := by
        change processTc _ _ _ _ _ = _
        rw [processTc, hlink, hnewer]
      have hfound := List.find?_some hnewer
      rw [Bool.and_eq_true, beq_iff_eq, decide_eq_true_eq] at hfound
      have heq := hrec.ansn_eq newer (hkept ▸ List.mem_of_find?_eq_some hnewer) hfound.1
      exact absurd hfound.2 (heq ▸ UInt16.lt_irrefl _)
  | timer now destAddr lastAddr => trivial
  | links linkSet => trivial

theorem upToDate_step_iff (hs : UpToDate originator s.latest s.topologySet)
    (hst : Step originator s e t) :
    UpToDate originator t.latest t.topologySet ↔ s.NoneNewer originator e := by
  refine ⟨noneNewer_of_upToDate hst, fun hnewer => ?_⟩
  obtain ⟨hnext, rfl⟩ := hst
  cases e with
  | tc now senderIface msg =>
    obtain ⟨rfl, hsym, -, -⟩ := hnext
    exact hs.processTc hsym hnewer
  | timer now destAddr lastAddr => exact hs.topologyTupleTimerExpire hnext destAddr lastAddr
  | links linkSet => exact hs

theorem upToDate_of_none (hnone : ∀ it ∈ s.topologySet, it.lastAddr ≠ originator)
    (hlatest : s.latest = []) : UpToDate originator s.latest s.topologySet := by
  have hempty : advertised ([] : List Received) = ∅ := by simp [advertised]
  rw [hlatest]
  refine ⟨0, List.forall_mem_nil _, ?_⟩
  rw [hempty]
  exact .of_none hnone

/-- The tuples carry the latest ANSN all along a run exactly if no message meets a tuple with a
greater sequence number. -/
theorem upToDate_iff_of_run {s₀ : Listener} {trace : List (Listener × Event)}
    (hnone : ∀ it ∈ s₀.topologySet, it.lastAddr ≠ originator) (hlatest : s₀.latest = [])
    (h : Run (Step originator) s₀ trace s) :
    ((∀ p ∈ trace, UpToDate originator p.1.latest p.1.topologySet) ∧
        UpToDate originator s.latest s.topologySet) ↔
      ∀ p ∈ trace, p.1.NoneNewer originator p.2 := by
  simpa only [not_not] using h.forall_iff (fun s => UpToDate originator s.latest s.topologySet)
    (fun s e => ¬ s.NoneNewer originator e) (upToDate_of_none hnone hlatest)
    fun _ s e t _ hst hs => (upToDate_step_iff hs hst).trans not_not.symm

theorem tracks_of_upToDate (h : UpToDate originator s.latest s.topologySet) :
    s.Tracks originator := by
  obtain ⟨ansn, -, hrec⟩ := h
  exact ⟨hrec.nodup, hrec.mem_iff⟩

/-- In a run that starts without tuples of the originator, and in which no message meets a tuple
with a greater sequence number, the topology set follows the latest ANSN. -/
theorem tracks_of_run {s₀ : Listener} {trace : List (Listener × Event)}
    (hnone : ∀ it ∈ s₀.topologySet, it.lastAddr ≠ originator) (hlatest : s₀.latest = [])
    (h : Run (Step originator) s₀ trace s) (hnewer : ∀ p ∈ trace, p.1.NoneNewer originator p.2) :
    (∀ p ∈ trace, p.1.Tracks originator) ∧ s.Tracks originator := by
  obtain ⟨hall, hs⟩ := (upToDate_iff_of_run hnone hlatest h).2 hnewer
  exact ⟨fun p hp => tracks_of_upToDate (hall p hp), tracks_of_upToDate hs⟩

/-! ## Around the wrap -/

instance (s : Listener) (now : ℕ) : Decidable (s.Valid now) :=
  inferInstanceAs (Decidable (∀ m ∈ s.latest, _))

instance (s : Listener) : (e : Event) → Decidable (s.Next originator e)
  | .tc _ _ _ => inferInstanceAs (Decidable (_ ∧ _ ∧ _ ∧ ∀ m ∈ s.latest, _))
  | .timer now _ _ => inferInstanceAs (Decidable (s.Valid now))
  | .links _ => .isTrue trivial

instance (s : Listener) : (e : Event) → Decidable (s.NoneNewer originator e)
  | .tc _ _ _ => inferInstanceAs (Decidable (_ = _))
  | .timer _ _ _ => .isTrue trivial
  | .links _ => .isTrue trivial

/-- The step as a function of the event. -/
def next (originator : UInt32) (s : Listener) (e : Event) : Option Listener :=
  if s.Next originator e then some (s.apply e) else none

theorem step_of_next (h : s.next originator e = some t) : Step originator s e t := by
  unfold next at h
  split_ifs at h with hnext
  exact ⟨hnext, (Option.some.inj h).symm⟩

/-- A node with a symmetric neighbour that has heard nothing yet. -/
def quiet : Listener := ⟨[⟨1, 2, 100, 100⟩], [], []⟩

/-- The tuples follow a message that advertises other neighbours under the next ANSN. -/
theorem tracks_next_ansn : ∃ trace s, Run (Step 9) quiet trace s ∧
    trace.map (·.2) = [.tc 0 2 ⟨9, 15, 1, [5, 6]⟩, .timer 5 5 9, .tc 10 2 ⟨9, 15, 2, [6, 7]⟩] ∧
      (∀ p ∈ trace, p.1.Tracks 9) ∧ s.Tracks 9 := by
  have hrun : (Run.runOf (next 9) quiet [.tc 0 2 ⟨9, 15, 1, [5, 6]⟩, .timer 5 5 9,
      .tc 10 2 ⟨9, 15, 2, [6, 7]⟩]).any
        (fun r => decide (∀ p ∈ r.1, p.1.NoneNewer 9 p.2)) = true := by
    decide +kernel
  obtain ⟨⟨trace, s⟩, hevents, hs⟩ := (Option.any_eq_true _ _).1 hrun
  have hrun : Run (Step 9) quiet trace s := Run.of_runOf (fun _ _ _ => step_of_next) hevents
  exact ⟨trace, s, hrun, Run.runOf_events hevents,
    tracks_of_run (List.forall_mem_nil _) rfl hrun (of_decide_eq_true hs)⟩

/-- The message after the wrap of the ANSN is discarded. -/
theorem not_tracks_wrap : ∃ trace s, Run (Step 9) quiet trace s ∧
    trace.map (·.2) = [.tc 0 2 ⟨9, 15, 65535, [5]⟩, .tc 5 2 ⟨9, 15, 0, [6]⟩] ∧
      ¬ s.Tracks 9 := by
  have hrun : (Run.runOf (next 9) quiet [.tc 0 2 ⟨9, 15, 65535, [5]⟩,
      .tc 5 2 ⟨9, 15, 0, [6]⟩]).any
        (fun r => decide (5 ∈ destinations 9 r.2.topologySet ∧
          r.2.latest = [(5, ⟨9, 15, 0, [6]⟩)])) = true := by
    decide +kernel
  obtain ⟨⟨trace, s⟩, hevents, hs⟩ := (Option.any_eq_true _ _).1 hrun
  obtain ⟨hmem, hlatest⟩ := of_decide_eq_true hs
  refine ⟨trace, s, Run.of_runOf (fun _ _ _ => step_of_next) hevents, Run.runOf_events hevents,
    fun h => ?_⟩
  have hadv := (h.2 5).1 hmem
  rw [hlatest] at hadv
  simp [advertised] at hadv

end Listener

end SeanetSim.Olsr
