import Mathlib.Data.List.Basic
import SeanetSim.Lib.Run

/-!
# Defragmentation in `MacRxMiddle`

`MacRxMiddle` keeps, for each originator and TID, the sequence control of the last MPDU and the
fragments of an MSDU that is being put together.  While it is putting one together, it takes only
the next fragment of that MSDU, and nothing makes it give up.

The originator sends its MSDUs one after the other; each MPDU is received any number of times, the
second time and later ones as a retry.  The simulation of the PCF is left out.
-/

namespace SeanetSim

variable {α : Type*}

/-- What `Receive` reads of a header. -/
structure MpduHeader where
  seqSeq : ℕ
  seqFrag : ℕ
  moreFragments : Bool
  retry : Bool
  addr1IsGroup : Bool

/-- `GetSequenceControl`. -/
def MpduHeader.sequenceControl (hdr : MpduHeader) : ℕ := (hdr.seqSeq <<< 4) ||| hdr.seqFrag

/-- `OriginatorRxStatus`; a packet is the list of its bytes. -/
structure OriginatorRxStatus (α : Type*) where
  defragmenting : Bool
  lastSequenceControl : ℕ
  fragments : List (List α)

namespace OriginatorRxStatus

variable (s : OriginatorRxStatus α) (packet : List α) (hdr : MpduHeader)

def init : OriginatorRxStatus α := ⟨false, 0xffff, []⟩

def accumulateFirstFragment : OriginatorRxStatus α :=
  { s with defragmenting := true, fragments := s.fragments ++ [packet] }

def accumulateFragment : OriginatorRxStatus α := { s with fragments := s.fragments ++ [packet] }

def accumulateLastFragment : List α × OriginatorRxStatus α :=
  ((s.fragments ++ [packet]).flatten, { s with defragmenting := false, fragments := [] })

def isNextFragment (sequenceControl : ℕ) : Bool :=
  sequenceControl >>> 4 == s.lastSequenceControl >>> 4 &&
    (sequenceControl &&& 0x0f) == (s.lastSequenceControl &&& 0x0f) + 1

def setSequenceControl (sequenceControl : ℕ) : OriginatorRxStatus α :=
  { s with lastSequenceControl := sequenceControl }

/-- `IsDuplicate`. -/
def isDuplicate : Bool := hdr.retry && s.lastSequenceControl == hdr.sequenceControl

/-- `HandleFragments`. -/
def handleFragments : Option (List α) × OriginatorRxStatus α :=
  if s.defragmenting then
    if hdr.moreFragments then
      if s.isNextFragment hdr.sequenceControl then
        (none, (s.accumulateFragment packet).setSequenceControl hdr.sequenceControl)
      else (none, s)
    else
      if s.isNextFragment hdr.sequenceControl then
        let (p, s') := s.accumulateLastFragment packet
        (some p, s'.setSequenceControl hdr.sequenceControl)
      else (none, s)
  else
    if hdr.moreFragments then
      (none, (s.accumulateFirstFragment packet).setSequenceControl hdr.sequenceControl)
    else (some packet, s)

/-- `Receive`, with the packet that it forwards up. -/
def receive : Option (List α) × OriginatorRxStatus α :=
  if s.isDuplicate hdr then (none, s)
  else
    let (aggregate, s') := s.handleFragments packet hdr
    match aggregate with
    | none => (none, s')
    | some p =>
      (some p, if !hdr.addr1IsGroup then s'.setSequenceControl hdr.sequenceControl else s')

end OriginatorRxStatus

/-! ### Reception of what an originator sends -/

/-- An MPDU: its payload, and the Retry flags with which it is received. -/
abbrev SentMpdu (α : Type*) := List α × List Bool

namespace OriginatorRxStatus

/-- An MPDU is received with some Retry flags, one after the other. -/
def receiveAll (s : OriginatorRxStatus α) (packet : List α) (hdr : MpduHeader) :
    List Bool → List (List α) × OriginatorRxStatus α
  | [] => ([], s)
  | retry :: flags =>
    let (p, s') := s.receive packet { hdr with retry := retry }
    let (out, t) := s'.receiveAll packet hdr flags
    (p.toList ++ out, t)

/-- The MPDUs of an MSDU are received, from a fragment number on. -/
def receiveMsdu (seq : ℕ) (s : OriginatorRxStatus α) (frag : ℕ) :
    List (SentMpdu α) → List (List α) × OriginatorRxStatus α
  | [] => ([], s)
  | (packet, flags) :: rest =>
    let (out, s') := s.receiveAll packet ⟨seq, frag, !rest.isEmpty, false, false⟩ flags
    let (out', t) := receiveMsdu seq s' (frag + 1) rest
    (out ++ out', t)

end OriginatorRxStatus

/-- An originator and its receiver: the sequence number of the next MSDU, what the receiver has
forwarded up, and the MSDUs all of whose MPDUs have arrived. -/
structure DefragRun (α : Type*) where
  status : OriginatorRxStatus α
  seq : ℕ
  forwarded : List (List α)
  arrived : List (List α)

/-- An MSDU has up to 16 fragments, and what is received again is a retry. -/
structure IsMsdu (msdu : List (SentMpdu α)) : Prop where
  ne_nil : msdu ≠ []
  length_le : msdu.length ≤ 16
  retries : ∀ mpdu ∈ msdu, ∀ retry ∈ mpdu.2.tail, retry = true

namespace DefragRun

variable {y z : DefragRun α} {msdu : List (SentMpdu α)}

def init (seq : ℕ) : DefragRun α := ⟨.init, seq, [], []⟩

/-- What an originator has sent arrives completely, or else nothing is to be forwarded. -/
def arriving (msdu : List (SentMpdu α)) : List (List α) :=
  if msdu.all fun mpdu => !mpdu.2.isEmpty then [(msdu.map (·.1)).flatten] else []

def next (y : DefragRun α) (msdu : List (SentMpdu α)) : DefragRun α :=
  let (out, status) := OriginatorRxStatus.receiveMsdu y.seq y.status 0 msdu
  ⟨status, (y.seq + 1) % 4096, y.forwarded ++ out, y.arrived ++ arriving msdu⟩

def Step (y : DefragRun α) (msdu : List (SentMpdu α)) (z : DefragRun α) : Prop :=
  IsMsdu msdu ∧ z = y.next msdu

/-- Every MSDU whose MPDUs have all arrived has been forwarded, in order, and nothing else. -/
def Recovers (y : DefragRun α) : Prop := y.forwarded = y.arrived

/-- Some MPDUs of the MSDU arrive and some do not. -/
def Partial (msdu : List (SentMpdu α)) : Prop :=
  (∃ mpdu ∈ msdu, mpdu.2 = []) ∧ ∃ mpdu ∈ msdu, mpdu.2 ≠ []

/-- The first MPDU arrives as a retry and has the sequence control of the last one that has been
taken. -/
def Mistaken (y : DefragRun α) (msdu : List (SentMpdu α)) : Prop :=
  ∃ mpdu ∈ msdu.head?, mpdu.2.head? = some true ∧ y.status.lastSequenceControl = y.seq <<< 4 ||| 0

/-- No MSDU is being put together. -/
structure Idle (y : DefragRun α) : Prop where
  recovers : y.Recovers
  defragmenting : y.status.defragmenting = false
  fragments : y.status.fragments = []

end DefragRun

/-! ### Sequence controls -/

namespace MpduHeader

variable {seq frag : ℕ}

theorem sequenceControl_eq (hfrag : frag < 16) : seq <<< 4 ||| frag = seq * 16 + frag := by
  rw [← Nat.shiftLeft_add_eq_or_of_lt hfrag, Nat.shiftLeft_eq]

theorem sequenceControl_shiftRight (hfrag : frag < 16) : (seq <<< 4 ||| frag) >>> 4 = seq := by
  rw [sequenceControl_eq hfrag, Nat.shiftRight_eq_div_pow]
  omega

theorem sequenceControl_and (hfrag : frag < 16) : (seq <<< 4 ||| frag) &&& 0x0f = frag := by
  rw [sequenceControl_eq hfrag, Nat.and_two_pow_sub_one_eq_mod _ 4]
  omega

end MpduHeader

namespace OriginatorRxStatus

variable {s : OriginatorRxStatus α} {packet : List α} {hdr : MpduHeader} {seq frag : ℕ}
  {flags : List Bool} {msdu : List (SentMpdu α)}

theorem receiveAll_duplicates (hlast : s.lastSequenceControl = hdr.sequenceControl)
    (hflags : ∀ retry ∈ flags, retry = true) : s.receiveAll packet hdr flags = ([], s) := by
  induction flags with
  | nil => rfl
  | cons retry flags ih =>
    obtain rfl := hflags retry List.mem_cons_self
    have hdup : s.isDuplicate { hdr with retry := true } = true := by
      simpa [isDuplicate, MpduHeader.sequenceControl] using hlast
    have hrest := ih fun r hr => hflags r (List.mem_cons_of_mem _ hr)
    simp only [receiveAll, receive, hdup, if_true, hrest, Option.toList_none, List.nil_append]

/-- The first reception of an MPDU counts, the retries are duplicates. -/
theorem receiveAll_cons {more retry : Bool} {p : Option (List α)} {t : OriginatorRxStatus α}
    (hreceive : s.receive packet ⟨seq, frag, more, retry, false⟩ = (p, t))
    (hlast : t.lastSequenceControl = seq <<< 4 ||| frag) (hflags : ∀ r ∈ flags, r = true) :
    s.receiveAll packet ⟨seq, frag, more, false, false⟩ (retry :: flags) = (p.toList, t) := by
  have hrest : t.receiveAll packet ⟨seq, frag, more, false, false⟩ flags = ([], t) :=
    receiveAll_duplicates hlast hflags
  simp only [receiveAll, hreceive, hrest, List.append_nil]

theorem isNextFragment_succ (hfrag : frag + 1 < 16)
    (hlast : s.lastSequenceControl = seq <<< 4 ||| frag) :
    s.isNextFragment (seq <<< 4 ||| (frag + 1)) = true := by
  rw [isNextFragment, hlast, MpduHeader.sequenceControl_shiftRight hfrag,
    MpduHeader.sequenceControl_shiftRight (Nat.lt_of_succ_lt hfrag),
    MpduHeader.sequenceControl_and hfrag, MpduHeader.sequenceControl_and (Nat.lt_of_succ_lt hfrag)]
  simp

theorem isDuplicate_next (hfrag : frag + 1 < 16)
    (hlast : s.lastSequenceControl = seq <<< 4 ||| frag) (more retry group : Bool) :
    s.isDuplicate ⟨seq, frag + 1, more, retry, group⟩ = false := by
  have hne : s.lastSequenceControl ≠ seq <<< 4 ||| (frag + 1) := by
    rw [hlast, MpduHeader.sequenceControl_eq hfrag,
      MpduHeader.sequenceControl_eq (Nat.lt_of_succ_lt hfrag)]
    omega
  simp [isDuplicate, MpduHeader.sequenceControl, hne]

theorem receive_middle (packet : List α) (hfrag : frag + 1 < 16) (hdefrag : s.defragmenting = true)
    (hlast : s.lastSequenceControl = seq <<< 4 ||| frag) (retry : Bool) :
    s.receive packet ⟨seq, frag + 1, true, retry, false⟩ =
      (none, ⟨true, seq <<< 4 ||| (frag + 1), s.fragments ++ [packet]⟩) := by
  have hdup := isDuplicate_next hfrag hlast true retry false
  have hnext := isNextFragment_succ hfrag hlast
  obtain ⟨defragmenting, last, fragments⟩ := s
  obtain rfl : defragmenting = true := hdefrag
  simp [receive, hdup, handleFragments, MpduHeader.sequenceControl, hnext, accumulateFragment,
    setSequenceControl]

theorem receive_last (packet : List α) (hfrag : frag + 1 < 16) (hdefrag : s.defragmenting = true)
    (hlast : s.lastSequenceControl = seq <<< 4 ||| frag) (retry : Bool) :
    s.receive packet ⟨seq, frag + 1, false, retry, false⟩ =
      (some (s.fragments ++ [packet]).flatten, ⟨false, seq <<< 4 ||| (frag + 1), []⟩) := by
  have hdup := isDuplicate_next hfrag hlast false retry false
  have hnext := isNextFragment_succ hfrag hlast
  obtain ⟨defragmenting, last, fragments⟩ := s
  obtain rfl : defragmenting = true := hdefrag
  simp [receive, hdup, handleFragments, MpduHeader.sequenceControl, hnext, accumulateLastFragment,
    setSequenceControl]

theorem receive_first (packet : List α) (hdefrag : s.defragmenting = false) (hfragments : s.fragments = [])
    {retry : Bool} (hfresh : ¬ (retry = true ∧ s.lastSequenceControl = seq <<< 4 ||| 0)) :
    s.receive packet ⟨seq, 0, true, retry, false⟩ =
      (none, ⟨true, seq <<< 4 ||| 0, [packet]⟩) := by
  have hdup : s.isDuplicate ⟨seq, 0, true, retry, false⟩ = false := by
    simpa [isDuplicate, MpduHeader.sequenceControl] using hfresh
  obtain ⟨defragmenting, last, fragments⟩ := s
  obtain rfl : defragmenting = false := hdefrag
  obtain rfl : fragments = [] := hfragments
  simp [receive, hdup, handleFragments, MpduHeader.sequenceControl, accumulateFirstFragment,
    setSequenceControl]

theorem receive_whole (packet : List α) (hdefrag : s.defragmenting = false) {retry : Bool}
    (hfresh : ¬ (retry = true ∧ s.lastSequenceControl = seq <<< 4 ||| 0)) :
    s.receive packet ⟨seq, 0, false, retry, false⟩ =
      (some packet, ⟨false, seq <<< 4 ||| 0, s.fragments⟩) := by
  have hdup : s.isDuplicate ⟨seq, 0, false, retry, false⟩ = false := by
    simpa [isDuplicate, MpduHeader.sequenceControl] using hfresh
  obtain ⟨defragmenting, last, fragments⟩ := s
  obtain rfl : defragmenting = false := hdefrag
  simp [receive, hdup, handleFragments, MpduHeader.sequenceControl, setSequenceControl]

/-- The rest of the fragments of an MSDU completes it. -/
theorem receiveMsdu_rest (hne : msdu ≠ []) (hlen : frag + 1 + msdu.length ≤ 16)
    (hretries : ∀ mpdu ∈ msdu, ∀ retry ∈ mpdu.2.tail, retry = true)
    (hall : ∀ mpdu ∈ msdu, mpdu.2 ≠ []) (hdefrag : s.defragmenting = true)
    (hlast : s.lastSequenceControl = seq <<< 4 ||| frag) :
    ∃ last, receiveMsdu seq s (frag + 1) msdu =
      ([(s.fragments ++ msdu.map (·.1)).flatten], ⟨false, last, []⟩) := by
  induction msdu generalizing s frag with
  | nil => exact absurd rfl hne
  | cons mpdu rest ih =>
    obtain ⟨packet, flags⟩ := mpdu
    obtain ⟨retry, flags, rfl⟩ := List.exists_cons_of_ne_nil (hall _ List.mem_cons_self)
    have hflags : ∀ r ∈ flags, r = true := hretries _ List.mem_cons_self
    have hlen : frag + 1 + (rest.length + 1) ≤ 16 := hlen
    by_cases hrest : rest = []
    · subst hrest
      have hreceive := receive_last packet (by omega) hdefrag hlast retry
      have hmpdu := receiveAll_cons hreceive rfl hflags
      refine ⟨seq <<< 4 ||| (frag + 1), ?_⟩
      simp only [receiveMsdu, List.isEmpty_nil, Bool.not_true, hmpdu]
      rfl
    · have hreceive := receive_middle packet (by omega) hdefrag hlast retry
      have hmore : (!rest.isEmpty) = true := by simpa using hrest
      obtain ⟨last, hih⟩ := ih (s := ⟨true, seq <<< 4 ||| (frag + 1), s.fragments ++ [packet]⟩)
        hrest (by omega) (fun m hm => hretries m (List.mem_cons_of_mem _ hm))
        (fun m hm => hall m (List.mem_cons_of_mem _ hm)) rfl rfl
      have hmpdu := receiveAll_cons hreceive rfl hflags
      refine ⟨last, ?_⟩
      simp only [receiveMsdu, hmore, hmpdu]
      simp only [Option.toList_none, List.nil_append, hih, List.append_assoc, List.map_cons,
        List.singleton_append]

/-- An MSDU that arrives completely is forwarded. -/
theorem receiveMsdu_complete (hmsdu : IsMsdu msdu) (hall : ∀ mpdu ∈ msdu, mpdu.2 ≠ [])
    (hdefrag : s.defragmenting = false) (hfragments : s.fragments = [])
    (hfresh : ¬ ∃ mpdu ∈ msdu.head?, mpdu.2.head? = some true ∧
      s.lastSequenceControl = seq <<< 4 ||| 0) :
    ∃ last, receiveMsdu seq s 0 msdu = ([(msdu.map (·.1)).flatten], ⟨false, last, []⟩) := by
  obtain ⟨⟨packet, flags⟩, rest, rfl⟩ := List.exists_cons_of_ne_nil hmsdu.ne_nil
  obtain ⟨retry, flags, rfl⟩ := List.exists_cons_of_ne_nil (hall _ List.mem_cons_self)
  have hflags : ∀ r ∈ flags, r = true := hmsdu.retries _ List.mem_cons_self
  have hlen : rest.length + 1 ≤ 16 := hmsdu.length_le
  have hfresh' : ¬ (retry = true ∧ s.lastSequenceControl = seq <<< 4 ||| 0) := fun h =>
    hfresh ⟨_, rfl, congrArg some h.1, h.2⟩
  by_cases hrest : rest = []
  · subst hrest
    have hreceive := receive_whole packet hdefrag hfresh'
    rw [hfragments] at hreceive
    have hmpdu := receiveAll_cons hreceive rfl hflags
    refine ⟨seq <<< 4 ||| 0, ?_⟩
    simp only [receiveMsdu, List.isEmpty_nil, Bool.not_true, hmpdu]
    simp
  · have hreceive := receive_first packet hdefrag hfragments hfresh'
    have hmore : (!rest.isEmpty) = true := by simpa using hrest
    obtain ⟨last, hafter⟩ := receiveMsdu_rest
      (s := ⟨true, seq <<< 4 ||| 0, [packet]⟩) hrest (by omega)
      (fun m hm => hmsdu.retries m (List.mem_cons_of_mem _ hm))
      (fun m hm => hall m (List.mem_cons_of_mem _ hm)) rfl rfl
    have hmpdu := receiveAll_cons hreceive rfl hflags
    refine ⟨last, ?_⟩
    simp only [receiveMsdu, hmore, hmpdu]
    simp only [Option.toList_none, List.nil_append, hafter, List.map_cons, List.singleton_append]

theorem receiveMsdu_lost (hnone : ∀ mpdu ∈ msdu, mpdu.2 = []) (frag : ℕ) :
    receiveMsdu seq s frag msdu = ([], s) := by
  induction msdu generalizing frag with
  | nil => rfl
  | cons mpdu rest ih =>
    obtain ⟨packet, flags⟩ := mpdu
    obtain rfl : flags = [] := hnone _ List.mem_cons_self
    rw [receiveMsdu, receiveAll]
    simp only [ih fun m hm => hnone m (List.mem_cons_of_mem _ hm), List.nil_append]

end OriginatorRxStatus

namespace DefragRun

open OriginatorRxStatus

variable {y z : DefragRun α} {msdu : List (SentMpdu α)} {seq : ℕ}

theorem Idle.step (h : Idle y) (hcut : ¬ Partial msdu) (hmistaken : ¬ Mistaken y msdu)
    (hst : Step y msdu z) : Idle z := by
  obtain ⟨hmsdu, rfl⟩ := hst
  obtain ⟨hrecovers, hdefrag, hfragments⟩ := h
  by_cases hall : ∀ mpdu ∈ msdu, mpdu.2 ≠ []
  · obtain ⟨last, hreceive⟩ := receiveMsdu_complete hmsdu hall hdefrag hfragments hmistaken
    have harriving : arriving msdu = [(msdu.map (·.1)).flatten] := by
      rw [arriving, if_pos]
      simpa using hall
    have hnext : y.next msdu = ⟨⟨false, last, []⟩, (y.seq + 1) % 4096,
        y.forwarded ++ [(msdu.map (·.1)).flatten], y.arrived ++ [(msdu.map (·.1)).flatten]⟩ := by
      simp only [next, hreceive, harriving]
    rw [hnext]
    exact ⟨congrArg (· ++ _) hrecovers, rfl, rfl⟩
  · have hnone : ∀ mpdu ∈ msdu, mpdu.2 = [] := by
      intro mpdu hmem
      by_contra hne
      refine hcut ⟨?_, mpdu, hmem, hne⟩
      simpa using hall
    have harriving : arriving msdu = [] := by
      rw [arriving, if_neg]
      simpa using hall
    have hnext : y.next msdu = ⟨y.status, (y.seq + 1) % 4096, y.forwarded, y.arrived⟩ := by
      simp only [next, receiveMsdu_lost hnone, harriving, List.append_nil]
    rw [hnext]
    exact ⟨hrecovers, hdefrag, hfragments⟩

/-- The receiver recovers all that arrives as long as every MSDU arrives completely or not at all,
and none is mistaken for the last one. -/
theorem recovers_of_run {trace : List (DefragRun α × List (SentMpdu α))}
    (h : Run Step (init seq) trace y)
    (hok : ∀ p ∈ trace, ¬ Partial p.2 ∧ ¬ Mistaken p.1 p.2) :
    (∀ p ∈ trace, p.1.Recovers) ∧ y.Recovers := by
  have hinit : Idle (init seq : DefragRun α) := ⟨rfl, rfl, rfl⟩
  obtain ⟨hall, hlast⟩ := h.invariant_along hinit
    (fun s e t hs hp hst => Idle.step hs hp.1 hp.2 hst) hok
  exact ⟨fun p hp => (hall p hp).recovers, hlast.recovers⟩

theorem step_next (y : DefragRun α) (h : IsMsdu msdu) : Step y msdu (y.next msdu) := ⟨h, rfl⟩

instance : Decidable (IsMsdu msdu) :=
  decidable_of_iff (msdu.isEmpty = false ∧ msdu.length ≤ 16 ∧
      ∀ mpdu ∈ msdu, ∀ retry ∈ mpdu.2.tail, retry = true) (by
    refine ⟨fun h => ⟨?_, h.2.1, h.2.2⟩, fun h => ⟨?_, h.length_le, h.retries⟩⟩
    · exact List.isEmpty_eq_false_iff.1 h.1
    · exact List.isEmpty_eq_false_iff.2 h.ne_nil)

instance : Decidable (Partial msdu) :=
  inferInstanceAs (Decidable ((∃ mpdu ∈ msdu, mpdu.2 = []) ∧ ∃ mpdu ∈ msdu, mpdu.2 ≠ []))

instance : Decidable (Mistaken y msdu) :=
  inferInstanceAs (Decidable (∃ mpdu ∈ msdu.head?,
    mpdu.2.head? = some true ∧ y.status.lastSequenceControl = y.seq <<< 4 ||| 0))

/-- Two fragments, of which one is received twice, an MSDU that is lost, and one that is not cut. -/
theorem recovers_of_run_retried : ∃ (trace : List (DefragRun ℕ × List (SentMpdu ℕ)))
    (y : DefragRun ℕ), Run Step (init 4094) trace y ∧ y.forwarded = [[1, 2, 3], [5]] ∧
      (∀ p ∈ trace, p.1.Recovers) ∧ y.Recovers := by
  have hrun := Run.nil.snoc (step_next (init 4094) (by decide : IsMsdu
      [([1, 2], [false, true]), ([3], [true])]))
    |>.snoc (step_next _ (by decide : IsMsdu [([4], [])]))
    |>.snoc (step_next _ (by decide : IsMsdu [([5], [false])]))
  exact ⟨_, _, hrun, by decide, recovers_of_run hrun (by decide)⟩

/-- The second of two fragments is lost, and the next MSDU is not forwarded. -/
theorem not_recovers_partial :
    ¬ ∀ (seq : ℕ) (trace : List (DefragRun ℕ × List (SentMpdu ℕ))) (y : DefragRun ℕ), seq < 4096 →
      Run Step (init seq) trace y → y.Recovers := by
  have hrun := Run.nil.snoc (step_next (init 0) (by decide : IsMsdu [([1], [false]), ([2], [])]))
    |>.snoc (step_next _ (by decide : IsMsdu [([3], [false])]))
  exact fun hall => absurd (hall 0 _ _ (by decide) hrun) (by unfold Recovers; decide)

end DefragRun

end SeanetSim
