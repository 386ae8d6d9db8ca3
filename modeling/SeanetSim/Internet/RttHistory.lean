import Mathlib.Data.List.Forall2
import SeanetSim.Lib.Run
import SeanetSim.Network.SequenceNumber

/-!
# The round-trip times of a TCP socket

`UpdateRttHistory` and `EstimateRtt` of `TcpSocketBase`.  A segment is logged as it is sent first,
and its round-trip time is measured as it is acknowledged, unless it has been marked as
retransmitted by then.  A retransmission marks one entry of the history.  As long as that is the
only entry without mark that it overlaps, no time is measured over a segment of which a byte has
been retransmitted.
-/

namespace SeanetSim

open SequenceNumber

structure RttHistory where
  seq : UInt32
  count : UInt32
  time : ℤ
  retx : Bool
deriving DecidableEq

namespace RttHistory

/-- The number behind the entry. -/
def next (h : RttHistory) : UInt32 := add h.seq h.count.toNat

def contains (h : RttHistory) (seq : UInt32) : Bool := ge seq h.seq && lt seq h.next

/-- The entry that a retransmission finds is marked, and ends where the retransmission does. -/
def mark (h : RttHistory) (seq sz : UInt32) : RttHistory :=
  { h with retx := true, count := UInt32.ofNat (distance (add seq sz.toNat) h.seq) }

/-- The search of `UpdateRttHistory`. -/
def markFirst (seq sz : UInt32) : List RttHistory → List RttHistory
  | [] => []
  | h :: rest => if h.contains seq then h.mark seq sz :: rest else h :: markFirst seq sz rest

def updateRttHistory (history : List RttHistory) (seq sz : UInt32) (isRetransmission : Bool)
    (now : ℤ) : List RttHistory :=
  if isRetransmission = false then history ++ [⟨seq, sz, now, false⟩]
  else markFirst seq sz history

/-- The first half of `EstimateRtt`, without timestamps; 0 if there is no measurement. -/
def elapsed (history : List RttHistory) (ackSeq : UInt32) (now : ℤ) : ℤ :=
  match history with
  | [] => 0
  | h :: _ => if !h.retx && ge ackSeq h.next then now - h.time else 0

/-- `EstimateRtt`: the time that is logged as a measurement, and the history that is left. -/
def estimateRtt (history : List RttHistory) (ackSeq : UInt32) (now : ℤ) :
    Option ℤ × List RttHistory :=
  let m := elapsed history ackSeq now
  (if m ≠ 0 then some m else none, history.dropWhile fun h => !gt h.next ackSeq)

/-! ## Runs -/

/-- What has been sent as an entry was logged, by the number of bytes before it, and whether a byte
of it has been retransmitted since. -/
structure Segment where
  start : ℕ
  size : ℕ
  retransmitted : Bool
deriving DecidableEq

/-- A byte of the segment is one of the `sz` bytes from `start` on. -/
def Segment.Overlaps (g : Segment) (start sz : ℕ) : Prop :=
  ∃ b, (g.start ≤ b ∧ b < g.start + g.size) ∧ start ≤ b ∧ b < start + sz

theorem Segment.overlaps_iff {g : Segment} {start sz : ℕ} :
    g.Overlaps start sz ↔ max g.start start < min (g.start + g.size) (start + sz) := by
  constructor
  · rintro ⟨b, h⟩
    omega
  · intro h
    exact ⟨max g.start start, by omega⟩

instance (g : Segment) (start sz : ℕ) : Decidable (g.Overlaps start sz) :=
  decidable_of_iff _ Segment.overlaps_iff.symm

def Segment.retransmit (g : Segment) (start sz : ℕ) : Segment :=
  { g with retransmitted := g.retransmitted || decide (g.Overlaps start sz) }

/-- The history with the segments that its entries are about. -/
structure Tracked where
  history : List RttHistory
  segments : List Segment
  /-- The bytes that have been sent. -/
  sent : ℕ
deriving DecidableEq

/-- Bytes are counted from the first sequence number on. -/
inductive Event
  | send (sz : UInt32) (now : ℤ)
  | retransmit (start : ℕ) (sz : UInt32) (now : ℤ)
  | ack (next : ℕ) (now : ℤ)

namespace Tracked

variable (first : UInt32)

def init : Tracked := ⟨[], [], 0⟩

/-- Only what has been sent is retransmitted or acknowledged. -/
def apply (s : Tracked) : Event → Option Tracked
  | .send sz now => some
      { history := updateRttHistory s.history (add first s.sent) sz false now
        segments := s.segments ++ [⟨s.sent, sz.toNat, false⟩]
        sent := s.sent + sz.toNat }
  | .retransmit start sz now =>
    if start + sz.toNat ≤ s.sent then some
      { s with
        history := updateRttHistory s.history (add first start) sz true now
        segments := s.segments.map fun g => g.retransmit start sz.toNat }
    else none
  | .ack next now =>
    if next ≤ s.sent then
      let history := (estimateRtt s.history (add first next) now).2
      some { s with history, segments := s.segments.drop (s.history.length - history.length) }
    else none

def Step (s : Tracked) (e : Event) (t : Tracked) : Prop := s.apply first e = some t

/-- No time is measured over a segment of which a byte has been retransmitted. -/
def Karn (s : Tracked) : Event → Prop
  | .ack next now => (estimateRtt s.history (add first next) now).1 ≠ none →
      ∀ g ∈ s.segments.head?, g.retransmitted = false
  | _ => True

instance (s : Tracked) (e : Event) : Decidable (s.Karn first e) := by
  cases e <;> unfold Karn <;> infer_instance

/-- An entry is marked if a byte of its segment has been retransmitted. -/
def Marked (s : Tracked) : Prop :=
  List.Forall₂ (fun h g => g.retransmitted = true → h.retx = true) s.history s.segments

instance (s : Tracked) : Decidable s.Marked := inferInstanceAs (Decidable (List.Forall₂ _ _ _))

end Tracked

/-- The bytes `start` to `start + sz` overlap none of the entries that have not been marked, but for
the first entry that contains `seq`. -/
def Found (seq : UInt32) (start sz : ℕ) (entries : List (RttHistory × Segment)) : Prop :=
  ∀ before r behind, entries = before ++ r :: behind → r.2.Overlaps start sz → r.1.retx = false →
    r.1.contains seq = true ∧ ∀ q ∈ before, q.1.contains seq = false

namespace Tracked

/-- A retransmission marks every entry that it overlaps. -/
def MarksAll (first : UInt32) (s : Tracked) : Event → Prop
  | .retransmit start sz _ =>
    Found (add first start) start sz.toNat (s.history.zip s.segments)
  | _ => True

end Tracked

/-! ## Marking -/

section Marking

variable {seq sz : UInt32} {start n : ℕ} {h : RttHistory} {g : Segment}
  {history : List RttHistory} {segments : List Segment} {entries : List (RttHistory × Segment)}

theorem found_nil : Found seq start n [] := by
  intro before r behind heq
  exact absurd heq (by simp)

theorem found_cons_iff_of_contains (hseq : h.contains seq = true) :
    Found seq start n ((h, g) :: entries) ↔
      ∀ r ∈ entries, r.2.Overlaps start n → r.1.retx = true := by
  constructor
  · intro hfound r hr hoverlaps
    obtain ⟨before, behind, rfl⟩ := List.append_of_mem hr
    by_contra hretx
    have hnone := (hfound ((h, g) :: before) r behind rfl hoverlaps (by simpa using hretx)).2 (h, g)
      List.mem_cons_self
    rw [hseq] at hnone
    cases hnone
  · rintro hrest (_ | ⟨q, before⟩) r behind heq hoverlaps hretx
    · cases heq
      exact ⟨hseq, nofun⟩
    · cases heq
      have hmarked := hrest r (List.mem_append_right _ List.mem_cons_self) hoverlaps
      rw [hretx] at hmarked
      cases hmarked

theorem found_cons_iff_of_not_contains (hseq : h.contains seq = false) :
    Found seq start n ((h, g) :: entries) ↔
      (g.Overlaps start n → h.retx = true) ∧ Found seq start n entries := by
  constructor
  · refine fun hfound => ⟨fun hoverlaps => ?_, fun before r behind heq hoverlaps hretx => ?_⟩
    · by_contra hretx
      have hfirst := (hfound [] (h, g) entries rfl hoverlaps (by simpa using hretx)).1
      rw [hseq] at hfirst
      cases hfirst
    · obtain ⟨hcontains, hbefore⟩ := hfound ((h, g) :: before) r behind (by rw [heq]; rfl) hoverlaps
        hretx
      exact ⟨hcontains, fun q hq => hbefore q (List.mem_cons_of_mem _ hq)⟩
  · rintro ⟨hhead, hrest⟩ (_ | ⟨q, before⟩) r behind heq hoverlaps hretx
    · cases heq
      have hmarked := hhead hoverlaps
      rw [hretx] at hmarked
      cases hmarked
    · cases heq
      obtain ⟨hcontains, hbefore⟩ := hrest before r behind rfl hoverlaps hretx
      refine ⟨hcontains, fun q hq => ?_⟩
      rcases List.mem_cons.1 hq with rfl | hq
      · exact hseq
      · exact hbefore q hq

/-- One entry after a retransmission that does not mark it. -/
theorem marked_retransmit_iff (hmarked : g.retransmitted = true → h.retx = true) :
    ((g.retransmit start n).retransmitted = true → h.retx = true) ↔
      (g.Overlaps start n → h.retx = true) := by
  unfold Segment.retransmit
  rw [Bool.or_eq_true, decide_eq_true_eq, or_imp]
  exact and_iff_right hmarked

theorem forall_marked_iff
    (hmarked : List.Forall₂ (fun h g => g.retransmitted = true → h.retx = true) history segments) :
    List.Forall₂ (fun h g => g.retransmitted = true → h.retx = true) history
        (segments.map fun g => g.retransmit start n) ↔
      ∀ r ∈ history.zip segments, r.2.Overlaps start n → r.1.retx = true := by
  induction hmarked with
  | nil => simp
  | cons hhead _ ih =>
    rw [List.map_cons, List.forall₂_cons, ih, marked_retransmit_iff hhead, List.zip_cons_cons,
      List.forall_mem_cons]

/-- A retransmission leaves an overlapped entry without mark exactly if the search does not find
it. -/
theorem forall_marked_markFirst_iff
    (hmarked : List.Forall₂ (fun h g => g.retransmitted = true → h.retx = true) history segments) :
    List.Forall₂ (fun h g => g.retransmitted = true → h.retx = true) (markFirst seq sz history)
        (segments.map fun g => g.retransmit start n) ↔
      Found seq start n (history.zip segments) := by
  induction hmarked with
  | nil => exact iff_of_true .nil found_nil
  | cons hhead hrest ih =>
    rename_i h g history segments
    rw [List.map_cons, List.zip_cons_cons, markFirst]
    cases hseq : h.contains seq with
    | true =>
      rw [if_pos rfl, List.forall₂_cons, found_cons_iff_of_contains hseq, forall_marked_iff hrest]
      exact and_iff_right fun _ => rfl
    | false =>
      rw [if_neg (by decide), List.forall₂_cons, found_cons_iff_of_not_contains hseq, ih,
        marked_retransmit_iff hhead]

end Marking

/-! ## Karn's rule -/

/-- A time is measured over the first entry, and only if that has not been marked. -/
theorem exists_of_estimateRtt {history : List RttHistory} {ackSeq : UInt32} {now : ℤ}
    (hm : (estimateRtt history ackSeq now).1 ≠ none) :
    ∃ h rest, history = h :: rest ∧ h.retx = false := by
  cases history with
  | nil => exact absurd rfl hm
  | cons h rest =>
    refine ⟨h, rest, rfl, ?_⟩
    by_contra hretx
    rw [Bool.not_eq_false] at hretx
    exact hm (by simp [estimateRtt, elapsed, hretx])

/-- What an ACK leaves of the history is its end. -/
theorem estimateRtt_eq_drop (history : List RttHistory) (ackSeq : UInt32) (now : ℤ) :
    (estimateRtt history ackSeq now).2 =
      history.drop (history.length - (estimateRtt history ackSeq now).2.length) :=
  List.suffix_iff_eq_drop.1 (List.dropWhile_suffix _)

namespace Tracked

variable {first : UInt32} {s t : Tracked} {e : Event} {trace : List (Tracked × Event)}

theorem marked_init : init.Marked := .nil

theorem Marked.step_iff (hs : s.Marked) (hst : Step first s e t) :
    t.Marked ↔ s.MarksAll first e := by
  cases e with
  | send sz now =>
    cases hst
    exact iff_of_true (List.rel_append hs (.cons nofun .nil)) trivial
  | retransmit start sz now =>
    unfold Step apply at hst
    dsimp only at hst
    split_ifs at hst
    cases hst
    exact forall_marked_markFirst_iff hs
  | ack next now =>
    unfold Step apply at hst
    dsimp only at hst
    split_ifs at hst
    cases hst
    have hdrop := List.forall₂_drop (s.history.length -
      (estimateRtt s.history (add first next) now).2.length) hs
    rw [← estimateRtt_eq_drop] at hdrop
    exact iff_of_true hdrop trivial

/-- Every entry that is overlapped is marked all along a run exactly if no retransmission overlaps
an entry without mark that it does not find. -/
theorem marked_iff_of_run (h : Run (Step first) init trace s) :
    ((∀ p ∈ trace, p.1.Marked) ∧ s.Marked) ↔ ∀ p ∈ trace, p.1.MarksAll first p.2 := by
  simpa only [not_not] using h.forall_iff Marked (fun s e => ¬ s.MarksAll first e) marked_init
    fun _ s e t _ hst hs => (hs.step_iff hst).trans not_not.symm

theorem Marked.karn (hs : s.Marked) (e : Event) : s.Karn first e := by
  cases e with
  | ack next now =>
    intro hm g hg
    obtain ⟨h, rest, hhistory, hretx⟩ := exists_of_estimateRtt hm
    rw [Marked, hhistory] at hs
    obtain ⟨g', segments, hfirst, -, hsegments⟩ := List.forall₂_cons_left_iff.1 hs
    rw [hsegments] at hg
    cases hg
    by_contra hretransmitted
    rw [hfirst (by simpa using hretransmitted)] at hretx
    cases hretx
  | _ => trivial

/-- Karn's rule, in a run in which each retransmission marks every entry that it overlaps. -/
theorem karn_of_run (h : Run (Step first) init trace s)
    (hmarks : ∀ p ∈ trace, p.1.MarksAll first p.2) :
    (∀ p ∈ trace, p.1.Karn first p.2) ∧ ∀ e, s.Karn first e := by
  obtain ⟨hbefore, hs⟩ := (marked_iff_of_run h).2 hmarks
  exact ⟨fun p hp => (hbefore p hp).karn p.2, hs.karn⟩

/-- The second segment is retransmitted as a whole. -/
theorem karn_segment : ∃ trace s, Run (Step 0) init trace s ∧
    trace.map (·.2) = [.send 10 0, .send 10 0, .retransmit 10 10 5, .ack 10 6] ∧
      (∀ p ∈ trace, p.1.Karn 0 p.2) ∧ ∀ e, s.Karn 0 e := by
  have hrun : (Run.runOf (apply 0) init [.send 10 0, .send 10 0, .retransmit 10 10 5,
      .ack 10 6]).any (fun r => decide ((∀ p ∈ r.1, p.1.Marked) ∧ r.2.Marked)) = true := by
    decide +kernel
  obtain ⟨⟨trace, s⟩, hevents, hs⟩ := (Option.any_eq_true _ _).1 hrun
  have hrun : Run (Step 0) init trace s := Run.of_runOf (fun _ _ _ h => h) hevents
  exact ⟨trace, s, hrun, Run.runOf_events hevents,
    karn_of_run hrun ((marked_iff_of_run hrun).1 (of_decide_eq_true hs))⟩

/-- The end of the first segment and the start of the second one are retransmitted together: only
the first one is marked, and a time is measured over the second one. -/
theorem not_karn_overlap : ∃ trace s, Run (Step 0) init trace s ∧
    trace.map (·.2) = [.send 10 0, .send 10 0, .retransmit 5 10 5, .ack 15 6] ∧
      ¬ s.Karn 0 (.ack 20 7) := by
  have hrun : (Run.runOf (apply 0) init [.send 10 0, .send 10 0, .retransmit 5 10 5,
      .ack 15 6]).any (fun r => decide (¬ r.2.Karn 0 (.ack 20 7))) = true := by
    decide +kernel
  obtain ⟨⟨trace, s⟩, hevents, hs⟩ := (Option.any_eq_true _ _).1 hrun
  exact ⟨trace, s, Run.of_runOf (fun _ _ _ h => h) hevents, Run.runOf_events hevents,
    of_decide_eq_true hs⟩

end Tracked

end RttHistory

end SeanetSim
