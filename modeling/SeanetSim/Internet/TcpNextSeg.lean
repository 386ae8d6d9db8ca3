import SeanetSim.Internet.TcpTxBuffer
import SeanetSim.Lib.Run

/-!
# The next segment of a loss recovery

`NextSeg` goes over the sent list once: it returns the first lost item, and on the way it saves the
start of a segment for its third rule.  It follows its rules exactly where no sentinel and no window
gets in the way (`TcpTxBuffer.nextSeg_iff`).
-/

namespace SeanetSim

open SequenceNumber SequenceValue

/-- An item of the sent list, where it starts, and the items behind it. -/
structure PlacedItem (S : Type) where
  start : S
  item : TcpTxItem S
  behind : List (TcpTxItem S)

/-- Neither retransmitted nor sacked. -/
def TcpTxItem.isPending {S : Type} (item : TcpTxItem S) : Bool := !item.retrans && !item.sacked

namespace TcpTxBuffer

section Code

variable {S : Type} [SequenceValue S] [DecidableEq S]

/-- The pass over the sent list: the start of the first lost item, or the number saved for rule 3
and whether one has been saved. -/
def nextSegLoop (isRecovery : Bool) : S → S × Bool → List (TcpTxItem S) → S ⊕ S × Bool
  | _, saved, [] => .inr saved
  | beginOfCurrentPkt, (seqPerRule3, isSeqPerRule3Valid), item :: rest =>
    let next := SequenceNumber.add beginOfCurrentPkt item.packet.length
    if !item.retrans && !item.sacked then
      if item.lost then .inl beginOfCurrentPkt
      else if decide (seqPerRule3 = zero) && isRecovery then
        nextSegLoop isRecovery next (beginOfCurrentPkt, true) rest
      else nextSegLoop isRecovery next (seqPerRule3, isSeqPerRule3Valid) rest
    else nextSegLoop isRecovery next (seqPerRule3, isSeqPerRule3Valid) rest

/-- `NextSeg`, with `m_segmentSize` and the window that `m_rWndCallback` returns; `none` where it
returns false. -/
def nextSeg (segmentSize rWnd : UInt32) (isRecovery : Bool) (b : TcpTxBuffer S) : Option (S × S) :=
  match nextSegLoop isRecovery b.firstByteSeq (zero, false) b.sentList with
  | .inl seq => some (seq, SequenceNumber.add seq segmentSize.toNat)
  | .inr (seqPerRule3, isSeqPerRule3Valid) =>
    if 0 < b.sizeFromSequence b.sentEnd then
      if b.sentSize ≤ rWnd then
        let size := min segmentSize (rWnd - b.sentSize)
        some (b.sentEnd, SequenceNumber.add b.sentEnd size.toNat)
      else none
    else if isSeqPerRule3Valid then
      some (seqPerRule3, SequenceNumber.add seqPerRule3 segmentSize.toNat)
    else none

end Code

/-! ## The rules -/

section Rules

variable {S : Type} [SequenceValue S] [DecidableEq S]

def placed : S → List (TcpTxItem S) → List (PlacedItem S)
  | _, [] => []
  | start, item :: rest =>
    ⟨start, item, rest⟩ :: placed (SequenceNumber.add start item.packet.length) rest

/-- The first lost item that is neither retransmitted nor sacked. -/
def rule1 (b : TcpTxBuffer S) : Option S :=
  ((placed b.firstByteSeq b.sentList).find? fun p => p.item.isPending && p.item.lost).map
    PlacedItem.start

def hasUnsent (b : TcpTxBuffer S) : Prop := 0 < b.sizeFromSequence b.sentEnd

instance (b : TcpTxBuffer S) : Decidable b.hasUnsent := inferInstanceAs (Decidable (_ < _))

/-- New data, as far as the window admits it. -/
def rule2 (segmentSize rWnd : UInt32) (b : TcpTxBuffer S) : Option (S × S) :=
  if b.hasUnsent ∧ b.sentSize < rWnd then
    let size := min segmentSize (rWnd - b.sentSize)
    some (b.sentEnd, SequenceNumber.add b.sentEnd size.toNat)
  else none

/-- In recovery, the first item below a sacked one that is neither retransmitted nor sacked. -/
def rule3 (isRecovery : Bool) (b : TcpTxBuffer S) : Option S :=
  if isRecovery then
    ((placed b.firstByteSeq b.sentList).find? fun p =>
      p.item.isPending && p.behind.any TcpTxItem.sacked).map PlacedItem.start
  else none

/-- The segment of the first rule that applies. -/
def firstApplicable (segmentSize rWnd : UInt32) (isRecovery : Bool) (b : TcpTxBuffer S) :
    Option (S × S) :=
  let segment (seq : S) := (seq, SequenceNumber.add seq segmentSize.toNat)
  (b.rule1.map segment).or ((b.rule2 segmentSize rWnd).or ((b.rule3 isRecovery).map segment))

/-- `NextSeg` returns the segment of the first rule that applies, and never an empty one. -/
def FollowsRules (segmentSize rWnd : UInt32) (isRecovery : Bool) (b : TcpTxBuffer S) : Prop :=
  b.nextSeg segmentSize rWnd isRecovery = b.firstApplicable segmentSize rWnd isRecovery ∧
    ∀ seq seqHigh, b.nextSeg segmentSize rWnd isRecovery = some (seq, seqHigh) →
      lt seq seqHigh = true

/-- The items that are neither retransmitted nor sacked. -/
def pending (b : TcpTxBuffer S) : List (PlacedItem S) :=
  (placed b.firstByteSeq b.sentList).filter fun p => p.item.isPending

/-- Nothing gets in the way of the rules. -/
def Unobstructed (segmentSize rWnd : UInt32) (isRecovery : Bool) (b : TcpTxBuffer S) : Prop :=
  let nonempty (seq : S) (size : UInt32) := lt seq (SequenceNumber.add seq size.toNat) = true
  match b.rule1 with
  | some seq => nonempty seq segmentSize
  | none =>
    if b.hasUnsent then
      b.sentSize < rWnd ∧ nonempty b.sentEnd (min segmentSize (rWnd - b.sentSize)) ∨
        rWnd < b.sentSize ∧ b.rule3 isRecovery = none
    else
      isRecovery = true → ∀ p ∈ b.pending.head?, p.behind.any TcpTxItem.sacked = true ∧
        (p.start ≠ zero ∨ ∀ q ∈ b.pending, q.start = zero) ∧ nonempty p.start segmentSize

end Rules

/-! ## The candidates of the third rule -/

section Placed

variable {S : Type} [SequenceValue S] {start : S} {items : List (TcpTxItem S)}

theorem mem_of_mem_behind {p : PlacedItem S} (hp : p ∈ placed start items) {i : TcpTxItem S}
    (hi : i ∈ p.behind) : i ∈ items := by
  induction items generalizing start with
  | nil => cases hp
  | cons item rest ih =>
    rw [placed, List.mem_cons] at hp
    rcases hp with rfl | hp
    · exact List.mem_cons_of_mem _ hi
    · exact List.mem_cons_of_mem _ (ih hp)

theorem placed_pairwise (start : S) (items : List (TcpTxItem S)) :
    (placed start items).Pairwise fun p q => ∀ i ∈ q.behind, i ∈ p.behind := by
  induction items generalizing start with
  | nil => exact .nil
  | cons item rest ih =>
    exact .cons (fun p hp i hi => mem_of_mem_behind hp hi) (ih _)

/-- Rule 3 takes the first pending item, if a sacked one is behind it. -/
theorem rule3_eq (b : TcpTxBuffer S) :
    b.rule3 true = ((b.pending.head?).filter fun p => p.behind.any TcpTxItem.sacked).map
      PlacedItem.start := by
  have hpairwise := (placed_pairwise b.firstByteSeq b.sentList).filter fun p => p.item.isPending
  have hfind : (placed b.firstByteSeq b.sentList).find? (fun p =>
      p.item.isPending && p.behind.any TcpTxItem.sacked) =
        b.pending.find? fun p => p.behind.any TcpTxItem.sacked := by
    rw [pending, List.find?_filter]
    simp only [Bool.decide_and, Bool.decide_eq_true]
  change List.Pairwise _ b.pending at hpairwise
  rw [rule3, if_pos rfl, hfind]
  congr 1
  cases hpending : b.pending with
  | nil => rfl
  | cons p l =>
    rw [hpending, List.pairwise_cons] at hpairwise
    rw [List.find?_cons, List.head?_cons]
    cases hany : p.behind.any TcpTxItem.sacked with
    | true => rw [Option.filter_some, if_pos hany]
    | false =>
      have hnone : l.find? (fun q => q.behind.any TcpTxItem.sacked) = none := by
        rw [List.find?_eq_none]
        intro q hq hsacked
        obtain ⟨i, hi, hi'⟩ := List.any_eq_true.1 hsacked
        exact Bool.eq_false_iff.1 hany (List.any_eq_true.2 ⟨i, hpairwise.1 q hq i hi, hi'⟩)
      rw [hnone, Option.filter_some, hany]
      rfl

end Placed

/-! ## The pass over the sent list -/

section Loop

variable {S : Type} [SequenceValue S] [DecidableEq S] {isRecovery : Bool} {start : S}
  {saved : S × Bool} {items : List (TcpTxItem S)}

/-- What is saved for rule 3 as an item comes by. -/
def save (isRecovery : Bool) (saved : S × Bool) (p : PlacedItem S) : S × Bool :=
  if decide (saved.1 = zero) && isRecovery then (p.start, true) else saved

theorem nextSegLoop_eq (start : S) (saved : S × Bool) (items : List (TcpTxItem S)) :
    nextSegLoop isRecovery start saved items =
      match (placed start items).find? fun p => p.item.isPending && p.item.lost with
      | some p => .inl p.start
      | none => .inr (((placed start items).filter fun p => p.item.isPending).foldl
          (save isRecovery) saved) := by
  induction items generalizing start saved with
  | nil => rfl
  | cons item rest ih =>
    obtain ⟨seq, valid⟩ := saved
    unfold nextSegLoop placed
    dsimp only
    have hpending : item.isPending = (!item.retrans && !item.sacked) := rfl
    rw [List.find?_cons, List.filter_cons, ← hpending]
    cases hp : item.isPending with
    | false => simpa [hp] using ih _ _
    | true =>
      cases hl : item.lost with
      | true => simp
      | false =>
        simp only [Bool.true_and, if_true, Bool.false_eq_true, if_false, List.foldl_cons]
        rw [save]
        split_ifs <;> exact ih _ _

theorem foldl_save_false (saved : S × Bool) (l : List (PlacedItem S)) :
    l.foldl (save false) saved = saved := by
  induction l with
  | nil => rfl
  | cons p l ih => rw [List.foldl_cons, save, Bool.and_false, if_neg Bool.false_ne_true, ih]

/-- A number other than 0 stays saved. -/
theorem foldl_save_of_ne (h : start ≠ zero) (valid : Bool) (l : List (PlacedItem S)) :
    l.foldl (save isRecovery) (start, valid) = (start, valid) := by
  induction l with
  | nil => rfl
  | cons p l ih => rw [List.foldl_cons, save, decide_eq_false h, Bool.false_and,
      if_neg Bool.false_ne_true, ih]

theorem foldl_save_zero (l : List (PlacedItem S)) :
    (l.foldl (save true) (zero, true)).2 = true ∧
      ((l.foldl (save true) (zero, true)).1 = zero ↔ ∀ p ∈ l, p.start = zero) := by
  induction l with
  | nil => simp
  | cons p l ih =>
    have hsave : save true (zero, true) p = (p.start, true) := by simp [save]
    rw [List.foldl_cons, hsave, List.forall_mem_cons]
    by_cases hp : p.start = zero
    · rw [hp]
      exact ⟨ih.1, by simp [ih.2]⟩
    · rw [foldl_save_of_ne hp]
      exact ⟨rfl, by simp [hp]⟩

/-- The first item is saved, unless it starts at number 0 and a later one does not. -/
theorem foldl_save_cons (p : PlacedItem S) (l : List (PlacedItem S)) :
    ((p :: l).foldl (save true) (zero, false)).2 = true ∧
      (((p :: l).foldl (save true) (zero, false)).1 = p.start ↔
        p.start ≠ zero ∨ ∀ q ∈ p :: l, q.start = zero) := by
  have hsave : save true (zero, false) p = (p.start, true) := by simp [save]
  rw [List.foldl_cons, hsave]
  by_cases hp : p.start = zero
  · have hzero := foldl_save_zero l
    rw [hp]
    refine ⟨hzero.1, ?_⟩
    rw [hzero.2, List.forall_mem_cons]
    simp [hp]
  · rw [foldl_save_of_ne hp]
    simp [hp]

/-- What `NextSeg` does where no item is lost. -/
theorem nextSeg_of_none {b : TcpTxBuffer S} {segmentSize rWnd : UInt32} (h : b.rule1 = none) :
    b.nextSeg segmentSize rWnd isRecovery =
      if b.hasUnsent then
        if b.sentSize ≤ rWnd then
          some (b.sentEnd, SequenceNumber.add b.sentEnd (min segmentSize (rWnd - b.sentSize)).toNat)
        else none
      else if (b.pending.foldl (save isRecovery) (zero, false)).2 then
        some ((b.pending.foldl (save isRecovery) (zero, false)).1, SequenceNumber.add
          (b.pending.foldl (save isRecovery) (zero, false)).1 segmentSize.toNat)
      else none := by
  rw [rule1, Option.map_eq_none_iff] at h
  rw [nextSeg, nextSegLoop_eq, h]
  rfl

theorem nextSeg_of_some {b : TcpTxBuffer S} {segmentSize rWnd : UInt32} {seq : S}
    (h : b.rule1 = some seq) : b.nextSeg segmentSize rWnd isRecovery =
      some (seq, SequenceNumber.add seq segmentSize.toNat) := by
  obtain ⟨p, hfind, rfl⟩ := Option.map_eq_some_iff.1 h
  rw [nextSeg, nextSegLoop_eq, hfind]

end Loop

section Segment

variable {segmentSize rWnd : UInt32} {isRecovery : Bool} {b : TcpTxBuffer UInt32}

theorem not_lt_add_zero (seq : UInt32) :
    ¬ lt seq (SequenceNumber.add seq (0 : UInt32).toNat) = true := by
  have hadd : SequenceNumber.add seq (0 : UInt32).toNat = seq := UInt32.add_zero seq
  rw [hadd]
  simp [lt]

theorem followsRules_of_none (h : b.nextSeg segmentSize rWnd isRecovery = none) :
    b.FollowsRules segmentSize rWnd isRecovery ↔
      b.firstApplicable segmentSize rWnd isRecovery = none := by
  rw [FollowsRules, h]
  exact ⟨fun hrules => hrules.1.symm, fun hnone => ⟨hnone.symm, nofun⟩⟩

theorem followsRules_of_some {seq seqHigh : UInt32}
    (h : b.nextSeg segmentSize rWnd isRecovery = some (seq, seqHigh)) :
    b.FollowsRules segmentSize rWnd isRecovery ↔
      b.firstApplicable segmentSize rWnd isRecovery = some (seq, seqHigh) ∧
        lt seq seqHigh = true := by
  rw [FollowsRules, h]
  refine and_congr eq_comm ⟨fun hlt => hlt _ _ rfl, ?_⟩
  rintro hlt _ _ ⟨⟩
  exact hlt

/-- Where nothing is lost and nothing is unsent, the third rule decides. -/
theorem followsRules_rescue (hrule : b.rule1 = none) (hunsent : ¬ b.hasUnsent) :
    b.FollowsRules segmentSize rWnd isRecovery ↔ b.Unobstructed segmentSize rWnd isRecovery := by
  have hrule2 : b.rule2 segmentSize rWnd = none := if_neg fun h => hunsent h.1
  have hfirst : b.firstApplicable segmentSize rWnd isRecovery =
      (b.rule3 isRecovery).map fun seq => (seq, SequenceNumber.add seq segmentSize.toNat) := by
    rw [firstApplicable, hrule, hrule2]
    rfl
  have hnext : b.nextSeg segmentSize rWnd isRecovery = _ := nextSeg_of_none hrule
  rw [if_neg hunsent] at hnext
  rw [Unobstructed, hrule]
  simp only [if_neg hunsent]
  cases isRecovery with
  | false =>
    rw [foldl_save_false] at hnext
    rw [followsRules_of_none hnext, hfirst]
    simp [rule3]
  | true =>
    rw [rule3_eq] at hfirst
    cases hpending : b.pending with
    | nil =>
      rw [hpending] at hfirst hnext
      rw [followsRules_of_none hnext, hfirst]
      simp
    | cons p l =>
      obtain ⟨hvalid, hsaved⟩ := foldl_save_cons p l
      rw [hpending, hvalid, if_pos rfl] at hnext
      rw [hpending, List.head?_cons, Option.filter_some] at hfirst
      rw [followsRules_of_some hnext, hfirst]
      simp only [List.head?_cons, Option.mem_some_iff, forall_eq', true_imp_iff]
      rw [← hsaved]
      cases hany : p.behind.any TcpTxItem.sacked with
      | false => simp
      | true =>
        simp only [if_true, Option.map_some, Option.some.injEq, Prod.mk.injEq, true_and]
        constructor
        · rintro ⟨⟨heq, -⟩, hlt⟩
          rw [← heq] at hlt
          exact ⟨heq.symm, hlt⟩
        · rintro ⟨heq, hlt⟩
          rw [heq]
          exact ⟨⟨rfl, rfl⟩, hlt⟩

/-- Where nothing is lost and data is unsent, the window decides. -/
theorem followsRules_unsent (hrule : b.rule1 = none) (hunsent : b.hasUnsent) :
    b.FollowsRules segmentSize rWnd isRecovery ↔ b.Unobstructed segmentSize rWnd isRecovery := by
  have hnext : b.nextSeg segmentSize rWnd isRecovery = _ := nextSeg_of_none hrule
  rw [if_pos hunsent] at hnext
  rw [Unobstructed, hrule]
  simp only [if_pos hunsent]
  have hfirst : b.firstApplicable segmentSize rWnd isRecovery =
      (b.rule2 segmentSize rWnd).or
        ((b.rule3 isRecovery).map fun seq => (seq, SequenceNumber.add seq segmentSize.toNat)) := by
    rw [firstApplicable, hrule]
    rfl
  by_cases hlt : b.sentSize < rWnd
  · have hgt : ¬ rWnd < b.sentSize := UInt32.not_lt.2 (UInt32.le_of_lt hlt)
    rw [if_pos (UInt32.le_of_lt hlt)] at hnext
    rw [rule2, if_pos ⟨hunsent, hlt⟩] at hfirst
    rw [followsRules_of_some hnext, hfirst]
    simp [hlt, hgt]
  · rw [rule2, if_neg fun h => hlt h.2, Option.none_or] at hfirst
    by_cases hle : b.sentSize ≤ rWnd
    · -- the window ends at what has been sent: the segment is empty
      have heq : b.sentSize = rWnd := UInt32.le_antisymm hle (UInt32.not_lt.1 hlt)
      have hgt : ¬ rWnd < b.sentSize := UInt32.not_lt.2 hle
      have hempty : min segmentSize (rWnd - b.sentSize) = 0 := by
        rw [heq, UInt32.sub_self]
        show (if segmentSize ≤ 0 then segmentSize else 0) = 0
        split_ifs with hzero
        · exact UInt32.le_antisymm hzero UInt32.zero_le
        · rfl
      rw [if_pos hle, hempty] at hnext
      rw [followsRules_of_some hnext]
      exact iff_of_false (fun h => not_lt_add_zero _ h.2) (by simp [hlt, hgt])
    · rw [if_neg hle] at hnext
      rw [followsRules_of_none hnext, hfirst]
      simp [hlt, UInt32.not_le.1 hle]

/-- `NextSeg` follows its rules exactly where the segment it takes is not empty, where the window
does not end at what has been sent and does not hide rule 3, and where the first item that is
neither retransmitted nor sacked has a sacked one behind it and does not start at number 0. -/
theorem nextSeg_iff (segmentSize rWnd : UInt32) (isRecovery : Bool) (b : TcpTxBuffer UInt32) :
    b.FollowsRules segmentSize rWnd isRecovery ↔ b.Unobstructed segmentSize rWnd isRecovery := by
  cases hrule : b.rule1 with
  | some seq =>
    have hfirst : b.firstApplicable segmentSize rWnd isRecovery =
        some (seq, SequenceNumber.add seq segmentSize.toNat) := by
      rw [firstApplicable, hrule]
      rfl
    rw [followsRules_of_some (nextSeg_of_some hrule), Unobstructed, hrule, hfirst]
    exact and_iff_right rfl
  | none =>
    by_cases hunsent : b.hasUnsent
    · exact followsRules_unsent hrule hunsent
    · exact followsRules_rescue hrule hunsent

/-- The window ends at what has been sent: the segment of unsent data is empty. -/
theorem not_followsRules_windowEdge : ∃ (trace : List (TcpTxBuffer UInt32 × TxEvent UInt32))
    (b : TcpTxBuffer UInt32), Run Step (init 100 3 true 0) trace b ∧
      b.nextSeg 2 2 false = some (2, 2) ∧ ¬ b.FollowsRules 2 2 false := by
  have hrun : (Run.runOf (apply 5) (init 100 3 true (0 : UInt32))
      [.add ⟨[0, 1, 2, 3], by decide⟩, .copyFromSequence 1 2 0]).any
      (fun r => decide (r.2.nextSeg 2 2 false = some (2, 2))) = true := by
    decide +kernel
  obtain ⟨⟨trace, b⟩, hrun, hr⟩ := (Option.any_eq_true _ _).1 hrun
  have hnext : b.nextSeg 2 2 false = some (2, 2) := of_decide_eq_true hr
  refine ⟨trace, b, Run.of_runOf (fun _ _ _ h => ⟨5, h⟩) hrun, hnext, fun h => ?_⟩
  have hlt := h.2 _ _ hnext
  revert hlt
  decide

end Segment

end TcpTxBuffer

end SeanetSim
