import SeanetSim.Internet.TcpTxSegments

/-!
# The layout of the transmit buffer

In every run the items of the sent list follow each other without a gap, from the first
unacknowledged byte on, and no item is empty (`laid_of_run`).  Most operations only change flags and
counters, which the layout does not depend on (`SameSpans`).
-/

namespace SeanetSim

open SequenceNumber SequenceValue Relation

namespace TcpTxBuffer

/-! ## Flags -/

section Flags

variable {S : Type} {b b' b₁ : TcpTxBuffer S}

/-- The items start where they did and have the bytes that they had. -/
structure SameSpans (b b' : TcpTxBuffer S) : Prop where
  sentList : b'.sentList.map span = b.sentList.map span
  appList : b'.appList = b.appList
  firstByteSeq : b'.firstByteSeq = b.firstByteSeq

theorem SameSpans.refl (b : TcpTxBuffer S) : SameSpans b b := ⟨rfl, rfl, rfl⟩

theorem SameSpans.trans (h : SameSpans b b₁) (h' : SameSpans b₁ b') : SameSpans b b' :=
  ⟨h'.sentList.trans h.sentList, h'.appList.trans h.appList,
    h'.firstByteSeq.trans h.firstByteSeq⟩

theorem sackFirst_spans {l l' : List (TcpTxItem S)} {pktSize : UInt32} {found : Option ℕ × S}
    (h : sackFirst l = some (l', pktSize, found)) : l'.map span = l.map span := by
  induction l generalizing l' with
  | nil => cases h
  | cons item rest ih =>
    simp only [sackFirst] at h
    split_ifs at h
    · obtain ⟨⟨rest', found'⟩, hrest, h⟩ := Option.bind_eq_some_iff.1 h
      cases h
      rw [List.map_cons, List.map_cons, ih hrest]
    · cases h
      rfl

theorem addRenoSack_spans (h : b.addRenoSack = some b') : SameSpans b b' := by
  unfold addRenoSack at h
  cases hlist : b.sentList with
  | nil =>
    rw [hlist] at h
    cases h
  | cons head rest =>
    simp only [hlist] at h
    split_ifs at h
    cases hsack : sackFirst rest with
    | none =>
      rw [hsack] at h
      cases h
      exact ⟨by rw [hlist], rfl, rfl⟩
    | some found =>
      obtain ⟨rest', pktSize, highestSack⟩ := found
      rw [hsack] at h
      cases h
      refine ⟨?_, rfl, rfl⟩
      rw [hlist]
      exact congrArg (span head :: ·) (sackFirst_spans hsack)

theorem markHeadAsLost_spans (b : TcpTxBuffer S) : SameSpans b b.markHeadAsLost := by
  unfold markHeadAsLost
  cases hlist : b.sentList with
  | nil => exact .refl b
  | cons head rest => exact ⟨by rw [hlist]; rfl, rfl, rfl⟩

theorem deleteRetransmittedFlagFromHead_spans (h : b.deleteRetransmittedFlagFromHead = some b') :
    SameSpans b b' := by
  unfold deleteRetransmittedFlagFromHead at h
  split_ifs at h
  · cases h
    exact .refl b
  · cases hlist : b.sentList with
    | nil =>
      rw [hlist] at h
      cases h
    | cons head rest =>
      rw [hlist] at h
      cases h
      exact ⟨by rw [hlist]; rfl, rfl, rfl⟩

theorem map_span_map {f : TcpTxItem S → TcpTxItem S} (hf : ∀ i, span (f i) = span i)
    (l : List (TcpTxItem S)) : (l.map f).map span = l.map span := by
  rw [List.map_map]
  exact List.map_congr_left fun i _ => hf i

theorem markLost_spans {l l' : List (TcpTxItem S)} {dupAckThresh lost : UInt32} {sacked : ℕ}
    (h : markLost dupAckThresh l = (l', sacked, lost)) : l'.map span = l.map span := by
  induction l generalizing l' sacked lost with
  | nil =>
    cases h
    rfl
  | cons item rest ih =>
    cases hrest : markLost dupAckThresh rest with
    | mk rest' r =>
    obtain ⟨sacked', lost'⟩ := r
    simp only [markLost, hrest] at h
    split_ifs at h <;> cases h
    · exact congrArg (span item :: ·) (ih hrest)
    · exact congrArg (span item :: ·) (ih hrest)
    · exact congrArg (span item :: ·) (ih hrest)
    · exact congrArg (span item :: ·) (ih hrest)

theorem updateLostCount_spans (h : b.updateLostCount = some b') : SameSpans b b' := by
  obtain ⟨node, -, h⟩ := Option.bind_eq_some_iff.1 h
  obtain ⟨⟨items, behind⟩, hsplit, h⟩ := Option.bind_eq_some_iff.1 h
  have hlist := splitAtNode_eq hsplit
  cases items with
  | nil => cases h
  | cons head upTo =>
    cases hmark : markLost b.dupAckThresh upTo with
    | mk upTo' r =>
    obtain ⟨sacked, lost⟩ := r
    simp only [hmark, Option.some.injEq] at h
    subst h
    refine ⟨?_, rfl, rfl⟩
    rw [hlist, List.cons_append, List.map_cons, List.map_cons, List.map_append, List.map_append,
      markLost_spans hmark]
    rfl

end Flags

section Placed

variable {S : Type} [SequenceNumber S] {b b' : TcpTxBuffer S}

/-- No item is empty, and those of the sent list follow each other without a gap. -/
structure Placed (b : TcpTxBuffer S) : Prop where
  filled : Filled (b.sentList ++ b.appList)
  contiguous : Contiguous b.firstByteSeq b.sentList

/-- The lists are in place, the sizes are theirs, and no flag is set in what has not been sent. -/
structure Laid (b : TcpTxBuffer S) : Prop extends Placed b where
  sentSize : (content b.sentList).length = b.sentSize.toNat
  size : (content b.sentList).length + (content b.appList).length = b.size.toNat
  unsent : ∀ item ∈ b.appList, Plain item

theorem Laid.sentSize_le (hb : Laid b) : b.sentSize.toNat ≤ b.size.toNat := by
  rw [← hb.sentSize, ← hb.size]
  exact Nat.le_add_right _ _

theorem Placed.laid (hplaced : Placed b) (hb : Kept b) : Laid b where
  toPlaced := hplaced
  sentSize := length_content.trans hb.counted.sentSize
  size := by
    rw [length_content, length_content]
    exact hb.size
  unsent := hb.unsent

theorem SameSpans.placed (h : SameSpans b b') (hb : Placed b) : Placed b' := by
  have hfilled := filled_append.1 hb.filled
  refine ⟨filled_append.2 ⟨filled_congr h.sentList hfilled.1, ?_⟩, ?_⟩
  · rw [h.appList]
    exact hfilled.2
  · rw [h.firstByteSeq]
    exact contiguous_congr h.sentList hb.contiguous

end Placed

section Code

variable {S : Type} [SequenceValue S] {b b' : TcpTxBuffer S} {item : TcpTxItem S}
  {l l' : List (TcpTxItem S)} {fuel : ℕ} {now : ℤ} {seq : S} {n n' : UInt32}

theorem resetRenoSack_spans (b : TcpTxBuffer S) : SameSpans b b.resetRenoSack :=
  ⟨map_span_map (f := fun item => { item with sacked := false }) (fun _ => rfl) _, rfl, rfl⟩

theorem setSentListLost_spans (b : TcpTxBuffer S) (resetSack : Bool) :
    SameSpans b (b.setSentListLost resetSack) := by
  cases resetSack with
  | true =>
    exact ⟨map_span_map (f := fun item =>
      { item with sacked := false, lost := true, retrans := false }) (fun _ => rfl) _, rfl, rfl⟩
  | false =>
    exact ⟨map_span_map (f := fun item =>
      { item with lost := item.lost || !item.sacked, retrans := false }) (fun _ => rfl) _, rfl, rfl⟩

theorem add_placed (hb : Placed b) (p : TxPacket) : Placed (b.add p).2 := by
  simp only [add]
  split_ifs with hfits hpos
  · have hlen : 0 < p.bytes.length := by
      rw [UInt32.lt_iff_toNat_lt, UInt32.toNat_ofNat'] at hpos
      exact Nat.pos_of_ne_zero fun hzero => by simp [hzero] at hpos
    refine ⟨?_, hb.contiguous⟩
    have hfilled := hb.filled
    simp only [filled_append, filled_cons, filled_nil, and_true] at hfilled ⊢
    exact ⟨hfilled.1, hfilled.2, hlen⟩
  · exact hb
  · exact hb

variable [DecidableEq S]

theorem sackBlock_spans {block : SackBlock S} {begin : S}
    (h : sackBlock block begin l (b, n) = some (l', b', n')) :
    l'.map span = l.map span ∧ b'.appList = b.appList ∧ b'.firstByteSeq = b.firstByteSeq := by
  induction l generalizing begin l' b n with
  | nil =>
    cases h
    exact ⟨rfl, rfl, rfl⟩
  | cons item rest ih =>
    simp only [sackBlock] at h
    split_ifs at h
    · obtain ⟨⟨rest', r⟩, hrest, h⟩ := Option.bind_eq_some_iff.1 h
      cases h
      obtain ⟨hspans, hsame⟩ := ih hrest
      exact ⟨congrArg (span item :: ·) hspans, hsame⟩
    · obtain ⟨⟨rest', r⟩, hrest, h⟩ := Option.bind_eq_some_iff.1 h
      cases h
      obtain ⟨hspans, hsame⟩ := ih hrest
      exact ⟨congrArg (span item :: ·) hspans, hsame⟩
    · cases h
      exact ⟨rfl, rfl, rfl⟩
    · obtain ⟨⟨rest', r⟩, hrest, h⟩ := Option.bind_eq_some_iff.1 h
      cases h
      obtain ⟨hspans, hsame⟩ := ih hrest
      exact ⟨congrArg (span item :: ·) hspans, hsame⟩

theorem sackBlocks_spans {list : List (SackBlock S)} {inside : Bool}
    (h : sackBlocks list (b, n) = some (inside, b', n')) : SameSpans b b' := by
  induction list generalizing b n with
  | nil =>
    cases h
    exact .refl _
  | cons block list ih =>
    simp only [sackBlocks] at h
    split_ifs at h
    · cases h
      exact .refl _
    · obtain ⟨⟨sentList, b₁, n₁⟩, hblock, h⟩ := Option.bind_eq_some_iff.1 h
      obtain ⟨hspans, happ, hfirst⟩ := sackBlock_spans hblock
      have hblock : SameSpans b { b₁ with sentList := sentList } := ⟨hspans, happ, hfirst⟩
      exact hblock.trans (ih h)

theorem update_spans {list : List (SackBlock S)} (h : b.update list = some (n, b')) :
    SameSpans b b' := by
  obtain ⟨⟨inside, b₁, n₁⟩, hblocks, h⟩ := Option.bind_eq_some_iff.1 h
  have hb₁ := sackBlocks_spans hblocks
  dsimp only at h
  split_ifs at h with hinside hpos
  · cases hlost : b₁.updateLostCount with
    | none =>
      rw [hlost] at h
      cases h
    | some b₂ =>
      rw [hlost] at h
      dsimp only at h
      split_ifs at h
      cases h
      exact hb₁.trans (updateLostCount_spans hlost)
  · dsimp only at h
    split_ifs at h
    cases h
    exact hb₁
  · cases h
    exact hb₁

/-! ## Operations that move items -/

variable {bound : ℕ} (hS : Steady S bound)

include hS in
theorem resetLastSegmentSent_placed (hb : Placed b) : Placed b.resetLastSegmentSent := by
  unfold resetLastSegmentSent
  cases hlast : b.sentList.getLast? with
  | none => exact hb
  | some item =>
    have hsplit := List.dropLast_append_getLast? item hlast
    have hfilled := hb.filled
    have hcontiguous := hb.contiguous
    rw [← hsplit] at hfilled hcontiguous
    refine ⟨?_, ((contiguous_append hS).1 hcontiguous).1⟩
    rwa [List.append_assoc] at hfilled

variable (hbound : bound ≤ 2 ^ 32)

include hS hbound

theorem getNewSegment_placed (hb : Laid b) (hlt : b.size.toNat < bound) (hpos : 0 < n.toNat)
    (h : b.getNewSegment fuel n = some (item, b')) :
    Placed b' ∧ b'.firstByteSeq = b.firstByteSeq ∧ b'.size = b.size := by
  have hfilled := filled_append.1 hb.filled
  have hsize := hb.size
  obtain ⟨hsent, hnew, -, hstart, -, hfirst, hsame⟩ :=
    getNewSegment_spec hS hbound hfilled.2 (by omega) hpos h
  rw [filled_cons] at hnew
  refine ⟨⟨?_, ?_⟩, hfirst, hsame⟩
  · rw [hsent]
    simp only [filled_append, filled_cons, filled_nil, and_true]
    exact ⟨⟨hfilled.1, hnew.1⟩, hnew.2⟩
  · rw [hsent, hfirst, contiguous_append hS]
    refine ⟨hb.contiguous, ?_, trivial⟩
    rw [hstart, hb.sentSize]
    rfl

theorem getTransmittedSegment_placed (hb : Laid b) (hlt : b.size.toNat < bound)
    (hpos : 0 < n.toNat) (h : b.getTransmittedSegment fuel n seq = some (item, b')) :
    Placed b' ∧ b'.firstByteSeq = b.firstByteSeq ∧ b'.size = b.size := by
  have hfilled := filled_append.1 hb.filled
  have hsize := hb.size
  obtain ⟨front, item', back, rfl, hsent, hcuts, -, -, hfirst, hsame, happ⟩ :=
    getTransmittedSegment_spec hS hbound hfilled.1 (by omega) hpos h
  have hcut := (cuts_list hcuts hfilled.1).1
  have hcontiguous := cuts_contiguous hS hcuts hb.contiguous
  have hspans : (front ++ { item' with retrans := true } :: back).map span =
      (front ++ item' :: back).map span := by
    rw [List.map_append, List.map_append, List.map_cons, List.map_cons]
    rfl
  refine ⟨⟨?_, ?_⟩, hfirst, hsame⟩
  · rw [hsent, happ]
    exact filled_append.2 ⟨filled_congr hspans hcut, hfilled.2⟩
  · rw [hsent, hfirst]
    exact contiguous_congr hspans hcontiguous

omit hS hbound in
theorem returnItem_spans {r : Option (TcpTxItem S)} (h : returnItem now item b = some (r, b')) :
    SameSpans b b' ∧ b'.size = b.size := by
  unfold returnItem at h
  split_ifs at h
  cases h
  refine ⟨⟨map_span_map (fun i => ?_) _, rfl, rfl⟩, rfl⟩
  split_ifs <;> rfl

theorem copyFromSequence_placed {r : Option (TcpTxItem S)} (hb : Laid b)
    (hlt : b.size.toNat < bound) (h : copyFromSequence fuel now b n seq = some (r, b')) :
    Placed b' ∧ b'.firstByteSeq = b.firstByteSeq ∧ b'.size = b.size := by
  induction fuel generalizing n with
  | zero => cases h
  | succ fuel ih =>
    simp only [copyFromSequence] at h
    generalize min n (b.sizeFromSequence seq) = s at h
    have hpos : s ≠ 0 → 0 < s.toNat := fun hs =>
      Nat.pos_of_ne_zero fun hzero => hs (UInt32.toNat_inj.1 hzero)
    split_ifs at h with hgone hnone hsent hunsent hend hpart
    · cases h
      exact ⟨hb.toPlaced, rfl, rfl⟩
    · obtain ⟨⟨item, b₁⟩, hcopy, h⟩ := Option.bind_eq_some_iff.1 h
      dsimp only at h
      split_ifs at h
      obtain ⟨hb₁, hfirst, hsame⟩ :=
        getTransmittedSegment_placed hS hbound hb hlt (hpos hnone) hcopy
      obtain ⟨hspans, hsame'⟩ := returnItem_spans h
      exact ⟨hspans.placed hb₁, hspans.firstByteSeq.trans hfirst, hsame'.trans hsame⟩
    · obtain ⟨⟨item, b₁⟩, hcopy, h⟩ := Option.bind_eq_some_iff.1 h
      dsimp only at h
      split_ifs at h
      obtain ⟨hb₁, hfirst, hsame⟩ := getNewSegment_placed hS hbound hb hlt (hpos hnone) hcopy
      obtain ⟨hspans, hsame'⟩ := returnItem_spans h
      exact ⟨hspans.placed hb₁, hspans.firstByteSeq.trans hfirst, hsame'.trans hsame⟩
    · exact ih h

/-! ### DiscardUpTo -/

omit hS hbound [DecidableEq S] in
theorem removeHead_placed {rest : List (TcpTxItem S)} (hb : Placed b)
    (hlist : b.sentList = item :: rest) : Placed (b.removeHead item rest) := by
  have hfilled := hb.filled
  have hcontiguous := hb.contiguous
  rw [hlist] at hfilled hcontiguous
  exact ⟨(filled_cons.1 hfilled).2, hcontiguous.2⟩

omit hbound in
theorem cutHead_placed {rest : List (TcpTxItem S)} {offset : UInt32} (hb : Placed b)
    (hlist : b.sentList = item :: rest) (hlt : offset.toNat < item.packet.length) :
    Placed (b.cutHead item rest offset) := by
  have hfilled := hb.filled
  have hcontiguous := hb.contiguous
  rw [hlist, List.cons_append, filled_cons] at hfilled
  rw [hlist, contiguous_cons] at hcontiguous
  refine ⟨filled_cons.2 ⟨?_, hfilled.2⟩, ?_, ?_⟩
  · rw [List.length_drop]
    omega
  · exact congrArg (SequenceNumber.add · offset.toNat) hcontiguous.1
  · have hstop : SequenceNumber.add (SequenceNumber.add b.firstByteSeq offset.toNat)
        (item.packet.drop offset.toNat).length =
          SequenceNumber.add b.firstByteSeq item.packet.length := by
      rw [hS.add_add, List.length_drop, Nat.add_sub_cancel' hlt.le]
    show Contiguous (SequenceNumber.add (SequenceNumber.add b.firstByteSeq offset.toNat)
      (item.packet.drop offset.toNat).length) rest
    rw [hstop]
    exact hcontiguous.2

theorem fillSentList_placed {offset : UInt32} (hb : Laid b) (hlt : b.size.toNat < bound)
    (h : b.fillSentList fuel now offset = some b') : Placed b' ∧ b'.size = b.size := by
  unfold fillSentList at h
  cases hlist : b.sentList with
  | nil =>
    rw [hlist] at h
    dsimp only at h
    split at h <;> cases h
    rename_i hcopy
    obtain ⟨hplaced, -, hsame⟩ := copyFromSequence_placed hS hbound hb hlt hcopy
    exact ⟨hplaced, hsame⟩
  | cons item rest =>
    rw [hlist] at h
    cases h
    exact ⟨hb.toPlaced, rfl⟩

theorem discardLoop_placed {offset : UInt32} (hkept : Kept b) (hb : Placed b)
    (hlt : b.size.toNat < bound) (h : discardLoop fuel now b offset = some b') : Placed b' := by
  induction fuel generalizing b offset with
  | zero => cases h
  | succ fuel ih =>
    rw [discardLoop] at h
    split_ifs at h with hdone
    · cases h
      exact hb
    · obtain ⟨b₁, hfill, h⟩ := Option.bind_eq_some_iff.1 h
      obtain ⟨hb₁, hsame⟩ := fillSentList_placed hS hbound (hb.laid hkept) hlt hfill
      have hkept₁ := (fillSentList_kept hkept hfill).1
      cases hlist : b₁.sentList with
      | nil =>
        rw [hlist] at h
        cases h
      | cons item rest =>
        rw [hlist] at h
        dsimp only at h
        split_ifs at h with hstart hle
        · obtain ⟨hnext, hsize, -⟩ := removeHead_kept hkept₁ hlist
          refine ih hnext (removeHead_placed hb₁ hlist) ?_ h
          rw [hsize, hsame]
          omega
        · cases h
          exact cutHead_placed hS hb₁ hlist (cutHead_kept hkept₁ hlist hle).2

omit hS hbound [DecidableEq S] in
theorem ackFin_placed (hkept : Kept b) (hb : Placed b) (seq : S) : Placed (b.ackFin seq) := by
  refine ⟨hb.filled, ?_⟩
  by_cases hzero : b.size = 0
  · have hall := (hb.laid hkept).size
    have hempty : b.sentList = [] := by
      cases hlist : b.sentList with
      | nil => rfl
      | cons item rest =>
        have hpos : 0 < item.packet.length :=
          hb.filled item (List.mem_append_left _ (hlist ▸ List.mem_cons_self))
        rw [hlist, hzero, content_cons, List.length_append, UInt32.toNat_zero] at hall
        omega
    show Contiguous _ b.sentList
    rw [hempty]
    trivial
  · show Contiguous (if b.size = 0 then seq else b.firstByteSeq) b.sentList
    rw [if_neg hzero]
    exact hb.contiguous

omit hS hbound [SequenceValue S] [DecidableEq S] in
theorem moveSackFromHead_spans (h : b.moveSackFromHead = some b') : SameSpans b b' := by
  unfold moveSackFromHead at h
  cases hlist : b.sentList with
  | nil =>
    rw [hlist] at h
    cases h
    exact .refl b
  | cons head rest =>
    rw [hlist] at h
    dsimp only at h
    split_ifs at h
    · obtain ⟨b₁, hadd, h⟩ := Option.bind_eq_some_iff.1 h
      cases h
      have hspans := addRenoSack_spans hadd
      exact ⟨by rw [hlist]; exact (markHeadAsLost_spans b₁).sentList.trans hspans.sentList,
        (markHeadAsLost_spans b₁).appList.trans hspans.appList,
        (markHeadAsLost_spans b₁).firstByteSeq.trans hspans.firstByteSeq⟩
    · cases h
      exact .refl b

theorem discardUpTo_placed (hkept : Kept b) (hb : Placed b) (hlt : b.size.toNat < bound)
    (h : b.discardUpTo fuel now seq = some b') : Placed b' := by
  unfold discardUpTo at h
  split_ifs at h with hge
  · cases h
    exact hb
  · obtain ⟨b₁, hloop, h⟩ := Option.bind_eq_some_iff.1 h
    obtain ⟨b₂, hmove, h⟩ := Option.bind_eq_some_iff.1 h
    have hb₁ := discardLoop_placed hS hbound hkept hb hlt hloop
    have hkept₁ := (discardLoop_kept hkept hloop).1
    have hb₂ := (moveSackFromHead_spans hmove).placed (ackFin_placed hkept₁ hb₁ seq)
    split_ifs at h
    cases h
    exact ⟨hb₂.filled, hb₂.contiguous⟩

/-! ## Runs -/

theorem step_placed {e : TxEvent S} (hkept : Kept b) (hb : Placed b) (hlt : b.size.toNat < bound)
    (h : Step b e b') : Placed b' := by
  obtain ⟨fuel, h⟩ := h
  cases e with
  | add p =>
    cases h
    exact add_placed hb p
  | copyFromSequence now numBytes seq =>
    obtain ⟨⟨r, t⟩, hcopy, rfl⟩ := Option.map_eq_some_iff.1 h
    exact (copyFromSequence_placed hS hbound (hb.laid hkept) hlt hcopy).1
  | discardUpTo now seq => exact discardUpTo_placed hS hbound hkept hb hlt h
  | update list =>
    obtain ⟨⟨n, t⟩, hupdate, rfl⟩ := Option.map_eq_some_iff.1 h
    exact (update_spans hupdate).placed hb
  | addRenoSack => exact (addRenoSack_spans h).placed hb
  | resetRenoSack =>
    cases h
    exact (resetRenoSack_spans b).placed hb
  | setSentListLost resetSack =>
    cases h
    exact (setSentListLost_spans b resetSack).placed hb
  | resetLastSegmentSent =>
    cases h
    exact resetLastSegmentSent_placed hS hb
  | markHeadAsLost =>
    cases h
    exact (markHeadAsLost_spans b).placed hb
  | deleteRetransmittedFlagFromHead => exact (deleteRetransmittedFlagFromHead_spans h).placed hb

/-- In a run whose operations keep the flags apart, every buffer of bounded size is laid out. -/
theorem laid_of_run {maxBuffer dupAckThresh : UInt32} {sackEnabled : Bool} {first : S}
    {trace : List (TcpTxBuffer S × TxEvent S)}
    (hrun : Run Step (init maxBuffer dupAckThresh sackEnabled first) trace b)
    (hok : ∀ p ∈ trace, KeepsFlags p ∧ p.1.size.toNat < bound) : Laid b := by
  have hinit : Kept (init maxBuffer dupAckThresh sackEnabled first) ∧
      Placed (init maxBuffer dupAckThresh sackEnabled first) :=
    ⟨init_kept maxBuffer dupAckThresh sackEnabled first, filled_nil, trivial⟩
  have hstep (s : TcpTxBuffer S) (e : TxEvent S) (t : TcpTxBuffer S) (hs : Kept s ∧ Placed s)
      (he : KeepsFlags (s, e) ∧ s.size.toNat < bound) (hst : Step s e t) : Kept t ∧ Placed t :=
    ⟨step_kept hs.1 he.1 hst, step_placed hS hbound hs.1 hs.2 he.2 hst⟩
  obtain ⟨-, hkept, hplaced⟩ :=
    hrun.invariant_along (I := fun s => Kept s ∧ Placed s) hinit hstep hok
  exact hplaced.laid hkept

end Code

end TcpTxBuffer

end SeanetSim
