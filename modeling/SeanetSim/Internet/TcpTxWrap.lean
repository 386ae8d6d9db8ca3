import SeanetSim.Internet.TcpTxLayout

/-!
# Requests across the wrap of sequence numbers

`CopyFromSequence` finds out with circular comparisons whether a request is for sent or for new
data, but with comparisons of the raw values whether it is for both.  Where the requested bytes pass
`2 ^ 32`, the last check fails and no branch is taken (`copyFromSequence_delivers_iff`).
-/

namespace SeanetSim

open SequenceNumber SequenceValue Relation

namespace TcpTxBuffer

/-! ## Flags of bytes -/

section Marks

variable {S : Type} {item : TcpTxItem S} {l m : List (TcpTxItem S)} {d n : ℕ}

/-- For each byte, whether it is sacked and whether it is lost. -/
def marks (l : List (TcpTxItem S)) : List (Bool × Bool) :=
  l.flatMap fun item => List.replicate item.packet.length (item.sacked, item.lost)

/-- None of the bytes is sacked, and all or none of them are lost. -/
def SameMarks (l : List (TcpTxItem S)) (d n : ℕ) : Prop :=
  ∃ lost, ∀ mark ∈ ((marks l).drop d).take n, mark = (false, lost)

@[simp] theorem marks_nil : marks ([] : List (TcpTxItem S)) = [] := rfl

@[simp] theorem marks_cons : marks (item :: l) =
    List.replicate item.packet.length (item.sacked, item.lost) ++ marks l := List.flatMap_cons

@[simp] theorem marks_append : marks (l ++ m) = marks l ++ marks m := List.flatMap_append

theorem length_marks : (marks l).length = (content l).length := by
  induction l with
  | nil => rfl
  | cons item l ih => simp [ih]

/-- What is in front of the first byte does not matter. -/
theorem sameMarks_append : SameMarks (l ++ m) ((content l).length + d) n ↔ SameMarks m d n := by
  rw [SameMarks, SameMarks, marks_append, ← length_marks,
    List.drop_length_add_append]

/-- From the first byte of an item on. -/
theorem sameMarks_cons (hpos : 0 < item.packet.length) (hn : 0 < n) : SameMarks (item :: l) 0 n ↔
    item.sacked = false ∧
      ∀ mark ∈ (marks l).take (n - item.packet.length), mark = (item.sacked, item.lost) := by
  have hfirst : ∀ {mark : Bool × Bool},
      (∀ x ∈ List.replicate (min n item.packet.length) (item.sacked, item.lost), x = mark) ↔
        (item.sacked, item.lost) = mark := by
    intro mark
    refine ⟨fun h => h _ (List.mem_replicate.2 ⟨by omega, rfl⟩), fun h x hx => ?_⟩
    exact (List.eq_of_mem_replicate hx).trans h
  simp only [SameMarks, List.drop_zero, marks_cons, List.take_append, List.take_replicate,
    List.length_replicate, List.forall_mem_append, hfirst]
  constructor
  · rintro ⟨lost, hitem, hrest⟩
    exact ⟨congrArg (·.1) hitem, hitem ▸ hrest⟩
  · rintro ⟨hsacked, hrest⟩
    exact ⟨item.lost, by rw [hsacked], by rwa [hsacked] at hrest⟩

/-- No more than one item. -/
theorem sameMarks_short (hpos : 0 < item.packet.length) (hn : 0 < n)
    (hle : n ≤ item.packet.length) : SameMarks (item :: l) 0 n ↔ item.sacked = false := by
  rw [sameMarks_cons hpos hn, Nat.sub_eq_zero_of_le hle, List.take_zero]
  exact and_iff_left nofun

/-- Where an item is split, its bytes keep their flags. -/
theorem sameMarks_split {front back : List (TcpTxItem S)} [SequenceValue S] (node : ℕ) {e : ℕ}
    (hle : e ≤ item.packet.length) :
    SameMarks (front ++ item :: back) ((content front).length + e) n ↔
      SameMarks ((item.splitItems node e).2 :: back) 0 n := by
  have hfront : (content (front ++ [(item.splitItems node e).1])).length =
      (content front).length + e := by
    simpa [TcpTxItem.splitItems] using hle
  have hmarks : marks (front ++ [(item.splitItems node e).1] ++ (item.splitItems node e).2 :: back) =
      marks (front ++ item :: back) := by
    have hlength : item.packet.length = e + (item.packet.length - e) := by omega
    rw [List.append_assoc, List.singleton_append, marks_append, marks_append, marks_cons, marks_cons,
      marks_cons, hlength, List.replicate_add, List.append_assoc]
    simp only [TcpTxItem.splitItems, List.length_take, List.length_drop]
    rw [Nat.min_eq_left hle]
  have hsame := sameMarks_append (l := front ++ [(item.splitItems node e).1])
    (m := (item.splitItems node e).2 :: back) (d := 0) (n := n)
  rwa [hfront, Nat.add_zero, SameMarks, hmarks] at hsame

end Marks

section Code

variable {start : UInt32} {first : Option UInt32} {item : TcpTxItem UInt32}
  {l front back : List (TcpTxItem UInt32)} {d fuel node : ℕ} {numBytes retrans : UInt32}

/-! ## The walk -/

/-- The walk finds the item that has a byte. -/
theorem findItem_offset (hlt : (content l).length < 2 ^ 31)
    (hcheck : ∀ i ∈ l, (first.all fun first => ge i.startSeq first) = true)
    (hd : d < (content l).length) :
    ∃ front item back, l = front ++ item :: back ∧ (content front).length ≤ d ∧
      d < (content front).length + item.packet.length ∧
      findItem first (SequenceNumber.add start d) start l =
        some (front, SequenceNumber.add start (content front).length, item, back) := by
  induction l generalizing start d with
  | nil => exact absurd hd (Nat.not_lt_zero _)
  | cons current rest ih =>
    obtain ⟨hcurrent, hrest⟩ := List.forall_mem_cons.1 hcheck
    rw [content_cons, List.length_append] at hlt hd
    rw [findItem, if_pos hcurrent]
    dsimp only
    rw [lt_offset start (by omega) (by omega)]
    by_cases hstop : d < current.packet.length
    · refine ⟨[], current, rest, rfl, Nat.zero_le _, by simpa using hstop, ?_⟩
      rw [if_pos (decide_eq_true hstop), content_nil, List.length_nil, steady_uint32.add_zero]
    · obtain ⟨front, item, back, hsplit, hle, hinside, hfind⟩ :=
        @ih (SequenceNumber.add start current.packet.length) (d - current.packet.length)
          (by omega) hrest (by omega)
      have hadd : SequenceNumber.add (SequenceNumber.add start current.packet.length)
          (d - current.packet.length) = SequenceNumber.add start d := by
        rw [steady_uint32.add_add]
        congr 1
        omega
      rw [hadd, steady_uint32.add_add] at hfind
      refine ⟨current :: front, item, back, by rw [hsplit, List.cons_append], ?_, ?_, ?_⟩
      · rw [content_cons, List.length_append]
        omega
      · rw [content_cons, List.length_append]
        omega
      · rw [if_neg (by simpa using hstop), hfind, content_cons, List.length_append]
        rfl

/-- At the first byte of an item, the items to be merged must have its flags. -/
theorem getPacketFromList_at_iff (hl : Filled l) (hlt : (content l).length < 2 ^ 31)
    (hpos : 0 < numBytes.toNat) (hnum : numBytes.toNat < 2 ^ 31) {seq : UInt32}
    (hfind : findItem first seq start l = some (front, seq, item, back))
    (hfuel : back.length < fuel) :
    (∃ r, getPacketFromList first start numBytes seq fuel l retrans node = some r ∧
      r.item.sacked = false) ↔ SameMarks (item :: back) 0 numBytes.toNat := by
  induction fuel generalizing l item back retrans with
  | zero => exact absurd hfuel (Nat.not_lt_zero _)
  | succ fuel ih =>
    have hsplit := findItem_eq hfind
    subst hsplit
    simp only [filled_append, filled_cons] at hl
    simp only [content_append, content_cons, List.length_append] at hlt
    have hsize : item.size.toNat = item.packet.length := by
      rw [TcpTxItem.size, UInt32.toNat_ofNat']
      omega
    rw [getPacketFromList, hfind]
    simp only [Option.bind_eq_bind, Option.bind_some, if_true]
    rw [le_offset seq hnum (by omega)]
    split_ifs with hstop heq hless
    · rw [sameMarks_short hl.2.1 hpos (of_decide_eq_true hstop)]
      simp
    · rw [sameMarks_short hl.2.1 hpos (of_decide_eq_true hstop)]
      simp [TcpTxItem.splitItems]
    · rw [← UInt32.toNat_inj, hsize] at heq
      rw [UInt32.lt_iff_toNat_lt, hsize] at hless
      exact absurd (of_decide_eq_true hstop) (by omega)
    · have hlong : item.packet.length < numBytes.toNat := by simpa using hstop
      cases back with
      | nil =>
        rw [sameMarks_cons hl.2.1 hpos, marks_nil, List.take_nil]
        simp
      | cons next back =>
        simp only [filled_cons, content_cons, List.length_append] at hl hlt
        by_cases hflags : item.sacked = next.sacked ∧ item.lost = next.lost
        · obtain ⟨⟨merged, retrans'⟩, hmerge⟩ : ∃ r, item.mergeItems retrans next = some r :=
            ⟨_, if_pos hflags⟩
          obtain ⟨-, -, hsacked, hlost, hpacket, -⟩ := mergeItems_eq_some hmerge
          have hlen : merged.packet.length = item.packet.length + next.packet.length := by
            rw [hpacket, List.length_append]
          have hmarks : marks (merged :: back) = marks (item :: next :: back) := by
            rw [marks_cons, marks_cons, marks_cons, hsacked, hlost, hlen, ← hflags.1, ← hflags.2,
              List.replicate_add, List.append_assoc]
          have hfind' : findItem first seq start (front ++ merged :: back) =
              some (front, seq, merged, back) :=
            findItem_replace hfind (mergeItems_startSeq hmerge).1
              (steady_uint32.lt_add seq (by omega) (by omega))
          simp only [hmerge, Option.bind_some]
          rw [List.length_cons] at hfuel
          rw [SameMarks, ← hmarks]
          refine ih ?_ ?_ hfind' (by omega)
          · simp only [filled_append, filled_cons]
            exact ⟨hl.1, by omega, hl.2.2.2⟩
          · simp only [content_append, content_cons, List.length_append]
            omega
        · have hmerge : item.mergeItems retrans next = none := if_neg hflags
          have hmem : (next.sacked, next.lost) ∈
              (marks (next :: back)).take (numBytes.toNat - item.packet.length) := by
            rw [marks_cons, List.take_append, List.take_replicate]
            refine List.mem_append_left _ (List.mem_replicate.2 ⟨by omega, rfl⟩)
          rw [sameMarks_cons hl.2.1 hpos]
          refine iff_of_false ?_ fun h => hflags ?_
          · simp [hmerge]
          · obtain ⟨hsacked, hlost⟩ := Prod.mk.inj (h.2 _ hmem)
            exact ⟨hsacked.symm, hlost.symm⟩

/-- Nothing is before the first byte. -/
theorem ge_add_self (start : UInt32) (hd : d < 2 ^ 31) :
    ge (SequenceNumber.add start d) start = true := by
  have hge := ge_offset start (m := d) (n := 0) hd (by omega)
  rw [steady_uint32.add_zero] at hge
  exact hge.trans (decide_eq_true (Nat.zero_le _))

theorem contiguous_startSeq (h : Contiguous start (front ++ item :: back)) :
    item.startSeq = SequenceNumber.add start (content front).length :=
  ((contiguous_append steady_uint32).1 h).2.1

theorem check_of_contiguous (hlt : (content l).length < 2 ^ 31)
    (hfirst : ∀ f ∈ first, f = start ∧ Contiguous start l) :
    ∀ i ∈ l, (first.all fun first => ge i.startSeq first) = true := by
  intro i hi
  rw [Option.all_eq_true]
  intro f hf
  obtain ⟨rfl, hcontiguous⟩ := hfirst f hf
  obtain ⟨front, back, rfl⟩ := List.append_of_mem hi
  rw [content_append, List.length_append] at hlt
  rw [contiguous_startSeq hcontiguous]
  exact ge_add_self f (by omega)

/-- Elsewhere the item that has the first byte is split before. -/
theorem getPacketFromList_iff (hl : Filled l) (hlt : (content l).length < 2 ^ 31)
    (hpos : 0 < numBytes.toNat) (hnum : numBytes.toNat < 2 ^ 31)
    (hfirst : ∀ f ∈ first, f = start ∧ Contiguous start l)
    (hd : d < (content l).length) (hfuel : l.length < fuel) :
    (∃ r, getPacketFromList first start numBytes (SequenceNumber.add start d) fuel l retrans node =
      some r ∧ r.item.sacked = false) ↔ SameMarks l d numBytes.toNat := by
  obtain ⟨front, item, back, hsplit, hle, hinside, hfind⟩ :=
    @findItem_offset start first l d hlt (check_of_contiguous hlt hfirst) hd
  have hback : back.length < fuel - 1 := by
    rw [hsplit, List.length_append, List.length_cons] at hfuel
    omega
  rcases hle.eq_or_lt with heq | hgt
  · rw [heq] at hfind
    rw [getPacketFromList_at_iff hl hlt hpos hnum hfind (by omega), hsplit, ← heq]
    exact sameMarks_append.symm
  · cases fuel with
    | zero => exact absurd hfuel (Nat.not_lt_zero _)
    | succ fuel =>
      have hlen : (content front).length + item.packet.length ≤ (content l).length := by
        rw [hsplit, content_append, content_cons, List.length_append, List.length_append]
        omega
      have hne : SequenceNumber.add start d ≠ SequenceNumber.add start (content front).length := by
        rw [Ne, offset_inj start (by omega) (by omega)]
        omega
      have hafter : gt (SequenceNumber.add start d)
          (SequenceNumber.add start (content front).length) = true := by
        rw [gt_offset start (by omega) (by omega)]
        exact decide_eq_true hgt
      have hadd : SequenceNumber.add (SequenceNumber.add start (content front).length)
          (d - (content front).length) = SequenceNumber.add start d := by
        rw [steady_uint32.add_add, Nat.add_sub_cancel' hle]
      rw [getPacketFromList, hfind]
      simp only [Option.bind_eq_bind, Option.bind_some, if_neg hne, if_pos hafter]
      rw [distance_offset start (by omega) (by omega) hle]
      have hsum : (content front).length + (d - (content front).length) = d :=
        Nat.add_sub_cancel' hle
      generalize d - (content front).length = e at hadd hsum ⊢
      have hwalk := findItem_split steady_uint32 node hfind hadd (by omega) (by omega)
      have hcheck : (first.all fun first => ge (item.splitItems node e).2.startSeq first) =
          true := by
        rw [Option.all_eq_true]
        intro f hf
        obtain ⟨rfl, hcontiguous⟩ := hfirst f hf
        rw [hsplit] at hcontiguous
        simp only [TcpTxItem.splitItems]
        rw [contiguous_startSeq hcontiguous, hadd]
        exact ge_add_self f (by omega)
      have hcut : Cuts item.sacked (l, node)
          (front ++ (item.splitItems node e).1 :: (item.splitItems node e).2 :: back, node + 1) :=
        hsplit ▸ .split front back item node e rfl (by omega) (by omega)
      rw [if_pos hcheck] at hwalk
      rw [getPacketFromList_at_iff (hcut.filled hl)
        ((congrArg List.length hcut.content_eq).trans_lt hlt) hpos hnum hwalk (by omega)]
      rw [hsplit, ← hsum]
      exact (sameMarks_split node (by omega)).symm

/-! ## Segments sent before -/

theorem retransmitSize_of_ne {seq : UInt32} (h : ∀ i ∈ l, i.startSeq ≠ seq) :
    retransmitSize seq numBytes l = numBytes := by
  induction l with
  | nil => rfl
  | cons item rest ih =>
    obtain ⟨hitem, hrest⟩ := List.forall_mem_cons.1 h
    unfold retransmitSize
    rw [if_neg hitem, ih hrest]

theorem retransmitSize_append {seq : UInt32} (h : ∀ i ∈ front, i.startSeq ≠ seq) :
    retransmitSize seq numBytes (front ++ l) = retransmitSize seq numBytes l := by
  induction front with
  | nil => rfl
  | cons item rest ih =>
    obtain ⟨hitem, hrest⟩ := List.forall_mem_cons.1 h
    rw [List.cons_append]
    conv_lhs => unfold retransmitSize
    rw [if_neg hitem, ih hrest]

/-- Items with different flags are not merged where the request starts with an item. -/
theorem sameMarks_retransmitSize {seq : UInt32} (hl : Filled (item :: back))
    (hlt : (content (item :: back)).length < 2 ^ 31) (hpos : 0 < numBytes.toNat)
    (hstart : item.startSeq = seq) :
    SameMarks (item :: back) 0 (retransmitSize seq numBytes (item :: back)).toNat ↔
      item.sacked = false := by
  have hbounds := retransmitSize_bounds seq hl (hlt.trans (by decide)) hpos
  rw [filled_cons] at hl
  rw [content_cons, List.length_append] at hlt
  have hsize : item.size.toNat = item.packet.length := by
    rw [TcpTxItem.size, UInt32.toNat_ofNat']
    omega
  have hshort : retransmitSize seq numBytes (item :: back) = min numBytes item.size →
      (SameMarks (item :: back) 0 (retransmitSize seq numBytes (item :: back)).toNat ↔
        item.sacked = false) := by
    intro heq
    apply sameMarks_short hl.1 hbounds.1
    rw [heq, min_toNat_uint32, hsize]
    exact Nat.min_le_right _ _
  cases back with
  | nil => exact hshort (by rw [retransmitSize, if_pos hstart])
  | cons next back =>
    simp only [filled_cons, content_cons, List.length_append] at hl hlt
    have hnext : next.size.toNat = next.packet.length := by
      rw [TcpTxItem.size, UInt32.toNat_ofNat']
      omega
    by_cases hflags : (!next.sacked && item.lost == next.lost) = true
    · have heq : retransmitSize seq numBytes (item :: next :: back) =
          min numBytes (item.size + next.size) := by
        rw [retransmitSize, if_pos hstart]
        exact if_pos hflags
      rw [Bool.and_eq_true, Bool.not_eq_true', beq_iff_eq] at hflags
      rw [sameMarks_cons hl.1 hbounds.1]
      refine and_iff_left_of_imp fun hsacked mark hmark => ?_
      have hle : (retransmitSize seq numBytes (item :: next :: back)).toNat -
          item.packet.length ≤ next.packet.length := by
        rw [heq, min_toNat_uint32, UInt32.toNat_add, hsize, hnext]
        omega
      rw [marks_cons, List.take_append_of_le_length (by rwa [List.length_replicate]),
        List.take_replicate] at hmark
      rw [List.eq_of_mem_replicate hmark, hsacked, hflags.1, hflags.2]
    · exact hshort (by
        rw [retransmitSize, if_pos hstart]
        exact if_neg hflags)

/-- Where the request starts with an item, only its first byte counts. -/
def checkedBytes (b : TcpTxBuffer UInt32) (seq : UInt32) (n : ℕ) : ℕ :=
  if ∃ i ∈ b.sentList, i.startSeq = seq then 1 else n

/-- Where the item that starts with a byte lies in the sent list. -/
theorem split_at_start {b : TcpTxBuffer UInt32} (hb : Laid b) (hlt : b.size.toNat < 2 ^ 31)
    (hd : d < 2 ^ 31) (hitem : item ∈ b.sentList)
    (hstart : item.startSeq = SequenceNumber.add b.firstByteSeq d) :
    ∃ front back, b.sentList = front ++ item :: back ∧ (content front).length = d ∧
      ∀ i ∈ front, i.startSeq ≠ SequenceNumber.add b.firstByteSeq d := by
  have hall := hb.size
  have hfilled := (filled_append.1 hb.filled).1
  have hcontiguous := hb.contiguous
  obtain ⟨front, back, hsplit⟩ := List.append_of_mem hitem
  rw [hsplit] at hall hfilled hcontiguous
  rw [content_append, List.length_append] at hall
  have hlen : (content front).length = d := by
    rw [contiguous_startSeq hcontiguous, offset_inj b.firstByteSeq (by omega) hd] at hstart
    exact hstart
  refine ⟨front, back, hsplit, hlen, fun i hi heq => ?_⟩
  obtain ⟨before, after, rfl⟩ := List.append_of_mem hi
  have hpos : 0 < i.packet.length := hfilled i (List.mem_append_left _ hi)
  simp only [content_append, content_cons, List.length_append] at hlen
  rw [List.append_assoc, List.cons_append] at hcontiguous
  rw [contiguous_startSeq hcontiguous, offset_inj b.firstByteSeq (by omega) hd] at heq
  omega

/-- What is checked of the segment that is picked. -/
theorem sameMarks_checkedBytes {b : TcpTxBuffer UInt32} (hb : Laid b) (hlt : b.size.toNat < 2 ^ 31)
    (hpos : 0 < numBytes.toNat) (hd : d < 2 ^ 31) :
    SameMarks b.sentList d
        (retransmitSize (SequenceNumber.add b.firstByteSeq d) numBytes b.sentList).toNat ↔
      SameMarks b.sentList d
        (b.checkedBytes (SequenceNumber.add b.firstByteSeq d) numBytes.toNat) := by
  have hall := hb.size
  have hfilled := (filled_append.1 hb.filled).1
  by_cases hstart : ∃ i ∈ b.sentList, i.startSeq = SequenceNumber.add b.firstByteSeq d
  · obtain ⟨item, hitem, heq⟩ := hstart
    obtain ⟨front, back, hsplit, hlen, hne⟩ := split_at_start hb hlt hd hitem heq
    rw [checkedBytes, if_pos ⟨item, hitem, heq⟩]
    rw [hsplit, content_append, List.length_append] at hall
    rw [hsplit, filled_append] at hfilled
    have hat (n : ℕ) : SameMarks (front ++ item :: back) d n ↔ SameMarks (item :: back) 0 n := by
      have h := sameMarks_append (l := front) (m := item :: back) (d := 0) (n := n)
      rwa [Nat.add_zero, hlen] at h
    have hitem := (filled_cons.1 hfilled.2).1
    rw [hsplit, retransmitSize_append hne, hat, hat,
      sameMarks_retransmitSize hfilled.2 (by omega) hpos heq]
    exact (sameMarks_short hitem Nat.zero_lt_one hitem).symm
  · rw [checkedBytes, if_neg hstart, retransmitSize_of_ne]
    exact fun i hi heq => hstart ⟨i, hi, heq⟩

theorem getTransmittedSegment_iff {b : TcpTxBuffer UInt32} (hb : Laid b)
    (hlt : b.size.toNat < 2 ^ 31) (hpos : 0 < numBytes.toNat)
    (hend : d + numBytes.toNat ≤ b.sentSize.toNat) (hfuel : b.sentList.length < fuel) :
    (∃ item b', b.getTransmittedSegment fuel numBytes (SequenceNumber.add b.firstByteSeq d) =
      some (item, b') ∧ item.sacked = false) ↔
      SameMarks b.sentList d
        (b.checkedBytes (SequenceNumber.add b.firstByteSeq d) numBytes.toNat) := by
  have hsent := hb.sentSize
  have hall := hb.size
  have hfilled := (filled_append.1 hb.filled).1
  have hok : ge (SequenceNumber.add b.firstByteSeq d) b.firstByteSeq = true ∧
      numBytes ≤ b.sentSize ∧ b.sentList ≠ [] := by
    refine ⟨ge_add_self _ (by omega), UInt32.le_iff_toNat_le.2 (by omega), fun hnil => ?_⟩
    rw [hnil, content_nil, List.length_nil] at hsent
    omega
  have hbounds := retransmitSize_bounds (SequenceNumber.add b.firstByteSeq d) hfilled
    (by omega) hpos
  rw [← sameMarks_checkedBytes hb hlt hpos (by omega),
    ← @getPacketFromList_iff b.firstByteSeq (some b.firstByteSeq) b.sentList d fuel b.nextNode
      (retransmitSize (SequenceNumber.add b.firstByteSeq d) numBytes b.sentList) b.retrans hfilled
      (by omega) hbounds.1 (by omega)
      (fun f hf => ⟨(Option.some.inj hf).symm, hb.contiguous⟩) (by omega) hfuel]
  simp only [getTransmittedSegment, if_pos hok]
  constructor
  · rintro ⟨item, b', hret, hsacked⟩
    obtain ⟨r, hr, hret⟩ := Option.bind_eq_some_iff.1 hret
    cases hret
    exact ⟨r, hr, hsacked⟩
  · rintro ⟨r, hr, hsacked⟩
    rw [hr]
    exact ⟨_, _, rfl, hsacked⟩

/-! ## New segments -/

theorem getNewSegment_returns_plain {b : TcpTxBuffer UInt32} (hb : Laid b)
    (hlt : b.size.toNat < 2 ^ 31) (hpos : 0 < numBytes.toNat) (hnum : numBytes.toNat < 2 ^ 31)
    (hnew : b.sentSize.toNat < b.size.toNat) (hfuel : b.appList.length < fuel) :
    ∃ item b', b.getNewSegment fuel numBytes = some (item, b') ∧ item.retrans = false ∧
      item.startSeq = b.sentEnd ∧ b'.firstByteSeq = b.firstByteSeq := by
  have hsent := hb.sentSize
  have hall := hb.size
  have hmarks : SameMarks b.appList 0 numBytes.toNat := by
    refine ⟨false, fun mark hmark => ?_⟩
    obtain ⟨item, hitem, hmark⟩ :=
      List.mem_flatMap.1 (List.mem_of_mem_drop (List.mem_of_mem_take hmark))
    have hplain := hb.unsent item hitem
    rw [List.eq_of_mem_replicate hmark, hplain.1, hplain.2.2]
  obtain ⟨r, hr, -⟩ := (@getPacketFromList_iff b.sentEnd none b.appList 0 fuel b.nextNode numBytes
    b.retrans (filled_append.1 hb.filled).2 (by omega) hpos hnum nofun (by omega) hfuel).2 hmarks
  rw [steady_uint32.add_zero] at hr
  have hplain : ∀ i ∈ r.list, Plain i :=
    Reachable.invariant (I := fun x => ∀ i ∈ x.1, Plain i) (by rintro x rfl; exact hb.unsent)
      (fun _ _ hx hcut => (hcut.plain hx).1) ⟨_, rfl, getPacketFromList_recut hr⟩
  obtain ⟨item, b', hret⟩ : ∃ item b', b.getNewSegment fuel numBytes = some (item, b') := by
    rw [getNewSegment, hr]
    exact ⟨_, _, rfl⟩
  refine ⟨item, b', hret, ?_⟩
  rw [getNewSegment, hr] at hret
  cases hret
  exact ⟨(hplain r.item (List.mem_append_right _ List.mem_cons_self)).2.1, rfl, rfl⟩

/-! ## The branches -/

/-- The branches of `CopyFromSequence`: for sent data, for new data, and for both. -/
inductive Branch
  | sent
  | new
  | straddling
deriving DecidableEq

section Branches

variable {S : Type} [SequenceValue S] [DecidableEq S]

/-- The branch that is taken for a request; none if no condition holds. -/
def takenBranch (b : TcpTxBuffer S) (numBytes : UInt32) (seq : S) : Option Branch :=
  let s := min numBytes (b.sizeFromSequence seq)
  if ge b.sentEnd (SequenceNumber.add seq s.toNat) then some .sent
  else if le b.sentEnd seq then some .new
  else if gtValue b.sentEnd seq && gtValue (SequenceNumber.add seq s.toNat) b.sentEnd then
    some .straddling
  else none

theorem copyFromSequence_succ {b : TcpTxBuffer S} {seq : S} {numBytes : UInt32} {now : ℤ}
    (fuel : ℕ) (hfirst : gt b.firstByteSeq seq = false)
    (hzero : min numBytes (b.sizeFromSequence seq) ≠ 0) :
    copyFromSequence (fuel + 1) now b numBytes seq =
      match b.takenBranch numBytes seq with
      | some .sent => do
        let (item, b) ← b.getTransmittedSegment fuel (min numBytes (b.sizeFromSequence seq)) seq
        if item.sacked then none else returnItem now item b
      | some .new =>
        if b.sentEnd = seq then do
          let (item, b) ← b.getNewSegment fuel (min numBytes (b.sizeFromSequence seq))
          if item.retrans then none else returnItem now item b
        else none
      | some .straddling => copyFromSequence fuel now b (UInt32.ofNat (distance b.sentEnd seq)) seq
      | none => none := by
  rw [copyFromSequence, hfirst, takenBranch]
  dsimp only
  rw [if_neg Bool.false_ne_true, if_neg hzero]
  split_ifs <;> rfl

end Branches

/-- The branch for `n` bytes from the byte `d` on. -/
def branchOf (sentSize d n : ℕ) : Branch :=
  if d + n ≤ sentSize then .sent else if sentSize ≤ d then .new else .straddling

section Offsets

variable {b : TcpTxBuffer UInt32} (hlt : b.size.toNat < 2 ^ 31) (hd : d < b.size.toNat)

include hlt hd

theorem requested_offset : (min numBytes
    (b.sizeFromSequence (SequenceNumber.add b.firstByteSeq d))).toNat =
      min numBytes.toNat (b.size.toNat - d) := by
  have hge := ge_offset b.firstByteSeq (m := b.size.toNat) (n := d) hlt (by omega)
  have hdistance := distance_offset b.firstByteSeq (m := b.size.toNat) (n := d) hlt (by omega) hd.le
  rw [min_toNat_uint32, sizeFromSequence, tailSequence, hge, if_pos (decide_eq_true hd.le), hdistance,
    UInt32.toNat_ofNat', Nat.mod_eq_of_lt (by omega)]

/-- The comparisons of raw values come out right exactly if the requested bytes do not pass
`2 ^ 32`. -/
theorem raw_iff {n : ℕ} (hsent : d < b.sentSize.toNat) (hn : b.sentSize.toNat < d + n)
    (hle : d + n < 2 ^ 31) :
    (gtValue b.sentEnd (SequenceNumber.add b.firstByteSeq d) &&
        gtValue (SequenceNumber.add (SequenceNumber.add b.firstByteSeq d) n) b.sentEnd) =
      decide ((SequenceNumber.add b.firstByteSeq d).toNat + n < 2 ^ 32) := by
  have hadd (a : UInt32) (k : ℕ) (hk : k < 2 ^ 32) :
      (SequenceNumber.add a k).toNat = (a.toNat + k) % 2 ^ 32 := by
    show (a + UInt32.ofNat k).toNat = _
    rw [UInt32.toNat_add, UInt32.toNat_ofNat', Nat.mod_eq_of_lt hk]
  have hfirst := b.firstByteSeq.toNat_lt
  have hend : b.sentEnd.toNat = (b.firstByteSeq.toNat + b.sentSize.toNat) % 2 ^ 32 :=
    hadd _ _ (by omega)
  have hseq := hadd b.firstByteSeq d (by omega)
  have hstop := hadd (SequenceNumber.add b.firstByteSeq d) n (by omega)
  simp only [gtValue, UInt32.lt_iff_toNat_lt]
  rw [← Bool.decide_and, decide_eq_decide]
  omega

/-- A request for a byte of the buffer is not cut to nothing. -/
theorem requested_ne_zero (hpos : 0 < numBytes.toNat) :
    min numBytes (b.sizeFromSequence (SequenceNumber.add b.firstByteSeq d)) ≠ 0 := by
  have hrequested := @requested_offset d numBytes b hlt hd
  intro hzero
  rw [hzero, UInt32.toNat_zero] at hrequested
  omega

theorem takenBranch_offset {n : ℕ} (hn : n = min numBytes.toNat (b.size.toNat - d))
    (hsize : b.sentSize.toNat ≤ b.size.toNat) :
    b.takenBranch numBytes (SequenceNumber.add b.firstByteSeq d) =
      if d < b.sentSize.toNat → b.sentSize.toNat < d + n →
          (SequenceNumber.add b.firstByteSeq d).toNat + n < 2 ^ 32 then
        some (branchOf b.sentSize.toNat d n)
      else none := by
  have hsent : ge b.sentEnd (SequenceNumber.add (SequenceNumber.add b.firstByteSeq d) n) =
      decide (d + n ≤ b.sentSize.toNat) := by
    rw [steady_uint32.add_add]
    exact ge_offset b.firstByteSeq (by omega) (by omega)
  have hnew : le b.sentEnd (SequenceNumber.add b.firstByteSeq d) =
      decide (b.sentSize.toNat ≤ d) := le_offset b.firstByteSeq (by omega) (by omega)
  rw [takenBranch, requested_offset hlt hd, ← hn, hsent, hnew, branchOf]
  by_cases hall : d + n ≤ b.sentSize.toNat
  · rw [if_pos (decide_eq_true hall), if_pos fun _ _ => by omega, if_pos hall]
  · rw [if_neg (by simpa using hall)]
    by_cases hbehind : b.sentSize.toNat ≤ d
    · rw [if_pos (decide_eq_true hbehind), if_pos fun _ => by omega, if_neg hall, if_pos hbehind]
    · rw [if_neg (by simpa using hbehind), if_neg hall, if_neg hbehind,
        raw_iff hlt hd (by omega) (by omega) (by omega)]
      simp only [decide_eq_true_eq]
      exact if_congr ⟨fun h _ _ => h, fun h => h (by omega) (by omega)⟩ rfl rfl

end Offsets

/-! ## Requests -/

/-- A request for the byte `d` of the buffer takes the branch that it belongs to and returns an item
that starts there. -/
structure Delivers (b : TcpTxBuffer UInt32) (numBytes : UInt32) (d : ℕ) : Prop where
  branch : b.takenBranch numBytes (SequenceNumber.add b.firstByteSeq d) =
    some (branchOf b.sentSize.toNat d (min numBytes.toNat (b.size.toNat - d)))
  returns (fuel : ℕ) (now : ℤ) : b.sentList.length + b.appList.length + 3 ≤ fuel →
    ∃ item b', copyFromSequence fuel now b numBytes (SequenceNumber.add b.firstByteSeq d) =
      some (some item, b') ∧ item.startSeq = SequenceNumber.add b.firstByteSeq d

/-- What a request needs: no hole in front of it, no wrap inside a request for sent and new data,
and sent data that is not sacked and has the same flags as far as items are merged. -/
structure Deliverable (b : TcpTxBuffer UInt32) (numBytes : UInt32) (d : ℕ) : Prop where
  not_hole : d ≤ b.sentSize.toNat
  not_wrap : d < b.sentSize.toNat → b.sentSize.toNat < d + min numBytes.toNat (b.size.toNat - d) →
    (SequenceNumber.add b.firstByteSeq d).toNat + min numBytes.toNat (b.size.toNat - d) < 2 ^ 32
  same : d < b.sentSize.toNat → SameMarks b.sentList d (b.checkedBytes
    (SequenceNumber.add b.firstByteSeq d)
    (min (min numBytes.toNat (b.size.toNat - d)) (b.sentSize.toNat - d)))

section Requests

variable {b b' : TcpTxBuffer UInt32} {now : ℤ}

theorem returnItem_startSeq (hstart : item.startSeq = SequenceNumber.add b.firstByteSeq d)
    (hd : d < 2 ^ 31) : ∃ item' b', returnItem now item b = some (some item', b') ∧
      item'.startSeq = SequenceNumber.add b.firstByteSeq d := by
  exact ⟨_, _, if_pos (hstart ▸ ge_add_self _ hd), hstart⟩

theorem not_gt_first (hd : d < 2 ^ 31) :
    gt b.firstByteSeq (SequenceNumber.add b.firstByteSeq d) = false := by
  have hgt := gt_offset b.firstByteSeq (m := 0) (n := d) (by omega) hd
  rw [steady_uint32.add_zero] at hgt
  exact hgt.trans (decide_eq_false (Nat.not_lt_zero _))

variable (hb : Laid b) (hlt : b.size.toNat < 2 ^ 31)

include hb hlt

theorem getTransmittedSegment_startSeq {seq : UInt32} (hpos : 0 < numBytes.toNat)
    (h : b.getTransmittedSegment fuel numBytes seq = some (item, b')) :
    item.startSeq = seq ∧ b'.firstByteSeq = b.firstByteSeq := by
  have hall := hb.size
  obtain ⟨front, item', back, rfl, -, hcuts, hseq, -, hfirst, -⟩ :=
    getTransmittedSegment_spec steady_uint32 (by decide) (filled_append.1 hb.filled).1 (by omega)
      hpos h
  have hcontiguous := cuts_contiguous steady_uint32 hcuts hb.contiguous
  exact ⟨(contiguous_startSeq hcontiguous).trans hseq.symm, hfirst⟩

/-- A request for sent data only. -/
theorem copyFromSequence_sent_iff (hpos : 0 < numBytes.toNat) (hd : d < b.size.toNat)
    (hle : d + min numBytes.toNat (b.size.toNat - d) ≤ b.sentSize.toNat)
    (hfuel : b.sentList.length < fuel) :
    (∃ item b', copyFromSequence (fuel + 1) now b numBytes (SequenceNumber.add b.firstByteSeq d) =
      some (some item, b') ∧ item.startSeq = SequenceNumber.add b.firstByteSeq d) ↔
      SameMarks b.sentList d (b.checkedBytes (SequenceNumber.add b.firstByteSeq d)
        (min numBytes.toNat (b.size.toNat - d))) := by
  have hrequested := @requested_offset d numBytes b hlt hd
  have hbranch : b.takenBranch numBytes (SequenceNumber.add b.firstByteSeq d) = some .sent := by
    rw [takenBranch_offset hlt hd rfl hb.sentSize_le, if_pos fun _ hpast => absurd hpast (by omega),
      branchOf, if_pos hle]
  have hzero := @requested_ne_zero d numBytes b hlt hd hpos
  rw [copyFromSequence_succ fuel (not_gt_first (by omega)) hzero, hbranch]
  generalize min numBytes (b.sizeFromSequence (SequenceNumber.add b.firstByteSeq d)) = s
    at hrequested
  rw [← hrequested] at hle ⊢
  have hs : 0 < s.toNat := by omega
  rw [← getTransmittedSegment_iff hb hlt hs hle hfuel]
  constructor
  · rintro ⟨item, b', hcopy, -⟩
    obtain ⟨⟨item₁, b₁⟩, hret, hcopy⟩ := Option.bind_eq_some_iff.1 hcopy
    dsimp only at hcopy
    split_ifs at hcopy with hsacked
    exact ⟨item₁, b₁, hret, eq_false_of_ne_true hsacked⟩
  · rintro ⟨item₁, b₁, hret, hsacked⟩
    obtain ⟨hstart, hfirst⟩ := getTransmittedSegment_startSeq hb hlt hs hret
    rw [← hfirst] at hstart
    obtain ⟨item', b', hreturn, hstart'⟩ :=
      @returnItem_startSeq item₁ d b₁ now hstart (by omega)
    refine ⟨item', b', ?_, hfirst ▸ hstart'⟩
    rw [hret]
    simpa [hsacked] using hreturn

/-- A request for new data only. -/
theorem copyFromSequence_new (hpos : 0 < numBytes.toNat) (hd : b.sentSize.toNat < b.size.toNat)
    (hfuel : b.appList.length < fuel) :
    ∃ item b', copyFromSequence (fuel + 1) now b numBytes
      (SequenceNumber.add b.firstByteSeq b.sentSize.toNat) = some (some item, b') ∧
        item.startSeq = SequenceNumber.add b.firstByteSeq b.sentSize.toNat := by
  have hrequested := @requested_offset b.sentSize.toNat numBytes b hlt hd
  have hbranch : b.takenBranch numBytes (SequenceNumber.add b.firstByteSeq b.sentSize.toNat) =
      some .new := by
    rw [takenBranch_offset hlt hd rfl hd.le, if_pos fun hsent => absurd hsent (lt_irrefl _),
      branchOf, if_neg (by omega), if_pos le_rfl]
  have hzero := @requested_ne_zero b.sentSize.toNat numBytes b hlt hd hpos
  rw [copyFromSequence_succ fuel (not_gt_first (by omega)) hzero, hbranch]
  obtain ⟨item, b₁, hret, hretrans, hstart, hfirst⟩ :=
    @getNewSegment_returns_plain fuel
      (min numBytes (b.sizeFromSequence (SequenceNumber.add b.firstByteSeq b.sentSize.toNat)))
      b hb hlt (by omega) (by omega) hd hfuel
  rw [sentEnd, ← hfirst] at hstart
  obtain ⟨item', b', hreturn, hstart'⟩ :=
    @returnItem_startSeq item b.sentSize.toNat b₁ now hstart (by omega)
  refine ⟨item', b', ?_, hfirst ▸ hstart'⟩
  dsimp only
  rw [sentEnd, if_pos rfl, hret]
  simpa [hretrans] using hreturn

/-- A request for sent and new data asks again for the part that has been sent. -/
theorem copyFromSequence_straddling {fuel : ℕ} (hd : d < b.sentSize.toNat)
    (hpast : b.sentSize.toNat < d + min numBytes.toNat (b.size.toNat - d))
    (hwrap : (SequenceNumber.add b.firstByteSeq d).toNat +
      min numBytes.toNat (b.size.toNat - d) < 2 ^ 32) :
    ∃ amount : UInt32, amount.toNat = b.sentSize.toNat - d ∧
      copyFromSequence (fuel + 1) now b numBytes (SequenceNumber.add b.firstByteSeq d) =
        copyFromSequence fuel now b amount (SequenceNumber.add b.firstByteSeq d) := by
  have hsize := hb.sentSize_le
  have hbranch : b.takenBranch numBytes (SequenceNumber.add b.firstByteSeq d) =
      some .straddling := by
    rw [takenBranch_offset hlt (by omega) rfl hsize, if_pos fun _ _ => hwrap, branchOf,
      if_neg (by omega), if_neg (by omega)]
  have hzero := @requested_ne_zero d numBytes b hlt (by omega) (by omega)
  have hdistance : distance b.sentEnd (SequenceNumber.add b.firstByteSeq d) =
      b.sentSize.toNat - d := distance_offset b.firstByteSeq (by omega) (by omega) hd.le
  refine ⟨UInt32.ofNat (distance b.sentEnd (SequenceNumber.add b.firstByteSeq d)), ?_, ?_⟩
  · rw [hdistance, UInt32.toNat_ofNat', Nat.mod_eq_of_lt (by omega)]
  · rw [copyFromSequence_succ fuel (not_gt_first (by omega)) hzero, hbranch]

/-- Behind a hole no item is returned. -/
theorem copyFromSequence_hole {fuel : ℕ} (hpos : 0 < numBytes.toNat) (hd : d < b.size.toNat)
    (hhole : b.sentSize.toNat < d) :
    copyFromSequence (fuel + 1) now b numBytes (SequenceNumber.add b.firstByteSeq d) = none := by
  have hbranch : b.takenBranch numBytes (SequenceNumber.add b.firstByteSeq d) = some .new := by
    rw [takenBranch_offset hlt hd rfl hb.sentSize_le, if_pos fun hsent => absurd hsent (by omega),
      branchOf, if_neg (by omega), if_pos hhole.le]
  have hzero := @requested_ne_zero d numBytes b hlt hd hpos
  have hne : b.sentEnd ≠ SequenceNumber.add b.firstByteSeq d := by
    rw [sentEnd, Ne, offset_inj b.firstByteSeq (by omega) (by omega)]
    exact hhole.ne
  rw [copyFromSequence_succ fuel (not_gt_first (by omega)) hzero, hbranch]
  exact if_neg hne

end Requests

/-- A request for a byte of the buffer is served exactly if the bytes do not pass `2 ^ 32` where it
is for sent and new data, there is no hole in front of it, and the flags allow it. -/
theorem copyFromSequence_delivers_iff {b : TcpTxBuffer UInt32} (hb : Laid b)
    (hlt : b.size.toNat < 2 ^ 31) (hd : d < b.size.toNat) (hnum : 0 < numBytes) :
    Delivers b numBytes d ↔ Deliverable b numBytes d := by
  have hsize := hb.sentSize_le
  have hpos : 0 < numBytes.toNat := UInt32.lt_iff_toNat_lt.1 hnum
  have hbranch := @takenBranch_offset d numBytes b hlt hd _ rfl hsize
  constructor
  · rintro ⟨htaken, hreturns⟩
    obtain ⟨item, b', hcopy, hstart⟩ := hreturns _ 0 le_rfl
    have hwrap : d < b.sentSize.toNat →
        b.sentSize.toNat < d + min numBytes.toNat (b.size.toNat - d) →
        (SequenceNumber.add b.firstByteSeq d).toNat + min numBytes.toNat (b.size.toNat - d) <
          2 ^ 32 := by
      by_contra hwrap
      rw [hbranch, if_neg hwrap] at htaken
      cases htaken
    refine ⟨?_, hwrap, fun hsent => ?_⟩
    · by_contra hhole
      rw [copyFromSequence_hole hb hlt hpos hd (not_le.1 hhole)] at hcopy
      cases hcopy
    · by_cases hpast : b.sentSize.toNat < d + min numBytes.toNat (b.size.toNat - d)
      · obtain ⟨amount, hamount, heq⟩ := @copyFromSequence_straddling d numBytes b 0 hb hlt
          (b.sentList.length + b.appList.length + 2) hsent hpast (hwrap hsent hpast)
        rw [heq] at hcopy
        have hsame := (copyFromSequence_sent_iff hb hlt (by omega) hd (by omega) (by omega)).1
          ⟨item, b', hcopy, hstart⟩
        convert hsame using 2
        omega
      · have hsame := (copyFromSequence_sent_iff hb hlt hpos hd (by omega) (by omega)).1
          ⟨item, b', hcopy, hstart⟩
        rwa [Nat.min_eq_left (by omega : min numBytes.toNat (b.size.toNat - d) ≤ _)]
  · rintro ⟨hhole, hwrap, hsame⟩
    refine ⟨hbranch.trans (if_pos hwrap), fun fuel now hfuel => ?_⟩
    obtain ⟨fuel, rfl⟩ := Nat.exists_eq_add_of_le hfuel
    rw [show b.sentList.length + b.appList.length + 3 + fuel =
      b.sentList.length + b.appList.length + 1 + fuel + 1 + 1 by omega]
    rcases hhole.eq_or_lt with rfl | hsent
    · exact copyFromSequence_new hb hlt hpos hd (by omega)
    · by_cases hpast : b.sentSize.toNat < d + min numBytes.toNat (b.size.toNat - d)
      · obtain ⟨amount, hamount, heq⟩ :=
          @copyFromSequence_straddling d numBytes b now hb hlt _ hsent hpast (hwrap hsent hpast)
        rw [heq]
        apply (copyFromSequence_sent_iff hb hlt (by omega) hd (by omega) (by omega)).2
        convert hsame hsent using 2
        omega
      · apply (copyFromSequence_sent_iff hb hlt hpos hd (by omega) (by omega)).2
        have hsame := hsame hsent
        rwa [Nat.min_eq_left (by omega : min numBytes.toNat (b.size.toNat - d) ≤ _)] at hsame

/-- Four bytes from 2^32 - 2 on, of which three have been sent. -/
def acrossWrap : TcpTxBuffer UInt32 :=
  { (init 100 3 true 0xfffffffe : TcpTxBuffer UInt32) with
    appList := [⟨0, 3, [3], false, false, false, 0x7fffffffffffffff⟩]
    sentList := [⟨2, 0xfffffffe, [0, 1, 2], false, false, false, 1⟩]
    size := 4
    sentSize := 3
    nextNode := 3 }

theorem acrossWrap_laid : Laid acrossWrap where
  filled := (by decide :
    ∀ item ∈ acrossWrap.sentList ++ acrossWrap.appList, 0 < item.packet.length)
  contiguous := ⟨rfl, trivial⟩
  sentSize := rfl
  size := rfl
  unsent := List.forall_mem_singleton.2 ⟨rfl, rfl, rfl⟩

theorem copyFromSequence_delivers_iff_acrossWrap :
    Delivers acrossWrap 2 1 ↔ Deliverable acrossWrap 2 1 :=
  copyFromSequence_delivers_iff acrossWrap_laid (by decide) (by decide) (by decide)

/-- All four bytes are requested at once. -/
theorem not_copyFromSequence_delivers : ∃ trace,
    Run Step (init 100 3 true 0xfffffffe) trace acrossWrap ∧
      trace.map (·.2) =
        [.add ⟨[0, 1, 2, 3], by decide⟩, .copyFromSequence 1 3 0xfffffffe] ∧
      acrossWrap.takenBranch 4 0xfffffffe = none ∧
      (∀ fuel now, copyFromSequence fuel now acrossWrap 4 0xfffffffe = none) ∧
      ¬ Delivers acrossWrap 4 0 := by
  have hrun : (Run.runOf (apply 3) (init 100 3 true (0xfffffffe : UInt32))
      [.add ⟨[0, 1, 2, 3], by decide⟩, .copyFromSequence 1 3 0xfffffffe]).any
        (fun r => decide (r.2 = acrossWrap)) = true := by
    decide +kernel
  obtain ⟨⟨trace, b⟩, hrun, hr⟩ := (Option.any_eq_true _ _).1 hrun
  obtain rfl : b = acrossWrap := of_decide_eq_true hr
  have hbranch : acrossWrap.takenBranch 4 0xfffffffe = none := by decide
  refine ⟨trace, Run.of_runOf (fun _ _ _ h => ⟨3, h⟩) hrun, Run.runOf_events hrun, hbranch,
    fun fuel now => ?_, fun h => ?_⟩
  · cases fuel with
    | zero => rfl
    | succ fuel =>
      rw [copyFromSequence_succ fuel (by decide) (by decide), hbranch]
  · exact absurd (hbranch.symm.trans h.branch) (Option.some_ne_none _).symm

end Code

end TcpTxBuffer

end SeanetSim
