import SeanetSim.Internet.TcpTxScoreboard

/-!
# Picking a segment

What `GetPacketFromList` does to a list: it splits and merges items around the one it returns, all
of which have the same SACK flag (`getPacketFromList_cuts`).
-/

namespace SeanetSim

open SequenceNumber SequenceValue Relation

namespace TcpTxBuffer

section Content

variable {S : Type} {item : TcpTxItem S} {l m : List (TcpTxItem S)}

/-- The bytes of all items, one after the other. -/
def content (l : List (TcpTxItem S)) : List UInt8 := l.flatMap (·.packet)

@[simp] theorem content_nil : content ([] : List (TcpTxItem S)) = [] := rfl

@[simp] theorem content_cons : content (item :: l) = item.packet ++ content l :=
  List.flatMap_cons

@[simp] theorem content_append : content (l ++ m) = content l ++ content m :=
  List.flatMap_append

theorem length_content : (content l).length = bytes (fun _ => true) l := by
  induction l with
  | nil => rfl
  | cons item l ih =>
    rw [content_cons, List.length_append, ih]
    rfl

/-- No item is empty. -/
def Filled (l : List (TcpTxItem S)) : Prop := ∀ item ∈ l, 0 < item.packet.length

@[simp] theorem filled_nil : Filled ([] : List (TcpTxItem S)) := nofun

@[simp] theorem filled_cons : Filled (item :: l) ↔ 0 < item.packet.length ∧ Filled l :=
  List.forall_mem_cons

@[simp] theorem filled_append : Filled (l ++ m) ↔ Filled l ∧ Filled m :=
  List.forall_mem_append

/-- Where an item starts, and its bytes. -/
def span (item : TcpTxItem S) : S × List UInt8 := (item.startSeq, item.packet)

theorem filled_congr (h : l.map span = m.map span) (hm : Filled m) : Filled l := by
  intro i hi
  have hmem : span i ∈ m.map span := h ▸ List.mem_map_of_mem hi
  obtain ⟨j, hj, heq⟩ := List.mem_map.1 hmem
  rw [show i.packet = j.packet from (congrArg (·.2) heq).symm]
  exact hm j hj

end Content

section Cuts

variable {S : Type} [SequenceNumber S] {item : TcpTxItem S} {l m : List (TcpTxItem S)} {s : S}

/-- Each item starts where the one in front of it ends. -/
def Contiguous : S → List (TcpTxItem S) → Prop
  | _, [] => True
  | s, item :: rest =>
    item.startSeq = s ∧ Contiguous (SequenceNumber.add s item.packet.length) rest

@[simp] theorem contiguous_cons : Contiguous s (item :: l) ↔
    item.startSeq = s ∧ Contiguous (SequenceNumber.add s item.packet.length) l := Iff.rfl

theorem contiguous_congr (h : l.map span = m.map span) (hm : Contiguous s m) : Contiguous s l := by
  induction l generalizing m s with
  | nil => trivial
  | cons i l ih =>
    cases m with
    | nil => cases h
    | cons j m =>
      obtain ⟨hij, hrest⟩ := List.cons.inj h
      obtain ⟨hstart, hpacket⟩ := Prod.mk.inj hij
      rw [contiguous_cons] at hm ⊢
      rw [hstart, hpacket]
      exact ⟨hm.1, ih hrest hm.2⟩

/-- Items with one value of the SACK flag are split or merged; a split takes a new node. -/
inductive Cuts (sacked : Bool) : List (TcpTxItem S) × ℕ → List (TcpTxItem S) × ℕ → Prop
  | split (front back : List (TcpTxItem S)) (item : TcpTxItem S) (node n : ℕ)
      (hsacked : item.sacked = sacked) (hpos : 0 < n) (hlt : n < item.packet.length) :
      Cuts sacked (front ++ item :: back, node)
        (front ++ (item.splitItems node n).1 :: (item.splitItems node n).2 :: back, node + 1)
  | merge (front back : List (TcpTxItem S)) (t1 t2 merged : TcpTxItem S) (node : ℕ)
      (retrans retrans' : UInt32) (hsacked : t1.sacked = sacked)
      (h : t1.mergeItems retrans t2 = some (merged, retrans')) :
      Cuts sacked (front ++ t1 :: t2 :: back, node) (front ++ merged :: back, node)

variable {sacked : Bool} {x y : List (TcpTxItem S) × ℕ}

theorem Cuts.content_eq (h : Cuts sacked x y) : content y.1 = content x.1 := by
  cases h with
  | split front back item node n hsacked hpos hlt =>
    simp only [content_append, content_cons, TcpTxItem.splitItems]
    rw [← List.append_assoc (item.packet.take n), List.take_append_drop]
  | merge front back t1 t2 merged node retrans retrans' hsacked h =>
    obtain ⟨-, -, -, -, hpacket, -⟩ := mergeItems_eq_some h
    simp [hpacket]

theorem Cuts.filled (h : Cuts sacked x y) (hx : Filled x.1) : Filled y.1 := by
  cases h with
  | split front back item node n hsacked hpos hlt =>
    simp only [filled_append, filled_cons, TcpTxItem.splitItems, List.length_take,
      List.length_drop] at hx ⊢
    exact ⟨hx.1, by omega, by omega, hx.2.2⟩
  | merge front back t1 t2 merged node retrans retrans' hsacked h =>
    obtain ⟨-, -, -, -, hpacket, -⟩ := mergeItems_eq_some h
    simp only [filled_append, filled_cons, hpacket, List.length_append] at hx ⊢
    exact ⟨hx.1, by omega, hx.2.2.2⟩

/-- What comes of a list that is cut. -/
theorem cuts_list {sacked : Bool} {x y : List (TcpTxItem S) × ℕ}
    (h : ReflTransGen (Cuts sacked) x y) (hx : Filled x.1) :
    Filled y.1 ∧ content y.1 = content x.1 := by
  refine Reachable.invariant (I := fun y => Filled y.1 ∧ content y.1 = content x.1) ?_ ?_
    ⟨x, rfl, h⟩
  · rintro y rfl
    exact ⟨hx, rfl⟩
  · intro y z hy hcut
    exact ⟨hcut.filled hy.1, hcut.content_eq.trans hy.2⟩

variable [DecidableEq S] {bound : ℕ}

theorem contiguous_append (hS : Steady S bound) : Contiguous s (l ++ m) ↔
    Contiguous s l ∧ Contiguous (SequenceNumber.add s (content l).length) m := by
  induction l generalizing s with
  | nil => simp [Contiguous, hS.add_zero]
  | cons item l ih =>
    simp only [List.cons_append, contiguous_cons, content_cons, List.length_append, ih,
      hS.add_add, and_assoc]

theorem Cuts.contiguous (hS : Steady S bound) (h : Cuts sacked x y) (hx : Contiguous s x.1) :
    Contiguous s y.1 := by
  cases h with
  | split front back item node n hsacked hpos hlt =>
    rw [contiguous_append hS, contiguous_cons] at hx ⊢
    obtain ⟨hfront, hitem, hback⟩ := hx
    refine ⟨hfront, hitem, ?_⟩
    have hlen : n + (item.packet.length - n) = item.packet.length := Nat.add_sub_cancel' hlt.le
    simp only [contiguous_cons, TcpTxItem.splitItems, List.length_take, List.length_drop,
      Nat.min_eq_left hlt.le, hitem, true_and]
    rwa [hS.add_add (SequenceNumber.add s (content front).length), hlen]
  | merge front back t1 t2 merged node retrans retrans' hsacked h =>
    obtain ⟨-, -, -, -, hpacket, -⟩ := mergeItems_eq_some h
    rw [contiguous_append hS, contiguous_cons, contiguous_cons,
      hS.add_add (SequenceNumber.add s (content front).length)] at hx
    rw [contiguous_append hS, contiguous_cons, hpacket, List.length_append]
    exact ⟨hx.1, (mergeItems_startSeq h).1.trans hx.2.1, hx.2.2.2⟩

end Cuts

section Size

theorem min_toNat_uint32 (m n : UInt32) : (min m n).toNat = min m.toNat n.toNat := by
  change (if m ≤ n then m else n).toNat = _
  split_ifs with hle
  · exact (Nat.min_eq_left (UInt32.le_iff_toNat_le.1 hle)).symm
  · exact (Nat.min_eq_right (Nat.le_of_lt (UInt32.lt_iff_toNat_lt.1 (UInt32.not_le.1 hle)))).symm

variable {S : Type} [DecidableEq S] {seq : S} {numBytes : UInt32}

theorem retransmitSize_bounds {l : List (TcpTxItem S)} (seq : S) (hl : Filled l)
    (hlt : (content l).length < 2 ^ 32) (hnum : 0 < numBytes.toNat) :
    0 < (retransmitSize seq numBytes l).toNat ∧
      (retransmitSize seq numBytes l).toNat ≤ numBytes.toNat := by
  have hmin : ∀ {n : UInt32}, 0 < n.toNat →
      0 < (min numBytes n).toNat ∧ (min numBytes n).toNat ≤ numBytes.toNat := by
    intro n hn
    rw [min_toNat_uint32]
    omega
  have hsize : ∀ {item : TcpTxItem S}, item.packet.length < 2 ^ 32 →
      item.size.toNat = item.packet.length := by
    intro item hitem
    rw [TcpTxItem.size, UInt32.toNat_ofNat']
    omega
  induction l with
  | nil => exact ⟨hnum, Nat.le_refl _⟩
  | cons item rest ih =>
    simp only [filled_cons, content_cons, List.length_append] at hl hlt
    simp only [retransmitSize]
    split_ifs with hseq
    · cases rest with
      | nil => exact hmin (by rw [hsize (by omega)]; exact hl.1)
      | cons next rest =>
        simp only [filled_cons, content_cons, List.length_append] at hl hlt
        dsimp only
        split_ifs
        · apply hmin
          rw [UInt32.toNat_add, hsize (by omega), hsize (by omega)]
          omega
        · exact hmin (by rw [hsize (by omega)]; exact hl.1)
    · exact ih hl.2 (by omega)

end Size

section Code

variable {S : Type} [SequenceValue S] [DecidableEq S] {bound : ℕ} {first : Option S}
  {start begin seq : S} {item : TcpTxItem S} {l m front back : List (TcpTxItem S)}

/-! ## The walk -/

/-- The item that is found contains the number, and does not start before the first one. -/
theorem findItem_item (h : findItem first seq start l = some (front, begin, item, back)) :
    (first.all fun first => ge item.startSeq first) = true ∧
      lt seq (SequenceNumber.add begin item.packet.length) = true := by
  induction l generalizing start front with
  | nil => cases h
  | cons current rest ih =>
    simp only [findItem] at h
    split_ifs at h with hfirst hlt
    · cases h
      exact ⟨hfirst, hlt⟩
    · obtain ⟨⟨front', found⟩, hrest, heq⟩ := Option.bind_eq_some_iff.1 h
      cases heq
      exact ih hrest

/-- The walk comes to where it has found an item, whatever follows there. -/
theorem findItem_front (h : findItem first seq start l = some (front, begin, item, back)) :
    findItem first seq start (front ++ m) =
      (findItem first seq begin m).map fun r => (front ++ r.1, r.2) := by
  induction l generalizing start front with
  | nil => cases h
  | cons current rest ih =>
    simp only [findItem] at h
    split_ifs at h with hfirst hlt
    · cases h
      simp
    · obtain ⟨⟨front', found⟩, hrest, heq⟩ := Option.bind_eq_some_iff.1 h
      cases heq
      rw [List.cons_append, findItem, if_pos hfirst, if_neg hlt, ih hrest]
      cases findItem first seq begin m <;> rfl

/-- The item at which the walk ends may be replaced. -/
theorem findItem_replace {item' : TcpTxItem S}
    (h : findItem first seq start l = some (front, begin, item, back))
    (hstart : item'.startSeq = item.startSeq)
    (hlt : lt seq (SequenceNumber.add begin item'.packet.length) = true) :
    findItem first seq start (front ++ item' :: m) = some (front, begin, item', m) := by
  rw [findItem_front h, findItem, hstart, if_pos (findItem_item h).1, if_pos hlt]
  simp

theorem findItem_begin (hS : Steady S bound)
    (h : findItem first seq start l = some (front, begin, item, back)) :
    begin = SequenceNumber.add start (content front).length := by
  induction l generalizing start front with
  | nil => cases h
  | cons current rest ih =>
    simp only [findItem] at h
    split_ifs at h with hfirst hlt
    · cases h
      exact (hS.add_zero _).symm
    · obtain ⟨⟨front', found⟩, hrest, heq⟩ := Option.bind_eq_some_iff.1 h
      cases heq
      rw [ih hrest, hS.add_add, content_cons, List.length_append]

/-- After a split in front of the number, the walk passes the first part and comes to the second
one. -/
theorem findItem_split (hS : Steady S bound) (node : ℕ) {d : ℕ}
    (h : findItem first seq start l = some (front, begin, item, back))
    (hadd : SequenceNumber.add begin d = seq) (hless : d < item.packet.length)
    (hlt : item.packet.length < bound) :
    findItem first seq start
        (front ++ (item.splitItems node d).1 :: (item.splitItems node d).2 :: back) =
      if first.all fun first => ge (item.splitItems node d).2.startSeq first then
        some (front ++ [(item.splitItems node d).1], seq, (item.splitItems node d).2, back)
      else none := by
  have hfirst : (item.splitItems node d).1.packet.length = d := by
    simp only [TcpTxItem.splitItems, List.length_take]
    omega
  have hsecond : (item.splitItems node d).2.packet.length = item.packet.length - d := by
    simp only [TcpTxItem.splitItems, List.length_drop]
  have hsame : (item.splitItems node d).1.startSeq = item.startSeq := rfl
  have hlast := hS.lt_add seq (n := item.packet.length - d) (by omega) (by omega)
  rw [findItem_front h, findItem, hsame, if_pos (findItem_item h).1, hfirst, hadd]
  simp only [lt_self, Bool.false_eq_true, if_false, findItem, hsecond, hlast, if_true]
  split_ifs <;> simp

/-! ## The recursion -/

theorem getPacketFromList_cuts (hS : Steady S bound) (hbound : bound ≤ 2 ^ 32)
    {numBytes retrans : UInt32} {fuel node : ℕ} {r : PickedItem S} (hl : Filled l)
    (hlt : (content l).length < bound) (hnum : 0 < numBytes.toNat)
    (hfind : findItem first seq start l = some (front, begin, item, back))
    (h : getPacketFromList first start numBytes seq fuel l retrans node = some r) :
    ReflTransGen (Cuts item.sacked) (l, node) (r.list, r.nextNode) ∧
      r.item.sacked = item.sacked ∧ r.item.packet.length ≤ numBytes.toNat ∧
      findItem first seq start r.list = some (r.front, seq, r.item, r.back) := by
  induction fuel generalizing l front begin item back retrans node with
  | zero => cases h
  | succ fuel ih =>
    rw [getPacketFromList, hfind] at h
    have hsplit := findItem_eq hfind
    have ⟨hstart, hinside⟩ := findItem_item hfind
    subst hsplit
    simp only [filled_append, filled_cons] at hl
    simp only [content_append, content_cons, List.length_append] at hlt
    simp only [Option.bind_eq_bind, Option.bind_some] at h
    have hsize : item.size.toNat = item.packet.length := by
      rw [TcpTxItem.size, UInt32.toNat_ofNat']
      omega
    split_ifs at h with hseq hstop heq hless hgt
    · cases h
      subst hseq
      exact ⟨.refl, rfl, by rw [heq, hsize], hfind⟩
    · cases h
      subst hseq
      rw [UInt32.lt_iff_toNat_lt, hsize] at hless
      refine ⟨.single (.split front back item node _ rfl hnum hless), rfl, ?_, ?_⟩
      · simp [TcpTxItem.splitItems]
      · refine findItem_replace hfind rfl (hS.lt_add _ ?_ ?_)
        · simp only [TcpTxItem.splitItems, List.length_take]
          omega
        · simp only [TcpTxItem.splitItems, List.length_take]
          omega
    · subst hseq
      have hshort : item.packet.length ≤ numBytes.toNat := by
        by_contra hlong
        exact hstop (hS.le_add seq (by omega) (by omega))
      cases back with
      | nil =>
        cases h
        exact ⟨.refl, rfl, hshort, hfind⟩
      | cons next back =>
        obtain ⟨⟨merged, retrans'⟩, hmerge, h⟩ := Option.bind_eq_some_iff.1 h
        obtain ⟨-, -, hsacked, -, hpacket, -⟩ := mergeItems_eq_some hmerge
        have hcut : Cuts item.sacked (front ++ item :: next :: back, node)
            (front ++ merged :: back, node) :=
          .merge front back item next merged node retrans retrans' rfl hmerge
        simp only [filled_cons, content_cons, List.length_append] at hl hlt
        have hmerged : merged.packet.length = item.packet.length + next.packet.length := by
          rw [hpacket, List.length_append]
        have hfind' : findItem first seq start (front ++ merged :: back) =
            some (front, seq, merged, back) :=
          findItem_replace hfind (mergeItems_startSeq hmerge).1
            (hS.lt_add seq (by omega) (by omega))
        have hcontent := congrArg List.length hcut.content_eq
        obtain ⟨hcuts, hrest⟩ := ih (hcut.filled (by simp [hl]))
          (hcontent.trans_lt (by simpa using hlt)) hfind' h
        rw [hsacked] at hcuts hrest
        exact ⟨.head hcut hcuts, hrest⟩
    · obtain ⟨hadd, hpos, hless⟩ := hS.between hgt hinside (by omega)
      generalize distance seq begin = d at h hadd hpos hless
      have hcut : Cuts item.sacked (front ++ item :: back, node)
          (front ++ (item.splitItems node d).1 :: (item.splitItems node d).2 :: back, node + 1) :=
        .split front back item node d rfl hpos hless
      have hwalk := findItem_split hS node hfind hadd hless (by omega)
      split_ifs at hwalk with hstart'
      · have hcontent := congrArg List.length hcut.content_eq
        obtain ⟨hcuts, hrest⟩ := ih (hcut.filled (by simp [hl]))
          (hcontent.trans_lt (by simpa using hlt)) hwalk h
        exact ⟨.head hcut hcuts, hrest⟩
      · cases fuel with
        | zero => cases h
        | succ fuel =>
          rw [getPacketFromList, hwalk] at h
          cases h

theorem cuts_contiguous (hS : Steady S bound) {sacked : Bool} {x y : List (TcpTxItem S) × ℕ} {s : S}
    (h : ReflTransGen (Cuts sacked) x y) (hx : Contiguous s x.1) : Contiguous s y.1 :=
  Reachable.invariant (I := fun y => Contiguous s y.1) (by rintro y rfl; exact hx)
    (fun _ _ hy hcut => hcut.contiguous hS hy) ⟨x, rfl, h⟩

/-! ## New segments and those transmitted before -/

variable {fuel : ℕ} {b b' : TcpTxBuffer S} {numBytes : UInt32}

/-- A new segment is what the application list begins with. -/
theorem getNewSegment_spec (hS : Steady S bound) (hbound : bound ≤ 2 ^ 32) (hl : Filled b.appList)
    (hlt : (content b.appList).length < bound) (hnum : 0 < numBytes.toNat)
    (h : b.getNewSegment fuel numBytes = some (item, b')) :
    b'.sentList = b.sentList ++ [item] ∧ Filled (item :: b'.appList) ∧
      content (item :: b'.appList) = content b.appList ∧ item.startSeq = b.sentEnd ∧
      item.packet.length ≤ numBytes.toNat ∧ b'.firstByteSeq = b.firstByteSeq ∧
      b'.size = b.size := by
  obtain ⟨r, hr, h⟩ := Option.bind_eq_some_iff.1 h
  cases h
  have hfirst : ∀ {l : List (TcpTxItem S)} {item : TcpTxItem S}, Filled (item :: l) →
      (content (item :: l)).length < bound →
      findItem none b.sentEnd b.sentEnd (item :: l) = some ([], b.sentEnd, item, l) := by
    intro l item hl hlt
    rw [filled_cons] at hl
    rw [content_cons, List.length_append] at hlt
    simp [findItem, hS.lt_add b.sentEnd hl.1 (show item.packet.length < bound by omega)]
  cases happ : b.appList with
  | nil =>
    rw [happ] at hr
    cases fuel <;> cases hr
  | cons current rest =>
    rw [happ] at hl hlt hr
    obtain ⟨hcuts, -, hle, hfind⟩ :=
      getPacketFromList_cuts hS hbound hl hlt hnum (hfirst hl hlt) hr
    obtain ⟨hfilled, hcontent⟩ := cuts_list hcuts hl
    have hfront : r.front = [] := by
      cases hlist : r.list with
      | nil =>
        rw [hlist] at hfind
        cases hfind
      | cons item' rest' =>
        rw [hlist] at hfind hfilled hcontent
        rw [hfirst hfilled (by rwa [hcontent])] at hfind
        exact (congrArg (·.1) (Option.some.inj hfind)).symm
    have hlist : r.list = r.item :: r.back := by rw [PickedItem.list, hfront, List.nil_append]
    rw [hlist] at hfilled hcontent
    have hfilled' : 0 < r.item.packet.length ∧ Filled r.back := filled_cons.1 hfilled
    rw [hfront, List.nil_append]
    exact ⟨rfl, filled_cons.2 hfilled', hcontent, rfl, hle, rfl, rfl⟩

/-- A segment transmitted before comes out of the sent list, cut as it needs to be. -/
theorem getTransmittedSegment_spec (hS : Steady S bound) (hbound : bound ≤ 2 ^ 32)
    (hl : Filled b.sentList) (hlt : (content b.sentList).length < bound) (hnum : 0 < numBytes.toNat)
    (h : b.getTransmittedSegment fuel numBytes seq = some (item, b')) :
    ∃ front item' back, item = { item' with retrans := true } ∧
      b'.sentList = front ++ item :: back ∧
      ReflTransGen (Cuts item'.sacked) (b.sentList, b.nextNode)
        (front ++ item' :: back, b'.nextNode) ∧
      seq = SequenceNumber.add b.firstByteSeq (content front).length ∧
      item.packet.length ≤ numBytes.toNat ∧ b'.firstByteSeq = b.firstByteSeq ∧
      b'.size = b.size ∧ b'.appList = b.appList := by
  unfold getTransmittedSegment at h
  split_ifs at h
  obtain ⟨r, hr, h⟩ := Option.bind_eq_some_iff.1 h
  cases h
  obtain ⟨hpos, hle⟩ := retransmitSize_bounds seq hl (hlt.trans_le hbound) hnum
  obtain ⟨⟨front, begin, current, back⟩, hwalk⟩ : ∃ found,
      findItem (some b.firstByteSeq) seq b.firstByteSeq b.sentList = some found := by
    cases fuel with
    | zero => cases hr
    | succ fuel =>
      obtain ⟨found, hfound, -⟩ := Option.bind_eq_some_iff.1 hr
      exact ⟨found, hfound⟩
  obtain ⟨hcuts, hsacked, hlen, hfind⟩ := getPacketFromList_cuts hS hbound hl hlt hpos hwalk hr
  exact ⟨r.front, r.item, r.back, rfl, rfl, hsacked ▸ hcuts, findItem_begin hS hfind,
    hlen.trans hle, rfl, rfl, rfl⟩

end Code

end TcpTxBuffer

end SeanetSim
