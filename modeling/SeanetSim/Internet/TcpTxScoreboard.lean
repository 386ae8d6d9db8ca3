import SeanetSim.Internet.TcpTxBuffer
import SeanetSim.Lib.Tally

/-!
# The scoreboard of the transmit buffer

What the counters of a `TcpTxBuffer` count.  Splitting and merging items keeps the totals
(`Recut.counted`), and so does every operation, as long as no lost item gets a Reno SACK and the
last segment that is taken back has no flag (`accounted_of_run`).
-/

namespace SeanetSim

open SequenceNumber SequenceValue Relation

namespace TcpTxBuffer

section Items

variable {S : Type} {item : TcpTxItem S} {l front back : List (TcpTxItem S)}
  {sentSize sackedOut lostOut retrans retrans' : UInt32}

/-- The bytes of the items that have a property. -/
abbrev bytes (p : TcpTxItem S → Bool) : List (TcpTxItem S) → ℕ :=
  tally (fun item => item.packet.length) p

/-- The counters of a sent list are the sums over its items, of which none is both sacked and
lost. -/
structure Counted (sentList : List (TcpTxItem S)) (sentSize sackedOut lostOut retrans : UInt32) :
    Prop where
  sentSize : bytes (fun _ => true) sentList = sentSize.toNat
  sackedOut : bytes (·.sacked) sentList = sackedOut.toNat
  lostOut : bytes (·.lost) sentList = lostOut.toNat
  retrans : bytes (·.retrans) sentList = retrans.toNat
  separate : ∀ item ∈ sentList, (item.sacked && item.lost) = false

/-- No flag is set. -/
def Plain (item : TcpTxItem S) : Prop :=
  item.lost = false ∧ item.retrans = false ∧ item.sacked = false

/-- The first item that is not sacked is not lost. -/
def FirstUnlost (items : List (TcpTxItem S)) : Prop :=
  ∀ item ∈ items.find? fun item => !item.sacked, item.lost = false

/-- The items that are left after the first bytes, where there are `size` bytes in all. -/
def afterDiscard : ℕ → ℕ → List (TcpTxItem S) → List (TcpTxItem S)
  | _, _, [] => []
  | size, offset, item :: rest =>
    if size = 0 ∨ offset = 0 then item :: rest
    else if item.packet.length ≤ offset then
      afterDiscard (size - item.packet.length) (offset - item.packet.length) rest
    else item :: rest

instance (items : List (TcpTxItem S)) : Decidable (FirstUnlost items) :=
  inferInstanceAs (Decidable (∀ _ ∈ _, _))

/-- Two items that are merged, and the item that comes of them. -/
theorem mergeItems_eq_some {t1 t2 merged : TcpTxItem S}
    (h : t1.mergeItems retrans t2 = some (merged, retrans')) :
    t1.sacked = t2.sacked ∧ t1.lost = t2.lost ∧ merged.sacked = t1.sacked ∧
      merged.lost = t1.lost ∧ merged.packet = t1.packet ++ t2.packet ∧
      merged.retrans = (t1.retrans && t2.retrans) ∧
      retrans' = if t1.retrans = t2.retrans then retrans
        else if t1.retrans then retrans - t1.size else retrans - t2.size := by
  unfold TcpTxItem.mergeItems at h
  by_cases hflags : t1.sacked = t2.sacked ∧ t1.lost = t2.lost
  · rw [if_pos hflags] at h
    cases h
    refine ⟨hflags.1, hflags.2, rfl, rfl, rfl, ?_, rfl⟩
    cases t1.retrans <;> cases t2.retrans <;> rfl
  · rw [if_neg hflags] at h
    cases h

theorem mergeItems_startSeq {t1 t2 merged : TcpTxItem S}
    (h : t1.mergeItems retrans t2 = some (merged, retrans')) :
    merged.startSeq = t1.startSeq ∧ merged.node = t1.node := by
  unfold TcpTxItem.mergeItems at h
  split_ifs at h <;> cases h <;> exact ⟨rfl, rfl⟩

theorem bytes_merge (p : TcpTxItem S → Bool) {t1 t2 merged : TcpTxItem S}
    (hpacket : merged.packet = t1.packet ++ t2.packet) (h1 : p merged = p t1)
    (h2 : p merged = p t2) :
    bytes p (front ++ merged :: back) = bytes p (front ++ t1 :: t2 :: back) := by
  simp only [bytes, tally_append, tally_cons, ← h1, ← h2, hpacket, List.length_append]
  split_ifs <;> omega

/-- What is retransmitted only in part counts as not retransmitted. -/
theorem bytes_merge_retrans {t1 t2 merged : TcpTxItem S}
    (hpacket : merged.packet = t1.packet ++ t2.packet)
    (hflag : merged.retrans = (t1.retrans && t2.retrans))
    (h : bytes (·.retrans) (front ++ t1 :: t2 :: back) = retrans.toNat) :
    bytes (·.retrans) (front ++ merged :: back) =
      (if t1.retrans = t2.retrans then retrans
        else if t1.retrans then retrans - t1.size else retrans - t2.size).toNat := by
  simp only [bytes, tally_append, tally_cons, hpacket, hflag, List.length_append] at h ⊢
  cases h1 : t1.retrans <;> cases h2 : t2.retrans <;>
    simp only [h1, h2, TcpTxItem.size, Bool.and_self, Bool.and_false, Bool.and_true,
      Bool.false_eq_true, Bool.true_eq_false, if_true, if_false] at h ⊢
  · omega
  · rw [toNat_sub_ofNat (by omega)]
    omega
  · rw [toNat_sub_ofNat (by omega)]
    omega
  · omega

/-! ## One item -/

/-- A counter when an item gets a flag or loses it. -/
def adjust (c : UInt32) (old new : Bool) (size : UInt32) : UInt32 :=
  match old, new with
  | false, true => c + size
  | true, false => c - size
  | _, _ => c

@[simp] theorem adjust_self (c : UInt32) (flag : Bool) (size : UInt32) :
    adjust c flag flag size = c := by
  cases flag <;> rfl

@[simp] theorem adjust_true (c : UInt32) (old : Bool) (size : UInt32) :
    adjust c old true size = if old then c else c + size := by
  cases old <;> rfl

@[simp] theorem adjust_false (c : UInt32) (old : Bool) (size : UInt32) :
    adjust c old false size = if old then c - size else c := by
  cases old <;> rfl

theorem bytes_le (p : TcpTxItem S → Bool) : bytes p l ≤ bytes (fun _ => true) l :=
  tally_le fun _ _ _ => rfl

theorem Counted.sum_le (h : Counted l sentSize sackedOut lostOut retrans) :
    sackedOut.toNat + lostOut.toNat ≤ sentSize.toNat := by
  rw [← h.sackedOut, ← h.lostOut, ← h.sentSize]
  exact tally_add_le h.separate (fun _ _ _ => rfl) fun _ _ _ => rfl

theorem bytes_adjust {p : TcpTxItem S → Bool} {item' : TcpTxItem S} {c : UInt32}
    (hpacket : item'.packet = item.packet)
    (hlt : bytes (fun _ => true) (front ++ item :: back) < 2 ^ 32)
    (h : bytes p (front ++ item :: back) = c.toNat) :
    bytes p (front ++ item' :: back) = (adjust c (p item) (p item') item.size).toNat := by
  have hfront := bytes_le (l := front) p
  have hback := bytes_le (l := back) p
  simp only [bytes, tally_append, tally_cons, if_true, hpacket] at h hlt hfront hback ⊢
  cases hold : p item <;> cases hnew : p item' <;>
    simp only [hold, adjust, TcpTxItem.size, Bool.false_eq_true, if_true, if_false] at h ⊢
  · exact h
  · rw [toNat_add_ofNat (by omega)]
    omega
  · rw [toNat_sub_ofNat (by omega)]
    omega
  · exact h

/-- The flags of one item change. -/
theorem Counted.update {item' : TcpTxItem S}
    (h : Counted (front ++ item :: back) sentSize sackedOut lostOut retrans)
    (hpacket : item'.packet = item.packet) (hsep : (item'.sacked && item'.lost) = false) :
    Counted (front ++ item' :: back) sentSize
      (adjust sackedOut item.sacked item'.sacked item.size)
      (adjust lostOut item.lost item'.lost item.size)
      (adjust retrans item.retrans item'.retrans item.size) := by
  have hlt : bytes (fun _ => true) (front ++ item :: back) < 2 ^ 32 := by
    rw [h.sentSize]
    exact sentSize.toNat_lt
  refine ⟨?_, bytes_adjust hpacket hlt h.sackedOut, bytes_adjust hpacket hlt h.lostOut,
    bytes_adjust hpacket hlt h.retrans, ?_⟩
  · exact bytes_adjust (p := fun _ => true) hpacket hlt h.sentSize
  · have hall := h.separate
    simp only [List.forall_mem_append, List.forall_mem_cons] at hall ⊢
    exact ⟨hall.1, hsep, hall.2.2⟩

theorem Counted.update_head {item' : TcpTxItem S}
    (h : Counted (item :: back) sentSize sackedOut lostOut retrans)
    (hpacket : item'.packet = item.packet) (hsep : (item'.sacked && item'.lost) = false) :
    Counted (item' :: back) sentSize
      (adjust sackedOut item.sacked item'.sacked item.size)
      (adjust lostOut item.lost item'.lost item.size)
      (adjust retrans item.retrans item'.retrans item.size) := by
  rw [← List.nil_append (item :: back)] at h
  exact h.update hpacket hsep

theorem bytes_shrink {p : TcpTxItem S → Bool} {item' : TcpTxItem S} {c : UInt32} {n : ℕ}
    (hpacket : item'.packet.length + n = item.packet.length) (hp : p item' = p item)
    (h : bytes p (item :: back) = c.toNat) :
    bytes p (item' :: back) = (if p item then c - UInt32.ofNat n else c).toNat := by
  simp only [bytes, tally_cons, hp] at h ⊢
  split_ifs at h ⊢
  · rw [toNat_sub_ofNat (by omega)]
    omega
  · exact h

/-- The first item loses bytes. -/
theorem Counted.shrink {item' : TcpTxItem S} {n : ℕ}
    (h : Counted (item :: back) sentSize sackedOut lostOut retrans)
    (hpacket : item'.packet.length + n = item.packet.length)
    (hsacked : item'.sacked = item.sacked) (hlost : item'.lost = item.lost)
    (hretrans : item'.retrans = item.retrans) :
    Counted (item' :: back) (sentSize - UInt32.ofNat n)
      (if item.sacked then sackedOut - UInt32.ofNat n else sackedOut)
      (if item.lost then lostOut - UInt32.ofNat n else lostOut)
      (if item.retrans then retrans - UInt32.ofNat n else retrans) := by
  refine ⟨?_, bytes_shrink hpacket hsacked h.sackedOut, bytes_shrink hpacket hlost h.lostOut,
    bytes_shrink hpacket hretrans h.retrans, ?_⟩
  · exact bytes_shrink (p := fun _ => true) hpacket rfl h.sentSize
  · have hall := h.separate
    simp only [List.forall_mem_cons] at hall ⊢
    rw [hsacked, hlost]
    exact hall

/-- The first item is removed. -/
theorem Counted.tail (h : Counted (item :: back) sentSize sackedOut lostOut retrans) :
    Counted back (sentSize - item.size)
      (if item.sacked then sackedOut - item.size else sackedOut)
      (if item.lost then lostOut - item.size else lostOut)
      (if item.retrans then retrans - item.size else retrans) := by
  have hempty : Counted ({ item with packet := [] } :: back) _ _ _ _ :=
    h.shrink (n := item.packet.length) (Nat.zero_add _) rfl rfl rfl
  have hcons : ∀ p, bytes p back = bytes p ({ item with packet := [] } :: back) := by
    intro p
    simp [bytes]
  refine ⟨(hcons _).trans hempty.sentSize, (hcons _).trans hempty.sackedOut,
    (hcons _).trans hempty.lostOut, (hcons _).trans hempty.retrans, ?_⟩
  exact (List.forall_mem_cons.1 h.separate).2

/-- An item without flags comes in at the end. -/
theorem Counted.snoc (h : Counted l sentSize sackedOut lostOut retrans) (hitem : Plain item)
    (hlt : sentSize.toNat + item.packet.length < 2 ^ 32) :
    Counted (l ++ [item]) (sentSize + item.size) sackedOut lostOut retrans := by
  obtain ⟨hlost, hretrans, hsacked⟩ := hitem
  refine ⟨?_, ?_, ?_, ?_, ?_⟩
  · rw [TcpTxItem.size, toNat_add_ofNat hlt, ← h.sentSize]
    simp [bytes]
  · rw [← h.sackedOut]
    simp [bytes, hsacked]
  · rw [← h.lostOut]
    simp [bytes, hlost]
  · rw [← h.retrans]
    simp [bytes, hretrans]
  · rw [List.forall_mem_append, List.forall_mem_singleton, hsacked]
    exact ⟨h.separate, rfl⟩

/-- An item without flags goes from the end. -/
theorem Counted.of_snoc (h : Counted (l ++ [item]) sentSize sackedOut lostOut retrans)
    (hitem : Plain item) : Counted l (sentSize - item.size) sackedOut lostOut retrans := by
  obtain ⟨hlost, hretrans, hsacked⟩ := hitem
  obtain ⟨hsent, hsacked', hlost', hretrans', hsep⟩ := h
  simp only [bytes, tally_append, tally_cons, tally_nil, hsacked, hlost, hretrans, if_true,
    Bool.false_eq_true, if_false, Nat.add_zero] at hsent hsacked' hlost' hretrans'
  refine ⟨?_, hsacked', hlost', hretrans', (List.forall_mem_append.1 hsep).1⟩
  rw [TcpTxItem.size, toNat_sub_ofNat (by omega)]
  exact Nat.eq_sub_of_add_eq hsent

/-- The items keep their bytes and flags. -/
theorem Counted.map {f : TcpTxItem S → TcpTxItem S}
    (h : Counted l sentSize sackedOut lostOut retrans) (hpacket : ∀ i, (f i).packet = i.packet)
    (hsacked : ∀ i, (f i).sacked = i.sacked) (hlost : ∀ i, (f i).lost = i.lost)
    (hretrans : ∀ i, (f i).retrans = i.retrans) :
    Counted (l.map f) sentSize sackedOut lostOut retrans := by
  have hbytes : ∀ p : TcpTxItem S → Bool, (∀ i, p (f i) = p i) → bytes p (l.map f) = bytes p l :=
    fun p hp => tally_map (fun i _ => congrArg List.length (hpacket i)) fun i _ => hp i
  refine ⟨(hbytes _ fun _ => rfl).trans h.sentSize, (hbytes _ hsacked).trans h.sackedOut,
    (hbytes _ hlost).trans h.lostOut, (hbytes _ hretrans).trans h.retrans, ?_⟩
  intro i hi
  obtain ⟨j, hj, rfl⟩ := List.mem_map.1 hi
  rw [hsacked, hlost]
  exact h.separate j hj

end Items

/-! ## Splitting and merging -/

section Recut

variable {S : Type} [SequenceNumber S] {item : TcpTxItem S} {front back : List (TcpTxItem S)}
  {sentSize sackedOut lostOut : UInt32}

/-- Items are split or merged somewhere in a list. -/
inductive Recut : List (TcpTxItem S) × UInt32 → List (TcpTxItem S) × UInt32 → Prop
  | split (front back : List (TcpTxItem S)) (item : TcpTxItem S) (node n : ℕ)
      (retrans : UInt32) :
      Recut (front ++ item :: back, retrans)
        (front ++ (item.splitItems node n).1 :: (item.splitItems node n).2 :: back, retrans)
  | merge (front back : List (TcpTxItem S)) (t1 t2 merged : TcpTxItem S)
      (retrans retrans' : UInt32) (h : t1.mergeItems retrans t2 = some (merged, retrans')) :
      Recut (front ++ t1 :: t2 :: back, retrans) (front ++ merged :: back, retrans')

theorem bytes_split (p : TcpTxItem S → Bool) {node n : ℕ}
    (h1 : p (item.splitItems node n).1 = p item) (h2 : p (item.splitItems node n).2 = p item) :
    bytes p (front ++ (item.splitItems node n).1 :: (item.splitItems node n).2 :: back) =
      bytes p (front ++ item :: back) := by
  simp only [bytes, tally_append, tally_cons, h1, h2]
  simp only [TcpTxItem.splitItems, List.length_take, List.length_drop]
  split_ifs <;> omega

theorem Recut.counted {x y : List (TcpTxItem S) × UInt32} (hstep : Recut x y)
    (h : Counted x.1 sentSize sackedOut lostOut x.2) :
    Counted y.1 sentSize sackedOut lostOut y.2 := by
  obtain ⟨hsent, hsacked, hlost, hretrans, hsep⟩ := h
  cases hstep with
  | split front back item node n retrans =>
    refine ⟨?_, ?_, ?_, ?_, ?_⟩
    · exact (bytes_split _ rfl rfl).trans hsent
    · exact (bytes_split _ rfl rfl).trans hsacked
    · exact (bytes_split _ rfl rfl).trans hlost
    · exact (bytes_split _ rfl rfl).trans hretrans
    · simp only [List.forall_mem_append, List.forall_mem_cons] at hsep ⊢
      exact ⟨hsep.1, hsep.2.1, hsep.2⟩
  | merge front back t1 t2 merged retrans retrans' hmerge =>
    obtain ⟨hsacked', hlost', hms, hml, hmp, hmr, rfl⟩ := mergeItems_eq_some hmerge
    refine ⟨?_, ?_, ?_, ?_, ?_⟩
    · exact (bytes_merge _ hmp rfl rfl).trans hsent
    · exact (bytes_merge _ hmp hms (hms.trans hsacked')).trans hsacked
    · exact (bytes_merge _ hmp hml (hml.trans hlost')).trans hlost
    · exact bytes_merge_retrans hmp hmr hretrans
    · simp only [List.forall_mem_append, List.forall_mem_cons] at hsep ⊢
      refine ⟨hsep.1, ?_, hsep.2.2.2⟩
      rw [hms, hml]
      exact hsep.2.1

/-- Items without flags stay so, and as many bytes. -/
theorem Recut.plain {x y : List (TcpTxItem S) × UInt32} (hstep : Recut x y)
    (h : ∀ item ∈ x.1, Plain item) :
    (∀ item ∈ y.1, Plain item) ∧ y.2 = x.2 ∧
      bytes (fun _ => true) y.1 = bytes (fun _ => true) x.1 := by
  cases hstep with
  | split front back item node n retrans =>
    refine ⟨?_, rfl, bytes_split _ rfl rfl⟩
    simp only [List.forall_mem_append, List.forall_mem_cons] at h ⊢
    exact ⟨h.1, h.2.1, h.2⟩
  | merge front back t1 t2 merged retrans retrans' hmerge =>
    obtain ⟨-, -, hms, hml, hmp, hmr, rfl⟩ := mergeItems_eq_some hmerge
    simp only [List.forall_mem_append, List.forall_mem_cons] at h ⊢
    obtain ⟨hfront, ⟨hlost, hretrans, hsacked⟩, ⟨-, hretrans', -⟩, hback⟩ := h
    refine ⟨⟨hfront, ⟨hml.trans hlost, ?_, hms.trans hsacked⟩, hback⟩, ?_,
      bytes_merge _ hmp rfl rfl⟩
    · rw [hmr, hretrans, Bool.false_and]
    · rw [if_pos (hretrans.trans hretrans'.symm)]

/-- No sacked item comes up where there is none. -/
theorem Recut.unsacked {x y : List (TcpTxItem S) × UInt32} (hstep : Recut x y)
    (h : ∀ item ∈ x.1, item.sacked = false) : ∀ item ∈ y.1, item.sacked = false := by
  cases hstep with
  | split front back item node n retrans =>
    simp only [List.forall_mem_append, List.forall_mem_cons] at h ⊢
    exact ⟨h.1, h.2.1, h.2⟩
  | merge front back t1 t2 merged retrans retrans' hmerge =>
    obtain ⟨-, -, hms, -⟩ := mergeItems_eq_some hmerge
    simp only [List.forall_mem_append, List.forall_mem_cons] at h ⊢
    exact ⟨h.1, hms.trans h.2.1, h.2.2.2⟩

end Recut

/-! ## What the operations keep -/

section Flags

variable {S : Type} {b b' : TcpTxBuffer S} {l front : List (TcpTxItem S)}
  {sentSize sackedOut lostOut retrans : UInt32}

structure Accounted (b : TcpTxBuffer S) : Prop where
  counted : Counted b.sentList b.sentSize b.sackedOut b.lostOut b.retrans
  size : bytes (fun _ => true) (b.sentList ++ b.appList) = b.size.toNat
  separate : ∀ item ∈ b.appList, (item.sacked && item.lost) = false
  /-- `BytesInFlight` does not underflow. -/
  inFlight : b.sackedOut.toNat + b.lostOut.toNat ≤ b.sentSize.toNat

/-- What every operation keeps. -/
structure Kept (b : TcpTxBuffer S) : Prop where
  counted : Counted b.sentList b.sentSize b.sackedOut b.lostOut b.retrans
  size : bytes (fun _ => true) b.sentList + bytes (fun _ => true) b.appList = b.size.toNat
  unsent : ∀ item ∈ b.appList, Plain item
  room : b.size ≤ b.maxBuffer

theorem Kept.accounted (hb : Kept b) : Accounted b where
  counted := hb.counted
  size := (tally_append _ _).trans hb.size
  separate item hitem := by rw [(hb.unsent item hitem).1, Bool.and_false]
  inFlight := hb.counted.sum_le

/-- The assertion of `BytesInFlight` holds. -/
theorem Accounted.bytesInFlight (hb : Accounted b) : ∃ n, b.bytesInFlight = some n := by
  have hle := hb.inFlight
  have hlt := b.sentSize.toNat_lt
  refine ⟨_, if_pos (UInt32.le_iff_toNat_le.2 ?_)⟩
  rw [UInt32.toNat_add]
  omega

theorem afterDiscard_suffix (size offset : ℕ) (l : List (TcpTxItem S)) :
    afterDiscard size offset l <:+ l := by
  induction l generalizing size offset with
  | nil => exact List.suffix_rfl
  | cons item rest ih =>
    simp only [afterDiscard]
    split_ifs
    · exact List.suffix_rfl
    · exact (ih _ _).trans (List.suffix_cons item rest)
    · exact List.suffix_rfl

/-- What is left of a list, perhaps without the first bytes of its first item, or items without
SACKs that have come in its place. -/
def LeftOf (before after : List (TcpTxItem S)) : Prop :=
  (∀ item ∈ after, item.sacked = false) ∨
    ∃ head head' rest, before = head :: rest ∧ after = head' :: rest ∧ head'.sacked = head.sacked

theorem LeftOf.unsacked {before after : List (TcpTxItem S)} (h : LeftOf before after)
    (hbefore : ∀ item ∈ before, item.sacked = false) : ∀ item ∈ after, item.sacked = false := by
  rcases h with h | ⟨head, head', rest, rfl, rfl, hhead⟩
  · exact h
  · simp only [List.forall_mem_cons] at hbefore ⊢
    exact ⟨hhead.trans hbefore.1, hbefore.2⟩

theorem firstUnlost_cons (head : TcpTxItem S) (rest : List (TcpTxItem S)) :
    FirstUnlost (head :: rest) ↔
      if head.sacked then FirstUnlost rest else head.lost = false := by
  cases hsacked : head.sacked <;> simp [FirstUnlost, hsacked]

/-- The first item without a SACK gets one. -/
theorem sackFirst_counted (front : List (TcpTxItem S)) {rest rest' : List (TcpTxItem S)}
    {pktSize : UInt32}
    {hs : Option ℕ × S} (h : sackFirst rest = some (rest', pktSize, hs)) (hlost : FirstUnlost rest)
    (hcounted : Counted (front ++ rest) sentSize sackedOut lostOut retrans) :
    Counted (front ++ rest') sentSize (sackedOut + pktSize) lostOut retrans := by
  induction rest generalizing front rest' with
  | nil => cases h
  | cons item rest ih =>
    rw [firstUnlost_cons] at hlost
    simp only [sackFirst] at h
    split_ifs at h hlost with hsacked
    · obtain ⟨⟨rest₁, found⟩, hrest, h⟩ := Option.bind_eq_some_iff.1 h
      cases h
      have hmoved := ih (front ++ [item]) hrest hlost (by simpa using hcounted)
      simpa using hmoved
    · cases h
      have hupdate : Counted (front ++ { item with sacked := true } :: rest) _ _ _ _ :=
        hcounted.update rfl (by simp [hlost])
      simpa [Bool.eq_false_iff.2 hsacked] using hupdate

theorem addRenoSack_kept (hb : Kept b) (hlost : FirstUnlost b.sentList.tail)
    (h : b.addRenoSack = some b') : Kept b' := by
  obtain ⟨hcounted, hsize, hunsent, hroom⟩ := hb
  unfold addRenoSack at h
  split at h
  · cases h
  · rename_i head rest hlist
    rw [hlist] at hlost hcounted
    split_ifs at h
    split at h <;> cases h
    · rename_i rest' pktSize hs hsack
      have hcounted' := sackFirst_counted [head] hsack hlost hcounted
      refine ⟨hcounted', ?_, hunsent, hroom⟩
      rw [← hsize, hlist, hcounted.sentSize]
      exact congrArg (· + _) hcounted'.sentSize
    · exact ⟨hlist ▸ hcounted, hsize, hunsent, hroom⟩

theorem markHeadAsLost_kept (hb : Kept b) : Kept b.markHeadAsLost := by
  obtain ⟨hcounted, hsize, hunsent, hroom⟩ := hb
  unfold markHeadAsLost
  split
  · exact ⟨hcounted, hsize, hunsent, hroom⟩
  · rename_i head rest hlist
    rw [hlist] at hcounted
    have hupdate : Counted ({ head with sacked := false, retrans := false, lost := true } :: rest)
      _ _ _ _ := hcounted.update_head rfl rfl
    refine ⟨by simpa using hupdate, ?_, hunsent, hroom⟩
    rw [← hsize, hlist, hcounted.sentSize]
    exact congrArg (· + _) hupdate.sentSize

theorem deleteRetransmittedFlagFromHead_kept (hb : Kept b)
    (h : b.deleteRetransmittedFlagFromHead = some b') : Kept b' := by
  have ⟨hcounted, hsize, hunsent, hroom⟩ := hb
  unfold deleteRetransmittedFlagFromHead at h
  split_ifs at h
  · cases h
    exact hb
  split at h <;> cases h
  rename_i head rest hlist
  rw [hlist] at hcounted
  have hupdate : Counted ({ head with retrans := false } :: rest) _ _ _ _ :=
    hcounted.update_head rfl (hcounted.separate head List.mem_cons_self)
  refine ⟨by simpa using hupdate, ?_, hunsent, hroom⟩
  rw [← hsize, hlist, hcounted.sentSize]
  exact congrArg (· + _) hupdate.sentSize

theorem markLost_counted (front : List (TcpTxItem S)) {l' : List (TcpTxItem S)}
    {dupAckThresh : UInt32} {sacked : ℕ}
    {lost sentSize sackedOut lostOut : UInt32}
    (h : markLost dupAckThresh l = (l', sacked, lost))
    (hcounted : Counted (front ++ l ++ back) sentSize sackedOut lostOut retrans) :
    Counted (front ++ l' ++ back) sentSize sackedOut (lostOut + lost) retrans := by
  induction l generalizing front l' sacked lost with
  | nil =>
    cases h
    simpa using hcounted
  | cons item rest ih =>
    cases hrest : markLost dupAckThresh rest with
    | mk rest' r =>
    obtain ⟨sacked', lost'⟩ := r
    simp only [markLost, hrest] at h
    generalize (if item.sacked then sacked' + 1 else sacked') = count at h
    have hih : Counted (front ++ item :: (rest' ++ back)) sentSize sackedOut (lostOut + lost')
        retrans := by
      simpa using ih (front ++ [item]) hrest (by simpa using hcounted)
    split_ifs at h with hmark
    · cases h
      have hupdate : Counted (front ++ { item with lost := true } :: (rest' ++ back)) _ _ _ _ :=
        hih.update rfl (by simp [hmark.2.1])
      rw [adjust_self, adjust_true, adjust_self, hmark.2.2] at hupdate
      simpa [UInt32.add_assoc] using hupdate
    · cases h
      simpa using hih

theorem splitAtNode_eq {node : ℕ} {upTo behind : List (TcpTxItem S)}
    (h : splitAtNode node l = some (upTo, behind)) : l = upTo ++ behind := by
  induction l generalizing upTo with
  | nil => cases h
  | cons item rest ih =>
    simp only [splitAtNode] at h
    split_ifs at h
    · cases h
      rfl
    · obtain ⟨⟨upTo', behind'⟩, hrest, h⟩ := Option.bind_eq_some_iff.1 h
      cases h
      rw [ih hrest, List.cons_append]

/-- The head gets its flag unseen, so it must not be sacked; it is not when `Update` ends. -/
theorem updateLostCount_kept (hb : Kept b) (h : b.updateLostCount = some b')
    (hhead : ∀ head ∈ b'.sentList.head?, head.sacked = false) : Kept b' := by
  obtain ⟨node, hnode, h⟩ := Option.bind_eq_some_iff.1 h
  obtain ⟨⟨items, behind⟩, hsplit, h⟩ := Option.bind_eq_some_iff.1 h
  have hlist := splitAtNode_eq hsplit
  have ⟨hcounted, hsize, hunsent, hroom⟩ := hb
  rw [hlist] at hcounted hsize
  cases items with
  | nil => cases h
  | cons head upTo =>
    cases hmark : markLost b.dupAckThresh upTo with
    | mk upTo' r =>
    obtain ⟨sacked, lost⟩ := r
    simp only [hmark, Option.some.injEq] at h
    subst h
    have hsacked : head.sacked = false := by simpa using hhead
    have hupTo : Counted (head :: (upTo' ++ behind)) b.sentSize b.sackedOut (b.lostOut + lost)
        b.retrans := markLost_counted [head] hmark hcounted
    have hupdate : Counted ({ head with lost := head.lost ||
        (decide (b.dupAckThresh.toNat ≤ sacked) && !head.lost) } :: (upTo' ++ behind)) _ _ _ _ :=
      hupTo.update_head rfl (by rw [hsacked, Bool.false_and])
    refine ⟨?_, ?_, hunsent, hroom⟩
    · rw [adjust_self, adjust_self] at hupdate
      cases hlost : head.lost <;> cases hthresh : decide (b.dupAckThresh.toNat ≤ sacked) <;>
        simpa [hlost, hthresh, adjust] using hupdate
    · rw [← hsize, hcounted.sentSize]
      exact congrArg (· + _) hupdate.sentSize

theorem resetLastSegmentSent_kept (hb : Kept b) (hlast : ∀ item ∈ b.sentList.getLast?, Plain item) :
    Kept b.resetLastSegmentSent := by
  have ⟨hcounted, hsize, hunsent, hroom⟩ := hb
  unfold resetLastSegmentSent
  cases hlist : b.sentList.getLast? with
  | none => exact hb
  | some item =>
    have hplain := hlast item hlist
    have hsplit := List.dropLast_append_getLast? item hlist
    rw [← hsplit] at hcounted
    have hrest := hcounted.of_snoc hplain
    refine ⟨?_, ?_, List.forall_mem_cons.2 ⟨hplain, hunsent⟩, hroom⟩
    · simpa [hplain.2.1] using hrest
    · rw [← hsize, ← hsplit]
      simp [bytes, Nat.add_assoc]

/-- The loop that counts the lost bytes again. -/
theorem foldl_lost {c : UInt32} (h : c.toNat + bytes (·.lost) l < 2 ^ 32) :
    (l.foldl (fun c item => if item.lost then c + item.size else c) c).toNat =
      c.toNat + bytes (·.lost) l := by
  induction l generalizing c with
  | nil => rfl
  | cons item l ih =>
    simp only [bytes, tally_cons, List.foldl_cons] at h ⊢
    split_ifs at h ⊢ with hlost
    · have hadd := toNat_add_ofNat (c := c) (n := item.packet.length) (by omega)
      rw [TcpTxItem.size, ih (by rw [hadd]; simp only [bytes]; omega), hadd, Nat.add_assoc]
    · rw [ih (by simp only [bytes]; omega), Nat.zero_add]

theorem moveSackFromHead_kept (hb : Kept b)
    (hlost : (∀ head ∈ b.sentList.head?, head.sacked = true) → FirstUnlost b.sentList.tail)
    (h : b.moveSackFromHead = some b') : Kept b' := by
  have ⟨hcounted, hsize, hunsent, hroom⟩ := hb
  unfold moveSackFromHead at h
  split at h
  · cases h
    exact hb
  · rename_i head rest hlist
    rw [hlist] at hcounted hlost
    split_ifs at h with hsacked
    · obtain ⟨b₁, hreno, h⟩ := Option.bind_eq_some_iff.1 h
      cases h
      have hupdate : Counted ({ head with sacked := false } :: rest) _ _ _ _ :=
        hcounted.update_head rfl rfl
      have hcleared : Kept { b with
          sentList := { head with sacked := false } :: rest
          sackedOut := b.sackedOut - head.size } := by
        refine ⟨by simpa [hsacked] using hupdate, ?_, hunsent, hroom⟩
        rw [← hsize, hlist]
        rfl
      exact markHeadAsLost_kept (addRenoSack_kept hcleared (hlost (by simpa using hsacked)) hreno)
    · cases h
      exact hb

variable [SequenceValue S]

theorem init_kept (maxBuffer dupAckThresh : UInt32) (sackEnabled : Bool) (n : S) :
    Kept (init maxBuffer dupAckThresh sackEnabled n) := by
  refine ⟨⟨rfl, rfl, rfl, rfl, nofun⟩, rfl, nofun, ?_⟩
  exact UInt32.le_iff_toNat_le.2 (Nat.zero_le _)

theorem resetRenoSack_kept (hb : Kept b) : Kept b.resetRenoSack := by
  obtain ⟨⟨hsent, -, hlost, hretrans, -⟩, hsize, hunsent, hroom⟩ := hb
  have hbytes : ∀ p : TcpTxItem S → Bool, (∀ i, p { i with sacked := false } = p i) →
      bytes p b.resetRenoSack.sentList = bytes p b.sentList :=
    fun p hp => tally_map (fun _ _ => rfl) fun i _ => hp i
  refine ⟨⟨(hbytes _ fun _ => rfl).trans hsent, ?_, (hbytes _ fun _ => rfl).trans hlost,
    (hbytes _ fun _ => rfl).trans hretrans, ?_⟩, ?_, hunsent, hroom⟩
  · refine tally_eq_zero fun i hi => ?_
    obtain ⟨j, -, rfl⟩ := List.mem_map.1 hi
    rfl
  · intro i hi
    obtain ⟨j, -, rfl⟩ := List.mem_map.1 hi
    rfl
  · rw [hbytes _ fun _ => rfl]
    exact hsize

theorem setSentListLost_kept (hb : Kept b) (resetSack : Bool) :
    Kept (b.setSentListLost resetSack) := by
  obtain ⟨⟨hsent, hsacked, hlost, hretrans, hsep⟩, hsize, hunsent, hroom⟩ := hb
  cases resetSack with
  | true =>
    have hall : bytes (fun _ => true) (b.setSentListLost true).sentList = b.sentSize.toNat :=
      (tally_map (fun _ _ => rfl) fun _ _ => rfl).trans hsent
    refine ⟨⟨hall, ?_, ?_, ?_, ?_⟩, ?_, hunsent, hroom⟩
    · refine tally_eq_zero fun i hi => ?_
      obtain ⟨j, -, rfl⟩ := List.mem_map.1 hi
      rfl
    · exact (tally_map (fun _ _ => rfl) fun _ _ => rfl).trans hsent
    · refine tally_eq_zero fun i hi => ?_
      obtain ⟨j, -, rfl⟩ := List.mem_map.1 hi
      rfl
    · intro i hi
      obtain ⟨j, -, rfl⟩ := List.mem_map.1 hi
      rfl
    · rw [hall, ← hsent]
      exact hsize
  | false =>
    have hall : bytes (fun _ => true) (b.setSentListLost false).sentList = b.sentSize.toNat :=
      (tally_map (fun _ _ => rfl) fun _ _ => rfl).trans hsent
    have hle := bytes_le (l := (b.setSentListLost false).sentList) (·.lost)
    have hlt := b.sentSize.toNat_lt
    refine ⟨⟨hall, ?_, ?_, ?_, ?_⟩, ?_, hunsent, hroom⟩
    · exact (tally_map (fun _ _ => rfl) fun _ _ => rfl).trans hsacked
    · have hcount := foldl_lost (l := (b.setSentListLost false).sentList) (c := 0)
        (by rw [UInt32.toNat_zero]; omega)
      exact (hcount.trans (Nat.zero_add _)).symm
    · refine tally_eq_zero fun i hi => ?_
      obtain ⟨j, -, rfl⟩ := List.mem_map.1 hi
      rfl
    · intro i hi
      obtain ⟨j, hj, rfl⟩ := List.mem_map.1 hi
      have hj' := hsep j hj
      cases hs : j.sacked <;> simp_all
    · rw [hall, ← hsent]
      exact hsize

theorem add_kept (hb : Kept b) (p : TxPacket) : Kept (b.add p).2 := by
  obtain ⟨hcounted, hsize, hunsent, hroom⟩ := hb
  simp only [add]
  split_ifs with hfits hpos
  · have hlen : (UInt32.ofNat p.bytes.length).toNat = p.bytes.length := by
      rw [UInt32.toNat_ofNat']
      exact Nat.mod_eq_of_lt p.size_lt
    have hfits' : p.bytes.length + b.size.toNat ≤ b.maxBuffer.toNat := by
      rw [UInt32.le_iff_toNat_le] at hroom hfits
      rw [hlen, available, UInt32.toNat_sub_of_le _ _ hroom] at hfits
      omega
    have hmax := b.maxBuffer.toNat_lt
    have hadd := toNat_add_ofNat (c := b.size) (n := p.bytes.length) (by omega)
    have hle : (b.size + UInt32.ofNat p.bytes.length).toNat ≤ b.maxBuffer.toNat := by omega
    refine ⟨hcounted, ?_, ?_, ?_⟩
    · rw [hadd, ← hsize]
      simp [bytes, Nat.add_assoc]
    · exact List.forall_mem_append.2 ⟨hunsent, List.forall_mem_singleton.2 ⟨rfl, rfl, rfl⟩⟩
    · exact UInt32.le_iff_toNat_le.2 hle
  · exact ⟨hcounted, hsize, hunsent, hroom⟩
  · exact ⟨hcounted, hsize, hunsent, hroom⟩

theorem removeHead_kept {item : TcpTxItem S} {rest : List (TcpTxItem S)} (hb : Kept b)
    (hlist : b.sentList = item :: rest) :
    Kept (b.removeHead item rest) ∧
      (b.removeHead item rest).size.toNat = b.size.toNat - item.packet.length ∧
      item.size.toNat = item.packet.length := by
  obtain ⟨hcounted, hsize, hunsent, hroom⟩ := hb
  rw [hlist] at hcounted hsize
  simp only [bytes, tally_cons, if_true] at hsize
  have hmax := b.size.toNat_lt
  have hless : (b.size - item.size).toNat = b.size.toNat - item.packet.length :=
    toNat_sub_ofNat (by omega)
  refine ⟨⟨hcounted.tail, ?_, hunsent, ?_⟩, hless, ?_⟩
  · refine Eq.trans ?_ hless.symm
    exact Nat.eq_sub_of_add_eq (by simp only [bytes, removeHead, removeFromCounts]; omega)
  · have hle : (b.size - item.size).toNat ≤ b.maxBuffer.toNat := by
      rw [hless]
      exact (Nat.sub_le _ _).trans (UInt32.le_iff_toNat_le.1 hroom)
    exact UInt32.le_iff_toNat_le.2 hle
  · rw [TcpTxItem.size, UInt32.toNat_ofNat']
    omega

theorem cutHead_kept {item : TcpTxItem S} {rest : List (TcpTxItem S)} {offset : UInt32}
    (hb : Kept b) (hlist : b.sentList = item :: rest) (hlt : ¬ item.size ≤ offset) :
    Kept (b.cutHead item rest offset) ∧ offset.toNat < item.packet.length := by
  obtain ⟨hcounted, hsize, hunsent, hroom⟩ := hb
  rw [hlist] at hcounted hsize
  simp only [bytes, tally_cons, if_true] at hsize
  have hmax := b.size.toNat_lt
  have hlt' : offset.toNat < item.packet.length := by
    rw [UInt32.le_iff_toNat_le, TcpTxItem.size, UInt32.toNat_ofNat'] at hlt
    omega
  have hless : (b.size - offset).toNat = b.size.toNat - offset.toNat :=
    UInt32.toNat_sub_of_le _ _ (UInt32.le_iff_toNat_le.2 (by omega))
  have hcut : Counted ((b.cutHead item rest offset).sentList) _ _ _ _ :=
    hcounted.shrink (n := offset.toNat)
      (by simp only [List.length_drop]; omega) rfl rfl rfl
  rw [UInt32.ofNat_toNat] at hcut
  refine ⟨⟨hcut, ?_, hunsent, ?_⟩, hlt'⟩
  · refine Eq.trans ?_ hless.symm
    apply Nat.eq_sub_of_add_eq
    simp only [bytes, cutHead, removeFromCounts, tally_cons, if_true, List.length_drop]
    omega
  · have hle : (b.size - offset).toNat ≤ b.maxBuffer.toNat := by
      rw [hless]
      exact (Nat.sub_le _ _).trans (UInt32.le_iff_toNat_le.1 hroom)
    exact UInt32.le_iff_toNat_le.2 hle

end Flags

section Code

variable {S : Type} [SequenceValue S] [DecidableEq S]

/-- Reno SACKs go to items that are not lost, and the last segment is taken back without flags. -/
def KeepsFlags (p : TcpTxBuffer S × TxEvent S) : Prop :=
  match p.2 with
  | .addRenoSack => FirstUnlost p.1.sentList.tail
  | .discardUpTo _ seq => lt p.1.firstByteSeq seq →
    let left := afterDiscard p.1.size.toNat (distance seq p.1.firstByteSeq) p.1.sentList
    (∀ head ∈ left.head?, head.sacked) → FirstUnlost left.tail
  | .resetLastSegmentSent => ∀ item ∈ p.1.sentList.getLast?,
    item.lost = false ∧ item.retrans = false ∧ item.sacked = false
  | _ => True

instance : (p : TcpTxBuffer S × TxEvent S) → Decidable (KeepsFlags p)
  | (_, .add _) | (_, .copyFromSequence _ _ _) | (_, .update _) | (_, .resetRenoSack)
  | (_, .setSentListLost _) | (_, .markHeadAsLost) | (_, .deleteRetransmittedFlagFromHead) =>
    .isTrue trivial
  | (_, .discardUpTo _ _) => inferInstanceAs (Decidable (_ → (∀ _ ∈ _, _) → FirstUnlost _))
  | (_, .addRenoSack) => inferInstanceAs (Decidable (FirstUnlost _))
  | (_, .resetLastSegmentSent) => inferInstanceAs (Decidable (∀ _ ∈ _, _ ∧ _ ∧ _))

variable {b b' : TcpTxBuffer S} {item : TcpTxItem S} {l front : List (TcpTxItem S)}
  {retrans : UInt32} {fuel : ℕ} {now : ℤ} {seq : S}

theorem findItem_eq {first : Option S} {start begin : S} {front back : List (TcpTxItem S)}
    (h : findItem first seq start l = some (front, begin, item, back)) :
    l = front ++ item :: back := by
  induction l generalizing start front with
  | nil => cases h
  | cons current rest ih =>
    simp only [findItem] at h
    split_ifs at h with hfirst hlt
    · cases h
      rfl
    · obtain ⟨⟨front', found⟩, hrest, heq⟩ := Option.bind_eq_some_iff.1 h
      cases heq
      rw [ih hrest, List.cons_append]

theorem getPacketFromList_recut {first : Option S} {start : S} {numBytes : UInt32} {node : ℕ}
    {r : PickedItem S}
    (h : getPacketFromList first start numBytes seq fuel l retrans node = some r) :
    ReflTransGen Recut (l, retrans) (r.list, r.retrans) := by
  induction fuel generalizing l retrans node with
  | zero => cases h
  | succ fuel ih =>
    obtain ⟨⟨front, begin, current, back⟩, hfind, h⟩ := Option.bind_eq_some_iff.1 h
    rw [findItem_eq hfind]
    dsimp only at h
    split_ifs at h with hseq hstop hsize hlt hgt
    · cases h
      exact .refl
    · cases h
      exact .single (.split front back current node _ retrans)
    · cases back with
      | nil =>
        cases h
        exact .refl
      | cons next back =>
        obtain ⟨⟨merged, retrans'⟩, hmerge, h⟩ := Option.bind_eq_some_iff.1 h
        exact .head (.merge front back current next merged retrans retrans' hmerge) (ih h)
    · exact .head (.split front back current node _ retrans) (ih h)

/-! ### CopyFromSequence -/

theorem getNewSegment_kept {numBytes : UInt32} (hb : Kept b)
    (h : b.getNewSegment fuel numBytes = some (item, b')) :
    Kept b' ∧ Plain item ∧
      ((∀ i ∈ b.sentList, i.sacked = false) → ∀ i ∈ b'.sentList, i.sacked = false) := by
  obtain ⟨hcounted, hsize, hunsent, hroom⟩ := hb
  obtain ⟨r, hr, h⟩ := Option.bind_eq_some_iff.1 h
  cases h
  have hrecut : (∀ i ∈ r.list, Plain i) ∧ r.retrans = b.retrans ∧
      bytes (fun _ => true) r.list = bytes (fun _ => true) b.appList := by
    refine Reachable.invariant (I := fun x => (∀ i ∈ x.1, Plain i) ∧ x.2 = b.retrans ∧
      bytes (fun _ => true) x.1 = bytes (fun _ => true) b.appList) ?_ ?_
      ⟨_, rfl, getPacketFromList_recut hr⟩
    · rintro x rfl
      exact ⟨hunsent, rfl, rfl⟩
    · intro x y hx hstep
      obtain ⟨hplain, hretrans, hbytes⟩ := hstep.plain hx.1
      exact ⟨hplain, hretrans.trans hx.2.1, hbytes.trans hx.2.2⟩
  obtain ⟨hplain, hretrans, hbytes⟩ := hrecut
  simp only [PickedItem.list, List.forall_mem_append, List.forall_mem_cons] at hplain
  simp only [PickedItem.list, bytes, tally_append, tally_cons, if_true] at hbytes
  have htotal := b.size.toNat_lt
  have hsent := hcounted.sentSize
  simp only [bytes] at hsize hsent
  refine ⟨⟨?_, ?_, ?_, hroom⟩, hplain.2.1, ?_⟩
  · rw [hretrans]
    exact hcounted.snoc hplain.2.1 (by dsimp only; omega)
  · simp only [bytes, tally_append, tally_cons, tally_nil, if_true]
    omega
  · exact List.forall_mem_append.2 ⟨hplain.1, hplain.2.2⟩
  · intro hunsacked
    exact List.forall_mem_append.2 ⟨hunsacked, List.forall_mem_singleton.2 hplain.2.1.2.2⟩

theorem getTransmittedSegment_kept {numBytes : UInt32} (hb : Kept b)
    (h : b.getTransmittedSegment fuel numBytes seq = some (item, b')) :
    Kept b' ∧ ((∀ i ∈ b.sentList, i.sacked = false) → ∀ i ∈ b'.sentList, i.sacked = false) := by
  obtain ⟨hcounted, hsize, hunsent, hroom⟩ := hb
  unfold getTransmittedSegment at h
  split_ifs at h
  obtain ⟨r, hr, h⟩ := Option.bind_eq_some_iff.1 h
  cases h
  have hrecut := getPacketFromList_recut hr
  have hlist : Counted r.list b.sentSize b.sackedOut b.lostOut r.retrans :=
    Reachable.invariant (I := fun x => Counted x.1 b.sentSize b.sackedOut b.lostOut x.2)
      (by rintro x rfl; exact hcounted) (fun x y hx hstep => hstep.counted hx) ⟨_, rfl, hrecut⟩
  have hitem : Counted (r.front ++ { r.item with retrans := true } :: r.back) b.sentSize
      b.sackedOut b.lostOut (if r.item.retrans then r.retrans else r.retrans + r.item.size) := by
    have hupdate : Counted (r.front ++ { r.item with retrans := true } :: r.back) _ _ _ _ :=
      hlist.update rfl (hlist.separate r.item (List.mem_append_right _ List.mem_cons_self))
    simpa using hupdate
  refine ⟨⟨hitem, ?_, hunsent, hroom⟩, ?_⟩
  · rw [hitem.sentSize, ← hcounted.sentSize]
    exact hsize
  · intro hunsacked
    have hlist' : ∀ i ∈ r.list, i.sacked = false :=
      Reachable.invariant (I := fun x => ∀ i ∈ x.1, i.sacked = false)
        (by rintro x rfl; exact hunsacked) (fun x y hx hstep => hstep.unsacked hx) ⟨_, rfl, hrecut⟩
    simp only [PickedItem.list, List.forall_mem_append, List.forall_mem_cons] at hlist' ⊢
    exact hlist'

theorem returnItem_kept {r : Option (TcpTxItem S)} (hb : Kept b)
    (h : returnItem now item b = some (r, b')) :
    Kept b' ∧ ((∀ i ∈ b.sentList, i.sacked = false) → ∀ i ∈ b'.sentList, i.sacked = false) := by
  obtain ⟨hcounted, hsize, hunsent, hroom⟩ := hb
  unfold returnItem at h
  split_ifs at h
  cases h
  have hsame : ∀ {α : Type} (f : TcpTxItem S → α) (_ : ∀ i, f { i with lastSent := now } = f i)
      (i : TcpTxItem S),
      f (if i.node = item.node then { i with lastSent := now } else i) = f i := by
    intro α f hf i
    split_ifs
    · exact hf i
    · rfl
  have hcounted' := hcounted.map (hsame (·.packet) fun _ => rfl) (hsame (·.sacked) fun _ => rfl)
    (hsame (·.lost) fun _ => rfl) (hsame (·.retrans) fun _ => rfl)
  refine ⟨⟨hcounted', ?_, hunsent, hroom⟩, ?_⟩
  · rw [hcounted'.sentSize, ← hcounted.sentSize]
    exact hsize
  · intro hunsacked i hi
    obtain ⟨j, hj, rfl⟩ := List.mem_map.1 hi
    exact (hsame (·.sacked) (fun _ => rfl) j).trans (hunsacked j hj)

theorem copyFromSequence_kept {numBytes : UInt32} {r : Option (TcpTxItem S)} (hb : Kept b)
    (h : copyFromSequence fuel now b numBytes seq = some (r, b')) :
    Kept b' ∧ ((∀ i ∈ b.sentList, i.sacked = false) → ∀ i ∈ b'.sentList, i.sacked = false) := by
  induction fuel generalizing numBytes with
  | zero => cases h
  | succ fuel ih =>
    simp only [copyFromSequence] at h
    split_ifs at h with hgone hnone hsent hunsent hend hpart
    · cases h
      exact ⟨hb, id⟩
    · obtain ⟨⟨item, b₁⟩, hcopy, h⟩ := Option.bind_eq_some_iff.1 h
      dsimp only at h
      split_ifs at h
      have ⟨hb₁, hunsacked⟩ := getTransmittedSegment_kept hb hcopy
      have ⟨hb', hunsacked'⟩ := returnItem_kept hb₁ h
      exact ⟨hb', hunsacked' ∘ hunsacked⟩
    · obtain ⟨⟨item, b₁⟩, hcopy, h⟩ := Option.bind_eq_some_iff.1 h
      dsimp only at h
      split_ifs at h
      obtain ⟨hb₁, -, hunsacked⟩ := getNewSegment_kept hb hcopy
      have ⟨hb', hunsacked'⟩ := returnItem_kept hb₁ h
      exact ⟨hb', hunsacked' ∘ hunsacked⟩
    · exact ih h

/-! ### DiscardUpTo -/

theorem fillSentList_kept {offset : UInt32} (hb : Kept b)
    (h : b.fillSentList fuel now offset = some b') :
    Kept b' ∧ (b' = b ∨ ∀ i ∈ b'.sentList, i.sacked = false) := by
  unfold fillSentList at h
  split at h
  · rename_i hlist
    split at h <;> cases h
    rename_i item hcopy
    have ⟨hb', hunsacked⟩ := copyFromSequence_kept hb hcopy
    exact ⟨hb', .inr (hunsacked (by simp [hlist]))⟩
  · cases h
    exact ⟨hb, .inl rfl⟩

theorem discardLoop_kept {offset : UInt32} (hb : Kept b)
    (h : discardLoop fuel now b offset = some b') :
    Kept b' ∧ LeftOf (afterDiscard b.size.toNat offset.toNat b.sentList) b'.sentList := by
  induction fuel generalizing b offset with
  | zero => cases h
  | succ fuel ih =>
    rw [discardLoop] at h
    have hzero : ∀ x : UInt32, x = 0 ↔ x.toNat = 0 := fun x => UInt32.toNat_inj.symm
    by_cases hdone : b.size = 0 ∨ offset = 0
    · rw [if_pos hdone] at h
      cases h
      rw [hzero, hzero] at hdone
      refine ⟨hb, ?_⟩
      cases hlist : b'.sentList with
      | nil => exact .inl nofun
      | cons head rest =>
        exact .inr ⟨head, head, rest, by rw [afterDiscard, if_pos hdone], rfl, rfl⟩
    · rw [if_neg hdone] at h
      rw [hzero, hzero] at hdone
      obtain ⟨b₁, hfill, h⟩ := Option.bind_eq_some_iff.1 h
      have ⟨hb₁, hsame⟩ := fillSentList_kept hb hfill
      split at h
      · cases h
      rename_i item rest hlist
      split_ifs at h with hstart hle
      · have ⟨hnext, hsize, hlen⟩ := removeHead_kept hb₁ hlist
        have hle' : item.packet.length ≤ offset.toNat := hlen ▸ UInt32.le_iff_toNat_le.1 hle
        have ⟨hb', hleft⟩ := ih hnext h
        refine ⟨hb', ?_⟩
        rcases hsame with rfl | hunsacked
        · rwa [hlist, afterDiscard, if_neg hdone, if_pos hle', ← hsize, ← hlen,
            ← UInt32.toNat_sub_of_le _ _ hle]
        · rw [hlist] at hunsacked
          refine .inl (hleft.unsacked fun i hi => hunsacked i (List.mem_cons_of_mem _ ?_))
          exact (afterDiscard_suffix _ _ _).subset hi
      · cases h
        have ⟨hb', hlen⟩ := cutHead_kept hb₁ hlist hle
        refine ⟨hb', ?_⟩
        rcases hsame with rfl | hunsacked
        · refine .inr ⟨item, _, rest, ?_, rfl, rfl⟩
          rw [hlist, afterDiscard, if_neg hdone, if_neg (Nat.not_le.2 hlen)]
        · rw [hlist] at hunsacked
          exact .inl (List.forall_mem_cons.2 (List.forall_mem_cons.1 hunsacked))

theorem discardUpTo_kept (hb : Kept b) (hok : KeepsFlags (b, .discardUpTo now seq))
    (h : b.discardUpTo fuel now seq = some b') : Kept b' := by
  unfold discardUpTo at h
  split_ifs at h with hge
  · cases h
    exact hb
  · obtain ⟨b₁, hloop, h⟩ := Option.bind_eq_some_iff.1 h
    obtain ⟨b₂, hmove, h⟩ := Option.bind_eq_some_iff.1 h
    have ⟨hb₁, hleft⟩ := discardLoop_kept hb hloop
    have hoffset : (UInt32.ofNat (distance seq b.firstByteSeq)).toNat =
        distance seq b.firstByteSeq := by
      rw [UInt32.toNat_ofNat', distance]
      omega
    rw [hoffset] at hleft
    have hlt : lt b.firstByteSeq seq = true := by
      simpa [lt, ge] using hge
    have hb₂ : Kept b₂ := by
      refine moveSackFromHead_kept (b := b₁.ackFin seq)
        ⟨hb₁.counted, hb₁.size, hb₁.unsent, hb₁.room⟩ ?_ hmove
      change (∀ head ∈ b₁.sentList.head?, head.sacked = true) → FirstUnlost b₁.sentList.tail
      intro hhead
      rcases hleft with hunsacked | ⟨head, head', rest, hbefore, hafter, hsame⟩
      · cases hlist : b₁.sentList with
        | nil => simp [FirstUnlost]
        | cons head rest =>
          rw [hlist] at hunsacked hhead
          have hfalse := (hhead head rfl).symm.trans (hunsacked head List.mem_cons_self)
          cases hfalse
      · have hok' := hok hlt
        simp only [hbefore, hafter, List.head?_cons, List.tail_cons, Option.mem_def,
          Option.some.injEq, forall_eq'] at hok' hhead ⊢
        exact hok' (hsame ▸ hhead)
    split_ifs at h
    cases h
    exact ⟨hb₂.counted, hb₂.size, hb₂.unsent, hb₂.room⟩

/-! ### Update -/

theorem sackBlock_counted (front : List (TcpTxItem S)) {block : SackBlock S} {begin : S}
    {l' : List (TcpTxItem S)}
    {n n' : UInt32} (h : sackBlock block begin l (b, n) = some (l', b', n'))
    (hcounted : Counted (front ++ l) b.sentSize b.sackedOut b.lostOut b.retrans) :
    Counted (front ++ l') b'.sentSize b'.sackedOut b'.lostOut b'.retrans ∧
      b' = { b with
        lostOut := b'.lostOut, sackedOut := b'.sackedOut, highestSack := b'.highestSack } := by
  induction l generalizing begin l' b n front with
  | nil =>
    cases h
    exact ⟨hcounted, rfl⟩
  | cons item rest ih =>
    have hskip : ∀ {rest'}, sackBlock block (SequenceNumber.add begin item.packet.length) rest
        (b, n) = some (rest', b', n') →
        Counted (front ++ item :: rest') b'.sentSize b'.sackedOut b'.lostOut b'.retrans ∧
          b' = { b with
            lostOut := b'.lostOut, sackedOut := b'.sackedOut, highestSack := b'.highestSack } := by
      intro rest' hrest
      simpa using ih (front ++ [item]) hrest (by simpa using hcounted)
    simp only [sackBlock] at h
    split_ifs at h with hcovers hsacked hlost hstop
    · obtain ⟨⟨rest', r⟩, hrest, h⟩ := Option.bind_eq_some_iff.1 h
      cases h
      exact hskip hrest
    · obtain ⟨⟨rest', r⟩, hrest, h⟩ := Option.bind_eq_some_iff.1 h
      cases h
      have hupdate :
          Counted (front ++ { item with lost := false, sacked := true } :: rest) _ _ _ _ :=
        hcounted.update rfl rfl
      rw [adjust_true, adjust_false, adjust_self, if_neg hsacked] at hupdate
      rw [List.append_cons] at hupdate
      have ⟨hcounted', hframe⟩ := ih _ hrest hupdate
      exact ⟨by simpa using hcounted', hframe⟩
    · cases h
      exact ⟨hcounted, rfl⟩
    · obtain ⟨⟨rest', r⟩, hrest, h⟩ := Option.bind_eq_some_iff.1 h
      cases h
      exact hskip hrest

theorem sackBlocks_kept {list : List (SackBlock S)} {inside : Bool} {n n' : UInt32} (hb : Kept b)
    (h : sackBlocks list (b, n) = some (inside, b', n')) : Kept b' := by
  induction list generalizing b n with
  | nil =>
    cases h
    exact hb
  | cons block list ih =>
    simp only [sackBlocks] at h
    split_ifs at h
    · cases h
      exact hb
    · obtain ⟨⟨sentList, b₁, n₁⟩, hblock, h⟩ := Option.bind_eq_some_iff.1 h
      have ⟨hcounted, hframe⟩ := sackBlock_counted [] hblock hb.counted
      refine ih ⟨hcounted, ?_, ?_, ?_⟩ h
      · have hsent := hcounted.sentSize
        rw [hframe] at hsent ⊢
        exact (congrArg (· + _) (hsent.trans hb.counted.sentSize.symm)).trans hb.size
      · rw [hframe]
        exact hb.unsent
      · rw [hframe]
        exact hb.room

theorem update_kept {list : List (SackBlock S)} {n : UInt32} (hb : Kept b)
    (h : b.update list = some (n, b')) : Kept b' := by
  obtain ⟨⟨inside, b₁, n₁⟩, hblocks, h⟩ := Option.bind_eq_some_iff.1 h
  have hb₁ := sackBlocks_kept hb hblocks
  dsimp only at h
  split_ifs at h with hinside hpos
  · split at h
    · cases h
    · rename_i b₂ hlost
      split_ifs at h with hhead
      cases h
      refine updateLostCount_kept hb₁ hlost fun head hmem => ?_
      rw [Option.mem_def.1 hmem] at hhead
      simpa using hhead
  · dsimp only at h
    split_ifs at h
    cases h
    exact hb₁
  · cases h
    exact hb₁

/-! ### Runs -/

theorem step_kept {e : TxEvent S} (hb : Kept b) (hok : KeepsFlags (b, e)) (h : Step b e b') :
    Kept b' := by
  obtain ⟨fuel, h⟩ := h
  cases e with
  | add p =>
    cases h
    exact add_kept hb p
  | copyFromSequence now numBytes seq =>
    obtain ⟨⟨r, t⟩, hcopy, rfl⟩ := Option.map_eq_some_iff.1 h
    exact (copyFromSequence_kept hb hcopy).1
  | discardUpTo now seq => exact discardUpTo_kept hb hok h
  | update list =>
    obtain ⟨⟨n, t⟩, hupdate, rfl⟩ := Option.map_eq_some_iff.1 h
    exact update_kept hb hupdate
  | addRenoSack => exact addRenoSack_kept hb hok h
  | resetRenoSack =>
    cases h
    exact resetRenoSack_kept hb
  | setSentListLost resetSack =>
    cases h
    exact setSentListLost_kept hb resetSack
  | resetLastSegmentSent =>
    cases h
    exact resetLastSegmentSent_kept hb hok
  | markHeadAsLost =>
    cases h
    exact markHeadAsLost_kept hb
  | deleteRetransmittedFlagFromHead => exact deleteRetransmittedFlagFromHead_kept hb h

theorem accounted_of_run {maxBuffer dupAckThresh : UInt32} {sackEnabled : Bool} {n : S}
    {trace : List (TcpTxBuffer S × TxEvent S)}
    (hrun : Run Step (init maxBuffer dupAckThresh sackEnabled n) trace b)
    (hok : ∀ p ∈ trace, KeepsFlags p) : (∀ p ∈ trace, Accounted p.1) ∧ Accounted b := by
  have ⟨htrace, hb⟩ := hrun.invariant_along (init_kept maxBuffer dupAckThresh sackEnabled n)
    (fun s e t hs he hst => step_kept hs he hst) hok
  exact ⟨fun p hp => (htrace p hp).accounted, hb.accounted⟩

/-- A Reno SACK moves from the head, which has been acknowledged in part, to the next segment. -/
theorem accounted_movedSack : ∃ (trace : List (TcpTxBuffer UInt32 × TxEvent UInt32))
    (b : TcpTxBuffer UInt32), b.bytesInFlight = some 4 ∧ b.sackedOut = 4 ∧ b.lostOut = 4 ∧
      (∀ p ∈ trace, Accounted p.1) ∧ Accounted b := by
  have hrun : (Run.runOf (apply 5) (init 100 3 false (0xfffffffe : UInt32))
      [.add ⟨[0, 1, 2, 3, 4, 5, 6, 7, 8, 9, 10, 11], by decide⟩, .copyFromSequence 1 4 0xfffffffe,
        .copyFromSequence 1 4 2, .copyFromSequence 1 4 6, .copyFromSequence 2 4 6, .addRenoSack,
        .discardUpTo 3 2]).any (fun r => r.1.all (fun p => decide (KeepsFlags p)) &&
          decide (r.2.bytesInFlight = some 4 ∧ r.2.sackedOut = 4 ∧ r.2.lostOut = 4)) = true := by
    decide +kernel
  obtain ⟨⟨trace, b⟩, hrun, hr⟩ := (Option.any_eq_true _ _).1 hrun
  simp only [Bool.and_eq_true, List.all_eq_true, decide_eq_true_eq] at hr
  obtain ⟨hok, hflight, hsacked, hlost⟩ := hr
  exact ⟨trace, b, hflight, hsacked, hlost,
    accounted_of_run (Run.of_runOf (fun _ _ _ h => ⟨5, h⟩) hrun) hok⟩

/-- A segment that is lost gets a Reno SACK. -/
theorem not_accounted_sackedLost : ∃ (trace : List (TcpTxBuffer UInt32 × TxEvent UInt32))
    (b : TcpTxBuffer UInt32), Run Step (init 100 3 false 0) trace b ∧
      trace.map (·.2) = [.add ⟨[0, 1, 2, 3, 4, 5, 6, 7], by decide⟩, .copyFromSequence 1 4 0,
        .copyFromSequence 1 4 4, .setSentListLost false, .addRenoSack] ∧
      b.bytesInFlight = none ∧ ¬ Accounted b := by
  have hrun : (Run.runOf (apply 5) (init 100 3 false (0 : UInt32))
      [.add ⟨[0, 1, 2, 3, 4, 5, 6, 7], by decide⟩, .copyFromSequence 1 4 0,
        .copyFromSequence 1 4 4, .setSentListLost false, .addRenoSack]).any
      (fun r => decide (r.2.bytesInFlight = none)) = true := by
    decide +kernel
  obtain ⟨⟨trace, b⟩, hrun, hr⟩ := (Option.any_eq_true _ _).1 hrun
  have hnone : b.bytesInFlight = none := of_decide_eq_true hr
  refine ⟨trace, b, Run.of_runOf (fun _ _ _ h => ⟨5, h⟩) hrun, Run.runOf_events hrun, hnone, ?_⟩
  intro hb
  have ⟨n, hn⟩ := hb.bytesInFlight
  rw [hnone] at hn
  cases hn

end Code

end TcpTxBuffer

end SeanetSim
