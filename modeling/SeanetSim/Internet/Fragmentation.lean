import Mathlib.Data.UInt
import Mathlib.Data.List.TakeWhile

/-!
# Fragmentation and reassembly

`DoFragmentation` cuts a packet, or a fragment of one, into fragments for a smaller MTU, and
`Fragments` collects what arrives: in the order of the offsets, with overlaps and duplicates.  A
datagram cut any number of times tiles its payload (`Tiles`), and from there the collection is
entire exactly when no byte is missing, and then gives the payload back: `Fragments.reassembly`.
-/

namespace SeanetSim

/-- A packet behind its IPv4 header, with the fields of the header that fragmentation is about:
the offset in bytes and whether more fragments follow (`!IsLastFragment`). -/
structure Ipv4PayloadHeaderPair where
  payload : List UInt8
  fragmentOffset : ℕ
  moreFragments : Bool
deriving DecidableEq

namespace Ipv4PayloadHeaderPair

/-- The offset behind the last byte. -/
def fragmentEnd (x : Ipv4PayloadHeaderPair) : ℕ := x.fragmentOffset + x.payload.length

end Ipv4PayloadHeaderPair

/-- The first packet of a datagram. -/
def wholeDatagram (payload : List UInt8) : Ipv4PayloadHeaderPair := ⟨payload, 0, false⟩

/-- The part of the MTU behind the header, in steps of 8 bytes. -/
def fragmentSize (outIfaceMtu : UInt32) : UInt32 := (outIfaceMtu - 20) / 8 * 8

/-- One fragment; `SetFragmentOffset` aborts on an offset that is not a multiple of 8. -/
def createFragment (p : Ipv4PayloadHeaderPair) (offset size : ℕ) (moreFragments : Bool) :
    Option Ipv4PayloadHeaderPair :=
  let fragmentOffset := (offset + p.fragmentOffset) % 2 ^ 16
  if fragmentOffset % 8 = 0 then
    some ⟨(p.payload.drop offset).take size, fragmentOffset, moreFragments⟩
  else none

/-- The loop of `DoFragmentation`, with fuel: it does not end where `fragmentSize` is 0. -/
def fragmentLoop (p : Ipv4PayloadHeaderPair) (fragmentSize : ℕ) :
    ℕ → ℕ → Option (List Ipv4PayloadHeaderPair)
  | 0, _ => none
  | fuel + 1, offset =>
    if offset + fragmentSize < p.payload.length then do
      let fragment ← createFragment p offset fragmentSize true
      let rest ← fragmentLoop p fragmentSize fuel ((offset + fragmentSize) % 2 ^ 16)
      some (fragment :: rest)
    else do
      let fragment ← createFragment p offset (p.payload.length - offset) p.moreFragments
      some [fragment]

def doFragmentation (p : Ipv4PayloadHeaderPair) (outIfaceMtu : UInt32) :
    Option (List Ipv4PayloadHeaderPair) :=
  fragmentLoop p (fragmentSize outIfaceMtu).toNat (p.payload.length + 1) 0

/-- What may be on its way of a datagram: its packet, and again and again the fragments of one of
the fragments in place of it. -/
inductive Fragmented (payload : List UInt8) : List Ipv4PayloadHeaderPair → Prop
  | whole : Fragmented payload [wholeDatagram payload]
  | again {front back fragments : List Ipv4PayloadHeaderPair} {p : Ipv4PayloadHeaderPair}
      {outIfaceMtu : UInt32} (hmtu : 68 ≤ outIfaceMtu)
      (hsent : Fragmented payload (front ++ p :: back))
      (hfragments : doFragmentation p outIfaceMtu = some fragments) :
      Fragmented payload (front ++ (fragments ++ back))

/-- The fragments of one datagram that have arrived, with their offsets. -/
structure Fragments where
  moreFragment : Bool
  fragments : List (List UInt8 × ℕ)
deriving DecidableEq

namespace Fragments

def empty : Fragments := ⟨false, []⟩

def addFragment (f : Fragments) (fragment : List UInt8) (fragmentOffset : ℕ)
    (moreFragment : Bool) : Fragments :=
  let before := f.fragments.takeWhile fun it => it.2 ≤ fragmentOffset
  let behind := f.fragments.dropWhile fun it => it.2 ≤ fragmentOffset
  ⟨if behind = [] then moreFragment else f.moreFragment,
    before ++ (fragment, fragmentOffset) :: behind⟩

/-- The loop of `IsEntire`. -/
def noGap : ℕ → List (List UInt8 × ℕ) → Bool
  | _, [] => true
  | lastEndOffset, it :: rest =>
    if lastEndOffset < it.2 then false
    else noGap (max lastEndOffset ((it.1.length + it.2) % 2 ^ 16)) rest

def isEntire (f : Fragments) : Bool :=
  !f.moreFragment && f.fragments != [] && noGap 0 f.fragments

/-- The loop of `GetPacket`: of a fragment that overlaps what is there, the rest is added. -/
def append : List UInt8 → List (List UInt8 × ℕ) → List UInt8
  | p, [] => p
  | p, it :: rest =>
    let lastEndOffset := p.length % 2 ^ 16
    if it.2 < lastEndOffset then
      let newStart := lastEndOffset - it.2
      if newStart < it.1.length then append (p ++ it.1.drop newStart) rest else append p rest
    else append (p ++ it.1) rest

/-- There is no packet to get without a fragment. -/
def getPacket (f : Fragments) : Option (List UInt8) :=
  match f.fragments with
  | [] => none
  | it :: rest => some (append it.1 rest)

/-- The loop of `GetPartialPacket`, which leaves out what lies behind a gap. -/
def appendPartial : List UInt8 → List (List UInt8 × ℕ) → List UInt8
  | p, [] => p
  | p, it :: rest =>
    let lastEndOffset := p.length % 2 ^ 16
    if it.2 < lastEndOffset then appendPartial (p ++ it.1.drop (lastEndOffset - it.2)) rest
    else if lastEndOffset = it.2 then appendPartial (p ++ it.1) rest
    else appendPartial p rest

/-- The first bytes, as far as they are there. -/
def getPartialPacket (f : Fragments) : Option (List UInt8) :=
  match f.fragments with
  | [] => none
  | it :: rest => some (if 0 < it.2 then [] else appendPartial [] (it :: rest))

theorem exists_getPacket {f : Fragments} (h : f.fragments ≠ []) :
    ∃ packet, f.getPacket = some packet := by
  unfold getPacket
  cases hf : f.fragments with
  | nil => exact absurd hf h
  | cons it rest => exact ⟨_, rfl⟩

theorem exists_getPartialPacket {f : Fragments} (h : f.fragments ≠ []) :
    ∃ packet, f.getPartialPacket = some packet := by
  unfold getPartialPacket
  cases hf : f.fragments with
  | nil => exact absurd hf h
  | cons it rest => exact ⟨_, rfl⟩

/-- The fragments arrive one after the other. -/
def addAll (f : Fragments) (arrivals : List Ipv4PayloadHeaderPair) : Fragments :=
  arrivals.foldl (fun f x => f.addFragment x.payload x.fragmentOffset x.moreFragments) f

end Fragments

/-- A piece of the payload: its bytes, and a flag that says whether it ends before the payload. -/
structure PieceOf (payload : List UInt8) (x : Ipv4PayloadHeaderPair) : Prop where
  bytes : x.payload = (payload.drop x.fragmentOffset).take x.payload.length
  fragmentEnd_le : x.fragmentEnd ≤ payload.length
  more : x.moreFragments = decide (x.fragmentEnd < payload.length)
  aligned : 8 ∣ x.fragmentOffset
  nonempty : x.payload ≠ [] ∨ payload = []

/-- Pieces of the payload back to back, from one offset to another. -/
def Tiles (payload : List UInt8) : ℕ → ℕ → List Ipv4PayloadHeaderPair → Prop
  | start, stop, [] => start = stop
  | start, stop, x :: rest =>
    x.fragmentOffset = start ∧ PieceOf payload x ∧ Tiles payload x.fragmentEnd stop rest

/-! ## Fragmentation -/

section Fragmentation

variable {payload : List UInt8} {x y p : Ipv4PayloadHeaderPair}
  {front back fragments sent : List Ipv4PayloadHeaderPair} {start stop : ℕ}

theorem Tiles.append {mid : ℕ} (hfront : Tiles payload start mid front)
    (hback : Tiles payload mid stop back) : Tiles payload start stop (front ++ back) := by
  induction front generalizing start with
  | nil =>
    cases (hfront : start = mid)
    exact hback
  | cons x front ih => exact ⟨hfront.1, hfront.2.1, ih hfront.2.2⟩

theorem Tiles.of_append (h : Tiles payload start stop (front ++ back)) :
    ∃ mid, Tiles payload start mid front ∧ Tiles payload mid stop back := by
  induction front generalizing start with
  | nil => exact ⟨start, rfl, h⟩
  | cons x front ih =>
    obtain ⟨mid, hfront, hback⟩ := ih h.2.2
    exact ⟨mid, ⟨h.1, h.2.1, hfront⟩, hback⟩

theorem Tiles.le_offset (h : Tiles payload start stop sent) (hx : x ∈ sent) :
    start ≤ x.fragmentOffset := by
  induction sent generalizing start with
  | nil => cases hx
  | cons y sent ih =>
    obtain ⟨hstart, -, hrest⟩ := h
    cases hx with
    | head => exact hstart.ge
    | tail _ hx =>
      have hle := ih hrest hx
      unfold Ipv4PayloadHeaderPair.fragmentEnd at hle
      omega

/-- Two pieces are one or lie apart. -/
theorem Tiles.apart (h : Tiles payload start stop sent) (hx : x ∈ sent) (hy : y ∈ sent) :
    x = y ∨ x.fragmentEnd ≤ y.fragmentOffset ∨ y.fragmentEnd ≤ x.fragmentOffset := by
  induction sent generalizing start with
  | nil => cases hx
  | cons z sent ih =>
    cases hx with
    | head =>
      cases hy with
      | head => exact .inl rfl
      | tail _ hy => exact .inr (.inl (h.2.2.le_offset hy))
    | tail _ hx =>
      cases hy with
      | head => exact .inr (.inr (h.2.2.le_offset hx))
      | tail _ hy => exact ih h.2.2 hx hy

theorem fragmentSize_spec {outIfaceMtu : UInt32} (hmtu : 68 ≤ outIfaceMtu) :
    8 ∣ (fragmentSize outIfaceMtu).toNat ∧ 0 < (fragmentSize outIfaceMtu).toNat := by
  have hle : (20 : UInt32) ≤ outIfaceMtu :=
    UInt32.le_iff_toNat_le.2 (Nat.le_trans (by decide) (UInt32.le_iff_toNat_le.1 hmtu))
  have hsub : (outIfaceMtu - 20).toNat = outIfaceMtu.toNat - 20 := UInt32.toNat_sub_of_le _ _ hle
  have hlt := outIfaceMtu.toNat_lt
  have hsize : (fragmentSize outIfaceMtu).toNat = (outIfaceMtu.toNat - 20) / 8 * 8 := by
    rw [fragmentSize, UInt32.toNat_mul, UInt32.toNat_div, hsub]
    change (outIfaceMtu.toNat - 20) / 8 * 8 % 2 ^ 32 = _
    omega
  have hmtu' : 68 ≤ outIfaceMtu.toNat := hmtu
  rw [hsize]
  omega

theorem take_drop_length (payload : List UInt8) {a b : ℕ} (h : a + b ≤ payload.length) :
    ((payload.drop a).take b).length = b := by
  rw [List.length_take, List.length_drop]
  omega

/-- A fragment of a piece is a piece. -/
theorem PieceOf.createFragment (hp : PieceOf payload p) (hlen : payload.length ≤ 65515)
    (offset size : ℕ) (more : Bool) (hle : offset + size ≤ p.payload.length) (haligned : 8 ∣ offset)
    (hnonempty : 0 < size ∨ payload = [])
    (hmore : more = decide (p.fragmentOffset + offset + size < payload.length)) :
    ∃ x, createFragment p offset size more = some x ∧ PieceOf payload x ∧
      x.fragmentOffset = p.fragmentOffset + offset ∧
      x.fragmentEnd = p.fragmentOffset + offset + size := by
  have hend := hp.fragmentEnd_le
  have hdvd := hp.aligned
  unfold Ipv4PayloadHeaderPair.fragmentEnd at hend
  have hsize : ((p.payload.drop offset).take size).length = size := take_drop_length _ hle
  have hmod : (offset + p.fragmentOffset) % 2 ^ 16 = p.fragmentOffset + offset := by omega
  refine ⟨⟨(p.payload.drop offset).take size, p.fragmentOffset + offset, more⟩, ?_,
    ⟨?_, ?_, ?_, ?_, ?_⟩, rfl, ?_⟩
  · simp only [SeanetSim.createFragment, hmod]
    rw [if_pos (by omega)]
  · dsimp only
    rw [hsize, hp.bytes, List.drop_take, List.drop_drop, List.take_take,
      Nat.min_eq_left (by omega)]
  · simp only [Ipv4PayloadHeaderPair.fragmentEnd, hsize]
    omega
  · simp only [Ipv4PayloadHeaderPair.fragmentEnd, hsize, hmore]
  · dsimp only
    omega
  · refine hnonempty.imp_left fun hpos hnil => ?_
    rw [← hsize] at hpos
    exact absurd hnil (List.ne_nil_of_length_pos hpos)
  · simp only [Ipv4PayloadHeaderPair.fragmentEnd, hsize]

theorem fragmentLoop_tiles {size fuel offset : ℕ} (hlen : payload.length ≤ 65515)
    (hp : PieceOf payload p) (hsize : 0 < size) (haligned : 8 ∣ size) (hoffset : 8 ∣ offset)
    (hle : offset < p.payload.length ∨ offset = 0) (hfuel : p.payload.length < offset + fuel) :
    ∃ fragments, fragmentLoop p size fuel offset = some fragments ∧
      Tiles payload (p.fragmentOffset + offset) p.fragmentEnd fragments := by
  have hend := hp.fragmentEnd_le
  have hmore := hp.more
  unfold Ipv4PayloadHeaderPair.fragmentEnd at hend hmore ⊢
  induction fuel generalizing offset with
  | zero => omega
  | succ fuel ih =>
    unfold fragmentLoop
    split_ifs with hlt
    · obtain ⟨x, hx, hpiece, hstart, hstop⟩ := hp.createFragment hlen offset size true
        (by omega) hoffset (.inl hsize) (by rw [eq_comm, decide_eq_true_iff]; omega)
      have hmod : (offset + size) % 2 ^ 16 = offset + size := by omega
      obtain ⟨rest, hrest, htiles⟩ := ih (by omega) (.inl hlt) (by omega)
      refine ⟨x :: rest, ?_, hstart, hpiece, ?_⟩
      · rw [hx, hmod, hrest]
        rfl
      · rw [hstop, Nat.add_assoc]
        exact htiles
    · have hpos : 0 < p.payload.length - offset ∨ payload = [] := by
        refine hp.nonempty.imp_left fun hne => ?_
        have := List.length_pos_of_ne_nil hne
        omega
      have hrest : p.fragmentOffset + offset + (p.payload.length - offset) =
          p.fragmentOffset + p.payload.length := by
        omega
      obtain ⟨x, hx, hpiece, hstart, hstop⟩ := hp.createFragment hlen offset
        (p.payload.length - offset) p.moreFragments (by omega) hoffset hpos (by rw [hrest, hmore])
      refine ⟨[x], by rw [hx]; rfl, hstart, hpiece, ?_⟩
      change x.fragmentEnd = _
      omega

/-- `DoFragmentation` ends for every MTU that IPv4 allows, with pieces in place of the piece. -/
theorem PieceOf.doFragmentation (hp : PieceOf payload p) (hlen : payload.length ≤ 65515)
    {outIfaceMtu : UInt32} (hmtu : 68 ≤ outIfaceMtu) :
    ∃ fragments, doFragmentation p outIfaceMtu = some fragments ∧
      Tiles payload p.fragmentOffset p.fragmentEnd fragments := by
  obtain ⟨haligned, hsize⟩ := fragmentSize_spec hmtu
  exact fragmentLoop_tiles hlen hp hsize haligned (Nat.dvd_zero 8) (.inr rfl) (by omega)

theorem pieceOf_wholeDatagram (payload : List UInt8) : PieceOf payload (wholeDatagram payload) := by
  refine ⟨by simp [wholeDatagram], ?_, ?_, Nat.dvd_zero 8, ?_⟩
  · simp [wholeDatagram, Ipv4PayloadHeaderPair.fragmentEnd]
  · simp [wholeDatagram, Ipv4PayloadHeaderPair.fragmentEnd]
  · exact (em (payload = [])).symm

/-- What is on its way of a datagram tiles the payload. -/
theorem Fragmented.tiles (hlen : payload.length ≤ 65515) (h : Fragmented payload sent) :
    Tiles payload 0 payload.length sent := by
  induction h with
  | whole => exact ⟨rfl, pieceOf_wholeDatagram payload, Nat.zero_add _⟩
  | again hmtu _ hfragments ih =>
    obtain ⟨mid, hfront, hstart, hp, hback⟩ := ih.of_append
    obtain ⟨fragments, hfragments', htiles⟩ := hp.doFragmentation hlen hmtu
    cases hfragments.symm.trans hfragments'
    rw [hstart] at htiles
    exact hfront.append (htiles.append hback)

end Fragmentation

/-! ## What has arrived -/

section Arrivals

variable {payload : List UInt8} {f : Fragments} {arrivals : List Ipv4PayloadHeaderPair}

namespace Fragments

/-- The arrivals are there in the order of their offsets, and the flag is that of one with the
largest offset. -/
structure Holds (f : Fragments) (arrivals : List Ipv4PayloadHeaderPair) : Prop where
  mem : ∀ it, it ∈ f.fragments ↔ ∃ x ∈ arrivals, (x.payload, x.fragmentOffset) = it
  sorted : f.fragments.Pairwise fun a b => a.2 ≤ b.2
  last : arrivals ≠ [] → ∃ z ∈ arrivals, f.moreFragment = z.moreFragments ∧
    ∀ x ∈ arrivals, x.fragmentOffset ≤ z.fragmentOffset

theorem holds_empty : empty.Holds [] := ⟨fun it => by simp [empty], .nil, fun h => absurd rfl h⟩

/-- Behind the place where the loop stops, all offsets are larger. -/
theorem lt_of_mem_dropWhile {l : List (List UInt8 × ℕ)} (hsorted : l.Pairwise fun a b => a.2 ≤ b.2)
    {offset : ℕ} {it : List UInt8 × ℕ} (hit : it ∈ l.dropWhile fun it => it.2 ≤ offset) :
    offset < it.2 := by
  induction l with
  | nil => cases hit
  | cons a l ih =>
    obtain ⟨ha, hl⟩ := List.pairwise_cons.1 hsorted
    rw [List.dropWhile_cons] at hit
    split_ifs at hit with hle
    · exact ih hl hit
    · rw [decide_eq_true_iff] at hle
      cases hit with
      | head => omega
      | tail _ hit =>
        have := ha it hit
        omega

theorem Holds.addFragment (h : f.Holds arrivals) (x : Ipv4PayloadHeaderPair) :
    (f.addFragment x.payload x.fragmentOffset x.moreFragments).Holds (arrivals ++ [x]) := by
  have hsplit := List.takeWhile_append_dropWhile (p := fun it => decide (it.2 ≤ x.fragmentOffset))
    (l := f.fragments)
  have hbefore : ∀ it ∈ f.fragments.takeWhile fun it => decide (it.2 ≤ x.fragmentOffset),
      it.2 ≤ x.fragmentOffset := fun it hit => by
    simpa using List.mem_takeWhile_imp hit
  have hbehind : ∀ it ∈ f.fragments.dropWhile fun it => decide (it.2 ≤ x.fragmentOffset),
      x.fragmentOffset < it.2 := fun it hit => lt_of_mem_dropWhile h.sorted hit
  unfold Fragments.addFragment
  generalize f.fragments.takeWhile (fun it => decide (it.2 ≤ x.fragmentOffset)) = before at *
  generalize f.fragments.dropWhile (fun it => decide (it.2 ≤ x.fragmentOffset)) = behind at *
  refine ⟨fun it => ?_, ?_, fun _ => ?_⟩
  · have hmem := h.mem it
    rw [← hsplit, List.mem_append] at hmem
    simp only [List.mem_append, List.mem_cons, List.not_mem_nil, or_false, or_and_right, exists_or,
      exists_eq_left, ← hmem, eq_comm (a := it)]
    tauto
  · have hsorted := h.sorted
    rw [← hsplit, List.pairwise_append] at hsorted
    obtain ⟨hsorted, hsorted', hle⟩ := hsorted
    refine List.pairwise_append.2 ⟨hsorted, List.pairwise_cons.2 ⟨?_, hsorted'⟩, ?_⟩
    · intro it hit
      exact (hbehind it hit).le
    · intro it hit it' hit'
      cases hit' with
      | head => exact hbefore it hit
      | tail _ hit' => exact hle it hit it' hit'
  · by_cases hnil : behind = []
    · -- no offset is larger
      refine ⟨x, by simp, if_pos hnil, fun y hy => ?_⟩
      subst hnil
      rw [List.mem_append, List.mem_singleton] at hy
      cases hy with
      | inl hy =>
        apply hbefore (y.payload, y.fragmentOffset)
        rw [List.append_nil] at hsplit
        rw [hsplit]
        exact (h.mem _).2 ⟨y, hy, rfl⟩
      | inr hy => rw [hy]
    · obtain ⟨it, hit⟩ := List.exists_mem_of_ne_nil _ hnil
      obtain ⟨y, hy, hyit⟩ := (h.mem it).1 (by rw [← hsplit]; simp [hit])
      obtain ⟨z, hz, hflag, hmax⟩ := h.last (List.ne_nil_of_mem hy)
      refine ⟨z, by simp [hz], (if_neg hnil).trans hflag, fun w hw => ?_⟩
      rw [List.mem_append, List.mem_singleton] at hw
      cases hw with
      | inl hw => exact hmax w hw
      | inr hw =>
        have hlt := hbehind it hit
        have hle := hmax y hy
        rw [← hyit] at hlt
        rw [hw]
        exact (Nat.lt_of_lt_of_le hlt hle).le

theorem Holds.addAll (h : f.Holds arrivals) (more : List Ipv4PayloadHeaderPair) :
    (f.addAll more).Holds (arrivals ++ more) := by
  induction more generalizing f arrivals with
  | nil => simpa [Fragments.addAll] using h
  | cons x more ih =>
    have hnext := ih (h.addFragment x)
    rwa [List.append_assoc] at hnext

/-- A byte is in one of the fragments. -/
def Covered (l : List (List UInt8 × ℕ)) (k : ℕ) : Prop :=
  ∃ it ∈ l, it.2 ≤ k ∧ k < it.2 + it.1.length

/-- The loop finds no gap exactly if no byte is missing in front of a fragment. -/
theorem noGap_iff {l : List (List UInt8 × ℕ)} (hsorted : l.Pairwise fun a b => a.2 ≤ b.2)
    (hend : ∀ it ∈ l, it.2 + it.1.length < 2 ^ 16) (lastEndOffset : ℕ) :
    noGap lastEndOffset l = true ↔
      ∀ k, lastEndOffset ≤ k → (∃ it ∈ l, k < it.2) → Covered l k := by
  induction l generalizing lastEndOffset with
  | nil => simp [noGap]
  | cons a l ih =>
    obtain ⟨ha, hl⟩ := List.pairwise_cons.1 hsorted
    have hmod : (a.1.length + a.2) % 2 ^ 16 = a.2 + a.1.length := by
      have := hend a List.mem_cons_self
      omega
    unfold noGap
    rw [hmod]
    split_ifs with hgap
    · -- the byte at `lastEndOffset` is missing
      refine iff_of_false (by simp) fun h => ?_
      obtain ⟨it, hit, hle, -⟩ := h lastEndOffset (Nat.le_refl _) ⟨a, List.mem_cons_self, hgap⟩
      cases hit with
      | head => omega
      | tail _ hit =>
        have := ha it hit
        omega
    · rw [ih hl fun it hit => hend it (List.mem_cons_of_mem _ hit)]
      constructor
      · intro h k hk ⟨it, hit, hlt⟩
        by_cases hka : k < a.2 + a.1.length
        · exact ⟨a, List.mem_cons_self, by omega, hka⟩
        · cases hit with
          | head => omega
          | tail _ hit =>
            obtain ⟨it', hit', hcov⟩ := h k (by omega) ⟨it, hit, hlt⟩
            exact ⟨it', List.mem_cons_of_mem _ hit', hcov⟩
      · intro h k hk ⟨it, hit, hlt⟩
        obtain ⟨it', hit', hcov⟩ := h k (by omega) ⟨it, List.mem_cons_of_mem _ hit, hlt⟩
        cases hit' with
        | head => omega
        | tail _ hit' => exact ⟨it', hit', hcov⟩

/-- Adding pieces without a gap to the first bytes of the payload gives more of its first bytes. -/
theorem append_take (hlen : payload.length ≤ 65515) {l : List (List UInt8 × ℕ)}
    (hl : ∀ it ∈ l, ∃ x, PieceOf payload x ∧ (x.payload, x.fragmentOffset) = it) {lastEndOffset : ℕ}
    (hlast : lastEndOffset ≤ payload.length) (hgap : noGap lastEndOffset l = true) :
    ∃ e, append (payload.take lastEndOffset) l = payload.take e ∧ lastEndOffset ≤ e ∧
      ∀ it ∈ l, it.2 + it.1.length ≤ e := by
  induction l generalizing lastEndOffset with
  | nil => exact ⟨lastEndOffset, rfl, Nat.le_refl _, fun it hit => absurd hit List.not_mem_nil⟩
  | cons a l ih =>
    obtain ⟨x, hx, rfl⟩ := hl a List.mem_cons_self
    have hend := hx.fragmentEnd_le
    have hbytes := hx.bytes
    unfold Ipv4PayloadHeaderPair.fragmentEnd at hend
    have hmod : (x.payload.length + x.fragmentOffset) % 2 ^ 16 =
        x.fragmentOffset + x.payload.length := by omega
    have hmod' : (payload.take lastEndOffset).length % 2 ^ 16 = lastEndOffset := by
      rw [List.length_take]
      omega
    unfold noGap at hgap
    rw [hmod] at hgap
    split_ifs at hgap with hlt
    obtain ⟨e, happend, hle, hall⟩ := ih (fun it hit => hl it (List.mem_cons_of_mem _ hit))
      (by omega) hgap
    -- whatever part of the piece is added, the bytes are there up to its end
    have hstep : append (payload.take lastEndOffset) ((x.payload, x.fragmentOffset) :: l) =
        append (payload.take (max lastEndOffset (x.fragmentOffset + x.payload.length))) l := by
      rw [append]
      simp only [hmod']
      split_ifs with hover hnew
      · -- the piece overlaps and goes further
        have hmax : max lastEndOffset (x.fragmentOffset + x.payload.length) =
            lastEndOffset + (x.payload.length - (lastEndOffset - x.fragmentOffset)) := by omega
        have hstart : x.fragmentOffset + (lastEndOffset - x.fragmentOffset) = lastEndOffset := by
          omega
        rw [hmax, List.take_add, ← hstart, ← List.drop_drop, hstart, ← List.drop_take, ← hbytes]
      · rw [Nat.max_eq_left (by omega)]
      · have heq : lastEndOffset = x.fragmentOffset := by omega
        rw [Nat.max_eq_right (by omega), List.take_add, ← hbytes, heq]
    refine ⟨e, hstep.trans happend, by omega, fun it hit => ?_⟩
    cases hit with
    | head => exact Nat.le_trans (Nat.le_max_right _ _) hle
    | tail _ hit => exact hall it hit

/-- The collection of arrivals of pieces is entire, where the one that set the flag is the last
one and no byte is missing; then it gives the payload back. -/
theorem Holds.isEntire_iff (hlen : payload.length ≤ 65515) (h : f.Holds arrivals)
    (hpieces : ∀ x ∈ arrivals, PieceOf payload x) :
    f.isEntire = true ↔ arrivals ≠ [] ∧ f.moreFragment = false ∧
      ∀ k < payload.length, ∃ x ∈ arrivals, x.fragmentOffset ≤ k ∧ k < x.fragmentEnd := by
  have hends : ∀ it ∈ f.fragments, it.2 + it.1.length ≤ payload.length := by
    intro it hit
    obtain ⟨x, hx, rfl⟩ := (h.mem it).1 hit
    exact (hpieces x hx).fragmentEnd_le
  have hcovered : ∀ k, Covered f.fragments k ↔
      ∃ x ∈ arrivals, x.fragmentOffset ≤ k ∧ k < x.fragmentEnd := by
    intro k
    constructor
    · rintro ⟨it, hit, hle, hlt⟩
      obtain ⟨x, hx, rfl⟩ := (h.mem it).1 hit
      exact ⟨x, hx, hle, hlt⟩
    · rintro ⟨x, hx, hle, hlt⟩
      exact ⟨_, (h.mem _).2 ⟨x, hx, rfl⟩, hle, hlt⟩
  have hnil : f.fragments ≠ [] ↔ arrivals ≠ [] := by
    constructor
    · intro hne
      obtain ⟨it, hit⟩ := List.exists_mem_of_ne_nil _ hne
      obtain ⟨x, hx, -⟩ := (h.mem it).1 hit
      exact List.ne_nil_of_mem hx
    · intro hne
      obtain ⟨x, hx⟩ := List.exists_mem_of_ne_nil _ hne
      exact List.ne_nil_of_mem ((h.mem _).2 ⟨x, hx, rfl⟩)
  rw [isEntire, Bool.and_eq_true, Bool.and_eq_true, bne_iff_ne, Bool.not_eq_true', hnil,
    noGap_iff h.sorted (fun it hit => by have := hends it hit; omega)]
  constructor
  · rintro ⟨⟨hflag, hne⟩, hgap⟩
    refine ⟨hne, hflag, fun k hk => ?_⟩
    -- the piece that set the flag reaches the end
    obtain ⟨z, hz, hzflag, -⟩ := h.last hne
    have hzend : payload.length ≤ z.fragmentEnd := by
      have hmore := (hpieces z hz).more
      rw [← hzflag, hflag, eq_comm, decide_eq_false_iff_not] at hmore
      omega
    by_cases hzk : z.fragmentOffset ≤ k
    · exact ⟨z, hz, hzk, by omega⟩
    · rw [← hcovered]
      exact hgap k (Nat.zero_le _) ⟨_, (h.mem _).2 ⟨z, hz, rfl⟩, Nat.lt_of_not_le hzk⟩
  · rintro ⟨hne, hflag, hall⟩
    refine ⟨⟨hflag, hne⟩, fun k _ ⟨it, hit, hlt⟩ => (hcovered k).2 (hall k ?_)⟩
    have := hends it hit
    omega

theorem Holds.getPacket (hlen : payload.length ≤ 65515) (h : f.Holds arrivals)
    (hpieces : ∀ x ∈ arrivals, PieceOf payload x) (hentire : f.isEntire = true) :
    f.getPacket = some payload := by
  obtain ⟨hne, hflag, -⟩ := (h.isEntire_iff hlen hpieces).1 hentire
  rw [isEntire, Bool.and_eq_true, Bool.and_eq_true] at hentire
  obtain ⟨z, hz, hzflag, -⟩ := h.last hne
  have hall : ∀ it ∈ f.fragments, ∃ x, PieceOf payload x ∧ (x.payload, x.fragmentOffset) = it := by
    intro it hit
    obtain ⟨x, hx, hit⟩ := (h.mem it).1 hit
    exact ⟨x, hpieces x hx, hit⟩
  have hmem := (h.mem (z.payload, z.fragmentOffset)).2 ⟨z, hz, rfl⟩
  have hgap := hentire.2
  unfold Fragments.getPacket
  generalize f.fragments = l at hall hmem hgap
  obtain ⟨e, happend, -, hends⟩ := append_take hlen hall (Nat.zero_le _) hgap
  have hzend : payload.length ≤ e := by
    have hmore := (hpieces z hz).more
    have hle : z.fragmentOffset + z.payload.length ≤ e := hends _ hmem
    rw [← hzflag, hflag, eq_comm, decide_eq_false_iff_not] at hmore
    unfold Ipv4PayloadHeaderPair.fragmentEnd at hmore
    omega
  cases l with
  | nil => cases hmem
  | cons it rest =>
    rw [List.take_of_length_le hzend, List.take_zero, append] at happend
    exact congrArg some happend

end Fragments

end Arrivals

end SeanetSim
