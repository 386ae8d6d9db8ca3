import SeanetSim.Network.ByteTagRanges
import SeanetSim.Network.PacketByteTags

/-!
# Bytes with their tags

What the byte tag iterator reports of a packet, as marks on its bytes, and what the operations on
packets do to the marks: they stay on their bytes.
-/

namespace SeanetSim

/-- A tag, and for each byte of a packet whether it is on it. -/
structure TagMark where
  tid : UInt16
  data : List UInt8
  bytes : List Bool
deriving DecidableEq, Repr

namespace TagMark

def onBytes (f : List Bool → List Bool) (m : TagMark) : TagMark := { m with bytes := f m.bytes }

/-- There is a byte left that the tag is on. -/
def isLive (m : TagMark) : Bool := m.bytes.any id

def live (l : List TagMark) : List TagMark := l.filter isLive

variable {m : TagMark} {l l' : List TagMark} {k : ℕ}

theorem live_append : live (l ++ l') = live l ++ live l' := List.filter_append ..

/-- Marks that are alive exactly if they have been before. -/
theorem live_map {f : TagMark → TagMark} (hf : ∀ m ∈ l, (f m).isLive = m.isLive) :
    live (l.map f) = (live l).map f := by
  rw [live, List.filter_map, live]
  exact congrArg (List.map f) (List.filter_congr fun m hm => hf m hm)

/-- Marks that are not alive do not come back. -/
theorem live_map_live {f : TagMark → TagMark} (hf : ∀ m, (f m).isLive = true → m.isLive = true) :
    live ((live l).map f) = live (l.map f) := by
  rw [live, live, live, List.filter_map, List.filter_map, List.filter_filter]
  refine congrArg (List.map f) (List.filter_congr fun m _ => ?_)
  cases hlive : (f m).isLive with
  | false => simp [hlive]
  | true => simp [hlive, hf m hlive]

theorem isLive_front : (m.onBytes (List.replicate k false ++ ·)).isLive = m.isLive := by
  simp [isLive, onBytes]

theorem isLive_back : (m.onBytes (· ++ List.replicate k false)).isLive = m.isLive := by
  simp [isLive, onBytes]

theorem isLive_of_sublist {f : List Bool → List Bool} (hf : ∀ b, (f b).Sublist b)
    (h : (m.onBytes f).isLive = true) : m.isLive = true := by
  obtain ⟨b, hb, hid⟩ := List.any_eq_true.1 h
  exact List.any_eq_true.2 ⟨b, (hf m.bytes).subset hb, hid⟩

end TagMark

/-- A packet with the tags of its bytes. -/
structure MarkedPacket where
  size : ℕ
  marks : List TagMark
deriving DecidableEq, Repr

namespace MarkedPacket

/-- New bytes, of a header, have no tag. -/
def addAtStart (p : MarkedPacket) (size : ℕ) : MarkedPacket :=
  ⟨p.size + size, p.marks.map (TagMark.onBytes (List.replicate size false ++ ·))⟩

/-- New bytes, of a trailer or padding, have no tag. -/
def addAtEnd (p : MarkedPacket) (size : ℕ) : MarkedPacket :=
  ⟨p.size + size, p.marks.map (TagMark.onBytes (· ++ List.replicate size false))⟩

def removeAtStart (p : MarkedPacket) (size : ℕ) : MarkedPacket :=
  ⟨p.size - size, TagMark.live (p.marks.map (TagMark.onBytes (List.drop size)))⟩

def removeAtEnd (p : MarkedPacket) (size : ℕ) : MarkedPacket :=
  ⟨p.size - size, TagMark.live (p.marks.map (TagMark.onBytes (List.take (p.size - size))))⟩

/-- A part of the bytes with their tags. -/
def createFragment (p : MarkedPacket) (start length : ℕ) : MarkedPacket :=
  ⟨length, TagMark.live
    (p.marks.map (TagMark.onBytes fun bytes => (bytes.drop start).take length))⟩

/-- The bytes of another packet keep their tags. -/
def append (p o : MarkedPacket) : MarkedPacket :=
  ⟨p.size + o.size, (p.addAtEnd o.size).marks ++ (o.addAtStart p.size).marks⟩

/-- A tag is put on a range of bytes. -/
def mark (p : MarkedPacket) (tid : UInt16) (data : List UInt8) (start end_ : ℕ) : MarkedPacket :=
  ⟨p.size, p.marks ++ TagMark.live
    [⟨tid, data, (List.range p.size).map fun i => decide (start ≤ i ∧ i < end_)⟩]⟩

end MarkedPacket

/-! ## The marks of ranges -/

namespace ByteRange

/-- The bytes of a packet in the range. -/
def mark (n : ℕ) (r : ByteRange) : TagMark :=
  ⟨r.tid, r.data, (List.range n).map fun (i : ℕ) => decide (r.start ≤ i ∧ (i : ℤ) < r.end_)⟩

def endAt (m : ℤ) (r : ByteRange) : ByteRange := { r with end_ := min r.end_ m }

def startAt (m : ℤ) (r : ByteRange) : ByteRange := { r with start := max r.start m }

variable {r r' : ByteRange} {n k m : ℕ}

theorem mark_congr {tid : UInt16} {data : List UInt8} {start end_ start' end_' : ℤ}
    (h : ∀ i : ℕ, i < n → (start ≤ i ∧ (i : ℤ) < end_ ↔ start' ≤ i ∧ (i : ℤ) < end_')) :
    mark n ⟨tid, data, start, end_⟩ = mark n ⟨tid, data, start', end_'⟩ := by
  refine congrArg (TagMark.mk tid data) (List.map_congr_left fun i hi => ?_)
  exact decide_eq_decide.2 (h i (List.mem_range.1 hi))

theorem isLive_mark :
    (r.mark n).isLive = true ↔ ∃ i : ℕ, i < n ∧ r.start ≤ i ∧ (i : ℤ) < r.end_ := by
  simp [TagMark.isLive, mark]

/-- The bytes in front of a number of others. -/
theorem map_range_add {α : Type*} (f : ℕ → α) : (List.range (k + n)).map f =
    (List.range k).map f ++ (List.range n).map fun i => f (k + i) := by
  rw [List.range_add, List.map_append, List.map_map]
  rfl

theorem map_range_eq_replicate {f : ℕ → Bool} (hf : ∀ i < k, f i = false) :
    (List.range k).map f = List.replicate k false := by
  rw [List.eq_replicate_iff, List.length_map, List.length_range]
  refine ⟨rfl, fun b hb => ?_⟩
  obtain ⟨i, hi, rfl⟩ := List.mem_map.1 hb
  exact hf i (List.mem_range.1 hi)

/-- Behind new bytes. -/
theorem mark_shift (hr : ∀ i : ℕ, i < k → ¬ (r'.start ≤ i ∧ (i : ℤ) < r'.end_))
    (hsame : r'.tid = r.tid ∧ r'.data = r.data) (hshift : ∀ i : ℕ, i < n →
      (r'.start ≤ (k + i : ℕ) ∧ ((k + i : ℕ) : ℤ) < r'.end_ ↔ r.start ≤ i ∧ (i : ℤ) < r.end_)) :
    r'.mark (n + k) = (r.mark n).onBytes (List.replicate k false ++ ·) := by
  rw [Nat.add_comm n k, mark, map_range_add, hsame.1, hsame.2]
  refine congrArg (TagMark.mk r.tid r.data) (congrArg₂ (· ++ ·) ?_ ?_)
  · exact map_range_eq_replicate fun i hi => decide_eq_false (hr i hi)
  · exact List.map_congr_left fun i hi => decide_eq_decide.2 (hshift i (List.mem_range.1 hi))

theorem mark_endAt : (r.endAt n).mark (n + k) =
    (r.mark n).onBytes (· ++ List.replicate k false) := by
  rw [mark, map_range_add]
  refine congrArg (TagMark.mk r.tid r.data) (congrArg₂ (· ++ ·) ?_ ?_)
  · refine List.map_congr_left fun i hi => decide_eq_decide.2 ?_
    have := List.mem_range.1 hi
    dsimp only [endAt]
    omega
  · refine map_range_eq_replicate fun i _ => decide_eq_false ?_
    dsimp only [endAt]
    omega

theorem mark_take (hm : m ≤ n) : r.mark m = (r.mark n).onBytes (List.take m) := by
  rw [mark, mark, TagMark.onBytes, ← List.map_take, List.take_range, min_eq_left hm]

theorem mark_drop : (r.shift (-k)).mark (n - k) = (r.mark n).onBytes (List.drop k) := by
  apply congrArg (TagMark.mk r.tid r.data)
  rcases Nat.lt_or_ge n k with hle | hlt
  · rw [Nat.sub_eq_zero_of_le hle.le, mark, List.drop_eq_nil_of_le]
    · rfl
    · simpa using hle.le
  · obtain ⟨n, rfl⟩ := Nat.exists_eq_add_of_le hlt
    rw [Nat.add_sub_cancel_left, mark, map_range_add, List.drop_left' (by simp)]
    refine List.map_congr_left fun i _ => decide_eq_decide.2 ?_
    dsimp only [shift]
    omega

/-- The marks that ranges make on a packet of a size. -/
def marks (n : ℕ) (rs : List ByteRange) : List TagMark := TagMark.live (rs.map (mark n))

variable {rs rs' : List ByteRange}

theorem marks_append (n : ℕ) (rs rs' : List ByteRange) :
    marks n (rs ++ rs') = marks n rs ++ marks n rs' := by
  rw [marks, List.map_append, TagMark.live_append]
  rfl

theorem marks_congr {f g : ByteRange → ByteRange} (h : ∀ r ∈ rs, (f r).mark n = (g r).mark n) :
    marks n (rs.map f) = marks n (rs.map g) := by
  rw [marks, marks, List.map_map, List.map_map]
  exact congrArg TagMark.live (List.map_congr_left h)

/-- Ranges that are left out make no mark. -/
theorem marks_filterMap {f : ByteRange → Option ByteRange} {g : ByteRange → ByteRange}
    (hsome : ∀ r ∈ rs, ∀ r', f r = some r' → r'.mark n = (g r).mark n)
    (hnone : ∀ r ∈ rs, f r = none → ((g r).mark n).isLive = false) :
    marks n (rs.filterMap f) = marks n (rs.map g) := by
  induction rs with
  | nil => rfl
  | cons r rs ih =>
    have hrest := ih (fun r hr => hsome r (List.mem_cons_of_mem _ hr))
      fun r hr => hnone r (List.mem_cons_of_mem _ hr)
    have hcons (r : ByteRange) (rs : List ByteRange) : marks n (r :: rs) =
        TagMark.live [r.mark n] ++ marks n rs := marks_append n [r] rs
    rw [List.map_cons, hcons, ← hrest, List.filterMap_cons]
    cases hr : f r with
    | none => rw [TagMark.live, List.filter_cons_of_neg (by
        rw [hnone r List.mem_cons_self hr]
        exact Bool.false_ne_true)]; rfl
    | some r' =>
      dsimp only
      rw [hcons, hsome r List.mem_cons_self r' hr]

/-- Ranges that make the marks of others with bytes put to them. -/
theorem marks_map_of_isLive {f : List Bool → List Bool} {g : ByteRange → ByteRange}
    (hg : ∀ r ∈ rs, (g r).mark m = (r.mark n).onBytes f)
    (hf : ∀ t : TagMark, (t.onBytes f).isLive = t.isLive) :
    marks m (rs.map g) = (marks n rs).map (TagMark.onBytes f) := by
  rw [marks, marks, ← TagMark.live_map fun t _ => hf t, List.map_map, List.map_map]
  exact congrArg TagMark.live (List.map_congr_left hg)

/-- Ranges that make the marks of others with bytes taken away. -/
theorem marks_map_of_sublist {f : List Bool → List Bool} {g : ByteRange → ByteRange}
    (hg : ∀ r ∈ rs, (g r).mark m = (r.mark n).onBytes f) (hf : ∀ b, (f b).Sublist b) :
    marks m (rs.map g) = TagMark.live ((marks n rs).map (TagMark.onBytes f)) := by
  rw [marks, marks, TagMark.live_map_live fun t => TagMark.isLive_of_sublist hf, List.map_map,
    List.map_map]
  exact congrArg TagMark.live (List.map_congr_left hg)

end ByteRange

namespace ByteTags

open ByteRange

variable {l : ByteTags} {m : Int32} {n : ℕ} {r : ByteRange}

theorem marks_addAtEnd (h : Sound l) (hle : -2 ^ 31 ≤ m.toInt - l.adjustment.toInt)
    (hlt : m.toInt - l.adjustment.toInt < 2 ^ 31) (n : ℕ) :
    marks n (l.addAtEnd m).ranges = marks n (l.ranges.map (endAt m.toInt)) := by
  obtain ⟨-, ⟨hsame, hend⟩ | ⟨-, hranges⟩⟩ := ranges_addAtEnd h hle hlt
  · rw [hsame]
    conv_lhs => rw [← List.map_id l.ranges]
    refine marks_congr fun r hr => ?_
    rw [endAt, min_eq_left (hend r hr)]
    rfl
  · rw [hranges]
    refine marks_filterMap (fun r hr r' hr' => ?_) fun r hr hnone => ?_
    · obtain ⟨-, hne, hend⟩ := h.inside r hr
      rw [cutEnd_eq hne hend] at hr'
      split_ifs at hr' with hcut
      cases hr'
      exact mark_congr fun i _ => by omega
    · obtain ⟨-, hne, hend⟩ := h.inside r hr
      rw [cutEnd_eq hne hend] at hnone
      split_ifs at hnone with hcut
      rw [← Bool.not_eq_true, isLive_mark]
      rintro ⟨i, -, hi⟩
      dsimp only [endAt] at hi
      omega

theorem marks_addAtStart (h : Sound l) (hle : -2 ^ 31 ≤ m.toInt - l.adjustment.toInt)
    (hlt : m.toInt - l.adjustment.toInt < 2 ^ 31) (n : ℕ) :
    marks n (l.addAtStart m).ranges = marks n (l.ranges.map (startAt m.toInt)) := by
  obtain ⟨-, ⟨hsame, hstart⟩ | ⟨-, hranges⟩⟩ := ranges_addAtStart h hle hlt
  · rw [hsame]
    conv_lhs => rw [← List.map_id l.ranges]
    refine marks_congr fun r hr => ?_
    rw [startAt, max_eq_left (hstart r hr)]
    rfl
  · rw [hranges]
    refine marks_filterMap (fun r hr r' hr' => ?_) fun r hr hnone => ?_
    · obtain ⟨-, hne, hend⟩ := h.inside r hr
      rw [cutStart_eq hne hend] at hr'
      split_ifs at hr' with hcut
      cases hr'
      exact mark_congr fun i _ => by omega
    · obtain ⟨-, hne, hend⟩ := h.inside r hr
      rw [cutStart_eq hne hend] at hnone
      split_ifs at hnone with hcut
      rw [← Bool.not_eq_true, isLive_mark]
      rintro ⟨i, -, hi⟩
      dsimp only [startAt] at hi
      omega

/-- The ranges that are left are inside those before. -/
theorem of_mem_addAtEnd (h : Sound l) (hle : -2 ^ 31 ≤ m.toInt - l.adjustment.toInt)
    (hlt : m.toInt - l.adjustment.toInt < 2 ^ 31) (hr : r ∈ (l.addAtEnd m).ranges) :
    r.end_ ≤ m.toInt ∧ ∃ r' ∈ l.ranges, r'.start ≤ r.start ∧ r.end_ ≤ r'.end_ := by
  obtain ⟨-, ⟨hsame, hend⟩ | ⟨-, hranges⟩⟩ := ranges_addAtEnd h hle hlt
  · rw [hsame] at hr
    exact ⟨hend r hr, r, hr, le_refl _, le_refl _⟩
  · rw [hranges, List.mem_filterMap] at hr
    obtain ⟨r', hr', hcut⟩ := hr
    obtain ⟨-, hne, hend⟩ := h.inside r' hr'
    rw [cutEnd_eq hne hend] at hcut
    split_ifs at hcut
    cases hcut
    exact ⟨min_le_right _ _, r', hr', le_max_left _ _, min_le_left _ _⟩

theorem of_mem_addAtStart (h : Sound l) (hle : -2 ^ 31 ≤ m.toInt - l.adjustment.toInt)
    (hlt : m.toInt - l.adjustment.toInt < 2 ^ 31) (hr : r ∈ (l.addAtStart m).ranges) :
    m.toInt ≤ r.start ∧ ∃ r' ∈ l.ranges, r'.start ≤ r.start ∧ r.end_ ≤ r'.end_ := by
  obtain ⟨-, ⟨hsame, hstart⟩ | ⟨-, hranges⟩⟩ := ranges_addAtStart h hle hlt
  · rw [hsame] at hr
    exact ⟨hstart r hr, r, hr, le_refl _, le_refl _⟩
  · rw [hranges, List.mem_filterMap] at hr
    obtain ⟨r', hr', hcut⟩ := hr
    obtain ⟨-, hne, hend⟩ := h.inside r' hr'
    rw [cutStart_eq hne hend] at hcut
    split_ifs at hcut
    cases hcut
    exact ⟨le_max_right _ _, r', hr', (le_max_left _ _).trans (le_max_left _ _), le_refl _⟩

end ByteTags

/-! ## Packets -/

namespace PacketTags

open ByteRange

/-- The offset fits in an `int32_t`. -/
def Offset (x : ℤ) : Prop := -2 ^ 31 ≤ x ∧ x < 2 ^ 31

instance (x : ℤ) : Decidable (Offset x) := inferInstanceAs (Decidable (_ ∧ _))

/-- What the iterator reports, as marks on the bytes. -/
def report (p : PacketTags) : MarkedPacket :=
  ⟨p.size.toNat, (p.tags.begin_ 0 p.size.toInt32).map fun t => t.range.mark p.size.toNat⟩

/-- A range of the list is over both sides of an offset. -/
def Spans (p : PacketTags) (m : ℤ) : Prop := ∃ r ∈ p.tags.ranges, r.start < m ∧ m < r.end_

instance (p : PacketTags) (m : ℤ) : Decidable (p.Spans m) :=
  inferInstanceAs (Decidable (∃ r ∈ p.tags.ranges, r.start < m ∧ m < r.end_))

structure Sound (p : PacketTags) : Prop where
  size_lt : p.size.toNat < 2 ^ 31
  tags : p.tags.Sound
  spans : p.size.toNat = 0 → ¬ p.Spans 0

variable {p o : PacketTags} {size : UInt32}

theorem report_eq (h : Sound p) :
    p.report = ⟨p.size.toNat, marks p.size.toNat p.tags.ranges⟩ := by
  have hsize := uint32_toInt h.size_lt
  have hbegin := ByteTags.ranges_begin h.tags 0 p.size.toInt32
  rw [show Int32.toInt 0 = 0 from rfl, hsize] at hbegin
  have hmap : (p.tags.begin_ 0 p.size.toInt32).map (fun t => t.range.mark p.size.toNat) =
      (p.tags.ranges.filterMap (clip 0 p.size.toNat)).map (mark p.size.toNat) := by
    rw [← hbegin, List.map_map]
    rfl
  have hsame : marks p.size.toNat (p.tags.ranges.filterMap (clip 0 p.size.toNat)) =
      marks p.size.toNat (p.tags.ranges.map id) := by
    refine marks_filterMap (fun r hr r' hr' => ?_) fun r hr hnone => ?_
    · unfold clip at hr'
      split_ifs at hr'
      cases hr'
      exact mark_congr fun i hi => by omega
    · unfold clip at hnone
      split_ifs at hnone with hout
      rw [← Bool.not_eq_true, isLive_mark]
      rintro ⟨i, hi, hcovers⟩
      dsimp only [id] at hcovers
      omega
  have hlive : ∀ m ∈ (p.tags.ranges.filterMap (clip 0 p.size.toNat)).map (mark p.size.toNat),
      m.isLive = true := by
    intro m hm
    obtain ⟨r', hr', rfl⟩ := List.mem_map.1 hm
    obtain ⟨r, hr, hclip⟩ := List.mem_filterMap.1 hr'
    obtain ⟨-, hne, -⟩ := h.tags.inside r hr
    unfold clip at hclip
    split_ifs at hclip with hout
    cases hclip
    have hpos : 0 < p.size.toNat := Nat.pos_of_ne_zero fun hzero =>
      h.spans hzero ⟨r, hr, by omega, by omega⟩
    refine isLive_mark.2 ⟨(max r.start 0).toNat, ?_⟩
    dsimp only
    omega
  rw [List.map_id] at hsame
  rw [report, hmap, ← hsame, marks, TagMark.live, List.filter_eq_self.2 hlive]

/-- The adjustment and the offsets can be changed by a number. -/
def Shiftable (p : PacketTags) (k : ℤ) : Prop :=
  Offset (p.tags.adjustment.toInt + k) ∧
    ∀ r ∈ p.tags.ranges, Offset (r.start + k) ∧ Offset (r.end_ + k)

instance (p : PacketTags) (k : ℤ) : Decidable (p.Shiftable k) :=
  inferInstanceAs (Decidable (_ ∧ ∀ r ∈ p.tags.ranges, Offset (r.start + k) ∧ Offset (r.end_ + k)))

theorem Shiftable.sound {a : Int32} {k : ℤ} (hk : p.Shiftable k) (h : p.tags.Sound)
    (ha : a.toInt = k.bmod (2 ^ 32)) : (p.tags.adjust a).Sound :=
  h.adjust ha hk.1.1 hk.1.2 fun r hr => ⟨(hk.2 r hr).1.1, (hk.2 r hr).2.2⟩

theorem Shiftable.ranges {a : Int32} {k : ℤ} (hk : p.Shiftable k)
    (ha : a.toInt = k.bmod (2 ^ 32)) : (p.tags.adjust a).ranges = p.tags.ranges.map (shift k) :=
  ByteTags.ranges_adjust ha hk.1.1 hk.1.2

theorem Shiftable.adjustment {a : Int32} {k : ℤ} (hk : p.Shiftable k)
    (ha : a.toInt = k.bmod (2 ^ 32)) :
    (p.tags.adjust a).adjustment.toInt = p.tags.adjustment.toInt + k :=
  int32_toInt_add rfl ha hk.1.1 hk.1.2

theorem toNat_add_size (h : p.size.toNat + size.toNat < 2 ^ 31) :
    (p.size + size).toNat = p.size.toNat + size.toNat := by
  rw [UInt32.toNat_add, Nat.mod_eq_of_lt (h.trans (by decide))]

theorem toNat_sub_size (p : PacketTags) (size : UInt32) :
    (p.size - min size p.size).toNat = p.size.toNat - size.toNat := by
  have hmin := UInt32.toNat_min size p.size
  rw [UInt32.toNat_sub_of_le _ _ (UInt32.le_iff_toNat_le.2 (by omega)), hmin]
  omega

/-- `AddHeader` overflows no offset. -/
def RoomAtStart (p : PacketTags) (size : UInt32) : Prop :=
  p.size.toNat + size.toNat < 2 ^ 31 ∧ p.Shiftable size.toNat ∧ Offset (-p.tags.adjustment.toInt)

instance (p : PacketTags) (size : UInt32) : Decidable (p.RoomAtStart size) :=
  inferInstanceAs (Decidable (_ ∧ _ ∧ _))

theorem addHeader_spec (h : Sound p) (hroom : p.RoomAtStart size) :
    Sound (p.addHeader size) ∧ (p.addHeader size).report = p.report.addAtStart size.toNat := by
  obtain ⟨hsize, hshift, hadjustment⟩ := hroom
  have ha := uint32_toInt_bmod size
  have hk := uint32_toInt (n := size) (by omega)
  have hsound := hshift.sound h.tags ha
  have hle : -2 ^ 31 ≤ size.toInt32.toInt - (p.tags.adjust size.toInt32).adjustment.toInt := by
    rw [hshift.adjustment ha, hk]
    have := hadjustment.1
    omega
  have hlt : size.toInt32.toInt - (p.tags.adjust size.toInt32).adjustment.toInt < 2 ^ 31 := by
    rw [hshift.adjustment ha, hk]
    have := hadjustment.2
    omega
  have hsound' : Sound (p.addHeader size) := by
    refine ⟨(toNat_add_size hsize).trans_lt hsize,
      (ByteTags.ranges_addAtStart hsound hle hlt).1, ?_⟩
    rintro - ⟨r, hr, hneg, -⟩
    have := (ByteTags.of_mem_addAtStart hsound hle hlt hr).1
    omega
  refine ⟨hsound', ?_⟩
  rw [report_eq hsound', report_eq h]
  have hmarks := ByteTags.marks_addAtStart hsound hle hlt (p.size.toNat + size.toNat)
  rw [hshift.ranges ha, List.map_map, hk] at hmarks
  rw [addHeader]
  dsimp only
  rw [toNat_add_size hsize, hmarks]
  refine congrArg (MarkedPacket.mk _) (marks_map_of_isLive (fun r _ => ?_)
    fun t => TagMark.isLive_front)
  refine mark_shift (fun i hi => ?_) ⟨rfl, rfl⟩ fun i _ => ?_
  all_goals dsimp only [Function.comp_apply, startAt, shift]
  all_goals omega

/-- `AddTrailer` and `AddPaddingAtEnd` overflow no offset. -/
def RoomAtEnd (p : PacketTags) (size : UInt32) : Prop :=
  p.size.toNat + size.toNat < 2 ^ 31 ∧ Offset (p.size.toNat - p.tags.adjustment.toInt)

instance (p : PacketTags) (size : UInt32) : Decidable (p.RoomAtEnd size) :=
  inferInstanceAs (Decidable (_ ∧ _))

theorem cut_spec (h : Sound p) (hroom : Offset (p.size.toNat - p.tags.adjustment.toInt)) :
    Sound p.cut ∧
      ∀ n, marks n p.cut.tags.ranges = marks n (p.tags.ranges.map (endAt p.size.toNat)) := by
  have hsize := uint32_toInt h.size_lt
  rw [← hsize] at hroom
  refine ⟨⟨h.size_lt, (ByteTags.ranges_addAtEnd h.tags hroom.1 hroom.2).1, fun hzero => ?_⟩,
    fun n => ?_⟩
  · rintro ⟨r, hr, hneg, hpos⟩
    have hle := (ByteTags.of_mem_addAtEnd h.tags hroom.1 hroom.2 hr).1
    rw [hsize, show p.size.toNat = 0 from hzero] at hle
    omega
  · rw [cut, ByteTags.marks_addAtEnd h.tags hroom.1 hroom.2, hsize]

theorem addPaddingAtEnd_spec (h : Sound p) (hroom : p.RoomAtEnd size) :
    Sound (p.addPaddingAtEnd size) ∧
      (p.addPaddingAtEnd size).report = p.report.addAtEnd size.toNat := by
  obtain ⟨hsize, hoffset⟩ := hroom
  obtain ⟨hcut, hmarks⟩ := cut_spec h hoffset
  have hsound : Sound (p.addPaddingAtEnd size) := by
    refine ⟨(toNat_add_size hsize).trans_lt hsize, hcut.tags, fun hzero => hcut.spans ?_⟩
    rw [addPaddingAtEnd, toNat_add_size hsize] at hzero
    exact Nat.eq_zero_of_add_eq_zero_right hzero
  refine ⟨hsound, ?_⟩
  rw [report_eq hsound, report_eq h, addPaddingAtEnd]
  dsimp only
  rw [toNat_add_size hsize]
  refine congrArg (MarkedPacket.mk _) ((hmarks _).trans ?_)
  exact marks_map_of_isLive (fun r _ => mark_endAt) fun t => TagMark.isLive_back

/-- `RemoveAtStart` overflows no offset, and leaves a byte or no range over both sides. -/
def LeavesAtStart (p : PacketTags) (size : UInt32) : Prop :=
  p.Shiftable (-(size.toNat : ℤ)) ∧ (p.size.toNat ≤ size.toNat → ¬ p.Spans size.toNat)

instance (p : PacketTags) (size : UInt32) : Decidable (p.LeavesAtStart size) :=
  inferInstanceAs (Decidable (_ ∧ (_ → _)))

theorem removeAtStart_spec (h : Sound p) (hleaves : p.LeavesAtStart size) :
    Sound (p.removeAtStart size) ∧
      (p.removeAtStart size).report = p.report.removeAtStart size.toNat := by
  obtain ⟨hshift, hspans⟩ := hleaves
  have ha := uint32_toInt_neg_bmod size
  have hsound : Sound (p.removeAtStart size) := by
    refine ⟨(toNat_sub_size p size).trans_lt (by have := h.size_lt; omega),
      hshift.sound h.tags ha, fun hzero => ?_⟩
    rw [removeAtStart, toNat_sub_size] at hzero
    rintro ⟨r, hr, hneg, hpos⟩
    rw [removeAtStart, hshift.ranges ha] at hr
    obtain ⟨r, hmem, rfl⟩ := List.mem_map.1 hr
    dsimp only [shift] at hneg hpos
    exact hspans (by omega) ⟨r, hmem, by omega, by omega⟩
  refine ⟨hsound, ?_⟩
  rw [report_eq hsound, report_eq h, removeAtStart]
  dsimp only
  rw [toNat_sub_size, hshift.ranges ha]
  exact congrArg (MarkedPacket.mk _)
    (marks_map_of_sublist (fun r _ => mark_drop) fun b => List.drop_sublist _ b)

/-- `RemoveAtEnd` leaves a byte or no range over both sides. -/
def LeavesAtEnd (p : PacketTags) (size : UInt32) : Prop :=
  p.size.toNat ≤ size.toNat → ¬ p.Spans 0

instance (p : PacketTags) (size : UInt32) : Decidable (p.LeavesAtEnd size) :=
  inferInstanceAs (Decidable (_ → _))

theorem removeAtEnd_spec (h : Sound p) (hleaves : p.LeavesAtEnd size) :
    Sound (p.removeAtEnd size) ∧
      (p.removeAtEnd size).report = p.report.removeAtEnd size.toNat := by
  have hsound : Sound (p.removeAtEnd size) := by
    refine ⟨(toNat_sub_size p size).trans_lt (by have := h.size_lt; omega), h.tags, fun hzero => ?_⟩
    rw [removeAtEnd, toNat_sub_size] at hzero
    exact hleaves (by omega)
  refine ⟨hsound, ?_⟩
  rw [report_eq hsound, report_eq h, removeAtEnd]
  dsimp only
  rw [toNat_sub_size]
  apply congrArg (MarkedPacket.mk _)
  have hmarks : marks _ (p.tags.ranges.map id) = _ := marks_map_of_sublist
    (fun r _ => mark_take (Nat.sub_le p.size.toNat size.toNat)) fun b => List.take_sublist _ b
  rwa [List.map_id] at hmarks

/-- `CreateFragment` overflows no offset, and has a byte or no range over both sides. -/
def HasFragment (p : PacketTags) (start length : UInt32) : Prop :=
  p.Shiftable (-(start.toNat : ℤ)) ∧ (length.toNat = 0 → ¬ p.Spans start.toNat)

instance (p : PacketTags) (start length : UInt32) : Decidable (p.HasFragment start length) :=
  inferInstanceAs (Decidable (_ ∧ (_ → _)))

theorem createFragment_spec (h : Sound p) {start length : UInt32}
    (hinside : start.toNat + length.toNat ≤ p.size.toNat) (hfragment : p.HasFragment start length) :
    Sound (p.createFragment start length) ∧ (p.createFragment start length).report =
      p.report.createFragment start.toNat length.toNat := by
  obtain ⟨hshift, hspans⟩ := hfragment
  have ha := uint32_toInt_neg_bmod start
  have hsound : Sound (p.createFragment start length) := by
    refine ⟨?_, hshift.sound h.tags ha, fun hzero => ?_⟩
    · have := h.size_lt
      dsimp only [createFragment]
      omega
    · rintro ⟨r, hr, hneg, hpos⟩
      rw [createFragment, hshift.ranges ha] at hr
      obtain ⟨r, hmem, rfl⟩ := List.mem_map.1 hr
      dsimp only [shift] at hneg hpos
      exact hspans hzero ⟨r, hmem, by omega, by omega⟩
  refine ⟨hsound, ?_⟩
  rw [report_eq hsound, report_eq h, createFragment]
  dsimp only
  rw [hshift.ranges ha]
  refine congrArg (MarkedPacket.mk _) (marks_map_of_sublist (fun r _ => ?_) fun b =>
    (List.take_sublist _ _).trans (List.drop_sublist _ b))
  rw [mark_take (n := p.size.toNat - start.toNat) (by omega), mark_drop]
  rfl

/-- `Add` overflows no offset, and the tag is about some bytes. -/
def Taggable (p : PacketTags) (start end_ : UInt32) : Prop :=
  start.toNat < end_.toNat ∧ end_.toNat < 2 ^ 31 ∧
    Offset (start.toNat - p.tags.adjustment.toInt) ∧ Offset (end_.toNat - p.tags.adjustment.toInt)

instance (p : PacketTags) (start end_ : UInt32) : Decidable (p.Taggable start end_) :=
  inferInstanceAs (Decidable (_ ∧ _ ∧ _ ∧ _))

theorem addByteTag_spec (h : Sound p) {start end_ : UInt32} (htag : p.Taggable start end_)
    (tid : UInt16) (data : List UInt8) : Sound (p.addByteTag tid data start end_) ∧
      (p.addByteTag tid data start end_).report =
        p.report.mark tid data start.toNat end_.toNat := by
  obtain ⟨hne, hlt, hstart, hend⟩ := htag
  have hs := uint32_toInt (n := start) (by omega)
  have he := uint32_toInt hlt
  have haddable : ByteTags.Addable p.tags.adjustment.toInt
      ⟨tid, start.toInt32, end_.toInt32, data⟩ := by
    rw [ByteTags.Addable]
    dsimp only
    rw [hs, he]
    exact ⟨by omega, hstart.1, hend.2⟩
  have hranges := ByteTags.ranges_add (l := p.tags) haddable
  have hsound : Sound (p.addByteTag tid data start end_) := by
    refine ⟨h.size_lt, h.tags.add haddable, fun hzero => ?_⟩
    rintro ⟨r, hr, hneg, hpos⟩
    rw [addByteTag, hranges, List.mem_append, List.mem_singleton] at hr
    rcases hr with hr | rfl
    · exact h.spans hzero ⟨r, hr, hneg, hpos⟩
    · dsimp only [ByteTag.range] at hneg
      omega
  refine ⟨hsound, ?_⟩
  rw [report_eq hsound, report_eq h, addByteTag]
  dsimp only
  rw [hranges, marks_append]
  refine congrArg (MarkedPacket.mk _) (congrArg (marks p.size.toNat p.tags.ranges ++ ·) ?_)
  refine congrArg (fun bytes => TagMark.live [⟨tid, data, bytes⟩])
    (List.map_congr_left fun i _ => decide_eq_decide.2 ?_)
  dsimp only [ByteTag.range]
  rw [hs, he]
  omega

/-- `AddAtEnd` of another packet overflows no offset. -/
structure Appendable (p o : PacketTags) : Prop where
  room : p.RoomAtEnd o.size
  start : Offset (-o.tags.adjustment.toInt)
  adjust : Offset (o.tags.adjustment.toInt + p.size.toNat)
  ends : ∀ r ∈ o.tags.ranges, r.end_ + p.size.toNat < 2 ^ 31 ∧
    r.end_ + p.size.toNat - p.tags.adjustment.toInt < 2 ^ 31

instance (p o : PacketTags) : Decidable (p.Appendable o) :=
  decidable_of_iff (p.RoomAtEnd o.size ∧ Offset (-o.tags.adjustment.toInt) ∧
      Offset (o.tags.adjustment.toInt + p.size.toNat) ∧ ∀ r ∈ o.tags.ranges,
        r.end_ + p.size.toNat < 2 ^ 31 ∧ r.end_ + p.size.toNat - p.tags.adjustment.toInt < 2 ^ 31)
    ⟨fun ⟨hroom, hstart, hadjust, hends⟩ => ⟨hroom, hstart, hadjust, hends⟩,
      fun h => ⟨h.room, h.start, h.adjust, h.ends⟩⟩

theorem adjustment_addAtStart (l : ByteTags) (m : Int32) :
    (l.addAtStart m).adjustment = l.adjustment ∨ (l.addAtStart m).adjustment = 0 := by
  unfold ByteTags.addAtStart
  split_ifs
  · exact .inl rfl
  · exact .inr (ByteTags.foldl_add rfl _).1

theorem adjustment_addAtEnd (l : ByteTags) (m : Int32) :
    (l.addAtEnd m).adjustment = l.adjustment ∨ (l.addAtEnd m).adjustment = 0 := by
  unfold ByteTags.addAtEnd
  split_ifs
  · exact .inl rfl
  · exact .inr (ByteTags.foldl_add rfl _).1

theorem adjustment_cut (p : PacketTags) : p.cut.tags.adjustment.toInt = p.tags.adjustment.toInt ∨
    p.cut.tags.adjustment.toInt = 0 := by
  rcases adjustment_addAtEnd p.tags p.size.toInt32 with heq | heq
  · exact .inl (congrArg Int32.toInt heq)
  · exact .inr (congrArg Int32.toInt heq)

/-- The list that is added starts behind the bytes of the packet. -/
theorem appended_spec (ho : Sound o) (happ : p.Appendable o) :
    (o.appended p.size).Sound ∧
      (∀ r ∈ (o.appended p.size).ranges, p.size.toNat ≤ r.start ∧
        r.end_ - p.tags.adjustment.toInt < 2 ^ 31) ∧
      marks (p.size.toNat + o.size.toNat) (o.appended p.size).ranges =
        (o.report.addAtStart p.size.toNat).marks := by
  obtain ⟨hsize, -⟩ := happ.room
  have hn := uint32_toInt (n := p.size) (by omega)
  have hzero : Int32.toInt 0 = 0 := rfl
  have hle : -2 ^ 31 ≤ Int32.toInt 0 - o.tags.adjustment.toInt := by
    have := happ.start.1
    omega
  have hlt : Int32.toInt 0 - o.tags.adjustment.toInt < 2 ^ 31 := by
    have := happ.start.2
    omega
  obtain ⟨hsound, -⟩ := ByteTags.ranges_addAtStart ho.tags hle hlt
  have hmem (r : ByteRange) (hr : r ∈ (o.tags.addAtStart 0).ranges) : 0 ≤ r.start ∧
      r.end_ + p.size.toNat < 2 ^ 31 ∧
        r.end_ + p.size.toNat - p.tags.adjustment.toInt < 2 ^ 31 := by
    obtain ⟨hstart, r', hr', -, hend⟩ := ByteTags.of_mem_addAtStart ho.tags hle hlt hr
    have := happ.ends r' hr'
    omega
  have ha := uint32_toInt_bmod p.size
  have hadjust : Offset ((o.tags.addAtStart 0).adjustment.toInt + p.size.toNat) := by
    rcases adjustment_addAtStart o.tags 0 with heq | heq
    · rw [heq]
      exact happ.adjust
    · rw [heq, hzero]
      exact ⟨by omega, by omega⟩
  have hranges : (o.appended p.size).ranges =
      (o.tags.addAtStart 0).ranges.map (shift p.size.toNat) :=
    ByteTags.ranges_adjust ha hadjust.1 hadjust.2
  refine ⟨hsound.adjust ha hadjust.1 hadjust.2 fun r hr => ?_, ?_, ?_⟩
  · have := hmem r hr
    omega
  · rw [hranges, List.forall_mem_map]
    intro r hr
    have := hmem r hr
    dsimp only [shift]
    omega
  · rw [hranges, report_eq ho, Nat.add_comm]
    refine (marks_map_of_isLive (n := o.size.toNat) (fun r hr => ?_)
      fun t => TagMark.isLive_front).trans (congrArg (List.map _) ?_)
    · have := (hmem r hr).1
      refine mark_shift (fun i hi => ?_) ⟨rfl, rfl⟩ fun i _ => ?_
      all_goals dsimp only [shift]
      all_goals omega
    · rw [ByteTags.marks_addAtStart ho.tags hle hlt, hzero]
      conv_rhs => rw [← List.map_id o.tags.ranges]
      exact marks_congr fun r _ => mark_congr fun i _ => by omega

/-- All that the iterator reports of ranges that start in the packet. -/
theorem clip_all_of_nonneg {r : ByteRange} (hstart : 0 ≤ r.start) (hne : r.start < r.end_)
    (hend : r.end_ < 2 ^ 31) : r.clip 0 (2 ^ 31 - 1) = some r := by
  rw [clip_all hne hend, if_neg (by omega), max_eq_left hstart]

theorem ranges_addAll (h : Sound p) (ho : Sound o) (happ : p.Appendable o) :
    (p.cut.tags.addAll (o.appended p.size)).ranges =
        p.cut.tags.ranges ++ (o.appended p.size).ranges ∧
      (p.cut.tags.addAll (o.appended p.size)).Sound := by
  obtain ⟨hcut, -⟩ := cut_spec h happ.room.2
  obtain ⟨hsound, hmem, -⟩ := appended_spec ho happ
  have hitems : (o.appended p.size).beginAll.map ByteTag.range = (o.appended p.size).ranges := by
    have hbegin := ByteTags.ranges_begin hsound 0 Int32.maxValue
    rw [show Int32.toInt 0 = 0 from rfl, Int32.toInt_maxValue] at hbegin
    apply hbegin.trans
    have hall : ∀ r ∈ (o.appended p.size).ranges, r.clip 0 (2 ^ 31 - 1) = some r := fun r hr => by
      obtain ⟨-, hne, hend⟩ := hsound.inside r hr
      exact clip_all_of_nonneg (by have := (hmem r hr).1; omega) hne hend
    rw [List.filterMap_congr hall, List.filterMap_some]
  have haddable : ∀ t ∈ (o.appended p.size).beginAll,
      ByteTags.Addable p.cut.tags.adjustment.toInt t := by
    intro t ht
    have hr := List.mem_map_of_mem (f := ByteTag.range) ht
    rw [hitems] at hr
    obtain ⟨hstart, hend⟩ := hmem _ hr
    obtain ⟨-, hne, hlt⟩ := hsound.inside _ hr
    have hroom := happ.room.2
    dsimp only [ByteTag.range, Offset] at hstart hend hne hlt hroom
    have hadjustment := adjustment_cut p
    refine ⟨hne, ?_, ?_⟩
    all_goals omega
  obtain ⟨hranges, hsound'⟩ := ByteTags.foldl_add_ranges hcut.tags haddable
  exact ⟨hranges.trans (congrArg _ hitems), hsound'⟩

theorem addAtEnd_spec (h : Sound p) (ho : Sound o) (happ : p.Appendable o) :
    Sound (p.addAtEnd o) ∧ (p.addAtEnd o).report = p.report.append o.report := by
  have hsize := happ.room.1
  obtain ⟨hcut, hmarks⟩ := cut_spec h happ.room.2
  obtain ⟨-, hmem, happended⟩ := appended_spec ho happ
  obtain ⟨hranges, hall⟩ := ranges_addAll h ho happ
  have hsound : Sound (p.addAtEnd o) := by
    refine ⟨(toNat_add_size hsize).trans_lt hsize, hall, fun hzero => ?_⟩
    rw [addAtEnd, toNat_add_size hsize] at hzero
    rintro ⟨r, hr, hneg, hpos⟩
    rw [addAtEnd, hranges, List.mem_append] at hr
    rcases hr with hr | hr
    · exact hcut.spans (Nat.eq_zero_of_add_eq_zero_right hzero) ⟨r, hr, hneg, hpos⟩
    · have := (hmem r hr).1
      omega
  refine ⟨hsound, ?_⟩
  rw [report_eq hsound, report_eq h, addAtEnd]
  dsimp only
  rw [toNat_add_size hsize, hranges, marks_append, happended, hmarks]
  apply congrArg (fun ms => MarkedPacket.mk _ (ms ++ _))
  exact marks_map_of_isLive (fun r _ => mark_endAt) fun t => TagMark.isLive_back

/-- Tags that end where the packet does are reported as before. -/
theorem report_cut (h : Sound p) (hroom : Offset (p.size.toNat - p.tags.adjustment.toInt)) :
    p.cut.report = p.report := by
  obtain ⟨hcut, hmarks⟩ := cut_spec h hroom
  rw [report_eq hcut, report_eq h]
  refine congrArg (MarkedPacket.mk _) ((hmarks _).trans ?_)
  conv_rhs => rw [← List.map_id p.tags.ranges]
  refine marks_congr fun r _ => mark_congr fun i hi => ?_
  have hi : i < p.size.toNat := hi
  omega

theorem Appendable.cut (h : Sound p) (happ : p.Appendable p) : p.Appendable p.cut where
  room := happ.room
  start := by
    rcases adjustment_cut p with heq | heq
    · rw [heq]
      exact happ.start
    · rw [heq]
      decide
  adjust := by
    rcases adjustment_cut p with heq | heq
    · rw [heq]
      exact happ.adjust
    · have := h.size_lt
      rw [heq]
      exact ⟨by omega, by omega⟩
  ends := fun r hr => by
    have hsize := uint32_toInt h.size_lt
    have hroom := happ.room.2
    rw [← hsize] at hroom
    obtain ⟨-, r', hr', -, hend⟩ := ByteTags.of_mem_addAtEnd h.tags hroom.1 hroom.2 hr
    have := happ.ends r' hr'
    omega

end PacketTags

end SeanetSim
