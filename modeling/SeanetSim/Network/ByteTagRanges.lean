import Mathlib.Algebra.Order.Group.Int
import SeanetSim.Network.ByteTagList

/-!
# The ranges of byte tags

The offsets of a `ByteTagList` as integers, where no computation overflows an `int32_t`: what each
operation does to the ranges of the tags in the packet.
-/

namespace SeanetSim

/-! ## Offsets that do not overflow -/

section Offsets

variable {a b : Int32}

theorem int32_toInt_add {x y : ℤ} (ha : a.toInt = x) (hb : b.toInt = y.bmod (2 ^ 32))
    (hle : -2 ^ 31 ≤ x + y) (hlt : x + y < 2 ^ 31) : (a + b).toInt = x + y := by
  rw [Int32.toInt_add, ha, hb, Int.add_bmod_bmod]
  exact Int.bmod_eq_of_le (by omega) (by omega)

theorem int32_toInt_bmod (a : Int32) : a.toInt = a.toInt.bmod (2 ^ 32) := by
  have hle := a.le_toInt
  have hlt := a.toInt_lt
  exact (Int.bmod_eq_of_le (by omega) (by omega)).symm

theorem int32_toInt_sub (hle : -2 ^ 31 ≤ a.toInt - b.toInt) (hlt : a.toInt - b.toInt < 2 ^ 31) :
    (a - b).toInt = a.toInt - b.toInt := by
  rw [Int32.toInt_sub]
  exact Int.bmod_eq_of_le (by omega) (by omega)

theorem int32_toInt_max (a b : Int32) : (max a b).toInt = max a.toInt b.toInt := by
  rw [ByteTags.int32_max_def]
  split_ifs with h
  all_goals rw [Int32.le_iff_toInt_le] at h
  all_goals omega

theorem int32_toInt_min (a b : Int32) : (min a b).toInt = min a.toInt b.toInt := by
  rw [ByteTags.int32_min_def]
  split_ifs with h
  all_goals rw [Int32.le_iff_toInt_le] at h
  all_goals omega

theorem uint32_toInt_bmod (n : UInt32) : n.toInt32.toInt = (n.toNat : ℤ).bmod (2 ^ 32) :=
  BitVec.toInt_eq_toNat_bmod _

theorem uint32_toInt_neg_bmod (n : UInt32) :
    (-n).toInt32.toInt = (-(n.toNat : ℤ)).bmod (2 ^ 32) := by
  apply BitVec.toInt_neg.trans
  rw [BitVec.toInt_eq_toNat_bmod, Int.bmod_neg_bmod]
  rfl

theorem uint32_toInt {n : UInt32} (hn : n.toNat < 2 ^ 31) : n.toInt32.toInt = n.toNat := by
  rw [uint32_toInt_bmod]
  exact Int.bmod_eq_of_le (by omega) (by omega)

end Offsets

/-- A tag with the offsets in the packet of the bytes that it is about. -/
structure ByteRange where
  tid : UInt16
  data : List UInt8
  start : ℤ
  end_ : ℤ

namespace ByteRange

def shift (k : ℤ) (r : ByteRange) : ByteRange :=
  { r with start := r.start + k, end_ := r.end_ + k }

def clip (a b : ℤ) (r : ByteRange) : Option ByteRange :=
  if b ≤ r.start ∨ r.end_ ≤ a then none
  else some { r with start := max r.start a, end_ := min r.end_ b }

end ByteRange

/-- The range of a tag with the offsets that it has itself. -/
def ByteTag.range (t : ByteTag) : ByteRange := ⟨t.tid, t.data, t.start.toInt, t.end_.toInt⟩

namespace ByteTags

variable {l : ByteTags} {t : ByteTag} {ts : List ByteTag} {a b k : Int32} {r : ByteRange}

def ranges (l : ByteTags) : List ByteRange :=
  l.tags.map fun t => t.range.shift l.adjustment.toInt

/-- No offset in the packet overflows, and no tag is about no bytes. -/
structure Sound (l : ByteTags) : Prop where
  inside : ∀ r ∈ l.ranges, -2 ^ 31 ≤ r.start ∧ r.start < r.end_ ∧ r.end_ < 2 ^ 31
  minStart : ∀ t ∈ l.tags, l.minStart ≤ t.start
  maxEnd : ∀ t ∈ l.tags, t.end_ ≤ l.maxEnd

theorem sound_empty : Sound empty where
  inside := fun _ hr => absurd hr List.not_mem_nil
  minStart := fun _ ht => absurd ht List.not_mem_nil
  maxEnd := fun _ ht => absurd ht List.not_mem_nil

theorem Sound.inside_of_mem (h : Sound l) (ht : t ∈ l.tags) :
    -2 ^ 31 ≤ t.start.toInt + l.adjustment.toInt ∧
      t.start.toInt + l.adjustment.toInt < t.end_.toInt + l.adjustment.toInt ∧
        t.end_.toInt + l.adjustment.toInt < 2 ^ 31 :=
  h.inside _ (List.mem_map_of_mem ht)

/-! ## The iterator -/

theorem range_item (hinside : -2 ^ 31 ≤ t.start.toInt + k.toInt ∧
    t.start.toInt + k.toInt < t.end_.toInt + k.toInt ∧ t.end_.toInt + k.toInt < 2 ^ 31) :
    (t.item a b k).map ByteTag.range = (t.range.shift k.toInt).clip a.toInt b.toInt := by
  have hstart := int32_toInt_add (a := t.start) rfl (int32_toInt_bmod k) hinside.1 (by omega)
  have hend := int32_toInt_add (a := t.end_) rfl (int32_toInt_bmod k) (by omega) hinside.2.2
  unfold ByteTag.item ByteRange.clip
  dsimp only
  simp only [Int32.le_iff_toInt_le, hstart, hend]
  change _ = if b.toInt ≤ t.start.toInt + k.toInt ∨ t.end_.toInt + k.toInt ≤ a.toInt then _ else _
  split_ifs
  · rfl
  · rw [Option.map_some, ByteTag.range, int32_toInt_max, int32_toInt_min, hstart, hend]
    rfl

theorem ranges_begin (h : Sound l) (a b : Int32) :
    (l.begin_ a b).map ByteTag.range = l.ranges.filterMap (ByteRange.clip a.toInt b.toInt) := by
  have hall : ∀ t ∈ l.tags, (t.item a b l.adjustment).map ByteTag.range =
      (t.range.shift l.adjustment.toInt).clip a.toInt b.toInt :=
    fun t ht => range_item (h.inside_of_mem ht)
  rw [begin_, ranges, List.map_filterMap, List.filterMap_map]
  exact List.filterMap_congr hall

/-! ## `Adjust` -/

theorem ranges_adjust {x : ℤ} (hk : k.toInt = x.bmod (2 ^ 32))
    (hle : -2 ^ 31 ≤ l.adjustment.toInt + x) (hlt : l.adjustment.toInt + x < 2 ^ 31) :
    (l.adjust k).ranges = l.ranges.map (ByteRange.shift x) := by
  have hadjust : (l.adjustment + k).toInt = l.adjustment.toInt + x := int32_toInt_add rfl hk hle hlt
  rw [ranges, ranges, List.map_map]
  refine List.map_congr_left fun t _ => ?_
  change (t.range.shift (l.adjustment + k).toInt) = _
  rw [hadjust, Function.comp_apply, ByteRange.shift, ByteRange.shift, ByteRange.shift]
  congr 1
  all_goals dsimp only
  all_goals omega

theorem Sound.adjust {x : ℤ} (h : Sound l) (hk : k.toInt = x.bmod (2 ^ 32))
    (hle : -2 ^ 31 ≤ l.adjustment.toInt + x) (hlt : l.adjustment.toInt + x < 2 ^ 31)
    (hinside : ∀ r ∈ l.ranges, -2 ^ 31 ≤ r.start + x ∧ r.end_ + x < 2 ^ 31) :
    Sound (l.adjust k) where
  inside := by
    rw [ranges_adjust hk hle hlt]
    intro r hr
    obtain ⟨r, hmem, rfl⟩ := List.mem_map.1 hr
    have := hinside r hmem
    have := h.inside r hmem
    simp only [ByteRange.shift]
    omega
  minStart := h.minStart
  maxEnd := h.maxEnd

/-! ## `Add` -/

/-- The tag is about some bytes, and its offsets fit relative to the adjustment. -/
def Addable (adjustment : ℤ) (t : ByteTag) : Prop :=
  t.start.toInt < t.end_.toInt ∧ -2 ^ 31 ≤ t.start.toInt - adjustment ∧
    t.end_.toInt - adjustment < 2 ^ 31

theorem ranges_add (ht : Addable l.adjustment.toInt t) :
    (l.add t).ranges = l.ranges ++ [t.range] := by
  obtain ⟨hlt, hstart, hend⟩ := ht
  have hs : (t.start - l.adjustment).toInt = t.start.toInt - l.adjustment.toInt :=
    int32_toInt_sub hstart (by omega)
  have he : (t.end_ - l.adjustment).toInt = t.end_.toInt - l.adjustment.toInt :=
    int32_toInt_sub (by omega) hend
  rw [ranges, add, List.map_append, List.map_singleton, ranges]
  apply congrArg (l.ranges ++ [·])
  rw [ByteTag.range, ByteTag.range, ByteRange.shift]
  dsimp only
  rw [hs, he, sub_add_cancel, sub_add_cancel]

theorem Sound.add (h : Sound l) (ht : Addable l.adjustment.toInt t) : Sound (l.add t) where
  inside := by
    rw [ranges_add ht, List.forall_mem_append, List.forall_mem_singleton]
    exact ⟨h.inside, t.start.le_toInt, ht.1, t.end_.toInt_lt⟩
  minStart := by
    have hmin : (if t.start - l.adjustment < l.minStart then t.start - l.adjustment
        else l.minStart) ≤ l.minStart ∧ (if t.start - l.adjustment < l.minStart then
          t.start - l.adjustment else l.minStart) ≤ t.start - l.adjustment := by
      split_ifs with hlt
      · exact ⟨Int32.le_of_lt hlt, Int32.le_refl _⟩
      · exact ⟨Int32.le_refl _, Int32.not_lt.1 hlt⟩
    rw [ByteTags.add, List.forall_mem_append, List.forall_mem_singleton]
    exact ⟨fun u hu => Int32.le_trans hmin.1 (h.minStart u hu), hmin.2⟩
  maxEnd := by
    have hmax : l.maxEnd ≤ (if l.maxEnd < t.end_ - l.adjustment then t.end_ - l.adjustment
        else l.maxEnd) ∧ t.end_ - l.adjustment ≤ (if l.maxEnd < t.end_ - l.adjustment then
          t.end_ - l.adjustment else l.maxEnd) := by
      split_ifs with hlt
      · exact ⟨Int32.le_of_lt hlt, Int32.le_refl _⟩
      · exact ⟨Int32.le_refl _, Int32.not_lt.1 hlt⟩
    rw [ByteTags.add, List.forall_mem_append, List.forall_mem_singleton]
    exact ⟨fun u hu => Int32.le_trans (h.maxEnd u hu) hmax.1, hmax.2⟩

theorem foldl_add_ranges (h : Sound l) (hts : ∀ t ∈ ts, Addable l.adjustment.toInt t) :
    (ts.foldl add l).ranges = l.ranges ++ ts.map ByteTag.range ∧ Sound (ts.foldl add l) := by
  induction ts generalizing l with
  | nil => exact ⟨(List.append_nil _).symm, h⟩
  | cons t ts ih =>
    obtain ⟨ht, hts⟩ := List.forall_mem_cons.1 hts
    obtain ⟨hranges, hsound⟩ := ih (h.add ht) hts
    refine ⟨?_, hsound⟩
    rw [List.foldl_cons, hranges, ranges_add ht, List.append_assoc]
    rfl

/-- The list that is built of tags. -/
theorem rebuilt_ranges (ts : List ByteTag) (hts : ∀ t ∈ ts, t.start.toInt < t.end_.toInt) :
    (ts.foldl add empty).ranges = ts.map ByteTag.range ∧ Sound (ts.foldl add empty) :=
  foldl_add_ranges sound_empty fun t ht => by
    have hle := t.start.le_toInt
    have hlt := t.end_.toInt_lt
    exact ⟨hts t ht, by rwa [show empty.adjustment.toInt = 0 from rfl, sub_zero],
      by rwa [show empty.adjustment.toInt = 0 from rfl, sub_zero]⟩

end ByteTags

/-! ## `AddAtEnd` and `AddAtStart` -/

namespace ByteRange

def endBefore (m : ℤ) (r : ByteRange) : Option ByteRange :=
  if m ≤ r.start then none else some { r with end_ := min r.end_ m }

def startFrom (m : ℤ) (r : ByteRange) : Option ByteRange :=
  if r.end_ ≤ m then none else some { r with start := max r.start m }

/-- What the iterator over all bytes reports, ended at an offset. -/
def cutEnd (m : ℤ) (r : ByteRange) : Option ByteRange :=
  (r.clip 0 (2 ^ 31 - 1)).bind (endBefore m)

/-- What the iterator over all bytes reports, started at an offset. -/
def cutStart (m : ℤ) (r : ByteRange) : Option ByteRange :=
  (r.clip 0 (2 ^ 31 - 1)).bind (startFrom m)

variable {r : ByteRange} {m : ℤ}

theorem clip_all (hne : r.start < r.end_) (hr : r.end_ < 2 ^ 31) : r.clip 0 (2 ^ 31 - 1) =
    if r.end_ ≤ 0 then none else some { r with start := max r.start 0 } := by
  unfold clip
  by_cases hend : r.end_ ≤ 0
  · rw [if_pos hend, if_pos (.inr hend)]
  · rw [if_neg hend, if_neg (by omega), min_eq_left (by omega)]

theorem cutEnd_eq (hne : r.start < r.end_) (hr : r.end_ < 2 ^ 31) : r.cutEnd m =
    if max r.start 0 < min r.end_ m then some ⟨r.tid, r.data, max r.start 0, min r.end_ m⟩
      else none := by
  rw [cutEnd, clip_all hne hr]
  by_cases hend : r.end_ ≤ 0
  · rw [if_pos hend, if_neg (by omega)]
    rfl
  · rw [if_neg hend, Option.bind_some, endBefore]
    dsimp only
    by_cases hm : m ≤ max r.start 0
    · rw [if_pos hm, if_neg (by omega)]
    · rw [if_neg hm, if_pos (by omega)]

theorem cutStart_eq (hne : r.start < r.end_) (hr : r.end_ < 2 ^ 31) : r.cutStart m =
    if max (max r.start 0) m < r.end_ then some ⟨r.tid, r.data, max (max r.start 0) m, r.end_⟩
      else none := by
  rw [cutStart, clip_all hne hr]
  by_cases hend : r.end_ ≤ 0
  · rw [if_pos hend, if_neg (by omega)]
    rfl
  · rw [if_neg hend, Option.bind_some, startFrom]
    dsimp only
    by_cases hm : r.end_ ≤ m
    · rw [if_pos hm, if_neg (by omega)]
    · rw [if_neg hm, if_pos (by omega)]

end ByteRange

namespace ByteTags

variable {l : ByteTags} {t : ByteTag} {ts : List ByteTag} {m : Int32}

theorem range_clipEnd (t : ByteTag) (m : Int32) : (clipEnd m t).map ByteTag.range =
    t.range.endBefore m.toInt := by
  have hend : (if m < t.end_ then m else t.end_).toInt = min t.end_.toInt m.toInt := by
    split_ifs with hlt
    all_goals rw [Int32.lt_iff_toInt_lt] at hlt
    all_goals omega
  unfold clipEnd ByteRange.endBefore
  by_cases hle : m ≤ t.start
  · rw [if_pos hle, if_pos (show m.toInt ≤ t.range.start from Int32.le_iff_toInt_le.1 hle)]
    rfl
  · rw [if_neg hle, if_neg (show ¬ m.toInt ≤ t.range.start from
      fun h => hle (Int32.le_iff_toInt_le.2 h))]
    exact congrArg (fun e => some (ByteRange.mk t.tid t.data t.start.toInt e)) hend

theorem range_clipStart (t : ByteTag) (m : Int32) : (clipStart m t).map ByteTag.range =
    t.range.startFrom m.toInt := by
  have hstart : (if t.start < m then m else t.start).toInt = max t.start.toInt m.toInt := by
    split_ifs with hlt
    all_goals rw [Int32.lt_iff_toInt_lt] at hlt
    all_goals omega
  unfold clipStart ByteRange.startFrom
  by_cases hle : t.end_ ≤ m
  · rw [if_pos hle, if_pos (show t.range.end_ ≤ m.toInt from Int32.le_iff_toInt_le.1 hle)]
    rfl
  · rw [if_neg hle, if_neg (show ¬ t.range.end_ ≤ m.toInt from
      fun h => hle (Int32.le_iff_toInt_le.2 h))]
    exact congrArg (fun s => some (ByteRange.mk t.tid t.data s t.end_.toInt)) hstart

/-- A list built of some of the items of another one. -/
theorem rebuilt_of_items (h : Sound l) {clip : ByteTag → Option ByteTag}
    {cut : ByteRange → Option ByteRange}
    (hcut : ∀ t, (clip t).map ByteTag.range = cut t.range)
    (hne : ∀ r ∈ l.ranges, ∀ r' ∈ (r.clip 0 (2 ^ 31 - 1)).bind cut, r'.start < r'.end_) :
    ((l.beginAll.filterMap clip).foldl add empty).ranges =
        l.ranges.filterMap (fun r => (r.clip 0 (2 ^ 31 - 1)).bind cut) ∧
      Sound ((l.beginAll.filterMap clip).foldl add empty) := by
  have hitems : (l.beginAll.filterMap clip).map ByteTag.range =
      l.ranges.filterMap (fun r => (r.clip 0 (2 ^ 31 - 1)).bind cut) := by
    have hbegin := ranges_begin h 0 Int32.maxValue
    rw [show Int32.toInt 0 = 0 from rfl, Int32.toInt_maxValue] at hbegin
    rw [← List.filterMap_filterMap, ← hbegin, List.filterMap_map, List.map_filterMap]
    exact List.filterMap_congr fun t _ => hcut t
  obtain ⟨hranges, hsound⟩ := rebuilt_ranges (l.beginAll.filterMap clip) fun t ht => by
    have hmem := List.mem_map_of_mem (f := ByteTag.range) ht
    rw [hitems, List.mem_filterMap] at hmem
    obtain ⟨r, hr, hr'⟩ := hmem
    exact hne r hr t.range hr'
  exact ⟨hranges.trans hitems, hsound⟩

theorem ranges_addAtEnd (h : Sound l) (hle : -2 ^ 31 ≤ m.toInt - l.adjustment.toInt)
    (hlt : m.toInt - l.adjustment.toInt < 2 ^ 31) :
    Sound (l.addAtEnd m) ∧ ((l.addAtEnd m = l ∧ ∀ r ∈ l.ranges, r.end_ ≤ m.toInt) ∨
      (l.addAtEnd m).adjustment = 0 ∧
        (l.addAtEnd m).ranges = l.ranges.filterMap (ByteRange.cutEnd m.toInt)) := by
  have hsub := int32_toInt_sub hle hlt
  unfold addAtEnd
  split_ifs with hclip
  · refine ⟨h, .inl ⟨rfl, fun r hr => ?_⟩⟩
    obtain ⟨t, ht, rfl⟩ := List.mem_map.1 hr
    have hend := Int32.le_trans (h.maxEnd t ht) hclip
    rw [Int32.le_iff_toInt_le, hsub] at hend
    change t.end_.toInt + l.adjustment.toInt ≤ m.toInt
    omega
  · obtain ⟨hranges, hsound⟩ := rebuilt_of_items h (fun t => range_clipEnd t m)
      fun r hr r' hr' => by
        obtain ⟨-, hne, hend⟩ := h.inside r hr
        have hcut := (ByteRange.cutEnd_eq hne hend).symm.trans hr'
        split_ifs at hcut with hlt
        exact Option.some_inj.1 hcut ▸ hlt
    exact ⟨hsound, .inr ⟨(foldl_add rfl _).1, hranges⟩⟩

theorem ranges_addAtStart (h : Sound l) (hle : -2 ^ 31 ≤ m.toInt - l.adjustment.toInt)
    (hlt : m.toInt - l.adjustment.toInt < 2 ^ 31) :
    Sound (l.addAtStart m) ∧ ((l.addAtStart m = l ∧ ∀ r ∈ l.ranges, m.toInt ≤ r.start) ∨
      (l.addAtStart m).adjustment = 0 ∧
        (l.addAtStart m).ranges = l.ranges.filterMap (ByteRange.cutStart m.toInt)) := by
  have hsub := int32_toInt_sub hle hlt
  unfold addAtStart
  split_ifs with hclip
  · refine ⟨h, .inl ⟨rfl, fun r hr => ?_⟩⟩
    obtain ⟨t, ht, rfl⟩ := List.mem_map.1 hr
    have hstart := Int32.le_trans hclip (h.minStart t ht)
    rw [Int32.le_iff_toInt_le, hsub] at hstart
    change m.toInt ≤ t.start.toInt + l.adjustment.toInt
    omega
  · obtain ⟨hranges, hsound⟩ := rebuilt_of_items h (fun t => range_clipStart t m)
      fun r hr r' hr' => by
        obtain ⟨-, hne, hend⟩ := h.inside r hr
        have hcut := (ByteRange.cutStart_eq hne hend).symm.trans hr'
        split_ifs at hcut with hlt
        exact Option.some_inj.1 hcut ▸ hlt
    exact ⟨hsound, .inr ⟨(foldl_add rfl _).1, hranges⟩⟩

end ByteTags

end SeanetSim
