import SeanetSim.Network.ByteTagListData

/-!
# Lists of byte tags that share memory

Each list of byte tags does what it would do with its tags for itself (`ByteTags`), whatever lists
share its block: an operation on one of them changes what no other one reports.
-/

namespace SeanetSim

open SharedBlocks

/-! ## Tags in a block -/

section Bytes

variable {ts : List ByteTag} {t : ByteTag} {n m : ℕ}

def spaceOf (ts : List ByteTag) : ℕ := (ts.map ByteTag.space).sum

@[simp] theorem spaceOf_cons : spaceOf (t :: ts) = t.space + spaceOf ts := List.sum_cons

@[simp] theorem spaceOf_append {us : List ByteTag} :
    spaceOf (ts ++ us) = spaceOf ts + spaceOf us := by
  rw [spaceOf, List.map_append, List.sum_append]
  rfl

@[simp] theorem tagsUpTo_zero : tagsUpTo 0 ts = [] := by
  cases ts <;> rfl

theorem tagsUpTo_cons (hn : 0 < n) : tagsUpTo n (t :: ts) = t :: tagsUpTo (n - t.space) ts := by
  obtain ⟨n, rfl⟩ := Nat.exists_eq_add_of_lt hn
  simp only [Nat.zero_add]
  rfl

theorem space_pos (t : ByteTag) : 0 < t.space :=
  Nat.lt_of_lt_of_le (by decide) (Nat.le_add_right 16 _)

theorem tagsUpTo_spaceOf (ts : List ByteTag) : tagsUpTo (spaceOf ts) ts = ts := by
  induction ts with
  | nil => rfl
  | cons t ts ih =>
    have hpos := space_pos t
    rw [spaceOf_cons, tagsUpTo_cons (by omega), Nat.add_sub_cancel_left, ih]

/-- What is behind the tags of a longer list does not matter. -/
theorem tagsUpTo_tagsUpTo_append (us : List ByteTag) (hnm : n ≤ m)
    (hn : spaceOf (tagsUpTo n ts) = n) (hm : spaceOf (tagsUpTo m ts) = m) :
    tagsUpTo n (tagsUpTo m ts ++ us) = tagsUpTo n ts := by
  induction ts generalizing n m with
  | nil =>
    obtain rfl : 0 = n := hn
    rw [tagsUpTo_zero, tagsUpTo_zero]
  | cons t ts ih =>
    rcases Nat.eq_zero_or_pos n with rfl | hpos
    · rw [tagsUpTo_zero, tagsUpTo_zero]
    · rw [tagsUpTo_cons hpos, spaceOf_cons] at hn
      rw [tagsUpTo_cons (hpos.trans_le hnm), spaceOf_cons] at hm
      rw [tagsUpTo_cons (hpos.trans_le hnm), List.cons_append, tagsUpTo_cons hpos,
        tagsUpTo_cons hpos, ih (by omega) (by omega) (by omega)]

end Bytes

/-! ## The lists of packets -/

/-- A packet as far as its byte tags go. -/
structure TaggedPacket where
  size : UInt32
  byteTags : ByteTagList
deriving DecidableEq, Repr

/-- A packet with the tags of its list. -/
structure PacketTags where
  size : UInt32
  tags : ByteTags
deriving DecidableEq, Repr

namespace ByteTagList

/-- The tags that a list has. -/
def view (v : Option ByteTagListData) (l : ByteTagList) : ByteTags :=
  ⟨l.minStart, l.maxEnd, l.adjustment, (v.map fun d => tagsUpTo l.used.toNat d.tags).getD []⟩

@[simp] theorem view_minStart {v : Option ByteTagListData} {l : ByteTagList} :
    (l.view v).minStart = l.minStart := rfl

@[simp] theorem view_maxEnd {v : Option ByteTagListData} {l : ByteTagList} :
    (l.view v).maxEnd = l.maxEnd := rfl

@[simp] theorem view_adjustment {v : Option ByteTagListData} {l : ByteTagList} :
    (l.view v).adjustment = l.adjustment := rfl

/-- The list is in the block, and no further than its dirty count. -/
structure Inside (d : ByteTagListData) (l : ByteTagList) : Prop where
  used : spaceOf (tagsUpTo l.used.toNat d.tags) = l.used.toNat
  le_dirty : l.used ≤ d.dirty
  dirty_le : d.dirty ≤ d.size

def Fits : Option ByteTagListData → ByteTagList → Prop
  | none, l => l.used = 0
  | some d, l => Inside d l

theorem Fits.used_eq {v : Option ByteTagListData} {l : ByteTagList} (h : Fits v l) :
    spaceOf (view v l).tags = l.used.toNat := by
  cases v with
  | none =>
    have hused : l.used = 0 := h
    rw [hused]
    rfl
  | some d => exact h.used

end ByteTagList

namespace TaggedPacket

def data (p : TaggedPacket) : Option ℕ := p.byteTags.data

def view (v : Option ByteTagListData) (p : TaggedPacket) : PacketTags :=
  ⟨p.size, p.byteTags.view v⟩

end TaggedPacket

namespace ByteTagHeap

variable {h h' : ByteTagHeap} {slots : List (Option TaggedPacket)} {p q : TaggedPacket}
  {l : ByteTagList} {i o : ℕ} {n : UInt32} {t : ByteTag} {ts : List ByteTag}

/-- How the lists of the packets are in the blocks. -/
abbrev Held (h : ByteTagHeap) (slots : List (Option TaggedPacket)) : Prop :=
  SharedBlocks.Held TaggedPacket.data (fun v (_ : Unit) p => p.byteTags.Fits v) h.blocks slots

/-- The packets with the tags of their lists. -/
def values (h : ByteTagHeap) (slots : List (Option TaggedPacket)) : List (Option PacketTags) :=
  views TaggedPacket.data TaggedPacket.view h.blocks slots

/-- The number of packets that there are. -/
def alive (slots : List (Option TaggedPacket)) : ℕ := slots.countP (·.isSome)

theorem holders_le (slots : List (Option TaggedPacket)) (a : ℕ) :
    holders TaggedPacket.data slots a ≤ alive slots := by
  refine List.countP_mono_left fun o _ ho => ?_
  cases o with
  | none => exact ho
  | some p => rfl

theorem holders_lt (hfew : alive slots < 2 ^ 32) (a : ℕ) :
    holders TaggedPacket.data slots a < 2 ^ 32 :=
  (holders_le slots a).trans_lt hfew

theorem alive_set (hp : slots[i]? = some (some p)) (q : TaggedPacket) :
    alive (slots.set i (some q)) = alive slots := by
  obtain ⟨hi, hp⟩ := List.getElem?_eq_some_iff.1 hp
  have hle := List.boole_getElem_le_countP (p := Option.isSome) hi
  rw [alive, List.countP_set hi, hp]
  rw [hp] at hle
  exact Nat.sub_add_cancel hle

theorem alive_push (slots : List (Option TaggedPacket)) (q : TaggedPacket) :
    alive (slots ++ [some q]) = alive slots + 1 := by
  rw [alive, List.countP_append]
  rfl

theorem values_getElem (hp : slots[i]? = some (some p)) :
    (values h slots)[i]? = some (some (p.view (h.blocks.value p.data))) := by
  rw [values, views, List.getElem?_map, hp]
  rfl

theorem allocateSize_spec (size : UInt32) (free : List UInt32) :
    size ≤ (allocateSize size free).1 := by
  induction free with
  | nil => exact UInt32.le_refl _
  | cons s rest ih =>
    unfold allocateSize
    split_ifs with hle
    · exact hle
    · exact ih

theorem allocate_spec (h : ByteTagHeap) (size : UInt32) (ts : List ByteTag) :
    ∃ s, size ≤ s ∧ (h.allocate size ts).blocks = h.blocks.alloc ⟨s, size, ts⟩ :=
  ⟨_, allocateSize_spec size h.freeList, rfl⟩

theorem blocks_deallocate (h : ByteTagHeap) (data : Option ℕ) :
    (h.deallocate data).map ByteTagHeap.blocks = h.blocks.release data := by
  cases data with
  | none => rfl
  | some a =>
    rw [deallocate, SharedBlocks.release]
    cases hd : h.blocks.block a with
    | none => rfl
    | some d => rfl

theorem deallocate_spec {data : Option ℕ} {m : SharedBlocks ByteTagListData}
    (hm : h.blocks.release data = some m) : ∃ h', h.deallocate data = some h' ∧ h'.blocks = m :=
  Option.map_eq_some_iff.1 ((blocks_deallocate h data).trans hm)

theorem share_spec {data : Option ℕ} {m : SharedBlocks ByteTagListData}
    (hm : h.blocks.share data = some m) : h.share data = some { h with blocks := m } := by
  rw [share, hm]
  rfl

/-- The iterator reports what it would report of the tags of the list. -/
theorem begin_eq (hheld : Held h slots) (hp : slots[i]? = some (some p))
    (offsetStart offsetEnd : Int32) : p.byteTags.begin_ h offsetStart offsetEnd =
      some ((p.byteTags.view (h.blocks.value p.data)).begin_ offsetStart offsetEnd) := by
  cases hdata : p.byteTags.data with
  | none =>
    rw [ByteTagList.begin_, hdata, TaggedPacket.data, hdata]
    rfl
  | some a =>
    obtain ⟨d, hd⟩ := Option.ne_none_iff_exists'.1 (hheld.there i p a hp hdata)
    rw [ByteTagList.begin_, hdata, TaggedPacket.data, hdata, value_some hd]
    simp only [hd]
    rfl

theorem fits_of_held (hheld : Held h slots) (hp : slots[i]? = some (some p)) :
    p.byteTags.Fits (h.blocks.value p.data) := by
  obtain ⟨note, hnote⟩ := hheld.fits
  exact hnote i p hp

/-- The list of the packet `i` becomes `l`; the others stay as they are. -/
def Does (h : ByteTagHeap) (slots : List (Option TaggedPacket)) (i : ℕ) (p : TaggedPacket)
    (r : Option (ByteTagHeap × ByteTagList)) (l : ByteTags) : Prop :=
  ∃ h' b, r = some (h', b) ∧ Held h' (slots.set i (some { p with byteTags := b })) ∧
    values h' (slots.set i (some { p with byteTags := b })) =
      (values h slots).set i (some ⟨p.size, l⟩)

theorem size_add (hspace : l.used.toNat + t.space < 2 ^ 32) :
    (l.used + UInt32.ofNat t.data.length + 16).toNat = l.used.toNat + t.space := by
  rw [ByteTag.space] at hspace ⊢
  rw [UInt32.toNat_add, UInt32.toNat_add, UInt32.toNat_ofNat']
  change ((l.used.toNat + t.data.length % 2 ^ 32) % 2 ^ 32 + 16) % 2 ^ 32 = _
  omega

/-- A list with one more tag, behind those that it has had. -/
theorem added_spec {v : Option ByteTagListData} (hfits : l.Fits v)
    (hn : n.toNat = l.used.toNat + t.space) {s : UInt32} (hs : n ≤ s) (a : ℕ) :
    (l.added (t.relative l.adjustment) n a).Fits
        (some ⟨s, n, (l.view v).tags ++ [t.relative l.adjustment]⟩) ∧
      (l.added (t.relative l.adjustment) n a).view
        (some ⟨s, n, (l.view v).tags ++ [t.relative l.adjustment]⟩) = (l.view v).add t := by
  have hsum : n.toNat = spaceOf ((l.view v).tags ++ [t.relative l.adjustment]) := by
    rw [spaceOf_append, hfits.used_eq, hn]
    rfl
  have hall : tagsUpTo n.toNat ((l.view v).tags ++ [t.relative l.adjustment]) =
      (l.view v).tags ++ [t.relative l.adjustment] := by
    rw [hsum, tagsUpTo_spaceOf]
  refine ⟨⟨?_, UInt32.le_refl _, hs⟩, ?_⟩
  · change spaceOf (tagsUpTo n.toNat _) = n.toNat
    rw [hall, hsum]
  · change (⟨_, _, _, tagsUpTo n.toNat _⟩ : ByteTags) = _
    rw [hall]
    rfl

/-- `Add` to a new block. -/
theorem add_moved (hheld : Held h slots) (hfew : alive slots < 2 ^ 32)
    (hp : slots[i]? = some (some p))
    (hn : n.toNat = p.byteTags.used.toNat + t.space) :
    ∃ h', (h.allocate n ((p.byteTags.view (h.blocks.value p.data)).tags ++
        [t.relative p.byteTags.adjustment])).deallocate p.data = some h' ∧
      Does h slots i p
        (some (h', p.byteTags.added (t.relative p.byteTags.adjustment) n h.blocks.top))
        ((p.byteTags.view (h.blocks.value p.data)).add t) := by
  obtain ⟨s, hs, hblocks⟩ := allocate_spec h n
    ((p.byteTags.view (h.blocks.value p.data)).tags ++ [t.relative p.byteTags.adjustment])
  obtain ⟨hnew, hview⟩ := added_spec (fits_of_held hheld hp) hn hs h.blocks.top
  obtain ⟨m', hrelease, hheld', hviews⟩ := hheld.move TaggedPacket.view (holders_lt hfew) hp
    (k := { p with
      byteTags := p.byteTags.added (t.relative p.byteTags.adjustment) n h.blocks.top }) rfl
    (z := ()) hnew
  obtain ⟨h', hdeallocate, rfl⟩ := deallocate_spec (h := h.allocate n
    ((p.byteTags.view (h.blocks.value p.data)).tags ++ [t.relative p.byteTags.adjustment]))
    (hblocks ▸ hrelease)
  refine ⟨h', hdeallocate, h', _, rfl, hheld', ?_⟩
  rw [values, hviews, values, TaggedPacket.view, hview]

/-- `Add` behind the tags of the list, where no other list has been. -/
theorem add_inPlace (hheld : Held h slots) (hfew : alive slots < 2 ^ 32)
    (hp : slots[i]? = some (some p))
    (hn : n.toNat = p.byteTags.used.toNat + t.space) {a : ℕ} {d : Counted ByteTagListData}
    (hdata : p.data = some a) (hd : h.blocks.block a = some d) (hsize : n ≤ d.value.size)
    (hdirty : d.count ≠ 1 → d.value.dirty = p.byteTags.used) :
    Does h slots i p
      (some ({ h with blocks := h.blocks.write a ⟨d.value.size, n,
          (p.byteTags.view (some d.value)).tags ++ [t.relative p.byteTags.adjustment]⟩ },
        p.byteTags.added (t.relative p.byteTags.adjustment) n a))
      ((p.byteTags.view (some d.value)).add t) := by
  have hall (j : ℕ) (k : TaggedPacket) (hk : slots[j]? = some (some k)) (hka : k.data = some a) :
      k.byteTags.Fits (some d.value) := by
    have hk := fits_of_held hheld hk
    rwa [hka, value_some hd] at hk
  have hfits := hall i p hp hdata
  obtain ⟨hnew, hview⟩ := added_spec hfits hn hsize a
  have hgrow : p.byteTags.used ≤ n := by
    rw [UInt32.le_iff_toNat_le]
    omega
  obtain ⟨hheld', hviews⟩ := hheld.write TaggedPacket.view hp hdata
    (k := { p with byteTags := p.byteTags.added (t.relative p.byteTags.adjustment) n a }) rfl hd
    (y := ()) (z := ()) hall hnew fun hmany k hk => by
      -- the others end where this list has ended, or before
      have hcount := hheld.count_toNat (holders_lt hfew a) hd
      have hdirty := hdirty fun hone => hmany (by rw [← hcount, hone]; rfl)
      have hle : k.byteTags.used ≤ p.byteTags.used := hdirty ▸ hk.le_dirty
      have hsame := tagsUpTo_tagsUpTo_append [t.relative p.byteTags.adjustment]
        (UInt32.le_iff_toNat_le.1 hle) hk.used hfits.used
      refine ⟨⟨?_, UInt32.le_trans hle hgrow, hsize⟩, ?_⟩
      · exact (congrArg spaceOf hsame).trans hk.used
      · exact congrArg (fun tags => PacketTags.mk k.size
          ⟨k.byteTags.minStart, k.byteTags.maxEnd, k.byteTags.adjustment, tags⟩) hsame
  refine ⟨_, _, rfl, hheld', hviews.trans ?_⟩
  rw [TaggedPacket.view, hview]
  rfl

theorem add_does (hheld : Held h slots) (hfew : alive slots < 2 ^ 32)
    (hp : slots[i]? = some (some p))
    (hspace : p.byteTags.used.toNat + t.space < 2 ^ 32) :
    Does h slots i p (p.byteTags.add h t)
      ((p.byteTags.view (h.blocks.value p.data)).add t) := by
  have hn := size_add hspace
  obtain ⟨h', hdeallocate, hmoved⟩ := add_moved hheld hfew hp hn
  unfold ByteTagList.add
  dsimp only
  cases hdata : p.byteTags.data with
  | none =>
    have hnone : p.data = none := hdata
    rw [hnone] at hdeallocate hmoved ⊢
    cases hdeallocate
    exact hmoved
  | some a =>
    obtain ⟨d, hd⟩ := Option.ne_none_iff_exists'.1 (hheld.there i p a hp hdata)
    have hsome : p.data = some a := hdata
    rw [hsome, value_some hd] at hdeallocate hmoved
    rw [hsome, value_some hd]
    simp only [hd, Option.bind_eq_bind, Option.bind_some]
    split_ifs with hcopy
    · change Does h slots i p (((h.allocate _ ((p.byteTags.view (some d.value)).tags ++
        [t.relative p.byteTags.adjustment])).deallocate (some a)).bind _) _
      rw [hdeallocate]
      exact hmoved
    · rw [not_or, UInt32.not_lt, not_and_not_right] at hcopy
      exact add_inPlace hheld hfew hp hn hsome hd hcopy.1 hcopy.2

theorem set_of_getElem? {α : Type*} {l : List α} {a : α} (h : l[i]? = some a) : l.set i a = l := by
  obtain ⟨hi, rfl⟩ := List.getElem?_eq_some_iff.1 h
  exact List.set_getElem_self hi

theorem Does.refl (hheld : Held h slots) (hp : slots[i]? = some (some p)) :
    Does h slots i p (some (h, p.byteTags)) (p.byteTags.view (h.blocks.value p.data)) := by
  have hset : slots.set i (some p) = slots := set_of_getElem? hp
  have hvalue : (values h slots).set i (some (p.view (h.blocks.value p.data))) = values h slots :=
    set_of_getElem? (values_getElem hp)
  exact ⟨h, p.byteTags, rfl, hset.symm ▸ hheld, (congrArg (values h) hset).trans hvalue.symm⟩

theorem view_eq_of_values {v : PacketTags} (hi : i < slots.length)
    (hvalues : values h' (slots.set i (some q)) = (values h slots).set i (some v)) :
    q.view (h'.blocks.value q.data) = v := by
  have hview := values_getElem (h := h') (i := i) (List.getElem?_set_self hi (a := some q))
  rw [hvalues, List.getElem?_set_self (by simpa [values, views] using hi)] at hview
  exact (Option.some_inj.1 (Option.some_inj.1 hview)).symm

/-- One operation after the other on the list of a packet. -/
theorem Does.bind {r : Option (ByteTagHeap × ByteTagList)} {l l' : ByteTags}
    {f : ByteTagHeap × ByteTagList → Option (ByteTagHeap × ByteTagList)}
    (hd : Does h slots i p r l) (hp : slots[i]? = some (some p)) (hfew : alive slots < 2 ^ 32)
    (hf : ∀ h' (q : TaggedPacket), Held h' (slots.set i (some q)) →
      alive (slots.set i (some q)) < 2 ^ 32 →
      (slots.set i (some q))[i]? = some (some q) → q.byteTags.view (h'.blocks.value q.data) = l →
      q.size = p.size → Does h' (slots.set i (some q)) i q (f (h', q.byteTags)) l') :
    Does h slots i p (r.bind f) l' := by
  obtain ⟨h', b, rfl, hheld', hvalues⟩ := hd
  have hi := (List.getElem?_eq_some_iff.1 hp).1
  have hq : (slots.set i (some { p with byteTags := b }))[i]? =
      some (some { p with byteTags := b }) := List.getElem?_set_self hi
  have hview := view_eq_of_values hi hvalues
  obtain ⟨h'', b', hf, hheld'', hvalues'⟩ := hf h' _ hheld' ((alive_set hp _).trans_lt hfew) hq
    (congrArg PacketTags.tags hview) rfl
  rw [List.set_set] at hheld'' hvalues'
  rw [hvalues, List.set_set] at hvalues'
  exact ⟨h'', b', hf, hheld'', hvalues'⟩

theorem addEach_does (ts : List ByteTag) (hheld : Held h slots) (hfew : alive slots < 2 ^ 32)
    (hp : slots[i]? = some (some p))
    (hspace : p.byteTags.used.toNat + spaceOf ts < 2 ^ 32) :
    Does h slots i p (p.byteTags.addEach h ts)
      (ts.foldl ByteTags.add (p.byteTags.view (h.blocks.value p.data))) := by
  induction ts generalizing h slots p with
  | nil => exact .refl hheld hp
  | cons t ts ih =>
    rw [spaceOf_cons] at hspace
    have hused := (fits_of_held hheld hp).used_eq
    refine (add_does hheld hfew hp (by omega)).bind hp hfew
      fun h' q hheld' hfew' hq hview hsize => ?_
    have hused' := (fits_of_held hheld' hq).used_eq
    rw [hview] at hused'
    have hadd : spaceOf ((p.byteTags.view (h.blocks.value p.data)).add t).tags =
        p.byteTags.used.toNat + t.space := by
      rw [← hused]
      exact spaceOf_append
    rw [List.foldl_cons, ← hview]
    exact ih hheld' hfew' hq (by omega)

theorem spaceOf_filterMap_le {f : ByteTag → Option ByteTag}
    (hf : ∀ t u, f t = some u → u.data = t.data) (ts : List ByteTag) :
    spaceOf (ts.filterMap f) ≤ spaceOf ts := by
  induction ts with
  | nil => exact Nat.le_refl _
  | cons t ts ih =>
    rw [List.filterMap_cons, spaceOf_cons]
    cases hu : f t with
    | none => exact ih.trans (Nat.le_add_left _ _)
    | some u =>
      dsimp only
      rw [spaceOf_cons, ByteTag.space, hf t u hu, ByteTag.space]
      omega

theorem item_data {offsetStart offsetEnd adjustment : Int32} {u : ByteTag}
    (hu : t.item offsetStart offsetEnd adjustment = some u) : u.data = t.data := by
  unfold ByteTag.item at hu
  dsimp only at hu
  split_ifs at hu
  cases hu
  rfl

theorem spaceOf_begin_le (l : ByteTags) (offsetStart offsetEnd : Int32) :
    spaceOf (l.begin_ offsetStart offsetEnd) ≤ spaceOf l.tags :=
  spaceOf_filterMap_le (fun _ _ => item_data) _

theorem getElem?_push_of_getElem? {α : Type*} {xs : List α} {x y : α} (hx : xs[i]? = some x) :
    (xs ++ [y])[i]? = some x := by
  rw [List.getElem?_append_left (List.getElem?_eq_some_iff.1 hx).1, hx]

theorem set_append_of_lt {α : Type*} {xs : List α} {x y : α} (hi : i < xs.length) :
    (xs ++ [y]).set i x = xs.set i x ++ [y] :=
  List.set_append_left _ _ hi

/-- The last variable is destroyed. -/
theorem destroy_last {v : PacketTags} {vs : List (Option PacketTags)}
    (hheld : Held h (slots ++ [some q])) (hfew : alive slots + 1 < 2 ^ 32)
    (hvalues : values h (slots ++ [some q]) = vs ++ [some v]) :
    ∃ h', h.deallocate q.data = some h' ∧ Held h' slots ∧ values h' slots = vs := by
  have hlength : vs.length = slots.length := by
    have := congrArg List.length hvalues
    simpa [values, views] using this.symm
  obtain ⟨m', hrelease, -, hheld', hviews, -⟩ := hheld.release TaggedPacket.view
    (holders_lt ((alive_push slots q).trans_lt hfew)) (Held.getElem?_push slots (some q))
  obtain ⟨h', hdeallocate, rfl⟩ := deallocate_spec hrelease
  have happend : views TaggedPacket.data TaggedPacket.view h'.blocks (slots ++ [none]) =
      values h' slots ++ [none] := List.map_append
  rw [Held.set_push] at hheld' hviews
  rw [happend, show views _ _ h.blocks _ = _ from hvalues, ← hlength, Held.set_push] at hviews
  exact ⟨h', hdeallocate, hheld'.pop, List.append_cancel_right hviews⟩

/-- What is in a new variable takes the place of what is in another one. -/
theorem replace_does {h₁ : ByteTagHeap} {list : ByteTagList} {l : ByteTags}
    (hfew : alive slots + 1 < 2 ^ 32)
    (hp : slots[i]? = some (some p)) (hheld : Held h₁ (slots ++ [some ⟨0, list⟩]))
    (hvalues : values h₁ (slots ++ [some ⟨0, list⟩]) = values h slots ++ [some ⟨0, l⟩]) :
    Does h slots i p (do
      let h ← h₁.deallocate p.byteTags.data
      let h ← h.share list.data
      let h ← h.deallocate list.data
      some (h, list)) l := by
  have hi := (List.getElem?_eq_some_iff.1 hp).1
  have hlist : (slots ++ [some ⟨0, list⟩])[slots.length]? = some (some ⟨0, list⟩) :=
    Held.getElem?_push slots _
  have hview := values_getElem (h := h₁) hlist
  have hlength : (values h slots).length = slots.length := List.length_map _
  rw [hvalues, ← hlength, Held.getElem?_push, Option.some_inj, Option.some_inj] at hview
  have hview : list.view (h₁.blocks.value list.data) = l := (congrArg PacketTags.tags hview).symm
  -- the packet gets the block of the local list
  obtain ⟨m₁, m₂, hrelease, hshare, hheld₂, hviews₂⟩ := hheld.reassign TaggedPacket.view
    (holders_lt ((alive_push slots _).trans_lt hfew)) (getElem?_push_of_getElem? hp) hlist
    (Nat.ne_of_gt hi) (l := { p with byteTags := list }) rfl fun _ hfits => hfits
  obtain ⟨h₂, hdeallocate₂, rfl⟩ := deallocate_spec hrelease
  have hshare : h₂.share list.data = some { h₂ with blocks := m₂ } := share_spec hshare
  rw [show views _ _ h₁.blocks _ = _ from hvalues, set_append_of_lt hi,
    set_append_of_lt (hlength.symm ▸ hi)] at hviews₂
  rw [set_append_of_lt hi] at hheld₂
  -- and the local list gives it up
  obtain ⟨h₃, hdeallocate₃, hheld₃, hvalues₃⟩ := destroy_last (h := { h₂ with blocks := m₂ })
    hheld₂ ((congrArg (· + 1) (alive_set hp _)).trans_lt hfew) hviews₂
  refine ⟨h₃, list, ?_, hheld₃, hvalues₃.trans ?_⟩
  · change (h₁.deallocate p.data).bind _ = _
    rw [hdeallocate₂, Option.bind_some]
    change (h₂.share list.data).bind _ = _
    rw [hshare, Option.bind_some]
    change (ByteTagHeap.deallocate _ list.data).bind _ = _
    rw [show ByteTagHeap.deallocate _ list.data = _ from hdeallocate₃, Option.bind_some]
  · exact congrArg (fun l => (values h slots).set i (some ⟨p.size, l⟩)) hview

/-- The local list takes the place of the list of the packet. -/
theorem rebuild_does (hheld : Held h slots) (hfew : alive slots + 1 < 2 ^ 32)
    (hp : slots[i]? = some (some p))
    (hspace : spaceOf ts < 2 ^ 32) :
    Does h slots i p (p.byteTags.rebuild h ts) (ts.foldl ByteTags.add .empty) := by
  obtain ⟨hpush, hviews⟩ := hheld.push_null TaggedPacket.view (g := ⟨0, .empty⟩) rfl
    fun _ => show ByteTagList.Fits none ByteTagList.empty from rfl
  obtain ⟨h₁, list, hadd, hheld₁, hvalues₁⟩ :=
    addEach_does ts hpush ((alive_push slots _).trans_lt hfew)
      (Held.getElem?_push slots _) (by
        change 0 + spaceOf ts < _
        omega)
  rw [Held.set_push] at hheld₁ hvalues₁
  have hlength : (values h slots).length = slots.length := List.length_map _
  have hvalues : values h (slots ++ [some ⟨0, .empty⟩]) =
      values h slots ++ [some ⟨0, .empty⟩] := hviews
  rw [hvalues, ← hlength, Held.set_push] at hvalues₁
  unfold ByteTagList.rebuild
  rw [hadd]
  exact replace_does hfew hp hheld₁ hvalues₁

theorem used_lt (hheld : Held h slots) (hp : slots[i]? = some (some p)) :
    spaceOf (p.byteTags.view (h.blocks.value p.data)).tags < 2 ^ 32 :=
  (fits_of_held hheld hp).used_eq.trans_lt (UInt32.toNat_lt _)

theorem clipEnd_data {m : Int32} {u : ByteTag} (hu : ByteTags.clipEnd m t = some u) :
    u.data = t.data := by
  unfold ByteTags.clipEnd at hu
  split_ifs at hu
  all_goals exact (Option.some_inj.1 hu).symm ▸ rfl

theorem clipStart_data {m : Int32} {u : ByteTag} (hu : ByteTags.clipStart m t = some u) :
    u.data = t.data := by
  unfold ByteTags.clipStart at hu
  split_ifs at hu
  all_goals exact (Option.some_inj.1 hu).symm ▸ rfl

theorem addAtEnd_does (hheld : Held h slots) (hfew : alive slots + 1 < 2 ^ 32)
    (hp : slots[i]? = some (some p))
    (appendOffset : Int32) : Does h slots i p (p.byteTags.addAtEnd h appendOffset)
      ((p.byteTags.view (h.blocks.value p.data)).addAtEnd appendOffset) := by
  unfold ByteTagList.addAtEnd ByteTags.addAtEnd
  rw [ByteTagList.view_maxEnd, ByteTagList.view_adjustment]
  by_cases hclip : p.byteTags.maxEnd ≤ appendOffset - p.byteTags.adjustment
  · rw [if_pos hclip, if_pos hclip]
    exact .refl hheld hp
  · rw [if_neg hclip, if_neg hclip, begin_eq hheld hp]
    apply rebuild_does hheld hfew hp
    exact ((spaceOf_filterMap_le (fun _ _ => clipEnd_data) _).trans
      (spaceOf_begin_le _ _ _)).trans_lt (used_lt hheld hp)

theorem addAtStart_does (hheld : Held h slots) (hfew : alive slots + 1 < 2 ^ 32)
    (hp : slots[i]? = some (some p))
    (prependOffset : Int32) : Does h slots i p (p.byteTags.addAtStart h prependOffset)
      ((p.byteTags.view (h.blocks.value p.data)).addAtStart prependOffset) := by
  unfold ByteTagList.addAtStart ByteTags.addAtStart
  rw [ByteTagList.view_minStart, ByteTagList.view_adjustment]
  by_cases hclip : prependOffset - p.byteTags.adjustment ≤ p.byteTags.minStart
  · rw [if_pos hclip, if_pos hclip]
    exact .refl hheld hp
  · rw [if_neg hclip, if_neg hclip, begin_eq hheld hp]
    apply rebuild_does hheld hfew hp
    exact ((spaceOf_filterMap_le (fun _ _ => clipStart_data) _).trans
      (spaceOf_begin_le _ _ _)).trans_lt (used_lt hheld hp)

end ByteTagHeap

end SeanetSim
