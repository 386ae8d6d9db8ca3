import SeanetSim.Network.PacketTagRuns

/-!
# Replacing packet tags

`Replace` writes the new tag into the memory of the old one where no other list has that, and into
memory of its own elsewhere.  The two come to the same exactly when the size stays what it was
(`TagRun.replaces_iff`).
-/

namespace SeanetSim

namespace TagTree

open LinkedNodes

/-! ### Writes that stay inside -/

/-- `tag.Serialize (TagBuffer (start, end))`, where each write has `NS_ASSERT (m_current < m_end)`:
the bytes between `start` and `end` afterwards. -/
def serialize (tag : PacketTag) (buffer : List UInt8) : Option (List UInt8) :=
  if tag.data.length ≤ buffer.length then some (tag.data ++ buffer.drop tag.data.length) else none

/-- What `CreateTagData` asserts about the size. -/
def Creatable (dataSize : ℕ) : Prop := dataSize < 2 ^ 32 - 1

instance (dataSize : ℕ) : Decidable (Creatable dataSize) := Nat.decLt ..

/-- `ReplaceWriter` with the assertions of what it calls.  Any bytes may be in new memory. -/
def replaceWriterBounded (tag : PacketTag) : Writer := fun s preMerge cur prevNext => do
  let nd ← s.nodes cur
  if preMerge then
    let data ← serialize tag nd.data
    return (s.setNode cur { nd with data := data }, tag.data)
  else
    guard (Creatable tag.data.length)
    let data ← serialize tag (List.replicate tag.data.length 0)
    return (← s.copyNode ⟨tag.tid, data⟩ cur prevNext, tag.data)

/-- `Replace` with the assertions. -/
def replaceBounded (s : TagTree) (i : ℕ) (tag : PacketTag) :
    Option (TagTree × Option (List UInt8)) := do
  let (s', found) ← s.cowTraverse i tag.tid (replaceWriterBounded tag)
  if found.isSome then return (s', found)
  else
    guard (Creatable tag.data.length)
    return (s'.add i tag, none)

/-- The tag takes the place of the one of its kind, wherever that is, and no write passes the end of
a node. -/
def Replaces (s : TagTree) (i : ℕ) (tag : PacketTag) : Prop :=
  ∃ t, s.replaceBounded i tag = some (t, some tag.data) ∧
    t.peek i tag.tid = some (some tag.data) ∧
    t.tags i = (s.tags i).map (TagOp.replaceFirst tag)

/-- No write passes the end of a node, and what `Peek` reads begins with the tag. -/
def ReplacesLegibly (s : TagTree) (i : ℕ) (tag : PacketTag) : Prop :=
  ∃ t data, s.replaceBounded i tag = some (t, some tag.data) ∧
    t.peek i tag.tid = some (some data) ∧ tag.data <+: data

/-- The old tag is one of the list's own with a size that fits the new one's, or it is at or behind
the first shared node and the new one's size is asserted to be. -/
def ReplacesFitting (fits : ℕ → ℕ → Prop) (s : TagTree) (i : ℕ) (tag : PacketTag) : Prop :=
  match s.search tag.tid s.top (s.lists i) (.inl i) with
  | some (.found cur _) => ∃ nd ∈ s.nodes cur, fits nd.data.length tag.data.length
  | some (.merge ..) => Creatable tag.data.length
  | _ => False

instance {fits : ℕ → ℕ → Prop} [∀ m n, Decidable (fits m n)] (s : TagTree) (i : ℕ)
    (tag : PacketTag) : Decidable (ReplacesFitting fits s i tag) := by
  unfold ReplacesFitting
  generalize s.search tag.tid s.top (s.lists i) (.inl i) = r
  exact match r with
    | some (.found cur _) => Option.decidableExistsMem (s.nodes cur)
    | some (.merge ..) => Nat.decLt ..
    | some .absent => instDecidableFalse
    | none => instDecidableFalse

variable {s t : TagTree} {i : ℕ} {tag : PacketTag} {ts : List PacketTag} {buffer : List UInt8}

theorem serialize_eq (h : tag.data.length ≤ buffer.length) :
    serialize tag buffer = some (overwrite buffer tag.data) := by
  rw [serialize, if_pos h, overwrite, List.take_of_length_le h]

theorem serialize_new :
    serialize tag (List.replicate tag.data.length 0) = some tag.data := by
  rw [serialize, if_pos (List.length_replicate ..).ge,
    List.drop_eq_nil_of_le (List.length_replicate ..).le, List.append_nil]

theorem replaceWriterBounded_own {cur : ℕ} {nd : TagData} (hnd : s.nodes cur = some nd)
    (prevNext : TagPlace) (h : tag.data.length ≤ nd.data.length) :
    replaceWriterBounded tag s true cur prevNext = replaceWriter tag s true cur prevNext := by
  rw [replaceWriterBounded, replaceWriter, hnd]
  change (serialize tag nd.data).bind _ = _
  rw [serialize_eq h]
  rfl

theorem replaceWriterBounded_shared (cur : ℕ) (prevNext : TagPlace)
    (h : Creatable tag.data.length) :
    replaceWriterBounded tag s false cur prevNext = replaceWriter tag s false cur prevNext := by
  rw [replaceWriterBounded, replaceWriter]
  refine congrArg (s.nodes cur).bind (funext fun nd => ?_)
  change (guard (Creatable tag.data.length) : Option Unit).bind _ = _
  rw [guard, if_pos h]
  change (serialize tag _).bind _ = _
  rw [serialize_new]
  rfl

/-! ### What is shown -/

theorem Shows.tags_eq (h : Sound s) (hts : Shows s i ts) : s.tags i = some ts := by
  obtain ⟨l, hl, rfl⟩ := hts
  exact read_eq hl (h.length_le hl)

theorem Shows.peek_eq (h : Sound s) (hts : Shows s i ts) (tid : UInt16) :
    s.peek i tid = some ((ts.find? (·.tid = tid)).map (·.data)) := by
  obtain ⟨l, hl, rfl⟩ := hts
  exact peekFrom_eq tid hl (h.length_le hl)

theorem Sound.exists_shows (h : Sound s) (i : ℕ) : ∃ ts, Shows s i ts := by
  obtain ⟨l, hl⟩ := h.linked.exists_path (.inl i)
  exact ⟨l.map (·.2), l, hl, rfl⟩

theorem Does.of_keeps {u : TagTree} (hsize : u.size = s.size) (hkeeps : Keeps s u i)
    (h : Does u t i ts) : Does s t i ts :=
  ⟨h.sound, h.size.trans hsize, hkeeps.trans h.keeps, h.shows'⟩

theorem replaceWriterBounded_large {cur : ℕ} {nd : TagData} (hnd : s.nodes cur = some nd)
    (prevNext : TagPlace) (h : ¬ tag.data.length ≤ nd.data.length) :
    replaceWriterBounded tag s true cur prevNext = none := by
  rw [replaceWriterBounded, hnd]
  change (serialize tag nd.data).bind _ = _
  rw [serialize, if_neg h]
  rfl

theorem replaceWriterBounded_refused {cur : ℕ} {nd : TagData} (hnd : s.nodes cur = some nd)
    (prevNext : TagPlace) (h : ¬ Creatable tag.data.length) :
    replaceWriterBounded tag s false cur prevNext = none := by
  rw [replaceWriterBounded, hnd]
  change (guard (Creatable tag.data.length) : Option Unit).bind _ = _
  rw [guard, if_neg h]
  rfl

theorem replaceBounded_of_writer {w : Option (TagTree × List UInt8)}
    (h : s.cowTraverse i tag.tid (replaceWriterBounded tag) = w.map fun r => (r.1, some r.2)) :
    s.replaceBounded i tag = w.map fun r => (r.1, some r.2) := by
  rw [replaceBounded, h, Option.map_eq_bind]
  change (w.bind _).bind _ = _
  rw [Option.bind_assoc]
  rfl

/-- The tag is one of the list's own: what is written goes into its memory. -/
theorem replaceBounded_own (h : Sound s) (hfew : Few s) (hts : Shows s i ts) {cur : ℕ}
    {y : TagPlace} (hsearch : s.search tag.tid s.top (s.lists i) (.inl i) = some (.found cur y)) :
    ∃ nd mid rest, s.nodes cur = some nd ∧ nd.tid = tag.tid ∧ ts = mid ++ nd.tag :: rest ∧
      (∀ z ∈ mid, z.tid ≠ tag.tid) ∧
      (tag.data.length ≤ nd.data.length → ∃ t, s.replaceBounded i tag = some (t, some tag.data) ∧
        Does s t i (mid ++ ⟨tag.tid, overwrite nd.data tag.data⟩ :: rest)) ∧
      (¬ tag.data.length ≤ nd.data.length → s.replaceBounded i tag = none) := by
  obtain ⟨l, hl, rfl⟩ := hts
  have hresult : s.replaceBounded i tag =
      (replaceWriterBounded tag s true cur y).map fun r => (r.1, some r.2) := by
    apply replaceBounded_of_writer
    rw [cowTraverse, hsearch, Option.map_eq_bind]
    rfl
  have hp : s.linked.ptr (.inl i) = s.lists i := rfl
  obtain ⟨habsent, -⟩ | ⟨cur', y', mid, rest, nd, hfound, rfl, hmid, htid, hown, hy, hnode, hone,
      hrest⟩ | ⟨cur', y', mid, rest, hmerge, -⟩ :=
    search_spec h hfew tag.tid .head hp hl (h.length_le hl)
  · rw [hsearch] at habsent
    cases habsent
  · rw [hsearch] at hfound
    cases hfound
    refine ⟨nd, mid.map (·.2), rest.map (·.2), hnode, htid, by simp, List.forall_mem_map.2 hmid,
      fun hle => ?_, fun hgt => ?_⟩
    · obtain ⟨t, hwrite, ht⟩ := replaceWriter_own h hown hy hnode hone hrest htid
      refine ⟨t, ?_, ht⟩
      rw [hresult, replaceWriterBounded_own hnode y hle, hwrite]
      rfl
    · rw [hresult, replaceWriterBounded_large hnode y hgt]
      rfl
  · rw [hsearch] at hmerge
    cases hmerge

/-- The tag is at or behind the first shared node: it gets memory of its own. -/
theorem replaceBounded_shared (h : Sound s) (hfew : Few s) (hi : i < s.size) (hts : Shows s i ts)
    (hpresent : ∃ z ∈ ts, z.tid = tag.tid) {cur : ℕ} {y : TagPlace}
    (hsearch : s.search tag.tid s.top (s.lists i) (.inl i) = some (.merge cur y)) :
    (Creatable tag.data.length → ∃ t, s.replaceBounded i tag = some (t, some tag.data) ∧
      Does s t i (TagOp.replaceFirst tag ts)) ∧
    (¬ Creatable tag.data.length → s.replaceBounded i tag = none) := by
  obtain ⟨l, hl, rfl⟩ := hts
  obtain ⟨-, hnone⟩ | ⟨cur', y', mid, rest, nd, -, hfound, -⟩ | ⟨u, cur', y', pre, rest, nd,
      hcow, hu, hsize, hkeeps, hown, hy, hnode, htid, hrest, hshared, hlist, hpre⟩ :=
    cowTraverse_spec h hfew hi tag.tid hl (replaceWriterBounded tag)
  · obtain ⟨z, hz, hztid⟩ := hpresent
    obtain ⟨y, hy, rfl⟩ := List.mem_map.1 hz
    exact absurd hztid (hnone y hy)
  · rw [hsearch] at hfound
    cases hfound
  · have hresult := replaceBounded_of_writer hcow
    refine ⟨fun hcreatable => ?_, fun hrefused => ?_⟩
    · obtain ⟨t, hwrite, ht⟩ :=
        replaceWriter_shared hu (hsize ▸ hi) hown hy hnode hshared hrest tag
      refine ⟨t, ?_, ?_⟩
      · rw [hresult, replaceWriterBounded_shared cur' y' hcreatable, hwrite]
        rfl
      · rw [hlist, replaceFirst_eq (List.forall_mem_map.2 hpre) htid]
        exact ht.of_keeps hsize hkeeps
    · rw [hresult, replaceWriterBounded_refused hnode y' hrefused]
      rfl

/-! ### The two ways compared -/

theorem length_overwrite {old data : List UInt8} (h : data.length ≤ old.length) :
    (overwrite old data).length = old.length := by
  rw [overwrite, List.length_append, List.length_take, List.length_drop]
  omega

theorem overwrite_of_length_eq {old data : List UInt8} (h : old.length = data.length) :
    overwrite old data = data := by
  rw [overwrite, h, List.take_length, ← h, List.drop_length, List.append_nil]

theorem prefix_overwrite {old data : List UInt8} (h : data.length ≤ old.length) :
    data <+: overwrite old data := by
  rw [overwrite, List.take_of_length_le h]
  exact List.prefix_append _ _

theorem find?_replaced {mid rest : List PacketTag} (hmid : ∀ z ∈ mid, z.tid ≠ tag.tid)
    (data : List UInt8) : ((mid ++ ⟨tag.tid, data⟩ :: rest).find? (·.tid = tag.tid)).map (·.data) =
      some data := by
  have htid : (PacketTag.mk tag.tid data).tid = tag.tid := rfl
  rw [find?_eq hmid htid]
  rfl

/-- The first tag of a kind. -/
theorem exists_first {tid : UInt16} (h : ∃ z ∈ ts, z.tid = tid) :
    ∃ mid old rest, ts = mid ++ old :: rest ∧ old.tid = tid ∧ ∀ z ∈ mid, z.tid ≠ tid := by
  obtain ⟨z, hz, hztid⟩ := h
  have hsome : (ts.find? (·.tid = tid)).isSome := by
    rw [List.find?_isSome]
    exact ⟨z, hz, decide_eq_true hztid⟩
  obtain ⟨old, hfind⟩ := Option.isSome_iff_exists.1 hsome
  obtain ⟨hold, mid, rest, rfl, hmid⟩ := List.find?_eq_some_iff_append.1 hfind
  exact ⟨mid, old, rest, rfl, of_decide_eq_true hold, by simpa using hmid⟩

theorem replaces_iff_of_own (h : Sound s) (hfew : Few s) (hts : Shows s i ts) {cur : ℕ}
    {y : TagPlace} (hsearch : s.search tag.tid s.top (s.lists i) (.inl i) = some (.found cur y)) :
    (s.Replaces i tag ↔ s.ReplacesFitting (· = ·) i tag) ∧
      (s.ReplacesLegibly i tag ↔ s.ReplacesFitting (· ≥ ·) i tag) := by
  obtain ⟨nd, mid, rest, hnd, htid, rfl, hmid, hfits, hlarge⟩ :=
    replaceBounded_own h hfew hts hsearch
  have hfitting (fits : ℕ → ℕ → Prop) :
      s.ReplacesFitting fits i tag ↔ fits nd.data.length tag.data.length := by
    rw [ReplacesFitting, hsearch]
    simp [hnd]
  rw [hfitting, hfitting]
  by_cases hle : tag.data.length ≤ nd.data.length
  · obtain ⟨t, ht, hdoes⟩ := hfits hle
    have hpeek := hdoes.shows'.peek_eq hdoes.sound tag.tid
    rw [find?_replaced hmid] at hpeek
    refine ⟨⟨?_, fun heq => ⟨t, ht, ?_, ?_⟩⟩, fun _ => hle, fun _ => ⟨t, _, ht, hpeek, ?_⟩⟩
    · rintro ⟨t', ht', hpeek', -⟩
      rw [ht] at ht'
      cases ht'
      rw [hpeek, Option.some_inj, Option.some_inj] at hpeek'
      rw [← length_overwrite hle, hpeek']
    · rw [hpeek, overwrite_of_length_eq heq]
    · rw [hdoes.shows'.tags_eq hdoes.sound, hts.tags_eq h, overwrite_of_length_eq heq]
      exact congrArg some (replaceFirst_eq hmid htid).symm
    · exact prefix_overwrite hle
  · have hnone := hlarge hle
    refine ⟨⟨?_, fun heq => absurd heq.ge hle⟩, ?_, fun hge => absurd hge hle⟩
    · rintro ⟨t, ht, -⟩
      rw [hnone] at ht
      cases ht
    · rintro ⟨t, data, ht, -⟩
      rw [hnone] at ht
      cases ht

theorem replaces_iff_of_shared (h : Sound s) (hfew : Few s) (hi : i < s.size) (hts : Shows s i ts)
    (hpresent : ∃ z ∈ ts, z.tid = tag.tid) {cur : ℕ} {y : TagPlace}
    (hsearch : s.search tag.tid s.top (s.lists i) (.inl i) = some (.merge cur y)) :
    (s.Replaces i tag ↔ s.ReplacesFitting (· = ·) i tag) ∧
      (s.ReplacesLegibly i tag ↔ s.ReplacesFitting (· ≥ ·) i tag) := by
  obtain ⟨hcreated, hrefused⟩ := replaceBounded_shared h hfew hi hts hpresent hsearch
  have hfitting (fits : ℕ → ℕ → Prop) :
      s.ReplacesFitting fits i tag ↔ Creatable tag.data.length := by
    rw [ReplacesFitting, hsearch]
  rw [hfitting, hfitting]
  by_cases hsize : Creatable tag.data.length
  · obtain ⟨t, ht, hdoes⟩ := hcreated hsize
    have hpeek := hdoes.shows'.peek_eq hdoes.sound tag.tid
    obtain ⟨mid, old, rest, rfl, hold, hmid⟩ := exists_first hpresent
    rw [replaceFirst_eq hmid hold, find?_replaced hmid] at hpeek
    have htags : t.tags i = (s.tags i).map (TagOp.replaceFirst tag) := by
      rw [hdoes.shows'.tags_eq hdoes.sound, hts.tags_eq h]
      rfl
    exact ⟨⟨fun _ => hsize, fun _ => ⟨t, ht, hpeek, htags⟩⟩, fun _ => hsize,
      fun _ => ⟨t, _, ht, hpeek, List.prefix_refl _⟩⟩
  · have hnone := hrefused hsize
    refine ⟨⟨?_, fun hcreatable => absurd hcreatable hsize⟩, ?_,
      fun hcreatable => absurd hcreatable hsize⟩
    · rintro ⟨t, ht, -⟩
      rw [hnone] at ht
      cases ht
    · rintro ⟨t, data, ht, -⟩
      rw [hnone] at ht
      cases ht

theorem replaces_iff_of_shows (h : Sound s) (hfew : Few s) (hi : i < s.size) (hts : Shows s i ts)
    (hpresent : ∃ z ∈ ts, z.tid = tag.tid) : (s.Replaces i tag ↔ s.ReplacesFitting (· = ·) i tag) ∧
      (s.ReplacesLegibly i tag ↔ s.ReplacesFitting (· ≥ ·) i tag) := by
  have hshown := hts
  obtain ⟨l, hl, rfl⟩ := hts
  have hp : s.linked.ptr (.inl i) = s.lists i := rfl
  rcases search_spec h hfew tag.tid .head hp hl (h.length_le hl) with
      ⟨-, hnone⟩ | ⟨cur, y, -, -, -, hfound, -⟩ | ⟨cur, y, -, -, hmerge, -⟩
  · obtain ⟨z, hz, hztid⟩ := hpresent
    obtain ⟨y, hy, rfl⟩ := List.mem_map.1 hz
    exact absurd hztid (hnone y hy)
  · exact replaces_iff_of_own h hfew hshown hfound
  · exact replaces_iff_of_shared h hfew hi hshown hpresent hmerge

/-! ### Runs -/

/-- The lists with what they show. -/
theorem Sound.exists_mirrored (h : Sound s) : ∃ own, TagRun.Mirrored ⟨s, own⟩ := by
  choose shown hshown using h.exists_shows
  refine ⟨(List.range s.size).map shown, h, by simp, fun i ts hts => ?_⟩
  rw [List.getElem?_map] at hts
  obtain ⟨j, hj, rfl⟩ := Option.map_eq_some_iff.1 hts
  obtain ⟨hlt, rfl⟩ := List.getElem?_eq_some_iff.1 hj
  rw [List.getElem_range]
  exact hshown i

theorem Sound.exec (h : Sound s) (hfew : Few s) {op : TagOp} (hop : op.Valid s.size)
    {r : Option (List UInt8)} (hexec : op.exec s = some (t, r)) : Sound t := by
  obtain ⟨own, hown⟩ := h.exists_mirrored
  by_cases hresizes : TagRun.Resizes ⟨s, own⟩ op
  · cases op with
    | replace i tag =>
      obtain ⟨ts, hts⟩ := h.exists_shows i
      obtain ⟨u, hu, ts', hdoes, -⟩ := replace_spec h hfew hop hts tag
      change s.replace i tag = _ at hexec
      rw [hu] at hexec
      cases hexec
      exact hdoes.sound
    | create | copy | assign | add | remove | removeAll => exact hresizes.elim
  · obtain ⟨u, hu, hmirrored⟩ := hown.exec hfew hop
    rw [hexec] at hu
    cases hu
    exact (hmirrored hresizes).sound

end TagTree

namespace TagRun

open TagTree

variable {m : TagRun} {trace : List (TagRun × TagOp)}

theorem sound_of_run (h : Run Step init trace m) (hfew : ∀ p ∈ trace, Few p.1.tree) :
    Sound m.tree := by
  have hstep (m : TagRun) (op : TagOp) (m' : TagRun) (hm : Sound m.tree) (hp : Few m.tree)
      (hst : Step m op m') : Sound m'.tree := by
    obtain ⟨hop, ⟨r, hr⟩, -⟩ := hst
    exact hm.exec hp hop hr
  exact (h.invariant_along (I := fun m => Sound m.tree)
    mirrored_init.sound hstep hfew).2

/-- A tag takes the place of the one of its kind exactly where that is shared or of the same size,
and it can be read exactly where that is shared or not smaller. -/
theorem replaces_iff (h : Run Step init trace m) (hfew : ∀ p ∈ trace, Few p.1.tree)
    (hlast : Few m.tree) {i : ℕ} (hi : i < m.tree.size) (tag : PacketTag) {old : List UInt8}
    (hpresent : m.tree.peek i tag.tid = some (some old)) :
    (m.tree.Replaces i tag ↔ m.tree.ReplacesFitting (· = ·) i tag) ∧
      (m.tree.ReplacesLegibly i tag ↔ m.tree.ReplacesFitting (· ≥ ·) i tag) := by
  have hsound := sound_of_run h hfew
  obtain ⟨ts, hts⟩ := hsound.exists_shows i
  apply TagTree.replaces_iff_of_shows hsound hlast hi hts
  rw [hts.peek_eq hsound, Option.some_inj] at hpresent
  obtain ⟨z, hz, -⟩ := Option.map_eq_some_iff.1 hpresent
  have htid := List.find?_some hz
  exact ⟨z, List.mem_of_find?_eq_some hz, of_decide_eq_true htid⟩

/-- A tag that a copy shares is replaced by a longer one. -/
theorem replaces_iff_copied : ∃ (trace : List (TagRun × TagOp)) (m : TagRun),
    Run Step init trace m ∧ m.own = [[⟨1, [7]⟩], [⟨1, [7]⟩]] ∧ m.tree.Replaces 1 ⟨1, [8, 9]⟩ := by
  have hany : (Run.runOf next? init [.create, .add 0 ⟨1, [7]⟩, .copy 0]).any (fun r => decide
      (r.2.own = [[⟨1, [7]⟩], [⟨1, [7]⟩]] ∧
        (∀ p ∈ r.1, p.1.tree.size + p.1.tree.top < 2 ^ 32) ∧
        r.2.tree.size + r.2.tree.top < 2 ^ 32 ∧ 1 < r.2.tree.size ∧
        r.2.tree.peek 1 1 = some (some [7]) ∧
        r.2.tree.ReplacesFitting (· = ·) 1 ⟨1, [8, 9]⟩)) = true := by decide +kernel
  obtain ⟨⟨trace, m⟩, hrun, hr⟩ := (Option.any_eq_true _ _).1 hany
  obtain ⟨hown, hsmall, hlast, hi, hpeek, hfitting⟩ := of_decide_eq_true hr
  have hrun' := Run.of_runOf (fun _ _ _ => step_of_next?) hrun
  have hiff := replaces_iff hrun' (fun p hp => few_of_small (hsmall p hp)) (few_of_small hlast) hi
    ⟨1, [8, 9]⟩ hpeek
  exact ⟨trace, m, hrun', hown, hiff.1.2 hfitting⟩

/-- A tag that no copy shares is replaced by a longer one. -/
theorem not_replaces_longer : ¬ ∀ (trace : List (TagRun × TagOp)) (m : TagRun),
    Run Step init trace m → ∀ i < m.tree.size, ∀ (tag : PacketTag) (old : List UInt8),
      m.tree.peek i tag.tid = some (some old) → m.tree.Replaces i tag := by
  intro hall
  have hany : (Run.runOf next? init [.create, .add 0 ⟨1, [7]⟩]).any (fun r => decide
      (0 < r.2.tree.size ∧ r.2.tree.peek 0 1 = some (some [7]) ∧
        (r.2.tree.replaceBounded 0 ⟨1, [8, 9]⟩).isNone)) = true := by decide +kernel
  obtain ⟨⟨trace, m⟩, hrun, hr⟩ := (Option.any_eq_true _ _).1 hany
  obtain ⟨hi, hpeek, hnone⟩ := of_decide_eq_true hr
  obtain ⟨t, ht, -⟩ := hall trace m (Run.of_runOf (fun _ _ _ => step_of_next?) hrun) 0 hi
    ⟨1, [8, 9]⟩ [7] hpeek
  rw [ht] at hnone
  exact absurd hnone Bool.false_ne_true

end TagRun

end SeanetSim
