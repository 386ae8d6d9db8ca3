import SeanetSim.Lib.Run
import SeanetSim.Network.PacketTagNodes

/-!
# Operations on packet tag lists

Each operation does to the tags of its list what it would do if the list had them to itself, over
all runs and for any way the nodes come to be shared (`TagRun.kept_of_tagRun`).
-/

namespace SeanetSim

namespace TagTree

open LinkedNodes

variable {s t : TagTree} {a b : ℕ} {nd : TagData} {x : TagPlace} {p : Option ℕ} {i : ℕ}
  {pre rest : List (ℕ × PacketTag)} {q : Option ℕ} {tag : PacketTag}

/-! ### The operations -/

/-- The tags that are found in a list. -/
def Shows (s : TagTree) (i : ℕ) (ts : List PacketTag) : Prop :=
  ∃ l, s.linked.Path (s.lists i) l none ∧ l.map (·.2) = ts

theorem Keeps.shows (h : Keeps s t i) {j : ℕ} (hj : j ≠ i) {ts : List PacketTag}
    (hts : Shows s j ts) : Shows t j ts := by
  obtain ⟨l, hl, hlist⟩ := hts
  exact ⟨l, h j hj l hl, hlist⟩

/-- What an operation on the list `i` has to do. -/
structure Does (s t : TagTree) (i : ℕ) (ts : List PacketTag) : Prop where
  sound : Sound t
  size : t.size = s.size
  keeps : Keeps s t i
  shows' : Shows t i ts

theorem eraseP_eq {mid rest : List PacketTag} {tag : PacketTag} {tid : UInt16}
    (hmid : ∀ z ∈ mid, z.tid ≠ tid) (htag : tag.tid = tid) :
    (mid ++ tag :: rest).eraseP (·.tid = tid) = mid ++ rest := by
  rw [List.eraseP_append_right _ (by simpa using hmid),
    List.eraseP_cons_of_pos (by simpa using htag)]

theorem find?_eq {mid rest : List PacketTag} {tag : PacketTag} {tid : UInt16}
    (hmid : ∀ z ∈ mid, z.tid ≠ tid) (htag : tag.tid = tid) :
    (mid ++ tag :: rest).find? (·.tid = tid) = some tag := by
  rw [List.find?_append, List.find?_eq_none.2 (by simpa using hmid), Option.none_or,
    List.find?_cons_of_pos (by simpa using htag)]

theorem replaceFirst_eq {mid rest : List PacketTag} {tag new : PacketTag}
    (hmid : ∀ z ∈ mid, z.tid ≠ new.tid) (htag : tag.tid = new.tid) :
    TagOp.replaceFirst new (mid ++ tag :: rest) = mid ++ new :: rest := by
  induction mid with
  | nil => exact if_pos htag
  | cons t mid ih =>
    obtain ⟨ht, hmid⟩ := List.forall_mem_cons.1 hmid
    exact (if_neg ht).trans (congrArg (t :: ·) (ih hmid))

theorem add_spec (h : Sound s) (hi : i < s.size) {ts : List PacketTag} (hts : Shows s i ts)
    (tag : PacketTag) : Does s (s.add i tag) i (tag :: ts) := by
  obtain ⟨l, hl, rfl⟩ := hts
  have hlinked : (s.add i tag).linked =
      (s.linked.setNode s.top (some (s.lists i, tag))).setPtr (.inl i) (some s.top) := by
    rw [add, linked_setPtr, linked_createTagData]
    rfl
  have hcount : (s.add i tag).countOf = Function.update s.countOf s.top (some 1) := by
    rw [add, countOf_setPtr, countOf_createTagData]
  obtain ⟨hsound, hkeeps, hown, hptr, hrest⟩ := h.insert hi .head
    (fun _ hb => absurd hb List.not_mem_nil) hl hlinked rfl rfl
    (by rw [hcount, Function.update_self])
    (fun b hb c hc => by
      rw [hcount, Function.update_of_ne hb] at hc
      exact ⟨c, hc, rfl⟩)
    fun b hb hne => absurd hb hne
  refine ⟨hsound, rfl, hkeeps, _, hown.path.append (hptr ▸ hrest), rfl⟩

theorem removeWriter_own (h : Sound s) (hi : i < s.size) (hown : s.linked.Own i x pre)
    (hx : s.linked.ptr x = some a) (ha : s.nodes a = some nd) (hone : s.pointers a = 1)
    (hrest : s.linked.Path nd.next rest none) :
    ∃ t, removeWriter s true a x = some (t, nd.data) ∧
      Does s t i (pre.map (·.2) ++ rest.map (·.2)) := by
  have hlinked : ((s.setPtr x nd.next).free a).linked =
      (s.linked.setPtr x nd.next).setNode a none := by
    rw [linked_free, linked_setPtr]
  have hcount : ((s.setPtr x nd.next).free a).countOf = Function.update s.countOf a none := by
    rw [countOf_free, countOf_setPtr]
  obtain ⟨hsound, hkeeps, hpath, -⟩ := h.delete hi hown hx ha hone hrest hlinked setPtr_size
    setPtr_top hcount
  refine ⟨(s.setPtr x nd.next).free a, ?_, hsound, setPtr_size, hkeeps, _, hpath, List.map_append⟩
  rw [removeWriter, ha]
  rfl

theorem removeWriter_shared (h : Sound s) (hi : i < s.size) (hown : s.linked.Own i x pre)
    (hx : s.linked.ptr x = some a) (ha : s.nodes a = some nd) (hshared : 1 < s.pointers a)
    (hrest : s.linked.Path nd.next rest none) :
    ∃ t, removeWriter s false a x = some (t, nd.data) ∧
      Does s t i (pre.map (·.2) ++ rest.map (·.2)) := by
  have hnode := node_of_nodes ha
  obtain ⟨hfresh, hq⟩ := h.linked.rest_ne hown hx hnode
  have hnext := next_ne ha hrest
  have hax : .inr a ≠ x := by
    rintro rfl
    exact hfresh hown.mem_of_inr
  have ha₁ : (s.setPtr x nd.next).nodes a = some nd := (setPtr_nodes_of_ne hax).trans ha
  obtain ⟨s₂, hs₂, hlinked₂, hsize₂, htop₂, hcount₂⟩ := countDown_eq ha₁
  have hallocated (b : ℕ) (hb : nd.next = some b) : s₂.linked.node b ≠ none := by
    rw [hb] at hrest
    cases hrest with
    | cons hb' =>
      rw [hlinked₂, linked_setPtr]
      obtain ⟨r, hr⟩ := setPtr_content hb'
      exact Option.ne_none_iff_exists'.2 ⟨_, hr⟩
  obtain ⟨s₃, hs₃, hlinked₃, hsize₃, htop₃, hcount₃⟩ := countUp_eq hallocated
  have hresult : removeWriter s false a x = some (s₃, nd.data) := by
    rw [removeWriter, ha]
    change ((s.setPtr x nd.next).countDown a).bind _ = _
    rw [hs₂]
    change (s₂.countUp nd.next).bind _ = _
    rw [hs₃]
    rfl
  have hlinked : s₃.linked = s.linked.setPtr x nd.next := by
    rw [hlinked₃, hlinked₂, linked_setPtr]
  have hsize : s₃.size = s.size := hsize₃.trans (hsize₂.trans setPtr_size)
  have htop : s₃.top = s.top := htop₃.trans (htop₂.trans setPtr_top)
  obtain ⟨hsound, hkeeps, hpath⟩ := h.redirect hi hown hq hrest hlinked hsize htop
    (fun b c hc => by
      rw [hcount₃, hcount₂, countOf_setPtr] at hc
      rw [hx]
      exact moved_count ha hnext hc)
    fun b hxb _ => by
      rw [hx] at hxb
      rwa [← Option.some_inj.1 hxb]
  exact ⟨s₃, hresult, hsound, hsize, hkeeps, _, hpath, List.map_append⟩

theorem replaceWriter_own (h : Sound s) (hown : s.linked.Own i x pre)
    (hx : s.linked.ptr x = some a) (ha : s.nodes a = some nd) (hone : s.pointers a = 1)
    (hrest : s.linked.Path nd.next rest none) {tag : PacketTag} (htid : nd.tid = tag.tid) :
    ∃ t, replaceWriter tag s true a x = some (t, tag.data) ∧
      Does s t i (pre.map (·.2) ++ ⟨tag.tid, overwrite nd.data tag.data⟩ :: rest.map (·.2)) := by
  obtain ⟨hsound, hkeeps, hpath⟩ := h.rewrite hown hx ha hone hrest
    { nd with data := overwrite nd.data tag.data } rfl rfl
  refine ⟨s.setNode a { nd with data := overwrite nd.data tag.data }, ?_, hsound, rfl, hkeeps, _,
    hpath, ?_⟩
  · rw [replaceWriter, ha]
    rfl
  · rw [List.map_append, List.map_cons, ← htid]
    rfl

theorem replaceWriter_shared (h : Sound s) (hi : i < s.size) (hown : s.linked.Own i x pre)
    (hx : s.linked.ptr x = some a) (ha : s.nodes a = some nd) (hshared : 1 < s.pointers a)
    (hrest : s.linked.Path nd.next rest none) (tag : PacketTag) :
    ∃ t, replaceWriter tag s false a x = some (t, tag.data) ∧
      Does s t i (pre.map (·.2) ++ tag :: rest.map (·.2)) := by
  obtain ⟨t, hcopy, ht, hsize, -, hkeeps, hown', hptr, hrest', -⟩ :=
    copyNode_spec h hi hown hx ha hshared hrest tag
  refine ⟨t, ?_, ht, hsize, hkeeps, _, hown'.path.append (hptr ▸ hrest'), by simp⟩
  rw [replaceWriter, ha]
  change (s.copyNode tag a x).bind _ = _
  rw [hcopy]
  rfl

theorem remove_spec (h : Sound s) (hfew : Few s) (hi : i < s.size) {ts : List PacketTag}
    (hts : Shows s i ts) (tid : UInt16) :
    ∃ t, s.remove i tid = some (t, (ts.find? (·.tid = tid)).map (·.data)) ∧
      Does s t i (ts.eraseP (·.tid = tid)) := by
  obtain ⟨l, hl, rfl⟩ := hts
  obtain ⟨hresult, hnone⟩ | ⟨cur, y, pre, rest, nd, hresult, -, rfl, hpre, htid, hown, hy, hnode,
      hone, hrest⟩ | ⟨u, cur, y, pre, rest, nd, hresult, hu, hsize, hkeeps, hown, hy, hnode, htid,
      hrest, hshared, hlist, hpre⟩ := cowTraverse_spec h hfew hi tid hl removeWriter
  · have hnone' : ∀ z ∈ l.map (·.2), ¬ decide (z.tid = tid) = true :=
      List.forall_mem_map.2 (by simpa using hnone)
    refine ⟨s, ?_, h, rfl, fun _ _ _ hl => hl, l, hl, (List.eraseP_of_forall_not hnone').symm⟩
    rw [remove, hresult, List.find?_eq_none.2 hnone']
    rfl
  · obtain ⟨t, hwrite, ht⟩ := removeWriter_own h hi hown hy hnode hone hrest
    have hpre' : ∀ z ∈ pre.map (·.2), z.tid ≠ tid := List.forall_mem_map.2 hpre
    rw [List.map_append, List.map_cons, eraseP_eq hpre' htid, find?_eq hpre' htid]
    refine ⟨t, ?_, ht⟩
    rw [remove, hresult, hwrite]
    rfl
  · obtain ⟨t, hwrite, ht⟩ := removeWriter_shared hu (hsize ▸ hi) hown hy hnode hshared hrest
    have hpre' : ∀ z ∈ pre.map (·.2), z.tid ≠ tid := List.forall_mem_map.2 hpre
    rw [hlist, eraseP_eq hpre' htid, find?_eq hpre' htid]
    refine ⟨t, ?_, ht.sound, ht.size.trans hsize, hkeeps.trans ht.keeps, ht.shows'⟩
    rw [remove, hresult, hwrite]
    rfl

/-- `Replace` finds the tag among the list's own ones, with another size than that of the new one. -/
def ReplacesResized (s : TagTree) (i : ℕ) (tag : PacketTag) : Prop :=
  match s.search tag.tid s.top (s.lists i) (.inl i) with
  | some (.found cur _) => ∃ nd ∈ s.nodes cur, nd.data.length ≠ tag.data.length
  | _ => False

instance (tag : PacketTag) : Decidable (ReplacesResized s i tag) := by
  unfold ReplacesResized
  split <;> infer_instance

theorem replace_spec (h : Sound s) (hfew : Few s) (hi : i < s.size) {ts : List PacketTag}
    (hts : Shows s i ts) (tag : PacketTag) :
    ∃ t, s.replace i tag = some (t, (ts.find? (·.tid = tag.tid)).map fun _ => tag.data) ∧
      ∃ ts', Does s t i ts' ∧ (¬ ReplacesResized s i tag → ts' =
        if ts.any (·.tid = tag.tid) then TagOp.replaceFirst tag ts else tag :: ts) := by
  obtain ⟨l, hl, rfl⟩ := hts
  have hany {mid rest : List PacketTag} {old : PacketTag} (hold : old.tid = tag.tid) :
      (mid ++ old :: rest).any (·.tid = tag.tid) = true := by simp [hold]
  obtain ⟨hresult, hnone⟩ | ⟨cur, y, pre, rest, nd, hresult, hsearch, rfl, hpre, htid, hown, hy,
      hnode, hone, hrest⟩ | ⟨u, cur, y, pre, rest, nd, hresult, hu, hsize, hkeeps, hown, hy, hnode,
      htid, hrest, hshared, hlist, hpre⟩ :=
    cowTraverse_spec h hfew hi tag.tid hl (replaceWriter tag)
  · have hnone' : ∀ z ∈ l.map (·.2), ¬ decide (z.tid = tag.tid) = true :=
      List.forall_mem_map.2 (by simpa using hnone)
    refine ⟨s.add i tag, ?_, _, add_spec h hi ⟨l, hl, rfl⟩ tag, fun _ => ?_⟩
    · rw [replace, hresult, List.find?_eq_none.2 hnone']
      rfl
    · rw [if_neg]
      rw [List.any_eq_true]
      rintro ⟨z, hz, hztid⟩
      exact hnone' z hz hztid
  · obtain ⟨t, hwrite, ht⟩ := replaceWriter_own h hown hy hnode hone hrest htid
    have hpre' : ∀ z ∈ pre.map (·.2), z.tid ≠ tag.tid := List.forall_mem_map.2 hpre
    rw [List.map_append, List.map_cons, find?_eq hpre' htid, if_pos (hany htid),
      replaceFirst_eq hpre' htid]
    refine ⟨t, ?_, _, ht, fun hsame => ?_⟩
    · rw [replace, hresult, hwrite]
      rfl
    · have hlength : nd.data.length = tag.data.length := by
        by_contra hne
        apply hsame
        rw [ReplacesResized, hsearch]
        exact ⟨nd, hnode, hne⟩
      rw [overwrite, hlength, List.take_length, ← hlength, List.drop_length, List.append_nil]
  · obtain ⟨t, hwrite, ht⟩ := replaceWriter_shared hu (hsize ▸ hi) hown hy hnode hshared hrest tag
    have hpre' : ∀ z ∈ pre.map (·.2), z.tid ≠ tag.tid := List.forall_mem_map.2 hpre
    rw [hlist, find?_eq hpre' htid, if_pos (hany htid), replaceFirst_eq hpre' htid]
    refine ⟨t, ?_, _, ⟨ht.sound, ht.size.trans hsize, hkeeps.trans ht.keeps, ht.shows'⟩,
      fun _ => rfl⟩
    rw [replace, hresult, hwrite]
    rfl

theorem freePrev_fields (prev : Option ℕ) : (s.freePrev prev).top = s.top ∧
    (s.freePrev prev).size = s.size ∧ (s.freePrev prev).lists = s.lists := by
  cases prev with
  | none => exact ⟨rfl, rfl, rfl⟩
  | some a => exact ⟨rfl, rfl, rfl⟩

theorem freePrev_nodes (prev : Option ℕ) : (s.freePrev prev).nodes =
    fun a => if prev = some a then none else s.nodes a := by
  cases prev with
  | none => rfl
  | some b =>
    funext a
    by_cases h : a = b
    · subst h
      rw [if_pos rfl]
      exact Function.update_self ..
    · rw [if_neg fun heq => h (Option.some_inj.1 heq).symm]
      exact Function.update_of_ne h ..

theorem update_congr {f g : ℕ → Option ℕ} (h : ∀ j ≠ i, f j = g j) :
    Function.update f i p = Function.update g i p := by
  funext j
  by_cases hj : j = i
  · rw [hj, Function.update_self, Function.update_self]
  · rw [Function.update_of_ne hj, Function.update_of_ne hj, h j hj]

/-- The list `i` loses its first node, which it shares with others. -/
theorem leave_spec (h : Sound s) (hi : i < s.size) (ha : s.nodes a = some nd)
    (hhead : s.lists i = some a) (hshared : 1 < s.pointers a) :
    Does s ((s.setNode a { nd with count := nd.count - 1 }).setPtr (.inl i) none) i [] := by
  have hlinked : ((s.setNode a { nd with count := nd.count - 1 }).setPtr (.inl i) none).linked =
      s.linked.setPtr (.inl i) none := by
    rw [linked_setPtr, linked_setCount ha]
  have hx : s.linked.ptr (.inl i) = some a := hhead
  obtain ⟨hsound, hkeeps, hpath⟩ := h.redirect hi .head (fun _ _ => (Option.some_ne_none _).symm)
    .nil hlinked rfl rfl
    (fun b c hc => by
      rw [countOf_setPtr, countOf_setNode] at hc
      rw [hx, if_neg (Option.some_ne_none b).symm]
      by_cases hba : b = a
      · subst hba
        rw [Function.update_self] at hc
        cases hc
        refine ⟨nd.count, countOf_eq ha, ?_⟩
        rw [if_pos rfl]
        exact (sub_add_cancel ..).trans (add_zero _).symm
      · rw [Function.update_of_ne hba] at hc
        rw [if_neg fun heq => hba (Option.some_inj.1 heq).symm]
        exact ⟨c, hc, rfl⟩)
    fun b hb _ => by
      rw [hx] at hb
      rwa [← Option.some_inj.1 hb]
  exact ⟨hsound, rfl, hkeeps, [], hpath, rfl⟩

/-- The previous node is freed, so it is none of those that are left. -/
theorem node_of_freePrev {u : TagTree} {q : Option ℕ} {a : ℕ} {nd : TagData}
    (hnodes : (u.freePrev q).nodes = s.nodes) (hnd : s.nodes a = some nd) :
    q ≠ some a ∧ u.nodes a = some nd := by
  have hnode := congrFun hnodes a
  rw [freePrev_nodes, hnd] at hnode
  dsimp only at hnode
  split_ifs at hnode with hq
  exact ⟨hq, hnode⟩

theorem freePrev_setNode_of_ne {u : TagTree} {q : Option ℕ} {a b : ℕ} {nd : TagData}
    (hnodes : (u.freePrev q).nodes = s.nodes) (hb : b ≠ a) :
    ((u.setNode a nd).freePrev q).nodes b = s.nodes b := by
  have hnode := congrFun hnodes b
  rw [freePrev_nodes] at hnode ⊢
  rw [← hnode]
  dsimp only
  split_ifs
  · rfl
  · exact Function.update_of_ne hb ..

/-- The loop of `RemoveAll` on `u`, where `s` is the lists as they are when the node that is freed
in the next round is gone and the list begins after it. -/
theorem release_spec (h : Sound s) (hfew : Few s) (hi : i < s.size) {l : List (ℕ × PacketTag)}
    {fuel : ℕ} {u : TagTree} {q : Option ℕ} (hl : s.linked.Path (s.lists i) l none)
    (hfuel : l.length ≤ fuel) (hnodes : (u.freePrev q).nodes = s.nodes)
    (htop : u.top = s.top) (hsize : u.size = s.size) (hlists : ∀ j ≠ i, u.lists j = s.lists j) :
    ∃ t, release fuel u (s.lists i) q = some t ∧ Does s (t.setPtr (.inl i) none) i [] := by
  induction l generalizing s u q fuel with
  | nil =>
    obtain hnone : s.lists i = none := by
      cases hp : s.lists i with
      | none => rfl
      | some a =>
        rw [hp] at hl
        cases hl
    obtain ⟨hfreeTop, hfreeSize, hfreeLists⟩ := u.freePrev_fields q
    have heq : (u.freePrev q).setPtr (.inl i) none = s := by
      refine TagTree.ext hnodes (hfreeTop.trans htop) ?_ (hfreeSize.trans hsize)
      change Function.update (u.freePrev q).lists i none = s.lists
      rw [hfreeLists, update_congr hlists, ← hnone, Function.update_eq_self]
    refine ⟨u.freePrev q, ?_, ?_⟩
    · rw [hnone]
      cases fuel with
      | zero => rfl
      | succ fuel => rfl
    · rw [heq]
      exact ⟨h, rfl, fun _ _ _ hl => hl, [], hl, rfl⟩
  | cons y l ih =>
    obtain ⟨nd, hhead, hnd, -, hrest⟩ := path_cons hl
    obtain ⟨fuel, rfl⟩ := Nat.exists_eq_succ_of_ne_zero (Nat.ne_zero_of_lt hfuel)
    have hfuel' : l.length ≤ fuel := Nat.le_of_succ_le_succ hfuel
    have hcount := h.count_toNat hfew hnd
    have hpos := (h.count y.1 nd.count (countOf_eq hnd)).2
    obtain ⟨hprev, hnd'⟩ := node_of_freePrev hnodes hnd
    have hdown : (nd.count - 1).toNat = s.pointers y.1 - 1 := by
      rw [UInt32.toNat_sub_of_le, hcount]
      · rfl
      · rw [UInt32.le_iff_toNat_le, hcount]
        exact hpos
    let s₁ := u.setNode y.1 { nd with count := nd.count - 1 }
    have hs₁ (a : ℕ) (ha : a ≠ y.1) : (s₁.freePrev q).nodes a = s.nodes a :=
      freePrev_setNode_of_ne hnodes ha
    obtain ⟨hfreeTop₁, hfreeSize₁, hfreeLists₁⟩ := s₁.freePrev_fields q
    have hstep : release (fuel + 1) u (s.lists i) q =
        if nd.count - 1 > 0 then some (s₁.freePrev q)
        else release fuel (s₁.freePrev q) nd.next (some y.1) := by
      rw [hhead, release, hnd']
      rfl
    rw [hstep]
    by_cases hmore : nd.count - 1 > 0
    · have hshared : 1 < s.pointers y.1 := by
        have hlt := UInt32.lt_iff_toNat_lt.1 hmore
        rw [hdown] at hlt
        exact Nat.lt_of_sub_pos hlt
      have heq : (s₁.freePrev q).setPtr (.inl i) none =
          (s.setNode y.1 { nd with count := nd.count - 1 }).setPtr (.inl i) none := by
        refine TagTree.ext (funext fun a => ?_) (hfreeTop₁.trans htop) ?_ (hfreeSize₁.trans hsize)
        · change (s₁.freePrev q).nodes a = Function.update s.nodes y.1 _ a
          by_cases ha : a = y.1
          · rw [ha, Function.update_self, freePrev_nodes]
            exact (if_neg hprev).trans (Function.update_self ..)
          · rw [Function.update_of_ne ha, hs₁ a ha]
        · change Function.update (s₁.freePrev q).lists i none = Function.update s.lists i none
          rw [hfreeLists₁, ← update_congr hlists]
          rfl
      rw [if_pos hmore]
      refine ⟨_, rfl, ?_⟩
      rw [heq]
      exact leave_spec h hi hnd hhead hshared
    · have hone : s.pointers y.1 = 1 := by
        have hle := UInt32.le_iff_toNat_le.1 (UInt32.not_lt.1 hmore)
        rw [hdown] at hle
        have hzero : (0 : UInt32).toNat = 0 := rfl
        omega
      let s₂ := (s.setPtr (.inl i) nd.next).free y.1
      have hlists₂ : s₂.lists i = nd.next := Function.update_self ..
      obtain ⟨hsound₂, hkeeps₂, hpath₂, hpointers₂⟩ := h.delete (t := s₂) hi .head hhead hnd hone
        hrest (by rw [linked_free, linked_setPtr]) rfl rfl (by rw [countOf_free, countOf_setPtr])
      have hfew₂ : Few s₂ := fun a => (hpointers₂ a).trans_lt (hfew a)
      rw [if_neg hmore, ← hlists₂]
      obtain ⟨t, hrelease, ht⟩ := ih hsound₂ hfew₂ hi (u := s₁.freePrev q) (q := some y.1)
        hpath₂ hfuel' (by
          funext a
          change Function.update (s₁.freePrev q).nodes y.1 none a =
            Function.update s.nodes y.1 none a
          by_cases ha : a = y.1
          · rw [ha, Function.update_self, Function.update_self]
          · rw [Function.update_of_ne ha, Function.update_of_ne ha, hs₁ a ha])
        (hfreeTop₁.trans htop) (hfreeSize₁.trans hsize)
        (fun j hj => by
          rw [hfreeLists₁]
          exact (hlists j hj).trans (Function.update_of_ne hj ..).symm)
      refine ⟨t, hrelease, ht.sound, ht.size, hkeeps₂.trans ht.keeps, ht.shows'⟩

theorem removeAll_spec (h : Sound s) (hfew : Few s) (hi : i < s.size) :
    ∃ t, s.removeAll i = some t ∧ Does s t i [] ∧ t.lists i = none := by
  obtain ⟨l, hl⟩ := h.linked.heads i
  obtain ⟨t, hrelease, ht⟩ := release_spec h hfew hi (u := s) (q := none) hl (h.length_le hl)
    rfl rfl rfl fun _ _ => rfl
  refine ⟨t.setPtr (.inl i) none, ?_, ht, Function.update_self ..⟩
  rw [removeAll]
  change (release s.top s (s.linked.heads i) none).bind _ = _
  rw [show s.linked.heads i = s.lists i from rfl, hrelease]
  rfl

/-- The pointer of an empty list is made one to the nodes of another one. -/
theorem share_spec (h : Sound s) (hi : i < s.size) (hnone : s.lists i = none)
    {l : List (ℕ × PacketTag)} (hl : s.linked.Path p l none) :
    ∃ t, (s.setPtr (.inl i) p).countUp p = some t ∧ Does s t i (l.map (·.2)) := by
  have hallocated (b : ℕ) (hb : p = some b) : (s.setPtr (.inl i) p).linked.node b ≠ none := by
    rw [hb] at hl
    cases hl with
    | cons hb' =>
      rw [linked_setPtr]
      obtain ⟨r, hr⟩ := setPtr_content hb'
      exact Option.ne_none_iff_exists'.2 ⟨_, hr⟩
  obtain ⟨t, ht, hlinked, hsize, htop, hcount⟩ := countUp_eq hallocated
  have hx : s.linked.ptr (.inl i) = none := hnone
  obtain ⟨hsound, hkeeps, hpath⟩ := h.redirect hi .head (fun _ hb => absurd hb List.not_mem_nil) hl
    (hlinked.trans linked_setPtr) hsize htop
    (fun b c hc => by
      rw [hcount, countOf_setPtr] at hc
      obtain ⟨c₀, hc₀, rfl⟩ := Option.map_eq_some_iff.1 hc
      refine ⟨c₀, hc₀, ?_⟩
      rw [hx, if_neg (Option.some_ne_none b).symm]
      split
      · exact add_zero _
      · rfl)
    fun b hb _ => absurd (hx.symm.trans hb) (Option.some_ne_none b).symm
  exact ⟨t, ht, hsound, hsize, hkeeps, l, hpath, rfl⟩

theorem read_eq {l : List (ℕ × PacketTag)} {fuel : ℕ} (hl : s.linked.Path p l none)
    (hfuel : l.length ≤ fuel) : s.read fuel p = some (l.map (·.2)) := by
  induction l generalizing p fuel with
  | nil =>
    cases hl
    cases fuel with
    | zero => rfl
    | succ fuel => rfl
  | cons y l ih =>
    obtain ⟨nd, rfl, hnd, htag, hrest⟩ := path_cons hl
    obtain ⟨fuel, rfl⟩ := Nat.exists_eq_succ_of_ne_zero (Nat.ne_zero_of_lt hfuel)
    rw [read, hnd]
    change (s.read fuel nd.next).bind _ = _
    rw [ih hrest (Nat.le_of_succ_le_succ hfuel), htag]
    rfl

theorem peekFrom_eq (tid : UInt16) {l : List (ℕ × PacketTag)} {fuel : ℕ}
    (hl : s.linked.Path p l none) (hfuel : l.length ≤ fuel) : s.peekFrom tid fuel p =
      some (((l.map (·.2)).find? (·.tid = tid)).map (·.data)) := by
  induction l generalizing p fuel with
  | nil =>
    cases hl
    cases fuel with
    | zero => rfl
    | succ fuel => rfl
  | cons y l ih =>
    obtain ⟨nd, rfl, hnd, htag, hrest⟩ := path_cons hl
    obtain ⟨fuel, rfl⟩ := Nat.exists_eq_succ_of_ne_zero (Nat.ne_zero_of_lt hfuel)
    have hstep : s.peekFrom tid (fuel + 1) (some y.1) =
        if nd.tid = tid then some (some nd.data) else s.peekFrom tid fuel nd.next := by
      rw [peekFrom, hnd]
      rfl
    rw [hstep, List.map_cons, ← htag]
    by_cases htid : nd.tid = tid
    · have htid' : nd.tag.tid = tid := htid
      rw [if_pos htid, List.find?_cons_of_pos (by simpa using htid')]
      rfl
    · have htid' : nd.tag.tid ≠ tid := htid
      rw [if_neg htid, List.find?_cons_of_neg (by simpa using htid')]
      exact ih hrest (Nat.le_of_succ_le_succ hfuel)

theorem Does.trans {u : TagTree} {ts ts' : List PacketTag} (h : Does s t i ts)
    (h' : Does t u i ts') : Does s u i ts' :=
  ⟨h'.sound, h'.size.trans h.size, h.keeps.trans h'.keeps, h'.shows'⟩

theorem Sound.create (h : Sound s) : Sound s.create where
  linked := h.linked
  nodes := h.nodes
  lists := fun i hi => h.lists i (Nat.le_of_succ_le hi)
  count := by
    intro a c hc
    have hplaces : s.create.places = Insert.insert (.inl s.size) s.places := by
      ext x
      cases x with
      | inl i =>
        simp only [places, TagTree.create, Finset.inl_mem_disjSum, Finset.mem_range,
          Finset.mem_insert, Sum.inl.injEq]
        omega
      | inr a => simp [places, TagTree.create]
    have hpointers : s.create.pointers a = s.pointers a := by
      have hnew : s.linked.ptr (.inl s.size) = none := h.lists s.size le_rfl
      rw [pointers, hplaces]
      apply (pointersTo_insert (by simp [places]) a).trans
      change _ + (if s.linked.ptr (.inl s.size) = some a then 1 else 0) = _
      rw [hnew]
      rfl
    rw [hpointers]
    exact h.count a c hc

end TagTree

/-! ### Runs -/

/-- The lists, and what they would be if each had its tags to itself. -/
structure TagRun where
  tree : TagTree
  own : List (List PacketTag)

namespace TagRun

open TagTree

def init : TagRun := ⟨.empty, []⟩

def Step (m : TagRun) (op : TagOp) (m' : TagRun) : Prop :=
  op.Valid m.tree.size ∧ (∃ r, op.exec m.tree = some (m'.tree, r)) ∧ m'.own = op.onPrivate m.own

/-- The step, if the lists are there and no freed node is used. -/
def next? (m : TagRun) (op : TagOp) : Option TagRun :=
  if op.Valid m.tree.size then (op.exec m.tree).map fun r => ⟨r.1, op.onPrivate m.own⟩ else none

theorem step_of_next? {m m' : TagRun} {op : TagOp} (h : m.next? op = some m') : Step m op m' := by
  unfold next? at h
  split at h
  · rename_i hop
    obtain ⟨⟨t, r⟩, hexec, rfl⟩ := Option.map_eq_some_iff.1 h
    exact ⟨hop, ⟨r, hexec⟩, rfl⟩
  · exact absurd h (Option.some_ne_none _).symm

/-- What is promised about the lists. -/
structure Kept (m : TagRun) : Prop where
  size : m.own.length = m.tree.size
  /-- Each list shows the tags of its private one. -/
  visible : ∀ i ts, m.own[i]? = some ts → m.tree.tags i = some ts ∧
    ∀ tid, m.tree.peek i tid = some ((ts.find? (·.tid = tid)).map (·.data))
  counted : ∀ a nd, m.tree.nodes a = some nd → nd.count.toNat = m.tree.pointers a
  /-- What is not freed is what can be reached. -/
  freed : ∀ a, m.tree.nodes a ≠ none ↔ ∃ i < m.tree.size, ∃ l,
    m.tree.linked.Path (m.tree.lists i) l none ∧ a ∈ l.map (·.1)
  /-- No operation uses a node that has been freed, and each finds what it would find there. -/
  answers : ∀ op : TagOp, op.Valid m.tree.size →
    ∃ t, op.exec m.tree = some (t, op.answer m.own)

/-- A tag that replaces another one in the memory of that one is larger or smaller. -/
def Resizes (m : TagRun) : TagOp → Prop
  | .replace i tag => ReplacesResized m.tree i tag
  | _ => False

instance (m : TagRun) : (op : TagOp) → Decidable (Resizes m op)
  | .replace i tag => inferInstanceAs (Decidable (ReplacesResized m.tree i tag))
  | .create | .copy _ | .assign .. | .add .. | .remove .. | .removeAll _ => .isFalse id

structure Mirrored (m : TagRun) : Prop where
  sound : Sound m.tree
  size : m.own.length = m.tree.size
  shows' : ∀ i ts, m.own[i]? = some ts → Shows m.tree i ts

variable {m m' : TagRun} {i : ℕ} {ts ts' : List PacketTag} {op : TagOp}

theorem mirrored_init : Mirrored init where
  sound := ⟨⟨fun _ => ⟨[], .nil⟩, fun _ ha => absurd rfl ha⟩, fun _ _ => rfl, fun _ _ => rfl,
    fun _ _ hc => absurd hc (Option.some_ne_none _).symm⟩
  size := rfl
  shows' := fun _ _ hts => absurd hts (Option.some_ne_none _).symm

namespace Mirrored

theorem of_does (h : Mirrored m) {t : TagTree} (hts : m.own[i]? = some ts)
    (hdoes : Does m.tree t i ts') : Mirrored ⟨t, m.own.set i ts'⟩ where
  sound := hdoes.sound
  size := List.length_set.trans (h.size.trans hdoes.size.symm)
  shows' := by
    intro j us hus
    by_cases hj : j = i
    · subst hj
      have hlt := (List.getElem?_eq_some_iff.1 hts).1
      rw [List.getElem?_set_self hlt] at hus
      cases hus
      exact hdoes.shows'
    · rw [List.getElem?_set_ne (Ne.symm hj)] at hus
      exact hdoes.keeps.shows hj (h.shows' j us hus)

theorem of_does_modify (h : Mirrored m) {t : TagTree} (hts : m.own[i]? = some ts)
    {f : List PacketTag → List PacketTag} (hdoes : Does m.tree t i (f ts)) :
    Mirrored ⟨t, m.own.modify i f⟩ := by
  rw [List.modify_eq_set, hts]
  exact h.of_does hts hdoes

theorem create (h : Mirrored m) : Mirrored ⟨m.tree.create, m.own ++ [[]]⟩ where
  sound := h.sound.create
  size := by simp [h.size, TagTree.create]
  shows' := by
    intro j us hus
    by_cases hj : j < m.own.length
    · rw [List.getElem?_append_left hj] at hus
      exact h.shows' j us hus
    · rw [List.getElem?_append_right (not_lt.1 hj), List.getElem?_singleton] at hus
      obtain ⟨hzero, rfl⟩ := Option.ite_some_none_eq_some.1 hus
      obtain rfl : j = m.tree.size := by
        rw [← h.size]
        omega
      have hnone : m.tree.create.lists m.tree.size = none := h.sound.lists _ le_rfl
      refine ⟨[], ?_, rfl⟩
      rw [hnone]
      exact .nil

theorem exists_own (h : Mirrored m) (hi : i < m.tree.size) :
    ∃ ts, m.own[i]? = some ts ∧ m.own.getD i [] = ts := by
  rw [← h.size] at hi
  refine ⟨m.own[i], List.getElem?_eq_getElem hi, ?_⟩
  rw [List.getD_eq_getElem?_getD, List.getElem?_eq_getElem hi]
  rfl

theorem exec_copy (h : Mirrored m) {o : ℕ} (ho : o < m.tree.size) :
    ∃ t, m.tree.copy o = some t ∧ Mirrored ⟨t, m.own ++ [m.own.getD o []]⟩ := by
  obtain ⟨ts, hts, hget⟩ := h.exists_own ho
  obtain ⟨l, hl, rfl⟩ := h.shows' o ts hts
  have hnew := h.create
  obtain ⟨t, ht, hdoes⟩ := share_spec hnew.sound (Nat.lt_succ_self m.tree.size)
    (h.sound.lists _ le_rfl) hl
  have hlast : (m.own ++ [[]])[m.tree.size]? = some [] := by
    rw [← h.size]
    simp
  refine ⟨t, ht, ?_⟩
  have hmirrored := hnew.of_does hlast hdoes
  rw [hget]
  rwa [← h.size, List.set_append_right _ _ le_rfl, Nat.sub_self] at hmirrored

theorem exec_assign (h : Mirrored m) (hfew : Few m.tree) {o : ℕ} (hi : i < m.tree.size)
    (ho : o < m.tree.size) :
    ∃ t, m.tree.assign i o = some t ∧ Mirrored ⟨t, m.own.set i (m.own.getD o [])⟩ := by
  obtain ⟨ts, hts, -⟩ := h.exists_own hi
  obtain ⟨us, hus, hget⟩ := h.exists_own ho
  have hi' := h.shows' i ts hts
  have ho' := h.shows' o us hus
  rw [hget]
  by_cases hsame : m.tree.lists i = m.tree.lists o
  · refine ⟨m.tree, if_pos hsame, ?_⟩
    have heq : us = ts := by
      obtain ⟨l, hl, rfl⟩ := hi'
      obtain ⟨l', hl', rfl⟩ := ho'
      rw [hsame] at hl
      rw [hl.unique hl']
    exact h.of_does hts ⟨h.sound, rfl, fun _ _ _ hl => hl, heq ▸ hi'⟩
  · obtain ⟨t, hremove, hdoes, hnone⟩ := removeAll_spec h.sound hfew hi
    have hoi : o ≠ i := fun heq => hsame (heq ▸ rfl)
    obtain ⟨l, hl, rfl⟩ := hdoes.keeps.shows hoi ho'
    obtain ⟨u, hu, hdoes'⟩ := share_spec hdoes.sound (hdoes.size ▸ hi) hnone hl
    refine ⟨u, ?_, h.of_does hts (hdoes.trans hdoes')⟩
    rw [assign, if_neg hsame, hremove]
    exact hu

/-- What an operation does and returns. -/
theorem exec (h : Mirrored m) (hfew : Few m.tree) (hop : op.Valid m.tree.size) :
    ∃ t, op.exec m.tree = some (t, op.answer m.own) ∧
      (¬ Resizes m op → Mirrored ⟨t, op.onPrivate m.own⟩) := by
  cases op with
  | create => exact ⟨_, rfl, fun _ => h.create⟩
  | copy o =>
    obtain ⟨t, ht, hm⟩ := h.exec_copy hop
    exact ⟨t, congrArg (Option.map (·, none)) ht, fun _ => hm⟩
  | assign i o =>
    obtain ⟨t, ht, hm⟩ := h.exec_assign hfew hop.1 hop.2
    exact ⟨t, congrArg (Option.map (·, none)) ht, fun _ => hm⟩
  | add i tag =>
    obtain ⟨ts, hts, -⟩ := h.exists_own hop
    exact ⟨_, rfl, fun _ => h.of_does_modify hts (add_spec h.sound hop (h.shows' i ts hts) tag)⟩
  | remove i tid =>
    obtain ⟨ts, hts, hget⟩ := h.exists_own hop
    obtain ⟨t, ht, hdoes⟩ := remove_spec h.sound hfew hop (h.shows' i ts hts) tid
    refine ⟨t, ?_, fun _ => h.of_does_modify hts hdoes⟩
    rw [TagOp.answer, hget]
    exact ht
  | replace i tag =>
    obtain ⟨ts, hts, hget⟩ := h.exists_own hop
    obtain ⟨t, ht, ts', hdoes, hlist⟩ := replace_spec h.sound hfew hop (h.shows' i ts hts) tag
    refine ⟨t, ?_, fun hsame => h.of_does_modify hts (hlist hsame ▸ hdoes)⟩
    rw [TagOp.answer, hget]
    exact ht
  | removeAll i =>
    obtain ⟨ts, hts, -⟩ := h.exists_own hop
    obtain ⟨t, ht, hdoes, -⟩ := removeAll_spec h.sound hfew hop
    exact ⟨t, congrArg (Option.map (·, none)) ht, fun _ => h.of_does hts hdoes⟩

theorem step (h : Mirrored m) (hfew : Few m.tree) (hok : ¬ Resizes m op) (hst : Step m op m') :
    Mirrored m' := by
  obtain ⟨hop, ⟨r, hr⟩, hown⟩ := hst
  obtain ⟨t, ht, hm⟩ := h.exec hfew hop
  rw [hr] at ht
  cases ht
  have heq : m' = ⟨m'.tree, op.onPrivate m.own⟩ := by rw [← hown]
  rw [heq]
  exact hm hok

theorem kept (h : Mirrored m) (hfew : Few m.tree) : Kept m where
  size := h.size
  visible := by
    intro i ts hts
    obtain ⟨l, hl, rfl⟩ := h.shows' i ts hts
    exact ⟨read_eq hl (h.sound.length_le hl), fun tid => peekFrom_eq tid hl (h.sound.length_le hl)⟩
  counted := fun a nd ha => h.sound.count_toNat hfew ha
  freed := by
    intro a
    constructor
    · intro ha
      have hlive {b : ℕ} (hb : m.tree.linked.node b ≠ none) : b ∈ Finset.range m.tree.top := by
        rw [Finset.mem_range]
        by_contra hlt
        exact hb (nodes_eq_none.1 (h.sound.nodes b (not_lt.1 hlt)))
      have hptr (b : ℕ) (hb : m.tree.linked.node b ≠ none) : ∃ x, m.tree.linked.ptr x = some b := by
        obtain ⟨nd, hnd⟩ := exists_nodes hb
        obtain ⟨x, -, hx⟩ := exists_of_pointersTo (h.sound.count b nd.count (countOf_eq hnd)).2
        exact ⟨x, hx⟩
      obtain ⟨i, l, hl, hal⟩ := h.sound.linked.exists_head (fun b hb => hlive hb) hptr
        (fun hnone => ha (nodes_eq_none.2 hnone))
      refine ⟨i, ?_, l, hl, hal⟩
      by_contra hlt
      have hnone : m.tree.linked.heads i = none := h.sound.lists i (not_lt.1 hlt)
      rw [hnone] at hl
      cases hl
      exact List.not_mem_nil hal
    · rintro ⟨i, -, l, hl, hal⟩ hnone
      exact hl.node_ne_none hal (nodes_eq_none.1 hnone)
  answers := by
    intro op hop
    obtain ⟨t, ht, -⟩ := h.exec hfew hop
    exact ⟨t, ht⟩

end Mirrored

/-- Each list keeps its own tags, and each node as long as it is needed, if no tag is replaced by
one of another size in its place. -/
theorem kept_of_tagRun {trace : List (TagRun × TagOp)} (h : Run Step init trace m)
    (hok : ∀ p ∈ trace, ¬ Resizes p.1 p.2) (hfew : ∀ p ∈ trace, Few p.1.tree)
    (hlast : Few m.tree) : (∀ p ∈ trace, Kept p.1) ∧ Kept m := by
  have hstep (m : TagRun) (op : TagOp) (m' : TagRun) (hm : Mirrored m)
      (hp : ¬ Resizes m op ∧ Few m.tree) (hst : Step m op m') : Mirrored m' :=
    hm.step hp.2 hp.1 hst
  have hall (p) (hp : p ∈ trace) : ¬ Resizes p.1 p.2 ∧ Few p.1.tree := ⟨hok p hp, hfew p hp⟩
  obtain ⟨hall, hm⟩ := h.invariant_along (I := Mirrored) mirrored_init hstep hall
  exact ⟨fun p hp => (hall p hp).kept (hfew p hp), hm.kept hlast⟩

/-- A tag is removed from a copy, then replaced in the first list, and both become one again. -/
theorem kept_of_tagRun_copied : ∃ (trace : List (TagRun × TagOp)) (m : TagRun),
    Run Step init trace m ∧ m.own = [[⟨1, [9]⟩], [⟨1, [9]⟩]] ∧
      (∀ p ∈ trace, Kept p.1) ∧ Kept m := by
  have hany : (Run.runOf next? init [.create, .add 0 ⟨1, [7]⟩, .copy 0, .add 1 ⟨2, [8]⟩,
      .remove 1 1, .replace 0 ⟨1, [9]⟩, .assign 1 0]).any (fun r => decide
        (r.2.own = [[⟨1, [9]⟩], [⟨1, [9]⟩]] ∧ (∀ p ∈ r.1, ¬ Resizes p.1 p.2) ∧
          (∀ p ∈ r.1, p.1.tree.size + p.1.tree.top < 2 ^ 32) ∧
          r.2.tree.size + r.2.tree.top < 2 ^ 32)) = true := by decide +kernel
  obtain ⟨⟨trace, m⟩, hrun, hr⟩ := (Option.any_eq_true _ _).1 hany
  obtain ⟨hown, hok, hsmall, hlast⟩ := of_decide_eq_true hr
  have hrun' := Run.of_runOf (fun _ _ _ => step_of_next?) hrun
  exact ⟨trace, m, hrun', hown, kept_of_tagRun hrun' hok (fun p hp => few_of_small (hsmall p hp))
    (few_of_small hlast)⟩

/-- A tag is replaced by a shorter one in the memory of the first one. -/
theorem not_kept_resized :
    ¬ ∀ (trace : List (TagRun × TagOp)) (m : TagRun), Run Step init trace m → Kept m := by
  intro hall
  have hany : (Run.runOf next? init [.create, .add 0 ⟨1, [7, 8]⟩, .replace 0 ⟨1, [9]⟩]).any
      (fun r => decide (r.2.own[0]? = some [⟨1, [9]⟩] ∧ r.2.tree.tags 0 = some [⟨1, [9, 8]⟩])) =
        true := by decide +kernel
  obtain ⟨⟨trace, m⟩, hrun, hr⟩ := (Option.any_eq_true _ _).1 hany
  obtain ⟨hown, htags⟩ := of_decide_eq_true hr
  have hkept := hall trace m (Run.of_runOf (fun _ _ _ => step_of_next?) hrun)
  have hvisible := (hkept.visible 0 _ hown).1
  rw [htags] at hvisible
  exact absurd hvisible (by decide)

end TagRun

end SeanetSim
