import SeanetSim.Lib.LinkedNodes
import SeanetSim.Network.PacketTagList
import Mathlib.Data.Finset.Sum

/-!
# The nodes of packet tag lists

The nodes as linked ones, with counts that are those of the pointers, and what the loops of
`COWTraverse` do to them: each of their rounds changes what one list has for its own, and the other
lists show what they did.
-/

namespace SeanetSim

namespace TagTree

open LinkedNodes

variable {s t : TagTree} {a b : ℕ} {nd : TagData} {x : TagPlace} {p : Option ℕ}

/-- The lists without the counts. -/
def linked (s : TagTree) : LinkedNodes ℕ ℕ PacketTag where
  heads := s.lists
  node := fun a => (s.nodes a).map fun nd => (nd.next, nd.tag)

def countOf (s : TagTree) (a : ℕ) : Option UInt32 := (s.nodes a).map (·.count)

/-- All places where a pointer may be kept. -/
def places (s : TagTree) : Finset TagPlace := (Finset.range s.size).disjSum (Finset.range s.top)

/-- The number of the pointers to a node. -/
def pointers (s : TagTree) (a : ℕ) : ℕ := pointersTo s.places s.linked.ptr a

theorem node_of_nodes (h : s.nodes a = some nd) : s.linked.node a = some (nd.next, nd.tag) :=
  congrArg (Option.map _) h

theorem linked_setNode :
    (s.setNode a nd).linked = s.linked.setNode a (some (nd.next, nd.tag)) :=
  congrArg (LinkedNodes.mk s.lists ·) (Function.comp_update (Option.map _) s.nodes a (some nd))

theorem linked_free : (s.free a).linked = s.linked.setNode a none :=
  congrArg (LinkedNodes.mk s.lists ·) (Function.comp_update (Option.map _) s.nodes a none)

theorem linked_createTagData :
    (s.createTagData nd).linked = s.linked.setNode s.top (some (nd.next, nd.tag)) := by
  change (s.setNode s.top nd).linked = _
  exact linked_setNode

theorem linked_setPtr : (s.setPtr x p).linked = s.linked.setPtr x p := by
  cases x with
  | inl i => rfl
  | inr a =>
    refine congrArg (LinkedNodes.mk s.lists ·) ((Function.comp_update (Option.map _) ..).trans ?_)
    apply congrArg (Function.update _ a ·)
    change ((s.nodes a).map _).map _ = ((s.nodes a).map _).map _
    rw [Option.map_map, Option.map_map]
    rfl

theorem countOf_setNode : (s.setNode a nd).countOf = Function.update s.countOf a (some nd.count) :=
  Function.comp_update (Option.map _) s.nodes a (some nd)

theorem countOf_free : (s.free a).countOf = Function.update s.countOf a none :=
  Function.comp_update (Option.map _) s.nodes a none

theorem countOf_createTagData :
    (s.createTagData nd).countOf = Function.update s.countOf s.top (some nd.count) := by
  change (s.setNode s.top nd).countOf = _
  exact countOf_setNode

theorem setPtr_size : (s.setPtr x p).size = s.size := by
  cases x with
  | inl i => rfl
  | inr a => rfl

theorem setPtr_top : (s.setPtr x p).top = s.top := by
  cases x with
  | inl i => rfl
  | inr a => rfl

theorem setPtr_nodes_of_ne (h : .inr a ≠ x) : (s.setPtr x p).nodes a = s.nodes a := by
  cases x with
  | inl i => rfl
  | inr b => exact Function.update_of_ne (fun heq => h (congrArg _ heq)) ..

theorem countOf_setPtr : (s.setPtr x p).countOf = s.countOf := by
  cases x with
  | inl i => rfl
  | inr a =>
    refine (Function.comp_update (Option.map _) ..).trans ((Function.update_eq_self_iff ..).2 ?_)
    rw [Option.map_map]
    rfl

/-- A change of a count alone. -/
theorem linked_setCount (h : s.nodes a = some nd) (c : UInt32) :
    (s.setNode a { nd with count := c }).linked = s.linked := by
  rw [linked_setNode]
  exact setNode_self (n := some (nd.next, nd.tag)) (node_of_nodes h)

theorem places_succ (hsize : t.size = s.size) (htop : t.top = s.top + 1) :
    t.places = insert (.inr s.top) s.places := by
  ext x
  cases x with
  | inl i => simp [places, hsize]
  | inr a =>
    simp only [places, htop, Finset.inr_mem_disjSum, Finset.mem_range, Finset.mem_insert,
      Sum.inr.injEq]
    omega

theorem places_eq (hsize : t.size = s.size) (htop : t.top = s.top) : t.places = s.places := by
  rw [places, hsize, htop, places]

theorem top_not_mem_places : .inr s.top ∉ s.places := by simp [places]

theorem exists_nodes (h : s.linked.node a ≠ none) : ∃ nd, s.nodes a = some nd := by
  rw [← Option.ne_none_iff_exists']
  exact fun hnone => h (congrArg (Option.map _) hnone)

theorem countOf_eq (h : s.nodes a = some nd) : s.countOf a = some nd.count :=
  congrArg (Option.map _) h

theorem countDown_eq (h : s.nodes a = some nd) :
    ∃ t, s.countDown a = some t ∧ t.linked = s.linked ∧ t.size = s.size ∧ t.top = s.top ∧
      t.countOf = Function.update s.countOf a (some (nd.count - 1)) := by
  refine ⟨s.setNode a { nd with count := nd.count - 1 }, ?_, linked_setCount h _, rfl, rfl,
    countOf_setNode⟩
  rw [countDown, h]
  rfl

theorem countUp_eq (h : ∀ a, p = some a → s.linked.node a ≠ none) :
    ∃ t, s.countUp p = some t ∧ t.linked = s.linked ∧ t.size = s.size ∧ t.top = s.top ∧
      ∀ b, t.countOf b = (s.countOf b).map fun c => if p = some b then c + 1 else c := by
  cases p with
  | none => exact ⟨s, rfl, rfl, rfl, rfl, fun b => by simp⟩
  | some a =>
    obtain ⟨nd, hnd⟩ := exists_nodes (h a rfl)
    refine ⟨s.setNode a { nd with count := nd.count + 1 }, ?_, linked_setCount hnd _, rfl, rfl,
      fun b => ?_⟩
    · rw [countUp, hnd]
      rfl
    · rw [countOf_setNode]
      by_cases hb : b = a
      · subst hb
        rw [Function.update_self, countOf_eq hnd]
        simp
      · rw [Function.update_of_ne hb]
        simp [Ne.symm hb]

/-! ### What the counts mean -/

/-- All pointers lead to nodes and on to an end, and the counts are those of the pointers. -/
structure Sound (s : TagTree) : Prop where
  linked : s.linked.AllLinked
  nodes : ∀ a, s.top ≤ a → s.nodes a = none
  lists : ∀ i, s.size ≤ i → s.lists i = none
  count : ∀ a c, s.countOf a = some c → c = UInt32.ofNat (s.pointers a) ∧ 0 < s.pointers a

/-- The counts have room for the pointers. -/
def Few (s : TagTree) : Prop := ∀ a, s.pointers a < 2 ^ 32

theorem few_of_small (h : s.size + s.top < 2 ^ 32) : Few s := by
  intro a
  have hcard : s.places.card = s.size + s.top := by
    rw [places, Finset.card_disjSum, Finset.card_range, Finset.card_range]
  exact (Finset.card_filter_le s.places (s.linked.ptr · = some a)).trans_lt (hcard ▸ h)

namespace Sound

variable {i : ℕ} {pre rest l : List (ℕ × PacketTag)} {q : Option ℕ} {tag : PacketTag}

theorem mem_places (h : Sound s) (hx : s.linked.ptr x = some a) : x ∈ s.places := by
  cases x with
  | inl i =>
    simp only [places, Finset.inl_mem_disjSum, Finset.mem_range]
    by_contra hi
    exact absurd ((h.lists i (not_lt.1 hi)).symm.trans hx) (Option.some_ne_none a).symm
  | inr b =>
    simp only [places, Finset.inr_mem_disjSum, Finset.mem_range]
    by_contra hb
    obtain ⟨n, hn, -⟩ := Option.bind_eq_some_iff.1 hx
    obtain ⟨nd, hnd, -⟩ := Option.map_eq_some_iff.1 hn
    exact absurd ((h.nodes b (not_lt.1 hb)).symm.trans hnd) (Option.some_ne_none nd).symm

theorem sole (h : Sound s) (ha : s.pointers a = 1) : s.linked.Sole a := fun _ _ hx hy =>
  eq_of_pointersTo ha (h.mem_places hx) (h.mem_places hy) hx hy

theorem top_ptr (h : Sound s) : s.linked.node s.top = none ∧ ∀ x, s.linked.ptr x ≠ some s.top := by
  have htop : s.linked.node s.top = none := congrArg (Option.map _) (h.nodes s.top le_rfl)
  exact ⟨htop, fun x hx => h.linked.node_of_ptr hx htop⟩

theorem pointers_top (h : Sound s) : s.pointers s.top = 0 := by
  by_contra hne
  obtain ⟨x, -, hx⟩ := exists_of_pointersTo (Nat.pos_of_ne_zero hne)
  exact h.top_ptr.2 x hx

theorem count_toNat (h : Sound s) (hfew : Few s) (ha : s.nodes a = some nd) :
    nd.count.toNat = s.pointers a := by
  rw [(h.count a nd.count (countOf_eq ha)).1, UInt32.toNat_ofNat', Nat.mod_eq_of_lt (hfew a)]

end Sound

/-! ### Changes of one list -/

/-- All lists but one show what they did. -/
def Keeps (s t : TagTree) (i : ℕ) : Prop :=
  ∀ j ≠ i, ∀ l, s.linked.Path (s.lists j) l none → t.linked.Path (t.lists j) l none

theorem nodes_eq_none : s.nodes a = none ↔ s.linked.node a = none := Option.map_eq_none_iff.symm

/-- How the counts have to change with the pointers. -/
theorem count_add {c c' : UInt32} {m n u v : ℕ} (hc : c = UInt32.ofNat m)
    (hcc : c' + UInt32.ofNat u = c + UInt32.ofNat v) (hmn : n + u = m + v) :
    c' = UInt32.ofNat n := by
  have heq : c' + UInt32.ofNat u = UInt32.ofNat n + UInt32.ofNat u := by
    rw [hcc, hc, ← UInt32.ofNat_add, ← UInt32.ofNat_add, hmn]
  exact add_right_cancel heq

section Insert

variable {i : ℕ} {pre rest : List (ℕ × PacketTag)} {q : Option ℕ} {tag : PacketTag}

theorem Sound.place (h : Sound s) (hi : i < s.size) (hown : s.linked.Own i x pre) :
    x ∈ s.places := by
  cases hown with
  | head => simpa [places] using hi
  | snoc hbefore hptr hnode hsole =>
    rename_i a p t
    simp only [places, Finset.inr_mem_disjSum, Finset.mem_range]
    by_contra ha
    have hnone := nodes_eq_none.1 (h.nodes a (not_lt.1 ha))
    exact Option.some_ne_none _ (hnode.symm.trans hnone)

theorem pointers_insert (h : Sound s) (hi : i < s.size) (hown : s.linked.Own i x pre)
    (hlinked : t.linked = (s.linked.setNode s.top (some (q, tag))).setPtr x (some s.top))
    (hsize : t.size = s.size) (htop : t.top = s.top + 1) (b : ℕ) :
    t.pointers b + (if s.linked.ptr x = some b then 1 else 0) =
      s.pointers b + (if q = some b then 1 else 0) + if s.top = b then 1 else 0 := by
  have hx := h.place hi hown
  have hne : x ≠ .inr s.top := by
    rintro rfl
    exact top_not_mem_places hx
  have hplace (a : ℕ) (ha : x = .inr a) :
      (s.linked.setNode s.top (some (q, tag))).node a ≠ none := by
    subst ha
    rw [setNode_node_of_ne fun heq => hne (congrArg _ heq)]
    exact hown.place_node a rfl
  have hupdate := pointersTo_update (Finset.mem_insert_of_mem (b := .inr s.top) hx)
    (f := Function.update s.linked.ptr (.inr s.top) q) (some s.top) b
  have hinsert := pointersTo_insert (f := Function.update s.linked.ptr (.inr s.top) q)
    (top_not_mem_places (s := s)) b
  have hsame := pointersTo_congr (D := s.places) (f := s.linked.ptr)
    (g := Function.update s.linked.ptr (.inr s.top) q)
    (fun y hy => Function.update_of_ne (fun heq => top_not_mem_places (heq ▸ hy)) ..) b
  rw [Function.update_of_ne hne, hinsert, hsame, Function.update_self] at hupdate
  rw [pointers, hlinked, ptr_setPtr hplace, ptr_setNode, places_succ hsize htop]
  simp only [Option.some.injEq] at hupdate
  exact hupdate

/-- A new node after the own nodes of a list. -/
theorem Sound.insert (h : Sound s) (hi : i < s.size) (hown : s.linked.Own i x pre)
    (hq : ∀ b ∈ pre.map (·.1), q ≠ some b) (hrest : s.linked.Path q rest none)
    (hlinked : t.linked = (s.linked.setNode s.top (some (q, tag))).setPtr x (some s.top))
    (hsize : t.size = s.size) (htop : t.top = s.top + 1) (hnew : t.countOf s.top = some 1)
    (hcount : ∀ b ≠ s.top, ∀ c', t.countOf b = some c' → ∃ c, s.countOf b = some c ∧
      c' + UInt32.ofNat (if s.linked.ptr x = some b then 1 else 0) =
        c + UInt32.ofNat (if q = some b then 1 else 0))
    (hshared : ∀ b, s.linked.ptr x = some b → q ≠ some b → 1 < s.pointers b) :
    Sound t ∧ Keeps s t i ∧ t.linked.Own i (.inr s.top) (pre ++ [(s.top, tag)]) ∧
      t.linked.ptr (.inr s.top) = q ∧ t.linked.Path q rest none := by
  obtain ⟨htopnode, htopptr⟩ := h.top_ptr
  have hx := h.place hi hown
  have hne : x ≠ .inr s.top := by
    rintro rfl
    exact top_not_mem_places hx
  obtain ⟨hall, hkeeps, hpath⟩ := h.linked.insertNode hown htopnode hq hrest tag
  have hown' := h.linked.own_insertNode hown htopnode htopptr hq hrest tag
  have hpointers := pointers_insert h hi hown hlinked hsize htop
  rw [← hlinked] at hall hkeeps hpath hown'
  have hptr : t.linked.ptr (.inr s.top) = q := by
    rw [hlinked, ptr_setPtr_of_ne hne.symm, ptr_setNode, Function.update_self]
    rfl
  refine ⟨⟨hall, fun a ha => ?_, fun j hj => ?_, fun b c hc => ?_⟩, hkeeps, hown', hptr, ?_⟩
  · rw [htop] at ha
    rw [nodes_eq_none, hlinked]
    apply setPtr_node_eq_none
    rw [setNode_node_of_ne (by omega)]
    exact nodes_eq_none.1 (h.nodes a (by omega))
  · rw [hsize] at hj
    have hjx : .inl j ≠ x := by
      rintro rfl
      simp [places] at hx
      omega
    have heq : t.linked.heads j = s.linked.heads j := by
      rw [hlinked, setPtr_heads_of_ne hjx]
      rfl
    exact heq.trans (h.lists j hj)
  · specialize hpointers b
    by_cases hb : b = s.top
    · subst hb
      rw [hnew] at hc
      cases hc
      rw [h.pointers_top, if_neg (htopptr x), if_pos rfl] at hpointers
      have hqtop : q ≠ some s.top := by
        rintro rfl
        cases hrest with
        | cons ha => exact Option.some_ne_none _ (ha.symm.trans htopnode)
      rw [if_neg hqtop] at hpointers
      have hone : t.pointers s.top = 1 := by omega
      rw [hone]
      exact ⟨rfl, Nat.one_pos⟩
    · obtain ⟨c₀, hc₀, hcc⟩ := hcount b hb c hc
      obtain ⟨heq, hpos⟩ := h.count b c₀ hc₀
      rw [if_neg (Ne.symm hb), Nat.add_zero] at hpointers
      refine ⟨count_add heq hcc hpointers, ?_⟩
      specialize hshared b
      split at hpointers
      · rename_i hxb
        split at hpointers
        · omega
        · rename_i hqb
          have := hshared hxb hqb
          omega
      · omega
  · rw [List.append_cons] at hpath
    exact hptr ▸ hpath.of_append hown'.path

theorem pointers_setPtr (h : Sound s) (hi : i < s.size) (hown : s.linked.Own i x pre)
    (hlinked : t.linked = s.linked.setPtr x q) (hsize : t.size = s.size) (htop : t.top = s.top)
    (b : ℕ) :
    t.pointers b + (if s.linked.ptr x = some b then 1 else 0) =
      s.pointers b + if q = some b then 1 else 0 := by
  rw [pointers, hlinked, ptr_setPtr hown.place_node, places_eq hsize htop]
  exact pointersTo_update (h.place hi hown) q b

/-- The counts after a change of one pointer. -/
theorem Sound.count_of_pointers (h : Sound s)
    (hpointers : ∀ b, t.pointers b + (if s.linked.ptr x = some b then 1 else 0) =
      s.pointers b + if q = some b then 1 else 0)
    (hcount : ∀ b c', t.countOf b = some c' → ∃ c, s.countOf b = some c ∧
      c' + UInt32.ofNat (if s.linked.ptr x = some b then 1 else 0) =
        c + UInt32.ofNat (if q = some b then 1 else 0))
    (hshared : ∀ b, s.linked.ptr x = some b → q ≠ some b → t.countOf b ≠ none → 1 < s.pointers b)
    (b : ℕ) (c : UInt32) (hc : t.countOf b = some c) :
    c = UInt32.ofNat (t.pointers b) ∧ 0 < t.pointers b := by
  obtain ⟨c₀, hc₀, hcc⟩ := hcount b c hc
  obtain ⟨heq, hpos⟩ := h.count b c₀ hc₀
  specialize hpointers b
  refine ⟨count_add heq hcc hpointers, ?_⟩
  split at hpointers
  · rename_i hxb
    split at hpointers
    · omega
    · rename_i hqb
      have := hshared b hxb hqb (by simp [hc])
      omega
  · omega

/-- The pointer after the own nodes of a list is changed. -/
theorem Sound.redirect (h : Sound s) (hi : i < s.size) (hown : s.linked.Own i x pre)
    (hq : ∀ b ∈ pre.map (·.1), q ≠ some b) (hrest : s.linked.Path q rest none)
    (hlinked : t.linked = s.linked.setPtr x q) (hsize : t.size = s.size) (htop : t.top = s.top)
    (hcount : ∀ b c', t.countOf b = some c' → ∃ c, s.countOf b = some c ∧
      c' + UInt32.ofNat (if s.linked.ptr x = some b then 1 else 0) =
        c + UInt32.ofNat (if q = some b then 1 else 0))
    (hshared : ∀ b, s.linked.ptr x = some b → q ≠ some b → 1 < s.pointers b) :
    Sound t ∧ Keeps s t i ∧ t.linked.Path (t.lists i) (pre ++ rest) none := by
  have hx := h.place hi hown
  obtain ⟨hall, hkeeps, hpath⟩ := h.linked.redirect hown hq hrest
  have hpointers := pointers_setPtr h hi hown hlinked hsize htop
  rw [← hlinked] at hall hkeeps hpath
  refine ⟨⟨hall, fun a ha => ?_, fun j hj => ?_,
    h.count_of_pointers hpointers hcount fun b hb hqb _ => hshared b hb hqb⟩, hkeeps, hpath⟩
  · rw [htop] at ha
    rw [nodes_eq_none, hlinked]
    exact setPtr_node_eq_none (nodes_eq_none.1 (h.nodes a ha))
  · rw [hsize] at hj
    have hjx : .inl j ≠ x := by
      rintro rfl
      simp [places] at hx
      omega
    have heq : t.linked.heads j = s.linked.heads j := by rw [hlinked, setPtr_heads_of_ne hjx]
    exact heq.trans (h.lists j hj)

/-- The last one of the own nodes is left out and freed. -/
theorem Sound.delete (h : Sound s) (hi : i < s.size) (hown : s.linked.Own i x pre)
    (hx : s.linked.ptr x = some a) (ha : s.nodes a = some nd) (hone : s.pointers a = 1)
    (hrest : s.linked.Path nd.next rest none)
    (hlinked : t.linked = (s.linked.setPtr x nd.next).setNode a none) (hsize : t.size = s.size)
    (htop : t.top = s.top) (hcount : t.countOf = Function.update s.countOf a none) :
    Sound t ∧ Keeps s t i ∧ t.linked.Path (t.lists i) (pre ++ rest) none ∧
      ∀ b, t.pointers b ≤ s.pointers b := by
  have hplace := h.place hi hown
  have hnode := node_of_nodes ha
  obtain ⟨hall, hkeeps, hpath⟩ := h.linked.delete hown hx hnode (h.sole hone) hrest
  have hfresh := (h.linked.rest_ne hown hx hnode).1
  have hxa : .inr a ≠ x := by
    rintro rfl
    exact hfresh hown.mem_of_inr
  rw [← hlinked] at hall hkeeps hpath
  -- the pointer to the next node has moved
  have hpointers (b : ℕ) :
      t.pointers b + (if s.linked.ptr x = some b then 1 else 0) = s.pointers b := by
    have hfirst := pointersTo_update hplace (f := s.linked.ptr) nd.next b
    have hmem : .inr a ∈ s.places := by
      simp only [places, Finset.inr_mem_disjSum, Finset.mem_range]
      by_contra hlt
      exact Option.some_ne_none _ (ha.symm.trans (h.nodes a (not_lt.1 hlt)))
    have hsecond := pointersTo_update hmem (f := Function.update s.linked.ptr x nd.next) none b
    have hlink : s.linked.ptr (.inr a) = nd.next := by
      rw [LinkedNodes.ptr, hnode]
      rfl
    rw [Function.update_of_ne hxa, hlink, if_neg (Option.some_ne_none b).symm] at hsecond
    rw [pointers, pointers, hlinked, ptr_setNode, ptr_setPtr hown.place_node, places_eq hsize htop]
    change pointersTo s.places (Function.update _ _ none) b + _ = _
    omega
  refine ⟨⟨hall, fun b hb => ?_, fun j hj => ?_, fun b c hc => ?_⟩, hkeeps, hpath, fun b => ?_⟩
  · rw [htop] at hb
    rw [nodes_eq_none, hlinked]
    by_cases hba : b = a
    · rw [hba, setNode_node_self]
    · rw [setNode_node_of_ne hba]
      exact setPtr_node_eq_none (nodes_eq_none.1 (h.nodes b hb))
  · rw [hsize] at hj
    have hjx : .inl j ≠ x := by
      rintro rfl
      simp [places] at hplace
      omega
    have heq : t.linked.heads j = s.linked.heads j := by
      rw [hlinked]
      exact setPtr_heads_of_ne hjx
    exact heq.trans (h.lists j hj)
  · have hba : b ≠ a := by
      rintro rfl
      rw [hcount, Function.update_self] at hc
      exact Option.some_ne_none c hc.symm
    specialize hpointers b
    rw [hx, if_neg (fun heq => hba (Option.some_inj.1 heq).symm), Nat.add_zero] at hpointers
    rw [hpointers]
    rw [hcount, Function.update_of_ne hba] at hc
    exact h.count b c hc
  · exact (Nat.le_add_right ..).trans (hpointers b).le

/-- The content of the last one of the own nodes is changed. -/
theorem Sound.rewrite (h : Sound s) (hown : s.linked.Own i x pre)
    (hx : s.linked.ptr x = some a) (ha : s.nodes a = some nd) (hone : s.pointers a = 1)
    (hrest : s.linked.Path nd.next rest none) (nd' : TagData) (hnext : nd'.next = nd.next)
    (hcount : nd'.count = nd.count) :
    Sound (s.setNode a nd') ∧ Keeps s (s.setNode a nd') i ∧
      (s.setNode a nd').linked.Path (s.lists i) (pre ++ (a, nd'.tag) :: rest) none := by
  have hnode := node_of_nodes ha
  obtain ⟨hall, hkeeps, hpath⟩ := h.linked.rewrite hown hx hnode (h.sole hone) hrest nd'.tag
  rw [← hnext, ← linked_setNode] at hall hkeeps hpath
  have hptr : (s.setNode a nd').linked.ptr = s.linked.ptr := by
    rw [linked_setNode, ptr_setNode, Function.update_eq_self_iff, LinkedNodes.ptr, hnode, hnext]
    rfl
  refine ⟨⟨hall, fun b hb => ?_, h.lists, fun b c hc => ?_⟩, hkeeps, hpath⟩
  · refine (Function.update_of_ne ?_ ..).trans (h.nodes b hb)
    rintro rfl
    exact Option.some_ne_none _ (ha.symm.trans (h.nodes b hb))
  · rw [pointers, hptr]
    apply h.count b c
    rw [countOf_setNode, hcount] at hc
    by_cases hba : b = a
    · subst hba
      rw [Function.update_self] at hc
      rw [countOf_eq ha, ← hc]
    · rwa [Function.update_of_ne hba] at hc

/-! ### The loops of `COWTraverse` -/

theorem Keeps.trans {u : TagTree} (h : Keeps s t i) (h' : Keeps t u i) : Keeps s u i :=
  fun j hj l hl => h' j hj l (h j hj l hl)

theorem Sound.length_le (h : Sound s) {l : List (ℕ × PacketTag)} (hl : s.linked.Path p l none) :
    l.length ≤ s.top := by
  rw [← List.length_map (f := (·.1)), ← List.toFinset_card_of_nodup hl.nodup,
    ← Finset.card_range s.top]
  refine Finset.card_le_card fun a ha => Finset.mem_range.2 ?_
  by_contra hlt
  exact hl.node_ne_none (List.mem_toFinset.1 ha) (nodes_eq_none.1 (h.nodes a (not_lt.1 hlt)))

/-- The first node of a path, and what follows. -/
theorem path_cons {l : List (ℕ × PacketTag)} {y : ℕ × PacketTag}
    (hl : s.linked.Path p (y :: l) none) : ∃ nd, p = some y.1 ∧ s.nodes y.1 = some nd ∧
      nd.tag = y.2 ∧ s.linked.Path nd.next l none := by
  cases hl with
  | cons ha hl =>
    obtain ⟨nd, hnd, heq⟩ := Option.map_eq_some_iff.1 ha
    cases heq
    exact ⟨nd, rfl, hnd, rfl, hl⟩

theorem search_spec (h : Sound s) (hfew : Few s) (tid : UInt16) {l : List (ℕ × PacketTag)}
    {fuel : ℕ} (hown : s.linked.Own i x pre) (hp : s.linked.ptr x = p)
    (hl : s.linked.Path p l none) (hfuel : l.length ≤ fuel) :
    (s.search tid fuel p x = some .absent ∧ ∀ y ∈ l, y.2.tid ≠ tid) ∨
    (∃ cur y mid rest nd, s.search tid fuel p x = some (.found cur y) ∧
      l = mid ++ (cur, nd.tag) :: rest ∧ (∀ z ∈ mid, z.2.tid ≠ tid) ∧ nd.tid = tid ∧
      s.linked.Own i y (pre ++ mid) ∧ s.linked.ptr y = some cur ∧ s.nodes cur = some nd ∧
      s.pointers cur = 1 ∧ s.linked.Path nd.next rest none) ∨
    ∃ cur y mid rest, s.search tid fuel p x = some (.merge cur y) ∧ l = mid ++ rest ∧
      (∀ z ∈ mid, z.2.tid ≠ tid) ∧ s.linked.Own i y (pre ++ mid) ∧ s.linked.ptr y = some cur ∧
      s.linked.Path (some cur) rest none ∧ 1 < s.pointers cur := by
  induction l generalizing p x pre fuel with
  | nil =>
    cases hl
    refine .inl ⟨?_, fun y hy => absurd hy List.not_mem_nil⟩
    cases fuel with
    | zero => rfl
    | succ fuel => rfl
  | cons y l ih =>
    obtain ⟨nd, rfl, hnd, htag, hrest⟩ := path_cons hl
    obtain ⟨fuel, rfl⟩ := Nat.exists_eq_succ_of_ne_zero (Nat.ne_zero_of_lt hfuel)
    have hfuel' : l.length ≤ fuel := Nat.le_of_succ_le_succ hfuel
    have hcount := h.count_toNat hfew hnd
    have hstep : s.search tid (fuel + 1) (some y.1) x =
        if nd.count > 1 then some (.merge y.1 x)
        else if nd.tid = tid then some (.found y.1 x)
        else s.search tid fuel nd.next (.inr y.1) := by
      rw [search, hnd]
      rfl
    by_cases hmerge : nd.count > 1
    · rw [if_pos hmerge] at hstep
      refine .inr (.inr ⟨y.1, x, [], y :: l, hstep, rfl, fun z hz => absurd hz List.not_mem_nil,
        by rwa [List.append_nil], hp, hl, ?_⟩)
      have hlt := UInt32.lt_iff_toNat_lt.1 hmerge
      rw [← hcount]
      exact hlt
    · rw [if_neg hmerge] at hstep
      have hone : s.pointers y.1 = 1 := by
        have hle := UInt32.le_iff_toNat_le.1 (UInt32.not_lt.1 hmerge)
        have hpos := (h.count y.1 nd.count (countOf_eq hnd)).2
        have hval : (1 : UInt32).toNat = 1 := rfl
        omega
      by_cases htid : nd.tid = tid
      · rw [if_pos htid] at hstep
        refine .inr (.inl ⟨y.1, x, [], l, nd, hstep, ?_, fun z hz => absurd hz List.not_mem_nil,
          htid, by rwa [List.append_nil], hp, hnd, hone, hrest⟩)
        rw [htag]
        rfl
      · rw [if_neg htid] at hstep
        have hnode := node_of_nodes hnd
        have hown' := hown.snoc hp hnode (h.sole hone)
        have hptr : s.linked.ptr (.inr y.1) = nd.next := by
          rw [LinkedNodes.ptr, hnode]
          rfl
        have hytid : y.2.tid ≠ tid := by
          rw [← htag]
          exact htid
        have happend (mid : List (ℕ × PacketTag)) :
            pre ++ [(y.1, nd.tag)] ++ mid = pre ++ y :: mid := by
          rw [htag]
          simp
        rw [hstep]
        obtain ⟨habsent, hnone⟩ | ⟨cur, z, mid, rest, nd', hfound, rfl, hmid, hrest'⟩ |
            ⟨cur, z, mid, rest, hmerge', rfl, hmid, hrest'⟩ :=
          ih hown' hptr hrest hfuel'
        · exact .inl ⟨habsent, List.forall_mem_cons.2 ⟨hytid, hnone⟩⟩
        · rw [happend] at hrest'
          exact .inr (.inl ⟨cur, z, y :: mid, rest, nd', hfound, rfl,
            List.forall_mem_cons.2 ⟨hytid, hmid⟩, hrest'⟩)
        · rw [happend] at hrest'
          exact .inr (.inr ⟨cur, z, y :: mid, rest, hmerge', rfl,
            List.forall_mem_cons.2 ⟨hytid, hmid⟩, hrest'⟩)

theorem holds_eq (tid : UInt16) {l : List (ℕ × PacketTag)} {fuel : ℕ}
    (hl : s.linked.Path p l none) (hfuel : l.length ≤ fuel) :
    s.holds tid fuel p = some (l.any (·.2.tid = tid)) := by
  induction l generalizing p fuel with
  | nil =>
    cases hl
    cases fuel with
    | zero => rfl
    | succ fuel => rfl
  | cons y l ih =>
    obtain ⟨nd, rfl, hnd, htag, hrest⟩ := path_cons hl
    obtain ⟨fuel, rfl⟩ := Nat.exists_eq_succ_of_ne_zero (Nat.ne_zero_of_lt hfuel)
    have hfuel' : l.length ≤ fuel := Nat.le_of_succ_le_succ hfuel
    have htid : nd.tid = y.2.tid := congrArg PacketTag.tid htag
    have hstep : s.holds tid (fuel + 1) (some y.1) =
        if nd.tid = tid then some true else s.holds tid fuel nd.next := by
      rw [holds, hnd]
      rfl
    rw [hstep, htid, List.any_cons]
    by_cases h : y.2.tid = tid
    · simp [h]
    · rw [if_neg h, ih hrest hfuel']
      simp [h]

/-- A node does not lead back to itself. -/
theorem next_ne (ha : s.nodes a = some nd) (hrest : s.linked.Path nd.next rest none) :
    nd.next ≠ some a := by
  have hnodup := (LinkedNodes.Path.cons (node_of_nodes ha) hrest).nodup
  rw [List.map_cons, List.nodup_cons] at hnodup
  intro heq
  rw [heq] at hrest
  cases hrest
  exact hnodup.1 List.mem_cons_self

/-- The counts after one pointer has moved on from `a` to the node after it. -/
theorem moved_count (ha : s.nodes a = some nd) (hnext : nd.next ≠ some a) {b : ℕ} {c : UInt32}
    (hc : ((Function.update s.countOf a (some (nd.count - 1)) b).map
      fun c => if nd.next = some b then c + 1 else c) = some c) :
    ∃ c₀, s.countOf b = some c₀ ∧ c + UInt32.ofNat (if some a = some b then 1 else 0) =
      c₀ + UInt32.ofNat (if nd.next = some b then 1 else 0) := by
  by_cases hba : b = a
  · subst hba
    rw [Function.update_self, Option.map_some, if_neg hnext] at hc
    cases hc
    refine ⟨nd.count, countOf_eq ha, ?_⟩
    rw [if_pos rfl, if_neg hnext]
    exact (sub_add_cancel ..).trans (add_zero _).symm
  · rw [Function.update_of_ne hba] at hc
    obtain ⟨c₀, hc₀, rfl⟩ := Option.map_eq_some_iff.1 hc
    refine ⟨c₀, hc₀, ?_⟩
    rw [if_neg fun heq => hba (Option.some_inj.1 heq).symm]
    split
    · exact add_zero _
    · rfl

/-- A shared node is copied. -/
theorem copyNode_spec (h : Sound s) (hi : i < s.size) (hown : s.linked.Own i x pre)
    (hx : s.linked.ptr x = some a) (ha : s.nodes a = some nd) (hshared : 1 < s.pointers a)
    (hrest : s.linked.Path nd.next rest none) (tag : PacketTag) :
    ∃ t, s.copyNode tag a x = some t ∧ Sound t ∧ t.size = s.size ∧ t.top = s.top + 1 ∧
      Keeps s t i ∧ t.linked.Own i (.inr s.top) (pre ++ [(s.top, tag)]) ∧
      t.linked.ptr (.inr s.top) = nd.next ∧ t.linked.Path nd.next rest none ∧
      ∀ b, nd.next = some b → 1 < t.pointers b := by
  have hnode := node_of_nodes ha
  obtain ⟨hfresh, hq⟩ := h.linked.rest_ne hown hx hnode
  obtain ⟨s₁, hs₁, hlinked₁, hsize₁, htop₁, hcount₁⟩ := countDown_eq ha
  have hnext := next_ne ha hrest
  have hane : a ≠ s.top := by
    rintro rfl
    exact Option.some_ne_none _ (ha.symm.trans (h.nodes _ le_rfl))
  let s₂ := s₁.createTagData ⟨nd.next, 1, tag.tid, tag.data⟩
  have hlinked₂ : s₂.linked = s.linked.setNode s.top (some (nd.next, tag)) := by
    rw [linked_createTagData, hlinked₁, htop₁]
    rfl
  have hallocated (b : ℕ) (hb : nd.next = some b) : s₂.linked.node b ≠ none := by
    rw [hb] at hrest
    cases hrest with
    | cons hb =>
      rw [hlinked₂, setNode_node_of_ne]
      · exact Option.ne_none_iff_exists'.2 ⟨_, hb⟩
      · rintro rfl
        exact Option.some_ne_none _ (hb.symm.trans h.top_ptr.1)
  obtain ⟨s₃, hs₃, hlinked₃, hsize₃, htop₃, hcount₃⟩ := countUp_eq hallocated
  have hresult : s.copyNode tag a x = some (s₃.setPtr x (some s.top)) := by
    rw [copyNode, ha]
    change (s.countDown a).bind _ = _
    rw [hs₁]
    change (s₂.countUp nd.next).bind _ = _
    rw [hs₃]
    rfl
  have hlinked : (s₃.setPtr x (some s.top)).linked =
      (s.linked.setNode s.top (some (nd.next, tag))).setPtr x (some s.top) := by
    rw [linked_setPtr, hlinked₃, hlinked₂]
  have hsize : (s₃.setPtr x (some s.top)).size = s.size := setPtr_size.trans (hsize₃.trans hsize₁)
  have htop : (s₃.setPtr x (some s.top)).top = s.top + 1 :=
    setPtr_top.trans (htop₃.trans (congrArg (· + 1) htop₁))
  have hcount (b : ℕ) : (s₃.setPtr x (some s.top)).countOf b =
      (Function.update (Function.update s.countOf a (some (nd.count - 1))) s.top (some 1) b).map
        fun c => if nd.next = some b then c + 1 else c := by
    rw [countOf_setPtr, hcount₃, countOf_createTagData, hcount₁, htop₁]
  have hnexttop : nd.next ≠ some s.top := fun heq => h.top_ptr.2 (.inr a) (by
    rw [LinkedNodes.ptr, hnode, ← heq]
    rfl)
  obtain ⟨ht, hkeeps, hown', hptr, hrest'⟩ := h.insert hi hown hq hrest hlinked hsize htop
    (by rw [hcount, Function.update_self, Option.map_some, if_neg hnexttop])
    (fun b hb c hc => by
      rw [hcount, Function.update_of_ne hb] at hc
      rw [hx]
      exact moved_count ha hnext hc)
    fun b hxb _ => by
      rw [hx] at hxb
      rwa [← Option.some_inj.1 hxb]
  refine ⟨_, hresult, ht, hsize, htop, hkeeps, hown', hptr, hrest', fun b hb => ?_⟩
  -- the copy and the node that was copied both lead on to the next one
  have hpointers := pointers_insert h hi hown hlinked hsize htop b
  have hba : s.linked.ptr x ≠ some b := by
    rw [hx, ← hb]
    exact hnext.symm
  obtain ⟨ndb, hndb⟩ := exists_nodes (h.linked.node_of_ptr (x := .inr a) (a := b) (by
    rw [LinkedNodes.ptr, hnode, ← hb]
    rfl))
  have hpos := (h.count b ndb.count (countOf_eq hndb)).2
  rw [if_neg hba, if_pos hb] at hpointers
  omega

/-- The nodes up to the one of the kind are copied. -/
theorem copyUntil_spec (h : Sound s) (hi : i < s.size) (tid : UInt16)
    {l : List (ℕ × PacketTag)} {fuel : ℕ} (hown : s.linked.Own i x pre)
    (hx : s.linked.ptr x = some a) (hl : s.linked.Path (some a) l none)
    (hshared : 1 < s.pointers a) (htid : ∃ y ∈ l, y.2.tid = tid) (hfuel : l.length ≤ fuel) :
    ∃ t cur y pre' mid rest nd, copyUntil tid fuel s a x = some (t, cur, y) ∧ Sound t ∧
      t.size = s.size ∧ Keeps s t i ∧ t.linked.Own i y pre' ∧ t.linked.ptr y = some cur ∧
      t.nodes cur = some nd ∧ nd.tid = tid ∧ t.linked.Path nd.next rest none ∧
      1 < t.pointers cur ∧ pre'.map (·.2) = pre.map (·.2) ++ mid ∧
      l.map (·.2) = mid ++ nd.tag :: rest.map (·.2) ∧ ∀ z ∈ mid, z.tid ≠ tid := by
  induction l generalizing s x a pre fuel with
  | nil =>
    obtain ⟨y, hy, -⟩ := htid
    exact absurd hy List.not_mem_nil
  | cons y l ih =>
    obtain ⟨nd, heq, hnd, htag, hrest⟩ := path_cons hl
    obtain rfl := Option.some_inj.1 heq
    obtain ⟨fuel, rfl⟩ := Nat.exists_eq_succ_of_ne_zero (Nat.ne_zero_of_lt hfuel)
    have hfuel' : l.length ≤ fuel := Nat.le_of_succ_le_succ hfuel
    by_cases hfound : nd.tid = tid
    · refine ⟨s, y.1, x, pre, [], l, nd, ?_, h, rfl, fun j _ l hl => hl, hown, hx, hnd, hfound,
        hrest, hshared, (List.append_nil _).symm, ?_, fun z hz => absurd hz List.not_mem_nil⟩
      · rw [copyUntil, hnd]
        change (if nd.tid = tid then _ else _) = _
        rw [if_pos hfound]
        rfl
      · rw [htag]
        rfl
    · have hytid : y.2.tid ≠ tid := by
        rw [← htag]
        exact hfound
      have htid' : ∃ z ∈ l, z.2.tid = tid := by
        obtain ⟨z, hz, hztid⟩ := htid
        rcases List.mem_cons.1 hz with rfl | hz
        · exact absurd hztid hytid
        · exact ⟨z, hz, hztid⟩
      obtain ⟨next, hnext⟩ : ∃ next, nd.next = some next := by
        obtain ⟨z, hz, -⟩ := htid'
        cases hrest' : nd.next with
        | none =>
          rw [hrest'] at hrest
          cases hrest
          exact absurd hz List.not_mem_nil
        | some next => exact ⟨next, rfl⟩
      obtain ⟨t, hcopy, ht, hsize, htop, hkeeps, hown', hptr, hrest', hpointers⟩ :=
        copyNode_spec h hi hown hx hnd hshared hrest nd.tag
      rw [hnext] at hptr hrest'
      obtain ⟨u, cur, z, pre', mid, rest, nd', hresult, hu, husize, hukeeps, huown, huptr, hunode,
          hutid, hurest, hupointers, hupre, hul, humid⟩ :=
        ih ht (hsize ▸ hi) hown' hptr hrest' (hpointers next hnext) htid' hfuel'
      refine ⟨u, cur, z, pre', nd.tag :: mid, rest, nd', ?_, hu, husize.trans hsize,
        hkeeps.trans hukeeps, huown, huptr, hunode, hutid, hurest, hupointers, ?_, ?_, ?_⟩
      · rw [copyUntil, hnd]
        change (if nd.tid = tid then _ else nd.next.bind _) = _
        rw [if_neg hfound, hnext]
        change (s.copyNode nd.tag y.1 x).bind _ = _
        rw [hcopy]
        exact hresult
      · rw [hupre]
        simp
      · rw [List.map_cons, hul, htag]
        rfl
      · exact List.forall_mem_cons.2 ⟨hfound, humid⟩

/-- `COWTraverse` up to the call of the writer. -/
theorem cowTraverse_spec (h : Sound s) (hfew : Few s) (hi : i < s.size) (tid : UInt16)
    {l : List (ℕ × PacketTag)} (hl : s.linked.Path (s.lists i) l none) (writer : Writer) :
    (s.cowTraverse i tid writer = some (s, none) ∧ ∀ y ∈ l, y.2.tid ≠ tid) ∨
    (∃ cur y pre rest nd, s.cowTraverse i tid writer =
        (writer s true cur y).map (fun r => (r.1, some r.2)) ∧
      s.search tid s.top (s.lists i) (.inl i) = some (.found cur y) ∧
      l = pre ++ (cur, nd.tag) :: rest ∧ (∀ z ∈ pre, z.2.tid ≠ tid) ∧ nd.tid = tid ∧
      s.linked.Own i y pre ∧ s.linked.ptr y = some cur ∧ s.nodes cur = some nd ∧
      s.pointers cur = 1 ∧ s.linked.Path nd.next rest none) ∨
    ∃ t cur y pre rest nd, s.cowTraverse i tid writer =
        (writer t false cur y).map (fun r => (r.1, some r.2)) ∧ Sound t ∧ t.size = s.size ∧
      Keeps s t i ∧ t.linked.Own i y pre ∧ t.linked.ptr y = some cur ∧ t.nodes cur = some nd ∧
      nd.tid = tid ∧ t.linked.Path nd.next rest none ∧ 1 < t.pointers cur ∧
      l.map (·.2) = pre.map (·.2) ++ nd.tag :: rest.map (·.2) ∧ ∀ z ∈ pre, z.2.tid ≠ tid := by
  have hle := h.length_le hl
  have hp : s.linked.ptr (.inl i) = s.lists i := rfl
  obtain ⟨hsearch, hnone⟩ | ⟨cur, y, mid, rest, nd, hsearch, rfl, hmid, htid, hown, hrest⟩ |
      ⟨cur, y, mid, rest, hsearch, rfl, hmid, hown, hy, hrest, hshared⟩ :=
    search_spec h hfew tid .head hp hl hle
  · refine .inl ⟨?_, hnone⟩
    rw [cowTraverse, hsearch]
    rfl
  · refine .inr (.inl ⟨cur, y, mid, rest, nd, ?_, hsearch, rfl, hmid, htid, hown, hrest⟩)
    rw [cowTraverse, hsearch, Option.map_eq_bind]
    rfl
  · by_cases hany : ∃ z ∈ rest, z.2.tid = tid
    · obtain ⟨t, cur', y', pre', mid', rest', nd, hcopy, ht, hsize, hkeeps, hown', hy', hnode, htid,
          hrest', hshared', hpre', hlist, hmid'⟩ :=
        copyUntil_spec h hi tid hown hy hrest hshared hany (h.length_le hrest)
      refine .inr (.inr ⟨t, cur', y', pre', rest', nd, ?_, ht, hsize, hkeeps, hown', hy', hnode,
        htid, hrest', hshared', ?_, ?_⟩)
      · have hany' : rest.any (·.2.tid = tid) = true := by simpa using hany
        rw [cowTraverse, hsearch, Option.map_eq_bind]
        change (s.holds tid s.top (some cur)).bind _ = _
        rw [holds_eq tid hrest (h.length_le hrest), hany']
        change (copyUntil tid s.top s cur y).bind _ = _
        rw [hcopy]
        rfl
      · rw [List.map_append, hlist, hpre']
        simp
      · intro z hz
        have hmem : z.2 ∈ pre'.map (·.2) := List.mem_map.2 ⟨z, hz, rfl⟩
        rw [hpre', List.nil_append, List.mem_append] at hmem
        rcases hmem with hmem | hmem
        · obtain ⟨w, hw, heq⟩ := List.mem_map.1 hmem
          rw [← heq]
          exact hmid w hw
        · exact hmid' z.2 hmem
    · refine .inl ⟨?_, ?_⟩
      · have hany' : rest.any (·.2.tid = tid) = false := by
          rw [List.any_eq_false]
          exact fun z hz htid => hany ⟨z, hz, by simpa using htid⟩
        rw [cowTraverse, hsearch]
        change (s.holds tid s.top (some cur)).bind _ = _
        rw [holds_eq tid hrest (h.length_le hrest), hany']
        rfl
      · refine List.forall_mem_append.2 ⟨hmid, fun z hz htid => hany ⟨z, hz, htid⟩⟩

end Insert

end TagTree

end SeanetSim
