import Mathlib.Data.Finset.Card
import Mathlib.Data.List.Nodup
import Mathlib.Logic.Function.Basic

/-!
# Linked nodes

Lists that share nodes: each begins at a head, and each node is linked to the next one.  A place
where a pointer is kept is a head or the link of a node.  The nodes at the begin of a list that only
one place points to are its own, and what is changed there does not show in another list
(`LinkedNodes.AllLinked.rewire`).
-/

namespace SeanetSim

variable {ι α β : Type*}

structure LinkedNodes (ι α β : Type*) where
  heads : ι → Option α
  /-- The link and the content of a node that is there. -/
  node : α → Option (Option α × β)

namespace LinkedNodes

variable {L L' : LinkedNodes ι α β} {p q r : Option α} {l l' : List (α × β)} {a b : α} {t : β}

/-- The pointer at a place. -/
def ptr (L : LinkedNodes ι α β) : ι ⊕ α → Option α
  | .inl i => L.heads i
  | .inr a => (L.node a).bind (·.1)

/-! ### What is read along the links -/

/-- The nodes from `p` on up to `q`, with their contents. -/
inductive Path (L : LinkedNodes ι α β) : Option α → List (α × β) → Option α → Prop
  | nil {p : Option α} : Path L p [] p
  | cons {a : α} {p q : Option α} {t : β} {l : List (α × β)} (ha : L.node a = some (p, t))
      (hl : Path L p l q) : Path L (some a) ((a, t) :: l) q

namespace Path

theorem append (h : Path L p l q) (h' : Path L q l' r) : Path L p (l ++ l') r := by
  induction h with
  | nil => exact h'
  | cons ha _ ih => exact .cons ha (ih h')

theorem unique (h : Path L p l none) (h' : Path L p l' none) : l = l' := by
  induction l generalizing p l' with
  | nil =>
    cases h
    cases h'
    rfl
  | cons x l ih =>
    cases h with
    | cons ha hl =>
      cases h' with
      | cons ha' hl' =>
        rw [ha] at ha'
        cases ha'
        rw [ih hl hl']

/-- The way to a node of a path and on from there. -/
theorem split (h : Path L p l q) (ha : a ∈ l.map (·.1)) :
    ∃ t before after, l = before ++ (a, t) :: after ∧ Path L p before (some a) ∧
      Path L (some a) ((a, t) :: after) q := by
  induction h with
  | nil => exact absurd ha List.not_mem_nil
  | cons hnode hl ih =>
    rename_i b p q t l
    rcases List.mem_cons.1 ha with rfl | ha
    · exact ⟨t, [], l, rfl, .nil, .cons hnode hl⟩
    · obtain ⟨u, before, after, rfl, hbefore, hafter⟩ := ih ha
      exact ⟨u, (b, t) :: before, after, rfl, .cons hnode hbefore, hafter⟩

theorem nodup (h : Path L p l none) : (l.map (·.1)).Nodup := by
  induction l generalizing p with
  | nil => exact .nil
  | cons x l ih =>
    cases h with
    | cons ha hl =>
      rename_i a p t
      refine List.nodup_cons.2 ⟨fun hmem => ?_, ih hl⟩
      -- a node that came again would have two ways on
      obtain ⟨u, before, after, rfl, -, hafter⟩ := hl.split hmem
      have heq := congrArg List.length ((Path.cons ha hl).unique hafter)
      simp only [List.length_cons, List.length_append] at heq
      omega

theorem congr (h : Path L p l q) (hnode : ∀ a ∈ l.map (·.1), L'.node a = L.node a) :
    Path L' p l q := by
  induction h with
  | nil => exact .nil
  | cons ha _ ih =>
    refine .cons ((hnode _ List.mem_cons_self).trans ha) (ih fun b hb => ?_)
    exact hnode b (List.mem_cons_of_mem _ hb)

/-- A node of a path is its first one, or another one of it is linked to it. -/
theorem pred (h : Path L p l q) (ha : a ∈ l.map (·.1)) :
    p = some a ∨ ∃ b ∈ l.map (·.1), L.ptr (.inr b) = some a := by
  induction h with
  | nil => exact absurd ha List.not_mem_nil
  | cons hnode hl ih =>
    rename_i b p q t l
    rcases List.mem_cons.1 ha with rfl | ha
    · exact .inl rfl
    · right
      rcases ih ha with rfl | ⟨c, hc, hptr⟩
      · exact ⟨b, List.mem_cons_self, by rw [ptr, hnode]; rfl⟩
      · exact ⟨c, List.mem_cons_of_mem _ hc, hptr⟩

theorem of_append (h : Path L p (l ++ l') r) (h' : Path L p l q) : Path L q l' r := by
  induction h' with
  | nil => exact h
  | cons ha _ ih =>
    cases h with
    | cons ha' hl =>
      rw [ha] at ha'
      cases ha'
      exact ih hl

theorem node_of_mem (h : Path L p l q) (hat : (a, t) ∈ l) : ∃ r, L.node a = some (r, t) := by
  induction h with
  | nil => exact absurd hat List.not_mem_nil
  | cons hnode hl ih =>
    rcases List.mem_cons.1 hat with heq | hat
    · cases heq
      exact ⟨_, hnode⟩
    · exact ih hat

theorem node_ne_none (h : Path L p l q) (ha : a ∈ l.map (·.1)) : L.node a ≠ none := by
  obtain ⟨⟨a, t⟩, hat, rfl⟩ := List.mem_map.1 ha
  obtain ⟨r, hr⟩ := h.node_of_mem hat
  simp [hr]

end Path

/-! ### The nodes of a list of its own -/

/-- No two places point to `a`. -/
def Sole (L : LinkedNodes ι α β) (a : α) : Prop :=
  ∀ x y, L.ptr x = some a → L.ptr y = some a → x = y

/-- The first nodes of the list at `i`, which it does not share, and the place where the pointer to
the next one is kept. -/
inductive Own (L : LinkedNodes ι α β) (i : ι) : ι ⊕ α → List (α × β) → Prop
  | head : Own L i (.inl i) []
  | snoc {x : ι ⊕ α} {pre : List (α × β)} {a : α} {p : Option α} {t : β} (h : Own L i x pre)
      (hptr : L.ptr x = some a) (ha : L.node a = some (p, t)) (hsole : L.Sole a) :
      Own L i (.inr a) (pre ++ [(a, t)])

namespace Own

variable {i j : ι} {x y : ι ⊕ α} {pre : List (α × β)}

theorem path (h : Own L i x pre) : Path L (L.heads i) pre (L.ptr x) := by
  induction h with
  | head => exact .nil
  | snoc _ hptr ha _ ih =>
    apply ih.append
    rw [hptr, ptr, ha]
    exact .cons ha .nil

theorem mem_of_inr (h : Own L i (.inr a) pre) : a ∈ pre.map (·.1) := by
  cases h with
  | snoc => simp

/-- What points to a node of the list's own is the head or another one of these nodes. -/
theorem place (h : Own L i x pre) (ha : a ∈ pre.map (·.1)) (hy : L.ptr y = some a) :
    y = .inl i ∨ ∃ b ∈ pre.map (·.1), y = .inr b := by
  induction h with
  | head => exact absurd ha List.not_mem_nil
  | snoc h hptr hnode hsole ih =>
    rename_i x pre b p t
    rw [List.map_append, List.mem_append] at ha
    rcases ha with ha | ha
    · rcases ih ha with hi | ⟨c, hc, rfl⟩
      · exact .inl hi
      · exact .inr ⟨c, by simp [hc], rfl⟩
    · obtain rfl := List.mem_singleton.1 ha
      obtain rfl := hsole y x hy hptr
      cases h with
      | head => exact .inl rfl
      | snoc => exact .inr ⟨_, by simp, rfl⟩

/-- A path that does not begin at one of the list's own nodes does not come to them. -/
theorem avoid (h : Own L i x pre) (hl : Path L p l q) (hp : ∀ a ∈ pre.map (·.1), p ≠ some a) :
    ∀ a ∈ pre.map (·.1), a ∉ l.map (·.1) := by
  induction h with
  | head => exact fun _ ha => absurd ha List.not_mem_nil
  | snoc h hptr hnode hsole ih =>
    rename_i x pre b r t
    rw [List.map_append] at hp ⊢
    rw [List.forall_mem_append] at hp ⊢
    have hbefore := ih hp.1
    refine ⟨hbefore, List.forall_mem_singleton.2 fun hb => ?_⟩
    rcases hl.pred hb with hfirst | ⟨c, hc, hcb⟩
    · exact hp.2 b (by simp) hfirst
    · obtain rfl := hsole _ _ hcb hptr
      exact hbefore c h.mem_of_inr hc

theorem avoid_head (h : Own L i x pre) (hij : j ≠ i) (hl : Path L (L.heads j) l q) :
    ∀ a ∈ pre.map (·.1), a ∉ l.map (·.1) := by
  refine h.avoid hl fun a ha hj => ?_
  rcases h.place ha (y := .inl j) hj with hi | ⟨b, -, hb⟩
  · exact hij (Sum.inl_injective hi)
  · exact Sum.inl_ne_inr hb

/-- The list after a change of its own nodes that keeps their contents, and the links up to `x`. -/
theorem rewire (h : Own L i x pre) (hnodup : (pre.map (·.1)).Nodup) {rest : List (α × β)}
    (hhead : .inl i ≠ x → L'.heads i = L.heads i)
    (hlink : ∀ a ∈ pre.map (·.1), .inr a ≠ x → L'.ptr (.inr a) = L.ptr (.inr a))
    (hcontent : ∀ a t, (a, t) ∈ pre → ∃ r, L'.node a = some (r, t))
    (hrest : Path L' (L'.ptr x) rest none) :
    Path L' (L'.heads i) (pre ++ rest) none ∧
      ∀ a ∈ pre.map (·.1), ∃ l, Path L' (some a) l none := by
  induction h generalizing rest with
  | head => exact ⟨hrest, fun _ ha => absurd ha List.not_mem_nil⟩
  | snoc h hptr hnode hsole ih =>
    rename_i x pre b r t
    obtain ⟨r', hb⟩ := hcontent b t (by simp)
    rw [ptr, hb] at hrest
    have hcons : Path L' (some b) ((b, t) :: rest) none := .cons hb hrest
    rw [List.map_append] at hnodup
    have hfresh : b ∉ pre.map (·.1) := fun hmem =>
      (List.nodup_append.1 hnodup).2.2 b hmem b (by simp) rfl
    have hx : L'.ptr x = some b := by
      rw [← hptr]
      cases h with
      | head => exact hhead Sum.inl_ne_inr
      | snoc =>
        refine hlink _ (by simp) fun heq => hfresh ?_
        obtain rfl := Sum.inr_injective heq
        simp
    obtain ⟨hlist, hall⟩ := ih (List.nodup_append.1 hnodup).1 (fun _ => hhead Sum.inl_ne_inr)
      (fun a ha _ => by
        refine hlink a (by simp [ha]) fun heq => hfresh ?_
        rwa [← Sum.inr_injective heq])
      (fun a u hau => hcontent a u (by simp [hau])) (hx ▸ hcons)
    refine ⟨by simpa using hlist, ?_⟩
    rw [List.map_append, List.forall_mem_append]
    exact ⟨hall, by simpa using ⟨_, hcons⟩⟩

theorem node_ne_none (h : Own L i x pre) (ha : a ∈ pre.map (·.1)) : L.node a ≠ none :=
  h.path.node_ne_none ha

theorem place_node (h : Own L i x pre) : ∀ a, x = .inr a → L.node a ≠ none := by
  rintro a rfl
  exact h.node_ne_none h.mem_of_inr

/-- The nodes of the list's own are so after a change by which nothing more points to them. -/
theorem congr (h : Own L i x pre) (hnodup : (pre.map (·.1)).Nodup)
    (hptr : ∀ a ∈ pre.map (·.1), ∀ y, L'.ptr y = some a → L.ptr y = some a)
    (hhead : .inl i ≠ x → L'.heads i = L.heads i)
    (hlink : ∀ a ∈ pre.map (·.1), .inr a ≠ x → L'.ptr (.inr a) = L.ptr (.inr a))
    (hcontent : ∀ a t, (a, t) ∈ pre → ∃ r, L'.node a = some (r, t)) : Own L' i x pre := by
  induction h with
  | head => exact .head
  | snoc h hx hnode hsole ih =>
    rename_i x pre b r t
    obtain ⟨r', hb⟩ := hcontent b t (by simp)
    rw [List.map_append] at hnodup
    have hfresh : b ∉ pre.map (·.1) := fun hmem =>
      (List.nodup_append.1 hnodup).2.2 b hmem b (by simp) rfl
    have hx' : L'.ptr x = some b := by
      rw [← hx]
      cases h with
      | head => exact hhead Sum.inl_ne_inr
      | snoc =>
        refine hlink _ (by simp) fun heq => hfresh ?_
        obtain rfl := Sum.inr_injective heq
        simp
    refine .snoc (ih (List.nodup_append.1 hnodup).1 (fun a ha => hptr a (by simp [ha]))
      (fun _ => hhead Sum.inl_ne_inr) (fun a ha _ => ?_)
      (fun a u hau => hcontent a u (by simp [hau]))) hx' hb ?_
    · refine hlink a (by simp [ha]) fun heq => hfresh ?_
      rwa [← Sum.inr_injective heq]
    · exact fun y z hy hz => hsole y z (hptr b (by simp) y hy) (hptr b (by simp) z hz)

end Own

/-- Every list and every node leads to an end. -/
structure AllLinked (L : LinkedNodes ι α β) : Prop where
  heads : ∀ i, ∃ l, Path L (L.heads i) l none
  nodes : ∀ a, L.node a ≠ none → ∃ l, Path L (some a) l none

namespace AllLinked

variable {i j : ι} {x y : ι ⊕ α} {pre pre' rest : List (α × β)}

theorem exists_path (h : AllLinked L) (x : ι ⊕ α) : ∃ l, Path L (L.ptr x) l none := by
  cases x with
  | inl i => exact h.heads i
  | inr a =>
    by_cases ha : L.node a = none
    · exact ⟨[], by rw [LinkedNodes.ptr, ha]; exact .nil⟩
    · obtain ⟨l, hl⟩ := h.nodes a ha
      cases hl with
      | cons hnode hl =>
        rw [LinkedNodes.ptr, hnode]
        exact ⟨_, hl⟩

theorem node_of_ptr (h : AllLinked L) (hx : L.ptr x = some a) : L.node a ≠ none := by
  obtain ⟨l, hl⟩ := h.exists_path x
  rw [hx] at hl
  cases hl with
  | cons ha => exact fun hnone => Option.some_ne_none _ (ha.symm.trans hnone)

theorem nodup_of_own (h : AllLinked L) (hown : Own L i x pre) : (pre.map (·.1)).Nodup := by
  obtain ⟨rest, hrest⟩ := h.exists_path x
  have hnodup := (hown.path.append hrest).nodup
  rw [List.map_append] at hnodup
  exact (List.nodup_append.1 hnodup).1

/-- A change of nodes that one list does not share: of `pre'` anything, but of its part `pre` only
the last link. -/
theorem rewire (h : AllLinked L) (hown : Own L i x pre) (hown' : Own L i y pre')
    (hout : ∀ b ∉ pre'.map (·.1), L.node b ≠ none → L'.node b = L.node b)
    (hheads : ∀ j ≠ i, L'.heads j = L.heads j) (hhead : .inl i ≠ x → L'.heads i = L.heads i)
    (hlink : ∀ a ∈ pre.map (·.1), .inr a ≠ x → L'.ptr (.inr a) = L.ptr (.inr a))
    (hcontent : ∀ a t, (a, t) ∈ pre → ∃ r, L'.node a = some (r, t))
    (hrest : Path L' (L'.ptr x) rest none)
    (hnew : ∀ b ∉ pre.map (·.1), L'.node b ≠ none → L.node b = none ∨ b ∈ pre'.map (·.1) →
      ∃ l, Path L' (some b) l none) :
    AllLinked L' ∧ (∀ j ≠ i, ∀ l, Path L (L.heads j) l none → Path L' (L'.heads j) l none) ∧
      Path L' (L'.heads i) (pre ++ rest) none := by
  obtain ⟨hlist, hall⟩ := hown.rewire (h.nodup_of_own hown) hhead hlink hcontent hrest
  have hsame {p : Option α} {l : List (α × β)} (hl : Path L p l none)
      (havoid : ∀ a ∈ pre'.map (·.1), a ∉ l.map (·.1)) : Path L' p l none := by
    exact hl.congr fun a ha => hout a (fun hmem => havoid a hmem ha) (hl.node_ne_none ha)
  have hother (j : ι) (hj : j ≠ i) (l : List (α × β)) (hl : Path L (L.heads j) l none) :
      Path L' (L'.heads j) l none := by
    rw [hheads j hj]
    exact hsame hl (hown'.avoid_head hj hl)
  refine ⟨⟨fun j => ?_, fun b hb => ?_⟩, hother, hlist⟩
  · by_cases hj : j = i
    · subst hj
      exact ⟨_, hlist⟩
    · obtain ⟨l, hl⟩ := h.heads j
      exact ⟨l, hother j hj l hl⟩
  · by_cases hpre : b ∈ pre.map (·.1)
    · exact hall b hpre
    · by_cases hold : L.node b = none ∨ b ∈ pre'.map (·.1)
      · exact hnew b hpre hb hold
      · rw [not_or] at hold
        obtain ⟨l, hl⟩ := h.nodes b hold.1
        refine ⟨l, hsame hl (hown'.avoid hl fun a ha heq => hold.2 ?_)⟩
        rwa [Option.some_inj.1 heq]

/-- What the own nodes of a list and what comes after them do not have in common. -/
theorem rest_ne (h : AllLinked L) (hown : Own L i x pre) (hx : L.ptr x = some a)
    (ha : L.node a = some (q, t)) : a ∉ pre.map (·.1) ∧ ∀ b ∈ pre.map (·.1), q ≠ some b := by
  obtain ⟨l, hl⟩ := h.nodes a (by simp [ha])
  have hnodup := (hown.path.append (hx ▸ hl)).nodup
  rw [List.map_append, List.nodup_append] at hnodup
  cases hl with
  | cons ha' hl =>
    rw [ha] at ha'
    cases ha'
    refine ⟨fun hmem => hnodup.2.2 a hmem a (by simp) rfl, ?_⟩
    rintro b hb rfl
    cases hl
    exact hnodup.2.2 b hb b (by simp) rfl

/-- Where something points to each node, each one is in a list. -/
theorem exists_head (h : AllLinked L) {nodes : Finset α} (hfin : ∀ a, L.node a ≠ none → a ∈ nodes)
    (hptr : ∀ a, L.node a ≠ none → ∃ x, L.ptr x = some a) (ha : L.node a ≠ none) :
    ∃ i l, Path L (L.heads i) l none ∧ a ∈ l.map (·.1) := by
  classical
  obtain ⟨l, hl⟩ := h.nodes a ha
  have hlength {l : List (α × β)} {p : Option α} (hl : Path L p l none) :
      l.length ≤ nodes.card := by
    rw [← List.length_map (f := (·.1)), ← List.toFinset_card_of_nodup hl.nodup]
    exact Finset.card_le_card fun b hb => hfin b (hl.node_ne_none (List.mem_toFinset.1 hb))
  -- up from the node, as long as it is not a head that points to it
  induction hn : nodes.card - l.length using Nat.strong_induction_on generalizing a l with
  | _ n ih =>
    obtain ⟨x, hx⟩ := hptr a ha
    have hmem : a ∈ l.map (·.1) := by
      cases hl
      exact List.mem_cons_self
    cases x with
    | inl i => exact ⟨i, l, by rw [← hx] at hl; exact hl, hmem⟩
    | inr b =>
      obtain ⟨⟨r, t⟩, hb, rfl⟩ := Option.bind_eq_some_iff.1 hx
      have hcons : Path L (some b) ((b, t) :: l) none := .cons hb hl
      have hle := hlength hcons
      rw [List.length_cons] at hle
      obtain ⟨i, l', hl', hbl⟩ := ih (nodes.card - ((b, t) :: l).length)
        (by rw [List.length_cons]; omega) (by simp [hb]) _ hcons rfl
      obtain ⟨u, before, after, rfl, -, hafter⟩ := hl'.split hbl
      refine ⟨i, _, hl', ?_⟩
      rw [← hcons.unique hafter]
      simp [hmem]

end AllLinked

/-! ### Changes -/

section Changes

variable [DecidableEq α] {x y : ι ⊕ α} {n : Option (Option α × β)}

def setNode (L : LinkedNodes ι α β) (a : α) (n : Option (Option α × β)) : LinkedNodes ι α β :=
  { L with node := Function.update L.node a n }

theorem setNode_node_self : (L.setNode a n).node a = n := Function.update_self ..

theorem setNode_node_of_ne (h : b ≠ a) : (L.setNode a n).node b = L.node b :=
  Function.update_of_ne h ..

theorem setNode_self (h : L.node a = n) : L.setNode a n = L := by
  subst h
  exact congrArg (LinkedNodes.mk L.heads ·) (Function.update_eq_self ..)

variable [DecidableEq ι] {i : ι} {pre pre' rest : List (α × β)}

theorem ptr_setNode : (L.setNode a n).ptr = Function.update L.ptr (.inr a) (n.bind (·.1)) := by
  funext x
  by_cases hx : x = .inr a
  · subst hx
    rw [Function.update_self, ptr, setNode_node_self]
  · rw [Function.update_of_ne hx]
    cases x with
    | inl i => rfl
    | inr b => rw [ptr, setNode_node_of_ne (fun heq => hx (congrArg _ heq)), ptr]

/-- Another pointer at a place. -/
def setPtr (L : LinkedNodes ι α β) (x : ι ⊕ α) (p : Option α) : LinkedNodes ι α β :=
  match x with
  | .inl i => { L with heads := Function.update L.heads i p }
  | .inr a => { L with node := Function.update L.node a ((L.node a).map fun n => (p, n.2)) }

theorem setPtr_heads_of_ne (h : .inl i ≠ x) : (L.setPtr x p).heads i = L.heads i := by
  cases x with
  | inl j => exact Function.update_of_ne (fun heq => h (congrArg _ heq)) ..
  | inr b => rfl

theorem setPtr_node_of_ne (h : .inr a ≠ x) : (L.setPtr x p).node a = L.node a := by
  cases x with
  | inl j => rfl
  | inr b => exact Function.update_of_ne (fun heq => h (congrArg _ heq)) ..

theorem setPtr_content (ha : L.node a = some (r, t)) :
    ∃ r, (L.setPtr x p).node a = some (r, t) := by
  by_cases h : .inr a = x
  · subst h
    refine ⟨p, (Function.update_self ..).trans ?_⟩
    rw [ha]
    rfl
  · exact ⟨r, (setPtr_node_of_ne h).trans ha⟩

theorem setPtr_node_eq_none (h : L.node a = none) : (L.setPtr x p).node a = none := by
  by_cases hx : .inr a = x
  · subst hx
    apply (Function.update_self ..).trans
    rw [h]
    rfl
  · exact (setPtr_node_of_ne hx).trans h

theorem ptr_setPtr_of_ne (h : y ≠ x) : (L.setPtr x p).ptr y = L.ptr y := by
  cases y with
  | inl i => exact setPtr_heads_of_ne h
  | inr a => rw [ptr, setPtr_node_of_ne h, ptr]

theorem ptr_setPtr_self (h : ∀ a, x = .inr a → L.node a ≠ none) : (L.setPtr x p).ptr x = p := by
  cases x with
  | inl i => exact Function.update_self ..
  | inr a =>
    obtain ⟨n, hn⟩ := Option.ne_none_iff_exists'.1 (h a rfl)
    change (Function.update L.node a _ a).bind _ = p
    rw [Function.update_self, hn]
    rfl

theorem ptr_setPtr (h : ∀ a, x = .inr a → L.node a ≠ none) :
    (L.setPtr x p).ptr = Function.update L.ptr x p := by
  funext y
  by_cases hy : y = x
  · subst hy
    rw [ptr_setPtr_self h, Function.update_self]
  · rw [ptr_setPtr_of_ne hy, Function.update_of_ne hy]

theorem setPtr_self (h : L.ptr x = p) : L.setPtr x p = L := by
  subst h
  cases x with
  | inl i => exact congrArg (LinkedNodes.mk · L.node) (Function.update_eq_self ..)
  | inr a =>
    refine congrArg (LinkedNodes.mk L.heads ·) ((Function.update_eq_self_iff ..).2 ?_)
    rw [ptr]
    cases L.node a with
    | none => rfl
    | some n => rfl

theorem setPtr_setNode (h : x ≠ .inr a) :
    (L.setNode a n).setPtr x p = (L.setPtr x p).setNode a n := by
  cases x with
  | inl i => rfl
  | inr b =>
    have hba : b ≠ a := fun heq => h (congrArg _ heq)
    apply congrArg (LinkedNodes.mk L.heads ·)
    change Function.update (Function.update L.node a n) b _ =
      Function.update (Function.update _ b _) a n
    rw [setNode_node_of_ne hba, Function.update_comm hba]

namespace AllLinked

/-- The pointer after own nodes is changed, and other nodes than these are. -/
theorem rewire_setPtr (h : AllLinked L) (hown : Own L i x pre) (hown' : Own L i y pre')
    (hsub : pre.map (·.1) ⊆ pre'.map (·.1)) (hheads : L'.heads = L.heads)
    (hout : ∀ b ∉ pre'.map (·.1), L.node b ≠ none → L'.node b = L.node b)
    (hpre : ∀ b ∈ pre.map (·.1), L'.node b = L.node b)
    (hrest : Path (L'.setPtr x p) p rest none)
    (hnew : ∀ b ∉ pre.map (·.1), L'.node b ≠ none → L.node b = none ∨ b ∈ pre'.map (·.1) →
      ∃ l, Path (L'.setPtr x p) (some b) l none) :
    AllLinked (L'.setPtr x p) ∧
      (∀ j ≠ i, ∀ l, Path L (L.heads j) l none →
        Path (L'.setPtr x p) ((L'.setPtr x p).heads j) l none) ∧
      Path (L'.setPtr x p) ((L'.setPtr x p).heads i) (pre ++ rest) none := by
  have hxb {b : α} (hb : b ∉ pre.map (·.1)) : .inr b ≠ x := by
    rintro rfl
    exact hb hown.mem_of_inr
  apply h.rewire hown hown'
  · intro b hb hnode
    rw [setPtr_node_of_ne (hxb fun hmem => hb (hsub hmem)), hout b hb hnode]
  · intro j hj
    rw [setPtr_heads_of_ne, hheads]
    rintro rfl
    cases hown
    exact hj rfl
  · intro hne
    rw [setPtr_heads_of_ne hne, hheads]
  · intro b hb hne
    rw [ptr_setPtr_of_ne hne, ptr, hpre b hb, ptr]
  · intro b u hbu
    obtain ⟨r, hr⟩ := hown.path.node_of_mem hbu
    exact setPtr_content ((hpre b (List.mem_map.2 ⟨_, hbu, rfl⟩)).trans hr)
  · rw [ptr_setPtr_self]
    · exact hrest
    · rintro b rfl
      rw [hpre b hown.mem_of_inr]
      exact hown.place_node b rfl
  · intro b hb hnode
    rw [setPtr_node_of_ne (hxb hb)] at hnode
    exact hnew b hb hnode

/-- A new node after the own nodes of a list. -/
theorem insertNode (h : AllLinked L) (hown : Own L i x pre) (ha : L.node a = none)
    (hq : ∀ b ∈ pre.map (·.1), q ≠ some b) (hrest : Path L q rest none) (t : β) :
    AllLinked ((L.setNode a (some (q, t))).setPtr x (some a)) ∧
      (∀ j ≠ i, ∀ l, Path L (L.heads j) l none →
        Path ((L.setNode a (some (q, t))).setPtr x (some a))
          (((L.setNode a (some (q, t))).setPtr x (some a)).heads j) l none) ∧
      Path ((L.setNode a (some (q, t))).setPtr x (some a))
        (((L.setNode a (some (q, t))).setPtr x (some a)).heads i) (pre ++ (a, t) :: rest) none := by
  have hsame {b : α} (hb : L.node b ≠ none) : (L.setNode a (some (q, t))).node b = L.node b :=
    setNode_node_of_ne fun heq => hb (heq ▸ ha)
  have hxa : .inr a ≠ x := fun heq => hown.place_node a heq.symm ha
  have hrest' : Path ((L.setNode a (some (q, t))).setPtr x (some a)) (some a) ((a, t) :: rest)
      none := by
    refine .cons ((setPtr_node_of_ne hxa).trans setNode_node_self) (hrest.congr fun b hb => ?_)
    rw [setPtr_node_of_ne, hsame (hrest.node_ne_none hb)]
    rintro rfl
    exact hown.avoid hrest hq b hown.mem_of_inr hb
  refine h.rewire_setPtr hown hown (fun _ hb => hb) rfl (fun b _ hb => hsame hb)
    (fun b hb => hsame (hown.node_ne_none hb)) hrest' fun b hb hnode hold => ?_
  have heq : b = a := by
    by_contra hne
    rw [setNode_node_of_ne hne] at hnode
    exact hnode (hold.resolve_right hb)
  rw [heq]
  exact ⟨_, hrest'⟩

/-- The new node is one of the list's own. -/
theorem own_insertNode (h : AllLinked L) (hown : Own L i x pre) (ha : L.node a = none)
    (hfresh : ∀ y, L.ptr y ≠ some a) (hq : ∀ b ∈ pre.map (·.1), q ≠ some b)
    (hrest : Path L q rest none) (t : β) :
    Own ((L.setNode a (some (q, t))).setPtr x (some a)) i (.inr a) (pre ++ [(a, t)]) := by
  have hane {b : α} (hb : b ∈ pre.map (·.1)) : b ≠ a := fun heq =>
    hown.node_ne_none hb (heq ▸ ha)
  have hxa : .inr a ≠ x := fun heq => hown.place_node a heq.symm ha
  have hplace (b : α) (hb : x = .inr b) : (L.setNode a (some (q, t))).node b ≠ none := by
    subst hb
    rw [setNode_node_of_ne (hane hown.mem_of_inr)]
    exact hown.place_node b rfl
  have hnode : ((L.setNode a (some (q, t))).setPtr x (some a)).node a = some (q, t) :=
    (setPtr_node_of_ne hxa).trans setNode_node_self
  -- only the changed place points to the new node
  have hptr {y : ι ⊕ α} (hy : y ≠ x) :
      ((L.setNode a (some (q, t))).setPtr x (some a)).ptr y = q ∧ y = .inr a ∨
        ((L.setNode a (some (q, t))).setPtr x (some a)).ptr y = L.ptr y := by
    rw [ptr_setPtr_of_ne hy, ptr_setNode]
    by_cases hya : y = .inr a
    · subst hya
      exact .inl ⟨Function.update_self .., rfl⟩
    · exact .inr (Function.update_of_ne hya ..)
  have hqa : q ≠ some a := by
    rintro rfl
    cases hrest with
    | cons ha' => exact absurd (ha.symm.trans ha') (Option.some_ne_none _).symm
  have hsole (y : ι ⊕ α)
      (hy : ((L.setNode a (some (q, t))).setPtr x (some a)).ptr y = some a) : y = x := by
    by_contra hne
    rcases hptr hne with ⟨hptr, -⟩ | hptr
    · exact hqa (hptr.symm.trans hy)
    · exact hfresh y (hptr.symm.trans hy)
  refine .snoc (hown.congr (h.nodup_of_own hown) ?_ ?_ ?_ ?_) (ptr_setPtr_self hplace) hnode
    fun y z hy hz => (hsole y hy).trans (hsole z hz).symm
  · intro b hb y hy
    by_cases hyx : y = x
    · subst hyx
      rw [ptr_setPtr_self hplace] at hy
      exact absurd (Option.some_inj.1 hy).symm (hane hb)
    · rcases hptr hyx with ⟨hptr, -⟩ | hptr
      · exact absurd (hptr.symm.trans hy) (hq b hb)
      · exact hptr.symm.trans hy
  · exact fun hne => setPtr_heads_of_ne hne
  · intro b hb hne
    rcases hptr hne with ⟨-, heq⟩ | hptr
    · exact absurd (Sum.inr_injective heq) (hane hb)
    · exact hptr
  · intro b u hbu
    obtain ⟨r, hr⟩ := hown.path.node_of_mem hbu
    exact setPtr_content ((setNode_node_of_ne (hane (List.mem_map.2 ⟨_, hbu, rfl⟩))).trans hr)

/-- The pointer after the own nodes of a list is changed. -/
theorem redirect (h : AllLinked L) (hown : Own L i x pre)
    (hq : ∀ b ∈ pre.map (·.1), q ≠ some b) (hrest : Path L q rest none) :
    AllLinked (L.setPtr x q) ∧
      (∀ j ≠ i, ∀ l, Path L (L.heads j) l none →
        Path (L.setPtr x q) ((L.setPtr x q).heads j) l none) ∧
      Path (L.setPtr x q) ((L.setPtr x q).heads i) (pre ++ rest) none := by
  refine h.rewire_setPtr hown hown (fun _ hb => hb) rfl (fun _ _ _ => rfl) (fun _ _ => rfl)
    (hrest.congr fun b hb => setPtr_node_of_ne ?_) fun b hb hnode hold => ?_
  · rintro rfl
    exact hown.avoid hrest hq b hown.mem_of_inr hb
  · exact absurd (hold.resolve_right hb) hnode

/-- The last one of the own nodes is left out and freed. -/
theorem delete (h : AllLinked L) (hown : Own L i x pre) (hx : L.ptr x = some a)
    (ha : L.node a = some (q, t)) (hsole : L.Sole a) (hrest : Path L q rest none) :
    AllLinked ((L.setPtr x q).setNode a none) ∧
      (∀ j ≠ i, ∀ l, Path L (L.heads j) l none →
        Path ((L.setPtr x q).setNode a none) (((L.setPtr x q).setNode a none).heads j) l none) ∧
      Path ((L.setPtr x q).setNode a none) (((L.setPtr x q).setNode a none).heads i) (pre ++ rest)
        none := by
  obtain ⟨hfresh, hq⟩ := h.rest_ne hown hx ha
  have hown' := hown.snoc hx ha hsole
  have hxa : x ≠ .inr a := by
    rintro rfl
    exact hfresh hown.mem_of_inr
  have hnodup := (Path.cons ha hrest).nodup
  rw [List.map_cons, List.nodup_cons] at hnodup
  rw [← setPtr_setNode hxa]
  refine h.rewire_setPtr hown hown' (by simp) rfl (fun b hb _ => setNode_node_of_ne ?_)
    (fun b hb => setNode_node_of_ne ?_) (hrest.congr fun b hb => ?_) fun b hb hnode hold => ?_
  · rintro rfl
    simp at hb
  · rintro rfl
    exact hfresh hb
  · rw [setPtr_node_of_ne, setNode_node_of_ne]
    · rintro rfl
      exact hnodup.1 hb
    · rintro rfl
      exact hown.avoid hrest hq b hown.mem_of_inr hb
  · have hba : b ≠ a := by
      rintro rfl
      exact hnode setNode_node_self
    rw [setNode_node_of_ne hba] at hnode
    have hmem := hold.resolve_left hnode
    rw [List.map_append, List.mem_append] at hmem
    exact absurd (List.mem_singleton.1 (hmem.resolve_left hb)) hba

/-- The content of the last one of the own nodes is changed. -/
theorem rewrite (h : AllLinked L) (hown : Own L i x pre) (hx : L.ptr x = some a)
    (ha : L.node a = some (q, t)) (hsole : L.Sole a) (hrest : Path L q rest none) (u : β) :
    AllLinked (L.setNode a (some (q, u))) ∧
      (∀ j ≠ i, ∀ l, Path L (L.heads j) l none →
        Path (L.setNode a (some (q, u))) ((L.setNode a (some (q, u))).heads j) l none) ∧
      Path (L.setNode a (some (q, u))) ((L.setNode a (some (q, u))).heads i)
        (pre ++ (a, u) :: rest) none := by
  obtain ⟨hfresh, hq⟩ := h.rest_ne hown hx ha
  have hown' := hown.snoc hx ha hsole
  have hnodup := (Path.cons ha hrest).nodup
  rw [List.map_cons, List.nodup_cons] at hnodup
  have hptr : (L.setNode a (some (q, u))).ptr x = some a := by
    rw [ptr_setNode, Function.update_of_ne, hx]
    rintro rfl
    exact hfresh hown.mem_of_inr
  have hcons : Path (L.setNode a (some (q, u))) (some a) ((a, u) :: rest) none := by
    refine .cons setNode_node_self (hrest.congr fun b hb => setNode_node_of_ne ?_)
    rintro rfl
    exact hnodup.1 hb
  rw [← setPtr_self hptr]
  refine h.rewire_setPtr hown hown' (by simp) rfl (fun b hb _ => setNode_node_of_ne ?_)
    (fun b hb => setNode_node_of_ne ?_) ?_ fun b hb hnode hold => ?_
  · rintro rfl
    simp at hb
  · rintro rfl
    exact hfresh hb
  · rw [setPtr_self hptr]
    exact hcons
  · rw [setPtr_self hptr]
    by_cases hba : b = a
    · rw [hba]
      exact ⟨_, hcons⟩
    · rw [setNode_node_of_ne hba] at hnode
      have hmem := hold.resolve_left hnode
      rw [List.map_append, List.mem_append] at hmem
      exact absurd (List.mem_singleton.1 (hmem.resolve_left hb)) hba

end AllLinked

end Changes

end LinkedNodes

/-! ### Counting pointers -/

section Count

variable {π : Type*} [DecidableEq α] {D : Finset π} {f : π → Option α} {x : π}

/-- How many of the places point to `a`. -/
def pointersTo (D : Finset π) (f : π → Option α) (a : α) : ℕ :=
  (D.filter (f · = some a)).card

theorem pointersTo_congr {g : π → Option α} (h : ∀ x ∈ D, g x = f x) (a : α) :
    pointersTo D g a = pointersTo D f a := by
  unfold pointersTo
  congr 1
  exact Finset.filter_congr fun x hx => by rw [h x hx]

theorem exists_of_pointersTo {a : α} (h : 0 < pointersTo D f a) :
    ∃ x ∈ D, f x = some a := by
  obtain ⟨x, hx⟩ := Finset.card_pos.1 h
  exact ⟨x, Finset.mem_filter.1 hx⟩

theorem eq_of_pointersTo {a : α} (h : pointersTo D f a = 1) {y : π} (hx : x ∈ D)
    (hy : y ∈ D) (hxa : f x = some a) (hya : f y = some a) : x = y :=
  Finset.card_le_one.1 h.le x (Finset.mem_filter.2 ⟨hx, hxa⟩) y (Finset.mem_filter.2 ⟨hy, hya⟩)

variable [DecidableEq π]

theorem pointersTo_insert (hx : x ∉ D) (a : α) :
    pointersTo (insert x D) f a =
      pointersTo D f a + if f x = some a then 1 else 0 := by
  unfold pointersTo
  rw [Finset.filter_insert]
  split
  · exact Finset.card_insert_of_notMem fun hmem => hx (Finset.mem_of_mem_filter x hmem)
  · rfl

theorem pointersTo_update (hx : x ∈ D) (p : Option α) (a : α) :
    pointersTo D (Function.update f x p) a + (if f x = some a then 1 else 0) =
      pointersTo D f a + if p = some a then 1 else 0 := by
  have hsame := pointersTo_congr (D := D.erase x) (f := f)
    (g := Function.update f x p)
    (fun y hy => Function.update_of_ne (Finset.ne_of_mem_erase hy) ..) a
  have hnew := pointersTo_insert (f := Function.update f x p) (Finset.notMem_erase x D) a
  have hold := pointersTo_insert (f := f) (Finset.notMem_erase x D) a
  rw [Finset.insert_erase hx] at hnew hold
  rw [hnew, hold, hsame, Function.update_self]
  omega

end Count

end SeanetSim
