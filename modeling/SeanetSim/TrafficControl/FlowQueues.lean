import SeanetSim.Lib.Selection
import SeanetSim.TrafficControl.FlowLists

/-!
# The queue of a flow

With the set associative hash a packet goes to the first way of its set that has not been created, is
tagged with the hash or is inactive.  As long as no set runs over, the packets in a queue have the
hash that it is tagged with (`FqCoDel.Tagged.step`), so a flow leaves its queue exactly when an
earlier way has become inactive before the packets of the flow have left
(`FqCoDel.Tagged.keepsFlow_iff`).
-/

namespace SeanetSim

namespace FqCoDel

variable {c : FqCoDelConfig} {now : ℕ} {s t : FqCoDel} {i j : ℕ} {x : UInt32}

/-! ### Queues and tags -/

/-- A class has a packet with the flow hash. -/
def Holds (s : FqCoDel) (i : ℕ) (x : UInt32) : Prop :=
  ∃ item ∈ (s.classes i).queueDisc.queue, item.flowHash = some x

/-- The class that `DoEnqueue` puts a packet with the hash into. -/
def target (c : FqCoDelConfig) (s : FqCoDel) (x : UInt32) : ℕ :=
  let (h, s) := s.classify c x
  (s.flowAt h).1

/-- While a queue has packets with the hash of an arriving one, that is the queue for it. -/
def KeepsFlow (c : FqCoDelConfig) (s : FqCoDel) (e : Event) : Prop :=
  match e with
  | .enqueue _ item => ∀ x, item.flowHash = some x → ∀ i, Holds s i x → s.target c x = i
  | _ => True

/-- All ways of a set are active for other flows. -/
def Overflows (c : FqCoDelConfig) (s : FqCoDel) (e : Event) : Prop :=
  match e with
  | .enqueue _ item =>
    ∃ x, item.flowHash = some x ∧ ∀ w ∈ ways c x, s.usable x w = false
  | _ => False

/-- A packet arrives for a flow that has some in its queue, and an earlier way of the set is
inactive. -/
def EarlierInactive (c : FqCoDelConfig) (s : FqCoDel) (e : Event) : Prop :=
  match e with
  | .enqueue _ item => ∃ x, item.flowHash = some x ∧ ∃ i, Holds s i x ∧
      ∃ w ∈ before (ways c x) (s.classes i).index, ∃ j, s.flowsIndices[w]? = some j ∧
        (s.classes j).status = .inactive
  | _ => False

/-- The packets have the hashes that their ways are tagged with, and no earlier way has that tag. -/
def Tagged (c : FqCoDelConfig) (s : FqCoDel) : Prop :=
  ∀ i x, Holds s i x → (s.classes i).index ∈ ways c x ∧
    s.tags[(s.classes i).index]? = some x ∧
    ∀ w ∈ before (ways c x) (s.classes i).index,
      (∃ j, s.flowsIndices[w]? = some j) ∧ s.tags[w]? ≠ some x

theorem tagged_init : Tagged c init := fun _ _ ⟨_, hitem, _⟩ => absurd hitem List.not_mem_nil

theorem Holds.active (hs : s.Regular) (h : Holds s i x) : (s.classes i).status ≠ .inactive := by
  obtain ⟨item, hmem, -⟩ := h
  intro hinactive
  rw [hs.drained i hinactive] at hmem
  exact absurd hmem List.not_mem_nil

theorem Holds.flowsIndices (hs : s.Regular) (h : Holds s i x) :
    s.flowsIndices[(s.classes i).index]? = some i :=
  (hs.indexed _ i).2 ⟨hs.lt_nClasses (h.active hs), rfl⟩

/-- Only one class has packets of a flow. -/
theorem Tagged.unique (htag : Tagged c s) (hs : s.Regular) (hi : Holds s i x) (hj : Holds s j x) :
    i = j := by
  obtain ⟨hmem, htags, hearlier⟩ := htag i x hi
  obtain ⟨hmem', htags', hearlier'⟩ := htag j x hj
  by_cases hne : (s.classes i).index = (s.classes j).index
  · have hi' := hi.flowsIndices hs
    rw [hne, hj.flowsIndices hs] at hi'
    exact (Option.some.inj hi').symm
  · rcases mem_before_or hmem hmem' hne with hbefore | hbefore
    · exact absurd htags (hearlier' _ hbefore).2
    · exact absurd htags' (hearlier _ hbefore).2

/-! ### The way of a packet -/

theorem usable_eq_false_iff {w : UInt32} : s.usable x w = false ↔
    ∃ j, s.flowsIndices[w]? = some j ∧ s.tags[w]? ≠ some x ∧ (s.classes j).status ≠ .inactive := by
  unfold usable
  cases s.flowsIndices[w]? with
  | none => simp
  | some j => simp

theorem target_eq_iff (henable : c.enableSetAssociativeHash = true) (hi : i < s.nClasses) :
    s.target c x = i ↔ s.flowsIndices[s.wayOf c x]? = some i := by
  simp only [target, classify, henable, if_true, setAssociativeHash, flowAt]
  cases s.flowsIndices[s.wayOf c x]? with
  | none => simpa using (ne_of_gt hi)
  | some j => simp

/-- The packets of a flow are found again exactly if nothing before their way is inactive. -/
theorem Tagged.keepsFlow_iff (htag : Tagged c s) (hs : s.Regular)
    (henable : c.enableSetAssociativeHash = true) (e : Event) :
    KeepsFlow c s e ↔ ¬ EarlierInactive c s e := by
  cases e with
  | enqueue now item =>
    constructor
    · rintro hkeeps ⟨x, hx, i, hi, w, hw, j, hj, hinactive⟩
      have husable : s.usable x w = true := by simp [usable, hj, hinactive]
      obtain ⟨w', hw', hfind⟩ := find?_mem_before hw husable
      have hway : s.wayOf c x = w' := by simp [wayOf, hfind]
      have hfound := (target_eq_iff henable (hs.lt_nClasses (hi.active hs))).1 (hkeeps x hx i hi)
      rw [hway, hs.indexed] at hfound
      rw [hfound.2] at hw'
      exact not_mem_before _ _ hw'
    · intro hno x hx i hi
      obtain ⟨hmem, htags, hearlier⟩ := htag i x hi
      have hfound := hi.flowsIndices hs
      have husable : s.usable x (s.classes i).index = true := by simp [usable, hfound, htags]
      have hfind := find?_eq_of_before hmem husable fun w hw => by
        obtain ⟨⟨j, hj⟩, hne⟩ := hearlier w hw
        refine usable_eq_false_iff.2 ⟨j, hj, hne, fun hinactive => ?_⟩
        exact hno ⟨x, hx, i, hi, w, hw, j, hj, hinactive⟩
      rw [target_eq_iff henable (hs.lt_nClasses (hi.active hs)), wayOf, hfind]
      exact hfound
  | dequeue now => exact iff_of_true trivial id
  | peek now => exact iff_of_true trivial id

/-! ### Enqueue -/

/-- A packet is put into a class: the way of its hash is tagged with it, the other ways stay, and no
queue gets anything else. -/
structure Puts (c : FqCoDelConfig) (s t : FqCoDel) (x : UInt32) (item : CoDelItem) (i : ℕ) :
    Prop where
  tags : t.tags = s.tags.insert (s.wayOf c x) x
  kept : ∀ (w : UInt32) (j : ℕ), s.flowsIndices[w]? = some j → t.flowsIndices[w]? = some j
  way : t.flowsIndices[s.wayOf c x]? = some i
  queue : ∀ j, (t.classes j).queueDisc.queue.Sublist
    ((s.classes j).queueDisc.queue ++ if j = i then [item] else [])

/-- A class for the way, before anything is put into it. -/
theorem Regular.flowAt_queue (hs : s.Regular) (h : UInt32) (j : ℕ) :
    (((s.flowAt h).2).classes j).queueDisc.queue = (s.classes j).queueDisc.queue := by
  unfold FqCoDel.flowAt
  cases s.flowsIndices[h]? with
  | some i => rfl
  | none =>
    by_cases hj : j = s.nClasses
    · rw [hj, addClass_self, hs.drained _ (hs.idle _ le_rfl)]
      rfl
    · exact congrArg (fun flow => flow.queueDisc.queue) (addClass_of_ne h hj)

theorem flowAt_tags (s : FqCoDel) (h : UInt32) : (s.flowAt h).2.tags = s.tags := by
  unfold flowAt
  cases s.flowsIndices[h]? with
  | some i => rfl
  | none => rfl

theorem flowAt_kept (h w : UInt32) (hw : s.flowsIndices[w]? = some j) :
    (s.flowAt h).2.flowsIndices[w]? = some j := by
  unfold flowAt
  cases hfound : s.flowsIndices[h]? with
  | some i => exact hw
  | none =>
    have hne : h ≠ w := by
      rintro rfl
      rw [hfound] at hw
      cases hw
    exact (getElem?_addClass s h w).trans ((if_neg hne).trans hw)

theorem flowAt_way (s : FqCoDel) (h : UInt32) :
    (s.flowAt h).2.flowsIndices[h]? = some (s.flowAt h).1 := by
  unfold flowAt
  cases hfound : s.flowsIndices[h]? with
  | some i => exact hfound
  | none => exact (getElem?_addClass s h h).trans (if_pos rfl)

theorem activate_queue (s : FqCoDel) (i j : ℕ) :
    ((s.activate c i).classes j).queueDisc.queue = (s.classes j).queueDisc.queue := by
  unfold activate
  split_ifs
  · by_cases hj : j = i
    · simp [hj]
    · simp [hj]
  · rfl

theorem activate_tags (s : FqCoDel) (i : ℕ) : (s.activate c i).tags = s.tags := by
  unfold activate
  split_ifs <;> rfl

theorem activate_flowsIndices (s : FqCoDel) (i : ℕ) :
    (s.activate c i).flowsIndices = s.flowsIndices := by
  unfold activate
  split_ifs <;> rfl

theorem enqueueAt_queue (s : FqCoDel) (now : ℕ) (item : CoDelItem) (i j : ℕ) :
    ((s.enqueueAt c now i item).classes j).queueDisc.queue.Sublist
      ((s.classes j).queueDisc.queue ++ if j = i then [{ item with timeStamp := now }] else []) := by
  by_cases hj : j = i
  · subst hj
    simp only [enqueueAt, modify_self, if_true, CoDel.enqueue]
    split_ifs
    · exact List.sublist_append_left _ _
    · exact .refl _
  · simp [enqueueAt, hj]

theorem fqCoDelDrop_queue (h : s.fqCoDelDrop c = some t) (j : ℕ) :
    (t.classes j).queueDisc.queue.Sublist (s.classes j).queueDisc.queue := by
  obtain ⟨i, n, -, rfl⟩ := fqCoDelDrop_some h
  by_cases hj : j = i
  · subst hj
    simpa using List.drop_sublist n _
  · simp [hj]

/-- A packet is put into the class for its way, before the limit is looked at. -/
theorem Regular.puts_enqueueAt (hs : s.Regular) (henable : c.enableSetAssociativeHash = true)
    (now : ℕ) (item : CoDelItem) :
    Puts c s ((((s.classify c x).2.flowAt (s.classify c x).1).2.activate c
        (s.target c x)).enqueueAt c now (s.target c x) item) x
      { item with timeStamp := now } (s.target c x) := by
  have hclassify : FqCoDel.classify c s x = s.setAssociativeHash c x := by
    rw [FqCoDel.classify, if_pos henable]
  have hindices (t : FqCoDel) (i : ℕ) :
      ((t.activate c i).enqueueAt c now i item).flowsIndices = t.flowsIndices :=
    activate_flowsIndices t i
  rw [hclassify]
  refine ⟨?_, fun w j hw => ?_, ?_, fun j => ?_⟩
  · exact (activate_tags _ _).trans (flowAt_tags _ _)
  · rw [hindices]
    exact flowAt_kept _ _ hw
  · rw [hindices, target, hclassify]
    exact flowAt_way _ _
  · have hput := enqueueAt_queue (c := c) ((((s.setAssociativeHash c x).2.flowAt
      (s.setAssociativeHash c x).1).2).activate c (s.target c x)) now item (s.target c x) j
    have hqueue := (hs.tags (s.tags.insert (s.wayOf c x) x)).flowAt_queue (s.wayOf c x) j
    rw [activate_queue] at hput
    exact hqueue ▸ hput

theorem Regular.puts (hs : s.Regular) (henable : c.enableSetAssociativeHash = true)
    {item : CoDelItem} (hx : item.flowHash = some x) {retval : Bool}
    (h : s.doEnqueue c now item = some (retval, t)) :
    Puts c s t x { item with timeStamp := now } (s.target c x) := by
  have hput := hs.puts_enqueueAt (x := x) henable now item
  simp only [FqCoDel.doEnqueue, hx] at h
  split_ifs at h with hzero hover
  · obtain ⟨t', ht', heq⟩ := Option.map_eq_some_iff.1 h
    cases heq
    obtain ⟨i, n, -, heq⟩ := fqCoDelDrop_some ht'
    refine ⟨?_, ?_, ?_, fun j => (fqCoDelDrop_queue ht' j).trans (hput.queue j)⟩
    · rw [heq]
      exact hput.tags
    · rw [heq]
      exact hput.kept
    · rw [heq]
      exact hput.way
  · cases h
    exact hput

theorem Puts.holds {item : CoDelItem} (h : Puts c s t x item i) (hx : item.flowHash = some x)
    {y : UInt32} (hj : Holds t j y) : Holds s j y ∨ j = i ∧ y = x := by
  obtain ⟨item', hmem, hy⟩ := hj
  rcases List.mem_append.1 ((h.queue j).subset hmem) with hmem | hmem
  · exact .inl ⟨item', hmem, hy⟩
  · split_ifs at hmem with hji
    · rw [List.mem_singleton.1 hmem, hx] at hy
      exact .inr ⟨hji, (Option.some.inj hy).symm⟩
    · cases hmem

theorem getElem?_tags {m : Std.TreeMap UInt32 UInt32} {w w' : UInt32} :
    (m.insert w x)[w']? = if w = w' then some x else m[w']? := by
  simp [Std.TreeMap.getElem?_insert]

theorem Tagged.puts (htag : Tagged c s) (hs : s.Regular) (ht : t.Regular)
    (henable : c.enableSetAssociativeHash = true) {item : CoDelItem} (hx : item.flowHash = some x)
    (hkeeps : ∀ i, Holds s i x → s.target c x = i)
    (hover : ∃ w ∈ ways c x, s.usable x w = true) (h : Puts c s t x item (s.target c x)) :
    Tagged c t := by
  obtain ⟨w₀, hfind⟩ : ∃ w, (ways c x).find? (s.usable x) = some w := by
    obtain ⟨w, hw, husable⟩ := hover
    exact Option.isSome_iff_exists.1 (List.find?_isSome.2 ⟨w, hw, husable⟩)
  have hway : s.wayOf c x = w₀ := by simp [wayOf, hfind]
  have htags := h.tags
  have hkept := h.kept
  have hfound := h.way
  rw [hway] at htags hfound
  intro j y hj
  rcases h.holds hx hj with hold | ⟨rfl, rfl⟩
  · -- the packets that were there before
    obtain ⟨hmem, htagged, hearlier⟩ := htag j y hold
    have hindices := hold.flowsIndices hs
    have hindex : (t.classes j).index = (s.classes j).index :=
      ((ht.indexed _ j).1 (hkept _ _ hindices)).2
    rw [hindex]
    refine ⟨hmem, ?_, fun w hw => ?_⟩
    · rw [htags, getElem?_tags]
      split_ifs with heq
      · have husable := List.find?_some hfind
        rw [heq] at husable
        by_contra hne
        have hfalse : s.usable x (s.classes j).index = false :=
          usable_eq_false_iff.2 ⟨j, hindices, htagged ▸ Ne.symm hne, hold.active hs⟩
        rw [hfalse] at husable
        cases husable
      · exact htagged
    · obtain ⟨⟨k, hk⟩, hne⟩ := hearlier w hw
      refine ⟨⟨k, hkept w k hk⟩, ?_⟩
      rw [htags, getElem?_tags]
      split_ifs with heq
      · intro hxy
        obtain rfl := Option.some.inj hxy
        have htarget := (target_eq_iff henable (hs.lt_nClasses (hold.active hs))).1 (hkeeps j hold)
        rw [hway, hs.indexed] at htarget
        rw [htarget.2, heq] at hw
        exact not_mem_before _ _ hw
      · exact hne
  · -- the new packet
    have hindex : (t.classes (s.target c y)).index = w₀ := ((ht.indexed _ _).1 hfound).2
    rw [hindex]
    refine ⟨List.mem_of_find?_eq_some hfind, ?_, fun w hw => ?_⟩
    · rw [htags, getElem?_tags, if_pos rfl]
    · obtain ⟨k, hk, hne, -⟩ := usable_eq_false_iff.1 (find?_before hfind w hw)
      have hw₀ : w₀ ≠ w := by
        rintro rfl
        exact not_mem_before _ _ hw
      exact ⟨⟨k, hkept w k hk⟩, by rwa [htags, getElem?_tags, if_neg hw₀]⟩

/-! ### Dequeue -/

/-- A packet leaves one queue, from the front, after those that are dropped there. -/
structure Leaves (s : FqCoDel) (item : Option CoDelItem) (t : FqCoDel) : Prop where
  tags : t.tags = s.tags
  flowsIndices : t.flowsIndices = s.flowsIndices
  index : ∀ j, (t.classes j).index = (s.classes j).index
  queue : ∃ (i : ℕ) (dropped : List CoDelItem) (taken : Option CoDelItem),
    item.map CoDelItem.unmarked = taken.map CoDelItem.unmarked ∧
      (s.classes i).queueDisc.queue = dropped ++ taken.toList ++ (t.classes i).queueDisc.queue ∧
      ∀ j ≠ i, (t.classes j).queueDisc.queue = (s.classes j).queueDisc.queue

theorem modify_index {f : FqCoDelFlow → FqCoDelFlow} (hf : ∀ flow, (f flow).index = flow.index)
    (i j : ℕ) : ((s.modify i f).classes j).index = (s.classes j).index := by
  by_cases hj : j = i
  · rw [hj, modify_self, hf]
  · rw [modify_of_ne hj]

theorem increaseDeficit_index (s : FqCoDel) (i : ℕ) (deficit : Int32) (j : ℕ) :
    ((s.increaseDeficit i deficit).classes j).index = (s.classes j).index :=
  modify_index (s := s) (f := fun flow => { flow with deficit := flow.deficit + deficit })
    (fun _ => rfl) i j

theorem setStatus_index (s : FqCoDel) (i : ℕ) (status : FlowStatus) (j : ℕ) :
    ((s.setStatus i status).classes j).index = (s.classes j).index :=
  modify_index (s := s) (f := fun flow => { flow with status := status }) (fun _ => rfl) i j

theorem served_index (s : FqCoDel) (i : ℕ) (dropped : List CoDelItem) (queueDisc : CoDel) (j : ℕ) :
    ((s.served i dropped queueDisc).classes j).index = (s.classes j).index :=
  modify_index (s := s) (f := fun flow => { flow with queueDisc := queueDisc }) (fun _ => rfl) i j

/-- No turn tags a way, creates a class or gives it another way. -/
theorem Turns.ways {out : Turn} (h : Turns c now s out) : ∀ t ∈ out.state,
    t.tags = s.tags ∧ t.flowsIndices = s.flowsIndices ∧
      ∀ j, (t.classes j).index = (s.classes j).index := by
  rintro t ht
  cases h with
  | empty hnew hold =>
    cases ht
    exact ⟨rfl, rfl, fun _ => rfl⟩
  | refillNew hnew hdeficit =>
    cases ht
    exact ⟨rfl, rfl, fun j => (setStatus_index _ _ _ j).trans (increaseDeficit_index _ _ _ j)⟩
  | refillOld hnew hold hdeficit =>
    cases ht
    exact ⟨rfl, rfl, increaseDeficit_index _ _ _⟩
  | nullDereference hnull => cases ht
  | packet hsel hitem =>
    cases ht
    exact ⟨rfl, rfl, fun j => (increaseDeficit_index _ _ _ j).trans (served_index _ _ _ _ j)⟩
  | noneNew hnew hnone =>
    cases ht
    exact ⟨rfl, rfl, fun j => (setStatus_index _ _ _ j).trans (served_index _ _ _ _ j)⟩
  | noneOld hnew hold hnone =>
    cases ht
    exact ⟨rfl, rfl, fun j => (setStatus_index _ _ _ j).trans (served_index _ _ _ _ j)⟩

theorem Turns.leaves {item : Option CoDelItem} (h : Turns c now s (.done item t)) :
    Leaves s item t := by
  have ⟨htags, hindices, hindex⟩ := h.ways t rfl
  refine ⟨htags, hindices, hindex, ?_⟩
  cases h with
  | empty hnew hold => exact ⟨0, [], none, rfl, rfl, fun _ _ => rfl⟩
  | packet hsel hitem =>
    rename_i i item dropped queueDisc n
    obtain ⟨taken, hsplit, htaken, -⟩ := CoDel.doDequeue_spec hitem
    refine ⟨i, dropped, taken, htaken, ?_, fun j hj => ?_⟩
    · simpa [increaseDeficit, served] using hsplit
    · simp [increaseDeficit, served, hj]

theorem Leaves.of_again {item : Option CoDelItem} {s' : FqCoDel} (h : Turns c now s (.again s'))
    (hleaves : Leaves s' item t) : Leaves s item t := by
  have ⟨htags, hindices, hindex⟩ := h.ways s' rfl
  obtain ⟨i, dropped, taken, hitem, hsplit, hothers⟩ := hleaves.queue
  refine ⟨hleaves.tags.trans htags, hleaves.flowsIndices.trans hindices,
    fun j => (hleaves.index j).trans (hindex j), i, dropped, taken, hitem, ?_, fun j hj => ?_⟩
  · rw [← h.queue_again, hsplit]
  · rw [← h.queue_again, hothers j hj]

theorem Leaves.of_dequeues {item : Option CoDelItem} (h : Dequeues c now s item t) :
    Leaves s item t := by
  obtain ⟨n, h⟩ := h
  induction n generalizing s with
  | zero => cases h
  | succ n ih =>
    simp only [doDequeue] at h
    have hturns := turns_turn c now s
    cases hturn : s.turn c now with
    | again s' =>
      rw [hturn] at hturns
      simp only [hturn] at h
      exact .of_again hturns (ih h)
    | done item s' =>
      rw [hturn] at hturns
      simp only [hturn, Option.some.injEq, Prod.mk.injEq] at h
      obtain ⟨rfl, rfl⟩ := h
      exact hturns.leaves
    | nullDereference => simp [hturn] at h

theorem Leaves.sublist {item : Option CoDelItem} (h : Leaves s item t) (j : ℕ) :
    (t.classes j).queueDisc.queue.Sublist (s.classes j).queueDisc.queue := by
  obtain ⟨i, dropped, taken, -, hsplit, hothers⟩ := h.queue
  by_cases hj : j = i
  · rw [hj, hsplit]
    exact List.sublist_append_right _ _
  · rw [hothers j hj]

theorem Tagged.of_sublist (htag : Tagged c s) (htags : t.tags = s.tags)
    (hindices : t.flowsIndices = s.flowsIndices)
    (hindex : ∀ j, (t.classes j).index = (s.classes j).index)
    (hqueue : ∀ j, (t.classes j).queueDisc.queue.Sublist (s.classes j).queueDisc.queue) :
    Tagged c t := by
  rintro j x ⟨item, hmem, hx⟩
  rw [hindex, htags, hindices]
  exact htag j x ⟨item, (hqueue j).subset hmem, hx⟩

/-! ### Runs -/

theorem Tagged.slot (htag : Tagged c s) (requeued : Option CoDelItem) (peeked : Bool)
    (nPackets : UInt32) :
    Tagged c { s with requeued := requeued, peeked := peeked, nPackets := nPackets } :=
  htag.of_sublist rfl rfl (fun _ => rfl) fun _ => .refl _

theorem Leaves.tagged {item : Option CoDelItem} (h : Leaves s item t) (htag : Tagged c s) :
    Tagged c t :=
  htag.of_sublist h.tags h.flowsIndices h.index h.sublist

theorem Tagged.step (htag : Tagged c s) (hs : s.Regular)
    (henable : c.enableSetAssociativeHash = true) {e : Event} {item : Option CoDelItem}
    (h : Step c s e item t) (hover : ¬ Overflows c s e) (hkeeps : KeepsFlow c s e) :
    Tagged c t := by
  cases h with
  | enqueue h =>
    rename_i now item retval
    cases hx : item.flowHash with
    | none =>
      simp only [FqCoDel.doEnqueue, hx, Option.some.injEq, Prod.mk.injEq] at h
      exact h.2 ▸ htag
    | some x =>
      have hx' : ({ item with timeStamp := now } : CoDelItem).flowHash = some x := hx
      refine htag.puts hs (hs.doEnqueue h) henable hx' (hkeeps x hx) ?_ (hs.puts henable hx h)
      by_contra hno
      refine hover ⟨x, hx, fun w hw => ?_⟩
      by_contra husable
      exact hno ⟨w, hw, by simpa using husable⟩
  | dequeueRequeued h => exact htag.slot none false _
  | dequeue h hitem => exact (Leaves.of_dequeues hitem).tagged htag
  | peekRequeued h => exact htag
  | peek h hitem =>
    exact ((Leaves.of_dequeues hitem).tagged (htag.slot s.requeued true s.nPackets)).slot _ _ _

end FqCoDel

end SeanetSim
