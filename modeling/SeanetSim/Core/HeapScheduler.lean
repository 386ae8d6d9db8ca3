import Mathlib.Algebra.Order.Group.Nat
import Mathlib.Data.Finset.Basic
import Mathlib.Order.Interval.Finset.Nat
import SeanetSim.Core.Scheduler
import SeanetSim.Lib.BinaryHeap
import SeanetSim.Lib.Run

/-!
# The heap scheduler

`HeapScheduler` keeps the events in a vector, from the place 1 on.  `Remove` puts the last event
into the place of the one that it removes and then only moves it down.  The events in the vector are
those that have been inserted and not removed in every run, and the next one is the least of them as
long as no event that is put into such a place is less than the parent of the place
(`HeapScheduler.refines_of_run`).
-/

namespace SeanetSim

variable {ι : Type*}

/-- `m_heap`: an event for each place, `size` places being in use; nothing reads the place 0. -/
structure HeapScheduler (ι : Type*) where
  heap : ℕ → SchedulerEvent ι
  size : ℕ

namespace HeapScheduler

variable (s : HeapScheduler ι)

/-- With the event that is wasted at the place 0. -/
def init (empty : SchedulerEvent ι) : HeapScheduler ι := ⟨fun _ => empty, 1⟩

def parent (id : ℕ) : ℕ := id / 2

def leftChild (id : ℕ) : ℕ := id * 2

def rightChild (id : ℕ) : ℕ := id * 2 + 1

def root : ℕ := 1

def isRoot (id : ℕ) : Bool := id == root

def last : ℕ := s.size - 1

def isBottom (id : ℕ) : Bool := s.size ≤ id

def isEmpty : Bool := s.size == 1

def exch (a b : ℕ) : HeapScheduler ι := { s with heap := s.heap ∘ Equiv.swap a b }

def isLessStrictly (a b : ℕ) : Bool := (s.heap a).key.lt (s.heap b).key

def smallest (a b : ℕ) : ℕ := if s.isLessStrictly a b then a else b

/-- The loop of `BottomUp`, for as many rounds as the first argument says. -/
def bottomUpFrom (s : HeapScheduler ι) : ℕ → ℕ → HeapScheduler ι
  | 0, _ => s
  | rounds + 1, index =>
    if !isRoot index && s.isLessStrictly index (parent index) then
      (s.exch index (parent index)).bottomUpFrom rounds (parent index)
    else s

def bottomUp : HeapScheduler ι := s.bottomUpFrom s.last s.last

/-- The loop of `TopDown`, for as many rounds as the first argument says, and what follows it. -/
def topDownFrom (s : HeapScheduler ι) : ℕ → ℕ → HeapScheduler ι
  | 0, _ => s
  | rounds + 1, index =>
    if !s.isBottom (rightChild index) then
      let tmp := s.smallest (leftChild index) (rightChild index)
      if s.isLessStrictly index tmp then s else (s.exch index tmp).topDownFrom rounds tmp
    else if s.isBottom index then s
    else if s.isBottom (leftChild index) then s
    else if s.isLessStrictly index (leftChild index) then s
    else s.exch index (leftChild index)

def topDown (start : ℕ) : HeapScheduler ι := s.topDownFrom s.size start

def insert (ev : SchedulerEvent ι) : HeapScheduler ι :=
  bottomUp ⟨Function.update s.heap s.size ev, s.size + 1⟩

def peekNext : SchedulerEvent ι := s.heap root

/-- The last place takes the event of a place and is given up. -/
def popAt (i : ℕ) : HeapScheduler ι := { s.exch i s.last with size := s.size - 1 }

def removeNext : SchedulerEvent ι × HeapScheduler ι := (s.heap root, (s.popAt root).topDown root)

/-- The first place with an event of a unique id. -/
def find (uid : UInt32) : Option ℕ :=
  (List.range' 1 (s.size - 1)).find? fun i => uid == (s.heap i).key.uid

/-- `Remove`; nothing if the assertion fails. -/
def remove (ev : SchedulerEvent ι) : Option (HeapScheduler ι) :=
  (s.find ev.key.uid).map fun i => (s.popAt i).topDown i

/-! ### What is in the vector -/

/-- The events in the places that are in use. -/
def contents : Multiset (SchedulerEvent ι) := (Finset.Ico 1 s.size).val.map s.heap

/-- The keys that the heap order is about. -/
def ranks (i : ℕ) : ℕ ×ₗ ℕ := (s.heap i).key.rank

variable {s}

theorem isLessStrictly_iff {a b : ℕ} : s.isLessStrictly a b ↔ s.ranks a < s.ranks b :=
  EventKey.lt_iff ..

theorem isLessStrictly_eq_false_iff {a b : ℕ} :
    s.isLessStrictly a b = false ↔ s.ranks b ≤ s.ranks a :=
  EventKey.not_lt_iff ..

theorem isBottom_iff {i : ℕ} : s.isBottom i ↔ s.size ≤ i := decide_eq_true_iff

theorem mem_contents_iff {ev : SchedulerEvent ι} :
    ev ∈ s.contents ↔ ∃ i, 1 ≤ i ∧ i < s.size ∧ s.heap i = ev := by
  simp [contents, and_assoc]

theorem contents_exch {a b : ℕ} (ha : a ∈ Finset.Ico 1 s.size) (hb : b ∈ Finset.Ico 1 s.size) :
    (s.exch a b).contents = s.contents := by
  have hperm : (Finset.Ico 1 s.size).map (Equiv.swap a b).toEmbedding = Finset.Ico 1 s.size := by
    refine Finset.map_perm fun x hx => ?_
    rcases (Equiv.swap_apply_ne_self_iff.1 hx).2 with rfl | rfl
    · exact ha
    · exact hb
  have hmap := congrArg Finset.val hperm
  rw [Finset.map_val] at hmap
  have hexch : (s.exch a b).contents =
      ((Finset.Ico 1 s.size).val.map (Equiv.swap a b)).map s.heap :=
    (Multiset.map_map s.heap (Equiv.swap a b) _).symm
  exact hexch.trans (congrArg (Multiset.map s.heap) hmap)

theorem size_bottomUpFrom (rounds index : ℕ) : (s.bottomUpFrom rounds index).size = s.size := by
  induction rounds generalizing s index with
  | zero => rfl
  | succ rounds ih =>
    unfold bottomUpFrom
    split
    · rw [ih]
      rfl
    · rfl

theorem contents_bottomUpFrom {index : ℕ} (hpos : 1 ≤ index) (hlt : index < s.size) (rounds : ℕ) :
    (s.bottomUpFrom rounds index).contents = s.contents := by
  induction rounds generalizing s index with
  | zero => rfl
  | succ rounds ih =>
    unfold bottomUpFrom
    split
    · rename_i hcond
      have hroot : index ≠ 1 := by simp_all [isRoot, root]
      have hparent : 1 ≤ parent index ∧ parent index < s.size := by
        unfold parent
        omega
      refine Eq.trans (ih hparent.1 ?_) (contents_exch ?_ (Finset.mem_Ico.2 hparent))
      · exact hparent.2
      · exact Finset.mem_Ico.2 ⟨hpos, hlt⟩
    · rfl

/-- The heap order comes back, and enough rounds are made. -/
theorem heapOrdered_bottomUpFrom {rounds index : ℕ} (h : RaisedTo s.ranks s.size index)
    (hpos : 1 ≤ index) (hlt : index < s.size) (hrounds : index ≤ rounds) :
    HeapOrdered (s.bottomUpFrom rounds index).ranks s.size := by
  induction rounds generalizing s index with
  | zero => omega
  | succ rounds ih =>
    unfold bottomUpFrom
    split
    · rename_i hcond
      rw [Bool.and_eq_true, isLessStrictly_iff] at hcond
      have hroot : 1 < index := by
        have : index ≠ 1 := by simp_all [isRoot, root]
        omega
      refine ih (h.exch hroot hlt hcond.2) ?_ ?_ ?_
      · unfold parent
        omega
      · exact (Nat.div_le_self index 2).trans_lt hlt
      · unfold parent
        omega
    · rename_i hcond
      refine h.heapOrdered fun hroot => ?_
      rw [Bool.and_eq_true, isLessStrictly_iff, not_and] at hcond
      exact not_lt.1 (hcond (by simp [isRoot, root]; omega))

theorem size_topDownFrom (rounds index : ℕ) : (s.topDownFrom rounds index).size = s.size := by
  induction rounds generalizing s index with
  | zero => rfl
  | succ rounds ih =>
    simp only [topDownFrom]
    split_ifs
    · rfl
    · rw [ih]
      rfl
    all_goals rfl

theorem smallest_eq_or (s : HeapScheduler ι) (a b : ℕ) : s.smallest a b = a ∨ s.smallest a b = b := by
  unfold smallest
  split
  · exact .inl rfl
  · exact .inr rfl

theorem ranks_smallest_le (s : HeapScheduler ι) (a b : ℕ) :
    s.ranks (s.smallest a b) ≤ s.ranks a ∧ s.ranks (s.smallest a b) ≤ s.ranks b := by
  unfold smallest
  split
  · rename_i hlt
    exact ⟨le_rfl, (isLessStrictly_iff.1 hlt).le⟩
  · rename_i hlt
    exact ⟨isLessStrictly_eq_false_iff.1 (Bool.eq_false_iff.2 hlt), le_rfl⟩

theorem contents_topDownFrom {index : ℕ} (hpos : 1 ≤ index) (rounds : ℕ) :
    (s.topDownFrom rounds index).contents = s.contents := by
  induction rounds generalizing s index with
  | zero => rfl
  | succ rounds ih =>
    have hplace {i j : ℕ} (hi : 1 ≤ i) (hij : i ≤ j) (hj : s.isBottom j = false) :
        i ∈ Finset.Ico 1 s.size := by
      have : ¬ s.size ≤ j := fun hle => Bool.eq_false_iff.1 hj (isBottom_iff.2 hle)
      exact Finset.mem_Ico.2 ⟨hi, by omega⟩
    simp only [topDownFrom]
    split_ifs with hright hless hbottom hleft hless
    · rfl
    · rw [Bool.not_eq_true'] at hright
      have htmp := s.smallest_eq_or (leftChild index) (rightChild index)
      have hbounds : 1 ≤ s.smallest (leftChild index) (rightChild index) ∧
          s.smallest (leftChild index) (rightChild index) ≤ rightChild index := by
        simp only [leftChild, rightChild] at htmp ⊢
        omega
      have hindex : index ≤ rightChild index := by
        unfold rightChild
        omega
      refine Eq.trans (ih hbounds.1) (contents_exch (hplace hpos hindex hright) ?_)
      exact hplace hbounds.1 hbounds.2 hright
    · rfl
    · rfl
    · rfl
    · rw [Bool.not_eq_true] at hleft
      have hindex : index ≤ leftChild index := by
        unfold leftChild
        omega
      exact contents_exch (hplace hpos hindex hleft) (hplace (hpos.trans hindex) le_rfl hleft)

/-- The heap order comes back, and enough rounds are made. -/
theorem heapOrdered_topDownFrom {rounds index : ℕ} (h : LoweredTo s.ranks s.size index)
    (hpos : 1 ≤ index) (hrounds : s.size ≤ index + rounds) :
    HeapOrdered (s.topDownFrom rounds index).ranks s.size := by
  induction rounds generalizing s index with
  | zero => exact h.heapOrdered fun j _ hj hji => by omega
  | succ rounds ih =>
    have hchild {j : ℕ} (hj : j / 2 = index) : j = leftChild index ∨ j = rightChild index := by
      simp only [leftChild, rightChild]
      omega
    have hend {t : HeapScheduler ι} (ht : LoweredTo t.ranks s.size index)
        (hleft : s.size ≤ leftChild index) : HeapOrdered t.ranks s.size := by
      refine ht.heapOrdered fun j _ hj hji => ?_
      have := hchild hji
      simp only [leftChild, rightChild] at this hleft
      omega
    simp only [topDownFrom]
    split_ifs with hright hless hbottom hleft hless
    · refine h.heapOrdered fun j _ _ hji => (isLessStrictly_iff.1 hless).le.trans ?_
      rcases hchild hji with rfl | rfl
      · exact (s.ranks_smallest_le ..).1
      · exact (s.ranks_smallest_le ..).2
    · have htmp := s.smallest_eq_or (leftChild index) (rightChild index)
      have hmin := s.ranks_smallest_le (leftChild index) (rightChild index)
      have hlt : rightChild index < s.size := by
        refine not_le.1 fun hle => ?_
        rw [isBottom_iff.2 hle] at hright
        exact absurd hright (by decide)
      have hle := isLessStrictly_eq_false_iff.1 (Bool.eq_false_iff.2 hless)
      refine ih (h.exch ?_ ?_ hle fun j _ _ hji => ?_) ?_ ?_
      · simp only [leftChild, rightChild] at htmp ⊢
        omega
      · simp only [leftChild, rightChild] at htmp hlt ⊢
        omega
      · rcases hchild hji with rfl | rfl
        · exact hmin.1
        · exact hmin.2
      · simp only [leftChild, rightChild] at htmp ⊢
        omega
      · change s.size ≤ _
        simp only [leftChild, rightChild] at htmp ⊢
        omega
    · exact h.heapOrdered fun j _ hj hji => by
        have := isBottom_iff.1 hbottom
        omega
    · exact hend h (isBottom_iff.1 hleft)
    · -- the left child is the only one
      refine h.heapOrdered fun j _ hj hji => ?_
      rw [Bool.not_eq_true', Bool.not_eq_false, isBottom_iff] at hright
      rcases hchild hji with rfl | rfl
      · exact (isLessStrictly_iff.1 hless).le
      · omega
    · rw [Bool.not_eq_true', Bool.not_eq_false, isBottom_iff] at hright
      have hlt : leftChild index < s.size :=
        not_le.1 fun hle => hleft (isBottom_iff.2 hle)
      have hle := isLessStrictly_eq_false_iff.1 (Bool.eq_false_iff.2 hless)
      have hex : LoweredTo (s.exch index (leftChild index)).ranks s.size (leftChild index) := by
        refine h.exch ?_ hlt hle fun j _ hj hji => ?_
        · unfold leftChild
          omega
        · rcases hchild hji with rfl | rfl
          · exact le_rfl
          · omega
      refine hex.heapOrdered fun j _ hj hji => ?_
      simp only [leftChild, rightChild] at hji hright
      omega

/-! ### What the operations do -/

theorem contents_insert (ev : SchedulerEvent ι) (hsize : 1 ≤ s.size) :
    (s.insert ev).contents = ev ::ₘ s.contents := by
  have hlast : (⟨Function.update s.heap s.size ev, s.size + 1⟩ : HeapScheduler ι).last = s.size :=
    Nat.add_sub_cancel ..
  rw [insert, bottomUp, hlast, contents_bottomUpFrom hsize (Nat.lt_succ_self s.size)]
  have hrest : (Finset.Ico 1 s.size).val.map (Function.update s.heap s.size ev) = s.contents := by
    refine Multiset.map_congr rfl fun i hi => ?_
    have hne : i ≠ s.size := (Finset.mem_Ico.1 hi).2.ne
    exact Function.update_of_ne hne ev s.heap
  change Multiset.map _ (Finset.Ico 1 (s.size + 1)).val = _
  rw [Nat.Ico_succ_right_eq_insert_Ico hsize,
    Finset.insert_val_of_notMem Finset.right_notMem_Ico, Multiset.map_cons, hrest]
  exact congrArg (· ::ₘ s.contents) (Function.update_self ..)

theorem size_insert (ev : SchedulerEvent ι) : (s.insert ev).size = s.size + 1 :=
  size_bottomUpFrom ..

theorem heapOrdered_insert (h : HeapOrdered s.ranks s.size) (ev : SchedulerEvent ι)
    (hsize : 1 ≤ s.size) : HeapOrdered (s.insert ev).ranks (s.insert ev).size := by
  let t : HeapScheduler ι := ⟨Function.update s.heap s.size ev, s.size + 1⟩
  have hlast : t.last = s.size := Nat.add_sub_cancel ..
  have hold {j : ℕ} (hj : j ≠ s.size) : t.ranks j = s.ranks j :=
    congrArg (·.key.rank) (Function.update_of_ne hj ev s.heap)
  have hraised : RaisedTo t.ranks t.size t.last := by
    rw [hlast]
    refine ⟨fun j hj hlt hne => ?_, fun _ j hlt hji => ?_⟩
    · have hlt : j < s.size + 1 := hlt
      rw [hold hne, hold (by omega)]
      exact h j hj (by omega)
    · have hlt : j < s.size + 1 := hlt
      omega
  rw [size_insert]
  exact heapOrdered_bottomUpFrom hraised (hlast ▸ hsize) (hlast ▸ Nat.lt_succ_self _) le_rfl

theorem contents_popAt {i : ℕ} (hi : 1 ≤ i) (hlt : i < s.size) :
    s.contents = s.heap i ::ₘ (s.popAt i).contents := by
  have hlast : 1 ≤ s.last ∧ s.last < s.size := by
    unfold last
    omega
  have hsize : s.size = s.last + 1 := by
    unfold last
    omega
  rw [← contents_exch (Finset.mem_Ico.2 ⟨hi, hlt⟩) (Finset.mem_Ico.2 hlast), contents]
  change Multiset.map _ (Finset.Ico 1 s.size).val = _
  rw [hsize, Nat.Ico_succ_right_eq_insert_Ico hlast.1,
    Finset.insert_val_of_notMem Finset.right_notMem_Ico, Multiset.map_cons]
  exact congrArg (· ::ₘ _) (congrArg s.heap (Equiv.swap_apply_right ..))

theorem loweredTo_popAt (h : HeapOrdered s.ranks s.size) {i : ℕ} (hlt : i < s.size)
    (hparent : 1 < i → i < s.last → s.ranks (parent i) ≤ s.ranks s.last) :
    LoweredTo (s.popAt i).ranks (s.popAt i).size i := by
  have hold {j : ℕ} (hj : j ≠ i) (hj' : j ≠ s.last) : (s.popAt i).ranks j = s.ranks j :=
    congrArg s.ranks (Equiv.swap_apply_of_ne_of_ne hj hj')
  have hplace : (s.popAt i).ranks i = s.ranks s.last := congrArg s.ranks (Equiv.swap_apply_left ..)
  have hsize : (s.popAt i).size = s.size - 1 := rfl
  have hlast : s.last = s.size - 1 := rfl
  rw [hsize]
  refine ⟨fun j hj hjlt hji => ?_, fun hi' j hjlt hji => ?_⟩
  · by_cases hjeq : j = i
    · rw [hjeq, hplace, hold (by omega) (by omega)]
      exact hparent (hjeq ▸ hj) (by omega)
    · rw [hold hjeq (by omega), hold hji (by omega)]
      exact h j hj (by omega)
  · rw [hold (by omega) (by omega), hold (by omega) (by omega)]
    have hup := h i hi' hlt
    have hdown := h j (by omega) (by omega)
    rw [hji] at hdown
    exact hup.trans hdown

theorem contents_topDown {i : ℕ} (hi : 1 ≤ i) : (s.topDown i).contents = s.contents :=
  contents_topDownFrom hi s.size

theorem size_topDown (i : ℕ) : (s.topDown i).size = s.size := size_topDownFrom ..

theorem find_eq_some {uid : UInt32} {i : ℕ} (h : s.find uid = some i) :
    1 ≤ i ∧ i < s.size ∧ (s.heap i).key.uid = uid := by
  have huid := List.find?_some h
  have hmem := List.mem_range'_1.1 (List.mem_of_find?_eq_some h)
  exact ⟨hmem.1, by omega, (beq_iff_eq.1 huid).symm⟩

theorem find_ne_none {ev : SchedulerEvent ι} (h : ev ∈ s.contents) : s.find ev.key.uid ≠ none := by
  obtain ⟨i, hi, hlt, rfl⟩ := mem_contents_iff.1 h
  intro hnone
  have := List.find?_eq_none.1 hnone i (List.mem_range'_1.2 ⟨hi, by omega⟩)
  exact this (beq_self_eq_true _)

end HeapScheduler

/-! ### Runs -/

/-- A heap scheduler with the events that have been inserted and not removed. -/
structure HeapRun (ι : Type*) where
  scheduler : HeapScheduler ι
  pending : Multiset (SchedulerEvent ι)

namespace HeapRun

open HeapScheduler

variable {y z : HeapRun ι} {e : SchedulerOp ι}

def init (empty : SchedulerEvent ι) : HeapRun ι := ⟨.init empty, 0⟩

inductive Step [DecidableEq ι] : HeapRun ι → SchedulerOp ι → HeapRun ι → Prop
  | insert {y : HeapRun ι} {ev : SchedulerEvent ι}
      (huid : ∀ x ∈ y.pending, x.key.uid ≠ ev.key.uid) :
      Step y (.insert ev) ⟨y.scheduler.insert ev, ev ::ₘ y.pending⟩
  | removeNext {y : HeapRun ι} (hne : y.scheduler.isEmpty = false) :
      Step y .removeNext
        ⟨y.scheduler.removeNext.2, y.pending.erase y.scheduler.removeNext.1⟩
  | remove {y : HeapRun ι} {ev : SchedulerEvent ι} {s : HeapScheduler ι} (hev : ev ∈ y.pending)
      (hs : y.scheduler.remove ev = some s) : Step y (.remove ev) ⟨s, y.pending.erase ev⟩

/-- The scheduler holds the events that have been inserted and not removed, and finds each. -/
def Refines (y : HeapRun ι) : Prop :=
  y.scheduler.contents = y.pending ∧ (y.scheduler.isEmpty ↔ y.pending = 0) ∧
    ∀ ev ∈ y.pending, y.scheduler.remove ev ≠ none

/-- `PeekNext` and `RemoveNext` yield the least event. -/
def YieldsLeast (y : HeapRun ι) : Prop :=
  y.pending ≠ 0 → ∀ next ∈ [y.scheduler.peekNext, y.scheduler.removeNext.1],
    next ∈ y.pending ∧ ∀ ev ∈ y.pending, ev.key.lt next.key = false

/-- An event is removed, neither from the root nor from the last place, and the last event is less
than the parent of its place. -/
def Disorders (y : HeapRun ι) (e : SchedulerOp ι) : Prop :=
  match e with
  | .remove ev => ∃ i ∈ y.scheduler.find ev.key.uid, i ≠ root ∧ i ≠ y.scheduler.last ∧
      y.scheduler.isLessStrictly y.scheduler.last (parent i)
  | _ => False

/-- What every operation keeps. -/
structure Tracks (y : HeapRun ι) : Prop where
  size_pos : 1 ≤ y.scheduler.size
  contents : y.scheduler.contents = y.pending
  uids : (y.pending.map (·.key.uid)).Nodup

theorem tracks_init (empty : SchedulerEvent ι) : Tracks (init empty) :=
  ⟨le_rfl, rfl, Multiset.nodup_zero⟩

theorem Tracks.isEmpty_iff (h : Tracks y) : y.scheduler.isEmpty ↔ y.pending = 0 := by
  have hcard : y.pending.card = y.scheduler.size - 1 := by
    rw [← h.contents, HeapScheduler.contents, Multiset.card_map]
    simp
  have := h.size_pos
  rw [isEmpty, beq_iff_eq, ← Multiset.card_eq_zero, hcard]
  omega

theorem Tracks.refines (h : Tracks y) : Refines y := by
  refine ⟨h.contents, h.isEmpty_iff, fun ev hev hnone => ?_⟩
  rw [← h.contents] at hev
  exact find_ne_none hev (Option.map_eq_none_iff.1 hnone)

/-- The event at the place that is found is the one with its unique id. -/
theorem Tracks.find (h : Tracks y) {ev : SchedulerEvent ι} (hev : ev ∈ y.pending) {i : ℕ}
    (hi : y.scheduler.find ev.key.uid = some i) : y.scheduler.heap i = ev := by
  obtain ⟨hpos, hlt, huid⟩ := find_eq_some hi
  have hmem : y.scheduler.heap i ∈ y.pending := by
    rw [← h.contents]
    exact mem_contents_iff.2 ⟨i, hpos, hlt, rfl⟩
  exact Multiset.inj_on_of_nodup_map h.uids _ hmem _ hev huid

/-- The events are in heap order. -/
def Ordered (y : HeapRun ι) : Prop := HeapOrdered y.scheduler.ranks y.scheduler.size

theorem Tracks.yieldsLeast (h : Tracks y) (hy : Ordered y) : YieldsLeast y := by
  intro hne next hnext
  have hsize : 1 < y.scheduler.size := by
    have := h.size_pos
    have : y.scheduler.size ≠ 1 := fun h1 => hne (h.isEmpty_iff.1 (beq_iff_eq.2 h1))
    omega
  obtain rfl : next = y.scheduler.heap 1 := by
    simpa [peekNext, removeNext, root] using hnext
  rw [← h.contents]
  refine ⟨mem_contents_iff.2 ⟨1, le_rfl, hsize, rfl⟩, fun ev hev => ?_⟩
  obtain ⟨i, hi, hlt, rfl⟩ := mem_contents_iff.1 hev
  exact (EventKey.not_lt_iff ..).2 (hy.root_le hi hlt)

theorem Ordered.popAt (h : Ordered y) {i : ℕ} (hi : 1 ≤ i) (hlt : i < y.scheduler.size)
    (hparent : 1 < i → i < y.scheduler.last →
      y.scheduler.ranks (parent i) ≤ y.scheduler.ranks y.scheduler.last) :
    HeapOrdered ((y.scheduler.popAt i).topDown i).ranks ((y.scheduler.popAt i).topDown i).size := by
  rw [size_topDown]
  exact heapOrdered_topDownFrom (loweredTo_popAt h hlt hparent) hi (by omega)

variable [DecidableEq ι]

theorem Tracks.popAt (h : Tracks y) {i : ℕ} (hi : 1 ≤ i) (hlt : i < y.scheduler.size) :
    Tracks ⟨(y.scheduler.popAt i).topDown i, y.pending.erase (y.scheduler.heap i)⟩ where
  size_pos := by
    change 1 ≤ ((y.scheduler.popAt i).topDown i).size
    rw [size_topDown]
    change 1 ≤ y.scheduler.size - 1
    omega
  contents := by
    change ((y.scheduler.popAt i).topDown i).contents = _
    rw [contents_topDown hi, ← h.contents, contents_popAt hi hlt, Multiset.erase_cons_head]
  uids := Multiset.nodup_of_le (Multiset.map_le_map (Multiset.erase_le _ _)) h.uids

theorem Tracks.step (h : Tracks y) (hst : Step y e z) : Tracks z := by
  cases hst with
  | insert huid =>
    rename_i ev
    refine ⟨?_, ?_, ?_⟩
    · change 1 ≤ (y.scheduler.insert ev).size
      rw [size_insert]
      omega
    · change (y.scheduler.insert ev).contents = _
      rw [contents_insert ev h.size_pos, h.contents]
    · change ((ev ::ₘ y.pending).map _).Nodup
      rw [Multiset.map_cons, Multiset.nodup_cons]
      refine ⟨fun hmem => ?_, h.uids⟩
      obtain ⟨x, hx, hux⟩ := Multiset.mem_map.1 hmem
      exact huid x hx hux
  | removeNext hne =>
    have := h.size_pos
    have hsize : y.scheduler.size ≠ 1 := beq_eq_false_iff_ne.1 hne
    exact h.popAt (i := 1) le_rfl (by omega)
  | remove hev hs =>
    obtain ⟨i, hi, rfl⟩ := Option.map_eq_some_iff.1 hs
    obtain ⟨hpos, hlt, -⟩ := find_eq_some hi
    have hat := h.popAt hpos hlt
    rwa [h.find hev hi] at hat

theorem Ordered.step (h : Ordered y) (hy : Tracks y) (hok : ¬ Disorders y e) (hst : Step y e z) :
    Ordered z := by
  cases hst with
  | insert => exact heapOrdered_insert h _ hy.size_pos
  | removeNext hne =>
    have := hy.size_pos
    have hsize : y.scheduler.size ≠ 1 := beq_eq_false_iff_ne.1 hne
    exact h.popAt (i := 1) le_rfl (by omega) fun hlt => absurd hlt (by decide)
  | remove hev hs =>
    obtain ⟨i, hi, rfl⟩ := Option.map_eq_some_iff.1 hs
    obtain ⟨hpos, hlt, -⟩ := find_eq_some hi
    refine h.popAt hpos hlt fun hroot hlast => ?_
    by_contra hless
    have hless := isLessStrictly_iff.2 (not_le.1 hless)
    exact hok ⟨i, hi, hroot.ne', hlast.ne, hless⟩

/-- The scheduler holds the right events in every run, and yields the least one as long as no
removal disorders them. -/
theorem refines_of_run {empty : SchedulerEvent ι} {trace : List (HeapRun ι × SchedulerOp ι)}
    (h : Run Step (init empty) trace y) :
    ((∀ p ∈ trace, p.1.Refines) ∧ y.Refines) ∧
      ((∀ p ∈ trace, ¬ Disorders p.1 p.2) →
        (∀ p ∈ trace, p.1.YieldsLeast) ∧ y.YieldsLeast) := by
  have hstep (s : HeapRun ι) (e : SchedulerOp ι) (t : HeapRun ι) (hs : Tracks s)
      (_ : True) (hst : Step s e t) : Tracks t := hs.step hst
  have hany : ∀ p ∈ trace, True := fun _ _ => trivial
  obtain ⟨htracks, hlast⟩ := h.invariant_along (tracks_init empty) hstep hany
  refine ⟨⟨fun p hp => (htracks p hp).refines, hlast.refines⟩, fun hok => ?_⟩
  have hordered : Ordered (init empty) := fun i hi hlt => by
    have hlt : i < 1 := hlt
    omega
  obtain ⟨hall, hy⟩ := h.invariant_along (I := fun y => Tracks y ∧ Ordered y)
    ⟨tracks_init empty, hordered⟩
    (fun s e t hs hp hst => ⟨hs.1.step hst, hs.2.step hs.1 hp hst⟩) hok
  exact ⟨fun p hp => (hall p hp).1.yieldsLeast (hall p hp).2, hy.1.yieldsLeast hy.2⟩

/-! ### Removing from the middle -/

instance : Decidable (YieldsLeast y) :=
  inferInstanceAs (Decidable (y.pending ≠ 0 →
    ∀ next ∈ [y.scheduler.peekNext, y.scheduler.removeNext.1],
      next ∈ y.pending ∧ ∀ ev ∈ y.pending, ev.key.lt next.key = false))

omit [DecidableEq ι] in
instance : Decidable (Disorders y e) :=
  match e with
  | .insert _ => isFalse id
  | .removeNext => isFalse id
  | .remove ev =>
    inferInstanceAs (Decidable (∃ i ∈ y.scheduler.find ev.key.uid, i ≠ root ∧
      i ≠ y.scheduler.last ∧ y.scheduler.isLessStrictly y.scheduler.last (parent i)))

/-- What an operation makes of the scheduler. -/
def next (y : HeapRun ι) : SchedulerOp ι → Option (HeapRun ι)
  | .insert ev =>
    if ∀ x ∈ y.pending, x.key.uid ≠ ev.key.uid then
      some ⟨y.scheduler.insert ev, ev ::ₘ y.pending⟩
    else none
  | .removeNext =>
    if y.scheduler.isEmpty = false then
      some ⟨y.scheduler.removeNext.2, y.pending.erase y.scheduler.removeNext.1⟩
    else none
  | .remove ev =>
    if ev ∈ y.pending then (y.scheduler.remove ev).map fun s => ⟨s, y.pending.erase ev⟩
    else none

theorem step_of_next (h : y.next e = some z) : Step y e z := by
  cases e with
  | insert ev =>
    obtain ⟨huid, h⟩ := Option.ite_none_right_eq_some.1 h
    cases h
    exact .insert huid
  | removeNext =>
    obtain ⟨hne, h⟩ := Option.ite_none_right_eq_some.1 h
    cases h
    exact .removeNext hne
  | remove ev =>
    obtain ⟨hev, h⟩ := Option.ite_none_right_eq_some.1 h
    obtain ⟨s, hs, rfl⟩ := Option.map_eq_some_iff.1 h
    exact .remove hev hs

def sampleEvent (n : ℕ) : SchedulerEvent Unit := ⟨(), ⟨UInt64.ofNat n, UInt32.ofNat n, 0⟩⟩

theorem refines_of_run_leaf : ∃ (trace : List (HeapRun Unit × SchedulerOp Unit)) (y : HeapRun Unit),
    Run Step (init (sampleEvent 0)) trace y ∧ y.pending = {sampleEvent 3, sampleEvent 4} ∧
      y.Refines ∧ y.YieldsLeast := by
  have hrun : (Run.runOf next (init (sampleEvent 0)) [.insert (sampleEvent 1),
      .insert (sampleEvent 2), .insert (sampleEvent 3), .insert (sampleEvent 4),
      .remove (sampleEvent 2), .removeNext]).any (fun r => decide
        (r.2.pending = {sampleEvent 3, sampleEvent 4} ∧ ∀ p ∈ r.1, ¬ Disorders p.1 p.2)) = true := by
    decide +kernel
  obtain ⟨⟨trace, y⟩, hrun, hr⟩ := (Option.any_eq_true _ _).1 hrun
  obtain ⟨hpending, hok⟩ := of_decide_eq_true hr
  have hrun := Run.of_runOf (fun _ _ _ => step_of_next) hrun
  obtain ⟨hrefines, hleast⟩ := refines_of_run hrun
  exact ⟨trace, y, hrun, hpending, hrefines.2, (hleast hok).2⟩

/-- With 1, 4, 2, 5, 6, 7 and 3 in the vector, the removal of 5 puts 3 below 4.  The next events
are 1, 2 and 4. -/
theorem not_yieldsLeast_below :
    ¬ ∀ (trace : List (HeapRun Unit × SchedulerOp Unit)) (y : HeapRun Unit),
      Run Step (init (sampleEvent 0)) trace y → y.Refines ∧ y.YieldsLeast := by
  have hrun : (Run.runOf next (init (sampleEvent 0)) ([1, 4, 2, 5, 6, 7, 3].map
      (fun n => .insert (sampleEvent n)) ++ [.remove (sampleEvent 5), .removeNext, .removeNext])).any
      (fun r => decide (¬ r.2.YieldsLeast)) = true := by
    decide +kernel
  obtain ⟨⟨trace, y⟩, hrun, hr⟩ := (Option.any_eq_true _ _).1 hrun
  exact fun hall => of_decide_eq_true hr
    (hall trace y (Run.of_runOf (fun _ _ _ => step_of_next) hrun)).2

end HeapRun

end SeanetSim
