import SeanetSim.Internet.TcpRxBuffer
import SeanetSim.Lib.Run

/-!
# Windows of sequence numbers

As long as the numbers that a call works with lie in a window of `2 ^ 31`, the receive buffer does
what the same code does over the integers (`execute_lift`).  A run of such calls is that of a buffer
whose numbers never wrap (`exists_run_of_inWindow`).
-/

namespace SeanetSim

open SequenceNumber

namespace TcpRxBuffer

/-- A number of the window from `lo` to `hi`. -/
def In (lo hi x : ℤ) : Prop := lo ≤ x ∧ x < hi

/-- Both edges of a SACK block lie in the window. -/
def SackIn (lo hi : ℤ) (s : SackBlock ℤ) : Prop := In lo hi s.1 ∧ In lo hi s.2

/-- All numbers of the buffer lie in the window. -/
structure Within (lo hi : ℤ) (b : TcpRxBuffer ℤ) : Prop where
  next : In lo hi b.nextRxSeq
  sack : ∀ s ∈ b.sackList, SackIn lo hi s
  data : ∀ i ∈ b.data, In lo hi i.1 ∧ In lo hi (blockEnd i)
  fin : b.gotFin = true → In lo hi b.finSeq ∧ In lo hi (b.finSeq + 1)

def liftBlock (i : RxBlock ℤ) : RxBlock UInt32 := (wrap i.1, i.2)

def liftSack (s : SackBlock ℤ) : SackBlock UInt32 := (wrap s.1, wrap s.2)

/-- The buffer as it is, of the one without wrap. -/
def lift (b : TcpRxBuffer ℤ) : TcpRxBuffer UInt32 where
  sackList := b.sackList.map liftSack
  nextRxSeq := wrap b.nextRxSeq
  finSeq := wrap b.finSeq
  gotFin := b.gotFin
  size := b.size
  maxBuffer := b.maxBuffer
  availBytes := b.availBytes
  data := b.data.map liftBlock

section Lift

variable {lo hi x y : ℤ} {b : TcpRxBuffer ℤ} {data : List (RxBlock ℤ)}

theorem blockEnd_lift (i : RxBlock ℤ) : blockEnd (liftBlock i) = wrap (blockEnd i) :=
  (wrap_add i.1 i.2.length).symm

theorem gt_lift (hspan : hi - lo ≤ 2 ^ 31) (hx : In lo hi x) (hy : In lo hi y) :
    gt (wrap x) (wrap y) = gt x y := by
  unfold In at hx hy
  exact gt_wrap (by omega) (by omega)

theorem le_lift (hspan : hi - lo ≤ 2 ^ 31) (hx : In lo hi x) (hy : In lo hi y) :
    le (wrap x) (wrap y) = le x y := by
  rw [le, gt_lift hspan hx hy, le]

theorem eq_lift (hspan : hi - lo ≤ 2 ^ 31) (hx : In lo hi x) (hy : In lo hi y) :
    wrap x = wrap y ↔ x = y := by
  unfold In at hx hy
  exact wrap_inj (by omega) (by omega)

theorem beq_lift (hspan : hi - lo ≤ 2 ^ 31) (hx : In lo hi x) (hy : In lo hi y) :
    (wrap x == wrap y) = (x == y) := by
  rw [Bool.eq_iff_iff, beq_iff_eq, beq_iff_eq]
  exact eq_lift hspan hx hy

theorem ge_lift (hspan : hi - lo ≤ 2 ^ 31) (hx : In lo hi x) (hy : In lo hi y) :
    ge (wrap x) (wrap y) = ge x y := by
  rw [ge, gt_lift hspan hx hy, beq_lift hspan hx hy, ge]

theorem lt_lift (hspan : hi - lo ≤ 2 ^ 31) (hx : In lo hi x) (hy : In lo hi y) :
    lt (wrap x) (wrap y) = lt x y := by
  have hne : (wrap x != wrap y) = (x != y) := congrArg (!·) (beq_lift hspan hx hy)
  rw [lt, gt_lift hspan hx hy, hne, lt]

theorem distance_lift (hspan : hi - lo ≤ 2 ^ 31) (hx : In lo hi x) (hy : In lo hi y) :
    distance (wrap x) (wrap y) = distance x y := by
  unfold In at hx hy
  exact distance_wrap (by omega) (by omega)

/-! ### The map and the SACK blocks -/

theorem store_lift (hspan : hi - lo ≤ 2 ^ 31) (hdata : ∀ i ∈ data, In lo hi i.1)
    (hx : In lo hi x) (p : List UInt8) :
    store (wrap x) p (data.map liftBlock) = (store x p data).map liftBlock := by
  induction data with
  | nil => rfl
  | cons i rest ih =>
    have hi' := hdata i List.mem_cons_self
    rw [List.map_cons, store, store, show (liftBlock i).1 = wrap i.1 from rfl,
      lt_lift hspan hx hi', lt_lift hspan hi' hx,
      ih fun j hj => hdata j (List.mem_cons_of_mem i hj)]
    split_ifs <;> rfl

theorem isStored_lift (hspan : hi - lo ≤ 2 ^ 31) (hdata : ∀ i ∈ data, In lo hi i.1)
    (hx : In lo hi x) : isStored (wrap x) (data.map liftBlock) = isStored x data := by
  induction data with
  | nil => rfl
  | cons i rest ih =>
    have hi' := hdata i List.mem_cons_self
    have hrest := ih fun j hj => hdata j (List.mem_cons_of_mem i hj)
    unfold isStored at hrest ⊢
    rw [List.map_cons, List.any_cons, List.any_cons, hrest,
      show (liftBlock i).1 = wrap i.1 from rfl, lt_lift hspan hx hi', lt_lift hspan hi' hx]

theorem touch_lift (hspan : hi - lo ≤ 2 ^ 31) {first current : SackBlock ℤ}
    (hfirst : SackIn lo hi first) (hcurrent : SackIn lo hi current) :
    touch (liftSack first) (liftSack current) =
      (touch first current).map fun merged => merged.map liftSack := by
  simp only [touch, liftSack, eq_lift hspan hfirst.1 hcurrent.2, eq_lift hspan hfirst.2 hcurrent.1,
    lt_lift hspan hcurrent.1 hfirst.2, lt_lift hspan hfirst.1 hcurrent.2]
  split_ifs <;> rfl

theorem touch_within {first current merged : SackBlock ℤ} (hfirst : SackIn lo hi first)
    (hcurrent : SackIn lo hi current) (h : touch first current = some (some merged)) :
    SackIn lo hi merged := by
  unfold touch at h
  split_ifs at h
  · cases h
    exact ⟨hcurrent.1, hfirst.2⟩
  · cases h
    exact ⟨hfirst.1, hcurrent.2⟩
  · simp at h

theorem mergeFirst_within {first merged : SackBlock ℤ} {rest rest' : List (SackBlock ℤ)}
    (hfirst : SackIn lo hi first) (hrest : ∀ s ∈ rest, SackIn lo hi s)
    (h : mergeFirst first rest = some (some (merged, rest'))) :
    SackIn lo hi merged ∧ ∀ s ∈ rest', SackIn lo hi s := by
  induction rest generalizing rest' with
  | nil => cases h
  | cons current rest ih =>
    rw [List.forall_mem_cons] at hrest
    unfold mergeFirst at h
    obtain ⟨touched, htouch, h⟩ := Option.bind_eq_some_iff.1 h
    cases touched with
    | some m =>
      cases h
      exact ⟨touch_within hfirst hrest.1 htouch, hrest.2⟩
    | none =>
      obtain ⟨found, hfound, h⟩ := Option.bind_eq_some_iff.1 h
      cases found with
      | none => cases h
      | some found =>
        cases h
        obtain ⟨hmerged, hleft⟩ := ih hrest.2 hfound
        exact ⟨hmerged, List.forall_mem_cons.2 ⟨hrest.1, hleft⟩⟩

theorem mergeFirst_lift (hspan : hi - lo ≤ 2 ^ 31) {first : SackBlock ℤ}
    {rest : List (SackBlock ℤ)} (hfirst : SackIn lo hi first) (hrest : ∀ s ∈ rest, SackIn lo hi s) :
    mergeFirst (liftSack first) (rest.map liftSack) =
      (mergeFirst first rest).map fun found =>
        found.map fun found => (liftSack found.1, found.2.map liftSack) := by
  induction rest with
  | nil => rfl
  | cons current rest ih =>
    rw [List.forall_mem_cons] at hrest
    rw [List.map_cons, mergeFirst, mergeFirst, touch_lift hspan hfirst hrest.1, ih hrest.2]
    cases touch first current with
    | none => rfl
    | some touched =>
      cases touched with
      | some m => rfl
      | none =>
        cases mergeFirst first rest with
        | none => rfl
        | some found => cases found <;> rfl

theorem mergeLoop_lift (hspan : hi - lo ≤ 2 ^ 31) (fuel : ℕ) {first : SackBlock ℤ}
    {rest : List (SackBlock ℤ)} (hfirst : SackIn lo hi first) (hrest : ∀ s ∈ rest, SackIn lo hi s) :
    mergeLoop fuel (liftSack first) (rest.map liftSack) =
      (mergeLoop fuel first rest).map (List.map liftSack) := by
  induction fuel generalizing first rest with
  | zero => rfl
  | succ fuel ih =>
    rw [mergeLoop, mergeLoop, mergeFirst_lift hspan hfirst hrest]
    cases hfound : mergeFirst first rest with
    | none => rfl
    | some found =>
      cases found with
      | none => rfl
      | some found =>
        obtain ⟨hmerged, hleft⟩ := mergeFirst_within hfirst hrest hfound
        exact ih hmerged hleft

theorem mergeLoop_within {fuel : ℕ} {first : SackBlock ℤ} {rest sackList : List (SackBlock ℤ)}
    (hfirst : SackIn lo hi first) (hrest : ∀ s ∈ rest, SackIn lo hi s)
    (h : mergeLoop fuel first rest = some sackList) : ∀ s ∈ sackList, SackIn lo hi s := by
  induction fuel generalizing first rest with
  | zero =>
    cases h
    exact List.forall_mem_cons.2 ⟨hfirst, hrest⟩
  | succ fuel ih =>
    unfold mergeLoop at h
    obtain ⟨found, hfound, h⟩ := Option.bind_eq_some_iff.1 h
    cases found with
    | none =>
      cases h
      exact List.forall_mem_cons.2 ⟨hfirst, hrest⟩
    | some found =>
      obtain ⟨hmerged, hleft⟩ := mergeFirst_within hfirst hrest hfound
      exact ih hmerged hleft h

theorem clearSackList_lift (hspan : hi - lo ≤ 2 ^ 31) {sackList : List (SackBlock ℤ)}
    (hsack : ∀ s ∈ sackList, SackIn lo hi s) (hx : In lo hi x) :
    clearSackList (wrap x) (sackList.map liftSack) =
      (clearSackList x sackList).map (List.map liftSack) := by
  have hall : (sackList.map liftSack).all (fun block => lt block.1 block.2) =
      sackList.all fun block => lt block.1 block.2 := by
    induction sackList with
    | nil => rfl
    | cons s rest ih =>
      rw [List.forall_mem_cons] at hsack
      rw [List.map_cons, List.all_cons, List.all_cons, ih hsack.2,
        show lt (liftSack s).1 (liftSack s).2 = lt s.1 s.2 from lt_lift hspan hsack.1.1 hsack.1.2]
  have hfilter : (sackList.map liftSack).filter (fun block => !le block.2 (wrap x)) =
      (sackList.filter fun block => !le block.2 x).map liftSack := by
    rw [List.filter_map]
    congr 1
    refine List.filter_congr fun s hs => ?_
    exact congrArg (!·) (le_lift hspan (hsack s hs).2 hx)
  rw [clearSackList, clearSackList, hall, hfilter]
  split_ifs <;> rfl

theorem clearSackList_subset {sackList sackList' : List (SackBlock ℤ)}
    (h : clearSackList x sackList = some sackList') : ∀ s ∈ sackList', s ∈ sackList := by
  unfold clearSackList at h
  split_ifs at h
  cases h
  exact fun s hs => List.mem_of_mem_filter hs

theorem updateSackList_lift (hspan : hi - lo ≤ 2 ^ 31) (hb : Within lo hi b) (hx : In lo hi x)
    (hy : In lo hi y) :
    b.lift.updateSackList (wrap x) (wrap y) = (b.updateSackList x y).map lift := by
  unfold updateSackList
  rw [show b.lift.nextRxSeq = wrap b.nextRxSeq from rfl, gt_lift hspan hx hb.next,
    show b.lift.sackList = b.sackList.map liftSack from rfl, List.length_map,
    show (wrap x, wrap y) = liftSack (x, y) from rfl, mergeLoop_lift hspan _ ⟨hx, hy⟩ hb.sack]
  split_ifs
  · cases mergeLoop b.sackList.length (x, y) b.sackList with
    | none => rfl
    | some sackList =>
      simp only [Option.map_some, Option.bind_eq_bind, Option.bind_some, List.length_map,
        Option.some.injEq]
      split_ifs
      · simp [lift, List.map_dropLast]
      · rfl
  · rfl

theorem updateSackList_within {b' : TcpRxBuffer ℤ} (hb : Within lo hi b) (hx : In lo hi x)
    (hy : In lo hi y) (h : b.updateSackList x y = some b') :
    Within lo hi b' ∧ b'.data = b.data := by
  unfold updateSackList at h
  split_ifs at h
  obtain ⟨sackList, hloop, h⟩ := Option.bind_eq_some_iff.1 h
  have hfirst : SackIn lo hi (x, y) := ⟨hx, hy⟩
  have hsack := mergeLoop_within hfirst hb.sack hloop
  cases h
  refine ⟨⟨hb.next, fun s hs => hsack s ?_, hb.data, hb.fin⟩, rfl⟩
  dsimp only at hs
  split_ifs at hs
  · exact List.mem_of_mem_dropLast hs
  · exact hs

/-! ### Add and Extract -/

/-- The numbers that an event brings lie in the window, too; for a segment, the edge of the
window that `Add` computes is one of them. -/
def EventIn (lo hi : ℤ) (b : TcpRxBuffer ℤ) : RxEvent ℤ → Prop
  | .add seq payload => In lo hi seq ∧ In lo hi (seq + payload.length) ∧
      ∀ i ∈ b.data.head?, In lo hi (i.1 + b.maxBuffer)
  | .extract _ => True
  | .setFinSequence s => In lo hi s ∧ In lo hi (s + 1)

def liftEvent : RxEvent ℤ → RxEvent UInt32
  | .add seq payload => .add (wrap seq) payload
  | .extract maxSize => .extract maxSize
  | .setFinSequence s => .setFinSequence (wrap s)

theorem trimToWindow_within (hb : Within lo hi b) (hx : In lo hi x) (hy : In lo hi y)
    (hedge : ∀ i ∈ b.data.head?, In lo hi (i.1 + b.maxBuffer)) :
    In lo hi (b.trimToWindow x y).1 ∧ In lo hi (b.trimToWindow x y).2 := by
  have hnext := hb.next
  unfold trimToWindow
  cases hdata : b.data with
  | nil =>
    dsimp only
    split_ifs <;> exact ⟨by assumption, hy⟩
  | cons i rest =>
    have hi' : In lo hi (i.1 + b.maxBuffer) := hedge i (by simp [hdata])
    simp only [add_int]
    split_ifs <;> exact ⟨by assumption, by assumption⟩

theorem trimToWindow_lift (hspan : hi - lo ≤ 2 ^ 31) (hb : Within lo hi b) (hx : In lo hi x)
    (hy : In lo hi y) (hedge : ∀ i ∈ b.data.head?, In lo hi (i.1 + b.maxBuffer)) :
    b.lift.trimToWindow (wrap x) (wrap y) =
      (wrap (b.trimToWindow x y).1, wrap (b.trimToWindow x y).2) := by
  have hnext := hb.next
  have hhead : (if lt (wrap x) (wrap b.nextRxSeq) then wrap b.nextRxSeq else wrap x) =
      wrap (if lt x b.nextRxSeq then b.nextRxSeq else x) := by
    rw [lt_lift hspan hx hnext, apply_ite wrap]
  have hin : In lo hi (if lt x b.nextRxSeq then b.nextRxSeq else x) := by
    split_ifs <;> assumption
  unfold trimToWindow
  rw [show b.lift.nextRxSeq = wrap b.nextRxSeq from rfl, hhead,
    show b.lift.data = b.data.map liftBlock from rfl]
  cases hdata : b.data with
  | nil => rfl
  | cons i rest =>
    have hi' : In lo hi (i.1 + b.maxBuffer) := hedge i (by simp [hdata])
    have htail : (if lt (wrap (i.1 + b.maxBuffer)) (wrap y) then wrap (i.1 + b.maxBuffer)
        else wrap y) = wrap (if lt (i.1 + b.maxBuffer) y then i.1 + b.maxBuffer else y) := by
      rw [lt_lift hspan hi' hy, apply_ite wrap]
    have hin' : In lo hi (if lt (i.1 + b.maxBuffer) y then i.1 + b.maxBuffer else y) := by
      split_ifs <;> assumption
    simp only [List.map_cons, show (liftBlock i).1 = wrap i.1 from rfl,
      show b.lift.maxBuffer = b.maxBuffer from rfl, ← wrap_add, htail, lt_lift hspan hin' hin]
    rw [← apply_ite wrap]
    rfl

theorem removeOverlap_within {c : ℕ}
    (hdata : ∀ i ∈ data, In lo hi i.1 ∧ In lo hi (blockEnd i)) (hx : In lo hi x) (hy : In lo hi y) :
    (∀ i ∈ (removeOverlap data x y c).1, i ∈ data) ∧
      In lo hi (removeOverlap data x y c).2.1 ∧ In lo hi (removeOverlap data x y c).2.2.1 := by
  induction data generalizing x y c with
  | nil => exact ⟨fun _ hi' => hi', hx, hy⟩
  | cons i rest ih =>
    obtain ⟨hfirst, hrest⟩ := List.forall_mem_cons.1 hdata
    have hx' : In lo hi (if le i.1 x then blockEnd i else x) := by
      split_ifs
      · exact hfirst.2
      · exact hx
    have hy' : In lo hi (if ge (blockEnd i) y then i.1 else y) := by
      split_ifs
      · exact hfirst.1
      · exact hy
    have hkeep : ∀ {x y : ℤ}, In lo hi x → In lo hi y →
        (∀ j ∈ i :: (removeOverlap rest x y c).1, j ∈ i :: rest) ∧
          In lo hi (removeOverlap rest x y c).2.1 ∧
          In lo hi (removeOverlap rest x y c).2.2.1 := by
      intro x y hx hy
      obtain ⟨hsub, hin⟩ := ih (c := c) hrest hx hy
      exact ⟨fun j hj => (List.mem_cons.1 hj).elim (fun heq => heq ▸ List.mem_cons_self)
        fun hj => List.mem_cons_of_mem i (hsub j hj), hin⟩
    unfold removeOverlap
    dsimp only
    generalize (if le i.1 x then blockEnd i else x) = x' at hx' ⊢
    generalize (if ge (blockEnd i) y then i.1 else y) = y' at hy' ⊢
    split_ifs
    · obtain ⟨hsub, hin⟩ := ih (c := c - i.2.length) hrest hx hy
      exact ⟨fun j hj => List.mem_cons_of_mem i (hsub j hj), hin⟩
    · exact hkeep hx' hy'
    · exact hkeep hx hy
    · exact ⟨fun j hj => hj, hx, hy⟩

theorem removeOverlap_lift (hspan : hi - lo ≤ 2 ^ 31) {c : ℕ}
    (hdata : ∀ i ∈ data, In lo hi i.1 ∧ In lo hi (blockEnd i)) (hx : In lo hi x) (hy : In lo hi y) :
    removeOverlap (data.map liftBlock) (wrap x) (wrap y) c =
      ((removeOverlap data x y c).1.map liftBlock, wrap (removeOverlap data x y c).2.1,
        wrap (removeOverlap data x y c).2.2.1, (removeOverlap data x y c).2.2.2) := by
  induction data generalizing x y c with
  | nil => rfl
  | cons i rest ih =>
    obtain ⟨hfirst, hrest⟩ := List.forall_mem_cons.1 hdata
    have hx' : In lo hi (if le i.1 x then blockEnd i else x) := by
      split_ifs
      · exact hfirst.2
      · exact hx
    have hy' : In lo hi (if ge (blockEnd i) y then i.1 else y) := by
      split_ifs
      · exact hfirst.1
      · exact hy
    rw [List.map_cons, removeOverlap, removeOverlap, blockEnd_lift,
      show (liftBlock i).1 = wrap i.1 from rfl, show (liftBlock i).2 = i.2 from rfl]
    dsimp only
    rw [le_lift hspan hfirst.1 hy, gt_lift hspan hfirst.2 hx, gt_lift hspan hfirst.1 hx,
      lt_lift hspan hfirst.2 hy, le_lift hspan hfirst.1 hx, ge_lift hspan hfirst.2 hy,
      ← apply_ite wrap, ← apply_ite wrap, ih hrest hx' hy', ih hrest hx hy, ih hrest hx hy]
    split_ifs <;> rfl

theorem store_within {p : List UInt8} {j : RxBlock ℤ} (h : j ∈ store x p data) :
    j = (x, p) ∨ j ∈ data := by
  induction data with
  | nil => exact .inl (List.mem_singleton.1 h)
  | cons i rest ih =>
    unfold store at h
    split_ifs at h
    · exact List.mem_cons.1 h
    · rcases List.mem_cons.1 h with rfl | h
      · exact .inr List.mem_cons_self
      · exact (ih h).imp_right (List.mem_cons_of_mem i)
    · exact (List.mem_cons.1 h).imp_right (List.mem_cons_of_mem i)

theorem Within.deliver (hb : Within lo hi b) {i : RxBlock ℤ} (hi' : In lo hi (blockEnd i))
    {sackList : List (SackBlock ℤ)} (hclear : clearSackList x b.sackList = some sackList) :
    Within lo hi { b with
      nextRxSeq := blockEnd i, availBytes := b.availBytes + i.2.length, sackList := sackList } :=
  ⟨hi', fun s hs => hb.sack s (clearSackList_subset hclear s hs), hb.data, hb.fin⟩

theorem advance_lift (hspan : hi - lo ≤ 2 ^ 31) (hb : Within lo hi b)
    (hdata : ∀ i ∈ data, In lo hi i.1 ∧ In lo hi (blockEnd i)) :
    advance (data.map liftBlock) b.lift = (advance data b).map lift := by
  induction data generalizing b with
  | nil => rfl
  | cons i rest ih =>
    obtain ⟨hfirst, hrest⟩ := List.forall_mem_cons.1 hdata
    rw [List.map_cons, advance, advance, blockEnd_lift, show (liftBlock i).1 = wrap i.1 from rfl,
      show b.lift.nextRxSeq = wrap b.nextRxSeq from rfl, lt_lift hspan hfirst.1 hb.next,
      gt_lift hspan hfirst.1 hb.next, show b.lift.sackList = b.sackList.map liftSack from rfl,
      clearSackList_lift hspan hb.sack hfirst.2, ih hb hrest]
    split_ifs
    · rfl
    · rfl
    · cases hclear : clearSackList (blockEnd i) b.sackList with
      | none => rfl
      | some sackList => exact ih (hb.deliver hfirst.2 hclear) hrest

theorem advance_within {b' : TcpRxBuffer ℤ} (hb : Within lo hi b)
    (hdata : ∀ i ∈ data, In lo hi i.1 ∧ In lo hi (blockEnd i)) (h : advance data b = some b') :
    Within lo hi b' := by
  induction data generalizing b with
  | nil =>
    cases h
    exact hb
  | cons i rest ih =>
    obtain ⟨hfirst, hrest⟩ := List.forall_mem_cons.1 hdata
    unfold advance at h
    split_ifs at h
    · exact ih hb hrest h
    · cases h
      exact hb
    · obtain ⟨sackList, hclear, h⟩ := Option.bind_eq_some_iff.1 h
      exact ih (hb.deliver hfirst.2 hclear) hrest h

theorem accountFin_lift (hspan : hi - lo ≤ 2 ^ 31) (hb : Within lo hi b) :
    b.lift.accountFin = b.accountFin.lift := by
  unfold accountFin
  rw [show b.lift.gotFin = b.gotFin from rfl, show b.lift.nextRxSeq = wrap b.nextRxSeq from rfl,
    show b.lift.finSeq = wrap b.finSeq from rfl]
  cases hfin : b.gotFin with
  | false => rfl
  | true =>
    rw [beq_lift hspan hb.next (hb.fin hfin).1]
    split_ifs
    · rw [← wrap_add]
      simp [lift, hfin]
    · rfl

theorem accountFin_within (hb : Within lo hi b) : Within lo hi b.accountFin := by
  unfold accountFin
  split_ifs with hfin
  · rw [Bool.and_eq_true, beq_iff_eq] at hfin
    have hnext : In lo hi (b.nextRxSeq + 1) := by
      rw [hfin.2]
      exact (hb.fin hfin.1).2
    exact ⟨hnext, hb.sack, hb.data, hb.fin⟩
  · exact hb

theorem account_lift (hspan : hi - lo ≤ 2 ^ 31) (hb : Within lo hi b) (hx : In lo hi x)
    (hy : In lo hi y) (length : ℕ) :
    b.lift.account (wrap x) (wrap y) length = (b.account x y length).map lift ∧
      ∀ b', b.account x y length = some b' → Within lo hi b' := by
  have hfinish : ∀ {c : TcpRxBuffer ℤ}, Within lo hi c →
      ((advance c.lift.data { c.lift with size := c.lift.size + length }).bind fun d =>
          some d.accountFin) =
        ((advance c.data { c with size := c.size + length }).bind fun d =>
          some d.accountFin).map lift ∧
      ∀ b', ((advance c.data { c with size := c.size + length }).bind fun d =>
          some d.accountFin) = some b' → Within lo hi b' := by
    intro c hc
    have hsized : Within lo hi { c with size := c.size + length } :=
      ⟨hc.next, hc.sack, hc.data, hc.fin⟩
    rw [show { c.lift with size := c.lift.size + length } =
        lift { c with size := c.size + length } from rfl,
      show c.lift.data = c.data.map liftBlock from rfl, advance_lift hspan hsized hc.data]
    cases hadvance : advance c.data { c with size := c.size + length } with
    | none => exact ⟨rfl, nofun⟩
    | some d =>
      have hd := advance_within hsized hc.data hadvance
      refine ⟨congrArg some (accountFin_lift hspan hd), fun b' hb' => ?_⟩
      cases hb'
      exact accountFin_within hd
  have hgt : gt (wrap x) b.lift.nextRxSeq = gt x b.nextRxSeq := gt_lift hspan hx hb.next
  unfold account
  rw [hgt]
  split_ifs
  · rw [updateSackList_lift hspan hb hx hy]
    cases hupdate : b.updateSackList x y with
    | none => exact ⟨rfl, nofun⟩
    | some c => exact hfinish (updateSackList_within hb hx hy hupdate).1
  · exact hfinish hb

theorem insert_lift (hspan : hi - lo ≤ 2 ^ 31) (hb : Within lo hi b) (hx : In lo hi x)
    (hy : In lo hi y) {p : List UInt8} (hp : blockEnd (x, p) = y) :
    b.lift.insert (wrap x) (wrap y) p = (b.insert x y p).map lift ∧
      ∀ b', b.insert x y p = some b' → Within lo hi b' := by
  have hfirsts : ∀ i ∈ b.data, In lo hi i.1 := fun i hi' => (hb.data i hi').1
  have hstored : Within lo hi { b with data := store x p b.data } := by
    refine ⟨hb.next, hb.sack, fun j hj => ?_, hb.fin⟩
    rcases store_within hj with rfl | hj
    · exact ⟨hx, hp ▸ hy⟩
    · exact hb.data j hj
  unfold insert
  rw [show b.lift.data = b.data.map liftBlock from rfl, isStored_lift hspan hfirsts hx,
    store_lift hspan hfirsts hx p]
  split_ifs
  · exact ⟨rfl, nofun⟩
  · exact account_lift hspan hstored hx hy p.length

theorem add_lift (hspan : hi - lo ≤ 2 ^ 31) (hb : Within lo hi b) {payload : List UInt8}
    (he : EventIn lo hi b (.add x payload)) :
    b.lift.add (wrap x) payload = (b.add x payload).map (Prod.map id lift) ∧
      ∀ result, b.add x payload = some result → Within lo hi result.2 := by
  obtain ⟨hx, hy, hedge⟩ := he
  have htrim := trimToWindow_within hb hx hy hedge
  have hfit := trimToWindow_lift hspan hb hx hy hedge
  unfold add
  rw [← wrap_add, hfit, add_int]
  generalize b.trimToWindow x (x + payload.length) = trimmed at htrim ⊢
  obtain ⟨h, t⟩ := trimmed
  have hcut := removeOverlap_within (c := b.size) hb.data htrim.1 htrim.2
  have hcutl := removeOverlap_lift hspan (c := b.size) hb.data htrim.1 htrim.2
  dsimp only
  rw [show b.lift.data = b.data.map liftBlock from rfl, show b.lift.size = b.size from rfl, hcutl]
  generalize removeOverlap b.data h t b.size = cut at hcut ⊢
  obtain ⟨data, h', t', size⟩ := cut
  obtain ⟨hsub, hh, ht⟩ := hcut
  have hkept : Within lo hi { b with data := data, size := size } :=
    ⟨hb.next, hb.sack, fun i hi' => hb.data i (hsub i hi'), hb.fin⟩
  dsimp only at hh ht ⊢
  rw [ge_lift hspan hh ht, distance_lift hspan ht hh, distance_lift hspan hh hx]
  split_ifs with hempty hlength
  · refine ⟨rfl, fun result hresult => ?_⟩
    cases hresult
    exact hkept
  · have hend : blockEnd (h', (payload.drop (distance h' x)).take (distance t' h')) = t' := by
      rw [ge_int, decide_eq_true_eq, not_le] at hempty
      unfold In at hh ht
      rw [blockEnd, hlength, add_int, distance_int (by omega) (by omega)]
      omega
    have hinsert := insert_lift hspan hkept hh ht hend
    rw [show ({ b.lift with data := data.map liftBlock, size := size } : TcpRxBuffer UInt32) =
      lift { b with data := data, size := size } from rfl, hinsert.1]
    refine ⟨by rw [Option.map_map, Option.map_map]; rfl, fun result hresult => ?_⟩
    obtain ⟨b', hb', rfl⟩ := Option.map_eq_some_iff.1 hresult
    exact hinsert.2 b' hb'
  · exact ⟨rfl, nofun⟩

theorem extractLoop_lift (hspan : hi - lo ≤ 2 ^ 31)
    (hdata : ∀ i ∈ data, In lo hi i.1 ∧ In lo hi (blockEnd i)) (hx : In lo hi x) (n : ℕ) :
    extractLoop (wrap x) (data.map liftBlock) n =
        (extractLoop x data n).map (Prod.map id (List.map liftBlock)) ∧
      ∀ result, extractLoop x data n = some result →
        ∀ i ∈ result.2, In lo hi i.1 ∧ In lo hi (blockEnd i) := by
  induction data generalizing n with
  | nil =>
    cases n with
    | zero =>
      refine ⟨rfl, fun result hresult => ?_⟩
      cases hresult
      exact hdata
    | succ n => exact ⟨rfl, nofun⟩
  | cons i rest ih =>
    obtain ⟨hfirst, hrest⟩ := List.forall_mem_cons.1 hdata
    cases n with
    | zero =>
      refine ⟨rfl, fun result hresult => ?_⟩
      cases hresult
      exact hdata
    | succ n =>
      have hle : le (liftBlock i).1 (wrap x) = le i.1 x := le_lift hspan hfirst.1 hx
      obtain ⟨hloop, hleft⟩ := ih hrest (n + 1 - i.2.length)
      rw [List.map_cons, extractLoop, extractLoop, hle, show (liftBlock i).2 = i.2 from rfl, hloop]
      split_ifs with hinorder hwhole
      · cases hrec : extractLoop x rest (n + 1 - i.2.length) with
        | none => exact ⟨rfl, nofun⟩
        | some result =>
          refine ⟨rfl, fun result' hresult => ?_⟩
          cases hresult
          exact hleft result hrec
      · have hkey : In lo hi (i.1 + (n + 1 : ℕ)) := by
          have hend := hfirst.2
          have hbegin := hfirst.1
          unfold blockEnd at hend
          unfold In at hbegin hend ⊢
          rw [add_int] at hend
          omega
        have hadd : SequenceNumber.add (wrap i.1) (n + 1) = wrap (i.1 + (n + 1 : ℕ)) :=
          (wrap_add i.1 (n + 1)).symm
        rw [show (liftBlock i).1 = wrap i.1 from rfl, hadd,
          store_lift hspan (fun j hj => (hrest j hj).1) hkey]
        refine ⟨rfl, fun result hresult => ?_⟩
        cases hresult
        intro j hj
        rcases store_within hj with rfl | hj
        · refine ⟨hkey, ?_⟩
          rw [blockEnd, add_int, add_int, List.length_drop,
            show i.1 + ↑(n + 1) + ↑(i.2.length - (n + 1)) = blockEnd i by
              rw [blockEnd, add_int]; omega]
          exact hfirst.2
        · exact hrest j hj
      · exact ⟨rfl, nofun⟩

theorem extract_lift (hspan : hi - lo ≤ 2 ^ 31) (hb : Within lo hi b) (maxSize : ℕ) :
    b.lift.extract maxSize = (b.extract maxSize).map (Prod.map id lift) ∧
      ∀ result, b.extract maxSize = some result → Within lo hi result.2 := by
  obtain ⟨hloop, hleft⟩ := extractLoop_lift hspan hb.data hb.next (min maxSize b.availBytes)
  unfold extract
  rw [show b.lift.nextRxSeq = wrap b.nextRxSeq from rfl,
    show b.lift.data = b.data.map liftBlock from rfl,
    show b.lift.availBytes = b.availBytes from rfl, hloop]
  cases hrec : extractLoop b.nextRxSeq b.data (min maxSize b.availBytes) with
  | none => exact ⟨rfl, nofun⟩
  | some result =>
    refine ⟨rfl, fun result' hresult => ?_⟩
    cases hresult
    exact ⟨hb.next, hb.sack, hleft result hrec, hb.fin⟩

theorem setFinSequence_lift (hspan : hi - lo ≤ 2 ^ 31) (hb : Within lo hi b) (hx : In lo hi x)
    (hx' : In lo hi (x + 1)) :
    b.lift.setFinSequence (wrap x) = (b.setFinSequence x).lift ∧
      Within lo hi (b.setFinSequence x) := by
  have hnext : (if wrap b.nextRxSeq = wrap x then SequenceNumber.add (wrap b.nextRxSeq) 1
      else wrap b.nextRxSeq) =
      wrap (if b.nextRxSeq = x then SequenceNumber.add b.nextRxSeq 1 else b.nextRxSeq) := by
    rw [← wrap_add]
    simp only [eq_lift hspan hb.next hx]
    split_ifs <;> rfl
  have hin : In lo hi
      (if b.nextRxSeq = x then SequenceNumber.add b.nextRxSeq 1 else b.nextRxSeq) := by
    split_ifs with heq
    · rw [heq]
      exact hx'
    · exact hb.next
  unfold setFinSequence
  rw [show b.lift.nextRxSeq = wrap b.nextRxSeq from rfl, hnext]
  exact ⟨rfl, ⟨hin, hb.sack, hb.data, fun _ => ⟨hx, hx'⟩⟩⟩

/-- Within a window of `2 ^ 31` the buffer does what it does without wrap. -/
theorem execute_lift (hspan : hi - lo ≤ 2 ^ 31) (hb : Within lo hi b) {e : RxEvent ℤ}
    (he : EventIn lo hi b e) :
    b.lift.execute (liftEvent e) = (b.execute e).map (Prod.map id lift) ∧
      ∀ result, b.execute e = some result → Within lo hi result.2 := by
  cases e with
  | add seq payload =>
    obtain ⟨hadd, hwithin⟩ := add_lift hspan hb he
    refine ⟨?_, fun result hresult => ?_⟩
    · rw [execute, liftEvent, execute, hadd, Option.map_map, Option.map_map]
      rfl
    · obtain ⟨result', hresult', rfl⟩ := Option.map_eq_some_iff.1 hresult
      exact hwithin result' hresult'
  | extract maxSize => exact extract_lift hspan hb maxSize
  | setFinSequence s =>
    obtain ⟨hset, hwithin⟩ := setFinSequence_lift hspan hb he.1 he.2
    refine ⟨?_, fun result hresult => ?_⟩
    · rw [liftEvent, execute, hset]
      rfl
    · cases hresult
      exact hwithin

end Lift

/-! ## Runs -/

/-- How far a number lies above another one. -/
def offset (base x : UInt32) : ℕ := (x - base).toNat

/-- All numbers of the buffer lie in the `2 ^ 31` from a base on. -/
structure InWindow (base : UInt32) (b : TcpRxBuffer UInt32) : Prop where
  next : offset base b.nextRxSeq < 0x80000000
  sack : ∀ s ∈ b.sackList, offset base s.1 < 0x80000000 ∧ offset base s.2 < 0x80000000
  data : ∀ i ∈ b.data, offset base i.1 + i.2.length < 0x80000000
  fin : b.gotFin = true → offset base b.finSeq + 1 < 0x80000000

/-- So do the numbers that an event brings, and the edge of the window that `Add` computes. -/
def EventInWindow (base : UInt32) (b : TcpRxBuffer UInt32) : RxEvent UInt32 → Prop
  | .add seq payload => offset base seq + payload.length < 0x80000000 ∧
      ∀ i ∈ b.data.head?, offset base i.1 + b.maxBuffer < 0x80000000
  | .extract _ => True
  | .setFinSequence s => offset base s + 1 < 0x80000000

instance (base : UInt32) (b : TcpRxBuffer UInt32) : Decidable (InWindow base b) :=
  haveI : Decidable (∀ s ∈ b.sackList,
      offset base s.1 < 0x80000000 ∧ offset base s.2 < 0x80000000) := List.decidableBAll _ _
  decidable_of_iff (offset base b.nextRxSeq < 0x80000000 ∧
      (∀ s ∈ b.sackList, offset base s.1 < 0x80000000 ∧ offset base s.2 < 0x80000000) ∧
      (∀ i ∈ b.data, offset base i.1 + i.2.length < 0x80000000) ∧
      (b.gotFin = true → offset base b.finSeq + 1 < 0x80000000))
    ⟨fun h => ⟨h.1, h.2.1, h.2.2.1, h.2.2.2⟩, fun h => ⟨h.next, h.sack, h.data, h.fin⟩⟩

instance (base : UInt32) (b : TcpRxBuffer UInt32) :
    (e : RxEvent UInt32) → Decidable (EventInWindow base b e)
  | .add _ _ => inferInstanceAs (Decidable (_ ∧ _))
  | .extract _ => inferInstanceAs (Decidable True)
  | .setFinSequence _ => inferInstanceAs (Decidable (_ < _))

section Runs

variable {lo x : ℤ} {base : UInt32} {b : TcpRxBuffer ℤ}

theorem offset_wrap (hx : In lo (lo + 2 ^ 31) x) : (offset (wrap lo) (wrap x) : ℤ) = x - lo := by
  unfold In at hx
  rw [offset, toNat_wrap_sub]
  omega

theorem in_of_offset {n : ℕ} (hbelow : lo - x ≤ 2 ^ 31) (habove : x - lo < 2 ^ 32)
    (hx : offset (wrap lo) (wrap x) + n < 2 ^ 31) :
    In lo (lo + 2 ^ 31) x ∧ In lo (lo + 2 ^ 31) (x + n) := by
  have hsub := toNat_wrap_sub x lo
  unfold offset at hx
  unfold In
  omega

/-- Numbers that lie in some window lie in that from the base on, too. -/
theorem within_of_inWindow (hb : Within lo (lo + 2 ^ 31) b) (h : InWindow base b.lift) :
    ∃ lo, wrap lo = base ∧ Within lo (lo + 2 ^ 31) b := by
  obtain ⟨z, rfl⟩ := exists_wrap base
  have hnext : offset (wrap z) (wrap b.nextRxSeq) < 2 ^ 31 := h.next
  obtain ⟨lo', hwrap, hlo'⟩ : ∃ lo', wrap lo' = wrap z ∧
      lo' = b.nextRxSeq - (offset (wrap z) (wrap b.nextRxSeq) : ℤ) := by
    refine ⟨_, ?_, rfl⟩
    have hsub := toNat_wrap_sub b.nextRxSeq z
    rw [wrap_eq_iff, offset]
    omega
  rw [← hwrap] at h hnext
  have hbase := hb.next
  have hin : ∀ {x : ℤ} {n : ℕ}, In lo (lo + 2 ^ 31) x →
      offset (wrap lo') (wrap x) + n < 2 ^ 31 →
      In lo' (lo' + 2 ^ 31) x ∧ In lo' (lo' + 2 ^ 31) (x + n) := by
    intro x n hx hoffset
    rw [hwrap] at hnext
    unfold In at hbase hx
    exact in_of_offset (by omega) (by omega) hoffset
  refine ⟨lo', hwrap, (hin (n := 0) hbase hnext).1, fun s hs => ?_, fun i hi' => ?_, fun hfin => ?_⟩
  · obtain ⟨hfirst, hsecond⟩ := hb.sack s hs
    obtain ⟨hfirst', hsecond'⟩ := h.sack (liftSack s) (List.mem_map_of_mem hs)
    exact ⟨(hin (n := 0) hfirst hfirst').1, (hin (n := 0) hsecond hsecond').1⟩
  · exact hin (hb.data i hi').1 (h.data (liftBlock i) (List.mem_map_of_mem hi'))
  · exact hin (n := 1) (hb.fin hfin).1 (h.fin hfin)

theorem exists_event (hb : Within lo (lo + 2 ^ 31) b) {e : RxEvent UInt32}
    (he : EventInWindow (wrap lo) b.lift e) :
    ∃ e', liftEvent e' = e ∧ EventIn lo (lo + 2 ^ 31) b e' := by
  have hwrap : ∀ y : UInt32, wrap (lo + offset (wrap lo) y) = y := by
    intro y
    obtain ⟨z, rfl⟩ := exists_wrap y
    have hsub := toNat_wrap_sub z lo
    rw [wrap_eq_iff, offset]
    omega
  cases e with
  | add seq payload =>
    refine ⟨.add (lo + offset (wrap lo) seq) payload, by rw [liftEvent, hwrap], ?_, ?_, ?_⟩
    · have hseq := he.1
      unfold In
      omega
    · have hseq := he.1
      unfold In
      omega
    · intro i hi'
      have hfirst := (hb.data i (List.mem_of_mem_head? hi')).1
      have hedge := he.2 (liftBlock i) (by
        rw [show b.lift.data = b.data.map liftBlock from rfl, List.head?_map]
        exact Option.mem_map_of_mem _ hi')
      rw [show (liftBlock i).1 = wrap i.1 from rfl, show b.lift.maxBuffer = b.maxBuffer from rfl]
        at hedge
      unfold In at hfirst
      exact (in_of_offset (by omega) (by omega) hedge).2
  | extract maxSize => exact ⟨.extract maxSize, rfl, trivial⟩
  | setFinSequence s =>
    refine ⟨.setFinSequence (lo + offset (wrap lo) s), by rw [liftEvent, hwrap], ?_, ?_⟩
    · have hs : offset (wrap lo) s + 1 < 2 ^ 31 := he
      unfold In
      omega
    · have hs : offset (wrap lo) s + 1 < 2 ^ 31 := he
      unfold In
      omega

theorem EventIn.length_lt {seq : ℤ} {payload : List UInt8}
    (he : EventIn lo (lo + 2 ^ 31) b (.add seq payload)) : payload.length < 2 ^ 32 := by
  obtain ⟨hseq, hend, -⟩ := he
  unfold In at hseq hend
  omega

/-- The number of the window that stands for a sequence number. -/
def unwrap (lo : ℤ) (x : UInt32) : ℤ := lo + offset (wrap lo) x

theorem offset_lift {z : ℤ} {x : UInt32} {n : ℕ} (hz : In lo (lo + 2 ^ 31) z)
    (hz' : In lo (lo + 2 ^ 31) (z + n)) :
    offset (wrap z) x < n ↔ z ≤ unwrap lo x ∧ unwrap lo x < z + n := by
  obtain ⟨y, rfl⟩ := exists_wrap x
  have hy := toNat_wrap_sub y z
  have hlo := toNat_wrap_sub y lo
  unfold In at hz hz'
  unfold unwrap offset
  omega

theorem within_empty (initial fin : ℤ) (maxBuffer : ℕ) :
    Within initial (initial + 2 ^ 31) (empty initial fin maxBuffer) := by
  have hnext : In initial (initial + 2 ^ 31) initial := by
    unfold In
    omega
  exact ⟨hnext, nofun, nofun, nofun⟩

/-- A run of calls within windows of `2 ^ 31` is one over the integers. -/
theorem exists_run_of_inWindow {b₀ : TcpRxBuffer ℤ} {b : TcpRxBuffer UInt32}
    {trace : RxTrace UInt32} {P : UInt32 → TcpRxBuffer UInt32 → RxEvent UInt32 → Prop}
    (h₀ : Within lo (lo + 2 ^ 31) b₀) (hrun : Run Step b₀.lift trace b)
    (hwindow : ∀ p ∈ trace, ∃ base, InWindow base p.1 ∧ EventInWindow base p.1 p.2.1 ∧
      P base p.1 p.2.1) :
    ∃ (trace' : RxTrace ℤ) (b' : TcpRxBuffer ℤ),
      Run Step b₀ trace' b' ∧
      trace'.map (Prod.map lift (Prod.map liftEvent id)) = trace ∧ b'.lift = b ∧
      (∃ lo, Within lo (lo + 2 ^ 31) b') ∧
      ∀ q ∈ trace', ∃ lo, Within lo (lo + 2 ^ 31) q.1 ∧ EventIn lo (lo + 2 ^ 31) q.1 q.2.1 ∧
        P (wrap lo) q.1.lift (liftEvent q.2.1) := by
  refine hrun.exists_of_map (f := lift) (g := Prod.map liftEvent id)
    (I := fun t => ∃ lo, Within lo (lo + 2 ^ 31) t)
    (Q := fun q => ∃ lo, Within lo (lo + 2 ^ 31) q.1 ∧ EventIn lo (lo + 2 ^ 31) q.1 q.2.1 ∧
      P (wrap lo) q.1.lift (liftEvent q.2.1)) ⟨lo, h₀⟩ ?_ hwindow
  rintro t ⟨e, out⟩ s ⟨lo, ht⟩ ⟨base, hwin, hevent, hP⟩ hst
  obtain ⟨lo', rfl, ht'⟩ := within_of_inWindow ht hwin
  obtain ⟨e', rfl, he'⟩ := exists_event ht' hevent
  obtain ⟨hexec, hwithin⟩ := execute_lift (by omega) ht' he'
  have hst' : t.lift.execute (liftEvent e') = some (out, s) := hst
  rw [hexec] at hst'
  obtain ⟨⟨out', t'⟩, hresult, heq⟩ := Option.map_eq_some_iff.1 hst'
  cases heq
  exact ⟨(e', out'), t', rfl, rfl, hresult, ⟨lo', ht', he', hP⟩, lo', hwithin _ hresult⟩

end Runs

end TcpRxBuffer

end SeanetSim
