import SeanetSim.Internet.TcpRxWindow
import SeanetSim.Lib.Blocks

/-!
# The blocks in the receive buffer

Over the integers: what each loop of `Add` and `Extract` does to a list of blocks in order, and the
invariant `Valid`, which says where the bytes lie that are in order and those behind a gap.
-/

namespace SeanetSim

open SequenceNumber Blocks

namespace TcpRxBuffer

/-! ## The blocks -/

section Blocks

variable {data front mid back A B : List (RxBlock ℤ)} {i : RxBlock ℤ} {h t x d u : ℤ} {c n : ℕ}
  {b : TcpRxBuffer ℤ} {p : List UInt8}

@[simp] theorem blockEnd_int : blockEnd i = stop i := rfl

/-- How a segment from `h` to `t` lies to the stored blocks: `A` and `B` stay, `E` is erased, and
the part from `x` to `y` is new. -/
structure Cut (data : List (RxBlock ℤ)) (h t : ℤ) (A E B : List (RxBlock ℤ)) (x y : ℤ) : Prop where
  data : data = A ++ E ++ B
  head : h ≤ x
  new : x < y
  tail : y ≤ t
  before : ∀ i ∈ A, stop i ≤ x
  erased : ∀ i ∈ E, x < i.1 ∧ stop i ≤ y ∧ stop i < t
  after : ∀ i ∈ B, y ≤ i.1
  left : ∀ z, h ≤ z → z < x → Covers A z
  right : ∀ z, y ≤ z → z < t → Covers B z

theorem removeOverlap_of_lt (hdata : ∀ i ∈ data, t < i.1) :
    removeOverlap data h t c = (data, h, t, c) := by
  cases data with
  | nil => rfl
  | cons i rest =>
    have hlt := hdata i List.mem_cons_self
    simp [removeOverlap, hlt]

/-- A segment without bytes erases nothing. -/
theorem removeOverlap_of_le (hdata : Ordered data) (hle : t ≤ h) :
    ∃ x y, y ≤ x ∧ removeOverlap data h t c = (data, x, y, c) := by
  induction data generalizing h t with
  | nil => exact ⟨h, t, hle, rfl⟩
  | cons i rest ih =>
    obtain ⟨hlt, -, hrest⟩ := ordered_cons.1 hdata
    by_cases hit : i.1 ≤ t
    · by_cases hhi : h < stop i
      · have hkeep : ¬ h < i.1 := by omega
        have htail : t ≤ stop i := by omega
        obtain ⟨x, y, hyx, heq⟩ := ih (h := stop i) (t := i.1) hrest hlt.le
        exact ⟨x, y, hyx, by simp [removeOverlap, hit, hhi, hkeep, htail, heq, not_lt.1 hkeep]⟩
      · obtain ⟨x, y, hyx, heq⟩ := ih hrest hle
        exact ⟨x, y, hyx, by simp [removeOverlap, hit, hhi, heq]⟩
    · exact ⟨h, t, hle, by simp [removeOverlap, hit]⟩

/-- The blocks behind the head of the segment: those that it contains go. -/
theorem removeOverlap_behind (hdata : Ordered data) (hfirst : ∀ i ∈ data, h < i.1) (hlt : h < t)
    (hsize : total data ≤ c) :
    ∃ E B y, Cut data h t [] E B h y ∧ removeOverlap data h t c = (B, h, y, c - total E) := by
  induction data generalizing c with
  | nil =>
    exact ⟨[], [], t, ⟨rfl, le_rfl, hlt, le_rfl, nofun, nofun, nofun, by omega, by omega⟩, rfl⟩
  | cons i rest ih =>
    obtain ⟨hi', hafter, hrest⟩ := ordered_cons.1 hdata
    obtain ⟨hhi, hfirst'⟩ := List.forall_mem_cons.1 hfirst
    rw [total_cons] at hsize
    have hend : h < stop i := by omega
    by_cases hit : i.1 ≤ t
    · by_cases hin : stop i < t
      · obtain ⟨E, B, y, hcut, heq⟩ := ih (c := c - i.2.length) hrest hfirst' (by omega)
        refine ⟨i :: E, B, y, ⟨?_, le_rfl, hcut.new, hcut.tail, nofun, ?_, hcut.after, by omega,
          hcut.right⟩, ?_⟩
        · have hdata' := hcut.data
          simpa using hdata'
        · refine List.forall_mem_cons.2 ⟨⟨hhi, ?_, hin⟩, hcut.erased⟩
          by_contra hlt'
          obtain ⟨j, hj, hj', -⟩ := hcut.right y le_rfl (by omega)
          have := hafter j (by simp [hcut.data, hj])
          omega
        · simp [removeOverlap, hit, hend, hhi, hin, heq, Nat.sub_sub]
      · have hstop : ∀ j ∈ rest, i.1 < j.1 := fun j hj => by
          have := hafter j hj
          omega
        refine ⟨[], i :: rest, i.1, ⟨rfl, le_rfl, hhi, hit, nofun, nofun, ?_, by omega, ?_⟩, ?_⟩
        · exact List.forall_mem_cons.2 ⟨le_rfl, fun j hj => (hstop j hj).le⟩
        · exact fun z hz hzt => covers_cons.2 (.inl ⟨hz, by omega⟩)
        · simp [removeOverlap, hit, hend, hhi, hin, not_lt.1 hin, not_le.2 hhi,
            removeOverlap_of_lt hstop]
    · refine ⟨[], i :: rest, t, ⟨rfl, le_rfl, hlt, le_rfl, nofun, nofun, ?_, by omega, by omega⟩,
        by simp [removeOverlap, hit]⟩
      refine List.forall_mem_cons.2 ⟨by omega, fun j hj => ?_⟩
      have := hafter j hj
      omega

/-- Either a segment brings nothing new, or it has one new part. -/
theorem removeOverlap_cases (hdata : Ordered data) (hsize : total data ≤ c) (h t : ℤ) :
    (∃ x y, y ≤ x ∧ removeOverlap data h t c = (data, x, y, c) ∧
      ∀ z, h ≤ z → z < t → Covers data z) ∨
    ∃ A E B x y, Cut data h t A E B x y ∧
      removeOverlap data h t c = (A ++ B, x, y, c - total E) := by
  rcases le_or_gt t h with hth | hht
  · obtain ⟨x, y, hyx, heq⟩ := removeOverlap_of_le (c := c) hdata hth
    exact .inl ⟨x, y, hyx, heq, by omega⟩
  induction data generalizing h with
  | nil =>
    exact .inr ⟨[], [], [], h, t,
      ⟨rfl, le_rfl, hht, le_rfl, nofun, nofun, nofun, by omega, by omega⟩, rfl⟩
  | cons i rest ih =>
    obtain ⟨hi', hafter, hrest⟩ := ordered_cons.1 hdata
    have hsize' : total rest ≤ c := by
      rw [total_cons] at hsize
      omega
    by_cases hit : i.1 ≤ t
    · by_cases hhi : h < stop i
      · by_cases hhead : h < i.1
        · have hfirst : ∀ j ∈ i :: rest, h < j.1 := by
            refine List.forall_mem_cons.2 ⟨hhead, fun j hj => ?_⟩
            have := hafter j hj
            omega
          obtain ⟨E, B, y, hcut, heq⟩ := removeOverlap_behind hdata hfirst hht hsize
          exact .inr ⟨[], E, B, h, y, hcut, heq⟩
        · -- the head of the segment lies in the block, and perhaps its tail does, too
          have hcover : ∀ z, h ≤ z → z < stop i → Covers (i :: rest) z := fun z hz hz' =>
            covers_cons.2 (.inl ⟨by omega, hz'⟩)
          by_cases htail : t ≤ stop i
          · obtain ⟨x, y, hyx, heq⟩ :=
              removeOverlap_of_le (c := c) (h := stop i) (t := i.1) hrest hi'.le
            refine .inl ⟨x, y, hyx, ?_, fun z hz hzt => hcover z hz (by omega)⟩
            simp [removeOverlap, hit, hhi, hhead, htail, heq, not_lt.1 hhead]
          · have hstep : removeOverlap (i :: rest) h t c =
                (i :: (removeOverlap rest (stop i) t c).1,
                  (removeOverlap rest (stop i) t c).2) := by
              simp [removeOverlap, hit, hhi, hhead, htail, not_lt.1 hhead]
            rcases ih hrest hsize' (stop i) (by omega) with
                ⟨x, y, hyx, heq, hall⟩ | ⟨A, E, B, x, y, hcut, heq⟩
            · refine .inl ⟨x, y, hyx, by rw [hstep, heq], fun z hz hzt => ?_⟩
              by_cases hz' : z < stop i
              · exact hcover z hz hz'
              · exact covers_cons.2 (.inr (hall z (by omega) hzt))
            · refine .inr ⟨i :: A, E, B, x, y, ⟨?_, ?_, hcut.new, hcut.tail, ?_, hcut.erased,
                hcut.after, fun z hz hzx => ?_, hcut.right⟩, by rw [hstep, heq]; rfl⟩
              · simp [hcut.data]
              · have := hcut.head
                omega
              · exact List.forall_mem_cons.2 ⟨hcut.head, hcut.before⟩
              · by_cases hz' : z < stop i
                · exact covers_cons.2 (.inl ⟨by omega, hz'⟩)
                · exact covers_cons.2 (.inr (hcut.left z (by omega) hzx))
      · have hstep : removeOverlap (i :: rest) h t c =
            (i :: (removeOverlap rest h t c).1, (removeOverlap rest h t c).2) := by
          simp [removeOverlap, hit, hhi]
        rcases ih hrest hsize' h hht with ⟨x, y, hyx, heq, hall⟩ | ⟨A, E, B, x, y, hcut, heq⟩
        · exact .inl ⟨x, y, hyx, by rw [hstep, heq],
            fun z hz hzt => covers_cons.2 (.inr (hall z hz hzt))⟩
        · refine .inr ⟨i :: A, E, B, x, y, ⟨?_, hcut.head, hcut.new, hcut.tail, ?_, hcut.erased,
            hcut.after, fun z hz hzx => covers_cons.2 (.inr (hcut.left z hz hzx)), hcut.right⟩,
            by rw [hstep, heq]; rfl⟩
          · simp [hcut.data]
          · have := hcut.head
            exact List.forall_mem_cons.2 ⟨by omega, hcut.before⟩
    · have hfirst : ∀ j ∈ i :: rest, t < j.1 := by
        refine List.forall_mem_cons.2 ⟨by omega, fun j hj => ?_⟩
        have := hafter j hj
        omega
      exact .inr ⟨[], [], i :: rest, h, t, ⟨rfl, le_rfl, hht, le_rfl, nofun, nofun,
        fun j hj => (hfirst j hj).le, by omega, by omega⟩, removeOverlap_of_lt hfirst⟩

theorem store_append (hA : ∀ i ∈ A, i.1 < x) (hB : ∀ i ∈ B, x < i.1) :
    store x p (A ++ B) = A ++ (x, p) :: B := by
  induction A with
  | nil =>
    cases B with
    | nil => rfl
    | cons i rest =>
      have hlt := hB i List.mem_cons_self
      simp [store, hlt]
  | cons i rest ih =>
    obtain ⟨hlt, hrest⟩ := List.forall_mem_cons.1 hA
    simp [store, hlt, not_lt.2 hlt.le, ih hrest]

theorem isStored_eq_false (hdata : ∀ i ∈ data, i.1 < x ∨ x < i.1) : isStored x data = false := by
  rw [isStored, List.any_eq_false]
  intro i hi'
  have := hdata i hi'
  simp only [lt_int, Bool.and_eq_true, Bool.not_eq_true', decide_eq_false_iff_not]
  omega

theorem clearSackList_eq {sackList : List (SackBlock ℤ)} (hsack : ∀ s ∈ sackList, s.1 < s.2) :
    clearSackList x sackList = some (sackList.filter fun s => decide (x < s.2)) := by
  have hall : (sackList.all fun block => lt block.1 block.2) = true := by
    rw [List.all_eq_true]
    intro s hs
    rw [lt_int, decide_eq_true_eq]
    exact hsack s hs
  rw [clearSackList, if_pos hall]
  refine congrArg some (List.filter_congr fun s _ => ?_)
  rw [le_int, ← decide_not, decide_eq_decide, not_le]

theorem advance_append (hfront : ∀ i ∈ front, i.1 < b.nextRxSeq) :
    advance (front ++ back) b = advance back b := by
  induction front with
  | nil => rfl
  | cons i rest ih =>
    obtain ⟨hlt, hrest⟩ := List.forall_mem_cons.1 hfront
    rw [List.cons_append, advance, lt_int, if_pos (by simpa using hlt), ih hrest]

/-- The next number moves over the blocks that continue the stream, and over no others. -/
theorem advance_chain (hmid : Chain b.nextRxSeq mid d) (hback : ∀ i ∈ back, d < i.1)
    (hsack : ∀ s ∈ b.sackList, s.1 < s.2 ∧ b.nextRxSeq < s.2) :
    advance (mid ++ back) b = some { b with
      nextRxSeq := d, availBytes := b.availBytes + total mid,
      sackList := b.sackList.filter fun s => decide (d < s.2) } := by
  induction mid generalizing b with
  | nil =>
    have hnext : b.nextRxSeq = d := hmid
    have hfilter : (b.sackList.filter fun s => decide (d < s.2)) = b.sackList := by
      rw [List.filter_eq_self]
      intro s hs
      rw [decide_eq_true_eq, ← hnext]
      exact (hsack s hs).2
    have hself : { b with
        nextRxSeq := d, availBytes := b.availBytes + total ([] : List (RxBlock ℤ)),
        sackList := b.sackList.filter fun s => decide (d < s.2) } = b := by
      rw [hfilter, ← hnext]
      rfl
    rw [hself, List.nil_append]
    cases back with
    | nil => rfl
    | cons i rest =>
      have hlt := hback i List.mem_cons_self
      rw [← hnext] at hlt
      simp [advance, hlt, not_lt.2 hlt.le]
  | cons i rest ih =>
    obtain ⟨hfirst, hlt, hrest⟩ := hmid
    have hle := hrest.le
    have hstep := ih (b := { b with
        nextRxSeq := stop i, availBytes := b.availBytes + i.2.length,
        sackList := b.sackList.filter fun s => decide (stop i < s.2) }) hrest (by
      intro s hs
      obtain ⟨hs, hbelow⟩ := List.mem_filter.1 hs
      exact ⟨(hsack s hs).1, by simpa using hbelow⟩)
    rw [List.cons_append, advance, lt_int, gt_int, if_neg (by simp [hfirst]),
      if_neg (by simp [hfirst]), clearSackList_eq fun s hs => (hsack s hs).1]
    apply hstep.trans
    rw [List.filter_filter, total_cons, Nat.add_assoc]
    have hfilter : (b.sackList.filter fun s => decide (d < s.2) && decide (stop i < s.2)) =
        b.sackList.filter fun s => decide (d < s.2) := by
      refine List.filter_congr fun s _ => ?_
      rw [Bool.and_eq_left_iff_imp, decide_eq_true_eq, decide_eq_true_eq]
      exact fun h => by omega
    rw [hfilter]

/-- Taking bytes from the blocks in order. -/
theorem extractLoop_chain (hfront : Chain u front d) (hd : d ≤ x) (hback : ∀ i ∈ back, d < i.1)
    (hn : n ≤ total front) :
    ∃ out front', extractLoop x (front ++ back) n = some (out, front' ++ back) ∧
      Chain (u + n) front' d ∧ out.length = n ∧
      ∀ stream, Holds stream front → out = piece stream u n ∧ Holds stream front' := by
  induction front generalizing u n with
  | nil =>
    have hn' : n = 0 := by simpa using hn
    subst hn'
    exact ⟨[], [], by simp [extractLoop], by simpa using hfront, rfl, fun stream h => ⟨rfl, h⟩⟩
  | cons i rest ih =>
    obtain ⟨hfirst, hlt, hrest⟩ := hfront
    have hle := hrest.le
    rw [total_cons] at hn
    cases n with
    | zero =>
      exact ⟨[], i :: rest, by simp [extractLoop], by simpa using ⟨hfirst, hlt, hrest⟩, rfl,
        fun stream h => ⟨rfl, h⟩⟩
    | succ n =>
      by_cases hwhole : i.2.length ≤ n + 1
      · obtain ⟨out, front', heq, hchain, hlength, hholds⟩ :=
          ih (n := n + 1 - i.2.length) hrest (by omega)
        have hend : stop i + ((n + 1 - i.2.length : ℕ) : ℤ) = u + (n + 1 : ℕ) := by
          rw [stop, hfirst]
          omega
        refine ⟨i.2 ++ out, front', ?_, hend ▸ hchain, by rw [List.length_append]; omega,
          fun stream h => ?_⟩
        · simp [extractLoop, hwhole, heq, show i.1 ≤ x by omega]
        · obtain ⟨hi', hrest'⟩ := holds_cons.1 h
          obtain ⟨hout, hfront'⟩ := hholds stream hrest'
          refine ⟨?_, hfront'⟩
          rw [hout, hi', ← hfirst, show n + 1 = i.2.length + (n + 1 - i.2.length) by omega,
            piece_add, length_piece]
          simp [stop]
      · have hstore : store (i.1 + (n + 1 : ℕ)) (i.2.drop (n + 1)) (rest ++ back) =
            (i.1 + (n + 1 : ℕ), i.2.drop (n + 1)) :: (rest ++ back) := by
          refine store_append (A := []) (fun j hj => absurd hj List.not_mem_nil) fun j hj => ?_
          have hstop : i.1 + (n + 1 : ℕ) < stop i := by
            rw [stop]
            omega
          rcases List.mem_append.1 hj with hj | hj
          · have := (hrest.bounds j hj).1
            omega
          · have := hback j hj
            omega
        have hend : stop (i.1 + ((n + 1 : ℕ) : ℤ), i.2.drop (n + 1)) = stop i := by
          rw [stop, stop, List.length_drop]
          omega
        refine ⟨i.2.take (n + 1), (i.1 + (n + 1 : ℕ), i.2.drop (n + 1)) :: rest, ?_, ?_, ?_,
          fun stream h => ?_⟩
        · simp only [List.cons_append, extractLoop, le_int, decide_eq_true_eq, add_int, hstore,
            if_pos (show i.1 ≤ x by omega), if_neg hwhole]
        · refine ⟨by rw [hfirst], ?_, hend ▸ hrest⟩
          rw [hend, stop]
          dsimp only
          omega
        · rw [List.length_take]
          omega
        · obtain ⟨hi', hrest'⟩ := holds_cons.1 h
          refine ⟨?_, holds_cons.2 ⟨?_, hrest'⟩⟩
          · rw [hi', take_piece (by omega), hfirst]
          · dsimp only
            rw [List.length_drop, hi', drop_piece (by omega), length_piece]

/-! ### The SACK blocks -/

/-- Two blocks without a gap between them. -/
def Touches (first current : SackBlock ℤ) : Prop := first.1 = current.2 ∨ first.2 = current.1

instance (first current : SackBlock ℤ) : Decidable (Touches first current) :=
  inferInstanceAs (Decidable (_ ∨ _))

def join (first current : SackBlock ℤ) : SackBlock ℤ :=
  (min first.1 current.1, max first.2 current.2)

variable {first current : SackBlock ℤ} {rest sackList : List (SackBlock ℤ)}

theorem touch_eq (hfirst : first.1 < first.2) (hcurrent : current.1 < current.2) :
    touch first current =
      some (if Touches first current then some (join first current) else none) := by
  unfold touch join
  simp only [lt_int, decide_eq_true_eq]
  by_cases hleft : first.1 = current.2
  · have htouch : Touches first current := .inl hleft
    rw [if_pos hleft, if_pos (by omega), if_pos htouch, min_eq_right (by omega),
      max_eq_left (by omega)]
  · by_cases hright : first.2 = current.1
    · have htouch : Touches first current := .inr hright
      rw [if_neg hleft, if_pos hright, if_pos (by omega), if_pos htouch, min_eq_left (by omega),
        max_eq_right (by omega)]
    · have htouch : ¬ Touches first current := not_or.2 ⟨hleft, hright⟩
      rw [if_neg hleft, if_neg hright, if_neg htouch]

theorem mergeFirst_cases (hfirst : first.1 < first.2) (hrest : ∀ s ∈ rest, s.1 < s.2) :
    (mergeFirst first rest = some none ∧ ∀ s ∈ rest, ¬ Touches first s) ∨
    ∃ pre current post, rest = pre ++ current :: post ∧ Touches first current ∧
      mergeFirst first rest = some (some (join first current, pre ++ post)) := by
  induction rest with
  | nil => exact .inl ⟨rfl, nofun⟩
  | cons current rest ih =>
    obtain ⟨hcurrent, hrest⟩ := List.forall_mem_cons.1 hrest
    rw [mergeFirst, touch_eq hfirst hcurrent]
    by_cases htouch : Touches first current
    · rw [if_pos htouch]
      exact .inr ⟨[], current, rest, rfl, htouch, rfl⟩
    · rw [if_neg htouch]
      rcases ih hrest with ⟨heq, hnone⟩ | ⟨pre, merged, post, rfl, hmerged, heq⟩
      · exact .inl ⟨by rw [heq]; rfl, List.forall_mem_cons.2 ⟨htouch, hnone⟩⟩
      · exact .inr ⟨current :: pre, merged, post, rfl, hmerged, by rw [heq]; rfl⟩

/-- What the merging of two blocks that touch keeps, the loop keeps; in the end no block touches
the first one. -/
theorem mergeLoop_invariant {J : SackBlock ℤ → List (SackBlock ℤ) → Prop}
    (hnonempty : ∀ {first rest}, J first rest → first.1 < first.2 ∧ ∀ s ∈ rest, s.1 < s.2)
    (hstep : ∀ {first pre current post}, J first (pre ++ current :: post) →
      Touches first current → J (join first current) (pre ++ post))
    {fuel : ℕ} (hfuel : rest.length ≤ fuel) (h : J first rest) :
    ∃ first' rest', mergeLoop fuel first rest = some (first' :: rest') ∧ J first' rest' ∧
      ∀ s ∈ rest', ¬ Touches first' s := by
  induction fuel generalizing first rest with
  | zero =>
    obtain rfl := List.length_eq_zero_iff.1 (Nat.le_zero.1 hfuel)
    exact ⟨first, [], rfl, h, nofun⟩
  | succ fuel ih =>
    obtain ⟨hfirst, hrest⟩ := hnonempty h
    rw [mergeLoop]
    rcases mergeFirst_cases hfirst hrest with ⟨heq, hnone⟩ | ⟨pre, current, post, rfl, htouch, heq⟩
    · exact ⟨first, rest, by rw [heq]; rfl, h, hnone⟩
    · rw [heq]
      have hfuel' : (pre ++ post).length ≤ fuel := by
        rw [List.length_append, List.length_cons] at hfuel
        rw [List.length_append]
        omega
      exact ih hfuel' (hstep h htouch)

/-- A nonempty block of numbers that have a property. -/
def SackOf (P : ℤ → Prop) (s : SackBlock ℤ) : Prop :=
  s.1 < s.2 ∧ ∀ z, s.1 ≤ z → z < s.2 → P z

theorem SackOf.join {P : ℤ → Prop} (hfirst : SackOf P first) (hcurrent : SackOf P current)
    (htouch : Touches first current) : SackOf P (join first current) := by
  obtain ⟨hlt, hP⟩ := hfirst
  obtain ⟨hlt', hP'⟩ := hcurrent
  unfold Touches at htouch
  refine ⟨lt_max_of_lt_left (min_lt_of_left_lt hlt), fun z hz hz' => ?_⟩
  rcases min_le_iff.1 hz with hz | hz
  · by_cases hzl : z < first.2
    · exact hP z hz hzl
    · rcases lt_max_iff.1 hz' with hz' | hz'
      · omega
      · exact hP' z (by omega) hz'
  · by_cases hzl : z < current.2
    · exact hP' z hz hzl
    · rcases lt_max_iff.1 hz' with hz' | hz'
      · exact hP z (by omega) hz'
      · omega

end Blocks

/-! ## The invariant -/

/-- The blocks in front are in order, from the first undelivered number `u` to `d`; the ones at the
back lie behind a gap. -/
structure Valid (u d : ℤ) (front back : List (RxBlock ℤ)) (b : TcpRxBuffer ℤ) : Prop where
  data : b.data = front ++ back
  chain : Chain u front d
  ordered : Ordered back
  above : ∀ i ∈ back, d < i.1
  size : b.size = total b.data
  avail : u + b.availBytes = d
  next : b.nextRxSeq = if b.gotFin = true ∧ b.finSeq = d then d + 1 else d
  sack : ∀ s ∈ b.sackList, SackOf (fun z => d < z ∧ Covers b.data z) s

section Steps

variable {u d h t x y : ℤ} {front back A E B : List (RxBlock ℤ)} {b b' : TcpRxBuffer ℤ}
  {p : List UInt8}

theorem valid_empty (initial fin : ℤ) (maxBuffer : ℕ) :
    Valid initial initial [] [] (empty initial fin maxBuffer) :=
  ⟨rfl, rfl, ordered_nil, nofun, rfl, Int.add_zero initial, rfl, nofun⟩

theorem Valid.ordered_data (hb : Valid u d front back b) : Ordered b.data := by
  rw [hb.data]
  refine ordered_append.2 ⟨hb.chain.ordered, hb.ordered, fun i hi j hj => ?_⟩
  have hbelow := (hb.chain.bounds i hi).2.2
  have habove := hb.above j hj
  omega

theorem Valid.first_ge (hb : Valid u d front back b) : ∀ i ∈ b.data, u ≤ i.1 := by
  intro i hi
  rw [hb.data] at hi
  rcases List.mem_append.1 hi with hi | hi
  · exact (hb.chain.bounds i hi).1
  · have hle := hb.chain.le
    have hgap := hb.above i hi
    omega

theorem Valid.next_ge (hb : Valid u d front back b) : d ≤ b.nextRxSeq := by
  rw [hb.next]
  split_ifs <;> omega

theorem Valid.next_eq (hb : Valid u d front back b) (hfin : b.gotFin = false) :
    b.nextRxSeq = d := by
  rw [hb.next, hfin]
  exact if_neg (by simp)

/-! ### Add -/

theorem trimToWindow_spec (b : TcpRxBuffer ℤ) (x y : ℤ) :
    (b.trimToWindow x y).2 ≤ y ∧ ((b.trimToWindow x y).1 < (b.trimToWindow x y).2 →
      x ≤ (b.trimToWindow x y).1 ∧ b.nextRxSeq ≤ (b.trimToWindow x y).1) := by
  have hhead : x ≤ (if lt x b.nextRxSeq then b.nextRxSeq else x) ∧
      b.nextRxSeq ≤ (if lt x b.nextRxSeq then b.nextRxSeq else x) := by
    simp only [lt_int, decide_eq_true_eq]
    split_ifs <;> omega
  unfold trimToWindow
  generalize (if lt x b.nextRxSeq then b.nextRxSeq else x) = x' at hhead ⊢
  cases b.data with
  | nil => exact ⟨le_rfl, fun _ => hhead⟩
  | cons i rest =>
    simp only [lt_int, decide_eq_true_eq]
    split_ifs <;> omega

/-- What is left of a segment ends at the edge of the window at the latest. -/
theorem trimToWindow_edge (b : TcpRxBuffer ℤ) (x y : ℤ) :
    ∀ i ∈ b.data.head?, (b.trimToWindow x y).2 ≤ i.1 + b.maxBuffer := by
  intro i hi
  unfold trimToWindow
  cases hdata : b.data with
  | nil => simp [hdata] at hi
  | cons j rest =>
    obtain rfl : j = i := by simpa [hdata] using hi
    simp only [lt_int, decide_eq_true_eq, add_int]
    split_ifs <;> omega

/-- A segment leaves the buffer as it is, or one part of it is new. -/
theorem add_cases (hb : Valid u d front back b) (seq : ℤ) (payload : List UInt8)
    (hlength : payload.length < 2 ^ 32)
    (htrim : b.trimToWindow seq (seq + payload.length) = (h, t)) :
    (b.add seq payload = some (false, b) ∧ ∀ z, h ≤ z → z < t → Covers b.data z) ∨
    ∃ A E B x y p, Cut b.data h t A E B x y ∧ b.nextRxSeq ≤ x ∧ x + p.length = y ∧
      (∀ stream, payload = piece stream seq payload.length → p = piece stream x p.length) ∧
      b.add seq payload = (account { b with data := A ++ (x, p) :: B, size := b.size - total E }
        x y p.length).map (true, ·) := by
  have hspec := trimToWindow_spec b seq (seq + payload.length)
  rw [htrim] at hspec
  obtain ⟨htail, hhead⟩ := hspec
  unfold add
  rw [add_int, htrim]
  rcases removeOverlap_cases hb.ordered_data hb.size.ge h t with
      ⟨x, y, hyx, heq, hall⟩ | ⟨A, E, B, x, y, hcut, heq⟩
  · refine .inl ⟨?_, hall⟩
    simp only [heq, ge_int, decide_eq_true_eq, if_pos hyx]
  · obtain ⟨hseq, hnext⟩ := hhead (by have := hcut.head; have := hcut.new; have := hcut.tail; omega)
    have hxh := hcut.head
    have hxy := hcut.new
    have hyt := hcut.tail
    have hskip : (distance x seq : ℤ) = x - seq := distance_int (by omega) (by omega)
    have htake : (distance y x : ℤ) = y - x := distance_int (by omega) (by omega)
    have hp : ((payload.drop (distance x seq)).take (distance y x)).length = distance y x := by
      rw [List.length_take, List.length_drop]
      omega
    have hstore : store x ((payload.drop (distance x seq)).take (distance y x)) (A ++ B) =
        A ++ (x, (payload.drop (distance x seq)).take (distance y x)) :: B := by
      refine store_append (fun i hi => ?_) fun i hi => by have := hcut.after i hi; omega
      have hlt := hb.ordered_data.lt (i := i) (by simp [hcut.data, hi])
      have := hcut.before i hi
      omega
    have hfound : isStored x (A ++ B) = false := by
      refine isStored_eq_false fun i hi => ?_
      rcases List.mem_append.1 hi with hi | hi
      · have hlt := hb.ordered_data.lt (i := i) (by simp [hcut.data, hi])
        have := hcut.before i hi
        omega
      · have := hcut.after i hi
        omega
    refine .inr ⟨A, E, B, x, y, _, hcut, by omega, by rw [hp, htake]; omega, fun stream hpay => ?_,
      ?_⟩
    · rw [hp, hpay, drop_piece (by omega), take_piece (by omega), hskip]
      congr 1
      omega
    · simp only [heq, ge_int, decide_eq_true_eq, if_neg (not_le.2 hxy), hp, if_true, insert, hfound,
        Bool.false_eq_true, if_false, hstore]

/-- The new part covers what it has erased. -/
theorem Cut.covers {data : List (RxBlock ℤ)} (hcut : Cut data h t A E B x y)
    (hp : x + p.length = y) {z : ℤ} (hz : Covers data z) : Covers (A ++ (x, p) :: B) z := by
  rw [hcut.data, covers_append, covers_append] at hz
  rw [covers_append, covers_cons]
  rcases hz with (hz | ⟨i, hi, hz⟩) | hz
  · exact .inl hz
  · have := hcut.erased i hi
    refine .inr (.inl ?_)
    simp only [stop]
    omega
  · exact .inr (.inr hz)

theorem Cut.forall_stop {data : List (RxBlock ℤ)} (hcut : Cut data h t A E B x y)
    (hp : x + p.length = y) {c : ℤ} (hy : y ≤ c) (hdata : ∀ i ∈ data, stop i ≤ c) :
    ∀ i ∈ A ++ (x, p) :: B, stop i ≤ c := by
  intro i hi
  rw [hcut.data] at hdata
  rcases List.mem_append.1 hi with hi | hi
  · exact hdata i (by simp [hi])
  · rcases List.mem_cons.1 hi with rfl | hi
    · simp only [stop]
      omega
    · exact hdata i (by simp [hi])

/-- The blocks in order lie in front of a new part that does not begin below them. -/
theorem Cut.exists_front (hb : Valid u d front back b) (hcut : Cut b.data h t A E B x y)
    (hx : d ≤ x) : ∃ A', A = front ++ A' ∧ back = A' ++ (E ++ B) := by
  have hdata := hcut.data
  rw [hb.data, List.append_assoc] at hdata
  rcases List.append_eq_append_iff.1 hdata with ⟨A', hA, hback⟩ | ⟨C, hfront, hback⟩
  · exact ⟨A', hA, hback⟩
  · cases C with
    | nil => exact ⟨[], by simpa using hfront.symm, by simpa using hback.symm⟩
    | cons i rest =>
      have hi := hb.chain.bounds i (by simp [hfront])
      have hmem : i ∈ E ++ B := by simp [hback]
      have hxy := hcut.new
      rcases List.mem_append.1 hmem with hmem | hmem
      · have := hcut.erased i hmem
        omega
      · have := hcut.after i hmem
        omega

/-- The list of SACK blocks after a new block above the next number. -/
theorem updateSackList_spec {P : ℤ → Prop} (hsack : ∀ s ∈ b.sackList, SackOf P s)
    (hnew : SackOf P (x, y)) (hx : b.nextRxSeq < x) :
    ∃ first rest, mergeLoop b.sackList.length (x, y) b.sackList = some (first :: rest) ∧
      (∀ s ∈ first :: rest, SackOf P s) ∧
      b.updateSackList x y = some { b with
        sackList := if 4 < (first :: rest).length then (first :: rest).dropLast
          else first :: rest } := by
  obtain ⟨first, rest, hloop, ⟨hfirst, hrest⟩, -⟩ := mergeLoop_invariant
    (J := fun first rest => SackOf P first ∧ ∀ s ∈ rest, SackOf P s)
    (fun hJ => ⟨hJ.1.1, fun s hs => (hJ.2 s hs).1⟩)
    (fun {first pre current post} hJ htouch =>
      ⟨hJ.1.join (hJ.2 current (by simp)) htouch, fun s hs => hJ.2 s (by
        rw [List.mem_append, List.mem_cons]
        exact (List.mem_append.1 hs).imp_right .inr)⟩)
    le_rfl ⟨hnew, hsack⟩
  refine ⟨first, rest, hloop, List.forall_mem_cons.2 ⟨hfirst, hrest⟩, ?_⟩
  simp [updateSackList, hx, hloop]

theorem accountFin_eq (b : TcpRxBuffer ℤ) : b.accountFin = { b with
    nextRxSeq := if b.gotFin = true ∧ b.finSeq = b.nextRxSeq then b.nextRxSeq + 1
      else b.nextRxSeq } := by
  unfold accountFin
  have hiff : (b.gotFin && b.nextRxSeq == b.finSeq) = true ↔
      b.gotFin = true ∧ b.finSeq = b.nextRxSeq := by
    rw [Bool.and_eq_true, beq_iff_eq]
    exact and_congr_right fun _ => eq_comm
  by_cases h : b.gotFin = true ∧ b.finSeq = b.nextRxSeq
  · rw [if_pos h, if_pos (hiff.2 h)]
    rfl
  · rw [if_neg h, if_neg (mt hiff.1 h)]

theorem account_eq (b : TcpRxBuffer ℤ) (x y : ℤ) (n : ℕ) : b.account x y n =
    (if b.nextRxSeq < x then b.updateSackList x y else some b).bind fun b =>
      (advance b.data { b with size := b.size + n }).bind fun c => some c.accountFin := by
  unfold account
  simp only [gt_int, decide_eq_true_eq]
  rfl

/-- The next number moves to the first gap. -/
theorem advance_valid {M : List (RxBlock ℤ)} {d' : ℤ} (hdata : b.data = front ++ (M ++ back))
    (hfront : Chain u front d) (hmid : Chain d M d') (hback : Ordered back)
    (hgap : ∀ i ∈ back, d' < i.1) (hsize : b.size = total b.data) (havail : u + b.availBytes = d)
    (hnext : b.nextRxSeq = d)
    (hsack : ∀ s ∈ b.sackList, SackOf (fun z => d < z ∧ Covers b.data z) s) :
    ∃ b', (advance b.data b).bind (fun c => some c.accountFin) = some b' ∧
      Valid u d' (front ++ M) back b' ∧ b'.data = b.data ∧ b'.gotFin = b.gotFin ∧
      b'.finSeq = b.finSeq ∧ b'.maxBuffer = b.maxBuffer ∧
      b'.sackList = b.sackList.filter fun s => decide (d' < s.2) := by
  have hbelow : ∀ i ∈ front, i.1 < b.nextRxSeq := by
    intro i hi
    have := hfront.bounds i hi
    omega
  have habove : ∀ s ∈ b.sackList, s.1 < s.2 ∧ b.nextRxSeq < s.2 := by
    intro s hs
    have hlt := (hsack s hs).1
    have hd := ((hsack s hs).2 s.1 le_rfl hlt).1
    omega
  have hadvance := (advance_append hbelow).trans (advance_chain (hnext ▸ hmid) hgap habove)
  rw [← hdata] at hadvance
  have htotal := hmid.hi_eq
  refine ⟨_, by rw [hadvance]; rfl, ?_⟩
  rw [accountFin_eq]
  refine ⟨⟨by rw [hdata, List.append_assoc], hfront.append hmid, hback, hgap, hsize, ?_, rfl,
    fun s hs => ?_⟩, rfl, rfl, rfl, rfl, rfl⟩
  · push_cast
    omega
  · -- a block that reaches behind the first gap begins behind it
    obtain ⟨hs, hs'⟩ := List.mem_filter.1 hs
    obtain ⟨hlt, hcover⟩ := hsack s hs
    rw [decide_eq_true_eq] at hs'
    have hfirst : d' < s.1 := by
      by_contra hle
      obtain ⟨i, hi, hil, hir⟩ := (hcover d' (by omega) hs').2
      rw [hdata, ← List.append_assoc] at hi
      rcases List.mem_append.1 hi with hi | hi
      · have := (hfront.append hmid).bounds i hi
        omega
      · have := hgap i hi
        omega
    exact ⟨hlt, fun z hz hz' => ⟨by omega, (hcover z hz hz').2⟩⟩

theorem account_spec (hb : Valid u d front back b) (hnext : b.nextRxSeq = d)
    (hcut : Cut b.data h t A E B x y) (hx : d ≤ x) (hp : x + p.length = y) :
    ∃ b' d' front' back',
      account { b with data := A ++ (x, p) :: B, size := b.size - total E } x y p.length = some b' ∧
      Valid u d' front' back' b' ∧ d ≤ d' ∧ b'.data = A ++ (x, p) :: B ∧
      b'.gotFin = b.gotFin ∧ b'.finSeq = b.finSeq ∧ b'.maxBuffer = b.maxBuffer ∧
      ((x = d ∧ b'.sackList = b.sackList.filter fun s => decide (d' < s.2)) ∨
        (d < x ∧ d' = d ∧ ∃ sackList,
          mergeLoop b.sackList.length (x, y) b.sackList = some sackList ∧
          b'.sackList = if 4 < sackList.length then sackList.dropLast else sackList)) := by
  obtain ⟨A', rfl, hback⟩ := hcut.exists_front hb hx
  have hord := hb.ordered_data
  rw [hcut.data, ordered_append, ordered_append] at hord
  obtain ⟨⟨hA, -, -⟩, hB, hAB⟩ := hord
  have hxy := hcut.new
  have hnew : Ordered ((x, p) :: B) := by
    refine ordered_cons.2 ⟨?_, fun j hj => ?_, hB⟩
    · simp only [stop]
      omega
    · have := hcut.after j hj
      simp only [stop]
      omega
  have hafter : Ordered (A' ++ (x, p) :: B) := by
    refine ordered_append.2 ⟨(ordered_append.1 hA).2.1, hnew, fun i hi j hj => ?_⟩
    have hi' := hcut.before i (List.mem_append_right front hi)
    rcases List.mem_cons.1 hj with rfl | hj
    · exact hi'
    · have := hcut.after j hj
      omega
  have hd : ∀ i ∈ A' ++ (x, p) :: B, d ≤ i.1 := by
    intro i hi
    rcases List.mem_append.1 hi with hi | hi
    · exact (hb.above i (by simp [hback, hi])).le
    · rcases List.mem_cons.1 hi with rfl | hi
      · exact hx
      · have := hcut.after i hi
        omega
  have hd' : d < x → ∀ i ∈ A' ++ (x, p) :: B, d < i.1 := by
    intro hlt i hi
    rcases List.mem_append.1 hi with hi | hi
    · exact hb.above i (by simp [hback, hi])
    · rcases List.mem_cons.1 hi with rfl | hi
      · exact hlt
      · have := hcut.after i hi
        omega
  have hsize : b.size - total E + p.length = total (front ++ A' ++ (x, p) :: B) := by
    have htotal := hb.size
    rw [hcut.data] at htotal
    simp only [total_append, total_cons] at htotal ⊢
    omega
  have hsack : ∀ s ∈ b.sackList,
      SackOf (fun z => d < z ∧ Covers (front ++ A' ++ (x, p) :: B) z) s :=
    fun s hs => ⟨(hb.sack s hs).1, fun z hz hz' =>
      ((hb.sack s hs).2 z hz hz').imp_right (hcut.covers hp)⟩
  by_cases hlt : d < x
  · have hnewSack : SackOf (fun z => d < z ∧ Covers (front ++ A' ++ (x, p) :: B) z) (x, y) := by
      refine ⟨hxy, fun z hz hz' => ⟨by dsimp only at hz; omega, ?_⟩⟩
      exact covers_append.2 (.inr (covers_cons.2 (.inl ⟨hz, by simp only [stop]; omega⟩)))
    obtain ⟨first, rest, hloop, hall, hupdate⟩ := updateSackList_spec
      (b := { b with data := front ++ A' ++ (x, p) :: B, size := b.size - total E })
      hsack hnewSack (by rw [hnext]; exact hlt)
    have hkept : ∀ s ∈ (if 4 < (first :: rest).length then (first :: rest).dropLast
        else first :: rest), s ∈ first :: rest := by
      intro s hs
      split_ifs at hs
      · exact List.mem_of_mem_dropLast hs
      · exact hs
    obtain ⟨b', heq, hvalid, hdata, hgot, hfin, hmax, hsack'⟩ := advance_valid (M := [])
      (b := { b with
        data := front ++ A' ++ (x, p) :: B, size := b.size - total E + p.length,
        sackList := if 4 < (first :: rest).length then (first :: rest).dropLast
          else first :: rest })
      (by simp) hb.chain rfl hafter (hd' hlt) hsize hb.avail hnext fun s hs => hall s (hkept s hs)
    refine ⟨b', d, front ++ [], A' ++ (x, p) :: B, ?_, hvalid, le_rfl, hdata, hgot, hfin, hmax,
      .inr ⟨hlt, rfl, _, hloop, ?_⟩⟩
    · rw [account_eq, if_pos (by rw [hnext]; exact hlt), hupdate]
      exact heq
    · rw [hsack', List.filter_eq_self]
      intro s hs
      obtain ⟨hnonempty, hall'⟩ := hall s (hkept s hs)
      rw [decide_eq_true_eq]
      exact (hall' s.1 le_rfl hnonempty).1.trans hnonempty
  · obtain rfl : x = d := by omega
    obtain ⟨mid, back', d', hsplit, hmid, hgap⟩ := exists_chain hafter hd
    rw [hsplit] at hafter
    obtain ⟨b', heq, hvalid, hdata, hgot, hfin, hmax, hsack'⟩ := advance_valid
      (b := { b with
        data := front ++ A' ++ (x, p) :: B, size := b.size - total E + p.length })
      (by rw [← hsplit, List.append_assoc]) hb.chain hmid (ordered_append.1 hafter).2.1 hgap hsize
      hb.avail hnext hsack
    refine ⟨b', d', front ++ mid, back', ?_, hvalid, hmid.le, hdata, hgot, hfin, hmax,
      .inl ⟨rfl, hsack'⟩⟩
    rw [account_eq, if_neg (by rw [hnext]; exact hlt)]
    exact heq

theorem Cut.holds {stream : ℤ → UInt8} {data : List (RxBlock ℤ)} (hcut : Cut data h t A E B x y)
    (hdata : Holds stream data) (hp : p = piece stream x p.length) :
    Holds stream (A ++ (x, p) :: B) := by
  rw [hcut.data, holds_append, holds_append] at hdata
  exact holds_append.2 ⟨hdata.1.1, holds_cons.2 ⟨hp, hdata.2⟩⟩

/-- `Add` before the FIN. -/
theorem add_valid (hb : Valid u d front back b) (hfin : b.gotFin = false) (seq : ℤ)
    (payload : List UInt8) (hlength : payload.length < 2 ^ 32) :
    ∃ r b' d' front' back', b.add seq payload = some (r, b') ∧ Valid u d' front' back' b' ∧
      b'.gotFin = false ∧ ∀ stream, Holds stream b.data →
        payload = piece stream seq payload.length → Holds stream b'.data := by
  rcases add_cases hb seq payload hlength Prod.mk.eta.symm with
      ⟨heq, -⟩ | ⟨A, E, B, x, y, p, hcut, hx, hp, hpiece, heq⟩
  · exact ⟨false, b, d, front, back, heq, hb, hfin, fun stream h _ => h⟩
  · have hnext := hb.next_eq hfin
    obtain ⟨b', d', front', back', haccount, hvalid, -, hdata, hgot, -⟩ :=
      account_spec hb hnext hcut (hnext ▸ hx) hp
    refine ⟨true, b', d', front', back', by rw [heq, haccount]; rfl, hvalid, hgot.trans hfin,
      fun stream h hpayload => ?_⟩
    rw [hdata]
    exact hcut.holds h (hpiece stream hpayload)

/-! ### Extract -/

theorem extract_valid (hb : Valid u d front back b) (maxSize : ℕ) :
    ∃ out b' front', b.extract maxSize = some (out, b') ∧ out.length = min maxSize b.availBytes ∧
      Valid (u + out.length) d front' back b' ∧ b'.gotFin = b.gotFin ∧ b'.finSeq = b.finSeq ∧
      b'.maxBuffer = b.maxBuffer ∧ b'.sackList = b.sackList ∧ b'.nextRxSeq = b.nextRxSeq ∧
      ∀ stream, Holds stream b.data → out = piece stream u out.length ∧ Holds stream b'.data := by
  have htotal := hb.chain.hi_eq
  have havail := hb.avail
  obtain ⟨out, front', hloop, hchain, hout, hholds⟩ := extractLoop_chain
    (n := min maxSize b.availBytes) hb.chain hb.next_ge hb.above (by omega)
  rw [← hb.data] at hloop
  have htotal' := hchain.hi_eq
  refine ⟨out, { b with
      size := b.size - out.length, availBytes := b.availBytes - out.length
      data := front' ++ back },
    front', by rw [extract, hloop]; rfl, hout, ?_, rfl, rfl, rfl, rfl, rfl, fun stream h => ?_⟩
  · rw [hout]
    refine ⟨rfl, hchain, hb.ordered, hb.above, ?_, ?_, hb.next, fun s hs => ?_⟩
    · have hsize := hb.size
      rw [hb.data, total_append] at hsize
      rw [total_append]
      dsimp only
      omega
    · dsimp only
      omega
    · obtain ⟨hlt, hall⟩ := hb.sack s hs
      refine ⟨hlt, fun z hz hz' => ?_⟩
      obtain ⟨hdz, hcover⟩ := hall z hz hz'
      refine ⟨hdz, covers_append.2 (.inr ?_)⟩
      rw [hb.data] at hcover
      rcases covers_append.1 hcover with ⟨i, hi, hi'⟩ | hcover
      · have := hb.chain.bounds i hi
        omega
      · exact hcover
  · rw [hb.data, holds_append] at h
    obtain ⟨hpiece, hfront'⟩ := hholds stream h.1
    exact ⟨hout ▸ hpiece, holds_append.2 ⟨hfront', h.2⟩⟩

end Steps

end TcpRxBuffer

end SeanetSim
