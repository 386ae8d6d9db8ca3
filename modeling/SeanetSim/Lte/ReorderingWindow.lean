import Mathlib.Algebra.Order.Ring.Int
import SeanetSim.Lte.LteRlcUm

/-!
# The reordering window in terms of positions

Where the PDUs in the reception buffer are less than 1024 positions apart, their sequence numbers
stand for their positions, and each part of `DoReceivePdu` and `ExpireReorderingTimer` is described
by what it does to positions.  Two loops follow the order of the plain integers instead: the one
that counts VR(UR) stops after 1023, and the walk over the map stops at the first PDU inside the
window, even if others outside come after it.
-/

namespace SeanetSim

open SequenceNumber10

variable {α : Type*}

/-! ### Buffers of positions -/

/-- A reception buffer whose PDUs are positions less than 1024 below a bound. -/
structure BufferedBelow (bound : ℤ) (buffer : List (ℕ × ℤ)) : Prop where
  key : ∀ e ∈ buffer, e.1 = valueAt e.2
  gt : ∀ e ∈ buffer, bound - 1024 < e.2
  lt : ∀ e ∈ buffer, e.2 < bound
  sorted : buffer.Pairwise fun e e' => e.1 < e'.1

/-- The buffer holds the PDU of a position. -/
def HasPdu (buffer : List (ℕ × ℤ)) (p : ℤ) : Prop := p ∈ buffer.map Prod.snd

instance (buffer : List (ℕ × ℤ)) (p : ℤ) : Decidable (HasPdu buffer p) :=
  inferInstanceAs (Decidable (p ∈ _))

namespace BufferedBelow

variable {bound p : ℤ} {buffer : List (ℕ × ℤ)} {e : ℕ × ℤ}

theorem sublist {buffer' : List (ℕ × ℤ)} (h : BufferedBelow bound buffer)
    (hsub : buffer'.Sublist buffer) : BufferedBelow bound buffer' where
  key e he := h.key e (hsub.subset he)
  gt e he := h.gt e (hsub.subset he)
  lt e he := h.lt e (hsub.subset he)
  sorted := h.sorted.sublist hsub

theorem mem_iff (h : BufferedBelow bound buffer) :
    e ∈ buffer ↔ e.1 = valueAt e.2 ∧ HasPdu buffer e.2 := by
  constructor
  · exact fun he => ⟨h.key e he, List.mem_map_of_mem he⟩
  · rintro ⟨hkey, hholds⟩
    obtain ⟨e', he', heq⟩ := List.mem_map.1 hholds
    have hkey' := h.key e' he'
    rw [heq, ← hkey] at hkey'
    rwa [← Prod.ext hkey' heq]

theorem key_eq_iff (h : BufferedBelow bound buffer) (he : e ∈ buffer) (hgt : bound - 1024 < p)
    (hle : p ≤ bound) : e.1 = valueAt p ↔ e.2 = p := by
  have hgt' := h.gt e he
  have hlt' := h.lt e he
  rw [h.key e he]
  exact valueAt_inj (bound - 1023) (by omega) (by omega) (by omega) (by omega)

theorem count_valueAt (h : BufferedBelow bound buffer) (hgt : bound - 1024 < p) (hle : p ≤ bound) :
    RxBuffer.count (valueAt p) buffer = true ↔ HasPdu buffer p := by
  rw [RxBuffer.count, List.any_eq_true, HasPdu, List.mem_map]
  refine exists_congr fun e => and_congr_right fun he => ?_
  rw [beq_iff_eq]
  exact h.key_eq_iff he hgt hle

theorem erase_valueAt (h : BufferedBelow bound buffer) (hgt : bound - 1024 < p) (hle : p ≤ bound) :
    RxBuffer.erase (valueAt p) buffer = buffer.filter fun e => e.2 != p := by
  refine List.filter_congr fun e he => ?_
  rw [Bool.eq_iff_iff, bne_iff_ne, bne_iff_ne]
  exact (h.key_eq_iff he hgt hle).not

theorem find_valueAt (h : BufferedBelow bound buffer) (hgt : bound - 1024 < p) (hle : p ≤ bound)
    (he : RxBuffer.find (valueAt p) buffer = some e) : e.2 = p := by
  have hkey := List.find?_some he
  rw [beq_iff_eq] at hkey
  exact (h.key_eq_iff (List.mem_of_find?_eq_some he) hgt hle).1 hkey

theorem of_find_eq_none (h : BufferedBelow bound buffer)
    (he : RxBuffer.find (valueAt p) buffer = none) : ∀ e ∈ buffer, e.2 ≠ p := by
  rintro e hmem rfl
  have hne := List.find?_eq_none.1 he e hmem
  rw [beq_iff_eq, h.key e hmem] at hne
  exact hne rfl

end BufferedBelow

namespace RxBuffer

variable {sn : ℕ} {packet : α} {buffer : List (ℕ × α)} {e : ℕ × α}

theorem mem_insert (hne : ∀ e ∈ buffer, e.1 ≠ sn) :
    e ∈ insert sn packet buffer ↔ e = (sn, packet) ∨ e ∈ buffer := by
  induction buffer with
  | nil => exact List.mem_cons
  | cons e' rest ih =>
    have hne' : sn ≠ e'.1 := (hne e' List.mem_cons_self).symm
    have ih := ih fun e he => hne e (List.mem_cons_of_mem _ he)
    rw [insert, if_neg hne']
    split_ifs with hlt
    · exact List.mem_cons
    · rw [List.mem_cons, ih, List.mem_cons, or_left_comm]

theorem sorted_insert (hne : ∀ e ∈ buffer, e.1 ≠ sn)
    (h : buffer.Pairwise fun e e' => e.1 < e'.1) :
    (insert sn packet buffer).Pairwise fun e e' => e.1 < e'.1 := by
  induction buffer with
  | nil => exact List.pairwise_singleton _ _
  | cons e' rest ih =>
    have hne' : sn ≠ e'.1 := (hne e' List.mem_cons_self).symm
    have hrest : ∀ e ∈ rest, e.1 ≠ sn := fun e he => hne e (List.mem_cons_of_mem _ he)
    obtain ⟨hhead, htail⟩ := List.pairwise_cons.1 h
    rw [insert, if_neg hne']
    split_ifs with hlt
    · refine List.pairwise_cons.2 ⟨fun e he => ?_, h⟩
      rcases List.mem_cons.1 he with rfl | he
      · exact hlt
      · exact hlt.trans (hhead e he)
    · refine List.pairwise_cons.2 ⟨fun e he => ?_, ih hrest htail⟩
      rcases (mem_insert hrest).1 he with rfl | he
      · exact lt_of_le_of_ne (Nat.le_of_not_lt hlt) hne'.symm
      · exact hhead e he

theorem erase_head {rest : List (ℕ × α)} (h : (e :: rest).Pairwise fun e e' => e.1 < e'.1) :
    erase e.1 (e :: rest) = rest := by
  have hhead := (List.pairwise_cons.1 h).1
  rw [erase, List.filter_cons_of_neg (by simp), List.filter_eq_self]
  exact fun e' he' => bne_iff_ne.2 (hhead e' he').ne'

/-- The loop stops at a number that is missing, unless it runs out of steps. -/
theorem firstMissing_spec (buffer : List (ℕ × α)) (fuel sn : ℕ) :
    ∃ m, firstMissing buffer fuel sn = m ∧ sn ≤ m ∧ (∀ i, sn ≤ i → i < m → count i buffer = true) ∧
      (count m buffer = false ∨ m = sn + fuel) := by
  induction fuel generalizing sn with
  | zero => exact ⟨sn, rfl, le_rfl, fun i hi hlt => absurd hlt (Nat.not_lt_of_le hi), .inr rfl⟩
  | succ fuel ih =>
    by_cases hcount : count sn buffer = true
    · obtain ⟨m, heq, hle, hall, hstop⟩ := ih (sn + 1)
      refine ⟨m, by rw [firstMissing, if_pos hcount, heq], by omega, fun i hi hlt => ?_, ?_⟩
      · rcases Nat.eq_or_lt_of_le hi with rfl | hi
        · exact hcount
        · exact hall i hi hlt
      · exact hstop.imp_right fun h => by omega
    · refine ⟨sn, by rw [firstMissing, if_neg hcount], le_rfl, fun i hi hlt => ?_, ?_⟩
      · exact absurd hlt (Nat.not_lt_of_le hi)
      · exact .inl (Bool.eq_false_iff.2 hcount)

end RxBuffer

namespace BufferedBelow

variable {bound p : ℤ} {buffer : List (ℕ × ℤ)}

theorem ne_valueAt (h : BufferedBelow bound buffer) (hgt : bound - 1024 < p) (hle : p ≤ bound)
    (hnot : ¬ HasPdu buffer p) : ∀ e ∈ buffer, e.1 ≠ valueAt p := by
  intro e he hkey
  rw [h.key_eq_iff he hgt hle] at hkey
  exact hnot (List.mem_map.2 ⟨e, he, hkey⟩)

theorem insert_valueAt (h : BufferedBelow bound buffer) (hgt : bound - 1024 < p) (hlt : p < bound)
    (hnot : ¬ HasPdu buffer p) : BufferedBelow bound (RxBuffer.insert (valueAt p) p buffer) := by
  have hne := h.ne_valueAt hgt hlt.le hnot
  refine ⟨fun e he => ?_, fun e he => ?_, fun e he => ?_, RxBuffer.sorted_insert hne h.sorted⟩ <;>
    rcases (RxBuffer.mem_insert hne).1 he with rfl | he
  · rfl
  · exact h.key e he
  · exact hgt
  · exact h.gt e he
  · exact hlt
  · exact h.lt e he

end BufferedBelow

/-! ### What the operations do to positions -/

namespace LteRlcUm

variable {s : LteRlcUm ℤ} {high low mark bound base p q : ℤ}

theorem sub_windowSize {sn : SequenceNumber10} (h : sn.value = valueAt high) :
    sn.sub windowSize = ⟨valueAt (high - 512), sn.modulusBase⟩ :=
  sub_eq h (by decide)

/-- A position is inside the window from 512 below VR(UH) on, if it is not so far away that its
sequence number is that of another one. -/
theorem isInside_eq {s : LteRlcUm α} (hvrUh : s.vrUh.value = valueAt high) {sn : SequenceNumber10}
    (hsn : sn.value = valueAt p) (hgt : high - 1024 ≤ p) (hlt : p < high + 512) :
    s.isInsideReorderingWindow sn =
      (decide (high - 512 ≤ p ∧ p < high), { s with vrUh := atPosition high (high - 512) }) := by
  obtain ⟨p', hvalue, hlow, hhigh, hiff⟩ : ∃ p', valueAt p = valueAt p' ∧ high - 512 ≤ p' ∧
      p' < high + 512 ∧ (p' < high ↔ high - 512 ≤ p ∧ p < high) := by
    rcases Int.lt_or_le p (high - 512) with hout | hin
    · exact ⟨p + 1024, by rw [valueAt, valueAt, Int.add_emod_right], by omega, by omega, by omega⟩
    · exact ⟨p, rfl, hin, hlt, by omega⟩
  have hvrUh' : s.vrUh.setModulusBase (valueAt (high - 512)) = atPosition high (high - 512) := by
    rw [setModulusBase, hvrUh, atPosition]
  have hsn' : sn.setModulusBase (valueAt (high - 512)) = atPosition p' (high - 512) := by
    rw [setModulusBase, hsn, hvalue, atPosition]
  have hedge : (atPosition high (high - 512)).sub windowSize =
      atPosition (high - 512) (high - 512) := sub_windowSize rfl
  have hinside : ((atPosition (high - 512) (high - 512)).le (atPosition p' (high - 512)) &&
      (atPosition p' (high - 512)).lt (atPosition high (high - 512))) =
        decide (high - 512 ≤ p ∧ p < high) := by
    rw [le_atPosition (by omega) (by omega) hlow (by omega),
      lt_atPosition hlow (by omega) (by omega) (by omega), ← Bool.decide_and]
    exact decide_eq_decide.2 (by omega)
  rw [isInsideReorderingWindow, sub_windowSize hvrUh, hvrUh', hedge, ← hinside, ← hsn']
  rfl

/-- What is handed over from positions p to q, in ascending order. -/
structure Between (p q : ℤ) (l : List ℤ) : Prop where
  ascending : l.Pairwise (· < ·)
  ge : ∀ r ∈ l, p ≤ r
  lt : ∀ r ∈ l, r < q

theorem Between.nil : Between p q [] :=
  ⟨List.Pairwise.nil, fun _ h => absurd h List.not_mem_nil, fun _ h => absurd h List.not_mem_nil⟩

theorem Between.cons {l : List ℤ} (h : Between (p + 1) q l) (hpq : p < q) :
    Between p q (p :: l) where
  ascending := List.pairwise_cons.2 ⟨fun r hr => Int.lt_of_add_one_le (h.ge r hr), h.ascending⟩
  ge r hr := by
    rcases List.mem_cons.1 hr with rfl | hr
    · exact le_rfl
    · have := h.ge r hr
      omega
  lt r hr := by
    rcases List.mem_cons.1 hr with rfl | hr
    · exact hpq
    · exact h.lt r hr

theorem Between.mono {l : List ℤ} {p' : ℤ} (h : Between p q l) (hp : p' ≤ p) : Between p' q l :=
  ⟨h.ascending, fun r hr => hp.trans (h.ge r hr), h.lt⟩

theorem filter_empty (buffer : List (ℕ × ℤ)) (hpq : q ≤ p) :
    (buffer.filter fun e => !decide (p ≤ e.2 ∧ e.2 < q)) = buffer := by
  rw [List.filter_eq_self]
  intro e _
  rw [Bool.not_eq_true', decide_eq_false_iff_not]
  omega

theorem filter_succ (buffer : List (ℕ × ℤ)) (hpq : p < q) :
    ((buffer.filter fun e => e.2 != p).filter fun e => !decide (p + 1 ≤ e.2 ∧ e.2 < q)) =
      buffer.filter fun e => !decide (p ≤ e.2 ∧ e.2 < q) := by
  rw [List.filter_filter]
  refine List.filter_congr fun e _ => ?_
  rw [Bool.eq_iff_iff]
  simp only [Bool.and_eq_true, Bool.not_eq_true', decide_eq_false_iff_not, bne_iff_ne]
  omega

/-- `ReassembleSnInterval` takes the positions of the interval out of the buffer. -/
theorem reassembleSnInterval_spec (fuel : ℕ) (base : ℤ) (s : LteRlcUm ℤ) (h : BufferedBelow bound s.rxBuffer)
    (hfuel : q ≤ p + fuel) (hgt : bound - 1024 < p) (hpq : p ≤ q) (hq : q ≤ bound)
    (hbase : base ≤ p) (hbase' : q < base + 1024) :
    ∃ l, Between p q l ∧ s.reassembleSnInterval fuel (atPosition p base) (atPosition q base) =
      { s with
        rxBuffer := s.rxBuffer.filter fun e => !decide (p ≤ e.2 ∧ e.2 < q)
        reassembled := s.reassembled ++ l } := by
  induction fuel generalizing s p with
  | zero =>
    refine ⟨[], .nil, ?_⟩
    rw [filter_empty _ (by omega), List.append_nil]
    rfl
  | succ fuel ih =>
    have hlt : (atPosition p base).lt (atPosition q base) = decide (p < q) :=
      lt_atPosition hbase (by omega) (by omega) hbase'
    by_cases hpq' : p < q
    · rw [decide_eq_true hpq'] at hlt
      have hvalue : (atPosition p base).value = valueAt p := rfl
      rw [reassembleSnInterval, if_pos hlt, succ_atPosition, hvalue, ← filter_succ _ hpq']
      cases he : RxBuffer.find (valueAt p) s.rxBuffer with
      | some e =>
        have hpos := h.find_valueAt hgt (by omega) he
        have hkey : e.1 = valueAt p := by
          rw [h.key e (List.mem_of_find?_eq_some he), hpos]
        have herase := h.erase_valueAt hgt (by omega)
        obtain ⟨l, hl, heq⟩ := ih (p := p + 1)
          { s with
            rxBuffer := RxBuffer.erase (valueAt p) s.rxBuffer
            reassembled := s.reassembled ++ [e.2] }
          (h.sublist List.filter_sublist) (by omega) (by omega) (by omega) (by omega)
        refine ⟨p :: l, hl.cons hpq', ?_⟩
        simp only [reassembleAndDeliver, hkey]
        rw [heq, herase, hpos, List.append_assoc, List.singleton_append]
      | none =>
        have hnone := h.of_find_eq_none he
        have hself : s.rxBuffer.filter (fun e => e.2 != p) = s.rxBuffer :=
          List.filter_eq_self.2 fun e hmem => bne_iff_ne.2 (hnone e hmem)
        obtain ⟨l, hl, heq⟩ := ih (p := p + 1) s h (by omega) (by omega) (by omega) (by omega)
        refine ⟨l, hl.mono (by omega), ?_⟩
        rw [heq, hself]
    · rw [decide_eq_false hpq'] at hlt
      refine ⟨[], .nil, ?_⟩
      rw [reassembleSnInterval, hlt, filter_empty _ (by omega), List.append_nil]
      rfl

/-- The walk over the map stops at the first PDU inside the window. -/
theorem reassembleOutsideFrom_spec (entries : List (ℕ × ℤ)) (s : LteRlcUm ℤ)
    (hbuffer : s.rxBuffer = entries) (hvrUh : s.vrUh.value = valueAt high)
    (h : BufferedBelow high entries) :
    ∃ vrUh, vrUh.value = valueAt high ∧ s.reassembleOutsideFrom entries =
      { s with
        vrUh := vrUh
        rxBuffer := entries.dropWhile fun e => e.2 < high - 512
        reassembled :=
          s.reassembled ++ (entries.takeWhile fun e => e.2 < high - 512).map Prod.snd } := by
  induction entries generalizing s with
  | nil =>
    refine ⟨s.vrUh, hvrUh, ?_⟩
    obtain ⟨vrUr, vrUx, vrUh, rxBuffer, reorderingTimer, reassembled⟩ := s
    obtain rfl : rxBuffer = [] := hbuffer
    simp [reassembleOutsideFrom]
  | cons e rest ih =>
    obtain ⟨sn, p⟩ := e
    have hkey : sn = valueAt p := h.key _ List.mem_cons_self
    have hgt := h.gt _ List.mem_cons_self
    have hlt := h.lt _ List.mem_cons_self
    have hsn : (ofValue sn).value = valueAt p := by
      rw [hkey]
      exact Nat.mod_eq_of_lt (valueAt_lt p)
    have hinside := isInside_eq hvrUh hsn (by omega) (by omega)
    by_cases hin : high - 512 ≤ p
    · refine ⟨atPosition high (high - 512), rfl, ?_⟩
      rw [reassembleOutsideFrom, hinside, decide_eq_true ⟨hin, hlt⟩]
      simp [hbuffer, hin]
    · have herase : RxBuffer.erase sn s.rxBuffer = rest := by
        rw [hbuffer]
        exact RxBuffer.erase_head h.sorted
      obtain ⟨vrUh, hvalue, heq⟩ := ih
        { s with
          vrUh := atPosition high (high - 512)
          rxBuffer := rest
          reassembled := s.reassembled ++ [p] }
        rfl rfl (h.sublist (List.sublist_cons_self _ _))
      refine ⟨vrUh, hvalue, ?_⟩
      rw [reassembleOutsideFrom, hinside, decide_eq_false fun h => hin h.1]
      simp only [reassembleAndDeliver, herase]
      rw [heq]
      simp [Int.not_le.1 hin]

theorem updateWindow_inside {sn : SequenceNumber10} (hvrUh : s.vrUh.value = valueAt high)
    (hsn : sn.value = valueAt p) (hlow : high - 512 ≤ p) (hlt : p < high) :
    s.updateWindow sn = { s with vrUh := atPosition high (high - 512) } := by
  rw [updateWindow, isInside_eq hvrUh hsn (by omega) (by omega), decide_eq_true ⟨hlow, hlt⟩]
  rfl

theorem updateWindow_outside (hvrUh : s.vrUh.value = valueAt high)
    (hvrUr : s.vrUr = atPosition low base) (hlow : high - 512 ≤ low) (hle : low ≤ high)
    (hp : high ≤ p) (hlt : p < high + 512) (h : BufferedBelow (p + 1) s.rxBuffer) :
    s.updateWindow (atPosition p base) =
      { s with
        vrUr := if p - 511 ≤ low then atPosition low base else atPosition (p - 511) (p - 511)
        vrUh := atPosition (p + 1) (p - 511)
        rxBuffer := s.rxBuffer.dropWhile fun e => e.2 < p - 511
        reassembled :=
          s.reassembled ++ (s.rxBuffer.takeWhile fun e => e.2 < p - 511).map Prod.snd } := by
  have hinside := isInside_eq hvrUh (show (atPosition p base).value = valueAt p from rfl) (by omega)
    (by omega)
  have hnext : (atPosition p base).add 1 = atPosition (p + 1) base := add_eq rfl 1
  have hedge : p + 1 - 512 = p - 511 := by omega
  have hvrUh' : (atPosition (p + 1) base).value = valueAt (p + 1) := rfl
  obtain ⟨vrUh, hvalue, heq⟩ := reassembleOutsideFrom_spec s.rxBuffer
    { s with vrUh := atPosition (p + 1) base } rfl hvrUh' h
  have hvrUr' := isInside_eq (s := { s with
      vrUh := vrUh
      rxBuffer := s.rxBuffer.dropWhile fun e => e.2 < p + 1 - 512
      reassembled := s.reassembled ++ (s.rxBuffer.takeWhile fun e => e.2 < p + 1 - 512).map Prod.snd })
    hvalue (show s.vrUr.value = valueAt low by rw [hvrUr]; rfl) (by omega) (by omega)
  rw [updateWindow, hinside, decide_eq_false (by omega)]
  simp only [hnext, reassembleOutsideWindow, heq, hvrUr']
  by_cases hin : p - 511 ≤ low
  · rw [decide_eq_true (by omega), if_pos hin, ← hvrUr, hedge]
    rfl
  · rw [decide_eq_false (by omega), if_neg hin, hedge]
    have hsub : (atPosition (p + 1) (p - 511)).sub windowSize = atPosition (p - 511) (p - 511) := by
      rw [sub_windowSize (show (atPosition (p + 1) (p - 511)).value = valueAt (p + 1) from rfl), hedge]
      rfl
    simp only [hsub, Bool.false_eq_true, if_false]

/-- The next position of the sequence number 0. -/
def nextZero (p : ℤ) : ℤ := (p / 1024 + 1) * 1024

/-- The loop from VR(UR) on stops at a position that the buffer does not hold, or after the sequence
number 1023. -/
theorem firstMissing_valueAt {buffer : List (ℕ × ℤ)} (h : BufferedBelow bound buffer)
    (hgt : bound - 1024 < low) (hlow : low < bound) :
    ∃ q, low < q ∧ q ≤ bound ∧ q ≤ nextZero low ∧
      (∀ p, low < p → p < q → HasPdu buffer p) ∧ (¬ HasPdu buffer q ∨ q = nextZero low) ∧
      RxBuffer.firstMissing buffer snCount (valueAt low + 1) % 1024 = valueAt q := by
  obtain ⟨m, heq, hle, hall, hstop⟩ :=
    RxBuffer.firstMissing_spec buffer snCount (valueAt low + 1)
  have hlow' := natCast_valueAt low
  have hkeys : ∀ i, 1024 ≤ i → ¬ RxBuffer.count i buffer = true := by
    intro i hi hcount
    obtain ⟨e, he, hkey⟩ := List.any_eq_true.1 hcount
    rw [beq_iff_eq, h.key e he] at hkey
    have := valueAt_lt e.2
    omega
  have hm : m ≤ 1024 := by
    by_contra hgt
    have := valueAt_lt low
    exact hkeys 1024 le_rfl (hall 1024 (by omega) (by omega))
  have hmissing : ¬ RxBuffer.count m buffer = true := by
    rcases hstop with hmiss | hend
    · rw [hmiss]
      decide
    · exact hkeys m (by rw [hend]; exact Nat.le_add_left ..)
  -- the number `m` is that of the position `q`, 1024 standing for 0
  obtain ⟨q, hq⟩ : ∃ q, q = low + (m - valueAt low) := ⟨_, rfl⟩
  have hq' := natCast_valueAt q
  have hcount : ∀ p, low < p → p < q → RxBuffer.count (valueAt p) buffer = true := by
    intro p hp hpq
    have := natCast_valueAt p
    exact hall _ (by omega) (by omega)
  have hbound : q ≤ bound := by
    by_contra hout
    have hholds := (h.count_valueAt (by omega) le_rfl).1 (hcount bound hlow (by omega))
    obtain ⟨e, he, heq⟩ := List.mem_map.1 hholds
    have := h.lt e he
    omega
  refine ⟨q, by omega, hbound, by unfold nextZero; omega, fun p hp hpq => ?_, ?_, ?_⟩
  · exact (h.count_valueAt (by omega) (by omega)).1 (hcount p hp hpq)
  · rcases Nat.lt_or_eq_of_le hm with hlt | rfl
    · have hvalue : valueAt q = m := by omega
      rw [← h.count_valueAt (by omega) hbound, hvalue]
      exact .inl hmissing
    · right
      unfold nextZero
      omega
  · rw [heq]
    omega

/-- What is in sequence from VR(UR) on is handed over, up to the sequence number 1023. -/
theorem deliverInSequence_spec (h : BufferedBelow bound s.rxBuffer)
    (hvrUr : s.vrUr = atPosition low base) (hgt : bound - 1024 < low) (hlow : low ≤ bound)
    (hbase : base ≤ low)
    (hgap : ∀ q, low < q → q ≤ bound → (∀ p, low ≤ p → p < q → HasPdu s.rxBuffer p) →
      q < base + 1024) :
    ∃ q l, low ≤ q ∧ q ≤ bound ∧ q ≤ nextZero low ∧
      (∀ p, low ≤ p → p < q → HasPdu s.rxBuffer p) ∧
      (¬ HasPdu s.rxBuffer q ∨ low < q ∧ q = nextZero low) ∧ Between low q l ∧
      s.deliverInSequence =
        { s with
          vrUr := atPosition q base
          rxBuffer := s.rxBuffer.filter fun e => !decide (low ≤ e.2 ∧ e.2 < q)
          reassembled := s.reassembled ++ l } := by
  have hcount := h.count_valueAt hgt hlow
  have hvalue : (atPosition low base).value = valueAt low := rfl
  by_cases hholds : HasPdu s.rxBuffer low
  · have hlt : low < bound := by
      obtain ⟨e, he, rfl⟩ := List.mem_map.1 hholds
      exact h.lt e he
    obtain ⟨q, hq, hbound, hzero, hall, hstop, heq⟩ := firstMissing_valueAt h hgt hlt
    have hall' : ∀ p, low ≤ p → p < q → HasPdu s.rxBuffer p := by
      intro p hp hpq
      rcases Int.le_iff_eq_or_lt.1 hp with rfl | hp
      · exact hholds
      · exact hall p hp hpq
    have hassign : (atPosition low base).assign
        (RxBuffer.firstMissing s.rxBuffer snCount (valueAt low + 1)) = atPosition q base := by
      rw [assign, heq]
      rfl
    obtain ⟨l, hl, hinterval⟩ := reassembleSnInterval_spec snCount base
      { s with vrUr := atPosition q base } h (p := low) (q := q)
      (by unfold snCount nextZero at *; omega) hgt hq.le hbound hbase (hgap q hq hbound hall')
    refine ⟨q, l, hq.le, hbound, hzero, hall', hstop.imp_right fun hz => ⟨hq, hz⟩, hl, ?_⟩
    simp only [deliverInSequence, hvrUr, hvalue, hcount.2 hholds, if_true, hassign]
    exact hinterval
  · refine ⟨low, [], le_rfl, hlow, by unfold nextZero; omega, fun p hp hpq => absurd hpq (by omega),
      .inl hholds, .nil, ?_⟩
    rw [deliverInSequence, hvrUr, hvalue, if_neg (hcount.not.2 hholds), filter_empty _ le_rfl,
      List.append_nil, ← hvrUr]

/-- Whether t-Reordering runs, and where VR(UX) is then. -/
structure TimedAt (s : LteRlcUm ℤ) (low high : ℤ) : Prop where
  vrUr_eq : s.vrUr = atPosition low (high - 512)
  vrUh_eq : s.vrUh = atPosition high (high - 512)
  running : s.reorderingTimer = true →
    ∃ mark, s.vrUx = atPosition mark (high - 512) ∧ low < mark ∧ mark ≤ high
  stopped : s.reorderingTimer = false → low = high

theorem startReorderingTimer_spec (hvrUr : s.vrUr = atPosition low (high - 512))
    (hvrUh : s.vrUh = atPosition high (high - 512)) (hlow : high - 512 ≤ low) (hle : low ≤ high)
    (hstopped : s.reorderingTimer = false) :
    TimedAt s.startReorderingTimer low high ∧
      s.startReorderingTimer.rxBuffer = s.rxBuffer ∧
      s.startReorderingTimer.reassembled = s.reassembled := by
  have hgt : s.vrUh.gt s.vrUr = decide (low < high) := by
    rw [hvrUh, hvrUr]
    exact gt_atPosition (by omega) (by omega) hlow (by omega)
  by_cases hlt : low < high
  · rw [decide_eq_true hlt] at hgt
    rw [startReorderingTimer, if_pos hgt]
    exact ⟨⟨hvrUr, hvrUh, fun _ => ⟨high, hvrUh, hlt, le_rfl⟩, fun h => nomatch h⟩, rfl, rfl⟩
  · rw [decide_eq_false hlt] at hgt
    rw [startReorderingTimer, hgt]
    refine ⟨⟨hvrUr, hvrUh, fun h => ?_, fun _ => by omega⟩, rfl, rfl⟩
    exact absurd (h.symm.trans hstopped) (by decide)

/-- VR(UX) has fallen behind VR(UR), or out of the window. -/
theorem stopReorderingTimer_eq (hvrUr : s.vrUr = atPosition low (high - 512))
    (hvrUx : s.vrUx = atPosition mark (high - 512)) (hvrUh : s.vrUh = atPosition high (high - 512))
    (hlow : high - 512 ≤ low) (hle : low ≤ high) (hmark : high - 1024 < mark)
    (hmark' : mark ≤ high) (hrunning : s.reorderingTimer = true) :
    s.stopReorderingTimer = { s with reorderingTimer := decide (low < mark) } := by
  have hinside := isInside_eq (show s.vrUh.value = valueAt high by rw [hvrUh]; rfl)
    (show s.vrUx.value = valueAt mark by rw [hvrUx]; rfl) hmark.le (by omega)
  have hne : (s.vrUx.value != s.vrUh.value) = decide (mark ≠ high) := by
    rw [hvrUx, hvrUh, Bool.eq_iff_iff, bne_iff_ne, decide_eq_true_iff]
    exact (valueAt_inj (high - 1023) (by omega) (by omega) (by omega) (by omega)).not
  have hle : s.vrUx.le s.vrUr = decide (high - 512 ≤ mark ∧ mark ≤ low) := by
    rw [hvrUx, hvrUr]
    rcases Int.lt_or_le mark (high - 512) with hout | hin
    · have hvalue : valueAt mark = valueAt (mark + 1024) := by
        rw [valueAt, valueAt, Int.add_emod_right]
      rw [atPosition, hvalue, ← atPosition, le_atPosition (by omega) (by omega) hlow (by omega)]
      exact decide_eq_decide.2 (by omega)
    · rw [le_atPosition hin (by omega) hlow (by omega)]
      exact decide_eq_decide.2 (by omega)
  have hstop : (s.vrUx.le s.vrUr || (!(s.isInsideReorderingWindow s.vrUx).1 &&
      s.vrUx.value != s.vrUh.value)) = decide (mark ≤ low) := by
    rw [hle, hinside, hne, ← decide_not, ← Bool.decide_and, ← Bool.decide_or]
    exact decide_eq_decide.2 (by omega)
  rw [stopReorderingTimer, hstop, hrunning, Bool.true_and]
  split_ifs with hbehind
  · rw [decide_eq_true_iff] at hbehind
    rw [decide_eq_false (by omega)]
  · rw [decide_eq_true_iff] at hbehind
    rw [decide_eq_true (by omega), ← hrunning]

/-- A mark that has fallen behind VR(UR), or out of the window, stops the timer. -/
theorem updateReorderingTimer_spec (hvrUr : s.vrUr.value = valueAt low)
    (hvrUh : s.vrUh.value = valueAt high) (hlow : high - 512 ≤ low) (hle : low ≤ high)
    (hrunning : s.reorderingTimer = true →
      ∃ mark, s.vrUx.value = valueAt mark ∧ high - 1024 < mark ∧ mark ≤ high) :
    TimedAt s.updateReorderingTimer low high ∧
      s.updateReorderingTimer.rxBuffer = s.rxBuffer ∧
      s.updateReorderingTimer.reassembled = s.reassembled := by
  have hbases : s.setModulusBases =
      { s with
        vrUr := atPosition low (high - 512)
        vrUx := s.vrUx.setModulusBase (valueAt (high - 512))
        vrUh := atPosition high (high - 512) } := by
    simp only [setModulusBases, sub_windowSize hvrUh, setModulusBase, hvrUr, hvrUh, atPosition]
  obtain ⟨vrUx, running, hstop, hmark⟩ : ∃ vrUx running, s.setModulusBases.stopReorderingTimer =
      { s with
        vrUr := atPosition low (high - 512)
        vrUx := vrUx
        vrUh := atPosition high (high - 512)
        reorderingTimer := running } ∧
      (running = true → ∃ mark, vrUx = atPosition mark (high - 512) ∧ low < mark ∧ mark ≤ high) := by
    cases htimer : s.reorderingTimer with
    | false =>
      refine ⟨s.vrUx.setModulusBase (valueAt (high - 512)), false, ?_, fun h => absurd h (by decide)⟩
      rw [stopReorderingTimer, hbases]
      simp only [htimer, Bool.false_and, Bool.false_eq_true, if_false]
    | true =>
      obtain ⟨mark, hvrUx, hgt, hle'⟩ := hrunning htimer
      have hvrUx' : s.setModulusBases.vrUx = atPosition mark (high - 512) := by
        rw [hbases, setModulusBase, hvrUx]
        rfl
      have hstop := stopReorderingTimer_eq (s := s.setModulusBases) (by rw [hbases]) hvrUx'
        (by rw [hbases]) hlow hle hgt hle' (by rw [hbases]; exact htimer)
      refine ⟨s.setModulusBases.vrUx, decide (low < mark), ?_, fun h => ⟨mark, hvrUx', of_decide_eq_true h, hle'⟩⟩
      rw [hstop, hbases]
  have hupdate : s.updateReorderingTimer =
      if running = false then s.setModulusBases.stopReorderingTimer.startReorderingTimer
      else s.setModulusBases.stopReorderingTimer := by
    rw [updateReorderingTimer, hstop]
    cases running <;> rfl
  rw [hupdate, hstop]
  split_ifs with hrun
  · exact startReorderingTimer_spec rfl rfl hlow hle hrun
  · exact ⟨⟨rfl, rfl, hmark, fun h => absurd h hrun⟩, rfl, rfl⟩

/-- The loop from VR(UX) on stops at a position that the buffer does not hold. -/
theorem nextMissing_spec {buffer : List (ℕ × ℤ)} (h : BufferedBelow bound buffer) (fuel : ℕ) (base : ℤ)
    (hfuel : bound ≤ p + fuel) (hgt : bound - 1024 < p) (hle : p ≤ bound) :
    ∃ q, p ≤ q ∧ q ≤ bound ∧ ¬ HasPdu buffer q ∧
      RxBuffer.nextMissing buffer fuel (atPosition p base) = atPosition q base := by
  have hbound : ¬ HasPdu buffer bound := by
    intro hholds
    obtain ⟨e, he, heq⟩ := List.mem_map.1 hholds
    have := h.lt e he
    omega
  induction fuel generalizing p with
  | zero =>
    obtain rfl : p = bound := by omega
    exact ⟨p, le_rfl, le_rfl, hbound, rfl⟩
  | succ fuel ih =>
    have hcount := h.count_valueAt hgt hle
    have hvalue : (atPosition p base).value = valueAt p := rfl
    by_cases hholds : HasPdu buffer p
    · have hne : p ≠ bound := fun heq => hbound (heq ▸ hholds)
      obtain ⟨q, hq, hq', hnot, heq⟩ := ih (p := p + 1) (by omega) (by omega) (by omega)
      refine ⟨q, by omega, hq', hnot, ?_⟩
      rw [RxBuffer.nextMissing, hvalue, if_pos (hcount.2 hholds), succ_atPosition, heq]
    · refine ⟨p, le_rfl, hle, hholds, ?_⟩
      rw [RxBuffer.nextMissing, hvalue, if_neg (hcount.not.2 hholds)]

theorem expireReorderingTimer_spec (h : BufferedBelow high s.rxBuffer) (ht : TimedAt s low high)
    (hlow : high - 512 ≤ low) (hrunning : s.reorderingTimer = true) :
    ∃ q l, low < q ∧ q ≤ high ∧ ¬ HasPdu s.rxBuffer q ∧ Between low q l ∧
      TimedAt s.expireReorderingTimer q high ∧
      s.expireReorderingTimer.rxBuffer =
        s.rxBuffer.filter (fun e => !decide (low ≤ e.2 ∧ e.2 < q)) ∧
      s.expireReorderingTimer.reassembled = s.reassembled ++ l := by
  obtain ⟨mark, hvrUx, hlt, hle⟩ := ht.running hrunning
  obtain ⟨q, hq, hq', hnot, hnext⟩ := nextMissing_spec h snCount (high - 512)
    (by unfold snCount; omega) (by omega) hle
  obtain ⟨l, hl, hinterval⟩ := reassembleSnInterval_spec snCount (high - 512)
    { s with reorderingTimer := false, vrUr := atPosition q (high - 512) } h (p := low) (q := q)
    (by unfold snCount; omega) (by omega) (by omega) hq' hlow (by omega)
  have heq : s.expireReorderingTimer = startReorderingTimer
      { s with
        reorderingTimer := false
        vrUr := atPosition q (high - 512)
        rxBuffer := s.rxBuffer.filter fun e => !decide (low ≤ e.2 ∧ e.2 < q)
        reassembled := s.reassembled ++ l } := by
    rw [← hinterval, ← ht.vrUr_eq, ← hnext, ← hvrUx]
    rfl
  obtain ⟨htimed, hbuffer, hreassembled⟩ := startReorderingTimer_spec
    (s := { s with
      reorderingTimer := false
      vrUr := atPosition q (high - 512)
      rxBuffer := s.rxBuffer.filter fun e => !decide (low ≤ e.2 ∧ e.2 < q)
      reassembled := s.reassembled ++ l }) rfl ht.vrUh_eq (by omega) hq' rfl
  rw [heq]
  exact ⟨q, l, by omega, hq', hnot, hl, htimed, hbuffer, hreassembled⟩

end LteRlcUm

/-! ### The walk over the buffer -/

section Walk

variable {l : List (ℕ × ℤ)} {edge : ℤ}

/-- Where all outside the window come first, the walk takes all of them. -/
theorem walk_of_separated (h : l.Pairwise fun e e' => e.1 < e'.1)
    (hsep : ∀ a ∈ l, ∀ b ∈ l, a.2 < edge → edge ≤ b.2 → a.1 < b.1) :
    (l.takeWhile fun e => e.2 < edge) = l.filter (fun e => e.2 < edge) ∧
      (l.dropWhile fun e => e.2 < edge) = l.filter fun e => !decide (e.2 < edge) := by
  induction l with
  | nil => exact ⟨rfl, rfl⟩
  | cons e rest ih =>
    obtain ⟨hhead, htail⟩ := List.pairwise_cons.1 h
    by_cases hout : e.2 < edge
    · have ih := ih htail fun a ha b hb =>
        hsep a (List.mem_cons_of_mem _ ha) b (List.mem_cons_of_mem _ hb)
      simp [hout, ih]
    · have hall : ∀ a ∈ rest, ¬ a.2 < edge := by
        intro a ha hlt
        have hbefore := hsep a (List.mem_cons_of_mem _ ha) e List.mem_cons_self hlt (by omega)
        exact absurd (hhead a ha) (by omega)
      have hnil : rest.filter (fun e => e.2 < edge) = [] :=
        List.filter_eq_nil_iff.2 fun a ha => by simpa using hall a ha
      have hself : (rest.filter fun e => !decide (e.2 < edge)) = rest :=
        List.filter_eq_self.2 fun a ha => by simpa using hall a ha
      simp [hout, hnil, hself]

/-- What comes after one inside the window stays. -/
theorem mem_dropWhile_of_lt (h : l.Pairwise fun e e' => e.1 < e'.1) {a b : ℕ × ℤ} (ha : a ∈ l)
    (hb : b ∈ l) (hin : edge ≤ b.2) (hlt : b.1 < a.1) : a ∈ l.dropWhile fun e => e.2 < edge := by
  induction l with
  | nil => exact absurd ha List.not_mem_nil
  | cons e rest ih =>
    obtain ⟨hhead, htail⟩ := List.pairwise_cons.1 h
    by_cases hout : e.2 < edge
    · simp only [List.dropWhile_cons, hout, decide_true, if_true]
      have hb' : b ∈ rest := (List.mem_cons.1 hb).resolve_left fun heq => by
        rw [heq] at hin
        omega
      have ha' : a ∈ rest := (List.mem_cons.1 ha).resolve_left fun heq => by
        have := hhead b hb'
        rw [heq] at hlt
        omega
      exact ih htail ha' hb'
    · simpa only [List.dropWhile_cons, hout, decide_false, Bool.false_eq_true, if_false] using ha

/-- What is inside the window stays. -/
theorem mem_dropWhile_of_le {b : ℕ × ℤ} (hb : b ∈ l) (hin : edge ≤ b.2) :
    b ∈ l.dropWhile fun e => e.2 < edge := by
  have hsplit := List.takeWhile_append_dropWhile (p := fun e : ℕ × ℤ => decide (e.2 < edge)) (l := l)
  rw [← hsplit] at hb
  refine (List.mem_append.1 hb).resolve_left fun hmem => ?_
  have hout := List.all_eq_true.1 List.all_takeWhile b hmem
  rw [decide_eq_true_iff] at hout
  omega

end Walk

end SeanetSim
