import Mathlib.Data.Int.Range
import SeanetSim.Lib.Run
import SeanetSim.Lte.ReorderingWindow

/-!
# Runs of the reordering window

PDUs arrive in any order and t-Reordering expires at any time.  Two kinds of arrivals break the
window: a run of PDUs from VR(UR) on that goes past the sequence number 1023, and a PDU that moves
the window when one that stays inside it has a smaller number than one that does not.
-/

namespace SeanetSim

open SequenceNumber10 LteRlcUm

/-- A receiver whose PDUs are positions, and the position of VR(UH). -/
structure ReceptionRun where
  rlc : LteRlcUm ℤ
  high : ℤ

inductive ReceptionEvent
  | pdu (sn : ℕ)
  | expiry

/-- How far a sequence number is above the lower edge of the reordering window. -/
def windowOffset (vrUh sn : ℕ) : ℕ := (sn + 1536 - vrUh) % 1024

/-- The buffer holds neither VR(UR), nor a PDU outside the window, nor one below VR(UR), and the
positions handed over ascend. -/
structure WellOrdered (s : LteRlcUm ℤ) : Prop where
  ne_vrUr : ∀ e ∈ s.rxBuffer, e.1 ≠ s.vrUr.value
  inside : ∀ e ∈ s.rxBuffer, windowOffset s.vrUh.value e.1 < 512
  not_below : ∀ e ∈ s.rxBuffer,
    ¬ windowOffset s.vrUh.value e.1 < windowOffset s.vrUh.value s.vrUr.value
  ascending : s.reassembled.Pairwise (· < ·)

namespace ReceptionRun

variable (y : ReceptionRun) (sn : ℕ)

def init : ReceptionRun := ⟨.init, 0⟩

/-- The position of a sequence number, in the circular order from 512 below VR(UH) on. -/
def position : ℤ := y.high - 512 + ((sn : ℤ) - (y.high - 512)) % 1024

/-- The position of VR(UR). -/
def low : ℤ := y.position y.rlc.vrUr.value

def Enabled : ReceptionEvent → Prop
  | .pdu sn => sn < 1024
  | .expiry => y.rlc.reorderingTimer = true

def next : ReceptionEvent → ReceptionRun
  | .pdu sn => ⟨y.rlc.doReceivePdu (ofValue sn) (y.position sn), max y.high (y.position sn + 1)⟩
  | .expiry => ⟨y.rlc.expireReorderingTimer, y.high⟩

def Step (y : ReceptionRun) (e : ReceptionEvent) (z : ReceptionRun) : Prop :=
  y.Enabled e ∧ z = y.next e

/-- With the PDU, the buffer holds all from VR(UR), or the new lower edge of the window if that is
higher, to the next sequence number 0. -/
def Wraps : Prop :=
  let p := y.position sn
  let edge := max y.low (max y.high (p + 1) - 512)
  ∀ q, edge ≤ q → q ≤ nextZero edge → q = p ∨ HasPdu y.rlc.rxBuffer q

/-- The PDU moves the window so far that a PDU falls out of it, although a smaller number is
inside. -/
def Hides : Prop :=
  let p := y.position sn
  y.high ≤ p ∧ ∃ a ∈ y.rlc.rxBuffer, a.2 < p - 511 ∧
    ∃ b ∈ (sn, p) :: y.rlc.rxBuffer, p - 511 ≤ b.2 ∧ b.1 < a.1

def Breaks (y : ReceptionRun) : ReceptionEvent → Prop
  | .pdu sn => y.Wraps sn ∨ y.Hides sn
  | .expiry => False

/-- VR(UR) is at the position `low`, and the buffer holds only PDUs between it and VR(UH). -/
structure Reordering (y : ReceptionRun) (low : ℤ) : Prop where
  vrUr_eq : y.rlc.vrUr.value = valueAt low
  vrUh_eq : y.rlc.vrUh.value = valueAt y.high
  low_ge : y.high - 512 ≤ low
  low_le : low ≤ y.high
  buffered : BufferedBelow y.high y.rlc.rxBuffer
  above : ∀ e ∈ y.rlc.rxBuffer, low < e.2
  running : y.rlc.reorderingTimer = true → TimedAt y.rlc low y.high
  stopped : y.rlc.reorderingTimer = false → low = y.high
  ascending : y.rlc.reassembled.Pairwise (· < ·)
  below : ∀ p ∈ y.rlc.reassembled, p < low

variable {y} {sn} {low p : ℤ}

theorem valueAt_position (hsn : sn < 1024) : valueAt (y.position sn) = sn := by
  have := natCast_valueAt (y.position sn)
  unfold position at *
  omega

theorem position_ge : y.high - 512 ≤ y.position sn := by
  unfold position
  omega

theorem position_lt : y.position sn < y.high + 512 := by
  unfold position
  omega

theorem position_valueAt (hge : y.high - 512 ≤ p) (hlt : p < y.high + 512) :
    y.position (valueAt p) = p := by
  have := natCast_valueAt p
  unfold position
  omega

theorem windowOffset_valueAt (high p : ℤ) :
    (windowOffset (valueAt high) (valueAt p) : ℤ) = (p - (high - 512)) % 1024 := by
  have := natCast_valueAt p
  have := natCast_valueAt high
  have := valueAt_lt high
  unfold windowOffset
  omega

namespace Reordering

variable (h : Reordering y low)
include h

theorem low_eq : y.low = low := by
  have := h.low_le
  rw [ReceptionRun.low, h.vrUr_eq]
  exact position_valueAt h.low_ge (by omega)

theorem wellOrdered : WellOrdered y.rlc where
  ne_vrUr e he heq := by
    have hgt := h.above e he
    have hge := h.low_ge
    have hlow := (h.buffered.key_eq_iff he (by omega) h.low_le).1 (heq.trans h.vrUr_eq)
    omega
  inside e he := by
    have hoffset := windowOffset_valueAt y.high e.2
    have hgt := h.above e he
    have hlt := h.buffered.lt e he
    have hge := h.low_ge
    rw [h.vrUh_eq, h.buffered.key e he]
    omega
  not_below e he := by
    have hoffset := windowOffset_valueAt y.high e.2
    have hoffset' := windowOffset_valueAt y.high low
    have hgt := h.above e he
    have hlt := h.buffered.lt e he
    have hge := h.low_ge
    rw [h.vrUh_eq, h.vrUr_eq, h.buffered.key e he]
    omega
  ascending := h.ascending

omit h in
/-- Where the PDUs from position `p` to `q` leave the buffer last. -/
theorem of_interval {s t : LteRlcUm ℤ} {bound q : ℤ} {old l : List ℤ}
    (htimed : TimedAt t q bound) (hge : bound - 512 ≤ q) (hle : q ≤ bound)
    (hbuffer : t.rxBuffer = s.rxBuffer.filter fun e => !decide (p ≤ e.2 ∧ e.2 < q))
    (hbuffered : BufferedBelow bound s.rxBuffer) (habove : ∀ e ∈ s.rxBuffer, p ≤ e.2)
    (hnot : ¬ HasPdu s.rxBuffer q) (hreassembled : t.reassembled = old ++ l) (hl : Between p q l)
    (hold : old.Pairwise (· < ·)) (hold' : ∀ a ∈ old, a < p) (hpq : p ≤ q) :
    Reordering ⟨t, bound⟩ q where
  vrUr_eq := congrArg value htimed.vrUr_eq
  vrUh_eq := congrArg value htimed.vrUh_eq
  low_ge := hge
  low_le := hle
  buffered := hbuffered.sublist (by simp only [hbuffer]; exact List.filter_sublist)
  above e he := by
    simp only [hbuffer, List.mem_filter, Bool.not_eq_true', decide_eq_false_iff_not] at he
    have hne : e.2 ≠ q := fun heq => hnot (List.mem_map.2 ⟨e, he.1, heq⟩)
    have hge := habove e he.1
    have hout := he.2
    omega
  running _ := htimed
  stopped := htimed.stopped
  ascending := by
    simp only [hreassembled]
    refine List.pairwise_append.2 ⟨hold, hl.ascending, fun a ha b hb => ?_⟩
    exact (hold' a ha).trans_le (hl.ge b hb)
  below a ha := by
    simp only [hreassembled, List.mem_append] at ha
    rcases ha with ha | ha
    · exact (hold' a ha).trans_le hpq
    · exact hl.lt a ha

theorem next_expiry (hrunning : y.rlc.reorderingTimer = true) :
    ∃ low', Reordering (y.next .expiry) low' := by
  have ht := h.running hrunning
  obtain ⟨q, l, hlt, hle, hnot, hl, htimed, hbuffer, hreassembled⟩ :=
    expireReorderingTimer_spec h.buffered ht h.low_ge hrunning
  exact ⟨q, of_interval htimed (h.low_ge.trans hlt.le) hle hbuffer h.buffered
    (fun e he => (h.above e he).le) hnot hreassembled hl h.ascending h.below hlt.le⟩

/-- A PDU is dropped if it has been received or is below VR(UR). -/
theorem isDiscarded_eq (hge : y.high - 512 ≤ p) (hlt : p < y.high + 512) {s : LteRlcUm ℤ}
    (hvrUr : s.vrUr = atPosition low (y.high - 512))
    (hvrUh : s.vrUh = atPosition y.high (y.high - 512)) (hbuffer : s.rxBuffer = y.rlc.rxBuffer) :
    s.isDiscarded (atPosition p (y.high - 512)) =
      decide (p < low ∨ HasPdu y.rlc.rxBuffer p) := by
  have hlow := h.low_ge
  have hlow' := h.low_le
  have hedge : s.vrUh.sub windowSize = atPosition (y.high - 512) (y.high - 512) := by
    rw [hvrUh]
    exact sub_windowSize rfl
  have hvalue : (atPosition p (y.high - 512)).value = valueAt p := rfl
  have hholds : low < p ∧ p < y.high ∧ RxBuffer.count (valueAt p) y.rlc.rxBuffer = true ↔
      HasPdu y.rlc.rxBuffer p := by
    constructor
    · rintro ⟨hlow, hhigh, hcount⟩
      exact (h.buffered.count_valueAt (by omega) hhigh.le).1 hcount
    · intro hholds
      obtain ⟨e, he, rfl⟩ := List.mem_map.1 hholds
      have hgt := h.above e he
      have hlt := h.buffered.lt e he
      exact ⟨hgt, hlt, (h.buffered.count_valueAt (by omega) hlt.le).2 hholds⟩
  rw [isDiscarded, hedge, hvrUr, hvrUh, hbuffer, hvalue,
    lt_atPosition (by omega) (by omega) hge (by omega),
    lt_atPosition hge (by omega) (by omega) (by omega),
    le_atPosition (by omega) (by omega) hge (by omega),
    lt_atPosition hge (by omega) (by omega) (by omega), Bool.eq_iff_iff, decide_eq_true_iff,
    ← hholds]
  simp only [Bool.or_eq_true, Bool.and_eq_true, decide_eq_true_iff, and_assoc, hge, true_and]
  exact or_comm

/-- A PDU that is dropped changes nothing but the bases. -/
theorem of_bases {s : LteRlcUm ℤ} (hvrUr : s.vrUr = atPosition low (y.high - 512))
    (hvrUh : s.vrUh = atPosition y.high (y.high - 512)) (hvrUx : s.vrUx = y.rlc.vrUx)
    (hbuffer : s.rxBuffer = y.rlc.rxBuffer) (htimer : s.reorderingTimer = y.rlc.reorderingTimer)
    (hreassembled : s.reassembled = y.rlc.reassembled) : Reordering ⟨s, y.high⟩ low where
  vrUr_eq := congrArg value hvrUr
  vrUh_eq := congrArg value hvrUh
  low_ge := h.low_ge
  low_le := h.low_le
  buffered := by simpa only [hbuffer] using h.buffered
  above := by simpa only [hbuffer] using h.above
  running hrunning := by
    have ht := h.running (htimer.symm.trans hrunning)
    refine ⟨hvrUr, hvrUh, fun _ => ?_, fun hstopped => ht.stopped (htimer.symm.trans hstopped)⟩
    simp only [hvrUx]
    exact ht.running (htimer.symm.trans hrunning)
  stopped hstopped := h.stopped (htimer.symm.trans hstopped)
  ascending := by simpa only [hreassembled] using h.ascending
  below := by simpa only [hreassembled] using h.below

theorem buffered_max (hlt : p < y.high + 512) :
    BufferedBelow (max y.high (p + 1)) y.rlc.rxBuffer := by
  refine ⟨h.buffered.key, fun e he => ?_, fun e he => ?_, h.buffered.sorted⟩
  · have := h.above e he
    have := h.low_ge
    omega
  · have := h.buffered.lt e he
    omega

end Reordering

/-- A PDU outside the window has a greater number than one inside. -/
def Hidden (edge : ℤ) (buffer : List (ℕ × ℤ)) : Prop :=
  ∃ a ∈ buffer, a.2 < edge ∧ ∃ b ∈ buffer, edge ≤ b.2 ∧ b.1 < a.1

/-- What `DoReceivePdu` has done when the window has moved up to `bound`: VR(UR) is at `edge`, and
what was outside has been handed over. -/
structure Moved (s t : LteRlcUm ℤ) (low bound edge base : ℤ) (out : List ℤ) : Prop where
  vrUr_eq : t.vrUr = atPosition edge base
  vrUh_eq : t.vrUh.value = valueAt bound
  vrUx_eq : t.vrUx = s.vrUx
  timer_eq : t.reorderingTimer = s.reorderingTimer
  reassembled_eq : t.reassembled = s.reassembled ++ out
  base_le : base ≤ edge
  gap : ∀ q, edge < q → q ≤ bound → (∀ r, edge ≤ r → r < q → HasPdu t.rxBuffer r) →
    q < base + 1024
  sublist : t.rxBuffer.Sublist s.rxBuffer
  keeps : ∀ e ∈ s.rxBuffer, bound - 512 ≤ e.2 → e ∈ t.rxBuffer
  hidden : Hidden (bound - 512) s.rxBuffer → ∃ a ∈ t.rxBuffer, a.2 < bound - 512
  clear : ¬ Hidden (bound - 512) s.rxBuffer →
    (∀ e ∈ t.rxBuffer, bound - 512 ≤ e.2) ∧ Between (low + 1) (bound - 512) out

/-- In a block of 1024 positions the map is ordered by positions. -/
theorem between_takeWhile {l : List (ℕ × ℤ)} {bound : ℤ} (hl : BufferedBelow bound l)
    (hlow : ∀ e ∈ l, e.2 < bound - 512 → low < e.2) (hlast : HasPdu l (bound - 1))
    (hclear : ¬ Hidden (bound - 512) l) :
    (∀ e ∈ l.dropWhile fun e => e.2 < bound - 512, bound - 512 ≤ e.2) ∧
      Between (low + 1) (bound - 512)
        ((l.takeWhile fun e => e.2 < bound - 512).map Prod.snd) := by
  have hkey_ne : ∀ a ∈ l, ∀ b ∈ l, a.2 < bound - 512 → bound - 512 ≤ b.2 → a.1 ≠ b.1 := by
    intro a ha b hb ha' hb' heq
    have hgt := hl.gt b hb
    have hlt := hl.lt b hb
    rw [hl.key b hb, hl.key_eq_iff ha hgt hlt.le] at heq
    omega
  have hsep : ∀ a ∈ l, ∀ b ∈ l, a.2 < bound - 512 → bound - 512 ≤ b.2 → a.1 < b.1 := by
    intro a ha b hb ha' hb'
    have hne := hkey_ne a ha b hb ha' hb'
    by_contra hge
    exact hclear ⟨a, ha, ha', b, hb, hb', by omega⟩
  obtain ⟨htake, hdrop⟩ := walk_of_separated hl.sorted hsep
  obtain ⟨last, hmem, hlast⟩ := List.mem_map.1 hlast
  have hlast_key := hl.key last hmem
  rw [htake, hdrop]
  refine ⟨fun e he => ?_, ?_, fun r hr => ?_, fun r hr => ?_⟩
  · simpa using (List.mem_filter.1 he).2
  · rw [List.pairwise_map]
    refine (hl.sorted.sublist List.filter_sublist).imp_of_mem fun {a b} ha hb hlt => ?_
    obtain ⟨ha, ha'⟩ := List.mem_filter.1 ha
    obtain ⟨hb, hb'⟩ := List.mem_filter.1 hb
    rw [decide_eq_true_iff] at ha' hb'
    have hak := hsep a ha last hmem ha' (by omega)
    have hbk := hsep b hb last hmem hb' (by omega)
    have hag := hl.gt a ha
    have hbg := hl.gt b hb
    rw [hl.key a ha] at hak hlt
    rw [hl.key b hb] at hbk hlt
    have := natCast_valueAt a.2
    have := natCast_valueAt b.2
    have := natCast_valueAt last.2
    omega
  · obtain ⟨e, he, rfl⟩ := List.mem_map.1 hr
    obtain ⟨he, he'⟩ := List.mem_filter.1 he
    rw [decide_eq_true_iff] at he'
    exact hlow e he he'
  · obtain ⟨e, he, rfl⟩ := List.mem_map.1 hr
    exact of_decide_eq_true (List.mem_filter.1 he).2

section Receive

variable {s : LteRlcUm ℤ} (h : Reordering y low)
  (hvrUr : s.vrUr = atPosition low (y.high - 512))
  (hvrUh : s.vrUh = atPosition y.high (y.high - 512))
  (hmem : ∀ r, HasPdu s.rxBuffer r ↔ r = p ∨ HasPdu y.rlc.rxBuffer r)
include h hvrUr hvrUh hmem

theorem moved_inside (hge : y.high - 512 ≤ p) (hlow : low ≤ p) (hlt : p < y.high) :
    Moved s (s.updateWindow (atPosition p (y.high - 512))) low (max y.high (p + 1))
      (max low (max y.high (p + 1) - 512)) (y.high - 512) [] := by
  have hle := h.low_le
  have hgelow := h.low_ge
  have hbound : max y.high (p + 1) = y.high := by omega
  have hedge : max low (y.high - 512) = low := by omega
  have hall : ∀ e ∈ s.rxBuffer, y.high - 512 ≤ e.2 := by
    intro e he
    rcases (hmem e.2).1 (List.mem_map_of_mem he) with heq | hholds
    · omega
    · obtain ⟨e', he', heq⟩ := List.mem_map.1 hholds
      have := h.above e' he'
      omega
  rw [hbound, hedge, updateWindow_inside (show s.vrUh.value = valueAt y.high by rw [hvrUh]; rfl) rfl hge hlt]
  exact
    { vrUr_eq := hvrUr
      vrUh_eq := rfl
      vrUx_eq := rfl
      timer_eq := rfl
      reassembled_eq := (List.append_nil _).symm
      base_le := h.low_ge
      gap := fun q _ hq _ => by omega
      sublist := List.Sublist.refl _
      keeps := fun e he _ => he
      hidden := fun ⟨a, ha, hout, _⟩ => absurd (hall a ha) (by omega)
      clear := fun _ => ⟨hall, .nil⟩ }

theorem moved_outside (hlt : y.high ≤ p) (hp : p < y.high + 512)
    (hbuffered : BufferedBelow (max y.high (p + 1)) s.rxBuffer) :
    ∃ base out, Moved s (s.updateWindow (atPosition p (y.high - 512))) low (max y.high (p + 1))
      (max low (max y.high (p + 1) - 512)) base out := by
  have hle := h.low_le
  have hgelow := h.low_ge
  have hbound : max y.high (p + 1) = p + 1 := by omega
  have hsub : p + 1 - 512 = p - 511 := by omega
  have hlast : HasPdu s.rxBuffer (p + 1 - 1) := (hmem _).2 (.inl (by omega))
  have habove : ∀ e ∈ s.rxBuffer, e.2 < p + 1 - 512 → low < e.2 := by
    intro e he hout
    rcases (hmem e.2).1 (List.mem_map_of_mem he) with heq | hholds
    · omega
    · obtain ⟨e', he', heq⟩ := List.mem_map.1 hholds
      have := h.above e' he'
      omega
  have hheld : HasPdu s.rxBuffer y.high → p = y.high := by
    intro hholds
    rcases (hmem _).1 hholds with heq | hholds
    · exact heq.symm
    · obtain ⟨e, he, heq⟩ := List.mem_map.1 hholds
      have := h.buffered.lt e he
      omega
  rw [hbound] at hbuffered ⊢
  have hupdate := updateWindow_outside (show s.vrUh.value = valueAt y.high by rw [hvrUh]; rfl) hvrUr
    hgelow hle hlt hp hbuffered
  refine ⟨if p - 511 ≤ low then y.high - 512 else p - 511,
    (s.rxBuffer.takeWhile fun e => e.2 < p - 511).map Prod.snd, ?_⟩
  rw [hupdate]
  exact
    { vrUr_eq := by
        by_cases hin : p - 511 ≤ low
        · simp only [hin, if_true, hsub, max_eq_left]
        · simp only [hin, if_false, hsub, max_eq_right (Int.not_le.1 hin).le]
      vrUh_eq := rfl
      vrUx_eq := rfl
      timer_eq := rfl
      reassembled_eq := rfl
      base_le := by split_ifs <;> omega
      gap := fun q hq hq' hall => by
        split_ifs with hin
        · by_contra hfar
          obtain ⟨e, he, heq⟩ := List.mem_map.1 (hall y.high (by omega) (by omega))
          have := hheld (List.mem_map.2 ⟨e, (List.dropWhile_sublist _).subset he, heq⟩)
          omega
        · omega
      sublist := List.dropWhile_sublist _
      keeps := fun e he hin => mem_dropWhile_of_le he (by omega)
      hidden := fun ⟨a, ha, hout, b, hb, hin, hkey⟩ =>
        ⟨a, mem_dropWhile_of_lt hbuffered.sorted ha hb (by omega) hkey, hout⟩
      clear := fun hclear => by
        have hwalk := between_takeWhile hbuffered habove hlast hclear
        rwa [hsub] at hwalk ⊢ }

end Receive

/-- What happens after the window has moved: what is in sequence leaves the buffer, and the timer is
set. -/
theorem Moved.finish {s t : LteRlcUm ℤ} {bound edge base : ℤ} {out : List ℤ}
    (hm : Moved s t low bound edge base out) (hbuffered : BufferedBelow bound s.rxBuffer)
    (hedge : bound - 512 ≤ edge) (hedge' : edge ≤ bound)
    (hrunning : s.reorderingTimer = true →
      ∃ mark, s.vrUx.value = valueAt mark ∧ bound - 1024 < mark ∧ mark ≤ bound) :
    ∃ q l, edge ≤ q ∧ q ≤ bound ∧ q ≤ nextZero edge ∧
      (∀ r, edge ≤ r → r < q → HasPdu t.rxBuffer r) ∧
      (¬ HasPdu t.rxBuffer q ∨ edge < q ∧ q = nextZero edge) ∧ Between edge q l ∧
      TimedAt t.deliverInSequence.updateReorderingTimer q bound ∧
      t.deliverInSequence.updateReorderingTimer.rxBuffer =
        t.rxBuffer.filter (fun e => !decide (edge ≤ e.2 ∧ e.2 < q)) ∧
      t.deliverInSequence.updateReorderingTimer.reassembled = s.reassembled ++ out ++ l := by
  obtain ⟨q, l, hq, hbound, hzero, hheld, hstop, hl, heq⟩ := deliverInSequence_spec
    (hbuffered.sublist hm.sublist) hm.vrUr_eq (by omega) hedge' hm.base_le hm.gap
  have hvrUr : t.deliverInSequence.vrUr.value = valueAt q := by rw [heq]; rfl
  have hvrUh : t.deliverInSequence.vrUh.value = valueAt bound := by rw [heq]; exact hm.vrUh_eq
  obtain ⟨htimed, hbuffer, hreassembled⟩ := updateReorderingTimer_spec hvrUr hvrUh (by omega) hbound
    (by rw [heq]; simpa only [hm.timer_eq, hm.vrUx_eq] using hrunning)
  refine ⟨q, l, hq, hbound, hzero, hheld, hstop, hl, htimed, ?_, ?_⟩
  · rw [hbuffer, heq]
  · rw [hreassembled, heq, hm.reassembled_eq]

/-- The state in which `DoReceivePdu` has set the bases. -/
def based (y : ReceptionRun) (low : ℤ) : LteRlcUm ℤ :=
  { y.rlc with
    vrUr := atPosition low (y.high - 512)
    vrUh := atPosition y.high (y.high - 512) }

/-- The state in which it has placed a PDU. -/
def placed (y : ReceptionRun) (low p : ℤ) : LteRlcUm ℤ :=
  { y.based low with rxBuffer := RxBuffer.insert (valueAt p) p y.rlc.rxBuffer }

namespace Reordering

variable (h : Reordering y low)
include h

theorem doReceivePdu_eq (hsn : sn < 1024) (hp : y.position sn = p) :
    y.rlc.doReceivePdu (ofValue sn) p =
      if p < low ∨ HasPdu y.rlc.rxBuffer p then y.based low
      else ((y.placed low p).updateWindow
        (atPosition p (y.high - 512))).deliverInSequence.updateReorderingTimer := by
  have hge : y.high - 512 ≤ p := hp ▸ position_ge
  have hlt : p < y.high + 512 := hp ▸ position_lt
  have hsn' : (ofValue sn).setModulusBase (valueAt (y.high - 512)) =
      atPosition p (y.high - 512) := by
    rw [atPosition, ← hp, valueAt_position hsn, ofValue, Nat.mod_eq_of_lt hsn]
    rfl
  have hvrUr : y.rlc.vrUr.setModulusBase (valueAt (y.high - 512)) = atPosition low (y.high - 512) := by
    rw [atPosition, ← h.vrUr_eq]
    rfl
  have hvrUh : y.rlc.vrUh.setModulusBase (valueAt (y.high - 512)) =
      atPosition y.high (y.high - 512) := by
    rw [atPosition, ← h.vrUh_eq]
    rfl
  have hdiscard := h.isDiscarded_eq hge hlt (s := y.based low) rfl rfl rfl
  rw [based] at hdiscard
  simp only [doReceivePdu, sub_windowSize h.vrUh_eq, hsn', hvrUr, hvrUh, hdiscard,
    decide_eq_true_iff]
  rfl

theorem wraps_iff (hposition : y.position sn = p) :
    y.Wraps sn ↔ ∀ q, max low (max y.high (p + 1) - 512) ≤ q →
      q ≤ nextZero (max low (max y.high (p + 1) - 512)) → q = p ∨ HasPdu y.rlc.rxBuffer q := by
  rw [Wraps, h.low_eq, hposition]

/-- A PDU that is dropped breaks nothing. -/
theorem next_discarded (hsn : sn < 1024)
    (hdiscard : y.position sn < low ∨ HasPdu y.rlc.rxBuffer (y.position sn)) :
    Reordering (y.next (.pdu sn)) low ∧ ¬ y.Breaks (.pdu sn) := by
  have hinside : y.position sn ≠ low ∧ y.position sn < y.high := by
    have := h.low_le
    rcases hdiscard with hlt | hholds
    · omega
    · obtain ⟨e, he, heq⟩ := List.mem_map.1 hholds
      have := h.above e he
      have := h.buffered.lt e he
      omega
  have hbound : max y.high (y.position sn + 1) = y.high := by omega
  have hnext : y.next (.pdu sn) = ⟨y.based low, y.high⟩ := by
    rw [next, h.doReceivePdu_eq hsn rfl, if_pos hdiscard, hbound]
  refine ⟨?_, ?_⟩
  · rw [hnext]
    exact h.of_bases rfl rfl rfl rfl rfl rfl
  · have hlow := h.low_ge
    rintro (hwraps | hhides)
    · have hedge : max low (max y.high (y.position sn + 1) - 512) = low := by omega
      have hzero : low ≤ nextZero low := by
        unfold nextZero
        omega
      rw [h.wraps_iff rfl, hedge] at hwraps
      rcases hwraps low le_rfl hzero with heq | hholds
      · exact hinside.1 heq.symm
      · obtain ⟨e, he, heq⟩ := List.mem_map.1 hholds
        have := h.above e he
        omega
    · have := hhides.1
      omega

section New

variable (hge : y.high - 512 ≤ p) (hp : p < y.high + 512) (hnot : ¬ HasPdu y.rlc.rxBuffer p)
include hge hp hnot

theorem buffered_placed : BufferedBelow (max y.high (p + 1)) (y.placed low p).rxBuffer :=
  (h.buffered_max hp).insert_valueAt (by omega) (by omega) hnot

theorem mem_placed {e : ℕ × ℤ} :
    e ∈ (y.placed low p).rxBuffer ↔ e = (valueAt p, p) ∨ e ∈ y.rlc.rxBuffer :=
  RxBuffer.mem_insert ((h.buffered_max hp).ne_valueAt (by omega) (by omega) hnot)

theorem holds_placed (q : ℤ) :
    HasPdu (y.placed low p).rxBuffer q ↔ q = p ∨ HasPdu y.rlc.rxBuffer q := by
  simp only [HasPdu, List.mem_map, h.mem_placed hge hp hnot]
  constructor
  · rintro ⟨e, rfl | he, rfl⟩
    · exact .inl rfl
    · exact .inr ⟨e, he, rfl⟩
  · rintro (rfl | ⟨e, he, rfl⟩)
    · exact ⟨_, .inl rfl, rfl⟩
    · exact ⟨e, .inr he, rfl⟩

theorem moved (hlow : low ≤ p) :
    ∃ base out, Moved (y.placed low p)
      ((y.placed low p).updateWindow (atPosition p (y.high - 512))) low (max y.high (p + 1))
      (max low (max y.high (p + 1) - 512)) base out := by
  have hmem := h.holds_placed hge hp hnot
  rcases Int.lt_or_le p y.high with hlt | hle
  · exact ⟨_, _, moved_inside h rfl rfl hmem hge hlow hlt⟩
  · exact moved_outside h rfl rfl hmem hle hp (h.buffered_placed hge hp hnot)

theorem hides_iff (hsn : sn < 1024) (hposition : y.position sn = p) (hlow : low ≤ p) :
    y.Hides sn ↔ Hidden (max y.high (p + 1) - 512) (y.placed low p).rxBuffer := by
  have hvalue : valueAt p = sn := hposition ▸ valueAt_position hsn
  simp only [Hides, Hidden, h.mem_placed hge hp hnot, hposition, hvalue, List.mem_cons]
  constructor
  · rintro ⟨hle, a, ha, hout, b, hb, hin, hlt⟩
    exact ⟨a, .inr ha, by omega, b, hb, by omega, hlt⟩
  · rintro ⟨a, rfl | ha, hout, b, hb, hin, hlt⟩
    · simp only at hout
      omega
    · have := h.above a ha
      have := h.low_ge
      exact ⟨by omega, a, ha, by omega, b, hb, by omega, hlt⟩

/-- The next state is well-ordered unless the PDU breaks the window. -/
theorem next_placed (hsn : sn < 1024) (hposition : y.position sn = p) (hlow : low ≤ p) :
    (¬ y.Breaks (.pdu sn) → ∃ low', Reordering (y.next (.pdu sn)) low') ∧
      (y.Breaks (.pdu sn) → ¬ WellOrdered (y.next (.pdu sn)).rlc) := by
  obtain ⟨base, out, hm⟩ := h.moved hge hp hnot hlow
  have hbuffered := h.buffered_placed hge hp hnot
  have hholds := h.holds_placed hge hp hnot
  have hhides := h.hides_iff hge hp hnot hsn hposition hlow
  have hwraps := h.wraps_iff hposition
  have hnew : ¬ (p < low ∨ HasPdu y.rlc.rxBuffer p) := by
    rintro (hlt | hheld)
    · omega
    · exact hnot hheld
  have hnext : y.next (.pdu sn) = ⟨((y.placed low p).updateWindow
      (atPosition p (y.high - 512))).deliverInSequence.updateReorderingTimer,
        max y.high (p + 1)⟩ := by
    rw [next, hposition, h.doReceivePdu_eq hsn hposition, if_neg hnew]
  rw [hnext]
  generalize (y.placed low p).updateWindow (atPosition p (y.high - 512)) = t at hm ⊢
  have hlowle := h.low_le
  have hlowge := h.low_ge
  obtain ⟨q, l, hq, hbound, hzero, hheld, hstop, hl, htimed, hbuffer, hreassembled⟩ :=
    hm.finish hbuffered (by omega) (by omega) (fun hrunning => by
      obtain ⟨mark, hvrUx, hgt, hle⟩ := (h.running hrunning).running hrunning
      exact ⟨mark, congrArg value hvrUx, by omega, by omega⟩)
  -- in the window, `t` holds what has been placed
  have hkeeps : ∀ r, max y.high (p + 1) - 512 ≤ r → (HasPdu t.rxBuffer r ↔
      r = p ∨ HasPdu y.rlc.rxBuffer r) := by
    intro r hr
    rw [← hholds]
    constructor
    · exact fun hr => (hm.sublist.map _).subset hr
    · intro hr'
      obtain ⟨e, he, rfl⟩ := List.mem_map.1 hr'
      exact List.mem_map_of_mem (hm.keeps e he hr)
  constructor
  · intro hok
    rw [Breaks, not_or, hhides] at hok
    obtain ⟨hinside, hout⟩ := hm.clear hok.2
    have habove : ∀ e ∈ t.rxBuffer, max low (max y.high (p + 1) - 512) ≤ e.2 := by
      intro e he
      have := hinside e he
      rcases (h.mem_placed hge hp hnot).1 (hm.sublist.subset he) with rfl | he
      · exact max_le hlow this
      · exact max_le (h.above e he).le this
    have hq' : ¬ HasPdu t.rxBuffer q := by
      refine hstop.elim id fun ⟨_, heq⟩ hholds => hok.1 (hwraps.2 fun r hr hr' => ?_)
      rw [← hkeeps r (by omega)]
      obtain hlt | rfl : r < q ∨ r = q := by omega
      · exact hheld r hr hlt
      · exact hholds
    refine ⟨q, of_interval htimed (by omega) hbound hbuffer (hbuffered.sublist hm.sublist) habove
      hq' hreassembled hl ?_ ?_ hq⟩
    · refine List.pairwise_append.2 ⟨h.ascending, hout.ascending, fun a ha b hb => ?_⟩
      have := h.below a ha
      have := hout.ge b hb
      omega
    · intro a ha
      rcases List.mem_append.1 ha with ha | ha
      · have := h.below a ha
        omega
      · have := hout.lt a ha
        omega
  · intro hbad hwell
    have hstays : ∀ e ∈ t.rxBuffer, e.2 < max low (max y.high (p + 1) - 512) ∨ q ≤ e.2 →
        e ∈ t.deliverInSequence.updateReorderingTimer.rxBuffer := by
      intro e he hout
      rw [hbuffer, List.mem_filter, Bool.not_eq_true', decide_eq_false_iff_not]
      exact ⟨he, by omega⟩
    rcases hbad with hbad | hbad
    · -- VR(UR) stops at a PDU that the buffer holds
      have hholds := (hkeeps q (by omega)).2 (hwraps.1 hbad q hq hzero)
      obtain ⟨e, he, heq⟩ := List.mem_map.1 hholds
      apply hwell.ne_vrUr e (hstays e he (.inr heq.ge))
      rw [htimed.vrUr_eq, (hbuffered.sublist hm.sublist).key e he, heq]
      rfl
    · -- the walk over the map has stopped too early
      obtain ⟨a, ha, hout⟩ := hm.hidden (hhides.1 hbad)
      have hinside := hwell.inside a (hstays a ha (.inl (by omega)))
      have hoffset := windowOffset_valueAt (max y.high (p + 1)) a.2
      have hgt := hbuffered.gt a (hm.sublist.subset ha)
      rw [htimed.vrUh_eq, hbuffered.key a (hm.sublist.subset ha)] at hinside
      rw [show (atPosition (max y.high (p + 1)) (max y.high (p + 1) - 512)).value =
        valueAt (max y.high (p + 1)) from rfl] at hinside
      omega

end New

/-- One step keeps the window in order unless it breaks it. -/
theorem step {e : ReceptionEvent} {z : ReceptionRun} (hst : Step y e z) :
    (¬ y.Breaks e → ∃ low', Reordering z low') ∧ (y.Breaks e → ¬ WellOrdered z.rlc) := by
  obtain ⟨henabled, rfl⟩ := hst
  cases e with
  | expiry => exact ⟨fun _ => h.next_expiry henabled, False.elim⟩
  | pdu sn =>
    by_cases hdiscard : y.position sn < low ∨ HasPdu y.rlc.rxBuffer (y.position sn)
    · obtain ⟨hnext, hok⟩ := h.next_discarded henabled hdiscard
      exact ⟨fun _ => ⟨low, hnext⟩, fun hbad => absurd hbad hok⟩
    · rw [not_or] at hdiscard
      exact h.next_placed position_ge position_lt hdiscard.2 henabled rfl (by omega)

end Reordering

theorem init_reordering : Reordering init 0 where
  vrUr_eq := rfl
  vrUh_eq := rfl
  low_ge := by decide
  low_le := le_rfl
  buffered := ⟨nofun, nofun, nofun, List.Pairwise.nil⟩
  above := nofun
  running := nofun
  stopped _ := rfl
  ascending := List.Pairwise.nil
  below := nofun

/-- The states of a run are known as long as no step breaks the window. -/
theorem reordering_iff {trace : List (ReceptionRun × ReceptionEvent)} {z : ReceptionRun}
    (h : Run Step init trace z) :
    ((∀ p ∈ trace, ∃ low, Reordering p.1 low) ∧ ∃ low, Reordering z low) ↔
      ∀ p ∈ trace, ¬ p.1.Breaks p.2 := by
  refine Run.forall_iff (fun y => ∃ low, Reordering y low) Breaks ⟨0, init_reordering⟩ ?_ h
  rintro trace y e z - hst ⟨low, hy⟩
  obtain ⟨hkeeps, hbreaks⟩ := hy.step hst
  exact ⟨fun ⟨_, hz⟩ hbad => hbreaks hbad hz.wellOrdered, hkeeps⟩

/-- The window is in order in all states of a run if and only if no step of it breaks the window. -/
theorem wellOrdered_of_run {trace : List (ReceptionRun × ReceptionEvent)} {z : ReceptionRun}
    (h : Run Step init trace z) :
    ((∀ p ∈ trace, WellOrdered p.1.rlc) ∧ WellOrdered z.rlc) ↔
      ∀ p ∈ trace, ¬ p.1.Breaks p.2 := by
  constructor
  · intro hall
    induction h with
    | nil => exact fun p hp => absurd hp List.not_mem_nil
    | snoc hrun hst ih =>
      rename_i trace s t e
      rw [List.forall_mem_append, List.forall_mem_singleton] at hall ⊢
      have hbefore := ih hall.1
      obtain ⟨-, low, hs⟩ := (reordering_iff hrun).2 hbefore
      exact ⟨hbefore, fun hbad => (hs.step hst).2 hbad hall.2⟩
  · intro hok
    obtain ⟨hall, low, hz⟩ := (reordering_iff h).2 hok
    refine ⟨fun p hp => ?_, hz.wellOrdered⟩
    obtain ⟨low, hp⟩ := hall p hp
    exact hp.wellOrdered

instance (y : ReceptionRun) (e : ReceptionEvent) : Decidable (y.Enabled e) :=
  match e with
  | .pdu sn => inferInstanceAs (Decidable (sn < 1024))
  | .expiry => inferInstanceAs (Decidable (y.rlc.reorderingTimer = true))

instance (y : ReceptionRun) (sn : ℕ) : Decidable (y.Wraps sn) :=
  inferInstanceAs (Decidable (∀ q, max y.low (max y.high (y.position sn + 1) - 512) ≤ q →
    q ≤ nextZero (max y.low (max y.high (y.position sn + 1) - 512)) →
      q = y.position sn ∨ HasPdu y.rlc.rxBuffer q))

instance (y : ReceptionRun) (sn : ℕ) : Decidable (y.Hides sn) :=
  inferInstanceAs (Decidable (y.high ≤ y.position sn ∧ ∃ a ∈ y.rlc.rxBuffer,
    a.2 < y.position sn - 511 ∧ ∃ b ∈ (sn, y.position sn) :: y.rlc.rxBuffer,
      y.position sn - 511 ≤ b.2 ∧ b.1 < a.1))

instance (y : ReceptionRun) (e : ReceptionEvent) : Decidable (y.Breaks e) :=
  match e with
  | .pdu sn => inferInstanceAs (Decidable (y.Wraps sn ∨ y.Hides sn))
  | .expiry => inferInstanceAs (Decidable False)

/-- `next`, if the event can happen. -/
def next? (y : ReceptionRun) (e : ReceptionEvent) : Option ReceptionRun :=
  if y.Enabled e then some (y.next e) else none

theorem step_of_next? {y z : ReceptionRun} {e : ReceptionEvent} (h : y.next? e = some z) :
    Step y e z := by
  unfold next? at h
  split_ifs at h with henabled
  exact ⟨henabled, (Option.some.inj h).symm⟩

/-- A gap closes, and t-Reordering expires for another one. -/
theorem wellOrdered_of_run_expiry : ∃ (trace : List (ReceptionRun × ReceptionEvent))
    (z : ReceptionRun), Run Step init trace z ∧ z.rlc.reassembled = [0, 1, 2, 5, 6] ∧
      (∀ p ∈ trace, WellOrdered p.1.rlc) ∧ WellOrdered z.rlc := by
  have hrun : (Run.runOf next? init [.pdu 0, .pdu 2, .pdu 1, .pdu 5, .pdu 6, .expiry]).any
      (fun r => decide (r.2.rlc.reassembled = [0, 1, 2, 5, 6] ∧
        ∀ p ∈ r.1, ¬ p.1.Breaks p.2)) = true := by
    decide +kernel
  obtain ⟨⟨trace, z⟩, hrun, hr⟩ := (Option.any_eq_true _ _).1 hrun
  obtain ⟨hreassembled, hok⟩ := of_decide_eq_true hr
  have hsteps : Run Step init trace z := Run.of_runOf (fun _ _ _ => step_of_next?) hrun
  exact ⟨trace, z, hsteps, hreassembled, (wellOrdered_of_run hsteps).2 hok⟩

/-- VR(UR) = 1022 is counted past 1023, and stops at 0 although 0 has been received. -/
theorem not_wellOrdered_wrapped : ¬ ∀ (trace : List (ReceptionRun × ReceptionEvent))
    (z : ReceptionRun), Run Step init trace z →
      (∀ p ∈ trace, WellOrdered p.1.rlc) ∧ WellOrdered z.rlc := by
  have hrun : (Run.runOf next? init [.pdu 511, .expiry, .pdu 1021, .expiry, .pdu 1023, .pdu 0,
      .pdu 1022]).any (fun r => decide (∃ e ∈ r.2.rlc.rxBuffer, e.1 = r.2.rlc.vrUr.value)) =
        true := by
    decide +kernel
  obtain ⟨⟨trace, z⟩, hrun, hr⟩ := (Option.any_eq_true _ _).1 hrun
  obtain ⟨e, he, heq⟩ := of_decide_eq_true hr
  have hsteps : Run Step init trace z := Run.of_runOf (fun _ _ _ => step_of_next?) hrun
  exact fun hall => (hall trace z hsteps).2.ne_vrUr e he heq

end ReceptionRun

end SeanetSim
