import Mathlib.Data.Nat.Count
import SeanetSim.Lib.Bitmap
import SeanetSim.Lib.WhileLoop
import SeanetSim.Lib.WindowHistory

/-!
# The packet loss counter

The counter keeps one bit for each of the last `GetBitMapSize` sequence numbers, at the number
modulo that size.  `NotifyReceived` walks from the greatest number so far to the one received; a
number whose bit is clear when the number one window above it takes the bit over counts as lost.
-/

namespace SeanetSim

structure PacketLossCounter where
  lost : UInt32
  bitMapSize : UInt16
  lastMaxSeqNum : UInt32
  receiveBitMap : List UInt8
  length_receiveBitMap : receiveBitMap.length = bitMapSize.toNat

namespace PacketLossCounter

open WindowHistory

/-- `none` where the assertion that the size is a multiple of 8 fails. -/
def setBitMapSize (c : PacketLossCounter) (winSize : UInt16) : Option PacketLossCounter :=
  if winSize % 8 = 0 then
    some
      { c with
        bitMapSize := winSize / 8
        receiveBitMap := List.replicate (winSize / 8).toNat 0xff
        length_receiveBitMap := List.length_replicate }
  else none

/-- The constructor. -/
def create (bitmapSize : UInt8) : Option PacketLossCounter :=
  setBitMapSize ⟨0, 0, 0, [], rfl⟩ bitmapSize.toUInt16

def getLost (c : PacketLossCounter) : UInt32 := c.lost

/-- `seqNum%(m_bitMapSize*8)`; a division by zero where the bitmap is empty. -/
def position (c : PacketLossCounter) (seqNum : UInt32) : Option ℕ :=
  if c.bitMapSize = 0 then none else some (seqNum.toNat % (c.bitMapSize.toNat * 8))

def getBit (c : PacketLossCounter) (seqNum : UInt32) : Option Bool :=
  (c.position seqNum).map fun k =>
    (c.receiveBitMap.getD (k / 8) 0 >>> UInt8.ofNat (7 - seqNum.toNat % 8)) &&& 1 == 1

def setBit (c : PacketLossCounter) (seqNum : UInt32) (val : Bool) : Option PacketLossCounter :=
  (c.position seqNum).map fun k =>
    { c with
      receiveBitMap := c.receiveBitMap.modify (k / 8) fun byte =>
        if val then byte ||| 0x80 >>> UInt8.ofNat (seqNum.toNat % 8)
        else byte &&& ~~~(0x80 >>> UInt8.ofNat (seqNum.toNat % 8))
      length_receiveBitMap := (List.length_modify ..).trans c.length_receiveBitMap }

/-- The body of the loop of `NotifyReceived`, and `i++`. -/
def notifyTurn (i : UInt32) (c : PacketLossCounter) : Option (UInt32 × PacketLossCounter) := do
  let bit ← c.getBit i
  let c := if bit then c else { c with lost := c.lost + 1 }
  let c ← c.setBit i false
  some (i + 1, c)

/-- The loop of `NotifyReceived`, which ends where a turn faults. -/
def notifyLoop (turns : ℕ) (seqNum : UInt32) (s : Option (UInt32 × PacketLossCounter)) :
    Option (Option (UInt32 × PacketLossCounter)) :=
  whileLoop (fun s => s.any fun p => decide (p.1 ≤ seqNum))
    (fun s => some (s.bind fun p => notifyTurn p.1 p.2)) turns s

/-- `none` where the turns run out, `some none` where the call faults. -/
def notifyReceived (turns : ℕ) (c : PacketLossCounter) (seqNum : UInt32) :
    Option (Option PacketLossCounter) :=
  (notifyLoop turns seqNum (some (c.lastMaxSeqNum + 1, c))).map fun s =>
    s.bind fun p => (p.2.setBit seqNum true).map fun c =>
      if seqNum > c.lastMaxSeqNum then { c with lastMaxSeqNum := seqNum } else c

/-- The calls for the packets that arrive. -/
def notifyAll (turns : ℕ) (c : PacketLossCounter) : List UInt32 → Option (Option PacketLossCounter)
  | [] => some (some c)
  | seqNum :: l => (notifyReceived turns c seqNum).bind fun
      | none => some none
      | some c => notifyAll turns c l

variable {c c' : PacketLossCounter} {i seqNum : UInt32} {l : List ℕ} {W N turns : ℕ}

/-- The bit that stands for a number, where the bitmap is not empty. -/
def bit (c : PacketLossCounter) (k : ℕ) : Bool := Bitmap.bitAt c.receiveBitMap k

def window (c : PacketLossCounter) : ℕ := c.bitMapSize.toNat * 8

theorem window_pos (h : c.bitMapSize ≠ 0) : 0 < c.window := by
  have hne : c.bitMapSize.toNat ≠ 0 := fun h0 => h (UInt16.toNat_inj.1 h0)
  rw [window]
  omega

theorem window_eq_zero (h : c.bitMapSize = 0) : c.window = 0 := by simp [window, h]

theorem position_of_ne (h : c.bitMapSize ≠ 0) (i : UInt32) :
    c.position i = some (i.toNat % c.window) := if_neg h

theorem getBit_eq_none (h : c.bitMapSize = 0) (i : UInt32) : c.getBit i = none := by
  simp [getBit, position, h]

theorem setBit_eq_none (h : c.bitMapSize = 0) (i : UInt32) (val : Bool) :
    c.setBit i val = none := by
  simp [setBit, position, h]

/-- The bits of the sequence number and of its position in the bitmap have one place in a byte. -/
theorem mod_window_mod (c : PacketLossCounter) (n : ℕ) : n % c.window % 8 = n % 8 :=
  Nat.mod_mod_of_dvd n (Nat.dvd_mul_left 8 _)

theorem getBit_eq (h : c.bitMapSize ≠ 0) (i : UInt32) :
    c.getBit i = some (c.bit (i.toNat % c.window)) := by
  have hlt : i.toNat % 8 < 8 := Nat.mod_lt _ (by decide)
  rw [getBit, position_of_ne h, Option.map_some, bit, Bitmap.bitAt, mod_window_mod,
    Bitmap.shiftRight_and_one _ hlt]
  cases Bitmap.bitOf (c.receiveBitMap.getD (i.toNat % c.window / 8) 0) (i.toNat % 8) <;> rfl

/-- What `SetBit` does: the bits other than the one it sets keep their values. -/
theorem setBit_eq (h : c.bitMapSize ≠ 0) (i : UInt32) (val : Bool) :
    ∃ c', c.setBit i val = some c' ∧ c'.lost = c.lost ∧ c'.bitMapSize = c.bitMapSize ∧
      c'.lastMaxSeqNum = c.lastMaxSeqNum ∧
      ∀ k, c'.bit k = if k = i.toNat % c.window then val else c.bit k := by
  have hlt : i.toNat % c.window < c.receiveBitMap.length * 8 := by
    rw [c.length_receiveBitMap]
    exact Nat.mod_lt _ (window_pos h)
  rw [setBit, position_of_ne h, Option.map_some]
  refine ⟨_, rfl, rfl, rfl, rfl, fun k => ?_⟩
  rw [bit, bit, ← Bitmap.bitAt_setBit hlt val, Bitmap.setBit, mod_window_mod]

/-- What a turn of the loop does. -/
theorem notifyTurn_eq (h : c.bitMapSize ≠ 0) (i : UInt32) :
    ∃ c', notifyTurn i c = some (i + 1, c') ∧
      c'.lost = (if c.bit (i.toNat % c.window) then c.lost else c.lost + 1) ∧
      c'.bitMapSize = c.bitMapSize ∧ c'.lastMaxSeqNum = c.lastMaxSeqNum ∧
      ∀ k, c'.bit k = (decide (k ≠ i.toNat % c.window) && c.bit k) := by
  rw [notifyTurn, getBit_eq h]
  cases hbit : c.bit (i.toNat % c.window) with
  | true =>
    obtain ⟨c', hset, hlost, hsize, hlast, hbits⟩ := setBit_eq h i false
    refine ⟨c', by simp [hset], hlost, hsize, hlast, fun k => ?_⟩
    rw [hbits]
    split <;> simp_all
  | false =>
    obtain ⟨c', hset, hlost, hsize, hlast, hbits⟩ :=
      setBit_eq (c := { c with lost := c.lost + 1 }) h i false
    refine ⟨c', by simp [hset], hlost, hsize, hlast, fun k => ?_⟩
    rw [hbits]
    change (if k = i.toNat % c.window then false else c.bit k) = _
    split <;> simp_all

/-! ### The loop -/

theorem toNat_add_one (h : i ≠ 0xffffffff) : (i + 1).toNat = i.toNat + 1 := by
  have hne : i.toNat ≠ 4294967295 := fun h' => h (UInt32.toNat_inj.1 h')
  have hlt : i.toNat < 2 ^ 32 := i.toNat_lt
  rw [UInt32.toNat_add, UInt32.toNat_one]
  omega

/-- The loop ends with every invariant that its turns keep. -/
theorem notifyLoop_spec (hmax : seqNum ≠ 0xffffffff) (I : UInt32 → PacketLossCounter → Prop)
    (hsize : ∀ i c, I i c → c.bitMapSize ≠ 0)
    (hturn : ∀ i c c', I i c → i ≤ seqNum → notifyTurn i c = some (i + 1, c') → I (i + 1) c')
    (h : I i c) (hturns : 2 ^ 32 ≤ turns) :
    ∃ j c', notifyLoop turns seqNum (some (i, c)) = some (some (j, c')) ∧ I j c' ∧ seqNum < j := by
  have hlast : ∀ j : UInt32, j ≤ seqNum → j ≠ 0xffffffff := by
    rintro j hle rfl
    apply hmax
    exact UInt32.le_antisymm (UInt32.le_iff_toNat_le.2 (Nat.le_of_lt_succ seqNum.toNat_lt)) hle
  have hmeasure : ((some (i, c)).elim 0 fun p => seqNum.toNat + 1 - p.1.toNat) ≤ turns := by
    have hlt := seqNum.toNat_lt
    change seqNum.toNat + 1 - i.toNat ≤ turns
    omega
  have hkeep : ∀ s, (∃ j c, s = some (j, c) ∧ I j c) →
      (s.any fun p => decide (p.1 ≤ seqNum)) = true →
      ∃ t, some (s.bind fun p => notifyTurn p.1 p.2) = some t ∧ (∃ j c, t = some (j, c) ∧ I j c) ∧
        (t.elim 0 fun p => seqNum.toNat + 1 - p.1.toNat) <
          s.elim 0 fun p => seqNum.toNat + 1 - p.1.toNat := by
    rintro _ ⟨j, c, rfl, hI⟩ hcond
    have hle : j ≤ seqNum := by simpa using hcond
    obtain ⟨c', hc', -⟩ := notifyTurn_eq (hsize j c hI) j
    have hnat := UInt32.le_iff_toNat_le.1 hle
    have hadd := toNat_add_one (hlast j hle)
    refine ⟨some (j + 1, c'), by simp [hc'], ⟨j + 1, c', rfl, hturn j c c' hI hle hc'⟩, ?_⟩
    change seqNum.toNat + 1 - (j + 1).toNat < seqNum.toNat + 1 - j.toNat
    omega
  obtain ⟨s, hs, ⟨j, c', rfl, hI⟩, hend⟩ :=
    whileLoop_of_measure _ _ hkeep ⟨i, c, rfl, h⟩ hmeasure
  exact ⟨j, c', hs, hI, by simpa using hend⟩

/-- What a call does: the loop, then the bit of the number received. -/
theorem notifyReceived_spec (hmax : seqNum ≠ 0xffffffff) (I : UInt32 → PacketLossCounter → Prop)
    (hsize : ∀ i c, I i c → c.bitMapSize ≠ 0)
    (hturn : ∀ i c c', I i c → i ≤ seqNum → notifyTurn i c = some (i + 1, c') → I (i + 1) c')
    (h : I (c.lastMaxSeqNum + 1) c) (hturns : 2 ^ 32 ≤ turns) :
    ∃ j d c', notifyReceived turns c seqNum = some (some c') ∧ I j d ∧ seqNum < j ∧
      c'.lost = d.lost ∧ c'.bitMapSize = d.bitMapSize ∧
      c'.lastMaxSeqNum = (if seqNum > d.lastMaxSeqNum then seqNum else d.lastMaxSeqNum) ∧
      ∀ k, c'.bit k = if k = seqNum.toNat % d.window then true else d.bit k := by
  obtain ⟨j, d, hloop, hI, hlt⟩ := notifyLoop_spec hmax I hsize hturn h hturns
  obtain ⟨e, hset, hlost, hsize, hlast, hbits⟩ := setBit_eq (hsize j d hI) seqNum true
  refine ⟨j, d, if seqNum > e.lastMaxSeqNum then { e with lastMaxSeqNum := seqNum } else e, ?_, hI,
    hlt, ?_, ?_, ?_, fun k => ?_⟩
  · simp [notifyReceived, hloop, hset]
  · split <;> exact hlost
  · split <;> exact hsize
  · rw [← hlast]
    split <;> rfl
  · rw [← hbits k]
    split <;> rfl

theorem notifyReceived_fault (h : c.bitMapSize = 0) (seqNum : UInt32) :
    notifyReceived 1 c seqNum = some none := by
  have hturn : notifyTurn (c.lastMaxSeqNum + 1) c = none := by
    simp [notifyTurn, getBit_eq_none h]
  rw [notifyReceived, notifyLoop, whileLoop]
  split
  · simp [hturn, whileLoop]
  · simp [setBit_eq_none h]

/-- Every 32-bit number is at most the greatest one, so the loop that is to reach it never ends. -/
theorem notifyReceived_max (h : c.bitMapSize ≠ 0) (turns : ℕ) :
    notifyReceived turns c 0xffffffff = none := by
  have hloop : notifyLoop turns 0xffffffff (some (c.lastMaxSeqNum + 1, c)) = none := by
    apply whileLoop_eq_none (fun s => ∃ i d, s = some (i, d) ∧ d.bitMapSize ≠ 0)
    · rintro _ t ⟨i, d, rfl, hd⟩ ht
      obtain ⟨d', hd', -, hsize, -⟩ := notifyTurn_eq hd i
      refine ⟨i + 1, d', ?_, hsize ▸ hd⟩
      simpa [hd'] using ht.symm
    · rintro _ ⟨i, d, rfl, -⟩
      have hle : i ≤ 0xffffffff := UInt32.le_iff_toNat_le.2 (Nat.le_of_lt_succ i.toNat_lt)
      simpa using hle
    · exact ⟨_, c, rfl, h⟩
  rw [notifyReceived, hloop]
  rfl

theorem notifyReceived_of_ne (h : c.bitMapSize ≠ 0) (hmax : seqNum ≠ 0xffffffff)
    (hturns : 2 ^ 32 ≤ turns) :
    ∃ c', notifyReceived turns c seqNum = some (some c') ∧ c'.bitMapSize ≠ 0 := by
  have hturn : ∀ (i : UInt32) (d d' : PacketLossCounter), d.bitMapSize ≠ 0 → i ≤ seqNum →
      notifyTurn i d = some (i + 1, d') → d'.bitMapSize ≠ 0 := by
    intro i d d' hd _ hd'
    obtain ⟨e, he, -, hsize, -⟩ := notifyTurn_eq hd i
    rw [hd'] at he
    obtain rfl : d' = e := by simpa using he
    exact hsize ▸ hd
  obtain ⟨j, d, c', hc', hd, -, -, hsize, -⟩ := notifyReceived_spec hmax
    (fun _ d => d.bitMapSize ≠ 0) (fun _ _ hd => hd) hturn h hturns
  exact ⟨c', hc', hsize ▸ hd⟩

/-! ### The history that the bits hold -/

/-- The counter has walked to `N`, and `l` has arrived: the numbers that fell out of the window
unmarked are counted, and the bits tell which of the others are marked.  Number 0 and the numbers
before it count as marked. -/
structure Tracks (l : List ℕ) (N : ℕ) (c : PacketLossCounter) : Prop where
  size : c.bitMapSize ≠ 0
  lost : c.lost.toNat = Nat.count (fun s => s ≠ 0 ∧ ¬ Marked c.window l s) (N + 1 - c.window)
  bits : ∀ s ≤ N, N < s + c.window → c.bit (s % c.window) = decide (s = 0 ∨ Marked c.window l s)
  fresh : ∀ k, N < k → k < c.window → c.bit k = true

theorem window_eq (h : c'.bitMapSize = c.bitMapSize) : c'.window = c.window := by
  rw [window, window, h]

theorem mod_ne_of_lt {s : ℕ} (hle : s ≤ N) (hlt : N + 1 < s + W) : s % W ≠ (N + 1) % W := by
  intro heq
  have hdvd : W ∣ N + 1 - s := (Nat.modEq_iff_dvd' (by omega)).1 heq
  have := Nat.le_of_dvd (by omega) hdvd
  omega

/-- One turn of the loop. -/
theorem Tracks.turn (h : Tracks l N c) (hl : ∀ x ∈ l, x ≤ N) (hi : i.toNat = N + 1)
    (hc' : notifyTurn i c = some (i + 1, c')) :
    Tracks l (N + 1) c' ∧ c'.window = c.window ∧ c'.lastMaxSeqNum = c.lastMaxSeqNum := by
  obtain ⟨d, hd, hlost, hsize, hlast, hbits⟩ := notifyTurn_eq h.size i
  obtain rfl : c' = d := by simpa [hc'] using hd
  have hW := window_pos h.size
  have hw : c'.window = c.window := window_eq hsize
  rw [hi] at hlost hbits
  refine ⟨⟨hsize ▸ h.size, ?_, ?_, ?_⟩, hw, hlast⟩
  · rw [hw, hlost]
    by_cases hfull : N + 1 < c.window
    · have hmod : (N + 1) % c.window = N + 1 := Nat.mod_eq_of_lt hfull
      rw [hmod, h.fresh _ (Nat.lt_succ_self N) hfull, if_pos rfl, h.lost]
      congr 1
      omega
    · -- the number that leaves the window has the bit of the one that enters it
      have hnext : N + 1 + 1 - c.window = (N + 1 - c.window) + 1 := by omega
      have hmod : (N + 1) % c.window = (N + 1 - c.window) % c.window :=
        Nat.mod_eq_sub_mod (by omega)
      have hcount : c.lost.toNat ≤ N + 1 - c.window := h.lost ▸ Nat.count_le _
      have hlt : i.toNat < 2 ^ 32 := i.toNat_lt
      rw [hnext, Nat.count_succ, hmod, h.bits _ (by omega) (by omega), ← h.lost]
      by_cases hs : N + 1 - c.window = 0 ∨ Marked c.window l (N + 1 - c.window)
      · rw [if_pos (decide_eq_true hs), if_neg (by tauto), Nat.add_zero]
      · rw [if_neg (by simpa using hs), if_pos (by tauto), UInt32.toNat_add, UInt32.toNat_one,
          Nat.mod_eq_of_lt (by omega)]
  · intro s hs hlt
    rw [hw] at hlt ⊢
    rw [hbits]
    by_cases heq : s = N + 1
    · subst heq
      have hnot : ¬ Marked c.window l (N + 1) := not_marked_of_lt fun x hx =>
        Nat.lt_succ_of_le (hl x hx)
      simp [hnot]
    · have hle : s ≤ N := by omega
      simp [mod_ne_of_lt hle hlt, h.bits s hle (by omega)]
  · intro k hk hlt
    rw [hw] at hlt
    have hmod : (N + 1) % c.window = N + 1 := Nat.mod_eq_of_lt (by omega)
    rw [hbits, hmod, h.fresh k (by omega) hlt]
    simpa using by omega

/-- The bit that is set after the loop. -/
theorem Tracks.arrive {y : ℕ} (h : Tracks l N c) (hl : ∀ x ∈ l, x ≤ N) (hy : y ≤ N)
    (hN : N = 0 ∨ N ∈ l ++ [y]) (hlost : c'.lost = c.lost) (hsize : c'.bitMapSize = c.bitMapSize)
    (hbits : ∀ k, c'.bit k = if k = y % c.window then true else c.bit k) :
    Tracks (l ++ [y]) N c' := by
  have hw : c'.window = c.window := window_eq hsize
  have hall : ∀ x ∈ l ++ [y], x ≤ N := by
    simpa [or_imp, forall_and] using ⟨hl, hy⟩
  have hreach : ∀ n ≤ N, ∃ x ∈ l ++ [y], n ≤ x := by
    intro n hn
    rcases hN with rfl | hN
    · exact ⟨y, by simp, by omega⟩
    · exact ⟨N, hN, hn⟩
  refine ⟨hsize ▸ h.size, ?_, ?_, ?_⟩
  · rw [hlost, h.lost, hw, Nat.count_eq_card_filter_range, Nat.count_eq_card_filter_range]
    congr 1
    apply Finset.filter_congr
    intro s hs
    rw [Finset.mem_range] at hs
    rw [marked_append_of_le (hreach (s + c.window) (by omega))]
  · intro s hs hlt
    rw [hw] at hlt ⊢
    have hmark := marked_append (fun x hx => Nat.lt_of_le_of_lt (hall x hx) hlt) (hreach s hs)
    rw [hbits, h.bits s hs hlt]
    split
    · rename_i heq
      exact (decide_eq_true (Or.inr (hmark.2 (Or.inr heq.symm)))).symm
    · rename_i hne
      simp [hmark, Ne.symm hne]
  · intro k hk hlt
    rw [hw] at hlt
    rw [hbits, h.fresh k hk hlt, ite_self]

/-- The greatest number that has arrived. -/
def greatest (l : List ℕ) : ℕ := l.foldl max 0

theorem greatest_append (l : List ℕ) (y : ℕ) : greatest (l ++ [y]) = max (greatest l) y := by
  simp [greatest]

theorem greatest_spec (l : List ℕ) :
    (∀ x ∈ l, x ≤ greatest l) ∧ (greatest l = 0 ∨ greatest l ∈ l) := by
  induction l using List.reverseRecOn with
  | nil => simp [greatest]
  | append_singleton l y ih =>
    rw [greatest_append]
    refine ⟨fun x hx => ?_, ?_⟩
    · rcases List.mem_append.1 hx with hx | hx
      · exact (ih.1 x hx).trans (le_max_left ..)
      · rw [List.mem_singleton.1 hx]
        exact le_max_right ..
    · rcases le_total (greatest l) y with hle | hle
      · rw [max_eq_right hle]
        simp
      · rw [max_eq_left hle]
        exact ih.2.imp_right (List.mem_append_left _)

/-- The counter after the arrivals. -/
structure Shows (l : List ℕ) (c : PacketLossCounter) : Prop where
  tracks : Tracks l (greatest l) c
  last : c.lastMaxSeqNum.toNat = greatest l
  bounded : greatest l < 0xffffffff

theorem Shows.receive (h : Shows l c) (hmax : seqNum ≠ 0xffffffff) (hturns : 2 ^ 32 ≤ turns) :
    ∃ c', notifyReceived turns c seqNum = some (some c') ∧ Shows (l ++ [seqNum.toNat]) c' ∧
      c'.window = c.window := by
  have hne : seqNum.toNat ≠ 0xffffffff := fun h' => hmax (UInt32.toNat_inj.1 h')
  have hlt := seqNum.toNat_lt
  have hl := (greatest_spec l).1
  let I : UInt32 → PacketLossCounter → Prop := fun i d => ∃ N, i.toNat = N + 1 ∧ Tracks l N d ∧
    greatest l ≤ N ∧ N ≤ max (greatest l) seqNum.toNat ∧ d.lastMaxSeqNum = c.lastMaxSeqNum ∧
    d.window = c.window
  have hstart : I (c.lastMaxSeqNum + 1) c := by
    have hlast : c.lastMaxSeqNum ≠ 0xffffffff := by
      intro heq
      have hb := h.bounded
      rw [← h.last, heq] at hb
      exact absurd hb (by decide)
    refine ⟨greatest l, ?_, h.tracks, le_rfl, le_max_left .., rfl, rfl⟩
    rw [toNat_add_one hlast, h.last]
  have hturn : ∀ i d d', I i d → i ≤ seqNum → notifyTurn i d = some (i + 1, d') → I (i + 1) d' := by
    rintro i d d' ⟨N, hi, hd, hge, hle, hlast, hw⟩ hseq hd'
    have hile := UInt32.le_iff_toNat_le.1 hseq
    obtain ⟨ht, hw', hlast'⟩ := hd.turn (fun x hx => (hl x hx).trans hge) hi hd'
    refine ⟨N + 1, ?_, ht, by omega, le_max_of_le_right (by omega), hlast'.trans hlast,
      hw'.trans hw⟩
    rw [toNat_add_one, hi]
    rintro rfl
    have : (0xffffffff : UInt32).toNat = 0xffffffff := rfl
    omega
  obtain ⟨j, d, c', hc', ⟨N, hj, hd, hge, hle, hlast, hw⟩, hgt, hlost, hsize, hnew, hbits⟩ :=
    notifyReceived_spec hmax I (fun _ _ ⟨_, _, hd, _⟩ => hd.size) hturn hstart hturns
  have hgt' := UInt32.lt_iff_toNat_lt.1 hgt
  have hN : N = greatest (l ++ [seqNum.toNat]) := by
    rw [greatest_append]
    exact le_antisymm hle (max_le hge (by omega))
  refine ⟨c', hc', ⟨?_, ?_, ?_⟩, (window_eq hsize).trans hw⟩
  · rw [← hN]
    exact hd.arrive (fun x hx => (hl x hx).trans hge) (by omega)
      (hN ▸ (greatest_spec (l ++ [seqNum.toNat])).2) hlost hsize hbits
  · have hmaxlast := h.last
    rw [hnew, hlast, greatest_append, ← hmaxlast]
    split
    · rename_i hif
      have := UInt32.lt_iff_toNat_lt.1 hif
      omega
    · rename_i hif
      have := UInt32.not_lt.1 hif
      have := UInt32.le_iff_toNat_le.1 this
      omega
  · have := h.bounded
    rw [greatest_append]
    omega

theorem notifyAll_spec (h : Shows l c) (arrivals : List UInt32)
    (hmax : ∀ s ∈ arrivals, s ≠ 0xffffffff) (hturns : 2 ^ 32 ≤ turns) :
    ∃ c', notifyAll turns c arrivals = some (some c') ∧
      Shows (l ++ arrivals.map UInt32.toNat) c' ∧ c'.window = c.window := by
  induction arrivals generalizing l c with
  | nil => exact ⟨c, rfl, by simpa using h, rfl⟩
  | cons s arrivals ih =>
    obtain ⟨hs, hrest⟩ := List.forall_mem_cons.1 hmax
    obtain ⟨d, hd, hshows, hw⟩ := h.receive hs hturns
    obtain ⟨c', hc', hshows', hw'⟩ := ih hshows hrest
    refine ⟨c', by simp [notifyAll, hd, hc'], ?_, hw'.trans hw⟩
    simpa using hshows'

/-! ### Termination -/

theorem notifyReceived_mono {r : Option PacketLossCounter} {turns' : ℕ}
    (h : notifyReceived turns c seqNum = some r) (hle : turns ≤ turns') :
    notifyReceived turns' c seqNum = some r := by
  obtain ⟨s, hs, hr⟩ := Option.map_eq_some_iff.1 h
  rw [notifyReceived, notifyLoop, whileLoop_mono hs hle, Option.map_some, hr]

theorem notifyAll_mono {r : Option PacketLossCounter} {turns' : ℕ} {arrivals : List UInt32}
    (h : notifyAll turns c arrivals = some r) (hle : turns ≤ turns') :
    notifyAll turns' c arrivals = some r := by
  induction arrivals generalizing c with
  | nil => exact h
  | cons s arrivals ih =>
    rw [notifyAll] at h ⊢
    obtain ⟨d, hd, hr⟩ := Option.bind_eq_some_iff.1 h
    rw [notifyReceived_mono hd hle, Option.bind_some]
    cases d with
    | none => exact hr
    | some d => exact ih hr

theorem notifyReceived_unique {r r' : Option PacketLossCounter} {turns' : ℕ}
    (h : notifyReceived turns c seqNum = some r) (h' : notifyReceived turns' c seqNum = some r') :
    r = r' := by
  rcases le_total turns turns' with hle | hle
  · exact Option.some.inj ((notifyReceived_mono h hle).symm.trans h')
  · exact Option.some.inj (h.symm.trans (notifyReceived_mono h' hle))

theorem notifyAll_unique {r r' : Option PacketLossCounter} {turns' : ℕ} {arrivals : List UInt32}
    (h : notifyAll turns c arrivals = some r) (h' : notifyAll turns' c arrivals = some r') :
    r = r' := by
  rcases le_total turns turns' with hle | hle
  · exact Option.some.inj ((notifyAll_mono h hle).symm.trans h')
  · exact Option.some.inj (h.symm.trans (notifyAll_mono h' hle))

/-- A run in which the greatest number of the type arrives does not end. -/
theorem notifyAll_max (h : c.bitMapSize ≠ 0) {arrivals : List UInt32}
    (hmax : 0xffffffff ∈ arrivals) (turns : ℕ) : notifyAll turns c arrivals = none := by
  induction arrivals generalizing c with
  | nil => exact absurd hmax List.not_mem_nil
  | cons s arrivals ih =>
    rw [notifyAll]
    by_cases hs : s = 0xffffffff
    · rw [hs, notifyReceived_max h]
      rfl
    · obtain ⟨c', hc', hsize⟩ := notifyReceived_of_ne h hs le_rfl
      cases hr : notifyReceived turns c s with
      | none => rfl
      | some r =>
        obtain rfl := notifyReceived_unique hc' hr
        exact ih hsize ((List.mem_cons.1 hmax).resolve_left (Ne.symm hs))

theorem notifyAll_of_ne (h : c.bitMapSize ≠ 0) {arrivals : List UInt32}
    (hmax : ∀ s ∈ arrivals, s ≠ 0xffffffff) (hturns : 2 ^ 32 ≤ turns) :
    ∃ c', notifyAll turns c arrivals = some (some c') := by
  induction arrivals generalizing c with
  | nil => exact ⟨c, rfl⟩
  | cons s arrivals ih =>
    obtain ⟨hs, hrest⟩ := List.forall_mem_cons.1 hmax
    obtain ⟨d, hd, hsize⟩ := notifyReceived_of_ne h hs hturns
    obtain ⟨c', hc'⟩ := ih hsize hrest
    exact ⟨c', by simp [notifyAll, hd, hc']⟩

/-- A call ends unless it is for the greatest number of the type; where the bitmap is empty it
faults instead.  A run of calls ends where each of them does. -/
theorem notifyReceived_terminates_iff (c : PacketLossCounter) (seqNum : UInt32)
    (arrivals : List UInt32) :
    ((∃ turns c', notifyReceived turns c seqNum = some (some c')) ↔
      seqNum ≠ 0xffffffff ∧ c.bitMapSize ≠ 0) ∧
    ((∃ turns, notifyReceived turns c seqNum ≠ none) ↔
      seqNum ≠ 0xffffffff ∨ c.bitMapSize = 0) ∧
    ((∃ turns, notifyAll turns c arrivals ≠ none) ↔
      (∀ s ∈ arrivals, s ≠ 0xffffffff) ∨ c.bitMapSize = 0) := by
  by_cases hsize : c.bitMapSize = 0
  · have hfault : ∀ s, notifyReceived 1 c s = some none := notifyReceived_fault hsize
    refine ⟨⟨?_, fun h => absurd hsize h.2⟩, ⟨fun _ => Or.inr hsize, fun _ => ⟨1, ?_⟩⟩,
      ⟨fun _ => Or.inr hsize, fun _ => ⟨1, ?_⟩⟩⟩
    · rintro ⟨turns, c', hc'⟩
      exact absurd (notifyReceived_unique hc' (hfault seqNum)) (by simp)
    · simp [hfault]
    · cases arrivals <;> simp [notifyAll, hfault]
  · refine ⟨⟨?_, fun h => ?_⟩, ⟨?_, fun h => ?_⟩, ⟨?_, fun h => ?_⟩⟩
    · rintro ⟨turns, c', hc'⟩
      refine ⟨?_, hsize⟩
      rintro rfl
      simp [notifyReceived_max hsize] at hc'
    · obtain ⟨c', hc', -⟩ := notifyReceived_of_ne hsize h.1 le_rfl
      exact ⟨_, c', hc'⟩
    · rintro ⟨turns, hturns⟩
      left
      rintro rfl
      exact hturns (notifyReceived_max hsize turns)
    · obtain ⟨c', hc', -⟩ := notifyReceived_of_ne hsize (h.resolve_right hsize) le_rfl
      exact ⟨2 ^ 32, hc' ▸ Option.some_ne_none _⟩
    · rintro ⟨turns, hturns⟩
      left
      rintro s hs rfl
      exact hturns (notifyAll_max hsize hs turns)
    · obtain ⟨c', hc'⟩ := notifyAll_of_ne hsize (h.resolve_right hsize) le_rfl
      exact ⟨2 ^ 32, hc' ▸ Option.some_ne_none _⟩

/-- A counter with a window of 8 does not return from a call for the greatest number. -/
theorem hangs : ∃ c, create 8 = some c ∧ ∀ turns, notifyReceived turns c 0xffffffff = none := by
  refine ⟨_, rfl, notifyReceived_max ?_⟩
  decide

/-! ### The count -/

/-- The counter before the first packet, its window set by the constructor or later. -/
def Started (winSize : UInt16) (c : PacketLossCounter) : Prop :=
  (∃ size : UInt8, size.toUInt16 = winSize ∧ create size = some c) ∨
    ∃ size d, create size = some d ∧ d.setBitMapSize winSize = some c

theorem setBitMapSize_spec {winSize : UInt16} (h : c.setBitMapSize winSize = some c') :
    c'.lost = c.lost ∧ c'.lastMaxSeqNum = c.lastMaxSeqNum ∧ c'.window = winSize.toNat ∧
      ∀ k < c'.window, c'.bit k = true := by
  rw [setBitMapSize] at h
  split at h
  · rename_i hmod
    cases h
    have hnat : winSize.toNat % 8 = 0 := congrArg UInt16.toNat hmod
    refine ⟨rfl, rfl, ?_, fun k hk => Bitmap.bitAt_replicate hk⟩
    change (winSize / 8).toNat * 8 = winSize.toNat
    rw [UInt16.toNat_div]
    change winSize.toNat / 8 * 8 = winSize.toNat
    omega
  · exact absurd h (by simp)

theorem Started.spec {winSize : UInt16} (h : Started winSize c) :
    c.lost = 0 ∧ c.lastMaxSeqNum = 0 ∧ c.window = winSize.toNat ∧
      ∀ k < c.window, c.bit k = true := by
  rcases h with ⟨size, rfl, hc⟩ | ⟨size, d, hd, hc⟩
  · exact setBitMapSize_spec hc
  · obtain ⟨hlost, hlast, hw, hbits⟩ := setBitMapSize_spec hc
    obtain ⟨hlost', hlast', -⟩ := setBitMapSize_spec hd
    exact ⟨hlost.trans hlost', hlast.trans hlast', hw, hbits⟩

theorem Started.shows {winSize : UInt16} (h : Started winSize c) (hne : c.bitMapSize ≠ 0) :
    Shows [] c := by
  obtain ⟨hlost, hlast, -, hbits⟩ := h.spec
  have hW := window_pos hne
  refine ⟨⟨hne, ?_, ?_, fun k _ hk => hbits k hk⟩, ?_, by decide⟩
  · have hzero : greatest [] + 1 - c.window = 0 := by
      change 0 + 1 - c.window = 0
      omega
    rw [hlost, hzero]
    rfl
  · intro s hs _
    obtain rfl : s = 0 := Nat.le_zero.1 hs
    simpa using hbits (0 % c.window) (Nat.mod_lt _ hW)
  · rw [hlast]
    rfl

/-- What the counter counts is what is lost, unless the window held a lost number as received. -/
theorem count_eq_iff (l : List ℕ) (hW : 0 < W) :
    Nat.count (fun s => s ≠ 0 ∧ ¬ Marked W l s) (greatest l + 1 - W) =
        Nat.count (Lost W l) (greatest l + 1) ↔
      ∀ s, Lost W l s → s ≠ 0 ∧ ¬ Marked W l s := by
  obtain ⟨hle, hmem⟩ := greatest_spec l
  rw [Nat.count_eq_card_filter_range, Nat.count_eq_card_filter_range]
  have hsub : ({s ∈ Finset.range (greatest l + 1 - W) | s ≠ 0 ∧ ¬ Marked W l s} : Finset ℕ) ⊆
      ({s ∈ Finset.range (greatest l + 1) | Lost W l s} : Finset ℕ) := by
    intro s hs
    rw [Finset.mem_filter, Finset.mem_range] at hs ⊢
    have hin : greatest l ∈ l := hmem.resolve_left (by omega)
    refine ⟨by omega, ⟨greatest l, hin, by omega⟩, fun htake => hs.2.2 (marked_of_mem htake)⟩
  constructor
  · intro hcard s hs
    have heq := Finset.eq_of_subset_of_card_le hsub hcard.ge
    obtain ⟨x, hx, hsx⟩ := hs.1
    have hin : s ∈ ({s ∈ Finset.range (greatest l + 1) | Lost W l s} : Finset ℕ) := by
      rw [Finset.mem_filter, Finset.mem_range]
      have := hle x hx
      exact ⟨by omega, hs⟩
    rw [← heq, Finset.mem_filter] at hin
    exact hin.2
  · intro hall
    congr 1
    apply Finset.Subset.antisymm hsub
    intro s hs
    rw [Finset.mem_filter, Finset.mem_range] at hs ⊢
    obtain ⟨x, hx, hsx⟩ := hs.2.1
    have := hle x hx
    exact ⟨by omega, hall s hs.2⟩

/-- `GetLost` is the number of lost packets exactly where nothing faults or hangs and the window
held none of them as received: number 0 is never counted, and a packet that arrives late or early
sets the bit of every number congruent to it. -/
theorem getLost_eq_iff {winSize : UInt16} (h : Started winSize c) (arrivals : List UInt32) :
    (∃ turns c', notifyAll turns c arrivals = some (some c') ∧
      c'.getLost.toNat = Nat.count (Lost winSize.toNat (arrivals.map UInt32.toNat))
        (greatest (arrivals.map UInt32.toNat) + 1)) ↔
    (arrivals = [] ∨ winSize ≠ 0) ∧ (∀ s ∈ arrivals, s ≠ 0xffffffff) ∧
      ∀ s, Lost winSize.toNat (arrivals.map UInt32.toNat) s →
        s ≠ 0 ∧ ¬ Marked winSize.toNat (arrivals.map UInt32.toNat) s := by
  obtain ⟨hlost, -, hw, -⟩ := h.spec
  by_cases hsize : c.bitMapSize = 0
  · have hzero : winSize = 0 := UInt16.toNat_inj.1 (hw.symm.trans (window_eq_zero hsize))
    cases arrivals with
    | nil =>
      have hnone : ∀ s, ¬ Lost winSize.toNat [] s := fun s hs => by simp [Lost] at hs
      refine ⟨fun _ => ⟨Or.inl rfl, by simp, fun s hs => absurd hs (hnone s)⟩,
        fun _ => ⟨0, c, rfl, ?_⟩⟩
      simp [getLost, hlost, Nat.count_succ, greatest, hnone]
    | cons s arrivals =>
      refine ⟨?_, fun hcond => absurd hzero (hcond.1.resolve_left (by simp))⟩
      rintro ⟨turns, c', hc', -⟩
      have hfault : notifyAll 1 c (s :: arrivals) = some none := by
        simp [notifyAll, notifyReceived_fault hsize]
      exact absurd (notifyAll_unique hc' hfault) (by simp)
  · have hne : winSize ≠ 0 := by
      rintro rfl
      exact absurd hw (window_pos hsize).ne'
    by_cases hmax : ∀ s ∈ arrivals, s ≠ 0xffffffff
    · obtain ⟨d, hd, hshows, hw'⟩ := notifyAll_spec (h.shows hsize) arrivals hmax le_rfl
      have hcount := hshows.tracks.lost
      rw [List.nil_append, hw', hw] at hcount
      have hiff := count_eq_iff (arrivals.map UInt32.toNat) (hw ▸ window_pos hsize)
      rw [← hcount] at hiff
      rw [← hiff]
      refine ⟨?_, fun hcond => ⟨_, d, hd, hcond.2.2⟩⟩
      rintro ⟨turns, c', hc', heq⟩
      obtain rfl := Option.some.inj (notifyAll_unique hc' hd)
      exact ⟨Or.inr hne, hmax, heq⟩
    · refine ⟨?_, fun hcond => absurd hcond.2.1 hmax⟩
      rintro ⟨turns, c', hc', -⟩
      push Not at hmax
      obtain ⟨s, hs, rfl⟩ := hmax
      simp [notifyAll_max hsize hs] at hc'

theorem getLost_eq_iff_create : ∃ c, create 8 = some c ∧
    ((∃ turns c', notifyAll turns c [0, 9] = some (some c') ∧
      c'.getLost.toNat = Nat.count (Lost 8 [0, 9]) (greatest [0, 9] + 1)) ↔
    (([0, 9] : List UInt32) = [] ∨ (8 : UInt16) ≠ 0) ∧ (∀ s ∈ [0, 9], s ≠ (0xffffffff : UInt32)) ∧
      ∀ s, Lost 8 [0, 9] s → s ≠ 0 ∧ ¬ Marked 8 [0, 9] s) :=
  ⟨_, rfl, getLost_eq_iff (Or.inl ⟨8, rfl, rfl⟩) [0, 9]⟩

/-- Packets 1 to 9 are lost, but packet 1 arrives late and sets the bit of packet 9. -/
theorem late_packet_hides_a_loss : ∃ c, Started 8 c ∧
    (∃ turns c', notifyAll turns c [0, 10, 1, 17] = some (some c')) ∧
    ∀ turns c', notifyAll turns c [0, 10, 1, 17] = some (some c') →
      c'.getLost = 8 ∧ Nat.count (Lost 8 [0, 10, 1, 17]) (greatest [0, 10, 1, 17] + 1) = 9 := by
  obtain ⟨c, hc⟩ : ∃ c, create 8 = some c := ⟨_, rfl⟩
  have hrun : ∃ d, (create 8).bind (fun c => (notifyAll 18 c [0, 10, 1, 17])) = some (some d) ∧
      d.getLost = 8 := ⟨_, rfl, rfl⟩
  obtain ⟨d, hd, hlost⟩ := hrun
  rw [hc, Option.bind_some] at hd
  refine ⟨c, Or.inl ⟨8, rfl, hc⟩, ⟨18, d, hd⟩, fun turns c' hc' => ⟨?_, by decide⟩⟩
  obtain rfl := Option.some.inj (notifyAll_unique hc' hd)
  exact hlost

end PacketLossCounter

end SeanetSim
