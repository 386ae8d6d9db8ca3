import Mathlib.Logic.Function.Basic
import SeanetSim.Lib.Run

/-!
# The scoreboard of a Block Ack agreement

`BlockAckCache` has a slot for each of the 4096 sequence numbers and clears those that come into the
window whenever it moves.  `FillBlockAckBitmap` copies the slots of a window to the bitmap of a
Block Ack.  There `SetReceivedPacket` shifts a 64-bit number by up to 255 places, which is only
defined below 64, so the shift is a parameter.
-/

namespace SeanetSim

/-- How far a sequence number is ahead of another one. -/
def sequenceDistance (start seq : ℕ) : ℕ := (seq + 4096 - start) % 4096

def qosUtilsIsOldPacket (startingSeq seqNumber : ℕ) : Bool :=
  2048 ≤ sequenceDistance startingSeq seqNumber

def isInWindow (seq winstart winsize : ℕ) : Bool := sequenceDistance winstart seq < winsize

theorem qosUtilsIsOldPacket_iff {startingSeq seqNumber : ℕ} :
    qosUtilsIsOldPacket startingSeq seqNumber ↔ 2048 ≤ sequenceDistance startingSeq seqNumber :=
  decide_eq_true_iff

theorem isInWindow_iff {seq winstart winsize : ℕ} :
    isInWindow seq winstart winsize ↔ sequenceDistance winstart seq < winsize :=
  decide_eq_true_iff

section Distances

variable {a b c k : ℕ}

theorem sequenceDistance_lt (a b : ℕ) : sequenceDistance a b < 4096 := Nat.mod_lt _ (by decide)

theorem sequenceDistance_cases (ha : a < 4096) (hb : b < 4096) :
    a ≤ b ∧ sequenceDistance a b = b - a ∨ b < a ∧ sequenceDistance a b = b + 4096 - a := by
  unfold sequenceDistance
  rcases le_or_gt a b with hle | hlt
  · have hwrap : b + 4096 - a = b - a + 4096 := by omega
    rw [hwrap, Nat.add_mod_right, Nat.mod_eq_of_lt (by omega)]
    exact Or.inl ⟨hle, rfl⟩
  · rw [Nat.mod_eq_of_lt (by omega)]
    exact Or.inr ⟨hlt, rfl⟩

theorem sequenceDistance_trans (ha : a < 4096) (hb : b < 4096) (hc : c < 4096) :
    sequenceDistance a c = (sequenceDistance a b + sequenceDistance b c) % 4096 := by
  have hsum : b + 4096 - a + (c + 4096 - b) = c + 4096 - a + 4096 := by omega
  rw [sequenceDistance, sequenceDistance, sequenceDistance, ← Nat.add_mod, hsum, Nat.add_mod_right]

theorem sequenceDistance_add (ha : a < 4096) (hk : k < 4096) :
    sequenceDistance a ((a + k) % 4096) = k := by
  unfold sequenceDistance
  omega

theorem add_sequenceDistance (ha : a < 4096) (hb : b < 4096) :
    (a + sequenceDistance a b) % 4096 = b := by
  unfold sequenceDistance
  omega

theorem sequenceDistance_self (a : ℕ) : sequenceDistance a a = 0 := by
  unfold sequenceDistance
  omega

/-- One step on the way from a number to another one. -/
theorem sequenceDistance_succ (ha : a < 4096) (hb : b < 4096) (hne : a ≠ b) :
    sequenceDistance a b = sequenceDistance ((a + 1) % 4096) b + 1 := by
  have htrans := sequenceDistance_trans ha (Nat.mod_lt (a + 1) (by decide)) hb
  rw [sequenceDistance_add ha (by decide)] at htrans
  have hpos : sequenceDistance a b ≠ 0 := by
    have := sequenceDistance_cases ha hb
    omega
  have := sequenceDistance_lt ((a + 1) % 4096) b
  omega

theorem sequenceDistance_le_iff (ha : a < 4096) (hb : b < 4096) (hc : c < 4096) (hne : a ≠ b) :
    sequenceDistance a c ≤ sequenceDistance a b ↔ c = a ∨
      sequenceDistance ((a + 1) % 4096) c ≤ sequenceDistance ((a + 1) % 4096) b := by
  have hsucc := sequenceDistance_succ ha hb hne
  by_cases hca : c = a
  · rw [hca, sequenceDistance_self a]
    simp
  · have := sequenceDistance_succ ha hc (Ne.symm hca)
    simp only [hca, false_or]
    omega

end Distances

/-! ### The header of a Block Ack -/

inductive BlockAckType
  | basic
  | compressed
  | extendedCompressed
  | multiTid
deriving DecidableEq, Repr

/-- A `CtrlBAckResponseHeader`.  The bitmaps of the types are a union, here of words of 64 bits: the
compressed one is the first word, the extended one the first four. -/
structure BlockAckResponse where
  baType : BlockAckType
  startingSeq : ℕ
  words : ℕ → BitVec 64

namespace BlockAckResponse

variable (shl : BitVec 64 → ℕ → BitVec 64) (h : BlockAckResponse) (seq : ℕ)

/-- A header as `MacLow` prepares it. -/
def init (baType : BlockAckType) (startingSeq : ℕ) : BlockAckResponse :=
  ⟨baType, startingSeq, fun _ => 0⟩

def isInBitmap : Bool :=
  if h.baType == .extendedCompressed then sequenceDistance h.startingSeq seq < 256
  else sequenceDistance h.startingSeq seq < 64

def indexInBitmap : ℕ :=
  if h.startingSeq ≤ seq then seq - h.startingSeq else 4096 - h.startingSeq + seq

/-- The word of a compressed bitmap that has the bit of a sequence number. -/
def wordOf : ℕ :=
  match h.baType with
  | .extendedCompressed => h.indexInBitmap seq / 64
  | _ => 0

/-- `SetReceivedPacket` for the compressed types; the others are not filled. -/
def setReceivedPacket : BlockAckResponse :=
  if !h.isInBitmap seq then h
  else
    { h with
      words := Function.update h.words (h.wordOf seq)
        (h.words (h.wordOf seq) ||| shl 1 (h.indexInBitmap seq)) }

/-- A sequence number is acknowledged: its bit is set. -/
def Marks : Prop :=
  h.isInBitmap seq ∧
    (h.words (h.indexInBitmap seq / 64)).getLsbD (h.indexInBitmap seq % 64) = true

end BlockAckResponse

/-! ### The cache -/

structure BlockAckCache where
  winStart : ℕ
  winSize : ℕ
  winEnd : ℕ
  bitmap : ℕ → BitVec 16

namespace BlockAckCache

variable (c : BlockAckCache)

def init (winStart winSize : ℕ) : BlockAckCache :=
  ⟨winStart, winSize, (winStart + winSize - 1) % 4096, fun _ => 0⟩

/-- The loop of `ResetPortionOfBitmap`, for as many rounds as the second argument says, and the slot
after it. -/
def resetLoop (bitmap : ℕ → BitVec 16) : ℕ → ℕ → ℕ → ℕ → BitVec 16
  | 0, _, _ => bitmap
  | rounds + 1, i, stop =>
    if i != stop then resetLoop (Function.update bitmap i 0) rounds ((i + 1) % 4096) stop
    else Function.update bitmap i 0

def resetPortionOfBitmap (start stop : ℕ) : BlockAckCache :=
  { c with bitmap := resetLoop c.bitmap 4096 start stop }

def setFragment (seqNumber fragmentNumber : ℕ) : BlockAckCache :=
  { c with
    bitmap := Function.update c.bitmap seqNumber
      (c.bitmap seqNumber ||| (1 : BitVec 16) <<< fragmentNumber) }

/-- `UpdateWithMpdu`, with the sequence number and the fragment number of the header. -/
def updateWithMpdu (seqNumber fragmentNumber : ℕ) : BlockAckCache :=
  if !qosUtilsIsOldPacket c.winStart seqNumber then
    if !isInWindow seqNumber c.winStart c.winSize then
      let delta := sequenceDistance c.winEnd seqNumber
      let cleared :=
        if 1 < delta then
          c.resetPortionOfBitmap ((c.winEnd + 1) % 4096) ((seqNumber + 4096 - 1) % 4096)
        else c
      { cleared with
        winStart := (c.winStart + delta) % 4096, winEnd := seqNumber }.setFragment
          seqNumber fragmentNumber
    else c.setFragment seqNumber fragmentNumber
  else c

def updateWithBlockAckReq (startingSeq : ℕ) : BlockAckCache :=
  if !qosUtilsIsOldPacket c.winStart startingSeq then
    let newWinEnd := (startingSeq + c.winSize - 1) % 4096
    if isInWindow startingSeq c.winStart c.winSize then
      if startingSeq != c.winStart then
        { c.resetPortionOfBitmap ((c.winEnd + 1) % 4096) newWinEnd with
          winStart := startingSeq, winEnd := newWinEnd }
      else c
    else
      { c.resetPortionOfBitmap startingSeq newWinEnd with
        winStart := startingSeq, winEnd := newWinEnd }
  else c

/-- The loop of `FillBlockAckBitmap`, for as many rounds as the third argument says, and the slot
after it. -/
def fillLoop (shl : BitVec 64 → ℕ → BitVec 64) (c : BlockAckCache) (h : BlockAckResponse) :
    ℕ → ℕ → ℕ → BlockAckResponse
  | 0, _, _ => h
  | rounds + 1, i, stop =>
    let h' := if c.bitmap i == 1 then h.setReceivedPacket shl i else h
    if i != stop then fillLoop shl c h' rounds ((i + 1) % 4096) stop else h'

/-- `FillBlockAckBitmap`, which is an error for the types that are not compressed. -/
def fillBlockAckBitmap (shl : BitVec 64 → ℕ → BitVec 64) (h : BlockAckResponse) :
    Option BlockAckResponse :=
  match h.baType with
  | .compressed | .extendedCompressed =>
    some (fillLoop shl c h 4096 h.startingSeq ((h.startingSeq + c.winSize - 1) % 4096))
  | _ => none

/-! ### Runs -/

/-- What the cache is updated with. -/
inductive Update
  | mpdu (seqNumber : ℕ)
  | blockAckReq (startingSeq : ℕ)

def update (c : BlockAckCache) : Update → BlockAckCache
  | .mpdu seqNumber => c.updateWithMpdu seqNumber 0
  | .blockAckReq startingSeq => c.updateWithBlockAckReq startingSeq

/-- Sequence numbers have 12 bits. -/
def Update.seq : Update → ℕ
  | .mpdu seqNumber => seqNumber
  | .blockAckReq startingSeq => startingSeq

def Step (c : BlockAckCache) (e : Update) (d : BlockAckCache) : Prop :=
  e.seq < 4096 ∧ d = c.update e

theorem step_update (c : BlockAckCache) (e : Update) (h : e.seq < 4096) : Step c e (c.update e) :=
  ⟨h, rfl⟩

def InWindow (c : BlockAckCache) (n : ℕ) : Prop := n < 4096 ∧ isInWindow n c.winStart c.winSize

/-- An MPDU with the number has come in the run and the number has not left the window since. -/
inductive ReceivedSince : List (BlockAckCache × Update) → BlockAckCache → ℕ → Prop
  | mpdu {trace : List (BlockAckCache × Update)} {c d : BlockAckCache} {n : ℕ}
      (hin : InWindow d n) : ReceivedSince (trace ++ [(c, .mpdu n)]) d n
  | stays {trace : List (BlockAckCache × Update)} {c d : BlockAckCache} {e : Update} {n : ℕ}
      (hbefore : ReceivedSince trace c n) (hin : InWindow d n) :
      ReceivedSince (trace ++ [(c, e)]) d n

variable {c d : BlockAckCache} {e : Update} {n : ℕ} {trace : List (BlockAckCache × Update)}

theorem not_receivedSince_nil : ¬ ReceivedSince [] c n := by
  intro h
  generalize htrace : [] = trace at h
  cases h with
  | mpdu => simp at htrace
  | stays => simp at htrace

theorem receivedSince_snoc : ReceivedSince (trace ++ [(c, e)]) d n ↔
    InWindow d n ∧ (e = .mpdu n ∨ ReceivedSince trace c n) := by
  constructor
  · intro h
    generalize htrace : trace ++ [(c, e)] = trace' at h
    cases h with
    | mpdu hin =>
      obtain ⟨-, hlast⟩ := List.append_inj' htrace rfl
      cases hlast
      exact ⟨hin, .inl rfl⟩
    | stays hbefore hin =>
      obtain ⟨rfl, hlast⟩ := List.append_inj' htrace rfl
      cases hlast
      exact ⟨hin, .inr hbefore⟩
  · rintro ⟨hin, rfl | hbefore⟩
    · exact .mpdu hin
    · exact .stays hbefore hin

/-! ### Clearing -/

theorem resetLoop_apply {bitmap : ℕ → BitVec 16} {rounds i stop : ℕ} (hi : i < 4096)
    (hstop : stop < 4096) (hrounds : sequenceDistance i stop < rounds) (hn : n < 4096) :
    resetLoop bitmap rounds i stop n =
      if sequenceDistance i n ≤ sequenceDistance i stop then 0 else bitmap n := by
  induction rounds generalizing bitmap i with
  | zero => omega
  | succ rounds ih =>
    unfold resetLoop
    by_cases hend : i = stop
    · subst hend
      rw [if_neg (by simp), sequenceDistance_self i]
      by_cases hni : n = i
      · rw [hni, Function.update_self, if_pos (sequenceDistance_self i).le]
      · have := sequenceDistance_cases hi hn
        rw [Function.update_of_ne hni, if_neg (by omega)]
    · have hsucc := sequenceDistance_succ hi hstop hend
      rw [if_pos (by simpa using hend), ih (Nat.mod_lt _ (by decide)) (by omega)]
      by_cases hni : n = i
      · rw [hni, Function.update_self, ite_self, if_pos (by rw [sequenceDistance_self i]; omega)]
      · rw [Function.update_of_ne hni]
        refine if_congr ?_ rfl rfl
        rw [sequenceDistance_le_iff hi hstop hn hend, or_iff_right hni]

/-- What holds of a cache whose agreement is in use. -/
structure Regular (c : BlockAckCache) : Prop where
  size : 1 ≤ c.winSize ∧ c.winSize ≤ 256
  start : c.winStart < 4096
  stop : c.winEnd = (c.winStart + c.winSize - 1) % 4096
  slots : ∀ n, n < 4096 → c.bitmap n = 0 ∨ c.bitmap n = 1

theorem or_one {b : BitVec 16} (h : b = 0 ∨ b = 1) : b ||| (1 : BitVec 16) <<< 0 = 1 := by
  rcases h with rfl | rfl
  · decide
  · decide

theorem inWindow_iff : c.InWindow n ↔ n < 4096 ∧ sequenceDistance c.winStart n < c.winSize :=
  and_congr_right fun _ => isInWindow_iff

/-- What a step makes of the slots of the new window. -/
structure Slides (c : BlockAckCache) (e : Update) (d : BlockAckCache) : Prop where
  regular : d.Regular
  size : d.winSize = c.winSize
  slot : ∀ n, d.InWindow n → (d.bitmap n = 1 ↔ e = .mpdu n ∨ c.InWindow n ∧ c.bitmap n = 1)

theorem setFragment_slot (h : c.Regular) (hn : n < 4096) (m : ℕ) :
    (c.setFragment n 0).bitmap m = if m = n then 1 else c.bitmap m := by
  change Function.update c.bitmap n _ m = _
  rw [Function.update_apply, or_one (h.slots n hn)]

theorem Regular.setFragment (h : c.Regular) (hn : n < 4096) : (c.setFragment n 0).Regular where
  size := h.size
  start := h.start
  stop := h.stop
  slots := by
    intro m hm
    rw [setFragment_slot h hn]
    split
    · exact .inr rfl
    · exact h.slots m hm

/-- The window moves. -/
theorem Regular.move (h : c.Regular) {start stop : ℕ} {bitmap : ℕ → BitVec 16}
    (hstart : start < 4096) (hstop : stop = (start + c.winSize - 1) % 4096)
    (hslots : ∀ n, n < 4096 → bitmap n = 0 ∨ bitmap n = 1) :
    Regular ⟨start, c.winSize, stop, bitmap⟩ :=
  ⟨h.size, hstart, hstop, hslots⟩

theorem reset_slot {first last : ℕ} (hfirst : first < 4096) (hlast : last < 4096) (hn : n < 4096) :
    (c.resetPortionOfBitmap first last).bitmap n =
      if sequenceDistance first n ≤ sequenceDistance first last then 0 else c.bitmap n :=
  resetLoop_apply hfirst hlast (sequenceDistance_lt ..) hn

theorem Regular.reset_slots (h : c.Regular) {first last : ℕ} (hfirst : first < 4096)
    (hlast : last < 4096) (n : ℕ) (hn : n < 4096) :
    (c.resetPortionOfBitmap first last).bitmap n = 0 ∨
      (c.resetPortionOfBitmap first last).bitmap n = 1 := by
  rw [reset_slot hfirst hlast hn]
  split
  · exact .inl rfl
  · exact h.slots n hn

/-- The window moves to a number and the slot of the number is set; `bitmap` has what is left of
the other slots. -/
theorem Slides.of_mpdu (h : c.Regular) (hn : n < 4096) {bitmap : ℕ → BitVec 16}
    (hslots : ∀ m, m < 4096 → bitmap m = 0 ∨ bitmap m = 1) {start stop : ℕ} (hstart : start < 4096)
    (hstop : stop = (start + c.winSize - 1) % 4096)
    (hleft : ∀ m, m < 4096 → m ≠ n → sequenceDistance start m < c.winSize →
      (bitmap m = 1 ↔ c.InWindow m ∧ c.bitmap m = 1)) :
    Slides c (.mpdu n)
      ((⟨start, c.winSize, stop, bitmap⟩ : BlockAckCache).setFragment n 0) := by
  have hreg := h.move hstart hstop hslots
  refine ⟨hreg.setFragment hn, rfl, fun m hm => ?_⟩
  rw [setFragment_slot hreg hn]
  by_cases hmn : m = n
  · simp [hmn]
  · rw [if_neg hmn]
    have hne : (Update.mpdu n : Update) ≠ .mpdu m := fun heq => hmn (Update.mpdu.inj heq).symm
    obtain ⟨hlt, hin⟩ := inWindow_iff.1 hm
    rw [hleft m hlt hmn hin]
    simp [hne]

/-- The number behind the window. -/
theorem Regular.sequenceDistance_first (h : c.Regular) :
    sequenceDistance c.winStart ((c.winEnd + 1) % 4096) = c.winSize := by
  have hpos := h.size.1
  have hsize := h.size.2
  rw [h.stop, Nat.mod_add_mod, Nat.sub_add_cancel (by omega)]
  exact sequenceDistance_add h.start (by omega)

theorem Regular.mpdu (h : c.Regular) (hn : n < 4096) :
    Slides c (.mpdu n) (c.updateWithMpdu n 0) := by
  obtain ⟨⟨hpos, hsize⟩, hstart, hstop, hslots⟩ := id h
  by_cases hold : qosUtilsIsOldPacket c.winStart n = true
  · -- an old packet is not in the window
    simp only [updateWithMpdu, hold, Bool.not_true, Bool.false_eq_true, if_false]
    rw [qosUtilsIsOldPacket_iff] at hold
    refine ⟨h, rfl, fun m hm => ?_⟩
    have hne : (Update.mpdu n : Update) ≠ .mpdu m := by
      rintro ⟨⟩
      have := (inWindow_iff.1 hm).2
      omega
    simp [hne, hm]
  simp only [updateWithMpdu, Bool.eq_false_iff.2 hold, Bool.not_false, if_true]
  rw [qosUtilsIsOldPacket_iff] at hold
  by_cases hwin : isInWindow n c.winStart c.winSize = true
  · simp only [hwin, Bool.not_true, Bool.false_eq_true, if_false]
    refine .of_mpdu h hn hslots hstart hstop fun m hm _ hin => ?_
    rw [inWindow_iff]
    exact (and_iff_right ⟨hm, hin⟩).symm
  simp only [Bool.eq_false_iff.2 hwin, Bool.not_false, if_true]
  rw [isInWindow_iff] at hwin
  have hwinEnd : c.winEnd < 4096 := hstop ▸ Nat.mod_lt _ (by decide)
  have hnew : (c.winStart + sequenceDistance c.winEnd n) % 4096 < 4096 := Nat.mod_lt _ (by decide)
  have hadd := add_sequenceDistance hwinEnd hn
  have hend : n = ((c.winStart + sequenceDistance c.winEnd n) % 4096 + c.winSize - 1) % 4096 := by
    omega
  -- everything is measured from the start of the old window
  have hold' := sequenceDistance_lt c.winStart n
  have hdelta' := sequenceDistance_lt c.winEnd n
  have hlast : sequenceDistance c.winStart c.winEnd = c.winSize - 1 := by
    rw [hstop, Nat.add_sub_assoc hpos]
    exact sequenceDistance_add hstart (by omega)
  have hdist := sequenceDistance_trans hstart hwinEnd hn
  have hmeasure (m : ℕ) (hm : m < 4096)
      (hin : sequenceDistance ((c.winStart + sequenceDistance c.winEnd n) % 4096) m < c.winSize) :
      sequenceDistance c.winStart m = sequenceDistance c.winEnd n +
        sequenceDistance ((c.winStart + sequenceDistance c.winEnd n) % 4096) m := by
    have htrans := sequenceDistance_trans hstart hnew hm
    rw [sequenceDistance_add hstart hdelta'] at htrans
    omega
  by_cases hdelta : 1 < sequenceDistance c.winEnd n
  · -- the window jumps over numbers
    rw [if_pos hdelta]
    have hfirst : (c.winEnd + 1) % 4096 < 4096 := Nat.mod_lt _ (by decide)
    have hbefore : (n + 4096 - 1) % 4096 < 4096 := Nat.mod_lt _ (by decide)
    refine .of_mpdu h hn (h.reset_slots hfirst hbefore) hnew hend fun m hm hmn hin => ?_
    have hfirst' := h.sequenceDistance_first
    have hbefore' : sequenceDistance ((n + 4096 - 1) % 4096) n = 1 := by
      unfold sequenceDistance
      omega
    have hne : sequenceDistance c.winStart m ≠ sequenceDistance c.winStart n := by
      intro heq
      have hm' := add_sequenceDistance hstart hm
      rw [heq, add_sequenceDistance hstart hn] at hm'
      exact hmn hm'.symm
    have hm' := hmeasure m hm hin
    have htoM := sequenceDistance_trans hstart hfirst hm
    have htoBefore := sequenceDistance_trans hstart hfirst hbefore
    have hcleared : sequenceDistance ((c.winEnd + 1) % 4096) ((n + 4096 - 1) % 4096) =
        sequenceDistance c.winStart n - 1 - c.winSize := by
      have htoN := sequenceDistance_trans hstart hbefore hn
      have := sequenceDistance_lt c.winStart ((n + 4096 - 1) % 4096)
      have := sequenceDistance_lt ((c.winEnd + 1) % 4096) ((n + 4096 - 1) % 4096)
      omega
    have := sequenceDistance_lt ((c.winEnd + 1) % 4096) m
    clear hend hadd hstop htoBefore hmeasure
    rw [reset_slot hfirst hbefore hm, inWindow_iff]
    split
    · refine iff_of_false (by decide) fun hboth => ?_
      have := hboth.1.2
      omega
    · refine (and_iff_right ⟨hm, ?_⟩).symm
      omega
  · -- the window moves on by one
    rw [if_neg hdelta]
    refine .of_mpdu h hn hslots hnew hend fun m hm hmn hin => ?_
    have hne : sequenceDistance c.winStart m ≠ sequenceDistance c.winStart n := by
      intro heq
      have hm' := add_sequenceDistance hstart hm
      rw [heq, add_sequenceDistance hstart hn] at hm'
      exact hmn hm'.symm
    have hm' := hmeasure m hm hin
    rw [inWindow_iff]
    refine (and_iff_right ⟨hm, ?_⟩).symm
    omega

theorem Regular.blockAckReq (h : c.Regular) (hn : n < 4096) :
    Slides c (.blockAckReq n) (c.updateWithBlockAckReq n) := by
  obtain ⟨⟨hpos, hsize⟩, hstart, hstop, hslots⟩ := id h
  have hstay : Slides c (.blockAckReq n) c := ⟨h, rfl, fun m hm => by simp [hm]⟩
  -- where the slots that are cleared are those of the window that were not in the old one
  have hlast : (n + c.winSize - 1) % 4096 < 4096 := Nat.mod_lt _ (by decide)
  have hmove {first : ℕ} (hfirst : first < 4096)
      (hcleared : ∀ m, m < 4096 → sequenceDistance n m < c.winSize →
        (sequenceDistance first m ≤ sequenceDistance first ((n + c.winSize - 1) % 4096) ↔
          ¬ sequenceDistance c.winStart m < c.winSize)) :
      Slides c (.blockAckReq n) { c.resetPortionOfBitmap first ((n + c.winSize - 1) % 4096) with
        winStart := n, winEnd := (n + c.winSize - 1) % 4096 } := by
    refine ⟨h.move hn rfl (h.reset_slots hfirst hlast), rfl, fun m hm => ?_⟩
    obtain ⟨hm, hin⟩ := inWindow_iff.1 hm
    change (c.resetPortionOfBitmap first ((n + c.winSize - 1) % 4096)).bitmap m = 1 ↔ _
    rw [reset_slot hfirst hlast hm, inWindow_iff]
    split
    · rename_i hreset
      refine iff_of_false (by decide) fun hboth => ?_
      rcases hboth with ⟨⟨⟩⟩ | ⟨⟨-, hwas⟩, -⟩
      exact (hcleared m hm hin).1 hreset hwas
    · rename_i hkept
      have hwas := not_not.1 (mt (hcleared m hm hin).2 hkept)
      simp [hm, hwas]
  have hlast' : sequenceDistance n ((n + c.winSize - 1) % 4096) = c.winSize - 1 := by
    rw [Nat.add_sub_assoc hpos]
    exact sequenceDistance_add hn (by omega)
  by_cases hold : qosUtilsIsOldPacket c.winStart n = true
  · simpa only [updateWithBlockAckReq, hold, Bool.not_true, Bool.false_eq_true, if_false]
      using hstay
  simp only [updateWithBlockAckReq, Bool.eq_false_iff.2 hold, Bool.not_false, if_true]
  rw [qosUtilsIsOldPacket_iff] at hold
  by_cases hwin : isInWindow n c.winStart c.winSize = true
  · simp only [hwin, if_true]
    rw [isInWindow_iff] at hwin
    by_cases hne : n = c.winStart
    · simpa only [hne, bne_self_eq_false, Bool.false_eq_true, if_false] using hstay
    · simp only [bne_iff_ne.2 hne, if_true]
      have hfirst : (c.winEnd + 1) % 4096 < 4096 := Nat.mod_lt _ (by decide)
      have hfirst' := h.sequenceDistance_first
      refine hmove hfirst fun m hm hin => ?_
      have htoM := sequenceDistance_trans hstart hn hm
      have htoM' := sequenceDistance_trans hstart hfirst hm
      have htoLast := sequenceDistance_trans hstart hn hlast
      have htoLast' := sequenceDistance_trans hstart hfirst hlast
      have := sequenceDistance_lt ((c.winEnd + 1) % 4096) m
      have := sequenceDistance_lt ((c.winEnd + 1) % 4096) ((n + c.winSize - 1) % 4096)
      have hpos' : sequenceDistance c.winStart n ≠ 0 := by
        have := sequenceDistance_cases hstart hn
        omega
      constructor
      · omega
      · omega
  · simp only [Bool.eq_false_iff.2 hwin, Bool.false_eq_true, if_false]
    rw [isInWindow_iff] at hwin
    refine hmove hn fun m hm hin => ?_
    have htoM := sequenceDistance_trans hstart hn hm
    rw [hlast']
    exact iff_of_true (by omega) (by omega)

theorem Regular.slides (h : c.Regular) (hst : Step c e d) : Slides c e d := by
  obtain ⟨hseq, rfl⟩ := hst
  cases e with
  | mpdu n => exact h.mpdu hseq
  | blockAckReq n => exact h.blockAckReq hseq

theorem ReceivedSince.inWindow (h : ReceivedSince trace c n) : c.InWindow n := by
  cases h with
  | mpdu hin => exact hin
  | stays _ hin => exact hin

/-- The slots of the window are those of the numbers that have been received. -/
structure Shows (trace : List (BlockAckCache × Update)) (c : BlockAckCache) : Prop where
  regular : c.Regular
  slot : ∀ n, c.InWindow n → (c.bitmap n = 1 ↔ ReceivedSince trace c n)

theorem Shows.step (h : Shows trace c) (hst : Step c e d) : Shows (trace ++ [(c, e)]) d := by
  have hslides := h.regular.slides hst
  refine ⟨hslides.regular, fun n hn => ?_⟩
  rw [hslides.slot n hn, receivedSince_snoc, and_iff_right hn]
  refine or_congr_right ⟨fun hbefore => (h.slot n hbefore.1).1 hbefore.2, fun hbefore => ?_⟩
  exact ⟨hbefore.inWindow, (h.slot n hbefore.inWindow).2 hbefore⟩

theorem shows_of_run {winStart winSize : ℕ} (hsize : 1 ≤ winSize ∧ winSize ≤ 256)
    (hstart : winStart < 4096) (h : Run Step (init winStart winSize) trace c) :
    Shows trace c ∧ c.winSize = winSize := by
  induction h with
  | nil =>
    refine ⟨⟨⟨hsize, hstart, rfl, fun _ _ => .inl rfl⟩, fun n _ => ?_⟩, rfl⟩
    exact iff_of_false (by decide : ¬ (0 : BitVec 16) = 1) not_receivedSince_nil
  | snoc _ hst ih => exact ⟨ih.1.step hst, (ih.1.regular.slides hst).size.trans ih.2⟩

/-! ### Filling the bitmap -/

end BlockAckCache

namespace BlockAckResponse

variable {shl : BitVec 64 → ℕ → BitVec 64} {h : BlockAckResponse} {seq k b : ℕ}

theorem indexInBitmap_eq (hstart : h.startingSeq < 4096) (hseq : seq < 4096) :
    h.indexInBitmap seq = sequenceDistance h.startingSeq seq := by
  unfold indexInBitmap
  have := sequenceDistance_cases hstart hseq
  split
  · omega
  · omega

/-- The bit of the bitmap that a sequence number sets. -/
def Sets (shl : BitVec 64 → ℕ → BitVec 64) (h : BlockAckResponse) (seq k b : ℕ) : Prop :=
  h.isInBitmap seq ∧ h.wordOf seq = k ∧ (shl 1 (h.indexInBitmap seq)).getLsbD b = true

theorem setReceivedPacket_baType : (h.setReceivedPacket shl seq).baType = h.baType := by
  unfold setReceivedPacket
  split
  · rfl
  · rfl

theorem setReceivedPacket_startingSeq :
    (h.setReceivedPacket shl seq).startingSeq = h.startingSeq := by
  unfold setReceivedPacket
  split
  · rfl
  · rfl

theorem setReceivedPacket_bit : ((h.setReceivedPacket shl seq).words k).getLsbD b = true ↔
    (h.words k).getLsbD b = true ∨ h.Sets shl seq k b := by
  unfold setReceivedPacket Sets
  by_cases hin : h.isInBitmap seq = true
  · by_cases hk : k = h.wordOf seq
    · subst hk
      simp [hin]
    · simp [hin, Function.update_of_ne hk, Ne.symm hk]
  · simp [hin]

theorem Sets.congr {h' : BlockAckResponse} (htype : h'.baType = h.baType)
    (hstart : h'.startingSeq = h.startingSeq) : h'.Sets shl seq k b ↔ h.Sets shl seq k b := by
  obtain ⟨baType, startingSeq, words⟩ := h
  obtain ⟨baType', startingSeq', words'⟩ := h'
  obtain rfl : baType' = baType := htype
  obtain rfl : startingSeq' = startingSeq := hstart
  rfl

end BlockAckResponse

namespace BlockAckCache

open BlockAckResponse

variable {c d : BlockAckCache} {e : Update} {n : ℕ} {trace : List (BlockAckCache × Update)}
  {shl : BitVec 64 → ℕ → BitVec 64} {baType : BlockAckType}

theorem fillLoop_spec (shl : BitVec 64 → ℕ → BitVec 64) (c : BlockAckCache) (h : BlockAckResponse)
    {rounds i stop : ℕ} (hi : i < 4096) (hstop : stop < 4096)
    (hrounds : sequenceDistance i stop < rounds) :
    (fillLoop shl c h rounds i stop).baType = h.baType ∧
    (fillLoop shl c h rounds i stop).startingSeq = h.startingSeq ∧
    ∀ k b, ((fillLoop shl c h rounds i stop).words k).getLsbD b = true ↔
      (h.words k).getLsbD b = true ∨ ∃ j < 4096, sequenceDistance i j ≤ sequenceDistance i stop ∧
        c.bitmap j = 1 ∧ h.Sets shl j k b := by
  induction rounds generalizing h i with
  | zero => omega
  | succ rounds ih =>
    unfold fillLoop
    obtain ⟨h', hh'⟩ : ∃ h', h' = if c.bitmap i == 1 then h.setReceivedPacket shl i else h :=
      ⟨_, rfl⟩
    rw [← hh']
    have hround : h'.baType = h.baType ∧ h'.startingSeq = h.startingSeq ∧
        ∀ k b, (h'.words k).getLsbD b = true ↔
          (h.words k).getLsbD b = true ∨ c.bitmap i = 1 ∧ h.Sets shl i k b := by
      by_cases hslot : c.bitmap i = 1
      · rw [if_pos (beq_iff_eq.2 hslot)] at hh'
        subst hh'
        refine ⟨setReceivedPacket_baType, setReceivedPacket_startingSeq, fun k b => ?_⟩
        rw [setReceivedPacket_bit, and_iff_right hslot]
      · rw [if_neg (mt beq_iff_eq.1 hslot)] at hh'
        subst hh'
        exact ⟨rfl, rfl, fun k b => (or_iff_left fun hb => hslot hb.1).symm⟩
    obtain ⟨htype, hstart, hbits⟩ := hround
    by_cases hend : i = stop
    · subst hend
      rw [if_neg (by simp)]
      refine ⟨htype, hstart, fun k b => ?_⟩
      rw [hbits, sequenceDistance_self i]
      refine or_congr_right ⟨fun hb => ⟨i, hi, (sequenceDistance_self i).le, hb⟩, ?_⟩
      rintro ⟨j, hj, hij, hb⟩
      have := sequenceDistance_cases hi hj
      obtain rfl : j = i := by omega
      exact hb
    · have hsucc := sequenceDistance_succ hi hstop hend
      rw [if_pos (by simpa using hend)]
      obtain ⟨htype', hstart', hbits'⟩ := ih h' (Nat.mod_lt (i + 1) (by decide)) (by omega)
      refine ⟨htype'.trans htype, hstart'.trans hstart, fun k b => ?_⟩
      rw [hbits', hbits, or_assoc]
      refine or_congr_right ⟨?_, ?_⟩
      · rintro (hb | ⟨j, hj, hij, hslot, hb⟩)
        · exact ⟨i, hi, by simp [sequenceDistance_self i], hb⟩
        · refine ⟨j, hj, ?_, hslot, (Sets.congr htype hstart).1 hb⟩
          exact (sequenceDistance_le_iff hi hstop hj hend).2 (.inr hij)
      · rintro ⟨j, hj, hij, hslot, hb⟩
        rcases (sequenceDistance_le_iff hi hstop hj hend).1 hij with rfl | hij
        · exact .inl ⟨hslot, hb⟩
        · exact .inr ⟨j, hj, hij, hslot, (Sets.congr htype hstart).2 hb⟩

/-- `<<` as far as it is defined. -/
def DefinedShift (shl : BitVec 64 → ℕ → BitVec 64) : Prop :=
  ∀ w k, k < 64 → shl w k = w <<< k

/-- A shift that uses the lower bits of the count. -/
def MaskedShift (shl : BitVec 64 → ℕ → BitVec 64) : Prop :=
  ∀ w k, shl w k = w <<< (k % 64)

/-- A Block Ack that starts with the window acknowledges what has been received of the window. -/
def Reports (shl : BitVec 64 → ℕ → BitVec 64) (trace : List (BlockAckCache × Update))
    (c : BlockAckCache) (baType : BlockAckType) : Prop :=
  ∃ r, c.fillBlockAckBitmap shl (.init baType c.winStart) = some r ∧
    ∀ n < 4096, r.Marks n ↔ ReceivedSince trace c n

theorem getLsbD_one_shiftLeft {k b : ℕ} (hb : b < 64) :
    ((1 : BitVec 64) <<< k).getLsbD b = true ↔ b = k := by
  simp [hb]
  omega

theorem fill_marks (shl : BitVec 64 → ℕ → BitVec 64) (h : c.Regular)
    (htype : baType = .compressed ∨ baType = .extendedCompressed) :
    ∃ r, c.fillBlockAckBitmap shl (.init baType c.winStart) = some r ∧
      ∀ n < 4096, r.Marks n ↔ (BlockAckResponse.init baType c.winStart).isInBitmap n ∧
        ∃ j, c.InWindow j ∧ c.bitmap j = 1 ∧ (BlockAckResponse.init baType c.winStart).Sets shl j
          (sequenceDistance c.winStart n / 64) (sequenceDistance c.winStart n % 64) := by
  have hlast : (c.winStart + c.winSize - 1) % 4096 < 4096 := Nat.mod_lt _ (by decide)
  have hdist : sequenceDistance c.winStart ((c.winStart + c.winSize - 1) % 4096) =
      c.winSize - 1 := by
    rw [Nat.add_sub_assoc h.size.1]
    exact sequenceDistance_add h.start (by have := h.size.2; omega)
  obtain ⟨hbaType, hstart, hbits⟩ := fillLoop_spec shl c (.init baType c.winStart) h.start hlast
    (sequenceDistance_lt ..)
  refine ⟨fillLoop shl c (.init baType c.winStart) 4096 c.winStart
    ((c.winStart + c.winSize - 1) % 4096), ?_, fun n hn => ?_⟩
  · rcases htype with rfl | rfl
    · rfl
    · rfl
  · have hin : ∀ r : BlockAckResponse, r.baType = baType → r.startingSeq = c.winStart →
        r.isInBitmap n = (BlockAckResponse.init baType c.winStart).isInBitmap n := by
      rintro ⟨baType', startingSeq', words'⟩ rfl rfl
      rfl
    rw [Marks, hin _ hbaType hstart, indexInBitmap_eq (hstart ▸ h.start) hn, hstart, hbits]
    refine and_congr_right fun _ => ?_
    rw [or_iff_right (by simp [BlockAckResponse.init])]
    refine exists_congr fun j => ?_
    rw [hdist, inWindow_iff]
    have := h.size.1
    constructor
    · rintro ⟨hj, hle, hslot, hsets⟩
      exact ⟨⟨hj, by change sequenceDistance c.winStart j ≤ _ at hle; omega⟩, hslot, hsets⟩
    · rintro ⟨⟨hj, hlt⟩, hslot, hsets⟩
      exact ⟨hj, by omega, hslot, hsets⟩

theorem eq_of_sequenceDistance_eq {a m n : ℕ} (ha : a < 4096) (hm : m < 4096) (hn : n < 4096)
    (h : sequenceDistance a m = sequenceDistance a n) : m = n := by
  rw [← add_sequenceDistance ha hm, h, add_sequenceDistance ha hn]

/-- It is enough that each number that has been received has a bit of its own in the bitmap, and the
shift sets it. -/
theorem Shows.reports (h : Shows trace c)
    (htype : baType = .compressed ∨ baType = .extendedCompressed)
    (hbit : ∀ j, ReceivedSince trace c j →
      (BlockAckResponse.init baType c.winStart).isInBitmap j ∧
      (BlockAckResponse.init baType c.winStart).wordOf j = sequenceDistance c.winStart j / 64 ∧
      shl 1 (sequenceDistance c.winStart j) =
        (1 : BitVec 64) <<< (sequenceDistance c.winStart j % 64)) :
    Reports shl trace c baType := by
  have hstart := h.regular.start
  have hsets {j n : ℕ} (hj : ReceivedSince trace c j) (hn : n < 4096) :
      (BlockAckResponse.init baType c.winStart).Sets shl j (sequenceDistance c.winStart n / 64)
        (sequenceDistance c.winStart n % 64) ↔ j = n := by
    obtain ⟨hin, hword, hshl⟩ := hbit j hj
    have hjlt := hj.inWindow.1
    rw [Sets, and_iff_right hin, hword, indexInBitmap_eq hstart hjlt]
    change _ ∧ (shl 1 (sequenceDistance c.winStart j)).getLsbD _ = true ↔ _
    rw [hshl, getLsbD_one_shiftLeft (Nat.mod_lt _ (by decide))]
    constructor
    · rintro ⟨hdiv, hmod⟩
      exact eq_of_sequenceDistance_eq hstart hjlt hn (by omega)
    · rintro rfl
      exact ⟨rfl, rfl⟩
  obtain ⟨r, hfill, hmarks⟩ := fill_marks shl h.regular htype
  refine ⟨r, hfill, fun n hn => ?_⟩
  rw [hmarks n hn]
  constructor
  · rintro ⟨-, j, hj, hslot, hset⟩
    have hreceived := (h.slot j hj).1 hslot
    obtain rfl := (hsets hreceived hn).1 hset
    exact hreceived
  · intro hreceived
    refine ⟨(hbit n hreceived).1, n, hreceived.inWindow, ?_, (hsets hreceived hn).2 rfl⟩
    exact (h.slot n hreceived.inWindow).2 hreceived

/-- Where all that has been received is less than 64 numbers behind the start, no count is too
large. -/
theorem Shows.reports_near (h : Shows trace c) (hshl : DefinedShift shl)
    (htype : baType = .compressed ∨ baType = .extendedCompressed)
    (hnear : ∀ n, ReceivedSince trace c n → sequenceDistance c.winStart n < 64) :
    Reports shl trace c baType := by
  refine h.reports htype fun j hreceived => ?_
  have hjnear := hnear j hreceived
  have hmod := Nat.mod_eq_of_lt hjnear
  rw [hmod, hshl 1 _ hjnear, Nat.div_eq_of_lt hjnear]
  refine ⟨?_, ?_, rfl⟩
  · unfold isInBitmap
    split
    · exact decide_eq_true (hjnear.trans (by decide))
    · exact decide_eq_true hjnear
  · rcases htype with rfl | rfl
    · rfl
    · change BlockAckResponse.indexInBitmap _ j / 64 = 0
      rw [indexInBitmap_eq h.regular.start hreceived.inWindow.1]
      exact Nat.div_eq_of_lt hjnear

theorem Shows.reports_masked (h : Shows trace c) (hshl : MaskedShift shl) :
    Reports shl trace c .extendedCompressed := by
  refine h.reports (.inr rfl) fun j hreceived => ⟨?_, ?_, hshl 1 _⟩
  · have := (inWindow_iff.1 hreceived.inWindow).2
    have := h.regular.size.2
    exact decide_eq_true (by change sequenceDistance c.winStart j < 256; omega)
  · change BlockAckResponse.indexInBitmap _ j / 64 = _
    rw [indexInBitmap_eq h.regular.start hreceived.inWindow.1]
    rfl

/-- A shift that leaves nothing if the count is too large. -/
def droppingShift (w : BitVec 64) (k : ℕ) : BitVec 64 := if k < 64 then w <<< k else 0

theorem definedShift_droppingShift : DefinedShift droppingShift := fun _ _ hk => if_pos hk

/-- Such a shift does not acknowledge anything that is 64 numbers or more behind the start. -/
theorem Shows.near_of_reports (h : Shows trace c)
    (hreports : Reports droppingShift trace c .extendedCompressed)
    (hreceived : ReceivedSince trace c n) : sequenceDistance c.winStart n < 64 := by
  have hstart := h.regular.start
  have hn := hreceived.inWindow.1
  obtain ⟨r, hfill, hmarks⟩ := fill_marks droppingShift h.regular (.inr rfl)
  obtain ⟨r', hfill', hexact⟩ := hreports
  obtain rfl := Option.some.inj (hfill.symm.trans hfill')
  obtain ⟨-, j, hj, -, -, hword, hset⟩ := (hmarks n hn).1 ((hexact n hn).2 hreceived)
  have hword : BlockAckResponse.indexInBitmap _ j / 64 = _ := hword
  rw [indexInBitmap_eq hstart hj.1] at hword hset
  by_contra hfar
  change (droppingShift 1 (sequenceDistance c.winStart j)).getLsbD _ = true at hset
  change sequenceDistance c.winStart j / 64 = _ at hword
  rw [droppingShift, if_neg (by omega)] at hset
  simp at hset

/-- The slots are right in every run, and so are the bitmaps that are filled with them, but for the
numbers that take a shift by 64 or more. -/
theorem scoreboard_of_run {winStart winSize : ℕ} (hsize : 1 ≤ winSize ∧ winSize ≤ 256)
    (hstart : winStart < 4096) (h : Run Step (init winStart winSize) trace c) :
    c.winSize = winSize ∧ c.winEnd = (c.winStart + c.winSize - 1) % 4096 ∧
    (winSize ≤ 64 → ∀ shl, DefinedShift shl → Reports shl trace c .compressed) ∧
    ((∀ shl, DefinedShift shl → Reports shl trace c .extendedCompressed) ↔
      ∀ n, ReceivedSince trace c n → sequenceDistance c.winStart n < 64) ∧
    ∀ shl, MaskedShift shl → Reports shl trace c .extendedCompressed := by
  obtain ⟨hshows, hwinSize⟩ := shows_of_run hsize hstart h
  refine ⟨hwinSize, hshows.regular.stop, fun hsmall shl hshl => ?_, ⟨fun hall n hn => ?_, ?_⟩, ?_⟩
  · refine hshows.reports_near hshl (.inl rfl) fun n hn => ?_
    have := (inWindow_iff.1 hn.inWindow).2
    omega
  · exact hshows.near_of_reports (hall _ definedShift_droppingShift) hn
  · exact fun hnear shl hshl => hshows.reports_near hshl (.inr rfl) hnear
  · exact fun shl hshl => hshows.reports_masked hshl

/-- A window over the end of the numbers that an MPDU and a request move. -/
theorem scoreboard_of_run_wrapped : ∃ (trace : List (BlockAckCache × Update)) (c : BlockAckCache),
    Run Step (init 4090 64) trace c ∧ c.winStart = 2 ∧ c.winEnd = 65 ∧
      ∀ shl, DefinedShift shl → Reports shl trace c .compressed := by
  have hrun := Run.nil.snoc (step_update (init 4090 64) (.mpdu 4095) (by decide))
    |>.snoc (step_update _ (.mpdu 60) (by decide))
    |>.snoc (step_update _ (.blockAckReq 2) (by decide))
  obtain ⟨-, -, hcompressed, -⟩ := scoreboard_of_run (by decide) (by decide) hrun
  exact ⟨_, _, hrun, rfl, rfl, hcompressed (by decide)⟩

/-- An MPDU that is 64 numbers behind the start of the window. -/
theorem not_reports_far :
    ¬ ∀ (winStart winSize : ℕ) (trace : List (BlockAckCache × Update)) (c : BlockAckCache),
      1 ≤ winSize ∧ winSize ≤ 256 → winStart < 4096 → Run Step (init winStart winSize) trace c →
        ∀ shl, DefinedShift shl → Reports shl trace c .extendedCompressed := by
  intro hall
  have hrun := Run.nil.snoc (step_update (init 0 256) (.mpdu 64) (by decide))
  have hreceived : ReceivedSince ([] ++ [(init 0 256, .mpdu 64)])
      ((init 0 256).update (.mpdu 64)) 64 := .mpdu ⟨by decide, rfl⟩
  have hreports := hall 0 256 _ _ (by decide) (by decide) hrun _ definedShift_droppingShift
  obtain ⟨hshows, -⟩ := shows_of_run (by decide) (by decide) hrun
  exact absurd (hshows.near_of_reports hreports hreceived) (by decide)

end BlockAckCache

end SeanetSim
