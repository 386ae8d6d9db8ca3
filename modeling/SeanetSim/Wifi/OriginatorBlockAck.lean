import Mathlib.Order.Bounds.Basic
import SeanetSim.Lib.Run
import SeanetSim.Wifi.BlockAckCache
import SeanetSim.Wifi.BlockAckWindow

/-!
# The transmit window of a Block Ack originator

The window starts at the oldest MPDU that is outstanding.  In an exchange the MPDUs have numbers
that do not wrap, so that it can be said which of two is the older one; their headers have these
modulo 4096.  An acknowledgment opens the window as far as nothing is missing, and a discarded MPDU
takes those before it along (`BlockAckExchange.isLeast_start`).
-/

namespace SeanetSim

/-- What the window of an `OriginatorBlockAckAgreement` depends on. -/
structure OriginatorBlockAckAgreement where
  startingSeq : ℕ
  bufferSize : ℕ
  txWindow : BlockAckWindow
deriving DecidableEq, Repr

namespace OriginatorBlockAckAgreement

variable (a : OriginatorBlockAckAgreement)

def getStartingSequence : ℕ :=
  if a.txWindow.getWinSize = 0 then a.startingSeq else a.txWindow.winStart

def getDistance (seqNumber : ℕ) : Option ℕ :=
  if seqNumber < 4096 then some (sequenceDistance a.getStartingSequence seqNumber) else none

def initTxWindow : OriginatorBlockAckAgreement :=
  { a with txWindow := .init a.startingSeq a.bufferSize }

/-- `AdvanceTxWindow`, for a number of turns. -/
def advanceWindow : ℕ → BlockAckWindow → Option BlockAckWindow
  | turns, b => do
    if ← b.at? 0 then
      match turns with
      | 0 => none
      | turns + 1 => advanceWindow turns (← b.advance 1)
    else return b

def advanceTxWindow : Option OriginatorBlockAckAgreement := do
  return { a with txWindow := ← advanceWindow a.txWindow.getWinSize a.txWindow }

def notifyTransmittedMpdu (mpduSeqNumber : ℕ) : Option OriginatorBlockAckAgreement := do
  let distance ← a.getDistance mpduSeqNumber
  if 2048 ≤ distance then return a
  else if a.txWindow.getWinSize ≤ distance then
    let window ← a.txWindow.advance (distance - a.txWindow.getWinSize + 1)
    { a with txWindow := window }.advanceTxWindow
  else return a

def notifyAckedMpdu (mpduSeqNumber : ℕ) : Option OriginatorBlockAckAgreement := do
  let distance ← a.getDistance mpduSeqNumber
  if 2048 ≤ distance then return a
  else
    let window ← a.txWindow.setAt distance true
    { a with txWindow := window }.advanceTxWindow

def notifyDiscardedMpdu (mpduSeqNumber : ℕ) : Option OriginatorBlockAckAgreement := do
  let distance ← a.getDistance mpduSeqNumber
  if 2048 ≤ distance then return a
  else
    let window ← a.txWindow.advance (distance + 1)
    { a with txWindow := window }.advanceTxWindow

end OriginatorBlockAckAgreement

/-- What is notified about an MPDU, with its number. -/
inductive MpduEvent
  | transmitted (n : ℕ)
  | acked (n : ℕ)
  | discarded (n : ℕ)
deriving DecidableEq, Repr

namespace MpduEvent

def number : MpduEvent → ℕ
  | .transmitted n | .acked n | .discarded n => n

def notify (a : OriginatorBlockAckAgreement) : MpduEvent → Option OriginatorBlockAckAgreement
  | .transmitted n => a.notifyTransmittedMpdu (n % 4096)
  | .acked n => a.notifyAckedMpdu (n % 4096)
  | .discarded n => a.notifyDiscardedMpdu (n % 4096)

end MpduEvent

/-- An agreement with what has been notified. -/
structure BlockAckExchange where
  agreement : OriginatorBlockAckAgreement
  /-- The start of the window: as far on as the agreement says. -/
  start : ℕ
  transmitted : List ℕ
  acked : List ℕ
  discarded : List ℕ
deriving DecidableEq, Repr

namespace BlockAckExchange

/-- The window has just been initialized. -/
def init (size start : ℕ) : BlockAckExchange :=
  ⟨OriginatorBlockAckAgreement.initTxWindow ⟨start % 4096, size, ⟨0, [], 0⟩⟩, start, [], [], []⟩

section Steps

variable (m : BlockAckExchange)

/-- Only transmitted MPDUs are acknowledged, and the numbers in use are within half of the space. -/
def Allowed (e : MpduEvent) : Prop :=
  m.start ≤ e.number + 2048 ∧ e.number < m.start + 2048 ∧
    match e with
    | .acked n => n ∈ m.transmitted
    | .transmitted _ | .discarded _ => True

instance (e : MpduEvent) : Decidable (m.Allowed e) := by
  unfold Allowed
  cases e <;> infer_instance

/-- The event is written down. -/
def note (e : MpduEvent) : BlockAckExchange :=
  match e with
  | .transmitted n => { m with transmitted := n :: m.transmitted }
  | .acked n => { m with acked := n :: m.acked }
  | .discarded n => { m with discarded := n :: m.discarded }

def moveTo (a : OriginatorBlockAckAgreement) : BlockAckExchange :=
  { m with
    agreement := a
    start := m.start + sequenceDistance m.agreement.getStartingSequence a.getStartingSequence }

/-- What is notified, if no access to the window is out of its range and the loop ends. -/
def next? (e : MpduEvent) : Option BlockAckExchange :=
  if m.Allowed e then (e.notify m.agreement).map (m.note e).moveTo else none

/-- The numbers from `n` on that are not acknowledged, have no discarded one at or behind them, and
have not been pushed out. -/
def outstanding (n : ℕ) : Set ℕ :=
  {k | n ≤ k ∧ k ∉ m.acked ∧ (∀ d ∈ m.discarded, d < k) ∧
    ∀ t ∈ m.transmitted, t < k + m.agreement.txWindow.getWinSize}

end Steps

def Step (m : BlockAckExchange) (e : MpduEvent) (m' : BlockAckExchange) : Prop :=
  m.next? e = some m'

end BlockAckExchange

/-! ### The window -/

namespace OriginatorBlockAckAgreement

variable {a : OriginatorBlockAckAgreement} {b : BlockAckWindow} {size start n : ℕ}
  {marked : Set ℕ}

/-- `AdvanceTxWindow` ends, and has gone over marked numbers to one that is not. -/
theorem advanceWindow_eq (h : b.Marks size start marked) {turns : ℕ}
    (hturns : ∀ n ∈ marked, n < start + turns) :
    ∃ b' start', advanceWindow turns b = some b' ∧ b'.Marks size start' marked ∧
      start ≤ start' ∧ start' ∉ marked ∧ ∀ n, start ≤ n → n < start' → n ∈ marked := by
  induction turns generalizing b start with
  | zero =>
    obtain ⟨x, hx, hmark⟩ := h.at_eq (Nat.zero_lt_of_lt h.head)
    have hnot : start ∉ marked := fun hmem => absurd (hturns _ hmem) (lt_irrefl _)
    cases x with
    | true => exact absurd (hmark.1 rfl) hnot
    | false =>
      refine ⟨b, start, ?_, h, le_rfl, hnot, fun n hle hlt => absurd hle hlt.not_ge⟩
      rw [advanceWindow, hx]
      rfl
  | succ turns ih =>
    obtain ⟨x, hx, hmark⟩ := h.at_eq (Nat.zero_lt_of_lt h.head)
    cases x with
    | true =>
      have hstart : start ∈ marked := hmark.1 rfl
      obtain ⟨b₁, hb₁, h₁⟩ := h.advance_eq 1
      obtain ⟨b', start', hb', h', hle, hnot, hall⟩ :=
        ih h₁ fun n hn => (hturns n hn).trans_eq (by omega)
      refine ⟨b', start', ?_, h', by omega, hnot, fun n hn hlt => ?_⟩
      · rw [advanceWindow, hx]
        change (b.advance 1).bind _ = _
        rw [hb₁]
        exact hb'
      · rcases hn.eq_or_lt with rfl | hn
        · exact hstart
        · exact hall n hn hlt
    | false =>
      have hnot : start ∉ marked := fun hmem => absurd (hmark.2 hmem) Bool.false_ne_true
      refine ⟨b, start, ?_, h, le_rfl, hnot, fun n hle hlt => absurd hle hlt.not_ge⟩
      rw [advanceWindow, hx]
      rfl

theorem advanceTxWindow_eq (h : a.txWindow.Marks size start marked) :
    ∃ a' start', a.advanceTxWindow = some a' ∧ a'.txWindow.Marks size start' marked ∧
      start ≤ start' ∧ start' ∉ marked ∧ ∀ n, start ≤ n → n < start' → n ∈ marked := by
  have hturns : ∀ n ∈ marked, n < start + a.txWindow.getWinSize := by
    rw [BlockAckWindow.getWinSize, h.length]
    exact h.bounded
  obtain ⟨b', start', hb', h', hmoved⟩ := advanceWindow_eq h hturns
  refine ⟨{ a with txWindow := b' }, start', ?_, h', hmoved⟩
  rw [advanceTxWindow, hb']
  rfl

theorem getStartingSequence_eq (h : a.txWindow.Marks size start marked) :
    a.getStartingSequence = start % 4096 := by
  have hne : a.txWindow.getWinSize ≠ 0 := by
    rw [BlockAckWindow.getWinSize, h.length]
    exact Nat.ne_zero_of_lt h.head
  rw [getStartingSequence, if_neg hne, h.winStart]

theorem getDistance_eq (h : a.txWindow.Marks size start marked) (hle : start ≤ n)
    (hlt : n < start + 2048) : a.getDistance (n % 4096) = some (n - start) := by
  rw [getDistance, if_pos (Nat.mod_lt n (by decide)), getStartingSequence_eq h, sequenceDistance]
  apply congrArg some
  omega

theorem getDistance_old (h : a.txWindow.Marks size start marked) (hlt : n < start)
    (hle : start ≤ n + 2048) : ∃ d, a.getDistance (n % 4096) = some d ∧ 2048 ≤ d := by
  refine ⟨_, if_pos (Nat.mod_lt n (by decide)), ?_⟩
  rw [getStartingSequence_eq h, sequenceDistance]
  omega

end OriginatorBlockAckAgreement

/-! ### Exchanges -/

namespace BlockAckExchange

open OriginatorBlockAckAgreement

variable {m m' : BlockAckExchange} {e : MpduEvent} {size W n : ℕ}
  {trace : List (BlockAckExchange × MpduEvent)}

/-- The window marks what is acknowledged, and the first one is missing. -/
structure Tracks (m : BlockAckExchange) (size : ℕ) : Prop where
  marks : m.agreement.txWindow.Marks size m.start {n | n ∈ m.acked}
  missing : m.start ∉ m.acked
  transmitted : ∀ t ∈ m.transmitted, t < m.start + size
  discarded : ∀ d ∈ m.discarded, d < m.start

/-- An event has moved the window to `W`. -/
structure Moves (m : BlockAckExchange) (e : MpduEvent) (size : ℕ) (a : OriginatorBlockAckAgreement)
    (W : ℕ) : Prop where
  notify : e.notify m.agreement = some a
  marks : a.txWindow.Marks size W {n | n ∈ (m.note e).acked}
  forward : m.start ≤ W
  near : W ≤ m.start + 2048
  missing : W ∉ (m.note e).acked
  transmitted : ∀ t ∈ (m.note e).transmitted, t < W + size
  discarded : ∀ d ∈ (m.note e).discarded, d < W
  /-- What is left behind is no longer outstanding. -/
  passed : ∀ k, m.start ≤ k → k < W → k ∈ (m.note e).acked ∨
    (∃ d ∈ (m.note e).discarded, k ≤ d) ∨ ∃ t ∈ (m.note e).transmitted, k + size ≤ t

theorem moves_of_stay (hnotify : e.notify m.agreement = some m.agreement)
    (hmarks : m.agreement.txWindow.Marks size m.start {n | n ∈ (m.note e).acked})
    (hmissing : m.start ∉ (m.note e).acked) (ht : ∀ t ∈ (m.note e).transmitted, t < m.start + size)
    (hd : ∀ d ∈ (m.note e).discarded, d < m.start) : Moves m e size m.agreement m.start where
  notify := hnotify
  marks := hmarks
  forward := le_rfl
  near := Nat.le_add_right ..
  missing := hmissing
  transmitted := ht
  discarded := hd
  passed := fun _ hk hlt => absurd hk hlt.not_ge

/-- The window has been moved to `W`, and `AdvanceTxWindow` comes next. -/
theorem moves_of_advance {b : BlockAckWindow}
    (hb : b.Marks size W {n | n ∈ (m.note e).acked})
    (hnotify : e.notify m.agreement = { m.agreement with txWindow := b }.advanceTxWindow)
    (hle : m.start ≤ W) (hnear : W ≤ m.start + 2048)
    (hacked : ∀ n ∈ (m.note e).acked, n < m.start + 2048)
    (ht : ∀ t ∈ (m.note e).transmitted, t < W + size) (hd : ∀ d ∈ (m.note e).discarded, d < W)
    (hpassed : ∀ k, m.start ≤ k → k < W → (∃ d ∈ (m.note e).discarded, k ≤ d) ∨
      ∃ t ∈ (m.note e).transmitted, k + size ≤ t) : ∃ a W, Moves m e size a W := by
  obtain ⟨a, W', ha, hmarks, hforward, hmissing, hall⟩ :=
    advanceTxWindow_eq (a := { m.agreement with txWindow := b }) hb
  refine ⟨a, W', hnotify.trans ha, hmarks, hle.trans hforward, ?_, hmissing, fun t htm => ?_,
    fun d hdm => (hd d hdm).trans_le hforward, fun k hk hlt => ?_⟩
  · rcases hforward.eq_or_lt with heq | hlt
    · omega
    · have hlast := hacked _ (hall (W' - 1) (by omega) (by omega))
      omega
  · have := ht t htm
    omega
  · by_cases hkW : k < W
    · exact .inr (hpassed k hk hkW)
    · exact .inl (hall k (not_lt.1 hkW) hlt)

theorem moves_transmitted (h : Tracks m size) (hsize : size ≤ 2048)
    (he : m.Allowed (.transmitted n)) : ∃ a W, Moves m (.transmitted n) size a W := by
  obtain ⟨hold, hnew, -⟩ := he
  change m.start ≤ n + 2048 at hold
  change n < m.start + 2048 at hnew
  have hwin : m.agreement.txWindow.getWinSize = size := h.marks.length
  by_cases hin : n < m.start + size
  · refine ⟨_, _, moves_of_stay ?_ h.marks h.missing ?_ h.discarded⟩
    · change m.agreement.notifyTransmittedMpdu (n % 4096) = _
      by_cases hlt : n < m.start
      · obtain ⟨d, hd, hle⟩ := getDistance_old h.marks hlt hold
        rw [notifyTransmittedMpdu, hd]
        exact if_pos hle
      · have hd := getDistance_eq h.marks (not_lt.1 hlt) hnew
        rw [notifyTransmittedMpdu, hd]
        refine (if_neg (by omega)).trans (if_neg ?_)
        rw [hwin]
        omega
    · exact List.forall_mem_cons.2 ⟨hin, h.transmitted⟩
  · have hd := getDistance_eq h.marks (n := n) (by omega) hnew
    obtain ⟨b, hb, hmarks⟩ := h.marks.advance_eq (n - m.start - size + 1)
    have heq : m.start + (n - m.start - size + 1) = n + 1 - size := by omega
    rw [heq] at hmarks
    refine moves_of_advance hmarks ?_ (by omega) (by omega) (fun k hk => ?_) ?_ (fun d hdm => ?_)
      fun k hk hlt => .inr ⟨n, List.mem_cons_self, by omega⟩
    · change m.agreement.notifyTransmittedMpdu (n % 4096) = _
      rw [notifyTransmittedMpdu, hd]
      refine (if_neg (by omega)).trans ((if_pos (by omega)).trans ?_)
      rw [hwin]
      change (m.agreement.txWindow.advance _).bind _ = _
      rw [hb]
      rfl
    · exact (h.marks.bounded k hk).trans_le (by omega)
    · refine List.forall_mem_cons.2 ⟨by omega, fun t htm => ?_⟩
      have := h.transmitted t htm
      omega
    · have := h.discarded d hdm
      omega

theorem moves_acked (h : Tracks m size) (hsize : size ≤ 2048)
    (he : m.Allowed (.acked n)) : ∃ a W, Moves m (.acked n) size a W := by
  obtain ⟨hold, hnew, hsent⟩ := he
  change m.start ≤ n + 2048 at hold
  change n < m.start + 2048 at hnew
  have hin := h.transmitted n hsent
  have hset : {k | k ∈ (m.note (.acked n)).acked} = insert n {k | k ∈ m.acked} :=
    Set.ext fun k => List.mem_cons
  by_cases hlt : n < m.start
  · obtain ⟨d, hd, hle⟩ := getDistance_old h.marks hlt hold
    refine ⟨_, _, moves_of_stay ?_ ?_ ?_ h.transmitted h.discarded⟩
    · change m.agreement.notifyAckedMpdu (n % 4096) = _
      rw [notifyAckedMpdu, hd]
      exact if_pos hle
    · rw [hset]
      exact h.marks.insert_of_lt hlt
    · exact List.not_mem_cons_of_ne_of_not_mem hlt.ne' h.missing
  · have hd := getDistance_eq h.marks (not_lt.1 hlt) hnew
    obtain ⟨b, hb, hmarks⟩ := h.marks.setAt_true (d := n - m.start) (by omega)
    rw [Nat.add_sub_cancel' (not_lt.1 hlt), ← hset] at hmarks
    refine moves_of_advance hmarks ?_ le_rfl (Nat.le_add_right ..) ?_ h.transmitted h.discarded
      fun k hk hkn => absurd hk hkn.not_ge
    · change m.agreement.notifyAckedMpdu (n % 4096) = _
      rw [notifyAckedMpdu, hd]
      apply (if_neg (by omega)).trans
      change (m.agreement.txWindow.setAt _ _).bind _ = _
      rw [hb]
      rfl
    · refine List.forall_mem_cons.2 ⟨hnew, fun k hk => ?_⟩
      exact (h.marks.bounded k hk).trans_le (by omega)

theorem moves_discarded (h : Tracks m size) (hsize : size ≤ 2048)
    (he : m.Allowed (.discarded n)) : ∃ a W, Moves m (.discarded n) size a W := by
  obtain ⟨hold, hnew, -⟩ := he
  change m.start ≤ n + 2048 at hold
  change n < m.start + 2048 at hnew
  by_cases hlt : n < m.start
  · obtain ⟨d, hd, hle⟩ := getDistance_old h.marks hlt hold
    refine ⟨_, _, moves_of_stay ?_ h.marks h.missing h.transmitted
      (List.forall_mem_cons.2 ⟨hlt, h.discarded⟩)⟩
    change m.agreement.notifyDiscardedMpdu (n % 4096) = _
    rw [notifyDiscardedMpdu, hd]
    exact if_pos hle
  · have hd := getDistance_eq h.marks (not_lt.1 hlt) hnew
    obtain ⟨b, hb, hmarks⟩ := h.marks.advance_eq (n - m.start + 1)
    have heq : m.start + (n - m.start + 1) = n + 1 := by omega
    rw [heq] at hmarks
    refine moves_of_advance hmarks ?_ (by omega) (by omega) (fun k hk => ?_) (fun t htm => ?_) ?_
      fun k hk hkn => .inl ⟨n, List.mem_cons_self, Nat.le_of_lt_succ hkn⟩
    · change m.agreement.notifyDiscardedMpdu (n % 4096) = _
      rw [notifyDiscardedMpdu, hd]
      apply (if_neg (by omega)).trans
      change (m.agreement.txWindow.advance _).bind _ = _
      rw [hb]
      rfl
    · exact (h.marks.bounded k hk).trans_le (by omega)
    · have := h.transmitted t htm
      omega
    · refine List.forall_mem_cons.2 ⟨Nat.lt_succ_self n, fun d hdm => ?_⟩
      have := h.discarded d hdm
      omega

theorem moves (h : Tracks m size) (hsize : size ≤ 2048) (he : m.Allowed e) :
    ∃ a W, Moves m e size a W := by
  cases e with
  | transmitted n => exact moves_transmitted h hsize he
  | acked n => exact moves_acked h hsize he
  | discarded n => exact moves_discarded h hsize he

/-- Where the window starts after an event. -/
structure Advances (m : BlockAckExchange) (m' : BlockAckExchange) : Prop where
  winStart : m'.agreement.getStartingSequence = m'.start % 4096
  least : IsLeast (m'.outstanding m.start) m'.start

theorem Moves.next {a : OriginatorBlockAckAgreement} (h : Moves m e size a W) (hm : Tracks m size)
    (he : m.Allowed e) : ∃ m', m.next? e = some m' ∧ Tracks m' size ∧ Advances m m' := by
  have hfrom := getStartingSequence_eq hm.marks
  have hto := getStartingSequence_eq h.marks
  have hstart : ((m.note e).moveTo a).start = W := by
    have hsame : (m.note e).agreement = m.agreement ∧ (m.note e).start = m.start := by
      cases e <;> exact ⟨rfl, rfl⟩
    change (m.note e).start + sequenceDistance (m.note e).agreement.getStartingSequence _ = W
    rw [hsame.1, hsame.2, hfrom, hto, sequenceDistance]
    have hforward := h.forward
    have hnear := h.near
    omega
  have hmove : (m.note e).moveTo a = { m.note e with agreement := a, start := W } :=
    congrArg (BlockAckExchange.mk a · _ _ _) hstart
  refine ⟨(m.note e).moveTo a, ?_, ?_, ?_, ?_⟩
  · rw [next?, if_pos he, h.notify]
    rfl
  · rw [hmove]
    exact ⟨h.marks, h.missing, h.transmitted, h.discarded⟩
  · rw [hmove]
    exact hto
  · rw [hmove]
    have hwin : a.txWindow.getWinSize = size := h.marks.length
    refine ⟨⟨h.forward, h.missing, h.discarded, fun t ht => ?_⟩, ?_⟩
    · exact (h.transmitted t ht).trans_eq (congrArg (W + ·) hwin.symm)
    · rintro k ⟨hk, hacked, hd, ht⟩
      change ∀ t ∈ (m.note e).transmitted, t < k + a.txWindow.getWinSize at ht
      by_contra hlt
      rcases h.passed k hk (not_le.1 hlt) with hmem | ⟨d, hdm, hle⟩ | ⟨t, htm, hle⟩
      · exact hacked hmem
      · exact absurd (hd d hdm) hle.not_gt
      · have := ht t htm
        omega

theorem tracks_init (hsize : 0 < size) (W : ℕ) : Tracks (init size W) size where
  marks := BlockAckWindow.marks_init hsize W fun _ hn => absurd hn List.not_mem_nil
  missing := List.not_mem_nil
  transmitted := List.forall_mem_nil _
  discarded := List.forall_mem_nil _

theorem tracked_of_run (hsize : 0 < size) (hle : size ≤ 2048) (h : Run Step (init size W) trace m) :
    Tracks m size := by
  refine h.invariant (I := fun m => Tracks m size) (tracks_init hsize W) fun m e m' hm hst => ?_
  have he : m.Allowed e := by
    by_contra hne
    rw [Step, next?, if_neg hne] at hst
    cases hst
  obtain ⟨a, W', ha⟩ := moves hm hle he
  obtain ⟨m₁, hst₁, htracks, -⟩ := ha.next hm he
  rw [Step, hst₁] at hst
  cases hst
  exact htracks

/-- No access to the window is out of its range, the loop ends, and the window starts at the first
number that is outstanding. -/
theorem isLeast_start (hsize : 0 < size) (hle : size ≤ 2048) (h : Run Step (init size W) trace m)
    (he : m.Allowed e) : ∃ m', Step m e m' ∧ Advances m m' := by
  have hm := tracked_of_run hsize hle h
  obtain ⟨a, W', ha⟩ := moves hm hle he
  obtain ⟨m', hst, -, hadvances⟩ := ha.next hm he
  exact ⟨m', hst, hadvances⟩

/-- The window passes the wrap, over a number that has been acknowledged before. -/
theorem isLeast_start_wrapped : ∃ (trace : List (BlockAckExchange × MpduEvent))
    (m m' : BlockAckExchange), Run Step (init 2 4095) trace m ∧ Step m (.acked 4095) m' ∧
      m'.start = 4097 ∧ Advances m m' := by
  have hany : (Run.runOf next? (init 2 4095)
      [.transmitted 4095, .transmitted 4096, .acked 4096]).any (fun r => decide
        (r.2.Allowed (.acked 4095) ∧ (r.2.next? (.acked 4095)).map (·.start) = some 4097)) =
          true := by decide +kernel
  obtain ⟨⟨trace, m⟩, hrun, hr⟩ := (Option.any_eq_true _ _).1 hany
  obtain ⟨hallowed, hstart⟩ := of_decide_eq_true hr
  have hrun' := Run.of_runOf (fun _ _ _ => id) hrun
  obtain ⟨m', hst, hadvances⟩ := isLeast_start (by decide) (by decide) hrun' hallowed
  rw [Step] at hst
  rw [hst, Option.map_some, Option.some_inj] at hstart
  exact ⟨trace, m, m', hrun', hst, hstart, hadvances⟩

/-- An MPDU in front of the discarded one is neither acknowledged nor discarded nor pushed out. -/
theorem not_isLeast_before_discarded : ¬ ∀ (size W : ℕ), 0 < size → size ≤ 2048 →
    ∀ (trace : List (BlockAckExchange × MpduEvent)) (m m' : BlockAckExchange) (e : MpduEvent),
      Run Step (init size W) trace m → Step m e m' →
        IsLeast {k | m.start ≤ k ∧ k ∉ m'.acked ∧ k ∉ m'.discarded ∧
          ∀ t ∈ m'.transmitted, t < k + size} m'.start := by
  intro hall
  have hany : (Run.runOf next? (init 10 0) [.transmitted 0, .transmitted 1, .transmitted 2]).any
      (fun r => (r.2.next? (.discarded 2)).any fun m' => decide (r.2.start ≤ 0 ∧ m'.start = 3 ∧
        0 ∉ m'.acked ∧ 0 ∉ m'.discarded ∧ ∀ t ∈ m'.transmitted, t < 0 + 10)) = true := by
    decide +kernel
  obtain ⟨⟨trace, m⟩, hrun, hr⟩ := (Option.any_eq_true _ _).1 hany
  obtain ⟨m', hst, hm'⟩ := (Option.any_eq_true _ _).1 hr
  obtain ⟨hle, hstart, hfree⟩ := of_decide_eq_true hm'
  have hleast := hall 10 0 (by decide) (by decide) trace m m' (.discarded 2)
    (Run.of_runOf (fun _ _ _ => id) hrun) hst
  have hzero := hleast.2 ⟨hle, hfree⟩
  rw [hstart] at hzero
  exact absurd hzero (by decide)

end BlockAckExchange

end SeanetSim
