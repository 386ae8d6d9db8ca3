import Mathlib.Data.Nat.Basic
import Mathlib.Tactic.SplitIfs
import SeanetSim.Lib.Run

/-!
# The congestion states of a TCP socket

`ProcessAck`, `DupAck`, `EnterRecovery` and `ReTxTimeout` of `TcpSocketBase`, as far as they act on
the congestion state, the count of duplicate ACKs and the recovery point.  What they ask the
transmission buffer, and how far they send, is open.  Each function keeps an invariant on these
fields (`TcpSocket.Consistent`); with it no assertion of `DupAck` and `EnterRecovery` fails,
whatever arrives (`TcpSocket.consistent_of_reachable`).
-/

namespace SeanetSim

/-- `TcpCongState_t`. -/
inductive TcpCongState
  | caOpen
  | caDisorder
  | caCwr
  | caRecovery
  | caLoss
deriving DecidableEq

open TcpCongState

structure TcpParams where
  sackEnabled : Bool
  retxThresh : ℕ

/-- The fields of `TcpSocketBase` that the congestion states are about.  `headSequence` is that of
the transmission buffer. -/
structure TcpSocket where
  congState : TcpCongState
  dupAckCount : ℕ
  recover : ℕ
  recoverActive : Bool
  isFirstPartialAck : Bool
  headSequence : ℕ
  highTxMark : ℕ
  highRxAckMark : ℕ
  nextTxSequence : ℕ
deriving DecidableEq

/-- What the socket learns while it handles an ACK: whether the SACK blocks bring news, whether the
segment behind the highest ACK is lost, and where the retransmissions end that `EnterRecovery` and a
partial ACK make. -/
structure TcpAnswers where
  scoreboardUpdated : Bool
  isLost : Bool
  recoveryTxEnd : ℕ
  partialTxEnd : Option ℕ

namespace TcpSocket

/-- `SendDataPacket`: the highest mark moves with what is sent. -/
def sendUpTo (s : TcpSocket) (txEnd : ℕ) : TcpSocket :=
  { s with highTxMark := max txEnd s.highTxMark }

/-- An assertion. -/
def assert (p : Prop) [Decidable p] (s : TcpSocket) : Option TcpSocket := if p then some s else none

def enterRecovery (answers : TcpAnswers) (s : TcpSocket) : Option TcpSocket := do
  let s ← assert (s.congState ≠ caRecovery) s
  let s := { s with recover := s.highTxMark, recoverActive := true }
  let s := { s with congState := caRecovery }
  some (s.sendUpTo answers.recoveryTxEnd)

/-- The part of `DupAck` for a socket that is, by now, in disorder. -/
def dupAckDisorder (params : TcpParams) (answers : TcpAnswers) (s : TcpSocket) :
    Option TcpSocket := do
  let s ← assert (s.dupAckCount ≤ params.retxThresh ∨ s.recoverActive = true) s
  if s.dupAckCount = params.retxThresh ∧
      (s.recover ≤ s.highRxAckMark ∨ s.recoverActive = false) then
    let s ← s.enterRecovery answers
    assert (s.congState = caRecovery) s
  else if answers.isLost then
    let s ← s.enterRecovery answers
    assert (s.congState = caRecovery) s
  else some s

def dupAck (params : TcpParams) (answers : TcpAnswers) (s : TcpSocket) : Option TcpSocket := do
  if s.congState = caLoss then some s
  else
    let s := if s.congState ≠ caRecovery then { s with dupAckCount := s.dupAckCount + 1 } else s
    let s ←
      if s.congState = caOpen then do
        let s ← assert (s.dupAckCount = 1) s
        some { s with congState := caDisorder }
      else some s
    if s.congState = caRecovery then some s
    else if s.congState = caDisorder then s.dupAckDisorder params answers
    else some s

def isDupack (params : TcpParams) (answers : TcpAnswers) (s : TcpSocket)
    (ackNumber oldHeadSequence : ℕ) : Bool :=
  if params.sackEnabled then answers.scoreboardUpdated
  else ackNumber = oldHeadSequence ∧ ackNumber < s.highTxMark

/-- `NewAck`, which does not touch the congestion state. -/
def newAck (s : TcpSocket) (ack : ℕ) : TcpSocket :=
  if s.nextTxSequence < ack then { s with nextTxSequence := ack } else s

/-- The end of a phase, or no phase at all: the last branch of `ProcessAck` for new data. -/
def leavePhase (dup : Bool) (s : TcpSocket) (ackNumber : ℕ) : TcpSocket :=
  let s :=
    match s.congState with
    | caDisorder => if dup then s else { s with congState := caOpen }
    | caRecovery => { s with isFirstPartialAck := true, congState := caOpen, dupAckCount := 0 }
    | caLoss => { s with isFirstPartialAck := true, congState := caOpen }
    | _ => s
  let s := if s.recover ≤ ackNumber then { s with recoverActive := false } else s
  if s.congState = caOpen then s.newAck ackNumber else s

/-- What `ProcessAck` does for an ACK of new data. -/
def advance (answers : TcpAnswers) (dup : Bool) (s : TcpSocket) (ackNumber : ℕ) : TcpSocket :=
  let s := if dup then s else { s with dupAckCount := 0 }
  if ackNumber < s.recover ∧ s.congState = caRecovery then
    let s :=
      match answers.partialTxEnd with
      | some txEnd => s.sendUpTo txEnd
      | none => s
    { s.newAck ackNumber with isFirstPartialAck := false }
  else if ackNumber < s.recover ∧ s.congState = caLoss then s.newAck ackNumber
  else s.leavePhase dup ackNumber

def processAck (params : TcpParams) (answers : TcpAnswers) (s : TcpSocket)
    (ackNumber oldHeadSequence : ℕ) : Option TcpSocket := do
  let dup := s.isDupack params answers ackNumber oldHeadSequence
  let s ← (if dup then s.dupAck params answers else some s)
  if ackNumber = oldHeadSequence ∧ ackNumber = s.highTxMark then some s
  else if ackNumber = oldHeadSequence ∧ s.highTxMark < ackNumber then
    some { s with nextTxSequence := ackNumber }
  else if ackNumber = oldHeadSequence then some s
  else if oldHeadSequence < ackNumber then some (s.advance answers dup ackNumber)
  else some s

/-- `ReceivedAck`, with the `SendPendingData` at its end. -/
def receivedAck (params : TcpParams) (answers : TcpAnswers) (s : TcpSocket) (ackNumber txEnd : ℕ) :
    Option TcpSocket := do
  let oldHeadSequence := s.headSequence
  if ackNumber < oldHeadSequence then some s
  else
    let s := { s with headSequence := ackNumber }
    let s ← s.processAck params answers ackNumber oldHeadSequence
    some (s.sendUpTo txEnd)

/-- The part of `UpdateWindowSize` that is about ACK numbers. -/
def updateHighRxAckMark (s : TcpSocket) (ackNumber : ℕ) : TcpSocket :=
  if s.highRxAckMark < ackNumber then { s with highRxAckMark := ackNumber } else s

/-- An ACK in state `ESTABLISHED`. -/
def processEstablished (params : TcpParams) (answers : TcpAnswers) (s : TcpSocket)
    (ackNumber txEnd : ℕ) : Option TcpSocket :=
  if ackNumber < s.headSequence then some s
  else if s.highTxMark < ackNumber then some s
  else s.receivedAck params answers ackNumber txEnd

/-- `ReTxTimeout`, past its early returns, with the `SendPendingData` at its end. -/
def reTxTimeout (s : TcpSocket) (txEnd : ℕ) : TcpSocket :=
  let s := { s with dupAckCount := 0 }
  let s := { s with recover := s.highTxMark, recoverActive := true }
  let s := { s with congState := caLoss }
  s.sendUpTo txEnd

end TcpSocket

/-- What happens to a connected socket.  An ACK is `guarded` in state `ESTABLISHED`, where one that
is out of range is ignored; a timeout is `idle` if nothing is left to retransmit, or no retry. -/
inductive TcpInput
  | ack (guarded : Bool) (ackNumber : ℕ) (answers : TcpAnswers) (txEnd : ℕ)
  | timeout (idle : Bool) (txEnd : ℕ)
  | send (txEnd : ℕ)

namespace TcpSocket

/-- `none` where an assertion fails. -/
def handle (params : TcpParams) (s : TcpSocket) : TcpInput → Option TcpSocket
  | .ack true ackNumber answers txEnd =>
    (s.updateHighRxAckMark ackNumber).processEstablished params answers ackNumber txEnd
  | .ack false ackNumber answers txEnd =>
    (s.updateHighRxAckMark ackNumber).receivedAck params answers ackNumber txEnd
  | .timeout true _ => some s
  | .timeout false txEnd => some (s.reTxTimeout txEnd)
  | .send txEnd => some (s.sendUpTo txEnd)

/-- After the handshake. -/
def connected (sequence : ℕ) : TcpSocket where
  congState := caOpen
  dupAckCount := 0
  recover := 0
  recoverActive := false
  isFirstPartialAck := true
  headSequence := sequence
  highTxMark := sequence
  highRxAckMark := sequence
  nextTxSequence := sequence

/-! ## The invariant -/

/-- The count, the state and the recovery point fit together. -/
structure Consistent (params : TcpParams) (s : TcpSocket) : Prop where
  quiet : s.congState = caOpen ∨ s.congState = caLoss → s.dupAckCount = 0
  below : s.congState = caDisorder → s.dupAckCount < params.retxThresh
  active : s.recoverActive = true ↔ s.congState = caRecovery ∨ s.congState = caLoss
  noCwr : s.congState ≠ caCwr

section Consistent

variable {params : TcpParams} {answers : TcpAnswers} {s t : TcpSocket} {ackNumber txEnd : ℕ}

/-- Only the congestion state, the count and the mark of recovery count. -/
theorem Consistent.congr (h : Consistent params s) (hstate : t.congState = s.congState)
    (hcount : t.dupAckCount = s.dupAckCount) (hactive : t.recoverActive = s.recoverActive) :
    Consistent params t := by
  obtain ⟨hquiet, hbelow, hrecover, hcwr⟩ := h
  refine ⟨?_, ?_, ?_, ?_⟩
  · rw [hstate, hcount]
    exact hquiet
  · rw [hstate, hcount]
    exact hbelow
  · rw [hstate, hactive]
    exact hrecover
  · rw [hstate]
    exact hcwr

theorem Consistent.sendUpTo (h : Consistent params s) (txEnd : ℕ) :
    Consistent params (s.sendUpTo txEnd) :=
  h.congr rfl rfl rfl

theorem Consistent.newAck (h : Consistent params s) (ack : ℕ) :
    Consistent params (s.newAck ack) := by
  unfold TcpSocket.newAck
  split_ifs
  · exact h.congr rfl rfl rfl
  · exact h

theorem consistent_open (hstate : s.congState = caOpen) (hcount : s.dupAckCount = 0)
    (hactive : s.recoverActive = false) : Consistent params s :=
  ⟨fun _ => hcount, by simp [hstate], by simp [hstate, hactive], by simp [hstate]⟩

theorem consistent_disorder (hstate : s.congState = caDisorder)
    (hcount : s.dupAckCount < params.retxThresh) (hactive : s.recoverActive = false) :
    Consistent params s :=
  ⟨by simp [hstate], fun _ => hcount, by simp [hstate, hactive], by simp [hstate]⟩

theorem consistent_recovery (hstate : s.congState = caRecovery) (hactive : s.recoverActive = true) :
    Consistent params s :=
  ⟨by simp [hstate], by simp [hstate], by simp [hstate, hactive], by simp [hstate]⟩

theorem consistent_loss (hstate : s.congState = caLoss) (hcount : s.dupAckCount = 0)
    (hactive : s.recoverActive = true) : Consistent params s :=
  ⟨fun _ => hcount, by simp [hstate], by simp [hstate, hactive], by simp [hstate]⟩

theorem Consistent.inactive (h : Consistent params s)
    (hstate : s.congState = caOpen ∨ s.congState = caDisorder) : s.recoverActive = false := by
  rw [Bool.eq_false_iff, Ne, h.active]
  obtain hstate | hstate := hstate <;> simp [hstate]

/-! ### Duplicate ACKs -/

theorem assert_of {p : Prop} [Decidable p] (hp : p) (s : TcpSocket) : assert p s = some s :=
  if_pos hp

/-- Recovery can be entered from any other state. -/
theorem enterRecovery_consistent (h : s.congState ≠ caRecovery) (answers : TcpAnswers) :
    ∃ t, s.enterRecovery answers = some t ∧ t.congState = caRecovery ∧ Consistent params t := by
  unfold enterRecovery
  rw [assert_of h]
  exact ⟨_, rfl, rfl, consistent_recovery rfl rfl⟩

/-- Below the threshold one more duplicate ACK either brings the socket into recovery or leaves it
below the threshold. -/
theorem dupAckDisorder_consistent (hstate : s.congState = caDisorder)
    (hcount : s.dupAckCount ≤ params.retxThresh) (hactive : s.recoverActive = false)
    (answers : TcpAnswers) :
    ∃ t, s.dupAckDisorder params answers = some t ∧ Consistent params t := by
  have hrecovery : s.congState ≠ caRecovery := by simp [hstate]
  obtain ⟨t, ht, htstate, hconsistent⟩ := enterRecovery_consistent hrecovery answers
  have henter : (s.enterRecovery answers).bind (fun t => assert (t.congState = caRecovery) t) =
      some t := by
    rw [ht]
    exact assert_of htstate t
  unfold dupAckDisorder
  rw [assert_of (.inl hcount)]
  simp only [Option.bind_eq_bind, Option.bind_some]
  split_ifs with hthresh hlost
  · exact ⟨t, henter, hconsistent⟩
  · exact ⟨t, henter, hconsistent⟩
  · have hne : s.dupAckCount ≠ params.retxThresh := fun heq => hthresh ⟨heq, .inr hactive⟩
    exact ⟨s, rfl, consistent_disorder hstate (by omega) hactive⟩

/-- No assertion of `DupAck` fails. -/
theorem Consistent.dupAck (h : Consistent params s) (hthresh : 1 ≤ params.retxThresh)
    (answers : TcpAnswers) :
    ∃ t, s.dupAck params answers = some t ∧ Consistent params t := by
  unfold TcpSocket.dupAck
  cases hstate : s.congState with
  | caLoss => exact ⟨s, rfl, h⟩
  | caRecovery => exact ⟨s, by simp [hstate], h⟩
  | caCwr => exact absurd hstate h.noCwr
  | caOpen =>
    have hcount := h.quiet (.inl hstate)
    have hfirst : s.dupAckCount + 1 ≤ params.retxThresh := by omega
    obtain ⟨t, ht, hconsistent⟩ := dupAckDisorder_consistent
      (s := { s with dupAckCount := s.dupAckCount + 1, congState := caDisorder }) rfl hfirst
      (h.inactive (.inl hstate)) answers
    refine ⟨t, ?_, hconsistent⟩
    rw [← ht]
    simp [hcount, assert]
  | caDisorder =>
    obtain ⟨t, ht, hconsistent⟩ := dupAckDisorder_consistent
      (s := { s with dupAckCount := s.dupAckCount + 1 }) hstate (h.below hstate)
      (h.inactive (.inr hstate)) answers
    refine ⟨t, ?_, hconsistent⟩
    rw [← ht]
    simp [hstate]

/-! ### New data -/

/-- The mark of recovery is only taken off where it does not stand. -/
theorem Consistent.reach (h : Consistent params s)
    (hstate : s.congState = caOpen ∨ s.congState = caDisorder) (ackNumber : ℕ) :
    Consistent params (if s.recover ≤ ackNumber then { s with recoverActive := false } else s) := by
  split_ifs
  · exact h.congr rfl rfl (h.inactive hstate).symm
  · exact h

theorem Consistent.ite_newAck (h : Consistent params s) (ack : ℕ) :
    Consistent params (if s.congState = caOpen then s.newAck ack else s) := by
  split_ifs
  · exact h.newAck ack
  · exact h

theorem Consistent.leavePhase {dup : Bool} (h : Consistent params s)
    (hdup : dup = false → s.dupAckCount = 0)
    (hpast : s.congState = caRecovery ∨ s.congState = caLoss → s.recover ≤ ackNumber) :
    Consistent params (s.leavePhase dup ackNumber) := by
  unfold TcpSocket.leavePhase
  refine ite_newAck ?_ ackNumber
  cases hstate : s.congState with
  | caOpen => exact h.reach (.inl hstate) ackNumber
  | caCwr => exact absurd hstate h.noCwr
  | caDisorder =>
    cases dup with
    | true => exact h.reach (.inr hstate) ackNumber
    | false =>
      refine Consistent.reach ?_ (.inl rfl) ackNumber
      exact consistent_open rfl (hdup rfl) (h.inactive (.inr hstate))
  | caRecovery =>
    dsimp only
    rw [if_pos (hpast (.inl hstate))]
    exact consistent_open rfl rfl rfl
  | caLoss =>
    dsimp only
    rw [if_pos (hpast (.inr hstate))]
    exact consistent_open rfl (h.quiet (.inr hstate)) rfl

theorem Consistent.advance (h : Consistent params s) (hthresh : 1 ≤ params.retxThresh)
    (answers : TcpAnswers) (dup : Bool) (ackNumber : ℕ) :
    Consistent params (s.advance answers dup ackNumber) := by
  have hreset : Consistent params (if dup then s else { s with dupAckCount := 0 }) ∧
      (dup = false → (if dup then s else { s with dupAckCount := 0 }).dupAckCount = 0) := by
    cases dup with
    | true => exact ⟨h, nofun⟩
    | false => exact ⟨⟨fun _ => rfl, fun _ => hthresh, h.active, h.noCwr⟩, fun _ => rfl⟩
  unfold TcpSocket.advance
  dsimp only
  generalize (if dup then s else { s with dupAckCount := 0 }) = s' at hreset
  obtain ⟨h', hcount⟩ := hreset
  split_ifs with hrecovery hloss
  · cases answers.partialTxEnd with
    | none => exact (h'.newAck ackNumber).congr rfl rfl rfl
    | some txEnd => exact ((h'.sendUpTo txEnd).newAck ackNumber).congr rfl rfl rfl
  · exact h'.newAck ackNumber
  · refine h'.leavePhase hcount fun hphase => ?_
    by_contra hlt
    rcases hphase with hstate | hstate
    · exact hrecovery ⟨by omega, hstate⟩
    · exact hloss ⟨by omega, hstate⟩

/-! ### Runs -/

theorem Consistent.processAck (h : Consistent params s) (hthresh : 1 ≤ params.retxThresh)
    (answers : TcpAnswers) (ackNumber oldHeadSequence : ℕ) :
    ∃ t, s.processAck params answers ackNumber oldHeadSequence = some t ∧ Consistent params t := by
  unfold TcpSocket.processAck
  dsimp only
  generalize s.isDupack params answers ackNumber oldHeadSequence = dup
  have hdup : ∃ s', (if dup = true then s.dupAck params answers else some s) = some s' ∧
      Consistent params s' := by
    cases dup with
    | true => exact h.dupAck hthresh answers
    | false => exact ⟨s, rfl, h⟩
  obtain ⟨s', hs', h'⟩ := hdup
  rw [hs']
  simp only [Option.bind_eq_bind, Option.bind_some]
  split_ifs
  · exact ⟨s', rfl, h'⟩
  · exact ⟨_, rfl, h'.congr rfl rfl rfl⟩
  · exact ⟨s', rfl, h'⟩
  · exact ⟨_, rfl, h'.advance hthresh answers dup ackNumber⟩
  · exact ⟨s', rfl, h'⟩

theorem Consistent.receivedAck (h : Consistent params s) (hthresh : 1 ≤ params.retxThresh)
    (answers : TcpAnswers) (ackNumber txEnd : ℕ) :
    ∃ t, s.receivedAck params answers ackNumber txEnd = some t ∧ Consistent params t := by
  unfold TcpSocket.receivedAck
  dsimp only
  split_ifs
  · exact ⟨s, rfl, h⟩
  · have h' : Consistent params { s with headSequence := ackNumber } := h.congr rfl rfl rfl
    obtain ⟨t, ht, hconsistent⟩ := h'.processAck hthresh answers ackNumber s.headSequence
    rw [ht]
    exact ⟨_, rfl, hconsistent.sendUpTo txEnd⟩

theorem Consistent.updateHighRxAckMark (h : Consistent params s) (ackNumber : ℕ) :
    Consistent params (s.updateHighRxAckMark ackNumber) := by
  unfold TcpSocket.updateHighRxAckMark
  split_ifs
  · exact h.congr rfl rfl rfl
  · exact h

theorem Consistent.handle (h : Consistent params s) (hthresh : 1 ≤ params.retxThresh)
    (i : TcpInput) : ∃ t, s.handle params i = some t ∧ Consistent params t := by
  cases i with
  | ack guarded ackNumber answers txEnd =>
    have h' := h.updateHighRxAckMark ackNumber
    cases guarded with
    | true =>
      simp only [TcpSocket.handle, processEstablished]
      split_ifs
      · exact ⟨_, rfl, h'⟩
      · exact ⟨_, rfl, h'⟩
      · exact h'.receivedAck hthresh answers ackNumber txEnd
    | false => exact h'.receivedAck hthresh answers ackNumber txEnd
  | timeout idle txEnd =>
    cases idle with
    | true => exact ⟨s, rfl, h⟩
    | false => exact ⟨_, rfl, (consistent_loss rfl rfl rfl).sendUpTo txEnd⟩
  | send txEnd => exact ⟨_, rfl, h.sendUpTo txEnd⟩

theorem consistent_connected (params : TcpParams) (sequence : ℕ) :
    Consistent params (connected sequence) :=
  consistent_open rfl rfl rfl

/-- In every reachable state the count of duplicate ACKs, the congestion state and the recovery
point fit together, and no assertion fails whatever comes next. -/
theorem consistent_of_reachable {sequence : ℕ} (hthresh : 1 ≤ params.retxThresh)
    (h : Reachable {connected sequence} (fun s t => ∃ i, s.handle params i = some t) s) :
    Consistent params s ∧ ∀ i, (s.handle params i).isSome := by
  have hconsistent : Consistent params s := by
    refine Reachable.invariant ?_ ?_ h
    · rintro _ rfl
      exact consistent_connected params sequence
    · rintro s t hs ⟨i, hi⟩
      obtain ⟨t', ht', hconsistent⟩ := hs.handle hthresh i
      rw [ht'] at hi
      cases hi
      exact hconsistent
  refine ⟨hconsistent, fun i => ?_⟩
  obtain ⟨t, ht, -⟩ := hconsistent.handle hthresh i
  rw [ht]
  rfl

end Consistent

/-- Without SACK, four segments are sent, the first one is acknowledged, and three duplicates of
that ACK arrive. -/
def threeDuplicates : List TcpInput :=
  let answers : TcpAnswers := ⟨false, false, 2000, none⟩
  [.send 4000, .ack true 1000 answers 5000, .ack true 1000 answers 0, .ack true 1000 answers 0,
    .ack true 1000 answers 0]

theorem consistent_recovering : ∃ s : TcpSocket, s.congState = caRecovery ∧ s.dupAckCount = 3 ∧
    s.recover = 5000 ∧ Consistent ⟨false, 3⟩ s ∧ ∀ i, (s.handle ⟨false, 3⟩ i).isSome := by
  have hrun : threeDuplicates.foldlM (handle ⟨false, 3⟩) (connected 0) = some
      ⟨caRecovery, 3, 5000, true, true, 1000, 5000, 1000, 1000⟩ := by decide
  obtain ⟨trace, hrun⟩ := Run.of_foldlM hrun
  exact ⟨_, rfl, rfl, rfl, consistent_of_reachable (by decide) hrun.reachable⟩

end TcpSocket

end SeanetSim
