import Mathlib.Data.Nat.Notation
import Mathlib.Logic.Function.Basic
import Mathlib.Tactic.SplitIfs

/-!
# Learning in `BridgeNetDevice`

A bridge learns the port of a source from every frame that it forwards, and sends a unicast frame
through the port that it has learned for the destination.  Without such a port, or if it is the one
that the frame has come from, the frame goes through all others.
-/

namespace SeanetSim

variable {P A : Type*}

/-- `NetDevice::PacketType`. -/
inductive PacketType
  | host
  | broadcast
  | multicast
  | otherHost
deriving DecidableEq, Repr

structure LearnedState (P : Type*) where
  associatedPort : P
  expirationTime : ℕ

/-- A `BridgeNetDevice` with ports `P` and addresses `A`. -/
structure BridgeNetDevice (P A : Type*) where
  address : A
  ports : List P
  enableLearning : Bool
  expirationTime : ℕ
  learnState : A → Option (LearnedState P)

namespace BridgeNetDevice

section Operations

variable [DecidableEq P] [DecidableEq A] (b : BridgeNetDevice P A) (now : ℕ) (incomingPort : P)
  (src dst source : A) (port : P)

def learn : BridgeNetDevice P A :=
  if b.enableLearning then
    { b with
      learnState := Function.update b.learnState source (some ⟨port, now + b.expirationTime⟩) }
  else b

/-- `GetLearnedState`, which forgets what has expired. -/
def getLearnedState : Option P × BridgeNetDevice P A :=
  if b.enableLearning then
    match b.learnState source with
    | some state =>
      if state.expirationTime > now then (some state.associatedPort, b)
      else (none, { b with learnState := Function.update b.learnState source none })
    | none => (none, b)
  else (none, b)

/-- All ports but the one that the frame has come from. -/
def otherPorts : List P := b.ports.filter fun port => port ≠ incomingPort

/-- `ForwardUnicast`, with the ports that the frame is sent through. -/
def forwardUnicast : List P × BridgeNetDevice P A :=
  let b := b.learn now src incomingPort
  let (outPort, b) := b.getLearnedState now dst
  match outPort with
  | some outPort =>
    if outPort ≠ incomingPort then ([outPort], b) else (b.otherPorts incomingPort, b)
  | none => (b.otherPorts incomingPort, b)

/-- `ForwardBroadcast`. -/
def forwardBroadcast : List P × BridgeNetDevice P A :=
  let b := b.learn now src incomingPort
  (b.otherPorts incomingPort, b)

/-- `ReceiveFromDevice`. -/
def receiveFromDevice : PacketType → List P × BridgeNetDevice P A
  | .host => ([], if dst = b.address then b.learn now src incomingPort else b)
  | .broadcast | .multicast => b.forwardBroadcast now incomingPort src
  | .otherHost =>
    if dst = b.address then ([], b.learn now src incomingPort)
    else b.forwardUnicast now incomingPort src dst

end Operations

/-! ### What a bridge learns -/

/-- Every learned port is good for its address. -/
def Learned (good : A → P → Prop) (b : BridgeNetDevice P A) : Prop :=
  ∀ source state, b.learnState source = some state → good source state.associatedPort

/-- A bridge goes on with its address and ports, and has learned nothing that is not good. -/
structure Keeps (good : A → P → Prop) (b b' : BridgeNetDevice P A) : Prop where
  address_eq : b'.address = b.address
  ports_eq : b'.ports = b.ports
  learned : Learned good b → Learned good b'

variable {b : BridgeNetDevice P A} {now : ℕ} {incomingPort port : P} {src dst source : A}
  {good : A → P → Prop}

theorem Keeps.refl : Keeps good b b := ⟨rfl, rfl, id⟩

theorem Keeps.trans {b' b'' : BridgeNetDevice P A} (h : Keeps good b b')
    (h' : Keeps good b' b'') : Keeps good b b'' :=
  ⟨h'.address_eq.trans h.address_eq, h'.ports_eq.trans h.ports_eq, h'.learned ∘ h.learned⟩

variable [DecidableEq A]

theorem keeps_learn (hport : good source port) : Keeps good b (b.learn now source port) := by
  unfold learn
  split_ifs
  · refine ⟨rfl, rfl, fun h source' state hstate => ?_⟩
    by_cases heq : source' = source
    · subst heq
      simp only [Function.update_self, Option.some.injEq] at hstate
      exact hstate ▸ hport
    · simp only [Function.update_of_ne heq] at hstate
      exact h source' state hstate
  · exact .refl

theorem keeps_getLearnedState : Keeps good b (b.getLearnedState now source).2 := by
  unfold getLearnedState
  split_ifs
  · cases b.learnState source with
    | none => exact .refl
    | some state =>
      simp only
      split_ifs
      · exact .refl
      · refine ⟨rfl, rfl, fun h source' state' hstate => ?_⟩
        by_cases heq : source' = source
        · simp [heq] at hstate
        · simp only [Function.update_of_ne heq] at hstate
          exact h source' state' hstate
  · exact .refl

theorem good_getLearnedState (h : Learned good b)
    (hport : (b.getLearnedState now source).1 = some port) : good source port := by
  unfold getLearnedState at hport
  split_ifs at hport
  · cases hstate : b.learnState source with
    | none => simp [hstate] at hport
    | some state =>
      simp only [hstate] at hport
      split_ifs at hport
      obtain rfl := Option.some.inj hport
      exact h source state hstate

variable [DecidableEq P]

theorem keeps_forwardUnicast (hsrc : good src incomingPort) :
    Keeps good b (b.forwardUnicast now incomingPort src dst).2 := by
  have hkeeps : Keeps good b ((b.learn now src incomingPort).getLearnedState now dst).2 :=
    (keeps_learn hsrc).trans keeps_getLearnedState
  unfold forwardUnicast
  simp only
  split
  · split_ifs <;> exact hkeeps
  · exact hkeeps

/-- A unicast frame goes through one port that is good for its destination, or through all but the
one that it has come from. -/
theorem forwardUnicast_cases (h : Learned good b) (hsrc : good src incomingPort) :
    (b.forwardUnicast now incomingPort src dst).1 = b.otherPorts incomingPort ∨
      ∃ port, port ≠ incomingPort ∧ good dst port ∧
        (b.forwardUnicast now incomingPort src dst).1 = [port] := by
  have hlearn : Keeps good b (b.learn now src incomingPort) := keeps_learn hsrc
  have hports : ((b.learn now src incomingPort).getLearnedState now dst).2.otherPorts
      incomingPort = b.otherPorts incomingPort := by
    have hkeeps : Keeps good b ((b.learn now src incomingPort).getLearnedState now dst).2 :=
      hlearn.trans keeps_getLearnedState
    rw [otherPorts, hkeeps.ports_eq, otherPorts]
  unfold forwardUnicast
  simp only [hports]
  cases hport : ((b.learn now src incomingPort).getLearnedState now dst).1 with
  | none => exact .inl rfl
  | some port =>
    by_cases hne : port ≠ incomingPort
    · have hgood := good_getLearnedState (hlearn.learned h) hport
      simp only [hne, ne_eq, not_false_eq_true, if_true]
      exact .inr ⟨port, hne, hgood, rfl⟩
    · left
      simp only [hne, if_false]

theorem keeps_receiveFromDevice (hsrc : good src incomingPort) (packetType : PacketType) :
    Keeps good b (b.receiveFromDevice now incomingPort src dst packetType).2 := by
  have hlearn : Keeps good b (b.learn now src incomingPort) := keeps_learn hsrc
  cases packetType with
  | host =>
    unfold receiveFromDevice
    split_ifs
    · exact hlearn
    · exact .refl
  | broadcast => exact hlearn
  | multicast => exact hlearn
  | otherHost =>
    unfold receiveFromDevice
    split_ifs
    · exact hlearn
    · exact keeps_forwardUnicast hsrc

end BridgeNetDevice

end SeanetSim
