import Mathlib.Data.Fintype.Prod
import SeanetSim.NixVectorRouting.NixDecode

/-!
# The links of a nix-vector

The search goes through devices that are up and, at the source, through the given one.  The encoder
looks for the next node only: of parallel links it takes the last, whatever its state.
`Network.encodesUsable_iff` says when the hops of a vector are usable all the same.
-/

namespace SeanetSim

namespace Network

variable {N D C A : Type*} [DecidableEq N] [DecidableEq D] [DecidableEq A] (net : Network N D C A)

/-- The hops of a vector go through devices that are up, the first one through the given device. -/
def UsableHops (source : N) (oif : Option D) (nixVector : NixVector) : Prop :=
  ∃ hops, net.decode source nixVector = some hops ∧
    (∀ hop ∈ hops, net.isUp hop.1 = true ∧ net.isLinkUp hop.1 = true) ∧
    ∀ device, oif = some device → ∃ hop, hops.head? = some hop ∧ hop.1 = device

/-- What `GetNixVector` builds is usable. -/
def EncodesUsable (source : N) (address : A) (oif : Option D) : Prop :=
  ∀ nixVector, net.getNixVector source address oif = some (some nixVector) →
    net.UsableHops source oif nixVector

/-- Along the path the last link to the next node is up, and at the source it is the given one. -/
def LastUsable (source : N) (oif : Option D) (p : List N) : Prop :=
  (∀ hop ∈ hopsOf source p, ∃ d r, net.lastLink hop.1 hop.2 = some (d, r) ∧
    net.isUp d = true ∧ net.isLinkUp d = true) ∧
  ∀ device, oif = some device → ∃ v r, p.head? = some v ∧ net.lastLink source v = some (device, r)

variable {net} {source dest : N} {address : A} {oif : Option D} {p : List N}

omit [DecidableEq A] in
theorem usableHops_iff {nixVector : NixVector} {hops : List (D × D)}
    (hdecode : net.decode source nixVector = some hops)
    (hlinks : hops.map some = (hopsOf source p).map (fun hop => net.lastLink hop.1 hop.2)) :
    net.UsableHops source oif nixVector ↔ net.LastUsable source oif p := by
  have hall : (∀ hop ∈ hops, net.isUp hop.1 = true ∧ net.isLinkUp hop.1 = true) ↔
      ∀ hop ∈ hopsOf source p, ∃ d r, net.lastLink hop.1 hop.2 = some (d, r) ∧
        net.isUp d = true ∧ net.isLinkUp d = true := by
    constructor
    · intro h hop hmem
      have hlast : net.lastLink hop.1 hop.2 ∈ hops.map some := by
        rw [hlinks]
        exact List.mem_map.2 ⟨hop, hmem, rfl⟩
      have ⟨link, hlink, heq⟩ := List.mem_map.1 hlast
      exact ⟨link.1, link.2, heq.symm, h link hlink⟩
    · intro h link hlink
      have hlast : some link ∈ (hopsOf source p).map (fun hop => net.lastLink hop.1 hop.2) := by
        rw [← hlinks]
        exact List.mem_map.2 ⟨link, hlink, rfl⟩
      have ⟨hop, hmem, heq⟩ := List.mem_map.1 hlast
      have ⟨d, r, hdr, hup⟩ := h hop hmem
      cases heq.symm.trans hdr
      exact hup
  have hfirst : ∀ device, (∃ hop, hops.head? = some hop ∧ hop.1 = device) ↔
      ∃ v r, p.head? = some v ∧ net.lastLink source v = some (device, r) := by
    intro device
    cases p with
    | nil =>
      cases hops with
      | nil => simp
      | cons link hops => cases hlinks
    | cons v p =>
      cases hops with
      | nil => cases hlinks
      | cons link hops =>
        rw [hopsOf_cons, List.map_cons, List.map_cons] at hlinks
        have hhead := (List.cons.inj hlinks).1
        constructor
        · intro ⟨hop, hhop, hdevice⟩
          cases hhop
          exact ⟨v, link.2, rfl, by rw [← hhead, ← hdevice]⟩
        · intro ⟨w, r, hw, hlast⟩
          cases hw
          cases hhead.trans hlast
          exact ⟨_, rfl, rfl⟩
  unfold UsableHops LastUsable
  constructor
  · intro ⟨hops', hdecode', hup, hdevice⟩
    cases hdecode.symm.trans hdecode'
    exact ⟨hall.1 hup, fun device hoif => (hfirst device).1 (hdevice device hoif)⟩
  · intro ⟨hup, hdevice⟩
    exact ⟨hops, hdecode, hall.2 hup, fun device hoif => (hfirst device).2 (hdevice device hoif)⟩

/-- The hops are usable if they are decoded as they have been encoded and the last links along the
path are usable; where they are decoded so, the second is also necessary. -/
theorem encodesUsable_iff (net : Network N D C A) (source : N) (address : A) (oif : Option D)
    (hoif : ∀ d, oif = some d → d ∈ net.devices source) :
    ((∀ dest p, net.getNodeByIp address = some dest → source ≠ dest →
        Greedy (net.children source oif) dest source p →
        net.Sound source p ∧ net.LastUsable source oif p) →
      net.EncodesUsable source address oif) ∧
    ∀ dest p, net.getNodeByIp address = some dest → source ≠ dest →
      Greedy (net.children source oif) dest source p → net.Sound source p →
      (net.EncodesUsable source address oif ↔ net.LastUsable source oif p) := by
  have hsufficient : (∀ dest p, net.getNodeByIp address = some dest → source ≠ dest →
      Greedy (net.children source oif) dest source p →
      net.Sound source p ∧ net.LastUsable source oif p) →
      net.EncodesUsable source address oif := by
    intro h nixVector hbuilt
    have ⟨dest, p, hdest, hne, hgreedy, hadd⟩ := greedy_of_getNixVector hbuilt
    have ⟨hsound, hlast⟩ := h dest p hdest hne hgreedy
    have ⟨nixVector', hops, hadd', hdecode, hlinks, _⟩ := decode_eq hsound hoif hgreedy.walk
    cases hadd.symm.trans hadd'
    exact (usableHops_iff hdecode hlinks).2 hlast
  refine ⟨hsufficient, fun dest p hdest hne hgreedy hsound => ⟨fun h => ?_, fun hlast => ?_⟩⟩
  · have ⟨nixVector, hops, hadd, hdecode, hlinks, _⟩ := decode_eq hsound hoif hgreedy.walk
    rw [← usableHops_iff hdecode hlinks]
    apply h
    rw [getNixVector_of_greedy hdest hne hgreedy, hadd]
    rfl
  · apply hsufficient
    intro dest' p' hdest' _ hgreedy'
    cases hdest.symm.trans hdest'
    rw [hgreedy'.unique hgreedy]
    exact ⟨hsound, hlast⟩

end Network

/-- Two nodes with two links between them; every node has a device for each link, and device `down`
is down. -/
def parallelLinks (down : Bool × Bool) : Network Bool (Bool × Bool) Bool (Bool × Bool) where
  nodes := [false, true]
  devices := fun n => [(n, false), (n, true)]
  node := Prod.fst
  isBridge := fun _ => false
  bridgePorts := fun _ => []
  channel := fun d => some d.2
  channelDevices := fun c => [(false, c), (true, c)]
  isLinkUp := fun _ => true
  isUp := fun d => d ≠ down
  address := fun d => d
  isLoopback := fun _ => false
  depth := 1
  loopFree := fun d c => by
    rw [Topology.getAdjacentNetDevices_of_no_bridge (fun _ => rfl)]
    rfl
  mem_nodes := mem_false_true
  node_devices := by decide
  attached := by decide
  distinct := by decide

/-- The search goes through the first link, the vector through the second, which is down. -/
theorem not_encodesUsable : ¬ ∀ net : Network Bool (Bool × Bool) Bool (Bool × Bool),
    ∀ source address oif, (∀ d, oif = some d → d ∈ net.devices source) →
      net.EncodesUsable source address oif := by
  intro h
  have husable := h (parallelLinks (false, true)) false (true, false) none
    (fun d hd => by cases hd)
  have ⟨hops, hdecode, hup, _⟩ := husable ⟨[], 1, 0, 1, 1⟩ (by decide)
  have hdecoded : (parallelLinks (false, true)).decode false ⟨[], 1, 0, 1, 1⟩ =
      some [((false, true), (true, true))] := by decide
  cases hdecode.symm.trans hdecoded
  have hdown := (hup ((false, true), (true, true)) List.mem_cons_self).1
  exact absurd hdown (by decide)

/-- With the first link down the vector goes through the second. -/
theorem encodesUsable_parallelLinks :
    (parallelLinks (false, false)).EncodesUsable false (true, false) (some (false, true)) := by
  have hgreedy : Greedy ((parallelLinks (false, false)).children false (some (false, true))) true
      false [true] := by
    have hsucc : (parallelLinks (false, false)).children false (some (false, true)) false =
        [true] := by decide
    exact ⟨by decide, ⟨[], [], 0, hsucc, ⟨[], rfl, rfl⟩, fun _ _ q _ => Nat.zero_le _,
      fun y hy => absurd hy List.not_mem_nil⟩, rfl⟩
  have hnode : (parallelLinks (false, false)).getNodeByIp (true, false) = some true := by decide
  apply (Network.encodesUsable_iff (parallelLinks (false, false)) false (true, false)
    (some (false, true)) (fun d hd => ?_)).1
  · intro dest p hdest _ hp
    cases hnode.symm.trans hdest
    rw [hp.unique hgreedy]
    refine ⟨⟨by decide, by decide, by decide⟩, by decide, fun device hdevice => ?_⟩
    cases hdevice
    exact ⟨true, (true, true), rfl, by decide⟩
  · cases hd
    decide

end SeanetSim
