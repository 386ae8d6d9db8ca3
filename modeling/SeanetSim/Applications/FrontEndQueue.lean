import SeanetSim.Applications.SwitchNet

/-!
# The queue of a switch

`FrontEnd` takes the packets from the socket until there are none, and returns after a packet that
is marked `NOT_DST`.  So a call handles and counts all packets of the queue exactly if none of them
is marked so (`frontEndLoop_eq_iff`).
-/

namespace SeanetSim

open AddressMap SeanetProtocol

namespace SwitchApplicationv4

variable {M : Type → Type} [AddressMap M]

/-- What the socket holds: packets, `none` for an empty one, with the addresses they are from. -/
abbrev SocketQueue := List (Option Packet × Address)

/-- A switch with the shared tables, what it has sent and `m_received`. -/
structure Reception (M : Type → Type) where
  sw : SwitchApplicationv4 M
  tables : Tables M
  sent : List Datagram
  received : UInt64

/-- A packet is handled, but not counted. -/
def Reception.handled (r : Reception M) (self : Ipv4Address) (now : Time) (pkt : Packet)
    (source : Address) : Reception M :=
  let o := r.sw.frontEnd r.tables self now pkt source
  ⟨o.sw, o.tables, r.sent ++ o.sent, r.received⟩

def Reception.counted (r : Reception M) : Reception M := { r with received := r.received + 1 }

/-- The loop of `FrontEnd`, with what it leaves in the socket. -/
def frontEndLoop (self : Ipv4Address) (now : Time) :
    Reception M → SocketQueue → Reception M × SocketQueue
  | r, [] => (r, [])
  | r, (none, _) :: rest => frontEndLoop self now r rest
  | r, (some pkt, source) :: rest =>
    if pkt.header.dst = notDst then (r.handled self now pkt source, rest)
    else frontEndLoop self now (r.handled self now pkt source).counted rest

/-- Every packet that is not empty is handled, in the order of arrival, and counted. -/
def drained (self : Ipv4Address) (now : Time) (r : Reception M) (queue : SocketQueue) :
    Reception M :=
  queue.foldl (fun r p => match p.1 with
    | some pkt => (r.handled self now pkt p.2).counted
    | none => r) r

omit [AddressMap M] in
theorem Reception.counted_ne (r : Reception M) : r ≠ r.counted := by
  intro h
  have hreceived : r.received = r.received + 1 := congrArg Reception.received h
  have hone : (0 : UInt64) = 1 := by
    rw [← UInt64.add_right_inj r.received, ← hreceived, UInt64.add_zero]
  exact absurd hone (by decide)

/-- One call handles and counts the whole queue exactly if no packet is marked `NOT_DST`. -/
theorem frontEndLoop_eq_iff (self : Ipv4Address) (now : Time) (r : Reception M)
    (queue : SocketQueue) :
    frontEndLoop self now r queue = (drained self now r queue, []) ↔
      ∀ pkt source, (some pkt, source) ∈ queue → pkt.header.dst ≠ notDst := by
  induction queue generalizing r with
  | nil => exact iff_of_true rfl fun _ _ h => absurd h List.not_mem_nil
  | cons p rest ih =>
    obtain ⟨_ | pkt, source⟩ := p
    · rw [frontEndLoop, drained, List.foldl_cons]
      refine (ih r).trans (forall₂_congr fun pkt source' => ?_)
      simp
    · rw [frontEndLoop, drained, List.foldl_cons]
      split_ifs with hdst
      · refine iff_of_false (fun h => ?_) fun h => h pkt source List.mem_cons_self hdst
        obtain rfl : rest = [] := congrArg Prod.snd h
        exact Reception.counted_ne _ (congrArg Prod.fst h)
      · refine (ih _).trans ⟨fun h pkt' source' hmem => ?_, fun h pkt' source' hmem => ?_⟩
        · rcases List.mem_cons.1 hmem with heq | hmem
          · cases heq
            exact hdst
          · exact h pkt' source' hmem
        · exact h pkt' source' (List.mem_cons_of_mem _ hmem)

/-- A switch that has started, with nothing sent or received. -/
def freshReception : Reception PairMap :=
  ⟨(Net.lone 0x0a000001).switches 0x0a000001, (Net.lone 0x0a000001).tables, [], 0⟩

/-- A registration that passes through leaves the registration behind it in the socket. -/
theorem frontEndLoop_ne_transit :
    ¬ ∀ (self : Ipv4Address) (now : Time) (r : Reception PairMap) (queue : SocketQueue),
      frontEndLoop self now r queue = (drained self now r queue, []) := by
  intro h
  have hrest := congrArg Prod.snd (h ⟨0x0a000001, 0⟩ 0 freshReception
    [(some ⟨.ofTypesDst multicastApplication registToRN notDst, Vector.replicate eidSize 0, 0⟩, []),
      (some ⟨.ofTypes multicastApplication registToRN, Vector.replicate eidSize 0, 0⟩, [])])
  exact absurd (congrArg List.length hrest) (by decide)

end SwitchApplicationv4

end SeanetSim
