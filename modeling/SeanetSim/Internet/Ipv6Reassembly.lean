import SeanetSim.Internet.Ipv6Fragmentation
import SeanetSim.Lib.Arrivals

/-!
# Reassembly of IPv6

`Process` collects fragments until the collection is entire.  It is where each fragment is in it
once, and never again where one has come twice.  What `GetPacket` gives then begins with what the
fragments have in front of their fragment header.
-/

namespace SeanetSim

variable {payload : List UInt8} {start stop : ℕ} {x y : Ipv4PayloadHeaderPair}
  {pieces arrived : List Ipv4PayloadHeaderPair}

/-! ## Tiles -/

theorem Tiles.le (h : Tiles payload start stop pieces) : start ≤ stop := by
  induction pieces generalizing start with
  | nil => exact (h : start = stop).le
  | cons x pieces ih =>
    obtain ⟨rfl, -, hrest⟩ := h
    exact (Nat.le_add_right _ _).trans (ih hrest)

theorem Tiles.fragmentEnd_le (h : Tiles payload start stop pieces) (hx : x ∈ pieces) :
    x.fragmentEnd ≤ stop := by
  obtain ⟨front, back, rfl⟩ := List.append_of_mem hx
  obtain ⟨mid, -, -, -, hback⟩ := h.of_append
  exact hback.le

theorem Tiles.nodup (h : Tiles payload start stop pieces) (hne : payload ≠ []) : pieces.Nodup := by
  induction pieces generalizing start with
  | nil => exact List.nodup_nil
  | cons x pieces ih =>
    obtain ⟨rfl, hx, hrest⟩ := h
    refine List.nodup_cons.2 ⟨fun hmem => ?_, ih hrest⟩
    have hpos := List.length_pos_of_ne_nil (hx.nonempty.resolve_right hne)
    have hle := hrest.le_offset hmem
    rw [Ipv4PayloadHeaderPair.fragmentEnd] at hle
    omega

namespace Ipv6ExtensionFragment

/-! ## The collection -/

/-- The fragment as `m_packetFragments` has it. -/
def entry (x : Piece) : List UInt8 × ℕ := (x.payload, x.fragmentOffset)

variable {unfragmentable : List UInt8}

section Entire

variable (hne : payload ≠ []) (hlen : payload.length < 65536)
  (htiles : Tiles payload 0 payload.length pieces)

end Entire

/-- No payload is one piece, and no other can come before. -/
theorem PiecesOf.first (hpieces : PiecesOf [] pieces) (harrived : ∀ y ∈ arrived ++ [x], y ∈ pieces)
    (hmissing : ∃ y ∈ pieces, y ∉ arrived) :
    arrived = [] ∧ x = ⟨[], 0, false⟩ ∧ pieces = [⟨[], 0, false⟩] := by
  have hsingle := hpieces.empty rfl
  rw [hsingle] at harrived hmissing
  obtain ⟨y, hy, hmissing⟩ := hmissing
  refine ⟨List.eq_nil_iff_forall_not_mem.2 fun z hz => ?_, ?_, hsingle⟩
  · have hzy := List.mem_singleton.1 (harrived z (List.mem_append_left _ hz))
    rw [hzy, ← List.mem_singleton.1 hy] at hz
    exact hmissing hz
  · exact List.mem_singleton.1 (harrived x (List.mem_append_right _ List.mem_cons_self))

theorem PiecesOf.nodup (hpieces : PiecesOf payload pieces) : pieces ≠ [] ∧ pieces.Nodup := by
  by_cases hne : payload = []
  · rw [hpieces.empty hne]
    simp
  · refine ⟨?_, hpieces.tiles.nodup hne⟩
    rintro rfl
    exact hne (List.length_eq_zero_iff.1 (hpieces.tiles : 0 = payload.length).symm)

section Arrivals

variable {headers : List Ipv6ExtensionHeader} {protocol offset : UInt8} {identification : UInt32}
  {header : Ipv6Header} {s : Ipv6ExtensionFragment}

/-- The fragment that a piece goes in. -/
abbrev sent (headers : List Ipv6ExtensionHeader) (protocol : UInt8) (identification : UInt32)
    (header : Ipv6Header) (x : Piece) : Ipv6PayloadHeaderPair :=
  fragment (withLast ipv6ExtFragmentation headers) protocol identification header x

/-- The piece that a fragment brings. -/
def received (size : ℕ) (p : Ipv6PayloadHeaderPair) : Piece :=
  match Ipv6ExtensionFragmentHeader.removeHeader (p.1.drop size) with
  | some (h, payload) => ⟨payload, h.getOffset.toNat, h.getMoreFragment⟩
  | none => ⟨[], 0, false⟩

section Datagram

variable {nextHeader : UInt8} (hdata : IsDatagram nextHeader headers protocol payload)
  (hpieces : PiecesOf payload pieces)

include hdata hpieces

end Datagram

end Arrivals

/-! ## Headers in front -/

section InFront

variable {headers : List Ipv6ExtensionHeader} {nextHeader protocol : UInt8}

end InFront

/-! ## Reassembly -/

section Reassembly

variable {headers : List Ipv6ExtensionHeader} {nextHeader protocol : UInt8} {identification : UInt32}
  {header : Ipv6Header} {s : Ipv6ExtensionFragment} {arrivals : List Ipv6PayloadHeaderPair}

end Reassembly

/-- No fragments yet. -/
def init : Ipv6ExtensionFragment := ⟨fun _ => none⟩

end Ipv6ExtensionFragment

end SeanetSim
