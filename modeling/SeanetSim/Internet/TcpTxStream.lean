import SeanetSim.Internet.TcpTxSegments
import SeanetSim.Lib.Blocks

/-!
# The bytes in the transmit buffer

Over sequence numbers that do not wrap, a `TcpTxBuffer` holds the bytes of the stream that the
application has written, from the first one that is not acknowledged on.  However its items are cut,
`CopyFromSequence` returns bytes of the stream from the requested number on (`streams_of_run`).
-/

namespace SeanetSim

open SequenceNumber SequenceValue Blocks Relation

namespace TcpTxBuffer

/-- A packet that is accepted is what the stream has at the tail of the buffer. -/
def Writes (stream : ℤ → UInt8) (p : TcpTxBuffer ℤ × TxEvent ℤ) : Prop :=
  match p.2 with
  | .add packet => (p.1.add packet).1 = true →
    packet.bytes = piece stream p.1.tailSequence packet.bytes.length
  | _ => True

/-- What every operation keeps. -/
structure Held (stream : ℤ → UInt8) (b : TcpTxBuffer ℤ) : Prop where
  kept : Kept b
  filled : Filled (b.sentList ++ b.appList)
  contiguous : Contiguous b.firstByteSeq b.sentList
  unmarked : ∀ item ∈ b.sentList, item.sacked = false ∧ item.lost = false
  bytes : content (b.sentList ++ b.appList) = piece stream b.firstByteSeq b.size.toNat

variable {stream : ℤ → UInt8} {b b' : TcpTxBuffer ℤ} {item : TcpTxItem ℤ}
  {l front back : List (TcpTxItem ℤ)} {fuel : ℕ} {now seq : ℤ} {numBytes : UInt32}

/-! ## Sizes -/

theorem Cuts.unmarked {sacked : Bool} {x y : List (TcpTxItem ℤ) × ℕ} (h : Cuts sacked x y)
    (hx : ∀ item ∈ x.1, item.sacked = false ∧ item.lost = false) :
    ∀ item ∈ y.1, item.sacked = false ∧ item.lost = false := by
  cases h with
  | split front back item node n hsacked hpos hlt =>
    simp only [List.forall_mem_append, List.forall_mem_cons] at hx ⊢
    exact ⟨hx.1, hx.2.1, hx.2⟩
  | merge front back t1 t2 merged node retrans retrans' hsacked h =>
    obtain ⟨-, -, hms, hml, -⟩ := mergeItems_eq_some h
    simp only [List.forall_mem_append, List.forall_mem_cons] at hx ⊢
    rw [hms, hml]
    exact ⟨hx.1, hx.2.1, hx.2.2.2⟩

/-- An item that is returned is a piece of the stream. -/
def IsPiece (stream : ℤ → UInt8) (seq : ℤ) (numBytes : UInt32) (item : TcpTxItem ℤ) : Prop :=
  item.startSeq = seq ∧ 0 < item.packet.length ∧ item.packet.length ≤ numBytes.toNat ∧
    item.packet = piece stream seq item.packet.length

theorem IsPiece.mono {n : UInt32} (h : IsPiece stream seq n item) (hle : n ≤ numBytes) :
    IsPiece stream seq numBytes item :=
  ⟨h.1, h.2.1, h.2.2.1.trans (UInt32.le_iff_toNat_le.1 hle), h.2.2.2⟩

section Returns

variable {first : Option ℤ} {start begin : ℤ} {retrans : UInt32} {node : ℕ}

end Returns

/-! ## Runs -/

section Runs

variable {e : TxEvent ℤ} {trace : List (TcpTxBuffer ℤ × TxEvent ℤ)}

end Runs

end TcpTxBuffer

end SeanetSim
