import SeanetSim.Internet.Ipv6ExtensionHeader
import SeanetSim.Lib.TracedReader

/-!
# TCP options

The options of `tcp-option.cc` and its like, with their parsers.  A parser reads a kind, and for
most kinds a length byte that tells it how much more to read; it returns the size of the option, or
0 if it refuses the length byte.
-/

namespace SeanetSim

inductive TcpOption
  | end_
  | nop
  | mss (value : UInt16)
  | winScale (scale : UInt8)
  | sackPermitted
  | sack (sackList : List (UInt32 × UInt32))
  | ts (timestamp echo : UInt32)
  | unknown (kind : UInt8) (size : UInt32) (content : List UInt8)
deriving DecidableEq

namespace TracedReader

def readNtohU16 : TracedReader UInt16 := do
  let b₀ ← readU8
  let b₁ ← readU8
  return SeanetSim.readNtohU16 b₀ b₁

def readNtohU32 : TracedReader UInt32 := do
  let b₀ ← readU8
  let b₁ ← readU8
  let b₂ ← readU8
  let b₃ ← readU8
  return SeanetSim.readNtohU32 b₀ b₁ b₂ b₃

end TracedReader

namespace TcpOption

open TracedReader (readU8 readBytes fail)

def getKind : TcpOption → UInt8
  | .end_ => 0
  | .nop => 1
  | .mss _ => 2
  | .winScale _ => 3
  | .sackPermitted => 4
  | .sack _ => 5
  | .ts _ _ => 8
  | .unknown kind _ _ => kind

def isKindKnown (kind : UInt8) : Bool :=
  kind == 0 || kind == 1 || kind == 2 || kind == 3 || kind == 4 || kind == 5 || kind == 8

def getSerializedSize : TcpOption → UInt32
  | .end_ | .nop => 1
  | .mss _ => 4
  | .winScale _ => 3
  | .sackPermitted => 2
  | .sack sackList => 2 + UInt32.ofNat sackList.length * 8
  | .ts _ _ => 10
  | .unknown _ size _ => size

/-- What `Serialize` writes. -/
def serialize : TcpOption → List UInt8
  | .end_ => [0]
  | .nop => [1]
  | .mss value => 2 :: 4 :: writeHtonU16 value
  | .winScale scale => [3, 3, scale]
  | .sackPermitted => [4, 2]
  | .sack sackList =>
    5 :: (UInt32.ofNat sackList.length * 8 + 2).toUInt8 ::
      sackList.flatMap fun block => writeHtonU32 block.1 ++ writeHtonU32 block.2
  | .ts timestamp echo => 8 :: 10 :: (writeHtonU32 timestamp ++ writeHtonU32 echo)
  | .unknown kind size content =>
    if size = 0 then [] else kind :: size.toUInt8 :: content.take (size.toNat - 2)

/-- `CreateOption`. -/
def createOption (kind : UInt8) : TcpOption :=
  if kind = 0 then end_
  else if kind = 2 then mss 1460
  else if kind = 1 then nop
  else if kind = 8 then ts 0 0
  else if kind = 3 then winScale 0
  else if kind = 4 then sackPermitted
  else if kind = 5 then sack []
  else unknown 0xff 0 []

/-! ### Parsers -/

/-- `Deserialize` of an option without a length byte. -/
def deserializeKind (op : TcpOption) : TracedReader (UInt32 × TcpOption) := do
  let readKind ← readU8
  if readKind ≠ op.getKind then return (0, op)
  return (op.getSerializedSize, op)

/-- `Deserialize` of an option whose length byte is fixed; `body` reads the rest. -/
def deserializeSized (op : TcpOption) (length : UInt8) (body : TracedReader TcpOption) :
    TracedReader (UInt32 × TcpOption) := do
  let readKind ← readU8
  if readKind ≠ op.getKind then return (0, op)
  let size ← readU8
  if size ≠ length then return (0, op)
  let op ← body
  return (op.getSerializedSize, op)

def readSackBlocks : ℕ → TracedReader (List (UInt32 × UInt32))
  | 0 => return []
  | sackCount + 1 => do
    let leftEdge ← TracedReader.readNtohU32
    let rightEdge ← TracedReader.readNtohU32
    let sackList ← readSackBlocks sackCount
    return (leftEdge, rightEdge) :: sackList

/-- `(size - 2) / 8`, in C. -/
def sackCount (size : UInt8) : ℕ := (((size.toNat : ℤ) - 2).tdiv 8).toNat

/-- `Deserialize`, into an option that `CreateOption` has made. -/
def deserialize : TcpOption → TracedReader (UInt32 × TcpOption)
  | .end_ => deserializeKind end_
  | .nop => deserializeKind nop
  | .mss value => do
    let readKind ← readU8
    if readKind ≠ 2 then return (0, .mss value)
    let size ← readU8
    if size ≠ 4 then fail -- `NS_ABORT_IF`
    else do
      let value ← TracedReader.readNtohU16
      return (getSerializedSize (.mss value), .mss value)
  | .winScale scale => deserializeSized (.winScale scale) 3 do
    let scale ← readU8
    return .winScale scale
  | .sackPermitted => deserializeSized .sackPermitted 2 (return .sackPermitted)
  | .sack sackList => do
    let readKind ← readU8
    if readKind ≠ 5 then return (0, .sack sackList)
    let size ← readU8
    let sackList ← readSackBlocks (sackCount size)
    return (getSerializedSize (.sack sackList), .sack sackList)
  | .ts timestamp echo => deserializeSized (.ts timestamp echo) 10 do
    let timestamp ← TracedReader.readNtohU32
    let echo ← TracedReader.readNtohU32
    return .ts timestamp echo
  | .unknown _ _ content => do
    let kind ← readU8
    let size ← readU8
    if size < 2 ∨ 40 < size then return (0, .unknown kind size.toUInt32 content)
    let content ← readBytes (size.toNat - 2)
    return (size.toUInt32, .unknown kind size.toUInt32 content)

/-- The option that the header makes for a kind it comes to. -/
def ofKind (kind : UInt8) : TcpOption :=
  if isKindKnown kind then createOption kind else createOption 0xff

theorem ofKind_unknown {kind : UInt8} (h : isKindKnown kind = false) :
    ofKind kind = .unknown 0xff 0 [] := by
  rw [ofKind, h]
  rfl

/-! ## How far a parser reads -/

/-- The bytes that a parser asks for, the kind and the length byte among them. -/
def bytesRead (kind size : UInt8) : ℕ :=
  if kind = 0 ∨ kind = 1 then 1
  else if kind = 2 then if size = 4 then 4 else 2
  else if kind = 3 then if size = 3 then 3 else 2
  else if kind = 4 then 2
  else if kind = 5 then 2 + 8 * sackCount size
  else if kind = 8 then if size = 10 then 10 else 2
  else if size < 2 ∨ 40 < size then 2 else size.toNat

section Reach

open TracedReader

variable {buf : List UInt8} {pos n : ℕ} {op : TcpOption}

theorem takes_readNtohU16 : Takes TracedReader.readNtohU16 2 :=
  Takes.readU8.bind fun _ => Takes.readU8.bind fun _ => .pure _

theorem takes_readNtohU32 : Takes TracedReader.readNtohU32 4 :=
  Takes.readU8.bind fun _ => Takes.readU8.bind fun _ => Takes.readU8.bind fun _ =>
    Takes.readU8.bind fun _ => .pure _

theorem takes_readSackBlocks (count : ℕ) : Takes (readSackBlocks count) (8 * count) := by
  induction count with
  | zero => exact .pure _
  | succ count ih =>
    have hblocks := takes_readNtohU32.bind fun leftEdge => takes_readNtohU32.bind fun rightEdge =>
      ih.bind fun sackList => Takes.pure ((leftEdge, rightEdge) :: sackList)
    exact hblocks.of_eq (by omega)

theorem reach_deserializeKind_le_iff (hn : n ≤ buf.length) :
    (deserializeKind op).reach buf pos ≤ n ↔ pos + 1 ≤ n := by
  rw [deserializeKind, reach_readU8_bind_le_iff hn]
  split_ifs <;> simp [Nat.succ_le_iff]

/-- A kind and a length byte, and what is read after them. -/
theorem reach_length_le_iff {x : TracedReader (UInt32 × TcpOption)} {k : ℕ} (hn : n ≤ buf.length)
    (hx : Takes x k) :
    pos < n ∧ pos + 1 < n ∧ x.reach buf (pos + 1 + 1) ≤ n ↔ pos + (2 + k) ≤ n := by
  constructor
  · rintro ⟨-, hlt, hreach⟩
    have hle := (hx.reach hlt hn).1 hreach
    omega
  · intro hle
    exact ⟨by omega, by omega, (hx.reach (by omega) hn).2 (by omega)⟩

theorem reach_deserializeSized_le_iff {body : TracedReader TcpOption} {k : ℕ} (length : UInt8)
    (hn : n ≤ buf.length) (hkind : buf.getD pos 0 = op.getKind) (hbody : Takes body k) :
    (deserializeSized op length body).reach buf pos ≤ n ↔
      pos + (if buf.getD (pos + 1) 0 = length then 2 + k else 2) ≤ n := by
  rw [deserializeSized, reach_readU8_bind_le_iff hn, hkind, if_neg (not_not.2 rfl),
    reach_readU8_bind_le_iff hn]
  by_cases hlength : buf.getD (pos + 1) 0 = length
  · rw [if_neg (not_not.2 hlength), if_pos hlength]
    exact reach_length_le_iff hn (hbody.bind fun op => .pure _)
  · rw [if_pos hlength, if_neg hlength, reach_pure]
    omega

/-- A reader of a buffer that goes on at least up to `n` stays within `n` exactly if all it asks for
is there. -/
theorem reach_deserialize_le_iff (hn : n ≤ buf.length) :
    (ofKind (buf.getD pos 0)).deserialize.reach buf pos ≤ n ↔
      pos + bytesRead (buf.getD pos 0) (buf.getD (pos + 1) 0) ≤ n := by
  generalize hk : buf.getD pos 0 = kind
  by_cases h0 : kind = 0
  · subst h0
    exact reach_deserializeKind_le_iff hn
  by_cases h1 : kind = 1
  · subst h1
    exact reach_deserializeKind_le_iff hn
  by_cases h2 : kind = 2
  · subst h2
    show (deserialize (.mss 1460)).reach buf pos ≤ n ↔
      pos + (if buf.getD (pos + 1) 0 = 4 then 4 else 2) ≤ n
    rw [deserialize, reach_readU8_bind_le_iff hn, hk, if_neg (not_not.2 rfl),
      reach_readU8_bind_le_iff hn]
    by_cases hlength : buf.getD (pos + 1) 0 = 4
    · rw [if_neg (not_not.2 hlength), if_pos hlength]
      exact reach_length_le_iff hn (takes_readNtohU16.bind fun _ => .pure _)
    · rw [if_pos hlength, if_neg hlength, reach_fail]
      omega
  by_cases h3 : kind = 3
  · subst h3
    exact reach_deserializeSized_le_iff 3 hn hk (Takes.readU8.bind fun _ => .pure _)
  by_cases h4 : kind = 4
  · subst h4
    have hsized : (deserializeSized .sackPermitted 2 (pure .sackPermitted)).reach buf pos ≤ n ↔
        pos + (if buf.getD (pos + 1) 0 = 2 then 2 + 0 else 2) ≤ n :=
      reach_deserializeSized_le_iff 2 hn hk (Takes.pure _)
    rw [ite_self] at hsized
    exact hsized
  by_cases h5 : kind = 5
  · subst h5
    show (deserialize (.sack [])).reach buf pos ≤ n ↔
      pos + (2 + 8 * sackCount (buf.getD (pos + 1) 0)) ≤ n
    rw [deserialize, reach_readU8_bind_le_iff hn, hk, if_neg (not_not.2 rfl),
      reach_readU8_bind_le_iff hn]
    exact reach_length_le_iff hn ((takes_readSackBlocks _).bind fun _ => .pure _)
  by_cases h8 : kind = 8
  · subst h8
    exact reach_deserializeSized_le_iff 10 hn hk
      (takes_readNtohU32.bind fun _ => takes_readNtohU32.bind fun _ => .pure _)
  have hknown : isKindKnown kind = false := by simp [isKindKnown, h0, h1, h2, h3, h4, h5, h8]
  have hread : bytesRead kind (buf.getD (pos + 1) 0) =
      if buf.getD (pos + 1) 0 < 2 ∨ 40 < buf.getD (pos + 1) 0 then 2
      else (buf.getD (pos + 1) 0).toNat := by
    simp only [bytesRead, h0, h1, h2, h3, h4, h5, h8, or_self, if_false]
  rw [ofKind_unknown hknown, hread, deserialize, reach_readU8_bind_le_iff hn,
    reach_readU8_bind_le_iff hn]
  generalize buf.getD (pos + 1) 0 = size
  by_cases hrange : size < 2 ∨ 40 < size
  · rw [if_pos hrange, if_pos hrange, reach_pure]
    omega
  · have hsize : 2 ≤ size.toNat := UInt8.le_iff_toNat_le.1 (UInt8.not_lt.1 fun h => hrange (.inl h))
    rw [if_neg hrange, if_neg hrange]
    have hrest := (Takes.readBytes (size.toNat - 2)).bind fun content =>
      Takes.pure (size.toUInt32, unknown (buf.getD pos 0) size.toUInt32 content)
    rw [reach_length_le_iff hn hrest]
    omega

end Reach

/-! ## Sizes -/

section Sizes

open TracedReader

variable {op : TcpOption}

theorem yields_deserializeKind (h : op.getSerializedSize ≠ 0) :
    Yields (deserializeKind op) fun r => r.2.getSerializedSize ≠ 0 := by
  refine .bind_of_forall fun readKind => ?_
  split_ifs
  · exact .pure h
  · exact .pure h

theorem yields_deserializeSized {body : TracedReader TcpOption} {length : UInt8}
    (h : op.getSerializedSize ≠ 0) (hbody : Yields body fun op => op.getSerializedSize ≠ 0) :
    Yields (deserializeSized op length body) fun r => r.2.getSerializedSize ≠ 0 := by
  refine .bind_of_forall fun readKind => ?_
  split_ifs
  · exact .pure h
  refine .bind_of_forall fun size => ?_
  split_ifs
  · exact .pure h
  exact hbody.bind fun op hop => .pure hop

theorem yields_readSackBlocks (count : ℕ) :
    Yields (readSackBlocks count) fun sackList => sackList.length = count := by
  induction count with
  | zero => exact .pure rfl
  | succ count ih =>
    refine .bind_of_forall fun leftEdge => .bind_of_forall fun rightEdge =>
      ih.bind fun l hl => .pure ?_
    rw [List.length_cons, hl]

theorem sackCount_eq (size : UInt8) : sackCount size = (size.toNat - 2) / 8 := by
  unfold sackCount
  by_cases hlt : size.toNat < 2
  · obtain h | h : (size.toNat : ℤ) = 0 ∨ (size.toNat : ℤ) = 1 := by omega
    · rw [h, Nat.sub_eq_zero_of_le (by omega)]
      rfl
    · rw [h, Nat.sub_eq_zero_of_le (by omega)]
      rfl
  · rw [Int.tdiv_eq_ediv_of_nonneg (by omega)]
    omega

theorem toNat_sack_size {sackList : List (UInt32 × UInt32)} (h : sackList.length < 32) :
    (sack sackList).getSerializedSize.toNat = 2 + 8 * sackList.length := by
  rw [getSerializedSize, UInt32.toNat_add, UInt32.toNat_mul, UInt32.toNat_ofNat',
    show UInt32.toNat 8 = 8 from rfl, show UInt32.toNat 2 = 2 from rfl]
  omega

/-- No option of a known kind has the size 0. -/
theorem getSerializedSize_deserialize {kind : UInt8} (hknown : isKindKnown kind = true) :
    Yields (ofKind kind).deserialize fun r => r.2.getSerializedSize ≠ 0 := by
  simp only [isKindKnown, Bool.or_eq_true, beq_iff_eq] at hknown
  rcases hknown with (((((rfl | rfl) | rfl) | rfl) | rfl) | rfl) | rfl
  · exact yields_deserializeKind (by decide)
  · exact yields_deserializeKind (by decide)
  · refine .bind_of_forall fun readKind => ?_
    split_ifs
    · exact .pure (by decide)
    refine .bind_of_forall fun size => ?_
    split_ifs
    · exact .fail
    exact .bind_of_forall fun value => .pure (show (4 : UInt32) ≠ 0 by decide)
  · exact yields_deserializeSized (by decide)
      (.bind_of_forall fun _ => .pure (show (3 : UInt32) ≠ 0 by decide))
  · exact yields_deserializeSized (by decide) (.pure (by decide))
  · refine .bind_of_forall fun readKind => ?_
    split_ifs
    · exact .pure (by decide)
    refine .bind_of_forall fun size =>
      (yields_readSackBlocks _).bind fun l hl => .pure fun hzero => ?_
    have hcount := sackCount_eq size
    have hlt := size.toNat_lt
    have hsize := toNat_sack_size (show l.length < 32 by omega)
    rw [hzero] at hsize
    have hsize : 0 = 2 + 8 * l.length := hsize
    omega
  · exact yields_deserializeSized (by decide)
      (.bind_of_forall fun _ => .bind_of_forall fun _ => .pure (show (10 : UInt32) ≠ 0 by decide))

/-- An option of an unknown kind whose length byte is 0. -/
theorem run_deserialize_zero {buf : List UInt8} {pos : ℕ} {kind : UInt8}
    (hunknown : isKindKnown kind = false) (hkind : buf[pos]? = some kind)
    (hsize : buf[pos + 1]? = some 0) :
    (ofKind kind).deserialize.run buf pos = some ((0, .unknown kind 0 []), pos + 1 + 1) := by
  rw [ofKind_unknown hunknown, deserialize, run_readU8_bind_of_get hkind,
    run_readU8_bind_of_get hsize]
  rfl

theorem size_byte_of_unknown {buf : List UInt8} {pos : ℕ} {kind : UInt8}
    {r : (UInt32 × TcpOption) × ℕ} (hunknown : isKindKnown kind = false)
    (hrun : (ofKind kind).deserialize.run buf pos = some r) (hzero : r.1.2.getSerializedSize = 0) :
    buf[pos + 1]? = some 0 := by
  rw [ofKind_unknown hunknown, deserialize] at hrun
  obtain ⟨k, -, hrun⟩ := run_readU8_bind_eq_some.1 hrun
  obtain ⟨size, hsize, hrun⟩ := run_readU8_bind_eq_some.1 hrun
  have hsize0 : size.toUInt32 = 0 := by
    split_ifs at hrun
    · cases hrun
      exact hzero
    · obtain ⟨c, -, hrun⟩ := Option.bind_eq_some_iff.1 hrun
      cases hrun
      exact hzero
  have hnat : size.toNat = 0 := congrArg UInt32.toNat hsize0
  have hbyte : size = 0 := UInt8.toNat_inj.1 hnat
  rw [hsize, hbyte]

end Sizes
end TcpOption

end SeanetSim
