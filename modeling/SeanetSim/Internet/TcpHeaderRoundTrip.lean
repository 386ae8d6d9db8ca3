import SeanetSim.Internet.TcpHeaderParsing

/-!
# Writing a TCP header and reading it back

A header is built by its setters and by `AppendOption`.  Where no SACK option with a wrapped size
has been taken, the bytes of a header are read as the same header, up to an `END` for the padding,
and that is written as the same bytes.
-/

namespace SeanetSim

open TracedReader

namespace TcpOption

/-- An option of a known kind with at most four SACK blocks, which fit into the option space. -/
def Small : TcpOption → Prop
  | .unknown _ _ _ => False
  | .sack sackList => sackList.length ≤ 4
  | _ => True

section Small

variable {op : TcpOption} {buf l : List UInt8} {pos : ℕ}

theorem length_sackBlocks (sackList : List (UInt32 × UInt32)) :
    (sackList.flatMap fun block => writeHtonU32 block.1 ++ writeHtonU32 block.2).length =
      8 * sackList.length := by
  induction sackList with
  | nil => rfl
  | cons block rest ih =>
    rw [List.flatMap_cons, List.length_append, ih, List.length_cons, List.length_append]
    show 4 + 4 + _ = _
    omega

theorem length_serialize_sack (sackList : List (UInt32 × UInt32)) :
    (sack sackList).serialize.length = 2 + 8 * sackList.length := by
  rw [serialize, List.length_cons, List.length_cons, length_sackBlocks]
  omega

theorem length_serialize (h : op.Small) : op.serialize.length = op.getSerializedSize.toNat := by
  cases op with
  | unknown => exact h.elim
  | sack sackList =>
    have hle : sackList.length ≤ 4 := h
    rw [length_serialize_sack, toNat_sack_size (by omega)]
  | _ => rfl

theorem length_serialize_le (h : op.Small) : op.serialize.length ≤ 34 := by
  cases op with
  | unknown => exact h.elim
  | sack sackList =>
    have hle : sackList.length ≤ 4 := h
    rw [length_serialize_sack]
    omega
  | _ => simp [serialize, writeHtonU16, writeHtonU32]

theorem serialize_eq_cons (h : op.Small) : ∃ l, op.serialize = op.getKind :: l := by
  cases op with
  | unknown => exact h.elim
  | _ => exact ⟨_, rfl⟩

/-! ### Reading back -/

theorem run_readNtohU16_bind {β : Type} {f : UInt16 → TracedReader β} {v : UInt16}
    (h : buf.drop pos = writeHtonU16 v ++ l) :
    (TracedReader.readNtohU16 >>= f).run buf pos = (f v).run buf (pos + 2) ∧
      buf.drop (pos + 2) = l := by
  have h₁ := drop_succ h
  refine ⟨run_bind_of_run (r := (v, pos + 2)) ?_, drop_succ h₁⟩
  rw [TracedReader.readNtohU16, run_readU8_bind h, run_readU8_bind h₁, readNtohU16_bytes]
  rfl

theorem run_readNtohU32_bind {β : Type} {f : UInt32 → TracedReader β} {v : UInt32}
    (h : buf.drop pos = writeHtonU32 v ++ l) :
    (TracedReader.readNtohU32 >>= f).run buf pos = (f v).run buf (pos + 4) ∧
      buf.drop (pos + 4) = l := by
  have h₁ := drop_succ h
  have h₂ := drop_succ h₁
  have h₃ := drop_succ h₂
  refine ⟨run_bind_of_run (r := (v, pos + 4)) ?_, drop_succ h₃⟩
  rw [TracedReader.readNtohU32, run_readU8_bind h, run_readU8_bind h₁, run_readU8_bind h₂,
    run_readU8_bind h₃, readNtohU32_bytes]
  rfl

theorem run_readSackBlocks {sackList : List (UInt32 × UInt32)}
    (h : buf.drop pos =
      (sackList.flatMap fun block => writeHtonU32 block.1 ++ writeHtonU32 block.2) ++ l) :
    (readSackBlocks sackList.length).run buf pos = some (sackList, pos + 8 * sackList.length) := by
  induction sackList generalizing pos with
  | nil => rfl
  | cons block rest ih =>
    rw [List.flatMap_cons, List.append_assoc, List.append_assoc] at h
    obtain ⟨hleft, h₁⟩ := run_readNtohU32_bind (f := fun leftEdge => do
      let rightEdge ← TracedReader.readNtohU32
      let sackList ← readSackBlocks rest.length
      return (leftEdge, rightEdge) :: sackList) h
    obtain ⟨hright, h₂⟩ := run_readNtohU32_bind (f := fun rightEdge => do
      let sackList ← readSackBlocks rest.length
      return (block.1, rightEdge) :: sackList) h₁
    rw [List.length_cons, readSackBlocks]
    refine hleft.trans (hright.trans ?_)
    rw [run_bind_of_run (ih h₂), run_pure, Nat.mul_succ]
    congr 2
    omega

theorem run_deserializeKind (h : buf.drop pos = op.getKind :: l) :
    (deserializeKind op).run buf pos = some ((op.getSerializedSize, op), pos + 1) := by
  rw [deserializeKind, run_readU8_bind h, if_neg (not_not.2 rfl)]
  rfl

theorem run_deserializeSized {op' : TcpOption} {p : ℕ} {length : UInt8}
    {body : TracedReader TcpOption} (h : buf.drop pos = op.getKind :: length :: l)
    (hbody : body.run buf (pos + 1 + 1) = some (op', p)) :
    (deserializeSized op length body).run buf pos = some ((op'.getSerializedSize, op'), p) := by
  rw [deserializeSized, run_readU8_bind h, if_neg (not_not.2 rfl), run_readU8_bind (drop_succ h),
    if_neg (not_not.2 rfl), run_bind_of_run hbody]
  rfl

theorem sackCount_length {sackList : List (UInt32 × UInt32)} (h : sackList.length ≤ 4) :
    sackCount (UInt32.ofNat sackList.length * 8 + 2).toUInt8 = sackList.length := by
  have hlt : (UInt32.ofNat sackList.length * 8 + 2).toUInt8.toNat = 8 * sackList.length + 2 := by
    rw [UInt32.toNat_toUInt8, UInt32.toNat_add, UInt32.toNat_mul, UInt32.toNat_ofNat',
      show UInt32.toNat 8 = 8 from rfl, show UInt32.toNat 2 = 2 from rfl]
    omega
  rw [sackCount_eq, hlt]
  omega

/-- An option that has been written is read again. -/
theorem run_deserialize (hop : op.Small) (h : buf.drop pos = op.serialize ++ l) :
    (ofKind op.getKind).deserialize.run buf pos =
      some ((op.getSerializedSize, op), pos + op.serialize.length) := by
  cases op with
  | unknown => exact hop.elim
  | end_ =>
    show (deserializeKind end_).run buf pos = _
    exact run_deserializeKind h
  | nop =>
    show (deserializeKind nop).run buf pos = _
    exact run_deserializeKind h
  | mss value =>
    show (deserialize (.mss 1460)).run buf pos = _
    rw [deserialize, run_readU8_bind h, if_neg (not_not.2 rfl), run_readU8_bind (drop_succ h),
      if_neg (not_not.2 rfl), (run_readNtohU16_bind (drop_succ (drop_succ h))).1]
    rfl
  | winScale scale =>
    show (deserializeSized (.winScale 0) 3 _).run buf pos = _
    apply run_deserializeSized h
    rw [run_readU8_bind (drop_succ (drop_succ h))]
    rfl
  | sackPermitted =>
    show (deserializeSized .sackPermitted 2 _).run buf pos = _
    exact run_deserializeSized h rfl
  | sack sackList =>
    have hblocks := run_readSackBlocks (drop_succ (drop_succ h))
    show (deserialize (.sack [])).run buf pos = _
    rw [deserialize, run_readU8_bind h, if_neg (not_not.2 rfl), run_readU8_bind (drop_succ h),
      sackCount_length hop, run_bind_of_run hblocks, length_serialize_sack, run_pure]
    congr 2
    omega
  | ts timestamp echo =>
    obtain ⟨htimestamp, h₂⟩ := run_readNtohU32_bind (f := fun timestamp => do
      let echo ← TracedReader.readNtohU32
      return ts timestamp echo) (drop_succ (drop_succ h))
    obtain ⟨hecho, -⟩ := run_readNtohU32_bind (f := fun echo => return ts timestamp echo) h₂
    show (deserializeSized (.ts 0 0) 10 _).run buf pos = _
    exact run_deserializeSized h (htimestamp.trans hecho)

end Small

end TcpOption

namespace TcpHeader

/-- The calls that build a header. -/
inductive Call
  | setSourcePort (port : UInt16)
  | setDestinationPort (port : UInt16)
  | setSequenceNumber (sequenceNumber : UInt32)
  | setAckNumber (ackNumber : UInt32)
  | setFlags (flags : UInt8)
  | setWindowSize (windowSize : UInt16)
  | setUrgentPointer (urgentPointer : UInt16)
  /-- `EnableChecksums` and `InitializeChecksum`. -/
  | enableChecksums (pseudoHeader : TcpPseudoHeader)
  | appendOption (option : TcpOption)

def call (h : TcpHeader) : Call → TcpHeader
  | .setSourcePort port => { h with sourcePort := port }
  | .setDestinationPort port => { h with destinationPort := port }
  | .setSequenceNumber sequenceNumber => { h with sequenceNumber }
  | .setAckNumber ackNumber => { h with ackNumber }
  | .setFlags flags => { h with flags }
  | .setWindowSize windowSize => { h with windowSize }
  | .setUrgentPointer urgentPointer => { h with urgentPointer }
  | .enableChecksums pseudoHeader => { h with pseudoHeader := some pseudoHeader }
  | .appendOption option => (h.appendOption option).2

def build (calls : List Call) : TcpHeader := calls.foldl call init

/-- An option that has a class of its own. -/
def Call.IsKnown : Call → Prop
  | .appendOption (.unknown _ _ _) => False
  | _ => True

/-- The fields that a reader gets. -/
structure SameFields (h h' : TcpHeader) : Prop where
  sourcePort : h'.sourcePort = h.sourcePort
  destinationPort : h'.destinationPort = h.destinationPort
  sequenceNumber : h'.sequenceNumber = h.sequenceNumber
  ackNumber : h'.ackNumber = h.ackNumber
  flags : h'.flags = h.flags
  windowSize : h'.windowSize = h.windowSize
  urgentPointer : h'.urgentPointer = h.urgentPointer
  options : h'.options = h.options ∨ h'.options = h.options ++ [.end_]

/-- The bytes of the header are read as the same header, whatever follows them, and that is written
as the same bytes. -/
def RoundTrips (h : TcpHeader) : Prop :=
  ∃ bytes, h.serialize = some bytes ∧ bytes.length = h.getSerializedSize.toNat ∧
    ∀ (into : TcpHeader) (rest : List UInt8), into.pseudoHeader = h.pseudoHeader →
      ∃ fuel h' pos, (into.deserialize fuel).run (bytes ++ rest) 0 =
          some (some (h.getSerializedSize, h'), pos) ∧
        SameFields h h' ∧ h'.serialize = some bytes

/-! ## What `AppendOption` keeps -/

/-- The bytes of the options. -/
def optionBytes (h : TcpHeader) : ℕ := (h.options.flatMap TcpOption.serialize).length

/-- A SACK option that may be taken since its size has wrapped. -/
def Wrapped (op : TcpOption) : Prop :=
  ∃ sackList, op = .sack sackList ∧ 2 ^ 29 - 5 ≤ sackList.length

structure Appended (h : TcpHeader) : Prop where
  optionsLen_le : h.optionsLen.toNat ≤ 40
  kinds : ∀ op ∈ h.options, op.getKind ≠ 0
  small : ∀ op ∈ h.options, op.Small ∨ Wrapped op
  /-- What is counted if nothing has wrapped. -/
  counted : (∀ op ∈ h.options, op.Small) →
    h.optionsLen.toNat = h.optionBytes ∧ h.length.toNat = (23 + h.optionBytes) / 4

theorem appended_init : Appended init where
  optionsLen_le := by decide
  kinds := nofun
  small := nofun
  counted _ := by decide

/-- The condition of `AppendOption`, in natural numbers. -/
theorem fits_iff {h : TcpHeader} {op : TcpOption} :
    h.optionsLen.toUInt32 + op.getSerializedSize ≤ maxOptionsLen.toUInt32 ↔
      (h.optionsLen.toNat + op.getSerializedSize.toNat) % 2 ^ 32 ≤ 40 := by
  rw [UInt32.le_iff_toNat_le, UInt32.toNat_add, UInt8.toNat_toUInt32]
  rfl

theorem small_or_wrapped {op : TcpOption} (hknown : (Call.appendOption op).IsKnown) {n : ℕ}
    (hn : n ≤ 40) (hfits : (n + op.getSerializedSize.toNat) % 2 ^ 32 ≤ 40) :
    op.Small ∨ Wrapped op := by
  cases op with
  | unknown => exact hknown.elim
  | sack sackList =>
    have hsize : (TcpOption.sack sackList).getSerializedSize.toNat =
        (2 + sackList.length % 2 ^ 32 * 8 % 2 ^ 32) % 2 ^ 32 := by
      rw [TcpOption.getSerializedSize, UInt32.toNat_add, UInt32.toNat_mul, UInt32.toNat_ofNat']
      rfl
    rw [hsize] at hfits
    by_cases hle : sackList.length ≤ 4
    · exact .inl hle
    · exact .inr ⟨sackList, rfl, by omega⟩
  | _ => exact .inl trivial

theorem optionBytes_append (h : TcpHeader) (op : TcpOption) (optionsLen length : UInt8) :
    optionBytes { h with options := h.options ++ [op], optionsLen, length } =
      h.optionBytes + op.serialize.length := by
  simp [optionBytes]

theorem Appended.appendOption {h : TcpHeader} (hh : Appended h) {op : TcpOption}
    (hknown : (Call.appendOption op).IsKnown) : Appended (h.appendOption op).2 := by
  unfold TcpHeader.appendOption
  split_ifs with hlen hkind hend
  · exact hh
  · have hfits := fits_iff.1 hlen
    have hle := hh.optionsLen_le
    have hnew : (h.optionsLen + op.getSerializedSize.toUInt8).toNat =
        (h.optionsLen.toNat + op.getSerializedSize.toNat) % 256 := by
      rw [UInt8.toNat_add, UInt32.toNat_toUInt8]
      omega
    refine ⟨?_, ?_, ?_, fun hsmall => ?_⟩
    · dsimp only
      omega
    · dsimp only
      rw [List.forall_mem_append, List.forall_mem_singleton]
      exact ⟨hh.kinds, hend⟩
    · dsimp only
      rw [List.forall_mem_append, List.forall_mem_singleton]
      exact ⟨hh.small, small_or_wrapped hknown hle hfits⟩
    · dsimp only at hsmall
      rw [List.forall_mem_append, List.forall_mem_singleton] at hsmall
      obtain ⟨hbefore, -⟩ := hh.counted hsmall.1
      have hlength := TcpOption.length_serialize hsmall.2
      have hshort := TcpOption.length_serialize_le hsmall.2
      rw [optionBytes_append]
      dsimp only
      have htotal : (h.optionsLen + op.getSerializedSize.toUInt8).toNat =
          h.optionBytes + op.serialize.length := by omega
      refine ⟨htotal, ?_⟩
      rw [UInt32.toNat_toUInt8, UInt32.toNat_shiftRight, UInt32.toNat_add, UInt8.toNat_toUInt32,
        htotal, show UInt32.toNat (20 + 3) = 23 from rfl, show UInt32.toNat 2 % 32 = 2 from rfl,
        Nat.shiftRight_eq_div_pow]
      omega
  · exact hh
  · exact hh

theorem Appended.call {h : TcpHeader} (hh : Appended h) {c : Call} (hknown : c.IsKnown) :
    Appended (h.call c) := by
  cases c with
  | appendOption op => exact hh.appendOption hknown
  | _ => exact ⟨hh.optionsLen_le, hh.kinds, hh.small, hh.counted⟩

theorem appended_build {calls : List Call} (hknown : ∀ c ∈ calls, c.IsKnown) :
    Appended (build calls) := by
  have hrun (h : TcpHeader) (hh : Appended h) : Appended (calls.foldl call h) := by
    induction calls generalizing h with
    | nil => exact hh
    | cons c calls ih =>
      rw [List.forall_mem_cons] at hknown
      exact ih hknown.2 _ (hh.call hknown.1)
  exact hrun init appended_init

/-! ## What is written -/

theorem toNat_optionLen {options : List TcpOption} (h : ∀ op ∈ options, op.Small) :
    (optionLen options).toNat = (options.flatMap TcpOption.serialize).length % 2 ^ 32 := by
  induction options with
  | nil => rfl
  | cons op options ih =>
    rw [List.forall_mem_cons] at h
    have hrest := ih h.2
    have hop := TcpOption.length_serialize h.1
    rw [optionLen, List.map_cons, List.sum_cons, UInt32.toNat_add, List.flatMap_cons,
      List.length_append, ← hop]
    rw [optionLen] at hrest
    omega

/-- The bytes behind the options. -/
def padding (t : ℕ) : ℕ := (4 - t % 4) % 4

theorem toNat_getSerializedSize {h : TcpHeader} {t : ℕ} (ht : (optionLen h.options).toNat = t)
    (hle : t ≤ 60) : h.getSerializedSize.toNat = 20 + t + padding t := by
  have hlen : (20 + optionLen h.options).toNat = 20 + t := by
    rw [UInt32.toNat_add, ht, show UInt32.toNat 20 = 20 from rfl]
    omega
  have hmod : ((20 + optionLen h.options) % 4).toNat = t % 4 := by
    rw [UInt32.toNat_mod, hlen, show UInt32.toNat 4 = 4 from rfl]
    omega
  have hheader : h.calculateHeaderLength.toNat = (20 + t + padding t) / 4 := by
    unfold calculateHeaderLength
    dsimp only
    rw [UInt32.toNat_toUInt8, UInt32.toNat_shiftRight, show UInt32.toNat 2 % 32 = 2 from rfl,
      Nat.shiftRight_eq_div_pow, padding]
    split_ifs with hzero
    · have hne : t % 4 ≠ 0 := fun h => hzero (UInt32.toNat_inj.1 (hmod.trans h))
      have hle4 : (20 + optionLen h.options) % 4 ≤ 4 := by
        rw [UInt32.le_iff_toNat_le, hmod]
        exact Nat.le_of_lt (Nat.mod_lt _ (by decide))
      rw [UInt32.toNat_add, UInt32.toNat_sub_of_le _ _ hle4, hlen, hmod,
        show UInt32.toNat 4 = 4 from rfl]
      omega
    · have heq : t % 4 = 0 := by
        rw [← hmod, not_not.1 hzero]
        rfl
      rw [hlen]
      omega
  rw [getSerializedSize, UInt32.toNat_mul, UInt8.toNat_toUInt32, hheader,
    show UInt32.toNat 4 = 4 from rfl]
  unfold padding
  omega

/-- The fixed part with a checksum. -/
def headBytes (h : TcpHeader) (c₀ c₁ : UInt8) : List UInt8 :=
  writeHtonU16 h.sourcePort ++ writeHtonU16 h.destinationPort ++ writeHtonU32 h.sequenceNumber ++
    writeHtonU32 h.ackNumber ++ writeHtonU16 (h.length.toUInt16 <<< 12 ||| h.flags.toUInt16) ++
    writeHtonU16 h.windowSize ++ [c₀, c₁] ++ writeHtonU16 h.urgentPointer

theorem exists_writeChecksum_eq (h : TcpHeader) (tail : List UInt8) :
    ∃ c₀ c₁, h.writeChecksum (h.fixedPart ++ tail) = headBytes h c₀ c₁ ++ tail := by
  unfold writeChecksum
  cases h.pseudoHeader with
  | none => exact ⟨0, 0, rfl⟩
  | some p => exact ⟨_, _, rfl⟩

theorem toNat_field (length flags : UInt8) (h : length.toNat < 16) :
    (length.toUInt16 <<< 12 ||| flags.toUInt16).toNat = length.toNat * 4096 + flags.toNat := by
  have hflags := flags.toNat_lt
  have hshift : length.toNat <<< 12 % 2 ^ 16 = length.toNat <<< 12 := by
    rw [Nat.shiftLeft_eq]
    omega
  simp only [UInt16.toNat_or, UInt16.toNat_shiftLeft, UInt8.toNat_toUInt16]
  rw [show UInt16.toNat 12 % 16 = 12 from rfl, hshift,
    ← Nat.shiftLeft_add_eq_or_of_lt (by omega), Nat.shiftLeft_eq]

theorem length_field {length flags : UInt8} (h : length.toNat < 16) :
    ((length.toUInt16 <<< 12 ||| flags.toUInt16) >>> 12).toUInt8 = length := by
  have hflags := flags.toNat_lt
  rw [← UInt8.toNat_inj, UInt16.toNat_toUInt8, UInt16.toNat_shiftRight, toNat_field _ _ h,
    show UInt16.toNat 12 % 16 = 12 from rfl, Nat.shiftRight_eq_div_pow]
  omega

theorem flags_field {length flags : UInt8} (h : length.toNat < 16) :
    ((length.toUInt16 <<< 12 ||| flags.toUInt16) &&& 0xff).toUInt8 = flags := by
  have hflags := flags.toNat_lt
  rw [← UInt8.toNat_inj, UInt16.toNat_toUInt8, UInt16.toNat_and, toNat_field _ _ h,
    show UInt16.toNat 0xff = 2 ^ 8 - 1 from rfl, Nat.and_two_pow_sub_one_eq_mod]
  omega

theorem run_readFixedPart_headBytes {h : TcpHeader} (hlength : h.length.toNat < 16)
    (into : TcpHeader) (c₀ c₁ : UInt8) (tail : List UInt8) :
    into.readFixedPart.run (headBytes h c₀ c₁ ++ tail) 0 = some ({ into with
      sourcePort := h.sourcePort, destinationPort := h.destinationPort
      sequenceNumber := h.sequenceNumber, ackNumber := h.ackNumber, length := h.length
      flags := h.flags, windowSize := h.windowSize, urgentPointer := h.urgentPointer
      options := [], optionsLen := 0 }, 20) := by
  apply (run_readFixedPart ..).trans
  simp only [readNtohU16_bytes, readNtohU32_bytes, length_field hlength, flags_field hlength]

/-! ## What is read -/

theorem le_length_of_drop {buf l l' : List UInt8} {pos : ℕ} (h : buf.drop pos = l ++ l')
    (hl : l ≠ []) : pos + l.length ≤ buf.length := by
  have hlen := congrArg List.length h
  have hpos := List.length_pos_of_ne_nil hl
  rw [List.length_drop, List.length_append] at hlen
  omega

/-- The loop takes an option off the space. -/
theorem turn_of_small {buf l : List UInt8} {s : OptionLoop} {op : TcpOption} {pos : ℕ}
    (hop : op.Small) (hkind : op.getKind ≠ 0) (hbuf : buf.drop pos = op.serialize ++ l)
    (hspace : op.serialize.length ≤ s.optionLen.toNat) :
    Turn optionTurn buf (s, pos) (⟨s.options ++ [op], s.optionsLen + op.getSerializedSize.toUInt8,
      s.optionLen - op.getSerializedSize⟩, pos + op.serialize.length) := by
  obtain ⟨tail, htail⟩ := TcpOption.serialize_eq_cons hop
  have hsize := TcpOption.length_serialize hop
  have hpos : 0 < op.serialize.length := by
    rw [htail]
    exact Nat.succ_pos _
  have hne : s.optionLen ≠ 0 := by
    intro hzero
    rw [hzero] at hspace
    exact absurd hspace (Nat.not_le.2 hpos)
  have hle : op.getSerializedSize ≤ s.optionLen := by
    rw [UInt32.le_iff_toNat_le, ← hsize]
    exact hspace
  have hroom := le_length_of_drop hbuf (List.ne_nil_of_length_pos hpos)
  have hfirst : buf.drop pos = op.getKind :: (tail ++ l) := by rw [hbuf, htail, List.cons_append]
  show (optionTurn s).run buf pos = _
  rw [optionTurn, if_neg hne]
  refine run_here_bind_eq_some.2 ⟨_, _, run_readU8 hfirst, run_here_bind_eq_some.2
    ⟨_, _, TcpOption.run_deserialize hop hbuf, ?_⟩⟩
  show (takeOption s op.getSerializedSize op).run buf pos = _
  rw [takeOption, if_neg (not_not.2 rfl), if_pos hle, run_next_bind_eq_some, ← hsize]
  refine ⟨hroom, ?_⟩
  dsimp only
  rw [if_neg hkind]
  rfl

/-- The padding is taken as one option. -/
theorem turn_of_end {buf l : List UInt8} {s : OptionLoop} {pos n : ℕ}
    (hbuf : buf.drop pos = List.replicate (n + 1) 0 ++ l) (hspace : s.optionLen.toNat = n + 1) :
    Turn optionTurn buf (s, pos) (⟨s.options ++ [.end_],
      s.optionsLen + 1 + (s.optionLen - 1).toUInt8, 0⟩, pos + (n + 1)) := by
  have hroom := le_length_of_drop hbuf (by simp)
  rw [List.length_replicate] at hroom
  rw [List.replicate_succ, List.cons_append] at hbuf
  have hne : s.optionLen ≠ 0 := by
    intro hzero
    rw [hzero] at hspace
    cases hspace
  have hle : 1 ≤ s.optionLen := by
    rw [UInt32.le_iff_toNat_le, hspace, show UInt32.toNat 1 = 1 from rfl]
    exact Nat.le_add_left _ _
  have hsub : (s.optionLen - 1).toNat = n := by
    rw [UInt32.toNat_sub_of_le _ _ hle, hspace]
    rfl
  have hop : (TcpOption.ofKind 0).deserialize.run buf pos = some ((1, .end_), pos + 1) :=
    @TcpOption.run_deserialize .end_ buf (List.replicate n 0 ++ l) pos trivial hbuf
  have hsize : TcpOption.end_.getSerializedSize = 1 := rfl
  have hkind : TcpOption.end_.getKind = 0 := rfl
  show (optionTurn s).run buf pos = _
  rw [optionTurn, if_neg hne]
  refine run_here_bind_eq_some.2 ⟨_, _, run_readU8 hbuf, run_here_bind_eq_some.2
    ⟨_, _, hop, ?_⟩⟩
  show (takeOption s 1 .end_).run buf pos = _
  rw [takeOption, hsize, if_neg (not_not.2 rfl), if_pos hle, run_next_bind_eq_some]
  refine ⟨show pos + 1 ≤ _ by omega, ?_⟩
  dsimp only
  rw [if_pos hkind, run_next_bind_eq_some, hsub]
  refine ⟨show pos + 1 + n ≤ _ by omega, ?_⟩
  rw [run_pure]
  congr 2
  show pos + 1 + n = _
  omega

theorem loop_of_zero {buf : List UInt8} {s : OptionLoop} {pos : ℕ} (h : s.optionLen = 0) :
    (loop optionTurn 1 s).run buf pos = some (some s, pos) := by
  have hturn : (optionTurn s).run buf pos = some ((s, false), pos) := by
    rw [optionTurn, if_pos h]
    rfl
  exact run_bind_of_run hturn

/-- Enough turns take all options, and the padding. -/
theorem exists_loop_eq {buf l : List UInt8} {s : OptionLoop} {pos pad : ℕ}
    {options : List TcpOption}
    (hsmall : ∀ op ∈ options, op.Small) (hkinds : ∀ op ∈ options, op.getKind ≠ 0)
    (hbuf : buf.drop pos = options.flatMap TcpOption.serialize ++ (List.replicate pad 0 ++ l))
    (hspace : s.optionLen.toNat = (options.flatMap TcpOption.serialize).length + pad) :
    ∃ fuel t p, (loop optionTurn fuel s).run buf pos = some (some t, p) ∧
      t.options = s.options ++ options ++ if pad = 0 then [] else [.end_] := by
  induction options generalizing s pos with
  | nil =>
    cases pad with
    | zero =>
      have hzero : s.optionLen = 0 := UInt32.toNat_inj.1 hspace
      exact ⟨1, s, pos, loop_of_zero hzero, by simp⟩
    | succ n =>
      have hturn := turn_of_end hbuf (hspace.trans (Nat.zero_add _))
      refine ⟨2, _, _, (run_loop_of_turn hturn 1).trans (loop_of_zero rfl), ?_⟩
      simp
  | cons op options ih =>
    rw [List.forall_mem_cons] at hsmall hkinds
    rw [List.flatMap_cons, List.append_assoc] at hbuf
    rw [List.flatMap_cons, List.length_append] at hspace
    have hroom : op.serialize.length ≤ s.optionLen.toNat := by omega
    have hturn := turn_of_small hsmall.1 hkinds.1 hbuf hroom
    have hsize := TcpOption.length_serialize hsmall.1
    have hle : op.getSerializedSize ≤ s.optionLen := by
      rw [UInt32.le_iff_toNat_le, ← hsize]
      exact hroom
    have hsub := UInt32.toNat_sub_of_le _ _ hle
    have hrest : buf.drop (pos + op.serialize.length) =
        options.flatMap TcpOption.serialize ++ (List.replicate pad 0 ++ l) := by
      rw [← List.drop_drop, hbuf, List.drop_left]
    obtain ⟨fuel, t, p, hrun, ht⟩ := ih hsmall.2 hkinds.2 (s := ⟨s.options ++ [op],
      s.optionsLen + op.getSerializedSize.toUInt8, s.optionLen - op.getSerializedSize⟩) hrest
      (by dsimp only; omega)
    refine ⟨fuel + 1, t, p, (run_loop_of_turn hturn fuel).trans hrun, ?_⟩
    rw [ht]
    simp

/-! ## There and back -/

/-- The header that is written before its checksum. -/
def plainBytes (h : TcpHeader) : List UInt8 :=
  h.fixedPart ++ (h.options.flatMap TcpOption.serialize ++ List.replicate (padding h.optionBytes) 0)

theorem serialize_eq {h : TcpHeader} (ht : (optionLen h.options).toNat = h.optionBytes)
    (hle : h.optionBytes ≤ 60) : h.serialize = some (h.writeChecksum h.plainBytes) := by
  have hsize := toNat_getSerializedSize ht hle
  have hlen : h.plainBytes.length = 20 + h.optionBytes + padding h.optionBytes := by
    rw [plainBytes, List.length_append, List.length_append, List.length_replicate, ← optionBytes]
    show 20 + _ = _
    omega
  have hbytes : h.fixedPart ++ h.options.flatMap TcpOption.serialize ++
      List.replicate ((4 - (optionLen h.options).toNat % 4) % 4) 0 = h.plainBytes := by
    rw [ht, List.append_assoc]
    rfl
  rw [serialize, hbytes, if_pos (by rw [hlen, hsize])]

theorem length_le_of_serialize {h : TcpHeader} {bytes : List UInt8} {op : TcpOption}
    (hser : h.serialize = some bytes) (hop : op ∈ h.options) : op.serialize.length ≤ 1020 := by
  have hsize : h.getSerializedSize.toNat ≤ 1020 := by
    have hlt := h.calculateHeaderLength.toNat_lt
    rw [getSerializedSize, UInt32.toNat_mul, UInt8.toNat_toUInt32, show UInt32.toNat 4 = 4 from rfl]
    omega
  have hmem : op.serialize.length ≤ (h.options.flatMap TcpOption.serialize).length := by
    obtain ⟨before, behind, heq⟩ := List.append_of_mem hop
    rw [heq, List.flatMap_append, List.flatMap_cons, List.length_append, List.length_append]
    omega
  unfold serialize at hser
  dsimp only at hser
  split_ifs at hser with hle
  rw [List.length_append, List.length_append] at hle
  omega

/-- The header that a reader gets. -/
def readBack (into h : TcpHeader) (optionsLen : UInt8) (goodChecksum : Bool) : TcpHeader :=
  { into with
    sourcePort := h.sourcePort, destinationPort := h.destinationPort
    sequenceNumber := h.sequenceNumber, ackNumber := h.ackNumber, length := h.length
    flags := h.flags, windowSize := h.windowSize, urgentPointer := h.urgentPointer
    options := h.options ++ if padding h.optionBytes = 0 then [] else [.end_]
    optionsLen, goodChecksum }

section ReadBack

variable {into h : TcpHeader} {optionsLen : UInt8} {goodChecksum : Bool}

theorem sameFields_readBack : SameFields h (readBack into h optionsLen goodChecksum) where
  sourcePort := rfl
  destinationPort := rfl
  sequenceNumber := rfl
  ackNumber := rfl
  flags := rfl
  windowSize := rfl
  urgentPointer := rfl
  options := by
    unfold readBack
    split_ifs
    · exact .inl (List.append_nil _)
    · exact .inr rfl

theorem small_readBack (hsmall : ∀ op ∈ h.options, op.Small) :
    ∀ op ∈ (readBack into h optionsLen goodChecksum).options, op.Small := by
  unfold readBack
  rw [List.forall_mem_append]
  refine ⟨hsmall, fun op hop => ?_⟩
  split_ifs at hop
  · cases hop
  · rw [List.mem_singleton.1 hop]
    exact trivial

/-- The option that stands for the padding is as long as the padding begins. -/
theorem optionBytes_readBack : (readBack into h optionsLen goodChecksum).optionBytes =
    h.optionBytes + if padding h.optionBytes = 0 then 0 else 1 := by
  rw [optionBytes, readBack, List.flatMap_append, List.length_append, ← optionBytes]
  congr 1
  split_ifs <;> rfl

/-- What is left of the padding behind its option. -/
theorem padding_readBack : padding (readBack into h optionsLen goodChecksum).optionBytes =
    padding h.optionBytes - 1 := by
  rw [optionBytes_readBack]
  unfold padding
  split_ifs <;> omega

theorem plainBytes_readBack :
    (readBack into h optionsLen goodChecksum).plainBytes = h.plainBytes := by
  have hfixed : (readBack into h optionsLen goodChecksum).fixedPart = h.fixedPart := rfl
  rw [plainBytes, plainBytes, hfixed, padding_readBack, readBack, List.flatMap_append,
    List.append_assoc]
  congr 2
  split_ifs with hzero
  · rw [hzero]
    rfl
  · obtain ⟨n, hn⟩ := Nat.exists_eq_succ_of_ne_zero hzero
    rw [hn, List.replicate_succ]
    rfl

theorem writeChecksum_readBack (hpseudo : into.pseudoHeader = h.pseudoHeader) (bytes : List UInt8) :
    (readBack into h optionsLen goodChecksum).writeChecksum bytes = h.writeChecksum bytes := by
  have hpseudo' : (readBack into h optionsLen goodChecksum).pseudoHeader = h.pseudoHeader := hpseudo
  rw [writeChecksum, hpseudo', ← writeChecksum]

end ReadBack

theorem optionLen_eq_optionBytes {h : TcpHeader} (hsmall : ∀ op ∈ h.options, op.Small)
    (hle : h.optionBytes ≤ 60) : (optionLen h.options).toNat = h.optionBytes := by
  rw [toNat_optionLen hsmall, ← optionBytes]
  omega

/-- The bytes of a header are read as the header. -/
theorem exists_run_deserialize_eq {h : TcpHeader} (into : TcpHeader) (hh : Appended h)
    (hsmall : ∀ op ∈ h.options, op.Small) (rest : List UInt8) :
    ∃ fuel optionsLen goodChecksum pos,
      (into.deserialize fuel).run (h.writeChecksum h.plainBytes ++ rest) 0 =
        some (some ((readBack into h optionsLen goodChecksum).getSerializedSize,
          readBack into h optionsLen goodChecksum), pos) := by
  obtain ⟨hlen, hlength⟩ := hh.counted hsmall
  have hmax := hh.optionsLen_le
  obtain ⟨c₀, c₁, hbytes⟩ := exists_writeChecksum_eq h
    (h.options.flatMap TcpOption.serialize ++ List.replicate (padding h.optionBytes) 0)
  have hbuf : h.writeChecksum h.plainBytes ++ rest =
      headBytes h c₀ c₁ ++ (h.options.flatMap TcpOption.serialize ++
        (List.replicate (padding h.optionBytes) 0 ++ rest)) := by
    rw [plainBytes, hbytes]
    simp only [List.append_assoc]
  rw [hbuf]
  have hfix := run_readFixedPart_headBytes (show h.length.toNat < 16 by omega) into c₀ c₁
    (h.options.flatMap TcpOption.serialize ++ (List.replicate (padding h.optionBytes) 0 ++ rest))
  -- the space that the header announces is that of the options with their padding
  have hspace : h.optionSpace.toNat = h.optionBytes + padding h.optionBytes := by
    rw [toNat_optionSpace h (by omega), hlength, padding]
    omega
  have hfits : h.optionSpace ≤ maxOptionsLen.toUInt32 := by
    rw [UInt32.le_iff_toNat_le, hspace, show maxOptionsLen.toUInt32.toNat = 40 from rfl, padding]
    omega
  have hdrop : (headBytes h c₀ c₁ ++ (h.options.flatMap TcpOption.serialize ++
      (List.replicate (padding h.optionBytes) 0 ++ rest))).drop 20 =
        h.options.flatMap TcpOption.serialize ++
          (List.replicate (padding h.optionBytes) 0 ++ rest) := rfl
  obtain ⟨fuel, s, pos, hloop, hs⟩ := exists_loop_eq (s := ⟨[], 0, h.optionSpace⟩) hsmall hh.kinds
    hdrop hspace
  obtain ⟨h', goodChecksum, hh', hrun⟩ := run_deserialize_of_loop hfix hfits hloop
  rw [List.nil_append] at hs
  rw [hs] at hh'
  rw [hh'] at hrun
  exact ⟨fuel, s.optionsLen, goodChecksum, pos, hrun⟩

theorem roundTrips_of_small {h : TcpHeader} (hh : Appended h)
    (hsmall : ∀ op ∈ h.options, op.Small) : RoundTrips h := by
  obtain ⟨hlen, -⟩ := hh.counted hsmall
  have hmax := hh.optionsLen_le
  have ht := optionLen_eq_optionBytes hsmall (by omega)
  have hsize := toNat_getSerializedSize ht (by omega)
  refine ⟨_, serialize_eq ht (by omega), ?_, fun into rest hpseudo => ?_⟩
  · obtain ⟨c₀, c₁, hbytes⟩ := exists_writeChecksum_eq h
      (h.options.flatMap TcpOption.serialize ++ List.replicate (padding h.optionBytes) 0)
    rw [plainBytes, hbytes, hsize, List.length_append, List.length_append, List.length_replicate,
      ← optionBytes]
    show 20 + _ = _
    omega
  · obtain ⟨fuel, optionsLen, goodChecksum, pos, hrun⟩ :=
      exists_run_deserialize_eq into hh hsmall rest
    have hle : (readBack into h optionsLen goodChecksum).optionBytes ≤ 60 := by
      rw [optionBytes_readBack]
      split_ifs <;> omega
    have ht' := optionLen_eq_optionBytes (small_readBack hsmall) hle
    have hsize' : (readBack into h optionsLen goodChecksum).getSerializedSize =
        h.getSerializedSize := by
      rw [← UInt32.toNat_inj, hsize, toNat_getSerializedSize ht' hle, padding_readBack,
        optionBytes_readBack]
      split_ifs <;> omega
    rw [hsize'] at hrun
    refine ⟨fuel, _, pos, hrun, sameFields_readBack, ?_⟩
    rw [serialize_eq ht' hle, plainBytes_readBack, writeChecksum_readBack hpseudo]

/-- A header is read as it has been written exactly if `AppendOption` has taken no SACK option of
more than four blocks, which it does only where the size of the option has wrapped. -/
theorem roundTrips_build_iff (calls : List Call) (hknown : ∀ c ∈ calls, c.IsKnown) :
    RoundTrips (build calls) ↔
      ∀ sackList, .sack sackList ∈ (build calls).options → sackList.length ≤ 4 := by
  have hh := appended_build hknown
  constructor
  · rintro ⟨bytes, hser, -⟩ sackList hsack
    have hlen := length_le_of_serialize hser hsack
    rw [TcpOption.length_serialize_sack] at hlen
    rcases hh.small _ hsack with hsmall | ⟨l, heq, hwrapped⟩
    · exact hsmall
    · cases heq
      omega
  · intro hsack
    refine roundTrips_of_small hh fun op hop => ?_
    rcases hh.small _ hop with hsmall | ⟨l, rfl, -⟩
    · exact hsmall
    · exact hsack l hop

/-- Two ports, and options with padding. -/
theorem roundTrips_synAck : RoundTrips (build [.setSourcePort 80, .setDestinationPort 49153,
    .appendOption (.mss 1460), .appendOption .sackPermitted, .appendOption (.sack [(1, 2)])]) := by
  refine (roundTrips_build_iff _ ?_).2 fun sackList hsack => ?_
  · simp [Call.IsKnown]
  · have hoptions : (build [.setSourcePort 80, .setDestinationPort 49153, .appendOption (.mss 1460),
        .appendOption .sackPermitted, .appendOption (.sack [(1, 2)])]).options =
        [.mss 1460, .sackPermitted, .sack [(1, 2)]] := rfl
    rw [hoptions] at hsack
    obtain rfl : sackList = [(1, 2)] := by simpa using hsack
    decide

theorem mem_options_build (sackList : List (UInt32 × UInt32))
    (hsize : (TcpOption.sack sackList).getSerializedSize ≤ maxOptionsLen.toUInt32) :
    .sack sackList ∈ (build [.appendOption (.sack sackList)]).options := by
  have hfits : init.optionsLen.toUInt32 + (TcpOption.sack sackList).getSerializedSize ≤
      maxOptionsLen.toUInt32 := by
    rw [show init.optionsLen.toUInt32 = 0 from rfl, UInt32.zero_add]
    exact hsize
  show .sack sackList ∈ (init.appendOption (.sack sackList)).2.options
  rw [appendOption, if_pos hfits]
  exact List.mem_singleton_self _

/-- An option whose size is 2 modulo 2 ^ 32 is taken, and written behind the end of the buffer. -/
theorem not_roundTrips_wrapped :
    (Call.appendOption (.sack (List.replicate (2 ^ 29) (0, 0)))).IsKnown ∧
      ¬ RoundTrips (build [.appendOption (.sack (List.replicate (2 ^ 29) (0, 0)))]) := by
  refine ⟨trivial, ?_⟩
  rintro ⟨bytes, hser, -⟩
  have hsize : (TcpOption.sack (List.replicate (2 ^ 29) (0, 0))).getSerializedSize = 2 := by
    rw [TcpOption.getSerializedSize, List.length_replicate]
    rfl
  have hmem := mem_options_build (List.replicate (2 ^ 29) (0, 0)) (by
    rw [hsize]
    decide)
  have hlen := length_le_of_serialize hser hmem
  rw [TcpOption.length_serialize_sack, List.length_replicate] at hlen
  omega

end TcpHeader

end SeanetSim
