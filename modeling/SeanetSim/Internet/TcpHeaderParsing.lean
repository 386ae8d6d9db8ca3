import SeanetSim.Internet.TcpHeader

/-!
# Parsing a TCP header

The loop over the option space goes on by the size that an option parser returns.  It ends unless it
comes to an option of an unknown kind whose length byte is 0 (`TcpHeader.terminates_iff`), and it
stays inside the header exactly where each option it comes to has room for all that its parser reads
(`TcpHeader.readsInside_iff`).
-/

namespace SeanetSim

open TracedReader Relation

namespace TcpHeader

variable {buf : List UInt8} {h : TcpHeader} {a b : OptionLoop × ℕ}

/-- Enough turns of the loop let `Deserialize` return, or stop at an assertion. -/
def Terminates (h : TcpHeader) (buf : List UInt8) : Prop :=
  ∃ fuel, ∀ pos, (h.deserialize fuel).run buf 0 ≠ some (none, pos)

/-- A state of the loop over the options, with its position, that parsing `buf` comes to. -/
def ComesTo (h : TcpHeader) (buf : List UInt8) (a : OptionLoop × ℕ) : Prop :=
  ∃ h' pos, h.readFixedPart.run buf 0 = some (h', pos) ∧
    h'.optionSpace ≤ maxOptionsLen.toUInt32 ∧
    ReflTransGen (Turn optionTurn buf) (⟨[], 0, h'.optionSpace⟩, pos) a

theorem comesTo_iff {h' : TcpHeader} {pos : ℕ} (hfix : h.readFixedPart.run buf 0 = some (h', pos))
    (hspace : h'.optionSpace ≤ maxOptionsLen.toUInt32) :
    h.ComesTo buf a ↔ ReflTransGen (Turn optionTurn buf) (⟨[], 0, h'.optionSpace⟩, pos) a := by
  constructor
  · rintro ⟨h₁, pos₁, hrun, -, hcomes⟩
    rw [hfix, Option.some.injEq, Prod.mk.injEq] at hrun
    obtain ⟨rfl, rfl⟩ := hrun
    exact hcomes
  · exact fun hcomes => ⟨h', pos, hfix, hspace, hcomes⟩

/-- An option of an unknown kind whose length byte is 0. -/
def ZeroSized (buf : List UInt8) (a : OptionLoop × ℕ) : Prop :=
  a.1.optionLen ≠ 0 ∧ ∃ kind, buf[a.2]? = some kind ∧ TcpOption.isKindKnown kind = false ∧
    buf[a.2 + 1]? = some 0

/-- A turn takes an option off the space, and the padding behind it if it is the last one. -/
structure TakesOption (buf : List UInt8) (a b : OptionLoop × ℕ) (kind : UInt8) (op : TcpOption) :
    Prop where
  optionLen_ne : a.1.optionLen ≠ 0
  hasKind : buf[a.2]? = some kind
  run : ∃ p, (TcpOption.ofKind kind).deserialize.run buf a.2 = some ((op.getSerializedSize, op), p)
  size_le : op.getSerializedSize ≤ a.1.optionLen
  options : b.1.options = a.1.options ++ [op]
  optionLen : b.1.optionLen = if op.getKind = 0 then 0 else a.1.optionLen - op.getSerializedSize
  pos : b.2 + b.1.optionLen.toNat = a.2 + a.1.optionLen.toNat

theorem exists_takes_of_turn (h : Turn optionTurn buf a b) :
    ∃ kind op, TakesOption buf a b kind op := by
  obtain ⟨s, pos⟩ := a
  obtain ⟨t, p'⟩ := b
  have h : (optionTurn s).run buf pos = some ((t, true), p') := h
  unfold optionTurn at h
  by_cases hzero : s.optionLen = 0
  · rw [if_pos hzero] at h
    cases h
  rw [if_neg hzero, run_here_bind_eq_some] at h
  obtain ⟨kind, p₀, hkind, h⟩ := h
  obtain ⟨⟨optionSize, op⟩, p, hop, h⟩ := run_here_bind_eq_some.1 h
  have hkind : buf[pos]? = some kind := by
    obtain ⟨b, hb, heq⟩ := Option.map_eq_some_iff.1 hkind
    cases heq
    exact hb
  have h : (takeOption s optionSize op).run buf pos = some ((t, true), p') := h
  unfold takeOption at h
  by_cases hsize : optionSize = op.getSerializedSize
  · subst hsize
    rw [if_neg (not_not.2 rfl)] at h
    by_cases hle : op.getSerializedSize ≤ s.optionLen
    · have hsub := UInt32.toNat_sub_of_le _ _ hle
      have hle' := UInt32.le_iff_toNat_le.1 hle
      rw [if_pos hle, run_next_bind_eq_some] at h
      obtain ⟨-, h⟩ := h
      by_cases hend : op.getKind = 0
      · rw [if_pos hend, run_next_bind_eq_some] at h
        obtain ⟨-, h⟩ := h
        cases h
        refine ⟨kind, op, hzero, hkind, ⟨p, hop⟩, hle, rfl, (if_pos hend).symm, ?_⟩
        show pos + _ + (s.optionLen - op.getSerializedSize).toNat + 0 = pos + s.optionLen.toNat
        omega
      · rw [if_neg hend] at h
        cases h
        refine ⟨kind, op, hzero, hkind, ⟨p, hop⟩, hle, rfl, (if_neg hend).symm, ?_⟩
        show pos + _ + (s.optionLen - op.getSerializedSize).toNat = pos + s.optionLen.toNat
        omega
    · rw [if_neg hle] at h
      cases h
  · rw [if_pos hsize] at h
    cases h

/-! ## The end of the loop -/

/-- A turn leaves less of the option space, unless the option is of size 0. -/
theorem optionLen_lt_of_turn (h : Turn optionTurn buf a b) (hzero : ¬ ZeroSized buf a) :
    b.1.optionLen.toNat < a.1.optionLen.toNat := by
  obtain ⟨kind, op, htakes⟩ := exists_takes_of_turn h
  obtain ⟨p, hrun⟩ := htakes.run
  have hpos : 0 < a.1.optionLen.toNat :=
    Nat.pos_of_ne_zero fun h => htakes.optionLen_ne (UInt32.toNat_inj.1 h)
  rw [htakes.optionLen]
  split_ifs
  · exact hpos
  · have hsize : op.getSerializedSize ≠ 0 := by
      cases hknown : TcpOption.isKindKnown kind with
      | true => exact (TcpOption.getSerializedSize_deserialize hknown).run hrun
      | false =>
        exact fun hsize => hzero ⟨htakes.optionLen_ne, kind, htakes.hasKind, hknown,
          TcpOption.size_byte_of_unknown hknown hrun hsize⟩
    have hne : op.getSerializedSize.toNat ≠ 0 := fun h => hsize (UInt32.toNat_inj.1 h)
    have hsub := UInt32.toNat_sub_of_le _ _ htakes.size_le
    omega

/-- An option of size 0 is taken again and again. -/
theorem exists_turn_of_zeroSized (h : ZeroSized buf a) :
    ∃ b, Turn optionTurn buf a b ∧ ZeroSized buf b := by
  obtain ⟨s, pos⟩ := a
  obtain ⟨hne, kind, hkind, hunknown, hsize⟩ := h
  refine ⟨(⟨s.options ++ [.unknown kind 0 []], s.optionsLen + 0, s.optionLen - 0⟩, pos + 0), ?_, ?_⟩
  · show (optionTurn s).run buf pos = _
    rw [optionTurn, if_neg hne]
    refine run_here_bind_eq_some.2 ⟨kind, pos + 1, ?_, run_here_bind_eq_some.2
      ⟨_, _, TcpOption.run_deserialize_zero hunknown hkind hsize, ?_⟩⟩
    · show buf[pos]?.map _ = _
      rw [hkind, Option.map_some]
    · have hkind0 : kind ≠ 0 := by
        rintro rfl
        cases hunknown
      have hlt : pos < buf.length := (List.getElem?_eq_some_iff.1 hkind).1
      show (takeOption s 0 (.unknown kind 0 [])).run buf pos = _
      have hop : (TcpOption.unknown kind 0 []).getSerializedSize = 0 := rfl
      rw [takeOption, hop, if_neg (not_not.2 rfl), if_pos UInt32.zero_le, run_next_bind_eq_some]
      refine ⟨Nat.le_of_lt hlt, ?_⟩
      show (if kind = 0 then _ else _ : TracedReader _).run buf _ = _
      rw [if_neg hkind0]
      rfl
  · rw [UInt32.sub_zero]
    exact ⟨hne, kind, hkind, hunknown, hsize⟩

theorem run_deserialize {h' : TcpHeader} {pos : ℕ} (fuel : ℕ)
    (hfix : h.readFixedPart.run buf 0 = some (h', pos))
    (hspace : h'.optionSpace ≤ maxOptionsLen.toUInt32) :
    (h.deserialize fuel).run buf 0 =
      ((loop optionTurn fuel ⟨[], 0, h'.optionSpace⟩).run buf pos).bind fun r =>
        (h'.finish r.1).run buf r.2 := by
  rw [deserialize, run_bind_of_run hfix, if_neg (UInt32.not_lt.2 hspace), run_bind]

theorem finish_some_ne (h : TcpHeader) (s : OptionLoop) (p q : ℕ) :
    (h.finish (some s)).run buf p ≠ some (none, q) := by
  intro hrun
  obtain ⟨r, -, hrun⟩ := Option.bind_eq_some_iff.1 hrun
  cases hrun

/-- `Deserialize` ends if the loop does. -/
theorem terminates_iff_ends {h' : TcpHeader} {pos : ℕ}
    (hfix : h.readFixedPart.run buf 0 = some (h', pos))
    (hspace : h'.optionSpace ≤ maxOptionsLen.toUInt32) :
    h.Terminates buf ↔ Ends optionTurn buf (⟨[], 0, h'.optionSpace⟩, pos) := by
  refine exists_congr fun fuel => ?_
  rw [run_deserialize fuel hfix hspace]
  constructor
  · intro hend p hrun
    apply hend p
    rw [hrun]
    rfl
  · intro hend p hrun
    obtain ⟨⟨s, q⟩, hs, hrun⟩ := Option.bind_eq_some_iff.1 hrun
    cases s with
    | none => exact hend q hs
    | some s => exact finish_some_ne h' s q p hrun

/-- `Deserialize` comes to an end exactly if it does not come to an option of an unknown kind whose
length byte is 0. -/
theorem terminates_iff (h : TcpHeader) (buf : List UInt8) :
    h.Terminates buf ↔ ∀ a, h.ComesTo buf a → ¬ ZeroSized buf a := by
  cases hfix : h.readFixedPart.run buf 0 with
  | none =>
    refine iff_of_true ⟨0, fun pos hrun => ?_⟩ ?_
    · rw [deserialize, run_bind, hfix] at hrun
      cases hrun
    · rintro a ⟨h', pos, hrun, -⟩
      rw [hfix] at hrun
      cases hrun
  | some r =>
    obtain ⟨h', pos⟩ := r
    by_cases hspace : h'.optionSpace ≤ maxOptionsLen.toUInt32
    · rw [terminates_iff_ends hfix hspace]
      simp only [comesTo_iff hfix hspace]
      constructor
      · intro hend a hcomes hzero
        exact not_ends (ZeroSized buf) (fun a => exists_turn_of_zeroSized) hzero
          ((ends_iff_of_turns hcomes).1 hend)
      · intro hzero
        refine ends_of_measure (fun a => a.1.optionLen.toNat)
          (ReflTransGen (Turn optionTurn buf) (⟨[], 0, h'.optionSpace⟩, pos)) ?_ .refl
        intro a b ha hturn
        exact ⟨ha.tail hturn, optionLen_lt_of_turn hturn (hzero a ha)⟩
    · refine iff_of_true ⟨0, fun p hrun => ?_⟩ ?_
      · rw [deserialize, run_bind_of_run hfix, if_pos (UInt32.not_le.1 hspace)] at hrun
        cases hrun
      · rintro a ⟨h₁, pos₁, hrun, hspace₁, -⟩
        rw [hfix, Option.some.injEq, Prod.mk.injEq] at hrun
        obtain ⟨rfl, rfl⟩ := hrun
        exact absurd hspace₁ hspace

/-- An option of kind 9 with a length byte of 0. -/
theorem not_terminates_zeroLength :
    ∃ buf : List UInt8, buf.length = 24 ∧ ¬ init.Terminates buf := by
  let buf : List UInt8 := List.replicate 12 0 ++ 0x60 :: List.replicate 7 0 ++ [9, 0, 0, 0]
  obtain ⟨h', hfix, -, hlength, -⟩ := @exists_run_readFixedPart buf init (by decide)
  refine ⟨buf, by decide, ?_⟩
  have hspace : h'.optionSpace = 4 := by
    rw [optionSpace, hlength]
    decide
  rw [terminates_iff_ends hfix (by rw [hspace]; decide), hspace]
  exact not_ends (ZeroSized buf) (fun a => exists_turn_of_zeroSized)
    ⟨by decide, 9, by decide, by decide, by decide⟩

/-! ## Reads -/

/-- However long the loop runs, no byte at or behind `n` is asked for. -/
def ReadsInside (h : TcpHeader) (buf : List UInt8) (n : ℕ) : Prop :=
  ∀ fuel, (h.deserialize fuel).reach buf 0 ≤ n

/-- The option space that is left holds all that the parser of the next option reads. -/
def HasRoom (buf : List UInt8) (a : OptionLoop × ℕ) : Prop :=
  a.1.optionLen = 0 ∨
    TcpOption.bytesRead (buf.getD a.2 0) (buf.getD (a.2 + 1) 0) ≤ a.1.optionLen.toNat

/-- `Deserialize` returns. -/
def Returns (h : TcpHeader) (buf : List UInt8) : Prop :=
  ∃ fuel r pos, (h.deserialize fuel).run buf 0 = some (some r, pos)

/-- What is done with a parsed option reads nothing. -/
theorem reach_takeOption_le (s : OptionLoop) (r : UInt32 × TcpOption) (pos n : ℕ) :
    (takeOption s r.1 r.2).reach buf pos ≤ n := by
  unfold takeOption
  split_ifs
  · exact Nat.zero_le n
  · exact reach_bind_le_iff.2 ⟨Nat.zero_le n, fun _ _ =>
      reach_bind_le_iff.2 ⟨Nat.zero_le n, fun _ _ => Nat.zero_le n⟩⟩
  · exact reach_bind_le_iff.2 ⟨Nat.zero_le n, fun _ _ => Nat.zero_le n⟩
  · exact Nat.zero_le n

theorem reach_optionTurn_le_iff {n : ℕ} (hn : n ≤ buf.length) (ha : a.2 + a.1.optionLen.toNat = n) :
    (optionTurn a.1).reach buf a.2 ≤ n ↔ HasRoom buf a := by
  obtain ⟨s, pos⟩ := a
  dsimp only [HasRoom] at ha ⊢
  unfold optionTurn
  by_cases hzero : s.optionLen = 0
  · rw [if_pos hzero]
    exact iff_of_true (Nat.zero_le n) (.inl hzero)
  have hpos : pos + 1 ≤ n := by
    have hne : s.optionLen.toNat ≠ 0 := fun h => hzero (UInt32.toNat_inj.1 h)
    omega
  have hlt : pos < buf.length := Nat.lt_of_lt_of_le hpos hn
  have hkind : readU8.run buf pos = some (buf.getD pos 0, pos + 1) := by
    show buf[pos]?.map _ = _
    rw [List.getElem?_eq_getElem hlt, List.getD_eq_getElem?_getD, List.getElem?_eq_getElem hlt]
    rfl
  rw [if_neg hzero, reach_here_bind_le_iff]
  have hroom : (TcpOption.ofKind (buf.getD pos 0)).deserialize.reach buf pos ≤ n ↔
      pos + TcpOption.bytesRead (buf.getD pos 0) (buf.getD (pos + 1) 0) ≤ n :=
    TcpOption.reach_deserialize_le_iff hn
  constructor
  · rintro ⟨-, hrest⟩
    have hread := hroom.1 (reach_here_bind_le_iff.1 (hrest _ _ hkind)).1
    exact .inr (by omega)
  · rintro (h | hread)
    · exact absurd h hzero
    refine ⟨hpos, fun kind p hp => ?_⟩
    rw [hkind, Option.some.injEq, Prod.mk.injEq] at hp
    obtain ⟨rfl, -⟩ := hp
    exact reach_here_bind_le_iff.2
      ⟨hroom.2 (by omega), fun r _ _ => reach_takeOption_le s r pos n⟩

/-- At every state that the loop comes to, the position and the space left add up. -/
theorem pos_of_turns {start : OptionLoop × ℕ} (h : ReflTransGen (Turn optionTurn buf) start a) :
    a.2 + a.1.optionLen.toNat = start.2 + start.1.optionLen.toNat := by
  induction h with
  | refl => rfl
  | tail _ hturn ih =>
    obtain ⟨kind, op, htakes⟩ := exists_takes_of_turn hturn
    rw [htakes.pos, ih]

theorem reach_checkChecksum_le_iff {n : ℕ} (h : TcpHeader) (pos : ℕ) :
    h.checkChecksum.reach buf pos ≤ n ↔ h.pseudoHeader = none ∨ buf.length % 2 ^ 16 ≤ n := by
  unfold checkChecksum
  cases hpseudo : h.pseudoHeader with
  | none => exact iff_of_true (Nat.zero_le n) (.inl rfl)
  | some p =>
    have hsize : getSize.run buf pos = some (buf.length, pos) := rfl
    have hread : (there 0 (readBytes (UInt16.ofNat buf.length).toNat)).reach buf pos =
        buf.length % 2 ^ 16 := Nat.zero_add _
    dsimp only
    rw [reach_bind_of_run hsize, Nat.max_le, reach_bind_le_iff, hread]
    constructor
    · exact fun hle => .inr hle.2.1
    · rintro (h | hle)
      · cases h
      · exact ⟨Nat.zero_le n, hle, fun _ _ => Nat.zero_le n⟩

theorem exists_run_checkChecksum (h : TcpHeader) (buf : List UInt8) (pos : ℕ) :
    ∃ good, h.checkChecksum.run buf pos = some ({ h with goodChecksum := good }, pos) := by
  unfold checkChecksum
  split
  · exact ⟨h.goodChecksum, rfl⟩
  · have hsize : getSize.run buf pos = some (buf.length, pos) := rfl
    have hle : 0 + (UInt16.ofNat buf.length).toNat ≤ buf.length := by
      rw [Nat.zero_add, UInt16.toNat_ofNat']
      exact Nat.mod_le _ _
    have hread : (there 0 (readBytes (UInt16.ofNat buf.length).toNat)).run buf pos =
        some ((buf.drop 0).take (UInt16.ofNat buf.length).toNat, pos) := by
      show (if _ then _ else _ : Option _).map _ = _
      rw [if_pos hle, Option.map_some]
    dsimp only
    rw [run_bind_of_run hsize, run_bind_of_run hread]
    exact ⟨_, rfl⟩

/-- What `Deserialize` returns as the loop has come to its end. -/
theorem run_deserialize_of_loop {h' : TcpHeader} {pos p fuel : ℕ} {s : OptionLoop}
    (hfix : h.readFixedPart.run buf 0 = some (h', pos))
    (hspace : h'.optionSpace ≤ maxOptionsLen.toUInt32)
    (hloop : (loop optionTurn fuel ⟨[], 0, h'.optionSpace⟩).run buf pos = some (some s, p)) :
    ∃ h'' good, h'' = { h' with
        options := s.options, optionsLen := s.optionsLen, goodChecksum := good } ∧
      (h.deserialize fuel).run buf 0 = some (some (h''.getSerializedSize, h''), p) := by
  obtain ⟨good, hgood⟩ := exists_run_checkChecksum
    { h' with options := s.options, optionsLen := s.optionsLen } buf p
  refine ⟨{ h' with options := s.options, optionsLen := s.optionsLen, goodChecksum := good }, good,
    rfl, ?_⟩
  rw [run_deserialize fuel hfix hspace, hloop, Option.bind_some]
  dsimp only
  rw [finish, run_bind_of_run hgood]
  rfl

theorem toNat_optionSpace (h : TcpHeader) (hmin : 5 ≤ h.length.toNat) :
    h.optionSpace.toNat = 4 * (h.length.toNat - 5) := by
  have hlt := h.length.toNat_lt
  have hle : (5 : UInt32) ≤ h.length.toUInt32 := by
    rw [UInt32.le_iff_toNat_le, UInt8.toNat_toUInt32]
    exact hmin
  rw [optionSpace, UInt32.toNat_mul, UInt32.toNat_sub_of_le _ _ hle, UInt8.toNat_toUInt32,
    show UInt32.toNat 5 = 5 from rfl, show UInt32.toNat 4 = 4 from rfl]
  omega

theorem dataOffset_lt (buf : List UInt8) : (dataOffset buf).toNat < 16 := by
  have hlt := (buf.getD 12 0).toNat_lt
  rw [dataOffset, UInt8.toNat_shiftRight, show UInt8.toNat 4 % 8 = 4 from rfl,
    Nat.shiftRight_eq_div_pow]
  omega

/-- Parsing reads nothing behind the header exactly if each option has room for what its parser
reads, and no checksum is taken over bytes behind the header. -/
theorem readsInside_iff (h : TcpHeader) (buf : List UInt8) (hmin : 5 ≤ (dataOffset buf).toNat)
    (hpresent : 4 * (dataOffset buf).toNat ≤ buf.length) :
    h.ReadsInside buf (4 * (dataOffset buf).toNat) ↔
      (∀ a, h.ComesTo buf a → HasRoom buf a) ∧
        (h.pseudoHeader = none ∨ ¬ h.Returns buf ∨
          buf.length % 2 ^ 16 ≤ 4 * (dataOffset buf).toNat) := by
  have hlt := dataOffset_lt buf
  obtain ⟨h', hfix, hreach, hlength, hpseudo⟩ :=
    @exists_run_readFixedPart buf h (by omega)
  have hspace := toNat_optionSpace h' (hlength ▸ hmin)
  have hle : h'.optionSpace ≤ maxOptionsLen.toUInt32 := by
    have hmax : maxOptionsLen.toUInt32.toNat = 40 := rfl
    rw [UInt32.le_iff_toNat_le, hspace, hmax, hlength]
    omega
  have hparts (fuel : ℕ) : (h.deserialize fuel).reach buf 0 ≤ 4 * (dataOffset buf).toNat ↔
      (loop optionTurn fuel ⟨[], 0, h'.optionSpace⟩).reach buf 20 ≤ 4 * (dataOffset buf).toNat ∧
        ∀ r, (loop optionTurn fuel ⟨[], 0, h'.optionSpace⟩).run buf 20 = some r →
          (h'.finish r.1).reach buf r.2 ≤ 4 * (dataOffset buf).toNat := by
    rw [deserialize, reach_bind_of_run hfix, Nat.max_le, hreach, if_neg (UInt32.not_lt.2 hle),
      reach_bind_le_iff]
    exact and_iff_right (by omega)
  have hturns : (∀ fuel, (loop optionTurn fuel ⟨[], 0, h'.optionSpace⟩).reach buf 20 ≤
      4 * (dataOffset buf).toNat) ↔ ∀ a, h.ComesTo buf a → HasRoom buf a := by
    refine Iff.trans (loop_reach_le_iff (a := ((⟨[], 0, h'.optionSpace⟩ : OptionLoop), 20)))
      (forall_congr' fun a => ?_)
    rw [comesTo_iff hfix hle]
    refine forall_congr' fun ha => reach_optionTurn_le_iff hpresent ?_
    rw [pos_of_turns ha, hspace, hlength]
    omega
  have hfinish (s : OptionLoop) (p : ℕ) :
      (h'.finish (some s)).reach buf p ≤ 4 * (dataOffset buf).toNat ↔
        h.pseudoHeader = none ∨ buf.length % 2 ^ 16 ≤ 4 * (dataOffset buf).toNat := by
    rw [finish, reach_bind_le_iff, reach_checkChecksum_le_iff, ← hpseudo]
    exact and_iff_left fun _ _ => Nat.zero_le _
  rw [← hturns]
  constructor
  · intro hinside
    refine ⟨fun fuel => ((hparts fuel).1 (hinside fuel)).1, ?_⟩
    by_cases hreturns : h.Returns buf
    · obtain ⟨fuel, r, pos, hrun⟩ := hreturns
      rw [run_deserialize fuel hfix hle] at hrun
      obtain ⟨⟨s, p⟩, hloop, hrun⟩ := Option.bind_eq_some_iff.1 hrun
      cases s with
      | none => cases hrun
      | some s =>
        have hlast := (hfinish s p).1 (((hparts fuel).1 (hinside fuel)).2 _ hloop)
        exact hlast.imp_right .inr
    · exact .inr (.inl hreturns)
  · rintro ⟨hloop, hchecksum⟩ fuel
    refine (hparts fuel).2 ⟨hloop fuel, ?_⟩
    rintro ⟨s, p⟩ hs
    cases s with
    | none => exact Nat.zero_le _
    | some s =>
      refine (hfinish s p).2 (hchecksum.imp_right fun hor => hor.resolve_left fun hnot => ?_)
      obtain ⟨h'', good, -, hrun⟩ := run_deserialize_of_loop hfix hle hs
      exact hnot ⟨fuel, _, p, hrun⟩

/-- A header without options. -/
theorem readsInside_plain : init.ReadsInside (List.replicate 12 0 ++ 0x50 :: List.replicate 27 0)
    20 := by
  refine (readsInside_iff init (List.replicate 12 0 ++ 0x50 :: List.replicate 27 0) (by decide)
    (by decide)).2 ⟨?_, .inl rfl⟩
  rintro a ⟨h', pos, hfix, -, hcomes⟩
  have hspace : h'.optionSpace = 0 := by
    cases hfix
    decide
  rw [hspace] at hcomes
  rcases hcomes.cases_head with rfl | ⟨b, hturn, -⟩
  · exact .inl rfl
  · obtain ⟨kind, op, htakes⟩ := exists_takes_of_turn hturn
    exact absurd rfl htakes.optionLen_ne

/-- A timestamp option in four bytes of option space. -/
theorem not_readsInside_timestamp : ∃ buf : List UInt8, (dataOffset buf).toNat = 6 ∧
    buf.length = 34 ∧ ¬ init.ReadsInside buf 24 := by
  refine ⟨List.replicate 12 0 ++ 0x60 :: List.replicate 7 0 ++ 8 :: 10 :: List.replicate 12 0,
    by decide, by decide, fun h => ?_⟩
  have hreach := h 1
  revert hreach
  decide +kernel

end TcpHeader

end SeanetSim
