import SeanetSim.Network.NixVector

/-!
# The shifts of the nix-vector

A shift of a 32-bit word is defined for counts below 32 only.  `Shifting` is a computation that
notes the count of every shift it executes; in it, the two functions of `NixVector` compute what
they compute in the model.  All counts are below 32 exactly as long as no index is extracted while
the number of remaining bits is a multiple of 32: `NixVector.shifts_defined_iff`.
-/

namespace SeanetSim

/-! ## Computations that note their shifts -/

/-- A computation on words, with the counts of the shifts executed so far. -/
abbrev Shifting := StateT (List UInt32) Option

namespace Shifting

def shiftLeft (w count : UInt32) : Shifting UInt32 :=
  fun counts => some (w <<< count, counts ++ [count])

def shiftRight (w count : UInt32) : Shifting UInt32 :=
  fun counts => some (w >>> count, counts ++ [count])

def ofOption {α : Type} (x : Option α) : Shifting α := fun counts => x.map (·, counts)

variable {α β : Type} {counts more : List UInt32}

@[simp] theorem shiftLeft_bind (w count : UInt32) (f : UInt32 → Shifting β) :
    (shiftLeft w count >>= f) counts = f (w <<< count) (counts ++ [count]) := rfl

@[simp] theorem shiftRight_bind (w count : UInt32) (f : UInt32 → Shifting β) :
    (shiftRight w count >>= f) counts = f (w >>> count) (counts ++ [count]) := rfl

@[simp] theorem ofOption_some_bind (a : α) (f : α → Shifting β) :
    (ofOption (some a) >>= f) counts = f a counts := rfl

theorem bind_of_eq {x : Shifting α} {a : α} (f : α → Shifting β)
    (h : x counts = some (a, more)) : (x >>= f) counts = f a more := by
  change (x counts).bind _ = _
  rw [h]
  rfl

end Shifting

namespace NixVector

open Shifting

/-! ## The two functions -/

def addNeighborIndexShifting (nv : NixVector) (newBits numberOfBits : UInt32) :
    Shifting NixVector :=
  if 32 < numberOfBits then failure
  else if 32 < nv.currentVectorBitSize + numberOfBits then
    if nv.currentVectorBitSize = 32 then
      pure { nv with
        front := nv.words
        back := newBits
        currentVectorBitSize := numberOfBits
        totalBitSize := nv.totalBitSize + numberOfBits }
    else do
      let tempBits ← shiftLeft newBits nv.currentVectorBitSize
      let newBits ← shiftRight newBits (32 - nv.currentVectorBitSize)
      pure { nv with
        front := nv.front ++ [tempBits ||| nv.back]
        back := newBits
        currentVectorBitSize := numberOfBits - (32 - nv.currentVectorBitSize)
        totalBitSize := nv.totalBitSize + numberOfBits }
  else do
    let newBits ← shiftLeft newBits nv.currentVectorBitSize
    pure { nv with
      back := newBits ||| nv.back
      currentVectorBitSize := nv.currentVectorBitSize + numberOfBits
      totalBitSize := nv.totalBitSize + numberOfBits }

def extractNeighborIndexShifting (nv : NixVector) (numberOfBits : UInt32) :
    Shifting (UInt32 × NixVector) :=
  let totalRemainingBits := nv.getRemainingBits
  if 32 < numberOfBits then failure
  else if totalRemainingBits < numberOfBits then failure
  else if numberOfBits = 0 then failure
  else do
    let vectorIndex := (totalRemainingBits - 1) / 32
    if 0 < vectorIndex && (totalRemainingBits - 1) % 32 < numberOfBits - 1 then
      let word ← ofOption nv.words[vectorIndex.toNat]?
      let extractedBits ← shiftLeft word (32 - totalRemainingBits % 32)
      let high ← shiftRight extractedBits
        ((32 - totalRemainingBits % 32) - (numberOfBits - totalRemainingBits % 32))
      let before ← ofOption nv.words[(vectorIndex - 1).toNat]?
      let low ← shiftRight before (32 - (numberOfBits - totalRemainingBits % 32))
      pure (high ||| low, { nv with used := nv.used + numberOfBits })
    else
      let word ← ofOption nv.words[vectorIndex.toNat]?
      let extractedBits ← shiftLeft word (32 - totalRemainingBits % 32)
      let index ← shiftRight extractedBits (32 - numberOfBits)
      pure (index, { nv with used := nv.used + numberOfBits })

/-- A call of one of the two functions. -/
inductive Call
  | add (newBits numberOfBits : UInt32)
  | extract (numberOfBits : UInt32)

def callShifting (nv : NixVector) : Call → Shifting NixVector
  | .add newBits numberOfBits => nv.addNeighborIndexShifting newBits numberOfBits
  | .extract numberOfBits => do
    let (_, nv) ← nv.extractNeighborIndexShifting numberOfBits
    pure nv

def callsShifting (nv : NixVector) : List Call → Shifting NixVector
  | [] => pure nv
  | c :: cs => do
    let nv ← nv.callShifting c
    nv.callsShifting cs

/-- The widths are from 1 to 32, and no more bits are extracted than remain. -/
def Allowed : UInt32 → List Call → Prop
  | _, [] => True
  | remaining, .add _ n :: cs => 1 ≤ n ∧ n ≤ 32 ∧ Allowed (remaining + n) cs
  | remaining, .extract n :: cs => 1 ≤ n ∧ n ≤ 32 ∧ n ≤ remaining ∧ Allowed (remaining - n) cs

/-- No index is extracted while the remaining bits fill whole words. -/
def Unaligned : UInt32 → List Call → Prop
  | _, [] => True
  | remaining, .add _ n :: cs => Unaligned (remaining + n) cs
  | remaining, .extract n :: cs => remaining % 32 ≠ 0 ∧ Unaligned (remaining - n) cs

instance : (remaining : UInt32) → (cs : List Call) → Decidable (Allowed remaining cs)
  | _, [] => .isTrue trivial
  | remaining, .add _ n :: cs =>
    have := instDecidableAllowed (remaining + n) cs
    inferInstanceAs (Decidable (1 ≤ n ∧ n ≤ 32 ∧ Allowed (remaining + n) cs))
  | remaining, .extract n :: cs =>
    have := instDecidableAllowed (remaining - n) cs
    inferInstanceAs (Decidable (1 ≤ n ∧ n ≤ 32 ∧ n ≤ remaining ∧ Allowed (remaining - n) cs))

/-! ## What the functions compute -/

variable {nv : NixVector} {newBits n : UInt32}

theorem addNeighborIndexShifting_fst (nv : NixVector) (newBits n : UInt32)
    (counts : List UInt32) :
    (nv.addNeighborIndexShifting newBits n counts).map Prod.fst =
      nv.addNeighborIndex newBits n := by
  unfold addNeighborIndexShifting addNeighborIndex
  split_ifs <;> rfl

theorem extractNeighborIndexShifting_fst (nv : NixVector) (n : UInt32) (counts : List UInt32) :
    (nv.extractNeighborIndexShifting n counts).map Prod.fst = nv.extractNeighborIndex n := by
  unfold extractNeighborIndexShifting extractNeighborIndex
  dsimp only
  split_ifs with hwide hmore hzero hspan
  · rfl
  · rfl
  · rfl
  · cases hword : nv.words[((nv.getRemainingBits - 1) / 32).toNat]? with
    | none => rfl
    | some word =>
      cases hbefore : nv.words[((nv.getRemainingBits - 1) / 32 - 1).toNat]? <;> rfl
  · cases hword : nv.words[((nv.getRemainingBits - 1) / 32).toNat]? <;> rfl

/-! ## The counts -/

/-- So many bits have been added, and so many of them extracted. -/
structure Holds (nv : NixVector) (added extracted : ℕ) : Prop where
  le : extracted ≤ added
  total : nv.totalBitSize = UInt32.ofNat added
  used : nv.used = UInt32.ofNat extracted
  size : 32 * nv.front.length + nv.currentVectorBitSize.toNat = added
  current_le : nv.currentVectorBitSize.toNat ≤ 32

variable {added extracted : ℕ}

theorem holds_empty : empty.Holds 0 0 := ⟨Nat.le_refl 0, rfl, rfl, rfl, Nat.zero_le _⟩

theorem Holds.getRemainingBits_le (h : nv.Holds added extracted) :
    nv.getRemainingBits.toNat ≤ added - extracted := by
  have hsub : nv.getRemainingBits = UInt32.ofNat (added - extracted) := by
    rw [getRemainingBits, h.total, h.used, sub_eq_iff_eq_add, ← UInt32.ofNat_add,
      Nat.sub_add_cancel h.le]
  rw [hsub, UInt32.toNat_ofNat']
  exact Nat.mod_le _ _

/-- The words that an extraction reads are there. -/
theorem Holds.exists_word (h : nv.Holds added extracted) (hpos : 1 ≤ nv.getRemainingBits.toNat)
    {k : ℕ} (hk : k ≤ (nv.getRemainingBits.toNat - 1) / 32) : ∃ word, nv.words[k]? = some word := by
  have hsize := h.size
  have hcur := h.current_le
  have hleft := h.getRemainingBits_le
  refine ⟨_, List.getElem?_eq_getElem ?_⟩
  rw [words, List.length_append, List.length_singleton]
  omega

theorem Holds.addNeighborIndexShifting (h : nv.Holds added extracted) (newBits : UInt32)
    (hpos : 1 ≤ n) (hn : n ≤ 32) (counts : List UInt32) :
    ∃ nv' more, nv.addNeighborIndexShifting newBits n counts = some (nv', counts ++ more) ∧
      nv'.Holds (added + n.toNat) extracted ∧
      nv'.getRemainingBits = nv.getRemainingBits + n ∧ ∀ count ∈ more, count < 32 := by
  have hsize := h.size
  have hcur := h.current_le
  rw [UInt32.le_iff_toNat_le] at hpos hn
  change 1 ≤ _ at hpos
  change _ ≤ 32 at hn
  have hadd : (nv.currentVectorBitSize + n).toNat = nv.currentVectorBitSize.toNat + n.toNat := by
    rw [UInt32.toNat_add]
    omega
  have htotal : nv.totalBitSize + n = UInt32.ofNat (added + n.toNat) := by
    rw [h.total, UInt32.ofNat_add, UInt32.ofNat_toNat]
  have hrem : nv.totalBitSize + n - nv.used = nv.totalBitSize - nv.used + n :=
    add_sub_right_comm _ _ _
  have hle : extracted ≤ added + n.toNat := h.le.trans (Nat.le_add_right _ _)
  have hn' : ¬ 32 < n := by
    rw [UInt32.lt_iff_toNat_lt]
    exact Nat.not_lt_of_le hn
  unfold NixVector.addNeighborIndexShifting
  rw [if_neg hn']
  split_ifs with hfull hword
  · -- the last word is full
    have hc : nv.currentVectorBitSize.toNat = 32 := by rw [hword]; rfl
    refine ⟨_, [], congrArg some (Prod.ext rfl (List.append_nil counts).symm),
      ⟨hle, htotal, h.used, ?_, hn⟩, hrem, nofun⟩
    simp [words]
    omega
  · -- the index is cut
    have hc : nv.currentVectorBitSize.toNat ≠ 32 := fun hc => hword (UInt32.toNat.inj hc)
    rw [UInt32.lt_iff_toNat_lt, hadd] at hfull
    change 32 < _ at hfull
    have hroom : (32 - nv.currentVectorBitSize).toNat = 32 - nv.currentVectorBitSize.toNat :=
      toNat_sub hcur
    have hcut : (n - (32 - nv.currentVectorBitSize)).toNat =
        nv.currentVectorBitSize.toNat + n.toNat - 32 := by
      rw [toNat_sub (by omega), hroom]
      omega
    rw [shiftLeft_bind, shiftRight_bind, List.append_assoc]
    refine ⟨_, _, rfl, ⟨hle, htotal, h.used, ?_, ?_⟩, hrem, ?_⟩
    · dsimp only
      rw [hcut, List.length_append, List.length_singleton]
      omega
    · dsimp only
      omega
    · simp only [List.cons_append, List.nil_append, List.forall_mem_cons, UInt32.lt_iff_toNat_lt,
        hroom]
      exact ⟨show _ < 32 by omega, show _ < 32 by omega, nofun⟩
  · -- the index fits
    rw [UInt32.lt_iff_toNat_lt, hadd] at hfull
    have hfits : nv.currentVectorBitSize.toNat + n.toNat ≤ 32 := Nat.le_of_not_lt hfull
    rw [shiftLeft_bind]
    refine ⟨_, _, rfl, ⟨hle, htotal, h.used, ?_, ?_⟩, hrem, ?_⟩
    · dsimp only
      omega
    · dsimp only
      omega
    · simp only [List.forall_mem_cons, UInt32.lt_iff_toNat_lt]
      exact ⟨show _ < 32 by omega, nofun⟩

theorem Holds.extractNeighborIndexShifting (h : nv.Holds added extracted) (hpos : 1 ≤ n)
    (hn : n ≤ 32) (hrem : n ≤ nv.getRemainingBits) (counts : List UInt32) :
    ∃ index nv' more,
      nv.extractNeighborIndexShifting n counts = some ((index, nv'), counts ++ more) ∧
      nv'.Holds added (extracted + n.toNat) ∧
      nv'.getRemainingBits = nv.getRemainingBits - n ∧
      ((∀ count ∈ more, count < 32) ↔ nv.getRemainingBits % 32 ≠ 0) := by
  have hholds : NixVector.Holds { nv with used := nv.used + n } added (extracted + n.toNat) := by
    rw [UInt32.le_iff_toNat_le] at hrem
    refine ⟨?_, h.total, ?_, h.size, h.current_le⟩
    · have hle := h.le
      have hleft := h.getRemainingBits_le
      omega
    · rw [UInt32.ofNat_add, ← h.used, UInt32.ofNat_toNat]
  have hremaining : getRemainingBits { nv with used := nv.used + n } = nv.getRemainingBits - n :=
    sub_add_eq_sub_sub _ _ _
  have hnz : n ≠ 0 := by
    rintro rfl
    exact absurd hpos (by decide)
  have hwords := @Holds.exists_word nv added extracted h
  unfold NixVector.extractNeighborIndexShifting
  rw [if_neg (UInt32.not_lt.2 hn), if_neg (UInt32.not_lt.2 hrem), if_neg hnz]
  generalize hR : nv.getRemainingBits = R at *
  rw [UInt32.le_iff_toNat_le] at hpos hn hrem
  change 1 ≤ _ at hpos
  change _ ≤ 32 at hn
  have hone : (R - 1).toNat = R.toNat - 1 := toNat_sub (b := 1) (show 1 ≤ R.toNat by omega)
  have hindex : ((R - 1) / 32).toNat = (R.toNat - 1) / 32 := by
    rw [UInt32.toNat_div, hone]
    rfl
  obtain ⟨word, hword⟩ := hwords (by omega) hindex.le
  have hmod : (R % 32).toNat = R.toNat % 32 := by rw [UInt32.toNat_mod]; rfl
  have hzero : R % 32 ≠ 0 ↔ R.toNat % 32 ≠ 0 := by
    rw [← hmod, Ne, Ne, ← UInt32.toNat_inj]
    rfl
  have hover : (32 - R % 32).toNat = 32 - R.toNat % 32 := by
    rw [toNat_sub, hmod]
    · rfl
    · rw [hmod]
      exact (Nat.mod_lt _ (by decide)).le
  split_ifs with hspan
  · -- the index spans two words, and then the remaining bits do not fill whole words
    rw [Bool.and_eq_true, decide_eq_true_iff, decide_eq_true_iff, UInt32.lt_iff_toNat_lt,
      UInt32.lt_iff_toNat_lt, UInt32.toNat_mod, hone, hindex,
      toNat_sub (b := 1) hpos] at hspan
    change 0 < (R.toNat - 1) / 32 ∧ (R.toNat - 1) % 32 < n.toNat - 1 at hspan
    obtain ⟨before, hbefore⟩ := hwords (k := ((R - 1) / 32 - 1).toNat) (by omega) (by
      rw [toNat_sub (b := 1) (show 1 ≤ _ by rw [hindex]; exact hspan.1), hindex]
      exact Nat.sub_le _ _)
    rw [hword, hbefore]
    simp only [ofOption_some_bind, shiftLeft_bind, shiftRight_bind, List.append_assoc]
    refine ⟨_, _, _, rfl, hholds, hremaining, iff_of_true ?_ (hzero.2 (by omega))⟩
    have hpart : (n - R % 32).toNat = n.toNat - R.toNat % 32 := by
      rw [toNat_sub (by omega), hmod]
    simp only [List.cons_append, List.nil_append, List.forall_mem_cons, UInt32.lt_iff_toNat_lt]
    rw [toNat_sub (show (n - R % 32).toNat ≤ (32 - R % 32).toNat by omega), hover, hpart,
      toNat_sub (a := 32) (show _ ≤ 32 by omega), hpart]
    exact ⟨show _ < 32 by omega, show _ < 32 by omega, show 32 - _ < 32 by omega,
      List.forall_mem_nil _⟩
  · rw [hword]
    simp only [ofOption_some_bind, shiftLeft_bind, shiftRight_bind, List.append_assoc]
    refine ⟨_, _, _, rfl, hholds, hremaining, ?_⟩
    simp only [List.cons_append, List.nil_append, List.forall_mem_cons, UInt32.lt_iff_toNat_lt]
    rw [hover, toNat_sub (a := 32) hn, hzero]
    change 32 - _ < 32 ∧ 32 - _ < 32 ∧ _ ↔ _
    refine ⟨fun hlt => ?_, fun hne => ⟨by omega, by omega, List.forall_mem_nil _⟩⟩
    have := hlt.1
    omega

/-! ## Runs -/

theorem Holds.callsShifting (h : nv.Holds added extracted) (cs : List Call)
    (hcs : Allowed nv.getRemainingBits cs) (counts : List UInt32) :
    ∃ nv' more, nv.callsShifting cs counts = some (nv', counts ++ more) ∧
      ((∀ count ∈ more, count < 32) ↔ Unaligned nv.getRemainingBits cs) := by
  induction cs generalizing nv added extracted counts with
  | nil =>
    exact ⟨nv, [], congrArg some (Prod.ext rfl (List.append_nil counts).symm),
      iff_of_true nofun trivial⟩
  | cons c cs ih =>
    cases c with
    | add newBits n =>
      obtain ⟨hpos, hn, hcs⟩ := hcs
      obtain ⟨nv₁, more, hrun, hholds, hrem, hcounts⟩ :=
        h.addNeighborIndexShifting newBits hpos hn counts
      obtain ⟨nv₂, more', hrun', hiff⟩ := ih hholds (hrem ▸ hcs) (counts ++ more)
      refine ⟨nv₂, more ++ more', ?_, ?_⟩
      · rw [← List.append_assoc, ← hrun']
        exact bind_of_eq _ hrun
      · rw [Unaligned, ← hrem, ← hiff, List.forall_mem_append]
        exact and_iff_right hcounts
    | extract n =>
      obtain ⟨hpos, hn, hle, hcs⟩ := hcs
      obtain ⟨index, nv₁, more, hrun, hholds, hrem, hcounts⟩ :=
        h.extractNeighborIndexShifting hpos hn hle counts
      obtain ⟨nv₂, more', hrun', hiff⟩ := ih hholds (hrem ▸ hcs) (counts ++ more)
      refine ⟨nv₂, more ++ more', ?_, ?_⟩
      · rw [← List.append_assoc, ← hrun']
        exact bind_of_eq _ (bind_of_eq _ hrun)
      · rw [Unaligned, ← hrem, ← hiff, ← hcounts, List.forall_mem_append]

/-- Calls with widths from 1 to 32 that never extract more bits than remain go through, and their
shifts are all defined exactly if no index is extracted while the remaining bits fill whole
words. -/
theorem shifts_defined_iff {cs : List Call} (hcs : Allowed 0 cs) :
    ∃ nv counts, empty.callsShifting cs [] = some (nv, counts) ∧
      ((∀ count ∈ counts, count < 32) ↔ Unaligned 0 cs) :=
  holds_empty.callsShifting cs hcs []

theorem shifts_defined_iff_three :
    ∃ nv counts, empty.callsShifting [.add 5 3, .add 1 30, .extract 30] [] = some (nv, counts) ∧
      ((∀ count ∈ counts, count < 32) ↔ Unaligned 0 [.add 5 3, .add 1 30, .extract 30]) :=
  shifts_defined_iff (by decide)

/-- One index of 32 bits is added and extracted: its word is shifted by 32. -/
theorem not_shifts_defined :
    ¬ ∀ (cs : List Call) (nv : NixVector) (counts : List UInt32), Allowed 0 cs →
      empty.callsShifting cs [] = some (nv, counts) → ∀ count ∈ counts, count < 32 := by
  intro h
  exact absurd (h [.add 7 32, .extract 32] ⟨[], 7, 32, 32, 32⟩ [0, 32, 0] (by decide) (by decide)
    32 (by decide)) (by decide)

end NixVector

end SeanetSim
