import Mathlib.Data.UInt
import Mathlib.Algebra.BigOperators.Group.List.Basic
import SeanetSim.Lib.BitString

/-!
# The nix-vector

`NixVector` packs neighbour indices of at most 32 bits into 32-bit words and gives them back last
in, first out.  What it holds is a string of bits (`NixVector.Packs`): adding an index appends its
bits, and extracting takes the last of the bits that are left.  All counters are 32-bit, and with
them the order is kept exactly up to `2 ^ 32` bits: `NixVector.extract_reverse_iff`.
-/

namespace SeanetSim

/-- `m_nixVector` is `front` followed by `back`: it is created with one word and never empty. -/
structure NixVector where
  front : List UInt32
  back : UInt32
  used : UInt32
  currentVectorBitSize : UInt32
  totalBitSize : UInt32
deriving DecidableEq, Repr

namespace NixVector

def empty : NixVector := ⟨[], 0, 0, 0, 0⟩

def words (nv : NixVector) : List UInt32 := nv.front ++ [nv.back]

def getRemainingBits (nv : NixVector) : UInt32 := nv.totalBitSize - nv.used

/-- The loop of `BitCount`, which ends after at most 32 shifts. -/
def shifts : ℕ → UInt32 → UInt32
  | 0, _ => 0
  | fuel + 1, n => if n = 0 then 0 else shifts fuel (n >>> 1) + 1

/-- The bits taken for an index below `numberOfNeighbors`. -/
def bitCount (numberOfNeighbors : UInt32) : UInt32 :=
  if numberOfNeighbors < 2 then 1 else shifts 32 (numberOfNeighbors - 1)

/-- `none` where the source stops with a fatal error. -/
def addNeighborIndex (nv : NixVector) (newBits numberOfBits : UInt32) : Option NixVector :=
  if 32 < numberOfBits then none
  else if 32 < nv.currentVectorBitSize + numberOfBits then
    if nv.currentVectorBitSize = 32 then
      some { nv with
        front := nv.words
        back := newBits
        currentVectorBitSize := numberOfBits
        totalBitSize := nv.totalBitSize + numberOfBits }
    else
      let tempBits := (newBits <<< nv.currentVectorBitSize) ||| nv.back
      some { nv with
        front := nv.front ++ [tempBits]
        back := newBits >>> (32 - nv.currentVectorBitSize)
        currentVectorBitSize := numberOfBits - (32 - nv.currentVectorBitSize)
        totalBitSize := nv.totalBitSize + numberOfBits }
  else
    some { nv with
      back := (newBits <<< nv.currentVectorBitSize) ||| nv.back
      currentVectorBitSize := nv.currentVectorBitSize + numberOfBits
      totalBitSize := nv.totalBitSize + numberOfBits }

/-- The index and the vector with its bits used up. -/
def extractNeighborIndex (nv : NixVector) (numberOfBits : UInt32) :
    Option (UInt32 × NixVector) :=
  let totalRemainingBits := nv.getRemainingBits
  if 32 < numberOfBits then none
  else if totalRemainingBits < numberOfBits then none
  else if numberOfBits = 0 then none
  else do
    let vectorIndex := (totalRemainingBits - 1) / 32
    let word ← nv.words[vectorIndex.toNat]?
    let extractedBits := word <<< (32 - totalRemainingBits % 32)
    if 0 < vectorIndex && (totalRemainingBits - 1) % 32 < numberOfBits - 1 then
      -- the index spans two words
      let before ← nv.words[(vectorIndex - 1).toNat]?
      let high := extractedBits >>>
        ((32 - totalRemainingBits % 32) - (numberOfBits - totalRemainingBits % 32))
      let low := before >>> (32 - (numberOfBits - totalRemainingBits % 32))
      some (high ||| low, { nv with used := nv.used + numberOfBits })
    else
      some (extractedBits >>> (32 - numberOfBits), { nv with used := nv.used + numberOfBits })

/-- Indices with their widths are added one after the other. -/
def addAll (nv : NixVector) : List (UInt32 × UInt32) → Option NixVector
  | [] => some nv
  | (newBits, numberOfBits) :: rest => do
    let nv ← nv.addNeighborIndex newBits numberOfBits
    nv.addAll rest

/-- Indices of these widths are extracted one after the other. -/
def extractAll (nv : NixVector) : List UInt32 → Option (List UInt32 × NixVector)
  | [] => some ([], nv)
  | numberOfBits :: rest => do
    let (extractedBits, nv) ← nv.extractNeighborIndex numberOfBits
    let (indices, nv) ← nv.extractAll rest
    some (extractedBits :: indices, nv)

example : (empty.addAll [(5, 3), (0xabcdef01, 32), (1, 1)]).bind (·.extractAll [1, 32, 3]) =
    some ([1, 0xabcdef01, 5], ⟨[0x5e6f780d], 0xd, 36, 4, 36⟩) := by decide

/-- Bit `k` of the words. -/
def wordBit (words : List UInt32) (k : ℕ) : Bool := (words.getD (k / 32) 0).toNat.testBit (k % 32)

/-- The vector holds the string `bits`, used or not. -/
structure Packs (nv : NixVector) (bits : List Bool) : Prop where
  size : 32 * nv.front.length + nv.currentVectorBitSize.toNat = bits.length
  current_le : nv.currentVectorBitSize.toNat ≤ 32
  total : nv.totalBitSize = UInt32.ofNat bits.length
  bit : ∀ k, wordBit nv.words k = bitAt bits k

theorem packs_empty : empty.Packs [] := by
  refine ⟨rfl, by decide, rfl, fun k => ?_⟩
  have h : ∀ i : ℕ, [(0 : UInt32)].getD i 0 = 0 := fun i => by cases i <;> rfl
  simp [wordBit, words, empty, bitAt]

theorem testBit_of_ge (w : UInt32) {k : ℕ} (h : 32 ≤ k) : w.toNat.testBit k = false :=
  testBit_of_lt_two_pow w.toNat_lt h

/-- Shift counts are taken modulo 32. -/
theorem testBit_shiftLeft (w : UInt32) {s : UInt32} {t : ℕ} (hs : s.toNat % 32 = t) (k : ℕ) :
    (w <<< s).toNat.testBit k =
      (decide (k < 32) && (decide (t ≤ k) && w.toNat.testBit (k - t))) := by
  rw [UInt32.toNat_shiftLeft, hs, Nat.testBit_mod_two_pow, Nat.testBit_shiftLeft]

theorem testBit_shiftRight (w : UInt32) {s : UInt32} {t : ℕ} (hs : s.toNat % 32 = t) (k : ℕ) :
    (w >>> s).toNat.testBit k = w.toNat.testBit (t + k) := by
  rw [UInt32.toNat_shiftRight, hs, Nat.testBit_shiftRight]

theorem wordBit_singleton (w : UInt32) (k : ℕ) : wordBit [w] k = w.toNat.testBit k := by
  unfold wordBit
  by_cases h : k < 32
  · rw [Nat.div_eq_of_lt h, Nat.mod_eq_of_lt h]
    rfl
  · rw [testBit_of_ge w (by omega), List.getD_eq_default _ _ (by simp; omega)]
    simp

theorem wordBit_append (front rest : List UInt32) (k : ℕ) :
    wordBit (front ++ rest) k =
      if k < 32 * front.length then wordBit front k
      else wordBit rest (k - 32 * front.length) := by
  unfold wordBit
  split_ifs with h
  · rw [List.getD_append _ _ _ _ (by omega)]
  · have hdiv : (k - 32 * front.length) / 32 = k / 32 - front.length := by omega
    have hmod : (k - 32 * front.length) % 32 = k % 32 := by omega
    rw [List.getD_append_right _ _ _ _ (by omega), hdiv, hmod]

theorem toNat_sub {a b : UInt32} (h : b.toNat ≤ a.toNat) :
    (a - b).toNat = a.toNat - b.toNat := by
  rw [UInt32.toNat_sub]
  have := a.toNat_lt
  omega

/-! ## The width of an index -/

theorem lt_two_pow_shifts (fuel : ℕ) (hfuel : fuel ≤ 32) (v : UInt32) (h : v.toNat < 2 ^ fuel) :
    v.toNat < 2 ^ (shifts fuel v).toNat ∧ (shifts fuel v).toNat ≤ fuel := by
  induction fuel generalizing v with
  | zero => exact ⟨h, Nat.le_refl _⟩
  | succ fuel ih =>
    unfold shifts
    split_ifs with hv
    · subst hv
      exact ⟨by decide, by simp⟩
    · have hhalf : (v >>> 1).toNat = v.toNat / 2 := by
        rw [UInt32.toNat_shiftRight, Nat.shiftRight_eq_div_pow]
        rfl
      obtain ⟨hlt, hle⟩ := ih (by omega) (v >>> 1) (by rw [hhalf]; omega)
      have hadd : (shifts fuel (v >>> 1) + 1).toNat = (shifts fuel (v >>> 1)).toNat + 1 := by
        rw [UInt32.toNat_add]
        change (_ + 1) % 2 ^ 32 = _
        omega
      rw [hadd, Nat.pow_succ]
      omega

theorem one_le_bitCount (total : UInt32) : 1 ≤ (bitCount total).toNat := by
  unfold bitCount
  split_ifs with h
  · exact Nat.le_refl 1
  · rw [UInt32.lt_iff_toNat_lt] at h
    change ¬ _ < 2 at h
    have hone : (total - 1).toNat = total.toNat - 1 :=
      toNat_sub (b := 1) (show 1 ≤ total.toNat by omega)
    have hlt := (lt_two_pow_shifts 32 (Nat.le_refl _) (total - 1) (UInt32.toNat_lt _)).1
    by_contra hzero
    rw [Nat.lt_one_iff.1 (Nat.lt_of_not_le hzero), hone] at hlt
    omega

theorem bitCount_le (total : UInt32) : (bitCount total).toNat ≤ 32 := by
  unfold bitCount
  split_ifs with h
  · decide
  · exact (lt_two_pow_shifts 32 (Nat.le_refl _) _ (UInt32.toNat_lt _)).2

/-- Every index below the total fits. -/
theorem lt_two_pow_bitCount {index total : UInt32} (h : index < total) :
    index.toNat < 2 ^ (bitCount total).toNat := by
  rw [UInt32.lt_iff_toNat_lt] at h
  unfold bitCount
  split_ifs with htwo
  · rw [UInt32.lt_iff_toNat_lt] at htwo
    change _ < 2 at htwo
    change _ < 2
    omega
  · have hlt := (lt_two_pow_shifts 32 (Nat.le_refl _) (total - 1) (UInt32.toNat_lt _)).1
    have hone : (total - 1).toNat = total.toNat - 1 :=
      toNat_sub (b := 1) (show 1 ≤ total.toNat by omega)
    omega

/-! ## Adding -/

variable {nv : NixVector} {bits : List Bool} {newBits n : UInt32}

theorem Packs.front (h : nv.Packs bits) {k : ℕ} (hk : k < 32 * nv.front.length) :
    wordBit nv.front k = bitAt bits k := by
  have hbit := h.bit k
  rwa [words, wordBit_append, if_pos hk] at hbit

theorem Packs.back (h : nv.Packs bits) (k : ℕ) :
    nv.back.toNat.testBit k = bitAt bits (32 * nv.front.length + k) := by
  have hbit := h.bit (32 * nv.front.length + k)
  rwa [words, wordBit_append, if_neg (by omega), wordBit_singleton, Nat.add_sub_cancel_left] at hbit

theorem Packs.front_append (h : nv.Packs bits) (more : List Bool) {k : ℕ}
    (hk : k < 32 * nv.front.length) : wordBit nv.front k = bitAt (bits ++ more) k := by
  have hsize := h.size
  rw [bitAt_append, if_pos (by omega), h.front hk]

/-- The last word, once it has taken what it can of the index. -/
theorem Packs.back_append (h : nv.Packs bits) (hw : newBits.toNat < 2 ^ n.toNat)
    (hc : nv.currentVectorBitSize.toNat < 32) {j : ℕ} (hj : j < 32) :
    ((newBits <<< nv.currentVectorBitSize) ||| nv.back).toNat.testBit j =
      bitAt (bits ++ bitsOf n.toNat newBits.toNat) (32 * nv.front.length + j) := by
  have hsize := h.size
  rw [bitAt_append_bitsOf bits hw, UInt32.toNat_or, Nat.testBit_or,
    testBit_shiftLeft _ (Nat.mod_eq_of_lt hc), h.back, decide_eq_true hj, Bool.true_and]
  by_cases hlow : j < nv.currentVectorBitSize.toNat
  · rw [if_pos (by omega), decide_eq_false (by omega), Bool.false_and, Bool.false_or]
  · have hpos : 32 * nv.front.length + j - bits.length = j - nv.currentVectorBitSize.toNat := by
      omega
    rw [if_neg (by omega), decide_eq_true (by omega), Bool.true_and, bitAt_of_le (by omega),
      Bool.or_false, hpos]

/-- Adding an index appends its bits. -/
theorem Packs.addNeighborIndex (h : nv.Packs bits) (hpos : 1 ≤ n.toNat) (hn : n.toNat ≤ 32)
    (hw : newBits.toNat < 2 ^ n.toNat) :
    ∃ nv', nv.addNeighborIndex newBits n = some nv' ∧ nv'.used = nv.used ∧
      nv'.Packs (bits ++ bitsOf n.toNat newBits.toNat) := by
  have hsize := h.size
  have hcur := h.current_le
  have hadd : (nv.currentVectorBitSize + n).toNat = nv.currentVectorBitSize.toNat + n.toNat := by
    rw [UInt32.toNat_add]
    omega
  have htotal : nv.totalBitSize + n =
      UInt32.ofNat (bits ++ bitsOf n.toNat newBits.toNat).length := by
    rw [List.length_append, length_bitsOf, UInt32.ofNat_add, h.total, UInt32.ofNat_toNat]
  have hn' : ¬ 32 < n := by
    rw [UInt32.lt_iff_toNat_lt]
    simpa using hn
  unfold NixVector.addNeighborIndex
  rw [if_neg hn']
  split_ifs with hfull hword
  · -- the last word is full
    have hc : nv.currentVectorBitSize.toNat = 32 := by rw [hword]; rfl
    have hlen : 32 * nv.words.length = bits.length := by simp [words]; omega
    refine ⟨_, rfl, rfl, ?_, hn, htotal, fun k => ?_⟩
    · rw [List.length_append, length_bitsOf, hlen]
    · rw [bitAt_append_bitsOf bits hw, words, wordBit_append, wordBit_singleton, hlen, h.bit]
  · -- the index is cut
    have hc : nv.currentVectorBitSize.toNat ≠ 32 := fun hc => hword (UInt32.toNat.inj hc)
    have hover : 32 < nv.currentVectorBitSize.toNat + n.toNat := by
      rw [← hadd]
      exact UInt32.lt_iff_toNat_lt.1 hfull
    have hroom : (32 - nv.currentVectorBitSize).toNat = 32 - nv.currentVectorBitSize.toNat :=
      toNat_sub hcur
    have hrest : (32 - nv.currentVectorBitSize).toNat % 32 =
        32 - nv.currentVectorBitSize.toNat := by
      omega
    have hcut : (n - (32 - nv.currentVectorBitSize)).toNat =
        nv.currentVectorBitSize.toNat + n.toNat - 32 := by
      rw [toNat_sub (by omega), hroom]
      omega
    refine ⟨_, rfl, rfl, ?_, ?_, htotal, fun k => ?_⟩
    · dsimp only
      rw [hcut, List.length_append, List.length_append, List.length_singleton, length_bitsOf]
      omega
    · dsimp only
      omega
    · rw [words, wordBit_append, wordBit_append, wordBit_singleton, wordBit_singleton,
        testBit_shiftRight _ hrest, List.length_append, List.length_singleton]
      split_ifs with hlow hfront
      · exact h.front_append _ hfront
      · rw [h.back_append hw (by omega) (by omega)]
        congr 1
        omega
      · rw [bitAt_append_bitsOf bits hw, if_neg (by omega)]
        congr 1
        omega
  · -- the index fits
    rw [UInt32.lt_iff_toNat_lt, hadd] at hfull
    have hfits : nv.currentVectorBitSize.toNat + n.toNat ≤ 32 := Nat.le_of_not_lt hfull
    refine ⟨_, rfl, rfl, ?_, ?_, htotal, fun k => ?_⟩
    · dsimp only
      rw [hadd, List.length_append, length_bitsOf]
      omega
    · dsimp only
      omega
    · dsimp only [words]
      rw [wordBit_append, wordBit_singleton]
      split_ifs with hfront
      · exact h.front_append _ hfront
      · by_cases hk : k - 32 * nv.front.length < 32
        · rw [h.back_append hw (by omega) hk]
          congr 1
          omega
        · rw [testBit_of_ge _ (by omega), bitAt_of_le]
          rw [List.length_append, length_bitsOf]
          omega

/-! ## Extracting -/

theorem Packs.getElem? (h : nv.Packs bits) {i : ℕ} (hi : 32 * i < bits.length) :
    ∃ w, nv.words[i]? = some w ∧ ∀ k < 32, w.toNat.testBit k = bitAt bits (32 * i + k) := by
  have hsize := h.size
  have hcur := h.current_le
  have hlen : i < nv.words.length := by
    rw [words, List.length_append, List.length_singleton]
    omega
  refine ⟨nv.words[i], List.getElem?_eq_getElem hlen, fun k hk => ?_⟩
  have hdiv : (32 * i + k) / 32 = i := by omega
  have hmod : (32 * i + k) % 32 = k := by omega
  rw [← h.bit, wordBit, hdiv, hmod, List.getD_eq_getElem _ _ hlen]

theorem eq_of_testBit {v w : UInt32} {n : ℕ} (hw : w.toNat < 2 ^ n)
    (hlow : ∀ k < n, v.toNat.testBit k = w.toNat.testBit k)
    (hhigh : ∀ k, n ≤ k → v.toNat.testBit k = false) : v = w := by
  refine UInt32.toNat.inj (Nat.eq_of_testBit_eq fun k => ?_)
  by_cases hk : k < n
  · exact hlow k hk
  · rw [hhigh k (by omega), testBit_of_lt_two_pow hw (by omega)]

/-- An index in two words: its high bits are low in `w`, its low bits high in `w'`. -/
theorem extract_two_words {w w' R index : UInt32} (hw : index.toNat < 2 ^ n.toNat)
    (hn : n.toNat ≤ 32) (hR : R.toNat % 32 < n.toNat) (hpos : 1 ≤ R.toNat % 32)
    (hhigh : ∀ k < R.toNat % 32,
      w.toNat.testBit k = index.toNat.testBit (n.toNat - R.toNat % 32 + k))
    (hlow : ∀ k < n.toNat - R.toNat % 32,
      w'.toNat.testBit (32 - (n.toNat - R.toNat % 32) + k) = index.toNat.testBit k) :
    ((w <<< (32 - R % 32)) >>> ((32 - R % 32) - (n - R % 32))) |||
      (w' >>> (32 - (n - R % 32))) = index := by
  have hmod : (R % 32).toNat = R.toNat % 32 := by rw [UInt32.toNat_mod]; rfl
  have hover : (32 - R % 32).toNat = 32 - R.toNat % 32 := by
    rw [toNat_sub, hmod]
    · rfl
    · rw [hmod]
      exact (Nat.mod_lt _ (by decide)).le
  have hpart : (n - R % 32).toNat = n.toNat - R.toNat % 32 := by
    rw [toNat_sub (by omega), hmod]
  have hleft : (32 - R % 32).toNat % 32 = 32 - R.toNat % 32 := by omega
  have hright : ((32 - R % 32) - (n - R % 32)).toNat % 32 = 32 - n.toNat := by
    rw [toNat_sub (by omega), hover, hpart]
    omega
  have hright' : (32 - (n - R % 32)).toNat % 32 = 32 - (n.toNat - R.toNat % 32) := by
    rw [toNat_sub (a := 32) (show _ ≤ 32 by omega), hpart]
    change (32 - _) % 32 = _
    omega
  refine eq_of_testBit hw (fun k hk => ?_) (fun k hk => ?_)
  · rw [UInt32.toNat_or, Nat.testBit_or, testBit_shiftRight _ hright,
      testBit_shiftRight _ hright', testBit_shiftLeft _ hleft]
    by_cases hk' : k < n.toNat - R.toNat % 32
    · rw [decide_eq_false (p := 32 - R.toNat % 32 ≤ _) (by omega), Bool.false_and, Bool.and_false,
        Bool.false_or, hlow k hk']
    · rw [testBit_of_ge w' (by omega), Bool.or_false, decide_eq_true (by omega),
        decide_eq_true (by omega), Bool.true_and, Bool.true_and, hhigh _ (by omega)]
      congr 1
      omega
  · rw [UInt32.toNat_or, Nat.testBit_or, testBit_shiftRight _ hright, testBit_shiftRight _ hright',
      testBit_shiftLeft _ hleft, testBit_of_ge w' (by omega), Bool.or_false,
      decide_eq_false (by omega), Bool.false_and]

/-- An index in one word, of which the bits up to `R` count. -/
theorem extract_one_word {w R index : UInt32} (hw : index.toNat < 2 ^ n.toNat) (hpos : 1 ≤ n.toNat)
    (hR : n.toNat ≤ (R.toNat - 1) % 32 + 1) (hRpos : 1 ≤ R.toNat)
    (hbit : ∀ k < n.toNat,
      w.toNat.testBit ((R.toNat - 1) % 32 + 1 - n.toNat + k) = index.toNat.testBit k) :
    (w <<< (32 - R % 32)) >>> (32 - n) = index := by
  have hmod : (R % 32).toNat = R.toNat % 32 := by rw [UInt32.toNat_mod]; rfl
  have hover : (32 - R % 32).toNat = 32 - R.toNat % 32 := by
    rw [toNat_sub, hmod]
    · rfl
    · rw [hmod]
      exact (Nat.mod_lt _ (by decide)).le
  have hleft : (32 - R % 32).toNat % 32 = 31 - (R.toNat - 1) % 32 := by omega
  have hright : (32 - n).toNat % 32 = 32 - n.toNat := by
    rw [toNat_sub (a := 32) (show _ ≤ 32 by omega)]
    change (32 - _) % 32 = _
    omega
  refine eq_of_testBit hw (fun k hk => ?_) (fun k hk => ?_)
  · rw [← hbit k hk, testBit_shiftRight _ hright, testBit_shiftLeft _ hleft,
      decide_eq_true (by omega), decide_eq_true (by omega), Bool.true_and, Bool.true_and]
    congr 1
    omega
  · rw [testBit_shiftRight _ hright, testBit_shiftLeft _ hleft, decide_eq_false (by omega),
      Bool.false_and]

/-- Extracting takes the last of the bits that are left. -/
theorem Packs.extractNeighborIndex {pre post : List Bool} {index : UInt32}
    (h : nv.Packs (pre ++ (bitsOf n.toNat index.toNat ++ post)))
    (hrem : nv.getRemainingBits.toNat = pre.length + n.toNat) (hpos : 1 ≤ n.toNat)
    (hn : n.toNat ≤ 32) (hw : index.toNat < 2 ^ n.toNat) :
    nv.extractNeighborIndex n = some (index, { nv with used := nv.used + n }) := by
  have hmiddle : ∀ k < n.toNat, bitAt (pre ++ (bitsOf n.toNat index.toNat ++ post))
      (pre.length + k) = index.toNat.testBit k := fun k hk => bitAt_middle pre post _ hk
  have hlen : pre.length + n.toNat ≤ (pre ++ (bitsOf n.toNat index.toNat ++ post)).length := by
    simp
  generalize pre ++ (bitsOf n.toNat index.toNat ++ post) = bits at h hmiddle hlen
  unfold NixVector.extractNeighborIndex
  dsimp only
  generalize nv.getRemainingBits = R at hrem ⊢
  have hone : (R - 1).toNat = R.toNat - 1 := toNat_sub (b := 1) (show 1 ≤ R.toNat by omega)
  have hindex : ((R - 1) / 32).toNat = (R.toNat - 1) / 32 := by rw [UInt32.toNat_div, hone]; rfl
  have hspan_iff : (decide (0 < (R - 1) / 32) && decide ((R - 1) % 32 < n - 1)) = true ↔
      0 < (R.toNat - 1) / 32 ∧ (R.toNat - 1) % 32 < n.toNat - 1 := by
    rw [Bool.and_eq_true, decide_eq_true_iff, decide_eq_true_iff, UInt32.lt_iff_toNat_lt,
      UInt32.lt_iff_toNat_lt, hindex, UInt32.toNat_mod, hone, toNat_sub (b := 1) hpos]
    rfl
  have hfew : ¬ 32 < n := by
    rw [UInt32.lt_iff_toNat_lt]
    exact Nat.not_lt.2 hn
  have hleft : ¬ R < n := by
    rw [UInt32.lt_iff_toNat_lt]
    omega
  have hzero : n ≠ 0 := by
    rintro rfl
    exact absurd hpos (by decide)
  obtain ⟨w, hw?, hwbit⟩ := h.getElem? (i := (R.toNat - 1) / 32) (by omega)
  rw [if_neg hfew, if_neg hleft, if_neg hzero, hindex, hw?, Option.bind_eq_bind, Option.bind_some]
  split_ifs with hspan
  · rw [hspan_iff] at hspan
    have hprev : ((R - 1) / 32 - 1).toNat = (R.toNat - 1) / 32 - 1 := by
      rw [toNat_sub (b := 1) (show 1 ≤ ((R - 1) / 32).toNat by omega), hindex]
      rfl
    obtain ⟨w', hw'?, hwbit'⟩ := h.getElem? (i := (R.toNat - 1) / 32 - 1) (by omega)
    rw [hprev, hw'?, Option.bind_some]
    congr 2
    apply extract_two_words hw hn (by omega) (by omega)
    · intro k hk
      rw [← hmiddle _ (by omega), hwbit k (by omega)]
      congr 1
      omega
    · intro k hk
      rw [← hmiddle k (by omega), hwbit' _ (by omega)]
      congr 1
      omega
  · rw [hspan_iff] at hspan
    congr 2
    apply extract_one_word hw hpos (by omega) (by omega)
    intro k hk
    rw [← hmiddle k hk, hwbit _ (by omega)]
    congr 1
    omega

/-! ## Last in, first out -/

/-- Indices of 1 to 32 bits that fit in their widths. -/
def Fits (entry : UInt32 × UInt32) : Prop :=
  1 ≤ entry.2.toNat ∧ entry.2.toNat ≤ 32 ∧ entry.1.toNat < 2 ^ entry.2.toNat

/-- The string the indices make, the first one added in front. -/
def stringOf (entries : List (UInt32 × UInt32)) : List Bool :=
  entries.flatMap fun entry => bitsOf entry.2.toNat entry.1.toNat

/-- The bits of the indices all together. -/
def totalBits (entries : List (UInt32 × UInt32)) : ℕ := (entries.map fun e => e.2.toNat).sum

theorem length_stringOf (entries : List (UInt32 × UInt32)) :
    (stringOf entries).length = totalBits entries := by
  simp [stringOf, totalBits, List.length_flatMap]

/-- Widths up to 32 cause no fatal error. -/
theorem exists_addAll {entries : List (UInt32 × UInt32)} (h : ∀ e ∈ entries, e.2.toNat ≤ 32)
    (nv : NixVector) : ∃ nv', nv.addAll entries = some nv' ∧ nv'.used = nv.used := by
  induction entries generalizing nv with
  | nil => exact ⟨nv, rfl, rfl⟩
  | cons e entries ih =>
    have hle : ¬ (32 : UInt32) < e.2 := by
      rw [UInt32.lt_iff_toNat_lt]
      exact Nat.not_lt.2 (h e List.mem_cons_self)
    have ⟨nv₁, hadd, hused⟩ : ∃ nv₁, nv.addNeighborIndex e.1 e.2 = some nv₁ ∧
        nv₁.used = nv.used := by
      unfold addNeighborIndex
      rw [if_neg hle]
      split_ifs <;> exact ⟨_, rfl, rfl⟩
    have ⟨nv₂, hall, hused'⟩ := ih (fun e he => h e (List.mem_cons_of_mem _ he)) nv₁
    refine ⟨nv₂, ?_, hused'.trans hused⟩
    rw [NixVector.addAll, hadd]
    exact hall

theorem Packs.addAll {entries : List (UInt32 × UInt32)} (hfit : ∀ e ∈ entries, Fits e)
    (h : nv.Packs bits) :
    ∃ nv', nv.addAll entries = some nv' ∧ nv'.used = nv.used ∧
      nv'.Packs (bits ++ stringOf entries) := by
  induction entries generalizing nv bits with
  | nil => exact ⟨nv, rfl, rfl, by simpa [stringOf] using h⟩
  | cons e entries ih =>
    obtain ⟨hpos, hn, hw⟩ := hfit e List.mem_cons_self
    obtain ⟨nv₁, hadd, hused, h₁⟩ := h.addNeighborIndex hpos hn hw
    obtain ⟨nv₂, hall, hused', h₂⟩ := ih (fun e he => hfit e (List.mem_cons_of_mem _ he)) h₁
    refine ⟨nv₂, ?_, hused'.trans hused, ?_⟩
    · rw [NixVector.addAll, hadd]
      exact hall
    · simpa [stringOf] using h₂

theorem Packs.use (h : nv.Packs bits) (used : UInt32) : { nv with used := used }.Packs bits :=
  ⟨h.size, h.current_le, h.total, h.bit⟩

theorem getRemainingBits_use (nv : NixVector) (n : UInt32) :
    getRemainingBits { nv with used := nv.used + n } = nv.getRemainingBits - n := by
  rw [getRemainingBits, getRemainingBits, ← sub_add_eq_sub_sub]

/-- The indices that are left in the vector, with their widths, the next one first. -/
structure Carries (nv : NixVector) (entries : List (UInt32 × UInt32)) : Prop where
  fits : ∀ e ∈ entries, Fits e
  packs : ∃ post, nv.Packs (stringOf entries.reverse ++ post)
  remaining : nv.getRemainingBits.toNat = totalBits entries

theorem totalBits_cons (e : UInt32 × UInt32) (entries : List (UInt32 × UInt32)) :
    totalBits (e :: entries) = e.2.toNat + totalBits entries := rfl

theorem totalBits_reverse (entries : List (UInt32 × UInt32)) :
    totalBits entries.reverse = totalBits entries := by
  rw [totalBits, List.map_reverse, List.sum_reverse, totalBits]

/-- Every index takes a bit. -/
theorem length_le_totalBits {entries : List (UInt32 × UInt32)} (hfit : ∀ e ∈ entries, Fits e) :
    entries.length ≤ totalBits entries := by
  induction entries with
  | nil => exact Nat.le_refl _
  | cons e entries ih =>
    rw [List.forall_mem_cons] at hfit
    have hpos := hfit.1.1
    have hrest := ih hfit.2
    rw [List.length_cons, totalBits_cons]
    omega

/-- What has been added last is in front. -/
theorem carries_addAll {entries : List (UInt32 × UInt32)} (hfit : ∀ e ∈ entries, Fits e) :
    ∃ nv, empty.addAll entries.reverse = some nv ∧
      nv.getRemainingBits.toNat = totalBits entries % 2 ^ 32 ∧
      (totalBits entries < 2 ^ 32 → nv.Carries entries) := by
  have ⟨nv, hadd, hused, h⟩ := packs_empty.addAll fun e he => hfit e (List.mem_reverse.1 he)
  rw [List.nil_append] at h
  have hrem : nv.getRemainingBits.toNat = totalBits entries % 2 ^ 32 := by
    rw [getRemainingBits, h.total, hused, length_stringOf, totalBits_reverse]
    simp [empty]
  refine ⟨nv, hadd, hrem, fun hlt => ⟨hfit, ⟨[], ?_⟩, ?_⟩⟩
  · rwa [List.append_nil]
  · rw [hrem, Nat.mod_eq_of_lt hlt]

/-- Extracting with the width of the next index. -/
theorem Carries.extractNeighborIndex {e : UInt32 × UInt32} {entries : List (UInt32 × UInt32)}
    (h : nv.Carries (e :: entries)) :
    nv.extractNeighborIndex e.2 = some (e.1, { nv with used := nv.used + e.2 }) ∧
      { nv with used := nv.used + e.2 }.Carries entries := by
  have ⟨hpos, hn, hw⟩ := h.fits e List.mem_cons_self
  have ⟨post, hpacks⟩ := h.packs
  have hrem := h.remaining
  rw [totalBits_cons] at hrem
  have hstring : stringOf (e :: entries).reverse ++ post =
      stringOf entries.reverse ++ (bitsOf e.2.toNat e.1.toNat ++ post) := by
    simp [stringOf]
  rw [hstring] at hpacks
  refine ⟨hpacks.extractNeighborIndex ?_ hpos hn hw, fun e' he' =>
    h.fits e' (List.mem_cons_of_mem _ he'), ⟨_, hpacks.use _⟩, ?_⟩
  · rw [length_stringOf, totalBits_reverse]
    omega
  · rw [getRemainingBits_use, toNat_sub (by omega)]
    omega

theorem Carries.getRemainingBits_nil (h : nv.Carries []) : nv.getRemainingBits = 0 :=
  UInt32.toNat.inj h.remaining

theorem Carries.getRemainingBits_cons {e : UInt32 × UInt32} {entries : List (UInt32 × UInt32)}
    (h : nv.Carries (e :: entries)) : nv.getRemainingBits ≠ 0 := by
  have ⟨hpos, _, _⟩ := h.fits e List.mem_cons_self
  have hrem := h.remaining
  rw [totalBits_cons] at hrem
  intro hzero
  rw [hzero] at hrem
  change 0 = _ at hrem
  omega

theorem Carries.extractAll {entries : List (UInt32 × UInt32)} (h : nv.Carries entries) :
    ∃ nv', nv.extractAll (entries.map Prod.snd) = some (entries.map Prod.fst, nv') ∧
      nv'.getRemainingBits = 0 := by
  induction entries generalizing nv with
  | nil => exact ⟨nv, rfl, h.getRemainingBits_nil⟩
  | cons e entries ih =>
    have ⟨hext, hrest⟩ := h.extractNeighborIndex
    have ⟨nv', hall, hzero⟩ := ih hrest
    refine ⟨nv', ?_, hzero⟩
    rw [List.map_cons, NixVector.extractAll, hext]
    simp [hall]

theorem extractNeighborIndex_used {index : UInt32} {nv' : NixVector}
    (h : nv.extractNeighborIndex n = some (index, nv')) :
    ¬ nv.getRemainingBits < n ∧ nv' = { nv with used := nv.used + n } := by
  unfold extractNeighborIndex at h
  dsimp only at h
  split_ifs at h with hfew hleft hzero hspan
  · obtain ⟨word, -, h⟩ := Option.bind_eq_some_iff.1 h
    obtain ⟨before, -, h⟩ := Option.bind_eq_some_iff.1 h
    cases h
    exact ⟨hleft, rfl⟩
  · obtain ⟨word, -, h⟩ := Option.bind_eq_some_iff.1 h
    cases h
    exact ⟨hleft, rfl⟩

/-- What has been extracted was left. -/
theorem le_getRemainingBits {widths indices : List UInt32} {nv' : NixVector}
    (h : nv.extractAll widths = some (indices, nv')) :
    (widths.map UInt32.toNat).sum ≤ nv.getRemainingBits.toNat := by
  induction widths generalizing nv indices nv' with
  | nil => simp
  | cons width widths ih =>
    simp only [extractAll, Option.bind_eq_bind, Option.bind_eq_some_iff] at h
    obtain ⟨⟨index, nv₁⟩, hext, ⟨rest, nv₂⟩, hall, -⟩ := h
    obtain ⟨hleft, rfl⟩ := extractNeighborIndex_used hext
    have hrest := ih hall
    rw [UInt32.lt_iff_toNat_lt] at hleft
    rw [getRemainingBits_use, toNat_sub (by omega)] at hrest
    rw [List.map_cons, List.sum_cons]
    omega

/-- Extracting the widths in reverse gives the indices back and leaves nothing, exactly up to
`2 ^ 32` bits: there the counter of bits wraps, and the extraction stops with a fatal error. -/
theorem extract_reverse_iff (entries : List (UInt32 × UInt32)) (hfit : ∀ e ∈ entries, Fits e) :
    ∃ nv, empty.addAll entries = some nv ∧
      ((∃ nv', nv.extractAll (entries.map Prod.snd).reverse =
          some ((entries.map Prod.fst).reverse, nv') ∧ nv'.getRemainingBits = 0) ↔
        totalBits entries < 2 ^ 32) := by
  have hfit' : ∀ e ∈ entries.reverse, Fits e := fun e he => hfit e (List.mem_reverse.1 he)
  obtain ⟨nv, hadd, hrem, hcarries⟩ := carries_addAll hfit'
  rw [List.reverse_reverse] at hadd
  rw [totalBits_reverse] at hrem hcarries
  refine ⟨nv, hadd, ?_, ?_⟩
  · rintro ⟨nv', hall, -⟩
    have hle := le_getRemainingBits hall
    have hsum : ((entries.map Prod.snd).reverse.map UInt32.toNat).sum = totalBits entries := by
      rw [List.map_reverse, List.sum_reverse, List.map_map]
      rfl
    omega
  · intro hlt
    rw [← List.map_reverse, ← List.map_reverse]
    exact (hcarries hlt).extractAll

theorem extract_reverse_iff_three : ∃ nv, empty.addAll [(5, 3), (7, 30), (1, 1)] = some nv ∧
    ∃ nv', nv.extractAll [1, 30, 3] = some ([1, 7, 5], nv') ∧ nv'.getRemainingBits = 0 := by
  have hfit : ∀ e ∈ [((5, 3) : UInt32 × UInt32), (7, 30), (1, 1)], Fits e := by
    intro e he
    simp only [List.mem_cons, List.not_mem_nil, or_false] at he
    obtain rfl | rfl | rfl := he <;> exact ⟨by decide, by decide, by decide⟩
  obtain ⟨nv, hadd, hiff⟩ := extract_reverse_iff _ hfit
  exact ⟨nv, hadd, hiff.2 (by decide)⟩

/-- With `2 ^ 32` bits nothing can be extracted. -/
theorem not_extract_reverse : ¬ ∀ entries : List (UInt32 × UInt32), (∀ e ∈ entries, Fits e) →
    ∃ nv, empty.addAll entries = some nv ∧
      ∃ nv', nv.extractAll (entries.map Prod.snd).reverse =
        some ((entries.map Prod.fst).reverse, nv') ∧ nv'.getRemainingBits = 0 := by
  intro h
  have hfit : ∀ e ∈ List.replicate (2 ^ 27) ((0, 32) : UInt32 × UInt32), Fits e := by
    intro e he
    rw [List.eq_of_mem_replicate he]
    exact ⟨by decide, by decide, by decide⟩
  obtain ⟨nv, hadd, hlifo⟩ := h _ hfit
  obtain ⟨nv', hadd', hiff⟩ := extract_reverse_iff _ hfit
  obtain rfl : nv = nv' := Option.some.inj (hadd.symm.trans hadd')
  have hlt := hiff.1 hlifo
  rw [totalBits, List.map_replicate, List.sum_replicate] at hlt
  simp at hlt

end NixVector

end SeanetSim
