import Mathlib.Data.List.Pairwise
import SeanetSim.Internet.TcpRxStream

/-!
# The list of SACK blocks

`UpdateSackList` puts the new part of a segment in front of the list and merges it with the blocks
that touch it.  The list is in order as long as no listed block is erased by a segment that contains
it, and as long as what a segment brings again is listed (`sackListed_of_run`).
-/

namespace SeanetSim

open SequenceNumber Blocks

namespace TcpRxBuffer

/-- The part in the window of a segment that is out of order. -/
def outOfOrder {S : Type} [SequenceNumber S] [DecidableEq S] (b : TcpRxBuffer S) :
    RxEvent S → Option (SackBlock S)
  | .add seq payload =>
    let (headSeq, tailSeq) := b.trimToWindow seq (SequenceNumber.add seq payload.length)
    if gt headSeq b.nextRxSeq && lt headSeq tailSeq then some (headSeq, tailSeq) else none
  | .extract _ => none
  | .setFinSequence _ => none

/-- The segment out of order that has come last, unless it has been acknowledged. -/
def recent {S : Type} [SequenceNumber S] [DecidableEq S] (trace : RxTrace S) :
    Option (SackBlock S) :=
  trace.foldl (fun last p =>
    (outOfOrder p.1 p.2.1).or (last.filter fun r => gt r.1 p.1.nextRxSeq)) none

/-! ## Over the integers -/

section Integers

variable {u d h t x y : ℤ} {front back A E B : List (RxBlock ℤ)} {b b' : TcpRxBuffer ℤ}
  {first current : SackBlock ℤ} {pre post rest sackList : List (SackBlock ℤ)}

/-- A gap lies between two blocks. -/
def Separated (s s' : SackBlock ℤ) : Prop := s.2 < s'.1 ∨ s'.2 < s.1

instance : Std.Symm Separated := ⟨fun _ _ h => h.symm⟩

/-- Some block of the list has a number. -/
def ListedAt (b : TcpRxBuffer ℤ) (z : ℤ) : Prop := ∃ s ∈ b.sackList, s.1 ≤ z ∧ z < s.2

/-- A segment from `h` to `t` finds its place in the list: a listed block that it contains is not
erased, and what is stored of it at its ends, or as a whole, is listed. -/
structure FindsPlace (b : TcpRxBuffer ℤ) (h t : ℤ) : Prop where
  kept : ∀ x z, h ≤ x → x < z → z < t → ¬ Covers b.data x → ListedAt b z →
    ∀ i ∈ b.data, i.1 ≤ z → z < stop i → t ≤ stop i
  left : (∃ x, h ≤ x ∧ x < t ∧ ¬ Covers b.data x) → ∀ z, h ≤ z → z < t →
    (∀ x, h ≤ x → x ≤ z → Covers b.data x) → ListedAt b z
  right : (∃ x, h ≤ x ∧ x < t ∧ ¬ Covers b.data x) → ∀ z, h ≤ z → z < t →
    (∀ x, z ≤ x → x < t → Covers b.data x) → ListedAt b z
  again : (∀ z, h ≤ z → z < t → Covers b.data z) →
    ∃ s ∈ b.sackList.head?, s.1 ≤ h ∧ t ≤ s.2

/-- At most four blocks with gaps between them; the first one has the segment out of order that has
come last, as long as the next number lies below it. -/
structure Tidy (b : TcpRxBuffer ℤ) (last : Option (SackBlock ℤ)) : Prop where
  few : b.sackList.length ≤ 4
  apart : b.sackList.Pairwise Separated
  recent : ∀ r ∈ last, b.nextRxSeq < r.1 →
    ∃ s ∈ b.sackList.head?, s.1 ≤ r.1 ∧ r.1 < r.2 ∧ r.2 ≤ s.2

/-! ### Merging -/

/-- The blocks while the new one is merged with those that it touches. -/
structure Merging (h t : ℤ) (n : ℕ) (first : SackBlock ℤ) (rest : List (SackBlock ℤ)) : Prop where
  nonempty : first.1 < first.2
  nonempty' : ∀ s ∈ rest, s.1 < s.2
  few : rest.length ≤ n
  apart : rest.Pairwise Separated
  beside : ∀ s ∈ rest, s.2 ≤ first.1 ∨ first.2 ≤ s.1
  left : h < first.1 → ∃ s ∈ rest, s.1 ≤ h ∧ s.2 = first.1
  right : first.2 < t → ∃ s ∈ rest, t ≤ s.2 ∧ s.1 = first.2

/-- Separated blocks that share a number, or touch, are the same. -/
theorem eq_of_separated {s s' : SackBlock ℤ} (hapart : sackList.Pairwise Separated)
    (hs : s ∈ sackList) (hs' : s' ∈ sackList) (hnear : ¬ Separated s s') : s = s' := by
  by_contra hne
  exact hnear (hapart.forall hs hs' hne)

theorem mem_of_ne {s : SackBlock ℤ} (hs : s ∈ pre ++ current :: post) (hne : s ≠ current) :
    s ∈ pre ++ post := by
  rw [List.mem_append, List.mem_cons] at hs
  rw [List.mem_append]
  tauto

theorem Merging.merge {n : ℕ} (hm : Merging h t n first (pre ++ current :: post))
    (htouch : Touches first current) : Merging h t n (join first current) (pre ++ post) := by
  have hsub : (pre ++ post).Sublist (pre ++ current :: post) :=
    (List.sublist_cons_self current post).append_left pre
  have hmem : current ∈ pre ++ current :: post := by simp
  have hcurrent := hm.nonempty' current hmem
  have hfirst := hm.nonempty
  have hfar : ∀ s ∈ pre ++ post, Separated s current ∨ Separated current s := by
    intro s hs
    obtain ⟨-, hpost, hpre⟩ := List.pairwise_append.1 hm.apart
    rcases List.mem_append.1 hs with hs | hs
    · exact .inl (hpre s hs current List.mem_cons_self)
    · exact .inr ((List.pairwise_cons.1 hpost).1 s hs)
  unfold Touches at htouch
  unfold Separated at hfar
  unfold join
  rcases htouch with hleft | hright
  · rw [min_eq_right (by omega), max_eq_left (by omega)]
    refine ⟨by dsimp only; omega, fun s hs => hm.nonempty' s (hsub.subset hs),
      hsub.length_le.trans hm.few, hm.apart.sublist hsub, fun s hs => ?_, fun hlt => ?_,
      fun hlt => ?_⟩
    · have hs' := hm.nonempty' s (hsub.subset hs)
      have := hm.beside s (hsub.subset hs)
      have := hfar s hs
      dsimp only
      omega
    · -- the block on the left is the one that reaches to the head
      dsimp only at hlt
      obtain ⟨s, hs, hsh, hsf⟩ := hm.left (by omega)
      have hs' := hm.nonempty' s hs
      have heq := eq_of_separated hm.apart hs hmem (by unfold Separated; omega)
      rw [heq] at hsh
      omega
    · obtain ⟨s, hs, hst, hsf⟩ := hm.right hlt
      exact ⟨s, mem_of_ne hs fun heq => by rw [heq] at hsf; omega, hst, hsf⟩
  · rw [min_eq_left (by omega), max_eq_right (by omega)]
    refine ⟨by dsimp only; omega, fun s hs => hm.nonempty' s (hsub.subset hs),
      hsub.length_le.trans hm.few, hm.apart.sublist hsub, fun s hs => ?_, fun hlt => ?_,
      fun hlt => ?_⟩
    · have hs' := hm.nonempty' s (hsub.subset hs)
      have := hm.beside s (hsub.subset hs)
      have := hfar s hs
      dsimp only
      omega
    · obtain ⟨s, hs, hsh, hsf⟩ := hm.left hlt
      exact ⟨s, mem_of_ne hs fun heq => by rw [heq] at hsf; omega, hsh, hsf⟩
    · dsimp only at hlt
      obtain ⟨s, hs, hst, hsf⟩ := hm.right (by omega)
      have hs' := hm.nonempty' s hs
      have heq := eq_of_separated hm.apart hs hmem (by unfold Separated; omega)
      rw [heq] at hst
      omega

/-- What the loop makes of a new block. -/
theorem mergeLoop_tidy {n : ℕ} (hm : Merging h t n first rest) :
    ∃ first' rest', mergeLoop rest.length first rest = some (first' :: rest') ∧
      rest'.length ≤ n ∧ (first' :: rest').Pairwise Separated ∧ first'.1 ≤ h ∧ t ≤ first'.2 := by
  obtain ⟨first', rest', hloop, hm', hfar⟩ := mergeLoop_invariant
    (J := Merging h t n) (fun hJ => ⟨hJ.nonempty, hJ.nonempty'⟩)
    (fun hJ htouch => hJ.merge htouch) le_rfl hm
  refine ⟨first', rest', hloop, hm'.few, List.pairwise_cons.2 ⟨fun s hs => ?_, hm'.apart⟩, ?_, ?_⟩
  · have hbeside := hm'.beside s hs
    have hfar' := hfar s hs
    unfold Touches at hfar'
    unfold Separated
    omega
  · by_contra hlt
    obtain ⟨s, hs, -, hsf⟩ := hm'.left (by omega)
    exact hfar s hs (.inl hsf.symm)
  · by_contra hlt
    obtain ⟨s, hs, -, hsf⟩ := hm'.right (by omega)
    exact hfar s hs (.inr hsf.symm)

/-! ### Add -/

theorem Valid.not_covers (hb : Valid u d front back b) : ¬ Covers b.data d := by
  rintro ⟨i, hi, hid, hdi⟩
  rw [hb.data] at hi
  rcases List.mem_append.1 hi with hi | hi
  · have := hb.chain.bounds i hi
    omega
  · have := hb.above i hi
    omega

theorem Cut.not_covers {data : List (RxBlock ℤ)} (hcut : Cut data h t A E B x y) :
    ¬ Covers data x := by
  rintro ⟨i, hi, hix, hxi⟩
  have hxy := hcut.new
  rw [hcut.data, List.mem_append, List.mem_append] at hi
  rcases hi with (hi | hi) | hi
  · have := hcut.before i hi
    omega
  · have := hcut.erased i hi
    omega
  · have := hcut.after i hi
    omega

/-- The new part of a segment that finds its place. -/
theorem merging_of_cut {last : Option (SackBlock ℤ)} (hb : Valid u d front back b)
    (htidy : Tidy b last)
    (hplace : FindsPlace b h t) (hcut : Cut b.data h t A E B x y) :
    Merging h t 4 (x, y) b.sackList := by
  have hhx := hcut.head
  have hxy := hcut.new
  have hyt := hcut.tail
  have hmissing : ∃ x, h ≤ x ∧ x < t ∧ ¬ Covers b.data x := ⟨x, hhx, by omega, hcut.not_covers⟩
  have hbeside : ∀ s ∈ b.sackList, s.2 ≤ x ∨ y ≤ s.1 := by
    intro s hs
    by_contra hnot
    obtain ⟨hlt, hstored⟩ := hb.sack s hs
    obtain ⟨z, hz⟩ : ∃ z, z = max x s.1 := ⟨_, rfl⟩
    obtain ⟨-, i, hi, hiz, hzi⟩ := hstored z (by omega) (by omega)
    have hi' := hi
    rw [hcut.data, List.mem_append, List.mem_append] at hi'
    rcases hi' with (hi' | hi') | hi'
    · have := hcut.before i hi'
      omega
    · -- a listed byte of a block that is erased
      obtain ⟨hxi, -, hend⟩ := hcut.erased i hi'
      have := hplace.kept x z hhx (by omega) (by omega) hcut.not_covers ⟨s, hs, by omega, by omega⟩
        i hi hiz hzi
      omega
    · have := hcut.after i hi'
      omega
  refine ⟨hxy, fun s hs => (hb.sack s hs).1, htidy.few, htidy.apart, hbeside, fun hlt => ?_,
    fun hlt => ?_⟩
  · dsimp only at hlt ⊢
    have hcovers : ∀ z, h ≤ z → z < x → Covers b.data z := fun z hz hzx => by
      rw [hcut.data, covers_append, covers_append]
      exact .inl (.inl (hcut.left z hz hzx))
    obtain ⟨s, hs, hsx, hxs⟩ := hplace.left hmissing (x - 1) (by omega) (by omega)
      fun z hz hzx => hcovers z hz (by omega)
    obtain ⟨hlt', hstored⟩ := hb.sack s hs
    have hend : s.2 ≤ x := by
      by_contra hlt''
      exact hcut.not_covers (hstored x (by omega) (by omega)).2
    refine ⟨s, hs, ?_, by omega⟩
    by_contra hhs
    obtain ⟨s', hs', hsz, hzs⟩ := hplace.left hmissing (s.1 - 1) (by omega) (by omega)
      fun z hz hzx => hcovers z hz (by omega)
    have heq := eq_of_separated htidy.apart hs hs' (by unfold Separated; omega)
    rw [← heq] at hsz
    omega
  · dsimp only at hlt ⊢
    have hcovers : ∀ z, y ≤ z → z < t → Covers b.data z := fun z hz hzt => by
      rw [hcut.data, covers_append]
      exact .inr (hcut.right z hz hzt)
    obtain ⟨s, hs, hsy, hys⟩ := hplace.right hmissing y (by omega) hlt hcovers
    have hbegin := hbeside s hs
    refine ⟨s, hs, ?_, by omega⟩
    by_contra hts
    obtain ⟨s', hs', hsz, hzs⟩ := hplace.right hmissing s.2 (by omega) (by omega)
      fun z hz hzt => hcovers z (by omega) hzt
    have heq := eq_of_separated htidy.apart hs hs' (by unfold Separated; omega)
    rw [← heq] at hzs
    omega

theorem add_tidy {last : Option (SackBlock ℤ)} (hb : Valid u d front back b)
    (hfin : b.gotFin = false)
    (htidy : Tidy b last) {seq : ℤ} {payload : List UInt8} (hlength : payload.length < 2 ^ 32)
    (hplace : ∀ r ∈ outOfOrder b (.add seq payload), FindsPlace b r.1 r.2) :
    ∃ r b' d' front' back', b.add seq payload = some (r, b') ∧ Valid u d' front' back' b' ∧
      b'.gotFin = false ∧ Tidy b' ((outOfOrder b (.add seq payload)).or last) := by
  have hnext := hb.next_eq hfin
  obtain ⟨-, hhead⟩ := trimToWindow_spec b seq (seq + payload.length)
  have hcases := add_cases hb seq payload hlength Prod.mk.eta.symm
  have horder : outOfOrder b (.add seq payload) =
      let (h, t) := b.trimToWindow seq (seq + payload.length)
      if gt h b.nextRxSeq && lt h t then some (h, t) else none := rfl
  rw [horder] at hplace ⊢
  generalize b.trimToWindow seq (seq + payload.length) = trimmed at *
  obtain ⟨h, t⟩ := trimmed
  dsimp only at hhead hcases hplace ⊢
  rw [gt_int, lt_int] at hplace ⊢
  by_cases hout : b.nextRxSeq < h ∧ h < t
  · have hcond : (decide (b.nextRxSeq < h) && decide (h < t)) = true := by simpa using hout
    rw [if_pos hcond] at hplace ⊢
    have hfinds := hplace (h, t) rfl
    dsimp only at hfinds
    rw [Option.some_or]
    rcases hcases with ⟨heq, hall⟩ | ⟨A, E, B, x, y, p, hcut, hx, hp, -, heq⟩
    · refine ⟨false, b, d, front, back, heq, hb, hfin, htidy.few, htidy.apart, fun r hr _ => ?_⟩
      cases hr
      obtain ⟨s, hs, hsh, hts⟩ := hfinds.again hall
      exact ⟨s, hs, hsh, hout.2, hts⟩
    · have hhx := hcut.head
      obtain ⟨b', d', front', back', haccount, hvalid, -, -, hgot, -, -, hsack⟩ :=
        account_spec hb hnext hcut (hnext ▸ hx) hp
      rcases hsack with ⟨hxd, -⟩ | ⟨-, -, sackList, hloop, hsack⟩
      · omega
      · obtain ⟨first, rest, hloop', hfew, hapart, hfirst, hsecond⟩ :=
          mergeLoop_tidy (merging_of_cut hb htidy hfinds hcut)
        rw [hloop] at hloop'
        cases hloop'
        refine ⟨true, b', d', front', back', by rw [heq, haccount]; rfl, hvalid,
          hgot.trans hfin, ?_, ?_, fun r hr _ => ?_⟩
        · rw [hsack]
          split_ifs with hlong
          · rw [List.length_dropLast, List.length_cons]
            omega
          · omega
        · rw [hsack]
          split_ifs
          · exact hapart.sublist (List.dropLast_sublist _)
          · exact hapart
        · cases hr
          refine ⟨first, ?_, hfirst, hout.2, hsecond⟩
          rw [hsack]
          split_ifs with hlong
          · cases rest with
            | nil => simp at hlong
            | cons s rest => rfl
          · rfl
  · have hcond : ¬ (decide (b.nextRxSeq < h) && decide (h < t)) = true := by simpa using hout
    rw [if_neg hcond, Option.none_or]
    rcases hcases with ⟨heq, -⟩ | ⟨A, E, B, x, y, p, hcut, hx, hp, -, heq⟩
    · exact ⟨false, b, d, front, back, heq, hb, hfin, htidy⟩
    · have hhx := hcut.head
      have hxy := hcut.new
      have hyt := hcut.tail
      obtain ⟨-, hhd⟩ := hhead (by omega)
      have hxd : x = d := by
        by_contra hne
        apply hb.not_covers
        rw [hcut.data, covers_append, covers_append]
        exact .inl (.inl (hcut.left d (by omega) (by omega)))
      obtain ⟨b', d', front', back', haccount, hvalid, hdd', -, hgot, -, -, hsack⟩ :=
        account_spec hb hnext hcut (hnext ▸ hx) hp
      rcases hsack with ⟨-, hsack⟩ | ⟨hlt, -⟩
      · refine ⟨true, b', d', front', back', by rw [heq, haccount]; rfl, hvalid,
          hgot.trans hfin, ?_, ?_, fun r hr hlt => ?_⟩
        · rw [hsack]
          exact (List.length_filter_le _ _).trans htidy.few
        · rw [hsack]
          exact htidy.apart.filter _
        · rw [hvalid.next_eq (hgot.trans hfin)] at hlt
          obtain ⟨s, hs, hsr, hrr, hrs⟩ := htidy.recent r hr (by omega)
          refine ⟨s, ?_, hsr, hrr, hrs⟩
          obtain ⟨rest, hrest⟩ := List.head?_eq_some_iff.1 hs
          have hkeep : decide (d' < s.2) = true := by
            rw [decide_eq_true_eq]
            omega
          rw [hsack, hrest, List.filter_cons_of_pos (by simpa using hkeep)]
          rfl
      · omega

theorem extract_tidy {last : Option (SackBlock ℤ)} (hb : Valid u d front back b)
    (htidy : Tidy b last) (maxSize : ℕ) :
    ∃ out b' front', b.extract maxSize = some (out, b') ∧
      Valid (u + out.length) d front' back b' ∧ b'.gotFin = b.gotFin ∧ Tidy b' last := by
  obtain ⟨out, b', front', heq, -, hvalid, hgot, -, -, hsack, hnext, -⟩ := extract_valid hb maxSize
  obtain ⟨hfew, hapart, hrecent⟩ := htidy
  rw [← hsack] at hfew hapart hrecent
  rw [← hnext] at hrecent
  exact ⟨out, b', front', heq, hvalid, hgot, hfew, hapart, hrecent⟩

theorem recent_append {S : Type} [SequenceNumber S] [DecidableEq S] (trace : RxTrace S)
    (p : TcpRxBuffer S × RxEvent S × List UInt8) :
    recent (trace ++ [p]) =
      (outOfOrder p.1 p.2.1).or ((recent trace).filter fun r => gt r.1 p.1.nextRxSeq) := by
  simp [recent]

end Integers

/-! ## 32 bits -/

/-- A block of the list has a sequence number. -/
def SackContains (s : SackBlock UInt32) (x : UInt32) : Prop := offset s.1 x < offset s.1 s.2

def Stored (b : TcpRxBuffer UInt32) (x : UInt32) : Prop := ∃ i ∈ b.data, Contains i x

def Listed (b : TcpRxBuffer UInt32) (x : UInt32) : Prop := ∃ s ∈ b.sackList, SackContains s x

/-- `FindsPlace` for the `n` bytes from `h` on: no listed block that they contain is erased, and
what is stored of them at the ends, or as a whole, is listed. -/
structure Places (b : TcpRxBuffer UInt32) (h : UInt32) (n : ℕ) : Prop where
  kept : ∀ k < n, ∀ m < k, ¬ Stored b (SequenceNumber.add h m) → Listed b (SequenceNumber.add h k) →
    ∀ i ∈ b.data, Contains i (SequenceNumber.add h k) → Contains i (SequenceNumber.add h (n - 1))
  left : (∃ m < n, ¬ Stored b (SequenceNumber.add h m)) → ∀ k < n,
    (∀ m ≤ k, Stored b (SequenceNumber.add h m)) → Listed b (SequenceNumber.add h k)
  right : (∃ m < n, ¬ Stored b (SequenceNumber.add h m)) → ∀ k < n,
    (∀ m < n, k ≤ m → Stored b (SequenceNumber.add h m)) → Listed b (SequenceNumber.add h k)
  again : (∀ k < n, Stored b (SequenceNumber.add h k)) →
    ∃ s ∈ b.sackList.head?, ∀ k < n, SackContains s (SequenceNumber.add h k)

instance (s : SackBlock UInt32) (x : UInt32) : Decidable (SackContains s x) :=
  inferInstanceAs (Decidable (_ < _))

instance (b : TcpRxBuffer UInt32) (x : UInt32) : Decidable (Stored b x) :=
  List.decidableBEx (fun i => Contains i x) b.data

instance (b : TcpRxBuffer UInt32) (x : UInt32) : Decidable (Listed b x) :=
  List.decidableBEx (fun s => SackContains s x) b.sackList

instance (b : TcpRxBuffer UInt32) (h : UInt32) (n : ℕ) : Decidable (Places b h n) :=
  haveI : Decidable (∃ s ∈ b.sackList.head?, ∀ k < n, SackContains s (SequenceNumber.add h k)) :=
    Option.decidableExistsMem _
  haveI : Decidable (∀ k < n, ∀ m < k, ¬ Stored b (SequenceNumber.add h m) →
      Listed b (SequenceNumber.add h k) → ∀ i ∈ b.data,
        Contains i (SequenceNumber.add h k) → Contains i (SequenceNumber.add h (n - 1))) :=
    inferInstance
  decidable_of_iff
    ((∀ k < n, ∀ m < k, ¬ Stored b (SequenceNumber.add h m) →
        Listed b (SequenceNumber.add h k) → ∀ i ∈ b.data,
          Contains i (SequenceNumber.add h k) → Contains i (SequenceNumber.add h (n - 1))) ∧
      ((∃ m < n, ¬ Stored b (SequenceNumber.add h m)) → ∀ k < n,
        (∀ m ≤ k, Stored b (SequenceNumber.add h m)) → Listed b (SequenceNumber.add h k)) ∧
      ((∃ m < n, ¬ Stored b (SequenceNumber.add h m)) → ∀ k < n,
        (∀ m < n, k ≤ m → Stored b (SequenceNumber.add h m)) → Listed b (SequenceNumber.add h k)) ∧
      ((∀ k < n, Stored b (SequenceNumber.add h k)) →
        ∃ s ∈ b.sackList.head?, ∀ k < n, SackContains s (SequenceNumber.add h k)))
    ⟨fun h => ⟨h.1, h.2.1, h.2.2.1, h.2.2.2⟩, fun h => ⟨h.kept, h.left, h.right, h.again⟩⟩

/-- The list as it should be, after a run in which `last` was the last segment out of order. -/
structure SackListed (b : TcpRxBuffer UInt32) (last : Option (SackBlock UInt32)) : Prop where
  few : b.sackList.length ≤ 4
  disjoint : b.sackList.Pairwise fun s s' => ∀ x, ¬ (SackContains s x ∧ SackContains s' x)
  above : ∀ s ∈ b.sackList, gt s.1 b.nextRxSeq = true
  stored : ∀ x, Listed b x → Stored b x
  recent : ∀ r ∈ last, gt r.1 b.nextRxSeq = true →
    ∃ s ∈ b.sackList.head?, ∀ x, SackContains r x → SackContains s x

section Lift

variable {lo u d z : ℤ} {front back : List (RxBlock ℤ)} {b : TcpRxBuffer ℤ} {s : SackBlock ℤ}
  {x : UInt32}

theorem unwrap_wrap (hz : In lo (lo + 2 ^ 31) z) : unwrap lo (wrap z) = z := by
  unfold unwrap
  rw [offset_wrap hz]
  omega

theorem stored_lift (hb : Within lo (lo + 2 ^ 31) b) :
    Stored b.lift x ↔ Covers b.data (unwrap lo x) := by
  constructor
  · rintro ⟨i, hi, hx⟩
    obtain ⟨j, hj, rfl⟩ := List.mem_map.1 hi
    exact ⟨j, hj, (contains_lift (hb.data j hj).1 (hb.data j hj).2).1 hx⟩
  · rintro ⟨j, hj, hx⟩
    exact ⟨liftBlock j, List.mem_map_of_mem hj,
      (contains_lift (hb.data j hj).1 (hb.data j hj).2).2 hx⟩

theorem sackContains_lift (hs : SackIn lo (lo + 2 ^ 31) s) (hlt : s.1 < s.2) :
    SackContains (liftSack s) x ↔ s.1 ≤ unwrap lo x ∧ unwrap lo x < s.2 := by
  obtain ⟨hs₁, hs₂⟩ := hs
  obtain ⟨n, hn⟩ : ∃ n : ℕ, s.2 = s.1 + n := ⟨(s.2 - s.1).toNat, by omega⟩
  have hwidth : offset (wrap s.1) (wrap s.2) = n := by
    have hsub := toNat_wrap_sub s.2 s.1
    unfold In at hs₁ hs₂
    unfold offset
    omega
  rw [SackContains, show (liftSack s).1 = wrap s.1 from rfl,
    show (liftSack s).2 = wrap s.2 from rfl, hwidth, hn]
  exact offset_lift hs₁ (hn ▸ hs₂)

theorem listed_lift (hb : Within lo (lo + 2 ^ 31) b) (hvalid : Valid u d front back b) :
    Listed b.lift x ↔ ListedAt b (unwrap lo x) := by
  constructor
  · rintro ⟨s, hs, hx⟩
    obtain ⟨s', hs', rfl⟩ := List.mem_map.1 hs
    exact ⟨s', hs', (sackContains_lift (hb.sack s' hs') (hvalid.sack s' hs').1).1 hx⟩
  · rintro ⟨s, hs, hx⟩
    exact ⟨liftSack s, List.mem_map_of_mem hs,
      (sackContains_lift (hb.sack s hs) (hvalid.sack s hs).1).2 hx⟩

theorem findsPlace_of_lift (hb : Within lo (lo + 2 ^ 31) b) (hvalid : Valid u d front back b)
    {h t : ℤ} (hh : In lo (lo + 2 ^ 31) h) (ht : In lo (lo + 2 ^ 31) t) (hlt : h < t)
    (hplaces : Places b.lift (wrap h) (offset (wrap h) (wrap t))) : FindsPlace b h t := by
  obtain ⟨n, rfl⟩ : ∃ n : ℕ, t = h + n := ⟨(t - h).toNat, by omega⟩
  have hn : offset (wrap h) (wrap (h + n)) = n := by
    have hsub := toNat_wrap_sub (h + n) h
    unfold In at hh ht
    unfold offset
    omega
  rw [hn] at hplaces
  have hbyte : ∀ k : ℕ, k < n → unwrap lo (SequenceNumber.add (wrap h) k) = h + k := by
    intro k hk
    rw [← wrap_add]
    apply unwrap_wrap
    unfold In at hh ht ⊢
    omega
  have hstored : ∀ k : ℕ, k < n →
      (Stored b.lift (SequenceNumber.add (wrap h) k) ↔ Covers b.data (h + k)) := by
    intro k hk
    rw [stored_lift hb, hbyte k hk]
  have hlisted : ∀ k : ℕ, k < n →
      (Listed b.lift (SequenceNumber.add (wrap h) k) ↔ ListedAt b (h + k)) := by
    intro k hk
    rw [listed_lift hb hvalid, hbyte k hk]
  have hindex : ∀ z, h ≤ z → z < h + n → ∃ k : ℕ, k < n ∧ z = h + k := fun z hz hzt =>
    ⟨(z - h).toNat, by omega, by omega⟩
  have hmissing : (∃ x, h ≤ x ∧ x < h + n ∧ ¬ Covers b.data x) →
      ∃ m < n, ¬ Stored b.lift (SequenceNumber.add (wrap h) m) := by
    rintro ⟨x, hx, hxt, hnot⟩
    obtain ⟨m, hm, rfl⟩ := hindex x hx hxt
    exact ⟨m, hm, fun hcovers => hnot ((hstored m hm).1 hcovers)⟩
  refine ⟨fun x z hx hxz hzt hnot hlist i hi hiz hzi => ?_, fun hmiss z hz hzt hall => ?_,
    fun hmiss z hz hzt hall => ?_, fun hall => ?_⟩
  · obtain ⟨m, hm, rfl⟩ := hindex x hx (by omega)
    obtain ⟨k, hk, rfl⟩ := hindex z (by omega) hzt
    have hcontains : ∀ k : ℕ, k < n → (Contains (liftBlock i) (SequenceNumber.add (wrap h) k) ↔
        i.1 ≤ h + k ∧ h + k < stop i) := by
      intro k hk
      rw [contains_lift (hb.data i hi).1 (hb.data i hi).2, hbyte k hk]
    have hlast := hplaces.kept k hk m (by omega) (mt (hstored m hm).1 hnot) ((hlisted k hk).2 hlist)
      (liftBlock i) (List.mem_map_of_mem hi) ((hcontains k hk).2 ⟨hiz, hzi⟩)
    have := (hcontains (n - 1) (by omega)).1 hlast
    omega
  · obtain ⟨k, hk, rfl⟩ := hindex z hz hzt
    exact (hlisted k hk).1 (hplaces.left (hmissing hmiss) k hk fun m hm =>
      (hstored m (by omega)).2 (hall (h + m) (by omega) (by omega)))
  · obtain ⟨k, hk, rfl⟩ := hindex z hz hzt
    exact (hlisted k hk).1 (hplaces.right (hmissing hmiss) k hk fun m hm hkm =>
      (hstored m hm).2 (hall (h + m) (by omega) (by omega)))
  · obtain ⟨s, hs, hcontains⟩ := hplaces.again fun k hk =>
      (hstored k hk).2 (hall (h + k) (by omega) (by omega))
    rw [show b.lift.sackList = b.sackList.map liftSack from rfl, List.head?_map] at hs
    obtain ⟨s, hs', rfl⟩ := Option.mem_map.1 hs
    have hmem := List.mem_of_mem_head? hs'
    have hin : ∀ k : ℕ, k < n → s.1 ≤ h + k ∧ h + k < s.2 := by
      intro k hk
      rw [← hbyte k hk]
      exact (sackContains_lift (hb.sack s hmem) (hvalid.sack s hmem).1).1 (hcontains k hk)
    have hfirst := hin 0 (by omega)
    have hlast := hin (n - 1) (by omega)
    exact ⟨s, hs', by omega, by omega⟩

theorem outOfOrder_lift (hb : Within lo (lo + 2 ^ 31) b) {e : RxEvent ℤ}
    (he : EventIn lo (lo + 2 ^ 31) b e) :
    outOfOrder b.lift (liftEvent e) = (outOfOrder b e).map liftSack ∧
      ∀ r ∈ outOfOrder b e, SackIn lo (lo + 2 ^ 31) r ∧ r.1 < r.2 := by
  cases e with
  | add seq payload =>
    obtain ⟨hseq, hseq', hedge⟩ := he
    have htrim := trimToWindow_lift (by omega) hb hseq hseq' hedge
    have hin := trimToWindow_within hb hseq hseq' hedge
    rw [liftEvent, outOfOrder, outOfOrder, ← wrap_add, htrim, add_int]
    generalize b.trimToWindow seq (seq + payload.length) = trimmed at hin ⊢
    obtain ⟨h, t⟩ := trimmed
    dsimp only at hin ⊢
    rw [show b.lift.nextRxSeq = wrap b.nextRxSeq from rfl, gt_lift (by omega) hin.1 hb.next,
      lt_lift (by omega) hin.1 hin.2]
    split_ifs with hcond
    · refine ⟨rfl, fun r hr => ?_⟩
      cases hr
      rw [Bool.and_eq_true, lt_int, decide_eq_true_eq] at hcond
      exact ⟨hin, hcond.2⟩
    · exact ⟨rfl, fun r hr => absurd hr (Option.not_mem_none r)⟩
  | extract maxSize => exact ⟨rfl, fun r hr => absurd hr (Option.not_mem_none r)⟩
  | setFinSequence s => exact ⟨rfl, fun r hr => absurd hr (Option.not_mem_none r)⟩

/-- A run in which every segment out of order finds its place; the last one lies in the window of
the buffer. -/
theorem tidy_of_run {initial fin : ℤ} {maxBuffer : ℕ} {trace : RxTrace ℤ}
    (hrun : Run Step (empty initial fin maxBuffer) trace b)
    (hplace : ∀ q ∈ trace, ∃ lo, Within lo (lo + 2 ^ 31) q.1 ∧ EventIn lo (lo + 2 ^ 31) q.1 q.2.1 ∧
      (NoFin (liftEvent q.2.1) ∧ ∀ r ∈ outOfOrder q.1.lift (liftEvent q.2.1),
        Places q.1.lift r.1 (offset r.1 r.2))) :
    b.gotFin = false ∧ (∃ u d front back, Valid u d front back b) ∧ Tidy b (recent trace) ∧
      (∃ lo, Within lo (lo + 2 ^ 31) b ∧ ∀ r ∈ recent trace, SackIn lo (lo + 2 ^ 31) r) ∧
      recent (trace.map (Prod.map lift (Prod.map liftEvent id))) = (recent trace).map liftSack := by
  induction hrun with
  | nil =>
    exact ⟨rfl, ⟨initial, initial, [], [], valid_empty initial fin maxBuffer⟩,
      ⟨Nat.zero_le 4, .nil, nofun⟩, ⟨initial, within_empty initial fin maxBuffer, nofun⟩, rfl⟩
  | snoc hrun hst ih =>
    rename_i trace b b' e
    obtain ⟨e, out⟩ := e
    obtain ⟨hfin, ⟨u, d, front, back, hb⟩, htidy, ⟨lo', hwithin', hlast'⟩, hmap⟩ :=
      ih fun q hq => hplace q (List.mem_append_left _ hq)
    obtain ⟨lo, hwithin, hevent, hopen, hplaces⟩ := hplace (b, e, out) (by simp)
    dsimp only at hwithin hevent hopen hplaces
    obtain ⟨horder, hin⟩ := outOfOrder_lift hwithin hevent
    have hresult : Within lo (lo + 2 ^ 31) b' := (execute_lift (by omega) hwithin hevent).2 _ hst
    have hopenLast : ∀ r ∈ (recent trace).filter (fun r => gt r.1 b.nextRxSeq),
        r ∈ recent trace ∧ b.nextRxSeq < r.1 := by
      intro r hr
      obtain ⟨hr, hgt⟩ := Option.mem_filter_iff.1 hr
      exact ⟨hr, by simpa using hgt⟩
    have htidy' : Tidy b ((recent trace).filter fun r => gt r.1 b.nextRxSeq) :=
      ⟨htidy.few, htidy.apart, fun r hr => htidy.recent r (hopenLast r hr).1⟩
    rw [List.map_append, List.map_singleton, recent_append, recent_append, hmap]
    have hkeep : ((recent trace).map liftSack).filter (fun r => gt r.1 b.lift.nextRxSeq) =
        ((recent trace).filter fun r => gt r.1 b.nextRxSeq).map liftSack := by
      cases hrecent : recent trace with
      | none => rfl
      | some r =>
        have hgt : gt (wrap r.1) (wrap b.nextRxSeq) = gt r.1 b.nextRxSeq :=
          gt_lift (by omega) (hlast' r hrecent).1 hwithin'.next
        simp only [Option.map_some, Option.filter_some]
        rw [show gt (liftSack r).1 b.lift.nextRxSeq = gt r.1 b.nextRxSeq from hgt]
        split_ifs <;> rfl
    have hnewMap : (outOfOrder b.lift (liftEvent e)).or
        (((recent trace).map liftSack).filter fun r => gt r.1 b.lift.nextRxSeq) =
        ((outOfOrder b e).or ((recent trace).filter fun r => gt r.1 b.nextRxSeq)).map liftSack := by
      rw [horder, hkeep]
      cases outOfOrder b e <;> rfl
    have hnewLast : ∀ r ∈ (outOfOrder b e).or
        ((recent trace).filter fun r => gt r.1 b.nextRxSeq), SackIn lo (lo + 2 ^ 31) r := by
      intro r hr
      cases horder' : outOfOrder b e with
      | some r' =>
        rw [horder', Option.some_or] at hr
        cases hr
        exact (hin r horder').1
      | none =>
        rw [horder', Option.none_or] at hr
        obtain ⟨hr, hlt⟩ := hopenLast r hr
        obtain ⟨s, hs, hsr, hrr, hrs⟩ := htidy.recent r hr hlt
        obtain ⟨hs₁, hs₂⟩ := hwithin.sack s (List.mem_of_mem_head? hs)
        unfold SackIn In at *
        omega
    cases e with
    | add seq payload =>
      obtain ⟨r, c, d', front', back', heq, hvalid, hgot, htidy'⟩ :=
        add_tidy hb hfin htidy' hevent.length_lt fun r hr => by
          obtain ⟨hr', hlt⟩ := hin r hr
          refine findsPlace_of_lift hwithin hb hr'.1 hr'.2 hlt (hplaces (liftSack r) ?_)
          rw [horder]
          exact Option.mem_map_of_mem _ hr
      obtain ⟨-, rfl⟩ := hst.of_add heq
      exact ⟨hgot, ⟨u, d', front', back', hvalid⟩, htidy', ⟨lo, hresult, hnewLast⟩, hnewMap⟩
    | extract maxSize =>
      obtain ⟨out', c, front', heq, hvalid, hgot, htidy'⟩ := extract_tidy hb htidy' maxSize
      obtain ⟨-, rfl⟩ := hst.of_extract heq
      exact ⟨hgot.trans hfin, ⟨_, d, front', back, hvalid⟩, htidy', ⟨lo, hresult, hnewLast⟩,
        hnewMap⟩
    | setFinSequence s => exact absurd hopen id

theorem sackListed_of_tidy {last : Option (SackBlock ℤ)} (hb : Within lo (lo + 2 ^ 31) b)
    (hvalid : Valid u d front back b) (hfin : b.gotFin = false) (htidy : Tidy b last)
    (hlast : ∀ r ∈ last, SackIn lo (lo + 2 ^ 31) r) :
    SackListed b.lift (last.map liftSack) := by
  have hnext := hvalid.next_eq hfin
  have hcontains : ∀ {s : SackBlock ℤ} {x : UInt32}, s ∈ b.sackList →
      (SackContains (liftSack s) x ↔ s.1 ≤ unwrap lo x ∧ unwrap lo x < s.2) := fun hs =>
    sackContains_lift (hb.sack _ hs) (hvalid.sack _ hs).1
  refine ⟨?_, ?_, fun s hs => ?_, fun x hx => ?_, fun r hr hgt => ?_⟩
  · show (b.sackList.map liftSack).length ≤ 4
    rw [List.length_map]
    exact htidy.few
  · show (b.sackList.map liftSack).Pairwise _
    rw [List.pairwise_map]
    refine htidy.apart.imp_of_mem fun {s s'} hs hs' hsep x hx => ?_
    have hxs := (hcontains hs).1 hx.1
    have hxs' := (hcontains hs').1 hx.2
    unfold Separated at hsep
    omega
  · obtain ⟨s, hs', rfl⟩ := List.mem_map.1 hs
    obtain ⟨hlt, hall⟩ := hvalid.sack s hs'
    have hd := (hall s.1 le_rfl hlt).1
    have hgt : gt (wrap s.1) (wrap b.nextRxSeq) = gt s.1 b.nextRxSeq :=
      gt_lift (by omega) (hb.sack s hs').1 hb.next
    show gt (wrap s.1) (wrap b.nextRxSeq) = true
    rw [hgt, gt_int, decide_eq_true_eq, hnext]
    exact hd
  · rw [stored_lift hb]
    obtain ⟨s, hs, hsx, hxs⟩ := (listed_lift hb hvalid).1 hx
    exact ((hvalid.sack s hs).2 _ hsx hxs).2
  · obtain ⟨r, hr', rfl⟩ := Option.mem_map.1 hr
    have hrin := hlast r hr'
    have hgt' : gt (wrap r.1) (wrap b.nextRxSeq) = gt r.1 b.nextRxSeq :=
      gt_lift (by omega) hrin.1 hb.next
    have hlt : b.nextRxSeq < r.1 := by
      rw [← decide_eq_true_eq (p := b.nextRxSeq < r.1), ← gt_int, ← hgt']
      exact hgt
    obtain ⟨s, hs, hsr, hrr, hrs⟩ := htidy.recent r hr' hlt
    refine ⟨liftSack s, ?_, fun x hx => ?_⟩
    · show liftSack s ∈ (b.sackList.map liftSack).head?
      rw [List.head?_map]
      exact Option.mem_map_of_mem _ hs
    · have hxr := (sackContains_lift hrin hrr).1 hx
      exact (hcontains (List.mem_of_mem_head? hs)).2 ⟨by omega, by omega⟩

/-- The list is as it should be in a run in which every segment out of order finds its place. -/
theorem sackListed_of_run {initial fin : UInt32} {maxBuffer : ℕ} {trace : RxTrace UInt32}
    {b : TcpRxBuffer UInt32} (hrun : Run Step (empty initial fin maxBuffer) trace b)
    (hopen : ∀ p ∈ trace, NoFin p.2.1)
    (hwindow : ∀ p ∈ trace, ∃ base, InWindow base p.1 ∧ EventInWindow base p.1 p.2.1)
    (hplaces : ∀ p ∈ trace, ∀ r ∈ outOfOrder p.1 p.2.1, Places p.1 r.1 (offset r.1 r.2)) :
    SackListed b (recent trace) := by
  obtain ⟨z, rfl⟩ := exists_wrap initial
  obtain ⟨zfin, rfl⟩ := exists_wrap fin
  obtain ⟨trace, b, hrun', rfl, rfl, -, hin⟩ := exists_run_of_inWindow
    (P := fun _ b e => NoFin e ∧ ∀ r ∈ outOfOrder b e, Places b r.1 (offset r.1 r.2))
    (within_empty z zfin maxBuffer) hrun fun p hp => by
      obtain ⟨base, hbase, hevent⟩ := hwindow p hp
      exact ⟨base, hbase, hevent, hopen p hp, hplaces p hp⟩
  obtain ⟨hfin, ⟨u, d, front, back, hvalid⟩, htidy, ⟨lo, hwithin, hlast⟩, hmap⟩ :=
    tidy_of_run hrun' hin
  rw [hmap]
  exact sackListed_of_tidy hwithin hvalid hfin htidy hlast

/-- The second segment fills the gap between the first block and a new one, and repeats parts of
both. -/
theorem sackListed_merged : ∃ (trace : RxTrace UInt32) (b : TcpRxBuffer UInt32),
    recent trace = some (0xffffffff, 3) ∧ b.sackList = [(0xfffffffe, 4)] ∧
      SackListed b (recent trace) := by
  have hrun : (empty (0xfffffff0 : UInt32) 0 100).executeAll
      [.add 0xfffffffe [0, 1], .add 2 [4, 5], .add 0xffffffff [1, 2, 3, 4]] =
      some (([(empty 0xfffffff0 0 100, .add 0xfffffffe [0, 1], []),
        ({ empty 0xfffffff0 0 100 with
            sackList := [(0xfffffffe, 0)], size := 2, data := [(0xfffffffe, [0, 1])] },
          .add 2 [4, 5], []),
        ({ empty 0xfffffff0 0 100 with
            sackList := [(2, 4), (0xfffffffe, 0)], size := 4,
            data := [(0xfffffffe, [0, 1]), (2, [4, 5])] },
          .add 0xffffffff [1, 2, 3, 4], [])] : RxTrace UInt32),
        { empty 0xfffffff0 0 100 with
          sackList := [(0xfffffffe, 4)], size := 6,
          data := [(0xfffffffe, [0, 1]), (0, [2, 3]), (2, [4, 5])] }) := rfl
  refine ⟨_, _, rfl, rfl, sackListed_of_run (run_executeAll hrun) (by decide)
    (fun p hp => ⟨0xfffffff0, ?_⟩) ?_⟩
  · revert p
    decide +kernel
  · refine fun p hp r hr => of_decide_eq_true ((Option.all_eq_true
      (fun r => decide (Places p.1 r.1 (offset r.1 r.2))) _).1 ?_ r hr)
    clear hr r
    revert p
    decide +kernel

/-- A listed block that a segment contains stays in the list. -/
theorem not_sackListed_erased : ∃ (trace : RxTrace UInt32) (b : TcpRxBuffer UInt32),
    Run Step (empty 0 0 100) trace b ∧ (∀ p ∈ trace, NoFin p.2.1) ∧
    b.sackList = [(8, 14), (10, 12)] ∧ SackContains (8, 14) 10 ∧ SackContains (10, 12) 10 := by
  have hrun : (empty (0 : UInt32) 0 100).executeAll
      [.add 10 [1, 2], .add 8 [7, 8, 1, 2, 3, 4]] =
      some (([(empty 0 0 100, .add 10 [1, 2], []),
        ({ empty 0 0 100 with sackList := [(10, 12)], size := 2, data := [(10, [1, 2])] },
          .add 8 [7, 8, 1, 2, 3, 4], [])] : RxTrace UInt32),
        { empty 0 0 100 with
          sackList := [(8, 14), (10, 12)], size := 6, data := [(8, [7, 8, 1, 2, 3, 4])] }) := rfl
  exact ⟨_, _, run_executeAll hrun, by decide, rfl, by decide, by decide⟩

end Lift

end TcpRxBuffer

end SeanetSim
