import SeanetSim.Internet.Fragmentation

/-!
# Partial reassembly

`GetPartialPacket` puts the fragments together as far as they reach without a gap.  It trims a
fragment that overlaps what is there with two unsigned subtractions, and the second one underflows
for a fragment that ends in front of what is there already; `GetPacket` leaves such a fragment out.
`Fragments.getPartialPacket_exact_iff` says for which fragments the first bytes of the payload come
back without an underflow.
-/

namespace SeanetSim

namespace Fragments

/-- A subtraction of unsigned integers; none where it underflows. -/
def unsignedSub (a b : ℕ) : Option ℕ := if b ≤ a then some (a - b) else none

/-- The loop of `GetPartialPacket`, with its subtractions. -/
def appendPartialChecked : List UInt8 → List (List UInt8 × ℕ) → Option (List UInt8)
  | p, [] => some p
  | p, it :: rest =>
    let lastEndOffset := p.length % 2 ^ 16
    if it.2 < lastEndOffset then do
      let newStart ← unsignedSub lastEndOffset it.2
      let newSize ← unsignedSub it.1.length newStart
      appendPartialChecked (p ++ (it.1.drop newStart).take newSize) rest
    else if lastEndOffset = it.2 then appendPartialChecked (p ++ it.1) rest
    else appendPartialChecked p rest

def getPartialPacketChecked (f : Fragments) : Option (List UInt8) :=
  match f.fragments with
  | [] => none
  | it :: rest => if 0 < it.2 then some [] else appendPartialChecked [] (it :: rest)

theorem appendPartial_of_checked {p packet : List UInt8} {l : List (List UInt8 × ℕ)}
    (h : appendPartialChecked p l = some packet) : appendPartial p l = packet := by
  induction l generalizing p with
  | nil => exact Option.some.inj h
  | cons it rest ih =>
    rw [appendPartialChecked] at h
    rw [appendPartial]
    by_cases hover : it.2 < p.length % 2 ^ 16
    · rw [if_pos hover] at h ⊢
      obtain ⟨newStart, hstart, h⟩ := Option.bind_eq_some_iff.1 h
      obtain ⟨newSize, hsize, h⟩ := Option.bind_eq_some_iff.1 h
      unfold unsignedSub at hstart hsize
      split_ifs at hstart hsize
      cases hstart
      cases hsize
      rw [List.take_of_length_le (by rw [List.length_drop])] at h
      exact ih h
    · rw [if_neg hover] at h ⊢
      split_ifs at h ⊢ with heq
      · exact ih h
      · exact ih h

/-- Where nothing underflows, the packet is that of `GetPartialPacket`. -/
theorem getPartialPacket_of_checked {f : Fragments} {packet : List UInt8}
    (h : f.getPartialPacketChecked = some packet) : f.getPartialPacket = some packet := by
  unfold getPartialPacketChecked at h
  unfold getPartialPacket
  cases hf : f.fragments with
  | nil =>
    rw [hf] at h
    cases h
  | cons it rest =>
    rw [hf] at h
    dsimp only at h ⊢
    split_ifs at h ⊢
    · exact h
    · rw [appendPartial_of_checked h]

/-! ## How far the fragments reach -/

/-- The end of a fragment. -/
def endOffset (it : List UInt8 × ℕ) : ℕ := it.2 + it.1.length

/-- The end of what is there, with more fragments behind it. -/
def reach : ℕ → List (List UInt8 × ℕ) → ℕ
  | lastEndOffset, [] => lastEndOffset
  | lastEndOffset, it :: rest =>
    if it.2 ≤ lastEndOffset then reach (max lastEndOffset (endOffset it)) rest
    else reach lastEndOffset rest

/-- No fragment that overlaps what is there ends in front of its end. -/
def NoneInside : ℕ → List (List UInt8 × ℕ) → Prop
  | _, [] => True
  | lastEndOffset, it :: rest =>
    (it.2 < lastEndOffset → lastEndOffset ≤ endOffset it) ∧
      NoneInside (if it.2 ≤ lastEndOffset then max lastEndOffset (endOffset it) else lastEndOffset)
        rest

/-- The bytes up to the offset of the fragment are there, or in one of the fragments. -/
def Connected (lastEndOffset : ℕ) (l : List (List UInt8 × ℕ)) (it : List UInt8 × ℕ) : Prop :=
  ∀ k ≤ it.2, k < lastEndOffset ∨ Covered l k

variable {l : List (List UInt8 × ℕ)} {it : List UInt8 × ℕ} {lastEndOffset k : ℕ}

theorem covered_cons : Covered (it :: l) k ↔ (it.2 ≤ k ∧ k < endOffset it) ∨ Covered l k := by
  simp [Covered, endOffset]

theorem not_covered_of_lt (h : ∀ it ∈ l, k < it.2) : ¬ Covered l k :=
  fun ⟨it, hit, hle, _⟩ => absurd (h it hit) (Nat.not_lt_of_le hle)

theorem reach_of_lt (h : ∀ it ∈ l, lastEndOffset < it.2) :
    reach lastEndOffset l = lastEndOffset := by
  induction l with
  | nil => rfl
  | cons it l ih =>
    rw [List.forall_mem_cons] at h
    rw [reach, if_neg (Nat.not_le_of_lt h.1), ih h.2]

theorem noneInside_of_lt (h : ∀ it ∈ l, lastEndOffset < it.2) : NoneInside lastEndOffset l := by
  induction l with
  | nil => trivial
  | cons it l ih =>
    rw [List.forall_mem_cons] at h
    rw [NoneInside, if_neg (Nat.not_le_of_lt h.1)]
    exact ⟨fun hlt => absurd hlt (Nat.not_lt_of_lt h.1), ih h.2⟩

theorem le_reach (lastEndOffset : ℕ) (l : List (List UInt8 × ℕ)) :
    lastEndOffset ≤ reach lastEndOffset l := by
  induction l generalizing lastEndOffset with
  | nil => exact Nat.le_refl _
  | cons it l ih =>
    rw [reach]
    split_ifs
    · exact (Nat.le_max_left _ _).trans (ih _)
    · exact ih _

/-- In the order of their offsets, the fragments behind a gap do not matter. -/
theorem lt_of_gap (hsorted : (it :: l).Pairwise fun a b => a.2 ≤ b.2)
    (hgap : lastEndOffset < it.2) : ∀ it' ∈ it :: l, lastEndOffset < it'.2 := by
  rw [List.pairwise_cons] at hsorted
  rw [List.forall_mem_cons]
  exact ⟨hgap, fun it' hit' => hgap.trans_le (hsorted.1 it' hit')⟩

/-- The reach is the longest stretch of bytes without a gap. -/
theorem reach_spec (hsorted : l.Pairwise fun a b => a.2 ≤ b.2) (lastEndOffset : ℕ) :
    (∀ k, lastEndOffset ≤ k → k < reach lastEndOffset l → Covered l k) ∧
      ¬ Covered l (reach lastEndOffset l) := by
  induction l generalizing lastEndOffset with
  | nil =>
    exact ⟨fun k hle hlt => absurd hlt (Nat.not_lt_of_le hle), fun ⟨_, hit, _⟩ => nomatch hit⟩
  | cons it l ih =>
    by_cases hle : it.2 ≤ lastEndOffset
    · obtain ⟨hall, hnot⟩ := ih (List.pairwise_cons.1 hsorted).2 (max lastEndOffset (endOffset it))
      have hreach := le_reach (max lastEndOffset (endOffset it)) l
      rw [reach, if_pos hle]
      simp only [covered_cons]
      refine ⟨fun k hk hlt => ?_, ?_⟩
      · by_cases hend : k < endOffset it
        · exact .inl ⟨hle.trans hk, hend⟩
        · exact .inr (hall k (by omega) hlt)
      · rintro (⟨-, hlt⟩ | hcov)
        · omega
        · exact hnot hcov
    · have hlt := lt_of_gap hsorted (Nat.lt_of_not_le hle)
      rw [reach_of_lt hlt]
      exact ⟨fun k hk hlt => absurd hlt (Nat.not_lt_of_le hk), not_covered_of_lt hlt⟩

/-- Whether a fragment lies inside what is there when its turn comes, in terms of all fragments. -/
theorem noneInside_iff (hsorted : l.Pairwise fun a b => a.2 ≤ b.2) (lastEndOffset : ℕ) :
    NoneInside lastEndOffset l ↔
      (∀ b ∈ l, Connected lastEndOffset l b → lastEndOffset ≤ endOffset b) ∧
        l.Pairwise fun a b => Connected lastEndOffset l b → endOffset a ≤ endOffset b := by
  induction l generalizing lastEndOffset with
  | nil => simp [NoneInside]
  | cons it l ih =>
    obtain ⟨hit, hl⟩ := List.pairwise_cons.1 hsorted
    by_cases hle : it.2 ≤ lastEndOffset
    · -- what is connected stays connected when the fragment has been added
      have hconn : ∀ b, Connected (max lastEndOffset (endOffset it)) l b ↔
          Connected lastEndOffset (it :: l) b := by
        intro b
        refine forall₂_congr fun k _ => ?_
        rw [covered_cons]
        have hmax : k < max lastEndOffset (endOffset it) ↔
            k < lastEndOffset ∨ (it.2 ≤ k ∧ k < endOffset it) := by omega
        rw [hmax, or_assoc]
      have hfirst : (it.2 < lastEndOffset → lastEndOffset ≤ endOffset it) ↔
          (Connected lastEndOffset (it :: l) it → lastEndOffset ≤ endOffset it) := by
        refine ⟨fun h _ => ?_, fun h hlt => h fun k hk => .inl (by omega)⟩
        by_cases hlt : it.2 < lastEndOffset
        · exact h hlt
        · unfold endOffset
          omega
      rw [NoneInside, if_pos hle, ih hl, List.forall_mem_cons, List.pairwise_cons, hfirst]
      simp only [hconn, Nat.max_le]
      constructor
      · rintro ⟨hown, hmax, hpairs⟩
        exact ⟨⟨hown, fun b hb hc => (hmax b hb hc).1⟩, fun b hb hc => (hmax b hb hc).2, hpairs⟩
      · rintro ⟨⟨hown, hends⟩, hends', hpairs⟩
        exact ⟨hown, fun b hb hc => ⟨hends b hb hc, hends' b hb hc⟩, hpairs⟩
    · have hlt := lt_of_gap hsorted (Nat.lt_of_not_le hle)
      -- the byte in the gap is missing
      have hnot : ∀ b ∈ it :: l, ¬ Connected lastEndOffset (it :: l) b := by
        intro b hb hc
        rcases hc lastEndOffset (hlt b hb).le with hself | hcov
        · exact absurd hself (Nat.lt_irrefl _)
        · exact not_covered_of_lt hlt hcov
      refine iff_of_true (noneInside_of_lt hlt) ⟨fun b hb hc => absurd hc (hnot b hb), ?_⟩
      exact List.pairwise_iff_forall_sublist.2 fun hsub hc =>
        absurd hc (hnot _ (hsub.subset (by simp)))

/-! ## The packet -/

/-- A fragment of a datagram: some of its bytes, and where they stand. -/
def OfPayload (payload : List UInt8) (it : List UInt8 × ℕ) : Prop :=
  it.1 = (payload.drop it.2).take it.1.length ∧ endOffset it ≤ payload.length

variable {payload : List UInt8}

theorem appendPartialChecked_take (hlen : payload.length ≤ 65515)
    (hl : ∀ it ∈ l, OfPayload payload it) (hlast : lastEndOffset ≤ payload.length) :
    (NoneInside lastEndOffset l → appendPartialChecked (payload.take lastEndOffset) l =
        some (payload.take (reach lastEndOffset l))) ∧
      (¬ NoneInside lastEndOffset l →
        appendPartialChecked (payload.take lastEndOffset) l = none) := by
  induction l generalizing lastEndOffset with
  | nil => exact ⟨fun _ => rfl, fun h => absurd trivial h⟩
  | cons it l ih =>
    rw [List.forall_mem_cons] at hl
    obtain ⟨⟨hbytes, hend⟩, hl⟩ := hl
    have hmod : (payload.take lastEndOffset).length % 2 ^ 16 = lastEndOffset := by
      rw [List.length_take]
      omega
    simp only [appendPartialChecked, hmod, reach, NoneInside]
    have hsize : endOffset it = it.2 + it.1.length := rfl
    rcases Nat.lt_trichotomy it.2 lastEndOffset with hover | heq | hgap
    · rw [if_pos hover, if_pos hover.le, unsignedSub, if_pos hover.le]
      simp only [hover, true_imp_iff, hover.le, if_true, Option.bind_eq_bind, Option.bind_some]
      by_cases hinside : lastEndOffset ≤ endOffset it
      · -- the fragment goes further
        have hstart : it.2 + (lastEndOffset - it.2) = lastEndOffset := by omega
        have hmore : payload.take lastEndOffset ++
            (it.1.drop (lastEndOffset - it.2)).take (it.1.length - (lastEndOffset - it.2)) =
            payload.take (endOffset it) := by
          have hadd : endOffset it =
              lastEndOffset + (it.1.length - (lastEndOffset - it.2)) := by omega
          have hpart := congrArg (List.drop (lastEndOffset - it.2)) hbytes
          rw [List.drop_take, List.drop_drop, hstart] at hpart
          rw [hpart, List.take_take, Nat.min_self, hadd, List.take_add]
        rw [unsignedSub, if_pos (by omega), Option.bind_some, hmore, Nat.max_eq_right hinside]
        simpa [hinside] using ih hl hend
      · rw [unsignedSub, if_neg (by omega), Option.bind_none]
        exact ⟨fun h => absurd h.1 hinside, fun _ => rfl⟩
    · have hmore : payload.take lastEndOffset ++ it.1 = payload.take (endOffset it) := by
        rw [hsize, heq, List.take_add, ← heq, ← hbytes]
      have hmax : max lastEndOffset (endOffset it) = endOffset it := by omega
      rw [if_neg heq.not_lt, if_pos heq.symm, if_pos heq.le, hmore, if_pos heq.le, hmax]
      simpa [heq.not_lt] using ih hl hend
    · rw [if_neg (Nat.not_lt_of_lt hgap), if_neg (by omega), if_neg (by omega), if_neg (by omega)]
      simpa [Nat.not_lt_of_lt hgap] using ih hl hlast

/-- The fragments kept, in the order of their offsets. -/
theorem Holds.getPartialPacketChecked {f : Fragments} {arrivals : List Ipv4PayloadHeaderPair}
    (h : f.Holds arrivals) (hne : arrivals ≠ []) (hlen : payload.length ≤ 65515)
    (hpieces : ∀ x ∈ arrivals, OfPayload payload (x.payload, x.fragmentOffset)) :
    (NoneInside 0 f.fragments →
        f.getPartialPacketChecked = some (payload.take (reach 0 f.fragments))) ∧
      (¬ NoneInside 0 f.fragments → f.getPartialPacketChecked = none) := by
  have hl : ∀ it ∈ f.fragments, OfPayload payload it := by
    intro it hit
    obtain ⟨x, hx, rfl⟩ := (h.mem it).1 hit
    exact hpieces x hx
  have hnil : f.fragments ≠ [] := by
    obtain ⟨x, hx⟩ := List.exists_mem_of_ne_nil _ hne
    exact List.ne_nil_of_mem ((h.mem _).2 ⟨x, hx, rfl⟩)
  have hsorted := h.sorted
  unfold Fragments.getPartialPacketChecked
  generalize f.fragments = l at hl hnil hsorted
  cases l with
  | nil => exact absurd rfl hnil
  | cons it rest =>
    dsimp only
    split_ifs with hgap
    · have hlt := lt_of_gap hsorted hgap
      rw [reach_of_lt hlt]
      exact ⟨fun _ => rfl, fun hnot => absurd (noneInside_of_lt hlt) hnot⟩
    · exact appendPartialChecked_take hlen hl (Nat.zero_le _)

/-- Of the fragments of one datagram that are kept, in whatever order they have arrived, the first
bytes up to the first one that is missing come back, without an underflow, exactly if among those
in front of the missing byte none ends before another one does that stands in front of it. -/
theorem getPartialPacket_exact_iff (hlen : payload.length ≤ 65515)
    {arrivals : List Ipv4PayloadHeaderPair} (hne : arrivals ≠ [])
    (hpieces : ∀ x ∈ arrivals, OfPayload payload (x.payload, x.fragmentOffset)) :
    (∃ n, (∀ k < n, Covered (empty.addAll arrivals).fragments k) ∧
      ¬ Covered (empty.addAll arrivals).fragments n ∧
      (empty.addAll arrivals).getPartialPacketChecked = some (payload.take n)) ↔
    (empty.addAll arrivals).fragments.Pairwise fun a b =>
      (∀ k ≤ b.2, Covered (empty.addAll arrivals).fragments k) → endOffset a ≤ endOffset b := by
  have hholds : (empty.addAll arrivals).Holds arrivals := holds_empty.addAll arrivals
  obtain ⟨hsome, hnone⟩ := hholds.getPartialPacketChecked hne hlen hpieces
  obtain ⟨hall, hnot⟩ := reach_spec hholds.sorted 0
  have hinside : NoneInside 0 (empty.addAll arrivals).fragments ↔
      (empty.addAll arrivals).fragments.Pairwise fun a b =>
        (∀ k ≤ b.2, Covered (empty.addAll arrivals).fragments k) → endOffset a ≤ endOffset b := by
    rw [noneInside_iff hholds.sorted]
    simp [Connected]
  rw [← hinside]
  constructor
  · rintro ⟨n, -, -, hpacket⟩
    by_contra hcut
    rw [hnone hcut] at hpacket
    cases hpacket
  · intro hwhole
    exact ⟨_, fun k hk => hall k (Nat.zero_le _) hk, hnot, hsome hwhole⟩

/-- Two fragments of which the second one overlaps the first and goes further. -/
theorem getPartialPacket_exact_iff_overlap :
    (∃ n, (∀ k < n, Covered (empty.addAll [⟨List.replicate 16 7, 8, true⟩,
          ⟨List.replicate 16 7, 0, true⟩]).fragments k) ∧
      ¬ Covered (empty.addAll [⟨List.replicate 16 7, 8, true⟩,
          ⟨List.replicate 16 7, 0, true⟩]).fragments n ∧
      (empty.addAll [⟨List.replicate 16 7, 8, true⟩,
          ⟨List.replicate 16 7, 0, true⟩]).getPartialPacketChecked =
        some ((List.replicate 32 7).take n)) ↔
    (empty.addAll [⟨List.replicate 16 7, 8, true⟩,
        ⟨List.replicate 16 7, 0, true⟩]).fragments.Pairwise fun a b =>
      (∀ k ≤ b.2, Covered (empty.addAll [⟨List.replicate 16 7, 8, true⟩,
        ⟨List.replicate 16 7, 0, true⟩]).fragments k) → endOffset a ≤ endOffset b :=
  getPartialPacket_exact_iff (by decide) (by decide) (by unfold OfPayload; decide)

/-- A fragment of 8 bytes inside one of 24: its size is less than what is cut off in front. -/
theorem not_getPartialPacket_exact :
    ¬ ∀ (payload : List UInt8) (arrivals : List Ipv4PayloadHeaderPair), payload.length ≤ 65515 →
      arrivals ≠ [] → (∀ x ∈ arrivals, OfPayload payload (x.payload, x.fragmentOffset)) →
      ∃ n, (∀ k < n, Covered (empty.addAll arrivals).fragments k) ∧
        ¬ Covered (empty.addAll arrivals).fragments n ∧
        (empty.addAll arrivals).getPartialPacketChecked = some (payload.take n) := by
  intro h
  obtain ⟨n, -, -, hpacket⟩ := h (List.replicate 32 7)
    [⟨List.replicate 24 7, 0, true⟩, ⟨List.replicate 8 7, 8, true⟩] (by decide) (by decide)
    (by unfold OfPayload; decide)
  have hnone : (empty.addAll [⟨List.replicate 24 7, 0, true⟩,
      ⟨List.replicate 8 7, 8, true⟩]).getPartialPacketChecked = none := by decide
  rw [hnone] at hpacket
  cases hpacket

end Fragments

end SeanetSim
