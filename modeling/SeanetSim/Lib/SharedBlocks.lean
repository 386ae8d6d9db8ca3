import Mathlib.Data.UInt
import Mathlib.Data.List.Basic
import Mathlib.Logic.Function.Basic

/-!
# Shared blocks

Blocks of memory, each with a 32-bit count of the variables that have a pointer to it, and freed when
the count becomes zero.  A variable adds a part of its own to what it has of the block, and what it
shows is read from both.  `Held` says that the counts are right and that each variable fits its
block; every operation on one variable (to release its block, to share that of another one, to
allocate one, to write in place) keeps it, and changes what is shown by that variable only.
-/

namespace SeanetSim

/-- A block with the number of pointers to it. -/
structure Counted (β : Type*) where
  count : UInt32
  value : β

/-- Blocks at addresses, of which those from `top` on have never been used. -/
structure SharedBlocks (β : Type*) where
  block : ℕ → Option (Counted β)
  top : ℕ

namespace SharedBlocks

variable {β γ δ κ : Type*}

def empty : SharedBlocks β := ⟨fun _ => none, 0⟩

/-- What is at a pointer, if it is not null. -/
def value (m : SharedBlocks β) (p : Option ℕ) : Option β :=
  p.bind fun a => (m.block a).map (·.value)

def setBlock (m : SharedBlocks β) (a : ℕ) (b : Option (Counted β)) : SharedBlocks β :=
  { m with block := Function.update m.block a b }

/-- A new block with one pointer to it. -/
def alloc (m : SharedBlocks β) (v : β) : SharedBlocks β :=
  ⟨Function.update m.block m.top (some ⟨1, v⟩), m.top + 1⟩

/-- One more pointer to a block; none where it has been freed. -/
def share (m : SharedBlocks β) : Option ℕ → Option (SharedBlocks β)
  | none => some m
  | some a => (m.block a).map fun b => m.setBlock a (some { b with count := b.count + 1 })

/-- One pointer less; the last one frees the block. -/
def release (m : SharedBlocks β) : Option ℕ → Option (SharedBlocks β)
  | none => some m
  | some a => (m.block a).map fun b =>
    m.setBlock a (if b.count - 1 = 0 then none else some { b with count := b.count - 1 })

/-- A block is written in place. -/
def write (m : SharedBlocks β) (a : ℕ) (v : β) : SharedBlocks β :=
  m.setBlock a ((m.block a).map fun b => { b with value := v })

variable {m m' : SharedBlocks β} {a c : ℕ} {p : Option ℕ} {b : Counted β} {v : β}

theorem setBlock_self {n : Option (Counted β)} : (m.setBlock a n).block a = n :=
  Function.update_self ..

theorem setBlock_of_ne {n : Option (Counted β)} (h : c ≠ a) :
    (m.setBlock a n).block c = m.block c := Function.update_of_ne h ..

theorem setBlock_setBlock {n n' : Option (Counted β)} :
    (m.setBlock a n).setBlock a n' = m.setBlock a n' :=
  congrArg (SharedBlocks.mk · _) (Function.update_idem ..)

theorem alloc_self : (m.alloc v).block m.top = some ⟨1, v⟩ := Function.update_self ..

theorem alloc_of_ne (h : c ≠ m.top) : (m.alloc v).block c = m.block c := Function.update_of_ne h ..

theorem value_some (h : m.block a = some b) : m.value (some a) = some b.value := by
  rw [value, Option.bind_some, h]
  rfl

theorem value_congr (h : ∀ a, p = some a → m'.block a = m.block a) : m'.value p = m.value p := by
  cases p with
  | none => rfl
  | some a => rw [value, value, Option.bind_some, Option.bind_some, h a rfl]

theorem release_some (hb : m.block a = some b) : m.release (some a) =
    some (m.setBlock a (if b.count - 1 = 0 then none
      else some { b with count := b.count - 1 })) := by
  rw [release, hb, Option.map_some]

theorem share_some (hb : m.block a = some b) :
    m.share (some a) = some (m.setBlock a (some { b with count := b.count + 1 })) := by
  rw [share, hb, Option.map_some]

/-- A pointer that comes and goes. -/
theorem block_of_share_release {m₁ m₂ : SharedBlocks β} (hb : m.block a = some b)
    (hcount : b.count ≠ 0) (hshare : m.share (some a) = some m₁)
    (hrelease : m₁.release (some a) = some m₂) : m₂.block a = m.block a := by
  rw [share_some hb] at hshare
  cases hshare
  rw [release_some setBlock_self] at hrelease
  cases hrelease
  have hsame : b.count + 1 - 1 = b.count := UInt32.add_sub_cancel ..
  rw [setBlock_self, hsame, if_neg hcount, hb]

theorem block_write (hb : m.block a = some b) :
    (m.write a v).block a = some { b with value := v } := by
  rw [write, setBlock_self, hb]
  rfl

theorem write_self (hb : m.block a = some b) : m.write a b.value = m := by
  have hsame : (m.block a).map (fun c => { c with value := b.value }) = m.block a := by
    rw [hb]
    rfl
  rw [write, hsame, setBlock, Function.update_eq_self]

theorem write_write {w : β} : (m.write a v).write a w = m.write a w := by
  rw [write, write, write, setBlock_self, setBlock_setBlock, Option.map_map]
  rfl

theorem write_alloc {w : β} : (m.alloc v).write m.top w = m.alloc w := by
  rw [write, alloc_self]
  exact congrArg (SharedBlocks.mk · _) (Function.update_idem ..)

theorem release_write (h : p ≠ some a) :
    (m.write a v).release p = (m.release p).map (·.write a v) := by
  cases p with
  | none => rfl
  | some c =>
    have hne : c ≠ a := fun heq => h (heq ▸ rfl)
    cases hc : m.block c with
    | none =>
      have hc' : (m.write a v).block c = none := (setBlock_of_ne hne).trans hc
      rw [release, release, hc, hc']
      rfl
    | some b =>
      have hc' : (m.write a v).block c = some b := (setBlock_of_ne hne).trans hc
      rw [release_some hc, release_some hc', Option.map_some, Option.some_inj, write, write,
        setBlock_of_ne hne.symm]
      exact congrArg (SharedBlocks.mk · _) (Function.update_comm hne ..).symm

/-! ## The holders of a block -/

variable (ptr : γ → Option ℕ)

/-- The number of variables with a pointer to a block. -/
def holders (slots : List (Option γ)) (a : ℕ) : ℕ :=
  slots.countP fun o => o.bind ptr = some a

variable {ptr} {slots : List (Option γ)} {i j : ℕ} {o o' : Option γ} {g k : γ}

variable (ptr) in
theorem holders_set (ho : slots[i]? = some o) (o' : Option γ) (a : ℕ) :
    holders ptr (slots.set i o') a + (if decide (o.bind ptr = some a) = true then 1 else 0) =
      holders ptr slots a + if decide (o'.bind ptr = some a) = true then 1 else 0 := by
  obtain ⟨hi, rfl⟩ := List.getElem?_eq_some_iff.1 ho
  have hle := List.boole_getElem_le_countP (p := fun o : Option γ => decide (o.bind ptr = some a)) hi
  unfold holders
  rw [List.countP_set hi]
  omega

theorem holders_set_none (hg : slots[i]? = some (some g)) (ha : ptr g = some a) :
    holders ptr (slots.set i none) a + 1 = holders ptr slots a := by
  simpa [ha] using holders_set ptr hg none a

theorem holders_set_none_of_ne (hg : slots[i]? = some (some g)) (ha : ptr g ≠ some a) :
    holders ptr (slots.set i none) a = holders ptr slots a := by
  simpa [ha] using holders_set ptr hg none a

theorem holders_set_some (ho : slots[i]? = some none) (ha : ptr g = some a) :
    holders ptr (slots.set i (some g)) a = holders ptr slots a + 1 := by
  simpa [ha] using holders_set ptr ho (some g) a

theorem holders_set_some_of_ne (ho : slots[i]? = some none) (ha : ptr g ≠ some a) :
    holders ptr (slots.set i (some g)) a = holders ptr slots a := by
  simpa [ha] using holders_set ptr ho (some g) a

/-- A variable that changes only its own part. -/
theorem holders_set_same (hg : slots[i]? = some (some g)) (hk : ptr k = ptr g) :
    holders ptr (slots.set i (some k)) a = holders ptr slots a := by
  have := holders_set ptr hg (some k) a
  rw [Option.bind_some, Option.bind_some, hk] at this
  omega

theorem holders_pos (hg : slots[i]? = some (some g)) (ha : ptr g = some a) :
    0 < holders ptr slots a :=
  List.countP_pos_iff.2 ⟨some g, List.mem_of_getElem? hg, by simpa using ha⟩

/-- The only holder of a block is the only one. -/
theorem eq_of_holders (h : holders ptr slots a = 1) (hg : slots[i]? = some (some g))
    (ha : ptr g = some a) (hk : slots[j]? = some (some k)) (hka : ptr k = some a) : j = i := by
  by_contra hji
  have hset := holders_set_none hg ha
  have hk' : (slots.set i none)[j]? = some (some k) := by
    rw [List.getElem?_set_ne fun heq => hji heq.symm, hk]
  have := holders_pos hk' hka
  omega

/-! ## Variables that fit their blocks -/

section Held

variable (ptr) (R : Option β → κ → γ → Prop)

/-- The counts are right, and each variable fits its block.  The note of a block is no part of the
memory: it says what all its holders have in common. -/
structure Held (m : SharedBlocks β) (slots : List (Option γ)) : Prop where
  fits : ∃ note : Option ℕ → κ, ∀ (j : ℕ) (k : γ), slots[j]? = some (some k) →
    R (m.value (ptr k)) (note (ptr k)) k
  there : ∀ (j : ℕ) (k : γ) (a : ℕ), slots[j]? = some (some k) → ptr k = some a → m.block a ≠ none
  count : ∀ (a : ℕ) (b : Counted β), m.block a = some b →
    b.count = UInt32.ofNat (holders ptr slots a) ∧ 0 < holders ptr slots a
  fresh : ∀ a, m.top ≤ a → m.block a = none

variable (view : Option β → γ → δ)

/-- What the variables show. -/
def views (m : SharedBlocks β) (slots : List (Option γ)) : List (Option δ) :=
  slots.map fun o => o.map fun g => view (m.value (ptr g)) g

end Held

variable {R : Option β → κ → γ → Prop} (view : Option β → γ → δ)

theorem held_empty [Inhabited κ] : Held ptr R (empty : SharedBlocks β) [] where
  fits := ⟨fun _ => default, fun j k hk => by simp at hk⟩
  there := fun j k a hk => by simp at hk
  count := fun a b hb => by cases hb
  fresh := fun _ _ => rfl

theorem views_set (hkeep : ∀ (j : ℕ) (k : γ), j ≠ i → slots[j]? = some (some k) →
    view (m'.value (ptr k)) k = view (m.value (ptr k)) k) (o' : Option γ) :
    views ptr view m' (slots.set i o') =
      (views ptr view m slots).set i (o'.map fun g => view (m'.value (ptr g)) g) := by
  refine List.ext_getElem? fun j => ?_
  unfold views
  rw [List.getElem?_map, List.getElem?_set', List.getElem?_set', List.getElem?_map]
  by_cases hij : i = j
  · subst hij
    rw [if_pos rfl, if_pos rfl]
    cases slots[i]? with
    | none => rfl
    | some o => rfl
  · rw [if_neg hij, if_neg hij]
    rcases Option.eq_none_or_eq_some slots[j]? with hj | ⟨o, hj⟩
    · rw [hj]
      rfl
    · rw [hj]
      cases o with
      | none => rfl
      | some k =>
        rw [Option.map_some, Option.map_some, Option.map_some, Option.map_some,
          hkeep j k (fun heq => hij heq.symm) hj]

theorem getElem?_set_some (hk : (slots.set i o')[j]? = some (some k)) :
    (j = i ∧ o' = some k) ∨ (j ≠ i ∧ slots[j]? = some (some k)) := by
  rw [List.getElem?_set'] at hk
  by_cases hij : i = j
  · rw [if_pos hij] at hk
    refine .inl ⟨hij.symm, ?_⟩
    cases hj : slots[j]? with
    | none =>
      rw [hj] at hk
      cases hk
    | some o =>
      rw [hj] at hk
      exact Option.some_inj.1 hk
  · rw [if_neg hij] at hk
    exact .inr ⟨fun heq => hij heq.symm, hk⟩

theorem ofNat_pred {n : ℕ} (h : 0 < n) : UInt32.ofNat n - 1 = UInt32.ofNat (n - 1) :=
  (UInt32.ofNat_sub h).symm

theorem ofNat_ne_zero {n : ℕ} (hpos : 0 < n) (hlt : n < 2 ^ 32) : UInt32.ofNat n ≠ 0 := by
  intro heq
  have := congrArg UInt32.toNat heq
  rw [UInt32.toNat_ofNat_of_lt' hlt] at this
  exact Nat.ne_of_gt hpos this

namespace Held

theorem count_toNat (h : Held ptr R m slots) (hfew : holders ptr slots a < 2 ^ 32)
    (hb : m.block a = some b) : b.count.toNat = holders ptr slots a := by
  rw [(h.count a b hb).1]
  exact UInt32.toNat_ofNat_of_lt' hfew

/-- Nothing is at an address that has not been used. -/
theorem ptr_ne_top (h : Held ptr R m slots) (hk : slots[j]? = some (some k)) :
    ptr k ≠ some m.top :=
  fun hp => h.there j k m.top hk hp (h.fresh m.top (Nat.le_refl _))

theorem holders_top (h : Held ptr R m slots) : holders ptr slots m.top = 0 := by
  by_contra hne
  obtain ⟨o, ho, hp⟩ := List.countP_pos_iff.1 (Nat.pos_of_ne_zero hne)
  obtain ⟨j, hj⟩ := List.mem_iff_getElem?.1 ho
  cases o with
  | none => simp at hp
  | some k => exact h.ptr_ne_top hj (by simpa using hp)

/-- A variable gives up its block. -/
theorem release (h : Held ptr R m slots) (hfew : ∀ a, holders ptr slots a < 2 ^ 32)
    (hg : slots[i]? = some (some g)) :
    ∃ m', m.release (ptr g) = some m' ∧ m'.top = m.top ∧ Held ptr R m' (slots.set i none) ∧
      views ptr view m' (slots.set i none) = (views ptr view m slots).set i none ∧
      ∀ (j : ℕ) (k : γ), j ≠ i → slots[j]? = some (some k) →
        m'.value (ptr k) = m.value (ptr k) := by
  obtain ⟨note, hnote⟩ := h.fits
  cases hp : ptr g with
  | none =>
    have hsame (c : ℕ) : holders ptr (slots.set i none) c = holders ptr slots c :=
      holders_set_none_of_ne hg (by rw [hp]; exact (Option.some_ne_none c).symm)
    refine ⟨m, rfl, rfl, ⟨⟨note, fun j k hk => ?_⟩, fun j k c hk => ?_, fun c b hb => ?_, h.fresh⟩,
      views_set view (fun _ _ _ _ => rfl) none, fun _ _ _ _ => rfl⟩
    · rcases getElem?_set_some hk with ⟨-, hnone⟩ | ⟨-, hk⟩
      · cases hnone
      · exact hnote j k hk
    · rcases getElem?_set_some hk with ⟨-, hnone⟩ | ⟨-, hk⟩
      · cases hnone
      · exact h.there j k c hk
    · rw [hsame]
      exact h.count c b hb
  | some a =>
    obtain ⟨b, hb⟩ := Option.ne_none_iff_exists'.1 (h.there i g a hg hp)
    obtain ⟨hcount, -⟩ := h.count a b hb
    have hseta := holders_set_none hg hp
    have hsetc (c : ℕ) (hc : c ≠ a) : holders ptr (slots.set i none) c = holders ptr slots c :=
      holders_set_none_of_ne hg fun heq => hc (Option.some_inj.1 (heq.symm.trans hp))
    have hpred : b.count - 1 = UInt32.ofNat (holders ptr (slots.set i none) a) := by
      rw [hcount, ← hseta]
      exact ofNat_pred (Nat.succ_pos _)
    have hfewa : holders ptr (slots.set i none) a < 2 ^ 32 :=
      Nat.lt_of_le_of_lt (by omega) (hfew a)
    -- a block with another holder stays
    have hstay (j : ℕ) (k : γ) (hji : j ≠ i) (hk : slots[j]? = some (some k))
        (hka : ptr k = some a) : b.count - 1 ≠ 0 := by
      rw [hpred]
      refine ofNat_ne_zero (holders_pos (i := j) (g := k) ?_ hka) hfewa
      rw [List.getElem?_set_ne fun heq => hji heq.symm, hk]
    have hvalue (j : ℕ) (k : γ) (hji : j ≠ i) (hk : slots[j]? = some (some k)) :
        (m.setBlock a (if b.count - 1 = 0 then none
          else some { b with count := b.count - 1 })).value (ptr k) = m.value (ptr k) := by
      by_cases hka : ptr k = some a
      · rw [if_neg (hstay j k hji hk hka), hka, value_some hb, value_some setBlock_self]
      · exact value_congr fun c hc => setBlock_of_ne fun heq => hka (heq ▸ hc)
    refine ⟨_, release_some hb, rfl, ⟨⟨note, fun j k hk => ?_⟩,
      fun j k c hk hkc => ?_, fun c b' hb' => ?_, fun c hc => ?_⟩,
      views_set view (fun j k hji hk => by rw [hvalue j k hji hk]) none, hvalue⟩
    · rcases getElem?_set_some hk with ⟨-, hnone⟩ | ⟨hji, hk⟩
      · cases hnone
      · rw [hvalue j k hji hk]
        exact hnote j k hk
    · rcases getElem?_set_some hk with ⟨-, hnone⟩ | ⟨hji, hk⟩
      · cases hnone
      · by_cases hca : c = a
        · subst hca
          rw [setBlock_self, if_neg (hstay j k hji hk hkc)]
          exact Option.some_ne_none _
        · rw [setBlock_of_ne hca]
          exact h.there j k c hk hkc
    · by_cases hca : c = a
      · subst hca
        rw [setBlock_self] at hb'
        by_cases hzero : b.count - 1 = 0
        · rw [if_pos hzero] at hb'
          cases hb'
        · rw [if_neg hzero] at hb'
          cases hb'
          refine ⟨hpred, Nat.pos_of_ne_zero fun hnil => hzero ?_⟩
          rw [hpred, hnil]
          rfl
      · rw [setBlock_of_ne hca] at hb'
        rw [hsetc c hca]
        exact h.count c b' hb'
    · have hca : c ≠ a := by
        rintro rfl
        rw [h.fresh c hc] at hb
        cases hb
      rw [setBlock_of_ne hca]
      exact h.fresh c hc

/-- A variable without a block gets a pointer that another one has. -/
theorem share (h : Held ptr R m slots) (ho : slots[i]? = some none)
    (hk : slots[j]? = some (some k)) (hg : ptr g = ptr k)
    (hR : ∀ z, R (m.value (ptr k)) z k → R (m.value (ptr k)) z g) :
    ∃ m', m.share (ptr k) = some m' ∧ m'.top = m.top ∧ Held ptr R m' (slots.set i (some g)) ∧
      views ptr view m' (slots.set i (some g)) =
        (views ptr view m slots).set i (some (view (m.value (ptr k)) g)) := by
  obtain ⟨note, hnote⟩ := h.fits
  cases hp : ptr k with
  | none =>
    have hsame (c : ℕ) : holders ptr (slots.set i (some g)) c = holders ptr slots c :=
      holders_set_some_of_ne ho (by rw [hg, hp]; exact (Option.some_ne_none c).symm)
    have hview : views ptr view m (slots.set i (some g)) = (views ptr view m slots).set i _ :=
      views_set view (fun _ _ _ _ => rfl) (some g)
    rw [Option.map_some, hg, hp] at hview
    refine ⟨m, rfl, rfl, ⟨⟨note, fun j' k' hk' => ?_⟩, fun j' k' c hk' hc => ?_, fun c b hb => ?_,
      h.fresh⟩, hview⟩
    · rcases getElem?_set_some hk' with ⟨-, heq⟩ | ⟨-, hk'⟩
      · cases heq
        rw [hg]
        exact hR _ (hnote j k hk)
      · exact hnote j' k' hk'
    · rcases getElem?_set_some hk' with ⟨-, heq⟩ | ⟨-, hk'⟩
      · cases heq
        rw [hg, hp] at hc
        cases hc
      · exact h.there j' k' c hk' hc
    · rw [hsame]
      exact h.count c b hb
  | some a =>
    obtain ⟨b, hb⟩ := Option.ne_none_iff_exists'.1 (h.there j k a hk hp)
    obtain ⟨hcount, -⟩ := h.count a b hb
    have hseta := holders_set_some ho (hg.trans hp)
    have hsetc (c : ℕ) (hc : c ≠ a) :
        holders ptr (slots.set i (some g)) c = holders ptr slots c :=
      holders_set_some_of_ne ho fun heq =>
        hc (Option.some_inj.1 (heq.symm.trans (hg.trans hp)))
    have hvalue (p : Option ℕ) :
        (m.setBlock a (some { b with count := b.count + 1 })).value p = m.value p := by
      by_cases hpa : p = some a
      · rw [hpa, value_some hb, value_some setBlock_self]
      · exact value_congr fun c hc => setBlock_of_ne fun heq => hpa (heq ▸ hc)
    have hview : views ptr view (m.setBlock a (some { b with count := b.count + 1 }))
        (slots.set i (some g)) = (views ptr view m slots).set i _ :=
      views_set view (fun _ _ _ _ => by rw [hvalue]) (some g)
    rw [Option.map_some, hvalue, hg, hp] at hview
    refine ⟨_, share_some hb, rfl,
      ⟨⟨note, fun j' k' hk' => ?_⟩, fun j' k' c hk' hc => ?_, fun c b' hb' => ?_, fun c hc => ?_⟩,
      hview⟩
    · rw [hvalue]
      rcases getElem?_set_some hk' with ⟨-, heq⟩ | ⟨-, hk'⟩
      · cases heq
        rw [hg]
        exact hR _ (hnote j k hk)
      · exact hnote j' k' hk'
    · by_cases hca : c = a
      · subst hca
        rw [setBlock_self]
        exact Option.some_ne_none _
      · rw [setBlock_of_ne hca]
        rcases getElem?_set_some hk' with ⟨-, heq⟩ | ⟨-, hk'⟩
        · cases heq
          rw [hg, hp] at hc
          exact absurd (Option.some_inj.1 hc).symm hca
        · exact h.there j' k' c hk' hc
    · by_cases hca : c = a
      · subst hca
        rw [setBlock_self] at hb'
        cases hb'
        rw [hseta]
        refine ⟨?_, Nat.succ_pos _⟩
        rw [UInt32.ofNat_add, ← hcount]
        rfl
      · rw [setBlock_of_ne hca] at hb'
        rw [hsetc c hca]
        exact h.count c b' hb'
    · have hca : c ≠ a := by
        rintro rfl
        rw [h.fresh c hc] at hb
        cases hb
      rw [setBlock_of_ne hca]
      exact h.fresh c hc

/-- A variable without a block gets a new one. -/
theorem alloc (h : Held ptr R m slots) (ho : slots[i]? = some none) (hg : ptr g = some m.top)
    {z : κ} (hR : R (some v) z g) : Held ptr R (m.alloc v) (slots.set i (some g)) ∧
      views ptr view (m.alloc v) (slots.set i (some g)) =
        (views ptr view m slots).set i (some (view (some v) g)) := by
  obtain ⟨note, hnote⟩ := h.fits
  have hvalue (j : ℕ) (k : γ) (hk : slots[j]? = some (some k)) :
      (m.alloc v).value (ptr k) = m.value (ptr k) :=
    value_congr fun c hc => alloc_of_ne fun heq => h.ptr_ne_top hk (heq ▸ hc)
  have hnew : (m.alloc v).value (ptr g) = some v := by rw [hg, value_some alloc_self]
  have hview : views ptr view (m.alloc v) (slots.set i (some g)) =
      (views ptr view m slots).set i _ :=
    views_set view (fun j k _ hk => by rw [hvalue j k hk]) (some g)
  rw [Option.map_some, hnew] at hview
  refine ⟨⟨⟨Function.update note (some m.top) z, fun j k hk => ?_⟩,
    fun j k c hk hc => ?_, fun c b hb => ?_, fun c hc => ?_⟩, hview⟩
  · rcases getElem?_set_some hk with ⟨-, heq⟩ | ⟨-, hk⟩
    · cases heq
      rw [hnew, hg, Function.update_self]
      exact hR
    · rw [hvalue j k hk, Function.update_of_ne (h.ptr_ne_top hk)]
      exact hnote j k hk
  · rcases getElem?_set_some hk with ⟨-, heq⟩ | ⟨-, hk⟩
    · cases heq
      rw [hg] at hc
      cases hc
      rw [alloc_self]
      exact Option.some_ne_none _
    · rw [alloc_of_ne fun heq => h.ptr_ne_top hk (heq ▸ hc)]
      exact h.there j k c hk hc
  · by_cases hc : c = m.top
    · subst hc
      rw [alloc_self] at hb
      cases hb
      rw [holders_set_some ho hg, h.holders_top]
      exact ⟨rfl, Nat.one_pos⟩
    · rw [alloc_of_ne hc] at hb
      rw [holders_set_some_of_ne ho fun heq => hc (Option.some_inj.1 (heq.symm.trans hg))]
      exact h.count c b hb
  · rw [alloc_of_ne (Nat.ne_of_gt hc)]
    exact h.fresh c (Nat.le_of_succ_le hc)

/-- All holders of a block fit it with regard to one note. -/
theorem exists_note (h : Held ptr R m slots) (hb : m.block a = some b) :
    ∃ z, ∀ (j : ℕ) (k : γ), slots[j]? = some (some k) → ptr k = some a → R (some b.value) z k := by
  obtain ⟨note, hnote⟩ := h.fits
  refine ⟨note (some a), fun j k hk hka => ?_⟩
  have := hnote j k hk
  rwa [hka, value_some hb] at this

/-- A variable changes its own part, and no block. -/
theorem keep (h : Held ptr R m slots) (hg : slots[i]? = some (some g)) (hk : ptr k = ptr g)
    (hR : ∀ z, (∀ (j : ℕ) (k' : γ), slots[j]? = some (some k') → ptr k' = ptr g →
      R (m.value (ptr g)) z k') → R (m.value (ptr g)) z k) :
    Held ptr R m (slots.set i (some k)) ∧ views ptr view m (slots.set i (some k)) =
      (views ptr view m slots).set i (some (view (m.value (ptr g)) k)) := by
  obtain ⟨note, hnote⟩ := h.fits
  have hview : views ptr view m (slots.set i (some k)) = (views ptr view m slots).set i _ :=
    views_set view (fun _ _ _ _ => rfl) (some k)
  rw [Option.map_some, hk] at hview
  refine ⟨⟨⟨note, fun j k' hk' => ?_⟩, fun j k' c hk' hc => ?_, fun c b hb => ?_, h.fresh⟩, hview⟩
  · rcases getElem?_set_some hk' with ⟨-, heq⟩ | ⟨-, hk'⟩
    · cases heq
      rw [hk]
      exact hR _ fun j k' hk' hk'g => hk'g ▸ hnote j k' hk'
    · exact hnote j k' hk'
  · rcases getElem?_set_some hk' with ⟨-, heq⟩ | ⟨-, hk'⟩
    · cases heq
      exact h.there i g c hg (hk ▸ hc)
    · exact h.there j k' c hk' hc
  · rw [holders_set_same hg hk]
    exact h.count c b hb

/-- A variable writes to its block.  If there are other holders, they fit the new contents and show
what they have shown before. -/
theorem write (h : Held ptr R m slots) (hg : slots[i]? = some (some g)) (ha : ptr g = some a)
    (hk : ptr k = some a) (hb : m.block a = some b) {y z : κ}
    (hz : ∀ (j : ℕ) (k' : γ), slots[j]? = some (some k') → ptr k' = some a → R (some b.value) y k')
    (hnew : R (some v) z k) (hothers : holders ptr slots a ≠ 1 → ∀ k', R (some b.value) y k' →
      R (some v) z k' ∧ view (some v) k' = view (some b.value) k') :
    Held ptr R (m.write a v) (slots.set i (some k)) ∧
      views ptr view (m.write a v) (slots.set i (some k)) =
        (views ptr view m slots).set i (some (view (some v) k)) := by
  obtain ⟨note, hnote⟩ := h.fits
  have hblock : (m.write a v).block a = some { b with value := v } := block_write hb
  have hblock_ne (c : ℕ) (hc : c ≠ a) : (m.write a v).block c = m.block c := setBlock_of_ne hc
  have hvalue : (m.write a v).value (some a) = some v := value_some hblock
  have hvalue_ne (p : Option ℕ) (hp : p ≠ some a) : (m.write a v).value p = m.value p :=
    value_congr fun c hc => hblock_ne c fun heq => hp (heq ▸ hc)
  have hothers' (j : ℕ) (k' : γ) (hji : j ≠ i) (hk' : slots[j]? = some (some k'))
      (hka : ptr k' = some a) :
      R (some v) z k' ∧ view (some v) k' = view (some b.value) k' :=
    hothers (fun hone => hji (eq_of_holders hone hg ha hk' hka)) k' (hz j k' hk' hka)
  have hview : views ptr view (m.write a v) (slots.set i (some k)) =
      (views ptr view m slots).set i _ := views_set view (fun j k' hji hk' => by
      by_cases hka : ptr k' = some a
      · rw [hka, hvalue, value_some hb]
        exact (hothers' j k' hji hk' hka).2
      · rw [hvalue_ne _ hka]) (some k)
  rw [Option.map_some, hk, hvalue] at hview
  refine ⟨⟨⟨Function.update note (some a) z, fun j k' hk' => ?_⟩, fun j k' c hk' hc => ?_,
    fun c b' hb' => ?_, fun c hc => ?_⟩, hview⟩
  · rcases getElem?_set_some hk' with ⟨-, heq⟩ | ⟨hji, hk'⟩
    · cases heq
      rw [hk, hvalue, Function.update_self]
      exact hnew
    · by_cases hka : ptr k' = some a
      · rw [hka, hvalue, Function.update_self]
        exact (hothers' j k' hji hk' hka).1
      · rw [hvalue_ne _ hka, Function.update_of_ne hka]
        exact hnote j k' hk'
  · by_cases hca : c = a
    · subst hca
      rw [hblock]
      exact Option.some_ne_none _
    · rw [hblock_ne c hca]
      rcases getElem?_set_some hk' with ⟨-, heq⟩ | ⟨-, hk'⟩
      · cases heq
        exact absurd (Option.some_inj.1 (hc.symm.trans hk)) hca
      · exact h.there j k' c hk' hc
  · rw [holders_set_same hg (hk.trans ha.symm)]
    by_cases hca : c = a
    · subst hca
      rw [hblock] at hb'
      cases hb'
      exact h.count c b hb
    · rw [hblock_ne c hca] at hb'
      exact h.count c b' hb'
  · have hca : c ≠ a := by
      rintro rfl
      rw [h.fresh c hc] at hb
      cases hb
    rw [hblock_ne c hca]
    exact h.fresh c hc

/-- A new variable without a block. -/
theorem push (h : Held ptr R m slots) : Held ptr R m (slots ++ [none]) ∧
    views ptr view m (slots ++ [none]) = views ptr view m slots ++ [none] := by
  obtain ⟨note, hnote⟩ := h.fits
  have hold (j : ℕ) (k : γ) (hk : (slots ++ [none])[j]? = some (some k)) :
      slots[j]? = some (some k) := by
    rw [List.getElem?_append] at hk
    split at hk
    · exact hk
    · simp [List.getElem?_singleton] at hk
  refine ⟨⟨⟨note, fun j k hk => hnote j k (hold j k hk)⟩,
    fun j k c hk => h.there j k c (hold j k hk), fun c b hb => ?_, h.fresh⟩, List.map_append⟩
  have : holders ptr (slots ++ [none]) c = holders ptr slots c := by
    simp [holders, List.countP_append]
  rw [this]
  exact h.count c b hb

/-- A variable without a block that is the last one is taken away. -/
theorem pop (h : Held ptr R m (slots ++ [none])) : Held ptr R m slots := by
  obtain ⟨note, hnote⟩ := h.fits
  have hold (j : ℕ) (k : γ) (hk : slots[j]? = some (some k)) :
      (slots ++ [none])[j]? = some (some k) := by
    rw [List.getElem?_append_left (List.getElem?_eq_some_iff.1 hk).1, hk]
  refine ⟨⟨note, fun j k hk => hnote j k (hold j k hk)⟩,
    fun j k c hk => h.there j k c (hold j k hk), fun c b hb => ?_, h.fresh⟩
  have hsame : holders ptr (slots ++ [none]) c = holders ptr slots c := by
    simp [holders, List.countP_append]
  rw [← hsame]
  exact h.count c b hb

theorem set_push {α : Type*} (l : List α) (x y : α) : (l ++ [x]).set l.length y = l ++ [y] := by
  rw [List.set_append_right _ _ (Nat.le_refl _), Nat.sub_self]
  rfl

theorem getElem?_push {α : Type*} (l : List α) (x : α) : (l ++ [x])[l.length]? = some x := by
  rw [List.getElem?_append_right (Nat.le_refl _), Nat.sub_self]
  rfl

/-- A new variable with a new block. -/
theorem push_alloc (h : Held ptr R m slots) (hg : ptr g = some m.top) {z : κ}
    (hR : R (some v) z g) : Held ptr R (m.alloc v) (slots ++ [some g]) ∧
      views ptr view (m.alloc v) (slots ++ [some g]) =
        views ptr view m slots ++ [some (view (some v) g)] := by
  obtain ⟨hpush, hviews⟩ := h.push view
  obtain ⟨hheld, hviews'⟩ := hpush.alloc view (getElem?_push slots none) hg hR
  have hlength : (views ptr view m slots).length = slots.length := List.length_map _
  rw [set_push] at hheld hviews'
  rw [hviews, ← hlength, set_push] at hviews'
  exact ⟨hheld, hviews'⟩

/-- A new variable with a null pointer. -/
theorem push_null (h : Held ptr R m slots) (hg : ptr g = none) (hR : ∀ z, R none z g) :
    Held ptr R m (slots ++ [some g]) ∧
      views ptr view m (slots ++ [some g]) = views ptr view m slots ++ [some (view none g)] := by
  obtain ⟨note, hnote⟩ := h.fits
  have hold (j : ℕ) (k : γ) (hk : (slots ++ [some g])[j]? = some (some k)) :
      k = g ∨ slots[j]? = some (some k) := by
    rw [List.getElem?_append] at hk
    split_ifs at hk
    · exact .inr hk
    · rw [List.getElem?_singleton] at hk
      split_ifs at hk
      exact .inl (Option.some_inj.1 (Option.some_inj.1 hk)).symm
  refine ⟨⟨⟨note, fun j k hk => ?_⟩, fun j k c hk hc => ?_, fun c b hb => ?_, h.fresh⟩, ?_⟩
  · rcases hold j k hk with rfl | hk
    · rw [hg]
      exact hR _
    · exact hnote j k hk
  · rcases hold j k hk with rfl | hk
    · rw [hg] at hc
      cases hc
    · exact h.there j k c hk hc
  · have hsame : holders ptr (slots ++ [some g]) c = holders ptr slots c := by
      simp [holders, List.countP_append, hg]
    rw [hsame]
    exact h.count c b hb
  · rw [views, List.map_append, List.map_singleton, Option.map_some, hg]
    rfl

/-- A new variable with the block of another one. -/
theorem push_share (h : Held ptr R m slots) (hk : slots[j]? = some (some k)) (hg : ptr g = ptr k)
    (hR : ∀ z, R (m.value (ptr k)) z k → R (m.value (ptr k)) z g) :
    ∃ m', m.share (ptr k) = some m' ∧ Held ptr R m' (slots ++ [some g]) ∧
      views ptr view m' (slots ++ [some g]) =
        views ptr view m slots ++ [some (view (m.value (ptr k)) g)] := by
  obtain ⟨hpush, hviews⟩ := h.push view
  have hk' : (slots ++ [none])[j]? = some (some k) := by
    rw [List.getElem?_append_left (List.getElem?_eq_some_iff.1 hk).1, hk]
  obtain ⟨m', hshare, -, hheld, hviews'⟩ :=
    hpush.share view (getElem?_push slots none) hk' hg hR
  have hlength : (views ptr view m slots).length = slots.length := List.length_map _
  rw [set_push] at hheld hviews'
  rw [hviews, ← hlength, set_push] at hviews'
  exact ⟨m', hshare, hheld, hviews'⟩

/-- A variable gives up its block for that of another variable. -/
theorem reassign (h : Held ptr R m slots) (hfew : ∀ a, holders ptr slots a < 2 ^ 32)
    (hg : slots[i]? = some (some g)) (hk : slots[j]? = some (some k)) (hji : j ≠ i) {l : γ}
    (hl : ptr l = ptr k) (hR : ∀ z, R (m.value (ptr k)) z k → R (m.value (ptr k)) z l) :
    ∃ m₁ m₂, m.release (ptr g) = some m₁ ∧ m₁.share (ptr k) = some m₂ ∧
      Held ptr R m₂ (slots.set i (some l)) ∧ views ptr view m₂ (slots.set i (some l)) =
        (views ptr view m slots).set i (some (view (m.value (ptr k)) l)) := by
  obtain ⟨m₁, hrelease, -, hheld, hviews, hvalue⟩ := h.release view hfew hg
  have hi : i < slots.length := (List.getElem?_eq_some_iff.1 hg).1
  have hsame := hvalue j k hji hk
  obtain ⟨m₂, hshare, -, hheld', hviews'⟩ := hheld.share view (g := l)
    (List.getElem?_set_self hi) ((List.getElem?_set_ne hji.symm).trans hk) hl
    (by rwa [hsame])
  rw [List.set_set] at hheld' hviews'
  refine ⟨m₁, m₂, hrelease, hshare, hheld', ?_⟩
  rw [hviews', hviews, List.set_set, hsame]

/-- The old block can be released after the new one is allocated. -/
theorem release_alloc (h : Held ptr R m slots) (hg : slots[i]? = some (some g)) (v : β) :
    (m.alloc v).release (ptr g) = (m.release (ptr g)).map (·.alloc v) := by
  cases hp : ptr g with
  | none => rfl
  | some a =>
    have hne : a ≠ m.top := fun heq => h.ptr_ne_top hg (heq ▸ hp)
    obtain ⟨b, hb⟩ := Option.ne_none_iff_exists'.1 (h.there i g a hg hp)
    have hb' : (m.alloc v).block a = some b := (alloc_of_ne hne).trans hb
    rw [release_some hb, release_some hb', Option.map_some, Option.some_inj]
    exact congrArg (SharedBlocks.mk · _) (Function.update_comm hne ..).symm

/-- A variable moves to a new block. -/
theorem move (h : Held ptr R m slots) (hfew : ∀ a, holders ptr slots a < 2 ^ 32)
    (hg : slots[i]? = some (some g)) (hk : ptr k = some m.top) {z : κ} (hR : R (some v) z k) :
    ∃ m', (m.alloc v).release (ptr g) = some m' ∧ Held ptr R m' (slots.set i (some k)) ∧
      views ptr view m' (slots.set i (some k)) =
        (views ptr view m slots).set i (some (view (some v) k)) := by
  obtain ⟨m', hrelease, htop, hheld, hviews, -⟩ := h.release view hfew hg
  have hi : i < slots.length := (List.getElem?_eq_some_iff.1 hg).1
  have hnone : (slots.set i none)[i]? = some none := List.getElem?_set_self hi
  obtain ⟨hheld', hviews'⟩ := hheld.alloc view (v := v) hnone (hk.trans (by rw [htop])) hR
  rw [List.set_set] at hheld' hviews'
  refine ⟨m'.alloc v, ?_, hheld', ?_⟩
  · rw [h.release_alloc hg, hrelease, Option.map_some]
  · rw [hviews', hviews, List.set_set]

end Held

end SharedBlocks

end SeanetSim
