import Mathlib.Logic.Relation
import Mathlib.Data.List.Basic
import Mathlib.Tactic.Common

/-!
# Readers that note how far they read

A reader takes bytes of a buffer from a position on, and moves the position or fails.  Beside that
it notes the end of the last byte it has asked for, also where this byte is not there.  A loop of
readers that repeats a step is run with fuel; it ends if some amount of it is enough, and what all
its runs read is what the steps read that it comes to (`TracedReader.loop_reach_le_iff`).
-/

namespace SeanetSim

variable {α β σ : Type}

structure TracedReader (α : Type) where
  run : List UInt8 → ℕ → Option (α × ℕ)
  reach : List UInt8 → ℕ → ℕ

namespace TracedReader

protected def pure (a : α) : TracedReader α := ⟨fun _ pos => some (a, pos), fun _ _ => 0⟩

protected def bind (x : TracedReader α) (f : α → TracedReader β) : TracedReader β where
  run buf pos := (x.run buf pos).bind fun r => (f r.1).run buf r.2
  reach buf pos :=
    max (x.reach buf pos) (((x.run buf pos).map fun r => (f r.1).reach buf r.2).getD 0)

instance : Monad TracedReader where
  pure := TracedReader.pure
  bind := TracedReader.bind

def fail : TracedReader α := ⟨fun _ _ => none, fun _ _ => 0⟩

def readU8 : TracedReader UInt8 :=
  ⟨fun buf pos => buf[pos]?.map (·, pos + 1), fun _ pos => pos + 1⟩

def readBytes (n : ℕ) : TracedReader (List UInt8) where
  run buf pos := if pos + n ≤ buf.length then some ((buf.drop pos).take n, pos + n) else none
  reach _ pos := pos + n

/-- A move without reading. -/
def next (n : ℕ) : TracedReader Unit :=
  ⟨fun buf pos => if pos + n ≤ buf.length then some ((), pos + n) else none, fun _ _ => 0⟩

/-- A reader that works on a copy of the position. -/
def here (x : TracedReader α) : TracedReader α :=
  ⟨fun buf pos => (x.run buf pos).map fun r => (r.1, pos), x.reach⟩

/-- A reader that works from a position of its own. -/
def there (start : ℕ) (x : TracedReader α) : TracedReader α :=
  ⟨fun buf pos => (x.run buf start).map fun r => (r.1, pos), fun buf _ => x.reach buf start⟩

/-- The size of the buffer. -/
def getSize : TracedReader ℕ := ⟨fun buf pos => some (buf.length, pos), fun _ _ => 0⟩

section Rules

variable {buf : List UInt8} {pos n m : ℕ} {x : TracedReader α} {f : α → TracedReader β} {a : α}

@[simp] theorem run_pure : (pure a : TracedReader α).run buf pos = some (a, pos) := rfl

@[simp] theorem reach_pure : (pure a : TracedReader α).reach buf pos = 0 := rfl

@[simp] theorem run_fail : (fail : TracedReader α).run buf pos = none := rfl

@[simp] theorem reach_fail : (fail : TracedReader α).reach buf pos = 0 := rfl

theorem run_bind :
    (x >>= f).run buf pos = (x.run buf pos).bind fun r => (f r.1).run buf r.2 := rfl

theorem run_bind_of_run {r : α × ℕ} (h : x.run buf pos = some r) :
    (x >>= f).run buf pos = (f r.1).run buf r.2 := by
  rw [run_bind, h, Option.bind_some]

theorem reach_bind_of_run {r : α × ℕ} (h : x.run buf pos = some r) :
    (x >>= f).reach buf pos = max (x.reach buf pos) ((f r.1).reach buf r.2) := by
  show max _ (((x.run buf pos).map _).getD 0) = _
  rw [h]
  rfl

theorem reach_bind_le_iff : (x >>= f).reach buf pos ≤ n ↔
    x.reach buf pos ≤ n ∧ ∀ r, x.run buf pos = some r → (f r.1).reach buf r.2 ≤ n := by
  show max _ (((x.run buf pos).map _).getD 0) ≤ n ↔ _
  rw [Nat.max_le]
  cases x.run buf pos <;> simp

theorem run_readU8_bind_of_get {b : UInt8} {f : UInt8 → TracedReader β} (h : buf[pos]? = some b) :
    (readU8 >>= f).run buf pos = (f b).run buf (pos + 1) := by
  apply run_bind_of_run (r := (b, pos + 1))
  show buf[pos]?.map _ = _
  rw [h, Option.map_some]

theorem run_readU8_bind_eq_some {f : UInt8 → TracedReader β} {r : β × ℕ} :
    (readU8 >>= f).run buf pos = some r ↔
      ∃ b, buf[pos]? = some b ∧ (f b).run buf (pos + 1) = some r := by
  show ((buf[pos]?.map fun b => (b, pos + 1)).bind fun r => (f r.1).run buf r.2) = some r ↔ _
  rw [Option.bind_map, Option.bind_eq_some_iff]
  rfl

theorem run_here_bind_eq_some {r : β × ℕ} : (here x >>= f).run buf pos = some r ↔
    ∃ a p, x.run buf pos = some (a, p) ∧ (f a).run buf pos = some r := by
  show (((x.run buf pos).map fun r => (r.1, pos)).bind fun r => (f r.1).run buf r.2) = some r ↔ _
  rw [Option.bind_map, Option.bind_eq_some_iff]
  exact ⟨fun ⟨a, ha, hr⟩ => ⟨a.1, a.2, ha, hr⟩, fun ⟨a, p, ha, hr⟩ => ⟨(a, p), ha, hr⟩⟩

theorem reach_here_bind_le_iff : (here x >>= f).reach buf pos ≤ n ↔
    x.reach buf pos ≤ n ∧ ∀ a p, x.run buf pos = some (a, p) → (f a).reach buf pos ≤ n := by
  rw [reach_bind_le_iff]
  refine and_congr_right fun _ => ⟨fun h a p ha => h (a, pos) ?_, ?_⟩
  · show (x.run buf pos).map _ = _
    rw [ha, Option.map_some]
  · rintro h r hr
    obtain ⟨⟨a, p⟩, ha, rfl⟩ := Option.map_eq_some_iff.1 hr
    exact h a p ha

theorem run_next_bind_eq_some {f : Unit → TracedReader β} {r : β × ℕ} :
    (next n >>= f).run buf pos = some r ↔
      pos + n ≤ buf.length ∧ (f ()).run buf (pos + n) = some r := by
  rw [run_bind]
  show ((if pos + n ≤ buf.length then some ((), pos + n) else none).bind _) = some r ↔ _
  split_ifs with h
  · exact (and_iff_right h).symm
  · exact iff_of_false nofun fun hr => h hr.1

theorem drop_succ {b : UInt8} {l : List UInt8} (h : buf.drop pos = b :: l) :
    buf.drop (pos + 1) = l := by
  rw [← List.tail_drop, h, List.tail_cons]

theorem run_readU8 {b : UInt8} {l : List UInt8} (h : buf.drop pos = b :: l) :
    readU8.run buf pos = some (b, pos + 1) := by
  show buf[pos]?.map _ = _
  rw [← List.head?_drop, h, List.head?_cons, Option.map_some]

theorem run_readU8_bind {b : UInt8} {l : List UInt8} {f : UInt8 → TracedReader β}
    (h : buf.drop pos = b :: l) : (readU8 >>= f).run buf pos = (f b).run buf (pos + 1) :=
  run_bind_of_run (run_readU8 h)

/-- Where the buffer goes on at least up to `n`, a byte is there if it is within `n`. -/
theorem reach_readU8_bind_le_iff {f : UInt8 → TracedReader β} (hn : n ≤ buf.length) :
    (readU8 >>= f).reach buf pos ≤ n ↔
      pos < n ∧ (f (buf.getD pos 0)).reach buf (pos + 1) ≤ n := by
  rw [reach_bind_le_iff]
  refine and_congr_right fun hpos => ?_
  have hlt : pos < buf.length := Nat.lt_of_lt_of_le hpos hn
  have hget : readU8.run buf pos = some (buf.getD pos 0, pos + 1) := by
    show buf[pos]?.map _ = _
    rw [List.getD_eq_getElem?_getD, List.getElem?_eq_getElem hlt, Option.map_some,
      Option.getD_some]
  rw [hget]
  simp

end Rules

/-! ## What readers return -/

/-- Whatever the reader returns has the property. -/
structure Yields (x : TracedReader α) (P : α → Prop) : Prop where
  run : ∀ {buf : List UInt8} {pos : ℕ} {r : α × ℕ}, x.run buf pos = some r → P r.1

namespace Yields

variable {x : TracedReader α} {f : α → TracedReader β} {P : α → Prop} {Q : β → Prop} {a : α}

protected theorem pure (h : P a) : Yields (pure a) P where
  run hr := by
    cases hr
    exact h

protected theorem fail : Yields fail P := ⟨nofun⟩

protected theorem bind (hx : Yields x P) (hf : ∀ a, P a → Yields (f a) Q) : Yields (x >>= f) Q where
  run hr := by
    obtain ⟨a, ha, hr⟩ := Option.bind_eq_some_iff.1 hr
    exact (hf a.1 (hx.run ha)).run hr

/-- Where it does not matter what the first reader returns. -/
theorem bind_of_forall (hf : ∀ a, Yields (f a) Q) : Yields (x >>= f) Q :=
  Yields.bind (P := fun _ => True) ⟨fun _ => trivial⟩ fun a _ => hf a

end Yields

/-! ## Readers of a fixed size -/

/-- The reader takes `k` bytes, whatever they are, and asks for no others. -/
structure Takes (x : TracedReader α) (k : ℕ) : Prop where
  run : ∀ {buf : List UInt8} {pos : ℕ}, pos + k ≤ buf.length →
    ∃ a, x.run buf pos = some (a, pos + k)
  reach : ∀ {buf : List UInt8} {pos n : ℕ}, pos ≤ n → n ≤ buf.length →
    (x.reach buf pos ≤ n ↔ pos + k ≤ n)

namespace Takes

variable {x : TracedReader α} {f : α → TracedReader β} {k l : ℕ}

protected theorem pure (a : α) : Takes (pure a) 0 where
  run _ := ⟨a, rfl⟩
  reach hpos _ := iff_of_true (Nat.zero_le _) hpos

theorem readU8 : Takes readU8 1 where
  run {buf pos} h := ⟨buf[pos], by
    show buf[pos]?.map _ = _
    rw [List.getElem?_eq_getElem h, Option.map_some]⟩
  reach _ _ := Iff.rfl

theorem readBytes (n : ℕ) : Takes (readBytes n) n where
  run h := ⟨_, if_pos h⟩
  reach _ _ := Iff.rfl

theorem of_eq (hx : Takes x k) (h : k = l) : Takes x l := h ▸ hx

protected theorem bind (hx : Takes x k) (hf : ∀ a, Takes (f a) l) : Takes (x >>= f) (k + l) where
  run {buf pos} h := by
    obtain ⟨a, ha⟩ := hx.run (show pos + k ≤ buf.length by omega)
    obtain ⟨b, hb⟩ := (hf a).run (show pos + k + l ≤ buf.length by omega)
    exact ⟨b, by rw [run_bind_of_run ha, hb, Nat.add_assoc]⟩
  reach {buf pos n} hpos hn := by
    rw [reach_bind_le_iff, hx.reach hpos hn]
    constructor
    · rintro ⟨hk, hrest⟩
      obtain ⟨a, ha⟩ := hx.run (Nat.le_trans hk hn)
      have hl := ((hf a).reach hk hn).1 (hrest _ ha)
      omega
    · intro hle
      have hk : pos + k ≤ n := by omega
      obtain ⟨a, ha⟩ := hx.run (Nat.le_trans hk hn)
      refine ⟨hk, fun r hr => ?_⟩
      rw [ha, Option.some.injEq] at hr
      rw [← hr]
      exact ((hf a).reach hk hn).2 (by omega)

end Takes

/-! ## Loops -/

/-- A step again and again, as long as it says so; `none` where the fuel runs out. -/
def loop (step : σ → TracedReader (σ × Bool)) : ℕ → σ → TracedReader (Option σ)
  | 0, _ => pure none
  | fuel + 1, s => do
    let r ← step s
    if r.2 then loop step fuel r.1 else pure (some r.1)

/-- A step after which the loop goes on. -/
def Turn (step : σ → TracedReader (σ × Bool)) (buf : List UInt8) (a b : σ × ℕ) : Prop :=
  (step a.1).run buf a.2 = some ((b.1, true), b.2)

/-- Some amount of fuel is enough. -/
def Ends (step : σ → TracedReader (σ × Bool)) (buf : List UInt8) (a : σ × ℕ) : Prop :=
  ∃ fuel, ∀ pos, (loop step fuel a.1).run buf a.2 ≠ some (none, pos)

section Loop

open Relation

variable {step : σ → TracedReader (σ × Bool)} {buf : List UInt8} {a b : σ × ℕ} {n : ℕ}

theorem run_loop_of_turn (h : Turn step buf a b) (fuel : ℕ) :
    (loop step (fuel + 1) a.1).run buf a.2 = (loop step fuel b.1).run buf b.2 :=
  run_bind_of_run h

theorem ends_iff_of_turn (h : Turn step buf a b) : Ends step buf a ↔ Ends step buf b := by
  constructor
  · rintro ⟨fuel, hend⟩
    cases fuel with
    | zero => exact absurd rfl (hend a.2)
    | succ fuel => exact ⟨fuel, fun pos => run_loop_of_turn h fuel ▸ hend pos⟩
  · rintro ⟨fuel, hend⟩
    exact ⟨fuel + 1, fun pos => (run_loop_of_turn h fuel).symm ▸ hend pos⟩

theorem ends_iff_of_turns (h : ReflTransGen (Turn step buf) a b) :
    Ends step buf a ↔ Ends step buf b := by
  induction h with
  | refl => rfl
  | tail _ hturn ih => exact ih.trans (ends_iff_of_turn hturn)

theorem ends_of_no_turn (h : ∀ b, ¬ Turn step buf a b) : Ends step buf a := by
  refine ⟨1, fun pos hrun => ?_⟩
  have hrun : ((step a.1).run buf a.2).bind (fun r =>
      (if r.1.2 = true then loop step 0 r.1.1 else pure (some r.1.1)).run buf r.2) =
        some (none, pos) := hrun
  obtain ⟨⟨⟨t, more⟩, p⟩, hstep, hrun⟩ := Option.bind_eq_some_iff.1 hrun
  cases more with
  | true => exact h (t, p) hstep
  | false => cases hrun

/-- A loop whose turns lower a measure ends. -/
theorem ends_of_measure (μ : σ × ℕ → ℕ) (I : σ × ℕ → Prop)
    (hturn : ∀ a b, I a → Turn step buf a b → I b ∧ μ b < μ a) (ha : I a) : Ends step buf a := by
  induction hμ : μ a using Nat.strongRecOn generalizing a with
  | _ k ih =>
    by_cases h : ∃ b, Turn step buf a b
    · obtain ⟨b, hb⟩ := h
      have ⟨hI, hlt⟩ := hturn a b ha hb
      exact (ends_iff_of_turn hb).2 (ih _ (hμ ▸ hlt) hI rfl)
    · exact ends_of_no_turn fun b hb => h ⟨b, hb⟩

/-- A loop that always comes back to states of a kind does not end. -/
theorem not_ends (I : σ × ℕ → Prop) (hturn : ∀ a, I a → ∃ b, Turn step buf a b ∧ I b)
    (ha : I a) : ¬ Ends step buf a := by
  rintro ⟨fuel, hend⟩
  induction fuel generalizing a with
  | zero => exact hend a.2 rfl
  | succ fuel ih =>
    obtain ⟨b, hb, hI⟩ := hturn a ha
    exact ih hI fun pos => run_loop_of_turn hb fuel ▸ hend pos

/-- What the runs of a loop read is what the steps read that it comes to. -/
theorem loop_reach_le_iff : (∀ fuel, (loop step fuel a.1).reach buf a.2 ≤ n) ↔
    ∀ b, ReflTransGen (Turn step buf) a b → (step b.1).reach buf b.2 ≤ n := by
  constructor
  · intro h b hb
    induction hb using ReflTransGen.head_induction_on with
    | refl => exact (reach_bind_le_iff.1 (h 1)).1
    | head hturn _ ih => exact ih fun fuel => (reach_bind_le_iff.1 (h (fuel + 1))).2 _ hturn
  · intro h fuel
    induction fuel generalizing a with
    | zero => exact Nat.zero_le n
    | succ fuel ih =>
      refine reach_bind_le_iff.2 ⟨h a .refl, ?_⟩
      rintro ⟨⟨t, more⟩, p⟩ hstep
      cases more with
      | false => exact Nat.zero_le n
      | true =>
        have hturn : Turn step buf a (t, p) := hstep
        exact ih (a := (t, p)) fun b hb => h b (.head hturn hb)

end Loop

end TracedReader

end SeanetSim
