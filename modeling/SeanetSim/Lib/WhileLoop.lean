import Mathlib.Data.Nat.Notation

/-!
# While loops

A loop whose body can fail, run for a bounded number of turns.  Where every turn keeps an invariant
and makes a measure smaller, the measure is a bound on the turns and the loop ends with the
invariant: `whileLoop_of_measure`.
-/

namespace SeanetSim

variable {σ : Type*} {c : σ → Bool} {f : σ → Option σ} {s : σ}

/-- `while (c) s = f (s)`; `none` where the body fails or the turns run out. -/
def whileLoop (c : σ → Bool) (f : σ → Option σ) : ℕ → σ → Option σ
  | 0, s => if c s then none else some s
  | turns + 1, s => if c s then (f s).bind (whileLoop c f turns) else some s

attribute [grind =] whileLoop

theorem whileLoop_of_false (h : c s = false) (turns : ℕ) : whileLoop c f turns s = some s := by
  cases turns <;> simp [whileLoop, h]

theorem whileLoop_succ_of_true {t : σ} (h : c s = true) (ht : f s = some t) (turns : ℕ) :
    whileLoop c f (turns + 1) s = whileLoop c f turns t := by
  simp [whileLoop, h, ht]

/-- More turns do not change what a loop that has ended returns. -/
theorem whileLoop_mono {t : σ} {turns turns' : ℕ} (h : whileLoop c f turns s = some t)
    (hle : turns ≤ turns') : whileLoop c f turns' s = some t := by
  induction turns generalizing s turns' with
  | zero =>
    cases hc : c s with
    | false => rw [← h, whileLoop_of_false hc, whileLoop_of_false hc]
    | true => simp [whileLoop, hc] at h
  | succ turns ih =>
    cases turns' with
    | zero => omega
    | succ turns' =>
      cases hc : c s with
      | false => rw [← h, whileLoop_of_false hc, whileLoop_of_false hc]
      | true =>
        rw [whileLoop, if_pos hc] at h ⊢
        obtain ⟨u, hu, ht⟩ := Option.bind_eq_some_iff.1 h
        rw [hu]
        exact ih ht (by omega)

/-- A loop whose condition holds of every state it can reach does not end. -/
theorem whileLoop_eq_none (I : σ → Prop) (hI : ∀ s t, I s → f s = some t → I t)
    (hc : ∀ s, I s → c s = true) (hs : I s) (turns : ℕ) : whileLoop c f turns s = none := by
  induction turns generalizing s with
  | zero => simp [whileLoop, hc s hs]
  | succ turns ih =>
    rw [whileLoop, if_pos (hc s hs)]
    cases ht : f s with
    | none => rfl
    | some t => exact ih (hI s t hs ht)

theorem whileLoop_of_measure (I : σ → Prop) (μ : σ → ℕ)
    (hturn : ∀ s, I s → c s = true → ∃ t, f s = some t ∧ I t ∧ μ t < μ s)
    (hs : I s) {turns : ℕ} (hturns : μ s ≤ turns) :
    ∃ t, whileLoop c f turns s = some t ∧ I t ∧ c t = false := by
  induction turns generalizing s with
  | zero =>
    cases hc : c s with
    | false => exact ⟨s, whileLoop_of_false hc 0, hs, hc⟩
    | true =>
      obtain ⟨t, -, -, hlt⟩ := hturn s hs hc
      omega
  | succ turns ih =>
    cases hc : c s with
    | false => exact ⟨s, whileLoop_of_false hc _, hs, hc⟩
    | true =>
      obtain ⟨t, ht, hI, hlt⟩ := hturn s hs hc
      rw [whileLoop_succ_of_true hc ht]
      exact ih hI (by omega)

theorem whileLoop_spec {Q : σ → Prop} (I : σ → Prop) (μ : σ → ℕ)
    (hturn : ∀ s, I s → c s = true → ∃ t, f s = some t ∧ I t ∧ μ t < μ s)
    (hs : I s) {turns : ℕ} (hturns : μ s ≤ turns) (hend : ∀ t, I t → c t = false → Q t) :
    ∃ t, whileLoop c f turns s = some t ∧ Q t := by
  obtain ⟨t, ht, hI, hc⟩ := whileLoop_of_measure I μ hturn hs hturns
  exact ⟨t, ht, hend t hI hc⟩

theorem whileLoop_invariant (I : σ → Prop)
    (hI : ∀ s t, I s → c s = true → f s = some t → I t) (hs : I s) {turns : ℕ} {t : σ}
    (h : whileLoop c f turns s = some t) : I t ∧ c t = false := by
  induction turns generalizing s with
  | zero =>
    cases hc : c s with
    | false => exact Option.some.inj (whileLoop_of_false hc 0 ▸ h) ▸ ⟨hs, hc⟩
    | true => simp [whileLoop, hc] at h
  | succ turns ih =>
    cases hc : c s with
    | false => exact Option.some.inj (whileLoop_of_false hc _ ▸ h) ▸ ⟨hs, hc⟩
    | true =>
      rw [whileLoop, if_pos hc] at h
      obtain ⟨u, hu, ht⟩ := Option.bind_eq_some_iff.1 h
      exact ih (hI s u hs hc hu) ht

/-- A loop that follows another one, turn by turn, ends as the other one does. -/
theorem whileLoop_map {τ : Type*} {c' : τ → Bool} {f' : τ → Option τ} (g : σ → τ) (I : σ → Prop)
    (hc : ∀ s, I s → c' (g s) = c s)
    (hf : ∀ s, I s → c s = true → (f s).map g = f' (g s))
    (hI : ∀ s t, I s → c s = true → f s = some t → I t) (hs : I s) (turns : ℕ) :
    (whileLoop c f turns s).map g = whileLoop c' f' turns (g s) := by
  induction turns generalizing s with
  | zero => cases h : c s <;> simp [whileLoop, hc s hs, h]
  | succ turns ih =>
    rw [whileLoop, whileLoop, hc s hs]
    cases h : c s with
    | false => rfl
    | true =>
      rw [if_pos rfl, if_pos rfl, ← hf s hs h]
      cases ht : f s with
      | none => rfl
      | some t => exact ih (hI s t hs h ht)

end SeanetSim
