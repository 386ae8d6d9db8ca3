import SeanetSim.Lib.Reachable

/-!
# Runs

A run of a labelled transition system, with the states it goes through.  `Run.forall_iff` says when
a property holds in all of them: where every step either keeps it or is of a known kind that breaks
it, exactly the runs without a step of that kind.
-/

namespace SeanetSim

variable {σ ε : Type*}

/-- A run from `s₀`: the states it has left, each with the label of the step, and the last one. -/
inductive Run (step : σ → ε → σ → Prop) (s₀ : σ) : List (σ × ε) → σ → Prop
  | nil : Run step s₀ [] s₀
  | snoc {trace : List (σ × ε)} {s t : σ} {e : ε} (hrun : Run step s₀ trace s) (hst : step s e t) :
      Run step s₀ (trace ++ [(s, e)]) t

namespace Run

variable {step : σ → ε → σ → Prop} {s₀ s : σ} {trace : List (σ × ε)}

theorem reachable (h : Run step s₀ trace s) : Reachable {s₀} (fun s t => ∃ e, step s e t) s := by
  induction h with
  | nil => exact .of_init rfl
  | snoc _ hst ih => exact ih.tail ⟨_, hst⟩

/-- What holds at first and is kept by every step holds at the end. -/
theorem invariant {I : σ → Prop} (hinit : I s₀) (hstep : ∀ s e t, I s → step s e t → I t)
    (h : Run step s₀ trace s) : I s := by
  induction h with
  | nil => exact hinit
  | snoc _ hst ih => exact hstep _ _ _ ih hst

/-- What holds at first and is kept by every step of a kind holds all along a run of such steps. -/
theorem invariant_along {I : σ → Prop} {ok : σ × ε → Prop} (hinit : I s₀)
    (hstep : ∀ s e t, I s → ok (s, e) → step s e t → I t) (h : Run step s₀ trace s)
    (hok : ∀ p ∈ trace, ok p) : (∀ p ∈ trace, I p.1) ∧ I s := by
  induction h with
  | nil => exact ⟨fun _ hp => absurd hp List.not_mem_nil, hinit⟩
  | snoc hrun hst ih =>
    rename_i trace s t e
    have ⟨hbefore, hs⟩ := ih fun p hp => hok p (List.mem_append_left _ hp)
    have hlast := hok (s, e) (List.mem_append_right trace List.mem_cons_self)
    refine ⟨fun p hp => ?_, hstep s e t hs hlast hst⟩
    rcases List.mem_append.1 hp with hp | hp
    · exact hbefore p hp
    · rw [List.mem_singleton.1 hp]
      exact hs

/-- Where an invariant makes each step one of another system, a run is a run of that one. -/
theorem map_along {τ : Type*} {f : σ → τ} {step' : τ → ε → τ → Prop} {I : σ → Prop}
    {ok : σ × ε → Prop} (hinit : I s₀)
    (hstep : ∀ s e t, I s → ok (s, e) → step s e t → I t ∧ step' (f s) e (f t))
    (h : Run step s₀ trace s) (hok : ∀ p ∈ trace, ok p) :
    Run step' (f s₀) (trace.map fun p => (f p.1, p.2)) (f s) := by
  induction h with
  | nil => exact .nil
  | snoc hrun hst ih =>
    rw [List.forall_mem_append, List.forall_mem_singleton] at hok
    have hI := (hrun.invariant_along hinit (fun s e t hs ho hst => (hstep s e t hs ho hst).1)
      hok.1).2
    rw [List.map_append]
    exact (ih hok.1).snoc (hstep _ _ _ hI hok.2 hst).2

/-- The last step of a run. -/
theorem last {t : σ} {e : ε} (h : Run step s₀ (trace ++ [(s, e)]) t) : step s e t := by
  generalize hl : trace ++ [(s, e)] = l at h
  cases h with
  | nil => exact absurd hl (by simp)
  | snoc _ hst =>
    obtain ⟨-, heq⟩ := List.append_inj' hl rfl
    cases heq
    exact hst

theorem forall_step (h : Run step s₀ trace s) : ∀ p ∈ trace, ∃ t, step p.1 p.2 t := by
  induction h with
  | nil => exact fun _ hp => absurd hp List.not_mem_nil
  | snoc _ hst ih =>
    intro p hp
    rcases List.mem_append.1 hp with hp | hp
    · exact ih p hp
    · rw [List.mem_singleton.1 hp]
      exact ⟨_, hst⟩

/-- A run of steps of a kind is one of the system that has only these. -/
theorem restrict {ok : σ × ε → Prop} (h : Run step s₀ trace s) (hok : ∀ p ∈ trace, ok p) :
    Run (fun s e t => step s e t ∧ ok (s, e)) s₀ trace s := by
  induction h with
  | nil => exact .nil
  | snoc _ hst ih =>
    rw [List.forall_mem_append, List.forall_mem_singleton] at hok
    exact (ih hok.1).snoc ⟨hst, hok.2⟩

/-- A step in front of a run. -/
theorem cons {s₁ : σ} {e : ε} (hst : step s₀ e s₁) (h : Run step s₁ trace s) :
    Run step s₀ ((s₀, e) :: trace) s := by
  induction h with
  | nil => exact .snoc .nil hst
  | snoc _ hlast ih => exact ih.snoc hlast

theorem append {t : σ} {trace' : List (σ × ε)} (h : Run step s₀ trace s)
    (h' : Run step s trace' t) : Run step s₀ (trace ++ trace') t := by
  induction h' with
  | nil => rwa [List.append_nil]
  | snoc _ hlast ih =>
    rw [← List.append_assoc]
    exact ih.snoc hlast

/-- Steps that a function makes one after the other. -/
theorem of_foldlM {f : σ → ε → Option σ} {events : List ε} (h : events.foldlM f s₀ = some s) :
    ∃ trace, Run (fun s e t => f s e = some t) s₀ trace s := by
  induction events generalizing s₀ with
  | nil =>
    cases h
    exact ⟨[], .nil⟩
  | cons e events ih =>
    have ⟨s₁, hst, hrest⟩ := Option.bind_eq_some_iff.1 h
    have ⟨trace, hrun⟩ := ih hrest
    exact ⟨_, hrun.cons hst⟩

/-- What a function makes of events, with the states in between. -/
def runOf (f : σ → ε → Option σ) : σ → List ε → Option (List (σ × ε) × σ)
  | s, [] => some ([], s)
  | s, e :: events => (f s e).bind fun t => (runOf f t events).map fun r => ((s, e) :: r.1, r.2)

theorem of_runOf {f : σ → ε → Option σ} {events : List ε}
    (hstep : ∀ s e t, f s e = some t → step s e t) (h : runOf f s₀ events = some (trace, s)) :
    Run step s₀ trace s := by
  induction events generalizing s₀ trace with
  | nil =>
    cases h
    exact .nil
  | cons e events ih =>
    obtain ⟨s₁, hst, h⟩ := Option.bind_eq_some_iff.1 h
    obtain ⟨⟨trace', last⟩, hrest, h⟩ := Option.map_eq_some_iff.1 h
    cases h
    exact (ih hrest).cons (hstep _ _ _ hst)

theorem runOf_events {f : σ → ε → Option σ} {events : List ε}
    (h : runOf f s₀ events = some (trace, s)) : trace.map (·.2) = events := by
  induction events generalizing s₀ trace with
  | nil =>
    cases h
    rfl
  | cons e events ih =>
    obtain ⟨s₁, -, h⟩ := Option.bind_eq_some_iff.1 h
    obtain ⟨⟨trace', last⟩, hrest, h⟩ := Option.map_eq_some_iff.1 h
    cases h
    rw [List.map_cons, ih hrest]

/-- A run between images under `f`, of steps that are images of those of another system. -/
theorem exists_of_map {τ ε' : Type*} {step' : τ → ε' → τ → Prop} {f : τ → σ} {g : ε' → ε}
    {I : τ → Prop} {Q : τ × ε' → Prop} {ok : σ × ε → Prop} {t₀ : τ} (hinit : I t₀)
    (hstep : ∀ t e s, I t → ok (f t, e) → step (f t) e s →
      ∃ e' t', g e' = e ∧ f t' = s ∧ step' t e' t' ∧ Q (t, e') ∧ I t')
    (h : Run step (f t₀) trace s) (hok : ∀ p ∈ trace, ok p) :
    ∃ trace' t, Run step' t₀ trace' t ∧ trace'.map (Prod.map f g) = trace ∧ f t = s ∧ I t ∧
      ∀ q ∈ trace', Q q := by
  induction h with
  | nil => exact ⟨[], t₀, .nil, rfl, rfl, hinit, fun _ hq => absurd hq List.not_mem_nil⟩
  | snoc hrun hst ih =>
    rename_i trace s u e
    obtain ⟨trace', t, hrun', rfl, rfl, ht, hQ⟩ := ih fun p hp => hok p (List.mem_append_left _ hp)
    have hlast := hok (f t, e) (List.mem_append_right _ List.mem_cons_self)
    obtain ⟨e', t', rfl, rfl, hst', hq, ht'⟩ := hstep t e u ht hlast hst
    refine ⟨trace' ++ [(t, e')], t', hrun'.snoc hst', by simp, rfl, ht', fun q hmem => ?_⟩
    rcases List.mem_append.1 hmem with hmem | hmem
    · exact hQ q hmem
    · rw [List.mem_singleton.1 hmem]
      exact hq

/-- A property that a step breaks exactly if it is bad holds in all states of a run exactly if no
step of it is bad. -/
theorem forall_iff (good : σ → Prop) (bad : σ → ε → Prop) (hinit : good s₀)
    (hstep : ∀ trace s e t, Run step s₀ trace s → step s e t → good s → (good t ↔ ¬ bad s e))
    (h : Run step s₀ trace s) :
    ((∀ p ∈ trace, good p.1) ∧ good s) ↔ ∀ p ∈ trace, ¬ bad p.1 p.2 := by
  induction h with
  | nil => simpa using hinit
  | snoc hrun hst ih =>
    rename_i trace s t e
    have hsplit : (∀ p ∈ trace ++ [(s, e)], ¬ bad p.1 p.2) ↔
        (∀ p ∈ trace, ¬ bad p.1 p.2) ∧ ¬ bad s e := by
      simp [or_imp, forall_and]
    have hsplit' : (∀ p ∈ trace ++ [(s, e)], good p.1) ↔ (∀ p ∈ trace, good p.1) ∧ good s := by
      simp [or_imp, forall_and]
    rw [hsplit, hsplit', ← ih]
    exact and_congr_right fun hgood => hstep _ _ _ _ hrun hst hgood.2

/-- Two properties of the steps, equivalent where an invariant holds that one of them keeps up, are
equivalent for the whole run, and then the invariant holds at the end. -/
theorem forall_step_iff {I : σ → Prop} {P Q : σ → ε → Prop} (hinit : I s₀)
    (hiff : ∀ s e t, I s → step s e t → (P s e ↔ Q s e))
    (hkeep : ∀ s e t, I s → P s e → step s e t → I t) (h : Run step s₀ trace s) :
    ((∀ p ∈ trace, P p.1 p.2) ↔ ∀ p ∈ trace, Q p.1 p.2) ∧ ((∀ p ∈ trace, P p.1 p.2) → I s) := by
  induction h with
  | nil => exact ⟨by simp, fun _ => hinit⟩
  | snoc hrun hst ih =>
    rename_i trace s t e
    obtain ⟨hbefore, hI⟩ := ih
    have hsplit (R : σ → ε → Prop) : (∀ p ∈ trace ++ [(s, e)], R p.1 p.2) ↔
        (∀ p ∈ trace, R p.1 p.2) ∧ R s e := by
      simp [or_imp, forall_and]
    rw [hsplit, hsplit]
    constructor
    · rw [← hbefore]
      exact and_congr_right fun hP => hiff s e t (hI hP) hst
    · rintro ⟨hP, hlast⟩
      exact hkeep s e t (hI hP) hlast hst

end Run

/-- Two properties of the elements of a list and of what precedes them, equivalent as long as the
first one has held so far, are equivalent for the whole list. -/
theorem forall_prefix_iff {α : Type*} {P Q : List α → α → Prop} {l : List α}
    (h : ∀ pre a post, l = pre ++ a :: post →
      (∀ pre' a' post', pre = pre' ++ a' :: post' → P pre' a') → (P pre a ↔ Q pre a)) :
    (∀ pre a post, l = pre ++ a :: post → P pre a) ↔
      ∀ pre a post, l = pre ++ a :: post → Q pre a := by
  have hextend : ∀ {pre pre' : List α} {a a' : α} {post post' : List α}, l = pre ++ a :: post →
      pre = pre' ++ a' :: post' → l = pre' ++ a' :: (post' ++ a :: post) := by
    intro pre pre' a a' post post' hl hpre
    rw [hl, hpre, List.append_assoc, List.cons_append]
  constructor
  · intro hP pre a post hl
    have hbefore := fun pre' a' post' hpre => hP pre' a' (post' ++ a :: post) (hextend hl hpre)
    exact (h pre a post hl hbefore).1 (hP pre a post hl)
  · intro hQ pre
    induction hn : pre.length using Nat.strong_induction_on generalizing pre with
    | _ n ih =>
      intro a post hl
      refine (h pre a post hl fun pre' a' post' hpre => ?_).2 (hQ pre a post hl)
      have hlt : pre'.length < n := by
        rw [← hn, hpre, List.length_append, List.length_cons]
        omega
      exact ih _ hlt pre' rfl a' _ (hextend hl hpre)

end SeanetSim
