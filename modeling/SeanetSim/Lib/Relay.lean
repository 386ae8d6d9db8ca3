import Mathlib.Data.List.Basic

/-!
# Relays

A message travels along a path of nodes: each node is visited with what the one before it passes
on, and a node may fail.  `relay_iff` is the rule for a message that every node on the way passes
on as it is.
-/

namespace SeanetSim

variable {H M V : Type*}

/-- The visits of a message, up to the first node that passes nothing on; `none` if a node
fails. -/
def relay (visit : H → M → Option V) (next : V → Option M) : List H → M → Option (List V)
  | [], _ => some []
  | h :: path, m => (visit h m).bind fun v =>
    match next v with
    | none => some [v]
    | some m' => (relay visit next path m').map (v :: ·)

variable {visit : H → M → Option V} {next : V → Option M}

theorem relay_cons_of_next {h : H} {m m' : M} {v : V} (hvisit : visit h m = some v)
    (hnext : next v = some m') (path : List H) :
    relay visit next (h :: path) m = (relay visit next path m').map (v :: ·) := by
  simp [relay, hvisit, hnext]

theorem relay_cons_of_end {h : H} {m : M} {v : V} (hvisit : visit h m = some v)
    (hnext : next v = none) (path : List H) : relay visit next (h :: path) m = some [v] := by
  simp [relay, hvisit, hnext]

/-- The first visit is that of the first node. -/
theorem visit_of_relay {h : H} {path : List H} {m : M} {v : V} {vs : List V}
    (hrelay : relay visit next (h :: path) m = some (v :: vs)) : visit h m = some v := by
  simp only [relay, Option.bind_eq_some_iff] at hrelay
  obtain ⟨w, hvisit, hrelay⟩ := hrelay
  split at hrelay
  · cases hrelay
    exact hvisit
  · obtain ⟨ws, -, hws⟩ := Option.map_eq_some_iff.1 hrelay
    cases hws
    exact hvisit

/-- Visits in `Keeps` pass the message on as it is, and visits in `Ends` pass nothing on. -/
theorem relay_iff {Keeps : M → V → Prop} {Ends : V → Prop}
    (hkeeps : ∀ m v, Keeps m v → next v = some m) (hends : ∀ v, Ends v → next v = none)
    (path : List H) (last : H) (m : M) :
    (∃ vs v, relay visit next (path ++ [last]) m = some (vs ++ [v]) ∧ vs.length = path.length ∧
        (∀ w ∈ vs, Keeps m w) ∧ Ends v) ↔
      (∀ h ∈ path, ∃ w, visit h m = some w ∧ Keeps m w) ∧
        ∃ v, visit last m = some v ∧ Ends v := by
  induction path with
  | nil =>
    constructor
    · intro ⟨vs, v, hrelay, hlength, _, hv⟩
      cases List.length_eq_zero_iff.1 hlength
      exact ⟨fun h hh => absurd hh List.not_mem_nil, v, visit_of_relay hrelay, hv⟩
    · intro ⟨_, v, hvisit, hv⟩
      exact ⟨[], v, relay_cons_of_end hvisit (hends v hv) [], rfl,
        fun w hw => absurd hw List.not_mem_nil, hv⟩
  | cons h path ih =>
    rw [List.cons_append]
    constructor
    · intro ⟨vs, v, hrelay, hlength, hvs, hv⟩
      match vs, hlength with
      | w :: vs, hlength =>
        have hvisit := visit_of_relay hrelay
        have hw := hvs w (List.mem_cons_self ..)
        rw [relay_cons_of_next hvisit (hkeeps m w hw)] at hrelay
        obtain ⟨ws, hws, hcons⟩ := Option.map_eq_some_iff.1 hrelay
        cases hcons
        have hrest := ih.1 ⟨vs, v, hws, Nat.succ.inj hlength,
          fun w hw => hvs w (List.mem_cons_of_mem _ hw), hv⟩
        refine ⟨fun h' hh' => ?_, hrest.2⟩
        cases List.mem_cons.1 hh' with
        | inl heq => exact heq ▸ ⟨w, hvisit, hw⟩
        | inr hmem => exact hrest.1 h' hmem
    · intro ⟨hpath, hlast⟩
      obtain ⟨w, hvisit, hw⟩ := hpath h (List.mem_cons_self ..)
      obtain ⟨vs, v, hrelay, hlength, hvs, hv⟩ :=
        ih.2 ⟨fun h' hh' => hpath h' (List.mem_cons_of_mem _ hh'), hlast⟩
      refine ⟨w :: vs, v, ?_, congrArg (· + 1) hlength, ?_, hv⟩
      · rw [relay_cons_of_next hvisit (hkeeps m w hw), hrelay]
        rfl
      · intro w' hw'
        cases List.mem_cons.1 hw' with
        | inl heq => exact heq ▸ hw
        | inr hmem => exact hvs w' hmem

end SeanetSim
