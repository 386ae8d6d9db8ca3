import SeanetSim.Applications.RootNode

/-!
# The load of a root node

`GetSwitchSocre` counts the identifiers of an address only if both of its lists are there, and
`GetRootNode` starts its search with a score of 10000.  `getRootNode_leastLoaded_iff` says when the
search still ends with an address of least load.
-/

namespace SeanetSim

open AddressMap SeanetProtocol SwitchApplicationv4

variable {M : Type → Type} [AddressMap M]

/-- The identifiers stored for an address; a list that is not there is empty. -/
def load (T : Tables M) (k : Ipv4Address) : ℕ :=
  (castList T.unicastTable k).length + (castList T.multicastTable k).length

/-- The keys of the delay table. -/
def delayKeys (sw : SwitchApplicationv4 M) : List Ipv4Address := (toList sw.delayTable).map Prod.fst

/-- The root node is a key of least load, without keys the switch itself. -/
def LeastLoaded (sw : SwitchApplicationv4 M) (T : Tables M) (self root : Ipv4Address) : Prop :=
  if delayKeys sw = [] then root = self
  else root ∈ delayKeys sw ∧ ∀ k ∈ delayKeys sw, load T root ≤ load T k

theorem getSwitchSocre_eq_zero_or (T : Tables M) (k : Ipv4Address) :
    getSwitchSocre T k = 0 ∨ getSwitchSocre T k = load T k := by
  unfold getSwitchSocre load castList
  rcases find T.multicastTable k with _ | _ | l
  · exact .inl rfl
  · exact .inl rfl
  · rcases find T.unicastTable k with _ | _ | l'
    · exact .inl rfl
    · exact .inl rfl
    · exact .inr rfl

/-- The search over the keys. -/
theorem getRootNode_eq (sw : SwitchApplicationv4 M) (T : Tables M) (self first : Ipv4Address)
    {rest : List Ipv4Address} (hkeys : delayKeys sw = first :: rest) :
    getRootNode sw T self = ((first :: rest).foldl
      (keepBest (· ≤ ·) fun k => some (getSwitchSocre T k)) (first, 10000)).1 := by
  unfold getRootNode
  rw [delayKeys] at hkeys
  cases hl : toList sw.delayTable with
  | nil =>
    rw [hl] at hkeys
    exact absurd hkeys.symm (List.cons_ne_nil _ _)
  | cons e l =>
    rw [hl] at hkeys
    have hfirst : e.1 = first := (List.cons_eq_cons.1 hkeys).1
    dsimp only
    rw [foldl_score_eq_keepBest, hkeys, hfirst]

/-- The last of the keys with score 0 wins. -/
theorem foldl_keepBest_last {α : Type*} {score : α → ℕ} {l : List α} {last : α}
    (hlast : (l.filter (score · = 0)).getLast? = some last) (best : α × ℕ) :
    l.foldl (keepBest (· ≤ ·) fun k => some (score k)) best = (last, 0) := by
  induction l using List.reverseRecOn with
  | nil => exact absurd hlast.symm (Option.some_ne_none _)
  | append_singleton l k ih =>
    rw [List.foldl_append, List.foldl_cons, List.foldl_nil]
    rw [List.filter_append] at hlast
    by_cases hk : score k = 0
    · have hfilter : [k].filter (score · = 0) = [k] := by simp [hk]
      rw [hfilter, List.getLast?_concat] at hlast
      obtain rfl := Option.some.inj hlast
      rw [keepBest_some, if_pos (by omega), hk]
    · have hfilter : [k].filter (score · = 0) = [] := by simp [hk]
      rw [hfilter, List.append_nil] at hlast
      rw [ih hlast, keepBest_some, if_neg (by omega)]

/-- The last key whose lists count nothing has the least load; or there is no such key, and some key
has a load of at most 10000 or the first key has the least load. -/
def Balances (sw : SwitchApplicationv4 M) (T : Tables M) : Prop :=
  match ((delayKeys sw).filter (getSwitchSocre T · = 0)).getLast? with
  | some last => ∀ k ∈ delayKeys sw, load T last ≤ load T k
  | none => (∃ k ∈ delayKeys sw, load T k ≤ 10000) ∨
      ∀ first ∈ (delayKeys sw).head?, ∀ k ∈ delayKeys sw, load T first ≤ load T k

/-- The root node has the least load exactly if the scores balance. -/
theorem getRootNode_leastLoaded_iff (sw : SwitchApplicationv4 M) (T : Tables M)
    (self : Ipv4Address) : LeastLoaded sw T self (getRootNode sw T self) ↔ Balances sw T := by
  unfold LeastLoaded Balances
  cases hkeys : delayKeys sw with
  | nil =>
    have hempty : toList sw.delayTable = [] := List.map_eq_nil_iff.1 hkeys
    rw [if_pos rfl, getRootNode, hempty]
    refine iff_of_true rfl (.inr fun first hfirst => ?_)
    exact absurd hfirst (Option.not_mem_none first)
  | cons first rest =>
    rw [if_neg (List.cons_ne_nil _ _), getRootNode_eq sw T self first hkeys]
    cases hlast : ((first :: rest).filter (getSwitchSocre T · = 0)).getLast? with
    | some last =>
      rw [foldl_keepBest_last hlast]
      have hmem : last ∈ first :: rest := List.mem_of_mem_filter (List.mem_of_getLast? hlast)
      exact and_iff_right hmem
    | none =>
      have hload {k : Ipv4Address} (hk : k ∈ first :: rest) :
          getSwitchSocre T k = load T k := by
        refine (getSwitchSocre_eq_zero_or T k).resolve_left fun hzero => ?_
        have := List.filter_eq_nil_iff.1 (List.getLast?_eq_none_iff.1 hlast) k hk
        exact this (by simpa using hzero)
      rcases foldl_keepBest_cases (· ≤ ·) (fun k => some (getSwitchSocre T k)) (first :: rest)
          (first, 10000) with ⟨h, hhigh⟩ | ⟨k, hk, d, hd, hr, h⟩
      · -- no key has a load of at most 10000
        have hhigh {k : Ipv4Address} (hk : k ∈ first :: rest) : ¬ load T k ≤ 10000 := by
          rw [← hload hk]
          exact hhigh k hk _ rfl
        rw [h]
        constructor
        · rintro ⟨-, hle⟩
          exact .inr fun _ heq => Option.some.inj heq ▸ hle
        · rintro (⟨k, hk, hlow⟩ | hfirst)
          · exact absurd hlow (hhigh hk)
          · exact ⟨List.mem_cons_self, hfirst first rfl⟩
      · have hd : getSwitchSocre T k = d := Option.some.inj hd
        rw [hload hk] at hd
        rw [h]
        refine iff_of_true ⟨hk, fun k' hk' => ?_⟩ (.inl ⟨k, hk, hd.trans_le hr⟩)
        have hle : ((first :: rest).foldl (keepBest (· ≤ ·) fun k => some (getSwitchSocre T k))
            (first, 10000)).2 ≤ getSwitchSocre T k' :=
          foldl_keepBest_le (fun _ _ => id) (fun _ _ hn => (not_le.1 hn).le) _ hk' rfl
        rw [h, hload hk'] at hle
        exact hd.trans_le hle

/-- Three identifiers are multicast to 10.0.0.1, and 10.0.0.2 has one identifier in both tables. -/
def halfListed : Tables PairMap where
  unicastTable := store empty ⟨0x0a000002, 0⟩ (some [Vector.replicate eidSize 1])
  multicastTable := store
    (store empty ⟨0x0a000001, 0⟩
      (some [Vector.replicate eidSize 1, Vector.replicate eidSize 2, Vector.replicate eidSize 3]))
    ⟨0x0a000002, 0⟩ (some [Vector.replicate eidSize 1])
  resolutionTable := fun _ => none

/-- 10.0.0.1, which has no unicast list, is chosen. -/
theorem getRootNode_not_leastLoaded :
    ¬ ∀ (sw : SwitchApplicationv4 PairMap) (T : Tables PairMap) (self : Ipv4Address),
      LeastLoaded sw T self (getRootNode sw T self) := by
  intro h
  have hloaded := h { (SwitchConfig.create ⟨.seanet, false, []⟩ : SwitchApplicationv4 PairMap) with
    delayTable := store (store (empty : PairMap Time) ⟨0x0a000001, 0⟩ 1) ⟨0x0a000002, 0⟩ 1 }
    halfListed ⟨0x0a000003, 0⟩
  rw [LeastLoaded, if_neg (by decide)] at hloaded
  exact absurd (hloaded.2 ⟨0x0a000002, 0⟩ (by decide)) (by decide)

end SeanetSim
