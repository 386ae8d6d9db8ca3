import Mathlib.Data.PNat.Basic
import Mathlib.Data.List.FinRange
import Mathlib.Logic.Function.Basic

/-!
# Chained hash maps

A hash map whose bucket is the hash modulo the number of buckets and which compares keys inside a
chain only with a given test `same`.  Nothing relates `same` and `hash`: two keys that `same`
identifies may have different hashes.  On a set of keys that `same` separates inside every bucket
(`Hashing.Separated`) the map refines a map by key (`ChainedMap.Refines`), and a run of operations
on such keys, with any rehashes to such bucket counts, answers every lookup as that map does
(`ChainedMap.run_eq_spec`).
-/

namespace SeanetSim

/-- What a hash map knows of its keys: a hash, and the test it compares keys with. -/
structure Hashing (K : Type*) where
  hash : K → ℕ
  same : K → K → Bool
  same_refl : ∀ k, same k k = true

namespace Hashing

variable {K : Type*} (h : Hashing K)

/-- The bucket of a key among `n`. -/
def bucket (n : ℕ+) (k : K) : Fin n := ⟨h.hash k % n, Nat.mod_lt _ n.pos⟩

/-- With `n` buckets, the test tells apart any two keys of `S` that share a bucket. -/
def Separated (n : ℕ+) (S : Set K) : Prop :=
  ∀ k ∈ S, ∀ k' ∈ S, h.same k k' = true → h.bucket n k = h.bucket n k' → k = k'

end Hashing

/-- `buckets` chains of entries. -/
structure ChainedMap (K V : Type*) where
  buckets : ℕ+
  chain : Fin buckets → List (K × V)

namespace ChainedMap

variable {K V : Type*} (h : Hashing K)

/-! ## Operations -/

/-- Overwrite the value of the first entry of a chain whose key tests equal to `k`. -/
def assign (k : K) (v : V) : List (K × V) → List (K × V)
  | [] => []
  | (k', v') :: l => if h.same k' k then (k', v) :: l else (k', v') :: assign k v l

/-- The map with `n` empty chains. -/
def empty (n : ℕ+) : ChainedMap K V := ⟨n, fun _ => []⟩

def find (m : ChainedMap K V) (k : K) : Option V :=
  ((m.chain (h.bucket m.buckets k)).find? fun e => h.same e.1 k).map Prod.snd

/-- Replace a chain. -/
def setChain (m : ChainedMap K V) (i : Fin m.buckets) (l : List (K × V)) : ChainedMap K V :=
  ⟨m.buckets, Function.update m.chain i l⟩

/-- Link a new entry in front of the chain of its key. -/
def push (m : ChainedMap K V) (e : K × V) : ChainedMap K V :=
  m.setChain (h.bucket m.buckets e.1) (e :: m.chain (h.bucket m.buckets e.1))

/-- Overwrite the value found under `k`, or link a new entry. -/
def store (m : ChainedMap K V) (k : K) (v : V) : ChainedMap K V :=
  let l := m.chain (h.bucket m.buckets k)
  if l.any fun e => h.same e.1 k then m.setChain (h.bucket m.buckets k) (assign h k v l)
  else m.push h (k, v)

/-- Unlink every entry of the chain of `k` whose key tests equal to `k`. -/
def erase (m : ChainedMap K V) (k : K) : ChainedMap K V :=
  m.setChain (h.bucket m.buckets k)
    ((m.chain (h.bucket m.buckets k)).filter fun e => !h.same e.1 k)

/-- The entries in iteration order, bucket after bucket. -/
def toList (m : ChainedMap K V) : List (K × V) := (List.finRange m.buckets).flatMap m.chain

/-- Relink all entries, in iteration order, into `n` chains. -/
def rehash (m : ChainedMap K V) (n : ℕ+) : ChainedMap K V := m.toList.foldl (push h) (empty n)

/-! ## Shape of the chains -/

@[simp] theorem buckets_setChain (m : ChainedMap K V) (i : Fin m.buckets) (l : List (K × V)) :
    (m.setChain i l).buckets = m.buckets := rfl

@[simp] theorem chain_setChain (m : ChainedMap K V) (i : Fin m.buckets) (l : List (K × V)) :
    (m.setChain i l).chain = Function.update m.chain i l := rfl

theorem mem_toList {m : ChainedMap K V} {e : K × V} : e ∈ m.toList ↔ ∃ i, e ∈ m.chain i := by
  simp [toList]

/-- After linking the entries of `l`, each chain starts with those of `l` that belong to it, the
last one first. -/
theorem foldl_push (l : List (K × V)) (m : ChainedMap K V) :
    l.foldl (push h) m = ⟨m.buckets, fun i =>
      (l.filter fun e => h.bucket m.buckets e.1 = i).reverse ++ m.chain i⟩ := by
  induction l generalizing m with
  | nil => simp
  | cons e l ih =>
    rw [List.foldl_cons, ih]
    simp only [push, buckets_setChain, chain_setChain, ChainedMap.mk.injEq, heq_eq_eq, true_and]
    funext i
    by_cases hi : h.bucket m.buckets e.1 = i
    · subst hi
      simp only [Function.update_self, decide_true, List.filter_cons_of_pos, List.reverse_cons,
        List.append_assoc, List.singleton_append]
      rfl
    · rw [Function.update_of_ne (Ne.symm hi), List.filter_cons_of_neg (by simpa using hi)]
      rfl

theorem rehash_eq (m : ChainedMap K V) (n : ℕ+) :
    m.rehash h n = ⟨n, fun i => (m.toList.filter fun e => h.bucket n e.1 = i).reverse⟩ := by
  rw [rehash, foldl_push]
  simp only [empty, List.append_nil]
  rfl

theorem mem_toList_rehash {m : ChainedMap K V} {n : ℕ+} {e : K × V} :
    e ∈ (m.rehash h n).toList ↔ e ∈ m.toList := by
  simp [mem_toList, rehash_eq]

/-- Overwriting values keeps the keys of a chain. -/
theorem map_fst_assign (k : K) (v : V) (l : List (K × V)) :
    (assign h k v l).map Prod.fst = l.map Prod.fst := by
  induction l with
  | nil => rfl
  | cons e l ih =>
    obtain ⟨a, b⟩ := e
    by_cases hs : h.same a k <;> simp [assign, hs, ih]

/-- A lookup returns the value of an entry whose key tests equal. -/
theorem mem_of_find {m : ChainedMap K V} {k : K} {v : V} (hf : m.find h k = some v) :
    ∃ k', h.same k' k = true ∧ (k', v) ∈ m.toList := by
  obtain ⟨⟨k', w⟩, he, rfl⟩ := Option.map_eq_some_iff.1 hf
  have hs : h.same k' k = true := List.find?_some (p := fun e : K × V => h.same e.1 k) he
  exact ⟨k', hs, mem_toList.2 ⟨_, List.mem_of_find?_eq_some he⟩⟩

theorem mem_toList_setChain {m : ChainedMap K V} {i : Fin m.buckets} {l : List (K × V)} {e : K × V}
    (he : e ∈ (m.setChain i l).toList) : e ∈ l ∨ e ∈ m.toList := by
  obtain ⟨j, hj⟩ : ∃ j : Fin m.buckets, e ∈ Function.update m.chain i l j := mem_toList.1 he
  by_cases hji : j = i
  · subst hji
    rw [Function.update_self] at hj
    exact .inl hj
  · rw [Function.update_of_ne hji] at hj
    exact .inr (mem_toList.2 ⟨j, hj⟩)

/-- Storing under `k` adds no key but `k`. -/
theorem key_of_mem_store {m : ChainedMap K V} {k : K} {v : V} {e : K × V}
    (he : e ∈ (m.store h k v).toList) : e.1 = k ∨ ∃ w, (e.1, w) ∈ m.toList := by
  unfold store at he
  dsimp only at he
  split_ifs at he with hany
  · rcases mem_toList_setChain he with hl | hm
    · have hkey := List.mem_map_of_mem (f := Prod.fst) hl
      rw [map_fst_assign] at hkey
      obtain ⟨⟨k', w⟩, hw, rfl : k' = e.1⟩ := List.mem_map.1 hkey
      exact .inr ⟨w, mem_toList.2 ⟨_, hw⟩⟩
    · exact .inr ⟨e.2, hm⟩
  · rcases mem_toList_setChain he with hl | hm
    · rcases List.mem_cons.1 hl with rfl | hl
      · exact .inl rfl
      · exact .inr ⟨e.2, mem_toList.2 ⟨_, hl⟩⟩
    · exact .inr ⟨e.2, hm⟩

/-! ## Refinement of a map by key -/

/-- `m` stores exactly the entries of `f`, all under keys of `S`, each in the chain of its key. -/
structure Refines (S : Set K) (m : ChainedMap K V) (f : K → Option V) : Prop where
  placed : ∀ i, ∀ e ∈ m.chain i, e.1 ∈ S ∧ h.bucket m.buckets e.1 = i
  nodup : ∀ i, ((m.chain i).map Prod.fst).Nodup
  mem_iff : ∀ k v, (k, v) ∈ m.chain (h.bucket m.buckets k) ↔ f k = some v

variable {h} {S : Set K} {m : ChainedMap K V} {f : K → Option V}

theorem refines_empty (n : ℕ+) : Refines h S (empty n : ChainedMap K V) fun _ => none where
  placed := by simp [empty]
  nodup := by simp [empty]
  mem_iff := by simp [empty]

namespace Refines

/-- In the chain of a separated key, the test finds that key only. -/
theorem same_iff (r : Refines h S m f) (hsep : h.Separated m.buckets S) {k : K} (hk : k ∈ S)
    {e : K × V} (he : e ∈ m.chain (h.bucket m.buckets k)) : h.same e.1 k = true ↔ e.1 = k := by
  obtain ⟨heS, hb⟩ := r.placed _ e he
  constructor
  · intro hs
    exact hsep _ heS _ hk hs hb
  · rintro rfl
    exact h.same_refl _

theorem find_eq (r : Refines h S m f) (hsep : h.Separated m.buckets S) {k : K} (hk : k ∈ S) :
    m.find h k = f k := by
  unfold ChainedMap.find
  rcases hfind : (m.chain (h.bucket m.buckets k)).find? fun e => h.same e.1 k with _ | ⟨k', v⟩
  · rw [hfind]
    rcases hf : f k with _ | v
    · rfl
    · have hmem := (r.mem_iff k v).2 hf
      have hnone := List.find?_eq_none.1 hfind _ hmem
      exact absurd (h.same_refl k) hnone
  · have hmem := List.mem_of_find?_eq_some hfind
    have hs : h.same k' k = true := List.find?_some (p := fun e : K × V => h.same e.1 k) hfind
    obtain rfl : k' = k := (r.same_iff hsep hk hmem).1 hs
    rw [hfind, (r.mem_iff k' v).1 hmem]
    rfl

variable [DecidableEq K]

/-- Replacing one chain keeps the refinement when the new chain is right for the new map. -/
theorem setChain (r : Refines h S m f) {k : K} {l : List (K × V)} {o : Option V}
    (hplaced : ∀ e ∈ l, e.1 ∈ S ∧ h.bucket m.buckets e.1 = h.bucket m.buckets k)
    (hnodup : (l.map Prod.fst).Nodup)
    (hmem : ∀ k' v, h.bucket m.buckets k' = h.bucket m.buckets k →
      ((k', v) ∈ l ↔ Function.update f k o k' = some v)) :
    Refines h S (m.setChain (h.bucket m.buckets k) l) (Function.update f k o) where
  placed := by
    intro i e he
    simp only [buckets_setChain, chain_setChain] at i he ⊢
    by_cases hi : i = h.bucket m.buckets k
    · subst hi
      rw [Function.update_self] at he
      exact hplaced e he
    · rw [Function.update_of_ne hi] at he
      exact r.placed i e he
  nodup := by
    intro i
    simp only [buckets_setChain, chain_setChain] at i ⊢
    by_cases hi : i = h.bucket m.buckets k
    · subst hi
      rwa [Function.update_self]
    · rw [Function.update_of_ne hi]
      exact r.nodup i
  mem_iff := by
    intro k' v
    simp only [buckets_setChain, chain_setChain]
    by_cases hi : h.bucket m.buckets k' = h.bucket m.buckets k
    · rw [hi, Function.update_self]
      exact hmem k' v hi
    · have hne : k' ≠ k := fun e => hi (e ▸ rfl)
      rw [Function.update_of_ne hi, Function.update_of_ne hne]
      exact r.mem_iff k' v

omit [DecidableEq K] in
/-- Overwriting in a chain that holds `k` exchanges the entry of `k`. -/
theorem mem_assign {l : List (K × V)} {k : K} (v : V)
    (hsame : ∀ e ∈ l, h.same e.1 k = true ↔ e.1 = k)
    (hnodup : (l.map Prod.fst).Nodup) (k' : K) (v' : V) :
    (k', v') ∈ assign h k v l ↔
      (k' = k ∧ v' = v ∧ k ∈ l.map Prod.fst) ∨ (k' ≠ k ∧ (k', v') ∈ l) := by
  induction l with
  | nil => simp [assign]
  | cons e l ih =>
    obtain ⟨a, b⟩ := e
    obtain ⟨ha, hnodup⟩ := List.nodup_cons.1 hnodup
    have ih := ih (fun e he => hsame e (List.mem_cons_of_mem _ he)) hnodup
    have hhead := hsame (a, b) (List.mem_cons_self ..)
    have hfresh : ∀ w, (a, w) ∉ l := fun w hw => ha (List.mem_map.2 ⟨_, hw, rfl⟩)
    by_cases hak : a = k
    · subst hak
      rw [assign, if_pos (hhead.2 rfl)]
      grind
    · rw [assign, if_neg (fun hs => hak (hhead.1 hs))]
      grind

theorem store (r : Refines h S m f) (hsep : h.Separated m.buckets S) {k : K} (hk : k ∈ S) (v : V) :
    Refines h S (m.store h k v) (Function.update f k (some v)) := by
  have hsame : ∀ e ∈ m.chain (h.bucket m.buckets k), h.same e.1 k = true ↔ e.1 = k :=
    fun e he => r.same_iff hsep hk he
  have hnodup := r.nodup (h.bucket m.buckets k)
  unfold ChainedMap.store
  dsimp only
  split_ifs with hany
  · -- the key is in its chain: its value is overwritten
    obtain ⟨e, he, hs⟩ := List.any_eq_true.1 hany
    have hkey : k ∈ (m.chain (h.bucket m.buckets k)).map Prod.fst :=
      List.mem_map.2 ⟨e, he, (hsame e he).1 hs⟩
    refine r.setChain ?_ (by rwa [map_fst_assign]) ?_
    · intro e he
      have hmem : e.1 ∈ (assign h k v (m.chain (h.bucket m.buckets k))).map Prod.fst :=
        List.mem_map_of_mem he
      rw [map_fst_assign] at hmem
      obtain ⟨e', he', heq⟩ := List.mem_map.1 hmem
      exact heq ▸ r.placed _ e' he'
    · intro k' v' hb
      rw [mem_assign v hsame hnodup, ← hb, r.mem_iff k' v', hb]
      by_cases hkk : k' = k
      · subst hkk
        simp [hkey, eq_comm]
      · simp [hkk]
  · -- the key is new: an entry is linked in front
    have hnew : ∀ w, (k, w) ∉ m.chain (h.bucket m.buckets k) := by
      intro w hw
      exact hany (List.any_eq_true.2 ⟨_, hw, h.same_refl k⟩)
    apply r.setChain (l := (k, v) :: m.chain (h.bucket m.buckets k))
    · rintro e (_ | ⟨_, he⟩)
      · exact ⟨hk, rfl⟩
      · exact r.placed _ e he
    · refine List.nodup_cons.2 ⟨?_, hnodup⟩
      rintro hmem
      obtain ⟨⟨k', w⟩, hw, rfl⟩ := List.mem_map.1 hmem
      exact hnew w hw
    · intro k' v' hb
      rw [List.mem_cons, ← hb, r.mem_iff k' v']
      by_cases hkk : k' = k
      · subst hkk
        have hf : f k' ≠ some v' := fun hf => hnew v' ((r.mem_iff k' v').2 hf)
        simp [hf, eq_comm]
      · simp [hkk]

theorem erase (r : Refines h S m f) (hsep : h.Separated m.buckets S) {k : K} (hk : k ∈ S) :
    Refines h S (m.erase h k) (Function.update f k none) := by
  apply r.setChain
  · intro e he
    exact r.placed _ e (List.mem_of_mem_filter he)
  · exact (r.nodup _).sublist (List.filter_sublist.map _)
  · intro k' v' hb
    by_cases hkk : k' = k
    · subst hkk
      simp [h.same_refl]
    · rw [List.mem_filter, Function.update_of_ne hkk, ← hb, r.mem_iff k' v']
      have hne : (k', v') ∈ m.chain (h.bucket m.buckets k) → h.same k' k = false := by
        intro he
        rw [← Bool.not_eq_true, r.same_iff hsep hk he]
        exact hkk
      constructor
      · exact fun hm => hm.1
      · intro hf
        refine ⟨hf, ?_⟩
        rw [hne (hb ▸ (r.mem_iff k' v').2 hf)]
        rfl

omit [DecidableEq K] in
/-- No key is stored twice. -/
theorem nodup_toList (r : Refines h S m f) : (m.toList.map Prod.fst).Nodup := by
  rw [toList, List.map_flatMap, List.nodup_flatMap]
  refine ⟨fun i _ => r.nodup i, ?_⟩
  refine (List.nodup_finRange _).pairwise_of_forall_ne fun i _ j _ hij => ?_
  intro k hi hj
  obtain ⟨e, he, rfl⟩ := List.mem_map.1 hi
  obtain ⟨e', he', heq⟩ := List.mem_map.1 hj
  exact hij ((r.placed i e he).2.symm.trans (heq ▸ (r.placed j e' he').2))

omit [DecidableEq K] in
theorem rehash (r : Refines h S m f) (n : ℕ+) : Refines h S (m.rehash h n) f := by
  rw [rehash_eq]
  refine ⟨?_, ?_, ?_⟩
  · intro i e he
    simp only [List.mem_reverse, List.mem_filter, decide_eq_true_eq, mem_toList] at he
    obtain ⟨⟨j, hj⟩, hb⟩ := he
    exact ⟨(r.placed j e hj).1, hb⟩
  · intro i
    rw [List.map_reverse, List.nodup_reverse]
    exact r.nodup_toList.sublist (List.filter_sublist.map _)
  · intro k v
    simp only [List.mem_reverse, List.mem_filter, decide_true, and_true, mem_toList]
    constructor
    · rintro ⟨i, hi⟩
      have hb := (r.placed i _ hi).2
      subst hb
      exact (r.mem_iff k v).1 hi
    · intro hf
      exact ⟨_, (r.mem_iff k v).2 hf⟩

end Refines

/-! ## Runs of operations -/

/-- The operations of a hash map, rehashes included. -/
inductive Op (K V : Type*)
  | lookup (k : K)
  | store (k : K) (v : V)
  | erase (k : K)
  | rehash (n : ℕ+)

/-- The operation names keys of `S` only, and bucket counts of `B` only. -/
def Op.Within (S : Set K) (B : Set ℕ+) : Op K V → Prop
  | .lookup k | .store k _ | .erase k => k ∈ S
  | .rehash n => n ∈ B

variable (h) in
/-- The answers of the lookups of a run. -/
def run (m : ChainedMap K V) : List (Op K V) → List (Option V)
  | [] => []
  | .lookup k :: ops => m.find h k :: run m ops
  | .store k v :: ops => run (m.store h k v) ops
  | .erase k :: ops => run (m.erase h k) ops
  | .rehash n :: ops => run (m.rehash h n) ops

/-- The answers of the same run on a map by key: a lookup returns the value last stored. -/
def spec [DecidableEq K] (f : K → Option V) : List (Op K V) → List (Option V)
  | [] => []
  | .lookup k :: ops => f k :: spec f ops
  | .store k v :: ops => spec (Function.update f k (some v)) ops
  | .erase k :: ops => spec (Function.update f k none) ops
  | .rehash _ :: ops => spec f ops

/-- On separated keys every run answers as the map by key does. -/
theorem run_eq_spec [DecidableEq K] {B : Set ℕ+} (hsep : ∀ n ∈ B, h.Separated n S)
    (ops : List (Op K V)) (hops : ∀ op ∈ ops, op.Within S B) {m : ChainedMap K V} {f : K → Option V}
    (hm : m.buckets ∈ B) (r : Refines h S m f) : m.run h ops = spec f ops := by
  induction ops generalizing m f with
  | nil => rfl
  | cons op ops ih =>
    have hop := hops op (List.mem_cons_self ..)
    have ih := fun {m' f'} =>
      ih (m := m') (f := f') fun op hop => hops op (List.mem_cons_of_mem _ hop)
    cases op with
    | lookup k =>
      rw [run, spec, r.find_eq (hsep _ hm) hop, ih hm r]
    | store k v =>
      have hb : (m.store h k v).buckets = m.buckets := by
        unfold ChainedMap.store push
        dsimp only
        split_ifs <;> rfl
      exact ih (hb ▸ hm) (r.store (hsep _ hm) hop v)
    | erase k => exact ih hm (r.erase (hsep _ hm) hop)
    | rehash n =>
      have hb : (m.rehash h n).buckets ∈ B := by
        rw [rehash_eq]
        exact hop
      exact ih hb (r.rehash n)

/-- Two keys that the test identifies and that share a bucket answer for each other. -/
theorem run_store_lookup {k k' : K} {n : ℕ+} (hs : h.same k k' = true)
    (hb : h.bucket n k = h.bucket n k') (v : V) :
    (empty n : ChainedMap K V).run h [.store k v, .lookup k'] = [some v] := by
  simp [run, ChainedMap.store, ChainedMap.find, push, setChain, empty, ← hb, hs]

/-- Separation is exactly what it takes for all runs on the keys of `S` to answer as the map by
key does. -/
theorem forall_run_eq_spec_iff [DecidableEq K] [Inhabited V] (B : Set ℕ+) :
    (∀ n ∈ B, ∀ ops : List (Op K V), (∀ op ∈ ops, op.Within S B) →
      (empty n : ChainedMap K V).run h ops = spec (fun _ => none) ops) ↔
    ∀ n ∈ B, h.Separated n S := by
  constructor
  · intro hrun n hn k hk k' hk' hs hb
    by_contra hne
    have hops : ∀ op ∈ [Op.store k (default : V), .lookup k'], op.Within S B := by
      simp [Op.Within, hk, hk']
    have heq := hrun n hn _ hops
    rw [run_store_lookup hs hb] at heq
    simp [spec, Function.update_of_ne (Ne.symm hne)] at heq
  · intro hsep n hn ops hops
    exact run_eq_spec hsep ops hops hn (refines_empty n)

end ChainedMap

end SeanetSim
