import SeanetSim.Network.Ipv4Address

/-!
# Maps keyed by `Ipv4Address`

The switch code is written against the operations of `sgi::hash_map` (`AddressMap`).  Two
containers provide them: `PairMap`, keyed by the pair (address, interface), and `AddressHashMap`,
the chained hash map that `Ipv4AddressHash` and `operator ==` give.  Every container finds a value
only under a key of the same address (`AddressKeyed`); only a map keyed by the pair returns what was
stored under the very key (`PairKeyed`).  `hashMap_refines_iff` says when the hash map does.
-/

namespace SeanetSim

/-- The operations of a map keyed by `Ipv4Address`: `find`, `(*table)[k] = v`, and the entries in
iteration order. -/
class AddressMap (M : Type → Type) where
  empty {V : Type} : M V
  find {V : Type} : M V → Ipv4Address → Option V
  store {V : Type} : M V → Ipv4Address → V → M V
  toList {V : Type} : M V → List (Ipv4Address × V)

open AddressMap

/-- The map is keyed by the pair (address, interface). -/
class PairKeyed (M : Type → Type) [AddressMap M] : Prop where
  find_empty {V : Type} (k : Ipv4Address) : find (empty : M V) k = none
  find_store {V : Type} (m : M V) (k k' : Ipv4Address) (v : V) :
    find (store m k v) k' = if k' = k then some v else find m k'

/-- A value is only found under a key of the same address, and storing adds no other key. -/
class AddressKeyed (M : Type → Type) [AddressMap M] : Prop where
  toList_empty {V : Type} : toList (empty : M V) = []
  mem_of_find {V : Type} {m : M V} {k : Ipv4Address} {v : V} (h : find m k = some v) :
    ∃ k', k'.address = k.address ∧ (k', v) ∈ toList m
  key_of_mem_store {V : Type} {m : M V} {k : Ipv4Address} {v : V} {e : Ipv4Address × V}
    (h : e ∈ toList (store m k v)) : e.1 = k ∨ ∃ w, (e.1, w) ∈ toList m

/-! ## Maps keyed by the pair -/

/-- An association list, the entry stored last in front. -/
structure PairMap (V : Type) where
  entries : List (Ipv4Address × V)

instance : AddressMap PairMap where
  empty := ⟨[]⟩
  find m k := (m.entries.find? fun e => e.1 = k).map Prod.snd
  store m k v := ⟨(k, v) :: m.entries.filter fun e => e.1 ≠ k⟩
  toList m := m.entries

instance : PairKeyed PairMap where
  find_empty _ := rfl
  find_store m k k' v := by
    simp only [find, store]
    by_cases hk : k = k'
    · subst hk
      simp
    · rw [List.find?_cons_of_neg (by simpa using hk), if_neg (Ne.symm hk), List.find?_filter]
      congr 2
      funext e
      by_cases he : e.1 = k' <;> simp [he, Ne.symm hk]

instance : AddressKeyed PairMap where
  toList_empty := rfl
  mem_of_find {_ _ k _} h := by
    obtain ⟨⟨k', w⟩, he, rfl⟩ := Option.map_eq_some_iff.1 h
    obtain rfl : k' = k := by simpa using List.find?_some he
    exact ⟨k', rfl, List.mem_of_find?_eq_some he⟩
  key_of_mem_store {_ _ _ _ e} h := by
    rcases List.mem_cons.1 h with rfl | h
    · exact .inl rfl
    · exact .inr ⟨e.2, List.mem_of_mem_filter h⟩

/-! ## The hash map of the tables -/

/-- How the container sizes itself: the initial number of buckets, and the number of buckets it
wants for so many entries. -/
structure ResizePolicy where
  start : ℕ+
  wanted : ℕ → ℕ+

/-- `sgi::hash_map<Ipv4Address, V, Ipv4AddressHash>`. -/
structure AddressHashMap (P : ResizePolicy) (V : Type) where
  table : ChainedMap Ipv4Address V

/-- Before an insertion the table grows to the wanted number of buckets; it never shrinks. -/
def resize (P : ResizePolicy) {V : Type} (m : ChainedMap Ipv4Address V) :
    ChainedMap Ipv4Address V :=
  let n := P.wanted (m.toList.length + 1)
  if m.buckets < n then m.rehash ipv4AddressHash n else m

theorem mem_toList_resize {P : ResizePolicy} {V : Type} {m : ChainedMap Ipv4Address V}
    {e : Ipv4Address × V} : e ∈ (resize P m).toList ↔ e ∈ m.toList := by
  unfold resize
  dsimp only
  split_ifs
  · exact ChainedMap.mem_toList_rehash ipv4AddressHash
  · exact Iff.rfl

instance (P : ResizePolicy) : AddressMap (AddressHashMap P) where
  empty := ⟨.empty P.start⟩
  find m k := m.table.find ipv4AddressHash k
  store m k v := ⟨(resize P m.table).store ipv4AddressHash k v⟩
  toList m := m.table.toList

instance (P : ResizePolicy) : AddressKeyed (AddressHashMap P) where
  toList_empty := List.eq_nil_iff_forall_not_mem.2 fun e he => by
    obtain ⟨i, hi⟩ := ChainedMap.mem_toList.1 he
    exact List.not_mem_nil hi
  mem_of_find h := by
    obtain ⟨k', hs, hmem⟩ := ChainedMap.mem_of_find ipv4AddressHash h
    exact ⟨k', Ipv4Address.same_iff.1 hs, hmem⟩
  key_of_mem_store h := by
    rcases ChainedMap.key_of_mem_store ipv4AddressHash h with hk | ⟨w, hw⟩
    · exact .inl hk
    · exact .inr ⟨w, mem_toList_resize.1 hw⟩

/-- Two keys of `S` with the same address and different interfaces fall into the same one of `n`
buckets, for some bucket count `n` of `B`. -/
def InterfaceClash (S : Set Ipv4Address) (B : Set ℕ+) : Prop :=
  ∃ k ∈ S, ∃ k' ∈ S, k.address = k'.address ∧ k.interfaceNum ≠ k'.interfaceNum ∧
    ∃ n ∈ B, ipv4AddressHash.hash k % n = ipv4AddressHash.hash k' % n

theorem separated_iff_not_clash (S : Set Ipv4Address) (B : Set ℕ+) :
    (∀ n ∈ B, ipv4AddressHash.Separated n S) ↔ ¬ InterfaceClash S B := by
  constructor
  · rintro hsep ⟨k, hk, k', hk', haddr, hint, n, hn, hb⟩
    have heq := hsep n hn k hk k' hk' (Ipv4Address.same_iff.2 haddr) (Fin.ext hb)
    exact hint (congrArg _ heq)
  · intro hclash n hn k hk k' hk' hs hb
    by_contra hne
    have haddr := Ipv4Address.same_iff.1 hs
    refine hclash ⟨k, hk, k', hk', haddr, ?_, n, hn, congrArg Fin.val hb⟩
    intro hint
    exact hne (Ipv4Address.ext haddr hint)

/-- All runs on keys of `S`, with the bucket counts of `B` and any rehashes between them, return
for each lookup the value last stored under the same (address, interface) exactly when no two keys
of `S` that differ only in the interface ever share a bucket. -/
theorem hashMap_refines_iff (V : Type) [Inhabited V] (S : Set Ipv4Address) (B : Set ℕ+) :
    (∀ n ∈ B, ∀ ops : List (ChainedMap.Op Ipv4Address V), (∀ op ∈ ops, op.Within S B) →
      (ChainedMap.empty n).run ipv4AddressHash ops = ChainedMap.spec (fun _ => none) ops) ↔
    ¬ InterfaceClash S B :=
  (ChainedMap.forall_run_eq_spec_iff B).trans (separated_iff_not_clash S B)

/-- With 193 buckets, interface 193 of 10.0.0.1 answers with what interface 0 stored. -/
theorem hashMap_confuses_interfaces :
    ¬ ∀ (n : ℕ+) (ops : List (ChainedMap.Op Ipv4Address ℕ)),
      (ChainedMap.empty n).run ipv4AddressHash ops = ChainedMap.spec (fun _ => none) ops := by
  intro h
  have hrun := h 193 [.store ⟨0x0a000001, 0⟩ 1, .lookup ⟨0x0a000001, 193⟩]
  rw [ChainedMap.run_store_lookup (by decide) (by decide)] at hrun
  revert hrun
  decide

end SeanetSim
