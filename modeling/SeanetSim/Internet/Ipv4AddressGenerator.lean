import SeanetSim.Internet.UdpReceive

/-!
# Allocated addresses

`Ipv4AddressGenerator` keeps the addresses that have been allocated as a list of ranges.  However
the addresses come, the ranges stay in order and apart and hold exactly what has been added
(`addAllocated_spec`); they are never joined, so two of them may touch.  The two queries answer
with `false` for what is allocated, against their comments, and the one for networks does not look
inside the ranges (`queries_spec`).
-/

namespace SeanetSim

namespace Ipv4AddressGenerator

/-- A range of allocated addresses, with both ends. -/
structure Entry where
  addrLow : UInt32
  addrHigh : UInt32
deriving DecidableEq

/-- `m_entries` of the implementation, and whether it runs in test mode. -/
structure Impl where
  entries : List Entry
  test : Bool
deriving DecidableEq

/-- A new generator after `TestMode`. -/
def testMode : Impl := ⟨[], true⟩

/-- The loop of `AddAllocated`: the answer and the ranges, and `false` on a collision. -/
def addLoop (addr : UInt32) : List Entry → Bool × List Entry
  | [] => (true, [⟨addr, addr⟩])
  | i :: rest =>
    if i.addrLow ≤ addr ∧ addr ≤ i.addrHigh then (false, i :: rest)
    else if addr < i.addrLow - 1 then (true, ⟨addr, addr⟩ :: i :: rest)
    else if addr = i.addrHigh + 1 then
      if rest.head?.any fun j => addr == j.addrLow then (false, i :: rest)
      else (true, ⟨i.addrLow, addr⟩ :: rest)
    else if addr = i.addrLow - 1 then (true, ⟨addr, i.addrHigh⟩ :: rest)
    else
      let (added, rest) := addLoop addr rest
      (added, i :: rest)

/-- `AddAllocated`; none where the program stops. -/
def Impl.addAllocated (g : Impl) (address : Ipv4Address) : Option (Bool × Impl) :=
  if address.address = 0 then none
  else
    let (added, entries) := addLoop address.address g.entries
    if !added && !g.test then none else some (added, { g with entries := entries })

def Impl.isAddressAllocated (g : Impl) (address : Ipv4Address) : Option Bool :=
  if address.address = 0 then none
  else some (!g.entries.any fun i => i.addrLow ≤ address.address && address.address ≤ i.addrHigh)

def Impl.isNetworkAllocated (g : Impl) (address : Ipv4Address) (mask : UInt32) : Option Bool :=
  if address.same (address.combineMask mask) then
    some (!g.entries.any fun i =>
      address.same ((Ipv4Address.ofUInt32 i.addrLow).combineMask mask) ||
        address.same ((Ipv4Address.ofUInt32 i.addrHigh).combineMask mask))
  else none

/-- The addresses are added one after the other. -/
def Impl.addAll (g : Impl) : List Ipv4Address → Option Impl
  | [] => some g
  | address :: rest => do
    let (_, g) ← g.addAllocated address
    g.addAll rest

/-! ## Ranges -/

/-- The address is in one of the ranges. -/
def Within (entries : List Entry) (addr : UInt32) : Prop :=
  ∃ i ∈ entries, i.addrLow ≤ addr ∧ addr ≤ i.addrHigh

/-- The ranges are in order and apart, and 0.0.0.0 is in none of them. -/
structure Ordered (entries : List Entry) : Prop where
  low_le : ∀ i ∈ entries, 0 < i.addrLow ∧ i.addrLow ≤ i.addrHigh
  pairwise : entries.Pairwise fun i j => i.addrHigh < j.addrLow

section Ranges

variable {entries rest : List Entry} {i : Entry} {addr a : UInt32}

@[simp] theorem within_cons :
    Within (i :: rest) a ↔ (i.addrLow ≤ a ∧ a ≤ i.addrHigh) ∨ Within rest a := by
  simp [Within]

theorem ordered_nil : Ordered [] := ⟨nofun, .nil⟩

theorem ordered_cons : Ordered (i :: rest) ↔
    (0 < i.addrLow ∧ i.addrLow ≤ i.addrHigh) ∧ (∀ j ∈ rest, i.addrHigh < j.addrLow) ∧
      Ordered rest := by
  constructor
  · rintro ⟨hlow, hpair⟩
    obtain ⟨hi, hrest⟩ := List.forall_mem_cons.1 hlow
    obtain ⟨hlt, hpair⟩ := List.pairwise_cons.1 hpair
    exact ⟨hi, hlt, hrest, hpair⟩
  · rintro ⟨hi, hlt, hrest, hpair⟩
    exact ⟨List.forall_mem_cons.2 ⟨hi, hrest⟩, List.pairwise_cons.2 ⟨hlt, hpair⟩⟩

/-- What is below every range is in none. -/
theorem not_within_of_lt (h : ∀ i ∈ entries, a < i.addrLow) : ¬ Within entries a :=
  fun ⟨i, hi, hle, _⟩ => absurd (h i hi) (UInt32.not_lt.2 hle)

/-- What the loop does to the ranges. -/
structure Adds (addr : UInt32) (entries : List Entry) (r : Bool × List Entry) : Prop where
  added : r.1 = true ↔ ¬ Within entries addr
  ordered : Ordered r.2
  within : ∀ a, Within r.2 a ↔ Within entries a ∨ a = addr
  /-- Ranges are never joined. -/
  length_le : entries.length ≤ r.2.length
  /-- What was below the address and all ranges still is. -/
  below : ∀ b, b < addr → (∀ i ∈ entries, b < i.addrLow) → ∀ i ∈ r.2, b < i.addrLow

theorem Adds.cons {r : Bool × List Entry} (h : Adds addr rest r) (hi : Ordered (i :: rest))
    (hlt : i.addrHigh < addr) : Adds addr (i :: rest) (r.1, i :: r.2) := by
  obtain ⟨hlow, hrest, -⟩ := ordered_cons.1 hi
  refine ⟨?_, ordered_cons.2 ⟨hlow, h.below _ hlt hrest, h.ordered⟩, fun a => ?_,
    Nat.succ_le_succ h.length_le, fun b hb hall => ?_⟩
  · rw [within_cons, h.added]
    grind
  · rw [within_cons, within_cons, h.within, or_assoc]
  · obtain ⟨hbi, hall⟩ := List.forall_mem_cons.1 hall
    exact List.forall_mem_cons.2 ⟨hbi, h.below b hb hall⟩

theorem Adds.collision (h : Ordered entries) (hin : Within entries addr) :
    Adds addr entries (false, entries) := by
  refine ⟨iff_of_false Bool.false_ne_true (not_not.2 hin), h, fun a => ?_, Nat.le_refl _,
    fun _ _ hall => hall⟩
  exact ⟨.inl, fun hor => hor.elim id fun heq => heq ▸ hin⟩

/-- The first range takes the address in. -/
theorem Adds.extend {j : Entry} (hnot : ¬ Within (i :: rest) addr) (hj : Ordered (j :: rest))
    (hsame : ∀ a, (j.addrLow ≤ a ∧ a ≤ j.addrHigh) ↔ (i.addrLow ≤ a ∧ a ≤ i.addrHigh) ∨ a = addr)
    (hbelow : ∀ b, b < addr → b < i.addrLow → b < j.addrLow) :
    Adds addr (i :: rest) (true, j :: rest) := by
  refine ⟨iff_of_true rfl hnot, hj, fun a => ?_, Nat.le_refl _, fun b hb hall => ?_⟩
  · rw [within_cons, within_cons, hsame, or_right_comm]
  · obtain ⟨hbi, hall⟩ := List.forall_mem_cons.1 hall
    exact List.forall_mem_cons.2 ⟨hbelow b hb hbi, hall⟩

/-- A new range in front of all others. -/
theorem Adds.insert (hne : addr ≠ 0) (h : Ordered entries) (hlt : ∀ i ∈ entries, addr < i.addrLow) :
    Adds addr entries (true, ⟨addr, addr⟩ :: entries) := by
  refine ⟨iff_of_true rfl (not_within_of_lt hlt), ordered_cons.2 ⟨⟨?_, UInt32.le_refl _⟩, hlt, h⟩,
    fun a => ?_, Nat.le_succ _, fun b hb hall => List.forall_mem_cons.2 ⟨hb, hall⟩⟩
  · grind
  · rw [within_cons, or_comm]
    grind

theorem addLoop_adds (hne : addr ≠ 0) (h : Ordered entries) :
    Adds addr entries (addLoop addr entries) := by
  induction entries with
  | nil => exact .insert hne h nofun
  | cons i rest ih =>
    obtain ⟨⟨hpos, hle⟩, hlt, hrest⟩ := ordered_cons.1 h
    have hall : addr < i.addrLow → ∀ j ∈ i :: rest, addr < j.addrLow := fun hi =>
      List.forall_mem_cons.2 ⟨hi, fun j hj => by grind⟩
    rw [addLoop]
    split_ifs with hin hbefore hbehind hnext hdown
    · exact .collision h (within_cons.2 (.inl hin))
    · exact .insert hne h (hall (by grind))
    · -- the next range begins with the address
      obtain ⟨j, hj, heq⟩ := (Option.any_eq_true _ _).1 hnext
      have hmem : j ∈ rest := List.mem_of_head? hj
      have hjlow := (ordered_cons.1 h).2.2.low_le j hmem
      rw [beq_iff_eq] at heq
      refine .collision h ⟨j, List.mem_cons_of_mem _ hmem, ?_⟩
      rw [heq]
      exact ⟨UInt32.le_refl _, hjlow.2⟩
    · -- the ranges behind this one begin behind the address
      have hgap : ∀ j ∈ rest, addr < j.addrLow := by
        cases rest with
        | nil => nofun
        | cons j rest =>
          obtain ⟨-, hbehind', -⟩ := ordered_cons.1 hrest
          have hjlow := hrest.low_le j List.mem_cons_self
          have hij := hlt j List.mem_cons_self
          have hj : addr < j.addrLow := by
            simp only [List.head?_cons, Option.any_some, beq_iff_eq] at hnext
            grind
          exact List.forall_mem_cons.2 ⟨hj, fun k hk => by grind⟩
      refine .extend ?_ (ordered_cons.2 ⟨⟨hpos, ?_⟩, hgap, hrest⟩) (fun a => ?_) fun _ _ hb => hb
      · rw [within_cons]
        exact fun hor => hor.elim hin (not_within_of_lt hgap)
      · grind
      · grind
    · have hless : addr < i.addrLow := by grind
      refine .extend (not_within_of_lt (hall hless)) (ordered_cons.2 ⟨⟨?_, ?_⟩, hlt, hrest⟩)
        (fun a => ?_) fun _ hb _ => hb
      · grind
      · grind
      · grind
    · exact (ih hrest).cons h (by grind)

end Ranges

/-! ## Runs -/

/-- The ranges hold exactly the addresses that have been added. -/
structure Impl.Holds (g : Impl) (adds : List Ipv4Address) : Prop where
  test : g.test = true
  ordered : Ordered g.entries
  within : ∀ x, Within g.entries x ↔ ∃ b ∈ adds, b.address = x

section Runs

variable {g : Impl} {adds : List Ipv4Address}

theorem holds_testMode : testMode.Holds [] :=
  ⟨rfl, ordered_nil, fun x => by simp [testMode, Within]⟩

theorem Impl.Holds.addAllocated (h : g.Holds adds) {a : Ipv4Address} (ha : a.address ≠ 0) :
    ∃ added g', g.addAllocated a = some (added, g') ∧
      (added = true ↔ ∀ b ∈ adds, b.address ≠ a.address) ∧ g'.Holds (adds ++ [a]) ∧
      g.entries.length ≤ g'.entries.length := by
  have hadds := addLoop_adds ha h.ordered
  refine ⟨(addLoop a.address g.entries).1, { g with entries := (addLoop a.address g.entries).2 },
    ?_, ?_, ⟨h.test, hadds.ordered, fun x => ?_⟩, hadds.length_le⟩
  · unfold Impl.addAllocated
    rw [if_neg ha]
    simp [h.test]
  · rw [hadds.added, h.within]
    simp
  · dsimp only
    rw [hadds.within, h.within]
    simp [or_and_right, exists_or, eq_comm]

theorem Impl.Holds.addAll (h : g.Holds adds) (more : List Ipv4Address)
    (hmore : ∀ b ∈ more, b.address ≠ 0) :
    ∃ g', g.addAll more = some g' ∧ g'.Holds (adds ++ more) := by
  induction more generalizing g adds with
  | nil => exact ⟨g, rfl, by rwa [List.append_nil]⟩
  | cons a more ih =>
    obtain ⟨ha, hmore⟩ := List.forall_mem_cons.1 hmore
    obtain ⟨added, g₁, hadd, -, hholds, -⟩ := h.addAllocated ha
    obtain ⟨g₂, hrest, hholds⟩ := ih hholds hmore
    rw [List.append_assoc] at hholds
    refine ⟨g₂, ?_, hholds⟩
    rw [Impl.addAll, hadd]
    exact hrest

end Runs

/-- After any addresses other than 0.0.0.0, one more is added, unless it has been before; the
ranges stay in order and apart, are never joined, and hold exactly what has been added. -/
theorem addAllocated_spec (adds : List Ipv4Address) (hadds : ∀ b ∈ adds, b.address ≠ 0)
    (a : Ipv4Address) :
    ∃ g, testMode.addAll adds = some g ∧
      (a.address = 0 → g.addAllocated a = none) ∧
      (a.address ≠ 0 → ∃ added g', g.addAllocated a = some (added, g') ∧
        (added = true ↔ ∀ b ∈ adds, b.address ≠ a.address) ∧ Ordered g'.entries ∧
        (∀ x, Within g'.entries x ↔ ∃ b ∈ adds ++ [a], b.address = x) ∧
        g.entries.length ≤ g'.entries.length) := by
  obtain ⟨g, hrun, hholds⟩ := holds_testMode.addAll adds hadds
  refine ⟨g, hrun, fun ha => if_pos ha, fun ha => ?_⟩
  obtain ⟨added, g', hadd, hadded, hholds', hlen⟩ := hholds.addAllocated ha
  exact ⟨added, g', hadd, hadded, hholds'.ordered, hholds'.within, hlen⟩

theorem addAllocated_spec_gap :
    ∃ g, testMode.addAll [.ofUInt32 1, .ofUInt32 3] = some g ∧
      ((Ipv4Address.ofUInt32 2).address = 0 → g.addAllocated (.ofUInt32 2) = none) ∧
      ((Ipv4Address.ofUInt32 2).address ≠ 0 → ∃ added g',
        g.addAllocated (.ofUInt32 2) = some (added, g') ∧
        (added = true ↔ ∀ b ∈ [Ipv4Address.ofUInt32 1, .ofUInt32 3],
          b.address ≠ (Ipv4Address.ofUInt32 2).address) ∧ Ordered g'.entries ∧
        (∀ x, Within g'.entries x ↔
          ∃ b ∈ [Ipv4Address.ofUInt32 1, .ofUInt32 3] ++ [.ofUInt32 2], b.address = x) ∧
        g.entries.length ≤ g'.entries.length) :=
  addAllocated_spec _ (by decide) _

/-- 0.0.0.2 between 0.0.0.1 and 0.0.0.3: the first range takes it in, and the two ranges touch. -/
theorem not_ranges_joined :
    ¬ ∀ (adds : List Ipv4Address) (g : Impl), testMode.addAll adds = some g →
      g.entries.Pairwise fun i j => i.addrHigh + 1 < j.addrLow := by
  intro h
  exact absurd (h [.ofUInt32 1, .ofUInt32 3, .ofUInt32 2] ⟨[⟨1, 2⟩, ⟨3, 3⟩], true⟩ (by decide))
    (by decide)

/-! ## Queries -/

/-- The network has an address inside a range, and no range begins or ends in it. -/
def OnlyInside (entries : List Entry) (network : Ipv4Address) (mask : UInt32) : Prop :=
  (∃ x, Within entries x ∧ x &&& mask = network.address) ∧
    ∀ i ∈ entries, i.addrLow &&& mask ≠ network.address ∧ i.addrHigh &&& mask ≠ network.address

section Queries

variable {g : Impl} {adds : List Ipv4Address}

theorem Impl.Holds.isAddressAllocated (h : g.Holds adds) {a : Ipv4Address} (ha : a.address ≠ 0) :
    ∃ answer, g.isAddressAllocated a = some answer ∧
      (answer = true ↔ ¬ ∃ b ∈ adds, b.address = a.address) := by
  refine ⟨_, if_neg ha, ?_⟩
  rw [← h.within]
  simp [Within]

/-- The answer for a network tells whether no range begins or ends in it. -/
theorem isNetworkAllocated_answer (g : Impl) {network : Ipv4Address} {mask : UInt32}
    (hnetwork : network.address &&& mask = network.address) :
    ∃ answer, g.isNetworkAllocated network mask = some answer ∧
      (answer = true ↔ ∀ i ∈ g.entries,
        i.addrLow &&& mask ≠ network.address ∧ i.addrHigh &&& mask ≠ network.address) := by
  refine ⟨_, if_pos (Ipv4Address.same_iff.2 hnetwork.symm), ?_⟩
  have hends (x : UInt32) : network.same ((Ipv4Address.ofUInt32 x).combineMask mask) = false ↔
      x &&& mask ≠ network.address := by
    rw [← Bool.not_eq_true, Ipv4Address.same_iff]
    exact not_congr eq_comm
  simp only [Bool.not_eq_true', List.any_eq_false, Bool.or_eq_true, not_or, Bool.not_eq_true, hends]

theorem Impl.Holds.isNetworkAllocated (h : g.Holds adds) {network : Ipv4Address} {mask : UInt32}
    (hnetwork : network.address &&& mask = network.address) :
    ∃ answer, g.isNetworkAllocated network mask = some answer ∧
      ((answer = true ↔ ∃ b ∈ adds, b.address &&& mask = network.address) ↔
        OnlyInside g.entries network mask) := by
  obtain ⟨answer, hanswer, hiff⟩ := isNetworkAllocated_answer g hnetwork
  refine ⟨answer, hanswer, ?_⟩
  have hallocated : (∃ b ∈ adds, b.address &&& mask = network.address) ↔
      ∃ x, Within g.entries x ∧ x &&& mask = network.address := by
    simp only [h.within]
    constructor
    · rintro ⟨b, hb, heq⟩
      exact ⟨b.address, ⟨b, hb, rfl⟩, heq⟩
    · rintro ⟨x, ⟨b, hb, rfl⟩, heq⟩
      exact ⟨b, hb, heq⟩
  rw [hallocated, hiff, OnlyInside]
  constructor
  · intro hright
    by_cases hinside : ∃ x, Within g.entries x ∧ x &&& mask = network.address
    · exact ⟨hinside, hright.2 hinside⟩
    · -- without an allocated address no range has an end in the network
      refine absurd (hright.1 fun i hi => ?_) hinside
      have hle := (h.ordered.low_le i hi).2
      exact ⟨fun heq => hinside ⟨i.addrLow, ⟨i, hi, UInt32.le_refl _, hle⟩, heq⟩,
        fun heq => hinside ⟨i.addrHigh, ⟨i, hi, hle, UInt32.le_refl _⟩, heq⟩⟩
  · exact fun ⟨hinside, hends⟩ => iff_of_true hends hinside

end Queries

/-- After any addresses have been added, the answer for an address is never right; the answer for a
network is right exactly if the network has an allocated address and no range begins or ends in
it. -/
theorem queries_spec {adds : List Ipv4Address} (hadds : ∀ b ∈ adds, b.address ≠ 0)
    {a network : Ipv4Address} {mask : UInt32} (ha : a.address ≠ 0)
    (hnetwork : network.address &&& mask = network.address) :
    ∃ g answer networkAnswer, testMode.addAll adds = some g ∧
      g.isAddressAllocated a = some answer ∧
      g.isNetworkAllocated network mask = some networkAnswer ∧
      ¬ (answer = true ↔ ∃ b ∈ adds, b.address = a.address) ∧
      ((networkAnswer = true ↔ ∃ b ∈ adds, b.address &&& mask = network.address) ↔
        OnlyInside g.entries network mask) := by
  obtain ⟨g, hrun, hholds⟩ := holds_testMode.addAll adds hadds
  obtain ⟨answer, hanswer, hiff⟩ := hholds.isAddressAllocated ha
  obtain ⟨networkAnswer, hnetworkAnswer, hiff'⟩ := hholds.isNetworkAllocated hnetwork
  refine ⟨g, answer, networkAnswer, hrun, hanswer, hnetworkAnswer, ?_, hiff'⟩
  rw [hiff]
  exact fun heq => (not_iff_self heq).elim

/-- 10.0.0.1 to 10.0.0.3, and the network of 10.0.0.2 alone. -/
theorem queries_spec_three :
    ∃ g answer networkAnswer,
      testMode.addAll [.ofUInt32 0x0a000001, .ofUInt32 0x0a000002, .ofUInt32 0x0a000003] = some g ∧
      g.isAddressAllocated (.ofUInt32 0x0a000001) = some answer ∧
      g.isNetworkAllocated (.ofUInt32 0x0a000002) 0xffffffff = some networkAnswer ∧
      ¬ (answer = true ↔ ∃ b ∈ [Ipv4Address.ofUInt32 0x0a000001, .ofUInt32 0x0a000002,
        .ofUInt32 0x0a000003], b.address = (Ipv4Address.ofUInt32 0x0a000001).address) ∧
      ((networkAnswer = true ↔ ∃ b ∈ [Ipv4Address.ofUInt32 0x0a000001, .ofUInt32 0x0a000002,
          .ofUInt32 0x0a000003],
          b.address &&& 0xffffffff = (Ipv4Address.ofUInt32 0x0a000002).address) ↔
        OnlyInside g.entries (.ofUInt32 0x0a000002) 0xffffffff) :=
  queries_spec (by decide) (by decide) (by decide)

/-- With 10.0.0.1 to 10.0.0.3 allocated the answer is `false` for 10.0.0.1, and it is `true` for
the network of 10.0.0.2 alone: neither answer can stand for what is allocated. -/
theorem not_queries_right :
    ¬ ∃ allocated : Bool, ∀ (adds : List Ipv4Address) (a network : Ipv4Address) (mask : UInt32)
      (g : Impl) (answer networkAnswer : Bool), testMode.addAll adds = some g →
      g.isAddressAllocated a = some answer →
      g.isNetworkAllocated network mask = some networkAnswer →
      (answer = allocated ↔ ∃ b ∈ adds, b.address = a.address) ∧
        (networkAnswer = allocated ↔ ∃ b ∈ adds, b.address &&& mask = network.address) := by
  rintro ⟨allocated, h⟩
  obtain ⟨haddress, hnetwork⟩ := h
    [.ofUInt32 0x0a000001, .ofUInt32 0x0a000002, .ofUInt32 0x0a000003] (.ofUInt32 0x0a000001)
    (.ofUInt32 0x0a000002) 0xffffffff ⟨[⟨0x0a000001, 0x0a000003⟩], true⟩ false true
    (by decide) (by decide) (by decide)
  have hfalse : false = allocated := haddress.2 (by decide)
  have htrue : true = allocated := hnetwork.2 (by decide)
  exact Bool.false_ne_true (hfalse.trans htrue.symm)

end Ipv4AddressGenerator

end SeanetSim
