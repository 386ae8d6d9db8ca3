import Mathlib.Data.Fintype.Prod
import SeanetSim.Lib.Run
import SeanetSim.NixVectorRouting.Forwarding

/-!
# Flushing the caches of all nodes

A notification marks the caches as dirty, and the next call of `RouteOutput` or `RouteInput` flushes
those of all nodes, with the map from addresses to nodes.  `m_totalNeighbors`, from which the width
of an index is taken, is not among them.  Here the topology changes between the calls, and every
vector remembers the widths that have been added to it: `SimulationState.extracts_encoded` says
which changes do no harm.
-/

namespace SeanetSim

/-- How a vector has been built: the nodes of its path with the bits added for them, and the number
of flushes before. -/
structure Origin (N : Type) where
  widths : List (N × UInt32)
  flushes : ℕ

/-- A packet with its vector. -/
structure PacketInFlight (N A : Type) where
  destination : A
  nixVector : NixVector
  origin : Origin N

/-- The global state, and what it has to do with the vectors: where those in `m_nixCache` come from,
how often the caches have been flushed, and whether the width of a node has changed since. -/
structure SimulationState (N D C A : Type) [DecidableEq D] where
  net : Network N D C A
  isCacheDirty : Bool
  routing : N → NixRouting D A
  ipv4AddressToNodeMap : List (A × N)
  packets : List (PacketInFlight N A)
  origins : N → A → Origin N
  flushes : ℕ
  widthsChanged : Bool

/-- A packet may be lost or duplicated on the way, and any node may be the next. -/
inductive SimulationEvent (N D C A : Type) [DecidableEq D]
  | changeTopology (net : Network N D C A)
  | notify
  | routeOutput (n : N) (destination : A) (oif : Option D)
  | routeInput (n : N) (packet : ℕ)
  | copy (packet : ℕ)
  | lose (packet : ℕ)

namespace Network

variable {N D C A : Type} [DecidableEq D] (net : Network N D C A)

/-- The width of the index of a node when it is extracted. -/
def width (n : N) : UInt32 := NixVector.bitCount (net.findTotalNeighbors n)

/-- The width of the index of a node when it is added. -/
def encodedWidth (n : N) : UInt32 :=
  NixVector.bitCount (UInt32.ofNat (net.encodedNeighbors n).length)

/-- `BuildIpv4AddressToNodeMap` -/
def buildIpv4AddressToNodeMap : List (A × N) :=
  net.addressedDevices.map fun d => (net.address d, net.node d)

variable [DecidableEq N]

/-- The nodes with the bits that `BuildNixVector` adds for them. -/
def addedWidths : ℕ → (N → Option N) → N → N → List (N × UInt32)
  | 0, _, _, _ => []
  | fuel + 1, parentVector, source, dest =>
    if source = dest then []
    else match parentVector dest with
      | none => []
      | some parentNode =>
        (parentNode,
            NixVector.bitCount (net.scanDevices dest (net.devices parentNode) 0 0).2) ::
          addedWidths fuel parentVector source parentNode

/-- The nodes with the bits that `GetNixVector` adds for them. -/
def widthsTo (source : N) (destNode : Option N) (oif : Option D) : List (N × UInt32) :=
  match destNode with
  | none => []
  | some destNode =>
    match net.bfs source destNode oif with
    | none => []
    | some (_, parentVector) =>
      net.addedWidths (net.nodes.length + 1) parentVector source destNode

end Network

namespace SimulationState

variable {N D C A : Type} [DecidableEq N] [DecidableEq D] [DecidableEq A]

def start (net : Network N D C A) : SimulationState N D C A where
  net := net
  isCacheDirty := false
  routing := fun _ => NixRouting.initial
  ipv4AddressToNodeMap := []
  packets := []
  origins := fun _ _ => ⟨[], 0⟩
  flushes := 0
  widthsChanged := false

omit [DecidableEq N] [DecidableEq A] in
/-- `CheckCacheStateAndFlush` -/
def checkCacheStateAndFlush (s : SimulationState N D C A) : SimulationState N D C A :=
  if s.isCacheDirty then
    { s with
      isCacheDirty := false
      routing := fun n => (s.routing n).flush
      ipv4AddressToNodeMap := []
      flushes := s.flushes + 1
      widthsChanged := false }
  else s

omit [DecidableEq N] [DecidableEq A] in
/-- The map that `GetNodeByIp` looks into, built if it is empty. -/
def filledMap (s : SimulationState N D C A) : List (A × N) :=
  if s.ipv4AddressToNodeMap.isEmpty then s.net.buildIpv4AddressToNodeMap
  else s.ipv4AddressToNodeMap

omit [DecidableEq N] in
def getNodeByIp (s : SimulationState N D C A) (dest : A) : Option N :=
  (s.filledMap.find? fun entry => entry.1 = dest).map Prod.snd

/-- Where the vector comes from that `RouteOutput` uses: from the cache, or it is built. -/
def originOf (s : SimulationState N D C A) (n : N) (destination : A) (oif : Option D) : Origin N :=
  match (s.routing n).nixCache destination with
  | some (some _) => s.origins n destination
  | _ => ⟨s.net.widthsTo n (s.getNodeByIp destination) oif, s.flushes⟩

omit [DecidableEq N] [DecidableEq A] in
/-- The bits that a node extracts. -/
def numberOfBits (s : SimulationState N D C A) (n : N) : UInt32 :=
  NixVector.bitCount (s.net.countNeighbors n (s.routing n)).totalNeighbors

def step (s : SimulationState N D C A) :
    SimulationEvent N D C A → Option (SimulationState N D C A)
  | .changeTopology net =>
    some { s with
      net := net
      widthsChanged := s.widthsChanged || !(net.nodes.all fun n => s.net.width n == net.width n) }
  | .notify => some { s with isCacheDirty := true }
  | .routeOutput n destination oif => do
    let s := s.checkCacheStateAndFlush
    let (routing, out) ← s.net.routeOutput s.getNodeByIp n destination oif (s.routing n)
    let origin := s.originOf n destination oif
    some { s with
      routing := Function.update s.routing n routing
      ipv4AddressToNodeMap := match (s.routing n).nixCache destination with
        | some (some _) => s.ipv4AddressToNodeMap
        | _ => s.filledMap
      origins := Function.update s.origins n (Function.update (s.origins n) destination origin)
      packets := s.packets ++
        (out.nixVector.toList.map fun nixVector => ⟨destination, nixVector, origin⟩) }
  | .routeInput n packet => do
    let s := s.checkCacheStateAndFlush
    let p ← s.packets[packet]?
    let (routing, _, nixVector) ←
      s.net.routeInput n p.destination p.nixVector (s.routing n)
    some { s with
      routing := Function.update s.routing n routing
      packets := s.packets.set packet { p with nixVector := nixVector } }
  | .copy packet => do
    let p ← s.packets[packet]?
    some { s with packets := s.packets ++ [p] }
  | .lose packet => some { s with packets := s.packets.eraseIdx packet }

/-- The call extracts as many bits as have been added for the node, from a vector built after the
last flush. -/
def ExtractsEncoded (s : SimulationState N D C A) : SimulationEvent N D C A → Prop
  | .routeOutput n destination oif =>
    let s := s.checkCacheStateAndFlush
    let origin := s.originOf n destination oif
    origin.flushes = s.flushes → ∀ bits, (n, bits) ∈ origin.widths → s.numberOfBits n = bits
  | .routeInput n packet =>
    let s := s.checkCacheStateAndFlush
    ∀ p, s.packets[packet]? = some p → p.origin.flushes = s.flushes →
      ∀ bits, (n, bits) ∈ p.origin.widths → s.numberOfBits n = bits
  | _ => True

omit [DecidableEq N] [DecidableEq A] in
/-- A change keeps the width of the nodes that have counted their neighbours, and encoder and
decoder agree on the widths of the new topology; a call follows a notification if the width of a
node has changed since the last flush. -/
def Harmless (s : SimulationState N D C A) : SimulationEvent N D C A → Prop
  | .changeTopology net =>
    (∀ n, (s.routing n).totalNeighbors ≠ 0 → s.net.width n = net.width n) ∧
      ∀ n, net.encodedWidth n = net.width n
  | .routeOutput .. | .routeInput .. => s.isCacheDirty = true ∨ s.widthsChanged = false
  | _ => True

/-- Widths as the nodes have them now. -/
def UpToDate (net : Network N D C A) (widths : List (N × UInt32)) : Prop :=
  ∀ entry ∈ widths, entry.2 = net.width entry.1

/-- Counted neighbours and, unless a width has changed, the vectors built since the last flush are
up to date. -/
structure Current (s : SimulationState N D C A) : Prop where
  agree : ∀ n, s.net.encodedWidth n = s.net.width n
  count : ∀ n, (s.routing n).totalNeighbors = 0 ∨
    NixVector.bitCount (s.routing n).totalNeighbors = s.net.width n
  cached : s.widthsChanged = false → ∀ n destination nixVector,
    (s.routing n).nixCache destination = some (some nixVector) →
    (s.origins n destination).flushes = s.flushes →
    UpToDate s.net (s.origins n destination).widths
  packets : s.widthsChanged = false → ∀ p ∈ s.packets, p.origin.flushes = s.flushes →
    UpToDate s.net p.origin.widths
  past : ∀ p ∈ s.packets, p.origin.flushes ≤ s.flushes
  pastCached : ∀ n destination, (s.origins n destination).flushes ≤ s.flushes

section Proof

variable {s t : SimulationState N D C A} {n : N}

omit [DecidableEq A] in
theorem upToDate_addedWidths {net : Network N D C A}
    (hagree : ∀ n, net.encodedWidth n = net.width n) (fuel : ℕ) (parentVector : N → Option N)
    (source dest : N) : UpToDate net (net.addedWidths fuel parentVector source dest) := by
  induction fuel generalizing dest with
  | zero => exact fun _ h => absurd h List.not_mem_nil
  | succ fuel ih =>
    unfold Network.addedWidths
    split_ifs with hdest
    · exact fun _ h => absurd h List.not_mem_nil
    · split
      · exact fun _ h => absurd h List.not_mem_nil
      · rename_i parentNode _
        intro entry hentry
        rcases List.mem_cons.1 hentry with rfl | hentry
        · rw [Network.scanDevices_devices]
          exact hagree parentNode
        · exact ih parentNode entry hentry

omit [DecidableEq A] in
theorem upToDate_widthsTo {net : Network N D C A}
    (hagree : ∀ n, net.encodedWidth n = net.width n) (source : N) (destNode : Option N)
    (oif : Option D) : UpToDate net (net.widthsTo source destNode oif) := by
  unfold Network.widthsTo
  split
  · exact fun _ h => absurd h List.not_mem_nil
  · split
    · exact fun _ h => absurd h List.not_mem_nil
    · exact upToDate_addedWidths hagree _ _ _ _

omit [DecidableEq N] [DecidableEq A] in
theorem current_start {net : Network N D C A}
    (hagree : ∀ n, net.encodedWidth n = net.width n) : (start net).Current where
  agree := hagree
  count := fun _ => .inl rfl
  cached := fun _ _ _ _ h => by cases h
  packets := fun _ _ h => absurd h List.not_mem_nil
  past := fun _ h => absurd h List.not_mem_nil
  pastCached := fun _ _ => Nat.le_refl _

omit [DecidableEq N] [DecidableEq A] in
theorem Current.checkCacheStateAndFlush (h : s.Current) :
    s.checkCacheStateAndFlush.Current := by
  unfold SimulationState.checkCacheStateAndFlush
  split_ifs with hdirty
  · refine ⟨h.agree, h.count, fun _ _ _ _ hcached => (by cases hcached), fun _ p hp heq => ?_,
      fun p hp => Nat.le_succ_of_le (h.past p hp),
      fun n destination => Nat.le_succ_of_le (h.pastCached n destination)⟩
    have hle := h.past p hp
    dsimp only at heq
    omega
  · exact h

omit [DecidableEq N] [DecidableEq A] in
/-- After a flush no width has changed yet. -/
theorem widthsChanged_of_harmless (h : s.isCacheDirty = true ∨ s.widthsChanged = false) :
    s.checkCacheStateAndFlush.widthsChanged = false := by
  unfold SimulationState.checkCacheStateAndFlush
  split_ifs with hdirty
  · rfl
  · exact h.resolve_left hdirty

omit [DecidableEq N] [DecidableEq A] in
theorem Current.numberOfBits (h : s.Current) (n : N) : s.numberOfBits n = s.net.width n := by
  unfold SimulationState.numberOfBits Network.countNeighbors
  split_ifs with hzero
  · rfl
  · exact (h.count n).resolve_left hzero

theorem Current.originOf (h : s.Current) (hsame : s.widthsChanged = false) (destination : A)
    (oif : Option D) (hflushes : (s.originOf n destination oif).flushes = s.flushes) :
    UpToDate s.net (s.originOf n destination oif).widths := by
  unfold SimulationState.originOf at hflushes ⊢
  split at hflushes
  · rename_i nixVector hcached
    exact h.cached hsame n destination nixVector hcached hflushes
  · exact upToDate_widthsTo h.agree _ _ _

theorem Current.originOf_flushes (h : s.Current) (n : N) (destination : A) (oif : Option D) :
    (s.originOf n destination oif).flushes ≤ s.flushes := by
  unfold SimulationState.originOf
  split
  · exact h.pastCached n destination
  · exact Nat.le_refl _

omit [DecidableEq N] [DecidableEq A] in
/-- Counting the neighbours keeps what is counted up to date. -/
theorem count_of_counted {net : Network N D C A} {before after : UInt32}
    (h : before = 0 ∨ NixVector.bitCount before = net.width n)
    (hafter : after = before ∨ before = 0 ∧ after = net.findTotalNeighbors n) :
    after = 0 ∨ NixVector.bitCount after = net.width n := by
  rcases hafter with rfl | ⟨_, rfl⟩
  · exact h
  · exact .inr rfl

omit [DecidableEq A] in
theorem Current.count_update (h : s.Current) {routing : NixRouting D A}
    (hn : routing.totalNeighbors = 0 ∨
      NixVector.bitCount routing.totalNeighbors = s.net.width n) :
    ∀ m, (Function.update s.routing n routing m).totalNeighbors = 0 ∨
      NixVector.bitCount (Function.update s.routing n routing m).totalNeighbors = s.net.width m :=
  (Function.forall_update_iff s.routing fun m routing => routing.totalNeighbors = 0 ∨
    NixVector.bitCount routing.totalNeighbors = s.net.width m).2 ⟨hn, fun m _ => h.count m⟩

theorem Current.extractsEncoded (h : s.Current) {e : SimulationEvent N D C A}
    (hharmless : s.Harmless e) : s.ExtractsEncoded e := by
  cases e with
  | routeOutput n destination oif =>
    have hs := h.checkCacheStateAndFlush
    have hsame := widthsChanged_of_harmless hharmless
    intro hflushes bits hbits
    have hdate := hs.originOf hsame destination oif hflushes
    rw [hs.numberOfBits]
    exact (hdate _ hbits).symm
  | routeInput n packet =>
    have hs := h.checkCacheStateAndFlush
    have hsame := widthsChanged_of_harmless hharmless
    intro p hp hflushes bits hbits
    have hdate := hs.packets hsame p (List.mem_of_getElem? hp) hflushes
    rw [hs.numberOfBits]
    exact (hdate _ hbits).symm
  | changeTopology net => trivial
  | notify => trivial
  | copy packet => trivial
  | lose packet => trivial

theorem Current.changeTopology (h : s.Current) {net : Network N D C A}
    (hharmless : s.Harmless (.changeTopology net)) :
    ∀ t, s.step (.changeTopology net) = some t → t.Current := by
  intro t hstep
  cases hstep
  have ⟨hkeep, hagree⟩ := hharmless
  have hwidths : (s.widthsChanged || !(net.nodes.all fun n => s.net.width n == net.width n)) =
      false → s.widthsChanged = false ∧ ∀ n, s.net.width n = net.width n := by
    intro hfalse
    have ⟨hsame, hall⟩ := Bool.or_eq_false_iff.1 hfalse
    rw [Bool.not_eq_false', List.all_eq_true] at hall
    exact ⟨hsame, fun n => eq_of_beq (hall n (net.mem_nodes n))⟩
  have hdate : (∀ n, s.net.width n = net.width n) → ∀ widths, UpToDate s.net widths →
      UpToDate net widths :=
    fun hsame widths hdate entry hentry => (hdate entry hentry).trans (hsame entry.1)
  constructor
  · exact hagree
  · intro n
    by_cases hzero : (s.routing n).totalNeighbors = 0
    · exact .inl hzero
    · exact .inr (((h.count n).resolve_left hzero).trans (hkeep n hzero))
  · intro hfalse n destination nixVector hcached hflushes
    have ⟨hsame, hall⟩ := hwidths hfalse
    exact hdate hall _ (h.cached hsame n destination nixVector hcached hflushes)
  · intro hfalse p hp hflushes
    have ⟨hsame, hall⟩ := hwidths hfalse
    exact hdate hall _ (h.packets hsame p hp hflushes)
  · exact h.past
  · exact h.pastCached

theorem Current.routeOutput (h : s.Current) (hsame : s.widthsChanged = false) {destination : A}
    {oif : Option D} {routing : NixRouting D A} {out : RouteOutput D A} (map : List (A × N))
    (hcall : s.net.routeOutput s.getNodeByIp n destination oif (s.routing n) =
      some (routing, out)) :
    Current { s with
      routing := Function.update s.routing n routing
      ipv4AddressToNodeMap := map
      origins := Function.update s.origins n
        (Function.update (s.origins n) destination (s.originOf n destination oif))
      packets := s.packets ++ (out.nixVector.toList.map fun nixVector =>
        ⟨destination, nixVector, s.originOf n destination oif⟩) } := by
  have ⟨⟨v, looked⟩, hlookup, _⟩ := Option.bind_eq_some_iff.1 hcall
  have ⟨htotal, hother⟩ := Network.lookupNixVector_state hlookup
  have ⟨hnix, hcount, _, _⟩ := Network.routeOutput_state hlookup hcall
  rw [htotal] at hcount
  constructor
  · exact h.agree
  · exact h.count_update (count_of_counted (h.count n) hcount)
  · intro _ m destination' nixVector hcached hflushes
    dsimp only at hcached hflushes ⊢
    by_cases heq : m = n
    · subst heq
      rw [Function.update_self] at hcached hflushes ⊢
      by_cases hdest : destination' = destination
      · subst hdest
        rw [Function.update_self] at hflushes ⊢
        exact h.originOf hsame destination' oif hflushes
      · rw [Function.update_of_ne hdest] at hflushes ⊢
        rw [hnix, hother destination' hdest] at hcached
        exact h.cached hsame m destination' nixVector hcached hflushes
    · rw [Function.update_of_ne heq] at hcached hflushes ⊢
      exact h.cached hsame m destination' nixVector hcached hflushes
  · intro _ p hp hflushes
    rcases List.mem_append.1 hp with hp | hp
    · exact h.packets hsame p hp hflushes
    · have ⟨nixVector, _, heq⟩ := List.mem_map.1 hp
      subst heq
      exact h.originOf hsame destination oif hflushes
  · intro p hp
    rcases List.mem_append.1 hp with hp | hp
    · exact h.past p hp
    · have ⟨nixVector, _, heq⟩ := List.mem_map.1 hp
      subst heq
      exact h.originOf_flushes n destination oif
  · apply (Function.forall_update_iff s.origins fun _ origins => ∀ destination',
      (origins destination').flushes ≤ s.flushes).2
    refine ⟨?_, fun m _ => h.pastCached m⟩
    apply (Function.forall_update_iff (s.origins n) fun _ origin => origin.flushes ≤ s.flushes).2
    exact ⟨h.originOf_flushes n destination oif, fun destination' _ => h.pastCached n destination'⟩

theorem Current.routeInput (h : s.Current) (hsame : s.widthsChanged = false) {packet : ℕ}
    {p : PacketInFlight N A} (hp : s.packets[packet]? = some p) {routing : NixRouting D A}
    {rtentry : Ipv4Route D A} {nixVector : NixVector}
    (hcall : s.net.routeInput n p.destination p.nixVector (s.routing n) =
      some (routing, rtentry, nixVector)) :
    Current { s with
      routing := Function.update s.routing n routing
      packets := s.packets.set packet { p with nixVector := nixVector } } := by
  have ⟨hcount, hnix⟩ := Network.routeInput_state hcall
  have hmem := List.mem_of_getElem? hp
  constructor
  · exact h.agree
  · apply h.count_update
    rw [hcount]
    exact count_of_counted (h.count n) (Network.countNeighbors_cases _)
  · intro _
    apply (Function.forall_update_iff s.routing fun m routing => ∀ destination nixVector,
      routing.nixCache destination = some (some nixVector) →
        (s.origins m destination).flushes = s.flushes →
        UpToDate s.net (s.origins m destination).widths).2
    rw [hnix]
    exact ⟨h.cached hsame n, fun m _ => h.cached hsame m⟩
  · intro _ q hq hflushes
    rcases List.mem_or_eq_of_mem_set hq with hq | heq
    · exact h.packets hsame q hq hflushes
    · subst heq
      exact h.packets hsame p hmem hflushes
  · intro q hq
    rcases List.mem_or_eq_of_mem_set hq with hq | heq
    · exact h.past q hq
    · subst heq
      exact h.past p hmem
  · exact h.pastCached

theorem Current.step (h : s.Current) {e : SimulationEvent N D C A} (hharmless : s.Harmless e)
    (hstep : s.step e = some t) : t.Current := by
  cases e with
  | changeTopology net => exact h.changeTopology hharmless t hstep
  | notify =>
    cases hstep
    exact ⟨h.agree, h.count, h.cached, h.packets, h.past, h.pastCached⟩
  | routeOutput n destination oif =>
    have ⟨⟨routing, out⟩, hcall, heq⟩ := Option.bind_eq_some_iff.1 hstep
    cases heq
    exact h.checkCacheStateAndFlush.routeOutput (widthsChanged_of_harmless hharmless) _ hcall
  | routeInput n packet =>
    have ⟨p, hp, hrest⟩ := Option.bind_eq_some_iff.1 hstep
    have ⟨⟨routing, rtentry, nixVector⟩, hcall, heq⟩ := Option.bind_eq_some_iff.1 hrest
    cases heq
    exact h.checkCacheStateAndFlush.routeInput (widthsChanged_of_harmless hharmless) hp hcall
  | copy packet =>
    have ⟨p, hp, heq⟩ := Option.bind_eq_some_iff.1 hstep
    cases heq
    have hmem : ∀ q ∈ s.packets ++ [p], q ∈ s.packets := by
      intro q hq
      rcases List.mem_append.1 hq with hq | hq
      · exact hq
      · rw [List.mem_singleton.1 hq]
        exact List.mem_of_getElem? hp
    exact ⟨h.agree, h.count, h.cached, fun hsame q hq => h.packets hsame q (hmem q hq),
      fun q hq => h.past q (hmem q hq), h.pastCached⟩
  | lose packet =>
    cases hstep
    have hmem : ∀ q ∈ s.packets.eraseIdx packet, q ∈ s.packets :=
      fun _ hq => List.mem_of_mem_eraseIdx hq
    exact ⟨h.agree, h.count, h.cached, fun hsame q hq => h.packets hsame q (hmem q hq),
      fun q hq => h.past q (hmem q hq), h.pastCached⟩

theorem current_run {net : Network N D C A} (hagree : ∀ n, net.encodedWidth n = net.width n)
    {trace : List (SimulationState N D C A × SimulationEvent N D C A)}
    (hrun : Run (fun s e t => s.step e = some t) (start net) trace s)
    (hharmless : ∀ p ∈ trace, p.1.Harmless p.2) :
    (∀ p ∈ trace, p.1.Current) ∧ s.Current :=
  hrun.invariant_along (current_start hagree) (fun _ _ _ h => h.step) hharmless

/-- In a run of harmless steps every call, also one that would come next, extracts as many bits as
have been added for the node. -/
theorem extracts_encoded (net : Network N D C A)
    (hagree : ∀ n, net.encodedWidth n = net.width n)
    {trace : List (SimulationState N D C A × SimulationEvent N D C A)}
    (hrun : Run (fun s e t => s.step e = some t) (start net) trace s)
    (hharmless : ∀ p ∈ trace, p.1.Harmless p.2) :
    (∀ p ∈ trace, p.1.ExtractsEncoded p.2) ∧ ∀ e, s.Harmless e → s.ExtractsEncoded e := by
  have ⟨hbefore, hs⟩ := current_run hagree hrun hharmless
  exact ⟨fun p hp => (hbefore p hp).extractsEncoded (hharmless p hp),
    fun e he => hs.extractsEncoded he⟩

end Proof

end SimulationState

/-- Two nodes with one link or with three; every node has a device for each link. -/
def linkedPair (three : Bool) : Network Bool (Bool × Fin 3) (Fin 3) (Bool × Fin 3) where
  nodes := [false, true]
  devices := fun n => ((List.finRange 3).filter fun c => three || c.val = 0).map (Prod.mk n)
  node := Prod.fst
  isBridge := fun _ => false
  bridgePorts := fun _ => []
  channel := fun d => some d.2
  channelDevices := fun c => if three || c.val = 0 then [(false, c), (true, c)] else []
  isLinkUp := fun _ => true
  isUp := fun _ => true
  address := fun d => d
  isLoopback := fun _ => false
  depth := 1
  loopFree := by revert three; decide
  mem_nodes := mem_false_true
  node_devices := by revert three; decide
  attached := by revert three; decide
  distinct := by revert three; decide

open SimulationState

/-- A node has routed a packet over its only link.  Two links are added and announced, but the node
still extracts one bit where two are added. -/
theorem not_extracts_encoded : ¬ ∀ (net : Network Bool (Bool × Fin 3) (Fin 3) (Bool × Fin 3))
    (trace : List (SimulationState Bool (Bool × Fin 3) (Fin 3) (Bool × Fin 3) ×
      SimulationEvent Bool (Bool × Fin 3) (Fin 3) (Bool × Fin 3)))
    (s : SimulationState Bool (Bool × Fin 3) (Fin 3) (Bool × Fin 3)),
    Run (fun s e t => s.step e = some t) (start net) trace s → ∀ e, s.ExtractsEncoded e := by
  intro h
  have hrun : ([.routeOutput false (true, 0) none, .changeTopology (linkedPair true),
      .notify].foldlM SimulationState.step (start (linkedPair false))).map (fun s =>
        (s.checkCacheStateAndFlush.numberOfBits false,
          (s.checkCacheStateAndFlush.originOf false (true, 0) none).widths,
          decide ((s.checkCacheStateAndFlush.originOf false (true, 0) none).flushes =
            s.checkCacheStateAndFlush.flushes))) = some (1, [(false, 2)], true) := by decide
  have ⟨s, hs, hstate⟩ := Option.map_eq_some_iff.1 hrun
  have ⟨trace, hreached⟩ := Run.of_foldlM hs
  have hextracts := h _ trace s hreached (.routeOutput false (true, 0) none)
  have hbits : s.checkCacheStateAndFlush.numberOfBits false = 1 := congrArg Prod.fst hstate
  have hwidths : (s.checkCacheStateAndFlush.originOf false (true, 0) none).widths = [(false, 2)] :=
    congrArg (fun x => x.2.1) hstate
  have hfresh := of_decide_eq_true (congrArg (fun x => x.2.2) hstate)
  have htwo := hextracts hfresh 2 (by rw [hwidths]; exact List.mem_cons_self)
  rw [hbits] at htwo
  exact absurd htwo (by decide)

/-- With three links from the start the widths stay, also after a flush. -/
theorem extracts_encoded_linkedPair :
    ∃ (trace : List (SimulationState Bool (Bool × Fin 3) (Fin 3) (Bool × Fin 3) ×
        SimulationEvent Bool (Bool × Fin 3) (Fin 3) (Bool × Fin 3)))
      (s : SimulationState Bool (Bool × Fin 3) (Fin 3) (Bool × Fin 3)),
      Run (fun s e t => s.step e = some t) (start (linkedPair true)) trace s ∧
        s.isCacheDirty = true ∧ s.ExtractsEncoded (.routeOutput false (true, 0) none) := by
  have hsome : ((start (linkedPair true)).step (.routeOutput false (true, 0) none)).isSome = true :=
    by decide
  have ⟨s, hs⟩ := Option.isSome_iff_exists.1 hsome
  have hnotify : s.step .notify = some { s with isCacheDirty := true } := rfl
  have hstart : Run (fun s e t => SimulationState.step s e = some t) (start (linkedPair true)) []
      (start (linkedPair true)) := .nil
  have hrun := (hstart.snoc hs).snoc hnotify
  refine ⟨_, _, hrun, rfl,
    (SimulationState.extracts_encoded (linkedPair true) (by decide) hrun ?_).2 _ (.inl rfl)⟩
  intro p hp
  rcases List.mem_append.1 hp with hp | hp
  · rw [List.mem_singleton.1 hp]
    exact .inr rfl
  · rw [List.mem_singleton.1 hp]
    trivial

end SeanetSim
