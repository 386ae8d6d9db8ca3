import SeanetSim.Lib.Run
import SeanetSim.NixVectorRouting.NixDecode

/-!
# `Ipv4NixVectorRouting::RouteOutput` and its caches

A node keeps the nix-vectors that it has built and the routes that it has used, by destination.  The
cached route is replaced where another output device is asked for, the cached vector is not:
`Network.routeOutput_transparent_iff` says which sequences of calls do not notice the caches.
-/

namespace SeanetSim

inductive SocketErrno
  | notError
  | noRouteToHost
deriving DecidableEq

/-- `gateway` is `none` where no neighbour has the index: the address is not initialised. -/
structure Ipv4Route (D A : Type) where
  source : A
  gateway : Option A
  destination : A
  outputDevice : D
deriving DecidableEq

/-- What the routing protocol of a node keeps: `m_nixCache`, which may have null pointers,
`m_ipv4RouteCache` and `m_totalNeighbors`. -/
structure NixRouting (D A : Type) where
  nixCache : A → Option (Option NixVector)
  ipv4RouteCache : A → Option (Ipv4Route D A)
  totalNeighbors : UInt32

/-- The route and the vector for the packet, and the error if one is set. -/
structure RouteOutput (D A : Type) where
  rtentry : Option (Ipv4Route D A)
  nixVector : Option NixVector
  sockerr : Option SocketErrno

/-- The arguments of a call of `RouteOutput`. -/
structure Call (D A : Type) where
  destination : A
  oif : Option D

namespace NixRouting

variable {D A : Type}

def initial : NixRouting D A := ⟨fun _ => none, fun _ => none, 0⟩

/-- `FlushNixCache` and `FlushIpv4RouteCache`. -/
def flush (s : NixRouting D A) : NixRouting D A :=
  { s with nixCache := fun _ => none, ipv4RouteCache := fun _ => none }

end NixRouting

namespace Network

variable {N D C A : Type} [DecidableEq D] (net : Network N D C A)

/-- `m_totalNeighbors`, counted if it is 0. -/
def countNeighbors (n : N) (s : NixRouting D A) : NixRouting D A :=
  if s.totalNeighbors = 0 then { s with totalNeighbors := net.findTotalNeighbors n } else s

/-- The given device, or the one with the number; `none` is a device without an interface on the
node. -/
def chooseDevice (n : N) (oif : Option D) (index : ℕ) : Option D :=
  match oif with
  | none => (net.devices n)[index]?
  | some device => if device ∈ net.devices n then some device else none

/-- The route for an index. -/
def buildRoute (n : N) (destination : A) (oif : Option D) (nodeIndex : UInt32) :
    Option (Ipv4Route D A) :=
  let found := net.findNetDeviceForNixIndex n nodeIndex
  (net.chooseDevice n oif found.1).map fun device =>
    { source := net.address device
      gateway := found.2.map net.address
      destination := destination
      outputDevice := device }

section Route

variable {net} {n : N}

theorem chooseDevice_spec {oif : Option D} {index : ℕ} {device : D}
    (h : net.chooseDevice n oif index = some device) :
    device ∈ net.devices n ∧ ∀ d, oif = some d → device = d := by
  unfold chooseDevice at h
  split at h
  · exact ⟨List.mem_of_getElem? h, fun d hd => by cases hd⟩
  · split_ifs at h with hmem
    cases h
    exact ⟨hmem, fun d hd => Option.some.inj hd⟩

theorem buildRoute_spec {destination : A} {oif : Option D} {nodeIndex : UInt32}
    {r : Ipv4Route D A} (h : net.buildRoute n destination oif nodeIndex = some r) :
    r.destination = destination ∧ r.source = net.address r.outputDevice ∧
      r.outputDevice ∈ net.devices n ∧ ∀ d, oif = some d → r.outputDevice = d := by
  have ⟨device, hdevice, hr⟩ := Option.map_eq_some_iff.1 h
  subst hr
  exact ⟨rfl, rfl, chooseDevice_spec hdevice⟩

theorem exists_buildRoute {device : D} (hdevice : device ∈ net.devices n) {oif : Option D}
    (hoif : ∀ d, oif = some d → d ∈ net.devices n) (destination : A) (nodeIndex : UInt32) :
    ∃ r, net.buildRoute n destination oif nodeIndex = some r := by
  have hchoose : ∃ d, net.chooseDevice n oif (net.findNetDeviceForNixIndex n nodeIndex).1 =
      some d := by
    cases oif with
    | none => exact ⟨_, List.getElem?_eq_getElem (findNetDeviceForNixIndex_lt hdevice nodeIndex)⟩
    | some d => exact ⟨d, if_pos (hoif d rfl)⟩
  have ⟨d, hd⟩ := hchoose
  exact ⟨_, Option.map_eq_some_iff.2 ⟨d, hd, rfl⟩⟩

theorem countNeighbors_totalNeighbors {s : NixRouting D A}
    (h : s.totalNeighbors = 0 ∨ s.totalNeighbors = net.findTotalNeighbors n) :
    (net.countNeighbors n s).totalNeighbors = net.findTotalNeighbors n := by
  unfold countNeighbors
  split_ifs with hzero
  · rfl
  · exact h.resolve_left hzero

/-- The neighbours are counted once. -/
theorem countNeighbors_cases (s : NixRouting D A) :
    (net.countNeighbors n s).totalNeighbors = s.totalNeighbors ∨
      s.totalNeighbors = 0 ∧
        (net.countNeighbors n s).totalNeighbors = net.findTotalNeighbors n := by
  unfold countNeighbors
  split_ifs with hzero
  · exact .inr ⟨hzero, rfl⟩
  · exact .inl rfl

theorem countNeighbors_nixCache (s : NixRouting D A) :
    (net.countNeighbors n s).nixCache = s.nixCache := by
  unfold countNeighbors
  split_ifs <;> rfl

theorem countNeighbors_ipv4RouteCache (s : NixRouting D A) :
    (net.countNeighbors n s).ipv4RouteCache = s.ipv4RouteCache := by
  unfold countNeighbors
  split_ifs <;> rfl

end Route

variable [DecidableEq N] [DecidableEq A]

/-- The vector in the cache, or a new one, which is inserted if the cache has no entry. -/
def lookupNixVector (getNodeByIp : A → Option N) (n : N) (destination : A) (oif : Option D)
    (s : NixRouting D A) : Option (Option NixVector × NixRouting D A) :=
  match s.nixCache destination with
  | some (some nixVector) => some (some nixVector, s)
  | some none => do
    let built ← net.getNixVectorTo n (getNodeByIp destination) oif
    some (built, s)
  | none => do
    let built ← net.getNixVectorTo n (getNodeByIp destination) oif
    some (built, { s with nixCache := Function.update s.nixCache destination (some built) })

/-- `RouteOutput`, once the caches have been flushed if necessary; `none` where it stops with a
fatal error. -/
def routeOutput (getNodeByIp : A → Option N) (n : N) (destination : A) (oif : Option D)
    (s : NixRouting D A) : Option (NixRouting D A × RouteOutput D A) := do
  let (nixVectorInCache, s) ← net.lookupNixVector getNodeByIp n destination oif s
  match nixVectorInCache with
  | none => some (s, ⟨none, none, some .noRouteToHost⟩)
  | some nixVector => do
    let s := net.countNeighbors n s
    let numberOfBits := NixVector.bitCount s.totalNeighbors
    let (nodeIndex, nixVectorForPacket) ← nixVector.extractNeighborIndex numberOfBits
    match (s.ipv4RouteCache destination).filter fun rtentry => some rtentry.outputDevice = oif with
    | some rtentry => some (s, ⟨some rtentry, some nixVectorForPacket, none⟩)
    | none => do
      let rtentry ← net.buildRoute n destination oif nodeIndex
      some ({ s with
          ipv4RouteCache := Function.update s.ipv4RouteCache destination (some rtentry) },
        ⟨some rtentry, some nixVectorForPacket, some .notError⟩)

/-! ## Calls at a node, one after the other -/

/-- The state after some calls, if all of them return. -/
def after (n : N) (calls : List (Call D A)) : Option (NixRouting D A) :=
  calls.foldlM (fun s c => (net.routeOutput net.getNodeByIp n c.destination c.oif s).map Prod.fst)
    NixRouting.initial

/-- The route that a call returns and the vector that it attaches. -/
def answer (n : N) (c : Call D A) (s : NixRouting D A) :
    Option (Option (Ipv4Route D A) × Option NixVector) :=
  (net.routeOutput net.getNodeByIp n c.destination c.oif s).map fun r =>
    (r.2.rtentry, r.2.nixVector)

/-- After the calls before it, a call answers as with empty caches. -/
def Transparent (n : N) (before : List (Call D A)) (c : Call D A) : Prop :=
  ∀ s, net.after n before = some s → net.answer n c s = net.answer n c s.flush

/-- What `GetNixVector` returns for a call. -/
def nixVectorOf (n : N) (c : Call D A) : Option NixVector :=
  (net.getNixVector n c.destination c.oif).join

/-- The route for the vector of a call. -/
def routeOf (n : N) (c : Call D A) : Option (Ipv4Route D A) := do
  let nixVector ← net.nixVectorOf n c
  let (nodeIndex, _) ← net.takeIndex n nixVector
  net.buildRoute n c.destination c.oif nodeIndex

omit [DecidableEq N] [DecidableEq D] in
/-- The first of the calls for a destination. -/
def firstCall (calls : List (Call D A)) (destination : A) : Option (Call D A) :=
  calls.find? fun c => c.destination = destination

/-- The last of the calls for a destination that have a vector. -/
def lastCall (n : N) (calls : List (Call D A)) (destination : A) : Option (Call D A) :=
  calls.reverse.find? fun c => c.destination = destination && (net.nixVectorOf n c).isSome

/-- The first call for the destination had no vector or the same one, and the route of the last one
that had a vector is not for this output device or has the same gateway. -/
structure CachesAgree (n : N) (before : List (Call D A)) (c : Call D A) : Prop where
  vector : ∀ first, firstCall before c.destination = some first →
    net.nixVectorOf n first = none ∨ net.nixVectorOf n first = net.nixVectorOf n c
  gateway : ∀ last r r', net.lastCall n before c.destination = some last →
    net.routeOf n last = some r → net.routeOf n c = some r' → some r.outputDevice = c.oif →
    r.gateway = r'.gateway

section Spec

variable {net} {n : N} {c : Call D A} {before : List (Call D A)} {s t : NixRouting D A}

theorem getNixVector_eq_some (n : N) (c : Call D A) :
    net.getNixVectorTo n (net.getNodeByIp c.destination) c.oif = some (net.nixVectorOf n c) := by
  unfold nixVectorOf getNixVector
  cases net.getNixVectorTo_cases n (net.getNodeByIp c.destination) c.oif with
  | inl h => rw [h]; rfl
  | inr h =>
    have ⟨_, _, _, _, _, _, _, h⟩ := h
    rw [h]
    rfl

omit [DecidableEq N] [DecidableEq D] in
theorem firstCall_concat (calls : List (Call D A)) (c : Call D A) (destination : A) :
    firstCall (calls ++ [c]) destination =
      (firstCall calls destination).or
        (if c.destination = destination then some c else none) := by
  rw [firstCall, List.find?_append, List.find?_singleton, firstCall]
  simp

theorem lastCall_concat (calls : List (Call D A)) (c : Call D A) (destination : A) :
    net.lastCall n (calls ++ [c]) destination =
      if c.destination = destination ∧ (net.nixVectorOf n c).isSome then some c
      else net.lastCall n calls destination := by
  rw [lastCall, List.reverse_append, List.reverse_singleton, List.singleton_append]
  split_ifs with hc
  · exact List.find?_cons_of_pos (by rw [hc.2, decide_eq_true hc.1]; rfl)
  · exact List.find?_cons_of_neg (by simpa using hc)

/-- The state after some calls that have answered as with empty caches. -/
structure Reflects (net : Network N D C A) (n : N) (before : List (Call D A))
    (s : NixRouting D A) : Prop where
  count : s.totalNeighbors = 0 ∨ s.totalNeighbors = net.findTotalNeighbors n
  vectors : ∀ destination, s.nixCache destination =
    (firstCall before destination).map (net.nixVectorOf n)
  routes : ∀ destination, s.ipv4RouteCache destination =
    (net.lastCall n before destination).bind (net.routeOf n)
  served : ∀ c ∈ before, (net.nixVectorOf n c).isSome → ∃ r, net.routeOf n c = some r

/-- The vector that a call uses. -/
def usedVector (net : Network N D C A) (n : N) (before : List (Call D A)) (c : Call D A) :
    Option NixVector :=
  ((firstCall before c.destination).bind (net.nixVectorOf n)).or (net.nixVectorOf n c)

theorem reflects_initial : net.Reflects n [] NixRouting.initial where
  count := .inl rfl
  vectors := fun _ => rfl
  routes := fun _ => rfl
  served := fun _ hc => absurd hc List.not_mem_nil

theorem Reflects.flush (h : net.Reflects n before s) : net.Reflects n [] s.flush where
  count := h.count
  vectors := fun _ => rfl
  routes := fun _ => rfl
  served := fun _ hc => absurd hc List.not_mem_nil

theorem Reflects.lookupNixVector (h : net.Reflects n before s) (c : Call D A) :
    ∃ s', net.lookupNixVector net.getNodeByIp n c.destination c.oif s =
        some (net.usedVector n before c, s') ∧
      s'.totalNeighbors = s.totalNeighbors ∧ s'.ipv4RouteCache = s.ipv4RouteCache ∧
      ∀ destination, s'.nixCache destination =
        (firstCall (before ++ [c]) destination).map (net.nixVectorOf n) := by
  have hcached := h.vectors c.destination
  unfold Network.lookupNixVector usedVector
  cases hfirst : firstCall before c.destination with
  | none =>
    rw [hfirst] at hcached
    rw [hcached]
    dsimp only [Option.map_none]
    rw [getNixVector_eq_some]
    refine ⟨_, rfl, rfl, rfl, fun destination => ?_⟩
    rw [firstCall_concat]
    by_cases heq : c.destination = destination
    · rw [← heq, hfirst, if_pos rfl]
      exact Function.update_self ..
    · rw [if_neg heq, Option.or_none, ← h.vectors]
      exact Function.update_of_ne (fun h => heq h.symm) _ _
  | some first =>
    have hkeep : ∀ destination, s.nixCache destination =
        (firstCall (before ++ [c]) destination).map (net.nixVectorOf n) := by
      intro destination
      rw [firstCall_concat, h.vectors]
      by_cases heq : c.destination = destination
      · rw [← heq, hfirst]
        rfl
      · rw [if_neg heq, Option.or_none]
    rw [hfirst, Option.map_some] at hcached
    rw [hcached, Option.bind_some]
    cases hvector : net.nixVectorOf n first with
    | none =>
      dsimp only
      rw [getNixVector_eq_some]
      exact ⟨s, rfl, rfl, rfl, hkeep⟩
    | some nixVector => exact ⟨s, rfl, rfl, rfl, hkeep⟩

/-- The route that is in the cache for the output device. -/
def cachedRoute (net : Network N D C A) (n : N) (before : List (Call D A)) (c : Call D A) :
    Option (Ipv4Route D A) :=
  ((net.lastCall n before c.destination).bind (net.routeOf n)).filter
    fun rtentry => some rtentry.outputDevice = c.oif

/-- What a call answers after the calls before it. -/
def answerAfter (net : Network N D C A) (n : N) (before : List (Call D A)) (c : Call D A) :
    Option (Option (Ipv4Route D A) × Option NixVector) :=
  match net.usedVector n before c with
  | none => some (none, none)
  | some nixVector => do
    let (nodeIndex, nixVectorForPacket) ← net.takeIndex n nixVector
    ((net.cachedRoute n before c).or (net.buildRoute n c.destination c.oif nodeIndex)).map
      fun rtentry => (some rtentry, some nixVectorForPacket)

theorem Reflects.answer (h : net.Reflects n before s) (c : Call D A) :
    net.answer n c s = net.answerAfter n before c := by
  have ⟨s', hlookup, htotal, hroutes, _⟩ := h.lookupNixVector c
  have hcached : (s.ipv4RouteCache c.destination).filter
      (fun rtentry => some rtentry.outputDevice = c.oif) = net.cachedRoute n before c := by
    rw [h.routes]
    rfl
  unfold Network.answer Network.routeOutput answerAfter
  rw [hlookup]
  simp only [Option.bind_eq_bind, Option.bind_some]
  cases net.usedVector n before c with
  | none => rfl
  | some nixVector =>
    dsimp only
    rw [countNeighbors_totalNeighbors (htotal ▸ h.count), countNeighbors_ipv4RouteCache, hroutes,
      hcached]
    unfold takeIndex
    cases nixVector.extractNeighborIndex _ with
    | none => rfl
    | some taken =>
      simp only [Option.bind_some]
      cases net.cachedRoute n before c with
      | some rtentry => rfl
      | none =>
        simp only [Option.none_or]
        cases net.buildRoute n c.destination c.oif taken.1 <;> rfl

/-- What looking for a vector leaves in the caches. -/
theorem lookupNixVector_state {getNodeByIp : A → Option N} {destination : A} {oif : Option D}
    {v : Option NixVector} (h : net.lookupNixVector getNodeByIp n destination oif s = some (v, t)) :
    t.totalNeighbors = s.totalNeighbors ∧
      ∀ destination', destination' ≠ destination →
        t.nixCache destination' = s.nixCache destination' := by
  unfold Network.lookupNixVector at h
  split at h
  · cases h
    exact ⟨rfl, fun _ _ => rfl⟩
  · have ⟨built, _, heq⟩ := Option.bind_eq_some_iff.1 h
    cases heq
    exact ⟨rfl, fun _ _ => rfl⟩
  · have ⟨built, _, heq⟩ := Option.bind_eq_some_iff.1 h
    cases heq
    exact ⟨rfl, fun _ hne => Function.update_of_ne hne _ _⟩

/-- What a call leaves in the caches. -/
theorem routeOutput_state {getNodeByIp : A → Option N} {destination : A} {oif : Option D}
    {v : Option NixVector} {s' : NixRouting D A} {out : RouteOutput D A}
    (hlookup : net.lookupNixVector getNodeByIp n destination oif s = some (v, s'))
    (h : net.routeOutput getNodeByIp n destination oif s = some (t, out)) :
    t.nixCache = s'.nixCache ∧
      (t.totalNeighbors = s'.totalNeighbors ∨
        s'.totalNeighbors = 0 ∧ t.totalNeighbors = net.findTotalNeighbors n) ∧
      (out.rtentry = none → t.ipv4RouteCache = s'.ipv4RouteCache) ∧
      ∀ r, out.rtentry = some r →
        t.ipv4RouteCache = Function.update s'.ipv4RouteCache destination (some r) := by
  unfold Network.routeOutput at h
  rw [hlookup] at h
  simp only [Option.bind_eq_bind, Option.bind_some] at h
  cases v with
  | none =>
    cases h
    exact ⟨rfl, .inl rfl, fun _ => rfl, fun r hr => by cases hr⟩
  | some nixVector =>
    dsimp only at h
    have ⟨taken, _, hrest⟩ := Option.bind_eq_some_iff.1 h
    split at hrest
    · rename_i rtentry hcached
      cases hrest
      refine ⟨countNeighbors_nixCache s', countNeighbors_cases s', fun hr => (by cases hr),
        fun r hr => ?_⟩
      cases hr
      have ⟨hroute, _⟩ := Option.filter_eq_some_iff.1 hcached
      rw [countNeighbors_ipv4RouteCache] at hroute ⊢
      rw [← hroute, Function.update_eq_self]
    · have ⟨rtentry, _, heq⟩ := Option.bind_eq_some_iff.1 hrest
      cases heq
      refine ⟨countNeighbors_nixCache s', countNeighbors_cases s', fun hr => (by cases hr),
        fun r hr => ?_⟩
      cases hr
      dsimp only
      rw [countNeighbors_ipv4RouteCache]

theorem usedVector_nil (c : Call D A) : net.usedVector n [] c = net.nixVectorOf n c := rfl

theorem cachedRoute_nil (c : Call D A) : net.cachedRoute n [] c = none := rfl

/-- The answer with empty caches has the route for the vector of the call. -/
theorem rtentry_of_answerAfter_nil {c : Call D A} {rtentry : Option (Ipv4Route D A)}
    {nixVector : Option NixVector} (h : net.answerAfter n [] c = some (rtentry, nixVector)) :
    rtentry = net.routeOf n c ∧ ((net.nixVectorOf n c).isSome → ∃ r, net.routeOf n c = some r) := by
  rw [answerAfter, usedVector_nil, cachedRoute_nil] at h
  unfold routeOf
  cases hvector : net.nixVectorOf n c with
  | none =>
    rw [hvector] at h
    cases h
    exact ⟨rfl, fun hfalse => by cases hfalse⟩
  | some used =>
    rw [hvector] at h
    have ⟨taken, htaken, hrest⟩ := Option.bind_eq_some_iff.1 h
    have ⟨r, hr, heq⟩ := Option.map_eq_some_iff.1 hrest
    cases heq
    rw [Option.none_or] at hr
    simp only [Option.bind_eq_bind, Option.bind_some, htaken]
    exact ⟨hr.symm, fun _ => ⟨r, hr⟩⟩

/-- A call that answers as with empty caches keeps the correspondence. -/
theorem Reflects.step (h : net.Reflects n before s)
    (hsame : net.answer n c s = net.answer n c s.flush) {out : RouteOutput D A}
    (hcall : net.routeOutput net.getNodeByIp n c.destination c.oif s = some (t, out)) :
    net.Reflects n (before ++ [c]) t := by
  have ⟨s', hlookup, htotal, hroutes, hvectors⟩ := h.lookupNixVector c
  have ⟨hnix, hcount, hnone, hsome⟩ := routeOutput_state hlookup hcall
  have hanswer : net.answerAfter n [] c = some (out.rtentry, out.nixVector) := by
    rw [← h.flush.answer, ← hsame, Network.answer, hcall]
    rfl
  have ⟨hroute, hserved⟩ := rtentry_of_answerAfter_nil hanswer
  constructor
  · rcases hcount with hkeep | ⟨_, hfind⟩
    · rw [hkeep, htotal]
      exact h.count
    · exact .inr hfind
  · intro destination
    rw [hnix, hvectors]
  · intro destination
    rw [lastCall_concat]
    cases hvector : net.nixVectorOf n c with
    | none =>
      have hrt : out.rtentry = none := by
        rw [hroute, routeOf, hvector]
        rfl
      rw [hnone hrt, hroutes, h.routes, if_neg (by simp)]
    | some nixVector =>
      have ⟨r, hr⟩ := hserved (by rw [hvector]; rfl)
      rw [hsome r (hroute.trans hr), hroutes]
      by_cases heq : c.destination = destination
      · rw [if_pos ⟨heq, rfl⟩, ← heq, Function.update_self, Option.bind_some, hr]
      · rw [if_neg (fun hand => heq hand.1), Function.update_of_ne (fun h => heq h.symm), h.routes]
  · intro c' hc'
    rcases List.mem_append.1 hc' with hc' | hc'
    · exact h.served c' hc'
    · rw [List.mem_singleton.1 hc']
      exact hserved

/-! ## When the caches make no difference -/

theorem routeOf_eq_some {r : Ipv4Route D A} (h : net.routeOf n c = some r) :
    ∃ nixVector taken, net.nixVectorOf n c = some nixVector ∧
      net.takeIndex n nixVector = some taken ∧
      net.buildRoute n c.destination c.oif taken.1 = some r := by
  have ⟨nixVector, hvector, hrest⟩ := Option.bind_eq_some_iff.1 h
  have ⟨taken, htaken, hbuild⟩ := Option.bind_eq_some_iff.1 hrest
  exact ⟨nixVector, taken, hvector, htaken, hbuild⟩

theorem lastCall_destination {last : Call D A} {destination : A}
    (h : net.lastCall n before destination = some last) : last.destination = destination := by
  have hp := List.find?_some h
  simp only [Bool.and_eq_true, decide_eq_true_eq] at hp
  exact hp.1

/-- A route in the cache is the one that would be built if it has the same gateway. -/
theorem cachedRoute_or_iff (hoif : ∀ d, c.oif = some d → d ∈ net.devices n)
    {nodeIndex : UInt32}
    (hbuild : net.routeOf n c = net.buildRoute n c.destination c.oif nodeIndex) :
    (net.cachedRoute n before c).or (net.buildRoute n c.destination c.oif nodeIndex) =
        net.buildRoute n c.destination c.oif nodeIndex ↔
      ∀ last r r', net.lastCall n before c.destination = some last →
        net.routeOf n last = some r → net.routeOf n c = some r' → some r.outputDevice = c.oif →
        r.gateway = r'.gateway := by
  cases hcached : net.cachedRoute n before c with
  | none =>
    rw [Option.none_or]
    refine ⟨fun _ last r r' hlast hr _ hdevice => ?_, fun _ => rfl⟩
    have hsome : net.cachedRoute n before c = some r := by
      rw [cachedRoute, hlast, Option.bind_some, hr]
      exact Option.filter_eq_some_iff.2 ⟨rfl, decide_eq_true hdevice⟩
    cases hcached.symm.trans hsome
  | some r =>
    rw [Option.some_or]
    have ⟨hlastRoute, hdevice⟩ := Option.filter_eq_some_iff.1 hcached
    have ⟨last, hlast, hr⟩ := Option.bind_eq_some_iff.1 hlastRoute
    have hdevice := of_decide_eq_true hdevice
    have ⟨r', hr'⟩ := exists_buildRoute (hoif _ hdevice.symm) hoif c.destination nodeIndex
    have ⟨_, _, _, _, hlastBuild⟩ := routeOf_eq_some hr
    have ⟨hdest, hsource, _, _⟩ := buildRoute_spec hlastBuild
    have ⟨hdest', hsource', _, hgiven⟩ := buildRoute_spec hr'
    have hdevice' := hgiven _ hdevice.symm
    rw [hr']
    constructor
    · intro heq last₁ r₁ r₁' hlast₁ hr₁ hr₁' _
      cases hlast.symm.trans hlast₁
      cases hr.symm.trans hr₁
      cases (hbuild.trans hr').symm.trans hr₁'
      cases heq
      rfl
    · intro hgateway
      have hgw := hgateway last r r' hlast hr (hbuild.trans hr') hdevice
      rw [Option.some_inj]
      cases r
      cases r'
      dsimp only at hdest hsource hdest' hsource' hdevice' hgw
      rw [hdest, lastCall_destination hlast, hsource, hgw, hdest', hsource', hdevice']

omit [DecidableEq N] [DecidableEq A] in
theorem takeIndex_inj {v w v' : NixVector} {i j : UInt32} (hv : net.takeIndex n v = some (i, v'))
    (hw : net.takeIndex n w = some (j, v')) : v = w := by
  have ⟨_, hused⟩ := NixVector.extractNeighborIndex_used hv
  have ⟨_, hused'⟩ := NixVector.extractNeighborIndex_used hw
  have heq := hused.symm.trans hused'
  cases v
  cases w
  simpa using heq

theorem usedVector_eq_iff :
    net.usedVector n before c = net.nixVectorOf n c ↔
      ∀ first, firstCall before c.destination = some first →
        net.nixVectorOf n first = none ∨ net.nixVectorOf n first = net.nixVectorOf n c := by
  unfold usedVector
  cases firstCall before c.destination with
  | none => simp
  | some first =>
    rw [Option.bind_some]
    cases hvector : net.nixVectorOf n first with
    | none => simp [hvector]
    | some nixVector => simp [hvector]

/-- With the vector of the call only the route can differ. -/
theorem answerAfter_of_used (hoif : ∀ d, c.oif = some d → d ∈ net.devices n)
    (hused : net.usedVector n before c = net.nixVectorOf n c) :
    net.answerAfter n before c = net.answerAfter n [] c ↔
      ∀ last r r', net.lastCall n before c.destination = some last →
        net.routeOf n last = some r → net.routeOf n c = some r' → some r.outputDevice = c.oif →
        r.gateway = r'.gateway := by
  rw [answerAfter, answerAfter, hused, usedVector_nil, cachedRoute_nil]
  have hvacuous : net.routeOf n c = none → ∀ last r r',
      net.lastCall n before c.destination = some last → net.routeOf n last = some r →
      net.routeOf n c = some r' → some r.outputDevice = c.oif → r.gateway = r'.gateway :=
    fun hnone _ _ _ _ _ hr' => by cases hnone.symm.trans hr'
  cases hvector : net.nixVectorOf n c with
  | none => exact iff_of_true rfl (hvacuous (by rw [routeOf, hvector]; rfl))
  | some nixVector =>
    dsimp only
    cases htaken : net.takeIndex n nixVector with
    | none =>
      refine iff_of_true rfl (hvacuous ?_)
      rw [routeOf, hvector]
      simp [htaken]
    | some taken =>
      have hbuild : net.routeOf n c = net.buildRoute n c.destination c.oif taken.1 := by
        rw [routeOf, hvector]
        simp [htaken]
      rw [← cachedRoute_or_iff hoif hbuild]
      simp only [Option.bind_eq_bind, Option.bind_some, Option.none_or]
      have hinj : Function.Injective
          fun rtentry : Ipv4Route D A => (some rtentry, some taken.2) := by
        intro x y hxy
        exact Option.some.inj (congrArg Prod.fst hxy)
      exact (Option.map_injective hinj).eq_iff

theorem Reflects.answer_eq_iff (h : net.Reflects n before s)
    (hoif : ∀ d, c.oif = some d → d ∈ net.devices n) :
    net.answer n c s = net.answer n c s.flush ↔ net.CachesAgree n before c := by
  rw [h.answer, h.flush.answer]
  by_cases hused : net.usedVector n before c = net.nixVectorOf n c
  · rw [answerAfter_of_used hoif hused]
    exact ⟨fun hgateway => ⟨usedVector_eq_iff.1 hused, hgateway⟩, fun hagree => hagree.gateway⟩
  · refine iff_of_false (fun heq => ?_) fun hagree => hused (usedVector_eq_iff.2 hagree.vector)
    apply hused
    -- the vector of the first call is used, which that call has taken its index from
    cases hfirst : firstCall before c.destination with
    | none => rw [usedVector, hfirst, Option.bind_none, Option.none_or]
    | some first =>
      cases hvector : net.nixVectorOf n first with
      | none => rw [usedVector, hfirst, Option.bind_some, hvector, Option.none_or]
      | some nixVector =>
        have hmem := List.mem_of_find?_eq_some hfirst
        have ⟨r, hr⟩ := h.served first hmem (by rw [hvector]; rfl)
        have ⟨v, taken, hv, htaken, hbuilt⟩ := routeOf_eq_some hr
        cases hvector.symm.trans hv
        have ⟨_, _, hdevice, _⟩ := buildRoute_spec hbuilt
        have ⟨r', hr'⟩ := exists_buildRoute hdevice hoif c.destination taken.1
        have huse : net.usedVector n before c = some nixVector := by
          rw [usedVector, hfirst, Option.bind_some, hvector, Option.some_or]
        have hsome : ∃ x, (net.cachedRoute n before c).or
            (net.buildRoute n c.destination c.oif taken.1) = some x := by
          rw [hr']
          cases net.cachedRoute n before c with
          | none => exact ⟨r', rfl⟩
          | some x => exact ⟨x, rfl⟩
        have ⟨x, hx⟩ := hsome
        rw [answerAfter, answerAfter, huse, usedVector_nil, cachedRoute_nil] at heq
        simp only [htaken, Option.bind_eq_bind, Option.bind_some, hx, Option.map_some,
          Option.none_or] at heq
        cases hown : net.nixVectorOf n c with
        | none =>
          rw [hown] at heq
          cases heq
        | some own =>
          rw [hown] at heq
          have ⟨taken', htaken', hrest⟩ := Option.bind_eq_some_iff.1 heq.symm
          have ⟨y, _, hpair⟩ := Option.map_eq_some_iff.1 hrest
          have hsame : taken'.2 = taken.2 := Option.some.inj (congrArg Prod.snd hpair)
          have htaken'' : net.takeIndex n own = some (taken'.1, taken.2) := by
            rw [htaken', ← hsame]
          rw [huse, takeIndex_inj htaken htaken'']

theorem after_concat (calls : List (Call D A)) (c : Call D A) :
    net.after n (calls ++ [c]) = (net.after n calls).bind fun s =>
      (net.routeOutput net.getNodeByIp n c.destination c.oif s).map Prod.fst := by
  unfold after
  rw [List.foldlM_append]
  simp

theorem reflects_after
    (hsame : ∀ pre c post, before = pre ++ c :: post → net.Transparent n pre c)
    (hs : net.after n before = some s) : net.Reflects n before s := by
  induction before using List.reverseRecOn generalizing s with
  | nil =>
    cases hs
    exact reflects_initial
  | append_singleton pre c ih =>
    rw [after_concat] at hs
    have ⟨s', hs', hcall⟩ := Option.bind_eq_some_iff.1 hs
    have ⟨out, hout, heq⟩ := Option.map_eq_some_iff.1 hcall
    have hpre : net.Reflects n pre s' := by
      apply ih _ hs'
      intro pre' c' post' hsplit
      apply hsame pre' c' (post' ++ [c])
      rw [hsplit, List.append_assoc, List.cons_append]
    cases heq
    exact hpre.step (hsame pre c [] rfl s' hs') hout

/-- A sequence of calls does not notice the caches exactly if every call that is made agrees with
the calls before it for its destination. -/
theorem routeOutput_transparent_iff (net : Network N D C A) (n : N) (calls : List (Call D A))
    (hoif : ∀ c ∈ calls, ∀ d, c.oif = some d → d ∈ net.devices n) :
    (∀ before c rest, calls = before ++ c :: rest → net.Transparent n before c) ↔
      ∀ before c rest, calls = before ++ c :: rest → (net.after n before).isSome →
        net.CachesAgree n before c := by
  apply forall_prefix_iff (Q := fun before c => (net.after n before).isSome →
    net.CachesAgree n before c)
  intro before c rest hcalls hbefore
  have hc : c ∈ calls := by
    rw [hcalls]
    exact List.mem_append_right before List.mem_cons_self
  constructor
  · intro htransparent hsome
    have ⟨s, hs⟩ := Option.isSome_iff_exists.1 hsome
    exact ((reflects_after hbefore hs).answer_eq_iff (hoif c hc)).1 (htransparent s hs)
  · intro hagree s hs
    exact ((reflects_after hbefore hs).answer_eq_iff (hoif c hc)).2 (hagree (by rw [hs]; rfl))

end Spec

end Network

/-- Four nodes in a circle: 0 reaches 3 through 1 and through 2. -/
def diamond : Network (Fin 4) (Fin 8) (Fin 4) (Fin 8) where
  nodes := [0, 1, 2, 3]
  devices := fun n => match n with
    | 0 => [0, 1]
    | 1 => [2, 3]
    | 2 => [4, 5]
    | 3 => [6, 7]
  node := fun d => ⟨d.val / 2, by omega⟩
  isBridge := fun _ => false
  bridgePorts := fun _ => []
  channel := fun d => match d with
    | 0 | 2 => some 0
    | 1 | 4 => some 1
    | 3 | 6 => some 2
    | 5 | 7 => some 3
  channelDevices := fun c => match c with
    | 0 => [0, 2]
    | 1 => [1, 4]
    | 2 => [3, 6]
    | 3 => [5, 7]
  isLinkUp := fun _ => true
  isUp := fun _ => true
  address := fun d => d
  isLoopback := fun _ => false
  depth := 1
  loopFree := by decide
  mem_nodes := by decide
  node_devices := by decide
  attached := by decide
  distinct := by decide

/-- Repeating a call is not noticed. -/
theorem transparent_diamond : (diamond.after 0 [⟨6, none⟩]).isSome = true ∧
    diamond.Transparent 0 [⟨6, none⟩] ⟨6, none⟩ := by
  refine ⟨by decide, (Network.routeOutput_transparent_iff diamond 0 [⟨6, none⟩, ⟨6, none⟩]
    (by decide)).2 ?_ [⟨6, none⟩] ⟨6, none⟩ [] rfl⟩
  intro before c rest hcalls _
  have hall : ∀ x ∈ before ++ c :: rest, x = ⟨6, none⟩ := by
    rw [← hcalls]
    simp
  have hc := hall c (List.mem_append_right before List.mem_cons_self)
  have hbefore : ∀ x ∈ before, x = c := fun x hx => by
    rw [hc, hall x (List.mem_append_left _ hx)]
  constructor
  · intro first hfirst
    rw [hbefore first (List.mem_of_find?_eq_some hfirst)]
    exact .inr rfl
  · intro last r r' hlast hr hr' _
    have hmem := List.mem_reverse.1 (List.mem_of_find?_eq_some hlast)
    rw [hbefore last hmem] at hr
    cases hr.symm.trans hr'
    rfl

/-- With another output device the second call still gets the vector of the first. -/
theorem not_routeOutput_transparent : ¬ ∀ (net : Network (Fin 4) (Fin 8) (Fin 4) (Fin 8))
    (n : Fin 4) (calls : List (Call (Fin 8) (Fin 8))),
    (∀ c ∈ calls, ∀ d, c.oif = some d → d ∈ net.devices n) →
    ∀ before c rest, calls = before ++ c :: rest → net.Transparent n before c := by
  intro h
  have hsame := h diamond 0 [⟨6, none⟩, ⟨6, some 1⟩] (by decide) [⟨6, none⟩] ⟨6, some 1⟩ [] rfl
  have hdiffers : (diamond.after 0 [⟨6, none⟩]).map (fun s =>
      decide (diamond.answer 0 ⟨6, some 1⟩ s = diamond.answer 0 ⟨6, some 1⟩ s.flush)) =
      some false := by decide
  have ⟨s, hs, hne⟩ := Option.map_eq_some_iff.1 hdiffers
  exact of_decide_eq_false hne (hsame s hs)

end SeanetSim
