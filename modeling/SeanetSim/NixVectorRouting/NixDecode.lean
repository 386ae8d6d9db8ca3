import SeanetSim.NixVectorRouting.NixPath

/-!
# Decoding a nix-vector

The nodes of a path take their indices out of the vector one after the other.  Where encoder and
decoder see the same neighbours and no `uint32_t` counter wraps, the hops are those that have been
encoded: each through the last of the devices by which its node sees the next one
(`Network.decode_eq`).
-/

namespace SeanetSim

namespace Network

variable {N D C A : Type*} [DecidableEq N] [DecidableEq D] (net : Network N D C A)

omit [DecidableEq N] in
/-- The index that a node takes out of a vector. -/
def takeIndex (n : N) (nixVector : NixVector) : Option (UInt32 × NixVector) :=
  nixVector.extractNeighborIndex (NixVector.bitCount (net.findTotalNeighbors n))

omit [DecidableEq N] in
/-- The output device and the gateway that a node reads from the vector. -/
def decodeHop (n : N) (nixVector : NixVector) : Option (D × D × NixVector) :=
  (net.takeIndex n nixVector).bind fun (nodeIndex, nixVector) =>
    let (index, gateway) := net.findNetDeviceForNixIndex n nodeIndex
    (net.devices n)[index]?.bind fun device =>
      gateway.map fun gateway => (device, gateway, nixVector)

/-- One hop after the other as long as there are bits, with fuel for the hops. -/
def decodeLoop : ℕ → N → NixVector → Option (List (D × D))
  | 0, _, _ => none
  | fuel + 1, n, nixVector =>
    if nixVector.getRemainingBits = 0 then some []
    else
      (net.decodeHop n nixVector).bind fun (device, gateway, nixVector) =>
        (decodeLoop fuel (net.node gateway) nixVector).map fun hops => (device, gateway) :: hops

/-- The hops of a vector; each takes at least one bit. -/
def decode (source : N) (nixVector : NixVector) : Option (List (D × D)) :=
  net.decodeLoop (nixVector.getRemainingBits.toNat + 1) source nixVector

/-- The last of the links from a node to another. -/
def lastLink (u v : N) : Option (D × D) := (net.links u).reverse.find? fun l => net.node l.2 = v

/-- The hops of a path, given by the nodes after the first. -/
def hopsOf (u : N) (p : List N) : List (N × N) := (u :: p).zip p

/-- Encoder and decoder see the same neighbours along the path, and no counter wraps: neither that
of the neighbours of a node nor that of the bits. -/
structure Sound (u : N) (p : List N) : Prop where
  agree : ∀ hop ∈ hopsOf u p, net.encodedNeighbors hop.1 = net.decodedNeighbors hop.1
  size : ∀ hop ∈ hopsOf u p, (net.decodedNeighbors hop.1).length < 2 ^ 32
  bits : NixVector.totalBits (net.entries u p) < 2 ^ 32

section Hop

variable {net} {source dest u v : N} {oif : Option D} {p : List N}

omit [DecidableEq N] in
theorem mem_decodedNeighbors {d r : D} (hd : d ∈ net.devices u) (hr : r ∈ net.across d) :
    r ∈ net.decodedNeighbors u :=
  List.mem_flatMap.2 ⟨d, hd, hr⟩

omit [DecidableEq N] in
theorem mem_of_reached {d : D} (hd : d ∈ net.devices u) (hv : v ∈ net.reached d) :
    ∃ r ∈ net.decodedNeighbors u, net.node r = v := by
  unfold reached at hv
  split_ifs at hv
  · have ⟨r, hr, hnode⟩ := List.mem_map.1 hv
    exact ⟨r, mem_decodedNeighbors hd hr, hnode⟩
  · exact absurd hv List.not_mem_nil

/-- `BFS` sees nothing that the decoder does not see. -/
theorem mem_of_children (hoif : ∀ d, oif = some d → d ∈ net.devices source)
    (hv : v ∈ net.children source oif u) : ∃ r ∈ net.decodedNeighbors u, net.node r = v := by
  unfold children at hv
  split at hv
  · rename_i device hdevice
    split_ifs at hdevice with hu
    · rw [hu]
      exact mem_of_reached (hoif device hdevice) hv
  · have ⟨d, hd, hmem⟩ := List.mem_flatMap.1 hv
    exact mem_of_reached hd hmem

theorem exists_lastLink (hv : ∃ r ∈ net.decodedNeighbors u, net.node r = v) :
    ∃ l d r l', net.links u = l ++ (d, r) :: l' ∧ net.lastLink u v = some (d, r) ∧
      net.node r = v ∧ ∀ x ∈ l', net.node x.2 ≠ v := by
  have ⟨r, hr, hnode⟩ := hv
  rw [← map_links] at hr
  have ⟨link, hlink, hsnd⟩ := List.mem_map.1 hr
  have hsome : (net.lastLink u v).isSome := by
    rw [lastLink, List.find?_isSome]
    exact ⟨link, List.mem_reverse.2 hlink, by rw [hsnd, hnode]; exact decide_eq_true rfl⟩
  have ⟨last, hlast⟩ := Option.isSome_iff_exists.1 hsome
  have ⟨hp, as, bs, hsplit, hbefore⟩ := List.find?_eq_some_iff_append.1 hlast
  refine ⟨bs.reverse, last.1, last.2, as.reverse, ?_, hlast, of_decide_eq_true hp, ?_⟩
  · have hrev := congrArg List.reverse hsplit
    rw [List.reverse_reverse] at hrev
    simpa using hrev
  · intro x hx
    have hneg := hbefore x (List.mem_reverse.1 hx)
    simpa using hneg

/-- The index of a hop is the one of the last link. -/
theorem hopEntry_eq {l l' : List (D × D)} {d r : D}
    (hagree : net.encodedNeighbors u = net.decodedNeighbors u)
    (hlinks : net.links u = l ++ (d, r) :: l') (hr : net.node r = v)
    (hl' : ∀ x ∈ l', net.node x.2 ≠ v) :
    net.hopEntry u v =
      (UInt32.ofNat l.length,
        NixVector.bitCount (UInt32.ofNat (net.decodedNeighbors u).length)) := by
  have hsplit : net.decodedNeighbors u = l.map Prod.snd ++ r :: l'.map Prod.snd := by
    rw [← map_links, hlinks, List.map_append, List.map_cons]
  rw [hopEntry, scanDevices_devices, hagree]
  have hdest : net.matchDest v 0 (net.decodedNeighbors u) 0 0 = UInt32.ofNat l.length := by
    rw [hsplit, matchDest_last hr, List.length_map]
    intro x hx
    have ⟨link, hlink, hsnd⟩ := List.mem_map.1 hx
    exact hsnd ▸ hl' link hlink
  rw [hdest]

theorem fits_hopEntry (hagree : net.encodedNeighbors u = net.decodedNeighbors u)
    (hsize : (net.decodedNeighbors u).length < 2 ^ 32)
    (hv : ∃ r ∈ net.decodedNeighbors u, net.node r = v) : NixVector.Fits (net.hopEntry u v) := by
  have ⟨l, d, r, l', hlinks, _, hr, hl'⟩ := exists_lastLink hv
  rw [hopEntry_eq hagree hlinks hr hl']
  have hlt : l.length < (net.decodedNeighbors u).length := by
    rw [← length_links, hlinks, List.length_append, List.length_cons]
    omega
  refine ⟨NixVector.one_le_bitCount _, NixVector.bitCount_le _, NixVector.lt_two_pow_bitCount ?_⟩
  rw [UInt32.lt_iff_toNat_lt, UInt32.toNat_ofNat_of_lt' (Nat.lt_trans hlt hsize),
    UInt32.toNat_ofNat_of_lt' hsize]
  exact hlt

/-- The index of a hop leads to the last link to the next node. -/
theorem takeIndex_eq (hagree : net.encodedNeighbors u = net.decodedNeighbors u)
    (hsize : (net.decodedNeighbors u).length < 2 ^ 32)
    (hv : ∃ r ∈ net.decodedNeighbors u, net.node r = v) {nixVector : NixVector}
    {rest : List (UInt32 × UInt32)} (hcarries : nixVector.Carries (net.hopEntry u v :: rest)) :
    ∃ nodeIndex nixVector' i d r, net.takeIndex u nixVector = some (nodeIndex, nixVector') ∧
      net.findNetDeviceForNixIndex u nodeIndex = (i, some r) ∧ (net.devices u)[i]? = some d ∧
      net.lastLink u v = some (d, r) ∧ net.node r = v ∧ nixVector'.Carries rest := by
  have ⟨l, d, r, l', hlinks, hlast, hr, hl'⟩ := exists_lastLink hv
  have ⟨hext, hrest⟩ := hcarries.extractNeighborIndex
  have hk : (net.links u)[l.length]? = some (d, r) := by
    rw [hlinks, List.getElem?_append_right (Nat.le_refl _), Nat.sub_self]
    rfl
  have ⟨i, hfind, hdevice⟩ := findNetDeviceForNixIndex_of_links hsize hk
  rw [hopEntry_eq hagree hlinks hr hl'] at hext hrest
  refine ⟨_, _, i, d, r, ?_, hfind, hdevice, hlast, hr, hrest⟩
  rw [takeIndex, findTotalNeighbors_eq]
  exact hext

theorem decodeHop_eq (hagree : net.encodedNeighbors u = net.decodedNeighbors u)
    (hsize : (net.decodedNeighbors u).length < 2 ^ 32)
    (hv : ∃ r ∈ net.decodedNeighbors u, net.node r = v) {nixVector : NixVector}
    {rest : List (UInt32 × UInt32)} (hcarries : nixVector.Carries (net.hopEntry u v :: rest)) :
    ∃ d r nixVector', net.decodeHop u nixVector = some (d, r, nixVector') ∧
      net.lastLink u v = some (d, r) ∧ net.node r = v ∧ nixVector'.Carries rest := by
  have ⟨nodeIndex, nixVector', i, d, r, htake, hfind, hdevice, hlast, hr, hrest⟩ :=
    takeIndex_eq hagree hsize hv hcarries
  refine ⟨d, r, nixVector', ?_, hlast, hr, hrest⟩
  rw [decodeHop, htake, Option.bind_some]
  dsimp only
  rw [hfind]
  dsimp only
  rw [hdevice]
  rfl

end Hop

section Path

variable {net} {source dest u v : N} {oif : Option D} {p : List N}

omit [DecidableEq N] in
theorem hopsOf_cons (u v : N) (p : List N) : hopsOf u (v :: p) = (u, v) :: hopsOf v p := rfl

theorem Sound.tail (h : net.Sound u (v :: p)) : net.Sound v p where
  agree := fun hop hmem => h.agree hop (List.mem_cons_of_mem _ hmem)
  size := fun hop hmem => h.size hop (List.mem_cons_of_mem _ hmem)
  bits := by
    have := h.bits
    rw [entries, NixVector.totalBits_cons] at this
    omega

/-- The indices of a walk fit in their widths. -/
theorem Sound.fits (h : net.Sound u p) (hoif : ∀ d, oif = some d → d ∈ net.devices source)
    (hwalk : Walk (net.children source oif) u p dest) :
    ∀ e ∈ net.entries u p, NixVector.Fits e := by
  induction p generalizing u with
  | nil => exact fun e he => absurd he List.not_mem_nil
  | cons v p ih =>
    have ⟨hv, hrest⟩ := hwalk
    rw [entries, List.forall_mem_cons]
    exact ⟨fits_hopEntry (h.agree (u, v) List.mem_cons_self) (h.size (u, v) List.mem_cons_self)
      (mem_of_children hoif hv), ih h.tail hrest⟩

theorem length_entries (u : N) (p : List N) : (net.entries u p).length = p.length := by
  induction p generalizing u with
  | nil => rfl
  | cons v p ih => rw [entries, List.length_cons, List.length_cons, ih]

theorem totalBits_entries_le (net : Network N D C A) (u : N) (p : List N) :
    NixVector.totalBits (net.entries u p) ≤ 32 * p.length := by
  induction p generalizing u with
  | nil => exact Nat.le_refl _
  | cons v p ih =>
    have hwidth : (net.hopEntry u v).2.toNat ≤ 32 := NixVector.bitCount_le _
    have hrest := ih v
    rw [entries, NixVector.totalBits_cons, List.length_cons]
    omega

/-- Fewer than `2 ^ 27` nodes are few enough for the bits of every path. -/
theorem sound_of_nodes (hagree : ∀ n, net.encodedNeighbors n = net.decodedNeighbors n)
    (hsize : ∀ n, (net.decodedNeighbors n).length < 2 ^ 32) (hnodes : net.nodes.length ≤ 2 ^ 27)
    (hp : Greedy (net.children source oif) dest source p) : net.Sound source p := by
  have ⟨_, _, _, houtcome⟩ := net.bfs_outcome source dest oif
  refine ⟨fun hop _ => hagree hop.1, fun hop _ => hsize hop.1, ?_⟩
  cases houtcome with
  | found path length walk greedy shortest =>
    have hle := net.totalBits_entries_le source p
    rw [← hp.unique greedy] at length
    omega
  | unreachable unseen walk => exact absurd hp.walk (walk p)

theorem decodeLoop_eq (hsound : net.Sound u p)
    (hoif : ∀ d, oif = some d → d ∈ net.devices source)
    (hwalk : Walk (net.children source oif) u p dest) {nixVector : NixVector}
    (hcarries : nixVector.Carries (net.entries u p)) {fuel : ℕ} (hfuel : p.length < fuel) :
    ∃ hops, net.decodeLoop fuel u nixVector = some hops ∧
      hops.map some = (hopsOf u p).map (fun hop => net.lastLink hop.1 hop.2) ∧
      hops.map (fun hop => net.node hop.2) = p := by
  induction p generalizing u nixVector fuel with
  | nil =>
    cases fuel with
    | zero => exact absurd hfuel (Nat.not_lt_zero _)
    | succ fuel =>
      refine ⟨[], ?_, rfl, rfl⟩
      rw [decodeLoop, if_pos hcarries.getRemainingBits_nil]
  | cons v p ih =>
    cases fuel with
    | zero => exact absurd hfuel (Nat.not_lt_zero _)
    | succ fuel =>
      have ⟨hv, hrest⟩ := hwalk
      have ⟨d, r, nixVector', hhop, hlast, hr, hcarries'⟩ :=
        decodeHop_eq (hsound.agree (u, v) List.mem_cons_self)
          (hsound.size (u, v) List.mem_cons_self) (mem_of_children hoif hv) hcarries
      have ⟨hops, hdecode, hlinks, hnodes⟩ :=
        ih hsound.tail hrest hcarries' (Nat.lt_of_succ_lt_succ hfuel)
      refine ⟨(d, r) :: hops, ?_, ?_, ?_⟩
      · rw [decodeLoop, if_neg hcarries.getRemainingBits_cons, hhop, Option.bind_some]
        dsimp only
        rw [hr, hdecode]
        rfl
      · rw [List.map_cons, hlinks, hopsOf_cons, List.map_cons, hlast]
      · rw [List.map_cons, hnodes, hr]

/-- The vector of a path is decoded as the last links along it. -/
theorem decode_eq (hsound : net.Sound source p)
    (hoif : ∀ d, oif = some d → d ∈ net.devices source)
    (hwalk : Walk (net.children source oif) source p dest) :
    ∃ nixVector hops, NixVector.empty.addAll (net.entries source p).reverse = some nixVector ∧
      net.decode source nixVector = some hops ∧
      hops.map some = (hopsOf source p).map (fun hop => net.lastLink hop.1 hop.2) ∧
      hops.map (fun hop => net.node hop.2) = p := by
  have hfits := hsound.fits hoif hwalk
  have ⟨nixVector, hadd, hremaining, hcarries⟩ := NixVector.carries_addAll hfits
  have hbits := NixVector.length_le_totalBits hfits
  rw [length_entries] at hbits
  rw [Nat.mod_eq_of_lt hsound.bits] at hremaining
  have hfuel : p.length < nixVector.getRemainingBits.toNat + 1 := by omega
  have ⟨hops, hdecode, hlinks, hnodes⟩ :=
    decodeLoop_eq hsound hoif hwalk (hcarries hsound.bits) hfuel
  exact ⟨nixVector, hops, hadd, hdecode, hlinks, hnodes⟩

end Path

/-! ## The path that a vector leads along -/

/-- What `BFS` and `BuildNixVector` make of a pair of nodes leads along a shortest path. -/
def LeadsTo (source dest : N) : Prop :=
  ∃ found parentVector built nixVector,
    net.bfs source dest none = some (found, parentVector) ∧
    net.buildNixVector (net.nodes.length + 1) parentVector source dest NixVector.empty =
      some (built, nixVector) ∧
    (built = true → ∃ hops, net.decode source nixVector = some hops ∧
      Walk (net.children source none) source (hops.map fun hop => net.node hop.2) dest ∧
      ∀ q, Walk (net.children source none) source q dest → hops.length ≤ q.length)

section Leads

variable {net}

omit [DecidableEq N] in
theorem encodedNeighbors_of_no_bridge (hbridge : ∀ d, net.isBridge d = false) (n : N) :
    net.encodedNeighbors n = net.decodedNeighbors n := by
  rw [encodedNeighbors, decodedNeighbors, flatMap_filter_eq_iff]
  intro d _ hd
  rw [hbridge d] at hd
  cases hd

theorem leadsTo_of_counted (hbridge : ∀ d, net.isBridge d = false) (source dest : N)
    (hcount : ∀ p, Greedy (net.children source none) dest source p →
      (∀ hop ∈ hopsOf source p, (net.decodedNeighbors hop.1).length < 2 ^ 32) ∧
        NixVector.totalBits (net.entries source p) < 2 ^ 32) :
    net.LeadsTo source dest := by
  have ⟨found, parentVector, hsearch, houtcome⟩ := net.bfs_outcome source dest none
  cases houtcome with
  | @found p path length walk greedy shortest =>
    have ⟨hsize, hbits⟩ := hcount p greedy
    have hsound : net.Sound source p :=
      ⟨fun hop _ => encodedNeighbors_of_no_bridge hbridge hop.1, hsize, hbits⟩
    have ⟨nixVector, hops, hadd, hdecode, _, hnodes⟩ :=
      decode_eq hsound (fun _ h => absurd h.symm (Option.some_ne_none _)) walk
    refine ⟨found, parentVector, true, nixVector, hsearch, ?_, fun _ => ⟨hops, hdecode, ?_, ?_⟩⟩
    · rw [buildNixVector_eq path (by omega), hadd]
      rfl
    · rwa [hnodes]
    · intro q hq
      have hle := shortest q hq
      rwa [← hnodes, List.length_map] at hle
  | unreachable unseen walk =>
    have hne : source ≠ dest := fun heq => walk [] heq
    refine ⟨found, parentVector, false, NixVector.empty, hsearch, ?_,
      fun hfalse => absurd hfalse (by decide)⟩
    rw [buildNixVector, if_neg hne, unseen]

end Leads

end Network

/-! ## A node with many devices -/

/-- Without bridges a channel leads to its other devices. -/
theorem Topology.getAdjacentNetDevices_of_no_bridge {N D C A : Type*} [DecidableEq D]
    {net : Topology N D C A} (hbridge : ∀ d, net.isBridge d = false) (fuel : ℕ) (d : D)
    (channel : C) : net.getAdjacentNetDevices (fuel + 1) d channel =
      some ((net.channelDevices channel).filter fun r => r ≠ d) := by
  have hnone : ∀ r, net.netDeviceIsBridged r = none := by
    intro r
    rw [netDeviceIsBridged, List.find?_eq_none]
    intro b _
    rw [hbridge b]
    exact Bool.false_ne_true
  have hmap : ∀ l : List D, (l.mapM fun r => some [r]) = some (l.map fun r => [r]) := by
    intro l
    induction l with
    | nil => rfl
    | cons r l ih => rw [List.mapM_cons, ih]; rfl
  simp only [getAdjacentNetDevices, hnone, Option.bind_eq_bind]
  rw [hmap]
  rw [Option.bind_some, ← List.flatMap_def, List.flatMap_singleton']

theorem mem_false_true : ∀ n : Bool, n ∈ [false, true] := by decide

/-- One node with `m` devices and another with the last device, all on one channel. -/
def bus (m : ℕ) : Network Bool ℕ Unit ℕ where
  nodes := [false, true]
  devices := fun n => if n then [m] else List.range m
  node := fun d => decide (m ≤ d)
  isBridge := fun _ => false
  bridgePorts := fun _ => []
  channel := fun _ => some ()
  channelDevices := fun _ => List.range (m + 1)
  isLinkUp := fun _ => true
  isUp := fun _ => true
  address := fun d => d
  isLoopback := fun _ => false
  depth := 1
  loopFree := fun d c => by
    rw [Topology.getAdjacentNetDevices_of_no_bridge (fun _ => rfl)]
    rfl
  mem_nodes := mem_false_true
  node_devices := fun n d hd => by
    cases n with
    | false => exact decide_eq_false (Nat.not_le.2 (List.mem_range.1 hd))
    | true =>
      rw [List.mem_singleton.1 hd]
      exact decide_eq_true (Nat.le_refl m)
  attached := fun _ d hd => by
    refine ⟨?_, rfl⟩
    by_cases hle : m ≤ d
    · rw [decide_eq_true hle, Nat.le_antisymm (Nat.lt_succ_iff.1 (List.mem_range.1 hd)) hle]
      exact List.mem_singleton.2 rfl
    · rw [decide_eq_false hle]
      exact List.mem_range.2 (Nat.not_le.1 hle)
  distinct := by
    simp [← List.range_succ, List.nodup_range]

theorem adjacent_bus (m d : ℕ) :
    (bus m).adjacent d () = (List.range (m + 1)).filter fun r => r ≠ d := by
  rw [Network.adjacent, Option.get_of_eq_some]
  exact Topology.getAdjacentNetDevices_of_no_bridge (fun _ => rfl) 0 d ()

theorem across_bus (m d : ℕ) : (bus m).across d = (List.range (m + 1)).filter fun r => r ≠ d :=
  adjacent_bus m d

theorem length_across_bus {m d : ℕ} (hd : d < m) : ((bus m).across d).length = m := by
  have herase : (List.range (m + 1)).erase d = (List.range (m + 1)).filter fun r => r ≠ d := by
    rw [List.nodup_range.erase_eq_filter]
    congr 1
    funext r
    rw [Bool.eq_iff_iff, bne_iff_ne, decide_eq_true_iff]
  rw [across_bus, ← herase, List.length_erase_of_mem (List.mem_range.2 (by omega)),
    List.length_range]
  rfl

theorem length_decodedNeighbors_bus (m : ℕ) : ((bus m).decodedNeighbors false).length = m * m := by
  have hdevices : (bus m).decodedNeighbors false = (List.range m).flatMap (bus m).across := rfl
  have hlengths : (List.range m).map (fun d => ((bus m).across d).length) =
      List.replicate m m := by
    rw [List.eq_replicate_iff, List.length_map, List.length_range]
    refine ⟨rfl, fun x hx => ?_⟩
    have ⟨d, hd, hlength⟩ := List.mem_map.1 hx
    rw [← hlength, length_across_bus (List.mem_range.1 hd)]
  rw [hdevices, List.length_flatMap, hlengths, List.sum_replicate_nat]

theorem decodedNeighbors_bus (k : ℕ) :
    ∃ l, (bus (k + 1)).decodedNeighbors false = l ++ [k + 1] := by
  have hdevices : (bus (k + 1)).decodedNeighbors false =
      (List.range (k + 1)).flatMap (bus (k + 1)).across := rfl
  have hlast : (bus (k + 1)).across k =
      ((List.range (k + 1)).filter fun r => r ≠ k) ++ [k + 1] := by
    rw [across_bus, List.range_succ, List.filter_append]
    simp
  rw [hdevices, List.range_succ, List.flatMap_append, List.flatMap_singleton, hlast,
    ← List.append_assoc]
  exact ⟨_, rfl⟩

/-- The other node comes last, with the total in 32 bits for the width. -/
theorem hopEntry_bus (k : ℕ) : (bus (k + 1)).hopEntry false true =
    (UInt32.ofNat ((k + 1) * (k + 1) - 1),
      NixVector.bitCount (UInt32.ofNat ((k + 1) * (k + 1)))) := by
  have ⟨l, hl⟩ := decodedNeighbors_bus k
  have hlength := length_decodedNeighbors_bus (k + 1)
  rw [Network.hopEntry, Network.scanDevices_devices,
    Network.encodedNeighbors_of_no_bridge fun _ => rfl]
  dsimp only
  rw [hlength]
  rw [hl, List.length_append, List.length_singleton] at hlength
  have hnode : (bus (k + 1)).node (k + 1) = true := decide_eq_true (Nat.le_refl _)
  rw [hl, Network.matchDest_last hnode fun _ h => absurd h List.not_mem_nil, ← hlength,
    Nat.add_sub_cancel]

/-- Index 1 is the own device 2, seen through device 0. -/
theorem findNetDeviceForNixIndex_bus (k : ℕ) (hlt : (1 : UInt32) < UInt32.ofNat (k + 2)) :
    (bus (k + 2)).findNetDeviceForNixIndex false 1 = (0, some 2) := by
  have hdevices : (bus (k + 2)).devices false = 0 :: (List.range (k + 1)).map Nat.succ :=
    List.range_succ_eq_map
  have hlength : ((bus (k + 2)).adjacent 0 ()).length = k + 2 := length_across_bus (by omega)
  have hadjacent : (bus (k + 2)).adjacent 0 () = (List.range (k + 2)).map Nat.succ := by
    rw [adjacent_bus, List.range_succ_eq_map, List.filter_cons_of_neg (by decide),
      List.filter_eq_self]
    intro r hr
    have ⟨x, _, hx⟩ := List.mem_map.1 hr
    exact decide_eq_true (by omega)
  have hsecond : ((bus (k + 2)).adjacent 0 ())[1]? = some 2 := by
    rw [hadjacent, List.getElem?_map, List.getElem?_range (by omega)]
    rfl
  rw [Network.findNetDeviceForNixIndex, hdevices, Network.findNetDeviceLoop]
  have hchannel : (bus (k + 2)).channel 0 = some () := rfl
  rw [hchannel]
  dsimp only
  rw [hlength, zero_add, if_pos hlt]
  exact congrArg (Prod.mk 0) hsecond

theorem walk_bus (k : ℕ) : Walk ((bus (k + 1)).children false none) false [true] true := by
  refine ⟨?_, rfl⟩
  have ⟨l, hl⟩ := decodedNeighbors_bus k
  have hmem : k + 1 ∈ (bus (k + 1)).decodedNeighbors false := by
    rw [hl]
    exact List.mem_append_right l List.mem_cons_self
  have ⟨d, hd, hacross⟩ := List.mem_flatMap.1 hmem
  rw [Network.children_none, List.mem_flatMap]
  refine ⟨d, hd, List.mem_map.2 ⟨k + 1, hacross, ?_⟩⟩
  exact decide_eq_true (Nat.le_refl _)

/-- Where the total of the neighbours wraps to 0, one bit is added, and the vector leads back to
the node itself. -/
theorem not_leadsTo_bus {k : ℕ} (hk : 0 < k) (htotal : UInt32.ofNat ((k + 2) * (k + 2)) = 0)
    (hindex : UInt32.ofNat ((k + 2) * (k + 2) - 1) = 0xFFFFFFFF)
    (hlt : (1 : UInt32) < UInt32.ofNat (k + 2)) : ¬ (bus (k + 2)).LeadsTo false true := by
  intro ⟨found, parentVector, built, nixVector, hsearch, hbuild, hleads⟩
  obtain ⟨found', parentVector', hsearch', houtcome⟩ := (bus (k + 2)).bfs_outcome false true none
  cases hsearch.symm.trans hsearch'
  have hwalk := walk_bus (k + 1)
  cases houtcome with
  | unreachable unseen walk => exact walk _ hwalk
  | @found p path length walk greedy shortest =>
    have hone : p = [true] := by
      have hle := shortest [true] hwalk
      cases path with
      | child path hne hparent =>
        rw [List.length_append, List.length_singleton] at hle
        rw [List.length_eq_zero_iff.1 (Nat.le_zero.1 (Nat.le_of_succ_le_succ hle)), List.nil_append]
    subst hone
    have hentry : (bus (k + 2)).entries false [true] = [(0xFFFFFFFF, 1)] := by
      rw [Network.entries, Network.entries, hopEntry_bus (k + 1), hindex, htotal]
      rfl
    rw [Network.buildNixVector_eq path (by omega), hentry] at hbuild
    have hadd : NixVector.empty.addAll [((0xFFFFFFFF : UInt32), (1 : UInt32))].reverse =
        some ⟨[], 0xFFFFFFFF, 0, 1, 1⟩ := by decide
    rw [hadd] at hbuild
    cases hbuild
    obtain ⟨hops, hdecode, hends, _⟩ := hleads rfl
    have hhop : (bus (k + 2)).decodeHop false ⟨[], 0xFFFFFFFF, 0, 1, 1⟩ =
        some (0, 2, ⟨[], 0xFFFFFFFF, 1, 1, 1⟩) := by
      have hextract : NixVector.extractNeighborIndex ⟨[], 0xFFFFFFFF, 0, 1, 1⟩ 1 =
          some (1, ⟨[], 0xFFFFFFFF, 1, 1, 1⟩) := by decide
      have hdevice : ((bus (k + 2)).devices false)[0]? = some 0 := List.getElem?_range (by omega)
      rw [Network.decodeHop, Network.takeIndex, Network.findTotalNeighbors_eq,
        length_decodedNeighbors_bus, htotal]
      change Option.bind (NixVector.extractNeighborIndex _ 1) _ = _
      rw [hextract, Option.bind_some]
      dsimp only
      rw [findNetDeviceForNixIndex_bus k hlt]
      dsimp only
      rw [hdevice]
      rfl
    have hback : (bus (k + 2)).node 2 = false := decide_eq_false (by omega)
    have hdecoded : (bus (k + 2)).decode false ⟨[], 0xFFFFFFFF, 0, 1, 1⟩ = some [(0, 2)] := by
      change (bus (k + 2)).decodeLoop 2 false _ = _
      rw [Network.decodeLoop, if_neg (by decide), hhop, Option.bind_some]
      dsimp only
      rw [hback]
      rfl
    cases hdecode.symm.trans hdecoded
    have hends' : (bus (k + 2)).node 2 = true := hends.2
    rw [hback] at hends'
    exact absurd hends' (by decide)

/-- A node with `2 ^ 16` devices on one channel has `2 ^ 32` neighbours. -/
theorem not_leadsTo : ¬ ∀ net : Network Bool ℕ Unit ℕ, (∀ d, net.isBridge d = false) →
    ∀ source dest, net.LeadsTo source dest := by
  intro h
  have hleads := h (bus (65534 + 2)) (fun _ => rfl) false true
  exact not_leadsTo_bus (by decide) (by decide) (by decide) (by decide) hleads

theorem leadsTo_bus_two : (bus 2).LeadsTo false true := by
  apply Network.leadsTo_of_counted (fun _ => rfl)
  intro p hp
  have hgreedy : Greedy ((bus 2).children false none) true false [true] := by
    have hsucc : (bus 2).children false none false = [false, true, false, true] := by decide
    refine ⟨by decide, ⟨[false], [false, true], 0, hsucc, ⟨[], rfl, rfl⟩,
      fun _ _ q _ => Nat.zero_le _, ?_⟩, rfl⟩
    intro y hy q hq
    cases q with
    | nil =>
      rw [List.mem_singleton.1 hy] at hq
      exact absurd (show false = true from hq) (by decide)
    | cons x q => exact Nat.succ_pos _
  rw [hp.unique hgreedy]
  decide

end SeanetSim
