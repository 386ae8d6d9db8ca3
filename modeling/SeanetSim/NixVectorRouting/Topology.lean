import Mathlib.Data.List.Flatten
import SeanetSim.Network.NixVector

/-!
# Topologies and their neighbours

Nodes with their net devices, channels and bridges, as `Ipv4NixVectorRouting` sees them.  Three
functions number the neighbours of a node: `BuildNixVector` when it encodes a hop, and
`FindTotalNeighbors` and `FindNetDeviceForNixIndex` when the hop is decoded.  Each goes through a
list of neighbours (`encodedNeighbors`, `decodedNeighbors`); the first leaves out the bridges of the
node, and `Network.neighbors_agree_iff` says when that makes no difference.
-/

namespace SeanetSim

/-- Nodes, net devices and channels.  The routing protocol runs on every node, so that every device
has an IPv4 interface. -/
structure Topology (N D C A : Type*) where
  nodes : List N
  devices : N → List D
  node : D → N
  isBridge : D → Bool
  bridgePorts : D → List D
  channel : D → Option C
  channelDevices : C → List D
  isLinkUp : D → Bool
  /-- `IsUp` of the device's interface. -/
  isUp : D → Bool
  /-- The first address of the device's interface. -/
  address : D → A
  isLoopback : D → Bool

namespace Topology

variable {N D C A : Type*} [DecidableEq D] (net : Topology N D C A)

/-- The bridge of its node that has the device as a port. -/
def netDeviceIsBridged (nd : D) : Option D :=
  (net.devices (net.node nd)).find? fun ndTest =>
    net.isBridge ndTest && (net.bridgePorts ndTest).contains nd

/-- The devices across the channel, with those behind a bridge in place of its port.  `none` where
the recursion is deeper than `fuel`; it does not end where bridges form a loop. -/
def getAdjacentNetDevices : ℕ → D → C → Option (List D)
  | 0, _, _ => none
  | fuel + 1, netDevice, channel => do
    let remote := (net.channelDevices channel).filter fun d => d ≠ netDevice
    let containers ← remote.mapM fun remoteDevice =>
      match net.netDeviceIsBridged remoteDevice with
      | some bd => do
        let ports := (net.bridgePorts bd).filter fun d => d ≠ remoteDevice
        let bridged ← ports.mapM fun ndBridged =>
          match net.channel ndBridged with
          | none => some []
          | some chBridged => getAdjacentNetDevices fuel ndBridged chBridged
        some bridged.flatten
      | none => some [remoteDevice]
    some containers.flatten

end Topology

/-- A topology without a bridging loop.  All nodes are in `NodeList`, the devices of a channel are
devices of their nodes and no loopback devices, and no two devices but loopback devices share an
address (the address map aborts on one). -/
structure Network (N D C A : Type*) [DecidableEq D] extends Topology N D C A where
  depth : ℕ
  loopFree : ∀ d c, (toTopology.getAdjacentNetDevices depth d c).isSome
  mem_nodes : ∀ n, n ∈ nodes
  node_devices : ∀ n, ∀ d ∈ devices n, node d = n
  attached : ∀ c, ∀ d ∈ channelDevices c, d ∈ devices (node d) ∧ isLoopback d = false
  distinct : (((nodes.flatMap devices).filter fun d => !isLoopback d).map address).Nodup

namespace Network

variable {N D C A : Type*} [DecidableEq D] (net : Network N D C A)

/-- What `GetAdjacentNetDevices` puts into the container. -/
def adjacent (d : D) (channel : C) : List D :=
  (net.getAdjacentNetDevices net.depth d channel).get (net.loopFree d channel)

/-! ## Encoding a hop -/

section Encode

variable [DecidableEq N]

/-- The inner loop of `BuildNixVector`. -/
def matchDest (dest : N) (totalNeighbors : UInt32) : List D → UInt32 → UInt32 → UInt32
  | [], _, destId => destId
  | remoteDevice :: rest, offset, destId =>
    matchDest dest totalNeighbors rest (offset + 1)
      (if net.node remoteDevice = dest then totalNeighbors + offset else destId)

/-- The loop of `BuildNixVector` over the devices of the parent node, with `destId` and
`totalNeighbors`. -/
def scanDevices (dest : N) : List D → UInt32 → UInt32 → UInt32 × UInt32
  | [], destId, totalNeighbors => (destId, totalNeighbors)
  | localNetDevice :: rest, destId, totalNeighbors =>
    if net.isBridge localNetDevice then scanDevices dest rest destId totalNeighbors
    else match net.channel localNetDevice with
      | none => scanDevices dest rest destId totalNeighbors
      | some channel =>
        let container := net.adjacent localNetDevice channel
        scanDevices dest rest (net.matchDest dest totalNeighbors container 0 destId)
          (totalNeighbors + UInt32.ofNat container.length)

end Encode

/-! ## Decoding a hop -/

def findTotalNeighbors (n : N) : UInt32 :=
  (net.devices n).foldl (fun totalNeighbors localNetDevice =>
    match net.channel localNetDevice with
    | none => totalNeighbors
    | some channel =>
      totalNeighbors + UInt32.ofNat (net.adjacent localNetDevice channel).length) 0

/-- The loop of `FindNetDeviceForNixIndex`, from device number `i` on. -/
def findNetDeviceLoop (nodeIndex : UInt32) : List D → ℕ → UInt32 → ℕ × Option D
  | [], _, _ => (0, none)
  | localNetDevice :: rest, i, totalNeighbors =>
    match net.channel localNetDevice with
    | none => findNetDeviceLoop nodeIndex rest (i + 1) totalNeighbors
    | some channel =>
      let container := net.adjacent localNetDevice channel
      if nodeIndex < totalNeighbors + UInt32.ofNat container.length then
        (i, container[(nodeIndex - totalNeighbors).toNat]?)
      else
        findNetDeviceLoop nodeIndex rest (i + 1)
          (totalNeighbors + UInt32.ofNat container.length)

/-- The number of the device to send through, and the device of the gateway, of whose interface
`gatewayIp` is the first address; number 0 and no gateway where the index is too large. -/
def findNetDeviceForNixIndex (n : N) (nodeIndex : UInt32) : ℕ × Option D :=
  net.findNetDeviceLoop nodeIndex (net.devices n) 0 0

/-! ## The lists of neighbours -/

/-- The neighbours across a device, none without a channel. -/
def across (localNetDevice : D) : List D :=
  match net.channel localNetDevice with
  | none => []
  | some channel => net.adjacent localNetDevice channel

/-- The neighbours that `BuildNixVector` goes through at a node. -/
def encodedNeighbors (n : N) : List D :=
  ((net.devices n).filter fun d => !net.isBridge d).flatMap net.across

/-- The neighbours that `FindTotalNeighbors` counts and `FindNetDeviceForNixIndex` goes through. -/
def decodedNeighbors (n : N) : List D := (net.devices n).flatMap net.across

/-- The neighbours with the devices they are seen through. -/
def links (n : N) : List (D × D) :=
  (net.devices n).flatMap fun d => (net.across d).map fun r => (d, r)

section Lists

variable {net}

theorem across_of_none {d : D} (h : net.channel d = none) : net.across d = [] := by
  rw [across, h]

theorem across_of_some {d : D} {channel : C} (h : net.channel d = some channel) :
    net.across d = net.adjacent d channel := by
  rw [across, h]

theorem map_links (n : N) : (net.links n).map Prod.snd = net.decodedNeighbors n := by
  simp [links, decodedNeighbors, List.map_flatMap, Function.comp_def]

theorem length_links (n : N) : (net.links n).length = (net.decodedNeighbors n).length := by
  rw [← map_links, List.length_map]

theorem findTotalNeighbors_eq (n : N) :
    net.findTotalNeighbors n = UInt32.ofNat (net.decodedNeighbors n).length := by
  have hfold : ∀ (ds : List D) (totalNeighbors : UInt32),
      ds.foldl (fun totalNeighbors localNetDevice =>
        match net.channel localNetDevice with
        | none => totalNeighbors
        | some channel =>
          totalNeighbors + UInt32.ofNat (net.adjacent localNetDevice channel).length)
        totalNeighbors = totalNeighbors + UInt32.ofNat (ds.flatMap net.across).length := by
    intro ds
    induction ds with
    | nil => simp
    | cons d ds ih =>
      intro totalNeighbors
      rw [List.foldl_cons, ih, List.flatMap_cons, List.length_append, UInt32.ofNat_add, ← add_assoc]
      unfold across
      cases net.channel d <;> simp
  rw [findTotalNeighbors, hfold, zero_add]
  rfl

section Encode

variable [DecidableEq N]

theorem matchDest_append (dest : N) (totalNeighbors : UInt32) (l l' : List D)
    (offset destId : UInt32) :
    net.matchDest dest totalNeighbors (l ++ l') offset destId =
      net.matchDest dest totalNeighbors l' (offset + UInt32.ofNat l.length)
        (net.matchDest dest totalNeighbors l offset destId) := by
  induction l generalizing offset destId with
  | nil => simp [matchDest]
  | cons r l ih =>
    rw [List.cons_append, matchDest, ih, matchDest, List.length_cons, UInt32.ofNat_add,
      add_comm (UInt32.ofNat l.length), ← add_assoc]
    rfl

/-- Only the sum of the total and the offset counts. -/
theorem matchDest_shift (dest : N) (totalNeighbors offset : UInt32) (l : List D)
    (destId : UInt32) :
    net.matchDest dest (totalNeighbors + offset) l 0 destId =
      net.matchDest dest totalNeighbors l offset destId := by
  have hgen : ∀ k : UInt32, net.matchDest dest (totalNeighbors + offset) l k destId =
      net.matchDest dest totalNeighbors l (offset + k) destId := by
    induction l generalizing destId with
    | nil => exact fun _ => rfl
    | cons r l ih =>
      intro k
      rw [matchDest, matchDest, ih, add_assoc, add_assoc]
  simpa using hgen 0

theorem matchDest_of_forall_ne (dest : N) (totalNeighbors : UInt32) {l : List D}
    (hl : ∀ r ∈ l, net.node r ≠ dest) (offset destId : UInt32) :
    net.matchDest dest totalNeighbors l offset destId = destId := by
  induction l generalizing offset with
  | nil => rfl
  | cons r l ih =>
    rw [matchDest, if_neg (hl r List.mem_cons_self)]
    exact ih (fun x hx => hl x (List.mem_cons_of_mem _ hx)) _

/-- The last neighbour on the node wins. -/
theorem matchDest_last {dest : N} {l l' : List D} {r : D} (hr : net.node r = dest)
    (hl' : ∀ x ∈ l', net.node x ≠ dest) :
    net.matchDest dest 0 (l ++ r :: l') 0 0 = UInt32.ofNat l.length := by
  rw [matchDest_append, matchDest, if_pos hr, matchDest_of_forall_ne _ _ hl', zero_add, zero_add]

theorem scanDevices_eq (dest : N) (ds : List D) (destId totalNeighbors : UInt32) :
    net.scanDevices dest ds destId totalNeighbors =
      (net.matchDest dest totalNeighbors
          ((ds.filter fun d => !net.isBridge d).flatMap net.across) 0 destId,
        totalNeighbors +
          UInt32.ofNat ((ds.filter fun d => !net.isBridge d).flatMap net.across).length) := by
  induction ds generalizing destId totalNeighbors with
  | nil => simp [scanDevices, matchDest]
  | cons d ds ih =>
    unfold scanDevices
    split_ifs with hbridge
    · rw [ih, List.filter_cons_of_neg (by simpa using hbridge)]
    · rw [List.filter_cons_of_pos (by simpa using hbridge), List.flatMap_cons]
      unfold across
      cases hchannel : net.channel d with
      | none => exact ih _ _
      | some channel =>
        dsimp only
        rw [ih, matchDest_shift, matchDest_append, zero_add, List.length_append, UInt32.ofNat_add,
          add_assoc]
        rfl

theorem scanDevices_devices (dest n : N) :
    net.scanDevices dest (net.devices n) 0 0 =
      (net.matchDest dest 0 (net.encodedNeighbors n) 0 0,
        UInt32.ofNat (net.encodedNeighbors n).length) := by
  rw [scanDevices_eq, zero_add]
  rfl

end Encode

theorem findNetDeviceLoop_spec (total i : ℕ) {ds : List D} {k : ℕ} {d r : D} (hle : total ≤ k)
    (hsize : total + (ds.flatMap net.across).length < 2 ^ 32)
    (hk : (ds.flatMap fun d => (net.across d).map fun r => (d, r))[k - total]? = some (d, r)) :
    ∃ j, net.findNetDeviceLoop (UInt32.ofNat k) ds i (UInt32.ofNat total) = (i + j, some r) ∧
      ds[j]? = some d := by
  have hklt : k < 2 ^ 32 := by
    obtain ⟨hlt, -⟩ := List.getElem?_eq_some_iff.1 hk
    rw [List.length_flatMap] at hsize hlt
    simp only [List.length_map] at hlt
    omega
  induction ds generalizing total i with
  | nil => simp at hk
  | cons d' ds ih =>
    rw [List.flatMap_cons, List.length_append] at hsize
    rw [List.flatMap_cons, List.getElem?_append, List.length_map] at hk
    unfold findNetDeviceLoop
    cases hchannel : net.channel d' with
    | none =>
      rw [across_of_none hchannel] at hsize hk
      simp only [List.length_nil, Nat.zero_add, Nat.not_lt_zero, if_false, Nat.sub_zero] at hsize hk
      obtain ⟨j, hloop, hj⟩ := ih total (i + 1) hle hsize hk
      refine ⟨j + 1, ?_, hj⟩
      dsimp only
      rw [hloop, Nat.add_assoc, Nat.add_comm 1]
    | some channel =>
      rw [across_of_some hchannel] at hsize hk
      have hlt : UInt32.ofNat k < UInt32.ofNat (total + (net.adjacent d' channel).length) ↔
          k < total + (net.adjacent d' channel).length := by
        rw [UInt32.lt_iff_toNat_lt, UInt32.toNat_ofNat_of_lt' hklt,
          UInt32.toNat_ofNat_of_lt' (by change _ < 2 ^ 32; omega)]
      dsimp only
      rw [← UInt32.ofNat_add]
      split_ifs with hin
      · rw [hlt] at hin
        have hsub : (UInt32.ofNat k - UInt32.ofNat total).toNat = k - total := by
          have htotal : total < 2 ^ 32 := by omega
          rw [NixVector.toNat_sub] <;>
            rw [UInt32.toNat_ofNat_of_lt' hklt, UInt32.toNat_ofNat_of_lt' htotal]
          exact hle
        rw [if_pos (by omega), List.getElem?_map] at hk
        obtain ⟨r', hr', heq⟩ := Option.map_eq_some_iff.1 hk
        cases heq
        exact ⟨0, by rw [hsub, hr']; rfl, rfl⟩
      · rw [hlt] at hin
        rw [if_neg (by omega), Nat.sub_sub] at hk
        obtain ⟨j, hloop, hj⟩ := ih (total + (net.adjacent d' channel).length) (i + 1) (by omega)
          (by omega) hk
        refine ⟨j + 1, ?_, hj⟩
        rw [hloop, Nat.add_assoc, Nat.add_comm 1]

/-- The index of a neighbour leads to the device it is seen through. -/
theorem findNetDeviceForNixIndex_of_links {n : N} {k : ℕ} {d r : D}
    (hsize : (net.decodedNeighbors n).length < 2 ^ 32) (hk : (net.links n)[k]? = some (d, r)) :
    ∃ i, net.findNetDeviceForNixIndex n (UInt32.ofNat k) = (i, some r) ∧
      (net.devices n)[i]? = some d := by
  obtain ⟨j, hloop, hj⟩ := findNetDeviceLoop_spec 0 0 (Nat.zero_le k)
    (by rwa [Nat.zero_add]) hk
  rw [Nat.zero_add] at hloop
  exact ⟨j, hloop, hj⟩

theorem findNetDeviceLoop_lt (net : Network N D C A) (nodeIndex : UInt32) (ds : List D) (i : ℕ)
    (total : UInt32) :
    (net.findNetDeviceLoop nodeIndex ds i total).1 = 0 ∨
      (net.findNetDeviceLoop nodeIndex ds i total).1 < i + ds.length := by
  induction ds generalizing i total with
  | nil => exact .inl rfl
  | cons d ds ih =>
    have hstep : ∀ total, (net.findNetDeviceLoop nodeIndex ds (i + 1) total).1 = 0 ∨
        (net.findNetDeviceLoop nodeIndex ds (i + 1) total).1 < i + (d :: ds).length := by
      intro total
      have := ih (i + 1) total
      rw [List.length_cons]
      omega
    unfold findNetDeviceLoop
    split
    · exact hstep total
    · dsimp only
      split_ifs
      · right
        rw [List.length_cons]
        omega
      · exact hstep _

/-- The number is always one of a device. -/
theorem findNetDeviceForNixIndex_lt {n : N} {d : D} (hd : d ∈ net.devices n)
    (nodeIndex : UInt32) :
    (net.findNetDeviceForNixIndex n nodeIndex).1 < (net.devices n).length := by
  have hpos := List.length_pos_of_mem hd
  have hlt := net.findNetDeviceLoop_lt nodeIndex (net.devices n) 0 0
  unfold findNetDeviceForNixIndex
  omega

theorem mem_of_mapM_eq_some {α β : Type*} {f : α → Option β} {l : List α} {bs : List β}
    (h : l.mapM f = some bs) {b : β} (hb : b ∈ bs) : ∃ a ∈ l, f a = some b := by
  induction l generalizing bs with
  | nil =>
    cases h
    exact absurd hb List.not_mem_nil
  | cons a l ih =>
    rw [List.mapM_cons] at h
    have ⟨x, hx, hrest⟩ := Option.bind_eq_some_iff.1 h
    have ⟨xs, hxs, heq⟩ := Option.bind_eq_some_iff.1 hrest
    cases heq
    rcases List.mem_cons.1 hb with rfl | hmem
    · exact ⟨a, List.mem_cons_self, hx⟩
    · have ⟨a', ha', hf⟩ := ih hxs hmem
      exact ⟨a', List.mem_cons_of_mem a ha', hf⟩

/-- Bridges lead to devices of other channels. -/
theorem mem_channelDevices_of_adjacent {fuel : ℕ} {d : D} {channel : C} {container : List D}
    (h : net.getAdjacentNetDevices fuel d channel = some container) {r : D} (hr : r ∈ container) :
    ∃ c, r ∈ net.channelDevices c := by
  induction fuel generalizing d channel container with
  | zero => cases h
  | succ fuel ih =>
    have ⟨containers, hcontainers, heq⟩ := Option.bind_eq_some_iff.1 h
    cases heq
    have ⟨part, hpart, hmem⟩ := List.mem_flatten.1 hr
    have ⟨remote, hremote, hsome⟩ := mem_of_mapM_eq_some hcontainers hpart
    split at hsome
    · have ⟨bridged, hbridged, heq⟩ := Option.bind_eq_some_iff.1 hsome
      cases heq
      have ⟨behind, hbehind, hmem'⟩ := List.mem_flatten.1 hmem
      have ⟨port, _, hport⟩ := mem_of_mapM_eq_some hbridged hbehind
      split at hport
      · cases hport
        exact absurd hmem' List.not_mem_nil
      · exact ih hport hmem'
    · cases hsome
      rw [List.mem_singleton.1 hmem]
      exact ⟨channel, (List.mem_filter.1 hremote).1⟩

theorem attached_of_across {d r : D} (hr : r ∈ net.across d) :
    r ∈ net.devices (net.node r) ∧ net.isLoopback r = false := by
  unfold across at hr
  split at hr
  · exact absurd hr List.not_mem_nil
  · rename_i channel _
    have hsome := (Option.some_get (net.loopFree d channel)).symm
    have ⟨c, hc⟩ := mem_channelDevices_of_adjacent hsome hr
    exact net.attached c r hc

theorem flatMap_filter_eq_iff {α β : Type*} (f : α → List β) (p : α → Bool) (l : List α) :
    (l.filter p).flatMap f = l.flatMap f ↔ ∀ a ∈ l, p a = false → f a = [] := by
  induction l with
  | nil => simp
  | cons a l ih =>
    have hle : ((l.filter p).flatMap f).length ≤ (l.flatMap f).length :=
      (List.filter_sublist.flatMap f).length_le
    rw [List.forall_mem_cons, List.flatMap_cons, List.filter_cons]
    split_ifs with hp
    · rw [List.flatMap_cons, List.append_cancel_left_eq, ih]
      simp [hp]
    · rw [← ih]
      constructor
      · intro h
        have hlen := congrArg List.length h
        rw [List.length_append] at hlen
        have hnil : f a = [] := List.length_eq_zero_iff.1 (by omega)
        rw [hnil, List.nil_append] at h
        exact ⟨fun _ => hnil, h⟩
      · intro ⟨hnil, h⟩
        rw [hnil (by simpa using hp), List.nil_append, h]

/-- Encoder and decoder go through the same neighbours exactly if no bridge of the node has a
neighbour of its own. -/
theorem neighbors_agree_iff (net : Network N D C A) (n : N) :
    net.encodedNeighbors n = net.decodedNeighbors n ↔
      ∀ d ∈ net.devices n, net.isBridge d = true → net.across d = [] := by
  rw [encodedNeighbors, decodedNeighbors, flatMap_filter_eq_iff]
  simp

end Lists

end Network

/-- Two nodes on a channel; the first has its port 0 in a bridge, device 1. -/
def bridgedPair : Network (Fin 2) (Fin 3) (Fin 2) ℕ where
  nodes := [0, 1]
  devices := fun n => if n = 0 then [0, 1] else [2]
  node := fun d => if d = 2 then 1 else 0
  isBridge := fun d => d = 1
  bridgePorts := fun d => if d = 1 then [0] else []
  channel := fun d => if d = 1 then some 1 else some 0
  channelDevices := fun _ => [0, 2]
  isLinkUp := fun _ => true
  isUp := fun _ => true
  address := fun d => d.val
  isLoopback := fun _ => false
  depth := 2
  loopFree := by decide
  mem_nodes := by decide
  node_devices := by decide
  attached := by decide
  distinct := by decide

theorem bridgedPair_disagrees :
    ¬ bridgedPair.encodedNeighbors 0 = bridgedPair.decodedNeighbors 0 := by decide

end SeanetSim
