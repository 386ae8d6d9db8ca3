import SeanetSim.Lib.BreadthFirst
import SeanetSim.NixVectorRouting.Topology

/-!
# Building a nix-vector

`GetNixVector` searches the destination breadth first and encodes the path of the parents, from the
destination back to the source.  `bfs_eq` identifies the search as the one of
`SeanetSim.Lib.BreadthFirst`, and `Network.getNixVector_eq` says which indices the vector has.
-/

namespace SeanetSim

namespace Network

variable {N D C A : Type*} [DecidableEq N] [DecidableEq D] (net : Network N D C A)

/-- The loop over the adjacent devices: their nodes are pushed if they have no parent. -/
def push (currNode : N) (container : List D) (s : (N → Option N) × List N) :
    (N → Option N) × List N :=
  container.foldl (fun s iter => discover currNode s (net.node iter)) s

/-- The loop over the devices of the current node. -/
def pushAll (currNode : N) (devices : List D) (s : (N → Option N) × List N) :
    (N → Option N) × List N :=
  devices.foldl (fun s localNetDevice =>
    if !net.isUp localNetDevice then s
    else if !net.isLinkUp localNetDevice then s
    else match net.channel localNetDevice with
      | none => s
      | some channel => net.push currNode (net.adjacent localNetDevice channel) s) s

/-- The loop of `BFS`, with fuel for its iterations. -/
def bfsLoop (source dest : N) (oif : Option D) :
    ℕ → (N → Option N) → List N → Option (Bool × (N → Option N))
  | 0, _, _ => none
  | _ + 1, parentVector, [] => some (false, parentVector)
  | fuel + 1, parentVector, currNode :: greyNodeList =>
    if currNode = dest then some (true, parentVector)
    else match if currNode = source then oif else none with
      | some device =>
        if !net.isUp device then some (false, parentVector)
        else if !net.isLinkUp device then some (false, parentVector)
        else match net.channel device with
          | none => some (false, parentVector)
          | some channel =>
            let s := net.push currNode (net.adjacent device channel) (parentVector, greyNodeList)
            bfsLoop source dest oif fuel s.1 s.2
      | none =>
        let s := net.pushAll currNode (net.devices currNode) (parentVector, greyNodeList)
        bfsLoop source dest oif fuel s.1 s.2

/-- Every node is pushed at most once. -/
def bfs (source dest : N) (oif : Option D) : Option (Bool × (N → Option N)) :=
  net.bfsLoop source dest oif (net.nodes.length + 1)
    (Function.update (fun _ => none) source (some source)) [source]

/-- The recursion follows the parents, with fuel for its calls; `none` also where
`AddNeighborIndex` stops with a fatal error.  What the recursive call returns is not used. -/
def buildNixVector : ℕ → (N → Option N) → N → N → NixVector → Option (Bool × NixVector)
  | 0, _, _, _, _ => none
  | fuel + 1, parentVector, source, dest, nixVector =>
    if source = dest then some (true, nixVector)
    else match parentVector dest with
      | none => some (false, nixVector)
      | some parentNode => do
        let (destId, totalNeighbors) := net.scanDevices dest (net.devices parentNode) 0 0
        let nixVector ← nixVector.addNeighborIndex destId (NixVector.bitCount totalNeighbors)
        let (_, nixVector) ← buildNixVector fuel parentVector source parentNode nixVector
        some (true, nixVector)

/-- The devices whose addresses `BuildIpv4AddressToNodeMap` enters. -/
def addressedDevices : List D :=
  (net.nodes.flatMap net.devices).filter fun device => !net.isLoopback device

def getNodeByIp [DecidableEq A] (dest : A) : Option N :=
  (net.addressedDevices.find? fun device => net.address device = dest).map net.node

/-- `GetNixVector`, once `GetNodeByIp` has been asked; `some none` is the null pointer that it
returns where there is no path. -/
def getNixVectorTo (source : N) (destNode : Option N) (oif : Option D) :
    Option (Option NixVector) :=
  match destNode with
  | none => some none
  | some destNode =>
    if source = destNode then some none
    else
      (net.bfs source destNode oif).bind fun (_, parentVector) =>
        (net.buildNixVector (net.nodes.length + 1) parentVector source destNode
          NixVector.empty).map fun (built, nixVector) => if built then some nixVector else none

def getNixVector [DecidableEq A] (source : N) (dest : A) (oif : Option D) :
    Option (Option NixVector) :=
  net.getNixVectorTo source (net.getNodeByIp dest) oif

/-! ## The graph -/

/-- `BFS` goes through the device. -/
def usable (d : D) : Bool := net.isUp d && net.isLinkUp d

/-- The nodes that `BFS` sees through a device. -/
def reached (d : D) : List N := if net.usable d then (net.across d).map net.node else []

/-- The nodes that `BFS` sees from a node. -/
def children (source : N) (oif : Option D) (n : N) : List N :=
  match if n = source then oif else none with
  | some device => net.reached device
  | none => (net.devices n).flatMap net.reached

section Search

variable {net} {source dest : N} {oif : Option D}

theorem push_eq (currNode : N) (container : List D) (s : (N → Option N) × List N) :
    net.push currNode container s = (container.map net.node).foldl (discover currNode) s := by
  rw [push, List.foldl_map]

omit [DecidableEq N] in
theorem reached_of_channel {d : D} {channel : C} (hup : net.isUp d = true)
    (hlink : net.isLinkUp d = true) (hchannel : net.channel d = some channel) :
    net.reached d = (net.adjacent d channel).map net.node := by
  rw [reached, usable, hup, hlink, across_of_some hchannel]
  rfl

omit [DecidableEq N] in
theorem reached_of_not_usable {d : D} (h : net.usable d = false) : net.reached d = [] := by
  rw [reached, h]
  rfl

omit [DecidableEq N] in
theorem reached_of_no_channel {d : D} (h : net.channel d = none) : net.reached d = [] := by
  rw [reached, across_of_none h, List.map_nil, ite_self]

theorem pushAll_eq (currNode : N) (devices : List D) (s : (N → Option N) × List N) :
    net.pushAll currNode devices s =
      (devices.flatMap net.reached).foldl (discover currNode) s := by
  induction devices generalizing s with
  | nil => rfl
  | cons d devices ih =>
    unfold pushAll at ih ⊢
    rw [List.foldl_cons, ih, List.flatMap_cons, List.foldl_append]
    congr 1
    cases hup : net.isUp d with
    | false =>
      rw [reached_of_not_usable (by rw [usable, hup, Bool.false_and])]
      rfl
    | true =>
      cases hlink : net.isLinkUp d with
      | false =>
        rw [reached_of_not_usable (by rw [usable, hlink, Bool.and_false])]
        rfl
      | true =>
        cases hchannel : net.channel d with
        | none =>
          rw [reached_of_no_channel hchannel]
          rfl
        | some channel =>
          rw [reached_of_channel hup hlink hchannel]
          exact push_eq _ _ _

theorem children_of_ne {n : N} (h : n ≠ source) :
    net.children source oif n = (net.devices n).flatMap net.reached := by
  rw [children, if_neg h]

theorem children_none (source n : N) :
    net.children source none n = (net.devices n).flatMap net.reached := by
  rw [children, ite_self]

theorem children_source (source : N) (device : D) :
    net.children source (some device) source = net.reached device := by
  rw [children, if_pos rfl]

/-- The source is not pushed again. -/
theorem notMem_foldl_discover (currNode : N) (l : List N) (s : (N → Option N) × List N)
    (hqueue : source ∉ s.2) (hparent : s.1 source ≠ none) :
    source ∉ (l.foldl (discover currNode) s).2 ∧
      (l.foldl (discover currNode) s).1 source ≠ none := by
  induction l generalizing s with
  | nil => exact ⟨hqueue, hparent⟩
  | cons n l ih =>
    rw [List.foldl_cons]
    apply ih
    · unfold discover
      split_ifs with hn
      · intro hmem
        rcases List.mem_append.1 hmem with hmem | hmem
        · exact hqueue hmem
        · exact hparent (List.mem_singleton.1 hmem ▸ hn)
      · exact hqueue
    · unfold discover
      split_ifs with hn
      · have hne : source ≠ n := fun heq => hparent (by rw [heq, hn])
        dsimp only
        rw [Function.update_of_ne hne]
        exact hparent
      · exact hparent

theorem bfsLoop_eq {fuel : ℕ} {parentVector : N → Option N} {greyNodeList : List N}
    (hqueue : source ∉ greyNodeList) (hparent : parentVector source ≠ none) :
    net.bfsLoop source dest oif fuel parentVector greyNodeList =
      breadthFirstLoop (net.children source oif) dest fuel parentVector greyNodeList := by
  induction fuel generalizing parentVector greyNodeList with
  | zero => rfl
  | succ fuel ih =>
    cases greyNodeList with
    | nil => rfl
    | cons currNode greyNodeList =>
      have hne : currNode ≠ source := fun heq => hqueue (heq ▸ List.mem_cons_self)
      unfold bfsLoop breadthFirstLoop
      rw [if_neg hne, children_of_ne hne]
      dsimp only
      rw [pushAll_eq]
      have hkeep := notMem_foldl_discover currNode ((net.devices currNode).flatMap net.reached)
        (parentVector, greyNodeList) (fun hmem => hqueue (List.mem_cons_of_mem _ hmem)) hparent
      rw [ih hkeep.1 hkeep.2]

theorem bfs_eq (source dest : N) (oif : Option D) :
    net.bfs source dest oif =
      breadthFirst (net.children source oif) (net.nodes.length + 1) source dest := by
  have hparent : Function.update (fun _ => none) source (some source) source ≠ none := by
    rw [Function.update_self]
    exact Option.some_ne_none source
  have hkeep := fun l : List N => notMem_foldl_discover source l
    (Function.update (fun _ => none) source (some source), []) List.not_mem_nil hparent
  have hend : ∀ parentVector, breadthFirstLoop (net.children source oif) dest net.nodes.length
      parentVector [] = some (false, parentVector) := by
    intro parentVector
    have hpos := List.length_pos_of_mem (net.mem_nodes source)
    match hlength : net.nodes.length, hpos with
    | _ + 1, _ => rfl
  unfold bfs breadthFirst bfsLoop breadthFirstLoop
  split_ifs with hdest hsource
  · rfl
  · cases oif with
    | none =>
      dsimp only
      rw [pushAll_eq, bfsLoop_eq (hkeep _).1 (hkeep _).2, children_none]
    | some device =>
      dsimp only
      rw [children_source]
      cases hup : net.isUp device with
      | false =>
        rw [reached_of_not_usable (by rw [usable, hup, Bool.false_and])]
        exact (hend _).symm
      | true =>
        cases hlink : net.isLinkUp device with
        | false =>
          rw [reached_of_not_usable (by rw [usable, hlink, Bool.and_false])]
          exact (hend _).symm
        | true =>
          cases hchannel : net.channel device with
          | none =>
            rw [reached_of_no_channel hchannel]
            exact (hend _).symm
          | some channel =>
            rw [reached_of_channel hup hlink hchannel]
            dsimp only
            rw [push_eq]
            exact bfsLoop_eq (hkeep _).1 (hkeep _).2
  · exact absurd rfl hsource

theorem bfs_outcome (net : Network N D C A) (source dest : N) (oif : Option D) :
    ∃ found parentVector, net.bfs source dest oif = some (found, parentVector) ∧
      SearchOutcome (net.children source oif) source dest parentVector net.nodes.length := by
  rw [bfs_eq]
  exact breadthFirst_outcome net.mem_nodes _ source dest

end Search

/-! ## The indices of a path -/

/-- The index that `BuildNixVector` adds for a hop, with its width. -/
def hopEntry (parentNode dest : N) : UInt32 × UInt32 :=
  let s := net.scanDevices dest (net.devices parentNode) 0 0
  (s.1, NixVector.bitCount s.2)

/-- The indices of a path, given by the nodes after the first. -/
def entries : N → List N → List (UInt32 × UInt32)
  | _, [] => []
  | u, v :: p => net.hopEntry u v :: entries v p

section Build

variable {net} {source dest : N} {oif : Option D} {parentVector : N → Option N} {p : List N}

theorem entries_concat {u v w : N} (h : Descends parentVector source u p v) :
    net.entries u (p ++ [w]) = net.entries u p ++ [net.hopEntry v w] := by
  induction p generalizing u with
  | nil =>
    cases h
    rfl
  | cons x p ih =>
    rw [List.cons_append, entries, ih h.2.2]
    rfl

theorem width_le {u : N} {e : UInt32 × UInt32} (he : e ∈ net.entries u p) : e.2.toNat ≤ 32 := by
  induction p generalizing u with
  | nil => exact absurd he List.not_mem_nil
  | cons v p ih =>
    rcases List.mem_cons.1 he with he | he
    · rw [he]
      exact NixVector.bitCount_le _
    · exact ih he

/-- The recursion adds the indices of the path of the parents, the last hop first. -/
theorem buildNixVector_eq {fuel : ℕ} (hp : TreePath parentVector source p dest)
    (hfuel : p.length < fuel) (nixVector : NixVector) :
    net.buildNixVector fuel parentVector source dest nixVector =
      (nixVector.addAll (net.entries source p).reverse).map fun nixVector => (true, nixVector) := by
  induction hp generalizing fuel nixVector with
  | root =>
    cases fuel with
    | zero => exact absurd hfuel (Nat.not_lt_zero _)
    | succ fuel =>
      rw [buildNixVector, if_pos rfl]
      rfl
  | child hp hne hparent ih =>
    cases fuel with
    | zero => exact absurd hfuel (Nat.not_lt_zero _)
    | succ fuel =>
      rw [List.length_append, List.length_singleton] at hfuel
      rw [buildNixVector, if_neg hne.symm, hparent, entries_concat hp.descends,
        List.reverse_append, List.reverse_singleton, List.singleton_append, NixVector.addAll]
      dsimp only [hopEntry]
      cases nixVector.addNeighborIndex _ _ with
      | none => rfl
      | some added =>
        simp only [Option.bind_eq_bind, Option.bind_some]
        rw [ih (by omega)]
        cases added.addAll _ <;> rfl

/-- The vector of a pair of nodes, none where there is no path. -/
theorem getNixVectorTo_eq (net : Network N D C A) (oif : Option D) (hne : source ≠ dest) :
    (∃ p, Greedy (net.children source oif) dest source p ∧
        net.getNixVectorTo source (some dest) oif =
          (NixVector.empty.addAll (net.entries source p).reverse).map some) ∨
      ((∀ q, ¬ Walk (net.children source oif) source q dest) ∧
        net.getNixVectorTo source (some dest) oif = some none) := by
  have ⟨found, parentVector, hsearch, houtcome⟩ := net.bfs_outcome source dest oif
  rw [getNixVectorTo]
  dsimp only
  rw [if_neg hne, hsearch, Option.bind_some]
  cases houtcome with
  | found path length walk greedy shortest =>
    refine .inl ⟨_, greedy, ?_⟩
    rw [buildNixVector_eq path (by omega)]
    cases NixVector.empty.addAll _ <;> rfl
  | unreachable unseen walk =>
    refine .inr ⟨walk, ?_⟩
    rw [buildNixVector, if_neg hne]
    dsimp only
    rw [unseen]
    rfl

/-- The vector that is built has the indices of a path. -/
theorem getNixVectorTo_cases (net : Network N D C A) (source : N) (destNode : Option N)
    (oif : Option D) :
    net.getNixVectorTo source destNode oif = some none ∨
      ∃ dest p nixVector, destNode = some dest ∧ source ≠ dest ∧
        Greedy (net.children source oif) dest source p ∧
        NixVector.empty.addAll (net.entries source p).reverse = some nixVector ∧
        net.getNixVectorTo source destNode oif = some (some nixVector) := by
  cases destNode with
  | none => exact .inl rfl
  | some dest =>
    by_cases hne : source = dest
    · exact .inl (if_pos hne)
    · cases net.getNixVectorTo_eq oif hne with
      | inl h =>
        have ⟨p, hp, hbuilt⟩ := h
        have hwidths : ∀ e ∈ (net.entries source p).reverse, e.2.toNat ≤ 32 := fun e he =>
          width_le (List.mem_reverse.1 he)
        have ⟨nixVector, hadd, _⟩ := NixVector.exists_addAll hwidths NixVector.empty
        rw [hadd] at hbuilt
        exact .inr ⟨dest, p, nixVector, rfl, hne, hp, hadd, hbuilt⟩
      | inr h => exact .inl h.2

section Address

variable [DecidableEq A] {address : A}

theorem getNixVector_of_greedy (hdest : net.getNodeByIp address = some dest)
    (hne : source ≠ dest) (hp : Greedy (net.children source oif) dest source p) :
    net.getNixVector source address oif =
      (NixVector.empty.addAll (net.entries source p).reverse).map some := by
  rw [getNixVector, hdest]
  cases net.getNixVectorTo_eq oif hne with
  | inl h =>
    have ⟨q, hq, hbuilt⟩ := h
    rw [hp.unique hq, hbuilt]
  | inr h => exact absurd hp.walk (h.1 p)

theorem greedy_of_getNixVector {nixVector : NixVector}
    (h : net.getNixVector source address oif = some (some nixVector)) :
    ∃ dest p, net.getNodeByIp address = some dest ∧ source ≠ dest ∧
      Greedy (net.children source oif) dest source p ∧
      NixVector.empty.addAll (net.entries source p).reverse = some nixVector := by
  cases net.getNixVectorTo_cases source (net.getNodeByIp address) oif with
  | inl hnone => cases h.symm.trans hnone
  | inr hsome =>
    have ⟨dest, p, nixVector', hdest, hne, hp, hadd, hbuilt⟩ := hsome
    cases h.symm.trans hbuilt
    exact ⟨dest, p, hdest, hne, hp, hadd⟩

end Address

end Build

end Network

end SeanetSim
