import Mathlib.Data.Prod.Lex
import Mathlib.Data.UInt
import SeanetSim.Internet.Identification
import SeanetSim.Internet.UdpReceive
import SeanetSim.Lib.Selection

/-!
# Lookup of a static route

`Ipv4StaticRouting::LookupStatic` goes once through the network routes and keeps the best one so
far, by mask length and then by metric.  It stops at the first host route that it takes, whose mask
cannot be beaten, and so never sees the metrics of later host routes to the same destination
(`lookupStatic_best_iff`).
-/

namespace SeanetSim

/-! ## Masks -/

namespace Ipv4Mask

def isMatch (mask : UInt32) (a b : Ipv4Address) : Bool :=
  (a.address &&& mask) == (b.address &&& mask)

/-- The loop of `GetPrefixLength`, with a bound on its rounds. -/
def prefixLoop : ℕ → UInt32 → UInt16 → UInt16
  | 0, _, tmp => tmp
  | fuel + 1, mask, tmp => if mask ≠ 0 then prefixLoop fuel (mask <<< 1) (tmp + 1) else tmp

def getPrefixLength (mask : UInt32) : UInt16 := prefixLoop 32 mask 0

/-- The contiguous mask of a length. -/
def ofLength (n : ℕ) : UInt32 := .ofNat (2 ^ 32 - 2 ^ (32 - n))

theorem prefixLoop_zero (fuel : ℕ) (tmp : UInt16) : prefixLoop fuel 0 tmp = tmp := by
  cases fuel <;> rfl

theorem toNat_shiftLeft_one (mask : UInt32) : (mask <<< 1).toNat = 2 * mask.toNat % 2 ^ 32 := by
  simp [UInt32.toNat_shiftLeft, Nat.shiftLeft_eq, Nat.mul_comm]

/-- Rounds beyond those that shift the whole mask out change nothing. -/
theorem prefixLoop_add {fuel : ℕ} {mask : UInt32} (h : 2 ^ 32 ∣ mask.toNat * 2 ^ fuel) (k : ℕ)
    (tmp : UInt16) : prefixLoop (fuel + k) mask tmp = prefixLoop fuel mask tmp := by
  induction fuel generalizing mask tmp with
  | zero =>
    have hzero : mask = 0 := by
      rw [Nat.pow_zero, Nat.mul_one] at h
      exact UInt32.toNat_inj.1 (Nat.eq_zero_of_dvd_of_lt h mask.toNat_lt)
    rw [hzero, prefixLoop_zero, prefixLoop_zero]
  | succ fuel ih =>
    rw [Nat.succ_add, prefixLoop, prefixLoop, ih]
    rw [toNat_shiftLeft_one, (Nat.mod_modEq _ _).mul_right _ |>.dvd_iff dvd_rfl]
    rwa [Nat.mul_comm 2, Nat.mul_assoc, ← Nat.pow_succ']

/-- The bound is no restriction. -/
theorem prefixLoop_of_le {fuel : ℕ} (h : 32 ≤ fuel) (mask : UInt32) :
    prefixLoop fuel mask 0 = getPrefixLength mask := by
  obtain ⟨k, rfl⟩ := Nat.exists_eq_add_of_le h
  exact prefixLoop_add (Nat.dvd_mul_left _ _) k 0

theorem prefixLoop_le {tmp : UInt16} (fuel : ℕ) (mask : UInt32) (h : tmp.toNat + fuel < 2 ^ 16) :
    (prefixLoop fuel mask tmp).toNat ≤ tmp.toNat + fuel := by
  induction fuel generalizing mask tmp with
  | zero => exact Nat.le_refl _
  | succ fuel ih =>
    rw [prefixLoop]
    split_ifs
    · have hsucc : (tmp + 1).toNat = tmp.toNat + 1 := by
        rw [UInt16.toNat_add]
        exact Nat.mod_eq_of_lt (by simp only [UInt16.reduceToNat]; omega)
      have := ih (mask <<< 1) (by omega : (tmp + 1).toNat + fuel < 2 ^ 16)
      omega
    · exact Nat.le_add_right _ _

theorem getPrefixLength_le (mask : UInt32) : getPrefixLength mask ≤ 32 :=
  UInt16.le_iff_toNat_le.2 (prefixLoop_le 32 mask (by decide : (0 : UInt16).toNat + 32 < 2 ^ 16))

theorem getPrefixLength_ofLength {n : ℕ} (h : n ≤ 32) :
    (getPrefixLength (ofLength n)).toNat = n :=
  (by decide : ∀ n : Fin 33, (getPrefixLength (ofLength n)).toNat = n) ⟨n, Nat.lt_succ_of_le h⟩

end Ipv4Mask

/-! ## Routes -/

structure Ipv4RoutingTableEntry where
  dest : Ipv4Address
  destNetworkMask : UInt32
  gateway : Ipv4Address
  interface : UInt32
deriving DecidableEq

structure Ipv4StaticRouting.Ipv4Route where
  dest : Ipv4Address
  source : Ipv4Address
  gateway : Ipv4Address
  outputDevice : ℕ
deriving DecidableEq

/-- What the lookup calls of the abstract class `Ipv4`. -/
structure Ipv4 where
  getNetDevice : UInt32 → ℕ
  getInterfaceForDevice : ℕ → UInt32
  getAddress : UInt32 → UInt32 → Ipv4InterfaceAddress
  sourceAddressSelection : UInt32 → Ipv4Address → Ipv4Address

/-- The route that the lookup makes of an entry. -/
def Ipv4.routeOf (ipv4 : Ipv4) (route : Ipv4RoutingTableEntry) : Ipv4StaticRouting.Ipv4Route :=
  let interfaceIdx := route.interface
  { dest := route.dest
    source := ipv4.sourceAddressSelection interfaceIdx route.dest
    gateway := route.gateway
    outputDevice := ipv4.getNetDevice interfaceIdx }

/-- The routes of `m_networkRoutes`, each with its metric. -/
structure Ipv4StaticRouting where
  ipv4 : Ipv4
  networkRoutes : List (Ipv4RoutingTableEntry × UInt32)

namespace Ipv4StaticRouting

/-- The loop of `LookupStatic`. -/
def lookupLoop (ipv4 : Ipv4) (dest : Ipv4Address) (oif : Option ℕ) :
    List (Ipv4RoutingTableEntry × UInt32) → UInt16 → UInt32 → Option Ipv4Route → Option Ipv4Route
  | [], _, _, rtentry => rtentry
  | (j, metric) :: rest, longestMask, shortestMetric, rtentry =>
    let masklen := Ipv4Mask.getPrefixLength j.destNetworkMask
    if Ipv4Mask.isMatch j.destNetworkMask dest j.dest then
      if oif.any fun device => device != ipv4.getNetDevice j.interface then
        lookupLoop ipv4 dest oif rest longestMask shortestMetric rtentry
      else if masklen < longestMask then
        lookupLoop ipv4 dest oif rest longestMask shortestMetric rtentry
      else
        let shortestMetric := if masklen > longestMask then 0xffffffff else shortestMetric
        if metric > shortestMetric then
          lookupLoop ipv4 dest oif rest masklen shortestMetric rtentry
        else if masklen = 32 then some (ipv4.routeOf j)
        else lookupLoop ipv4 dest oif rest masklen metric (some (ipv4.routeOf j))
    else lookupLoop ipv4 dest oif rest longestMask shortestMetric rtentry

/-- `LookupStatic` for a unicast packet; none where an assertion fails. -/
def lookupStatic (s : Ipv4StaticRouting) (dest : Ipv4Address) (oif : Option ℕ) :
    Option (Option Ipv4Route) :=
  if dest.isLocalMulticast then
    oif.map fun device => some
      { dest := dest
        source := (s.ipv4.getAddress (s.ipv4.getInterfaceForDevice device) 0).localAddress
        gateway := .getAny
        outputDevice := device }
  else some (lookupLoop s.ipv4 dest oif s.networkRoutes 0 0xffffffff none)

/-! ## The best route -/

section Lookup

variable (ipv4 : Ipv4) (dest : Ipv4Address) (oif : Option ℕ)

/-- A route that the loop does not skip: it matches the destination, on the device if one is
given. -/
def Usable (i : Ipv4RoutingTableEntry × UInt32) : Prop :=
  i.1.dest.address &&& i.1.destNetworkMask = dest.address &&& i.1.destNetworkMask ∧
    ∀ device ∈ oif, device = ipv4.getNetDevice i.1.interface

instance (i : Ipv4RoutingTableEntry × UInt32) : Decidable (Usable ipv4 dest oif i) :=
  inferInstanceAs (Decidable (_ ∧ _))

/-- A usable route with a mask of 32 bits. -/
def Host (i : Ipv4RoutingTableEntry × UInt32) : Prop :=
  Usable ipv4 dest oif i ∧ Ipv4Mask.getPrefixLength i.1.destNetworkMask = 32

instance (i : Ipv4RoutingTableEntry × UInt32) : Decidable (Host ipv4 dest oif i) :=
  inferInstanceAs (Decidable (_ ∧ _))

/-- Long masks first, then small metrics. -/
def rank (i : Ipv4RoutingTableEntry × UInt32) : ℕᵒᵈ ×ₗ ℕ :=
  toLex (.toDual (Ipv4Mask.getPrefixLength i.1.destNetworkMask).toNat, i.2.toNat)

def usableRank (i : Option (Ipv4RoutingTableEntry × UInt32)) : Option (ℕᵒᵈ ×ₗ ℕ) :=
  (i.filter fun i => Usable ipv4 dest oif i).map rank

variable {ipv4 dest oif} {i : Ipv4RoutingTableEntry × UInt32}
  {rest : List (Ipv4RoutingTableEntry × UInt32)} {longestMask : UInt16} {shortestMetric : UInt32}
  {rtentry : Option Ipv4Route}

/-- The two checks of the loop. -/
theorem usable_iff : Usable ipv4 dest oif i ↔
    Ipv4Mask.isMatch i.1.destNetworkMask dest i.1.dest = true ∧
      (oif.any fun device => device != ipv4.getNetDevice i.1.interface) = false := by
  apply and_congr (eq_comm.trans beq_iff_eq.symm)
  cases oif with
  | none => simp
  | some device => simp

theorem lookupLoop_of_not_usable (h : ¬ Usable ipv4 dest oif i) :
    lookupLoop ipv4 dest oif (i :: rest) longestMask shortestMetric rtentry =
      lookupLoop ipv4 dest oif rest longestMask shortestMetric rtentry := by
  rw [lookupLoop]
  by_cases hmatch : Ipv4Mask.isMatch i.1.destNetworkMask dest i.1.dest = true
  · rw [if_pos hmatch, if_pos]
    exact eq_true_of_ne_false fun hdevice => h (usable_iff.2 ⟨hmatch, hdevice⟩)
  · rw [if_neg hmatch]

theorem usableRank_of_usable (h : Usable ipv4 dest oif i) :
    usableRank ipv4 dest oif (some i) = some (rank i) := by
  rw [usableRank, Option.filter_some, if_pos (decide_eq_true h), Option.map_some]

theorem usableRank_of_not_usable (h : ¬ Usable ipv4 dest oif i) :
    usableRank ipv4 dest oif (some i) = none := by
  rw [usableRank, Option.filter_some, if_neg (by simpa using h), Option.map_none]

theorem rank_le_iff : rank i ≤ toLex (.toDual longestMask.toNat, shortestMetric.toNat) ↔
    longestMask < Ipv4Mask.getPrefixLength i.1.destNetworkMask ∨
      Ipv4Mask.getPrefixLength i.1.destNetworkMask = longestMask ∧ i.2 ≤ shortestMetric := by
  rw [rank, Prod.Lex.toLex_le_toLex, OrderDual.toDual_lt_toDual, OrderDual.toDual_inj,
    UInt16.toNat_inj]
  exact Iff.rfl

/-- The loop takes a route that ranks as high as the best one so far. -/
theorem lookupLoop_of_rank_le (h : Usable ipv4 dest oif i)
    (hrank : rank i ≤ toLex (.toDual longestMask.toNat, shortestMetric.toNat)) :
    lookupLoop ipv4 dest oif (i :: rest) longestMask shortestMetric rtentry =
      if Ipv4Mask.getPrefixLength i.1.destNetworkMask = 32 then some (ipv4.routeOf i.1)
      else lookupLoop ipv4 dest oif rest (Ipv4Mask.getPrefixLength i.1.destNetworkMask) i.2
        (some (ipv4.routeOf i.1)) := by
  obtain ⟨hmatch, hdevice⟩ := usable_iff.1 h
  rw [lookupLoop, if_pos hmatch, if_neg (by rw [hdevice]; exact Bool.false_ne_true)]
  rcases rank_le_iff.1 hrank with hlonger | ⟨heq, hle⟩
  · rw [if_neg (UInt16.lt_asymm hlonger)]
    dsimp only
    rw [if_pos hlonger, if_neg (UInt32.not_lt.2 ?_)]
    exact UInt32.le_iff_toNat_le.2 (Nat.le_of_lt_succ i.2.toNat_lt)
  · rw [heq, if_neg (UInt16.lt_irrefl _)]
    dsimp only
    rw [if_neg (UInt16.lt_irrefl _), if_neg (UInt32.not_lt.2 hle)]

theorem lookupLoop_of_not_rank_le (h : Usable ipv4 dest oif i)
    (hrank : ¬ rank i ≤ toLex (.toDual longestMask.toNat, shortestMetric.toNat)) :
    lookupLoop ipv4 dest oif (i :: rest) longestMask shortestMetric rtentry =
      lookupLoop ipv4 dest oif rest longestMask shortestMetric rtentry := by
  obtain ⟨hmatch, hdevice⟩ := usable_iff.1 h
  rw [lookupLoop, if_pos hmatch, if_neg (by rw [hdevice]; exact Bool.false_ne_true)]
  obtain ⟨hnot, hworse⟩ := not_or.1 (rank_le_iff.not.1 hrank)
  by_cases hshorter : Ipv4Mask.getPrefixLength i.1.destNetworkMask < longestMask
  · rw [if_pos hshorter]
  · have heq : Ipv4Mask.getPrefixLength i.1.destNetworkMask = longestMask :=
      UInt16.le_antisymm (UInt16.not_lt.1 hnot) (UInt16.not_lt.1 hshorter)
    rw [if_neg hshorter]
    dsimp only
    rw [heq, if_neg (UInt16.lt_irrefl _), if_pos]
    exact UInt32.not_le.1 fun hle => hworse ⟨heq, hle⟩

/-- Without host routes the loop keeps a route of the highest rank, the last one of several. -/
theorem lookupLoop_eq_foldl {l : List (Ipv4RoutingTableEntry × UInt32)}
    (hnone : ∀ i ∈ l, ¬ Host ipv4 dest oif i) (best : Option (Ipv4RoutingTableEntry × UInt32))
    (longestMask : UInt16) (shortestMetric : UInt32) :
    lookupLoop ipv4 dest oif l longestMask shortestMetric
        (best.map fun i => ipv4.routeOf i.1) =
      (((l.map some).foldl (keepBest (· ≤ ·) (usableRank ipv4 dest oif))
        (best, toLex (.toDual longestMask.toNat, shortestMetric.toNat))).1.map
          fun i => ipv4.routeOf i.1) := by
  induction l generalizing best longestMask shortestMetric with
  | nil => rfl
  | cons i rest ih =>
    obtain ⟨hi, hnone⟩ := List.forall_mem_cons.1 hnone
    rw [List.map_cons, List.foldl_cons, keepBest]
    by_cases husable : Usable ipv4 dest oif i
    · rw [usableRank_of_usable husable]
      dsimp only
      split_ifs with hrank
      · rw [lookupLoop_of_rank_le husable hrank, if_neg fun h => hi ⟨husable, h⟩]
        exact ih hnone (some i) _ _
      · rw [lookupLoop_of_not_rank_le husable hrank]
        exact ih hnone best _ _
    · rw [lookupLoop_of_not_usable husable, usableRank_of_not_usable husable]
      exact ih hnone best _ _

/-- The first host route ends the loop. -/
theorem lookupLoop_of_find?_host {l : List (Ipv4RoutingTableEntry × UInt32)}
    (hfind : l.find? (fun i => Host ipv4 dest oif i) = some i) (hlong : longestMask < 32) :
    lookupLoop ipv4 dest oif l longestMask shortestMetric rtentry = some (ipv4.routeOf i.1) := by
  induction l generalizing longestMask shortestMetric rtentry with
  | nil => exact absurd hfind (Option.some_ne_none i).symm
  | cons j rest ih =>
    rcases List.find?_cons_eq_some.1 hfind with ⟨hhost, rfl⟩ | ⟨hnot, hfind⟩
    · obtain ⟨husable, hlen⟩ := of_decide_eq_true hhost
      rw [lookupLoop_of_rank_le husable (rank_le_iff.2 (.inl (hlen ▸ hlong))), if_pos hlen]
    · replace hnot : ¬ Host ipv4 dest oif j := by simpa using hnot
      by_cases husable : Usable ipv4 dest oif j
      · by_cases hrank : rank j ≤ toLex (.toDual longestMask.toNat, shortestMetric.toNat)
        · have hlen : Ipv4Mask.getPrefixLength j.1.destNetworkMask ≠ 32 := fun h =>
            hnot ⟨husable, h⟩
          rw [lookupLoop_of_rank_le husable hrank, if_neg hlen]
          exact ih hfind (UInt16.lt_of_le_of_ne (Ipv4Mask.getPrefixLength_le _) hlen)
        · rw [lookupLoop_of_not_rank_le husable hrank]
          exact ih hfind hlong
      · rw [lookupLoop_of_not_usable husable]
        exact ih hfind hlong

end Lookup

section Best

variable (s : Ipv4StaticRouting) (dest : Ipv4Address) (oif : Option ℕ)

/-- A usable route with the longest mask and, among those with this mask, the smallest metric. -/
def Best (len : Ipv4RoutingTableEntry → ℕ) (i : Ipv4RoutingTableEntry × UInt32) : Prop :=
  i ∈ s.networkRoutes ∧ Usable s.ipv4 dest oif i ∧
    ∀ k ∈ s.networkRoutes, Usable s.ipv4 dest oif k →
      len k.1 ≤ len i.1 ∧ (len k.1 = len i.1 → i.2 ≤ k.2)

/-- The lookup returns nothing exactly if no route can be used, and otherwise a best one. -/
def ReturnsBest (len : Ipv4RoutingTableEntry → ℕ) : Prop :=
  ∃ rtentry, s.lookupStatic dest oif = some rtentry ∧
    (rtentry = none ↔ ∀ i ∈ s.networkRoutes, ¬ Usable s.ipv4 dest oif i) ∧
    ∀ r, rtentry = some r → ∃ i, s.Best dest oif len i ∧ s.ipv4.routeOf i.1 = r

/-- The first host route leads where a host route with the smallest metric does. -/
def FirstHostCheapest : Prop :=
  ∀ i, s.networkRoutes.find? (fun i => Host s.ipv4 dest oif i) = some i →
    ∃ k ∈ s.networkRoutes, Host s.ipv4 dest oif k ∧
      (∀ j ∈ s.networkRoutes, Host s.ipv4 dest oif j → k.2 ≤ j.2) ∧
      s.ipv4.routeOf k.1 = s.ipv4.routeOf i.1

variable {s dest oif} {len : Ipv4RoutingTableEntry → ℕ}

theorem lookupLoop_none_or_least (hnone : ∀ i ∈ s.networkRoutes, ¬ Host s.ipv4 dest oif i) :
    (lookupLoop s.ipv4 dest oif s.networkRoutes 0 0xffffffff none = none ∧
        ∀ i ∈ s.networkRoutes, ¬ Usable s.ipv4 dest oif i) ∨
      ∃ i ∈ s.networkRoutes, Usable s.ipv4 dest oif i ∧
        lookupLoop s.ipv4 dest oif s.networkRoutes 0 0xffffffff none =
          some (s.ipv4.routeOf i.1) ∧
        ∀ k ∈ s.networkRoutes, Usable s.ipv4 dest oif k → rank i ≤ rank k := by
  have hloop := lookupLoop_eq_foldl hnone none 0 0xffffffff
  rw [Option.map_none] at hloop
  rcases foldl_keepBest_cases (· ≤ ·) (usableRank s.ipv4 dest oif) (s.networkRoutes.map some)
    (none, toLex (.toDual (0 : UInt16).toNat, (0xffffffff : UInt32).toNat)) with
    ⟨hstart, hworse⟩ | ⟨a, ha, d, hd, -, hbest⟩
  · refine .inl ⟨by rw [hloop, hstart, Option.map_none], fun i hi husable => ?_⟩
    refine hworse _ (List.mem_map_of_mem hi) _ (usableRank_of_usable husable) (rank_le_iff.2 ?_)
    by_cases hlen : Ipv4Mask.getPrefixLength i.1.destNetworkMask = 0
    · exact .inr ⟨hlen, UInt32.le_iff_toNat_le.2 (Nat.le_of_lt_succ i.2.toNat_lt)⟩
    · exact .inl (UInt16.pos_iff_ne_zero.2 hlen)
  · obtain ⟨i, hi, rfl⟩ := List.mem_map.1 ha
    by_cases husable : Usable s.ipv4 dest oif i
    · refine .inr ⟨i, hi, husable, by rw [hloop, hbest, Option.map_some], fun k hk hkusable => ?_⟩
      have hle := foldl_keepBest_le (fun _ _ => id) (fun _ _ h => le_of_not_ge h)
        (none, toLex (.toDual (0 : UInt16).toNat, (0xffffffff : UInt32).toNat))
        (List.mem_map_of_mem hk) (usableRank_of_usable hkusable)
      rw [hbest] at hle
      rw [usableRank_of_usable husable] at hd
      cases hd
      exact hle
    · rw [usableRank_of_not_usable husable] at hd
      cases hd

/-- With contiguous masks, a best route is one of the highest rank. -/
theorem best_iff_rank_le
    (hlen : ∀ i ∈ s.networkRoutes, len i.1 ≤ 32 ∧ i.1.destNetworkMask = Ipv4Mask.ofLength (len i.1))
    {i : Ipv4RoutingTableEntry × UInt32} :
    s.Best dest oif len i ↔ i ∈ s.networkRoutes ∧ Usable s.ipv4 dest oif i ∧
      ∀ k ∈ s.networkRoutes, Usable s.ipv4 dest oif k → rank i ≤ rank k := by
  refine and_congr_right fun hi => and_congr_right fun _ => ?_
  refine forall₂_congr fun k hk => imp_congr_right fun _ => ?_
  have hprefix (j : Ipv4RoutingTableEntry × UInt32) (hj : j ∈ s.networkRoutes) :
      (Ipv4Mask.getPrefixLength j.1.destNetworkMask).toNat = len j.1 := by
    rw [(hlen j hj).2, Ipv4Mask.getPrefixLength_ofLength (hlen j hj).1]
  rw [rank, rank, hprefix i hi, hprefix k hk, Prod.Lex.toLex_le_toLex, OrderDual.toDual_lt_toDual,
    OrderDual.toDual_inj, UInt32.le_iff_toNat_le]
  dsimp only
  omega

theorem usable_host_iff
    (hlen : ∀ i ∈ s.networkRoutes, len i.1 ≤ 32 ∧ i.1.destNetworkMask = Ipv4Mask.ofLength (len i.1))
    {i : Ipv4RoutingTableEntry × UInt32} (hi : i ∈ s.networkRoutes) :
    Host s.ipv4 dest oif i ↔ Usable s.ipv4 dest oif i ∧ len i.1 = 32 := by
  refine and_congr_right fun _ => ?_
  rw [← UInt16.toNat_inj, (hlen i hi).2, Ipv4Mask.getPrefixLength_ofLength (hlen i hi).1]
  exact Iff.rfl

/-- Where a host route can be used, the best routes are the host routes of the smallest metric. -/
theorem best_iff_host
    (hlen : ∀ i ∈ s.networkRoutes, len i.1 ≤ 32 ∧ i.1.destNetworkMask = Ipv4Mask.ofLength (len i.1))
    {h k : Ipv4RoutingTableEntry × UInt32} (hmem : h ∈ s.networkRoutes)
    (hhost : Host s.ipv4 dest oif h) :
    s.Best dest oif len k ↔ k ∈ s.networkRoutes ∧ Host s.ipv4 dest oif k ∧
      ∀ j ∈ s.networkRoutes, Host s.ipv4 dest oif j → k.2 ≤ j.2 := by
  constructor
  · rintro ⟨hk, hkusable, hbest⟩
    obtain ⟨husable, h32⟩ := (usable_host_iff hlen hmem).1 hhost
    have hk32 : len k.1 = 32 := by
      have := (hbest h hmem husable).1
      have := (hlen k hk).1
      omega
    refine ⟨hk, (usable_host_iff hlen hk).2 ⟨hkusable, hk32⟩, fun j hj hjhost => ?_⟩
    obtain ⟨hjusable, hj32⟩ := (usable_host_iff hlen hj).1 hjhost
    exact (hbest j hj hjusable).2 (hj32.trans hk32.symm)
  · rintro ⟨hk, hkhost, hleast⟩
    obtain ⟨hkusable, hk32⟩ := (usable_host_iff hlen hk).1 hkhost
    refine ⟨hk, hkusable, fun j hj hjusable => ⟨hk32 ▸ (hlen j hj).1, fun heq => ?_⟩⟩
    exact hleast j hj ((usable_host_iff hlen hj).2 ⟨hjusable, heq.trans hk32⟩)

end Best

/-- The lookup returns a best route, or nothing if there is none, exactly if the first host route
to the destination leads where one with the smallest metric does. -/
theorem lookupStatic_best_iff {s : Ipv4StaticRouting} {dest : Ipv4Address} {oif : Option ℕ}
    {len : Ipv4RoutingTableEntry → ℕ}
    (hlen : ∀ i ∈ s.networkRoutes, len i.1 ≤ 32 ∧ i.1.destNetworkMask = Ipv4Mask.ofLength (len i.1))
    (hdest : dest.isLocalMulticast = false) :
    s.ReturnsBest dest oif len ↔ s.FirstHostCheapest dest oif := by
  have hlookup : s.lookupStatic dest oif =
      some (lookupLoop s.ipv4 dest oif s.networkRoutes 0 0xffffffff none) := by
    rw [lookupStatic, hdest]
    exact if_neg Bool.false_ne_true
  unfold ReturnsBest FirstHostCheapest
  simp only [hlookup, Option.some.injEq, exists_eq_left']
  cases hfind : s.networkRoutes.find? fun i => Host s.ipv4 dest oif i with
  | none =>
    have hnone : ∀ i ∈ s.networkRoutes, ¬ Host s.ipv4 dest oif i := by
      simpa using hfind
    refine iff_of_true ?_ nofun
    rcases lookupLoop_none_or_least hnone with ⟨hloop, hunusable⟩ | ⟨i, hi, husable, hloop, hleast⟩
    · rw [hloop]
      exact ⟨iff_of_true rfl hunusable, nofun⟩
    · rw [hloop]
      refine ⟨iff_of_false (Option.some_ne_none _) fun h => h i hi husable, fun r hr => ?_⟩
      exact ⟨i, (best_iff_rank_le hlen).2 ⟨hi, husable, hleast⟩, Option.some.inj hr⟩
  | some h =>
    have hhost : Host s.ipv4 dest oif h := by simpa using List.find?_some hfind
    have hmem : h ∈ s.networkRoutes := List.mem_of_find?_eq_some hfind
    rw [lookupLoop_of_find?_host hfind (by decide)]
    constructor
    · rintro ⟨-, hbest⟩ i hi
      obtain ⟨k, hk, hroute⟩ := hbest _ rfl
      obtain ⟨hk, hkhost, hleast⟩ := (best_iff_host hlen hmem hhost).1 hk
      exact ⟨k, hk, hkhost, hleast, by rw [hroute, Option.some.inj hi]⟩
    · intro hcheapest
      obtain ⟨k, hk, hkhost, hleast, hroute⟩ := hcheapest h rfl
      have hbest : s.Best dest oif len k :=
        (best_iff_host hlen hmem hhost).2 ⟨hk, hkhost, hleast⟩
      exact ⟨iff_of_false (Option.some_ne_none _) fun hnone => hnone h hmem hhost.1,
        fun r hr => ⟨k, hbest, hroute.trans (Option.some.inj hr)⟩⟩

/-- A node with an interface for each device. -/
def plainIpv4 : Ipv4 where
  getNetDevice := fun i => i.toNat
  getInterfaceForDevice := .ofNat
  getAddress := fun i _ => ⟨.ofUInt32 (0x0a000101 + i), .ofUInt32 0x0a0001ff, 0xffffff00⟩
  sourceAddressSelection := fun i _ => .ofUInt32 (0x0a000101 + i)

/-- Two routes to 10.0.0.9, of which the second one has the smaller metric, and a default route. -/
def twoHostRoutes : Ipv4StaticRouting where
  ipv4 := plainIpv4
  networkRoutes :=
    [(⟨.ofUInt32 0x0a000009, 0xffffffff, .ofUInt32 0x0a000102, 1⟩, 5),
      (⟨.ofUInt32 0x0a000009, 0xffffffff, .ofUInt32 0x0a000103, 2⟩, 1),
      (⟨.ofUInt32 0, 0, .ofUInt32 0x0a000104, 1⟩, 0)]

def maskLength (j : Ipv4RoutingTableEntry) : ℕ := if j.destNetworkMask = 0 then 0 else 32

theorem lookupStatic_best_iff_twoHostRoutes :
    twoHostRoutes.ReturnsBest (.ofUInt32 0x0a000009) (some 2) maskLength ↔
      twoHostRoutes.FirstHostCheapest (.ofUInt32 0x0a000009) (some 2) :=
  lookupStatic_best_iff (by decide) (by decide)

theorem not_lookupStatic_best :
    ¬ ∀ (s : Ipv4StaticRouting) (dest : Ipv4Address) (oif : Option ℕ)
      (len : Ipv4RoutingTableEntry → ℕ),
      (∀ i ∈ s.networkRoutes, len i.1 ≤ 32 ∧ i.1.destNetworkMask = Ipv4Mask.ofLength (len i.1)) →
      dest.isBroadcast = false → dest.isMulticast = false → s.ReturnsBest dest oif len := by
  intro h
  obtain ⟨rtentry, hlookup, -, hbest⟩ :=
    h twoHostRoutes (.ofUInt32 0x0a000009) none maskLength (by decide) (by decide) (by decide)
  obtain ⟨i, ⟨hi, -, hleast⟩, hroute⟩ := hbest
    (plainIpv4.routeOf ⟨.ofUInt32 0x0a000009, 0xffffffff, .ofUInt32 0x0a000102, 1⟩)
    ((Option.some.inj hlookup).symm.trans (by decide))
  revert hroute hleast
  revert i
  decide

end Ipv4StaticRouting

end SeanetSim
