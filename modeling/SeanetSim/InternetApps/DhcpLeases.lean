import SeanetSim.Lib.Run
import SeanetSim.InternetApps.DhcpServer

/-!
# Leases of the DHCP server

What the three containers of the server keep to over a run, and which events break it
(`DhcpSystem.sound_iff`).  A static entry does not take its address out of a pool that
`StartApplication` fills afterwards, and may be given an address that another client has; a request
of a client whose lease has run out renews it without taking the client off the list; and the lease
of a static entry becomes an ordinary one with the first message of its client.
-/

namespace SeanetSim

namespace LeasedAddress

variable {m : LeasedAddress} {k k' o : HardwareAddress} {l : Lease} {a : Ipv4Address}
  {available : List Ipv4Address} {expired P : List HardwareAddress}

theorem getElem?_insert : (m.insert k l)[k']? = if k = k' then some l else m[k']? := by
  simp [Std.TreeMap.getElem?_insert]

theorem getElem?_erase : (m.erase k)[k']? = if k = k' then none else m[k']? := by
  simp [Std.TreeMap.getElem?_erase]

/-- No other client has the address. -/
def Free (m : LeasedAddress) (k : HardwareAddress) (a : Ipv4Address) : Prop :=
  ∀ (k' : HardwareAddress) (l : Lease), k' ≠ k → m[k']? = some l → l.address.address ≠ a.address

/-- No two clients have the same address. -/
def Distinct (m : LeasedAddress) : Prop :=
  ∀ (k : HardwareAddress) (l : Lease), m[k]? = some l → Free m k l.address

/-- No client has one of the addresses. -/
def Apart (m : LeasedAddress) (available : List Ipv4Address) : Prop :=
  ∀ (k : HardwareAddress) (l : Lease), m[k]? = some l → ∀ b ∈ available, l.address.address ≠ b.address

/-- The clients are listed once, and their leases have run out. -/
def Expired (m : LeasedAddress) (expired : List HardwareAddress) : Prop :=
  expired.Nodup ∧ ∀ k ∈ expired, ∃ l, m[k]? = some l ∧ l.time = 0

/-- The leases of the clients never run out. -/
def Permanent (m : LeasedAddress) (P : List HardwareAddress) : Prop :=
  ∀ k ∈ P, ∃ l, m[k]? = some l ∧ l.time = Lease.infinite

/-! ### Entries -/

theorem distinct_insert (h : Distinct m) : Distinct (m.insert k l) ↔ Free m k l.address := by
  constructor
  · intro h' k' l' hne hk'
    apply h' k l (by simp) k' l' hne
    rwa [getElem?_insert, if_neg (Ne.symm hne)]
  · intro hfree k₁ l₁ hk₁ k₂ l₂ hne hk₂
    rw [getElem?_insert] at hk₁ hk₂
    by_cases h₁ : k = k₁
    · rw [if_neg (fun h₂ => hne (h₂.symm.trans h₁))] at hk₂
      rw [if_pos h₁] at hk₁
      cases hk₁
      exact hfree k₂ l₂ (h₁ ▸ hne) hk₂
    · rw [if_neg h₁] at hk₁
      by_cases h₂ : k = k₂
      · rw [if_pos h₂] at hk₂
        cases hk₂
        exact fun heq => hfree k₁ l₁ (Ne.symm h₁) hk₁ heq.symm
      · rw [if_neg h₂] at hk₂
        exact h k₁ l₁ hk₁ k₂ l₂ hne hk₂

theorem apart_insert (h : Apart m available) :
    Apart (m.insert k l) available ↔ ∀ b ∈ available, l.address.address ≠ b.address := by
  constructor
  · exact fun h' => h' k l (by simp)
  · intro hl k' l' hk'
    rw [getElem?_insert] at hk'
    split_ifs at hk' with hkk
    · cases hk'
      exact hl
    · exact h k' l' hk'

theorem expired_insert (h : Expired m expired) :
    Expired (m.insert k l) expired ↔ (k ∈ expired → l.time = 0) := by
  constructor
  · intro h' hk
    obtain ⟨l', hl', htime⟩ := h'.2 k hk
    rw [getElem?_insert, if_pos rfl] at hl'
    cases hl'
    exact htime
  · refine fun hl => ⟨h.1, fun k' hk' => ?_⟩
    rw [getElem?_insert]
    by_cases hkk : k = k'
    · exact ⟨l, if_pos hkk, hl (hkk ▸ hk')⟩
    · rw [if_neg hkk]
      exact h.2 k' hk'

theorem permanent_insert (h : Permanent m P) :
    Permanent (m.insert k l) P ↔ (k ∈ P → l.time = Lease.infinite) := by
  constructor
  · intro h' hk
    obtain ⟨l', hl', htime⟩ := h' k hk
    rw [getElem?_insert, if_pos rfl] at hl'
    cases hl'
    exact htime
  · intro hl k' hk'
    rw [getElem?_insert]
    by_cases hkk : k = k'
    · exact ⟨l, if_pos hkk, hl (hkk ▸ hk')⟩
    · rw [if_neg hkk]
      exact h k' hk'

theorem Permanent.insert (h : Permanent m P) (hl : l.time = Lease.infinite) :
    Permanent (m.insert k l) (k :: P) :=
  List.forall_mem_cons.2 ⟨⟨l, by simp, hl⟩, (permanent_insert h).2 fun _ => hl⟩

/-! ### Erased entries -/

theorem Distinct.erase (h : Distinct m) : Distinct (m.erase o) := by
  intro k₁ l₁ hk₁ k₂ l₂ hne hk₂
  rw [getElem?_erase] at hk₁ hk₂
  split_ifs at hk₁ hk₂
  exact h k₁ l₁ hk₁ k₂ l₂ hne hk₂

theorem Expired.erase (h : Expired m expired) (ho : o ∉ expired) : Expired (m.erase o) expired := by
  refine ⟨h.1, fun k hk => ?_⟩
  rw [getElem?_erase, if_neg (fun hok : o = k => ho (hok ▸ hk))]
  exact h.2 k hk

theorem Permanent.erase (h : Permanent m P) (ho : o ∉ P) : Permanent (m.erase o) P := by
  intro k hk
  rw [getElem?_erase, if_neg (fun hok : o = k => ho (hok ▸ hk))]
  exact h k hk

theorem Expired.sublist {expired' : List HardwareAddress} (h : Expired m expired)
    (hsub : expired'.Sublist expired) : Expired m expired' :=
  ⟨h.1.sublist hsub, fun k hk => h.2 k (hsub.subset hk)⟩

/-- A client with an entry that has not run out is not listed. -/
theorem Expired.notMem (h : Expired m expired) (hk : ∀ l, m[k]? = some l → l.time ≠ 0) :
    k ∉ expired := fun hmem =>
  have ⟨l, hl, htime⟩ := h.2 k hmem
  hk l hl htime

/-! ### A second passes -/

/-- The entries a second later. -/
def countDown (m : LeasedAddress) : LeasedAddress := m.map fun _ l => DhcpServer.countDown l

/-- The clients whose leases run out with this second. -/
def runningOut (m : LeasedAddress) : List HardwareAddress :=
  (m.toList.filter fun e => e.2.time == 1).map Prod.fst

theorem getElem?_countDown : m.countDown[k]? = m[k]?.map DhcpServer.countDown := by
  simp [countDown]

@[simp] theorem address_countDown : (DhcpServer.countDown l).address = l.address := by
  unfold DhcpServer.countDown
  split_ifs <;> rfl

theorem exists_of_countDown (h : m.countDown[k]? = some l) :
    ∃ l', m[k]? = some l' ∧ DhcpServer.countDown l' = l := by
  rw [getElem?_countDown] at h
  exact Option.map_eq_some_iff.1 h

theorem mem_runningOut : k ∈ runningOut m ↔ ∃ l, m[k]? = some l ∧ l.time = 1 := by
  simp [runningOut]

theorem nodup_runningOut : (runningOut m).Nodup := by
  have hkeys := Std.TreeMap.distinct_keys_toList (t := m)
  apply List.Nodup.of_map id
  rw [List.map_id, runningOut, List.Nodup, List.pairwise_map]
  exact (hkeys.imp fun hne heq => hne (compare_eq_iff_eq.2 heq)).filter _

theorem Distinct.countDown (h : Distinct m) : Distinct m.countDown := by
  intro k₁ l₁ hk₁ k₂ l₂ hne hk₂
  obtain ⟨l₁', hk₁', rfl⟩ := exists_of_countDown hk₁
  obtain ⟨l₂', hk₂', rfl⟩ := exists_of_countDown hk₂
  rw [address_countDown, address_countDown]
  exact h k₁ l₁' hk₁' k₂ l₂' hne hk₂'

theorem Apart.countDown (h : Apart m available) : Apart m.countDown available := by
  intro k l hk
  obtain ⟨l', hk', rfl⟩ := exists_of_countDown hk
  rw [address_countDown]
  exact h k l' hk'

theorem Permanent.countDown (h : Permanent m P) : Permanent m.countDown P := by
  intro k hk
  obtain ⟨l, hl, htime⟩ := h k hk
  refine ⟨l, ?_, htime⟩
  rw [getElem?_countDown, hl, Option.map_some, DhcpServer.countDown, if_neg (by simp [htime])]

theorem Expired.countDown (h : Expired m expired) :
    Expired m.countDown ((runningOut m).reverse ++ expired) := by
  have hdisjoint : ∀ k ∈ (runningOut m).reverse, k ∉ expired := by
    intro k hk hmem
    obtain ⟨l, hl, htime⟩ := mem_runningOut.1 (List.mem_reverse.1 hk)
    obtain ⟨l', hl', htime'⟩ := h.2 k hmem
    rw [hl] at hl'
    cases hl'
    rw [htime] at htime'
    exact absurd htime' (by decide)
  refine ⟨List.nodup_append.2 ⟨List.nodup_reverse.2 nodup_runningOut, h.1, ?_⟩, fun k hk => ?_⟩
  · intro k hk k' hk' heq
    exact hdisjoint k hk (heq ▸ hk')
  · rw [getElem?_countDown]
    rcases List.mem_append.1 hk with hk | hk
    · obtain ⟨l, hl, htime⟩ := mem_runningOut.1 (List.mem_reverse.1 hk)
      refine ⟨DhcpServer.countDown l, by rw [hl, Option.map_some], ?_⟩
      rw [DhcpServer.countDown, if_pos (by rw [htime]; decide)]
      simp [htime]
    · obtain ⟨l, hl, htime⟩ := h.2 k hk
      refine ⟨l, ?_, htime⟩
      rw [hl, Option.map_some, DhcpServer.countDown, if_neg (by simp [htime])]

end LeasedAddress

/-! ### Messages -/

namespace DhcpServer

open LeasedAddress

variable {c : DhcpConfig} {s : DhcpServer} {k : HardwareAddress} {P : List HardwareAddress}

/-- Where the offered address comes from: the entry of the client, the pool, or the entry of the
client that has been listed as expired the longest. -/
theorem offeredAddress_cases (s : DhcpServer) (k : HardwareAddress) :
    (∃ l : Lease, s.leasedAddresses[k]? = some l ∧ s.offeredAddress k =
      (l.address, { s with expiredAddresses := s.expiredAddresses.filter (· ≠ k) })) ∨
    s.leasedAddresses[k]? = none ∧
      ((∃ a rest, s.availableAddresses = a :: rest ∧
        s.offeredAddress k = (a, { s with availableAddresses := rest })) ∨
      s.availableAddresses = [] ∧
        ((∃ clients o, s.expiredAddresses = clients ++ [o] ∧ s.offeredAddress k =
          (((s.leasedAddresses[o]?).map Lease.address).getD .uninitialized, { s with
            expiredAddresses := clients
            leasedAddresses := s.leasedAddresses.erase o })) ∨
        s.offeredAddress k = (.uninitialized, s))) := by
  unfold offeredAddress
  cases hk : s.leasedAddresses[k]? with
  | some l => exact .inl ⟨l, rfl, rfl⟩
  | none =>
    cases ha : s.availableAddresses with
    | cons a rest => exact .inr ⟨rfl, .inl ⟨a, rest, rfl, rfl⟩⟩
    | nil =>
      rcases s.expiredAddresses.eq_nil_or_concat' with hex | ⟨clients, o, hex⟩
      · exact .inr ⟨rfl, .inr ⟨rfl, .inr (by simp [hex])⟩⟩
      · exact .inr ⟨rfl, .inr ⟨rfl, .inl ⟨clients, o, hex, by simp [hex]⟩⟩⟩

/-- The offered address is nobody else's, and not in the pool any more. -/
theorem offeredAddress_entries (hd : Distinct s.leasedAddresses)
    (ha : Apart s.leasedAddresses s.availableAddresses)
    (hnodup : (s.availableAddresses.map Ipv4Address.address).Nodup) (k : HardwareAddress) :
    let out := s.offeredAddress k
    Distinct out.2.leasedAddresses ∧ Apart out.2.leasedAddresses out.2.availableAddresses ∧
      (out.1.same .uninitialized = false → Free out.2.leasedAddresses k out.1 ∧
        ∀ b ∈ out.2.availableAddresses, out.1.address ≠ b.address) := by
  rcases s.offeredAddress_cases k with
      ⟨l, hk, hout⟩ | ⟨hk, ⟨a, rest, hpool, hout⟩ | ⟨hpool, ⟨clients, o, hex, hout⟩ | hout⟩⟩
  · rw [hout]
    exact ⟨hd, ha, fun _ => ⟨hd k l hk, ha k l hk⟩⟩
  · rw [hout]
    rw [hpool] at ha hnodup
    refine ⟨hd, fun k' l hk' b hb => ha k' l hk' b (List.mem_cons_of_mem _ hb), fun _ => ⟨?_, ?_⟩⟩
    · exact fun k' l _ hk' => ha k' l hk' a List.mem_cons_self
    · intro b hb heq
      exact (List.nodup_cons.1 hnodup).1 (heq ▸ List.mem_map_of_mem hb)
  · rw [hout]
    refine ⟨hd.erase, by simp [Apart, hpool], fun hset => ⟨?_, by simp [hpool]⟩⟩
    cases ho : s.leasedAddresses[o]? with
    | none => simp [ho, Ipv4Address.same] at hset
    | some l =>
      intro k' l' _ hk'
      rw [getElem?_erase] at hk'
      split_ifs at hk' with hok
      exact hd o l ho k' l' (Ne.symm hok) hk'
  · rw [hout]
    exact ⟨hd, ha, fun hset => absurd hset (by simp [Ipv4Address.same])⟩

/-- A client that gets an offer is not listed as expired. -/
theorem offeredAddress_expired (he : Expired s.leasedAddresses s.expiredAddresses)
    (k : HardwareAddress) :
    let out := s.offeredAddress k
    Expired out.2.leasedAddresses out.2.expiredAddresses ∧ k ∉ out.2.expiredAddresses := by
  rcases s.offeredAddress_cases k with
      ⟨l, hk, hout⟩ | ⟨hk, ⟨a, rest, hpool, hout⟩ | ⟨hpool, ⟨clients, o, hex, hout⟩ | hout⟩⟩
  · rw [hout]
    exact ⟨he.sublist List.filter_sublist, by simp⟩
  · rw [hout]
    exact ⟨he, he.notMem (by simp [hk])⟩
  · rw [hout]
    have hsub : clients.Sublist s.expiredAddresses := hex ▸ List.sublist_append_left clients [o]
    have ho : o ∉ clients := by
      have hnodup := he.1
      rw [hex, List.nodup_append] at hnodup
      exact fun hmem => hnodup.2.2 o hmem o List.mem_cons_self rfl
    exact ⟨(he.sublist hsub).erase ho, fun hmem => he.notMem (by simp [hk]) (hsub.subset hmem)⟩
  · rw [hout]
    exact ⟨he, he.notMem (by simp [hk])⟩

theorem offeredAddress_permanent (he : Expired s.leasedAddresses s.expiredAddresses)
    (hp : Permanent s.leasedAddresses P) (k : HardwareAddress) :
    Permanent (s.offeredAddress k).2.leasedAddresses P := by
  rcases s.offeredAddress_cases k with
      ⟨l, hk, hout⟩ | ⟨hk, ⟨a, rest, hpool, hout⟩ | ⟨hpool, ⟨clients, o, hex, hout⟩ | hout⟩⟩
  · rw [hout]
    exact hp
  · rw [hout]
    exact hp
  · rw [hout]
    refine hp.erase fun ho => ?_
    -- the entry of a listed client has run out, so it is not a permanent one
    obtain ⟨l, hl, htime⟩ := hp o ho
    obtain ⟨l', hl', htime'⟩ := he.2 o (by simp [hex])
    rw [hl] at hl'
    cases hl'
    rw [htime] at htime'
    exact absurd htime' (by decide)
  · rw [hout]
    exact hp

/-- The server after an offer: the offered address is recorded unless it is the unset one. -/
theorem sendOffer_server (header : DhcpHeader) (senderAddr : InetSocketAddress)
    (myAddress : Ipv4Address) :
    let out := s.offeredAddress header.chaddr.toAddress
    (s.sendOffer c header senderAddr myAddress).1 =
      if out.1.same .uninitialized then out.2
      else { out.2 with leasedAddresses :=
        out.2.leasedAddresses.insert header.chaddr.toAddress ⟨out.1, c.lease⟩ } := by
  dsimp only [sendOffer]
  split_ifs <;> rfl

theorem sendOffer_entries (hd : Distinct s.leasedAddresses)
    (ha : Apart s.leasedAddresses s.availableAddresses)
    (hnodup : (s.availableAddresses.map Ipv4Address.address).Nodup) (header : DhcpHeader)
    (senderAddr : InetSocketAddress) (myAddress : Ipv4Address) :
    let s' := (s.sendOffer c header senderAddr myAddress).1
    Distinct s'.leasedAddresses ∧ Apart s'.leasedAddresses s'.availableAddresses := by
  dsimp only
  obtain ⟨hd', ha', hfree⟩ := offeredAddress_entries hd ha hnodup header.chaddr.toAddress
  rw [sendOffer_server]
  split_ifs with hset
  · exact ⟨hd', ha'⟩
  · obtain ⟨hfree, hpool⟩ := hfree (Bool.eq_false_iff.2 hset)
    exact ⟨(distinct_insert hd').2 hfree, (apart_insert ha').2 hpool⟩

theorem sendOffer_expired (he : Expired s.leasedAddresses s.expiredAddresses) (header : DhcpHeader)
    (senderAddr : InetSocketAddress) (myAddress : Ipv4Address) :
    let s' := (s.sendOffer c header senderAddr myAddress).1
    Expired s'.leasedAddresses s'.expiredAddresses := by
  dsimp only
  obtain ⟨he', hk⟩ := offeredAddress_expired he header.chaddr.toAddress
  rw [sendOffer_server]
  split_ifs with hset
  · exact he'
  · exact (expired_insert he').2 fun hmem => absurd hmem hk

theorem sendOffer_permanent (he : Expired s.leasedAddresses s.expiredAddresses)
    (hp : Permanent s.leasedAddresses P) (header : DhcpHeader) (senderAddr : InetSocketAddress)
    (myAddress : Ipv4Address) :
    Permanent (s.sendOffer c header senderAddr myAddress).1.leasedAddresses P ↔
      ¬ (header.chaddr.toAddress ∈ P ∧ c.lease ≠ Lease.infinite ∧
        ∃ l : Lease, s.leasedAddresses[header.chaddr.toAddress]? = some l ∧
          l.address.same .uninitialized = false) := by
  have hp' := offeredAddress_permanent he hp header.chaddr.toAddress
  rw [sendOffer_server]
  by_cases hmem : header.chaddr.toAddress ∈ P
  · obtain ⟨l, hl, -⟩ := hp _ hmem
    have hout : (s.offeredAddress header.chaddr.toAddress).1 = l.address := by
      simp [offeredAddress, hl]
    split_ifs with hset
    · rw [hout] at hset
      simp [hp', hl, hset]
    · rw [hout] at hset
      have hset := Bool.eq_false_iff.2 hset
      simp [permanent_insert hp', hmem, hl, hset, -Ipv4Address.same_iff]
  · split_ifs with hset
    · simp [hp', hmem]
    · simp [permanent_insert hp', hmem]

/-! ### Requests -/

/-- The containers after a request. -/
theorem sendAck_cases (c : DhcpConfig) (s : DhcpServer) (header : DhcpHeader)
    (senderAddr : InetSocketAddress) :
    (∃ l : Lease, s.leasedAddresses[header.chaddr.toAddress]? = some l ∧
      s.sendAck c header senderAddr =
        ({ s with leasedAddresses :=
            s.leasedAddresses.insert header.chaddr.toAddress ⟨l.address, l.time + c.lease⟩ },
          some (answer .ack header senderAddr))) ∨
    s.leasedAddresses[header.chaddr.toAddress]? = none ∧
      s.sendAck c header senderAddr = (s, some (answer .nack header senderAddr)) := by
  unfold sendAck
  cases hk : s.leasedAddresses[header.chaddr.toAddress]? with
  | some l => exact .inl ⟨l, rfl, by simp [hk]⟩
  | none => exact .inr ⟨rfl, by simp [hk]⟩

theorem sendAck_entries (hd : Distinct s.leasedAddresses)
    (ha : Apart s.leasedAddresses s.availableAddresses) (header : DhcpHeader)
    (senderAddr : InetSocketAddress) :
    let s' := (s.sendAck c header senderAddr).1
    Distinct s'.leasedAddresses ∧ Apart s'.leasedAddresses s'.availableAddresses := by
  rcases sendAck_cases c s header senderAddr with ⟨l, hk, hout⟩ | ⟨_, hout⟩
  · rw [hout]
    exact ⟨(distinct_insert hd).2 (hd _ l hk), (apart_insert ha).2 (ha _ l hk)⟩
  · rw [hout]
    exact ⟨hd, ha⟩

theorem sendAck_expired (he : Expired s.leasedAddresses s.expiredAddresses) (header : DhcpHeader)
    (senderAddr : InetSocketAddress) :
    Expired (s.sendAck c header senderAddr).1.leasedAddresses
        (s.sendAck c header senderAddr).1.expiredAddresses ↔
      ¬ (c.lease ≠ 0 ∧ header.chaddr.toAddress ∈ s.expiredAddresses) := by
  rcases sendAck_cases c s header senderAddr with ⟨l, hk, hout⟩ | ⟨hk, hout⟩
  · rw [hout]
    dsimp only
    rw [expired_insert he, not_and', not_not]
    refine forall_congr' fun hmem => ?_
    obtain ⟨l', hl', htime⟩ := he.2 _ hmem
    rw [hk] at hl'
    cases hl'
    simp [htime]
  · rw [hout]
    simpa [he] using fun _ => he.notMem (by simp [hk])

theorem sendAck_permanent (hp : Permanent s.leasedAddresses P) (header : DhcpHeader)
    (senderAddr : InetSocketAddress) :
    Permanent (s.sendAck c header senderAddr).1.leasedAddresses P ↔
      ¬ (c.lease ≠ 0 ∧ header.chaddr.toAddress ∈ P) := by
  rcases sendAck_cases c s header senderAddr with ⟨l, hk, hout⟩ | ⟨hk, hout⟩
  · rw [hout]
    dsimp only
    rw [permanent_insert hp, not_and', not_not]
    refine forall_congr' fun hmem => ?_
    obtain ⟨l', hl', htime⟩ := hp _ hmem
    rw [hk] at hl'
    cases hl'
    simp [htime]
  · rw [hout]
    have hmem : header.chaddr.toAddress ∉ P := by
      intro hmem
      obtain ⟨l, hl, -⟩ := hp _ hmem
      rw [hk] at hl
      cases hl
    simp [hp, hmem]

/-! ### Static entries and the start -/

theorem addStaticDhcpEntry_some {s' : DhcpServer} {chaddr : HardwareAddress} {addr : Ipv4Address}
    (h : s.addStaticDhcpEntry c chaddr addr = some s') :
    s' = { s with
      availableAddresses := s.availableAddresses.filter fun a => !a.same addr
      leasedAddresses := s.leasedAddresses.insert (Chaddr.ofAddress chaddr).toAddress
        ⟨addr, Lease.infinite⟩ } := by
  simp only [addStaticDhcpEntry] at h
  split_ifs at h
  cases h
  rfl

/-- The address that the server takes for its own when it starts. -/
def startAddress (c : DhcpConfig) (interfaces : List (List Ipv4Address)) : Option Ipv4Address :=
  (interfaceForPrefix c interfaces).bind (ownAddress c)

theorem startApplication_some {s' : DhcpServer} {interfaces : List (List Ipv4Address)}
    (h : s.startApplication c interfaces = some s') :
    s.started = false ∧ s'.started = true ∧ s'.expiredAddresses = s.expiredAddresses ∧
      s'.leasedAddresses = (match startAddress c interfaces with
        | none => s.leasedAddresses
        | some a => s.leasedAddresses.insert .invalid ⟨a, Lease.infinite⟩) ∧
      s'.availableAddresses = s.availableAddresses ++
        pool c ((startAddress c interfaces).getD .uninitialized) := by
  simp only [startApplication] at h
  split_ifs at h with _ hstarted
  cases hif : interfaceForPrefix c interfaces with
  | none => simp [hif] at h
  | some addresses =>
    simp only [hif, Option.some.injEq] at h
    subst h
    have hstart : startAddress c interfaces = ownAddress c addresses := by simp [startAddress, hif]
    rw [hstart]
    exact ⟨by simpa using hstarted, rfl, rfl, rfl, rfl⟩

theorem nodup_pool (a : Ipv4Address) : ((pool c a).map Ipv4Address.address).Nodup := by
  have hrange : (((List.range (c.maxAddress.address - c.minAddress.address + 1).toNat).map
      fun i => Ipv4Address.ofUInt32 (c.minAddress.address + .ofNat i)).map
        Ipv4Address.address).Nodup := by
    rw [List.map_map]
    refine List.Nodup.map_on (fun i hi j hj heq => ?_) List.nodup_range
    have hlt := (c.maxAddress.address - c.minAddress.address + 1).toNat_lt
    have hi' := List.mem_range.1 hi
    have hj' := List.mem_range.1 hj
    have heq' : UInt32.ofNat i = UInt32.ofNat j := by simpa [Ipv4Address.ofUInt32] using heq
    have hnat := congrArg UInt32.toNat heq'
    rw [UInt32.toNat_ofNat', UInt32.toNat_ofNat', Nat.mod_eq_of_lt (by omega),
      Nat.mod_eq_of_lt (by omega)] at hnat
    exact hnat
  exact hrange.sublist (List.filter_sublist.map _)

theorem not_same_of_mem_pool {a b : Ipv4Address} (h : b ∈ pool c a) : a.address ≠ b.address := by
  have hb := (List.mem_filter.1 h).2
  intro heq
  simp [Ipv4Address.same, heq] at hb

/-- What holds of the containers in any run. -/
structure Regular (s : DhcpServer) : Prop where
  nodup : (s.availableAddresses.map Ipv4Address.address).Nodup
  idle : s.started = false → s.availableAddresses = [] ∧ s.expiredAddresses = [] ∧
    s.leasedAddresses[HardwareAddress.invalid]? = none

theorem toAddress_ne_invalid (chaddr : Chaddr) : chaddr.toAddress ≠ .invalid := by
  intro h
  have hlength := congrArg (fun a => a.data.length) h
  simp [Chaddr.toAddress, HardwareAddress.invalid] at hlength

theorem netHandler_frame (c : DhcpConfig) (s : DhcpServer) (header : Option DhcpHeader)
    (senderAddr : InetSocketAddress) (myAddress : Ipv4Address) :
    let s' := (s.netHandler c header senderAddr myAddress).1
    s'.started = s.started ∧ s'.availableAddresses.Sublist s.availableAddresses := by
  cases header with
  | none => exact ⟨rfl, .refl _⟩
  | some header =>
    simp only [netHandler]
    split_ifs
    · have hout : (s.offeredAddress header.chaddr.toAddress).2.started = s.started ∧
          (s.offeredAddress header.chaddr.toAddress).2.availableAddresses.Sublist
            s.availableAddresses := by
        rcases s.offeredAddress_cases header.chaddr.toAddress with
            ⟨l, -, h⟩ | ⟨-, ⟨a, rest, hpool, h⟩ | ⟨-, ⟨clients, o, -, h⟩ | h⟩⟩
        · exact h ▸ ⟨rfl, .refl _⟩
        · exact h ▸ ⟨rfl, hpool ▸ List.sublist_cons_self a rest⟩
        · exact h ▸ ⟨rfl, .refl _⟩
        · exact h ▸ ⟨rfl, .refl _⟩
      rw [sendOffer_server]
      split_ifs
      · exact hout
      · exact hout
    · rcases sendAck_cases c s header senderAddr with ⟨l, -, h⟩ | ⟨-, h⟩
      · exact h ▸ ⟨rfl, .refl _⟩
      · exact h ▸ ⟨rfl, .refl _⟩
    · exact ⟨rfl, .refl _⟩

theorem regular_init : Regular .init := ⟨List.nodup_nil, fun _ => ⟨rfl, rfl, by simp [init]⟩⟩

theorem regular_apply {s' : DhcpServer} {e : DhcpEvent} {sent : Option DhcpMessage}
    (h : s.Regular) (happly : s.apply c e = some (s', sent)) : Regular s' := by
  cases e with
  | addStaticDhcpEntry chaddr addr =>
    obtain ⟨s'', hs'', heq⟩ := Option.map_eq_some_iff.1 happly
    cases heq
    rw [addStaticDhcpEntry_some hs'']
    refine ⟨h.nodup.sublist (List.filter_sublist.map _), fun hidle => ?_⟩
    obtain ⟨ha, he, hk⟩ := h.idle hidle
    refine ⟨by simp [ha], he, ?_⟩
    rw [getElem?_insert, if_neg (toAddress_ne_invalid _), hk]
  | startApplication interfaces =>
    obtain ⟨s'', hs'', heq⟩ := Option.map_eq_some_iff.1 happly
    cases heq
    obtain ⟨hidle, hstarted, -, -, havailable⟩ := startApplication_some hs''
    refine ⟨?_, fun hidle' => by simp [hstarted] at hidle'⟩
    rw [havailable, (h.idle hidle).1]
    exact nodup_pool _
  | netHandler header senderAddr myAddress =>
    simp only [apply] at happly
    split_ifs at happly with hstarted
    have hs' : (s.netHandler c header senderAddr myAddress).1 = s' := by rw [Option.some.inj happly]
    obtain ⟨hsame, hsub⟩ := netHandler_frame c s header senderAddr myAddress
    rw [hs'] at hsame hsub
    exact ⟨h.nodup.sublist (hsub.map _), fun hidle => by simp [hsame, hstarted] at hidle⟩
  | timerHandler =>
    simp only [apply] at happly
    split_ifs at happly with hstarted
    cases happly
    exact ⟨h.nodup, fun hidle => by simp [timerHandler, hstarted] at hidle⟩

end DhcpServer

/-! ### The system -/

/-- A lease that was acknowledged to a client, with the seconds it still has. -/
structure AckedLease where
  client : HardwareAddress
  address : Ipv4Address
  remaining : ℕ
deriving DecidableEq

/-- A server, the clients whose entries were made with an infinite lease, and what has been
acknowledged. -/
structure DhcpSystem where
  server : DhcpServer
  permanent : List HardwareAddress
  acked : List AckedLease

namespace DhcpEvent

/-- The key of the entry with an infinite lease that an event makes. -/
def permanent (c : DhcpConfig) : DhcpEvent → List HardwareAddress
  | .addStaticDhcpEntry chaddr _ => [(Chaddr.ofAddress chaddr).toAddress]
  | .startApplication interfaces =>
    if (DhcpServer.startAddress c interfaces).isSome then [.invalid] else []
  | _ => []

/-- The acknowledged leases after an event. -/
def elapse (acked : List AckedLease) : DhcpEvent → List AckedLease
  | .timerHandler => acked.map fun a => { a with remaining := a.remaining - 1 }
  | _ => acked

end DhcpEvent

/-- The lease that a message acknowledges, for the full lease time. -/
def DhcpMessage.acked (c : DhcpConfig) (msg : DhcpMessage) : Option AckedLease :=
  if msg.header.type = .ack then
    some ⟨msg.header.chaddr.toAddress, msg.header.yiaddr, c.lease.toNat⟩
  else none

namespace DhcpSystem

variable (c : DhcpConfig) (y : DhcpSystem) (e : DhcpEvent)

def init : DhcpSystem := ⟨.init, [], []⟩

def apply : Option DhcpSystem :=
  (y.server.apply c e).map fun (server, sent) =>
    { server
      permanent := e.permanent c ++ y.permanent
      acked := (sent.bind (·.acked c)).toList ++ e.elapse y.acked }

def Step (t : DhcpSystem) : Prop := y.apply c e = some t

/-- An event gives a client an address that another client has, or lets the server put it into the
pool. -/
def Clashes : Prop :=
  match e with
  | .addStaticDhcpEntry chaddr addr =>
    ¬ LeasedAddress.Free y.server.leasedAddresses (Chaddr.ofAddress chaddr).toAddress addr
  | .startApplication interfaces =>
    let own := DhcpServer.startAddress c interfaces
    ∃ (k : HardwareAddress) (l : Lease), y.server.leasedAddresses[k]? = some l ∧
      ∃ b ∈ own.toList ++ DhcpServer.pool c (own.getD .uninitialized), l.address.same b
  | _ => False

/-- An event gives a client that is listed as expired a lease that has not run out. -/
def Revives : Prop :=
  match e with
  | .addStaticDhcpEntry chaddr _ =>
    (Chaddr.ofAddress chaddr).toAddress ∈ y.server.expiredAddresses
  | .netHandler (some header) _ _ =>
    header.type = .req ∧ DhcpServer.inRange c header.req ∧ c.lease ≠ 0 ∧
      header.chaddr.toAddress ∈ y.server.expiredAddresses
  | _ => False

/-- A message comes from a client with a static entry, whose lease it changes. -/
def Forgets : Prop :=
  match e with
  | .netHandler (some header) _ _ =>
    header.chaddr.toAddress ∈ y.permanent ∧
      (header.type = .discover ∧ c.lease ≠ Lease.infinite ∧ (∃ l : Lease,
          y.server.leasedAddresses[header.chaddr.toAddress]? = some l ∧
            l.address.same .uninitialized = false) ∨
        header.type = .req ∧ DhcpServer.inRange c header.req ∧ c.lease ≠ 0)
  | _ => False

instance : Decidable (Clashes c y e) :=
  match e with
  | .addStaticDhcpEntry chaddr addr =>
    decidable_of_iff (¬ ∀ e ∈ y.server.leasedAddresses.toList,
      e.1 ≠ (Chaddr.ofAddress chaddr).toAddress → e.2.address.address ≠ addr.address) <| by
      simp only [Clashes, LeasedAddress.Free, Prod.forall,
        Std.TreeMap.mem_toList_iff_getElem?_eq_some]
      exact not_congr (forall₂_congr fun _ _ => imp.swap)
  | .startApplication interfaces =>
    decidable_of_iff (∃ e ∈ y.server.leasedAddresses.toList,
      ∃ b ∈ (DhcpServer.startAddress c interfaces).toList ++
        DhcpServer.pool c ((DhcpServer.startAddress c interfaces).getD .uninitialized),
        e.2.address.same b)
      (by simp only [Clashes, Prod.exists, Std.TreeMap.mem_toList_iff_getElem?_eq_some])
  | .netHandler _ _ _ => isFalse id
  | .timerHandler => isFalse id

instance : Decidable (Revives c y e) :=
  match e with
  | .addStaticDhcpEntry chaddr _ =>
    inferInstanceAs (Decidable ((Chaddr.ofAddress chaddr).toAddress ∈ y.server.expiredAddresses))
  | .netHandler (some header) _ _ =>
    inferInstanceAs (Decidable (header.type = .req ∧ DhcpServer.inRange c header.req ∧
      c.lease ≠ 0 ∧ header.chaddr.toAddress ∈ y.server.expiredAddresses))
  | .netHandler none _ _ => isFalse id
  | .startApplication _ => isFalse id
  | .timerHandler => isFalse id

/-- What the containers should keep to: nobody has the address of another client or one of the
pool, expired clients are listed once, and permanent entries stay permanent. -/
structure Sound (y : DhcpSystem) : Prop where
  distinct : y.server.leasedAddresses.Distinct
  apart : y.server.leasedAddresses.Apart y.server.availableAddresses
  expired : y.server.leasedAddresses.Expired y.server.expiredAddresses
  permanent : y.server.leasedAddresses.Permanent y.permanent

variable {c y e} {t : DhcpSystem}

theorem Step.server (h : Step c y e t) : ∃ sent, y.server.apply c e = some (t.server, sent) ∧
    t.permanent = e.permanent c ++ y.permanent ∧
    t.acked = (sent.bind (·.acked c)).toList ++ e.elapse y.acked := by
  obtain ⟨⟨s', sent⟩, happly, rfl⟩ := Option.map_eq_some_iff.1 h
  exact ⟨sent, happly, rfl, rfl⟩

theorem Step.regular (h : Step c y e t) (hreg : y.server.Regular) : t.server.Regular :=
  have ⟨_, happly, _⟩ := h.server
  DhcpServer.regular_apply hreg happly

/-- What the server is after each kind of event. -/
theorem Step.cases (h : Step c y e t) :
    match e with
    | .addStaticDhcpEntry chaddr addr =>
      t.server = { y.server with
        availableAddresses := y.server.availableAddresses.filter fun a => !a.same addr
        leasedAddresses := y.server.leasedAddresses.insert (Chaddr.ofAddress chaddr).toAddress
          ⟨addr, Lease.infinite⟩ }
    | .startApplication interfaces => y.server.startApplication c interfaces = some t.server
    | .netHandler header senderAddr myAddress =>
      t.server = (y.server.netHandler c header senderAddr myAddress).1
    | .timerHandler => t.server = y.server.timerHandler := by
  obtain ⟨sent, happly, -⟩ := h.server
  cases e with
  | addStaticDhcpEntry chaddr addr =>
    obtain ⟨s', hs', heq⟩ := Option.map_eq_some_iff.1 happly
    exact (Prod.mk.inj heq).1 ▸ DhcpServer.addStaticDhcpEntry_some hs'
  | startApplication interfaces =>
    obtain ⟨s', hs', heq⟩ := Option.map_eq_some_iff.1 happly
    exact (Prod.mk.inj heq).1 ▸ hs'
  | netHandler header senderAddr myAddress =>
    simp only [DhcpServer.apply] at happly
    split_ifs at happly
    exact (congrArg Prod.fst (Option.some.inj happly)).symm
  | timerHandler =>
    simp only [DhcpServer.apply] at happly
    split_ifs at happly
    exact (Prod.mk.inj (Option.some.inj happly)).1.symm

open LeasedAddress DhcpServer

theorem netHandler_entries {s : DhcpServer} (hreg : s.Regular) (hd : Distinct s.leasedAddresses)
    (ha : Apart s.leasedAddresses s.availableAddresses) (header : Option DhcpHeader)
    (senderAddr : InetSocketAddress) (myAddress : Ipv4Address) :
    let s' := (s.netHandler c header senderAddr myAddress).1
    Distinct s'.leasedAddresses ∧ Apart s'.leasedAddresses s'.availableAddresses := by
  cases header with
  | none => exact ⟨hd, ha⟩
  | some header =>
    simp only [netHandler]
    split_ifs
    · exact sendOffer_entries hd ha hreg.nodup header senderAddr myAddress
    · exact sendAck_entries hd ha header senderAddr
    · exact ⟨hd, ha⟩

theorem startApplication_entries {s s' : DhcpServer} {interfaces : List (List Ipv4Address)}
    (hreg : s.Regular) (hd : Distinct s.leasedAddresses)
    (hstart : s.startApplication c interfaces = some s') :
    (Distinct s'.leasedAddresses ∧ Apart s'.leasedAddresses s'.availableAddresses) ↔
      ∀ (k : HardwareAddress) (l : Lease), s.leasedAddresses[k]? = some l →
        ∀ b ∈ (startAddress c interfaces).toList ++
          pool c ((startAddress c interfaces).getD .uninitialized),
          l.address.address ≠ b.address := by
  obtain ⟨hidle, -, -, hleased, havailable⟩ := startApplication_some hstart
  rw [havailable, (hreg.idle hidle).1, List.nil_append, hleased]
  cases startAddress c interfaces with
  | none =>
    rw [Option.toList_none, List.nil_append]
    exact and_iff_right hd
  | some a =>
    have hown : ∀ b ∈ pool c a, a.address ≠ b.address := fun b => not_same_of_mem_pool
    have hkey := (hreg.idle hidle).2.2
    simp only [Option.toList_some, Option.getD_some, List.singleton_append, List.forall_mem_cons,
      distinct_insert hd]
    constructor
    · rintro ⟨hfree, hapart⟩ k l hk
      have hne : k ≠ .invalid := by
        rintro rfl
        rw [hkey] at hk
        cases hk
      refine ⟨hfree k l hne hk, hapart k l ?_⟩
      rw [getElem?_insert, if_neg (Ne.symm hne), hk]
    · intro h
      refine ⟨fun k l _ hk => (h k l hk).1, ?_⟩
      exact (apart_insert fun k l hk => (h k l hk).2).2 hown

theorem entries_step (hreg : y.server.Regular) (hd : Distinct y.server.leasedAddresses)
    (ha : Apart y.server.leasedAddresses y.server.availableAddresses) (hst : Step c y e t) :
    (Distinct t.server.leasedAddresses ∧
      Apart t.server.leasedAddresses t.server.availableAddresses) ↔ ¬ Clashes c y e := by
  have hcase := hst.cases
  cases e with
  | addStaticDhcpEntry chaddr addr =>
    rw [hcase]
    have hsub : Apart y.server.leasedAddresses
        (y.server.availableAddresses.filter fun a => !a.same addr) :=
      fun k l hk b hb => ha k l hk b (List.mem_filter.1 hb).1
    have hleft : ∀ b ∈ y.server.availableAddresses.filter (fun a => !a.same addr),
        addr.address ≠ b.address := by
      intro b hb heq
      simpa [Ipv4Address.same, heq] using (List.mem_filter.1 hb).2
    simp only [Clashes, not_not]
    rw [distinct_insert hd, apart_insert hsub]
    exact and_iff_left hleft
  | startApplication interfaces =>
    rw [startApplication_entries hreg hd hcase]
    simp [Clashes]
  | netHandler header senderAddr myAddress =>
    rw [hcase]
    exact iff_of_true (netHandler_entries hreg hd ha header senderAddr myAddress) id
  | timerHandler =>
    rw [hcase]
    exact iff_of_true ⟨hd.countDown, ha.countDown⟩ id

theorem expired_step (hreg : y.server.Regular)
    (he : Expired y.server.leasedAddresses y.server.expiredAddresses) (hst : Step c y e t) :
    Expired t.server.leasedAddresses t.server.expiredAddresses ↔ ¬ Revives c y e := by
  have hcase := hst.cases
  cases e with
  | addStaticDhcpEntry chaddr addr =>
    rw [hcase]
    dsimp only
    rw [expired_insert he]
    exact forall_congr' fun _ => iff_of_false (show Lease.infinite ≠ 0 by decide) id
  | startApplication interfaces =>
    obtain ⟨hidle, -, hexpired, -, -⟩ := startApplication_some hcase
    rw [hexpired, (hreg.idle hidle).2.1]
    exact iff_of_true ⟨List.nodup_nil, nofun⟩ id
  | netHandler header senderAddr myAddress =>
    rw [hcase]
    cases header with
    | none => exact iff_of_true he id
    | some header =>
      simp only [netHandler, Revives]
      split_ifs with hdiscover hreq
      · exact iff_of_true (sendOffer_expired he header senderAddr myAddress) (by simp [hdiscover])
      · rw [sendAck_expired he]
        have ⟨htype, hrange⟩ : header.type = .req ∧ inRange c header.req := by simpa using hreq
        simp [htype, hrange]
      · apply iff_of_true he
        rintro ⟨htype, hrange, -⟩
        simp [htype, hrange] at hreq
  | timerHandler =>
    rw [hcase]
    exact iff_of_true he.countDown id

theorem permanent_step
    (he : Expired y.server.leasedAddresses y.server.expiredAddresses)
    (hp : Permanent y.server.leasedAddresses y.permanent) (hst : Step c y e t) :
    Permanent t.server.leasedAddresses t.permanent ↔ ¬ Forgets c y e := by
  have hcase := hst.cases
  obtain ⟨_, -, hpermanent, -⟩ := hst.server
  rw [hpermanent]
  cases e with
  | addStaticDhcpEntry chaddr addr =>
    rw [hcase]
    exact iff_of_true (hp.insert rfl) id
  | startApplication interfaces =>
    obtain ⟨hidle, -, -, hleased, -⟩ := startApplication_some hcase
    rw [hleased]
    simp only [DhcpEvent.permanent]
    cases startAddress c interfaces with
    | none => exact iff_of_true hp id
    | some a => exact iff_of_true (hp.insert rfl) id
  | netHandler header senderAddr myAddress =>
    rw [hcase]
    cases header with
    | none => exact iff_of_true hp id
    | some header =>
      simp only [DhcpEvent.permanent, List.nil_append, netHandler, Forgets]
      split_ifs with hdiscover hreq
      · rw [sendOffer_permanent he hp]
        simp [hdiscover]
      · rw [sendAck_permanent hp]
        have ⟨htype, hrange⟩ : header.type = .req ∧ inRange c header.req := by simpa using hreq
        simp [htype, hrange, and_comm]
      · apply iff_of_true hp
        rintro ⟨-, ⟨htype, -⟩ | ⟨htype, hrange, -⟩⟩
        · exact hdiscover htype
        · simp [htype, hrange] at hreq
  | timerHandler =>
    rw [hcase]
    exact iff_of_true hp.countDown id

theorem sound_init : Sound init :=
  ⟨fun k l hk => by simp [init, DhcpServer.init] at hk,
    fun k l hk => by simp [init, DhcpServer.init] at hk, ⟨List.nodup_nil, nofun⟩, nofun⟩

/-- Over a run the containers are as they should be exactly if no event gives away an address twice,
no request comes from a client that is listed as expired, and no message from one with a permanent
entry. -/
theorem sound_iff {trace : List (DhcpSystem × DhcpEvent)} (h : Run (Step c) init trace t) :
    ((∀ p ∈ trace, Sound p.1) ∧ Sound t) ↔
      ∀ p ∈ trace, ¬ (Clashes c p.1 p.2 ∨ Revives c p.1 p.2 ∨ Forgets c p.1 p.2) := by
  refine Run.forall_iff Sound (fun y e => Clashes c y e ∨ Revives c y e ∨ Forgets c y e) sound_init
    (fun trace y e t hrun hst hy => ?_) h
  have hreg : y.server.Regular :=
    hrun.invariant (I := fun y => y.server.Regular) regular_init fun _ _ _ hreg hst =>
      Step.regular hst hreg
  have hentries := entries_step hreg hy.distinct hy.apart hst
  have hexpired := expired_step hreg hy.expired hst
  have hpermanent := permanent_step hy.expired hy.permanent hst
  simp only [not_or, ← hentries, ← hexpired, ← hpermanent]
  exact ⟨fun ⟨hd, ha, he, hp⟩ => ⟨⟨hd, ha⟩, he, hp⟩, fun ⟨⟨hd, ha⟩, he, hp⟩ => ⟨hd, ha, he, hp⟩⟩

/-- A server of 10.0.0.0/24 with the addresses 10.0.0.1 to 10.0.0.3 for its clients. -/
def sampleConfig : DhcpConfig where
  lease := 30
  renew := 15
  rebind := 25
  poolAddress := ⟨0x0a000000, 0⟩
  minAddress := ⟨0x0a000001, 0⟩
  maxAddress := ⟨0x0a000003, 0⟩
  poolMask := 0xffffff00
  gateway := .uninitialized
  asserts := true

def sampleClient (n : UInt8) : Chaddr := Vector.replicate 16 n

/-- A message of a client that has no address yet. -/
def sampleMessage (n : UInt8) (type : DhcpType) (req : UInt32) : DhcpEvent :=
  .netHandler (some
    { type
      chaddr := sampleClient n
      tran := 7
      req := ⟨req, 0⟩ }) ⟨.getAny, 68⟩ ⟨0x0a000001, 0⟩

def sampleStart : DhcpEvent := .startApplication [[⟨0x0a000001, 0⟩]]

/-- A run of the sample server, in a state that is decided. -/
theorem exists_run_sample (events : List DhcpEvent) (P : DhcpSystem → Prop) [DecidablePred P]
    (h : (Run.runOf (apply sampleConfig) init events).any (fun r => decide (P r.2)) = true) :
    ∃ trace t, Run (Step sampleConfig) init trace t ∧ trace.map (·.2) = events ∧ P t := by
  obtain ⟨⟨trace, t⟩, hrun, ht⟩ := (Option.any_eq_true _ _).1 h
  exact ⟨trace, t, Run.of_runOf (fun _ _ _ h => h) hrun, Run.runOf_events hrun, of_decide_eq_true ht⟩

/-- A client is offered an address and acknowledged. -/
theorem sound_ack : ∃ (trace : List (DhcpSystem × DhcpEvent)) (t : DhcpSystem),
    t.server.leasedAddresses[(sampleClient 1).toAddress]? = some ⟨⟨0x0a000002, 0⟩, 60⟩ ∧
      (((∀ p ∈ trace, Sound p.1) ∧ Sound t) ↔ ∀ p ∈ trace,
        ¬ (Clashes sampleConfig p.1 p.2 ∨ Revives sampleConfig p.1 p.2 ∨
          Forgets sampleConfig p.1 p.2)) := by
  obtain ⟨trace, t, hrun, -, ht⟩ := exists_run_sample
    [sampleStart, sampleMessage 1 .discover 0, sampleMessage 1 .req 0x0a000002]
    (fun t => t.server.leasedAddresses[(sampleClient 1).toAddress]? = some ⟨⟨0x0a000002, 0⟩, 60⟩)
    (by decide +kernel)
  exact ⟨trace, t, ht, sound_iff hrun⟩

/-- A static entry from before the start: its address stays in the pool. -/
theorem not_sound_static : ∃ (trace : List (DhcpSystem × DhcpEvent)) (t : DhcpSystem),
    Run (Step sampleConfig) init trace t ∧
      trace.map (·.2) = [.addStaticDhcpEntry ⟨6, [2, 2, 2, 2, 2, 2]⟩ ⟨0x0a000002, 0⟩, sampleStart] ∧
      ¬ Sound t := by
  obtain ⟨trace, t, hrun, htrace, hleased, havailable⟩ := exists_run_sample
    [.addStaticDhcpEntry ⟨6, [2, 2, 2, 2, 2, 2]⟩ ⟨0x0a000002, 0⟩, sampleStart]
    (fun t => t.server.leasedAddresses[(Chaddr.ofAddress ⟨6, [2, 2, 2, 2, 2, 2]⟩).toAddress]? =
        some ⟨⟨0x0a000002, 0⟩, Lease.infinite⟩ ∧
      t.server.availableAddresses = [⟨0x0a000002, 0⟩, ⟨0x0a000003, 0⟩])
    (by decide +kernel)
  refine ⟨trace, t, hrun, htrace, fun h => ?_⟩
  exact h.apart _ _ hleased ⟨0x0a000002, 0⟩ (by simp [havailable]) rfl

end DhcpSystem

end SeanetSim
