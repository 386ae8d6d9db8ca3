import SeanetSim.InternetApps.DhcpLeases

/-!
# Acknowledged leases

`SendAck` looks for an entry of the client and acknowledges the address that the request names,
without a look at the one in the entry.  Where the requests name the recorded addresses, and nothing
else spoils the entries, an acknowledged lease is backed by the entry of its client as long as it
has not run out (`DhcpSystem.Backed`), so no two clients have the same address at a time
(`DhcpSystem.acks_safe`).
-/

namespace SeanetSim

namespace DhcpSystem

open LeasedAddress DhcpServer

variable {c : DhcpConfig} {y t : DhcpSystem} {e : DhcpEvent}

/-- What the server acknowledges at an event is the address that it then has for the client. -/
def AcksRecorded (c : DhcpConfig) (y : DhcpSystem) (e : DhcpEvent) : Prop :=
  ∀ s' msg, y.server.apply c e = some (s', some msg) → msg.header.type = .ack →
    ∃ l : Lease, s'.leasedAddresses[msg.header.chaddr.toAddress]? = some l ∧
      l.address.same msg.header.yiaddr

/-- No two clients have leases of one address that have been acknowledged and not run out. -/
def Exclusive (y : DhcpSystem) : Prop :=
  ∀ a ∈ y.acked, ∀ b ∈ y.acked, a.client ≠ b.client → 0 < a.remaining → 0 < b.remaining →
    a.address.same b.address = false

/-- A request names another address than the one recorded for its client. -/
def NamesOther (c : DhcpConfig) (y : DhcpSystem) (e : DhcpEvent) : Prop :=
  match e with
  | .netHandler (some header) _ _ =>
    header.type = .req ∧ inRange c header.req ∧ ∃ l : Lease,
      y.server.leasedAddresses[header.chaddr.toAddress]? = some l ∧
        l.address.same header.req = false
  | _ => False

/-- A request adds up to more seconds than an entry can have, or a static entry replaces another. -/
def Overwrites (c : DhcpConfig) (y : DhcpSystem) (e : DhcpEvent) : Prop :=
  match e with
  | .addStaticDhcpEntry chaddr _ =>
    y.server.leasedAddresses[(Chaddr.ofAddress chaddr).toAddress]? ≠ none
  | .netHandler (some header) _ _ =>
    header.type = .req ∧ inRange c header.req ∧ ∃ l : Lease,
      y.server.leasedAddresses[header.chaddr.toAddress]? = some l ∧
        2 ^ 32 ≤ l.time.toNat + c.lease.toNat
  | _ => False

instance : Decidable (NamesOther c y e) :=
  match e with
  | .netHandler (some header) _ _ =>
    decidable_of_iff (header.type = .req ∧ inRange c header.req ∧
      ∃ l ∈ y.server.leasedAddresses[header.chaddr.toAddress]?, l.address.same header.req = false)
      (by simp only [NamesOther, Option.mem_def])
  | .netHandler none _ _ => isFalse id
  | .addStaticDhcpEntry _ _ => isFalse id
  | .startApplication _ => isFalse id
  | .timerHandler => isFalse id

instance : Decidable (Overwrites c y e) :=
  match e with
  | .addStaticDhcpEntry chaddr _ => inferInstanceAs (Decidable
      (y.server.leasedAddresses[(Chaddr.ofAddress chaddr).toAddress]? ≠ none))
  | .netHandler (some header) _ _ =>
    decidable_of_iff (header.type = .req ∧ inRange c header.req ∧
      ∃ l ∈ y.server.leasedAddresses[header.chaddr.toAddress]?,
        2 ^ 32 ≤ l.time.toNat + c.lease.toNat)
      (by simp only [Overwrites, Option.mem_def])
  | .netHandler none _ _ => isFalse id
  | .startApplication _ => isFalse id
  | .timerHandler => isFalse id

/-- The entry behind an acknowledged lease. -/
def Backs (c : DhcpConfig) (s : DhcpServer) (a : AckedLease) : Prop :=
  a.remaining ≤ c.lease.toNat ∧ a.client ∉ s.expiredAddresses ∧
    ∃ l : Lease, s.leasedAddresses[a.client]? = some l ∧ l.address.same a.address ∧
      a.remaining ≤ l.time.toNat

/-- Every acknowledged lease that has not run out has an entry behind it. -/
def Backed (c : DhcpConfig) (y : DhcpSystem) : Prop :=
  ∀ a ∈ y.acked, 0 < a.remaining → Backs c y.server a

theorem Backed.exclusive (h : Backed c y) (hd : Distinct y.server.leasedAddresses) :
    Exclusive y := by
  intro a ha b hb hne hposa hposb
  obtain ⟨-, -, l, hl, hla, -⟩ := h a ha hposa
  obtain ⟨-, -, l', hl', hlb, -⟩ := h b hb hposb
  have hdiff := hd a.client l hl b.client l' (Ne.symm hne) hl'
  rw [Ipv4Address.same_iff] at hla hlb
  rw [Bool.eq_false_iff, Ne, Ipv4Address.same_iff, ← hla, ← hlb]
  exact fun heq => hdiff heq.symm

/-! ### Acknowledgements -/

theorem sendOffer_type {s : DhcpServer} {header : DhcpHeader} {senderAddr : InetSocketAddress}
    {myAddress : Ipv4Address} {msg : DhcpMessage}
    (h : (s.sendOffer c header senderAddr myAddress).2 = some msg) : msg.header.type = .offer := by
  by_cases hset : (s.offeredAddress header.chaddr.toAddress).1.same .uninitialized
  · simp [sendOffer, hset] at h
  · simp only [sendOffer, hset, Bool.false_eq_true, if_false, Option.some.injEq] at h
    exact h ▸ rfl

/-- The only messages that acknowledge are those of `SendAck`. -/
theorem apply_ack {s s' : DhcpServer} {msg : DhcpMessage} (h : s.apply c e = some (s', some msg))
    (hack : msg.header.type = .ack) :
    ∃ header senderAddr myAddress, e = .netHandler (some header) senderAddr myAddress ∧
      header.type = .req ∧ inRange c header.req ∧ ∃ l : Lease,
        s.leasedAddresses[header.chaddr.toAddress]? = some l ∧ msg = answer .ack header senderAddr ∧
          s' = { s with leasedAddresses :=
            s.leasedAddresses.insert header.chaddr.toAddress ⟨l.address, l.time + c.lease⟩ } := by
  cases e with
  | addStaticDhcpEntry chaddr addr =>
    obtain ⟨_, -, heq⟩ := Option.map_eq_some_iff.1 h
    cases heq
  | startApplication interfaces =>
    obtain ⟨_, -, heq⟩ := Option.map_eq_some_iff.1 h
    cases heq
  | timerHandler =>
    simp only [DhcpServer.apply] at h
    split_ifs at h
    cases h
  | netHandler header senderAddr myAddress =>
    simp only [DhcpServer.apply] at h
    split_ifs at h
    have h := Option.some.inj h
    cases header with
    | none => cases h
    | some header =>
      simp only [netHandler] at h
      split_ifs at h with hdiscover hreq
      · have htype := sendOffer_type (congrArg Prod.snd h)
        rw [hack] at htype
        cases htype
      · obtain ⟨htype, hrange⟩ : header.type = .req ∧ inRange c header.req := by simpa using hreq
        refine ⟨header, senderAddr, myAddress, rfl, htype, hrange, ?_⟩
        rcases sendAck_cases c s header senderAddr with ⟨l, hl, hout⟩ | ⟨-, hout⟩
        · rw [hout] at h
          cases h
          exact ⟨l, hl, rfl, rfl⟩
        · rw [hout] at h
          cases h
          cases hack
      · cases h

theorem toAddress_answer (type : DhcpType) (header : DhcpHeader) (senderAddr : InetSocketAddress) :
    (answer type header senderAddr).header.chaddr.toAddress = header.chaddr.toAddress := by
  simp [answer, Chaddr.ofAddress, Chaddr.toAddress]

theorem acksRecorded_iff (hst : Step c y e t) : AcksRecorded c y e ↔ ¬ NamesOther c y e := by
  constructor
  · intro h hother
    cases e with
    | netHandler header senderAddr myAddress =>
      cases header with
      | none => exact hother
      | some header =>
        obtain ⟨htype, hrange, l, hl, hsame⟩ := hother
        obtain ⟨sent, happly, -⟩ := hst.server
        let m := y.server.leasedAddresses.insert header.chaddr.toAddress
          ⟨l.address, l.time + c.lease⟩
        have hout : y.server.apply c (.netHandler (some header) senderAddr myAddress) =
            some ({ y.server with leasedAddresses := m }, some (answer .ack header senderAddr)) := by
          simp only [DhcpServer.apply] at happly ⊢
          split_ifs at happly ⊢
          simp [netHandler, htype, hrange, sendAck, hl, m]
        obtain ⟨l', hl', hsame'⟩ := h _ _ hout rfl
        rw [toAddress_answer, getElem?_insert, if_pos rfl] at hl'
        cases hl'
        exact absurd hsame' (Bool.eq_false_iff.1 hsame)
    | addStaticDhcpEntry chaddr addr => exact hother
    | startApplication interfaces => exact hother
    | timerHandler => exact hother
  · intro h s' msg happly hack
    obtain ⟨header, senderAddr, myAddress, rfl, htype, hrange, l, hl, rfl, rfl⟩ :=
      apply_ack happly hack
    refine ⟨_, by rw [toAddress_answer, getElem?_insert, if_pos rfl], ?_⟩
    exact Bool.not_eq_false _ ▸ fun hsame => h ⟨htype, hrange, l, hl, hsame⟩

/-! ### Steps -/

section

variable {s : DhcpServer} {a : AckedLease} {k : HardwareAddress} {l : Lease}

/-- The entry of another client is assigned. -/
theorem backs_insert_of_ne (h : Backs c s a) (hk : k ≠ a.client) :
    Backs c { s with leasedAddresses := s.leasedAddresses.insert k l } a := by
  obtain ⟨hlease, hexpired, l', hl', hsame, htime⟩ := h
  refine ⟨hlease, hexpired, l', ?_, hsame, htime⟩
  rw [getElem?_insert, if_neg hk, hl']

/-- The entry of the client is assigned, with the same address and enough time. -/
theorem backs_insert_self (hlease : a.remaining ≤ c.lease.toNat)
    (hexpired : a.client ∉ s.expiredAddresses) (hsame : l.address.same a.address)
    (htime : a.remaining ≤ l.time.toNat) :
    Backs c { s with leasedAddresses := s.leasedAddresses.insert a.client l } a :=
  ⟨hlease, hexpired, l, by simp, hsame, htime⟩

/-- An entry that is not listed as expired is still there after an offer to any client. -/
theorem backs_offeredAddress (h : Backs c s a) (k : HardwareAddress) :
    Backs c (s.offeredAddress k).2 a := by
  obtain ⟨hlease, hexpired, l', hl', hsame, htime⟩ := h
  rcases s.offeredAddress_cases k with
      ⟨l, -, h⟩ | ⟨-, ⟨b, rest, -, h⟩ | ⟨-, ⟨clients, o, hex, h⟩ | h⟩⟩
  · rw [h]
    exact ⟨hlease, fun hmem => hexpired (List.mem_filter.1 hmem).1, l', hl', hsame, htime⟩
  · rw [h]
    exact ⟨hlease, hexpired, l', hl', hsame, htime⟩
  · rw [h]
    rw [hex, List.mem_append, List.mem_singleton, not_or] at hexpired
    refine ⟨hlease, hexpired.1, l', ?_, hsame, htime⟩
    rw [getElem?_erase, if_neg (Ne.symm hexpired.2), hl']
  · rw [h]
    exact ⟨hlease, hexpired, l', hl', hsame, htime⟩

theorem backs_sendOffer (h : Backs c s a) (header : DhcpHeader) (senderAddr : InetSocketAddress)
    (myAddress : Ipv4Address) : Backs c (s.sendOffer c header senderAddr myAddress).1 a := by
  have hout := backs_offeredAddress h header.chaddr.toAddress
  rw [sendOffer_server]
  split_ifs
  · exact hout
  · by_cases hk : header.chaddr.toAddress = a.client
    · obtain ⟨-, -, l', hl', hsame, -⟩ := h
      have hoffer : (s.offeredAddress header.chaddr.toAddress).1 = l'.address := by
        simp [offeredAddress, hk, hl']
      rw [hk] at hoffer hout ⊢
      exact backs_insert_self hout.1 hout.2.1 (hoffer ▸ hsame) hout.1
    · exact backs_insert_of_ne hout hk

theorem backs_sendAck (h : Backs c s a) (header : DhcpHeader) (senderAddr : InetSocketAddress)
    (hfits : ∀ l : Lease, s.leasedAddresses[header.chaddr.toAddress]? = some l →
      l.time.toNat + c.lease.toNat < 2 ^ 32) :
    Backs c (s.sendAck c header senderAddr).1 a := by
  rcases sendAck_cases c s header senderAddr with ⟨l, hl, hout⟩ | ⟨-, hout⟩
  · rw [hout]
    by_cases hk : header.chaddr.toAddress = a.client
    · have hlt := hfits l hl
      obtain ⟨hlease, hexpired, l', hl', hsame, htime⟩ := h
      rw [hk] at hl ⊢
      rw [hl] at hl'
      cases hl'
      refine backs_insert_self hlease hexpired hsame ?_
      rw [UInt32.toNat_add, Nat.mod_eq_of_lt hlt]
      omega
    · exact backs_insert_of_ne h hk
  · rw [hout]
    exact h

theorem backs_timerHandler (h : Backs c s a) :
    0 < a.remaining - 1 → Backs c s.timerHandler { a with remaining := a.remaining - 1 } := by
  intro hpos
  obtain ⟨hlease, hexpired, l, hl, hsame, htime⟩ := h
  refine ⟨by dsimp only; omega, ?_, DhcpServer.countDown l, ?_, ?_, ?_⟩
  · intro hmem
    rcases List.mem_append.1 hmem with hmem | hmem
    · obtain ⟨l', hl', hone⟩ := mem_runningOut.1 (List.mem_reverse.1 hmem)
      rw [hl] at hl'
      cases hl'
      rw [hone, UInt32.toNat_one] at htime
      omega
    · exact hexpired hmem
  · exact (getElem?_countDown).trans (by rw [hl, Option.map_some])
  · rwa [address_countDown]
  · unfold DhcpServer.countDown
    split_ifs with hcounts
    · have hle : (1 : UInt32) ≤ l.time := by
        rw [UInt32.le_iff_toNat_le, UInt32.toNat_one]
        omega
      dsimp only
      rw [UInt32.toNat_sub_of_le _ _ hle, UInt32.toNat_one]
      omega
    · dsimp only
      omega

end

theorem netHandler_backs {s : DhcpServer} {a : AckedLease} (h : Backs c s a)
    (header : Option DhcpHeader) (senderAddr : InetSocketAddress) (myAddress : Ipv4Address)
    (hfits : ∀ header', header = some header' → header'.type = .req → inRange c header'.req →
      ∀ l : Lease, s.leasedAddresses[header'.chaddr.toAddress]? = some l →
        l.time.toNat + c.lease.toNat < 2 ^ 32) :
    Backs c (s.netHandler c header senderAddr myAddress).1 a := by
  cases header with
  | none => exact h
  | some header =>
    simp only [netHandler]
    split_ifs with hdiscover hreq
    · exact backs_sendOffer h header senderAddr myAddress
    · obtain ⟨htype, hrange⟩ : header.type = .req ∧ inRange c header.req := by simpa using hreq
      exact backs_sendAck h header senderAddr (hfits header rfl htype hrange)
    · exact h

/-- The leases from before keep their entries. -/
theorem Backed.elapse (h : Backed c y) (hreg : y.server.Regular) (hst : Step c y e t)
    (hover : ¬ Overwrites c y e) : ∀ a ∈ e.elapse y.acked, 0 < a.remaining → Backs c t.server a := by
  have hcase := hst.cases
  cases e with
  | addStaticDhcpEntry chaddr addr =>
    intro a ha hpos
    have hback := h a ha hpos
    have hne : (Chaddr.ofAddress chaddr).toAddress ≠ a.client := by
      obtain ⟨-, -, l, hl, -⟩ := hback
      intro heq
      exact hover fun hnone => by simp [heq, hl] at hnone
    rw [hcase]
    exact backs_insert_of_ne hback hne
  | startApplication interfaces =>
    intro a ha hpos
    obtain ⟨hlease, hexpired, l, hl, hrest⟩ := h a ha hpos
    obtain ⟨hidle, -, hsame, hleased, -⟩ := startApplication_some hcase
    refine ⟨hlease, hsame ▸ hexpired, l, ?_, hrest⟩
    rw [hleased]
    cases startAddress c interfaces with
    | none => exact hl
    | some own =>
      have hne : HardwareAddress.invalid ≠ a.client := by
        intro heq
        rw [← heq, (hreg.idle hidle).2.2] at hl
        cases hl
      dsimp only
      rw [getElem?_insert, if_neg hne, hl]
  | netHandler header senderAddr myAddress =>
    intro a ha hpos
    rw [hcase]
    apply netHandler_backs (h a ha hpos) header senderAddr myAddress
    rintro header rfl htype hrange l hl
    by_contra hle
    exact hover ⟨htype, hrange, l, hl, by omega⟩
  | timerHandler =>
    intro a ha hpos
    obtain ⟨a', ha', rfl⟩ := List.mem_map.1 ha
    rw [hcase]
    have hpos' : 0 < a'.remaining - 1 := hpos
    exact backs_timerHandler (h a' ha' (by omega)) hpos'

/-- A new lease gets an entry of at least its length. -/
theorem backs_acked (hst : Step c y e t) {sent : Option DhcpMessage}
    (happly : y.server.apply c e = some (t.server, sent)) (hnames : ¬ NamesOther c y e)
    (hrevives : ¬ Revives c y e) (hover : ¬ Overwrites c y e) :
    ∀ a ∈ (sent.bind (·.acked c)).toList, 0 < a.remaining → Backs c t.server a := by
  intro a ha hpos
  obtain ⟨msg, rfl, hmsg⟩ := Option.bind_eq_some_iff.1 (Option.mem_toList.1 ha)
  unfold DhcpMessage.acked at hmsg
  split_ifs at hmsg with hack
  obtain ⟨header, senderAddr, myAddress, rfl, htype, hrange, l, hl, rfl, hserver⟩ :=
    apply_ack happly hack
  rw [toAddress_answer] at hmsg
  obtain rfl := Option.some.inj hmsg
  have hlease : c.lease ≠ 0 := by
    intro hzero
    simp [hzero] at hpos
  have hexpired : header.chaddr.toAddress ∉ y.server.expiredAddresses :=
    fun hmem => hrevives ⟨htype, hrange, hlease, hmem⟩
  have hsame : l.address.same header.req = true := by
    by_contra hne
    exact hnames ⟨htype, hrange, l, hl, Bool.eq_false_iff.2 hne⟩
  have hlt : l.time.toNat + c.lease.toNat < 2 ^ 32 := by
    by_contra hle
    exact hover ⟨htype, hrange, l, hl, by omega⟩
  rw [hserver]
  apply backs_insert_self le_rfl hexpired hsame
  dsimp only
  rw [UInt32.toNat_add, Nat.mod_eq_of_lt hlt]
  omega

theorem Backed.step (h : Backed c y) (hreg : y.server.Regular) (hst : Step c y e t)
    (hnames : ¬ NamesOther c y e) (hrevives : ¬ Revives c y e) (hover : ¬ Overwrites c y e) :
    Backed c t := by
  obtain ⟨sent, happly, -, hacked⟩ := hst.server
  intro a ha
  rw [hacked] at ha
  rcases List.mem_append.1 ha with ha | ha
  · exact backs_acked hst happly hnames hrevives hover a ha
  · exact h.elapse hreg hst hover a ha

/-! ### Runs -/

/-- What the acknowledged leases rest on. -/
structure Safe (c : DhcpConfig) (y : DhcpSystem) : Prop where
  regular : y.server.Regular
  distinct : Distinct y.server.leasedAddresses
  apart : Apart y.server.leasedAddresses y.server.availableAddresses
  expired : Expired y.server.leasedAddresses y.server.expiredAddresses
  backed : Backed c y

theorem safe_init : Safe c init :=
  ⟨regular_init, sound_init.distinct, sound_init.apart, sound_init.expired, nofun⟩

/-- The events that lead to a lease of two clients. -/
def Endangers (c : DhcpConfig) (y : DhcpSystem) (e : DhcpEvent) : Prop :=
  NamesOther c y e ∨ Clashes c y e ∨ Revives c y e ∨ Overwrites c y e

instance : Decidable (Endangers c y e) := inferInstanceAs (Decidable (_ ∨ _ ∨ _ ∨ _))

theorem Safe.step (h : Safe c y) (hst : Step c y e t) (hok : ¬ Endangers c y e) : Safe c t := by
  simp only [Endangers, not_or] at hok
  obtain ⟨hnames, hclash, hrevives, hover⟩ := hok
  have hentries := (entries_step h.regular h.distinct h.apart hst).2 hclash
  exact ⟨hst.regular h.regular, hentries.1, hentries.2,
    (expired_step h.regular h.expired hst).2 hrevives,
    h.backed.step h.regular hst hnames hrevives hover⟩

/-- The acknowledged addresses are the recorded ones exactly if the requests name them; and if also
no event spoils the entries, no two clients have unexpired leases of one address. -/
theorem acks_safe {trace : List (DhcpSystem × DhcpEvent)} (h : Run (Step c) init trace t) :
    ((∀ p ∈ trace, AcksRecorded c p.1 p.2) ↔ ∀ p ∈ trace, ¬ NamesOther c p.1 p.2) ∧
      ((∀ p ∈ trace, ¬ Endangers c p.1 p.2) → (∀ p ∈ trace, Exclusive p.1) ∧ Exclusive t) := by
  constructor
  · refine forall₂_congr fun p hp => ?_
    have ⟨_, hst⟩ := h.forall_step p hp
    exact acksRecorded_iff hst
  · intro hok
    have hstep : ∀ y e t, Safe c y → ¬ Endangers c (y, e).1 (y, e).2 → Step c y e t → Safe c t :=
      fun _ _ _ hs hok hst => hs.step hst hok
    have ⟨hbefore, hlast⟩ := h.invariant_along safe_init hstep hok
    exact ⟨fun p hp => (hbefore p hp).backed.exclusive (hbefore p hp).distinct,
      hlast.backed.exclusive hlast.distinct⟩

/-- A client is offered 10.0.0.2 and asks for it. -/
theorem exclusive_ack : ∃ (trace : List (DhcpSystem × DhcpEvent)) (t : DhcpSystem),
    trace.map (·.2) =
        [sampleStart, sampleMessage 1 .discover 0, sampleMessage 1 .req 0x0a000002] ∧
      t.acked.map (·.client) = [(sampleClient 1).toAddress] ∧
      (∀ p ∈ trace, AcksRecorded sampleConfig p.1 p.2) ∧
      (∀ p ∈ trace, Exclusive p.1) ∧ Exclusive t := by
  have hrun : (Run.runOf (apply sampleConfig) init
      [sampleStart, sampleMessage 1 .discover 0, sampleMessage 1 .req 0x0a000002]).any
      (fun r => decide (r.2.acked.map (·.client) = [(sampleClient 1).toAddress] ∧
        ∀ p ∈ r.1, ¬ Endangers sampleConfig p.1 p.2)) = true := by
    decide +kernel
  obtain ⟨⟨trace, t⟩, hrun, hr⟩ := (Option.any_eq_true _ _).1 hrun
  obtain ⟨hacked, hok⟩ := of_decide_eq_true hr
  have ⟨hacks, hsafe⟩ := acks_safe (Run.of_runOf (fun _ _ _ h => h) hrun)
  have hnames := hacks.2 fun p hp hother => hok p hp (.inl hother)
  exact ⟨trace, t, Run.runOf_events hrun, hacked, hnames, hsafe hok⟩

/-- Each of two clients is acknowledged the address that was recorded for the first one. -/
theorem not_exclusive_named : ∃ (trace : List (DhcpSystem × DhcpEvent)) (t : DhcpSystem),
    Run (Step sampleConfig) init trace t ∧
      trace.map (·.2) = [sampleStart, sampleMessage 1 .discover 0, sampleMessage 2 .discover 0,
        sampleMessage 1 .req 0x0a000002, sampleMessage 2 .req 0x0a000002] ∧
      ¬ (∀ p ∈ trace, AcksRecorded sampleConfig p.1 p.2) ∧ ¬ Exclusive t := by
  have hrun : (Run.runOf (apply sampleConfig) init
      [sampleStart, sampleMessage 1 .discover 0, sampleMessage 2 .discover 0,
        sampleMessage 1 .req 0x0a000002, sampleMessage 2 .req 0x0a000002]).any
      (fun r => decide (r.2.acked = [⟨(sampleClient 2).toAddress, ⟨0x0a000002, 0⟩, 30⟩,
          ⟨(sampleClient 1).toAddress, ⟨0x0a000002, 0⟩, 30⟩] ∧
        ∃ p ∈ r.1, NamesOther sampleConfig p.1 p.2)) = true := by
    decide +kernel
  obtain ⟨⟨trace, t⟩, hrun, hr⟩ := (Option.any_eq_true _ _).1 hrun
  obtain ⟨hacked, p, hp, hother⟩ := of_decide_eq_true hr
  have hsteps : Run (Step sampleConfig) init trace t := Run.of_runOf (fun _ _ _ h => h) hrun
  refine ⟨trace, t, hsteps, Run.runOf_events hrun, fun h => ?_, fun h => ?_⟩
  · obtain ⟨_, hst⟩ := hsteps.forall_step p hp
    exact (acksRecorded_iff hst).1 (h p hp) hother
  · rw [Exclusive, hacked] at h
    have hdiff := h _ List.mem_cons_self _ (List.mem_cons_of_mem _ List.mem_cons_self) (by decide)
      (by decide) (by decide)
    exact absurd hdiff (by decide)

end DhcpSystem

end SeanetSim
