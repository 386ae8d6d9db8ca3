import SeanetSim.Internet.UdpReceive

/-!
# The lookup for ICMP errors

`Ipv4EndPointDemux::SimpleLookup` finds the endpoint that an ICMP error is for.  Unless an endpoint
matches exactly, it takes the first one on the port with the fewest wildcard addresses, without a
look at what its other addresses are.  `Ipv4EndPointDemux.simpleLookup_delivers_iff` says when this
endpoint is one that matches.
-/

namespace SeanetSim

namespace Ipv4EndPointDemux

/-- The local and the peer address that are `Any`. -/
def genericity (endP : EndPoint Ipv4Address) : ℕ :=
  (if endP.localAddress.same Ipv4Address.getAny then 1 else 0) +
    (if endP.peerAddress.same Ipv4Address.getAny then 1 else 0)

def isExact (f : Flow Ipv4Address) (endP : EndPoint Ipv4Address) : Bool :=
  endP.localAddress.same f.daddr && endP.peerPort == f.sport && endP.peerAddress.same f.saddr

/-- The loop of `SimpleLookup`: the endpoint found so far, and the genericity to go below. -/
def simpleLoop (f : Flow Ipv4Address) :
    Option (EndPoint Ipv4Address) → ℕ → List (EndPoint Ipv4Address) → Option (EndPoint Ipv4Address)
  | generic, _, [] => generic
  | generic, bound, endP :: rest =>
    if endP.localPort ≠ f.dport then simpleLoop f generic bound rest
    else if isExact f endP then some endP
    else if genericity endP < bound then simpleLoop f (some endP) (genericity endP) rest
    else simpleLoop f generic bound rest

def simpleLookup (endPoints : List (EndPoint Ipv4Address)) (f : Flow Ipv4Address) :
    Option (EndPoint Ipv4Address) :=
  simpleLoop f none 3 endPoints

/-! ## What a lookup is for -/

/-- The endpoint is on the port, and its local address and its peer are those of the query or
wildcards. -/
structure Accepts (f : Flow Ipv4Address) (endP : EndPoint Ipv4Address) : Prop where
  localPort : endP.localPort = f.dport
  localAddress : endP.localAddress.address = f.daddr.address ∨ endP.localAddress.address = 0
  peerAddress : endP.peerAddress.address = f.saddr.address ∨ endP.peerAddress.address = 0
  peerPort : endP.peerPort = f.sport ∨ endP.peerPort = 0

/-- An endpoint that is found accepts the query, and none that does has fewer wildcards. -/
def Delivers (endPoints : List (EndPoint Ipv4Address)) (f : Flow Ipv4Address) : Prop :=
  ∀ endP, simpleLookup endPoints f = some endP → Accepts f endP ∧
    ∀ other ∈ endPoints, Accepts f other → genericity endP ≤ genericity other

/-- Each endpoint on the port that does not accept the query stands behind one that does: that one
has fewer wildcards, or as many and an earlier place in the list. -/
def Outranked (endPoints : List (EndPoint Ipv4Address)) (f : Flow Ipv4Address) : Prop :=
  ∀ front endP back, endPoints = front ++ endP :: back → endP.localPort = f.dport →
    ¬ Accepts f endP →
    (∃ other ∈ front, Accepts f other ∧ genericity other ≤ genericity endP) ∨
      ∃ other ∈ back, Accepts f other ∧ genericity other < genericity endP

section Lookup

variable {f : Flow Ipv4Address} {endP : EndPoint Ipv4Address}
  {endPoints : List (EndPoint Ipv4Address)}

theorem isExact_iff : isExact f endP = true ↔ endP.localAddress.address = f.daddr.address ∧
    endP.peerPort = f.sport ∧ endP.peerAddress.address = f.saddr.address := by
  simp [isExact, and_assoc]

theorem accepts_of_exact (hport : endP.localPort = f.dport) (h : isExact f endP = true) :
    Accepts f endP := by
  obtain ⟨hlocal, hpeerPort, hpeer⟩ := isExact_iff.1 h
  exact ⟨hport, .inl hlocal, .inl hpeer, .inl hpeerPort⟩

/-- An exact match has no more wildcards than any other match: where it has one, the query has. -/
theorem genericity_le_of_exact {other : EndPoint Ipv4Address} (h : isExact f endP = true)
    (hother : Accepts f other) : genericity endP ≤ genericity other := by
  obtain ⟨hlocal, -, hpeer⟩ := isExact_iff.1 h
  have hle : ∀ {a b c : Ipv4Address}, a.address = c.address →
      (b.address = c.address ∨ b.address = 0) →
      (if a.same Ipv4Address.getAny then 1 else 0) ≤
        (if b.same Ipv4Address.getAny then 1 else 0) := by
    intro a b c ha hb
    simp only [Ipv4Address.same_iff]
    change (if a.address = 0 then 1 else 0) ≤ (if b.address = 0 then 1 else 0)
    split_ifs with hzero hzero'
    · exact Nat.le_refl _
    · rw [← ha, hzero, or_self] at hb
      exact absurd hb hzero'
    · exact Nat.zero_le _
    · exact Nat.le_refl _
  exact Nat.add_le_add (hle hlocal hother.localAddress) (hle hpeer hother.peerAddress)

theorem genericity_lt (endP : EndPoint Ipv4Address) : genericity endP < 3 := by
  unfold genericity
  split_ifs <;> decide

/-- The first endpoint on the port with the fewest wildcards. -/
structure First (f : Flow Ipv4Address) (endPoints : List (EndPoint Ipv4Address))
    (endP : EndPoint Ipv4Address) : Prop where
  localPort : endP.localPort = f.dport
  split : ∃ front back, endPoints = front ++ endP :: back ∧
    (∀ other ∈ front, other.localPort = f.dport → genericity endP < genericity other) ∧
    ∀ other ∈ back, other.localPort = f.dport → genericity endP ≤ genericity other

theorem First.cons (h : First f endPoints endP) {head : EndPoint Ipv4Address}
    (hhead : head.localPort = f.dport → genericity endP < genericity head) :
    First f (head :: endPoints) endP := by
  obtain ⟨front, back, rfl, hfront, hback⟩ := h.split
  exact ⟨h.localPort, head :: front, back, rfl, List.forall_mem_cons.2 ⟨hhead, hfront⟩, hback⟩

/-- An exact match is returned at once, whatever has been found before. -/
theorem simpleLoop_exact (generic : Option (EndPoint Ipv4Address)) (bound : ℕ)
    (h : ∃ endP ∈ endPoints, endP.localPort = f.dport ∧ isExact f endP = true) :
    ∃ endP, endP.localPort = f.dport ∧ isExact f endP = true ∧
      simpleLoop f generic bound endPoints = some endP := by
  induction endPoints generalizing generic bound with
  | nil =>
    obtain ⟨endP, hmem, -⟩ := h
    cases hmem
  | cons head rest ih =>
    rw [simpleLoop]
    by_cases hport : head.localPort = f.dport
    · by_cases hexact : isExact f head = true
      · rw [if_neg (not_not.2 hport), if_pos hexact]
        exact ⟨head, hport, hexact, rfl⟩
      · have hrest : ∃ endP ∈ rest, endP.localPort = f.dport ∧ isExact f endP = true := by
          obtain ⟨endP, hmem, hendP⟩ := h
          cases hmem with
          | head => exact absurd hendP.2 hexact
          | tail _ hmem => exact ⟨endP, hmem, hendP⟩
        rw [if_neg (not_not.2 hport), if_neg hexact]
        split_ifs
        · exact ih _ _ hrest
        · exact ih _ _ hrest
    · have hrest : ∃ endP ∈ rest, endP.localPort = f.dport ∧ isExact f endP = true := by
        obtain ⟨endP, hmem, hendP⟩ := h
        cases hmem with
        | head => exact absurd hendP.1 hport
        | tail _ hmem => exact ⟨endP, hmem, hendP⟩
      rw [if_pos hport]
      exact ih _ _ hrest

/-- Without an exact match, the loop returns the first endpoint with the fewest wildcards, if that
goes below the bound, and what it started with otherwise. -/
theorem simpleLoop_first (generic : Option (EndPoint Ipv4Address)) (bound : ℕ)
    (h : ∀ endP ∈ endPoints, endP.localPort = f.dport → isExact f endP = false) :
    (∃ endP, First f endPoints endP ∧ genericity endP < bound ∧
        simpleLoop f generic bound endPoints = some endP) ∨
      ((∀ endP ∈ endPoints, endP.localPort = f.dport → bound ≤ genericity endP) ∧
        simpleLoop f generic bound endPoints = generic) := by
  induction endPoints generalizing generic bound with
  | nil => exact .inr ⟨nofun, rfl⟩
  | cons head rest ih =>
    obtain ⟨hhead, hrest⟩ := List.forall_mem_cons.1 h
    rw [simpleLoop]
    by_cases hport : head.localPort = f.dport
    · rw [if_neg (not_not.2 hport), if_neg (by rw [hhead hport]; decide)]
      split_ifs with hless
      · refine .inl ?_
        rcases ih (some head) (genericity head) hrest with
          ⟨endP, hfirst, hlt, hloop⟩ | ⟨hall, hloop⟩
        · exact ⟨endP, hfirst.cons fun _ => hlt, hlt.trans hless, hloop⟩
        · exact ⟨head, ⟨hport, [], rest, rfl, nofun, hall⟩, hless, hloop⟩
      · have hle : bound ≤ genericity head := Nat.le_of_not_lt hless
        rcases ih generic bound hrest with ⟨endP, hfirst, hlt, hloop⟩ | ⟨hall, hloop⟩
        · exact .inl ⟨endP, hfirst.cons fun _ => hlt.trans_le hle, hlt, hloop⟩
        · exact .inr ⟨List.forall_mem_cons.2 ⟨fun _ => hle, hall⟩, hloop⟩
    · rw [if_pos hport]
      rcases ih generic bound hrest with ⟨endP, hfirst, hlt, hloop⟩ | ⟨hall, hloop⟩
      · exact .inl ⟨endP, hfirst.cons fun heq => absurd heq hport, hlt, hloop⟩
      · exact .inr ⟨List.forall_mem_cons.2 ⟨fun heq => absurd heq hport, hall⟩, hloop⟩

theorem First.mem (h : First f endPoints endP) : endP ∈ endPoints := by
  obtain ⟨front, back, rfl, -⟩ := h.split
  simp

theorem First.le (h : First f endPoints endP) {other : EndPoint Ipv4Address}
    (hmem : other ∈ endPoints) (hport : other.localPort = f.dport) :
    genericity endP ≤ genericity other := by
  obtain ⟨front, back, rfl, hfront, hback⟩ := h.split
  rcases List.mem_append.1 hmem with hmem | hmem
  · exact (hfront other hmem hport).le
  · cases hmem with
    | head => exact Nat.le_refl _
    | tail _ hmem => exact hback other hmem hport

/-- The first endpoint with the fewest wildcards accepts the query exactly if every other endpoint
on the port that does not accept it is outranked by one that does. -/
theorem First.accepts_iff (h : First f endPoints endP) :
    Accepts f endP ↔ Outranked endPoints f := by
  constructor
  · intro haccepts front other back hsplit hport hnot
    obtain ⟨before, behind, rfl, hbefore, hbehind⟩ := h.split
    have hle : genericity endP ≤ genericity other := h.le (hsplit ▸ by simp) hport
    -- whether the one that accepts stands before or behind the other one
    rcases List.append_eq_append_iff.1 hsplit with ⟨middle, rfl, heq⟩ | ⟨middle, rfl, heq⟩
    · cases middle with
      | nil =>
        cases heq
        exact absurd haccepts hnot
      | cons a middle =>
        cases heq
        exact .inl ⟨endP, by simp, haccepts, hle⟩
    · cases middle with
      | nil =>
        cases heq
        exact absurd haccepts hnot
      | cons a middle =>
        cases heq
        exact .inr ⟨endP, by simp, haccepts, hbefore other (by simp) hport⟩
  · intro hout
    by_contra hnot
    obtain ⟨front, back, rfl, hfront, hback⟩ := h.split
    rcases hout front endP back rfl h.localPort hnot with ⟨other, hmem, hother, hle⟩ |
      ⟨other, hmem, hother, hlt⟩
    · exact absurd (hfront other hmem hother.localPort) (Nat.not_lt_of_le hle)
    · exact absurd (hback other hmem hother.localPort) (Nat.not_le_of_lt hlt)

/-- The lookup delivers to an endpoint that accepts the query exactly if one matches exactly, or
every endpoint on the port that does not accept the query is outranked by one that does. -/
theorem simpleLookup_delivers_iff (endPoints : List (EndPoint Ipv4Address))
    (f : Flow Ipv4Address) :
    Delivers endPoints f ↔
      (∃ endP ∈ endPoints, endP.localPort = f.dport ∧ isExact f endP = true) ∨
        Outranked endPoints f := by
  by_cases hex : ∃ endP ∈ endPoints, endP.localPort = f.dport ∧ isExact f endP = true
  · obtain ⟨endP, hport, hexact, hloop⟩ := simpleLoop_exact none 3 hex
    refine iff_of_true (fun found hfound => ?_) (.inl hex)
    cases hloop.symm.trans hfound
    exact ⟨accepts_of_exact hport hexact,
      fun other _ hother => genericity_le_of_exact hexact hother⟩
  · rw [or_iff_right hex]
    have hnone : ∀ endP ∈ endPoints, endP.localPort = f.dport → isExact f endP = false :=
      fun endP hmem hport => Bool.eq_false_of_not_eq_true fun hexact =>
        hex ⟨endP, hmem, hport, hexact⟩
    rcases simpleLoop_first none 3 hnone with ⟨endP, hfirst, -, hloop⟩ | ⟨hall, hloop⟩
    · rw [← hfirst.accepts_iff]
      constructor
      · exact fun hdelivers => (hdelivers endP hloop).1
      · intro haccepts found hfound
        cases hloop.symm.trans hfound
        exact ⟨haccepts, fun other hmem hother => hfirst.le hmem hother.localPort⟩
    · -- no endpoint is on the port
      refine iff_of_true (fun found hfound => ?_) fun front endP back hsplit hport => ?_
      · cases hloop.symm.trans hfound
      · exact absurd (hall endP (hsplit ▸ by simp) hport) (Nat.not_le_of_lt (genericity_lt endP))

/-- A connection of another peer is found in place of the socket that is open to any. -/
theorem not_simpleLookup_delivers :
    ¬ ∀ (endPoints : List (EndPoint Ipv4Address)) (f : Flow Ipv4Address), Delivers endPoints f := by
  intro h
  have haccepts := (h [⟨true, .getAny, 80, .getAny, 0, none⟩,
    ⟨true, .ofUInt32 0x0a000001, 80, .ofUInt32 0x0a000009, 7, none⟩]
    ⟨.ofUInt32 0x0a000001, 80, .ofUInt32 0x0a000002, 1000⟩
    ⟨true, .ofUInt32 0x0a000001, 80, .ofUInt32 0x0a000009, 7, none⟩ rfl).1
  exact absurd haccepts.peerPort (by decide)

end Lookup

end Ipv4EndPointDemux

end SeanetSim
