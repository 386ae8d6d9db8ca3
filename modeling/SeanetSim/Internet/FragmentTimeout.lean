import SeanetSim.Lib.Run
import SeanetSim.Internet.Fragmentation
import Mathlib.Data.Finset.Max
import Mathlib.Data.Set.Function
import Mathlib.Data.List.Perm.Basic
import Mathlib.Data.List.Range

/-!
# Fragments that wait

`Ipv4L3Protocol` keeps the fragments of each datagram under a key, and for each key an entry in a
list of deadlines.  A datagram that becomes entire leaves both; an event that `SetTimeout` or
`HandleTimeout` schedules drops the others at their deadlines.  Arrivals and events come in any
order that respects the clock (`Step`).  The two containers stay in step through every run
(`FragmentTable.fragment_timeouts`); `FragmentTable.single_timer_iff` says when no more than one
event is ever pending.
-/

namespace SeanetSim

/-- The fields of the IPv4 header that `ProcessFragment` reads. -/
structure FragmentHeader where
  source : UInt32
  destination : UInt32
  identification : UInt16
  protocol : UInt8
  fragmentOffset : ℕ
  moreFragments : Bool
deriving DecidableEq

abbrev FragmentKey := UInt64 × UInt32

namespace FragmentHeader

def key (ipHeader : FragmentHeader) : FragmentKey :=
  (ipHeader.source.toUInt64 <<< 32 ||| ipHeader.destination.toUInt64,
    ipHeader.identification.toUInt32 <<< 16 ||| ipHeader.protocol.toUInt32)

end FragmentHeader

/-- An element of `m_timeoutEventList`; `iter` names the element, as an iterator does. -/
structure TimeoutEntry where
  iter : ℕ
  deadline : ℕ
  key : FragmentKey
  ipHeader : FragmentHeader
  iif : ℕ
deriving DecidableEq

/-- What becomes of a datagram: it is complete, or `HandleFragmentsTimeout` drops what has arrived
of it, with or without an ICMP error. -/
inductive Outcome where
  | complete (iter : ℕ) (packet : List UInt8)
  | timeout (entry : TimeoutEntry) (time : ℕ) (packet : List UInt8) (icmp : Bool)
deriving DecidableEq

namespace Outcome

def iter : Outcome → ℕ
  | complete iter _ => iter
  | timeout entry _ _ _ => entry.iter

end Outcome

/-- The clock, `m_fragments` with the iterator of each element, `m_timeoutEventList`, the times of
the `HandleTimeout` events that are pending, and what has become of datagrams. -/
structure FragmentTable where
  now : ℕ
  fragments : FragmentKey → Option (Fragments × ℕ)
  timeoutEventList : List TimeoutEntry
  nextIter : ℕ
  pending : List ℕ
  outcomes : List Outcome

namespace FragmentTable

def empty : FragmentTable := ⟨0, fun _ => none, [], 0, [], []⟩

/-- `SetTimeout`, with the iterator it returns. -/
def setTimeout (timeout : ℕ) (s : FragmentTable) (key : FragmentKey) (ipHeader : FragmentHeader)
    (iif : ℕ) : FragmentTable × ℕ :=
  let deadline := s.now + timeout
  ({ s with
      pending := if s.timeoutEventList = [] then deadline :: s.pending else s.pending
      timeoutEventList := s.timeoutEventList ++ [⟨s.nextIter, deadline, key, ipHeader, iif⟩]
      nextIter := s.nextIter + 1 }, s.nextIter)

/-- `std::list::erase`, which needs an iterator of the list. -/
def eraseIter (l : List TimeoutEntry) (iter : ℕ) : Option (List TimeoutEntry) :=
  if l.any fun e => e.iter = iter then some (l.eraseP fun e => e.iter = iter) else none

/-- The fragments under a key, new ones with a deadline if there are none, and their iterator. -/
def findFragments (timeout : ℕ) (s : FragmentTable) (key : FragmentKey) (ipHeader : FragmentHeader)
    (iif : ℕ) : FragmentTable × Fragments × ℕ :=
  match s.fragments key with
  | some (fragments, iter) => (s, fragments, iter)
  | none =>
    let (s, iter) := s.setTimeout timeout key ipHeader iif
    ({ s with fragments := Function.update s.fragments key (some (.empty, iter)) }, .empty, iter)

/-- `ProcessFragment`; the packet is there if it is complete. -/
def processFragment (timeout : ℕ) (s : FragmentTable) (packet : List UInt8)
    (ipHeader : FragmentHeader) (iif : ℕ) : Option (FragmentTable × Option (List UInt8)) :=
  let key := ipHeader.key
  let (s, fragments, iter) := s.findFragments timeout key ipHeader iif
  let fragments := fragments.addFragment packet ipHeader.fragmentOffset ipHeader.moreFragments
  if fragments.isEntire then do
    let packet ← fragments.getPacket
    let timeoutEventList ← eraseIter s.timeoutEventList iter
    some ({ s with
      fragments := Function.update s.fragments key none
      timeoutEventList := timeoutEventList
      outcomes := s.outcomes ++ [.complete iter packet] }, some packet)
  else
    some ({ s with fragments := Function.update s.fragments key (some (fragments, iter)) }, none)

/-- `HandleFragmentsTimeout`, which needs an element under the key. -/
def handleFragmentsTimeout (s : FragmentTable) (e : TimeoutEntry) : Option FragmentTable := do
  let (fragments, _) ← s.fragments e.key
  let packet ← fragments.getPartialPacket
  some { s with
    fragments := Function.update s.fragments e.key none
    outcomes := s.outcomes ++ [.timeout e s.now packet (8 < packet.length)] }

/-- The loop of `HandleTimeout`, over the elements of the list. -/
def expire (s : FragmentTable) : List TimeoutEntry → Option FragmentTable
  | [] => some s
  | e :: rest =>
    if e.deadline = s.now then do
      let s ← s.handleFragmentsTimeout e
      expire { s with timeoutEventList := rest } rest
    else some s

def handleTimeout (s : FragmentTable) : Option FragmentTable := do
  let s ← s.expire s.timeoutEventList
  match s.timeoutEventList with
  | [] => some s
  | e :: _ =>
    let difference := e.deadline - s.now
    some { s with pending := (s.now + difference) :: s.pending }

end FragmentTable

/-- What happens at a node: a fragment arrives, or the next `HandleTimeout` event runs. -/
inductive FragmentEvent where
  | arrival (time : ℕ) (packet : List UInt8) (ipHeader : FragmentHeader) (iif : ℕ)
  | timer (time : ℕ)

namespace FragmentTable

/-- Events run in the order of their times, those of one time in any order. -/
def Enabled (s : FragmentTable) : FragmentEvent → Prop
  | .arrival time _ _ _ => s.now ≤ time ∧ ∀ p ∈ s.pending, time ≤ p
  | .timer time => time ∈ s.pending ∧ ∀ p ∈ s.pending, time ≤ p

/-- The code that an event runs; `none` where it would use an iterator that is not valid. -/
def execute (timeout : ℕ) (s : FragmentTable) : FragmentEvent → Option FragmentTable
  | .arrival time packet ipHeader iif =>
    (processFragment timeout { s with now := time } packet ipHeader iif).map Prod.fst
  | .timer time => handleTimeout { s with now := time, pending := s.pending.erase time }

instance (s : FragmentTable) : DecidablePred s.Enabled
  | .arrival _ _ _ _ => inferInstanceAs (Decidable (_ ∧ _))
  | .timer _ => inferInstanceAs (Decidable (_ ∧ _))

/-- Events one after the other. -/
def replay (timeout : ℕ) (s : FragmentTable) : List FragmentEvent → Option FragmentTable
  | [] => some s
  | e :: events =>
    if s.Enabled e then (s.execute timeout e).bind fun t => replay timeout t events else none

/-- An event that may happen, happens. -/
def Step (timeout : ℕ) (s : FragmentTable) (e : FragmentEvent) (t : FragmentTable) : Prop :=
  s.Enabled e ∧ s.execute timeout e = some t

end FragmentTable

theorem FragmentTable.run_of_replay {timeout : ℕ} {s t : FragmentTable}
    {events : List FragmentEvent} (h : s.replay timeout events = some t) :
    ∃ trace, Run (Step timeout) s trace t := by
  induction events generalizing s with
  | nil =>
    cases h
    exact ⟨[], .nil⟩
  | cons e events ih =>
    unfold replay at h
    split_ifs at h with henabled
    obtain ⟨s', hexecute, hreplay⟩ := Option.bind_eq_some_iff.1 h
    obtain ⟨trace, hrun⟩ := ih hreplay
    exact ⟨_, .cons ⟨henabled, hexecute⟩ hrun⟩

/-! ## Bookkeeping -/

namespace FragmentTable

/-- The two containers in step: an element for each key, in the order of the deadlines, which lie
at most one timeout ahead, and every datagram so far either waiting or done, once. -/
structure Linked (timeout : ℕ) (s : FragmentTable) : Prop where
  find : ∀ e ∈ s.timeoutEventList, ∃ fragments, s.fragments e.key = some (fragments, e.iter)
  listed : ∀ key fragments iter, s.fragments key = some (fragments, iter) →
    ∃ e ∈ s.timeoutEventList, e.key = key ∧ e.iter = iter
  distinct : (s.timeoutEventList.map TimeoutEntry.key).Nodup
  ordered : s.timeoutEventList.Pairwise fun a b => a.deadline ≤ b.deadline
  ahead : ∀ e ∈ s.timeoutEventList, s.now ≤ e.deadline ∧ e.deadline ≤ s.now + timeout
  future : ∀ p ∈ s.pending, s.now ≤ p
  once : (s.timeoutEventList.map TimeoutEntry.iter ++ s.outcomes.map Outcome.iter).Perm
    (List.range s.nextIter)
  timely : ∀ e time packet icmp, .timeout e time packet icmp ∈ s.outcomes → time = e.deadline

/-- An event is pending for every deadline. -/
def Timed (s : FragmentTable) : Prop :=
  ∀ e ∈ s.timeoutEventList, ∃ p ∈ s.pending, p ≤ e.deadline

/-- No element of `m_fragments` is without a fragment. -/
def Filled (s : FragmentTable) : Prop :=
  ∀ key fragments iter, s.fragments key = some (fragments, iter) → fragments.fragments ≠ []

variable {timeout : ℕ} {s t : FragmentTable} {key : FragmentKey} {ipHeader : FragmentHeader}
  {iif : ℕ}

theorem linked_empty : empty.Linked timeout :=
  ⟨by simp [empty], by simp [empty], .nil, .nil, by simp [empty], by simp [empty], .refl _,
    by simp [empty]⟩

theorem mem_middle {front back : List TimeoutEntry} {e x : TimeoutEntry} (hx : x ∈ front ++ back) :
    x ∈ front ++ e :: back := by
  rw [List.mem_append] at hx
  rw [List.mem_append, List.mem_cons]
  tauto

/-- An element leaves both containers, with an outcome. -/
theorem Linked.remove (h : s.Linked timeout) {front back : List TimeoutEntry} {e : TimeoutEntry}
    (hlist : s.timeoutEventList = front ++ e :: back) {o : Outcome} (ho : o.iter = e.iter)
    (htimely : ∀ e time packet icmp, o = .timeout e time packet icmp → time = e.deadline) :
    Linked timeout { s with
      fragments := Function.update s.fragments e.key none
      timeoutEventList := front ++ back
      outcomes := s.outcomes ++ [o] } := by
  have hsub : ∀ x ∈ front ++ back, x ∈ s.timeoutEventList := fun x hx => by
    rw [hlist]
    exact mem_middle hx
  have hdistinct := h.distinct
  have hordered := h.ordered
  have honce := h.once
  rw [hlist, List.map_append, List.map_cons, List.nodup_middle, List.nodup_cons] at hdistinct
  rw [hlist] at hordered honce
  have hkey : ∀ x ∈ front ++ back, x.key ≠ e.key := fun x hx heq =>
    hdistinct.1 (by rw [← heq, ← List.map_append]; exact List.mem_map_of_mem hx)
  constructor
  · intro x hx
    obtain ⟨fragments, hfind⟩ := h.find x (hsub x hx)
    refine ⟨fragments, ?_⟩
    dsimp only
    rw [Function.update_of_ne (hkey x hx)]
    exact hfind
  · intro key fragments iter hsome
    dsimp only at hsome
    have hne : key ≠ e.key := by
      rintro rfl
      rw [Function.update_self] at hsome
      cases hsome
    rw [Function.update_of_ne hne] at hsome
    obtain ⟨x, hx, rfl, hiter⟩ := h.listed key fragments iter hsome
    rw [hlist, List.mem_append, List.mem_cons] at hx
    refine ⟨x, ?_, rfl, hiter⟩
    rcases hx with hx | rfl | hx
    · exact List.mem_append_left _ hx
    · exact absurd rfl hne
    · exact List.mem_append_right _ hx
  · rw [List.map_append]
    exact hdistinct.2
  · exact hordered.sublist ((List.Sublist.refl _).append (List.sublist_cons_self _ _))
  · exact fun x hx => h.ahead x (hsub x hx)
  · exact h.future
  · refine List.Perm.trans ?_ honce
    refine List.perm_iff_count.2 fun i => ?_
    simp only [List.map_append, List.map_cons, List.map_nil, List.count_append, List.count_cons,
      List.count_nil, ho]
    omega
  · intro x time packet icmp hx
    rw [List.mem_append, List.mem_singleton] at hx
    rcases hx with hx | hx
    · exact h.timely x time packet icmp hx
    · exact htimely x time packet icmp hx.symm

/-- Other fragments under a key. -/
theorem Linked.store (h : s.Linked timeout) {fragments : Fragments} {iter : ℕ}
    (hfind : s.fragments key = some (fragments, iter)) (fragments' : Fragments) :
    Linked timeout
      { s with fragments := Function.update s.fragments key (some (fragments', iter)) } := by
  refine { h with find := fun e he => ?_, listed := fun key' f i hsome => ?_ }
  · obtain ⟨f, hf⟩ := h.find e he
    dsimp only
    by_cases hkey : e.key = key
    · rw [hkey, hfind] at hf
      cases hf
      rw [hkey, Function.update_self]
      exact ⟨fragments', rfl⟩
    · rw [Function.update_of_ne hkey]
      exact ⟨f, hf⟩
  · dsimp only at hsome
    by_cases hkey : key' = key
    · subst hkey
      rw [Function.update_self] at hsome
      cases hsome
      exact h.listed _ _ _ hfind
    · rw [Function.update_of_ne hkey] at hsome
      exact h.listed _ _ _ hsome

/-- The clock goes on, but not past a pending event. -/
theorem Linked.tick (h : s.Linked timeout) (htimed : s.Timed) {time : ℕ} (hle : s.now ≤ time)
    (hpending : ∀ p ∈ s.pending, time ≤ p) : Linked timeout { s with now := time } := by
  refine { h with ahead := fun e he => ?_, future := hpending }
  obtain ⟨p, hp, hdeadline⟩ := htimed e he
  have htime := hpending p hp
  have hlast := (h.ahead e he).2
  exact ⟨Nat.le_trans htime hdeadline, Nat.le_trans hlast (Nat.add_le_add_right hle timeout)⟩

theorem Linked.findFragments (h : s.Linked timeout) (htimed : s.Timed) (key : FragmentKey)
    (ipHeader : FragmentHeader) (iif : ℕ) :
    (s.findFragments timeout key ipHeader iif).1.Linked timeout ∧
      (s.findFragments timeout key ipHeader iif).1.Timed ∧
      (s.findFragments timeout key ipHeader iif).1.fragments key =
        some (s.findFragments timeout key ipHeader iif).2 := by
  unfold FragmentTable.findFragments
  cases hfind : s.fragments key with
  | some it => exact ⟨h, htimed, hfind⟩
  | none =>
    have hfresh : ∀ e ∈ s.timeoutEventList, e.key ≠ key := by
      rintro e he rfl
      obtain ⟨f, hf⟩ := h.find e he
      rw [hfind] at hf
      cases hf
    refine ⟨?_, ?_, Function.update_self ..⟩
    · dsimp only [setTimeout]
      constructor
      · intro e he
        rw [List.mem_append, List.mem_singleton] at he
        rcases he with he | rfl
        · obtain ⟨f, hf⟩ := h.find e he
          exact ⟨f, (Function.update_of_ne (hfresh e he) _ _).trans hf⟩
        · exact ⟨.empty, Function.update_self ..⟩
      · intro key' f i hsome
        dsimp only at hsome
        by_cases hkey : key' = key
        · subst hkey
          rw [Function.update_self] at hsome
          cases hsome
          exact ⟨_, List.mem_append_right _ (List.mem_singleton_self _), rfl, rfl⟩
        · rw [Function.update_of_ne hkey] at hsome
          obtain ⟨e, he, hek, hei⟩ := h.listed key' f i hsome
          exact ⟨e, List.mem_append_left _ he, hek, hei⟩
      · rw [List.map_append, List.map_singleton, List.nodup_append]
        refine ⟨h.distinct, List.nodup_singleton _, fun a ha b hb => ?_⟩
        obtain ⟨e, he, rfl⟩ := List.mem_map.1 ha
        rw [List.mem_singleton.1 hb]
        exact hfresh e he
      · refine List.pairwise_append.2 ⟨h.ordered, List.pairwise_singleton _ _, fun a ha b hb => ?_⟩
        rw [List.mem_singleton.1 hb]
        exact (h.ahead a ha).2
      · intro e he
        rw [List.mem_append, List.mem_singleton] at he
        rcases he with he | rfl
        · exact h.ahead e he
        · exact ⟨Nat.le_add_right _ _, Nat.le_refl _⟩
      · intro p hp
        split_ifs at hp
        · rcases List.mem_cons.1 hp with rfl | hp
          · exact Nat.le_add_right _ _
          · exact h.future p hp
        · exact h.future p hp
      · rw [List.range_succ]
        refine List.Perm.trans ?_ (h.once.append_right _)
        refine List.perm_iff_count.2 fun i => ?_
        simp only [List.map_append, List.map_cons, List.map_nil, List.count_append]
        omega
      · exact h.timely
    · intro e he
      dsimp only [setTimeout] at he ⊢
      split_ifs with hempty
      · rw [hempty, List.nil_append, List.mem_singleton] at he
        exact ⟨_, List.mem_cons_self, by rw [he]⟩
      · -- an event for the first deadline comes before the new one
        rw [List.mem_append, List.mem_singleton] at he
        rcases he with he | rfl
        · exact htimed e he
        · obtain ⟨first, hfirst⟩ := List.exists_mem_of_ne_nil _ hempty
          obtain ⟨p, hp, hle⟩ := htimed first hfirst
          exact ⟨p, hp, Nat.le_trans hle (h.ahead first hfirst).2⟩

/-- Other keys keep their fragments. -/
theorem findFragments_of_ne (s : FragmentTable) {key key' : FragmentKey} (hne : key' ≠ key)
    (ipHeader : FragmentHeader) (iif : ℕ) :
    (s.findFragments timeout key ipHeader iif).1.fragments key' = s.fragments key' := by
  unfold findFragments
  cases s.fragments key with
  | some it => rfl
  | none => exact Function.update_of_ne hne _ _

/-- The iterator of an element erases that element. -/
theorem Linked.eraseIter (h : s.Linked timeout) {e : TimeoutEntry} (he : e ∈ s.timeoutEventList) :
    ∃ front back, s.timeoutEventList = front ++ e :: back ∧
      eraseIter s.timeoutEventList e.iter = some (front ++ back) := by
  have hnodup := (List.nodup_append.1 (h.once.nodup_iff.2 List.nodup_range)).1
  obtain ⟨x, front, back, -, hx, hlist, herase⟩ :=
    List.exists_of_eraseP (p := fun x => decide (x.iter = e.iter)) he (by simp)
  have hmem : x ∈ s.timeoutEventList := by
    rw [hlist]
    simp
  obtain rfl : x = e := List.inj_on_of_nodup_map hnodup hmem he (of_decide_eq_true hx)
  refine ⟨front, back, hlist, ?_⟩
  unfold FragmentTable.eraseIter
  rw [if_pos (List.any_eq_true.2 ⟨x, he, by simp⟩), herase]

theorem Linked.processFragment (h : s.Linked timeout) (htimed : s.Timed) (hfilled : s.Filled)
    (packet : List UInt8) (ipHeader : FragmentHeader) (iif : ℕ) :
    ∃ t complete, s.processFragment timeout packet ipHeader iif = some (t, complete) ∧
      t.Linked timeout ∧ t.Timed ∧ t.Filled := by
  obtain ⟨hlinked, htimed', hfind⟩ := h.findFragments htimed ipHeader.key ipHeader iif
  have hother : ∀ key', key' ≠ ipHeader.key →
      (s.findFragments timeout ipHeader.key ipHeader iif).1.fragments key' = s.fragments key' :=
    fun _ hne => s.findFragments_of_ne hne ipHeader iif
  unfold FragmentTable.processFragment
  dsimp only
  generalize s.findFragments timeout ipHeader.key ipHeader iif = found
    at hlinked htimed' hfind hother ⊢
  obtain ⟨s', f, iter⟩ := found
  dsimp only at hlinked htimed' hfind hother ⊢
  have hfilled' : ∀ key' f i, key' ≠ ipHeader.key → s'.fragments key' = some (f, i) →
      f.fragments ≠ [] := fun key' f i hne hsome =>
    hfilled key' f i ((hother key' hne).symm.trans hsome)
  split_ifs with hentire
  · -- the datagram is complete
    obtain ⟨packet', hpacket⟩ : ∃ packet', (f.addFragment packet ipHeader.fragmentOffset
        ipHeader.moreFragments).getPacket = some packet' :=
      Fragments.exists_getPacket (by simp [Fragments.addFragment])
    obtain ⟨e, he, hkey, rfl⟩ := hlinked.listed _ _ _ hfind
    obtain ⟨front, back, hlist, herase⟩ := hlinked.eraseIter he
    have hremove := hlinked.remove hlist (o := .complete e.iter packet') rfl (by simp)
    refine ⟨_, some packet', ?_, hremove, fun x hx => ?_, fun key f' i hsome => ?_⟩
    · rw [hpacket, herase, hkey]
      rfl
    · exact htimed' x (by rw [hlist]; exact mem_middle hx)
    · dsimp only at hsome
      have hne : key ≠ e.key := by
        rintro rfl
        rw [Function.update_self] at hsome
        cases hsome
      rw [Function.update_of_ne hne] at hsome
      exact hfilled' key f' i (hkey ▸ hne) hsome
  · refine ⟨_, _, rfl, hlinked.store hfind _, htimed', fun key f' i hsome => ?_⟩
    dsimp only at hsome
    by_cases hkey : key = ipHeader.key
    · subst hkey
      rw [Function.update_self] at hsome
      cases hsome
      simp [Fragments.addFragment]
    · rw [Function.update_of_ne hkey] at hsome
      exact hfilled' key f' i hkey hsome

/-- What the loop of `HandleTimeout` does: what is due goes, with an outcome, the rest stays. -/
structure Expired (s t : FragmentTable) : Prop where
  now : t.now = s.now
  pending : t.pending = s.pending
  rest : t.timeoutEventList <:+ s.timeoutEventList
  later : ∀ e ∈ t.timeoutEventList, s.now < e.deadline
  due : ∀ e ∈ s.timeoutEventList, e ∈ t.timeoutEventList ∨
    ∃ packet icmp, .timeout e s.now packet icmp ∈ t.outcomes
  outcomes : ∀ o ∈ s.outcomes, o ∈ t.outcomes

theorem Linked.handleFragmentsTimeout (h : s.Linked timeout) (hfilled : s.Filled)
    {e : TimeoutEntry} {rest : List TimeoutEntry} (hlist : s.timeoutEventList = e :: rest)
    (hdue : e.deadline = s.now) :
    ∃ t packet icmp, s.handleFragmentsTimeout e = some t ∧ t.now = s.now ∧ t.pending = s.pending ∧
      t.outcomes = s.outcomes ++ [.timeout e s.now packet icmp] ∧
      Linked timeout { t with timeoutEventList := rest } ∧
      Filled { t with timeoutEventList := rest } := by
  obtain ⟨f, hf⟩ := h.find e (by rw [hlist]; exact List.mem_cons_self)
  obtain ⟨packet, hpacket⟩ := Fragments.exists_getPartialPacket (hfilled _ _ _ hf)
  have hfront : s.timeoutEventList = [] ++ e :: rest := hlist
  have hremove := h.remove hfront
    (o := .timeout e s.now packet (8 < packet.length)) rfl
    (fun e' time packet' icmp heq => by cases heq; exact hdue.symm)
  refine ⟨{ s with
    fragments := Function.update s.fragments e.key none
    outcomes := s.outcomes ++ [.timeout e s.now packet (8 < packet.length)] }, packet, _, ?_, rfl,
    rfl, rfl, hremove, fun key f' i hsome => ?_⟩
  · simp only [FragmentTable.handleFragmentsTimeout, hf, Option.bind_eq_bind, Option.bind_some,
      hpacket]
  · dsimp only at hsome
    have hne : key ≠ e.key := by
      rintro rfl
      rw [Function.update_self] at hsome
      cases hsome
    rw [Function.update_of_ne hne] at hsome
    exact hfilled key f' i hsome

theorem Linked.expire (h : s.Linked timeout) (hfilled : s.Filled) {l : List TimeoutEntry}
    (hlist : s.timeoutEventList = l) :
    ∃ t, s.expire l = some t ∧ t.Linked timeout ∧ t.Filled ∧ s.Expired t := by
  induction l generalizing s with
  | nil =>
    refine ⟨s, rfl, h, hfilled, rfl, rfl, List.suffix_refl _, ?_, fun _ he => .inl he,
      fun _ ho => ho⟩
    intro e he
    rw [hlist] at he
    cases he
  | cons e rest ih =>
    unfold FragmentTable.expire
    split_ifs with hdue
    · obtain ⟨s', packet, icmp, hhandle, hnow, hpending, houtcomes, hlinked, hfilled'⟩ :=
        h.handleFragmentsTimeout hfilled hlist hdue
      obtain ⟨t, hexpire, ht, htfilled, hexp⟩ := ih hlinked hfilled' rfl
      refine ⟨t, ?_, ht, htfilled, ?_⟩
      · rw [hhandle]
        exact hexpire
      · have hfirst : .timeout e s.now packet icmp ∈ t.outcomes :=
          hexp.outcomes _ (by rw [houtcomes]; simp)
        constructor
        · exact hexp.now.trans hnow
        · exact hexp.pending.trans hpending
        · exact hlist ▸ hexp.rest.trans (List.suffix_cons e rest)
        · exact fun x hx => hnow ▸ hexp.later x hx
        · intro x hx
          rw [hlist, List.mem_cons] at hx
          rcases hx with rfl | hx
          · exact .inr ⟨packet, icmp, hfirst⟩
          · exact hnow ▸ hexp.due x hx
        · exact fun o ho => hexp.outcomes o (by rw [houtcomes]; exact List.mem_append_left _ ho)
    · refine ⟨s, rfl, h, hfilled, rfl, rfl, List.suffix_refl _, ?_, fun _ he => .inl he,
        fun _ ho => ho⟩
      intro x hx
      have hordered := h.ordered
      have hnow := (h.ahead e (by rw [hlist]; exact List.mem_cons_self)).1
      rw [hlist] at hx hordered
      obtain ⟨hfirst, -⟩ := List.pairwise_cons.1 hordered
      rcases List.mem_cons.1 hx with rfl | hx
      · omega
      · have := hfirst x hx
        omega

/-- The state of the two containers in every run. -/
structure Bookkeeping (timeout : ℕ) (s : FragmentTable) : Prop extends s.Linked timeout where
  timed : s.Timed
  filled : s.Filled

theorem bookkeeping_empty : empty.Bookkeeping timeout :=
  ⟨linked_empty, fun _ he => absurd he List.not_mem_nil, fun _ _ _ hsome => nomatch hsome⟩

/-- The event that is next sees every element it is about. -/
theorem Bookkeeping.handleTimeout (h : s.Bookkeeping timeout) {time : ℕ}
    (henabled : s.Enabled (.timer time)) :
    ∃ t u, s.execute timeout (.timer time) = some t ∧ t.Bookkeeping timeout ∧
      Expired { s with now := time, pending := s.pending.erase time } u ∧
      t.now = time ∧ t.outcomes = u.outcomes ∧ t.timeoutEventList = u.timeoutEventList ∧
      (t.timeoutEventList = [] ∧ t.pending = s.pending.erase time ∨
        ∃ e rest, t.timeoutEventList = e :: rest ∧
          t.pending = e.deadline :: s.pending.erase time) := by
  obtain ⟨hmem, hmin⟩ := henabled
  have htick := h.tick h.timed (h.future _ hmem) hmin
  have hlinked : Linked timeout { s with now := time, pending := s.pending.erase time } :=
    { htick with future := fun p hp => hmin p (List.mem_of_mem_erase hp) }
  obtain ⟨u, hexpire, hu, hufilled, hexp⟩ := hlinked.expire h.filled rfl
  have hexecute : s.execute timeout (.timer time) = match u.timeoutEventList with
      | [] => some u
      | e :: _ => some { u with pending := (u.now + (e.deadline - u.now)) :: u.pending } := by
    rw [FragmentTable.execute, FragmentTable.handleTimeout, hexpire]
    rfl
  have hnow : u.now = time := hexp.now
  have hpending : u.pending = s.pending.erase time := hexp.pending
  by_cases hlist : u.timeoutEventList = []
  · refine ⟨u, u, by rw [hexecute, hlist], ⟨hu, fun e he => ?_, hufilled⟩, hexp, hnow, rfl, rfl,
      .inl ⟨hlist, hpending⟩⟩
    rw [hlist] at he
    cases he
  · obtain ⟨e, rest, hlist⟩ := List.exists_cons_of_ne_nil hlist
    have hahead := (hu.ahead e (by rw [hlist]; exact List.mem_cons_self)).1
    refine ⟨{ u with pending := e.deadline :: u.pending }, u, ?_,
      ⟨{ hu with future := fun p hp => ?_ }, fun x hx => ?_, hufilled⟩, hexp, hnow, rfl, rfl,
      .inr ⟨e, rest, hlist, by rw [hpending]⟩⟩
    · simp only [hexecute, hlist, Nat.add_sub_cancel' hahead]
    · rcases List.mem_cons.1 hp with rfl | hp
      · exact hahead
      · exact hu.future p hp
    · -- the first deadline is the earliest
      refine ⟨e.deadline, List.mem_cons_self, ?_⟩
      have hordered := hu.ordered
      rw [hlist] at hordered
      replace hx : x ∈ e :: rest := hlist ▸ hx
      rcases List.mem_cons.1 hx with rfl | hx
      · exact Nat.le_refl _
      · exact (List.pairwise_cons.1 hordered).1 x hx

/-- Every event that may happen finds what it looks up. -/
theorem Bookkeeping.execute (h : s.Bookkeeping timeout) {e : FragmentEvent} (he : s.Enabled e) :
    ∃ t, s.execute timeout e = some t ∧ t.Bookkeeping timeout := by
  cases e with
  | arrival time packet ipHeader iif =>
    have htick := h.tick h.timed he.1 he.2
    obtain ⟨t, complete, hprocess, hlinked, htimed, hfilled⟩ :=
      htick.processFragment h.timed h.filled packet ipHeader iif
    refine ⟨t, ?_, hlinked, htimed, hfilled⟩
    rw [FragmentTable.execute, hprocess]
    rfl
  | timer time =>
    obtain ⟨t, -, hexecute, ht, -⟩ := h.handleTimeout he
    exact ⟨t, hexecute, ht⟩

theorem bookkeeping_of_run {trace : List (FragmentTable × FragmentEvent)}
    (h : Run (Step timeout) empty trace s) : s.Bookkeeping timeout := by
  refine h.invariant bookkeeping_empty fun s e t hs hst => ?_
  obtain ⟨t', hexecute, ht⟩ := hs.execute hst.1
  cases hst.2.symm.trans hexecute
  exact ht

/-! ## Deadlines -/

/-- The earliest event that is pending may run. -/
theorem exists_enabled_timer {p : ℕ} (hp : p ∈ s.pending) :
    ∃ time, s.Enabled (.timer time) ∧ time ≤ p := by
  obtain ⟨time, htime, hmin⟩ := Finset.exists_min_image s.pending.toFinset id
    ⟨p, List.mem_toFinset.2 hp⟩
  rw [List.mem_toFinset] at htime
  have hmin' : ∀ q ∈ s.pending, time ≤ q := fun q hq => hmin q (List.mem_toFinset.2 hq)
  exact ⟨time, ⟨htime, hmin'⟩, hmin' p hp⟩

/-- A run of `HandleTimeout` events only. -/
def TimerRun (timeout : ℕ) (s t : FragmentTable) : Prop :=
  ∃ trace, Run (Step timeout) s trace t ∧ ∀ p ∈ trace, ∃ time, p.2 = .timer time

theorem TimerRun.trans {u : FragmentTable} (h : TimerRun timeout s t) (h' : TimerRun timeout t u) :
    TimerRun timeout s u := by
  obtain ⟨trace, hrun, htimer⟩ := h
  obtain ⟨trace', hrun', htimer'⟩ := h'
  refine ⟨trace ++ trace', hrun.append hrun', fun p hp => ?_⟩
  rcases List.mem_append.1 hp with hp | hp
  · exact htimer p hp
  · exact htimer' p hp

/-- An element is still there or has been dropped at its deadline. -/
def KeptOrDropped (s t : FragmentTable) : Prop :=
  (∀ o ∈ s.outcomes, o ∈ t.outcomes) ∧ ∀ e ∈ s.timeoutEventList, e ∈ t.timeoutEventList ∨
    ∃ packet icmp, .timeout e e.deadline packet icmp ∈ t.outcomes

theorem KeptOrDropped.trans {u : FragmentTable} (h : KeptOrDropped s t)
    (h' : KeptOrDropped t u) : KeptOrDropped s u := by
  refine ⟨fun o ho => h'.1 o (h.1 o ho), fun e he => ?_⟩
  rcases h.2 e he with he | ⟨packet, icmp, ho⟩
  · exact h'.2 e he
  · exact .inr ⟨packet, icmp, h'.1 _ ho⟩

/-- One event: it drops the first element, or the next event for that one is closer. -/
theorem Bookkeeping.timer_step (h : s.Bookkeeping timeout) {first : TimeoutEntry}
    {rest : List TimeoutEntry} (hlist : s.timeoutEventList = first :: rest) :
    ∃ t, TimerRun timeout s t ∧ t.Bookkeeping timeout ∧ KeptOrDropped s t ∧
      (t.timeoutEventList.length < s.timeoutEventList.length ∨
        t.timeoutEventList = s.timeoutEventList ∧
          t.pending.countP (· < first.deadline) < s.pending.countP (· < first.deadline)) := by
  obtain ⟨p, hp, hple⟩ := h.timed first (by rw [hlist]; exact List.mem_cons_self)
  obtain ⟨time, henabled, htime⟩ := exists_enabled_timer hp
  obtain ⟨t, u, hexecute, ht, hexp, hnow, houtcomes, hrest, hpending⟩ := h.handleTimeout henabled
  have hdue : ∀ e ∈ s.timeoutEventList, e ∈ t.timeoutEventList ∨ e.deadline = time ∧
      ∃ packet icmp, .timeout e e.deadline packet icmp ∈ t.outcomes := by
    intro e he
    rcases hexp.due e he with he | ⟨packet, icmp, ho⟩
    · exact .inl (hrest ▸ he)
    · rw [← houtcomes] at ho
      obtain rfl := ht.timely _ _ _ _ ho
      exact .inr ⟨rfl, packet, icmp, ho⟩
  have hsuffix : t.timeoutEventList <:+ first :: rest := by
    rw [hrest, ← hlist]
    exact hexp.rest
  refine ⟨t, ⟨_, .snoc .nil ⟨henabled, hexecute⟩, fun p hp => ⟨time, ?_⟩⟩, ht,
    ⟨fun o ho => houtcomes ▸ hexp.outcomes o ho, fun e he => (hdue e he).imp_right And.right⟩, ?_⟩
  · rw [List.mem_singleton.1 hp]
  · rw [hlist]
    by_cases hfirst : first ∈ t.timeoutEventList
    · right
      have hlater : time < first.deadline := hexp.later first (hrest ▸ hfirst)
      have heq : t.timeoutEventList = first :: rest := by
        refine (List.suffix_cons_iff.1 hsuffix).resolve_right fun hsuffix' => ?_
        have hdistinct := h.distinct
        rw [hlist, List.map_cons, List.nodup_cons] at hdistinct
        exact hdistinct.1 (List.mem_map_of_mem (hsuffix'.subset hfirst))
      have hpending' : t.pending = first.deadline :: s.pending.erase time := by
        rcases hpending with ⟨hnil, -⟩ | ⟨e, rest', hcons, hpending⟩
        · rw [hnil] at hfirst
          cases hfirst
        · cases heq.symm.trans hcons
          exact hpending
      have hcount : 0 < s.pending.countP (· < first.deadline) :=
        List.countP_pos_iff.2 ⟨time, henabled.1, by simpa using hlater⟩
      refine ⟨heq, ?_⟩
      rw [hpending', List.countP_cons, List.countP_erase,
        if_pos ⟨henabled.1, by simpa using hlater⟩, if_neg (by simp), Nat.add_zero]
      exact Nat.sub_lt hcount Nat.one_pos
    · left
      refine Nat.lt_of_le_of_ne hsuffix.length_le fun hlen => hfirst ?_
      rw [hsuffix.eq_of_length hlen]
      exact List.mem_cons_self

theorem Bookkeeping.drop_first (h : s.Bookkeeping timeout) (hne : s.timeoutEventList ≠ []) :
    ∃ t, TimerRun timeout s t ∧ t.Bookkeeping timeout ∧ KeptOrDropped s t ∧
      t.timeoutEventList.length < s.timeoutEventList.length := by
  obtain ⟨first, rest, hlist⟩ := List.exists_cons_of_ne_nil hne
  induction hn : s.pending.countP (· < first.deadline) using Nat.strong_induction_on
    generalizing s with
  | _ n ih =>
    obtain ⟨t, hrun, ht, hkept, hless | ⟨hsame, hcloser⟩⟩ := h.timer_step hlist
    · exact ⟨t, hrun, ht, hkept, hless⟩
    · rw [hn] at hcloser
      obtain ⟨u, hrun', hu, hkept', hless⟩ :=
        ih _ hcloser ht (by rwa [hsame]) (hsame.trans hlist) rfl
      exact ⟨u, hrun.trans hrun', hu, hkept.trans hkept', hsame ▸ hless⟩

/-- The events that are pending drop everything that waits, each at its deadline. -/
theorem Bookkeeping.drop_all (h : s.Bookkeeping timeout) :
    ∃ t, TimerRun timeout s t ∧ KeptOrDropped s t ∧ t.timeoutEventList = [] := by
  induction hn : s.timeoutEventList.length using Nat.strong_induction_on generalizing s with
  | _ n ih =>
    by_cases hne : s.timeoutEventList = []
    · refine ⟨s, ⟨[], .nil, fun p hp => absurd hp List.not_mem_nil⟩,
        ⟨fun _ ho => ho, fun _ he => .inl he⟩, hne⟩
    · obtain ⟨t, hrun, ht, hkept, hless⟩ := h.drop_first hne
      obtain ⟨u, hrun', hkept', hnil⟩ := ih _ (hn ▸ hless) ht rfl
      exact ⟨u, hrun.trans hrun', hkept.trans hkept', hnil⟩

/-- A datagram in two fragments at time 0, and at time 1 the first fragment of another. -/
def rearming : List FragmentEvent :=
  [.arrival 0 (List.replicate 8 0) ⟨1, 2, 7, 17, 0, true⟩ 1,
    .arrival 0 (List.replicate 8 0) ⟨1, 2, 7, 17, 8, false⟩ 1,
    .arrival 1 (List.replicate 8 0) ⟨1, 2, 8, 17, 0, true⟩ 1]

theorem exists_run_rearming : ∃ trace s, Run (Step 30) empty trace s ∧ s.pending = [31, 30] := by
  have hreplay : (replay 30 empty rearming).map pending = some [31, 30] := by decide
  obtain ⟨s, hs, hpending⟩ := Option.map_eq_some_iff.1 hreplay
  obtain ⟨trace, hrun⟩ := run_of_replay hs
  exact ⟨trace, s, hrun, hpending⟩

/-- Through every run: the keys are those of the elements of the list, one element each, which the
iterator under the key names; the list is in the order of the deadlines; no event looks up what is
not there; every datagram so far waits, is complete or was dropped, once, and then at its deadline;
none waits beyond its deadline, and the events that are pending drop all that still wait. -/
theorem fragment_timeouts (timeout : ℕ) {trace : List (FragmentTable × FragmentEvent)}
    {s : FragmentTable} (h : Run (Step timeout) empty trace s) :
    Set.BijOn TimeoutEntry.key {e | e ∈ s.timeoutEventList} {key | s.fragments key ≠ none} ∧
    s.timeoutEventList.Nodup ∧
    (∀ e ∈ s.timeoutEventList, ∃ fragments, s.fragments e.key = some (fragments, e.iter)) ∧
    s.timeoutEventList.Pairwise (fun a b => a.deadline ≤ b.deadline) ∧
    (∀ e, s.Enabled e → ∃ t, s.execute timeout e = some t) ∧
    (s.timeoutEventList.map TimeoutEntry.iter ++ s.outcomes.map Outcome.iter).Perm
      (List.range s.nextIter) ∧
    (∀ e time packet icmp, .timeout e time packet icmp ∈ s.outcomes → time = e.deadline) ∧
    (∀ e ∈ s.timeoutEventList, s.now ≤ e.deadline) ∧
    ∃ t, TimerRun timeout s t ∧ ∀ e ∈ s.timeoutEventList,
      ∃ packet icmp, .timeout e e.deadline packet icmp ∈ t.outcomes := by
  have hs := bookkeeping_of_run h
  refine ⟨⟨?_, ?_, ?_⟩, hs.distinct.of_map _, hs.find, hs.ordered, fun e he => ?_, hs.once,
    hs.timely, fun e he => (hs.ahead e he).1, ?_⟩
  · intro e he
    obtain ⟨f, hf⟩ := hs.find e he
    rw [Set.mem_ofPred_eq, hf]
    exact Option.some_ne_none _
  · intro a ha b hb heq
    exact List.inj_on_of_nodup_map hs.distinct ha hb heq
  · intro key hkey
    obtain ⟨⟨f, iter⟩, hf⟩ := Option.ne_none_iff_exists'.1 hkey
    obtain ⟨e, he, rfl, -⟩ := hs.listed key f iter hf
    exact ⟨e, he, rfl⟩
  · obtain ⟨t, hexecute, -⟩ := hs.execute he
    exact ⟨t, hexecute⟩
  · obtain ⟨t, hrun, hkept, hnil⟩ := hs.drop_all
    refine ⟨t, hrun, fun e he => (hkept.2 e he).resolve_left fun he' => ?_⟩
    rw [hnil] at he'
    cases he'

theorem fragment_timeouts_rearming : ∃ s : FragmentTable, s.pending = [31, 30] ∧
    s.timeoutEventList.Pairwise fun a b => a.deadline ≤ b.deadline := by
  obtain ⟨trace, s, hrun, hpending⟩ := exists_run_rearming
  exact ⟨s, hpending, (fragment_timeouts 30 hrun).2.2.2.1⟩

/-! ## One event -/

/-- A fragment arrives, nothing waits, and an event is still pending. -/
def ArmsAgain (s : FragmentTable) : FragmentEvent → Prop
  | .arrival .. => s.timeoutEventList = [] ∧ s.pending ≠ []
  | .timer _ => False

theorem pending_processFragment {packet : List UInt8} {complete : Option (List UInt8)}
    (h : s.processFragment timeout packet ipHeader iif = some (t, complete)) :
    t.pending = (s.findFragments timeout ipHeader.key ipHeader iif).1.pending := by
  unfold processFragment at h
  dsimp only at h
  generalize s.findFragments timeout ipHeader.key ipHeader iif = found at h ⊢
  split_ifs at h
  · obtain ⟨packet', -, h⟩ := Option.bind_eq_some_iff.1 h
    obtain ⟨l, -, h⟩ := Option.bind_eq_some_iff.1 h
    cases h
    rfl
  · cases h
    rfl

/-- An arrival schedules an event exactly if nothing waits. -/
theorem Bookkeeping.pending_arrival (h : s.Bookkeeping timeout) {time : ℕ} {packet : List UInt8}
    (hexecute : s.execute timeout (.arrival time packet ipHeader iif) = some t) :
    t.pending =
      if s.timeoutEventList = [] then (time + timeout) :: s.pending else s.pending := by
  obtain ⟨⟨t', complete⟩, hprocess, rfl⟩ := Option.map_eq_some_iff.1 hexecute
  rw [pending_processFragment hprocess]
  unfold findFragments
  dsimp only
  cases hfind : s.fragments ipHeader.key with
  | some it =>
    obtain ⟨e, he, -⟩ := h.listed _ _ _ hfind
    rw [if_neg (List.ne_nil_of_mem he)]
  | none => rfl

/-- At most one event is pending throughout a run, exactly if no fragment arrives in it while
nothing waits and an event is pending. -/
theorem single_timer_iff (timeout : ℕ) {trace : List (FragmentTable × FragmentEvent)}
    {s : FragmentTable} (h : Run (Step timeout) empty trace s) :
    ((∀ p ∈ trace, p.1.pending.length ≤ 1) ∧ s.pending.length ≤ 1) ↔
      ∀ p ∈ trace, ¬ p.1.ArmsAgain p.2 := by
  refine h.forall_iff (fun s => s.pending.length ≤ 1) ArmsAgain (Nat.zero_le 1)
    fun trace s e t hrun hst hgood => ?_
  have hs := bookkeeping_of_run hrun
  cases e with
  | arrival time packet ipHeader iif =>
    rw [hs.pending_arrival hst.2]
    unfold ArmsAgain
    split_ifs with hnil
    · rw [List.length_cons, and_iff_right hnil, ← List.length_pos_iff]
      omega
    · simp [hnil, hgood]
  | timer time =>
    obtain ⟨t', -, hexecute, -, -, -, -, -, hpending⟩ := hs.handleTimeout hst.1
    cases hst.2.symm.trans hexecute
    have hone := List.length_erase_of_mem hst.1.1
    refine iff_of_true ?_ not_false
    rcases hpending with ⟨-, hpending⟩ | ⟨e, rest, -, hpending⟩
    · rw [hpending]
      omega
    · rw [hpending, List.length_cons]
      omega

theorem single_timer_iff_rearming : ∃ trace s, Run (Step 30) empty trace s ∧
    ∃ p ∈ trace, p.1.ArmsAgain p.2 := by
  obtain ⟨trace, s, hrun, hpending⟩ := exists_run_rearming
  have hmany : ¬ s.pending.length ≤ 1 := by
    rw [hpending]
    decide
  by_contra hnone
  exact hmany ((single_timer_iff 30 hrun).2 fun p hp hbad =>
    hnone ⟨trace, s, hrun, p, hp, hbad⟩).2

theorem two_timers_pending : ¬ ∀ trace s, Run (Step 30) empty trace s →
    (∀ p ∈ trace, p.1.pending.length ≤ 1) ∧ s.pending.length ≤ 1 := by
  intro h
  obtain ⟨trace, s, hrun, hpending⟩ := exists_run_rearming
  have hle := (h trace s hrun).2
  rw [hpending] at hle
  exact absurd hle (by decide)

end FragmentTable

end SeanetSim
