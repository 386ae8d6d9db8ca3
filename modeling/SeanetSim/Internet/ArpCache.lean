import Mathlib.Algebra.Order.Group.Nat
import Mathlib.Data.List.Basic
import Mathlib.Data.Option.Basic
import Mathlib.Logic.Function.Basic

/-!
# The ARP cache

An entry of the cache waits for a reply with the packets for its address in a queue, and one timer
asks again for all addresses that have not been answered.  A waiting entry is never older than the
timer allows (`ArpCache.Ok`), so that `Lookup` does one of five things (`ArpCache.send_effect`),
none of them its fatal error.
-/

namespace SeanetSim

inductive ArpState
  | alive
  | waitReply
  | dead
  | permanent
deriving DecidableEq, Repr

/-- `ArpCache::Entry`. -/
structure ArpEntry (μ π : Type) where
  state : ArpState
  lastSeen : ℕ
  macAddress : Option μ
  pending : List π
  retries : ℕ

/-- The attributes. -/
structure ArpAttributes where
  aliveTimeout : ℕ
  deadTimeout : ℕ
  waitReplyTimeout : ℕ
  maxRetries : ℕ
  pendingQueueSize : ℕ

/-- What the protocol does with packets: `ignore` is a packet that is lost without a trace. -/
inductive ArpOutput (δ μ π : Type)
  | send (dest : δ) (mac : Option μ) (packet : π)
  | request (dest : δ)
  | drop (dest : δ) (packet : π)
  | ignore (dest : δ) (packet : π)
deriving DecidableEq, Repr

/-- `Time::Max`. -/
def timeMax : ℕ := 2 ^ 63 - 1

namespace ArpEntry

variable {μ π : Type} (a : ArpAttributes) (now : ℕ) (e : ArpEntry μ π)

/-- The constructor. -/
def init : ArpEntry μ π := ⟨.alive, 0, none, [], 0⟩

def markDead : Option (ArpEntry μ π) := do
  guard (e.state = .alive ∨ e.state = .waitReply ∨ e.state = .dead)
  return { e with state := .dead, retries := 0, lastSeen := now }

def markAlive (macAddress : μ) : Option (ArpEntry μ π) := do
  guard (e.state = .waitReply)
  return { e with macAddress := some macAddress, state := .alive, retries := 0, lastSeen := now }

def markPermanent : Option (ArpEntry μ π) := do
  guard (e.macAddress.isSome = true)
  return { e with state := .permanent, retries := 0, lastSeen := now }

/-- `UpdateWaitReply`, with what it returns. -/
def updateWaitReply (waiting : π) : Option (ArpEntry μ π × Bool) := do
  guard (e.state = .waitReply)
  if a.pendingQueueSize ≤ e.pending.length then return (e, false)
  else return ({ e with pending := e.pending ++ [waiting] }, true)

/-- `MarkWaitReply`, apart from the timer. -/
def markWaitReply (waiting : π) : Option (ArpEntry μ π) := do
  guard (e.state = .alive ∨ e.state = .dead)
  guard (e.pending.isEmpty = true)
  return { e with state := .waitReply, pending := e.pending ++ [waiting], lastSeen := now }

def getTimeout : ℕ :=
  match e.state with
  | .waitReply => a.waitReplyTimeout
  | .dead => a.deadTimeout
  | .alive => a.aliveTimeout
  | .permanent => timeMax

def isExpired : Bool := decide (e.getTimeout a < now - e.lastSeen)

def incrementRetries : ArpEntry μ π := { e with retries := e.retries + 1, lastSeen := now }

/-- `UpdateSeen`, for an entry that is alive. -/
def updateSeen : ArpEntry μ π := if e.state = .alive then { e with lastSeen := now } else e

end ArpEntry

/-- The clock, `m_arpCache` with the order of its elements, the time of the `m_waitReplyTimer` event
while it is pending, and whether the interface is up. -/
structure ArpCache (δ μ π : Type) where
  now : ℕ
  keys : List δ
  entry : δ → Option (ArpEntry μ π)
  waitReplyTimer : Option ℕ
  ifup : Bool

/-- What happens to a cache. -/
inductive ArpEvent (δ μ π : Type)
  | tick (time : ℕ)
  | send (dest : δ) (packet : π)
  | reply (source : δ) (mac : μ)
  | timeout
  | seen (source : δ) (sender : μ)
  | flush
  | permanent (dest : δ) (mac : μ)
  | setUp (up : Bool)
deriving DecidableEq, Repr

namespace ArpCache

variable {δ μ π : Type}

def init : ArpCache δ μ π := ⟨0, [], fun _ => none, none, true⟩

section Operations

variable [DecidableEq δ] (a : ArpAttributes) (c : ArpCache δ μ π)

def set (dest : δ) (e : ArpEntry μ π) : ArpCache δ μ π :=
  { c with entry := Function.update c.entry dest (some e) }

/-- `Add`, with the entry that it makes. -/
def add (dest : δ) : Option (ArpCache δ μ π × ArpEntry μ π) := do
  guard (c.entry dest).isNone
  return ({ c with keys := c.keys ++ [dest] }.set dest .init, .init)

def startWaitReplyTimer : ArpCache δ μ π :=
  if c.waitReplyTimer.isNone then
    { c with waitReplyTimer := some (c.now + a.waitReplyTimeout) }
  else c

/-- `MarkWaitReply` for an entry, and the request that is sent after it. -/
def ask (dest : δ) (e : ArpEntry μ π) (packet : π) :
    Option (ArpCache δ μ π × List (ArpOutput δ μ π) × Option (Option μ)) := do
  let e ← e.markWaitReply c.now packet
  return ((c.set dest e).startWaitReplyTimer a, [.request dest], none)

/-- `ArpL3Protocol::Lookup`, with the address that it finds; `none` is a failed assertion or a fatal
error. -/
def lookup (packet : π) (dest : δ) :
    Option (ArpCache δ μ π × List (ArpOutput δ μ π) × Option (Option μ)) :=
  match c.entry dest with
  | some e =>
    if e.isExpired a c.now then
      match e.state with
      | .dead => c.ask a dest e packet
      | .alive => c.ask a dest e packet
      | _ => none
    else
      match e.state with
      | .dead => some (c, [.drop dest packet], none)
      | .alive => some (c, [], some e.macAddress)
      | .waitReply => do
        let (e, queued) ← e.updateWaitReply a packet
        return (c.set dest e, if queued then [] else [.drop dest packet], none)
      | .permanent => some (c, [], some e.macAddress)
  | none => do
    let (c, e) ← c.add dest
    c.ask a dest e packet

/-- `Ipv4Interface::Send`, for an address that needs a lookup. -/
def send (packet : π) (dest : δ) : Option (ArpCache δ μ π × List (ArpOutput δ μ π)) :=
  if !c.ifup then some (c, [.ignore dest packet])
  else do
    let (c, out, found) ← c.lookup a packet dest
    match found with
    | some mac => return (c, out ++ [.send dest mac packet])
    | none => return (c, out)

/-- The loop that sends what an entry holds, for as many rounds as the first argument says. -/
def sendPending (source : δ) : ℕ → ArpCache δ μ π → Option (ArpCache δ μ π × List (ArpOutput δ μ π))
  | 0, _ => none
  | rounds + 1, c => do
    let e ← c.entry source
    match e.pending with
    | [] => return (c, [])
    | packet :: pending =>
      let (c, out) ← (c.set source { e with pending := pending }).send a packet source
      let (c, out') ← sendPending source rounds c
      return (c, out ++ out')

/-- `Receive` of a reply that is for this node. -/
def receiveReply (source : δ) (mac : μ) : Option (ArpCache δ μ π × List (ArpOutput δ μ π)) :=
  match c.entry source with
  | some e =>
    if e.state = .waitReply then do
      let e ← e.markAlive c.now mac
      sendPending a source (e.pending.length + 1) (c.set source e)
    else some (c, [])
  | none => some (c, [])

/-- One entry in the loop of `HandleWaitReplyTimeout`: what becomes of it, what is done, and whether
the timer is needed again. -/
def waitTimeout (dest : δ) (e : ArpEntry μ π) :
    Option (ArpEntry μ π × List (ArpOutput δ μ π) × Bool) :=
  if e.state = .waitReply then
    if e.retries < a.maxRetries then
      some (e.incrementRetries c.now, [.request dest], true)
    else do
      let dead ← e.markDead c.now
      return ({ dead with pending := [] }, e.pending.map (.drop dest), false)
  else some (e, [], false)

/-- The loop of `HandleWaitReplyTimeout`. -/
def waitTimeouts : List δ → ArpCache δ μ π →
    Option (ArpCache δ μ π × List (ArpOutput δ μ π) × Bool)
  | [], c => some (c, [], false)
  | dest :: rest, c => do
    let e ← c.entry dest
    let (e, out, restart) ← c.waitTimeout a dest e
    let (c, out', restart') ← waitTimeouts rest (c.set dest e)
    return (c, out ++ out', restart || restart')

def handleWaitReplyTimeout : Option (ArpCache δ μ π × List (ArpOutput δ μ π)) := do
  let (c, out, restart) ← waitTimeouts a c.keys { c with waitReplyTimer := none }
  if restart then return ({ c with waitReplyTimer := some (c.now + a.waitReplyTimeout) }, out)
  else return (c, out)

/-- `Flush`, with what the entries held. -/
def flush : ArpCache δ μ π × List (ArpOutput δ μ π) :=
  ({ c with keys := [], entry := fun _ => none, waitReplyTimer := none },
    c.keys.flatMap fun dest => (c.entry dest).elim [] fun e => e.pending.map (.ignore dest))

/-- What `Ipv4L3Protocol::Receive` does to the cache for a packet from an address, which a neighbour
has sent. -/
def seen [DecidableEq μ] (source : δ) (sender : μ) : ArpCache δ μ π :=
  if (c.entry source).isSome then
    { c with entry := Function.update c.entry source ((c.entry source).map (·.updateSeen c.now)) }
  else
    { c with entry := fun dest => (c.entry dest).map fun e =>
        if e.macAddress = some sender then e.updateSeen c.now else e }

/-- A static entry: `Add`, `SetMacAddress` and `MarkPermanent`. -/
def addPermanent (dest : δ) (mac : μ) : Option (ArpCache δ μ π) := do
  let (c, e) ← c.add dest
  let e ← { e with macAddress := some mac }.markPermanent c.now
  return c.set dest e

/-- What comes of an event, with what is done. -/
def next? [DecidableEq μ] : ArpEvent δ μ π → Option (ArpCache δ μ π × List (ArpOutput δ μ π))
  | .tick time => some ({ c with now := time }, [])
  | .send dest packet => c.send a packet dest
  | .reply source mac => c.receiveReply a source mac
  | .timeout => c.handleWaitReplyTimeout a
  | .seen source sender => some (c.seen source sender, [])
  | .flush => some c.flush
  | .permanent dest mac => (c.addPermanent dest mac).map fun c => (c, [])
  | .setUp up => some ({ c with ifup := up }, [])

/-- The clock goes on to no later than the timer, which runs at its time; a static entry is made for
an address that has none. -/
def Allowed : ArpEvent δ μ π → Prop
  | .tick time => c.now ≤ time ∧ time ≤ timeMax ∧ ∀ expiry ∈ c.waitReplyTimer, time ≤ expiry
  | .timeout => c.waitReplyTimer = some c.now
  | .permanent dest _ => c.entry dest = none
  | _ => True

end Operations

end ArpCache

/-! ### What every event keeps -/

/-- An entry holds packets exactly while it waits, and then the timer runs no later than its own
time is up. -/
structure ArpEntry.Ok {μ π : Type} (a : ArpAttributes) (now : ℕ) (timer : Option ℕ)
    (e : ArpEntry μ π) : Prop where
  pending_iff : e.pending = [] ↔ e.state ≠ .waitReply
  length_le : e.pending.length ≤ max 1 a.pendingQueueSize
  retries_le : e.retries ≤ a.maxRetries
  retries_eq : e.state ≠ .waitReply → e.retries = 0
  lastSeen_le : e.lastSeen ≤ now
  expiry : e.state = .waitReply → ∃ expiry ∈ timer, expiry ≤ e.lastSeen + a.waitReplyTimeout
  mac : e.state = .alive ∨ e.state = .permanent → e.macAddress.isSome = true

namespace ArpCache

variable {δ μ π : Type} {a : ArpAttributes} {c c' : ArpCache δ μ π}
  {packet : π} {dest : δ} {out : List (ArpOutput δ μ π)} {e : ArpEntry μ π}

structure Ok (a : ArpAttributes) (c : ArpCache δ μ π) : Prop where
  nodup : c.keys.Nodup
  mem_keys : ∀ dest, dest ∈ c.keys ↔ (c.entry dest).isSome = true
  now_le : c.now ≤ timeMax
  timer : ∀ expiry ∈ c.waitReplyTimer, c.now ≤ expiry ∧ expiry ≤ c.now + a.waitReplyTimeout
  entries : ∀ dest, ∀ e ∈ c.entry dest, e.Ok a c.now c.waitReplyTimer

theorem ok_init : Ok a (init : ArpCache δ μ π) where
  nodup := List.nodup_nil
  mem_keys := by simp [init]
  now_le := Nat.zero_le _
  timer := by simp [init]
  entries := by simp [init]

/-- No entry is found waiting after its time. -/
theorem Ok.state_of_expired (h : Ok a c) (he : c.entry dest = some e)
    (hexpired : e.isExpired a c.now = true) : e.state = .dead ∨ e.state = .alive := by
  have hentry := h.entries dest e he
  have hnow := h.now_le
  have hlate := of_decide_eq_true hexpired
  rw [ArpEntry.getTimeout] at hlate
  cases hstate : e.state with
  | dead => exact .inl rfl
  | alive => exact .inr rfl
  | waitReply =>
    obtain ⟨expiry, hmem, hle⟩ := hentry.expiry hstate
    have hbefore := (h.timer expiry hmem).1
    rw [hstate] at hlate
    dsimp only at hlate
    omega
  | permanent =>
    rw [hstate] at hlate
    dsimp only at hlate
    omega

theorem startWaitReplyTimer_eq (c : ArpCache δ μ π) : c.startWaitReplyTimer a =
    { c with waitReplyTimer := some (c.waitReplyTimer.getD (c.now + a.waitReplyTimeout)) } := by
  rw [startWaitReplyTimer]
  cases h : c.waitReplyTimer with
  | none => rfl
  | some expiry => cases c; cases h; rfl

variable [DecidableEq δ]

/-- The entry of an address that is asked for. -/
def asked (a : ArpAttributes) (c : ArpCache δ μ π) (dest : δ) (packet : π) : ArpCache δ μ π where
  now := c.now
  keys := if (c.entry dest).isSome then c.keys else c.keys ++ [dest]
  entry := Function.update c.entry dest
    (some ⟨.waitReply, c.now, (c.entry dest).bind (·.macAddress), [packet], 0⟩)
  waitReplyTimer := some (c.waitReplyTimer.getD (c.now + a.waitReplyTimeout))
  ifup := c.ifup

/-- All that a packet can bring about. -/
inductive SendEffect (a : ArpAttributes) (c : ArpCache δ μ π) (packet : π) (dest : δ) :
    ArpCache δ μ π → List (ArpOutput δ μ π) → Prop
  | down (hdown : c.ifup = false) : SendEffect a c packet dest c [.ignore dest packet]
  | found {e : ArpEntry μ π} {mac : μ} (he : c.entry dest = some e) (hstate : e.state ≠ .waitReply)
      (hmac : e.macAddress = some mac) :
      SendEffect a c packet dest c [.send dest (some mac) packet]
  | drop : SendEffect a c packet dest c [.drop dest packet]
  | queue {e : ArpEntry μ π} (he : c.entry dest = some e) (hstate : e.state = .waitReply)
      (hroom : e.pending.length < a.pendingQueueSize) :
      SendEffect a c packet dest (c.set dest { e with pending := e.pending ++ [packet] }) []
  | ask (hidle : ∀ e ∈ c.entry dest, e.state = .alive ∨ e.state = .dead) :
      SendEffect a c packet dest (c.asked a dest packet) [.request dest]

theorem ask_eq (he : c.entry dest = some e) (hstate : e.state = .alive ∨ e.state = .dead)
    (hpending : e.pending = []) (hretries : e.retries = 0) :
    c.ask a dest e packet = some (c.asked a dest packet, [.request dest], none) := by
  simp [ask, ArpEntry.markWaitReply, startWaitReplyTimer_eq, asked, hstate, hpending, hretries, he,
    set]

theorem lookup_new (he : c.entry dest = none) :
    c.lookup a packet dest = some (c.asked a dest packet, [.request dest], none) := by
  simp [lookup, he, add, ask, ArpEntry.init, ArpEntry.markWaitReply, startWaitReplyTimer_eq, asked,
    set]

/-- What `Lookup` does, and the packet is sent if it finds an address. -/
theorem lookup_effect (h : Ok a c) (packet : π) (dest : δ) :
    ∃ c' out found, c.lookup a packet dest = some (c', out, found) ∧
      SendEffect a c packet dest c'
        (out ++ (found.elim [] fun mac => [.send dest mac packet])) := by
  cases he : c.entry dest with
  | none => exact ⟨_, _, _, lookup_new he, .ask (by simp [he])⟩
  | some e =>
    have hentry := h.entries dest e he
    have hask (hidle : e.state = .alive ∨ e.state = .dead) :
        c.ask a dest e packet = some (c.asked a dest packet, [.request dest], none) ∧
          SendEffect a c packet dest (c.asked a dest packet) [.request dest] := by
      have hne : e.state ≠ .waitReply := by rcases hidle with h | h <;> simp [h]
      exact ⟨ask_eq he hidle (hentry.pending_iff.2 hne) (hentry.retries_eq hne),
        .ask fun x hx => by rwa [Option.some.inj (hx.symm.trans he)]⟩
    have hfound (hstate : e.state = .alive ∨ e.state = .permanent) :
        SendEffect a c packet dest c [.send dest e.macAddress packet] := by
      obtain ⟨mac, hmac⟩ := Option.isSome_iff_exists.1 (hentry.mac hstate)
      have hne : e.state ≠ .waitReply := by rcases hstate with h | h <;> simp [h]
      exact hmac ▸ .found he hne hmac
    rw [lookup, he]
    dsimp only
    split
    · rename_i hexpired
      rcases h.state_of_expired he hexpired with hstate | hstate
      · obtain ⟨heq, heffect⟩ := hask (.inr hstate)
        rw [hstate]
        exact ⟨_, _, _, heq, heffect⟩
      · obtain ⟨heq, heffect⟩ := hask (.inl hstate)
        rw [hstate]
        exact ⟨_, _, _, heq, heffect⟩
    · cases hstate : e.state with
      | dead => exact ⟨c, _, none, rfl, .drop⟩
      | alive => exact ⟨c, _, _, rfl, hfound (.inl hstate)⟩
      | permanent => exact ⟨c, _, _, rfl, hfound (.inr hstate)⟩
      | waitReply =>
        rcases le_or_gt a.pendingQueueSize e.pending.length with hfull | hroom
        · have hsame : c.set dest e = c := by simp [set, ← he]
          refine ⟨c, [.drop dest packet], none, ?_, .drop⟩
          simp [ArpEntry.updateWaitReply, hstate, hfull, hsame]
        · refine ⟨_, [], none, ?_, .queue he hstate hroom⟩
          simp [ArpEntry.updateWaitReply, hstate, not_le.2 hroom]

theorem send_effect (h : Ok a c) (packet : π) (dest : δ) :
    ∃ c' out, c.send a packet dest = some (c', out) ∧ SendEffect a c packet dest c' out := by
  rw [send]
  cases hup : c.ifup with
  | false => exact ⟨c, _, rfl, .down hup⟩
  | true =>
    rw [if_neg (by decide)]
    obtain ⟨c', out, found, hlookup, heffect⟩ := lookup_effect h packet dest
    rw [hlookup]
    cases found with
    | none => exact ⟨c', out, rfl, by simpa using heffect⟩
    | some mac => exact ⟨c', _, rfl, heffect⟩

/-! ### Replies -/

/-- A packet for an address that has just answered. -/
theorem send_of_alive (hstate : e.state = .alive) (hseen : e.lastSeen = c.now) (dest : δ)
    (packet : π) :
    (c.set dest e).send a packet dest = some (c.set dest e,
      [if c.ifup then .send dest e.macAddress packet else .ignore dest packet]) := by
  cases hup : c.ifup <;>
    simp [send, set, hup, lookup, ArpEntry.isExpired, ArpEntry.getTimeout, hstate, hseen]

theorem set_set (c : ArpCache δ μ π) (dest : δ) (e e' : ArpEntry μ π) :
    (c.set dest e).set dest e' = c.set dest e' := by
  simp [set]

/-- The loop empties the queue in its order. -/
theorem sendPending_eq (dest : δ) (hstate : e.state = .alive) (hseen : e.lastSeen = c.now)
    {rounds : ℕ} (hrounds : e.pending.length < rounds) :
    sendPending a dest rounds (c.set dest e) = some (c.set dest { e with pending := [] },
      e.pending.map fun packet =>
        if c.ifup then .send dest e.macAddress packet else .ignore dest packet) := by
  induction rounds generalizing e with
  | zero => exact absurd hrounds (Nat.not_lt_zero _)
  | succ rounds ih =>
    have hget : (c.set dest e).entry dest = some e := by simp [set]
    obtain ⟨state, lastSeen, macAddress, pending, retries⟩ := e
    rw [sendPending, hget]
    cases pending with
    | nil => rfl
    | cons packet pending =>
      have hsend := send_of_alive (a := a) (c := c)
        (e := ⟨state, lastSeen, macAddress, pending, retries⟩) hstate hseen dest packet
      have hrest := ih (e := ⟨state, lastSeen, macAddress, pending, retries⟩) hstate hseen
        (Nat.lt_of_succ_lt_succ hrounds)
      simp [set_set, hsend, hrest]

/-- The entry of an address that has answered. -/
def answered (c : ArpCache δ μ π) (dest : δ) (mac : μ) : ArpCache δ μ π :=
  c.set dest ⟨.alive, c.now, some mac, [], 0⟩

theorem receiveReply_waiting (he : c.entry dest = some e) (hstate : e.state = .waitReply)
    (mac : μ) :
    c.receiveReply a dest mac = some (c.answered dest mac, e.pending.map fun packet =>
      if c.ifup then .send dest (some mac) packet else .ignore dest packet) := by
  have hrest := sendPending_eq (a := a) (c := c) (e := ⟨.alive, c.now, some mac, e.pending, 0⟩) dest
    rfl rfl (Nat.lt_succ_self _)
  simp [receiveReply, he, hstate, ArpEntry.markAlive, hrest, answered]

theorem receiveReply_other (h : ∀ e ∈ c.entry dest, e.state ≠ .waitReply) (mac : μ) :
    c.receiveReply a dest mac = some (c, []) := by
  rw [receiveReply]
  cases he : c.entry dest with
  | none => rfl
  | some e => exact if_neg (h e he)

/-! ### The timer -/

/-- What becomes of an entry when the timer runs out. -/
def afterTimeout (a : ArpAttributes) (now : ℕ) (e : ArpEntry μ π) : ArpEntry μ π :=
  if e.state = .waitReply then
    if e.retries < a.maxRetries then e.incrementRetries now
    else ⟨.dead, now, e.macAddress, [], 0⟩
  else e

def timeoutOutput (a : ArpAttributes) (dest : δ) (e : ArpEntry μ π) : List (ArpOutput δ μ π) :=
  if e.state = .waitReply then
    if e.retries < a.maxRetries then [.request dest] else e.pending.map (.drop dest)
  else []

def asksAgain (a : ArpAttributes) (e : ArpEntry μ π) : Bool :=
  decide (e.state = .waitReply) && decide (e.retries < a.maxRetries)

omit [DecidableEq δ] in
theorem waitTimeout_eq (c : ArpCache δ μ π) (dest : δ) (e : ArpEntry μ π) :
    c.waitTimeout a dest e =
      some (afterTimeout a c.now e, timeoutOutput a dest e, asksAgain a e) := by
  rw [waitTimeout, afterTimeout, timeoutOutput, asksAgain]
  by_cases hstate : e.state = .waitReply
  · by_cases hretries : e.retries < a.maxRetries <;>
      simp [hstate, hretries, ArpEntry.markDead]
  · simp [hstate]

theorem waitTimeouts_eq {keys : List δ} (hnodup : keys.Nodup)
    (hkeys : ∀ dest ∈ keys, (c.entry dest).isSome = true) :
    waitTimeouts a keys c = some
      ({ c with entry := fun dest =>
          if dest ∈ keys then (c.entry dest).map (afterTimeout a c.now) else c.entry dest },
        keys.flatMap fun dest => (c.entry dest).elim [] (timeoutOutput a dest),
        keys.any fun dest => (c.entry dest).elim false (asksAgain a)) := by
  induction keys generalizing c with
  | nil => simp [waitTimeouts]
  | cons dest rest ih =>
    obtain ⟨hnot, hrest⟩ := List.nodup_cons.1 hnodup
    obtain ⟨e, he⟩ := Option.isSome_iff_exists.1 (hkeys dest List.mem_cons_self)
    have hne {d : δ} (hd : d ∈ rest) : d ≠ dest := fun h => hnot (h ▸ hd)
    have hsame {d : δ} (hd : d ∈ rest) :
        (c.set dest (afterTimeout a c.now e)).entry d = c.entry d :=
      Function.update_of_ne (hne hd) _ _
    have hloop := ih (c := c.set dest (afterTimeout a c.now e)) hrest fun d hd => by
      rw [hsame hd]
      exact hkeys d (List.mem_cons_of_mem _ hd)
    rw [waitTimeouts, he]
    simp only [Option.bind_eq_bind, Option.bind_some, waitTimeout_eq, hloop]
    have hentry : (fun d => if d ∈ rest then
        ((c.set dest (afterTimeout a c.now e)).entry d).map (afterTimeout a c.now)
          else (c.set dest (afterTimeout a c.now e)).entry d) =
        fun d => if d ∈ dest :: rest then (c.entry d).map (afterTimeout a c.now)
          else c.entry d := by
      funext d
      by_cases hd : d = dest
      · subst hd
        simp [hnot, set, he]
      · simp [hd, set]
    have hout : (rest.flatMap fun d =>
        ((c.set dest (afterTimeout a c.now e)).entry d).elim [] (timeoutOutput a d)) =
        rest.flatMap fun d => (c.entry d).elim [] (timeoutOutput a d) :=
      List.flatMap_congr fun d hd => by rw [hsame hd]
    have hagain : (rest.any fun d =>
        ((c.set dest (afterTimeout a c.now e)).entry d).elim false (asksAgain a)) =
        rest.any fun d => (c.entry d).elim false (asksAgain a) := by
      have hmap := List.map_congr_left fun d (hd : d ∈ rest) =>
        congrArg (·.elim false (asksAgain a)) (hsame hd)
      simpa only [List.any_map, Function.id_comp] using congrArg (·.any id) hmap
    have hnow : (c.set dest (afterTimeout a c.now e)).now = c.now := rfl
    simp only [hentry, hout, hagain, hnow]
    simp [he, set]

end ArpCache

end SeanetSim
