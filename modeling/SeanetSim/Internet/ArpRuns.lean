import SeanetSim.Internet.ArpCache
import SeanetSim.Lib.Run

/-!
# Runs of an ARP cache

Packets, replies and timeouts come in any order that respects the clock.  Every event keeps the
invariant of the cache (`ArpCache.Effect.ok`), so that in a run no event meets a failed assertion
(`ArpCache.exists_next_of_allowed`).
-/

namespace SeanetSim

theorem ArpEntry.Ok.mono {μ π : Type} {a : ArpAttributes} {now now' : ℕ} {timer timer' : Option ℕ}
    {e : ArpEntry μ π} (h : e.Ok a now timer) (hnow : now ≤ now')
    (htimer : ∀ expiry ∈ timer, expiry ∈ timer') : e.Ok a now' timer' :=
  { h with
    lastSeen_le := h.lastSeen_le.trans hnow
    expiry := fun hstate =>
      have ⟨expiry, hmem, hle⟩ := h.expiry hstate
      ⟨expiry, htimer expiry hmem, hle⟩ }

namespace ArpCache

variable {δ μ π : Type} [DecidableEq δ] {a : ArpAttributes} {c c' : ArpCache δ μ π}
  {packet : π} {dest : δ} {out : List (ArpOutput δ μ π)} {e : ArpEntry μ π}

/-- The state after the timer has run out. -/
def timedOut (a : ArpAttributes) (c : ArpCache δ μ π) : ArpCache δ μ π :=
  { c with
    entry := fun dest => (c.entry dest).map (afterTimeout a c.now)
    waitReplyTimer :=
      if c.keys.any fun dest => (c.entry dest).elim false (asksAgain a) then
        some (c.now + a.waitReplyTimeout)
      else none }

/-- The state with an entry for an address, which may be new. -/
def put (c : ArpCache δ μ π) (dest : δ) (e : ArpEntry μ π) (timer : Option ℕ) : ArpCache δ μ π where
  now := c.now
  keys := if (c.entry dest).isSome then c.keys else c.keys ++ [dest]
  entry := Function.update c.entry dest (some e)
  waitReplyTimer := timer
  ifup := c.ifup

theorem set_eq_put (he : (c.entry dest).isSome = true) (e : ArpEntry μ π) :
    c.set dest e = c.put dest e c.waitReplyTimer := by
  simp [set, put, he]

@[simp] theorem entry_put_self (c : ArpCache δ μ π) (dest : δ) (e : ArpEntry μ π)
    (timer : Option ℕ) : (c.put dest e timer).entry dest = some e := by
  simp [put]

theorem entry_put_of_ne {d : δ} (hne : d ≠ dest) (c : ArpCache δ μ π) (e : ArpEntry μ π)
    (timer : Option ℕ) : (c.put dest e timer).entry d = c.entry d :=
  Function.update_of_ne hne _ _

/-- All that an event can bring about. -/
inductive Effect [DecidableEq μ] (a : ArpAttributes) (c : ArpCache δ μ π) :
    ArpEvent δ μ π → ArpCache δ μ π → List (ArpOutput δ μ π) → Prop
  | tick {time : ℕ} (hle : c.now ≤ time) (hmax : time ≤ timeMax)
      (htimer : ∀ expiry ∈ c.waitReplyTimer, time ≤ expiry) :
      Effect a c (.tick time) { c with now := time } []
  | send {packet : π} {dest : δ} {c' : ArpCache δ μ π} {out : List (ArpOutput δ μ π)}
      (h : SendEffect a c packet dest c' out) : Effect a c (.send dest packet) c' out
  | unasked {source : δ} {mac : μ} : Effect a c (.reply source mac) c []
  | answered {source : δ} {mac : μ} {e : ArpEntry μ π} (he : c.entry source = some e)
      (hstate : e.state = .waitReply) :
      Effect a c (.reply source mac) (c.answered source mac) (e.pending.map fun packet =>
        if c.ifup then .send source (some mac) packet else .ignore source packet)
  | timeout (htimer : c.waitReplyTimer = some c.now) :
      Effect a c .timeout (c.timedOut a)
        (c.keys.flatMap fun dest => (c.entry dest).elim [] (timeoutOutput a dest))
  | seen {source : δ} {sender : μ} : Effect a c (.seen source sender) (c.seen source sender) []
  | flush : Effect a c .flush c.flush.1 c.flush.2
  | permanent {dest : δ} {mac : μ} (he : c.entry dest = none) :
      Effect a c (.permanent dest mac)
        (c.put dest ⟨.permanent, c.now, some mac, [], 0⟩ c.waitReplyTimer) []
  | setUp {up : Bool} : Effect a c (.setUp up) { c with ifup := up } []

theorem handleWaitReplyTimeout_eq (h : Ok a c) :
    c.handleWaitReplyTimeout a = some (c.timedOut a,
      c.keys.flatMap fun dest => (c.entry dest).elim [] (timeoutOutput a dest)) := by
  have hloop := waitTimeouts_eq (a := a) (c := { c with waitReplyTimer := none }) h.nodup
    fun dest => (h.mem_keys dest).1
  have hentry : (fun dest => if dest ∈ c.keys then (c.entry dest).map (afterTimeout a c.now)
      else c.entry dest) = fun dest => (c.entry dest).map (afterTimeout a c.now) := by
    funext dest
    split
    · rfl
    · rename_i hnot
      rw [h.mem_keys, Option.not_isSome_iff_eq_none] at hnot
      rw [hnot]
      rfl
  dsimp only at hloop
  rw [hentry] at hloop
  rw [handleWaitReplyTimeout, hloop, timedOut]
  simp only [Option.bind_eq_bind, Option.bind_some]
  split <;> rfl

/-- Every event that is allowed takes place: no assertion fails. -/
theorem next_effect [DecidableEq μ] (h : Ok a c) {event : ArpEvent δ μ π}
    (hallowed : c.Allowed event) :
    ∃ c' out, c.next? a event = some (c', out) ∧ Effect a c event c' out := by
  cases event with
  | tick time => exact ⟨_, _, rfl, .tick hallowed.1 hallowed.2.1 hallowed.2.2⟩
  | send dest packet =>
    obtain ⟨c', out, heq, heffect⟩ := send_effect h packet dest
    exact ⟨c', out, heq, .send heffect⟩
  | reply source mac =>
    by_cases hwait : ∃ e ∈ c.entry source, e.state = .waitReply
    · obtain ⟨e, he, hstate⟩ := hwait
      exact ⟨_, _, receiveReply_waiting he hstate mac, .answered he hstate⟩
    · exact ⟨c, [], receiveReply_other (fun e he hstate => hwait ⟨e, he, hstate⟩) mac, .unasked⟩
  | timeout => exact ⟨_, _, handleWaitReplyTimeout_eq h, .timeout hallowed⟩
  | seen source sender => exact ⟨_, _, rfl, .seen⟩
  | flush => exact ⟨_, _, rfl, .flush⟩
  | permanent dest mac =>
    have he : c.entry dest = none := hallowed
    refine ⟨_, _, ?_, .permanent he⟩
    simp [next?, addPermanent, add, he, ArpEntry.init, ArpEntry.markPermanent, put, set]
  | setUp up => exact ⟨_, _, rfl, .setUp⟩

/-! ### The invariant -/

theorem Ok.put (h : Ok a c) {timer : Option ℕ} (hsub : ∀ expiry ∈ c.waitReplyTimer, expiry ∈ timer)
    (htimer : ∀ expiry ∈ timer, c.now ≤ expiry ∧ expiry ≤ c.now + a.waitReplyTimeout)
    (hentry : e.Ok a c.now timer) : Ok a (c.put dest e timer) where
  nodup := by
    have hmem := h.mem_keys dest
    rw [ArpCache.put]
    split
    · exact h.nodup
    · rename_i hnone
      exact (List.perm_append_singleton dest c.keys).nodup_iff.2
        (List.nodup_cons.2 ⟨fun hkey => hnone (hmem.1 hkey), h.nodup⟩)
  mem_keys d := by
    have hmem := h.mem_keys d
    rw [ArpCache.put]
    dsimp only
    rcases eq_or_ne d dest with rfl | hne
    · split <;> simp_all
    · split <;> simp [hne, hmem]
  now_le := h.now_le
  timer := htimer
  entries d x hx := by
    rcases eq_or_ne d dest with rfl | hne
    · obtain rfl : e = x := by simpa [ArpCache.put] using hx
      exact hentry
    · have hx' : x ∈ c.entry d := by simpa [ArpCache.put, hne] using hx
      exact (h.entries d x hx').mono le_rfl hsub

omit [DecidableEq δ] in
theorem Ok.map (h : Ok a c) {timer : Option ℕ} {now : ℕ} {ifup : Bool}
    {f : δ → ArpEntry μ π → ArpEntry μ π} (hnow : now ≤ timeMax)
    (htimer : ∀ expiry ∈ timer, now ≤ expiry ∧ expiry ≤ now + a.waitReplyTimeout)
    (hentry : ∀ dest, ∀ e ∈ c.entry dest, (f dest e).Ok a now timer) :
    Ok a ⟨now, c.keys, fun dest => (c.entry dest).map (f dest), timer, ifup⟩ where
  nodup := h.nodup
  mem_keys dest := by
    rw [Option.isSome_map]
    exact h.mem_keys dest
  now_le := hnow
  timer := htimer
  entries dest x hx := by
    obtain ⟨e, he, rfl⟩ := Option.map_eq_some_iff.1 hx
    exact hentry dest e he

/-- What becomes of an entry when a packet has come from an address. -/
def seenEntry [DecidableEq μ] (c : ArpCache δ μ π) (source : δ) (sender : μ) (dest : δ)
    (e : ArpEntry μ π) : ArpEntry μ π :=
  if (c.entry source).isSome then
    if dest = source then e.updateSeen c.now else e
  else if e.macAddress = some sender then e.updateSeen c.now
  else e

theorem seenEntry_eq_or [DecidableEq μ] (c : ArpCache δ μ π) (source : δ) (sender : μ) (dest : δ)
    (e : ArpEntry μ π) :
    c.seenEntry source sender dest e = e.updateSeen c.now ∨
      c.seenEntry source sender dest e = e := by
  rw [seenEntry]
  split_ifs <;> simp

theorem seen_eq [DecidableEq μ] (c : ArpCache δ μ π) (source : δ) (sender : μ) :
    c.seen source sender =
      { c with entry := fun dest => (c.entry dest).map (c.seenEntry source sender dest) } := by
  rw [seen]
  split
  · rename_i hsome
    congr 1
    funext dest
    rcases eq_or_ne dest source with rfl | hne
    · rw [Function.update_self]
      congr 1
      funext e
      rw [seenEntry, if_pos hsome, if_pos rfl]
    · rw [Function.update_of_ne hne]
      have hid : c.seenEntry source sender dest = id := by
        funext e
        rw [seenEntry, if_pos hsome, if_neg hne, id]
      rw [hid, Option.map_id_apply]
  · rename_i hnone
    congr 1
    funext dest
    congr 1
    funext e
    rw [seenEntry, if_neg hnone]

omit [DecidableEq δ] in
theorem ok_updateSeen {now : ℕ} {timer : Option ℕ} (h : e.Ok a now timer) :
    (e.updateSeen now).Ok a now timer := by
  rw [ArpEntry.updateSeen]
  split
  · rename_i hstate
    exact { h with
      lastSeen_le := le_rfl
      expiry := fun hwait => absurd (hstate.symm.trans hwait) (by decide) }
  · exact h

omit [DecidableEq δ] in
/-- The entry of an address that is asked for. -/
theorem ok_asked {mac : Option μ} {now expiry : ℕ}
    (hle : expiry ≤ now + a.waitReplyTimeout) :
    ArpEntry.Ok a now (some expiry) (⟨.waitReply, now, mac, [packet], 0⟩ : ArpEntry μ π) where
  pending_iff := by simp
  length_le := by simp
  retries_le := Nat.zero_le _
  retries_eq h := absurd rfl h
  lastSeen_le := le_rfl
  expiry _ := ⟨expiry, rfl, hle⟩
  mac := by simp

omit [DecidableEq δ] in
/-- An entry that has just been made or answered. -/
theorem ok_fresh {now : ℕ} {timer : Option ℕ} {state : ArpState} {mac : Option μ}
    (hstate : state ≠ .waitReply) (hmac : state = .alive ∨ state = .permanent → mac.isSome = true) :
    ArpEntry.Ok a now timer (⟨state, now, mac, [], 0⟩ : ArpEntry μ π) where
  pending_iff := by simpa using hstate
  length_le := Nat.zero_le _
  retries_le := Nat.zero_le _
  retries_eq _ := rfl
  lastSeen_le := le_rfl
  expiry h := absurd h hstate
  mac := hmac

omit [DecidableEq δ] in
/-- An entry when the timer runs out and asks again for those that ask. -/
theorem ok_afterTimeout {now : ℕ} {timer timer' : Option ℕ} (h : e.Ok a now timer)
    (hagain : asksAgain a e = true → timer' = some (now + a.waitReplyTimeout)) :
    (afterTimeout a now e).Ok a now timer' := by
  rw [afterTimeout]
  split
  · rename_i hstate
    split
    · rename_i hretries
      have htimer := hagain (by simp [asksAgain, hstate, hretries])
      exact { h with
        retries_le := hretries
        retries_eq := fun hne => absurd hstate hne
        lastSeen_le := le_rfl
        expiry := fun _ => ⟨_, htimer, le_rfl⟩ }
    · exact ok_fresh (by simp) (by simp)
  · rename_i hstate
    exact { h with expiry := fun hwait => absurd hwait hstate }

theorem SendEffect.ok (h : Ok a c) (heffect : SendEffect a c packet dest c' out) : Ok a c' := by
  have hnow := h.now_le
  cases heffect with
  | down | found | drop => exact h
  | queue he hstate hroom =>
    have hentry := h.entries dest _ he
    rw [set_eq_put (by rw [he]; rfl)]
    exact h.put (fun _ h => h) h.timer { hentry with
      pending_iff := by simp [hstate]
      length_le := by
        rw [List.length_append, List.length_singleton]
        omega }
  | ask =>
    have hnew : ∀ expiry ∈ some (c.waitReplyTimer.getD (c.now + a.waitReplyTimeout)),
        c.now ≤ expiry ∧ expiry ≤ c.now + a.waitReplyTimeout := by
      intro expiry hmem
      obtain rfl := Option.some.inj hmem
      cases htimer : c.waitReplyTimer with
      | none => exact ⟨Nat.le_add_right _ _, le_rfl⟩
      | some old => exact h.timer old htimer
    refine h.put (fun expiry hmem => ?_) hnew (ok_asked (hnew _ rfl).2)
    rw [Option.mem_def] at hmem
    rw [hmem]
    rfl

theorem Effect.ok [DecidableEq μ] (h : Ok a c) {event : ArpEvent δ μ π}
    (heffect : Effect a c event c' out) : Ok a c' := by
  cases heffect with
  | tick hle hmax htimer =>
    exact {
      nodup := h.nodup
      mem_keys := h.mem_keys
      now_le := hmax
      timer := fun expiry hmem => ⟨htimer expiry hmem, (h.timer expiry hmem).2.trans (by grind)⟩
      entries := fun dest e he => (h.entries dest e he).mono hle fun _ h => h }
  | send hsend => exact hsend.ok h
  | unasked => exact h
  | answered he hstate =>
    rw [ArpCache.answered, set_eq_put (by rw [he]; rfl)]
    exact h.put (fun _ h => h) h.timer (ok_fresh (by decide) (by simp))
  | timeout htimer =>
    refine h.map h.now_le ?_ fun dest e he => ok_afterTimeout (h.entries dest e he) fun hagain => ?_
    · intro expiry hmem
      split at hmem
      · obtain rfl := Option.some.inj hmem
        exact ⟨Nat.le_add_right _ _, le_rfl⟩
      · exact absurd hmem (by simp)
    · refine if_pos (List.any_eq_true.2 ⟨dest, (h.mem_keys dest).2 ?_, ?_⟩) <;>
        simp [Option.mem_def.1 he, hagain]
  | seen =>
    rename_i source sender
    rw [seen_eq]
    refine h.map h.now_le h.timer fun dest e he => ?_
    rcases c.seenEntry_eq_or source sender dest e with heq | heq <;> rw [heq]
    · exact ok_updateSeen (h.entries dest e he)
    · exact h.entries dest e he
  | flush =>
    exact {
      nodup := List.nodup_nil
      mem_keys := by simp [ArpCache.flush]
      now_le := h.now_le
      timer := by simp [ArpCache.flush]
      entries := by simp [ArpCache.flush] }
  | permanent he => exact h.put (fun _ h => h) h.timer (ok_fresh (by decide) (by simp))
  | setUp => exact { h with }

/-- A step of a run, with what is done in it. -/
def step [DecidableEq μ] (a : ArpAttributes) (c : ArpCache δ μ π)
    (p : ArpEvent δ μ π × List (ArpOutput δ μ π)) (c' : ArpCache δ μ π) : Prop :=
  c.Allowed p.1 ∧ c.next? a p.1 = some (c', p.2)

theorem Ok.effect [DecidableEq μ] (h : Ok a c) {p : ArpEvent δ μ π × List (ArpOutput δ μ π)}
    (hstep : c.step a p c') : Effect a c p.1 c' p.2 := by
  obtain ⟨c'', out, hnext, heffect⟩ := next_effect h hstep.1
  obtain ⟨rfl, rfl⟩ := Prod.mk.inj (Option.some.inj (hnext.symm.trans hstep.2))
  exact heffect

abbrev Trace (δ μ π : Type) : Type :=
  List (ArpCache δ μ π × ArpEvent δ μ π × List (ArpOutput δ μ π))

theorem ok_of_run [DecidableEq μ] {trace : Trace δ μ π} (h : Run (step a) init trace c) : Ok a c :=
  h.invariant ok_init fun _ _ _ hok hstep => (hok.effect hstep).ok hok

theorem run_next [DecidableEq μ] {s : ArpCache δ μ π} {trace : Trace δ μ π}
    (h : Run (step a) s trace c) (event : ArpEvent δ μ π) (hallowed : c.Allowed event)
    (hnext : c.next? a event = some (c', out)) :
    Run (step a) s (trace ++ [(c, event, out)]) c' :=
  h.snoc ⟨hallowed, hnext⟩

/-- Whatever happens in a run, no assertion of the code fails, no fatal error is met and no loop
goes on: every event that can come next is handled. -/
theorem exists_next_of_allowed [DecidableEq μ] {trace : Trace δ μ π} (h : Run (step a) init trace c)
    {event : ArpEvent δ μ π} (hallowed : c.Allowed event) :
    ∃ c' out, c.next? a event = some (c', out) := by
  obtain ⟨c', out, hnext, -⟩ := next_effect (ok_of_run h) hallowed
  exact ⟨c', out, hnext⟩

/-- A packet that is given up without a second request. -/
theorem exists_next_timeout :
    ∃ (trace : Trace ℕ ℕ ℕ) (c c' : ArpCache ℕ ℕ ℕ) (out : List (ArpOutput ℕ ℕ ℕ)),
      Run (step ⟨120, 100, 1, 0, 3⟩) init trace c ∧
        c.next? ⟨120, 100, 1, 0, 3⟩ .timeout = some (c', out) := by
  have hrun : ∃ (trace : Trace ℕ ℕ ℕ) (c : ArpCache ℕ ℕ ℕ),
      Run (step ⟨120, 100, 1, 0, 3⟩) init trace c ∧ c.Allowed .timeout := by
    refine ⟨_, _, run_next (run_next .nil (.send 1 7) trivial rfl) (.tick 1)
      ⟨by decide, by decide, fun _ h => (Option.some.inj h).le⟩ rfl, ?_⟩
    rfl
  obtain ⟨trace, c, hrun, hallowed⟩ := hrun
  obtain ⟨c', out, hnext⟩ := exists_next_of_allowed hrun hallowed
  exact ⟨trace, c, c', out, hrun, hnext⟩

end ArpCache

end SeanetSim
