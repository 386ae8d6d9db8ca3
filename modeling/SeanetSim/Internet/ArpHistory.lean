import SeanetSim.Internet.ArpRuns

/-!
# What an ARP cache does with the packets

The packets for an address over a whole run: each is sent, dropped, lost or still held, once
(`ArpCache.packets_conserved`), those that are sent go in the order in which they came, to a link
address that was told for them since the last flush (`ArpCache.told_of_sent`), and none is held for
longer than the retries of the cache take (`ArpCache.waits_le`).
-/

namespace SeanetSim

/-- A list made of parts for the elements of another one, all but one of them empty. -/
theorem flatMap_eq_of_nodup {α β : Type*} {l : List α} (h : l.Nodup) {f : α → List β} {x : α}
    (hf : ∀ y, y ≠ x → f y = []) (hx : x ∉ l → f x = []) : l.flatMap f = f x := by
  induction l with
  | nil => exact (hx List.not_mem_nil).symm
  | cons y l ih =>
    obtain ⟨hnot, hl⟩ := List.nodup_cons.1 h
    rw [List.flatMap_cons]
    rcases eq_or_ne y x with rfl | hne
    · have hnil : l.flatMap f = [] :=
        List.flatMap_eq_nil_iff.2 fun z hz => hf z fun heq => hnot (heq ▸ hz)
      rw [hnil, List.append_nil]
    · rw [hf y hne, List.nil_append]
      exact ih hl fun hmem => hx (by simp [hne.symm, hmem])

section Packets

variable {δ μ π : Type} [DecidableEq δ] (dest : δ)

/-- The packet that an event brings for an address. -/
def ArpEvent.offers : ArpEvent δ μ π → Option π
  | .send d packet => if d = dest then some packet else none
  | _ => none

/-- The packet for an address that is done with. -/
def ArpOutput.packetTo : ArpOutput δ μ π → Option π
  | .send d _ packet | .drop d packet | .ignore d packet => if d = dest then some packet else none
  | .request _ => none

def ArpOutput.sentTo : ArpOutput δ μ π → Option π
  | .send d _ packet => if d = dest then some packet else none
  | _ => none

namespace ArpCache

/-- The packets that an entry holds. -/
def held (c : ArpCache δ μ π) : List π := (c.entry dest).elim [] (·.pending)

def offered (trace : Trace δ μ π) : List π := trace.filterMap fun p => p.2.1.offers dest

def handled (trace : Trace δ μ π) : List π :=
  trace.flatMap fun p => p.2.2.filterMap (ArpOutput.packetTo dest)

def sent (trace : Trace δ μ π) : List π :=
  trace.flatMap fun p => p.2.2.filterMap (ArpOutput.sentTo dest)

end ArpCache

end Packets

namespace ArpCache

variable {δ μ π : Type} [DecidableEq δ] {a : ArpAttributes} {c c' : ArpCache δ μ π}
  {packet : π} {dest : δ} {out : List (ArpOutput δ μ π)} {e : ArpEntry μ π}
  {f : ArpEntry μ π → ArpEntry μ π}

/-- What a step does with the packets for an address: those before it and the one that comes are
done with or held after it, and none overtakes another. -/
structure Passes (dest : δ) (before : List π) (out : List (ArpOutput δ μ π)) (after : List π) :
    Prop where
  perm : (out.filterMap (ArpOutput.packetTo dest) ++ after).Perm before
  sublist : (out.filterMap (ArpOutput.sentTo dest) ++ after).Sublist before

theorem Passes.rfl {l : List π} : Passes (μ := μ) dest l [] l := ⟨.rfl, .refl l⟩

theorem Passes.of_eq {l : List π} (hpacket : out.filterMap (ArpOutput.packetTo dest) = [])
    (hsent : out.filterMap (ArpOutput.sentTo dest) = []) : Passes dest l out l := by
  constructor
  · rw [hpacket, List.nil_append]
  · rw [hsent, List.nil_append]

theorem held_put (c : ArpCache δ μ π) (dest d : δ) (e : ArpEntry μ π) (timer : Option ℕ) :
    (c.put dest e timer).held d = if d = dest then e.pending else c.held d := by
  rcases eq_or_ne d dest with rfl | hne
  · simp [held, put]
  · simp [held, put, hne]

omit [DecidableEq δ] in
theorem held_eq_nil (h : Ok a c) (hidle : ∀ e ∈ c.entry dest, e.state ≠ .waitReply) :
    c.held dest = [] := by
  rw [held]
  cases he : c.entry dest with
  | none => rfl
  | some e => exact (h.entries dest e he).pending_iff.2 (hidle e he)

theorem held_asked (c : ArpCache δ μ π) (dest d : δ) (packet : π) :
    (c.asked a dest packet).held d = if d = dest then [packet] else c.held d :=
  held_put c dest d _ _

theorem held_set (he : c.entry dest = some e) (e' : ArpEntry μ π) (d : δ) :
    (c.set dest e').held d = if d = dest then e'.pending else c.held d := by
  rw [set_eq_put (by rw [he]; rfl), held_put]

theorem SendEffect.passes_self (h : Ok a c) (heffect : SendEffect a c packet dest c' out) :
    Passes dest (c.held dest ++ [packet]) out (c'.held dest) := by
  cases heffect with
  | down | drop =>
    constructor
    · simpa [ArpOutput.packetTo] using (List.perm_append_singleton packet _).symm
    · simp [ArpOutput.sentTo]
  | found he hstate =>
    have hnil : c.held dest = [] := held_eq_nil h fun x hx => by
      rwa [Option.some.inj (hx.symm.trans he)]
    constructor <;> simp [ArpOutput.packetTo, ArpOutput.sentTo, hnil]
  | queue he =>
    rw [held_set he, if_pos rfl, held, he]
    exact .rfl
  | ask hidle =>
    have hnil : c.held dest = [] := held_eq_nil h fun e he => by
      rcases hidle e he with h | h <;> simp [h]
    rw [held_asked, if_pos rfl, hnil]
    exact .of_eq rfl rfl

theorem SendEffect.passes_of_ne {d : δ} (hne : dest ≠ d)
    (heffect : SendEffect a c packet dest c' out) : Passes d (c.held d) out (c'.held d) := by
  cases heffect with
  | down | found | drop =>
    exact .of_eq (by simp [ArpOutput.packetTo, hne]) (by simp [ArpOutput.sentTo, hne])
  | queue he =>
    rw [held_set he, if_neg hne.symm]
    exact .rfl
  | ask =>
    rw [held_asked, if_neg hne.symm]
    exact .of_eq rfl rfl

/-- The packets of an entry that are all sent, or all lost. -/
theorem passes_answered (mac : Option μ) (ifup : Bool) (l : List π) :
    Passes dest l (l.map fun packet =>
      if ifup then .send dest mac packet else .ignore dest packet) [] := by
  cases ifup <;> constructor <;>
    simp [List.filterMap_map, Function.comp_def, ArpOutput.packetTo, ArpOutput.sentTo]

theorem passes_drop (l : List π) : Passes (μ := μ) dest l (l.map (.drop dest)) [] := by
  constructor <;> simp [List.filterMap_map, Function.comp_def, ArpOutput.packetTo, ArpOutput.sentTo]

omit [DecidableEq δ] in
/-- Where each entry of the cache does something of its own, only that of an address counts for
it. -/
theorem filterMap_entries (h : Ok a c) {f : δ → ArpEntry μ π → List (ArpOutput δ μ π)}
    {g : ArpOutput δ μ π → Option π} (hg : ∀ d, d ≠ dest → ∀ e, (f d e).filterMap g = []) :
    (c.keys.flatMap fun d => (c.entry d).elim [] (f d)).filterMap g =
      (c.entry dest).elim [] fun e => (f dest e).filterMap g := by
  have hcongr (d : δ) : ((c.entry d).elim [] (f d)).filterMap g =
      (c.entry d).elim [] fun e => (f d e).filterMap g := by
    cases c.entry d <;> rfl
  rw [List.filterMap_flatMap]
  simp only [hcongr]
  refine flatMap_eq_of_nodup h.nodup (fun d hne => ?_) fun hnot => ?_
  · cases c.entry d with
    | none => rfl
    | some e => exact hg d hne e
  · rw [h.mem_keys, Option.not_isSome_iff_eq_none] at hnot
    rw [hnot]
    rfl

theorem passes_entries (h : Ok a c) {f : δ → ArpEntry μ π → List (ArpOutput δ μ π)}
    {after : List π}
    (hpacket : ∀ d, d ≠ dest → ∀ e, (f d e).filterMap (ArpOutput.packetTo dest) = [])
    (hsent : ∀ d, d ≠ dest → ∀ e, (f d e).filterMap (ArpOutput.sentTo dest) = [])
    (hafter : c.entry dest = none → after = [])
    (hentry : ∀ e ∈ c.entry dest, Passes dest e.pending (f dest e) after) :
    Passes dest (c.held dest) (c.keys.flatMap fun d => (c.entry d).elim [] (f d)) after := by
  cases he : c.entry dest with
  | none =>
    rw [hafter he]
    constructor
    · rw [filterMap_entries h hpacket, held, he]
      exact .rfl
    · rw [filterMap_entries h hsent, held, he]
      exact .refl _
  | some e =>
    obtain ⟨hperm, hsublist⟩ := hentry e he
    constructor
    · rwa [filterMap_entries h hpacket, held, he]
    · rwa [filterMap_entries h hsent, held, he]

theorem filterMap_timeoutOutput {d : δ} (hne : d ≠ dest) (e : ArpEntry μ π) :
    (timeoutOutput a d e).filterMap (ArpOutput.packetTo dest) = [] ∧
      (timeoutOutput a d e).filterMap (ArpOutput.sentTo dest) = [] := by
  rw [timeoutOutput]
  split_ifs <;>
    simp [List.filterMap_map, Function.comp_def, ArpOutput.packetTo, ArpOutput.sentTo, hne]

theorem passes_timeout (e : ArpEntry μ π) :
    Passes dest e.pending (timeoutOutput a dest e) (afterTimeout a c.now e).pending := by
  rw [timeoutOutput, afterTimeout]
  split_ifs
  · exact .of_eq rfl rfl
  · exact passes_drop e.pending
  · exact .rfl

omit [DecidableEq δ] in
theorem held_map (hsame : c'.entry dest = (c.entry dest).map f)
    (hf : ∀ e, (f e).pending = e.pending) : c'.held dest = c.held dest := by
  rw [held, held, hsame]
  cases c.entry dest with
  | none => rfl
  | some e => exact hf e

theorem pending_seenEntry [DecidableEq μ] (c : ArpCache δ μ π) (source dest : δ) (sender : μ)
    (e : ArpEntry μ π) : (c.seenEntry source sender dest e).pending = e.pending := by
  rcases c.seenEntry_eq_or source sender dest e with heq | heq
  · rw [heq, ArpEntry.updateSeen]
    split <;> rfl
  · rw [heq]

theorem Passes.quiet {event : ArpEvent δ μ π} {before after : List π}
    (hoffers : event.offers dest = none) (h : Passes dest before out after) :
    Passes dest (before ++ (event.offers dest).toList) out after := by
  rwa [hoffers, Option.toList_none, List.append_nil]

theorem Effect.passes [DecidableEq μ] (h : Ok a c) {event : ArpEvent δ μ π}
    (heffect : Effect a c event c' out) (d : δ) :
    Passes d (c.held d ++ (event.offers d).toList) out (c'.held d) := by
  cases heffect with
  | send hsend =>
    rename_i packet dest
    rcases eq_or_ne dest d with rfl | hne
    · simpa [ArpEvent.offers] using hsend.passes_self h
    · simpa [ArpEvent.offers, hne] using hsend.passes_of_ne hne
  | tick | unasked | setUp => exact .quiet rfl .rfl
  | answered he hstate =>
    rename_i source mac e
    refine .quiet rfl ?_
    rw [ArpCache.answered, held_set he]
    rcases eq_or_ne d source with rfl | hne
    · rw [if_pos rfl, held, he]
      exact passes_answered (some mac) c.ifup e.pending
    · rw [if_neg hne]
      refine .of_eq ?_ ?_ <;> cases c.ifup <;>
        simp [List.filterMap_map, Function.comp_def, ArpOutput.packetTo, ArpOutput.sentTo, hne.symm]
  | timeout =>
    refine .quiet rfl (passes_entries h (fun d' hne e => (filterMap_timeoutOutput hne e).1)
      (fun d' hne e => (filterMap_timeoutOutput hne e).2) ?_ fun e he => ?_)
    · intro he
      simp [held, timedOut, he]
    · simpa [held, timedOut, Option.mem_def.1 he] using passes_timeout e
  | seen =>
    rename_i source sender
    have hsame : (c.seen source sender).held d = c.held d :=
      held_map (congrFun (congrArg entry (c.seen_eq source sender)) d)
        (c.pending_seenEntry source d sender)
    exact .quiet rfl (hsame ▸ .rfl)
  | flush =>
    refine .quiet rfl (passes_entries h (fun d' hne e => ?_) (fun d' _ e => ?_) (fun _ => rfl)
      fun e _ => passes_answered none false e.pending)
    · simp [List.filterMap_map, Function.comp_def, ArpOutput.packetTo, hne]
    · simp [List.filterMap_map, Function.comp_def, ArpOutput.sentTo]
  | permanent he =>
    rename_i dest mac
    refine .quiet rfl ?_
    rw [held_put]
    rcases eq_or_ne d dest with rfl | hne
    · simpa [held, he] using .rfl
    · rw [if_neg hne]
      exact .rfl

/-- In every run, each packet that has come for an address has been sent, dropped or lost, or is
held, and this once; and those that have been sent or are held are in the order in which they
came. -/
theorem packets_conserved [DecidableEq μ] {trace : Trace δ μ π} (h : Run (step a) init trace c)
    (dest : δ) :
    (handled dest trace ++ c.held dest).Perm (offered dest trace) ∧
      (sent dest trace ++ c.held dest).Sublist (offered dest trace) := by
  induction h with
  | nil => exact ⟨.rfl, .refl _⟩
  | snoc hrun hst ih =>
    rename_i trace s t p
    have hok := ok_of_run hrun
    obtain ⟨hperm, hsublist⟩ := (hok.effect hst).passes hok dest
    have hoffered : offered dest (trace ++ [(s, p)]) =
        offered dest trace ++ (p.1.offers dest).toList := by
      rw [offered, List.filterMap_append, offered]
      cases hp : p.1.offers dest <;> simp [hp]
    rw [hoffered, handled, sent, List.flatMap_append, List.flatMap_append, List.flatMap_singleton,
      List.flatMap_singleton, List.append_assoc, List.append_assoc]
    constructor
    · refine (hperm.append_left _).trans ?_
      rw [← List.append_assoc]
      exact ih.1.append_right _
    · refine (hsublist.append_left _).trans ?_
      rw [← List.append_assoc]
      exact ih.2.append_right _

/-- Two packets that wait for a reply, and one that comes after it. -/
theorem packets_conserved_three :
    ∃ (trace : Trace ℕ ℕ ℕ) (c : ArpCache ℕ ℕ ℕ),
      Run (step ⟨120, 100, 1, 3, 3⟩) init trace c ∧ sent 1 trace = [7, 8, 9] ∧
        (handled 1 trace ++ c.held 1).Perm (offered 1 trace) ∧
          (sent 1 trace ++ c.held 1).Sublist (offered 1 trace) := by
  have hrun : ∃ (trace : Trace ℕ ℕ ℕ) (c : ArpCache ℕ ℕ ℕ),
      Run (step ⟨120, 100, 1, 3, 3⟩) init trace c ∧ sent 1 trace = [7, 8, 9] :=
    ⟨_, _, run_next (run_next (run_next (run_next .nil (.send 1 7) trivial rfl) (.send 1 8) trivial
      rfl) (.reply 1 99) trivial rfl) (.send 1 9) trivial rfl, rfl⟩
  obtain ⟨trace, c, hrun, hsent⟩ := hrun
  exact ⟨trace, c, hrun, hsent, packets_conserved hrun 1⟩

/-! ### The link addresses -/

/-- A reply or a static entry has told a link address, and the cache has not been flushed since. -/
def Told (dest : δ) (mac : μ) (trace : Trace δ μ π) : Prop :=
  ∃ pre p post, trace = pre ++ p :: post ∧
    (p.2.1 = .reply dest mac ∨ p.2.1 = .permanent dest mac) ∧ ∀ q ∈ post, q.2.1 ≠ .flush

omit [DecidableEq δ] in
theorem Told.snoc {mac : μ} {trace : Trace δ μ π} (h : Told dest mac trace)
    {p : ArpCache δ μ π × ArpEvent δ μ π × List (ArpOutput δ μ π)} (hp : p.2.1 ≠ .flush) :
    Told dest mac (trace ++ [p]) := by
  obtain ⟨pre, q, post, rfl, hq, hpost⟩ := h
  refine ⟨pre, q, post ++ [p], by simp, hq, ?_⟩
  simpa [or_imp, forall_and, hp] using hpost

omit [DecidableEq δ] in
theorem told_last {mac : μ} {trace : Trace δ μ π}
    {p : ArpCache δ μ π × ArpEvent δ μ π × List (ArpOutput δ μ π)}
    (hp : p.2.1 = .reply dest mac ∨ p.2.1 = .permanent dest mac) :
    Told dest mac (trace ++ [p]) :=
  ⟨trace, p, [], rfl, hp, by simp⟩

theorem mem_put {timer : Option ℕ} {d : δ} {x : ArpEntry μ π}
    (hx : x ∈ (c.put dest e timer).entry d) : (d = dest ∧ x = e) ∨ x ∈ c.entry d := by
  rcases eq_or_ne d dest with rfl | hne
  · exact .inl ⟨rfl, Option.some.inj (hx.symm.trans (entry_put_self c d e timer))⟩
  · exact .inr (by simpa [put, hne] using hx)

theorem SendEffect.mac (heffect : SendEffect a c packet dest c' out) {d : δ} {x : ArpEntry μ π}
    {mac : μ} (hx : x ∈ c'.entry d) (hmac : x.macAddress = some mac) :
    ∃ y ∈ c.entry d, y.macAddress = some mac := by
  cases heffect with
  | down | found | drop => exact ⟨x, hx, hmac⟩
  | queue he =>
    rw [set_eq_put (by rw [he]; rfl)] at hx
    rcases mem_put hx with ⟨rfl, rfl⟩ | hx
    · exact ⟨_, he, hmac⟩
    · exact ⟨x, hx, hmac⟩
  | ask =>
    rcases mem_put hx with ⟨rfl, rfl⟩ | hx
    · exact Option.bind_eq_some_iff.1 hmac
    · exact ⟨x, hx, hmac⟩

omit [DecidableEq δ] in
theorem macAddress_afterTimeout (now : ℕ) (e : ArpEntry μ π) :
    (afterTimeout a now e).macAddress = e.macAddress := by
  rw [afterTimeout]
  split_ifs <;> rfl

theorem macAddress_seenEntry [DecidableEq μ] (c : ArpCache δ μ π) (source dest : δ) (sender : μ)
    (e : ArpEntry μ π) : (c.seenEntry source sender dest e).macAddress = e.macAddress := by
  rcases c.seenEntry_eq_or source sender dest e with heq | heq
  · rw [heq, ArpEntry.updateSeen]
    split <;> rfl
  · rw [heq]

/-- The link address of an entry comes from the entry before or from the event. -/
theorem Effect.mac [DecidableEq μ] {event : ArpEvent δ μ π} (heffect : Effect a c event c' out)
    {mac : μ} (he : e ∈ c'.entry dest) (hmac : e.macAddress = some mac) :
    (event ≠ .flush ∧ ∃ e ∈ c.entry dest, e.macAddress = some mac) ∨
      event = .reply dest mac ∨ event = .permanent dest mac := by
  cases heffect with
  | tick | unasked | setUp => exact .inl ⟨by simp, e, he, hmac⟩
  | send hsend => exact .inl ⟨by simp, hsend.mac he hmac⟩
  | answered hs hstate =>
    rw [ArpCache.answered, set_eq_put (by rw [hs]; rfl)] at he
    rcases mem_put he with ⟨rfl, rfl⟩ | he
    · exact .inr (.inl (by rw [Option.some.inj hmac]))
    · exact .inl ⟨by simp, e, he, hmac⟩
  | timeout =>
    obtain ⟨x, hx, rfl⟩ := Option.map_eq_some_iff.1 he
    rw [macAddress_afterTimeout] at hmac
    exact .inl ⟨by simp, x, hx, hmac⟩
  | seen =>
    rw [seen_eq] at he
    obtain ⟨x, hx, rfl⟩ := Option.map_eq_some_iff.1 he
    rw [macAddress_seenEntry] at hmac
    exact .inl ⟨by simp, x, hx, hmac⟩
  | flush => exact absurd he (by simp [ArpCache.flush])
  | permanent =>
    rcases mem_put he with ⟨rfl, rfl⟩ | he
    · exact .inr (.inr (by rw [Option.some.inj hmac]))
    · exact .inl ⟨by simp, e, he, hmac⟩

theorem told_of_entry [DecidableEq μ] {trace : Trace δ μ π} (h : Run (step a) init trace c)
    {mac : μ} (he : e ∈ c.entry dest) (hmac : e.macAddress = some mac) : Told dest mac trace := by
  induction h generalizing e with
  | nil => exact absurd he (by simp [init])
  | snoc hrun hst ih =>
    rcases ((ok_of_run hrun).effect hst).mac he hmac with ⟨hne, x, hx, hx'⟩ | hevent
    · exact (ih hx hx').snoc hne
    · exact told_last hevent

omit [DecidableEq δ] in
theorem not_send_mem {entry : Option (ArpEntry μ π)} {mac : Option μ}
    {f : ArpEntry μ π → List (ArpOutput δ μ π)} (hf : ∀ e, .send dest mac packet ∉ f e) :
    .send dest mac packet ∉ entry.elim [] f := by
  cases entry with
  | none => exact List.not_mem_nil
  | some e => exact hf e

/-- A packet is sent to the address of its entry or to the one that has just been told. -/
theorem Effect.sent_mac [DecidableEq μ] {event : ArpEvent δ μ π} (heffect : Effect a c event c' out)
    {mac : Option μ} (hsend : .send dest mac packet ∈ out) :
    ∃ m, mac = some m ∧
      ((event ≠ .flush ∧ ∃ e ∈ c.entry dest, e.macAddress = some m) ∨ event = .reply dest m) := by
  cases heffect with
  | tick | unasked | setUp | seen | permanent => exact absurd hsend List.not_mem_nil
  | send hs =>
    cases hs with
    | found he hstate hmac =>
      obtain ⟨rfl, rfl, rfl⟩ := ArpOutput.send.inj (List.mem_singleton.1 hsend)
      exact ⟨_, rfl, .inl ⟨by simp, _, he, hmac⟩⟩
    | down | drop | ask => exact absurd hsend (by simp)
    | queue => exact absurd hsend List.not_mem_nil
  | answered he =>
    obtain ⟨p, -, hp⟩ := List.mem_map.1 hsend
    split at hp
    · obtain ⟨rfl, rfl, rfl⟩ := ArpOutput.send.inj hp
      exact ⟨_, rfl, .inr rfl⟩
    · exact absurd hp (by simp)
  | timeout =>
    obtain ⟨d, -, hd⟩ := List.mem_flatMap.1 hsend
    exact absurd hd (not_send_mem fun e => by
      rw [timeoutOutput]
      split_ifs <;> simp)
  | flush =>
    obtain ⟨d, -, hd⟩ := List.mem_flatMap.1 hsend
    exact absurd hd (not_send_mem fun e => by simp)

/-- Every packet is sent to a link address that a reply from its own destination or a static entry
has told since the cache was last flushed. -/
theorem told_of_sent [DecidableEq μ] {trace : Trace δ μ π} (h : Run (step a) init trace c)
    {p : ArpEvent δ μ π × List (ArpOutput δ μ π)} (hst : c.step a p c') {mac : Option μ}
    (hsend : .send dest mac packet ∈ p.2) :
    ∃ m, mac = some m ∧ Told dest m (trace ++ [(c, p)]) := by
  obtain ⟨m, hmac, hm⟩ := ((ok_of_run h).effect hst).sent_mac hsend
  rcases hm with ⟨hne, e, he, hentry⟩ | hreply
  · exact ⟨m, hmac, (told_of_entry h he hentry).snoc hne⟩
  · exact ⟨m, hmac, told_last (.inl hreply)⟩

theorem told_of_sent_reply :
    ∃ (trace : Trace ℕ ℕ ℕ) (m : ℕ), some 99 = some m ∧ Told 1 m trace := by
  have hrun : ∃ (trace : Trace ℕ ℕ ℕ) (c c' : ArpCache ℕ ℕ ℕ) (out : List (ArpOutput ℕ ℕ ℕ)),
      Run (step ⟨120, 100, 1, 3, 3⟩) init trace c ∧
        c.step ⟨120, 100, 1, 3, 3⟩ (.reply 1 99, out) c' ∧ .send 1 (some 99) 7 ∈ out :=
    ⟨_, _, _, _, run_next .nil (.send 1 7) trivial rfl, ⟨trivial, rfl⟩,
      List.mem_cons_self⟩
  obtain ⟨trace, c, c', out, hrun, hst, hsend⟩ := hrun
  exact ⟨_, told_of_sent hrun hst hsend⟩

/-! ### How long a packet is held -/

def Waiting (dest : δ) (c : ArpCache δ μ π) : Prop :=
  ∃ e ∈ c.entry dest, e.state = .waitReply

/-- An entry waits, and it is given up by a time if the timer goes on. -/
def Due (a : ArpAttributes) (dest : δ) (bound : ℕ) (c : ArpCache δ μ π) : Prop :=
  ∃ e ∈ c.entry dest, e.state = .waitReply ∧ ∃ expiry ∈ c.waitReplyTimer,
    expiry + (a.maxRetries - e.retries) * a.waitReplyTimeout ≤ bound

theorem SendEffect.due {d : δ} {bound : ℕ} (heffect : SendEffect a c packet d c' out)
    (hdue : Due a dest bound c) : Due a dest bound c' := by
  obtain ⟨e, he, hstate, expiry, htimer, hbound⟩ := hdue
  cases heffect with
  | down | found | drop => exact ⟨e, he, hstate, expiry, htimer, hbound⟩
  | queue hd =>
    rw [set_eq_put (by rw [hd]; rfl)]
    rcases eq_or_ne dest d with rfl | hne
    · obtain rfl := Option.some.inj (he.symm.trans hd)
      exact ⟨_, entry_put_self c dest _ _, hstate, expiry, htimer, hbound⟩
    · exact ⟨e, (entry_put_of_ne hne _ _ _).trans he, hstate, expiry, htimer, hbound⟩
  | ask hidle =>
    rcases eq_or_ne dest d with rfl | hne
    · rcases hidle e he with h | h <;> exact absurd (h.symm.trans hstate) (by decide)
    · refine ⟨e, (Function.update_of_ne hne _ _).trans he, hstate, expiry, ?_, hbound⟩
      rw [asked, Option.mem_def.1 htimer]
      rfl

/-- As long as an entry waits, no step puts that time off. -/
theorem Effect.due [DecidableEq μ] {event : ArpEvent δ μ π} (heffect : Effect a c event c' out)
    (h : Ok a c) {bound : ℕ} (hdue : Due a dest bound c) (hwait : Waiting dest c') :
    Due a dest bound c' := by
  have hbefore := hdue
  obtain ⟨e, he, hstate, expiry, htimer, hbound⟩ := hdue
  cases heffect with
  | tick | unasked | setUp => exact ⟨e, he, hstate, expiry, htimer, hbound⟩
  | send hs => exact hs.due hbefore
  | answered hs hstate' =>
    rename_i source mac e'
    rw [ArpCache.answered, set_eq_put (by rw [hs]; rfl)] at hwait ⊢
    rcases eq_or_ne dest source with rfl | hne
    · obtain ⟨x, hx, hx'⟩ := hwait
      obtain rfl := Option.some.inj ((entry_put_self c dest _ _).symm.trans hx)
      exact absurd hx' (by simp)
    · exact ⟨e, (entry_put_of_ne hne _ _ _).trans he, hstate, expiry, htimer, hbound⟩
  | timeout hnow =>
    obtain rfl := Option.some.inj (hnow.symm.trans htimer)
    have hafter : (c.timedOut a).entry dest = some (afterTimeout a c.now e) :=
      congrArg (Option.map (afterTimeout a c.now)) he
    by_cases hretries : e.retries < a.maxRetries
    · have hagain : (c.timedOut a).waitReplyTimer = some (c.now + a.waitReplyTimeout) :=
        if_pos (List.any_eq_true.2 ⟨dest, (h.mem_keys dest).2 (by rw [he]; rfl), by
          simp [Option.mem_def.1 he, asksAgain, hstate, hretries]⟩)
      rw [afterTimeout, if_pos hstate, if_pos hretries] at hafter
      refine ⟨_, hafter, hstate, _, hagain, ?_⟩
      have hsplit : a.maxRetries - e.retries = a.maxRetries - (e.retries + 1) + 1 := by omega
      rw [hsplit, Nat.succ_mul] at hbound
      rw [ArpEntry.incrementRetries]
      dsimp only
      omega
    · rw [afterTimeout, if_pos hstate, if_neg hretries] at hafter
      obtain ⟨x, hx, hx'⟩ := hwait
      obtain rfl := Option.some.inj (hafter.symm.trans hx)
      exact absurd hx' (by simp)
  | seen =>
    rename_i source sender
    have hentry : (c.seen source sender).entry dest = some (c.seenEntry source sender dest e) := by
      rw [seen_eq]
      exact congrArg (Option.map (c.seenEntry source sender dest)) he
    have hsame : c.seenEntry source sender dest e = e := by
      rcases c.seenEntry_eq_or source sender dest e with heq | heq
      · rw [heq, ArpEntry.updateSeen, if_neg (by rw [hstate]; decide)]
      · exact heq
    refine ⟨e, hentry.trans (by rw [hsame]), hstate, expiry, ?_, hbound⟩
    rw [seen_eq]
    exact htimer
  | flush =>
    obtain ⟨x, hx, -⟩ := hwait
    exact absurd hx (by simp [ArpCache.flush])
  | permanent hnone =>
    rename_i d mac
    rcases eq_or_ne dest d with rfl | hne
    · exact absurd (hnone.symm.trans he) (by simp)
    · exact ⟨e, (entry_put_of_ne hne _ _ _).trans he, hstate, expiry, htimer, hbound⟩

/-- No address is waited for, and so no packet held, for longer than all retries take. -/
theorem waits_le [DecidableEq μ] {pre post : Trace δ μ π} {s : ArpCache δ μ π}
    (hpre : Run (step a) init pre s) (h : Run (step a) s post c)
    (hwait : ∀ p ∈ post, Waiting dest p.1) (hs : Waiting dest s) (hc : Waiting dest c) :
    c.now ≤ s.now + (a.maxRetries + 1) * a.waitReplyTimeout := by
  have hok : Ok a c := ok_of_run (hpre.append h)
  suffices hdue : Due a dest (s.now + (a.maxRetries + 1) * a.waitReplyTimeout) c by
    obtain ⟨e, he, hstate, expiry, htimer, hbound⟩ := hdue
    exact ((hok.timer expiry htimer).1.trans (Nat.le_add_right _ _)).trans hbound
  clear hok
  induction h with
  | nil =>
    obtain ⟨e, he, hstate⟩ := hs
    have hok : Ok a s := ok_of_run hpre
    obtain ⟨expiry, htimer, -⟩ := (hok.entries dest e he).expiry hstate
    refine ⟨e, he, hstate, expiry, htimer, ?_⟩
    have hle := (hok.timer expiry htimer).2
    have hmul : (a.maxRetries - e.retries) * a.waitReplyTimeout ≤
        a.maxRetries * a.waitReplyTimeout :=
      Nat.mul_le_mul_right _ (Nat.sub_le _ _)
    rw [Nat.succ_mul]
    omega
  | snoc hrun hst ih =>
    rename_i trace t u p
    rw [List.forall_mem_append, List.forall_mem_singleton] at hwait
    have hok : Ok a t := ok_of_run (hpre.append hrun)
    exact (hok.effect hst).due hok (ih hwait.1 hwait.2) hc

/-- An address that is asked for a second time. -/
theorem waits_le_two :
    ∃ s c : ArpCache ℕ ℕ ℕ, c.now = 1 ∧ s.now = 0 ∧ c.now ≤ s.now + (1 + 1) * 1 := by
  have hrun : ∃ (pre post : Trace ℕ ℕ ℕ) (s c : ArpCache ℕ ℕ ℕ),
      Run (step ⟨120, 100, 1, 1, 3⟩) init pre s ∧ Run (step ⟨120, 100, 1, 1, 3⟩) s post c ∧
        (∀ p ∈ post, Waiting 1 p.1) ∧ Waiting 1 s ∧ Waiting 1 c ∧ c.now = 1 ∧ s.now = 0 :=
    ⟨_, _, _, _, run_next .nil (.send 1 7) trivial rfl,
      run_next (run_next .nil (.tick 1) ⟨by decide, by decide, fun _ h => (Option.some.inj h).le⟩
        rfl) .timeout rfl rfl,
      by
        rintro p hp
        rcases List.mem_append.1 hp with hp | hp
        · obtain rfl := List.mem_singleton.1 hp
          exact ⟨_, rfl, rfl⟩
        · obtain rfl := List.mem_singleton.1 hp
          exact ⟨_, rfl, rfl⟩, ⟨_, rfl, rfl⟩, ⟨_, rfl, rfl⟩, rfl, rfl⟩
  obtain ⟨pre, post, s, c, hpre, hpost, hwait, hs, hc, hnow, hnow'⟩ := hrun
  exact ⟨s, c, hnow, hnow', waits_le hpre hpost hwait hs hc⟩

end ArpCache

end SeanetSim
