import SeanetSim.Lib.TextStream
import SeanetSim.Lib.WhileLoop
import SeanetSim.Network.Ipv6Text

/-!
# Writing IPv6 addresses

`Ipv6Address::Print` writes the groups of the address with its longest run of zero groups left out,
and an IPv4-mapped address with dots, which the parser refuses.  What it writes otherwise is a text
form of the address (`denotes_print`), and so is read back.
-/

namespace SeanetSim

namespace Ipv6Address

open Ipv6Text TextStream

def isIpv4MappedAddress (a : Ipv6Address) : Bool :=
  a.toList.take 12 == [0, 0, 0, 0, 0, 0, 0, 0, 0, 0, 0xff, 0xff]

/-- `address[i]`, the groups of the address. -/
def word (a : Ipv6Address) (i : ℕ) : ℕ :=
  (a.toList.getD (2 * i) 0).toNat <<< 8 ||| (a.toList.getD (2 * i + 1) 0).toNat

/-- The variables of the search for a run; a base of -1 is `none`. -/
structure Runs where
  bestBase : Option ℕ
  bestLen : ℕ
  curBase : Option ℕ
  curLen : ℕ

/-- The end of a run: it becomes the best one if it is longer. -/
def Runs.endRun (r : Runs) (base : ℕ) : Runs :=
  if r.bestBase = none ∨ r.curLen > r.bestLen then
    { r with bestBase := some base, bestLen := r.curLen }
  else r

def runTurn (a : Ipv6Address) (r : Runs) (i : ℕ) : Runs :=
  if a.word i = 0 then
    match r.curBase with
    | none => { r with curBase := some i, curLen := 1 }
    | some _ => { r with curLen := r.curLen + 1 }
  else
    match r.curBase with
    | none => r
    | some base => { r.endRun base with curBase := none }

/-- The search: the base and the length of the run that is left out. -/
def bestRun (a : Ipv6Address) : Option (ℕ × ℕ) :=
  let r := (List.range 8).foldl a.runTurn ⟨none, 0, none, 0⟩
  let r := r.curBase.elim r r.endRun
  if r.bestLen < 2 then none else r.bestBase.map fun base => (base, r.bestLen)

def hex (n : ℕ) : List Char := Nat.toDigits 16 n

def dec (b : UInt8) : List Char := Nat.toDigits 10 b.toNat

/-- One turn of the loop that writes the groups. -/
def printTurn (a : Ipv6Address) (best : Option (ℕ × ℕ)) (s : ℕ × List Char) : ℕ × List Char :=
  match best with
  | some (base, len) =>
    if s.1 = base then (s.1 + len, s.2 ++ [':'])
    else (s.1 + 1, (if s.1 ≠ 0 then s.2 ++ [':'] else s.2) ++ hex (a.word s.1))
  | none => (s.1 + 1, (if s.1 ≠ 0 then s.2 ++ [':'] else s.2) ++ hex (a.word s.1))

/-- `Print`, on a stream of default format; `none` where the turns run out. -/
def print (turns : ℕ) (a : Ipv6Address) : Option (List Char) :=
  if a.isIpv4MappedAddress then
    some ([':', ':', 'f', 'f', 'f', 'f', ':'] ++ dec a[12] ++ '.' :: (dec a[13] ++
      '.' :: (dec a[14] ++ '.' :: dec a[15])))
  else
    let best := a.bestRun
    (whileLoop (fun s => decide (s.1 < 8)) (fun s => some (a.printTurn best s)) turns (0, [])).map
      fun s => match best with
        | some (base, len) => if base + len = 8 then s.2 ++ [':'] else s.2
        | none => s.2

/-- `operator >>`: the address before the assignment is the one that the parser leaves in the
memory of a new address, whose content is `mem`. -/
def readFrom (is : IStream) (mem : Ipv6Address) : Option (Ipv6Address × IStream) :=
  let (str, is) := is.readWord []
  (asciiToIpv6Host str mem).map fun r => (r.2, is)

/-! ### The run of zeros -/

variable {a : Ipv6Address} {i base len : ℕ}

def ZeroRun (a : Ipv6Address) (base len : ℕ) : Prop := ∀ k < len, a.word (base + k) = 0

/-- The runs are runs of zeros among the groups that have been looked at, the current one at their
end. -/
structure RunsOk (a : Ipv6Address) (i : ℕ) (r : Runs) : Prop where
  best : ∀ base, r.bestBase = some base → base + r.bestLen ≤ i ∧ a.ZeroRun base r.bestLen
  cur : ∀ base, r.curBase = some base → base + r.curLen = i ∧ a.ZeroRun base r.curLen

theorem RunsOk.endRun {r : Runs} (h : RunsOk a i r) (hbase : r.curBase = some base) :
    ∀ b, (r.endRun base).bestBase = some b →
      b + (r.endRun base).bestLen ≤ i ∧ a.ZeroRun b (r.endRun base).bestLen := by
  rw [Runs.endRun]
  split
  · rintro b ⟨⟩
    obtain ⟨hend, hzero⟩ := h.cur base hbase
    exact ⟨hend.le, hzero⟩
  · exact h.best

theorem RunsOk.turn {r : Runs} (h : RunsOk a i r) : RunsOk a (i + 1) (a.runTurn r i) := by
  have hbest : ∀ b, r.bestBase = some b → b + r.bestLen ≤ i + 1 ∧ a.ZeroRun b r.bestLen :=
    fun b hb => ⟨(h.best b hb).1.trans (Nat.le_succ i), (h.best b hb).2⟩
  rw [runTurn]
  split
  · rename_i hword
    cases hcur : r.curBase with
    | none =>
      refine ⟨hbest, ?_⟩
      rintro b ⟨⟩
      refine ⟨rfl, fun k hk => ?_⟩
      obtain rfl : k = 0 := Nat.lt_one_iff.1 hk
      exact hword
    | some c =>
      refine ⟨hbest, fun b hb => ?_⟩
      obtain ⟨hend, hzero⟩ := h.cur b (hcur.trans hb)
      refine ⟨by simp only [← Nat.add_assoc, hend], fun k hk => ?_⟩
      rcases Nat.lt_succ_iff_lt_or_eq.1 hk with hlt | rfl
      · exact hzero k hlt
      · rw [hend, hword]
  · cases hcur : r.curBase with
    | none => exact ⟨hbest, fun b hb => by simp [hcur] at hb⟩
    | some c =>
      refine ⟨fun b hb => ?_, by simp⟩
      obtain ⟨hle, hzero⟩ := h.endRun hcur b hb
      exact ⟨hle.trans (Nat.le_succ i), hzero⟩

theorem runsOk_foldl (a : Ipv6Address) (n : ℕ) :
    RunsOk a n ((List.range n).foldl a.runTurn ⟨none, 0, none, 0⟩) := by
  induction n with
  | zero => exact ⟨by simp, by simp⟩
  | succ n ih =>
    rw [List.range_succ, List.foldl_append]
    exact ih.turn

/-- What is left out are two zero groups or more. -/
theorem bestRun_spec (h : a.bestRun = some (base, len)) :
    2 ≤ len ∧ base + len ≤ 8 ∧ a.ZeroRun base len := by
  have hok := runsOk_foldl a 8
  have hend : ∀ r : Runs, RunsOk a 8 r → ∀ b, (r.curBase.elim r r.endRun).bestBase = some b →
      b + (r.curBase.elim r r.endRun).bestLen ≤ 8 ∧
        a.ZeroRun b (r.curBase.elim r r.endRun).bestLen := by
    intro r hr
    cases hcur : r.curBase with
    | none => exact hr.best
    | some c => exact hr.endRun hcur
  rw [bestRun] at h
  split at h
  · simp at h
  · rename_i hlen
    obtain ⟨b, hb, hpair⟩ := Option.map_eq_some_iff.1 h
    obtain ⟨rfl, rfl⟩ := Prod.mk.inj hpair
    obtain ⟨hle, hzero⟩ := hend _ hok b hb
    exact ⟨Nat.not_lt.1 hlen, hle, hzero⟩

/-! ### The groups in hexadecimal -/

theorem xdigit_digitChar {d : ℕ} (h : d < 16) : xdigit d.digitChar = some d := by
  have hall : ∀ d < 16, xdigit (Nat.digitChar d) = some d := by decide
  exact hall d h

theorem hex_spec (n : ℕ) : (∀ c ∈ hex n, (xdigit c).isSome = true) ∧ groupValue (hex n) = n := by
  induction n using Nat.strongRecOn with
  | ind n ih =>
    by_cases hlt : n < 16
    · rw [hex, Nat.toDigits_of_lt_base hlt]
      simp [groupValue, xdigit_digitChar hlt]
    · obtain ⟨hdigits, hvalue⟩ := ih (n / 16) (by omega)
      have hmod : n % 16 < 16 := Nat.mod_lt _ (by decide)
      have hstep : hex n = hex (n / 16) ++ [(n % 16).digitChar] :=
        Nat.toDigits_of_base_le (by decide) (Nat.not_lt.1 hlt)
      rw [hstep, groupValue_append, hvalue, xdigit_digitChar hmod, Option.getD_some]
      refine ⟨fun c hc => ?_, by omega⟩
      rcases List.mem_append.1 hc with hc | hc
      · exact hdigits c hc
      · rw [List.mem_singleton.1 hc, xdigit_digitChar hmod]
        rfl

theorem length_hex_le (k : ℕ) {n : ℕ} (h : n < 16 ^ (k + 1)) : (hex n).length ≤ k + 1 := by
  induction k generalizing n with
  | zero =>
    rw [hex, Nat.toDigits_of_lt_base (by omega)]
    simp
  | succ k ih =>
    by_cases hlt : n < 16
    · rw [hex, Nat.toDigits_of_lt_base hlt]
      simp
    · have hstep : hex n = hex (n / 16) ++ [(n % 16).digitChar] :=
        Nat.toDigits_of_base_le (by decide) (Nat.not_lt.1 hlt)
      have hdiv : n / 16 < 16 ^ (k + 1) := by
        rw [Nat.pow_succ] at h
        omega
      have := ih hdiv
      rw [hstep, List.length_append, List.length_singleton]
      omega

theorem word_eq (a : Ipv6Address) (i : ℕ) :
    a.word i = (a.toList.getD (2 * i) 0).toNat * 256 + (a.toList.getD (2 * i + 1) 0).toNat := by
  rw [word, ← Nat.shiftLeft_add_eq_or_of_lt (UInt8.toNat_lt _), Nat.shiftLeft_eq]

theorem group_hex (a : Ipv6Address) (i : ℕ) : Group (hex (a.word i)) := by
  have hhi := (a.toList.getD (2 * i) 0).toNat_lt
  have hlo := (a.toList.getD (2 * i + 1) 0).toNat_lt
  have hlt : a.word i < 16 ^ (3 + 1) := by
    rw [word_eq]
    omega
  exact ⟨Nat.toDigits_ne_nil, length_hex_le 3 hlt, (hex_spec _).1⟩

theorem groupBytes_hex (a : Ipv6Address) (i : ℕ) : groupBytes (hex (a.word i)) =
    [a.toList.getD (2 * i) 0, a.toList.getD (2 * i + 1) 0] := by
  have hlo := (a.toList.getD (2 * i + 1) 0).toNat_lt
  have hdiv : a.word i / 256 = (a.toList.getD (2 * i) 0).toNat := by
    rw [word_eq]
    omega
  have hmod : a.word i % 256 = (a.toList.getD (2 * i + 1) 0).toNat := by
    rw [word_eq]
    omega
  rw [groupBytes, (hex_spec _).2, hdiv, hmod, UInt8.ofNat_toNat, UInt8.ofNat_toNat]

/-- The groups from one on, as many as there are. -/
def groupsFrom (a : Ipv6Address) (start n : ℕ) : List (List Char) :=
  (List.range' start n).map fun i => hex (a.word i)

theorem flatMap_groupsFrom (a : Ipv6Address) (start n : ℕ) (h : start + n ≤ 8) :
    (a.groupsFrom start n).flatMap groupBytes = (a.toList.drop (2 * start)).take (2 * n) := by
  induction n generalizing start with
  | zero => simp [groupsFrom]
  | succ n ih =>
    have hlen : a.toList.length = 16 := by simp
    have hcons : a.toList.drop (2 * start) = a.toList.getD (2 * start) 0 ::
        a.toList.getD (2 * start + 1) 0 :: a.toList.drop (2 * (start + 1)) := by
      rw [List.drop_eq_getElem_cons (by omega), List.drop_eq_getElem_cons (by omega),
        List.getD_eq_getElem _ _ (by omega), List.getD_eq_getElem _ _ (by omega)]
      rfl
    have htail := ih (start + 1) (by omega)
    rw [groupsFrom] at htail
    rw [groupsFrom, List.range'_succ, List.map_cons, List.flatMap_cons, htail, groupBytes_hex,
      hcons]
    rfl

theorem groupsFrom_append (a : Ipv6Address) (start m n : ℕ) :
    a.groupsFrom start m ++ a.groupsFrom (start + m) n = a.groupsFrom start (m + n) := by
  rw [groupsFrom, groupsFrom, groupsFrom, ← List.map_append, List.range'_append_1]

theorem groupsFrom_succ (a : Ipv6Address) (start n : ℕ) :
    a.groupsFrom start (n + 1) = a.groupsFrom start n ++ [hex (a.word (start + n))] :=
  (groupsFrom_append a start n 1).symm

theorem flatMap_zeroRun (h : a.ZeroRun base len) :
    (a.groupsFrom base len).flatMap groupBytes = List.replicate (2 * len) 0 := by
  induction len generalizing base with
  | zero => rfl
  | succ len ih =>
    have hzero : a.word base = 0 := h 0 (Nat.succ_pos len)
    have hrest : a.ZeroRun (base + 1) len := fun k hk => by
      rw [Nat.add_right_comm]
      exact h (k + 1) (Nat.succ_lt_succ hk)
    have htail := ih hrest
    rw [groupsFrom] at htail
    rw [groupsFrom, List.range'_succ, List.map_cons, List.flatMap_cons, htail, hzero]
    rfl

theorem group_groupsFrom (a : Ipv6Address) (start n : ℕ) : ∀ g ∈ a.groupsFrom start n, Group g := by
  intro g hg
  obtain ⟨i, -, rfl⟩ := List.mem_map.1 hg
  exact group_hex a i

@[simp] theorem length_groupsFrom (a : Ipv6Address) (start n : ℕ) :
    (a.groupsFrom start n).length = n := by simp [groupsFrom]

theorem flatMap_all (a : Ipv6Address) : (a.groupsFrom 0 8).flatMap groupBytes = a.serialize := by
  rw [flatMap_groupsFrom a 0 8 le_rfl]
  simp [serialize]

/-- All eight groups. -/
theorem denotes_all (a : Ipv6Address) : Denotes (joined (a.groupsFrom 0 8)) a.serialize := by
  rw [← flatMap_all a]
  exact Denotes.full (group_groupsFrom a 0 8) (length_groupsFrom a 0 8)

/-- The groups around a run of zeros. -/
theorem denotes_around (h : a.ZeroRun base len) (hlen : 2 ≤ len) (hend : base + len ≤ 8) :
    Denotes (joined (a.groupsFrom 0 base) ++
      ':' :: ':' :: joined (a.groupsFrom (base + len) (8 - (base + len)))) a.serialize := by
  have hsplit : a.groupsFrom 0 8 = a.groupsFrom 0 base ++ a.groupsFrom base len ++
      a.groupsFrom (base + len) (8 - (base + len)) := by
    have hmid := groupsFrom_append a 0 base len
    have hall := groupsFrom_append a 0 (base + len) (8 - (base + len))
    rw [Nat.zero_add] at hmid hall
    rw [hmid, hall, Nat.add_sub_cancel' hend]
  have hzeros : 16 - 2 * ((a.groupsFrom 0 base).length +
      (a.groupsFrom (base + len) (8 - (base + len))).length) = 2 * len := by
    rw [length_groupsFrom, length_groupsFrom]
    omega
  have hshort : (a.groupsFrom 0 base).length +
      (a.groupsFrom (base + len) (8 - (base + len))).length < 8 := by
    rw [length_groupsFrom, length_groupsFrom]
    omega
  have hform := Denotes.compressed (group_groupsFrom a 0 base)
    (group_groupsFrom a (base + len) (8 - (base + len))) hshort
  rwa [hzeros, ← flatMap_zeroRun h, ← List.flatMap_append, ← List.flatMap_append, ← hsplit,
    flatMap_all] at hform

/-! ### The loop that writes the groups -/

theorem joined_snoc (gs : List (List Char)) (g : List Char) :
    joined (gs ++ [g]) = (if gs ≠ [] then joined gs ++ [':'] else joined gs) ++ g := by
  rw [Parsed.joined_append]
  split
  · rename_i hne
    rw [Parsed.terminated_eq hne]
  · rename_i hnil
    rw [not_not.1 hnil]
    rfl

theorem joined_groupsFrom_succ (a : Ipv6Address) (n : ℕ) : joined (a.groupsFrom 0 (n + 1)) =
    (if n ≠ 0 then joined (a.groupsFrom 0 n) ++ [':'] else joined (a.groupsFrom 0 n)) ++
      hex (a.word n) := by
  have hne : a.groupsFrom 0 n ≠ [] ↔ n ≠ 0 := by
    rw [ne_eq, ← List.length_eq_zero_iff, length_groupsFrom]
  rw [groupsFrom_succ, Nat.zero_add, joined_snoc]
  simp only [hne]

theorem flatMap_colon {gs : List (List Char)} (hne : gs ≠ []) :
    gs.flatMap (':' :: ·) = ':' :: joined gs := by
  induction gs with
  | nil => exact absurd rfl hne
  | cons g gs ih =>
    by_cases hgs : gs = []
    · subst hgs
      simp [joined]
    · rw [List.flatMap_cons, ih hgs, Parsed.joined_cons g hgs]
      rfl

/-- What is written when the loop has got to a group. -/
def Written (a : Ipv6Address) (best : Option (ℕ × ℕ)) (s : ℕ × List Char) : Prop :=
  match best with
  | none => s.1 ≤ 8 ∧ s.2 = joined (a.groupsFrom 0 s.1)
  | some (base, len) =>
    (s.1 ≤ base ∧ s.2 = joined (a.groupsFrom 0 s.1)) ∨
      (base + len ≤ s.1 ∧ s.1 ≤ 8 ∧ s.2 = joined (a.groupsFrom 0 base) ++
        ':' :: (a.groupsFrom (base + len) (s.1 - (base + len))).flatMap (':' :: ·))

theorem Written.turn {best : Option (ℕ × ℕ)} {s : ℕ × List Char}
    (hbest : ∀ base len, best = some (base, len) → 2 ≤ len ∧ base + len ≤ 8)
    (h : a.Written best s) (hlt : s.1 < 8) :
    a.Written best (a.printTurn best s) ∧ s.1 < (a.printTurn best s).1 := by
  rcases best with _ | ⟨base, len⟩
  · obtain ⟨-, hout⟩ := h
    refine ⟨⟨hlt, ?_⟩, Nat.lt_succ_self _⟩
    rw [printTurn, joined_groupsFrom_succ, ← hout]
  · obtain ⟨hlen, hend⟩ := hbest base len rfl
    rw [printTurn]
    by_cases heq : s.1 = base
    · rw [if_pos heq]
      have hmore : s.1 < s.1 + len := by omega
      refine ⟨Or.inr ⟨heq ▸ le_rfl, heq ▸ hend, ?_⟩, hmore⟩
      rcases h with ⟨-, hout⟩ | ⟨hge, -⟩
      · simp [hout, heq, groupsFrom]
      · omega
    · rw [if_neg heq]
      refine ⟨?_, Nat.lt_succ_self _⟩
      rcases h with ⟨hle, hout⟩ | ⟨hge, -, hout⟩
      · left
        refine ⟨Nat.lt_of_le_of_ne hle heq, ?_⟩
        rw [joined_groupsFrom_succ, ← hout]
      · right
        refine ⟨hge.trans (Nat.le_succ _), hlt, ?_⟩
        have hcount : s.1 + 1 - (base + len) = s.1 - (base + len) + 1 := Nat.sub_add_comm hge
        have hne : s.1 ≠ 0 := by omega
        rw [if_pos hne, hout, hcount, groupsFrom_succ, Nat.add_sub_cancel' hge]
        simp

theorem bestRun_bounds (a : Ipv6Address) :
    ∀ base len, a.bestRun = some (base, len) → 2 ≤ len ∧ base + len ≤ 8 := by
  intro base len h
  obtain ⟨hlen, hend, -⟩ := bestRun_spec h
  exact ⟨hlen, hend⟩

/-- After the loop the whole text is there, but for the second colon of a run at the end. -/
theorem Written.denotes {s : ℕ × List Char} (h : a.Written a.bestRun s) (hend : ¬ s.1 < 8) :
    Denotes (match a.bestRun with
      | some (base, len) => if base + len = 8 then s.2 ++ [':'] else s.2
      | none => s.2) a.serialize := by
  cases hbest : a.bestRun with
  | none =>
    rw [hbest] at h
    obtain ⟨hle, hout⟩ := h
    have height : s.1 = 8 := by omega
    rw [height] at hout
    dsimp only
    rw [hout]
    exact denotes_all a
  | some r =>
    obtain ⟨base, len⟩ := r
    obtain ⟨hlen, hle, hzero⟩ := bestRun_spec hbest
    have hform := denotes_around hzero hlen hle
    rw [hbest] at h
    rcases h with ⟨hbase, -⟩ | ⟨-, h8, hout⟩
    · omega
    · have height : s.1 = 8 := by omega
      rw [height] at hout
      dsimp only
      by_cases hlast : base + len = 8
      · rw [if_pos hlast, hout]
        rw [hlast] at hform ⊢
        simpa [groupsFrom] using hform
      · have hne : a.groupsFrom (base + len) (8 - (base + len)) ≠ [] := by
          rw [ne_eq, ← List.length_eq_zero_iff, length_groupsFrom]
          omega
        rw [if_neg hlast, hout, flatMap_colon hne]
        exact hform

/-- What is written is a text form of the address. -/
theorem denotes_print (h : a.isIpv4MappedAddress = false) {turns : ℕ} (hturns : 8 ≤ turns) :
    ∃ text, a.print turns = some text ∧ Denotes text a.serialize := by
  have hstart : a.Written a.bestRun (0, []) := by
    cases hbest : a.bestRun with
    | none => exact ⟨Nat.zero_le 8, rfl⟩
    | some r => exact Or.inl ⟨Nat.zero_le _, rfl⟩
  have hturn : ∀ s, a.Written a.bestRun s → decide (s.1 < 8) = true →
      ∃ t, some (a.printTurn a.bestRun s) = some t ∧ a.Written a.bestRun t ∧ 8 - t.1 < 8 - s.1 := by
    intro s hs hlt
    have hlt : s.1 < 8 := of_decide_eq_true hlt
    obtain ⟨hwritten, hmore⟩ := hs.turn (bestRun_bounds a) hlt
    exact ⟨_, rfl, hwritten, by omega⟩
  obtain ⟨s, hrun, hs, hend⟩ := whileLoop_of_measure (a.Written a.bestRun) (fun s => 8 - s.1) hturn
    hstart hturns
  refine ⟨_, ?_, hs.denotes (of_decide_eq_false hend)⟩
  rw [print, if_neg (by simp [h])]
  dsimp only
  rw [hrun]
  rfl

/-! ### Reading the text -/

theorem mem_terminated {gs : List (List Char)} {c : Char} (hgs : ∀ g ∈ gs, Group g)
    (hc : c ∈ Parsed.terminated gs) : (xdigit c).isSome = true ∨ c = ':' := by
  obtain ⟨g, hg, hc⟩ := List.mem_flatMap.1 hc
  rcases List.mem_append.1 hc with hc | hc
  · exact Or.inl ((hgs g hg).digits c hc)
  · exact Or.inr (List.mem_singleton.1 hc)

/-- What the scan reads to its end are digits and colons. -/
theorem mem_address {p : Parsed} (h : p.Valid) {c : Char} (hc : c ∈ p.address) :
    (xdigit c).isSome = true ∨ c = ':' := by
  have hleft : ∀ g ∈ p.left, Group g := fun g hg => h.groups g (List.mem_append_left _ hg)
  rw [Parsed.address, Parsed.text, List.mem_append, List.mem_append, List.mem_append] at hc
  rcases hc with hc | (hc | hc) | hc
  · split at hc
    · exact Or.inr (List.mem_singleton.1 hc)
    · exact absurd hc List.not_mem_nil
  · exact mem_terminated hleft hc
  · cases hright : p.right with
    | none => simp [hright] at hc
    | some hs =>
      rw [hright, Option.elim_some, List.mem_cons] at hc
      rcases hc with hc | hc
      · exact Or.inr hc
      · apply mem_terminated _ hc
        intro g hg
        apply h.groups
        rw [Parsed.groups, hright]
        exact List.mem_append_right _ hg
  · exact Or.inl (h.digits c hc)

theorem xdigit_of_isSpace {c : Char} (h : isSpace c = true) : xdigit c = none := by
  simp only [isSpace, Bool.or_eq_true, beq_iff_eq] at h
  rcases h with ((((rfl | rfl) | rfl) | rfl) | rfl) | rfl <;> decide

theorem not_isSpace_of_denotes {text : List Char} {b : List UInt8} (h : Denotes text b) :
    ∀ c ∈ text, isSpace c = false := by
  obtain ⟨p, hp, rfl, -⟩ := Parsed.exists_of_denotes h
  intro c hc
  rcases mem_address hp hc with hdigit | rfl
  · rw [← Bool.not_eq_true]
    intro hspace
    rw [xdigit_of_isSpace hspace] at hdigit
    exact absurd hdigit Bool.false_ne_true
  · rfl

theorem ne_nil_of_denotes {text : List Char} {b : List UInt8} (h : Denotes text b) : text ≠ [] := by
  rintro rfl
  have haccepted := asciiToIpv6Host_of_denotes h getAny
  have hrefused : asciiToIpv6Host [] getAny = some (false, getAny) := by decide
  rw [hrefused] at haccepted
  simp at haccepted

/-- A word with nothing around it is what the parser gets. -/
theorem readFrom_ofText {text : List Char} (hspace : ∀ c ∈ text, isSpace c = false)
    (hne : text ≠ []) {mem out : Ipv6Address} {result : Bool}
    (h : asciiToIpv6Host text mem = some (result, out)) :
    ∃ is, readFrom (IStream.ofText text) mem = some (out, is) := by
  have hwords := IStream.holds_ofText text
  rw [words_eq_singleton hspace hne] at hwords
  obtain ⟨hword, -⟩ := IStream.readWord_of_words hwords []
  rw [List.headD_cons] at hword
  refine ⟨((IStream.ofText text).readWord []).2, ?_⟩
  simp only [readFrom, hword, h, Option.map_some]

/-- A text form is read as its address. -/
theorem readFrom_of_denotes {text : List Char} (h : Denotes text a.serialize) (mem : Ipv6Address) :
    ∃ is, readFrom (IStream.ofText text) mem = some (a, is) := by
  have haddress : deserialize a.serialize = a := by simpa using deserialize_serialize a []
  apply readFrom_ofText (not_isSpace_of_denotes h) (ne_nil_of_denotes h)
  rw [asciiToIpv6Host_of_denotes h, haddress]

/-! ### The mapped addresses -/

theorem isSpace_of_isDigit {c : Char} (h : c.isDigit = true) : isSpace c = false := by
  rw [← Bool.not_eq_true]
  intro hspace
  rw [IStream.not_isDigit_of_isSpace hspace] at h
  exact absurd h Bool.false_ne_true

theorem isSpace_of_mem_dec {b : UInt8} {c : Char} (hc : c ∈ dec b) : isSpace c = false :=
  isSpace_of_isDigit (Nat.isDigit_of_mem_toDigits (by decide) (by decide) hc)

/-- A word with a dot in it is refused. -/
theorem asciiToIpv6Host_dot {text : List Char} (h : '.' ∈ text) (mem : Ipv6Address) :
    asciiToIpv6Host text mem = some (false, mem) := by
  rcases asciiToIpv6Host_sound text mem with hrefused | ⟨p, hp, rfl⟩
  · exact hrefused
  · rcases mem_address hp h with hdigit | hcolon
    · exact absurd hdigit (by decide)
    · exact absurd hcolon (by decide)

theorem not_isSpace_append {l r : List Char} (hl : ∀ c ∈ l, isSpace c = false)
    (hr : ∀ c ∈ r, isSpace c = false) : ∀ c ∈ l ++ r, isSpace c = false := by
  intro c hc
  rcases List.mem_append.1 hc with hc | hc
  · exact hl c hc
  · exact hr c hc

/-- A mapped address is read as what the memory holds. -/
theorem readFrom_mapped (h : a.isIpv4MappedAddress = true) (turns : ℕ) (mem : Ipv6Address) :
    ∃ text is, a.print turns = some text ∧ readFrom (IStream.ofText text) mem = some (mem, is) := by
  have htext : a.print turns = some ([':', ':', 'f', 'f', 'f', 'f', ':'] ++ dec a[12] ++
      '.' :: (dec a[13] ++ '.' :: (dec a[14] ++ '.' :: dec a[15]))) := by
    rw [print, if_pos h]
  have hdec : ∀ b : UInt8, ∀ c ∈ dec b, isSpace c = false := fun b c hc => isSpace_of_mem_dec hc
  have hdotted : ∀ b : UInt8, ∀ r : List Char, (∀ c ∈ r, isSpace c = false) →
      ∀ c ∈ dec b ++ '.' :: r, isSpace c = false := by
    intro b r hr
    exact not_isSpace_append (hdec b) (List.forall_mem_cons.2 ⟨rfl, hr⟩)
  have hfront : ∀ c ∈ [':', ':', 'f', 'f', 'f', 'f', ':'], isSpace c = false := by simp [isSpace]
  have hspace := not_isSpace_append hfront
    (hdotted a[12] _ (hdotted a[13] _ (hdotted a[14] _ (hdec a[15]))))
  rw [← List.append_assoc] at hspace
  obtain ⟨is, hread⟩ := readFrom_ofText hspace (by simp) (asciiToIpv6Host_dot (by simp) mem)
  exact ⟨_, is, htext, hread⟩

/-- What is written is read back for every address but the IPv4-mapped ones, whatever the memory
of the new address holds. -/
theorem print_read_iff (a : Ipv6Address) :
    (∀ mem turns, 8 ≤ turns → ∃ text is, a.print turns = some text ∧
        readFrom (IStream.ofText text) mem = some (a, is)) ↔
      a.isIpv4MappedAddress = false := by
  constructor
  · intro hback
    rw [← Bool.not_eq_true]
    intro hmapped
    obtain ⟨mem, hmem⟩ : ∃ mem : Ipv6Address, mem ≠ a := by
      by_cases hany : a = getAny
      · exact ⟨getAllRoutersMulticast, by rw [hany]; decide⟩
      · exact ⟨getAny, fun heq => hany heq.symm⟩
    obtain ⟨text, is, hprint, hread⟩ := hback mem 8 le_rfl
    obtain ⟨text', is', hprint', hread'⟩ := readFrom_mapped hmapped 8 mem
    obtain rfl : text = text' := Option.some_inj.1 (hprint.symm.trans hprint')
    have hpair := Option.some_inj.1 (hread'.symm.trans hread)
    exact hmem (congrArg Prod.fst hpair)
  · intro h mem turns hturns
    obtain ⟨text, hprint, hdenotes⟩ := denotes_print h hturns
    obtain ⟨is, hread⟩ := readFrom_of_denotes hdenotes mem
    exact ⟨text, is, hprint, hread⟩

/-- `::ffff:1.2.3.4` is written with dots, and read as what the memory holds. -/
theorem mapped_not_read_back :
    let a : Ipv6Address := #v[0, 0, 0, 0, 0, 0, 0, 0, 0, 0, 0xff, 0xff, 1, 2, 3, 4]
    let text := [':', ':', 'f', 'f', 'f', 'f', ':', '1', '.', '2', '.', '3', '.', '4']
    a.print 8 = some text ∧
      readFrom (IStream.ofText text) getAny = some (getAny, ⟨[], true, false⟩) ∧ getAny ≠ a := by
  exact ⟨by decide, rfl, by decide⟩

end Ipv6Address

end SeanetSim
