import SeanetSim.Network.Ipv6Address

/-!
# IPv6 addresses as text

`AsciiToIpv6Host` scans a text character by character into a buffer of sixteen bytes.  `Denotes` is
the notation that it is to read: eight groups of hexadecimal digits, or fewer with one `::` for the
groups left out.  A text that ends in a colon after a group is read as if the colon were not there.
-/

namespace SeanetSim

namespace Ipv6Text

def xdigitsL : List Char :=
  ['0', '1', '2', '3', '4', '5', '6', '7', '8', '9', 'a', 'b', 'c', 'd', 'e', 'f']

def xdigitsU : List Char :=
  ['0', '1', '2', '3', '4', '5', '6', '7', '8', '9', 'A', 'B', 'C', 'D', 'E', 'F']

/-- `pch - xdigits`, where `strchr` finds the character. -/
def xdigit (ch : Char) : Option ℕ := (xdigitsL.idxOf? ch).or (xdigitsU.idxOf? ch)

/-- The local variables: `tp` and `colonp` are offsets in the buffer `tmp`, and `val` holds five
digits at most. -/
structure ScanState where
  tmp : List UInt8
  tp : ℕ
  colonp : Option ℕ
  seenXdigits : ℕ
  val : ℕ

/-- `memset (tp, 0x00, 16)`. -/
def start : ScanState := ⟨List.replicate 16 0, 0, none, 0, 0⟩

/-- A write into a buffer of sixteen bytes; `none` where it is out of bounds. -/
def writeByte (tmp : List UInt8) (i : ℕ) (b : UInt8) : Option (List UInt8) :=
  if i < 16 then some (tmp.set i b) else none

/-- The two bytes of a group; `some none` where `endp - tp < 2` and the text is refused. -/
def putGroup (s : ScanState) : Option (Option ScanState) :=
  if 16 < s.tp + 2 then some none
  else
    (writeByte s.tmp s.tp (UInt8.ofNat (s.val >>> 8))).bind fun tmp =>
      (writeByte tmp (s.tp + 1) (UInt8.ofNat s.val)).map fun tmp =>
        some { s with tmp, tp := s.tp + 2 }

/-- The loop over the text; `none` where a write is out of bounds, `some none` where the text is
refused. -/
def scan : List Char → ScanState → Option (Option ScanState)
  | [], s => some (some s)
  | ch :: address, s =>
    match xdigit ch with
    | some d =>
      if s.seenXdigits + 1 > 4 then some none
      else scan address { s with val := s.val <<< 4 ||| d, seenXdigits := s.seenXdigits + 1 }
    | none =>
      if ch = ':' then
        if s.seenXdigits = 0 then
          if s.colonp.isSome then some none else scan address { s with colonp := some s.tp }
        else
          (putGroup s).bind fun
            | none => some none
            | some s => scan address { s with seenXdigits := 0, val := 0 }
      else some none

attribute [grind =] scan

/-- The loop that moves the `n` bytes from `colonp` on to the end of the buffer, for as many turns
as are left. -/
def shiftLoop (colonp n : ℕ) : ℕ → List UInt8 → Option (List UInt8)
  | 0, tmp => some tmp
  | k + 1, tmp =>
    tmp[colonp + k]?.bind fun b =>
      (writeByte tmp (16 - (n - k)) b).bind fun tmp =>
        (writeByte tmp (colonp + k) 0).bind (shiftLoop colonp n k)

/-- What follows the loops: the last group, the shift and the length. -/
def finish (s : ScanState) : Option (Option (List UInt8)) :=
  (if s.seenXdigits ≠ 0 then putGroup s else some (some s)).bind fun
    | none => some none
    | some s =>
      match s.colonp with
      | some colonp =>
        if s.tp = 16 then some none
        else (shiftLoop colonp (s.tp - colonp) (s.tp - colonp) s.tmp).map some
      | none => if s.tp = 16 then some (some s.tmp) else some none

/-- The scan, after the leading colon is skipped. -/
def scanAddress (address : List Char) : Option (Option (List UInt8)) :=
  (scan address start).bind fun
    | none => some none
    | some s => finish s

/-- `memcpy (addr, tmp, 16)`, where the text is not refused. -/
def outcome (addr : Ipv6Address) : Option (List UInt8) → Bool × Ipv6Address
  | none => (false, addr)
  | some tmp => (true, Ipv6Address.deserialize tmp)

/-- `AsciiToIpv6Host`, on the characters before the terminating zero: the result and what the
buffer of the caller holds after it; `none` where an access is out of bounds. -/
def asciiToIpv6Host (address : List Char) (addr : Ipv6Address) : Option (Bool × Ipv6Address) :=
  (match address with
    | ':' :: ':' :: rest => scanAddress (':' :: rest)
    | ':' :: _ => some none
    | _ => scanAddress address).map (outcome addr)

/-! ### The notation -/

/-- One to four hexadecimal digits. -/
structure Group (g : List Char) : Prop where
  pos : g ≠ []
  short : g.length ≤ 4
  digits : ∀ c ∈ g, (xdigit c).isSome = true

def groupValue (g : List Char) : ℕ := g.foldl (fun v c => 16 * v + (xdigit c).getD 0) 0

def groupBytes (g : List Char) : List UInt8 :=
  [UInt8.ofNat (groupValue g / 256), UInt8.ofNat (groupValue g % 256)]

/-- The text of groups with single colons between them. -/
def joined (gs : List (List Char)) : List Char := [':'].intercalate gs

/-- The text stands for the bytes. -/
inductive Denotes : List Char → List UInt8 → Prop
  | full {gs : List (List Char)} (groups : ∀ g ∈ gs, Group g) (length : gs.length = 8) :
    Denotes (joined gs) (gs.flatMap groupBytes)
  | compressed {gs hs : List (List Char)} (left : ∀ g ∈ gs, Group g) (right : ∀ g ∈ hs, Group g)
      (length : gs.length + hs.length < 8) :
    Denotes (joined gs ++ ':' :: ':' :: joined hs)
      (gs.flatMap groupBytes ++ List.replicate (16 - 2 * (gs.length + hs.length)) 0 ++
        hs.flatMap groupBytes)

def EndsInDigit (text : List Char) : Prop :=
  ∃ init c, text = init ++ [c] ∧ (xdigit c).isSome = true

/-- A text form that ends in a group, with a colon after it. -/
def TrailingColon (address : List Char) : Prop :=
  ∃ text bytes, Denotes text bytes ∧ EndsInDigit text ∧ address = text ++ [':']

/-! ### What the scan has read -/

variable {g : List Char} {c : Char}

theorem xdigit_lt {c : Char} {d : ℕ} (h : xdigit c = some d) : d < 16 := by
  rw [xdigit, Option.or_eq_some_iff] at h
  rcases h with h | ⟨-, h⟩
  all_goals
    rw [List.idxOf?, List.findIdx?_eq_some_iff_findIdx_eq] at h
    exact h.1

theorem xdigit_colon : xdigit ':' = none := by decide

theorem groupValue_append (g : List Char) (c : Char) :
    groupValue (g ++ [c]) = 16 * groupValue g + (xdigit c).getD 0 := by
  rw [groupValue, List.foldl_append]
  rfl

theorem groupValue_shift {d : ℕ} (hd : xdigit c = some d) (g : List Char) :
    groupValue g <<< 4 ||| d = groupValue (g ++ [c]) := by
  rw [groupValue_append, hd, Option.getD_some, Nat.shiftLeft_eq,
    Nat.mul_comm, ← Nat.two_pow_add_eq_or_of_lt (xdigit_lt hd)]

theorem groupBytes_eq (g : List Char) : groupBytes g =
    [UInt8.ofNat (groupValue g >>> 8), UInt8.ofNat (groupValue g)] := by
  have hlow : UInt8.ofNat (groupValue g % 256) = UInt8.ofNat (groupValue g) := by
    apply UInt8.toNat_inj.1
    rw [UInt8.toNat_ofNat', UInt8.toNat_ofNat']
    exact Nat.mod_mod _ _
  rw [groupBytes, hlow, Nat.shiftRight_eq_div_pow]

/-- The groups before the gap and after it, where there is a gap, and the digits after the last
colon. -/
structure Parsed where
  left : List (List Char)
  right : Option (List (List Char))
  cur : List Char

namespace Parsed

def groups (p : Parsed) : List (List Char) := p.left ++ p.right.getD []

/-- The groups are well formed and fit the buffer. -/
structure Valid (p : Parsed) : Prop where
  groups : ∀ g ∈ p.groups, Group g
  short : p.cur.length ≤ 4
  digits : ∀ c ∈ p.cur, (xdigit c).isSome = true
  fits : p.groups.length ≤ 8

/-- Groups with a colon after each. -/
def terminated (gs : List (List Char)) : List Char := gs.flatMap (· ++ [':'])

def text (p : Parsed) : List Char :=
  terminated p.left ++ (p.right.elim [] fun hs => ':' :: terminated hs) ++ p.cur

def state (p : Parsed) : ScanState where
  tmp := p.groups.flatMap groupBytes ++ List.replicate (16 - 2 * p.groups.length) 0
  tp := 2 * p.groups.length
  colonp := p.right.map fun _ => 2 * p.left.length
  seenXdigits := p.cur.length
  val := groupValue p.cur

/-- The digits become a group. -/
def close (p : Parsed) : Parsed :=
  match p.right with
  | none => ⟨p.left ++ [p.cur], none, []⟩
  | some hs => ⟨p.left, some (hs ++ [p.cur]), []⟩

variable {p : Parsed}

theorem groups_close (p : Parsed) : p.close.groups = p.groups ++ [p.cur] := by
  rcases p with ⟨left, _ | hs, cur⟩ <;> simp [close, groups]

theorem text_close (p : Parsed) : p.close.text = p.text ++ [':'] := by
  rcases p with ⟨left, _ | hs, cur⟩ <;> simp [close, text, terminated]

@[simp] theorem cur_close (p : Parsed) : p.close.cur = [] := by
  rcases p with ⟨left, _ | hs, cur⟩ <;> rfl

theorem seenXdigits_ne (hne : p.cur ≠ []) : p.state.seenXdigits ≠ 0 :=
  mt List.eq_nil_of_length_eq_zero hne

theorem Valid.group (h : p.Valid) (hne : p.cur ≠ []) : Group p.cur := ⟨hne, h.short, h.digits⟩

theorem Valid.close (h : p.Valid) (hne : p.cur ≠ []) (hfits : p.groups.length < 8) :
    p.close.Valid := by
  refine ⟨?_, by simp, by simp, ?_⟩
  · intro g hg
    rw [groups_close, List.mem_append, List.mem_singleton] at hg
    rcases hg with hg | rfl
    · exact h.groups g hg
    · exact h.group hne
  · rw [groups_close, List.length_append, List.length_singleton]
    exact hfits

@[simp] theorem length_flatMap_groupBytes (gs : List (List Char)) :
    (gs.flatMap groupBytes).length = 2 * gs.length := by
  rw [List.length_flatMap]
  simp [groupBytes]
  omega

/-- Two bytes that are written where the zeros start. -/
theorem set_set_zeros (l : List UInt8) (a b : UInt8) (n : ℕ) :
    ((l ++ List.replicate (n + 2) 0).set l.length a).set (l.length + 1) b =
      l ++ [a, b] ++ List.replicate n 0 := by
  simp [List.replicate_succ]

theorem putGroup_state (p : Parsed) (hfits : p.groups.length < 8) :
    putGroup p.state = some (some { p.close.state with
      seenXdigits := p.cur.length
      val := groupValue p.cur }) := by
  have hset := set_set_zeros (p.groups.flatMap groupBytes) (UInt8.ofNat (groupValue p.cur >>> 8))
    (UInt8.ofNat (groupValue p.cur)) (16 - 2 * (p.groups.length + 1))
  have hzeros : 16 - 2 * (p.groups.length + 1) + 2 = 16 - 2 * p.groups.length := by omega
  rw [hzeros, length_flatMap_groupBytes] at hset
  have hcolonp : (p.close.right.map fun _ => 2 * p.close.left.length) =
      p.right.map fun _ => 2 * p.left.length := by
    rcases p with ⟨left, _ | hs, cur⟩ <;> rfl
  rw [putGroup, if_neg (by simp only [state]; omega), writeByte,
    if_pos (by simp only [state]; omega), Option.bind_some, writeByte,
    if_pos (by simp only [state]; omega), Option.map_some]
  simp only [state, groups_close, hcolonp, hset, List.flatMap_append, List.flatMap_singleton,
    groupBytes_eq p.cur, List.length_append, List.length_singleton, Nat.mul_add]

theorem putGroup_full (p : Parsed) (hfull : p.groups.length = 8) :
    putGroup p.state = some none := by
  rw [putGroup, if_pos (by simp only [state]; omega)]

/-! ### The steps of the scan -/

/-- One more digit. -/
def digit (p : Parsed) (c : Char) : Parsed := { p with cur := p.cur ++ [c] }

/-- A second colon after the groups. -/
def gap (left : List (List Char)) : Parsed := ⟨left, some [], []⟩

theorem Valid.digit (h : p.Valid) (hc : (xdigit c).isSome = true) (hlt : p.cur.length < 4) :
    (p.digit c).Valid := by
  refine ⟨h.groups, ?_, ?_, h.fits⟩
  · rw [Parsed.digit, List.length_append, List.length_singleton]
    exact hlt
  · intro d hd
    rcases List.mem_append.1 hd with hd | hd
    · exact h.digits d hd
    · rwa [List.mem_singleton.1 hd]

theorem scan_digit (p : Parsed) (hc : (xdigit c).isSome = true) (hlt : p.cur.length < 4)
    (rest : List Char) : scan (c :: rest) p.state = scan rest (p.digit c).state := by
  obtain ⟨d, hd⟩ := Option.isSome_iff_exists.1 hc
  have hshort : ¬ p.state.seenXdigits + 1 > 4 := by
    simp only [state]
    omega
  rw [scan, hd]
  dsimp only
  rw [if_neg hshort]
  simp only [state, digit, groups, groupValue_shift hd, List.length_append, List.length_singleton]

theorem scan_fifth_digit (p : Parsed) (hc : (xdigit c).isSome = true) (hge : 4 ≤ p.cur.length)
    (rest : List Char) : scan (c :: rest) p.state = some none := by
  obtain ⟨d, hd⟩ := Option.isSome_iff_exists.1 hc
  rw [scan, hd]
  dsimp only
  rw [if_pos]
  simp only [state]
  omega

theorem scan_close (hne : p.cur ≠ []) (hfits : p.groups.length < 8) (rest : List Char) :
    scan (':' :: rest) p.state = scan rest p.close.state := by
  rw [scan, xdigit_colon]
  dsimp only
  rw [if_pos rfl, if_neg (seenXdigits_ne hne), putGroup_state p hfits]
  simp only [Option.bind_some, state, cur_close]
  rfl

theorem scan_ninth_group (hne : p.cur ≠ []) (hfull : p.groups.length = 8) (rest : List Char) :
    scan (':' :: rest) p.state = some none := by
  rw [scan, xdigit_colon]
  dsimp only
  rw [if_pos rfl, if_neg (seenXdigits_ne hne), putGroup_full p hfull]
  rfl

theorem scan_gap (left : List (List Char)) (rest : List Char) :
    scan (':' :: rest) (state ⟨left, none, []⟩) = scan rest (gap left).state := by
  rw [scan, xdigit_colon]
  simp [state, gap, groups]

theorem scan_second_gap (left hs : List (List Char)) (rest : List Char) :
    scan (':' :: rest) (state ⟨left, some hs, []⟩) = some none := by
  rw [scan, xdigit_colon]
  simp [state]

theorem scan_other (p : Parsed) (hc : xdigit c = none) (hcolon : c ≠ ':') (rest : List Char) :
    scan (c :: rest) p.state = some none := by
  rw [scan, hc]
  simp [hcolon]

/-- One character is refused or read. -/
theorem scan_cons (h : p.Valid) (c : Char) (rest : List Char) :
    scan (c :: rest) p.state = some none ∨
      ∃ q : Parsed, q.Valid ∧ q.text = p.text ++ [c] ∧
        scan (c :: rest) p.state = scan rest q.state := by
  by_cases hc : (xdigit c).isSome = true
  · by_cases hlt : p.cur.length < 4
    · refine Or.inr ⟨p.digit c, h.digit hc hlt, ?_, scan_digit p hc hlt rest⟩
      simp [text, digit]
    · exact Or.inl (scan_fifth_digit p hc (by omega) rest)
  by_cases hcolon : c = ':'
  · subst hcolon
    by_cases hne : p.cur = []
    · rcases p with ⟨left, _ | hs, cur⟩
      · obtain rfl : cur = [] := hne
        refine Or.inr ⟨gap left, ⟨?_, ?_, ?_, ?_⟩, ?_, scan_gap left rest⟩
        · simpa [gap, groups] using h.groups
        · simp [gap]
        · simp [gap]
        · simpa [gap, groups] using h.fits
        · simp [gap, text, terminated]
      · obtain rfl : cur = [] := hne
        exact Or.inl (scan_second_gap left hs rest)
    · by_cases hfits : p.groups.length < 8
      · exact Or.inr ⟨p.close, h.close hne hfits, text_close p, scan_close hne hfits rest⟩
      · exact Or.inl (scan_ninth_group hne (Nat.le_antisymm h.fits (Nat.not_lt.1 hfits)) rest)
  · exact Or.inl (scan_other p (by simpa using hc) hcolon rest)

/-- The whole text is refused or read. -/
theorem scan_sound (h : p.Valid) (address : List Char) :
    scan address p.state = some none ∨
      ∃ q : Parsed, q.Valid ∧ q.text = p.text ++ address ∧
        scan address p.state = some (some q.state) := by
  induction address generalizing p with
  | nil => exact Or.inr ⟨p, h, by simp, rfl⟩
  | cons c address ih =>
    rcases scan_cons h c address with hnone | ⟨q, hq, htext, hscan⟩
    · exact Or.inl hnone
    · rw [hscan]
      rcases ih hq with hnone | ⟨r, hr, htext', hscan'⟩
      · exact Or.inl hnone
      · exact Or.inr ⟨r, hr, by simp [htext', htext], hscan'⟩

/-- The text is read, whatever follows it. -/
def Read (p : Parsed) : Prop := ∀ rest, scan (p.text ++ rest) start = scan rest p.state

theorem Read.digits {left : List (List Char)} {right : Option (List (List Char))}
    (hread : Read ⟨left, right, []⟩) {cur : List Char} (hshort : cur.length ≤ 4)
    (hdigits : ∀ c ∈ cur, (xdigit c).isSome = true) : Read ⟨left, right, cur⟩ := by
  induction cur using List.reverseRecOn with
  | nil => exact hread
  | append_singleton cur c ih =>
    rw [List.length_append, List.length_singleton] at hshort
    have hprefix := ih (by omega) fun d hd => hdigits d (List.mem_append_left _ hd)
    intro rest
    have htext : text ⟨left, right, cur ++ [c]⟩ ++ rest = text ⟨left, right, cur⟩ ++ c :: rest := by
      simp [text]
    rw [htext, hprefix]
    exact scan_digit _ (hdigits c (by simp)) (by dsimp only; omega) rest

/-- The groups before the last one, which is read digit by digit. -/
theorem Read.close (hread : Read { p with cur := [] }) (hcur : Group p.cur)
    (hfits : p.groups.length < 8) : p.close.Read := by
  have hdigits : Read p := hread.digits hcur.short hcur.digits
  intro rest
  rw [text_close, List.append_assoc, List.singleton_append, hdigits,
    scan_close hcur.pos hfits]

theorem read_left {left : List (List Char)} (h : ∀ g ∈ left, Group g) (hfits : left.length ≤ 8) :
    Read ⟨left, none, []⟩ := by
  induction left using List.reverseRecOn with
  | nil => exact fun rest => rfl
  | append_singleton left g ih =>
    rw [List.length_append, List.length_singleton] at hfits
    have hread := ih (fun g hg => h g (List.mem_append_left _ hg)) (by omega)
    exact Read.close (p := ⟨left, none, g⟩) hread (h g (by simp))
      (by simp only [groups, Option.getD_none, List.append_nil]; omega)

theorem read_right {left hs : List (List Char)} (h : ∀ g ∈ left ++ hs, Group g)
    (hfits : (left ++ hs).length ≤ 8) : Read ⟨left, some hs, []⟩ := by
  induction hs using List.reverseRecOn with
  | nil =>
    rw [List.append_nil] at h hfits
    intro rest
    have htext : text ⟨left, some [], []⟩ ++ rest = text ⟨left, none, []⟩ ++ ':' :: rest := by
      simp [text, terminated]
    rw [htext, read_left h hfits]
    exact scan_gap left rest
  | append_singleton hs g ih =>
    rw [← List.append_assoc, List.length_append, List.length_singleton] at hfits
    have hread := ih (fun g hg => h g (by
      rw [← List.append_assoc]
      exact List.mem_append_left _ hg)) (by omega)
    exact Read.close (p := ⟨left, some hs, g⟩) hread (h g (by simp)) hfits

/-- Every text of valid groups is read. -/
theorem Valid.read (h : p.Valid) : p.Read := by
  rcases p with ⟨left, _ | hs, cur⟩
  · apply Read.digits (read_left _ _) h.short h.digits
    · simpa [Parsed.groups] using h.groups
    · simpa [Parsed.groups] using h.fits
  · exact Read.digits (read_right h.groups h.fits) h.short h.digits

/-! ### The end of the text -/

theorem set_length_append (l r : List UInt8) (a b : UInt8) :
    (l ++ a :: r).set l.length b = l ++ b :: r := by simp

/-- The shift moves the last bytes behind the zeros. -/
theorem shiftLoop_eq {l r d : List UInt8} {z n : ℕ}
    (hlen : l.length + r.length + (z + 1) + d.length = 16) (hn : n = r.length + d.length) :
    shiftLoop l.length n r.length (l ++ r ++ List.replicate (z + 1) 0 ++ d) =
      some (l ++ List.replicate (z + 1) 0 ++ r ++ d) := by
  induction r using List.reverseRecOn generalizing d with
  | nil => simp [shiftLoop]
  | append_singleton r b ih =>
    rw [List.length_append, List.length_singleton] at hlen hn ⊢
    have hread : (l ++ (r ++ [b]) ++ List.replicate (z + 1) 0 ++ d)[l.length + r.length]? =
        some b := by simp
    have hzeros : l ++ (r ++ [b]) ++ List.replicate (z + 1) 0 ++ d =
        (l ++ r ++ b :: List.replicate z 0) ++ 0 :: d := by
      simp [List.replicate_succ']
    have hlast : 16 - (n - r.length) = (l ++ r ++ b :: List.replicate z 0).length := by
      simp
      omega
    have hfirst : l.length + r.length = (l ++ r).length := by simp
    have hmoved : (l ++ r ++ b :: List.replicate z 0) ++ b :: d =
        (l ++ r) ++ b :: (List.replicate z 0 ++ b :: d) := by simp
    have hcleared : (l ++ r) ++ 0 :: (List.replicate z 0 ++ b :: d) =
        l ++ r ++ List.replicate (z + 1) 0 ++ b :: d := by simp [List.replicate_succ]
    rw [shiftLoop, hread, Option.bind_some, writeByte, if_pos (by omega), Option.bind_some,
      writeByte, if_pos (by omega), Option.bind_some, hzeros, hlast, set_length_append, hmoved,
      hfirst, set_length_append, hcleared, ih (by simp; omega) (by simp; omega)]
    simp

/-- The bytes of a text that has been read to its end in a group or a gap. -/
def bytes (p : Parsed) : List UInt8 :=
  p.left.flatMap groupBytes ++ List.replicate (16 - 2 * p.groups.length) 0 ++
    (p.right.getD []).flatMap groupBytes

/-- The length is right: eight groups, or fewer and a gap. -/
def Complete (p : Parsed) : Prop :=
  match p.right with
  | none => p.groups.length = 8
  | some _ => p.groups.length < 8

theorem finish_of_left (left : List (List Char)) :
    finish (state ⟨left, none, []⟩) =
      if left.length = 8 then some (some (bytes ⟨left, none, []⟩)) else some none := by
  by_cases hlen : left.length = 8
  · simp [finish, state, groups, bytes, hlen]
  · have hne : 2 * left.length ≠ 16 := by omega
    simp [finish, state, groups, hlen, hne]

theorem finish_of_right {left hs : List (List Char)} (hfits : (left ++ hs).length ≤ 8) :
    finish (state ⟨left, some hs, []⟩) =
      if (left ++ hs).length < 8 then some (some (bytes ⟨left, some hs, []⟩)) else some none := by
  rw [List.length_append] at hfits ⊢
  by_cases hlen : left.length + hs.length < 8
  · obtain ⟨z, hz⟩ : ∃ z, 16 - 2 * (left.length + hs.length) = z + 1 :=
      ⟨15 - 2 * (left.length + hs.length), by omega⟩
    have hshift := shiftLoop_eq (l := left.flatMap groupBytes) (r := hs.flatMap groupBytes)
      (d := []) (z := z) (n := 2 * hs.length)
      (by
        rw [length_flatMap_groupBytes, length_flatMap_groupBytes, List.length_nil]
        omega)
      (by rw [length_flatMap_groupBytes, List.length_nil, Nat.add_zero])
    simp only [length_flatMap_groupBytes, List.append_nil, List.append_assoc, ← hz] at hshift
    have hne : 2 * (left.length + hs.length) ≠ 16 := by omega
    have hmoved : 2 * (left.length + hs.length) - 2 * left.length = 2 * hs.length := by omega
    simp [finish, state, groups, bytes, hlen, hne, hmoved, hshift]
  · have heq : 2 * (left.length + hs.length) = 16 := by omega
    simp [finish, state, groups, hlen, heq]

theorem finish_of_cur_nil (h : p.Valid) (hcur : p.cur = []) :
    (p.Complete → finish p.state = some (some p.bytes)) ∧
      (¬ p.Complete → finish p.state = some none) := by
  rcases p with ⟨left, _ | hs, cur⟩
  · obtain rfl : cur = [] := hcur
    rw [finish_of_left]
    exact ⟨fun hc => if_pos (by simpa [Complete, groups] using hc),
      fun hc => if_neg (by simpa [Complete, groups] using hc)⟩
  · obtain rfl : cur = [] := hcur
    have hfits : (left ++ hs).length ≤ 8 := h.fits
    rw [finish_of_right hfits]
    exact ⟨fun hc => if_pos hc, fun hc => if_neg hc⟩

/-- A last group is closed first. -/
theorem finish_of_cur (hne : p.cur ≠ []) (hfits : p.groups.length < 8) :
    finish p.state = finish p.close.state := by
  have hseen : p.close.state.seenXdigits = 0 := congrArg List.length (cur_close p)
  rw [finish, finish, if_pos (seenXdigits_ne hne), hseen, putGroup_state p hfits]
  simp

theorem finish_ninth (hne : p.cur ≠ []) (hfull : p.groups.length = 8) :
    finish p.state = some none := by
  rw [finish, if_pos (seenXdigits_ne hne), putGroup_full p hfull]
  rfl

/-! ### The texts -/

/-- The text before the scan skips the first of two leading colons. -/
def address (p : Parsed) : List Char :=
  (if p.left = [] ∧ p.right.isSome = true then [':'] else []) ++ p.text

/-- The text form of the groups, where all are closed. -/
def form (p : Parsed) : List Char :=
  joined p.left ++ p.right.elim [] fun hs => ':' :: ':' :: joined hs

@[simp] theorem joined_nil : joined [] = [] := rfl

theorem joined_cons (g : List Char) {gs : List (List Char)} (hne : gs ≠ []) :
    joined (g :: gs) = g ++ ':' :: joined gs := by
  obtain ⟨h, gs, rfl⟩ := List.exists_cons_of_ne_nil hne
  simp [joined, List.intercalate]

theorem joined_append (gs : List (List Char)) (g : List Char) :
    joined (gs ++ [g]) = terminated gs ++ g := by
  induction gs with
  | nil => simp [joined, terminated]
  | cons h gs ih =>
    rw [List.cons_append, joined_cons h (by simp), ih]
    simp [terminated]

theorem terminated_eq {gs : List (List Char)} (hne : gs ≠ []) :
    terminated gs = joined gs ++ [':'] := by
  rcases List.eq_nil_or_concat gs with rfl | ⟨l, g, rfl⟩
  · exact absurd rfl hne
  · rw [List.concat_eq_append, joined_append]
    simp [terminated]

/-- Up to the gap the address is that of the text form. -/
theorem address_of_right (left hs : List (List Char)) (cur : List Char) :
    address ⟨left, some hs, cur⟩ = joined left ++ ':' :: ':' :: (terminated hs ++ cur) := by
  by_cases hleft : left = []
  · subst hleft
    simp [address, text, terminated]
  · simp [address, text, hleft, terminated_eq hleft]

theorem address_of_left (left : List (List Char)) (cur : List Char) :
    address ⟨left, none, cur⟩ = terminated left ++ cur := by simp [address, text]

theorem address_close (p : Parsed) : p.address = p.close.form := by
  rcases p with ⟨left, _ | hs, cur⟩
  · rw [address_of_left]
    simp [close, form, joined_append]
  · rw [address_of_right]
    simp [close, form, joined_append]

/-- With no digits left the address ends in a colon after the text form, or in the gap. -/
theorem address_of_cur_nil (h : p.Complete) (hcur : p.cur = []) :
    (p.right.getD p.left ≠ [] ∧ p.address = p.form ++ [':']) ∨
      (p.right = some [] ∧ p.address = p.form) := by
  rcases p with ⟨left, _ | hs, cur⟩
  · obtain rfl : cur = [] := hcur
    have hne : left ≠ [] := by
      rintro rfl
      simp [Complete, groups] at h
    left
    rw [address_of_left, terminated_eq hne]
    simp [form, hne]
  · obtain rfl : cur = [] := hcur
    by_cases hs0 : hs = []
    · subst hs0
      right
      rw [address_of_right]
      simp [form, terminated]
    · left
      rw [address_of_right, terminated_eq hs0]
      simp [form, hs0]

theorem endsInDigit_joined {gs : List (List Char)} (h : ∀ g ∈ gs, Group g) (hne : gs ≠ [])
    (front : List Char) : EndsInDigit (front ++ joined gs) := by
  rcases List.eq_nil_or_concat gs with rfl | ⟨l, g, rfl⟩
  · exact absurd rfl hne
  · have hg := h g (by simp)
    rcases List.eq_nil_or_concat g with rfl | ⟨init, c, rfl⟩
    · exact absurd rfl hg.pos
    · refine ⟨front ++ (terminated l ++ init), c, ?_, hg.digits c (by simp)⟩
      rw [List.concat_eq_append, List.concat_eq_append, joined_append]
      simp

theorem not_endsInDigit_colon (front : List Char) : ¬ EndsInDigit (front ++ [':']) := by
  rintro ⟨init, c, heq, hc⟩
  obtain ⟨-, rfl⟩ := List.append_inj' heq rfl |>.imp_right List.singleton_inj.1
  simp [xdigit_colon] at hc

theorem form_endsInDigit (h : p.Valid) (hne : p.right.getD p.left ≠ []) : EndsInDigit p.form := by
  rcases p with ⟨left, _ | hs, cur⟩
  · rw [form, Option.elim_none, List.append_nil]
    exact endsInDigit_joined (fun g hg => h.groups g (List.mem_append_left _ hg)) hne []
  · have hform : form ⟨left, some hs, cur⟩ = (joined left ++ [':', ':']) ++ joined hs := by
      simp [form]
    rw [hform]
    exact endsInDigit_joined (fun g hg => h.groups g (List.mem_append_right _ hg)) hne _

theorem denotes_form (h : p.Valid) (hc : p.Complete) : Denotes p.form p.bytes := by
  rcases p with ⟨left, _ | hs, cur⟩
  · have hlen : left.length = 8 := by simpa [Complete, groups] using hc
    have hbytes : bytes ⟨left, none, cur⟩ = left.flatMap groupBytes := by
      simp [bytes, groups, hlen]
    rw [hbytes, form, Option.elim_none, List.append_nil]
    exact Denotes.full (fun g hg => h.groups g (List.mem_append_left _ hg)) hlen
  · have hlen : left.length + hs.length < 8 := by simpa [Complete, groups] using hc
    have hbytes : bytes ⟨left, some hs, cur⟩ = left.flatMap groupBytes ++
        List.replicate (16 - 2 * (left.length + hs.length)) 0 ++ hs.flatMap groupBytes := by
      simp [bytes, groups]
    rw [hbytes, form, Option.elim_some]
    exact Denotes.compressed (fun g hg => h.groups g (List.mem_append_left _ hg))
      (fun g hg => h.groups g (List.mem_append_right _ hg)) hlen

/-- Every text form is that of closed groups. -/
theorem exists_form {text : List Char} {b : List UInt8} (h : Denotes text b) :
    ∃ p : Parsed, p.Valid ∧ p.cur = [] ∧ p.Complete ∧ p.form = text ∧ p.bytes = b := by
  cases h with
  | @full gs groups length =>
    refine ⟨⟨gs, none, []⟩, ⟨?_, by simp, by simp, ?_⟩, rfl, ?_, by simp [form], ?_⟩
    · simpa [Parsed.groups] using groups
    · simp [Parsed.groups, length]
    · simp [Complete, Parsed.groups, length]
    · simp [bytes, Parsed.groups, length]
  | @compressed gs hs left right length =>
    refine ⟨⟨gs, some hs, []⟩, ⟨?_, by simp, by simp, ?_⟩, rfl, ?_, by simp [form], ?_⟩
    · simpa [Parsed.groups, or_imp, forall_and] using ⟨left, right⟩
    · simp [Parsed.groups]
      omega
    · simpa [Complete, Parsed.groups] using length
    · simp [bytes, Parsed.groups]

/-- The last group of the form, read but not closed. -/
theorem exists_close (h : p.Valid) (hcur : p.cur = []) (hne : p.right.getD p.left ≠ []) :
    ∃ q : Parsed, q.Valid ∧ q.cur ≠ [] ∧ q.groups.length < 8 ∧ q.close = p := by
  rcases p with ⟨left, _ | hs, cur⟩
  · obtain rfl : cur = [] := hcur
    rcases List.eq_nil_or_concat left with rfl | ⟨l, g, rfl⟩
    · exact absurd rfl hne
    · have hg : Group g := h.groups g (by simp [groups])
      have hfits := h.fits
      simp only [groups, List.concat_eq_append, Option.getD_none, List.append_nil,
        List.length_append, List.length_singleton] at hfits
      refine ⟨⟨l, none, g⟩, ⟨fun k hk => h.groups k ?_, hg.short, hg.digits, ?_⟩, hg.pos, ?_, ?_⟩
      · simp only [groups, Option.getD_none, List.append_nil] at hk
        simp [groups, hk]
      · simp only [groups, Option.getD_none, List.append_nil]
        omega
      · simp only [groups, Option.getD_none, List.append_nil]
        omega
      · simp [close]
  · obtain rfl : cur = [] := hcur
    rcases List.eq_nil_or_concat hs with rfl | ⟨l, g, rfl⟩
    · exact absurd rfl hne
    · have hg : Group g := h.groups g (by simp [groups])
      have hfits := h.fits
      simp only [groups, List.concat_eq_append, Option.getD_some, List.length_append,
        List.length_singleton] at hfits
      refine ⟨⟨left, some l, g⟩, ⟨fun k hk => h.groups k ?_, hg.short, hg.digits, ?_⟩, hg.pos, ?_,
        ?_⟩
      · simp only [groups, Option.getD_some, List.mem_append] at hk
        rcases hk with hk | hk <;> simp [groups, hk]
      · simp only [groups, Option.getD_some, List.length_append]
        omega
      · simp only [groups, Option.getD_some, List.length_append]
        omega
      · simp [close]

/-- What follows the scan refuses the text, or reads the form or the form with a colon. -/
theorem finish_sound (h : p.Valid) : finish p.state = some none ∨
    ∃ b, finish p.state = some (some b) ∧ (Denotes p.address b ∨ TrailingColon p.address) := by
  by_cases hcur : p.cur = []
  · obtain ⟨hyes, hno⟩ := finish_of_cur_nil h hcur
    by_cases hc : p.Complete
    · refine Or.inr ⟨p.bytes, hyes hc, ?_⟩
      rcases address_of_cur_nil hc hcur with ⟨hne, haddress⟩ | ⟨-, haddress⟩
      · exact Or.inr ⟨p.form, p.bytes, denotes_form h hc, form_endsInDigit h hne, haddress⟩
      · rw [haddress]
        exact Or.inl (denotes_form h hc)
    · exact Or.inl (hno hc)
  · by_cases hfits : p.groups.length < 8
    · have hclose := h.close hcur hfits
      obtain ⟨hyes, hno⟩ := finish_of_cur_nil hclose (cur_close p)
      rw [finish_of_cur hcur hfits, address_close]
      by_cases hc : p.close.Complete
      · exact Or.inr ⟨_, hyes hc, Or.inl (denotes_form hclose hc)⟩
      · exact Or.inl (hno hc)
    · exact Or.inl (finish_ninth hcur (Nat.le_antisymm h.fits (Nat.not_lt.1 hfits)))

/-- Every text form is read to the bytes that it denotes. -/
theorem exists_of_denotes {text : List Char} {b : List UInt8} (h : Denotes text b) :
    ∃ p : Parsed, p.Valid ∧ p.address = text ∧ finish p.state = some (some b) := by
  obtain ⟨p, hp, hcur, hc, rfl, rfl⟩ := exists_form h
  by_cases hne : p.right.getD p.left = []
  · rcases address_of_cur_nil hc hcur with ⟨hne', -⟩ | ⟨-, haddress⟩
    · exact absurd hne hne'
    · exact ⟨p, hp, haddress, (finish_of_cur_nil hp hcur).1 hc⟩
  · obtain ⟨q, hq, hqcur, hfits, rfl⟩ := exists_close hp hcur hne
    refine ⟨q, hq, address_close q, ?_⟩
    rw [finish_of_cur hqcur hfits]
    exact (finish_of_cur_nil hp hcur).1 hc

theorem exists_of_trailingColon {text : List Char} (h : TrailingColon text) :
    ∃ p : Parsed, p.Valid ∧ p.address = text ∧ ∃ b, finish p.state = some (some b) := by
  obtain ⟨form, b, hdenotes, hdigit, rfl⟩ := h
  obtain ⟨p, hp, hcur, hc, rfl, rfl⟩ := exists_form hdenotes
  refine ⟨p, hp, ?_, p.bytes, (finish_of_cur_nil hp hcur).1 hc⟩
  rcases address_of_cur_nil hc hcur with ⟨-, haddress⟩ | ⟨hright, -⟩
  · exact haddress
  · have hform : p.form = (joined p.left ++ [':']) ++ [':'] := by simp [form, hright]
    rw [hform] at hdigit
    exact absurd hdigit (not_endsInDigit_colon _)

/-! ### The leading colons -/

/-- Only the text that starts in the gap starts with a colon. -/
theorem text_head (h : p.Valid) (hstart : ¬ (p.left = [] ∧ p.right.isSome = true))
    (rest : List Char) : p.text ≠ ':' :: rest := by
  intro heq
  have hdigit : ∀ g : List Char, Group g → ∀ tail, g ++ tail ≠ ':' :: rest := by
    intro g hg tail heq
    obtain ⟨c, g, rfl⟩ := List.exists_cons_of_ne_nil hg.pos
    obtain ⟨rfl, -⟩ := List.cons.inj heq
    simpa [xdigit_colon] using hg.digits ':' (by simp)
  rcases p with ⟨_ | ⟨g, left⟩, right, cur⟩
  · cases right with
    | none =>
      cases cur with
      | nil => simp [text, terminated] at heq
      | cons c cur =>
        exact hdigit _ (h.group (by simp)) [] (by simpa [text, terminated] using heq)
    | some hs => simp at hstart
  · apply hdigit g (h.groups g (by simp [groups]))
    rw [← heq]
    simp [text, terminated]
    rfl

theorem scanAddress_text (h : p.Valid) : scanAddress p.text = finish p.state := by
  have hread := h.read []
  rw [List.append_nil] at hread
  rw [scanAddress, hread]
  rfl

end Parsed

open Parsed

variable {p : Parsed} {address : List Char} {b : List UInt8}

theorem asciiToIpv6Host_address (h : p.Valid) (addr : Ipv6Address) :
    asciiToIpv6Host p.address addr = (finish p.state).map (outcome addr) := by
  by_cases hstart : p.left = [] ∧ p.right.isSome = true
  · obtain ⟨hs, hright⟩ := Option.isSome_iff_exists.1 hstart.2
    have htext : p.text = ':' :: (terminated hs ++ p.cur) := by
      simp [text, hstart.1, hright, terminated]
    rw [← scanAddress_text h, Parsed.address, if_pos hstart, htext]
    rfl
  · have hhead := text_head h hstart
    rw [← scanAddress_text h, Parsed.address, if_neg hstart, List.nil_append,
      asciiToIpv6Host.eq_def]
    split
    · exact absurd ‹_› (hhead _)
    · exact absurd ‹_› (hhead _)
    · rfl

/-- The address is refused, or it is that of groups that the scan reads. -/
theorem asciiToIpv6Host_sound (address : List Char) (addr : Ipv6Address) :
    asciiToIpv6Host address addr = some (false, addr) ∨
      ∃ p : Parsed, p.Valid ∧ p.address = address := by
  have hstart : Parsed.Valid ⟨[], none, []⟩ :=
    ⟨by simp [groups], by simp, by simp, by simp [groups]⟩
  have hscan : ∀ text : List Char, scanAddress text = some none ∨
      ∃ p : Parsed, p.Valid ∧ p.text = text := by
    intro text
    rcases scan_sound hstart text with hnone | ⟨q, hq, htext, -⟩
    · left
      change scan text start = some none at hnone
      rw [scanAddress, hnone]
      rfl
    · exact Or.inr ⟨q, hq, by simpa [Parsed.text, terminated] using htext⟩
  rw [asciiToIpv6Host.eq_def]
  split
  · rename_i rest
    rcases hscan (':' :: rest) with hnone | ⟨p, hp, htext⟩
    · left
      rw [hnone]
      rfl
    · right
      refine ⟨p, hp, ?_⟩
      by_cases hgap : p.left = [] ∧ p.right.isSome = true
      · rw [Parsed.address, if_pos hgap, htext]
        rfl
      · exact absurd htext (text_head hp hgap rest)
  · exact Or.inl rfl
  · rename_i hne hne'
    rcases hscan address with hnone | ⟨p, hp, rfl⟩
    · left
      rw [hnone]
      rfl
    · right
      refine ⟨p, hp, ?_⟩
      by_cases hgap : p.left = [] ∧ p.right.isSome = true
      · obtain ⟨hs, hright⟩ := Option.isSome_iff_exists.1 hgap.2
        refine absurd ?_ (hne' (terminated hs ++ p.cur))
        simp [text, hgap.1, hright, terminated]
      · rw [Parsed.address, if_neg hgap, List.nil_append]

/-! ### The parser -/

theorem length_of_denotes (h : Denotes address b) : b.length = 16 := by
  cases h with
  | full groups length => rw [length_flatMap_groupBytes, length]
  | compressed left right length =>
    rw [List.length_append, List.length_append, length_flatMap_groupBytes, List.length_replicate,
      length_flatMap_groupBytes]
    omega

theorem serialize_deserialize (h : b.length = 16) : (Ipv6Address.deserialize b).serialize = b := by
  apply List.ext_getElem
  · rw [Ipv6Address.length_serialize, h]
  · intro i h₁ h₂
    simp [Ipv6Address.serialize, Ipv6Address.deserialize, h₂]

theorem asciiToIpv6Host_of_denotes (h : Denotes address b) (addr : Ipv6Address) :
    asciiToIpv6Host address addr = some (true, Ipv6Address.deserialize b) := by
  obtain ⟨p, hp, rfl, hfinish⟩ := exists_of_denotes h
  rw [asciiToIpv6Host_address hp, hfinish]
  rfl

theorem not_denotes_of_trailingColon (h : TrailingColon address) : ¬ Denotes address b := by
  obtain ⟨text, -, -, hdigit, rfl⟩ := h
  intro hdenotes
  obtain ⟨p, hp, hcur, hc, hform, -⟩ := exists_form hdenotes
  rcases address_of_cur_nil hc hcur with ⟨hne, -⟩ | ⟨hright, -⟩
  · have hend := form_endsInDigit hp hne
    rw [hform] at hend
    exact not_endsInDigit_colon _ hend
  · have hgap : p.form = (joined p.left ++ [':']) ++ [':'] := by simp [form, hright]
    rw [hform] at hgap
    rw [List.append_cancel_right hgap] at hdigit
    exact not_endsInDigit_colon _ hdigit

/-- The parser accepts the text forms and nothing else, stores the bytes that they denote, stays in
its buffer and leaves the output alone where it refuses, but for a text form with one more colon
after its last group. -/
theorem asciiToIpv6Host_correct_iff (address : List Char) (addr : Ipv6Address) :
    (∃ result out, asciiToIpv6Host address addr = some (result, out) ∧
        (result = true ↔ ∃ bytes, Denotes address bytes) ∧
        (result = true → Denotes address out.serialize) ∧ (result = false → out = addr)) ↔
      ¬ TrailingColon address := by
  constructor
  · rintro ⟨result, out, hrun, hiff, -, -⟩ htrailing
    obtain ⟨p, hp, rfl, b, hfinish⟩ := exists_of_trailingColon htrailing
    rw [asciiToIpv6Host_address hp, hfinish] at hrun
    have hresult : result = true := by
      simp only [Option.map_some, outcome, Option.some_inj, Prod.mk.injEq] at hrun
      exact hrun.1.symm
    obtain ⟨bytes, hbytes⟩ := hiff.1 hresult
    exact not_denotes_of_trailingColon htrailing hbytes
  · intro hnot
    by_cases hform : ∃ bytes, Denotes address bytes
    · obtain ⟨bytes, hbytes⟩ := hform
      refine ⟨true, _, asciiToIpv6Host_of_denotes hbytes addr, by simpa using ⟨bytes, hbytes⟩, ?_,
        by simp⟩
      rw [serialize_deserialize (length_of_denotes hbytes)]
      exact fun _ => hbytes
    · have hrefused : asciiToIpv6Host address addr = some (false, addr) := by
        rcases asciiToIpv6Host_sound address addr with hrefused | ⟨p, hp, rfl⟩
        · exact hrefused
        · rw [asciiToIpv6Host_address hp]
          rcases finish_sound hp with hnone | ⟨b, -, hb⟩
          · rw [hnone]
            rfl
          · rcases hb with hb | hb
            · exact absurd ⟨b, hb⟩ hform
            · exact absurd hb hnot
      exact ⟨false, addr, hrefused, by simpa using hform, by simp, by simp⟩

/-- `1:2:3:4:5:6:7:8:` is accepted, and is no text form. -/
theorem trailing_colon_accepted : ∃ out,
    asciiToIpv6Host ['1', ':', '2', ':', '3', ':', '4', ':', '5', ':', '6', ':', '7', ':', '8', ':']
      Ipv6Address.getAny = some (true, out) ∧
    ¬ ∃ bytes, Denotes
      ['1', ':', '2', ':', '3', ':', '4', ':', '5', ':', '6', ':', '7', ':', '8', ':'] bytes := by
  refine ⟨#v[0, 1, 0, 2, 0, 3, 0, 4, 0, 5, 0, 6, 0, 7, 0, 8], by decide, ?_⟩
  have hdigit : ∀ c ∈ ['1', '2', '3', '4', '5', '6', '7', '8'], (xdigit c).isSome = true :=
    List.all_eq_true.1 rfl
  have hgroups : ∀ g ∈ ['1', '2', '3', '4', '5', '6', '7', '8'].map ([·]), Group g := by
    intro g hg
    obtain ⟨c, hc, rfl⟩ := List.mem_map.1 hg
    exact ⟨by simp, by simp, by simpa using hdigit c hc⟩
  rintro ⟨bytes, hbytes⟩
  apply not_denotes_of_trailingColon _ hbytes
  exact ⟨_, _, Denotes.full hgroups rfl, ⟨['1', ':', '2', ':', '3', ':', '4', ':', '5', ':', '6',
    ':', '7', ':'], '8', rfl, by decide⟩, rfl⟩

end Ipv6Text

end SeanetSim
