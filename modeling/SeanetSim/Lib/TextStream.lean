import Mathlib.Algebra.Order.Ring.Int
import Mathlib.Data.Int.Notation
import Mathlib.Data.List.Basic
import Mathlib.Data.List.TakeWhile

/-!
# Text streams

Formatted input from text: lines, words between blanks, and numbers, with the flags of a stream.
`words` and `List.splitOn` say what a stream holds; each operation takes the first piece off
(`readWord_of_words`, `getline_of_lines`).
-/

namespace SeanetSim

namespace TextStream

def isSpace (c : Char) : Bool :=
  c == ' ' || c == '\t' || c == '\n' || c == '\x0b' || c == '\x0c' || c == '\r'

/-- The text that is not read yet, and the flags of its end and of a failure. -/
structure IStream where
  rest : List Char
  eof : Bool
  fail : Bool

namespace IStream

def ofText (text : List Char) : IStream := ⟨text, false, false⟩

def good (s : IStream) : Bool := !s.eof && !s.fail

/-- `getline (is, line)`, with the line as it was where the stream is not good. -/
def getline (s : IStream) (line : List Char) : List Char × IStream :=
  if s.good then
    let next := s.rest.takeWhile (· != '\n')
    match s.rest.dropWhile (· != '\n') with
    | [] => (next, ⟨[], true, next.isEmpty⟩)
    | _ :: rest => (next, ⟨rest, false, false⟩)
  else (line, { s with fail := true })

/-- `is >> word`, with the word as it was where there is none to read. -/
def readWord (s : IStream) (word : List Char) : List Char × IStream :=
  if s.good then
    match s.rest.dropWhile isSpace with
    | [] => (word, ⟨[], true, true⟩)
    | c :: text =>
      let rest := (c :: text).dropWhile fun c => !isSpace c
      ((c :: text).takeWhile fun c => !isSpace c, ⟨rest, rest.isEmpty, false⟩)
  else (word, { s with fail := true })

def decimal (digits : List Char) : ℕ := digits.foldl (fun n c => 10 * n + (c.toNat - 48)) 0

/-- `is >> i` for an `int`: a number out of range is replaced by the nearest one in range. -/
def readInt (s : IStream) (i : ℤ) : ℤ × IStream :=
  if s.good then
    match s.rest.dropWhile isSpace with
    | [] => (i, ⟨[], true, true⟩)
    | c :: text =>
      let body := if c == '-' || c == '+' then text else c :: text
      let digits := body.takeWhile Char.isDigit
      let rest := body.dropWhile Char.isDigit
      let value : ℤ := if c == '-' then -decimal digits else decimal digits
      if digits.isEmpty then (0, ⟨rest, rest.isEmpty, true⟩)
      else if 2 ^ 31 - 1 < value then (2 ^ 31 - 1, ⟨rest, rest.isEmpty, true⟩)
      else if value < -2 ^ 31 then (-2 ^ 31, ⟨rest, rest.isEmpty, true⟩)
      else (value, ⟨rest, rest.isEmpty, false⟩)
  else (i, { s with fail := true })

end IStream

/-- The first character that stays does not have the property. -/
theorem eq_false_of_dropWhile {p : Char → Bool} {text tail : List Char} {c : Char}
    (h : text.dropWhile p = c :: tail) : p c = false := by
  have hhead := List.head?_dropWhile_not p text
  rw [h] at hhead
  simpa using hhead

/-! ### Words -/

/-- The pieces between blanks. -/
def words (text : List Char) : List (List Char) := (text.splitOnP isSpace).filter (!·.isEmpty)

@[simp] theorem words_nil : words [] = [] := by simp [words]

theorem words_cons_space {c : Char} (h : isSpace c = true) (text : List Char) :
    words (c :: text) = words text := by
  simp [words, List.splitOnP_cons_eq_if_modifyHead, h]

theorem words_dropWhile (text : List Char) : words (text.dropWhile isSpace) = words text := by
  induction text with
  | nil => rfl
  | cons c text ih =>
    rw [List.dropWhile_cons]
    split
    · rename_i hc
      rw [ih, words_cons_space hc]
    · rfl

/-- The first word goes up to the first blank. -/
theorem words_of_not_space {c : Char} (h : isSpace c = false) (text : List Char) :
    words (c :: text) = (c :: text).takeWhile (fun c => !isSpace c) ::
      words ((c :: text).dropWhile fun c => !isSpace c) := by
  have hsplit := List.takeWhile_append_dropWhile (p := fun c => !isSpace c) (l := c :: text)
  have hword : ∀ x ∈ (c :: text).takeWhile (fun c => !isSpace c), isSpace x = false := by
    intro x hx
    simpa using List.mem_takeWhile_imp hx
  have hne : (c :: text).takeWhile (fun c => !isSpace c) ≠ [] := by simp [h]
  generalize (c :: text).takeWhile (fun c => !isSpace c) = word at *
  cases hrest : (c :: text).dropWhile (fun c => !isSpace c) with
  | nil =>
    rw [hrest, List.append_nil] at hsplit
    rw [← hsplit, words, List.splitOnP_eq_singleton hword]
    simp [hne]
  | cons d rest =>
    have hd : isSpace d = true := by simpa using eq_false_of_dropWhile hrest
    rw [hrest] at hsplit
    rw [← hsplit, words, List.splitOnP_append_cons_of_forall_mem hword d hd, words_cons_space hd,
      words]
    simp [hne]

theorem words_eq_singleton {text : List Char} (h : ∀ c ∈ text, isSpace c = false)
    (hne : text ≠ []) : words text = [text] := by
  rw [words, List.splitOnP_eq_singleton h]
  simp [hne]

theorem ne_nil_of_mem_words {text word : List Char} (h : word ∈ words text) : word ≠ [] := by
  have hmem := (List.mem_filter.1 h).2
  simpa using hmem

/-- What is left of a text that starts with a word. -/
theorem exists_of_words {text word : List Char} {ws : List (List Char)}
    (h : words text = word :: ws) : ∃ c tail, text.dropWhile isSpace = c :: tail ∧
      isSpace c = false ∧ word = (c :: tail).takeWhile (fun c => !isSpace c) ∧
      ws = words ((c :: tail).dropWhile fun c => !isSpace c) := by
  rw [← words_dropWhile] at h
  cases htext : text.dropWhile isSpace with
  | nil => simp [htext] at h
  | cons c tail =>
    have hc : isSpace c = false := eq_false_of_dropWhile htext
    rw [htext, words_of_not_space hc] at h
    exact ⟨c, tail, rfl, hc, (List.cons.inj h).1.symm, (List.cons.inj h).2.symm⟩

theorem dropWhile_of_words_nil {text : List Char} (h : words text = []) :
    text.dropWhile isSpace = [] := by
  cases htext : text.dropWhile isSpace with
  | nil => rfl
  | cons c tail =>
    have hc : isSpace c = false := eq_false_of_dropWhile htext
    rw [← words_dropWhile, htext, words_of_not_space hc] at h
    exact absurd h (List.cons_ne_nil _ _)

namespace IStream

/-- The words that can still be read. -/
def Holds (s : IStream) (ws : List (List Char)) : Prop :=
  (s.good = true ∧ words s.rest = ws) ∨ (s.good = false ∧ ws = [])

theorem holds_ofText (text : List Char) : (ofText text).Holds (words text) := Or.inl ⟨rfl, rfl⟩

theorem holds_rest (rest : List Char) : Holds ⟨rest, rest.isEmpty, false⟩ (words rest) := by
  cases rest with
  | nil => exact Or.inr ⟨rfl, rfl⟩
  | cons c rest => exact Or.inl ⟨rfl, rfl⟩

theorem readWord_of_words {s : IStream} {ws : List (List Char)} (h : s.Holds ws)
    (old : List Char) :
    (s.readWord old).1 = ws.headD old ∧ (s.readWord old).2.Holds ws.tail := by
  rcases h with ⟨hgood, hws⟩ | ⟨hgood, rfl⟩
  · cases ws with
    | nil =>
      simp only [readWord, hgood, dropWhile_of_words_nil hws, if_true]
      exact ⟨rfl, Or.inr ⟨rfl, rfl⟩⟩
    | cons w ws =>
      obtain ⟨c, tail, htext, -, rfl, rfl⟩ := exists_of_words hws
      simp only [readWord, hgood, htext, if_true]
      exact ⟨rfl, holds_rest _⟩
  · simp only [readWord, hgood]
    exact ⟨rfl, Or.inr ⟨by simp [good], rfl⟩⟩

/-- The lines that can still be read. -/
def HoldsLines (s : IStream) (ls : List (List Char)) : Prop :=
  (s.good = true ∧ s.rest.splitOn '\n' = ls) ∨ (s.eof = true ∧ ls = [])

theorem holdsLines_ofText (text : List Char) : (ofText text).HoldsLines (text.splitOn '\n') :=
  Or.inl ⟨rfl, rfl⟩

theorem eof_iff_of_lines {s : IStream} {ls : List (List Char)} (h : s.HoldsLines ls) :
    s.eof = true ↔ ls = [] := by
  rcases h with ⟨hgood, rfl⟩ | ⟨heof, rfl⟩
  · have hne := List.splitOn_ne_nil '\n' s.rest
    have heof : s.eof = false := by
      rw [good, Bool.and_eq_true, Bool.not_eq_true'] at hgood
      exact hgood.1
    simp [heof, hne]
  · simp [heof]

theorem getline_of_lines {s : IStream} {line : List Char} {ls : List (List Char)}
    (h : s.HoldsLines (line :: ls)) (old : List Char) :
    (s.getline old).1 = line ∧ (s.getline old).2.HoldsLines ls := by
  rcases h with ⟨hgood, hls⟩ | ⟨-, hnil⟩
  · have hsplit := List.takeWhile_append_dropWhile (p := (· != '\n')) (l := s.rest)
    have hline : ∀ x ∈ s.rest.takeWhile (· != '\n'), (x == '\n') = false := fun x hx => by
      simpa using List.mem_takeWhile_imp hx
    cases hrest : s.rest.dropWhile (· != '\n') with
    | nil =>
      rw [hrest, List.append_nil] at hsplit
      rw [← hsplit, List.splitOn_eq_splitOnP, List.splitOnP_eq_singleton hline] at hls
      simp only [getline, hgood, hrest, if_true]
      obtain ⟨rfl, rfl⟩ := List.cons.inj hls
      exact ⟨rfl, Or.inr ⟨rfl, rfl⟩⟩
    | cons d rest =>
      have hd : (d == '\n') = true := by simpa using eq_false_of_dropWhile hrest
      rw [hrest] at hsplit
      rw [← hsplit, List.splitOn_eq_splitOnP,
        List.splitOnP_append_cons_of_forall_mem hline d hd] at hls
      simp only [getline, hgood, hrest, if_true]
      obtain ⟨rfl, rfl⟩ := List.cons.inj hls
      exact ⟨rfl, Or.inl ⟨rfl, rfl⟩⟩
  · exact absurd hnil (List.cons_ne_nil _ _)

/-! ### Numbers -/

theorem not_isDigit_of_isSpace {c : Char} (h : isSpace c = true) : c.isDigit = false := by
  simp only [isSpace, Bool.or_eq_true, beq_iff_eq] at h
  rcases h with ((((rfl | rfl) | rfl) | rfl) | rfl) | rfl <;> rfl

/-- A word of digits is read as its value, or as the greatest `int` with a failure. -/
theorem readInt_of_words {s : IStream} {word : List Char} {ws : List (List Char)}
    (h : s.Holds (word :: ws)) (hdigits : ∀ c ∈ word, c.isDigit = true) (i : ℤ) :
    (decimal word < 2 ^ 31 → (s.readInt i).1 = decimal word ∧ (s.readInt i).2.Holds ws) ∧
      (2 ^ 31 ≤ decimal word → (s.readInt i).1 = 2 ^ 31 - 1 ∧ (s.readInt i).2.good = false) := by
  rcases h with ⟨hgood, hws⟩ | ⟨-, hnil⟩
  · obtain ⟨c, tail, htext, hc, hword, rfl⟩ := exists_of_words hws
    have hfirst : c ∈ word := by
      rw [hword, List.takeWhile_cons_of_pos (by simp [hc])]
      exact List.mem_cons_self
    have hminus : (c == '-') = false := by
      rw [beq_eq_false_iff_ne]
      rintro rfl
      exact absurd (hdigits _ hfirst) (by decide)
    have hplus : (c == '+') = false := by
      rw [beq_eq_false_iff_ne]
      rintro rfl
      exact absurd (hdigits _ hfirst) (by decide)
    have hsplit := List.takeWhile_append_dropWhile (p := fun c => !isSpace c) (l := c :: tail)
    rw [← hword] at hsplit
    have hstop : ∀ rest : List Char, rest = (c :: tail).dropWhile (fun c => !isSpace c) →
        rest.takeWhile Char.isDigit = [] ∧ rest.dropWhile Char.isDigit = rest := by
      rintro rest rfl
      cases hrest : (c :: tail).dropWhile (fun c => !isSpace c) with
      | nil => exact ⟨rfl, rfl⟩
      | cons d rest =>
        have hspace : isSpace d = true := by simpa using eq_false_of_dropWhile hrest
        have hd := not_isDigit_of_isSpace hspace
        exact ⟨List.takeWhile_cons_of_neg (by simp [hd]), List.dropWhile_cons_of_neg (by simp [hd])⟩
    have hdig : (c :: tail).takeWhile Char.isDigit = word := by
      rw [← hsplit, List.takeWhile_append_of_pos hdigits, (hstop _ rfl).1, List.append_nil]
    have hrest : (c :: tail).dropWhile Char.isDigit =
        (c :: tail).dropWhile fun c => !isSpace c := by
      conv_lhs => rw [← hsplit]
      rw [List.dropWhile_append_of_pos hdigits, (hstop _ rfl).2]
    have hne : word.isEmpty = false := by
      rw [List.isEmpty_eq_false_iff]
      exact List.ne_nil_of_mem hfirst
    generalize (c :: tail).dropWhile (fun c => !isSpace c) = rest at *
    have hread : s.readInt i = (if (2 ^ 31 - 1 : ℤ) < decimal word then
        ((2 ^ 31 - 1 : ℤ), (⟨rest, rest.isEmpty, true⟩ : IStream))
      else if (decimal word : ℤ) < -2 ^ 31 then (-2 ^ 31, ⟨rest, rest.isEmpty, true⟩)
      else ((decimal word : ℤ), ⟨rest, rest.isEmpty, false⟩)) := by
      simp only [readInt, hgood, htext, hminus, hplus, Bool.or_self, hdig, hrest, hne, if_true,
        if_false, Bool.false_eq_true]
    constructor
    · intro hlt
      rw [hread, if_neg (by omega), if_neg (by omega)]
      exact ⟨rfl, holds_rest _⟩
    · intro hge
      rw [hread, if_pos (by omega)]
      exact ⟨rfl, by simp [good]⟩
  · exact absurd hnil (List.cons_ne_nil _ _)

end IStream

end TextStream

end SeanetSim
