import Mathlib.Data.Set.Function
import SeanetSim.Lib.TextStream

/-!
# The Inet topology reader

The reader skips one line for each node and reads one link from each of the lines after them.  The
names of the nodes of a link live in variables of the whole function, and a line that holds no word
leaves them as they were, so that a short line repeats the link before it.
-/

namespace SeanetSim

open TextStream

/-- A link between two nodes; a null pointer is `none`. -/
structure TopologyLink where
  fromPtr : Option ℕ
  fromName : List Char
  toPtr : Option ℕ
  toName : List Char
  linkAttr : List (String × List Char)

namespace TopologyLink

def setAttribute (l : TopologyLink) (name : String) (value : List Char) : TopologyLink :=
  { l with linkAttr := (name, value) :: l.linkAttr.filter fun p => p.1 ≠ name }

def names (l : TopologyLink) : List Char × List Char := (l.fromName, l.toName)

end TopologyLink

/-- The variables of `InetTopologyReader::Read`, with the list of links of the reader and the number
of nodes that the simulation has created. -/
structure InetTopology where
  fromName : List Char
  toName : List Char
  linkAttr : List Char
  nodeMap : List Char → Option ℕ
  nodes : List ℕ
  created : ℕ
  links : List TopologyLink

namespace InetTopology

/-- `if (nodeMap[name] == 0)`, and the node that is created there. -/
def findNode (t : InetTopology) (name : List Char) : InetTopology :=
  match t.nodeMap name with
  | some _ => t
  | none =>
    { t with
      nodeMap := Function.update t.nodeMap name (some t.created)
      nodes := t.nodes ++ [t.created]
      created := t.created + 1 }

/-- The reads from the line buffer. -/
def readNames (t : InetTopology) (line : List Char) : InetTopology :=
  let (fromName, lineBuffer) := (IStream.ofText line).readWord t.fromName
  let (toName, lineBuffer) := lineBuffer.readWord t.toName
  let (linkAttr, _) := lineBuffer.readWord t.linkAttr
  { t with fromName, toName, linkAttr }

def addLink (t : InetTopology) : InetTopology :=
  if t.fromName ≠ [] ∧ t.toName ≠ [] then
    let t := (t.findNode t.fromName).findNode t.toName
    let link : TopologyLink :=
      ⟨t.nodeMap t.fromName, t.fromName, t.nodeMap t.toName, t.toName, []⟩
    let link := if t.linkAttr ≠ [] then link.setAttribute "Weight" t.linkAttr else link
    { t with links := t.links ++ [link] }
  else t

/-- One line of the link section. -/
def scan (t : InetTopology) (line : List Char) : InetTopology := (t.readNames line).addLink

end InetTopology

namespace InetTopologyReader

/-- The file, the line read last and the other variables. -/
structure State where
  topgen : IStream
  line : List Char
  topology : InetTopology

def nodeLoop : ℕ → State → State
  | 0, s => s
  | n + 1, s =>
    if s.topgen.eof then s
    else
      let (line, topgen) := s.topgen.getline s.line
      nodeLoop n { s with topgen, line }

def linkLoop : ℕ → State → State
  | 0, s => s
  | n + 1, s =>
    if s.topgen.eof then s
    else
      let (line, topgen) := s.topgen.getline s.line
      linkLoop n ⟨topgen, line, s.topology.scan line⟩

/-- `Read`, on the text of the file, or on no text where the file does not open. -/
def read (file : Option (List Char)) (links : List TopologyLink) (created : ℕ) : InetTopology :=
  let topology : InetTopology := ⟨[], [], [], fun _ => none, [], created, links⟩
  match file with
  | none => topology
  | some text =>
    let (line, topgen) := (IStream.ofText text).getline []
    let (totnode, lineBuffer) := (IStream.ofText line).readInt 0
    let (totlink, _) := lineBuffer.readInt 0
    (linkLoop totlink.toNat (nodeLoop totnode.toNat ⟨topgen, line, topology⟩)).topology

end InetTopologyReader

/-! ### The names of the links -/

namespace InetTopology

variable {f g : List Char} {line : List Char} {lines : List (List Char)} {t : InetTopology}

/-- A line of at least two words. -/
def Full (line : List Char) : Prop := 2 ≤ (words line).length

instance : DecidablePred Full := fun line => inferInstanceAs (Decidable (2 ≤ (words line).length))

/-- The nodes that a line names. -/
def namesOf (line : List Char) : Option (List Char × List Char) :=
  match words line with
  | a :: b :: _ => some (a, b)
  | _ => none

/-- The links that the loop makes of the lines, from the names that it remembers. -/
def produced (f g : List Char) : List (List Char) → List (List Char × List Char)
  | [] => []
  | line :: lines =>
    let f := (words line).headD f
    let g := (words line).tail.headD g
    if f ≠ [] ∧ g ≠ [] then (f, g) :: produced f g lines else produced f g lines

theorem namesOf_eq_none (h : ¬ Full line) : namesOf line = none := by
  rw [Full] at h
  rw [namesOf]
  split
  · rename_i hwords
    simp [hwords] at h
  · rfl

theorem words_of_full (h : Full line) : ∃ a b, a ≠ [] ∧ b ≠ [] ∧ namesOf line = some (a, b) ∧
    (∀ f, (words line).headD f = a) ∧ ∀ g, (words line).tail.headD g = b := by
  rw [Full] at h
  match hwords : words line with
  | [] => simp [hwords] at h
  | [_] => simp [hwords] at h
  | a :: b :: ws =>
    have ha : a ∈ words line := by simp [hwords]
    have hb : b ∈ words line := by simp [hwords]
    refine ⟨a, b, ne_nil_of_mem_words ha, ne_nil_of_mem_words hb, ?_, fun _ => rfl, fun _ => rfl⟩
    rw [namesOf, hwords]

theorem headD_ne_nil (h : f ≠ []) (line : List Char) : (words line).headD f ≠ [] := by
  cases hwords : words line with
  | nil => exact h
  | cons a ws =>
    have ha : a ∈ words line := by simp [hwords]
    exact ne_nil_of_mem_words ha

theorem tail_headD_ne_nil (h : g ≠ []) (line : List Char) : (words line).tail.headD g ≠ [] := by
  cases hwords : (words line).tail with
  | nil => exact h
  | cons a ws =>
    have ha : a ∈ words line := List.mem_of_mem_tail (by simp [hwords])
    exact ne_nil_of_mem_words ha

theorem tail_headD_of_not_full (h : ¬ Full line) : (words line).tail.headD g = g := by
  rw [Full] at h
  have hnil : (words line).tail = [] := List.eq_nil_of_length_eq_zero (by simp; omega)
  rw [hnil]
  rfl

/-- Once both names are known, every line makes a link. -/
theorem length_produced (hf : f ≠ []) (hg : g ≠ []) (lines : List (List Char)) :
    (produced f g lines).length = lines.length := by
  induction lines generalizing f g with
  | nil => rfl
  | cons line lines ih =>
    have hf' := headD_ne_nil hf line
    have hg' := tail_headD_ne_nil hg line
    rw [produced, if_pos ⟨hf', hg'⟩, List.length_cons, List.length_cons, ih hf' hg']

theorem produced_of_full (h : ∀ line ∈ lines, Full line) (f g : List Char) :
    produced f g lines = lines.filterMap namesOf := by
  induction lines generalizing f g with
  | nil => rfl
  | cons line lines ih =>
    obtain ⟨hfull, hrest⟩ := List.forall_mem_cons.1 h
    obtain ⟨a, b, ha, hb, hnames, hhead, htail⟩ := words_of_full hfull
    rw [produced, hhead, htail, if_pos ⟨ha, hb⟩, List.filterMap_cons_some hnames, ih hrest]

theorem produced_eq_iff_of_ne_nil (hf : f ≠ []) (hg : g ≠ []) (lines : List (List Char)) :
    produced f g lines = lines.filterMap namesOf ↔ ∀ line ∈ lines, Full line := by
  constructor
  · intro heq line hline
    by_contra hshort
    have hlen := congrArg List.length heq
    rw [length_produced hf hg] at hlen
    have hall := List.filterMap_length_eq_length.1 hlen.symm line hline
    simp [namesOf_eq_none hshort] at hall
  · exact fun h => produced_of_full h f g

/-- Before the first line of two words no line makes a link, after it every line does. -/
theorem produced_eq_iff (f : List Char) (lines : List (List Char)) :
    produced f [] lines = lines.filterMap namesOf ↔
      lines.Pairwise fun a b => Full a → Full b := by
  induction lines generalizing f with
  | nil => simp [produced]
  | cons line lines ih =>
    rw [List.pairwise_cons]
    by_cases hfull : Full line
    · obtain ⟨a, b, ha, hb, hnames, hhead, htail⟩ := words_of_full hfull
      rw [produced, hhead, htail, if_pos ⟨ha, hb⟩, List.filterMap_cons_some hnames,
        List.cons_inj_right, produced_eq_iff_of_ne_nil ha hb]
      constructor
      · exact fun hall => ⟨fun b hb _ => hall b hb, List.pairwise_of_forall_mem_list
          fun _ _ b hb _ => hall b hb⟩
      · exact fun hall b hb => hall.1 b hb hfull
    · rw [produced, tail_headD_of_not_full hfull, if_neg (by simp),
        List.filterMap_cons_none (namesOf_eq_none hfull), ih]
      simp [hfull]

/-! ### The nodes -/

/-- Different names have different nodes, and those are created already. -/
structure Consistent (t : InetTopology) : Prop where
  inj : ∀ {a b n}, t.nodeMap a = some n → t.nodeMap b = some n → a = b
  lt_created : ∀ {a n}, t.nodeMap a = some n → n < t.created

/-- The map after holds every node of the map before. -/
def Extends (t t' : InetTopology) : Prop := ∀ a n, t.nodeMap a = some n → t'.nodeMap a = some n

theorem Extends.refl (t : InetTopology) : t.Extends t := fun _ _ h => h

theorem Extends.trans {t t' t'' : InetTopology} (h : t.Extends t') (h' : t'.Extends t'') :
    t.Extends t'' := fun a n ha => h' a n (h a n ha)

@[simp] theorem findNode_fromName (t : InetTopology) (name : List Char) :
    (t.findNode name).fromName = t.fromName := by
  rw [findNode]
  split <;> rfl

@[simp] theorem findNode_toName (t : InetTopology) (name : List Char) :
    (t.findNode name).toName = t.toName := by
  rw [findNode]
  split <;> rfl

theorem findNode_spec (h : t.Consistent) (name : List Char) :
    (t.findNode name).Consistent ∧ t.Extends (t.findNode name) ∧
      (∃ n, (t.findNode name).nodeMap name = some n) ∧ (t.findNode name).links = t.links := by
  rw [findNode]
  split
  · rename_i n hn
    exact ⟨h, Extends.refl t, ⟨n, hn⟩, rfl⟩
  · rename_i hnone
    have hnew : ∀ {a n}, Function.update t.nodeMap name (some t.created) a = some n →
        a = name ∧ n = t.created ∨ t.nodeMap a = some n := by
      intro a n ha
      by_cases heq : a = name
      · subst heq
        rw [Function.update_self, Option.some_inj] at ha
        exact Or.inl ⟨rfl, ha.symm⟩
      · rw [Function.update_of_ne heq] at ha
        exact Or.inr ha
    refine ⟨⟨?_, ?_⟩, ?_, ⟨t.created, Function.update_self ..⟩, rfl⟩
    · intro a b n ha hb
      rcases hnew ha with ⟨rfl, rfl⟩ | hold
      · rcases hnew hb with ⟨rfl, -⟩ | hold
        · rfl
        · exact absurd (h.lt_created hold) (Nat.lt_irrefl _)
      · rcases hnew hb with ⟨-, rfl⟩ | hold'
        · exact absurd (h.lt_created hold) (Nat.lt_irrefl _)
        · exact h.inj hold hold'
    · intro a n ha
      rcases hnew ha with ⟨-, rfl⟩ | hold
      · exact Nat.lt_succ_self _
      · exact Nat.lt_succ_of_lt (h.lt_created hold)
    · intro a n ha
      have hne : a ≠ name := by
        rintro rfl
        simp [hnone] at ha
      exact (Function.update_of_ne hne ..).trans ha

/-- The link is between the nodes that the map has for its names. -/
def Connects (t : InetTopology) (l : TopologyLink) : Prop :=
  ∃ m n, t.nodeMap l.fromName = some m ∧ t.nodeMap l.toName = some n ∧
    l.fromPtr = some m ∧ l.toPtr = some n

theorem Connects.mono {t t' : InetTopology} {l : TopologyLink} (h : t.Connects l)
    (he : t.Extends t') : t'.Connects l := by
  obtain ⟨m, n, hm, hn, hfrom, hto⟩ := h
  exact ⟨m, n, he _ _ hm, he _ _ hn, hfrom, hto⟩

theorem readNames_eq (t : InetTopology) (line : List Char) :
    t.readNames line = { t with
      fromName := (words line).headD t.fromName
      toName := (words line).tail.headD t.toName
      linkAttr := (words line).tail.tail.headD t.linkAttr } := by
  have hfrom := IStream.readWord_of_words (IStream.holds_ofText line) t.fromName
  have hto := IStream.readWord_of_words hfrom.2 t.toName
  have hattr := IStream.readWord_of_words hto.2 t.linkAttr
  rw [readNames, ← hfrom.1, ← hto.1, ← hattr.1]

theorem addLink_spec (h : t.Consistent) (hf : t.fromName ≠ []) (hg : t.toName ≠ []) :
    ∃ l, t.addLink.links = t.links ++ [l] ∧ l.names = (t.fromName, t.toName) ∧
      t.addLink.Consistent ∧ t.Extends t.addLink ∧ t.addLink.Connects l ∧
      t.addLink.fromName = t.fromName ∧ t.addLink.toName = t.toName := by
  obtain ⟨hc₁, he₁, ⟨m, hm⟩, hl₁⟩ := findNode_spec h t.fromName
  obtain ⟨hc₂, he₂, ⟨n, hn⟩, hl₂⟩ := findNode_spec hc₁ t.toName
  have hm₂ := he₂ _ _ hm
  rw [addLink, if_pos ⟨hf, hg⟩]
  simp only [findNode_fromName, findNode_toName, hm₂, hn, hl₂, hl₁, and_true]
  refine ⟨_, rfl, ?_, ⟨hc₂.inj, hc₂.lt_created⟩, he₁.trans he₂, m, n, ?_⟩
  · split <;> rfl
  · split <;> simp [TopologyLink.setAttribute, hm₂, hn]

/-- What one line of the link section does. -/
theorem scan_spec (h : t.Consistent) (line : List Char) :
    ∃ added, (t.scan line).links = t.links ++ added ∧
      added.map TopologyLink.names = produced t.fromName t.toName [line] ∧
      (t.scan line).Consistent ∧ t.Extends (t.scan line) ∧
      (∀ l ∈ added, (t.scan line).Connects l) ∧
      (t.scan line).fromName = (words line).headD t.fromName ∧
      (t.scan line).toName = (words line).tail.headD t.toName := by
  have hc : (t.readNames line).Consistent := by
    rw [readNames_eq]
    exact ⟨h.inj, h.lt_created⟩
  have he : t.Extends (t.readNames line) := by
    rw [readNames_eq]
    exact fun _ _ ha => ha
  have hfrom : (t.readNames line).fromName = (words line).headD t.fromName := by rw [readNames_eq]
  have hto : (t.readNames line).toName = (words line).tail.headD t.toName := by rw [readNames_eq]
  have hlinks : (t.readNames line).links = t.links := by rw [readNames_eq]
  rw [scan, produced, produced, ← hfrom, ← hto, ← hlinks]
  by_cases hboth : (t.readNames line).fromName ≠ [] ∧ (t.readNames line).toName ≠ []
  · obtain ⟨l, hadd, hnames, hc', he', hconnects, hf, hg⟩ := addLink_spec hc hboth.1 hboth.2
    refine ⟨[l], hadd, ?_, hc', he.trans he', ?_, hf, hg⟩
    · rw [if_pos hboth, List.map_singleton, hnames]
    · simpa using hconnects
  · have hsame : (t.readNames line).addLink = t.readNames line := if_neg hboth
    rw [hsame]
    exact ⟨[], by simp, by rw [if_neg hboth]; rfl, hc, he, by simp, rfl, rfl⟩

theorem produced_append (f g : List Char) (line : List Char) (lines : List (List Char)) :
    produced f g (line :: lines) = produced f g [line] ++
      produced ((words line).headD f) ((words line).tail.headD g) lines := by
  rw [produced, produced, produced]
  split <;> rfl

/-- What the lines of the link section do. -/
theorem foldl_scan_spec (h : t.Consistent) (lines : List (List Char)) :
    ∃ added, (lines.foldl scan t).links = t.links ++ added ∧
      added.map TopologyLink.names = produced t.fromName t.toName lines ∧
      (lines.foldl scan t).Consistent ∧ t.Extends (lines.foldl scan t) ∧
      ∀ l ∈ added, (lines.foldl scan t).Connects l := by
  induction lines generalizing t with
  | nil => exact ⟨[], by simp, rfl, h, Extends.refl t, by simp⟩
  | cons line lines ih =>
    obtain ⟨first, hfirst, hnames, hc, he, hconnects, hf, hg⟩ := scan_spec h line
    obtain ⟨rest, hrest, hnames', hc', he', hconnects'⟩ := ih hc
    refine ⟨first ++ rest, ?_, ?_, hc', he.trans he', ?_⟩
    · rw [List.foldl_cons, hrest, hfirst, List.append_assoc]
    · rw [produced_append, List.map_append, hnames, hnames', hf, hg]
    · intro l hl
      rcases List.mem_append.1 hl with hl | hl
      · exact (hconnects l hl).mono he'
      · exact hconnects' l hl

end InetTopology

/-! ### The loops -/

namespace InetTopologyReader

open InetTopology

theorem nodeLoop_spec {s : State} {ls : List (List Char)} (h : s.topgen.HoldsLines ls) (n : ℕ) :
    (nodeLoop n s).topgen.HoldsLines (ls.drop n) ∧ (nodeLoop n s).topology = s.topology := by
  induction n generalizing s ls with
  | zero => exact ⟨h, rfl⟩
  | succ n ih =>
    cases ls with
    | nil =>
      rw [nodeLoop, if_pos ((IStream.eof_iff_of_lines h).2 rfl), List.drop_nil]
      exact ⟨h, rfl⟩
    | cons line ls =>
      rw [nodeLoop, if_neg (by simp [IStream.eof_iff_of_lines h])]
      exact ih (IStream.getline_of_lines h s.line).2

theorem linkLoop_spec {s : State} {ls : List (List Char)} (h : s.topgen.HoldsLines ls) (n : ℕ) :
    (linkLoop n s).topology = (ls.take n).foldl scan s.topology := by
  induction n generalizing s ls with
  | zero => rfl
  | succ n ih =>
    cases ls with
    | nil =>
      rw [linkLoop, if_pos ((IStream.eof_iff_of_lines h).2 rfl), List.take_nil]
      rfl
    | cons line ls =>
      obtain ⟨hline, hrest⟩ := IStream.getline_of_lines h s.line
      rw [linkLoop, if_neg (by simp [IStream.eof_iff_of_lines h]), List.take_succ_cons,
        List.foldl_cons, ← hline]
      exact ih hrest

/-- The first line gives two counts: its first two words are decimal numbers. -/
def Header (text : List Char) (nodes links : ℕ) : Prop :=
  ∃ a b rest, words ((text.splitOn '\n').headD []) = a :: b :: rest ∧
    (∀ c ∈ a, c.isDigit = true) ∧ (∀ c ∈ b, c.isDigit = true) ∧
    IStream.decimal a = nodes ∧ IStream.decimal b = links

/-- The lines after those of the nodes, as many as there are links. -/
def linkLines (text : List Char) (nodes links : ℕ) : List (List Char) :=
  ((text.splitOn '\n').drop (1 + nodes)).take links

/-- The links are those of the lines that name two nodes, each between the nodes of its names. -/
def Exact (added : List TopologyLink) (lines : List (List Char)) : Prop :=
  added.map TopologyLink.names = lines.filterMap namesOf ∧
    ∃ node : List Char → ℕ,
      Set.InjOn node {a | ∃ l ∈ added, a = l.fromName ∨ a = l.toName} ∧
      ∀ l ∈ added, l.fromPtr = some (node l.fromName) ∧ l.toPtr = some (node l.toName)

theorem exact_iff {t : InetTopology} {added : List TopologyLink} (h : t.Consistent)
    (hconnects : ∀ l ∈ added, t.Connects l) (lines : List (List Char)) :
    Exact added lines ↔ added.map TopologyLink.names = lines.filterMap namesOf := by
  refine ⟨fun hexact => hexact.1, fun hnames => ⟨hnames, fun a => (t.nodeMap a).getD 0, ?_, ?_⟩⟩
  · have hnode : ∀ a ∈ {a | ∃ l ∈ added, a = l.fromName ∨ a = l.toName},
        ∃ n, t.nodeMap a = some n := by
      rintro a ⟨l, hl, hname⟩
      obtain ⟨m, n, hm, hn, -⟩ := hconnects l hl
      rcases hname with rfl | rfl
      · exact ⟨m, hm⟩
      · exact ⟨n, hn⟩
    intro a ha b hb heq
    obtain ⟨m, hm⟩ := hnode a ha
    obtain ⟨n, hn⟩ := hnode b hb
    simp only [hm, hn, Option.getD_some] at heq
    exact h.inj hm (heq ▸ hn)
  · intro l hl
    obtain ⟨m, n, hm, hn, hfrom, hto⟩ := hconnects l hl
    exact ⟨by simp [hfrom, hm], by simp [hto, hn]⟩

/-- The reader as a scan of the lines that its counts take. -/
theorem read_eq {text line : List Char} {ls : List (List Char)}
    (h : text.splitOn '\n' = line :: ls) (old : List TopologyLink) (created : ℕ) :
    read (some text) old created =
      ((ls.drop ((IStream.ofText line).readInt 0).1.toNat).take
          (((IStream.ofText line).readInt 0).2.readInt 0).1.toNat).foldl scan
        ⟨[], [], [], fun _ => none, [], created, old⟩ := by
  have hlines := h ▸ IStream.holdsLines_ofText text
  obtain ⟨rfl, htail⟩ := IStream.getline_of_lines hlines []
  obtain ⟨hloop, htopology⟩ := nodeLoop_spec
    (s := ⟨_, ((IStream.ofText text).getline []).1, ⟨[], [], [], fun _ => none, [], created, old⟩⟩)
    htail ((IStream.ofText ((IStream.ofText text).getline []).1).readInt 0).1.toNat
  have hrun := linkLoop_spec hloop
    (((IStream.ofText ((IStream.ofText text).getline []).1).readInt 0).2.readInt 0).1.toNat
  rw [htopology] at hrun
  exact hrun

/-- Where the counts fit an `int`, or the file has no more lines than one counts, the reader takes
the lines that the first line announces. -/
theorem read_eq_linkLines {text : List Char} {nodes links : ℕ} (h : Header text nodes links)
    (hfit : (nodes < 2 ^ 31 ∧ links < 2 ^ 31) ∨ (text.splitOn '\n').length < 2 ^ 31)
    (old : List TopologyLink) (created : ℕ) :
    read (some text) old created =
      (linkLines text nodes links).foldl scan ⟨[], [], [], fun _ => none, [], created, old⟩ := by
  obtain ⟨a, b, rest, hwords, ha, hb, rfl, rfl⟩ := h
  obtain ⟨line, ls, hls⟩ := List.exists_cons_of_ne_nil (List.splitOn_ne_nil '\n' text)
  rw [hls, List.headD_cons] at hwords
  rw [hls, List.length_cons] at hfit
  rw [read_eq hls, linkLines, hls, Nat.add_comm, List.drop_succ_cons]
  congr 1
  obtain ⟨hfits, hover⟩ :=
    IStream.readInt_of_words (hwords ▸ IStream.holds_ofText line) ha 0
  by_cases hnodes : IStream.decimal a < 2 ^ 31
  · obtain ⟨hcount, hholds⟩ := hfits hnodes
    obtain ⟨hfits', hover'⟩ := IStream.readInt_of_words hholds hb 0
    rw [hcount, Int.toNat_natCast]
    by_cases hlinks : IStream.decimal b < 2 ^ 31
    · rw [(hfits' hlinks).1, Int.toNat_natCast]
    · rw [(hover' (by omega)).1, List.take_of_length_le, List.take_of_length_le]
      all_goals
        rw [List.length_drop]
        omega
  · rw [List.drop_of_length_le, List.drop_of_length_le, List.take_nil, List.take_nil]
    · omega
    · rw [(hover (by omega)).1]
      omega

/-- The links that are added are those of the lines that name two nodes exactly where no line that
names fewer comes after one that does. -/
theorem read_exact_iff {text : List Char} {nodes links : ℕ} (h : Header text nodes links)
    (hfit : (nodes < 2 ^ 31 ∧ links < 2 ^ 31) ∨ (text.splitOn '\n').length < 2 ^ 31)
    (old : List TopologyLink) (created : ℕ) :
    (∃ added, (read (some text) old created).links = old ++ added ∧
        Exact added (linkLines text nodes links)) ↔
      (linkLines text nodes links).Pairwise fun a b => Full a → Full b := by
  have hstart : Consistent ⟨[], [], [], fun _ => none, [], created, old⟩ :=
    ⟨fun ha => by simp at ha, fun ha => by simp at ha⟩
  obtain ⟨added, hadded, hnames, hc, -, hconnects⟩ :=
    foldl_scan_spec hstart (linkLines text nodes links)
  rw [read_eq_linkLines h hfit, hadded, ← produced_eq_iff [], ← hnames,
    ← exact_iff hc hconnects (linkLines text nodes links)]
  constructor
  · rintro ⟨added', heq, hexact⟩
    rwa [List.append_cancel_left heq]
  · exact fun hexact => ⟨added, rfl, hexact⟩

/-- Two links, of three nodes. -/
theorem read_exact_iff_two_links :
    (∃ added, (read (some ['0', ' ', '2', '\n', 'a', ' ', 'b', '\n', 'b', ' ', 'c', ' ', '7'])
          [] 0).links = [] ++ added ∧
        Exact added (linkLines
          ['0', ' ', '2', '\n', 'a', ' ', 'b', '\n', 'b', ' ', 'c', ' ', '7'] 0 2)) ↔
      (linkLines ['0', ' ', '2', '\n', 'a', ' ', 'b', '\n', 'b', ' ', 'c', ' ', '7'] 0 2).Pairwise
        fun a b => Full a → Full b :=
  read_exact_iff ⟨['0'], ['2'], [], rfl, by simp, by simp, rfl, rfl⟩
    (Or.inl ⟨by decide, by decide⟩) [] 0

/-- The empty line after the last line feed is the second link line, and repeats the first link. -/
theorem empty_line_repeats_link :
    Header ['0', ' ', '2', '\n', 'a', ' ', 'b', ' ', '1', '\n'] 0 2 ∧
      (linkLines ['0', ' ', '2', '\n', 'a', ' ', 'b', ' ', '1', '\n'] 0 2).filterMap namesOf =
        [(['a'], ['b'])] ∧
      (read (some ['0', ' ', '2', '\n', 'a', ' ', 'b', ' ', '1', '\n']) [] 0).links.map
        TopologyLink.names = [(['a'], ['b']), (['a'], ['b'])] :=
  ⟨⟨['0'], ['2'], [], rfl, by simp, by simp, rfl, rfl⟩, rfl, rfl⟩

end InetTopologyReader

end SeanetSim
