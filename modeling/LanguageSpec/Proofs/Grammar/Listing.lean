import LanguageSpec.Proofs.Grammar.Indexing
import LanguageSpec.Proofs.Grammar.Range

/-!
# Listings say what can be asked

A table is printed by the numbers of its rows and columns and asked by names. Where no terminal has
the name of the end marker the two agree, and every number in the listing of first and follow sets
stands for a name.
-/

namespace LanguageSpec

theorem String.join_map_congr {α : Type} {f g : α → String} {l : List α}
    (h : ∀ a ∈ l, f a = g a) : String.join (l.map f) = String.join (l.map g) :=
  congrArg String.join (List.map_congr_left h)

/-! ## Tables -/

namespace ParseTable

/-- The line for the answer to the names of a non-terminal and of a terminal. -/
def answerLine (t : ParseTable) (nonTerminal terminal : String) : String :=
  match t.lookup nonTerminal terminal with
  | some r => s!"\trule: \"{r.text}\", on: {terminal}\n"
  | none => ""

/-- The lines for the answers to the name of a non-terminal with the names of all terminals. -/
def answerLines (t : ParseTable) (nonTerminal : String) : String :=
  s!"non-terminal: {nonTerminal}\n" ++
    String.join ((t.grammar.terminals.map Token.text).map (t.answerLine nonTerminal))

/-- The lines for all names that can be asked for. -/
def answers (t : ParseTable) : String :=
  String.join ((t.grammar.nonTerminals.map Token.text).map t.answerLines)

variable {table : ParseTable} {rules : List Rule} {A t : Document.Token} {i j : Nat}

theorem getElem?_map_text {ts : List Document.Token} (h : (t, i) ∈ ts.zipIdx) :
    (ts.map Token.text)[i]? = some t.text := by
  rw [List.getElem?_map, List.mem_zipIdx_iff_getElem?.mp h]
  rfl

theorem lookup_eq_cell? (h : table.grammar.Indexes rules)
    (hA : (A, i) ∈ table.grammar.nonTerminals.zipIdx)
    (ht : (t, j) ∈ table.grammar.terminals.zipIdx) :
    table.lookup A.text t.text = table.cell? i j := by
  have hrow := (h.nonTerminalTable A.text i).mpr (getElem?_map_text hA)
  have hcolumn := (h.terminalTable t.text j).mpr (getElem?_map_text ht)
  simp only [lookup, hrow, hcolumn, Option.bind_eq_bind, Option.bind_some]

theorem answerLine_eq_cellLine (h : table.grammar.Indexes rules)
    (hA : (A, i) ∈ table.grammar.nonTerminals.zipIdx)
    (ht : (t, j) ∈ table.grammar.terminals.zipIdx) :
    table.answerLine A.text t.text = table.cellLine i t.text j := by
  have hcell := lookup_eq_cell? h hA ht
  cases h' : table.cell? i j <;> simp only [answerLine, cellLine, hcell, h']

/-- What is printed of a table is what it answers. -/
theorem text_eq_answers (h : table.grammar.Indexes rules) : table.text = table.answers := by
  have hnames (ts : List Document.Token) (f : String → String) :
      (ts.map Token.text).map f = ts.zipIdx.map fun p => f p.1.text := by
    rw [List.map_map]
    conv_lhs => rw [← List.zipIdx_map_fst 0 ts]
    rw [List.map_map]
    rfl
  rw [text, answers, hnames]
  refine String.join_map_congr fun A hA => ?_
  refine congrArg (s!"non-terminal: {A.1.text}\n" ++ ·) ?_
  rw [hnames]
  exact String.join_map_congr fun t ht => (answerLine_eq_cellLine h hA ht).symm

end ParseTable

/-! ## First and follow sets -/

/-- A set of small numbers is what it leaves of all of them. -/
theorem SortedSet.toList_eq_filter_range {s : SortedSet Nat} {n : Nat} (h : ∀ t ∈ s, t < n) :
    s.toList = (List.range n).filter fun t => decide (t ∈ s) := by
  have hascending : (List.range n).Pairwise fun a b => Ranked.rank a < Ranked.rank b :=
    List.pairwise_lt_range
  have hsame : s = (⟨List.range n, hascending⟩ : SortedSet Nat).filter fun t => decide (t ∈ s) := by
    apply ext
    intro t
    rw [mem_filter, decide_eq_true_iff]
    constructor
    · intro ht
      exact ⟨List.mem_range.mpr (h t ht), ht⟩
    · exact And.right
  exact congrArg toList hsame

namespace Lookahead

/-- The names of the terminals whose numbers are in a set, in the order of the terminals. -/
def namesIn (g : Grammar) (s : SortedSet Nat) : List String :=
  (g.terminals.zipIdx.filter fun p => decide (p.2 ∈ s)).map fun p => p.1.text

/-- The names in a first set, and the mark that stands in front of them if it has the empty word. -/
def firstNames (g : Grammar) (s : FirstSet) : List String :=
  (if s.epsilon then ["`empty'"] else []) ++ namesIn g s.terminals

/-- A line that lists names behind the name of a non-terminal. -/
def namesLine (label nonTerminal : String) (names : List String) : String :=
  let listed := String.join (names.map (· ++ ", "))
  s!"{label},{nonTerminal},\x7b{listed}\x7d\n"

/-- The first sets of all non-terminals, then the follow sets, with nothing but names in them. -/
def namedText (g : Grammar) (s : Lookahead) : String :=
  String.join (g.nonTerminals.zipIdx.map fun p =>
      namesLine "FIRST" p.1.text (firstNames g (s.first.get p.2))) ++
    String.join (g.nonTerminals.zipIdx.map fun p =>
      namesLine "FOLLOW" p.1.text (namesIn g (s.follow.get p.2)))

variable {g : Grammar} {rules : List Rule} {s : SortedSet Nat} {t : Nat}

theorem terminalTable_name? (h : g.Indexes rules) (ht : t < g.terminals.length) :
    g.terminalTable.name? t = some g.terminals[t].text := by
  rw [← NameTable.index?_eq_some_iff, h.terminalTable, List.getElem?_map,
    List.getElem?_eq_getElem ht]
  rfl

theorem terminalNames_eq (h : g.Indexes rules) (hs : ∀ t ∈ s, t < g.terminals.length) :
    terminalNames g.terminalTable s = String.join ((namesIn g s).map (· ++ ", ")) := by
  have hnumbers : s.toList =
      (g.terminals.zipIdx.filter fun p => decide (p.2 ∈ s)).map Prod.snd := by
    have hall : g.terminals.zipIdx.map Prod.snd = List.range g.terminals.length := by
      rw [List.zipIdx_map_snd, List.range_eq_range']
    rw [SortedSet.toList_eq_filter_range hs, ← hall, List.filter_map]
    rfl
  rw [terminalNames, hnumbers, namesIn, List.map_map, List.map_map]
  refine String.join_map_congr fun p hp => ?_
  have hget := List.mem_zipIdx_iff_getElem?.mp (List.mem_of_mem_filter hp)
  have hname : g.terminalTable.name? p.2 = some p.1.text := by
    rw [← NameTable.index?_eq_some_iff, h.terminalTable, List.getElem?_map, hget]
    rfl
  simp only [Function.comp_apply, hname, Option.getD_some]

theorem firstLine_eq_namesLine (h : g.Indexes rules) {f : FirstSet}
    (hf : ∀ t ∈ f.terminals, t < g.terminals.length) (nonTerminal : String) :
    firstLine g.terminalTable nonTerminal f = namesLine "FIRST" nonTerminal (firstNames g f) := by
  simp only [firstLine, namesLine, firstNames, terminalNames_eq h hf]
  apply String.toList_inj.mp
  cases f.epsilon <;> simp [toString]

theorem followLine_eq_namesLine (h : g.Indexes rules) (hs : ∀ t ∈ s, t < g.terminals.length)
    (nonTerminal : String) :
    followLine g.terminalTable nonTerminal s = namesLine "FOLLOW" nonTerminal (namesIn g s) := by
  simp only [followLine, namesLine, terminalNames_eq h hs]
  apply String.toList_inj.mp
  simp [toString]

theorem names_nonTerminalTable (h : g.Indexes rules) :
    g.nonTerminalTable.names = g.nonTerminals.map Token.text := by
  refine List.ext_getElem? fun i => Option.ext fun name => ?_
  rw [← h.nonTerminalTable]
  exact NameTable.index?_eq_some_iff.symm

/-- What is printed of first and follow sets holds nothing but names. -/
theorem text_eq_namedText (h : g.Indexes rules) (hg : g.WellNumbered) :
    (ofGrammar g).text g = (ofGrammar g).namedText g := by
  have hzip : (g.nonTerminals.map Token.text).zipIdx =
      g.nonTerminals.zipIdx.map fun p => (p.1.text, p.2) := List.zipIdx_map ..
  rw [text, namedText]
  simp only [names_nonTerminalTable h, hzip, List.map_map]
  refine congrArg₂ (· ++ ·) ?_ ?_
  · refine String.join_map_congr fun p _ => ?_
    exact firstLine_eq_namesLine h (fun t ht => first_lt hg ht) p.1.text
  · refine String.join_map_congr fun p _ => ?_
    exact followLine_eq_namesLine h (fun t ht => follow_lt hg ht) p.1.text

end Lookahead

end LanguageSpec
