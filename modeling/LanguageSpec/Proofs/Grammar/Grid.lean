import LanguageSpec.Proofs.Grammar.Checked
import LanguageSpec.Proofs.Grammar.Conflict
import LanguageSpec.Proofs.Grammar.Names

/-!
# Tables as grids

A table with a row for every non-terminal and in it a cell for every terminal, filled and read with
checked numbers. It is refused with the same error, or holds the same entries and gives the same
answers, and no number ever goes beyond a list.
-/

namespace LanguageSpec

/-- The cells by row and column, each with the number of a rule or empty. -/
abbrev Grid := List (List (Option Nat))

def Grid.entry? (grid : Grid) (i j : Nat) : Option (Option Nat) := grid[i]?.bind (·[j]?)

/-- The numbers of an entry do not go beyond the lists of a grammar. -/
structure Cell.InRange (g : Grammar) (c : Cell) : Prop where
  row_lt : c.row < g.nonTerminals.length
  column_lt : c.column < g.terminals.length
  rule_lt : c.rule < g.rules.length

namespace Checked

def blank (g : Grammar) : Grid :=
  List.replicate g.nonTerminals.length (List.replicate g.terminals.length none)

/-- Writes an entry into its cell, which has to be empty. -/
def enter (g : Grammar) (grid : Grid) (c : Cell) : Except Halt Grid := do
  let row ← fetch grid c.row
  match ← fetch row c.column with
  | none => return grid.set c.row (row.set c.column (some c.rule))
  | some existing =>
    let incoming ← fetch g.rules c.rule
    let terminal ← fetch g.terminals c.column
    let earlier ← fetch g.rules existing
    throw (.refused (.conflict incoming.head.text terminal.text earlier.text incoming.text))

def targets (s : Lookahead) (first : FirstSet) (head : Nat) : Except Halt (List Nat) :=
  if first.epsilon then do
    let behind ← fetch s.follow head
    return first.terminals.toList ++ behind.toList
  else return first.terminals.toList

/-- Enters a rule, given with its number. The first sets are those of the bodies. -/
def enterRule (g : Grammar) (s : Lookahead) (bodies : List FirstSet) (grid : Grid)
    (p : Production × Nat) : Except Halt Grid := do
  let first ← fetch bodies p.2
  let ts ← targets s first p.1.head
  ts.foldlM (fun grid t => enter g grid ⟨p.1.head, t, p.2⟩) grid

/-- The grid of a grammar, from its sets. -/
def build (g : Grammar) : Except Halt Grid := do
  let sets ← compute g
  g.productions.zipIdx.foldlM (enterRule g sets.1 sets.2) (blank g)

/-- The rule in a cell. -/
def answer (g : Grammar) (grid : Grid) (i j : Nat) : Except Halt (Option Rule) := do
  let row ← fetch grid i
  match ← fetch row j with
  | none => return none
  | some k =>
    let r ← fetch g.rules k
    return some r

def lookup (g : Grammar) (grid : Grid) (nonTerminal terminal : String) :
    Except Halt (Option Rule) :=
  match g.nonTerminalTable.index? nonTerminal, g.terminalTable.index? terminal with
  | some i, some j => answer g grid i j
  | _, _ => .ok none

def cellLine (terminal : String) : Option Rule → String
  | some r => s!"\trule: \"{r.text}\", on: {terminal}\n"
  | none => ""

def rowLines (g : Grammar) (grid : Grid) (p : Document.Token × Nat) : Except Halt String := do
  let lines ← g.terminals.zipIdx.mapM fun q => do
    let r ← answer g grid p.2 q.2
    return cellLine q.1.text r
  return s!"non-terminal: {p.1.text}\n" ++ String.join lines

def text (g : Grammar) (grid : Grid) : Except Halt String := do
  let lines ← g.nonTerminals.zipIdx.mapM (rowLines g grid)
  return String.join lines

/-! ## What a grid holds -/

/-- The grid has the rows and columns of a grammar, and holds some entries and no others. -/
structure Holds (g : Grammar) (grid : Grid) (cells : List Cell) : Prop where
  rows : grid.length = g.nonTerminals.length
  columns : ∀ row ∈ grid, row.length = g.terminals.length
  entry?_iff : ∀ i j k, grid.entry? i j = some (some k) ↔ ⟨i, j, k⟩ ∈ cells
  inRange : ∀ c ∈ cells, c.InRange g

theorem entry?_of_row {grid : Grid} {i : Nat} {row : List (Option Nat)}
    (h : grid[i]? = some row) (j : Nat) : grid.entry? i j = row[j]? := by
  rw [Grid.entry?, h, Option.bind_some]

theorem entry?_set {grid : Grid} {i j : Nat} {row : List (Option Nat)} (h : grid[i]? = some row)
    (hj : j < row.length) (entry : Option Nat) (m n : Nat) :
    Grid.entry? (grid.set i (row.set j entry)) m n =
      if m = i ∧ n = j then some entry else grid.entry? m n := by
  obtain ⟨hi, -⟩ := List.getElem?_eq_some_iff.mp h
  by_cases hm : m = i
  · subst hm
    rw [entry?_of_row (List.getElem?_set_self hi), entry?_of_row h, List.getElem?_set]
    by_cases hn : j = n
    · simp [hn, hn ▸ hj]
    · simp [hn, Ne.symm hn]
  · rw [Grid.entry?, List.getElem?_set_ne (Ne.symm hm), if_neg fun hmn => hm hmn.1]
    rfl

namespace Holds

variable {g : Grammar} {grid : Grid} {cells seen : List Cell} {c d : Cell} {i j : Nat}

theorem blank (g : Grammar) : Holds g (blank g) [] where
  rows := List.length_replicate
  columns row hrow := by
    rw [List.eq_of_mem_replicate hrow]
    exact List.length_replicate
  entry?_iff i j k := by
    refine ⟨fun h => ?_, fun h => absurd h List.not_mem_nil⟩
    obtain ⟨row, hrow, hentry⟩ := Option.bind_eq_some_iff.mp h
    obtain rfl := List.eq_of_mem_replicate (List.mem_of_getElem? hrow)
    have hnone := List.eq_of_mem_replicate (List.mem_of_getElem? hentry)
    cases hnone
  inRange c hc := absurd hc List.not_mem_nil

theorem of_mem_iff (h : Holds g grid cells) (hmem : ∀ c, c ∈ cells ↔ c ∈ seen) :
    Holds g grid seen where
  rows := h.rows
  columns := h.columns
  entry?_iff i j k := (h.entry?_iff i j k).trans (hmem _)
  inRange c hc := h.inRange c ((hmem c).mpr hc)

/-- The numbers of a cell lead to a place in the grid. -/
theorem exists_entry (h : Holds g grid cells) (hi : i < g.nonTerminals.length)
    (hj : j < g.terminals.length) :
    ∃ row entry, grid[i]? = some row ∧ row[j]? = some entry ∧ grid.entry? i j = some entry := by
  obtain ⟨row, hrow⟩ := exists_getElem? (h.rows ▸ hi)
  have hlength := h.columns row (List.mem_of_getElem? hrow)
  obtain ⟨entry, hentry⟩ := exists_getElem? (hlength ▸ hj)
  exact ⟨row, entry, hrow, hentry, (entry?_of_row hrow j).trans hentry⟩

/-- An entry that is looked for by its row and column is found in the grid. -/
theorem entry?_eq_find? (h : Holds g grid cells) (hi : i < g.nonTerminals.length)
    (hj : j < g.terminals.length) {p : Cell → Bool}
    (hp : ∀ c, p c = true ↔ c.row = i ∧ c.column = j) :
    grid.entry? i j = some ((cells.find? p).map Cell.rule) := by
  obtain ⟨row, entry, -, -, hentry⟩ := h.exists_entry hi hj
  rw [hentry]
  apply congrArg some
  cases hfind : cells.find? p with
  | none =>
      cases entry with
      | none => rfl
      | some k =>
          have hmem := (h.entry?_iff i j k).mp hentry
          exact absurd ((hp _).mpr ⟨rfl, rfl⟩) (List.find?_eq_none.mp hfind _ hmem)
  | some c =>
      obtain ⟨rfl, rfl⟩ := (hp c).mp (List.find?_some hfind)
      have hmem := (h.entry?_iff c.row c.column c.rule).mpr (List.mem_of_find?_eq_some hfind)
      exact Option.some.inj (hentry.symm.trans hmem)

theorem set (h : Holds g grid seen) (hc : c.InRange g) {row : List (Option Nat)}
    (hrow : grid[c.row]? = some row) (hempty : grid.entry? c.row c.column = some none) :
    Holds g (grid.set c.row (row.set c.column (some c.rule))) (c :: seen) where
  rows := (List.length_set ..).trans h.rows
  columns := by
    intro r hr
    rcases List.mem_or_eq_of_mem_set hr with hr | rfl
    · exact h.columns r hr
    · exact (List.length_set ..).trans (h.columns row (List.mem_of_getElem? hrow))
  entry?_iff i j k := by
    have hlt : c.column < row.length := by
      rw [h.columns row (List.mem_of_getElem? hrow)]
      exact hc.column_lt
    have hsame : (⟨i, j, k⟩ : Cell) = c ↔ (i = c.row ∧ j = c.column) ∧ k = c.rule := by
      rw [Cell.mk.injEq, and_assoc]
    rw [entry?_set hrow hlt, List.mem_cons, ← h.entry?_iff, hsame]
    by_cases hplace : i = c.row ∧ j = c.column
    · simp [hplace, hempty, eq_comm]
    · simp [hplace]
  inRange := List.forall_mem_cons.mpr ⟨hc, h.inRange⟩

theorem meets_iff : c.meets d = true ↔ d.row = c.row ∧ d.column = c.column := by
  rw [Cell.meets, Bool.and_eq_true, beq_iff_eq, beq_iff_eq, eq_comm, eq_comm (a := c.column)]

/-- What an entry does: it is written into an empty cell, and is refused in a filled one. -/
theorem enter_of_none (h : Holds g grid seen) (hc : c.InRange g)
    (hfind : seen.find? c.meets = none) :
    ∃ grid', enter g grid c = .ok grid' ∧ Holds g grid' (c :: seen) := by
  obtain ⟨row, entry, hrow, hentry, hplace⟩ := h.exists_entry hc.row_lt hc.column_lt
  have hempty := h.entry?_eq_find? hc.row_lt hc.column_lt fun _ => meets_iff
  rw [hfind] at hempty
  obtain rfl := Option.some.inj (hplace.symm.trans hempty)
  refine ⟨_, ?_, h.set hc hrow hempty⟩
  rw [enter, fetch_eq_ok_iff.mpr hrow, ok_bind, fetch_eq_ok_iff.mpr hentry, ok_bind]
  rfl

theorem enter_of_some (h : Holds g grid seen) (hc : c.InRange g)
    (hfind : seen.find? c.meets = some d) :
    enter g grid c = .error (.refused (ParseTable.conflict g d c)) := by
  obtain ⟨row, entry, hrow, hentry, hplace⟩ := h.exists_entry hc.row_lt hc.column_lt
  have hfilled := h.entry?_eq_find? hc.row_lt hc.column_lt fun _ => meets_iff
  rw [hfind] at hfilled
  obtain rfl := Option.some.inj (hplace.symm.trans hfilled)
  have hd := h.inRange d (List.mem_of_find?_eq_some hfind)
  obtain ⟨incoming, hincoming⟩ := exists_getElem? hc.rule_lt
  obtain ⟨terminal, hterminal⟩ := exists_getElem? hc.column_lt
  obtain ⟨earlier, hearlier⟩ := exists_getElem? hd.rule_lt
  have hconflict : ParseTable.conflict g d c =
      .conflict incoming.head.text terminal.text earlier.text incoming.text := by
    simp [ParseTable.conflict, ParseTable.ruleName, Grammar.rule?, hincoming, hterminal, hearlier]
  rw [hconflict, enter, fetch_eq_ok_iff.mpr hrow, ok_bind, fetch_eq_ok_iff.mpr hentry, ok_bind]
  simp only [Option.map_some, fetch_eq_ok_iff.mpr hincoming, fetch_eq_ok_iff.mpr hterminal,
    fetch_eq_ok_iff.mpr hearlier, ok_bind]
  rfl

/-- Entries are written one after another, up to the first that is for a filled cell. -/
theorem foldlM_enter (h : Holds g grid seen) (hcells : ∀ c ∈ cells, c.InRange g) :
    (∀ d c, ParseTable.clash? seen cells = some (d, c) →
      cells.foldlM (enter g) grid = .error (.refused (ParseTable.conflict g d c))) ∧
    (ParseTable.clash? seen cells = none → ∃ grid', cells.foldlM (enter g) grid = .ok grid' ∧
      Holds g grid' (cells.reverse ++ seen)) := by
  induction cells generalizing grid seen with
  | nil =>
      refine ⟨?_, fun _ => ⟨grid, rfl, h⟩⟩
      intro d c hclash
      cases hclash
  | cons c cells ih =>
      obtain ⟨hc, hcells⟩ := List.forall_mem_cons.mp hcells
      rw [ParseTable.clash?, List.foldlM_cons]
      cases hfind : seen.find? c.meets with
      | some d =>
          refine ⟨?_, fun hclash => absurd hclash (by simp)⟩
          rintro _ _ ⟨⟩
          rw [h.enter_of_some hc hfind]
          rfl
      | none =>
          obtain ⟨grid', henter, hholds⟩ := h.enter_of_none hc hfind
          rw [henter, ok_bind, List.reverse_cons, List.append_assoc]
          exact ih hholds hcells

/-- The answer from a grid is the one from the table. -/
theorem answer_eq {table : ParseTable} (h : Holds table.grammar grid table.cells)
    (hi : i < table.grammar.nonTerminals.length) (hj : j < table.grammar.terminals.length) :
    answer table.grammar grid i j = .ok (table.cell? i j) := by
  obtain ⟨row, entry, hrow, hentry, hplace⟩ := h.exists_entry hi hj
  have hfound := h.entry?_eq_find? hi hj (p := fun c => c.row == i && c.column == j) (by simp)
  obtain rfl := Option.some.inj (hplace.symm.trans hfound)
  rw [answer, fetch_eq_ok_iff.mpr hrow, ok_bind, fetch_eq_ok_iff.mpr hentry, ok_bind,
    ParseTable.cell?]
  cases hfind : table.cells.find? fun c => c.row == i && c.column == j with
  | none => rfl
  | some c =>
      have hc := h.inRange c (List.mem_of_find?_eq_some hfind)
      obtain ⟨r, hrule⟩ := exists_getElem? hc.rule_lt
      simp only [Option.map_some, fetch_eq_ok_iff.mpr hrule, ok_bind]
      exact congrArg Except.ok hrule.symm

end Holds

/-! ## Building -/

section Building

variable {g : Grammar} {rules : List Rule}

theorem targets_eq_ok (h : g.WellNumbered) {p : Production} (hp : p ∈ g.productions) :
    targets (.ofGrammar g) ((Lookahead.ofGrammar g).ofProduction p) p.head =
      .ok ((Lookahead.ofGrammar g).targets p) := by
  have hfollow : fetch (Lookahead.ofGrammar g).follow p.head =
      .ok ((Lookahead.ofGrammar g).follow.get p.head) :=
    fetch_of_complete (complete_follow h) (h.head_lt p hp) ∅
  simp only [targets, Lookahead.targets, hfollow, ok_bind]
  split
  · rfl
  · rw [List.append_nil]
    rfl

theorem enterRule_eq (h : g.WellNumbered) {p : Production} {i : Nat}
    (hp : (p, i) ∈ g.productions.zipIdx) (grid : Grid) :
    enterRule g (.ofGrammar g) (g.productions.map (Lookahead.ofGrammar g).ofProduction) grid
        (p, i) =
      (((Lookahead.ofGrammar g).targets p).map fun t => ⟨p.head, t, i⟩).foldlM (enter g) grid := by
  have hget := List.mem_zipIdx_iff_getElem?.mp hp
  have hfirst : fetch (g.productions.map (Lookahead.ofGrammar g).ofProduction) i =
      .ok ((Lookahead.ofGrammar g).ofProduction p) := by
    rw [fetch_eq_ok_iff, List.getElem?_map, hget]
    rfl
  rw [enterRule, hfirst, ok_bind, targets_eq_ok h (List.mem_of_getElem? hget), ok_bind,
    List.foldlM_map]

theorem build_eq (h : g.WellNumbered) :
    build g = ((Lookahead.ofGrammar g).predictions g).foldlM (enter g) (blank g) := by
  rw [build, compute_eq_ok h, ok_bind, Lookahead.predictions, foldlM_flatMap]
  exact foldlM_congr fun grid p hp => enterRule_eq h hp grid

theorem inRange_of_mem_predictions (h : g.WellNumbered) {c : Cell}
    (hc : c ∈ (Lookahead.ofGrammar g).predictions g) : c.InRange g := by
  obtain ⟨p, hp, hrow, hpredicts⟩ := (Lookahead.mem_predictions_iff h).mp hc
  have hmem := List.mem_of_getElem? hp
  obtain ⟨hlt, -⟩ := List.getElem?_eq_some_iff.mp hp
  refine ⟨?_, hpredicts.lt h hmem, ?_⟩
  · rw [hrow]
    exact h.head_lt p hmem
  · rwa [Grammar.rules, List.length_map]

/-- A grid is refused with the error for the table, or holds the entries of the table. -/
theorem build_of_ofLookahead (h : g.WellNumbered) :
    (∀ e, ParseTable.ofLookahead g (.ofGrammar g) = .error e → build g = .error (.refused e)) ∧
    ∀ table, ParseTable.ofLookahead g (.ofGrammar g) = .ok table →
      ∃ grid, build g = .ok grid ∧ Holds table.grammar grid table.cells := by
  have hrun := (Holds.blank g).foldlM_enter fun c hc => inRange_of_mem_predictions h hc
  rw [← build_eq h] at hrun
  constructor
  · intro e he
    obtain ⟨d, c, hclash, rfl⟩ := ParseTable.ofLookahead_eq_error_iff.mp he
    exact hrun.1 d c hclash
  · intro table htable
    obtain ⟨rfl, hpairwise⟩ := ParseTable.ofLookahead_eq_ok_iff.mp htable
    have hclash : ParseTable.clash? [] ((Lookahead.ofGrammar g).predictions g) = none := by
      refine (ParseTable.clash?_eq_none_iff _ _).mpr ⟨?_, hpairwise⟩
      exact fun _ _ _ hd => absurd hd List.not_mem_nil
    obtain ⟨grid, hgrid, hholds⟩ := hrun.2 hclash
    exact ⟨grid, hgrid, hholds.of_mem_iff fun c => by simp⟩

end Building

/-! ## Answers -/

/-- The grid has the rows, columns and rules of the table, the numbers of names do not lead beyond
it, and its answers and its text are those of the table. -/
structure Serves (table : ParseTable) (grid : Grid) : Prop where
  rows : grid.length = table.grammar.nonTerminals.length
  columns : ∀ row ∈ grid, row.length = table.grammar.terminals.length
  rule_lt : ∀ row ∈ grid, ∀ k, some k ∈ row → k < table.grammar.rules.length
  row_lt : ∀ name i, table.grammar.nonTerminalTable.index? name = some i → i < grid.length
  column_lt : ∀ name j, table.grammar.terminalTable.index? name = some j →
    ∀ row ∈ grid, j < row.length
  lookup : ∀ nonTerminal terminal, lookup table.grammar grid nonTerminal terminal =
    .ok (table.lookup nonTerminal terminal)
  text : text table.grammar grid = .ok table.text

section Answers

variable {table : ParseTable} {grid : Grid} {i j : Nat} {name : String}

theorem lt_of_index?_ofList {names : List String}
    (h : (NameTable.ofList names).index? name = some i) : i < names.length := by
  rw [NameTable.index?_eq_some_iff] at h
  obtain ⟨hlt, -⟩ := List.getElem?_eq_some_iff.mp h
  have hnodup := (NameTable.ofList names).distinct
  have hsubset : (NameTable.ofList names).names ⊆ names :=
    fun _ ha => NameTable.mem_names_ofList.mp ha
  exact Nat.lt_of_lt_of_le hlt (hnodup.length_le_of_subset hsubset)

theorem row_lt_of_index? {g : Grammar} (h : g.nonTerminalTable.index? name = some i) :
    i < g.nonTerminals.length := by
  simpa using lt_of_index?_ofList h

theorem column_lt_of_index? {g : Grammar} (h : g.terminalTable.index? name = some j) :
    j < g.terminals.length := by
  simpa using lt_of_index?_ofList h

theorem lookup_eq_ok (h : Holds table.grammar grid table.cells) (nonTerminal terminal : String) :
    lookup table.grammar grid nonTerminal terminal = .ok (table.lookup nonTerminal terminal) := by
  rw [lookup, ParseTable.lookup]
  cases hrow : table.grammar.nonTerminalTable.index? nonTerminal with
  | none => rfl
  | some i =>
      cases hcolumn : table.grammar.terminalTable.index? terminal with
      | none => rfl
      | some j => exact h.answer_eq (row_lt_of_index? hrow) (column_lt_of_index? hcolumn)

theorem rowLines_eq_ok (h : Holds table.grammar grid table.cells) {A : Document.Token}
    (hA : (A, i) ∈ table.grammar.nonTerminals.zipIdx) :
    rowLines table.grammar grid (A, i) = .ok (table.rowLines A.text i) := by
  have hi : i < table.grammar.nonTerminals.length := List.snd_lt_of_mem_zipIdx hA
  have hlines : table.grammar.terminals.zipIdx.mapM (fun q => do
      let r ← answer table.grammar grid i q.2
      return cellLine q.1.text r) =
      .ok (table.grammar.terminals.zipIdx.map fun q => table.cellLine i q.1.text q.2) := by
    apply mapM_eq_ok
    rintro ⟨t, j⟩ ht
    have hj : j < table.grammar.terminals.length := List.snd_lt_of_mem_zipIdx ht
    rw [h.answer_eq hi hj, ok_bind, ParseTable.cellLine]
    cases table.cell? i j <;> rfl
  rw [rowLines, hlines]
  rfl

theorem text_eq_ok (h : Holds table.grammar grid table.cells) :
    text table.grammar grid = .ok table.text := by
  rw [text, mapM_eq_ok fun p hp => rowLines_eq_ok h hp]
  rfl

theorem serves_of_holds (h : Holds table.grammar grid table.cells) : Serves table grid where
  rows := h.rows
  columns := h.columns
  rule_lt := by
    intro row hrow k hk
    obtain ⟨i, hi⟩ := List.mem_iff_getElem?.mp hrow
    obtain ⟨j, hj⟩ := List.mem_iff_getElem?.mp hk
    have hentry := (h.entry?_iff i j k).mp ((entry?_of_row hi j).trans hj)
    exact (h.inRange _ hentry).rule_lt
  row_lt := by
    intro name i hi
    rw [h.rows]
    exact row_lt_of_index? hi
  column_lt := by
    intro name j hj row hrow
    rw [h.columns row hrow]
    exact column_lt_of_index? hj
  lookup := lookup_eq_ok h
  text := text_eq_ok h

end Answers

/-! ## Accepted rules -/

/-- The numbers of a grammar and of the terminals in its sets do not go beyond its lists. With every
number checked the sets are computed as they are without, and so is the table, which is refused with
the same error or served by a grid. -/
structure InRange (g : Grammar) : Prop where
  wellNumbered : g.WellNumbered
  first_lt : ∀ n, ∀ t ∈ ((Lookahead.ofGrammar g).first.get n).terminals, t < g.terminals.length
  follow_lt : ∀ n, ∀ t ∈ (Lookahead.ofGrammar g).follow.get n, t < g.terminals.length
  body_lt : ∀ p ∈ g.productions, ∀ t ∈ ((Lookahead.ofGrammar g).ofProduction p).terminals,
    t < g.terminals.length
  compute : compute g = .ok (.ofGrammar g, g.productions.map (Lookahead.ofGrammar g).ofProduction)
  refused : ∀ e, ParseTable.ofLookahead g (.ofGrammar g) = .error e →
    build g = .error (.refused e)
  served : ∀ table, ParseTable.ofLookahead g (.ofGrammar g) = .ok table →
    ∃ grid, build g = .ok grid ∧ Serves table grid

/-- No number goes beyond a list on the grammar of accepted rules, whatever the names of their
terminals are. -/
theorem inRange_of_ofRules {rules : List Rule} {g : Grammar} (h : Grammar.ofRules rules = .ok g) :
    InRange g := by
  have hnumbered := Grammar.wellNumbered_of_ofRules h
  obtain ⟨hrefused, hheld⟩ := build_of_ofLookahead hnumbered
  refine ⟨hnumbered, ?_, ?_, ?_, compute_eq_ok hnumbered, hrefused, ?_⟩
  · exact fun n t ht => Lookahead.first_lt hnumbered ht
  · exact fun n t ht => Lookahead.follow_lt hnumbered ht
  · exact fun p hp t ht => Lookahead.ofProduction_lt hnumbered hp ht
  · intro table htable
    obtain ⟨grid, hgrid, hholds⟩ := hheld table htable
    exact ⟨grid, hgrid, serves_of_holds hholds⟩

/-- Lists of a terminal that has the name of the end marker. -/
def endMarkers : List Rule :=
  [⟨⟨.nonTerminal, "<s>", .first⟩,
      [.terminal ⟨.terminal, endMarkerName, .first⟩, .nonTerminal ⟨.nonTerminal, "<s>", .first⟩]⟩,
    ⟨⟨.nonTerminal, "<s>", .first⟩, []⟩]

/-- Two terminals have one name here, and there is a table. -/
theorem inRange_of_ofRules_endMarkers : ∃ g table, Grammar.ofRules endMarkers = .ok g ∧
    ParseTable.ofLookahead g (.ofGrammar g) = .ok table ∧
    g.terminalTable.size < g.terminals.length ∧ InRange g := by
  have hrun : (Grammar.ofRules endMarkers >>= fun g => do
      let table ← ParseTable.ofLookahead g (.ofGrammar g)
      return (table.cells.length, decide (g.terminalTable.size < g.terminals.length))) =
      .ok (2, true) := by decide +kernel
  obtain ⟨g, hg, hbuilt⟩ := bind_eq_ok_iff.mp hrun
  obtain ⟨table, htable, hsizes⟩ := bind_eq_ok_iff.mp hbuilt
  have hlt := (Prod.mk.inj (Except.ok.inj hsizes)).2
  exact ⟨g, table, hg, htable, of_decide_eq_true hlt, inRange_of_ofRules hg⟩

end Checked

end LanguageSpec
