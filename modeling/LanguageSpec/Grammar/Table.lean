import LanguageSpec.Grammar.Lookahead

/-!
# Parse tables

A rule is predicted on the terminals its body can begin with and, if the body can vanish, on those
that can follow its head. A table exists if no two predictions fall into one cell, a row being a
non-terminal and a column a terminal.
-/

namespace LanguageSpec

/-- A filled cell: its row, its column, and the number of the rule in it. -/
structure Cell where
  row : Nat
  column : Nat
  rule : Nat
deriving DecidableEq, Repr

/-- Whether two entries are for one cell. -/
def Cell.meets (c d : Cell) : Bool := c.row == d.row && c.column == d.column

structure ParseTable where
  grammar : Grammar
  cells : List Cell

namespace Lookahead

/-- The terminals on which a rule is predicted, in the order of entry. -/
def targets (s : Lookahead) (p : Production) : List Nat :=
  let first := s.ofProduction p
  first.terminals.toList ++ if first.epsilon then (s.follow.get p.head).toList else []

/-- All predictions, rule by rule. -/
def predictions (g : Grammar) (s : Lookahead) : List Cell :=
  g.productions.zipIdx.flatMap fun p => (s.targets p.1).map fun t => ⟨p.1.head, t, p.2⟩

end Lookahead

namespace ParseTable

/-- The first entry that falls into the cell of an earlier one, with that one. -/
def clash? (seen : List Cell) : List Cell → Option (Cell × Cell)
  | [] => none
  | c :: cs =>
    match seen.find? c.meets with
    | some d => some (d, c)
    | none => clash? (c :: seen) cs

def ruleName (g : Grammar) (i : Nat) : String := ((g.rule? i).map Rule.text).getD ""

def conflict (g : Grammar) (existing incoming : Cell) : Error :=
  .conflict ((g.rule? incoming.rule).map (·.head.text) |>.getD "")
    (g.terminals[incoming.column]?.map Token.text |>.getD "")
    (ruleName g existing.rule) (ruleName g incoming.rule)

def ofLookahead (g : Grammar) (s : Lookahead) : Except Error ParseTable :=
  let cells := s.predictions g
  match clash? [] cells with
  | some (d, c) => .error (conflict g d c)
  | none => .ok ⟨g, cells⟩

def cell? (t : ParseTable) (row column : Nat) : Option Rule := do
  let c ← t.cells.find? fun c => c.row == row && c.column == column
  t.grammar.rule? c.rule

/-- The rule to expand a non-terminal by on a terminal, by their names. -/
def lookup (t : ParseTable) (nonTerminal terminal : String) : Option Rule := do
  let row ← t.grammar.nonTerminalTable.index? nonTerminal
  let column ← t.grammar.terminalTable.index? terminal
  t.cell? row column

/-! ## Listing -/

def cellLine (t : ParseTable) (row : Nat) (terminal : String) (column : Nat) : String :=
  match t.cell? row column with
  | some r => s!"\trule: \"{r.text}\", on: {terminal}\n"
  | none => ""

def rowLines (t : ParseTable) (nonTerminal : String) (row : Nat) : String :=
  s!"non-terminal: {nonTerminal}\n" ++
    String.join (t.grammar.terminals.zipIdx.map fun p => t.cellLine row p.1.text p.2)

def text (t : ParseTable) : String :=
  String.join (t.grammar.nonTerminals.zipIdx.map fun p => t.rowLines p.1.text p.2)

end ParseTable

end LanguageSpec
