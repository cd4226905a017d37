import LanguageSpec.Grammar.Follow

/-!
# Lookahead

The first and follow sets of a grammar together, and the lines in which they are listed.
-/

namespace LanguageSpec

structure Lookahead where
  first : FirstFamily
  follow : FollowFamily
deriving DecidableEq

namespace Lookahead

def ofGrammar (g : Grammar) : Lookahead :=
  let first := g.firstSets
  ⟨first, g.followSets first⟩

/-- The first set of the body of a rule. -/
def ofProduction (s : Lookahead) (p : Production) : FirstSet := s.first.ofSequence p.body

/-! ## Listing -/

/-- The names of terminals, a comma and a blank behind each. A number beyond the table is shown as a
question mark. -/
def terminalNames (table : NameTable) (s : SortedSet Nat) : String :=
  String.join (s.toList.map fun t => (table.name? t).getD "?" ++ ", ")

def firstLine (table : NameTable) (name : String) (s : FirstSet) : String :=
  let vanish := if s.epsilon then "`empty', " else ""
  s!"FIRST,{name},\x7b{vanish}{terminalNames table s.terminals}\x7d\n"

def followLine (table : NameTable) (name : String) (s : SortedSet Nat) : String :=
  s!"FOLLOW,{name},\x7b{terminalNames table s}\x7d\n"

/-- The first sets of all non-terminals, then the follow sets, one on a line. -/
def text (g : Grammar) (s : Lookahead) : String :=
  let table := g.terminalTable
  let names := g.nonTerminalTable.names.zipIdx
  String.join (names.map fun p => firstLine table p.1 (s.first.get p.2)) ++
    String.join (names.map fun p => followLine table p.1 (s.follow.get p.2))

end Lookahead

end LanguageSpec
