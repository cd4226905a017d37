import LanguageSpec.Frontend

/-!
# Reports

The text that describes a front end: its definitions, its rules, first and follow sets, the parse
table and, if asked for, the automata.
-/

namespace LanguageSpec.Frontend

def definitionLine (e : String × Recognizer) : String :=
  let kind := if e.2.charClass.isSome then "class" else "regex"
  s!"D,{e.1},{kind},{e.2.fragment.size}\n"

def definitionLines (f : Frontend) : String :=
  s!"DS,{f.registry.size}\n" ++ String.join (f.registry.entries.map definitionLine)

def ruleLine (p : Rule × Nat) : String := s!"P,{p.2},{p.1.text}\n"

def ruleLines (f : Frontend) : String :=
  s!"PS,{f.grammar.rules.length}\n" ++ String.join (f.grammar.rules.zipIdx.map ruleLine)

/-- The listing of an automaton, with an empty line in front. -/
def automatonLines (e : String × Recognizer) : String :=
  s!"\nNFA,{e.1}\n" ++ e.2.fragment.text

/-- The report on a front end, with the automata of its definitions if `automata` is set. -/
def report (f : Frontend) (automata : Bool) : String :=
  f.definitionLines ++ "\n" ++ f.ruleLines ++ "\n" ++ f.lookahead.text f.grammar ++ "\n" ++
    "TABLE\n" ++ f.table.text ++
    if automata then String.join (f.registry.entries.map automatonLines) else ""

end LanguageSpec.Frontend
