import LanguageSpec.Frontend
import LanguageSpec.Regex.Journal

/-!
# Records of building a front end

Each stage is reported with its size when it is complete, so the records of a run that fails end
with the last stage it completed.
-/

namespace LanguageSpec

open Journal (Record trace debug)

namespace Document.Outline

def record (o : Outline) : Record :=
  debug s!"specification: {o.definitions.length} definitions, {o.rules.length} rules"

def journal (text : String) : List Record :=
  match ofText text with
  | .ok o => [o.record]
  | .error _ => []

end Document.Outline

namespace Registry

/-- The records of compiling one definition. A name that is bound already shows only later. -/
def journalOfDefinition (r : Registry) (d : Definition) : List Record :=
  Recognizer.journalOfText r d.regex.pos d.regex.text ++
    match Recognizer.ofText r d.regex.pos d.regex.text with
    | .ok x =>
      let kind := if x.charClass.isSome then ", character class" else ""
      [debug s!"${d.name.text}: {x.fragment.size} states{kind}"]
    | .error _ => []

/-- The records of compiling definitions, up to the first error. -/
def journalOfDefinitions (r : Registry) : List Definition → List Record
  | [] => []
  | d :: ds =>
    r.journalOfDefinition d ++
      match r.addDefinition d with
      | .ok r => r.journalOfDefinitions ds
      | .error _ => []

end Registry

namespace Grammar

def record (g : Grammar) : Record :=
  debug <|
    s!"grammar: {g.rules.length} rules, {g.nonTerminals.length} non-terminals, " ++
      s!"{g.terminals.length} terminals"

def journalOfRules (rules : List Rule) : List Record :=
  match ofRules rules with
  | .ok g => [g.record]
  | .error _ => []

def firstRecord (g : Grammar) : Record :=
  trace s!"FIRST converged after {(g.firstPasses g.emptyFirst).length} passes"

def followRecord (g : Grammar) (first : FirstFamily) : Record :=
  trace s!"FOLLOW converged after {(g.followPasses first g.startFollow).length} passes"

end Grammar

def Lookahead.journal (g : Grammar) : List Record :=
  [g.firstRecord, g.followRecord g.firstSets]

namespace ParseTable

def record (t : ParseTable) : Record :=
  debug <|
    s!"parse table: {t.grammar.nonTerminals.length} x {t.grammar.terminals.length}, " ++
      s!"{t.cells.length} cells filled"

def journal (g : Grammar) (s : Lookahead) : List Record :=
  match ofLookahead g s with
  | .ok t => [t.record]
  | .error _ => []

end ParseTable

def Grammar.journal (rules : List Rule) : List Record :=
  journalOfRules rules ++
    match ofRules rules with
    | .ok g => Lookahead.journal g ++ ParseTable.journal g (.ofGrammar g)
    | .error _ => []

def Frontend.journal (text : String) : List Record :=
  Document.Outline.journal text ++
    match Document.Outline.ofText text with
    | .error _ => []
    | .ok o =>
      Registry.empty.journalOfDefinitions o.definitions ++
        match Registry.ofDefinitions o.definitions with
        | .ok _ => Grammar.journal o.rules
        | .error _ => []

end LanguageSpec
