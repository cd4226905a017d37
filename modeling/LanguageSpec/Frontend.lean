import LanguageSpec.Document.Outline
import LanguageSpec.Grammar.Table
import LanguageSpec.Regex.Reader

/-!
# Front ends

What a specification document describes: the recognizers of its definitions, and the grammar of its
rules with first sets, follow sets and parse table.
-/

namespace LanguageSpec

/-- Compiles a definition, which may refer to the names that are bound already, and binds its name
to the result. -/
def Registry.addDefinition (r : Registry) (d : Definition) : Except Error Registry := do
  let x ← Recognizer.ofText r d.regex.pos d.regex.text
  match r.define? d.name.text x with
  | some r => .ok r
  | none => .error (.malformed (.redefined d.name.text) d.name.pos)

def Registry.ofDefinitions (ds : List Definition) : Except Error Registry :=
  ds.foldlM addDefinition empty

structure Frontend where
  registry : Registry
  grammar : Grammar
  lookahead : Lookahead
  table : ParseTable

namespace Frontend

def ofOutline (o : Document.Outline) : Except Error Frontend := do
  let registry ← Registry.ofDefinitions o.definitions
  let grammar ← Grammar.ofRules o.rules
  let lookahead := Lookahead.ofGrammar grammar
  let table ← ParseTable.ofLookahead grammar lookahead
  return ⟨registry, grammar, lookahead, table⟩

def ofText (text : String) : Except Error Frontend := do
  ofOutline (← Document.Outline.ofText text)

end Frontend

end LanguageSpec
