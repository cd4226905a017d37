import LanguageSpec.Document.Token

/-!
# Symbols and rules

A symbol is an occurrence in a document, but two occurrences of a name are the same symbol if they
are both terminals or both non-terminals.
-/

namespace LanguageSpec

inductive Symbol where
  | terminal (t : Document.Token)
  | nonTerminal (t : Document.Token)
deriving DecidableEq, Repr

namespace Symbol

def token : Symbol → Document.Token
  | .terminal t => t
  | .nonTerminal t => t

def name (s : Symbol) : String := s.token.text

def isTerminal : Symbol → Bool
  | .terminal _ => true
  | .nonTerminal _ => false

def key (s : Symbol) : Bool × String := (s.isTerminal, s.name)

def same (s t : Symbol) : Bool := s.key == t.key

end Symbol

def endMarkerName : String := "$"

/-- The terminal that stands for the end of the input. It is written nowhere. -/
def endMarker : Document.Token := ⟨.endOfText, endMarkerName, .nowhere⟩

/-- One alternative of a production. -/
structure Rule where
  head : Document.Token
  body : List Symbol
deriving DecidableEq, Repr

namespace Rule

def epsilonText : String := "EPSILON"

def isEpsilon (r : Rule) : Bool := r.body.isEmpty

/-- A rule as it can be written in a document. -/
def text (r : Rule) : String :=
  let body := if r.isEpsilon then [epsilonText] else r.body.map Symbol.name
  s!"{r.head.text} ->" ++ String.join (body.map fun w => " " ++ w)

end Rule

end LanguageSpec
