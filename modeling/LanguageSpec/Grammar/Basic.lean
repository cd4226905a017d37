import LanguageSpec.Grammar.NameTable
import LanguageSpec.Rule

/-!
# Grammars

A grammar numbers the symbols of its rules. Non-terminals are the heads, terminals the names in the
bodies, both in the order of first appearance; the end marker is the last terminal, also when a body
has a terminal of its name. The first head is the start symbol.
-/

namespace LanguageSpec

inductive SymbolId where
  | terminal (i : Nat)
  | nonTerminal (i : Nat)
deriving DecidableEq, Repr

/-- A rule with its symbols by number. -/
structure Production where
  rule : Rule
  head : Nat
  body : List SymbolId
deriving DecidableEq, Repr

structure Grammar where
  nonTerminals : List Document.Token
  bodyTerminals : List Document.Token
  productions : List Production
deriving DecidableEq, Repr

namespace Grammar

def rules (g : Grammar) : List Rule := g.productions.map Production.rule

/-- All terminals, the end marker last. -/
def terminals (g : Grammar) : List Document.Token := g.bodyTerminals ++ [endMarker]

def endIndex (g : Grammar) : Nat := g.bodyTerminals.length

/-- The number of the start symbol. -/
def start? (g : Grammar) : Option Nat :=
  if g.productions.isEmpty then none else some 0

/-- The numbers of the terminals by name. If two terminals have one name it has the first number. -/
def terminalTable (g : Grammar) : NameTable := .ofList (g.terminals.map Token.text)

def nonTerminalTable (g : Grammar) : NameTable := .ofList (g.nonTerminals.map Token.text)

def rule? (g : Grammar) (i : Nat) : Option Rule := g.rules[i]?

/-! ## Numbering -/

/-- The heads of rules, each name once. -/
def headsOf (rules : List Rule) : List Document.Token :=
  firstBy Token.text (rules.map Rule.head)

def terminal? : Symbol → Option Document.Token
  | .terminal t => some t
  | .nonTerminal _ => none

def nonTerminal? : Symbol → Option Document.Token
  | .terminal _ => none
  | .nonTerminal t => some t

def terminalsOf (rules : List Rule) : List Document.Token :=
  firstBy Token.text ((rules.flatMap Rule.body).filterMap terminal?)

/-- The first non-terminal in a body that heads no rule. -/
def undefined? (rules : List Rule) : Option Document.Token :=
  ((rules.flatMap Rule.body).filterMap nonTerminal?).find? fun t =>
    !((rules.map Rule.head).map Token.text).contains t.text

def indexIn (ts : List Document.Token) (name : String) : Nat := (ts.map Token.text).idxOf name

def numberSymbol (heads terminals : List Document.Token) : Symbol → SymbolId
  | .terminal t => .terminal (indexIn terminals t.text)
  | .nonTerminal t => .nonTerminal (indexIn heads t.text)

def numberRule (heads terminals : List Document.Token) (r : Rule) : Production :=
  ⟨r, indexIn heads r.head.text, r.body.map (numberSymbol heads terminals)⟩

/-- The grammar of some rules. Every non-terminal has to head a rule. -/
def ofRules (rules : List Rule) : Except Error Grammar :=
  match undefined? rules with
  | some t => .error (.undefinedReference t.text t.pos)
  | none =>
    let heads := headsOf rules
    let terminals := terminalsOf rules
    .ok ⟨heads, terminals, rules.map (numberRule heads terminals)⟩

end Grammar

end LanguageSpec
