import LanguageSpec.Rule

/-!
# Outline of a document

The definitions and rules that a list of tokens spells. The tokens are read one at a time; the
stage says what may come next.

    document    = (definition | line feed)* block end
                  ((production | line feed)* block end)* (production | line feed)* end of text
    definition  = name regex line feed
    production  = non-terminal arrow alternative (bar alternative)* line feed
    alternative = epsilon | symbol*
-/

namespace LanguageSpec

structure Definition where
  name : Document.Token
  regex : Document.Token
deriving DecidableEq, Repr

namespace Document

structure Outline where
  definitions : List Definition
  rules : List Rule
deriving DecidableEq, Repr

/-- Where the reading of a document stands. -/
inductive Stage where
  | definitions
  | named (name : Token)
  | defined (name regex : Token)
  | productions
  | headed (head : Token)
  | alternative (head : Token)
  | symbols (head : Token) (body : List Symbol)
  | emptied (head : Token)
  | ended
deriving DecidableEq, Repr

/-- What may come next, in the words of an error. -/
def Stage.expected : Stage → List String
  | .definitions => ["definition", "end of line", "`%%`"]
  | .named _ => ["regex"]
  | .defined .. => ["end of line"]
  | .productions => ["non-terminal", "end of line", "`%%`", "end of input"]
  | .headed _ => ["`->`"]
  | .alternative _ => ["EPSILON", "symbol", "`|`", "end of line"]
  | .symbols .. => ["symbol", "`|`", "end of line"]
  | .emptied _ => ["`|`", "end of line"]
  | .ended => ["end of input"]

structure Progress where
  outline : Outline
  stage : Stage
deriving DecidableEq, Repr

namespace Progress

def initial : Progress := ⟨⟨[], []⟩, .definitions⟩

def goTo (p : Progress) (stage : Stage) : Progress := { p with stage }

def addRule (p : Progress) (head : Token) (body : List Symbol) (stage : Stage) : Progress :=
  ⟨⟨p.outline.definitions, p.outline.rules ++ [⟨head, body⟩]⟩, stage⟩

def addDefinition (p : Progress) (name regex : Token) : Progress :=
  ⟨⟨p.outline.definitions ++ [⟨name, regex⟩], p.outline.rules⟩, .definitions⟩

/-- Reads one token, if it may come next. -/
def step? (p : Progress) (t : Token) : Option Progress :=
  match p.stage, t.kind with
  | .definitions, .definition => some (p.goTo (.named t))
  | .definitions, .lineFeed => some p
  | .definitions, .blockEnd => some (p.goTo .productions)
  | .named name, .regex => some (p.goTo (.defined name t))
  | .defined name regex, .lineFeed => some (p.addDefinition name regex)
  | .productions, .nonTerminal => some (p.goTo (.headed t))
  | .productions, .lineFeed => some p
  | .productions, .blockEnd => some p
  | .productions, .endOfText => some (p.goTo .ended)
  | .headed head, .arrow => some (p.goTo (.alternative head))
  | .alternative head, .epsilon => some (p.goTo (.emptied head))
  | .alternative head, .terminal => some (p.goTo (.symbols head [.terminal t]))
  | .alternative head, .nonTerminal => some (p.goTo (.symbols head [.nonTerminal t]))
  | .alternative head, .bar => some (p.addRule head [] (.alternative head))
  | .alternative head, .lineFeed => some (p.addRule head [] .productions)
  | .symbols head body, .terminal => some (p.goTo (.symbols head (body ++ [.terminal t])))
  | .symbols head body, .nonTerminal => some (p.goTo (.symbols head (body ++ [.nonTerminal t])))
  | .symbols head body, .bar => some (p.addRule head body (.alternative head))
  | .symbols head body, .lineFeed => some (p.addRule head body .productions)
  | .emptied head, .bar => some (p.addRule head [] (.alternative head))
  | .emptied head, .lineFeed => some (p.addRule head [] .productions)
  | _, _ => none

end Progress

/-- A token in the words of an error. -/
def describe (t : Token) : String :=
  match t.kind with
  | .lineFeed => "end of line"
  | .endOfText => "end of input"
  | .definition => s!"definition `${t.text}`"
  | _ => s!"`{t.text}`"

def unexpected (stage : Stage) (t : Token) : Error :=
  .malformed (.unexpectedAmong (describe t) stage.expected) t.pos

/-- The place of the last token, at which the end of the tokens is reported. -/
def lastPosition (ts : List Token) : Position :=
  match ts.getLast? with
  | some t => t.pos
  | none => .first

def unfinished (stage : Stage) (ts : List Token) : Error :=
  .malformed (.unexpectedAmong "end of input" stage.expected) (lastPosition ts)

namespace Progress

/-- Reads one token or fails at it. -/
def step (p : Progress) (t : Token) : Except Error Progress :=
  match p.step? t with
  | some p => .ok p
  | none => .error (unexpected p.stage t)

end Progress

namespace Outline

def ofTokens (ts : List Token) : Except Error Outline := do
  let p ← ts.foldlM Progress.step Progress.initial
  if p.stage = .ended then .ok p.outline else .error (unfinished p.stage ts)

def ofText (text : String) : Except Error Outline := do
  ofTokens (← tokens text)

end Outline

end Document

end LanguageSpec
