import LanguageSpec.Scanner
import LanguageSpec.Text.Blank
import LanguageSpec.Text.Name

/-!
# Tokens of a specification document

A document is read line by line: definitions with a dollar sign in front, productions, block ends,
and comments from two dashes to the end of the line. The regex of a definition is the rest of its
line, so a definition line has no comment.
-/

namespace LanguageSpec.Document

inductive Kind where
  | definition
  | regex
  | nonTerminal
  | terminal
  | arrow
  | bar
  | epsilon
  | lineFeed
  | blockEnd
  | endOfText
deriving DecidableEq, Repr

abbrev Token := LanguageSpec.Token Kind

def isSpace (c : Char) : Bool := c == ' ' || c == '\t' || c == '\r' || c == '\x0c'

/-- Signs that are terminals on their own. -/
def isSign (c : Char) : Bool :=
  ("-~`!@#%^&*+=\\<>?/;()[]\x7b\x7d,.'\":").toList.contains c

/-- The letters between the brackets of a non-terminal, behind the first. -/
def isBracketedRest (c : Char) : Bool := Text.isNameRest c || c == '-'

def restOfLine (cs : List Char) : List Char := cs.takeWhile (· ≠ '\n')

/-- The word that tells an empty alternative from an identifier. -/
def epsilonWord : List Char := ['E', 'P', 'S', 'I', 'L', 'O', 'N']

/-! ## Patterns -/

/-- The patterns of what is written in a document, apart from the space between. -/
inductive Pattern where
  | lineFeed
  | comment
  | definition
  | blockEnd
  | arrow
  | bar
  | epsilon
  | nonTerminal
  | identifier
  | sign
deriving DecidableEq, Repr

/-- The kind of the token that a pattern is read to. A comment is read to none. -/
def Pattern.kind? : Pattern → Option Kind
  | .lineFeed => some .lineFeed
  | .comment => none
  | .definition => some .definition
  | .blockEnd => some .blockEnd
  | .arrow => some .arrow
  | .bar => some .bar
  | .epsilon => some .epsilon
  | .nonTerminal => some .nonTerminal
  | .identifier => some .terminal
  | .sign => some .terminal

/-- What is taken off the front of a text: its pattern, if it has one, and its characters behind the
first. -/
structure Found where
  pattern : Option Pattern
  more : List Char
deriving DecidableEq, Repr

/-- The name in front of a text, if one starts there. -/
def nameIn (isRest : Char → Bool) : List Char → List Char
  | [] => []
  | d :: ds => if Text.isNameStart d then d :: ds.takeWhile isRest else []

/-- What belongs to a definition behind its name: the rest of the line, if a blank is in front. -/
def definitionRest : List Char → List Char
  | [] => []
  | c :: cs => if c = ' ' ∨ c = '\t' then restOfLine (c :: cs) else []

/-- What an opening angle bracket begins, given the name behind it and the text behind the name. -/
def munchAngle (name rest : List Char) : Found :=
  if name = [] then ⟨some .sign, []⟩
  else if rest.head? = some '>' then ⟨some .nonTerminal, name ++ ['>']⟩
  else ⟨none, name⟩

/-- The longest piece in front of a text that has a pattern. -/
def munch (c : Char) (cs : List Char) : Found :=
  if c = '\n' then ⟨some .lineFeed, []⟩
  else if c = '$' then
    let name := nameIn Text.isNameRest cs
    if name = [] then ⟨none, []⟩
    else ⟨some .definition, name ++ definitionRest (cs.drop name.length)⟩
  else if c = '<' then
    let name := nameIn isBracketedRest cs
    munchAngle name (cs.drop name.length)
  else if c = '|' then ⟨some .bar, []⟩
  else if c = '-' ∧ cs.head? = some '-' then ⟨some .comment, restOfLine cs⟩
  else if c = '-' ∧ cs.head? = some '>' then ⟨some .arrow, ['>']⟩
  else if c = ':' ∧ cs.take 2 = [':', '='] then ⟨some .arrow, [':', '=']⟩
  else if c = '%' ∧ cs.head? = some '%' then ⟨some .blockEnd, ['%']⟩
  else if Text.isNameStart c then
    let name := cs.takeWhile Text.isNameRest
    ⟨some (if c :: name = epsilonWord then .epsilon else .identifier), name⟩
  else if isSign c then ⟨some .sign, []⟩
  else ⟨none, []⟩

/-! ## Lexemes -/

abbrev DocumentLexeme := Lexeme Unit Kind

/-- A definition without its dollar sign: its name and its regex, which has no blanks at either end
and may be empty. -/
def definitionMarks (more : List Char) : List (Mark Kind) :=
  let name := more.takeWhile Text.isNameRest
  let rest := more.dropWhile Text.isNameRest
  let blanks := rest.takeWhile Text.isBlank
  let regex := Text.trimRight (rest.dropWhile Text.isBlank)
  [⟨some .definition, 0, name⟩, ⟨some .regex, 1 + name.length + blanks.length, regex⟩]

def Found.marks (x : Found) (c : Char) : List (Mark Kind) :=
  match x.pattern with
  | none => [⟨none, 0, c :: x.more⟩]
  | some .definition => definitionMarks x.more
  | some p => p.kind?.toList.map fun kind => ⟨some kind, 0, c :: x.more⟩

def Found.lexeme (x : Found) (c : Char) : DocumentLexeme := ⟨x.more.length, x.marks c, ()⟩

def read (c : Char) (cs : List Char) : DocumentLexeme :=
  if isSpace c then .skip () else (munch c cs).lexeme c

/-- Lines and columns count characters. -/
def scanner : Scanner Unit Kind := ⟨fun _ => read, Position.next⟩

def pieces (text : String) : List (Piece Kind) :=
  scanner.scan () .first text.toList

def endPosition (text : String) : Position := scanner.behindAll .first text.toList

/-- What closes a list of tokens: a line feed, if the last token is none, and the end of the
text. -/
def closing (text : String) (ts : List Token) : List Token :=
  let stop := endPosition text
  let feed :=
    match ts.getLast? with
    | some t => if t.kind = .lineFeed then [] else [⟨.lineFeed, "\n", stop⟩]
    | none => []
  feed ++ [⟨.endOfText, "", stop⟩]

/-- The tokens of a document, or the first error. -/
def tokens (text : String) : Except Error (List Token) := do
  let ts ← (pieces text).mapM (Piece.toToken .unrecognized)
  return ts ++ closing text ts

end LanguageSpec.Document
