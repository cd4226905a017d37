import LanguageSpec.CharSet
import LanguageSpec.Scanner
import LanguageSpec.Text.Name

/-!
# Tokens of a regex

The meaning of a character depends on where it stands, so the scanner has three modes: outside
brackets, between them, and behind an exclusion, where the word `IN` and the set that is excluded
from are expected. Blanks are members between brackets and skipped elsewhere.
-/

namespace LanguageSpec.Regex

inductive Kind where
  | literal
  | reference
  | bar
  | star
  | plus
  | dot
  | caret
  | dash
  | openBracket
  | closeBracket
  | openGroup
  | closeGroup
  | inWord
deriving DecidableEq, Repr

abbrev Token := LanguageSpec.Token Kind

/-- Where the scanner stands. Between brackets it knows whether a token has been read since the
opening one, and whether the first was a caret. -/
inductive Mode where
  | outside
  | inside (fresh : Bool) (exclusion : Bool)
  | behindExclusion
deriving DecidableEq, Repr

def isSpace (c : Char) : Bool := c == ' ' || c == '\t'

namespace Mode

/-- The signs outside brackets. -/
def sign? (c : Char) : Option Kind :=
  if c = '|' then some .bar
  else if c = '*' then some .star
  else if c = '+' then some .plus
  else if c = '.' then some .dot
  else if c = '[' then some .openBracket
  else if c = '(' then some .openGroup
  else if c = ')' then some .closeGroup
  else none

/-- The signs between brackets. -/
def insideSign? (c : Char) : Option Kind :=
  if c = '^' then some .caret
  else if c = '-' then some .dash
  else if c = ']' then some .closeBracket
  else none

/-- A backslash with the character it escapes. -/
def readEscape (c : Char) (next : Mode) : List Char → Lexeme Mode Kind
  | d :: _ => .token .literal c (if CharSet.inAlphabet d then [d] else []) next
  | [] => .token .literal c [] next

/-- The letters of a name behind a dollar sign. -/
def nameOf : List Char → List Char
  | [] => []
  | d :: ds => if Text.isNameStart d then d :: ds.takeWhile Text.isNameRest else []

def readOutside (c : Char) (cs : List Char) : Lexeme Mode Kind :=
  if isSpace c then .skip .outside
  else if c = '\\' then readEscape c .outside cs
  else if c = '$' ∧ nameOf cs ≠ [] then .token .reference c (nameOf cs) .outside
  else match sign? c with
    | some .openBracket => .token .openBracket c [] (.inside true false)
    | some kind => .token kind c [] .outside
    | none => if CharSet.inAlphabet c then .token .literal c [] .outside else .unrecognized c [] .outside

def readInside (fresh exclusion : Bool) (c : Char) (cs : List Char) : Lexeme Mode Kind :=
  if c = '\\' then readEscape c (.inside false exclusion) cs
  else match insideSign? c with
    | some .closeBracket =>
      .token .closeBracket c [] (if exclusion then .behindExclusion else .outside)
    | some .caret => .token .caret c [] (.inside false (exclusion || fresh))
    | some kind => .token kind c [] (.inside false exclusion)
    | none =>
      if CharSet.inAlphabet c then .token .literal c [] (.inside false exclusion)
      else .unrecognized c [] (.inside fresh exclusion)

def readBehindExclusion (c : Char) (cs : List Char) : Lexeme Mode Kind :=
  if isSpace c then .skip .behindExclusion
  else if c = '[' then .token .openBracket c [] (.inside true false)
  else if c = '$' ∧ nameOf cs ≠ [] then .token .reference c (nameOf cs) .outside
  else if c = 'I' ∧ cs.head? = some 'N' then .token .inWord c ['N'] .behindExclusion
  else .unrecognized c [] .behindExclusion

/-- The lexeme in front of a text. -/
def read : Mode → Char → List Char → Lexeme Mode Kind
  | .outside, c, cs => readOutside c cs
  | .inside fresh exclusion, c, cs => readInside fresh exclusion c cs
  | .behindExclusion, c, cs => readBehindExclusion c cs

end Mode

/-- A regex lies on one line, and its columns count bytes. -/
def scanner : Scanner Mode Kind := ⟨Mode.read, Position.nextByte⟩

/-- All pieces of a regex whose first character is at `origin`. -/
def pieces (origin : Position) (text : String) : List (Piece Kind) :=
  scanner.scan .outside origin text.toList

/-- The tokens of a regex, or the first error. -/
def tokens (origin : Position) (text : String) : Except Error (List Token) :=
  (pieces origin text).mapM (Piece.toToken .unrecognizedInRegex)

end LanguageSpec.Regex
