import LanguageSpec.Position
import LanguageSpec.Text.Quoted

/-!
# Errors

Everything that can be wrong with a specification, by cause. `Error.message` is the one place where
the causes are put into words.
-/

namespace LanguageSpec

/-- What a regex may leave open at its end. -/
inductive Construct where
  | group
  | characterClass
  | characterRange
  | exclusion
deriving DecidableEq, Repr

def Construct.name : Construct → String
  | .group => "group"
  | .characterClass => "character class"
  | .characterRange => "character range"
  | .exclusion => "exclusion"

/-- A reason why a piece of text cannot stand where it does. -/
inductive Malformation where
  | unrecognized (text : String)
  | unrecognizedInRegex (text : String)
  | unexpected (text : String)
  | unexpectedAmong (found : String) (expected : List String)
  | invalidCharacter (text : String)
  | emptyClass
  | bareCaret
  | rangeWithoutStart
  | emptyRange (lo hi : Char)
  | redefined (name : String)
  | note (text : String)
deriving DecidableEq, Repr

def Malformation.message : Malformation → String
  | .unrecognized t => s!"unrecognized input {Text.quoted t.toList}"
  | .unrecognizedInRegex t => s!"unrecognized input {Text.quoted t.toList} in regex"
  | .unexpected t => s!"unexpected `{t}`"
  | .unexpectedAmong found expected => s!"unexpected {found}, expected " ++ ", ".intercalate expected
  | .invalidCharacter t => s!"`{t}` is not a valid character here"
  | .emptyClass => "empty character class"
  | .bareCaret => "`^` must be escaped inside a character class"
  | .rangeWithoutStart => "range without a start character"
  | .emptyRange lo hi => s!"empty range `{lo}-{hi}`"
  | .redefined name => s!"`${name}` is already defined"
  | .note t => t

/-- A reason why the structure around a place is wrong. -/
inductive Misstructure where
  | unterminated (construct : Construct)
  | nestedExclusion
  | finalized
  | note (text : String)
deriving DecidableEq, Repr

def Misstructure.message : Misstructure → String
  | .unterminated c => s!"unterminated {c.name}"
  | .nestedExclusion => "nested exclusion is not supported"
  | .finalized => "fragment already finalized"
  | .note t => t

inductive Error where
  | malformed (what : Malformation) (pos : Position)
  | undefinedReference (name : String) (pos : Position)
  | notACharacterClass (name : String) (pos : Position)
  | conflict (nonTerminal terminal existing incoming : String)
  | misstructured (what : Misstructure) (pos : Position)
deriving DecidableEq, Repr

namespace Error

def message : Error → String
  | .malformed what pos => s!"syntax error at {pos.text}: {what.message}"
  | .undefinedReference name pos => s!"undefined reference `{name}` at {pos.text}"
  | .notACharacterClass name pos =>
    s!"exclusion may only be applied to a character class, `{name}` is not one (at {pos.text})"
  | .conflict nonTerminal terminal existing incoming =>
    s!"grammar is not LL(1): `{existing}` and `{incoming}` both apply to ({nonTerminal}, {terminal})"
  | .misstructured what pos => s!"structural error at {pos.text}: {what.message}"

/-- The place an error points at. A conflict concerns the grammar as a whole and has none. -/
def position? : Error → Option Position
  | .malformed _ pos => some pos
  | .undefinedReference _ pos => some pos
  | .notACharacterClass _ pos => some pos
  | .conflict .. => none
  | .misstructured _ pos => some pos

end Error

end LanguageSpec
