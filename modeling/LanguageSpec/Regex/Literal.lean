import LanguageSpec.CharSet

/-!
# Literals

The spellings of single characters in a regex. Outside brackets fourteen characters have an escaped
form, and all of them but the dash have only that one; between brackets there are five such
characters.
-/

namespace LanguageSpec.Regex

/-- Characters with an escaped form outside brackets. -/
def escapable : List Char :=
  [' ', '"', '\'', '(', ')', '*', '+', '-', '.', '?', '[', '\\', ']', '|']

/-- The character of an escaped form outside brackets. -/
def escaped? (c : Char) : Option Char :=
  if escapable.contains c then some c else none

/-- A bare character outside brackets. -/
def bare? (c : Char) : Option Char :=
  if c = '-' ∨ (CharSet.inAlphabet c ∧ escapable.contains c = false) then some c else none

/-- The character that a literal stands for outside brackets. -/
def literal? (s : String) : Option Char :=
  match s.toList with
  | [c] => bare? c
  | ['\\', c] => escaped? c
  | _ => none

/-- The character that a literal stands for between brackets. -/
def member? (s : String) : Option Char :=
  match s.toList with
  | [c] =>
    if CharSet.inAlphabet c ∧ CharSet.bracketEscaped.contains c = false then some c else none
  | ['\\', c] => if CharSet.bracketEscaped.contains c then some c else none
  | _ => none

end LanguageSpec.Regex
