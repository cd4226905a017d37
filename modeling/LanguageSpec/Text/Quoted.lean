import LanguageSpec.Text.Printable

/-!
# Quoted text

A text shown between double quotes: the quote and the backslash are escaped, line feed, carriage
return, tab and the null character have short names, and every other character that is not
printable is given by its code point in hexadecimal.
-/

namespace LanguageSpec.Text

/-- How one character is written between quotes. -/
def quoteChar (c : Char) : List Char :=
  if c = '"' then ['\\', '"']
  else if c = '\\' then ['\\', '\\']
  else if c = '\n' then ['\\', 'n']
  else if c = '\r' then ['\\', 'r']
  else if c = '\t' then ['\\', 't']
  else if c.toNat = 0 then ['\\', '0']
  else if isPrintable c then [c]
  else ['\\', 'u', '\x7b'] ++ Nat.toDigits 16 c.toNat ++ ['\x7d']

/-- A text between double quotes. -/
def quoted (cs : List Char) : String :=
  String.ofList ('"' :: cs.flatMap quoteChar ++ ['"'])

end LanguageSpec.Text
