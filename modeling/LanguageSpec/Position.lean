/-!
# Positions

A position is a line and a column. In a text both count from one; the position `0, 0` belongs to
what stands in no text.
-/

namespace LanguageSpec

structure Position where
  line : Nat
  column : Nat
deriving DecidableEq, Repr

namespace Position

/-- The place of the first character of a text. -/
def first : Position := ⟨1, 1⟩

/-- The place of what was not written anywhere. -/
def nowhere : Position := ⟨0, 0⟩

/-- Lines come before columns. -/
protected def le (p q : Position) : Bool :=
  p.line < q.line || (p.line == q.line && p.column ≤ q.column)

/-- The place `n` columns to the right. -/
def right (p : Position) (n : Nat) : Position := ⟨p.line, p.column + n⟩

/-- The place behind a character, in a text with lines and columns of characters. -/
def next (p : Position) (c : Char) : Position :=
  if c = '\n' then ⟨p.line + 1, 1⟩ else p.right 1

/-- The place behind a character on a line whose columns count the bytes of the encoding. -/
def nextByte (p : Position) (c : Char) : Position := p.right c.utf8Size

def text (p : Position) : String := s!"line {p.line}, column {p.column}"

end Position

end LanguageSpec
