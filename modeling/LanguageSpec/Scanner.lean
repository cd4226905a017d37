import LanguageSpec.Error
import LanguageSpec.Token

/-!
# Scanners

A scanner cuts a text into lexemes. In its current mode it looks at the text that is left, takes at
least one character, and says which tokens start where in the characters it took. What it does not
take into a token is skipped, or reported as unrecognized.
-/

namespace LanguageSpec

/-- A piece of a text that is reported: a token, or text that no token starts with. -/
inductive Piece (κ : Type) where
  | token (t : Token κ)
  | unrecognized (text : String) (pos : Position)
deriving DecidableEq, Repr

/-- A piece as it lies in its lexeme, `lead` characters from the start; without a kind it is
unrecognized. -/
structure Mark (κ : Type) where
  kind : Option κ
  lead : Nat
  text : List Char

/-- What is taken from the front of a text: one character and `more` behind it. -/
structure Lexeme (σ κ : Type) where
  more : Nat
  marks : List (Mark κ)
  next : σ

namespace Lexeme

variable {σ κ : Type}

def skip (next : σ) : Lexeme σ κ := ⟨0, [], next⟩

/-- A token that spans the whole lexeme. -/
def token (kind : κ) (c : Char) (cs : List Char) (next : σ) : Lexeme σ κ :=
  ⟨cs.length, [⟨some kind, 0, c :: cs⟩], next⟩

def unrecognized (c : Char) (cs : List Char) (next : σ) : Lexeme σ κ :=
  ⟨cs.length, [⟨none, 0, c :: cs⟩], next⟩

end Lexeme

/-- How texts are scanned: the lexeme in front of a text, and the place behind a character. -/
structure Scanner (σ κ : Type) where
  read : σ → Char → List Char → Lexeme σ κ
  behind : Position → Char → Position

namespace Scanner

variable {σ κ : Type}

def behindAll (s : Scanner σ κ) (pos : Position) (cs : List Char) : Position :=
  cs.foldl s.behind pos

/-- A marked piece of the lexeme that starts at `pos` and in front of which `text` is left. -/
def place (s : Scanner σ κ) (pos : Position) (text : List Char) (m : Mark κ) : Piece κ :=
  let here := s.behindAll pos (text.take m.lead)
  match m.kind with
  | some kind => .token ⟨kind, String.ofList m.text, here⟩
  | none => .unrecognized (String.ofList m.text) here

/-- All pieces of a text whose first character is at `pos`. -/
def scan (s : Scanner σ κ) (mode : σ) (pos : Position) : List Char → List (Piece κ)
  | [] => []
  | c :: cs =>
    let x := s.read mode c cs
    x.marks.map (s.place pos (c :: cs)) ++
      s.scan x.next (s.behindAll pos (c :: cs.take x.more)) (cs.drop x.more)
termination_by text => text.length
decreasing_by
  rw [List.length_drop, List.length_cons]
  omega

theorem scan_nil (s : Scanner σ κ) (mode : σ) (pos : Position) : s.scan mode pos [] = [] := by
  rw [scan]

theorem scan_cons (s : Scanner σ κ) (mode : σ) (pos : Position) (c : Char) (cs : List Char) :
    s.scan mode pos (c :: cs) =
      (s.read mode c cs).marks.map (s.place pos (c :: cs)) ++
        s.scan (s.read mode c cs).next (s.behindAll pos (c :: cs.take (s.read mode c cs).more))
          (cs.drop (s.read mode c cs).more) := by
  rw [scan]

end Scanner

/-- The token of a piece; unrecognized text is an error whose cause is worded by `what`. -/
def Piece.toToken {κ : Type} (what : String → Malformation) : Piece κ → Except Error (Token κ)
  | .token t => .ok t
  | .unrecognized text pos => .error (.malformed (what text) pos)

end LanguageSpec
