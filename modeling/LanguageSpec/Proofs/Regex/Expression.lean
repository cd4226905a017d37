import LanguageSpec.Proofs.Regex.Grammar

/-!
# Expressions and how they are written

An expression is the syntax tree of a regex, with the language it denotes. It is written with every
character bare where its place allows that and escaped elsewhere, with parentheses around the parts
of an expression that are no atoms, and with a blank behind each token outside brackets.
-/

open Computability

namespace LanguageSpec

/-- The language of a name; a name that is not bound has no words. -/
def Registry.language (r : Registry) (name : String) : Language Char :=
  match r.get? name with
  | some x => x.fragment.language
  | none => 0

namespace Regex

/-- A character of the alphabet. -/
abbrev Printable := {c : Char // CharSet.inAlphabet c = true}

/-- A member between brackets. No range descends. -/
inductive Member where
  | char (c : Printable)
  | range (lo hi : Printable) (h : lo.val ≤ hi.val)

/-- What is written between brackets. -/
structure Bracket where
  members : List Member
  nonempty : members ≠ []

/-- What an exclusion takes its characters from. -/
inductive Operand where
  | bracket (b : Bracket)
  | named (name : String)

inductive Expression where
  | char (c : Printable)
  | dot
  | bracket (b : Bracket)
  | exclusion (excluded : Bracket) (operand : Operand)
  | named (name : String)
  | empty
  | append (e f : Expression)
  | union (e f : Expression)
  | star (e : Expression)
  | plus (e : Expression)

/-! ## Languages -/

def Member.set : Member → Set Char
  | .char c => {c.val}
  | .range lo hi _ => {c | lo.val ≤ c ∧ c ≤ hi.val}

def Bracket.set (b : Bracket) : Set Char := {c | ∃ m ∈ b.members, c ∈ m.set}

def Operand.set (registry : Registry) : Operand → Set Char
  | .bracket b => b.set
  | .named name => {c | [c] ∈ registry.language name}

/-- Whether an operand is a bracket, or a name that was defined as a mere character class. -/
def Operand.Resolves (registry : Registry) : Operand → Prop
  | .bracket _ => True
  | .named name => ∃ x s, registry.get? name = some x ∧ x.charClass = some s

namespace Expression

def language (registry : Registry) : Expression → Language Char
  | .char c => {[c.val]}
  | .dot => Fragment.letters {c | c ∈ CharSet.dot}
  | .bracket b => Fragment.letters b.set
  | .exclusion excluded operand => Fragment.letters (operand.set registry \ excluded.set)
  | .named name => registry.language name
  | .empty => 1
  | .append e f => e.language registry * f.language registry
  | .union e f => e.language registry + f.language registry
  | .star e => (e.language registry)∗
  | .plus e => e.language registry * (e.language registry)∗

/-- Whether every name stands for what its place asks for. -/
def Resolves (registry : Registry) : Expression → Prop
  | .named name => ∃ x, registry.get? name = some x
  | .exclusion _ operand => operand.Resolves registry
  | .append e f => e.Resolves registry ∧ f.Resolves registry
  | .union e f => e.Resolves registry ∧ f.Resolves registry
  | .star e => e.Resolves registry
  | .plus e => e.Resolves registry
  | .char _ => True
  | .dot => True
  | .bracket _ => True
  | .empty => True

end Expression

/-! ## Texts -/

/-- A token as it is written, with a blank behind it or none. -/
structure Written where
  kind : Kind
  text : List Char
  spaced : Bool

namespace Written

def chars (w : Written) : List Char := if w.spaced then w.text ++ [' '] else w.text

def word (w : Written) : Kind × String := (w.kind, String.ofList w.text)

/-- A token outside brackets. -/
def apart (kind : Kind) (text : List Char) : Written := ⟨kind, text, true⟩

/-- A token between brackets, or the bracket that opens them. -/
def tight (kind : Kind) (text : List Char) : Written := ⟨kind, text, false⟩

/-- A character outside brackets. -/
def literal (c : Char) : Written :=
  apart .literal (if (bare? c).isSome then [c] else ['\\', c])

/-- A character between brackets. -/
def member (c : Char) : Written := tight .literal (CharSet.bracketChar c)

def reference (name : String) : Written := apart .reference ('$' :: name.toList)

end Written

open Written (apart tight)

def Member.written : Member → List Written
  | .char c => [.member c.val]
  | .range lo hi _ => [.member lo.val, tight .dash ['-'], .member hi.val]

namespace Bracket

def written (b : Bracket) : List Written := b.members.flatMap Member.written

def enclosed (b : Bracket) : List Written :=
  tight .openBracket ['['] :: b.written ++ [apart .closeBracket [']']]

end Bracket

def Operand.written : Operand → List Written
  | .bracket b => b.enclosed
  | .named name => [.reference name]

namespace Expression

/-- Whether a repetition may follow an expression as it is written. -/
def isAtom : Expression → Bool
  | .char _ => true
  | .dot => true
  | .bracket _ => true
  | .exclusion _ _ => true
  | .named _ => true
  | .empty => false
  | .append _ _ => false
  | .union _ _ => false
  | .star _ => false
  | .plus _ => false

/-- An expression as a part of another one: in parentheses, unless it is an atom. -/
def part (isAtom : Bool) (ws : List Written) : List Written :=
  if isAtom then ws else apart .openGroup ['('] :: ws ++ [apart .closeGroup [')']]

def written : Expression → List Written
  | .char c => [.literal c.val]
  | .dot => [apart .dot ['.']]
  | .bracket b => b.enclosed
  | .exclusion excluded operand =>
    tight .openBracket ['['] :: tight .caret ['^'] :: excluded.written ++
      [apart .closeBracket [']'], apart .inWord ['I', 'N']] ++ operand.written
  | .named name => [.reference name]
  | .empty => []
  | .append e f => part e.isAtom e.written ++ part f.isAtom f.written
  | .union e f => part e.isAtom e.written ++ apart .bar ['|'] :: part f.isAtom f.written
  | .star e => part e.isAtom e.written ++ [apart .star ['*']]
  | .plus e => part e.isAtom e.written ++ [apart .plus ['+']]

def text (e : Expression) : String := String.ofList (e.written.flatMap Written.chars)

end Expression

end Regex

end LanguageSpec
