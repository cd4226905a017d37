import LanguageSpec.Registry

/-!
# Regular expressions

A regex is kept as the sequence of what was read from left to right: atoms and groups, each with its
repetition, and the bars between branches. Every value is a regex that can be written, and building
its automaton takes one operation on a fragment per constructor.
-/

namespace LanguageSpec

namespace Regex

/-- How often what precedes is taken, if not once. -/
inductive Repetition where
  | star
  | plus
deriving DecidableEq, Repr

/-- What stands for itself: a character, a character class, or a name that was defined before. -/
inductive Atom where
  | char (c : Char)
  | oneOf (s : CharSet)
  | named (r : Recognizer)
deriving DecidableEq

/-- The character set of a class atom. A single character is not a class. -/
def Atom.charClass? : Atom → Option CharSet
  | .char _ => none
  | .oneOf s => some s
  | .named r => r.charClass

end Regex

/-- A regex; `bar r` closes the last branch of `r` and starts an empty one. -/
inductive Regex where
  | empty
  | atom (before : Regex) (a : Regex.Atom) (times : Option Regex.Repetition)
  | group (before : Regex) (inner : Regex) (times : Option Regex.Repetition)
  | bar (before : Regex)
deriving DecidableEq

namespace Regex

/-- The character set of a regex that is exactly one class atom. -/
def charClass? : Regex → Option CharSet
  | .atom .empty a none => a.charClass?
  | _ => none

/-! ## Automata -/

def Atom.appendTo? (f : Fragment) : Atom → Option Fragment
  | .char c => f.appendSet? (SortedSet.ofList [c])
  | .oneOf s => f.appendSet? s
  | .named r => f.append? r.fragment

def repeatLast (f : Fragment) : Option Repetition → Fragment
  | none => f
  | some .star => f.starLast
  | some .plus => f.plusLast

def repeatWhole (f : Fragment) : Option Repetition → Fragment
  | none => f
  | some .star => f.starWhole
  | some .plus => f.plusWhole

/-- The fragment of a regex. There is none only if something had to be appended to a finalized
fragment. -/
def fragment? : Regex → Option Fragment
  | .empty => some .new
  | .atom before a times => do
    let f ← before.fragment?
    return repeatLast (← a.appendTo? f) times
  | .group before inner times => do
    let f ← before.fragment?
    f.append? (repeatWhole (← inner.fragment?) times)
  | .bar before => do (← before.fragment?).alternate?

end Regex

end LanguageSpec
