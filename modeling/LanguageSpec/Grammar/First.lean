import LanguageSpec.Grammar.Basic
import LanguageSpec.Grammar.Fixpoint
import LanguageSpec.SortedSet

/-!
# First sets

The terminals a non-terminal can begin with, and whether it can vanish. A family of first sets, one
for each non-terminal, grows in passes over the rules; a pass uses the sets as they are at the rule
it is at.
-/

namespace LanguageSpec

structure FirstSet where
  terminals : SortedSet Nat
  epsilon : Bool
deriving DecidableEq

namespace FirstSet

def empty : FirstSet := ⟨∅, false⟩

def contains (s : FirstSet) (t : Nat) : Bool := decide (t ∈ s.terminals)

def union (s t : FirstSet) : FirstSet :=
  ⟨s.terminals.union t.terminals, s.epsilon || t.epsilon⟩

/-- Whether everything in `t` is in `s`. -/
def covers (s t : FirstSet) : Bool :=
  t.terminals.isSubset s.terminals && (!t.epsilon || s.epsilon)

theorem covers_eq_true_iff {s t : FirstSet} :
    s.covers t = true ↔
      (∀ a ∈ t.terminals, a ∈ s.terminals) ∧ (t.epsilon = true → s.epsilon = true) := by
  rw [covers, Bool.and_eq_true, SortedSet.isSubset_eq_true_iff]
  cases t.epsilon <;> cases s.epsilon <;> simp

end FirstSet

/-- First sets by the number of the non-terminal. -/
abbrev FirstFamily := List FirstSet

namespace FirstFamily

def get (f : FirstFamily) (n : Nat) : FirstSet := f.getD n .empty

def ofSequence (f : FirstFamily) : List SymbolId → FirstSet
  | [] => ⟨∅, true⟩
  | .terminal t :: _ => ⟨SortedSet.ofList [t], false⟩
  | .nonTerminal n :: rest =>
    let s := f.get n
    if s.epsilon then
      let r := f.ofSequence rest
      ⟨s.terminals.union r.terminals, r.epsilon⟩
    else s

/-- Adds the first set of a body to that of its head, and tells whether that is new. -/
def visit (r : FirstFamily × Bool) (p : Production) : FirstFamily × Bool :=
  let s := r.1.ofSequence p.body
  (r.1.modify p.head (·.union s), r.2 || !(r.1.get p.head).covers s)

end FirstFamily

namespace Grammar

def terminalCount (body : List SymbolId) : Nat :=
  body.countP fun s => match s with
    | .terminal _ => true
    | .nonTerminal _ => false

def totalTerminals (g : Grammar) : Nat := weigh (fun p => terminalCount p.body) g.productions

def firstPass (g : Grammar) (f : FirstFamily) : FirstFamily × Bool :=
  g.productions.foldl FirstFamily.visit (f, false)

/-- More passes than can change a family: a pass that does adds a terminal or the mark of vanishing
to one of its sets, and every terminal comes from a body or was there before. -/
def firstBound (g : Grammar) (f : FirstFamily) : Nat :=
  f.length * (g.totalTerminals + weigh (fun s => s.terminals.size) f + 1) + 1

/-- The passes that a family goes through until it is closed under all rules. -/
def firstPasses (g : Grammar) (f : FirstFamily) : List (FirstFamily × Bool) :=
  passes g.firstPass (g.firstBound f) f

/-- The family that a seed grows to. -/
def firstClosure (g : Grammar) (f : FirstFamily) : FirstFamily :=
  settle g.firstPass (g.firstBound f) f

def emptyFirst (g : Grammar) : FirstFamily := g.nonTerminals.map fun _ => .empty

def firstSets (g : Grammar) : FirstFamily := g.firstClosure g.emptyFirst

end Grammar

end LanguageSpec
