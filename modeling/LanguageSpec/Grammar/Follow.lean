import LanguageSpec.Grammar.First

/-!
# Follow sets

The terminals that can stand behind a non-terminal. The end marker can stand behind the start
symbol. As with first sets, a family grows in passes over the rules.
-/

namespace LanguageSpec

abbrev FollowFamily := List (SortedSet Nat)

namespace FollowFamily

def get (f : FollowFamily) (n : Nat) : SortedSet Nat := f.getD n ∅

end FollowFamily

/-- A non-terminal in the body of a rule, with what stands behind it there. -/
structure Occurrence where
  head : Nat
  nonTerminal : Nat
  behind : List SymbolId
deriving DecidableEq, Repr

namespace Occurrence

/-- The occurrences in a body of the non-terminal `head`. -/
def inBody (head : Nat) : List SymbolId → List Occurrence
  | [] => []
  | .terminal _ :: rest => inBody head rest
  | .nonTerminal n :: rest => ⟨head, n, rest⟩ :: inBody head rest

/-- What an occurrence says about the set behind its non-terminal. -/
def contribution (first : FirstFamily) (f : FollowFamily) (o : Occurrence) : SortedSet Nat :=
  let s := first.ofSequence o.behind
  if s.epsilon then s.terminals.union (f.get o.head) else s.terminals

/-- Adds what an occurrence says, and tells whether that is new. -/
def visit (first : FirstFamily) (r : FollowFamily × Bool) (o : Occurrence) :
    FollowFamily × Bool :=
  let s := o.contribution first r.1
  (r.1.modify o.nonTerminal (·.union s), r.2 || !s.isSubset (r.1.get o.nonTerminal))

end Occurrence

namespace Grammar

def occurrences (g : Grammar) : List Occurrence :=
  g.productions.flatMap fun p => Occurrence.inBody p.head p.body

def followPass (g : Grammar) (first : FirstFamily) (f : FollowFamily) : FollowFamily × Bool :=
  g.occurrences.foldl (Occurrence.visit first) (f, false)

def followBound (g : Grammar) (first : FirstFamily) (f : FollowFamily) : Nat :=
  f.length *
    (g.totalTerminals + weigh (fun s => s.terminals.size) first + weigh SortedSet.size f) + 1

def followPasses (g : Grammar) (first : FirstFamily) (f : FollowFamily) :
    List (FollowFamily × Bool) :=
  passes (g.followPass first) (g.followBound first f) f

def followClosure (g : Grammar) (first : FirstFamily) (f : FollowFamily) : FollowFamily :=
  settle (g.followPass first) (g.followBound first f) f

def emptyFollow (g : Grammar) : FollowFamily := g.nonTerminals.map fun _ => ∅

/-- A set for each non-terminal, with the end marker behind the start symbol. -/
def startFollow (g : Grammar) : FollowFamily :=
  match g.start? with
  | some n => g.emptyFollow.modify n (·.insert g.endIndex)
  | none => g.emptyFollow

def followSets (g : Grammar) (first : FirstFamily) : FollowFamily :=
  g.followClosure first g.startFollow

end Grammar

end LanguageSpec
