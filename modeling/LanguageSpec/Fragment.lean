import LanguageSpec.CharSet

/-!
# Automaton fragments

A fragment is a nondeterministic automaton under construction. It has a tail, where the next atom
is appended, the tails of the branches that were closed, and the entry and exit of its last atom, so
that a repetition can loop just that atom. Finalizing a fragment joins all tails in one accept
state; after that nothing can be appended to it.

States are numbered from zero, which is the start state. The edges of a state keep the order in
which they were added.
-/

namespace LanguageSpec

/-- A way to leave a state, reading one character or, with no letter, nothing. -/
structure Edge where
  letter : Option Char
  target : Nat
deriving DecidableEq, Repr

/-- The edge with its target moved up by `n` states. -/
def Edge.shift (n : Nat) (e : Edge) : Edge := ⟨e.letter, n + e.target⟩

structure Fragment where
  states : List (List Edge)
  tail : Nat
  closed : List Nat
  last : Option (Nat × Nat)
  accept : Option Nat
deriving DecidableEq, Repr

namespace Fragment

def new : Fragment := ⟨[[]], 0, [], none, none⟩

def start (_ : Fragment) : Nat := 0

def size (f : Fragment) : Nat := f.states.length

def isFinalized (f : Fragment) : Bool := f.accept.isSome

/-- Adds an edge to a state unless the state has it. -/
def connect (states : List (List Edge)) (source : Nat) (e : Edge) : List (List Edge) :=
  states.modify source fun row => if e ∈ row then row else row ++ [e]

/-- Adds an edge that reads nothing. -/
def link (states : List (List Edge)) (source target : Nat) : List (List Edge) :=
  connect states source ⟨none, target⟩

/-! ## Finalizing -/

/-- The accept state that the fragment has, or will have when it is finalized. -/
def exit (f : Fragment) : Nat := f.accept.getD f.size

/-- Joins the tails of all branches in an accept state. A finalized fragment stays as it is. -/
def finalize (f : Fragment) : Fragment :=
  if f.isFinalized then f
  else
    { states := (f.closed ++ [f.tail]).foldl (fun s t => link s t f.size) (f.states ++ [[]])
      tail := f.size
      closed := []
      last := f.last
      accept := some f.size }

/-! ## Appending

These operations apply to fragments that are not finalized yet. -/

def appendSet? (f : Fragment) (s : CharSet) : Option Fragment :=
  if f.isFinalized then none
  else
    let entry := f.size
    let leave := f.size + 1
    some
      { states := link (f.states ++ [s.toList.map fun c => ⟨some c, leave⟩, []]) f.tail entry
        tail := leave
        closed := f.closed
        last := some (entry, leave)
        accept := none }

/-- Appends a copy of another fragment, finalized, as one atom. -/
def append? (f g : Fragment) : Option Fragment :=
  if f.isFinalized then none
  else
    let entry := f.size
    let leave := f.size + g.exit
    some
      { states := link (f.states ++ g.finalize.states.map (·.map (Edge.shift f.size))) f.tail entry
        tail := leave
        closed := f.closed
        last := some (entry, leave)
        accept := none }

/-- Closes the current branch and starts an empty one. -/
def alternate? (f : Fragment) : Option Fragment :=
  if f.isFinalized then none
  else some { f with tail := 0, closed := f.closed ++ [f.tail], last := none }

/-! ## Repeating -/

/-- Lets the last atom be passed by and repeated. -/
def starLast (f : Fragment) : Fragment :=
  match f.last with
  | none => f
  | some (entry, leave) => { f with states := link (link f.states entry leave) leave entry }

/-- Lets the last atom be repeated. -/
def plusLast (f : Fragment) : Fragment :=
  match f.last with
  | none => f
  | some (entry, leave) => { f with states := link f.states leave entry }

/-- Finalizes the fragment and lets the whole of it be passed by and repeated. -/
def starWhole (f : Fragment) : Fragment :=
  { f.finalize with
    states := link (link f.finalize.states 0 f.exit) f.exit 0
    last := some (0, f.exit) }

/-- Finalizes the fragment and lets the whole of it be repeated. -/
def plusWhole (f : Fragment) : Fragment :=
  { f.finalize with
    states := link f.finalize.states f.exit 0
    last := some (0, f.exit) }

@[simp] theorem accept_finalize (f : Fragment) : f.finalize.accept = some f.exit := by
  unfold finalize exit isFinalized
  cases h : f.accept <;> simp [h]

theorem finalize_of_isFinalized {f : Fragment} (h : f.isFinalized = true) : f.finalize = f := by
  simp [finalize, h]

/-! An appending operation fails exactly on a finalized fragment. -/

theorem appendSet?_eq_none_iff {f : Fragment} {s : CharSet} :
    f.appendSet? s = none ↔ f.isFinalized = true := by
  unfold appendSet?
  split <;> simp_all

theorem append?_eq_none_iff {f g : Fragment} : f.append? g = none ↔ f.isFinalized = true := by
  unfold append?
  split <;> simp_all

theorem alternate?_eq_none_iff {f : Fragment} : f.alternate? = none ↔ f.isFinalized = true := by
  unfold alternate?
  split <;> simp_all

/-! ## Listing -/

def lettersTo (row : List Edge) (target : Nat) : CharSet :=
  SortedSet.ofList (row.filterMap fun e => if e.target = target then e.letter else none)

/-- The lines for the edges of state `i` to one target: the silent edge, then the letters. -/
def linesTo (i : Nat) (row : List Edge) (target : Nat) : String :=
  (if ⟨none, target⟩ ∈ row then s!"  {i} -eps-> {target}\n" else "") ++
    let letters := lettersTo row target
    if letters.isEmpty then "" else s!"  {i} -{letters.text}-> {target}\n"

def stateLines (row : List Edge) (i : Nat) : String :=
  String.join ((SortedSet.ofList (row.map Edge.target)).toList.map (linesTo i row))

/-- A listing of all states: a head line, then a line for each pair of states and kind of edge. -/
def text (f : Fragment) : String :=
  let accept := match f.accept with
    | none => "-"
    | some a => a.repr
  s!"start: {f.start}, accept: {accept}, states: {f.size}\n" ++
    String.join (f.states.zipIdx.map fun p => stateLines p.1 p.2)

end Fragment

end LanguageSpec
