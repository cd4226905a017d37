import LanguageSpec.Proofs.Regex.Acceptance

/-!
# Compiling by descent

A recursive descent that builds fragments while it reads. It looks one token ahead and keeps a stack
of operands: at the bottom the fragment of the whole regex, above it one for every open group. An
atom is appended to the fragment on top, a bar closes a branch of it, and a group that is closed
stays on top until it is known whether a repetition follows.

The calls that wait for a group to be closed are all alike, so that their number stands for them. A
stack without the fragment that is needed, and a fragment that is finalized but appended to, are
errors here.
-/

namespace LanguageSpec.Regex

/-- What the descent knows of the whole regex: whether it can still be a single class, the number of
its atoms, and the set of its last class. -/
structure Context where
  pure : Bool
  atoms : Nat
  charClass : Option CharSet

namespace Context

def initial : Context := ⟨true, 0, none⟩

/-- Notes an atom, with its set if it is a class. -/
def note (c : Context) : Option CharSet → Context
  | some s => ⟨c.pure, c.atoms + 1, some s⟩
  | none => ⟨false, c.atoms + 1, c.charClass⟩

def spoil (c : Context) : Context := { c with pure := false }

/-- The set of the regex, if it is exactly one class. -/
def result (c : Context) : Option CharSet :=
  if c.pure && c.atoms == 1 then c.charClass else none

end Context

/-- What a repetition would repeat. -/
inductive Item where
  | single
  | group

/-- The procedure that the descent is in. -/
inductive Stage where
  | branch
  | atom
  | bracket (inside : Focus)
  | repetition (item : Item)
  | union
  | done

/-- The number of operands for a group that was closed and is not yet put into what is around it. -/
def Stage.waiting : Stage → Nat
  | .repetition .group => 1
  | _ => 0

/-- A state of the descent. The operands are kept from the top down, and `depth` is the number of
groups that are open. -/
structure Descent where
  stage : Stage
  depth : Nat
  operands : List Fragment
  context : Context
  tokens : List Token
  stop : Position

/-- Whether an atom begins with the first token. -/
def startsAtom : List Token → Bool
  | [] => false
  | t :: _ =>
    match t.kind with
    | .openGroup => true
    | .dot => true
    | .openBracket => true
    | .reference => true
    | .literal => (literal? t.text).isSome
    | _ => false

def Kind.repetition? : Kind → Option Repetition
  | .star => some .star
  | .plus => some .plus
  | _ => none

/-- What a bracket expression leaves open. -/
def Focus.construct : Focus → Construct
  | .items _ => .group
  | .members _ (.range ..) => .characterRange
  | .opened => .characterClass
  | .members .. => .characterClass
  | .operandOpened _ => .characterClass
  | .excluded _ => .exclusion
  | .operand _ => .exclusion

namespace Descent

def initial (origin : Position) (ts : List Token) : Descent :=
  ⟨.branch, 0, [.new], .initial, ts, origin⟩

/-! ## Operands and tokens -/

def fail {α : Type} (s : Descent) (what : Misstructure) : Except Error α :=
  .error (.misstructured what s.stop)

def pop (s : Descent) : Except Error (Fragment × Descent) :=
  match s.operands with
  | [] => s.fail (.note "empty operand stack")
  | top :: rest => .ok (top, { s with operands := rest })

/-- Changes the operand on top, which must not be finalized. -/
def onTop (s : Descent) (change : Fragment → Option Fragment) : Except Error Descent :=
  match s.operands with
  | [] => s.fail (.note "empty operand stack")
  | top :: rest =>
    match change top with
    | some top => .ok { s with operands := top :: rest }
    | none => s.fail .finalized

/-- Goes on behind a token. -/
def past (s : Descent) (t : Token) (ts : List Token) : Descent :=
  { s with tokens := ts, stop := t.stop }

/-- Appends an atom, which may be repeated next. -/
def append (s : Descent) (a : Atom) : Except Error Descent := do
  let s ← s.onTop a.appendTo?
  return { s with stage := .repetition .single, context := s.context.note a.charClass? }

/-! ## Procedures -/

def stepBranch (s : Descent) : Descent :=
  { s with stage := if startsAtom s.tokens then .atom else .union }

def stepAtom (registry : Registry) (s : Descent) : Except Error Descent :=
  match s.tokens with
  | [] => s.fail (.note "unterminated regex")
  | t :: ts =>
    match t.kind with
    | .openGroup =>
      .ok
        { s.past t ts with
          stage := .branch
          depth := s.depth + 1
          operands := .new :: s.operands
          context := s.context.note none }
    | .literal =>
      match literal? t.text with
      | some c => (s.past t ts).append (.char c)
      | none => .error (unexpected t)
    | .dot => (s.past t ts).append (.oneOf .dot)
    | .openBracket => .ok { s.past t ts with stage := .bracket .opened }
    | .reference => do
      let x ← resolve registry t
      (s.past t ts).append (.named x)
    | _ => .error (unexpected t)

/-- A token of a bracket expression. How it is read does not depend on what is around it. -/
def stepBracket (registry : Registry) (s : Descent) (inside : Focus) : Except Error Descent :=
  match s.tokens with
  | [] => s.fail (.unterminated inside.construct)
  | t :: ts => do
    let r ← Reader.step registry ⟨[], .empty, inside⟩ t
    match r.focus with
    | .items (.atom a) => (s.past t ts).append a
    | focus => return { s.past t ts with stage := .bracket focus }

/-- The repetition in front, if there is one, and the state behind it. -/
def takeRepetition (s : Descent) : Option Repetition × Descent :=
  match s.tokens with
  | [] => (none, s)
  | t :: ts =>
    match t.kind.repetition? with
    | some times => (some times, { s.past t ts with context := s.context.spoil })
    | none => (none, s)

/-- Repeats the last atom in place, or a group as a whole and puts it into what is around it. -/
def repeatItem (s : Descent) (times : Option Repetition) : Item → Except Error Descent
  | .single => s.onTop fun top => some (repeatLast top times)
  | .group => do
    let (inner, s) ← s.pop
    s.onTop fun top => top.append? (repeatWhole inner times)

def stepRepetition (s : Descent) (item : Item) : Except Error Descent := do
  let (times, s) := s.takeRepetition
  let s ← s.repeatItem times item
  return { s with stage := .branch }

/-- Behind a branch: one more of them, the end of a group, or the end of the regex. -/
def stepUnion (s : Descent) : Except Error Descent :=
  match s.tokens, s.depth with
  | [], 0 => .ok { s with stage := .done }
  | [], _ + 1 => s.fail (.unterminated .group)
  | t :: ts, depth =>
    match t.kind, depth with
    | .bar, _ => do
      let s ← { s.past t ts with context := s.context.spoil }.onTop Fragment.alternate?
      return { s with stage := .branch }
    | .closeGroup, depth + 1 =>
      .ok { s.past t ts with stage := .repetition .group, depth := depth }
    | _, _ => .error (unexpected t)

def step (registry : Registry) (s : Descent) : Except Error Descent :=
  match s.stage with
  | .branch => .ok s.stepBranch
  | .atom => s.stepAtom registry
  | .bracket inside => s.stepBracket registry inside
  | .repetition item => s.stepRepetition item
  | .union => s.stepUnion
  | .done => .ok s

/-- Takes the recognizer off the stack, which must be empty then. -/
def finish (s : Descent) : Except Error Recognizer := do
  let (f, s) ← s.pop
  if s.operands.isEmpty then return ⟨f.finalize, s.context.result⟩
  else s.fail (.note "unbalanced operand stack")

/-- The descent comes to an end with a result. -/
inductive Ends (registry : Registry) : Descent → Except Error Recognizer → Prop
  | failed {s : Descent} {e : Error} (h : s.step registry = .error e) : Ends registry s (.error e)
  | done {s : Descent} (h : s.stage = .done) : Ends registry s s.finish
  | step {s s' : Descent} {x : Except Error Recognizer} (hstage : s.stage ≠ .done)
      (h : s.step registry = .ok s') (hx : Ends registry s' x) : Ends registry s x

/-- Some steps lead from one state to another. -/
def Reaches (registry : Registry) : Descent → Descent → Prop :=
  Relation.ReflTransGen fun s s' => s.step registry = .ok s'

end Descent

end LanguageSpec.Regex
