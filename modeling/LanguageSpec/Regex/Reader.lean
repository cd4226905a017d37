import LanguageSpec.Regex.Basic
import LanguageSpec.Regex.Literal
import LanguageSpec.Regex.Token

/-!
# Reading a regex

Tokens are read one at a time. The state holds the regexes of the enclosing groups, the regex of the
innermost one, and what the reader is about: between items, with the last of them still open to a
repetition, or somewhere in a bracket expression. A token either leads to a next state or is an
error, whatever follows; at the end of the tokens only an open construct is an error.

    regex   = branch ('|' branch)*
    branch  = (atom ('*' | '+')?)*
    atom    = '(' regex ')' | literal | '.' | '[' member+ ']'
            | '[' '^' member+ ']' 'IN' operand | reference
    operand = '[' member+ ']' | reference
    member  = character ('-' character)?
-/

namespace LanguageSpec.Regex

/-- An item that a repetition may still follow. -/
inductive Pending where
  | none
  | atom (a : Atom)
  | group (inner : Regex)

/-- Completes a regex by its pending item. -/
def Pending.settle (before : Regex) (times : Option Repetition) : Pending → Regex
  | .none => before
  | .atom a => before.atom a times
  | .group inner => before.group inner times

/-- The members between brackets so far. The last character may begin a range, and a dash behind it
has begun one. -/
inductive Members where
  | ready (s : CharSet)
  | low (s : CharSet) (lo : Char) (pos : Position)
  | range (s : CharSet) (lo : Char) (pos : Position)

/-- What the members between brackets are for. -/
inductive Purpose where
  | listed
  | excluded
  | operand (excluded : CharSet)

/-- What the reader is about. -/
inductive Focus where
  | items (last : Pending)
  | opened
  | members (purpose : Purpose) (m : Members)
  | excluded (s : CharSet)
  | operand (excluded : CharSet)
  | operandOpened (excluded : CharSet)

/-- A state of the reader. The regexes around open groups are kept from the inside out. -/
structure Reader where
  outer : List Regex
  here : Regex
  focus : Focus

/-! ## Errors -/

def unexpected (t : Token) : Error :=
  match t.kind with
  | .literal => .malformed (.invalidCharacter t.text) t.pos
  | _ => .malformed (.unexpected t.text) t.pos

/-- The name of a reference, without the dollar sign in front. -/
def referenceName (t : Token) : String :=
  match t.text.toList with
  | '$' :: cs => String.ofList cs
  | _ => t.text

/-- The recognizer that a reference names. -/
def resolve (registry : Registry) (t : Token) : Except Error Recognizer :=
  match registry.get? (referenceName t) with
  | some r => .ok r
  | none => .error (.undefinedReference (referenceName t) t.pos)

/-- The character set that a reference names. -/
def resolveClass (registry : Registry) (t : Token) : Except Error CharSet := do
  match (← resolve registry t).charClass with
  | some s => .ok s
  | none => .error (.notACharacterClass (referenceName t) t.pos)

/-! ## Members -/

namespace Members

/-- The set that is read when the members end here. -/
def set : Members → CharSet
  | .ready s => s
  | .low s lo _ => s.insert lo
  | .range s lo _ => s.insert lo

def step (m : Members) (t : Token) : Except Error Members :=
  match m, t.kind with
  | .range s lo pos, .literal =>
    match member? t.text with
    | none => .error (unexpected t)
    | some hi =>
      match s.insertRange? lo hi with
      | some s => .ok (.ready s)
      | none => .error (.malformed (.emptyRange lo hi) pos)
  | .range .., _ => .error (unexpected t)
  | m, .literal =>
    match member? t.text with
    | some c => .ok (.low m.set c t.pos)
    | none => .error (unexpected t)
  | .low s lo pos, .dash => .ok (.range s lo pos)
  | _, .dash => .error (.malformed .rangeWithoutStart t.pos)
  | _, .caret => .error (.malformed .bareCaret t.pos)
  | _, _ => .error (unexpected t)

/-- The set of members that a closing bracket ends. -/
def close (m : Members) (t : Token) : Except Error CharSet :=
  match m with
  | .range .. => .error (unexpected t)
  | m => if m.set.isEmpty then .error (.malformed .emptyClass t.pos) else .ok m.set

end Members

/-! ## Steps -/

namespace Reader

def initial : Reader := ⟨[], .empty, .items .none⟩

/-- Goes on with an atom behind what has been read at this depth. -/
def withAtom (r : Reader) (a : Atom) : Reader := { r with focus := .items (.atom a) }

/-- A token between items. `before` is what has been read at this depth, without a pending item. -/
def stepItems (registry : Registry) (r : Reader) (before : Regex) (t : Token) :
    Except Error Reader :=
  match t.kind with
  | .literal =>
    match literal? t.text with
    | some c => .ok ⟨r.outer, before, .items (.atom (.char c))⟩
    | none => .error (unexpected t)
  | .dot => .ok ⟨r.outer, before, .items (.atom (.oneOf .dot))⟩
  | .reference => do
    let x ← resolve registry t
    .ok ⟨r.outer, before, .items (.atom (.named x))⟩
  | .openBracket => .ok ⟨r.outer, before, .opened⟩
  | .openGroup => .ok ⟨before :: r.outer, .empty, .items .none⟩
  | .closeGroup =>
    match r.outer with
    | [] => .error (unexpected t)
    | o :: os => .ok ⟨os, o, .items (.group before)⟩
  | .bar => .ok ⟨r.outer, before.bar, .items .none⟩
  | _ => .error (unexpected t)

/-- A repetition of the last item. -/
def stepRepetition (r : Reader) (last : Pending) (times : Repetition) (t : Token) :
    Except Error Reader :=
  match last with
  | .none => .error (unexpected t)
  | last => .ok ⟨r.outer, last.settle r.here (some times), .items .none⟩

/-- A token between brackets. -/
def stepMembers (r : Reader) (purpose : Purpose) (m : Members) (t : Token) :
    Except Error Reader :=
  match t.kind with
  | .closeBracket => do
    let s ← m.close t
    match purpose with
    | .listed => .ok (r.withAtom (.oneOf s))
    | .excluded => .ok { r with focus := .excluded s }
    | .operand e => .ok (r.withAtom (.oneOf (s.difference e)))
  | _ => do .ok { r with focus := .members purpose (← m.step t) }

def step (registry : Registry) (r : Reader) (t : Token) : Except Error Reader :=
  match r.focus, t.kind with
  | .items last, .star => r.stepRepetition last .star t
  | .items last, .plus => r.stepRepetition last .plus t
  | .items last, _ => r.stepItems registry (last.settle r.here none) t
  | .opened, .caret => .ok { r with focus := .members .excluded (.ready ∅) }
  | .opened, _ => r.stepMembers .listed (.ready ∅) t
  | .members purpose m, _ => r.stepMembers purpose m t
  | .excluded s, .inWord => .ok { r with focus := .operand s }
  | .excluded _, _ => .error (unexpected t)
  | .operand e, .openBracket => .ok { r with focus := .operandOpened e }
  | .operand e, .reference => do .ok (r.withAtom (.oneOf ((← resolveClass registry t).difference e)))
  | .operand _, _ => .error (unexpected t)
  | .operandOpened _, .caret => .error (.misstructured .nestedExclusion t.pos)
  | .operandOpened e, _ => r.stepMembers (.operand e) (.ready ∅) t

/-- What is open when the tokens end, if anything. -/
def unfinished? (r : Reader) : Option Construct :=
  match r.focus with
  | .items _ => if r.outer.isEmpty then none else some .group
  | .members _ (.range ..) => some .characterRange
  | .opened => some .characterClass
  | .members .. => some .characterClass
  | .operandOpened _ => some .characterClass
  | .excluded _ => some .exclusion
  | .operand _ => some .exclusion

/-- The regex that has been read. -/
def regex (r : Reader) : Regex :=
  match r.focus with
  | .items last => last.settle r.here none
  | _ => r.here

/-- Ends the reading at the place behind the last token. -/
def finish (r : Reader) (stop : Position) : Except Error Regex :=
  match r.unfinished? with
  | some c => .error (.misstructured (.unterminated c) stop)
  | none => .ok r.regex

end Reader

/-! ## Whole regexes -/

def stopOf (origin : Position) (ts : List Token) : Position :=
  match ts.getLast? with
  | some t => t.stop
  | none => origin

/-- The regex that a list of tokens spells. -/
def ofTokens (registry : Registry) (origin : Position) (ts : List Token) : Except Error Regex := do
  let r ← ts.foldlM (Reader.step registry) Reader.initial
  r.finish (stopOf origin ts)

/-- The recognizer of a regex that was read up to `stop`. -/
def recognizer (r : Regex) (stop : Position) : Except Error Recognizer :=
  match r.fragment? with
  | some f => .ok ⟨f.finalize, r.charClass?⟩
  | none => .error (.misstructured .finalized stop)

end Regex

namespace Recognizer

/-- Compiles the tokens of a regex. -/
def ofTokens (registry : Registry) (origin : Position) (ts : List Regex.Token) :
    Except Error Recognizer := do
  let r ← Regex.ofTokens registry origin ts
  r.recognizer (Regex.stopOf origin ts)

/-- Compiles a regex whose first character is at `origin`. -/
def ofText (registry : Registry) (origin : Position) (text : String) : Except Error Recognizer := do
  ofTokens registry origin (← Regex.tokens origin text)

end Recognizer

end LanguageSpec
