import LanguageSpec.Journal
import LanguageSpec.Regex.Reader

/-!
# Records of reading a regex

Groups and branches are reported when they open, exclusions when they are complete, and a group as
closed when it is known whether a repetition follows, that is with the token behind it.
-/

namespace LanguageSpec.Regex

open Journal (Record trace)

def repetitionName : Option Repetition → String
  | none => "None"
  | some .star => "Some(Kleene)"
  | some .plus => "Some(Plus)"

/-- The record of a group whose repetition has become known. -/
def closedGroup (last : Pending) (times : Option Repetition) : List Record :=
  match last with
  | .group _ => [trace s!"[regex] group closed, repeat: {repetitionName times}"]
  | _ => []

/-- The record of an exclusion: what is excluded, from what, and what is left. -/
def exclusion (excluded operand : CharSet) : Record :=
  let left := CharSet.text (operand.difference excluded)
  trace s!"[regex] exclusion {CharSet.text excluded} IN {CharSet.text operand} = {left}"

def Reader.records (registry : Registry) (r : Reader) (t : Token) : List Record :=
  match r.focus, t.kind with
  | .items last, .star => closedGroup last (some .star)
  | .items last, .plus => closedGroup last (some .plus)
  | .items last, .openGroup =>
    closedGroup last none ++ [trace s!"[regex] group opened at {t.pos.text}"]
  | .items last, .bar => closedGroup last none ++ [trace s!"[regex] union at {t.stop.text}"]
  | .items last, _ => closedGroup last none
  | .operand e, .reference =>
    match resolveClass registry t with
    | .ok s => [exclusion e s]
    | .error _ => []
  | .members (.operand e) m, .closeBracket =>
    match m.close t with
    | .ok s => [exclusion e s]
    | .error _ => []
  | _, _ => []

def Reader.lastRecords (r : Reader) : List Record :=
  match r.focus with
  | .items last => closedGroup last none
  | _ => []

/-- The records of reading tokens, up to the first error. -/
def Reader.journal (registry : Registry) (r : Reader) : List Token → List Record
  | [] => r.lastRecords
  | t :: ts =>
    r.records registry t ++
      match r.step registry t with
      | .ok r => r.journal registry ts
      | .error _ => []

end LanguageSpec.Regex

namespace LanguageSpec.Recognizer

open Journal (Record trace)

def journalOfTokens (registry : Registry) (origin : Position) (ts : List Regex.Token) :
    List Record :=
  Regex.Reader.initial.journal registry ts ++
    match ofTokens registry origin ts with
    | .ok r =>
      [trace s!"[regex] compiled {r.fragment.size} states, char class: {r.charClass.isSome}"]
    | .error _ => []

def journalOfText (registry : Registry) (origin : Position) (text : String) : List Record :=
  match Regex.tokens origin text with
  | .ok ts => journalOfTokens registry origin ts
  | .error _ => []

end LanguageSpec.Recognizer
