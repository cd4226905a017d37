import LanguageSpec.Proofs.Regex.Language

/-!
# The grammar of regexes

Which lists of tokens are a regex or a part of one, and the language that each denotes:

    regex   = branch ('|' branch)*
    branch  = (atom ('*' | '+')?)*
    atom    = '(' regex ')' | literal | class | reference
    class   = '.' | '[' member+ ']' | '[' '^' member+ ']' 'IN' operand
    operand = '[' member+ ']' | reference
    member  = character ('-' character)?
-/

open Computability

namespace LanguageSpec.Regex

/-! ## Classes -/

inductive DenotesMember : List Token → Set Char → Prop
  | single {t : Token} {c : Char} (ht : t.kind = .literal) (hc : member? t.text = some c) :
      DenotesMember [t] {c}
  | range {t d u : Token} {lo hi : Char} (ht : t.kind = .literal) (hlo : member? t.text = some lo)
      (hd : d.kind = .dash) (hu : u.kind = .literal) (hhi : member? u.text = some hi)
      (hle : lo ≤ hi) : DenotesMember [t, d, u] {c | lo ≤ c ∧ c ≤ hi}

/-- Any number of members denotes the union of their sets. -/
inductive DenotesMembers : List Token → Set Char → Prop
  | nil : DenotesMembers [] ∅
  | append {ts us : List Token} {s u : Set Char} (hts : DenotesMembers ts s)
      (hus : DenotesMember us u) : DenotesMembers (ts ++ us) (s ∪ u)

/-- Members between brackets. There is one at least. -/
inductive DenotesBracket : List Token → Set Char → Prop
  | mk {o c : Token} {ts : List Token} {s : Set Char} (ho : o.kind = .openBracket)
      (hts : DenotesMembers ts s) (hne : ts ≠ []) (hc : c.kind = .closeBracket) :
      DenotesBracket (o :: ts ++ [c]) s

inductive DenotesOperand (registry : Registry) : List Token → Set Char → Prop
  | bracket {ts : List Token} {s : Set Char} (h : DenotesBracket ts s) :
      DenotesOperand registry ts s
  | reference {t : Token} {x : Recognizer} {s : CharSet} (ht : t.kind = .reference)
      (hx : registry.get? (referenceName t) = some x) (hs : x.charClass = some s) :
      DenotesOperand registry [t] {c | c ∈ s}

inductive DenotesClass (registry : Registry) : List Token → Set Char → Prop
  | dot {t : Token} (ht : t.kind = .dot) : DenotesClass registry [t] {c | c ∈ CharSet.dot}
  | bracket {ts : List Token} {s : Set Char} (h : DenotesBracket ts s) : DenotesClass registry ts s
  | exclusion {o n c i : Token} {ts us : List Token} {excluded operand : Set Char}
      (ho : o.kind = .openBracket) (hn : n.kind = .caret) (hts : DenotesMembers ts excluded)
      (hne : ts ≠ []) (hc : c.kind = .closeBracket) (hi : i.kind = .inWord)
      (hus : DenotesOperand registry us operand) :
      DenotesClass registry (o :: n :: ts ++ [c, i] ++ us) (operand \ excluded)

/-! ## Regexes -/

/-- The parts of a regex. -/
inductive Part where
  | regex
  | branch
  | item
  | atom

/-- The language that a list of tokens denotes as a part of a regex. A repetition applies to the one
atom in front of it, which may be a group. -/
inductive Denotes (registry : Registry) : Part → List Token → Language Char → Prop
  | branch {ts : List Token} {l : Language Char} (h : Denotes registry .branch ts l) :
      Denotes registry .regex ts l
  | union {ts us : List Token} {l m : Language Char} {b : Token}
      (hts : Denotes registry .regex ts l) (hb : b.kind = .bar)
      (hus : Denotes registry .branch us m) : Denotes registry .regex (ts ++ b :: us) (l + m)
  | nil : Denotes registry .branch [] 1
  | append {ts us : List Token} {l m : Language Char} (hts : Denotes registry .branch ts l)
      (hus : Denotes registry .item us m) : Denotes registry .branch (ts ++ us) (l * m)
  | once {ts : List Token} {l : Language Char} (h : Denotes registry .atom ts l) :
      Denotes registry .item ts l
  | star {ts : List Token} {l : Language Char} {t : Token} (h : Denotes registry .atom ts l)
      (ht : t.kind = .star) : Denotes registry .item (ts ++ [t]) l∗
  | plus {ts : List Token} {l : Language Char} {t : Token} (h : Denotes registry .atom ts l)
      (ht : t.kind = .plus) : Denotes registry .item (ts ++ [t]) (l * l∗)
  | group {ts : List Token} {l : Language Char} {o c : Token} (ho : o.kind = .openGroup)
      (h : Denotes registry .regex ts l) (hc : c.kind = .closeGroup) :
      Denotes registry .atom (o :: ts ++ [c]) l
  | literal {t : Token} {c : Char} (ht : t.kind = .literal) (hc : literal? t.text = some c) :
      Denotes registry .atom [t] {[c]}
  | charClass {ts : List Token} {s : Set Char} (h : DenotesClass registry ts s) :
      Denotes registry .atom ts {w | ∃ c ∈ s, w = [c]}
  | reference {t : Token} {x : Recognizer} (ht : t.kind = .reference)
      (hx : registry.get? (referenceName t) = some x) :
      Denotes registry .atom [t] x.fragment.language

end LanguageSpec.Regex
