import LanguageSpec.Proofs.Regex.Meaning

/-!
# Which tokens are a regex

The grammar of regexes without the languages, and the theorem that a list of tokens compiles exactly
if it is derivable:

    regex   = branch ('|' branch)*
    branch  = (atom ('*' | '+')?)*
    atom    = '(' regex ')' | literal | '.' | '[' member+ ']'
            | '[' '^' member+ ']' 'IN' operand | reference
    operand = '[' member+ ']' | reference
    member  = character ('-' character)?
-/

namespace LanguageSpec

namespace Regex

/-- What a list of tokens may be derived as. -/
inductive Phrase where
  | regex
  | branch
  | atom
  | operand
  | members
  | member

inductive Derives (registry : Registry) : Phrase → List Token → Prop
  | branch {ts : List Token} (h : Derives registry .branch ts) : Derives registry .regex ts
  | union {ts us : List Token} {b : Token} (hts : Derives registry .regex ts) (hb : b.kind = .bar)
      (hus : Derives registry .branch us) : Derives registry .regex (ts ++ b :: us)
  | nil : Derives registry .branch []
  | once {ts us : List Token} (hts : Derives registry .branch ts)
      (hus : Derives registry .atom us) : Derives registry .branch (ts ++ us)
  | repeated {ts us : List Token} {t : Token} (hts : Derives registry .branch ts)
      (hus : Derives registry .atom us) (ht : t.kind = .star ∨ t.kind = .plus) :
      Derives registry .branch (ts ++ (us ++ [t]))
  | group {ts : List Token} {o c : Token} (ho : o.kind = .openGroup)
      (h : Derives registry .regex ts) (hc : c.kind = .closeGroup) :
      Derives registry .atom (o :: ts ++ [c])
  | literal {t : Token} {c : Char} (ht : t.kind = .literal) (hc : literal? t.text = some c) :
      Derives registry .atom [t]
  | dot {t : Token} (ht : t.kind = .dot) : Derives registry .atom [t]
  | bracket {ts : List Token} {o c : Token} (ho : o.kind = .openBracket)
      (hts : Derives registry .members ts) (hc : c.kind = .closeBracket) :
      Derives registry .atom (o :: ts ++ [c])
  | exclusion {ts us : List Token} {o n c i : Token} (ho : o.kind = .openBracket)
      (hn : n.kind = .caret) (hts : Derives registry .members ts) (hc : c.kind = .closeBracket)
      (hi : i.kind = .inWord) (hus : Derives registry .operand us) :
      Derives registry .atom (o :: n :: ts ++ [c, i] ++ us)
  | reference {t : Token} {x : Recognizer} (ht : t.kind = .reference)
      (hx : registry.get? (referenceName t) = some x) : Derives registry .atom [t]
  | operandBracket {ts : List Token} {o c : Token} (ho : o.kind = .openBracket)
      (hts : Derives registry .members ts) (hc : c.kind = .closeBracket) :
      Derives registry .operand (o :: ts ++ [c])
  | operandReference {t : Token} {x : Recognizer} {s : CharSet} (ht : t.kind = .reference)
      (hx : registry.get? (referenceName t) = some x) (hs : x.charClass = some s) :
      Derives registry .operand [t]
  | one {ts : List Token} (h : Derives registry .member ts) : Derives registry .members ts
  | more {ts us : List Token} (hts : Derives registry .members ts)
      (hus : Derives registry .member us) : Derives registry .members (ts ++ us)
  | single {t : Token} {c : Char} (ht : t.kind = .literal) (hc : member? t.text = some c) :
      Derives registry .member [t]
  | range {t d u : Token} {lo hi : Char} (ht : t.kind = .literal) (hlo : member? t.text = some lo)
      (hd : d.kind = .dash) (hu : u.kind = .literal) (hhi : member? u.text = some hi)
      (hle : lo ≤ hi) : Derives registry .member [t, d, u]

variable {registry : Registry}

/-! ## What denotes something is derivable -/

theorem DenotesMember.derives {ts : List Token} {s : Set Char} (h : DenotesMember ts s) :
    Derives registry .member ts := by
  cases h with
  | single ht hc => exact .single ht hc
  | range ht hlo hd hu hhi hle => exact .range ht hlo hd hu hhi hle

theorem DenotesMembers.derives {ts : List Token} {s : Set Char} (h : DenotesMembers ts s)
    (hne : ts ≠ []) : Derives registry .members ts := by
  induction h with
  | nil => exact absurd rfl hne
  | @append ts us s u hts hus ih =>
      cases ts with
      | nil => exact .one hus.derives
      | cons t ts => exact .more (ih (List.cons_ne_nil t ts)) hus.derives

theorem DenotesOperand.derives {ts : List Token} {s : Set Char}
    (h : DenotesOperand registry ts s) : Derives registry .operand ts := by
  cases h with
  | bracket h =>
      cases h with
      | mk ho hts hne hc => exact .operandBracket ho (hts.derives hne) hc
  | reference ht hx hs => exact .operandReference ht hx hs

theorem DenotesClass.derives {ts : List Token} {s : Set Char} (h : DenotesClass registry ts s) :
    Derives registry .atom ts := by
  cases h with
  | dot ht => exact .dot ht
  | bracket h =>
      cases h with
      | mk ho hts hne hc => exact .bracket ho (hts.derives hne) hc
  | exclusion ho hn hts hne hc hi hus => exact .exclusion ho hn (hts.derives hne) hc hi hus.derives

/-- An item is what a branch may be extended by. -/
def Part.Derivable (registry : Registry) : Part → List Token → Prop
  | .regex, ts => Derives registry .regex ts
  | .branch, ts => Derives registry .branch ts
  | .item, us => ∀ ts, Derives registry .branch ts → Derives registry .branch (ts ++ us)
  | .atom, ts => Derives registry .atom ts

theorem Denotes.derivable {part : Part} {ts : List Token} {l : Language Char}
    (h : Denotes registry part ts l) : part.Derivable registry ts := by
  induction h with
  | branch h ih => exact .branch ih
  | union hts hb hus iht ihu => exact .union iht hb ihu
  | nil => exact .nil
  | append hts hus iht ihu => exact ihu _ iht
  | once h ih => exact fun ts hts => .once hts ih
  | star h ht ih => exact fun ts hts => .repeated hts ih (.inl ht)
  | plus h ht ih => exact fun ts hts => .repeated hts ih (.inr ht)
  | group ho h hc ih => exact .group ho ih hc
  | literal ht hc => exact .literal ht hc
  | charClass h => exact h.derives
  | reference ht hx => exact .reference ht hx

/-! ## What is derivable denotes something -/

/-- A list of tokens denotes something as a phrase. -/
def Phrase.Meaningful (registry : Registry) : Phrase → List Token → Prop
  | .regex, ts => ∃ l, Denotes registry .regex ts l
  | .branch, ts => ∃ l, Denotes registry .branch ts l
  | .atom, ts => ∃ l, Denotes registry .atom ts l
  | .operand, ts => ∃ s, DenotesOperand registry ts s
  | .members, ts => ts ≠ [] ∧ ∃ s, DenotesMembers ts s
  | .member, ts => ts ≠ [] ∧ ∃ s, DenotesMember ts s

theorem Derives.meaningful {phrase : Phrase} {ts : List Token}
    (h : Derives registry phrase ts) : phrase.Meaningful registry ts := by
  induction h with
  | branch h ih =>
      obtain ⟨l, hl⟩ := ih
      exact ⟨l, .branch hl⟩
  | union hts hb hus iht ihu =>
      obtain ⟨l, hl⟩ := iht
      obtain ⟨m, hm⟩ := ihu
      exact ⟨_, .union hl hb hm⟩
  | nil => exact ⟨1, .nil⟩
  | once hts hus iht ihu =>
      obtain ⟨l, hl⟩ := iht
      obtain ⟨m, hm⟩ := ihu
      exact ⟨_, .append hl (.once hm)⟩
  | repeated hts hus ht iht ihu =>
      obtain ⟨l, hl⟩ := iht
      obtain ⟨m, hm⟩ := ihu
      rcases ht with ht | ht
      · exact ⟨_, .append hl (.star hm ht)⟩
      · exact ⟨_, .append hl (.plus hm ht)⟩
  | group ho h hc ih =>
      obtain ⟨l, hl⟩ := ih
      exact ⟨l, .group ho hl hc⟩
  | literal ht hc => exact ⟨_, .literal ht hc⟩
  | dot ht => exact ⟨_, .charClass (.dot ht)⟩
  | bracket ho hts hc ih =>
      obtain ⟨hne, s, hs⟩ := ih
      exact ⟨_, .charClass (.bracket (.mk ho hs hne hc))⟩
  | exclusion ho hn hts hc hi hus iht ihu =>
      obtain ⟨hne, s, hs⟩ := iht
      obtain ⟨u, hu⟩ := ihu
      exact ⟨_, .charClass (.exclusion ho hn hs hne hc hi hu)⟩
  | reference ht hx => exact ⟨_, .reference ht hx⟩
  | operandBracket ho hts hc ih =>
      obtain ⟨hne, s, hs⟩ := ih
      exact ⟨s, .bracket (.mk ho hs hne hc)⟩
  | operandReference ht hx hs => exact ⟨_, .reference ht hx hs⟩
  | one h ih =>
      obtain ⟨hne, s, hs⟩ := ih
      exact ⟨hne, _, .append .nil hs⟩
  | more hts hus iht ihu =>
      obtain ⟨-, s, hs⟩ := iht
      obtain ⟨hne, u, hu⟩ := ihu
      exact ⟨List.append_ne_nil_of_right_ne_nil _ hne, _, .append hs hu⟩
  | single ht hc => exact ⟨List.cons_ne_nil _ _, _, .single ht hc⟩
  | range ht hlo hd hu hhi hle => exact ⟨List.cons_ne_nil _ _, _, .range ht hlo hd hu hhi hle⟩

theorem derives_regex_iff {ts : List Token} :
    Derives registry .regex ts ↔ ∃ l, Denotes registry .regex ts l :=
  ⟨fun h => h.meaningful, fun ⟨_, h⟩ => h.derivable⟩

theorem exists_ofTokens_iff_derives (origin : Position) (ts : List Token) :
    (∃ r, ofTokens registry origin ts = .ok r) ↔ Derives registry .regex ts := by
  rw [derives_regex_iff]
  constructor
  · rintro ⟨r, hr⟩
    exact ⟨_, denotes_of_ofTokens hr⟩
  · rintro ⟨l, hl⟩
    obtain ⟨r, hr, -⟩ := ofTokens_of_denotes hl origin
    exact ⟨r, hr⟩

/-! ## Every regex has an automaton -/

theorem accept_repeatLast (f : Fragment) (times : Option Repetition) :
    (repeatLast f times).accept = f.accept := by
  rcases times with _ | _ | _
  · rfl
  · rw [repeatLast, Fragment.starLast]
    split <;> rfl
  · rw [repeatLast, Fragment.plusLast]
    split <;> rfl

theorem Atom.appendTo?_open {f : Fragment} (hf : f.accept = none) (a : Atom) :
    ∃ k, a.appendTo? f = some k ∧ k.accept = none := by
  cases a with
  | char c =>
      rw [appendTo?, Fragment.appendSet?_eq_append?]
      exact Fragment.append?_open hf _
  | oneOf s =>
      rw [appendTo?, Fragment.appendSet?_eq_append?]
      exact Fragment.append?_open hf _
  | named x => exact Fragment.append?_open hf x.fragment

/-- Whatever recognizers a regex refers to, nothing is appended to a finalized fragment. -/
theorem fragment?_open (r : Regex) : ∃ f, r.fragment? = some f ∧ f.accept = none := by
  induction r with
  | empty => exact ⟨.new, rfl, rfl⟩
  | atom before a times ih =>
      obtain ⟨f, hf, hopen⟩ := ih
      obtain ⟨k, hk, hkopen⟩ := a.appendTo?_open hopen
      exact ⟨repeatLast k times, by simp [fragment?, hf, hk], by rw [accept_repeatLast, hkopen]⟩
  | group before inner times ihb ihi =>
      obtain ⟨f, hf, hopen⟩ := ihb
      obtain ⟨g, hg, -⟩ := ihi
      obtain ⟨k, hk, hkopen⟩ := Fragment.append?_open hopen (repeatWhole g times)
      exact ⟨k, by simp [fragment?, hf, hg, hk], hkopen⟩
  | bar before ih =>
      obtain ⟨f, hf, hopen⟩ := ih
      obtain ⟨k, hk, hkopen⟩ := Fragment.alternate?_open hopen
      exact ⟨k, by simp [fragment?, hf, hk], hkopen⟩

theorem recognizer_eq_ok (r : Regex) (stop : Position) :
    ∃ x, r.recognizer stop = .ok x := by
  obtain ⟨f, hf, -⟩ := r.fragment?_open
  exact ⟨_, by rw [recognizer, hf]⟩

end Regex

namespace Recognizer

variable {registry : Registry}

/-- Tokens compile exactly if they are derivable as a regex. -/
theorem exists_ofTokens_iff (registry : Registry) (origin : Position) (ts : List Regex.Token) :
    (∃ x, ofTokens registry origin ts = .ok x) ↔ Regex.Derives registry .regex ts := by
  rw [← Regex.exists_ofTokens_iff_derives origin]
  constructor
  · rintro ⟨x, hx⟩
    obtain ⟨r, hr, -⟩ := bind_eq_ok_iff.mp hx
    exact ⟨r, hr⟩
  · rintro ⟨r, hr⟩
    obtain ⟨x, hx⟩ := r.recognizer_eq_ok (Regex.stopOf origin ts)
    exact ⟨x, bind_eq_ok_iff.mpr ⟨r, hr, hx⟩⟩

end Recognizer

end LanguageSpec
