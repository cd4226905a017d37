import LanguageSpec.Proofs.Regex.Acceptance
import LanguageSpec.Proofs.Regex.Classes
import LanguageSpec.Proofs.Regex.Expression
import LanguageSpec.Proofs.Scanner

/-!
# Written expressions are read back

The scanner finds the tokens of a written expression, whatever modes they lead it through, and they
denote the language of the expression. So every expression over a registry compiles to an automaton
of its language.
-/

open Computability

namespace LanguageSpec

namespace Registry

variable {r : Registry} {name : String} {x : Recognizer}

theorem language_of_get? (h : r.get? name = some x) : r.language name = x.fragment.language := by
  rw [language, h]

end Registry

theorem Fragment.singleton_mem_letters {s : Set Char} {c : Char} : [c] ∈ letters s ↔ c ∈ s := by
  constructor
  · rintro ⟨d, hd, h⟩
    obtain rfl := List.singleton_inj.mp h
    exact hd
  · intro h
    exact ⟨c, h, rfl⟩

namespace Regex

/-! ## Scanning what is written -/

theorem Written.chars_apart (kind : Kind) (text : List Char) :
    (apart kind text).chars = text ++ [' '] := rfl

theorem Written.chars_tight (kind : Kind) (text : List Char) : (tight kind text).chars = text := rfl

/-- From one mode, what is written is scanned to its tokens and leaves the scanner in another mode,
whatever follows. -/
def Leads (m : Mode) (ws : List Written) (m' : Mode) : Prop :=
  scanner.Leads m (ws.flatMap Written.chars) (ws.map Written.word) m'

namespace Leads

variable {m m' m'' : Mode} {ws us : List Written}

theorem nil (m : Mode) : Leads m [] m := Scanner.Leads.nil m

theorem append (h : Leads m ws m') (h' : Leads m' us m'') : Leads m (ws ++ us) m'' := by
  rw [Leads, List.flatMap_append, List.map_append]
  exact Scanner.Leads.append h h'

theorem cons {w : Written} (h : Leads m [w] m') (h' : Leads m' us m'') : Leads m (w :: us) m'' :=
  h.append h'

theorem tight {kind : Kind} {c : Char} {cs : List Char}
    (h : ∀ rest, m.read c (cs ++ rest) = .token kind c cs m') :
    Leads m [.tight kind (c :: cs)] m' := by
  intro rest
  have hread : scanner.read m c (cs ++ rest) = .token kind c cs m' := h rest
  rw [List.flatMap_singleton, Written.chars_tight]
  exact Scanner.words_append_of_token hread

/-- The blank behind a token is skipped in the mode that the token leads to. -/
theorem apart {kind : Kind} {c : Char} {cs : List Char}
    (h : ∀ rest, m.read c (cs ++ ' ' :: rest) = .token kind c cs m')
    (hskip : ∀ rest, m'.read ' ' rest = .skip m') : Leads m [.apart kind (c :: cs)] m' := by
  intro rest
  have hread : scanner.read m c (cs ++ ' ' :: rest) = .token kind c cs m' := h rest
  have htoken := Scanner.words_append_of_token hread
  rw [Scanner.words_cons_of_skip (hskip rest)] at htoken
  rw [List.flatMap_singleton, Written.chars_apart, List.append_assoc]
  exact htoken

end Leads

/-! ### Literals and signs -/

/-- A character is escaped outside brackets exactly where it would not be read as itself. -/
theorem literal_cases (c : Printable) :
    ((c.val = '-' ∨ escapable.contains c.val = false) ∧
        Written.literal c.val = .apart .literal [c.val]) ∨
      escapable.contains c.val = true ∧ Written.literal c.val = .apart .literal ['\\', c.val] := by
  by_cases h : c.val = '-' ∨ escapable.contains c.val = false
  · have hbare : bare? c.val = some c.val := by
      rw [bare?, if_pos (h.imp_right fun h => ⟨c.property, h⟩)]
    exact .inl ⟨h, by rw [Written.literal, hbare, Option.isSome_some, if_pos rfl]⟩
  · have hbare : bare? c.val = none := by
      rw [bare?, if_neg fun h' => h (h'.imp_right And.right)]
    have hescapable : escapable.contains c.val = true := by
      rw [not_or, Bool.not_eq_false] at h
      exact h.2
    exact .inr ⟨hescapable, by rw [Written.literal, hbare]; rfl⟩

theorem literal?_literal (c : Printable) :
    literal? (String.ofList (Written.literal c.val).text) = some c.val := by
  rcases literal_cases c with ⟨h, hc⟩ | ⟨h, hc⟩
  · simp only [hc, Written.apart, literal?, String.toList_ofList]
    rw [bare?, if_pos (h.imp_right fun h => ⟨c.property, h⟩)]
  · simp only [hc, Written.apart, literal?, String.toList_ofList]
    rw [escaped?, if_pos h]

theorem read_outside_of_bare {c : Char} (hc : CharSet.inAlphabet c = true)
    (h : c = '-' ∨ escapable.contains c = false) (rest : List Char) :
    Mode.outside.read c (' ' :: rest) = .token .literal c [] .outside := by
  rcases h with rfl | h
  · rfl
  · have htab : c ≠ '\t' := by
      rintro rfl
      exact absurd hc (by decide)
    have hname : Mode.nameOf (' ' :: rest) = [] := rfl
    simp only [escapable, List.contains_cons, List.contains_nil, Bool.or_eq_false_iff,
      beq_eq_false_iff_ne, ne_eq] at h
    simp [Mode.read, Mode.readOutside, Mode.sign?, isSpace, htab, hname, h, hc]

theorem readEscape_cons {c : Char} (hc : CharSet.inAlphabet c = true) (rest : List Char)
    (next : Mode) : Mode.readEscape '\\' next (c :: rest) = .token .literal '\\' [c] next := by
  rw [Mode.readEscape, if_pos hc]

theorem leads_literal (c : Printable) : Leads .outside [.literal c.val] .outside := by
  rcases literal_cases c with ⟨h, hc⟩ | ⟨-, hc⟩
  · rw [hc]
    exact .apart (read_outside_of_bare c.property h) fun _ => rfl
  · rw [hc]
    exact .apart (fun rest => readEscape_cons c.property (' ' :: rest) .outside) fun _ => rfl

theorem member?_member (c : Printable) :
    member? (String.ofList (Written.member c.val).text) = some c.val := by
  simp only [Written.member, Written.tight, CharSet.bracketChar]
  cases h : CharSet.bracketEscaped.contains c.val with
  | false =>
      simp only [Bool.false_eq_true, if_false, member?, String.toList_ofList]
      rw [if_pos ⟨c.property, h⟩]
  | true =>
      simp only [if_true, member?, String.toList_ofList]
      rw [if_pos h]

theorem leads_member (fresh exclusion : Bool) (c : Printable) :
    Leads (.inside fresh exclusion) [.member c.val] (.inside false exclusion) := by
  rw [Written.member, CharSet.bracketChar]
  cases h : CharSet.bracketEscaped.contains c.val with
  | false =>
      refine .tight fun rest => ?_
      simp only [CharSet.bracketEscaped, List.contains_cons, List.contains_nil,
        Bool.or_eq_false_iff, beq_eq_false_iff_ne, ne_eq] at h
      simp [Mode.read, Mode.readInside, Mode.insideSign?, h, c.property]
  | true => exact .tight fun rest => readEscape_cons c.property rest (.inside false exclusion)

theorem leads_sign {kind : Kind} {c : Char}
    (h : ∀ rest, Mode.outside.read c rest = .token kind c [] .outside) :
    Leads .outside [.apart kind [c]] .outside :=
  .apart (fun rest => h (' ' :: rest)) fun _ => rfl

/-! ### References -/

theorem nameOf_append_blank {name : List Char} (h : Text.isName Text.isNameRest name = true)
    (rest : List Char) : Mode.nameOf (name ++ ' ' :: rest) = name ∧ name ≠ [] := by
  obtain ⟨d, ds, rfl, hd, hds⟩ := Text.isName_eq_true_iff.mp h
  have hblank : Text.isNameRest ' ' = false := by decide
  rw [List.cons_append, Mode.nameOf, if_pos hd, Scanner.takeWhile_append_cons hds hblank]
  exact ⟨rfl, List.cons_ne_nil d ds⟩

theorem leads_reference {name : String}
    (h : Text.isName Text.isNameRest name.toList = true) :
    Leads .outside [.reference name] .outside := by
  refine .apart (fun rest => ?_) fun _ => rfl
  obtain ⟨hname, hne⟩ := nameOf_append_blank h rest
  simp [Mode.read, Mode.readOutside, isSpace, hname, hne]

theorem leads_operandReference {name : String}
    (h : Text.isName Text.isNameRest name.toList = true) :
    Leads .behindExclusion [.reference name] .outside := by
  refine .apart (fun rest => ?_) fun _ => rfl
  obtain ⟨hname, hne⟩ := nameOf_append_blank h rest
  simp [Mode.read, Mode.readBehindExclusion, isSpace, hname, hne]

/-! ### Brackets -/

theorem Member.leads (m : Member) (fresh exclusion : Bool) :
    Leads (.inside fresh exclusion) m.written (.inside false exclusion) := by
  cases m with
  | char c => exact leads_member fresh exclusion c
  | range lo hi h =>
      have hdash : Leads (.inside false exclusion) [.tight .dash ['-']] (.inside false exclusion) :=
        .tight fun _ => rfl
      exact (leads_member fresh exclusion lo).cons (hdash.cons (leads_member false exclusion hi))

theorem leads_members (ms : List Member) (fresh exclusion : Bool) :
    ∃ fresh', Leads (.inside fresh exclusion) (ms.flatMap Member.written)
      (.inside fresh' exclusion) := by
  induction ms generalizing fresh with
  | nil => exact ⟨fresh, .nil _⟩
  | cons m ms ih =>
      obtain ⟨fresh', h⟩ := ih false
      exact ⟨fresh', (m.leads fresh exclusion).append h⟩

theorem Bracket.leads (b : Bracket) {m : Mode}
    (hm : ∀ rest, m.read '[' rest = .token .openBracket '[' [] (.inside true false)) :
    Leads m b.enclosed .outside := by
  obtain ⟨fresh, hmembers⟩ := leads_members b.members true false
  have hopen : Leads m [.tight .openBracket ['[']] (.inside true false) := .tight hm
  have hclose : Leads (.inside fresh false) [.apart .closeBracket [']']] .outside :=
    .apart (fun _ => rfl) fun _ => rfl
  exact hopen.cons (hmembers.append hclose)

theorem leads_excluded (b : Bracket) :
    Leads .outside (.tight .openBracket ['['] :: .tight .caret ['^'] :: b.written ++
      [.apart .closeBracket [']'], .apart .inWord ['I', 'N']]) .behindExclusion := by
  obtain ⟨fresh, hmembers⟩ := leads_members b.members false true
  have hopen : Leads .outside [.tight .openBracket ['[']] (.inside true false) :=
    .tight fun _ => rfl
  have hcaret : Leads (.inside true false) [.tight .caret ['^']] (.inside false true) :=
    .tight fun _ => rfl
  have hclose : Leads (.inside fresh true) [.apart .closeBracket [']']] .behindExclusion :=
    .apart (fun _ => rfl) fun _ => rfl
  have hword : Leads .behindExclusion [.apart .inWord ['I', 'N']] .behindExclusion :=
    .apart (fun _ => rfl) fun _ => rfl
  exact hopen.cons (hcaret.cons (hmembers.append (hclose.cons hword)))

/-! ### Expressions -/

theorem Operand.leads {registry : Registry}
    (hnames : ∀ name ∈ registry.names, Text.isName Text.isNameRest name.toList = true)
    {operand : Operand} (h : operand.Resolves registry) :
    Leads .behindExclusion operand.written .outside := by
  cases operand with
  | bracket b => exact b.leads fun _ => rfl
  | named name =>
      obtain ⟨x, s, hx, -⟩ := h
      exact leads_operandReference (hnames name (Registry.mem_names_of_get? hx))

namespace Expression

theorem leads_part {ws : List Written} (h : Leads .outside ws .outside) (isAtom : Bool) :
    Leads .outside (part isAtom ws) .outside := by
  cases isAtom with
  | true => exact h
  | false =>
      have hopen : Leads .outside [.apart .openGroup ['(']] .outside := leads_sign fun _ => rfl
      have hclose : Leads .outside [.apart .closeGroup [')']] .outside := leads_sign fun _ => rfl
      exact hopen.cons (h.append hclose)

theorem leads {registry : Registry}
    (hnames : ∀ name ∈ registry.names, Text.isName Text.isNameRest name.toList = true)
    (e : Expression) (h : e.Resolves registry) : Leads .outside e.written .outside := by
  induction e with
  | char c => exact leads_literal c
  | dot => exact leads_sign fun _ => rfl
  | bracket b => exact b.leads fun _ => rfl
  | exclusion excluded operand => exact (leads_excluded excluded).append (Operand.leads hnames h)
  | named name =>
      obtain ⟨x, hx⟩ := h
      exact leads_reference (hnames name (Registry.mem_names_of_get? hx))
  | empty => exact .nil _
  | append e f ihe ihf => exact (leads_part (ihe h.1) _).append (leads_part (ihf h.2) _)
  | union e f ihe ihf =>
      have hbar : Leads .outside [.apart .bar ['|']] .outside := leads_sign fun _ => rfl
      exact (leads_part (ihe h.1) _).append (hbar.cons (leads_part (ihf h.2) _))
  | star e ih =>
      have hstar : Leads .outside [.apart .star ['*']] .outside := leads_sign fun _ => rfl
      exact (leads_part (ih h) _).append hstar
  | plus e ih =>
      have hplus : Leads .outside [.apart .plus ['+']] .outside := leads_sign fun _ => rfl
      exact (leads_part (ih h) _).append hplus

/-- The tokens of a text are those that its expression is written with. -/
theorem exists_tokens {registry : Registry}
    (hnames : ∀ name ∈ registry.names, Text.isName Text.isNameRest name.toList = true)
    {e : Expression} (h : e.Resolves registry) (origin : Position) :
    ∃ ts, tokens origin e.text = .ok ts ∧ ts.map Token.word = e.written.map Written.word := by
  rw [tokens, pieces, text, String.toList_ofList]
  exact Scanner.Leads.exists_tokens (e.leads hnames h) .unrecognizedInRegex origin

end Expression

/-! ## What is written denotes the expression -/

/-- Tokens that are written in a certain way. -/
def WrittenAs (ts : List Token) (ws : List Written) : Prop :=
  ts.map Token.word = ws.map Written.word

namespace WrittenAs

variable {ts : List Token} {ws us : List Written} {w : Written}

theorem cons_inv (h : WrittenAs ts (w :: ws)) :
    ∃ t ts', ts = t :: ts' ∧ t.kind = w.kind ∧ t.text = String.ofList w.text ∧ WrittenAs ts' ws :=
  Token.exists_of_map_word_eq_cons h

theorem single_inv (h : WrittenAs ts [w]) :
    ∃ t, ts = [t] ∧ t.kind = w.kind ∧ t.text = String.ofList w.text :=
  Token.exists_of_map_word_eq_singleton h

theorem append_inv (h : WrittenAs ts (ws ++ us)) :
    ∃ ts₁ ts₂, ts = ts₁ ++ ts₂ ∧ WrittenAs ts₁ ws ∧ WrittenAs ts₂ us := by
  rw [WrittenAs, List.map_append] at h
  exact List.map_eq_append_iff.mp h

end WrittenAs

variable {registry : Registry} {ts : List Token}

theorem Member.denotes {m : Member} (h : WrittenAs ts m.written) : DenotesMember ts m.set := by
  cases m with
  | char c =>
      obtain ⟨t, rfl, hkind, htext⟩ := h.single_inv
      exact .single hkind (htext ▸ member?_member c)
  | range lo hi hle =>
      obtain ⟨t, _, rfl, htkind, httext, h⟩ := h.cons_inv
      obtain ⟨d, _, rfl, hdkind, -, h⟩ := h.cons_inv
      obtain ⟨u, rfl, hukind, hutext⟩ := h.single_inv
      exact .range htkind (httext ▸ member?_member lo) hdkind hukind
        (hutext ▸ member?_member hi) hle

theorem denotesMembers_written {ms : List Member} (h : WrittenAs ts (ms.flatMap Member.written)) :
    DenotesMembers ts {c | ∃ m ∈ ms, c ∈ m.set} := by
  induction ms using List.reverseRecOn generalizing ts with
  | nil =>
      obtain rfl := List.map_eq_nil_iff.mp h
      simpa using DenotesMembers.nil
  | append_singleton ms m ih =>
      rw [List.flatMap_append, List.flatMap_singleton] at h
      obtain ⟨ts, us, rfl, hts, hus⟩ := h.append_inv
      have hset : {c | ∃ m' ∈ ms ++ [m], c ∈ m'.set} = {c | ∃ m' ∈ ms, c ∈ m'.set} ∪ m.set := by
        ext c
        simp [or_and_right, exists_or]
      rw [hset]
      exact .append (ih hts) (Member.denotes hus)

theorem Bracket.ne_nil_of_writtenAs {b : Bracket} (h : WrittenAs ts b.written) : ts ≠ [] := by
  obtain ⟨m, ms, hms⟩ := List.exists_cons_of_ne_nil b.nonempty
  rintro rfl
  have hwritten : b.written = [] := List.map_eq_nil_iff.mp h.symm
  rw [written, hms, List.flatMap_cons] at hwritten
  cases m <;> simp [Member.written] at hwritten

theorem Bracket.denotes {b : Bracket} (h : WrittenAs ts b.enclosed) : DenotesBracket ts b.set := by
  obtain ⟨o, ts, rfl, ho, -, h⟩ := WrittenAs.cons_inv h
  obtain ⟨ts, us, rfl, hts, hus⟩ := h.append_inv
  obtain ⟨c, rfl, hc, -⟩ := hus.single_inv
  exact .mk ho (denotesMembers_written hts) (ne_nil_of_writtenAs hts) hc

theorem referenceName_of_text {t : Token} {name : String}
    (h : t.text = String.ofList ('$' :: name.toList)) : referenceName t = name := by
  rw [referenceName, h, String.toList_ofList]
  exact String.ofList_toList

theorem Operand.denotes (hclassified : registry.Classified) {operand : Operand}
    (hoperand : operand.Resolves registry) (h : WrittenAs ts operand.written) :
    DenotesOperand registry ts (operand.set registry) := by
  cases operand with
  | bracket b => exact .bracket (Bracket.denotes h)
  | named name =>
      obtain ⟨x, s, hx, hs⟩ := hoperand
      obtain ⟨t, rfl, hkind, htext⟩ := h.single_inv
      have hset : Operand.set registry (.named name) = {c | c ∈ s} := by
        have hlanguage : registry.language name = Fragment.letters {c | c ∈ s} := by
          rw [Registry.language_of_get? hx, hclassified name x hx s hs]
        rw [Operand.set, hlanguage]
        exact Set.ext fun c => Fragment.singleton_mem_letters
      rw [hset]
      exact .reference hkind (by rw [referenceName_of_text htext, hx]) hs

theorem Denotes.regex {p : Part} {l : Language Char} (h : Denotes registry p ts l) :
    Denotes registry .regex ts l := by
  have hitem : ∀ {ts l}, Denotes registry .item ts l → Denotes registry .regex ts l := by
    intro ts l h
    have hbranch := Denotes.append .nil h
    rw [List.nil_append, one_mul] at hbranch
    exact .branch hbranch
  cases p with
  | regex => exact h
  | branch => exact .branch h
  | item => exact hitem h
  | atom => exact hitem (.once h)

namespace Expression

/-- What an expression is written as, at least. -/
def phrase : Expression → Part
  | .char _ => .atom
  | .dot => .atom
  | .bracket _ => .atom
  | .exclusion _ _ => .atom
  | .named _ => .atom
  | .empty => .branch
  | .append _ _ => .branch
  | .union _ _ => .regex
  | .star _ => .item
  | .plus _ => .item

theorem phrase_of_isAtom {e : Expression} (h : e.isAtom = true) : e.phrase = .atom := by
  cases e <;> first | rfl | cases h

/-- Where an atom is needed, an expression that is none is written in parentheses. -/
theorem denotes_part {e : Expression} {l : Language Char}
    (h : WrittenAs ts (part e.isAtom e.written))
    (he : ∀ ts, WrittenAs ts e.written → Denotes registry e.phrase ts l) :
    Denotes registry .atom ts l := by
  cases hatom : e.isAtom with
  | true =>
      rw [hatom] at h
      rw [← phrase_of_isAtom hatom]
      exact he ts h
  | false =>
      rw [hatom] at h
      obtain ⟨o, ts, rfl, ho, -, h⟩ := WrittenAs.cons_inv h
      obtain ⟨ts, us, rfl, hts, hus⟩ := h.append_inv
      obtain ⟨c, rfl, hc, -⟩ := hus.single_inv
      exact .group ho (he ts hts).regex hc

/-- The tokens that an expression is written with denote its language. -/
theorem denotes (hclassified : registry.Classified) (e : Expression) (he : e.Resolves registry)
    (ts : List Token) (h : WrittenAs ts e.written) :
    Denotes registry e.phrase ts (e.language registry) := by
  induction e generalizing ts with
  | char c =>
      obtain ⟨t, rfl, hkind, htext⟩ := h.single_inv
      exact .literal hkind (htext ▸ literal?_literal c)
  | dot =>
      obtain ⟨t, rfl, hkind, -⟩ := h.single_inv
      exact .charClass (.dot hkind)
  | bracket b => exact .charClass (.bracket (Bracket.denotes h))
  | exclusion excluded operand =>
      obtain ⟨ts, vs, rfl, h, hvs⟩ := h.append_inv
      obtain ⟨o, _, rfl, ho, -, h⟩ := WrittenAs.cons_inv h
      obtain ⟨n, _, rfl, hn, -, h⟩ := WrittenAs.cons_inv h
      obtain ⟨us, _, rfl, hus, h⟩ := h.append_inv
      obtain ⟨c, _, rfl, hc, -, h⟩ := h.cons_inv
      obtain ⟨i, rfl, hi, -⟩ := h.single_inv
      exact .charClass (.exclusion ho hn (denotesMembers_written hus)
        (Bracket.ne_nil_of_writtenAs hus) hc hi (Operand.denotes hclassified he hvs))
  | named name =>
      obtain ⟨x, hx⟩ := he
      obtain ⟨t, rfl, hkind, htext⟩ := h.single_inv
      rw [language, Registry.language_of_get? hx]
      exact .reference hkind (by rw [referenceName_of_text htext, hx])
  | empty =>
      obtain rfl := List.map_eq_nil_iff.mp h
      exact .nil
  | append e f ihe ihf =>
      obtain ⟨ts, us, rfl, hts, hus⟩ := h.append_inv
      have hfront := Denotes.append .nil (.once (denotes_part hts (ihe he.1)))
      rw [List.nil_append, one_mul] at hfront
      exact .append hfront (.once (denotes_part hus (ihf he.2)))
  | union e f ihe ihf =>
      obtain ⟨ts, us, rfl, hts, hus⟩ := h.append_inv
      obtain ⟨b, us, rfl, hb, -, hus⟩ := hus.cons_inv
      have hlast := Denotes.append .nil (.once (denotes_part hus (ihf he.2)))
      rw [List.nil_append, one_mul] at hlast
      exact .union (denotes_part hts (ihe he.1)).regex hb hlast
  | star e ih =>
      obtain ⟨ts, us, rfl, hts, hus⟩ := h.append_inv
      obtain ⟨t, rfl, ht, -⟩ := hus.single_inv
      exact .star (denotes_part hts (ih he)) ht
  | plus e ih =>
      obtain ⟨ts, us, rfl, hts, hus⟩ := h.append_inv
      obtain ⟨t, rfl, ht, -⟩ := hus.single_inv
      exact .plus (denotes_part hts (ih he)) ht

end Expression

end Regex

/-! ## Compiling what is written -/

namespace Recognizer

/-- Every expression over a registry compiles from its text, wherever the text starts, to an
automaton that accepts the language of the expression. -/
theorem ofText_expression {ds : List Definition} {registry : Registry}
    (hregistry : Registry.ofDefinitions ds = .ok registry)
    (hnames : ∀ name ∈ registry.names, Text.isName Text.isNameRest name.toList = true)
    (e : Regex.Expression) (he : e.Resolves registry) (origin : Position) :
    ∃ x, ofText registry origin e.text = .ok x ∧ x.fragment.isFinalized = true ∧
      x.fragment.language = e.language registry := by
  obtain ⟨ts, hts, hwritten⟩ := e.exists_tokens hnames he origin
  have hdenotes : Regex.Denotes registry .regex ts (e.language registry) :=
    (e.denotes (Registry.classified_of_ofDefinitions hregistry) he ts hwritten).regex
  obtain ⟨r, hr, -⟩ := Regex.ofTokens_of_denotes hdenotes origin
  obtain ⟨x, hx⟩ := r.recognizer_eq_ok (Regex.stopOf origin ts)
  have hcompiled : ofTokens registry origin ts = .ok x := bind_eq_ok_iff.mpr ⟨r, hr, hx⟩
  obtain ⟨r', hr', hfinished⟩ :=
    finished_of_ofTokens (Registry.sound_of_ofDefinitions hregistry) hcompiled
  obtain rfl : r = r' := Except.ok.inj (hr.symm.trans hr')
  refine ⟨x, bind_eq_ok_iff.mpr ⟨ts, hts, hcompiled⟩, ?_, ?_⟩
  · rw [Fragment.isFinalized, hfinished.accept, Option.isSome_some]
  · rw [hfinished.language_eq]
    exact ((Regex.denotes_iff hr _).mp hdenotes).symm

/-- A minus sign with digits behind it, or one digit that is not zero. -/
theorem ofText_expression_digits : ∃ registry x,
    Registry.ofDefinitions [⟨⟨.definition, "D", .first⟩, ⟨.regex, "[0-9]", .first⟩⟩] =
        .ok registry ∧
      ofText registry .first "( - ( $D + ) ) | [^0] IN $D " = .ok x ∧
      x.fragment.isFinalized = true ∧
      x.fragment.language =
        {['-']} * (registry.language "D" * (registry.language "D")∗) +
          Fragment.letters ({c | [c] ∈ registry.language "D"} \ {'0'}) := by
  have hrun : (Registry.ofDefinitions
      [⟨⟨.definition, "D", .first⟩, ⟨.regex, "[0-9]", .first⟩⟩] >>= fun r =>
        .ok (r.names, ((r.get? "D").bind Recognizer.charClass).isSome)) = .ok (["D"], true) := by
    cbv
  obtain ⟨registry, hregistry, hentry⟩ := bind_eq_ok_iff.mp hrun
  obtain ⟨hnames, hclass⟩ := Prod.mk.inj (Except.ok.inj hentry)
  obtain ⟨s, hs⟩ := Option.isSome_iff_exists.mp hclass
  obtain ⟨d, hd, hs⟩ := Option.bind_eq_some_iff.mp hs
  have hname : ∀ name ∈ registry.names, Text.isName Text.isNameRest name.toList = true := by
    rw [hnames]
    decide
  obtain ⟨x, hx, hfinal, hlanguage⟩ := ofText_expression hregistry hname
    (.union (.append (.char ⟨'-', by decide⟩) (.plus (.named "D")))
      (.exclusion ⟨[.char ⟨'0', by decide⟩], List.cons_ne_nil _ _⟩ (.named "D")))
    ⟨⟨trivial, d, hd⟩, d, s, hd, hs⟩ .first
  refine ⟨registry, x, hregistry, hx, hfinal, hlanguage.trans ?_⟩
  have hset : Regex.Bracket.set ⟨[.char ⟨'0', by decide⟩], List.cons_ne_nil _ _⟩ = {'0'} := by
    simp [Regex.Bracket.set, Regex.Member.set]
  rw [← hset]
  rfl

end Recognizer

end LanguageSpec
