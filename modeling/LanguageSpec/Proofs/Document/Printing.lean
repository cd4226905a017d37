import LanguageSpec.Proofs.Document.Coverage
import LanguageSpec.Proofs.Document.Outline

/-!
# Printed outlines are read back

An outline is printed with a line for each definition, the end of their block, and a line for each
rule. An outline that was read from a text is made of tokens of known forms, and these forms are
found again in what is printed of it. So the printed text has an outline of the same names, regexes
and symbols.
-/

namespace LanguageSpec

/-! ## What is printed -/

/-- The name and the regex of a definition, apart from where they stand. -/
def Definition.value (d : Definition) : String × String := (d.name.text, d.regex.text)

/-- The head and the symbols of a rule, apart from where they stand. -/
def Rule.value (r : Rule) : String × List (Bool × String) := (r.head.text, r.body.map Symbol.key)

def Definition.text (d : Definition) : String := s!"${d.name.text} {d.regex.text}"

def Document.Outline.text (o : Outline) : String :=
  String.join ((o.definitions.map Definition.text ++ "%%" :: o.rules.map Rule.text).map (· ++ "\n"))

/-! ## Words of what is printed -/

open Document (Kind Form)

def Definition.words (d : Definition) : List (Kind × String) :=
  [(.definition, d.name.text), (.regex, d.regex.text), (.lineFeed, "\n")]

def Symbol.word (s : Symbol) : Kind × String :=
  (if s.isTerminal then .terminal else .nonTerminal, s.name)

def Rule.bodyWords (r : Rule) : List (Kind × String) :=
  if r.isEpsilon then [(.epsilon, epsilonText)] else r.body.map Symbol.word

def Rule.words (r : Rule) : List (Kind × String) :=
  (.nonTerminal, r.head.text) :: (.arrow, "->") :: r.bodyWords ++ [(.lineFeed, "\n")]

def Document.Outline.words (o : Outline) : List (Kind × String) :=
  o.definitions.flatMap Definition.words ++ [(.blockEnd, "%%"), (.lineFeed, "\n")] ++
    o.rules.flatMap Rule.words

/-- Whether a name and a regex look as they can be read. -/
def Definition.Formed (d : Definition) : Prop :=
  Form .definition d.name.text.toList ∧ Form .regex d.regex.text.toList

def Rule.Formed (r : Rule) : Prop :=
  Form .nonTerminal r.head.text.toList ∧ ∀ s ∈ r.body, Form s.word.1 s.word.2.toList

structure Document.Outline.Formed (o : Outline) : Prop where
  definitions : ∀ d ∈ o.definitions, d.Formed
  rules : ∀ r ∈ o.rules, r.Formed

namespace Document

variable {ts : List Token} {o : Outline}

/-! ## What is printed is found again -/

theorem leads_definition {d : Definition} (h : d.Formed) :
    scanner.Leads () (d.text ++ "\n").toList d.words () := by
  intro rest
  have hchars : (d.text ++ "\n").toList ++ rest =
      '$' :: (d.name.text.toList ++ ' ' :: (d.regex.text.toList ++ '\n' :: rest)) := by
    simp [Definition.text, toString]
  rw [hchars, words_definition h.1 h.2, words_lineFeed]
  rfl

theorem leads_blockEnd :
    scanner.Leads () "%%\n".toList [(.blockEnd, "%%"), (.lineFeed, "\n")] () := by
  intro rest
  have hend : scanner.words () (['%', '%'] ++ '\n' :: rest) =
      (some .blockEnd, "%%") :: scanner.words () ('\n' :: rest) :=
    words_inline .blockEnd rfl (.inr rfl)
  rw [words_lineFeed] at hend
  exact hend

theorem map_snd_bodyWords (r : Rule) : r.bodyWords.map Prod.snd =
    if r.isEpsilon then [Rule.epsilonText] else r.body.map Symbol.name := by
  rw [Rule.bodyWords]
  split
  · rfl
  · rw [List.map_map]
    rfl

theorem form_bodyWords {r : Rule} (h : r.Formed) :
    ∀ w ∈ r.bodyWords, Form w.1 w.2.toList ∧ w.1.isInline = true := by
  have hepsilon : Rule.epsilonText.toList = epsilonWord := by decide
  rw [Rule.bodyWords]
  split
  · intro w hw
    rw [List.mem_singleton.mp hw, hepsilon]
    exact ⟨.epsilon, rfl⟩
  · intro w hw
    obtain ⟨s, hs, rfl⟩ := List.mem_map.mp hw
    refine ⟨h.2 s hs, ?_⟩
    cases s <;> rfl

theorem leads_rule {r : Rule} (h : r.Formed) :
    scanner.Leads () (r.text ++ "\n").toList r.words () := by
  intro rest
  have hbody : (if r.isEpsilon then [Rule.epsilonText] else r.body.map Symbol.name).flatMap
      (fun w => ' ' :: w.toList) = r.bodyWords.flatMap fun w => ' ' :: w.2.toList := by
    rw [← map_snd_bodyWords, List.flatMap_map]
  -- with a blank in front of it, the head is written as the other tokens are
  have hchars : ' ' :: ((r.text ++ "\n").toList ++ rest) =
      ((.nonTerminal, r.head.text) :: (.arrow, "->") :: r.bodyWords).flatMap
        (fun w : Kind × String => ' ' :: w.2.toList) ++ '\n' :: rest := by
    simp [Rule.text, toString, ← hbody, List.flatMap_map]
  have hforms : ∀ w ∈ (.nonTerminal, r.head.text) :: (.arrow, "->") :: r.bodyWords,
      Form w.1 w.2.toList ∧ w.1.isInline = true := by
    have harrow : Form .arrow "->".toList := by
      have hchars : "->".toList = ['-', '>'] := by decide
      rw [hchars]
      exact .arrow
    refine List.forall_mem_cons.mpr ⟨⟨h.1, rfl⟩, ?_⟩
    exact List.forall_mem_cons.mpr ⟨⟨harrow, rfl⟩, form_bodyWords h⟩
  rw [← words_blank, hchars, words_spaced hforms (.inr rfl), words_lineFeed, Rule.words,
    List.map_append, List.append_assoc]
  rfl

/-- The printed text of an outline is scanned to its words. -/
theorem leads_text (h : o.Formed) : scanner.Leads () o.text.toList o.words () := by
  have hchars : o.text.toList = o.definitions.flatMap (fun d => (d.text ++ "\n").toList) ++
      "%%\n".toList ++ o.rules.flatMap fun r => (r.text ++ "\n").toList := by
    simp [Outline.text, List.flatMap_map]
  rw [hchars, Outline.words]
  have hdefinitions := Scanner.Leads.flatMap fun d hd => leads_definition (h.definitions d hd)
  have hrules := Scanner.Leads.flatMap fun r hr => leads_rule (h.rules r hr)
  exact (hdefinitions.append leads_blockEnd).append hrules

/-! ## What is read can be printed -/

/-- What is spelled by tokens of the forms of their kinds can be printed. -/
theorem Spells.formed (h : Spells ts o) (hforms : ∀ t ∈ ts, Form t.kind t.text.toList) :
    o.Formed := by
  obtain ⟨hdefinitions, hrules⟩ := h.isFrom hforms
  refine ⟨fun d hd => ?_, fun r hr => ?_⟩
  · obtain ⟨hname, hnameForm, hregex, hregexForm⟩ := hdefinitions d hd
    exact ⟨hname ▸ hnameForm, hregex ▸ hregexForm⟩
  · obtain ⟨hhead, hheadForm, hbody⟩ := hrules r hr
    refine ⟨hhead ▸ hheadForm, fun s hs => ?_⟩
    obtain ⟨hproper, hform⟩ := hbody s hs
    have hkind : s.token.kind = s.word.1 := by
      cases s <;> exact hproper
    rwa [hkind] at hform

/-! ## What is printed is read -/

theorem exists_definitions_of_words {ds : List Definition}
    (h : ts.map Token.word = ds.flatMap Definition.words) :
    ∃ ds', SpellsDefinitions ts ds' ∧ ds'.map Definition.value = ds.map Definition.value := by
  induction ds using List.reverseRecOn generalizing ts with
  | nil =>
      obtain rfl := List.map_eq_nil_iff.mp h
      exact ⟨[], .nil, rfl⟩
  | append_singleton ds d ih =>
      rw [List.flatMap_append, List.flatMap_singleton] at h
      obtain ⟨ts, us, rfl, hts, hus⟩ := List.map_eq_append_iff.mp h
      obtain ⟨ds', hds', hvalues⟩ := ih hts
      obtain ⟨n, us, rfl, hn, hname, hus⟩ := Token.exists_of_map_word_eq_cons hus
      obtain ⟨x, us, rfl, hx, hregex, hus⟩ := Token.exists_of_map_word_eq_cons hus
      obtain ⟨f, rfl, hf, -⟩ := Token.exists_of_map_word_eq_singleton hus
      refine ⟨ds' ++ [⟨n, x⟩], .definition hds' hn hx hf, ?_⟩
      rw [List.map_append, List.map_append, hvalues]
      exact congrArg (fun v => ds.map Definition.value ++ [v]) (Prod.ext hname hregex)

theorem exists_symbols_of_words {body : List Symbol}
    (h : ts.map Token.word = body.map Symbol.word) :
    ∃ body' : List Symbol, ts = body'.map Symbol.token ∧ (∀ s ∈ body', s.Proper) ∧
      body'.map Symbol.key = body.map Symbol.key := by
  induction body generalizing ts with
  | nil =>
      obtain rfl := List.map_eq_nil_iff.mp h
      exact ⟨[], rfl, by simp, rfl⟩
  | cons s body ih =>
      obtain ⟨t, ts, rfl, hkind, htext, hts⟩ := Token.exists_of_map_word_eq_cons h
      obtain ⟨body', rfl, hbody', hkeys⟩ := ih hts
      have hsymbol : ∃ s' : Symbol, s'.token = t ∧ s'.Proper ∧ s'.key = s.key := by
        cases s with
        | terminal u => exact ⟨.terminal t, rfl, hkind, congrArg (Prod.mk true) htext⟩
        | nonTerminal u => exact ⟨.nonTerminal t, rfl, hkind, congrArg (Prod.mk false) htext⟩
      obtain ⟨s', rfl, hproper, hkey⟩ := hsymbol
      refine ⟨s' :: body', rfl, List.forall_mem_cons.mpr ⟨hproper, hbody'⟩, ?_⟩
      rw [List.map_cons, List.map_cons, hkey, hkeys]

theorem exists_alternative_of_words {r : Rule} (h : ts.map Token.word = r.bodyWords) :
    ∃ body, SpellsAlternative ts body ∧ body.map Symbol.key = r.body.map Symbol.key := by
  unfold Rule.bodyWords at h
  split at h
  · rename_i hepsilon
    obtain ⟨t, rfl, ht, -⟩ := Token.exists_of_map_word_eq_singleton h
    have hbody : r.body = [] := List.isEmpty_iff.mp hepsilon
    exact ⟨[], .epsilon ht, by rw [hbody]⟩
  · obtain ⟨body, rfl, hproper, hkeys⟩ := exists_symbols_of_words h
    exact ⟨body, .symbols hproper, hkeys⟩

theorem exists_production_of_words {r : Rule} (h : ts.map Token.word = r.words) :
    ∃ r', SpellsProduction ts [r'] ∧ r'.value = r.value := by
  obtain ⟨us, fs, rfl, hus, hfs⟩ := List.map_eq_append_iff.mp h
  obtain ⟨f, rfl, hf, -⟩ := Token.exists_of_map_word_eq_singleton hfs
  obtain ⟨head, us, rfl, hhead, hname, hus⟩ := Token.exists_of_map_word_eq_cons hus
  obtain ⟨arrow, us, rfl, harrow, -, hus⟩ := Token.exists_of_map_word_eq_cons hus
  obtain ⟨body, hbody, hkeys⟩ := exists_alternative_of_words hus
  exact ⟨⟨head, body⟩, .mk hhead harrow (.one hbody) hf, Prod.ext hname hkeys⟩

theorem exists_lines_of_words {rs : List Rule} {f : Token} (hf : f.kind = .lineFeed)
    (h : ts.map Token.word = rs.flatMap Rule.words) :
    ∃ rs', SpellsLines (f :: ts) rs' ∧ rs'.map Rule.value = rs.map Rule.value := by
  induction rs using List.reverseRecOn generalizing ts with
  | nil =>
      obtain rfl := List.map_eq_nil_iff.mp h
      exact ⟨[], .lineFeed .nil hf, rfl⟩
  | append_singleton rs r ih =>
      rw [List.flatMap_append, List.flatMap_singleton] at h
      obtain ⟨ts, us, rfl, hts, hus⟩ := List.map_eq_append_iff.mp h
      obtain ⟨rs', hrs', hvalues⟩ := ih hts
      obtain ⟨r', hr', hvalue⟩ := exists_production_of_words hus
      refine ⟨rs' ++ [r'], .production hrs' hr', ?_⟩
      rw [List.map_append, List.map_append, hvalues, List.map_singleton, List.map_singleton,
        hvalue]

theorem exists_contents_of_words (h : ts.map Token.word = o.words) :
    ∃ o', SpellsContents ts o' ∧
      o'.definitions.map Definition.value = o.definitions.map Definition.value ∧
      o'.rules.map Rule.value = o.rules.map Rule.value := by
  obtain ⟨us, vs, rfl, hus, hvs⟩ := List.map_eq_append_iff.mp h
  obtain ⟨ts, bs, rfl, hts, hbs⟩ := List.map_eq_append_iff.mp hus
  obtain ⟨b, bs, rfl, hb, -, hbs⟩ := Token.exists_of_map_word_eq_cons hbs
  obtain ⟨f, rfl, hf, -⟩ := Token.exists_of_map_word_eq_singleton hbs
  obtain ⟨ds, hds, hdefinitions⟩ := exists_definitions_of_words hts
  obtain ⟨rs, hrs, hrules⟩ := exists_lines_of_words hf hvs
  refine ⟨⟨ds, rs⟩, ?_, hdefinitions, hrules⟩
  have hcontents := SpellsContents.mk hds hb .nil hrs
  simpa using hcontents

/-- Whatever is printed ends in a line feed, so that none is added to its tokens. -/
theorem closing_of_words (h : ts.map Token.word = o.words) (text : String) :
    closing text ts = [⟨.endOfText, "", endPosition text⟩] := by
  have hlast : ∃ ws, o.words = ws ++ [(.lineFeed, "\n")] := by
    rcases List.eq_nil_or_concat o.rules with hnil | ⟨rs, r, hrs⟩
    · exact ⟨o.definitions.flatMap Definition.words ++ [(.blockEnd, "%%")], by
        simp [Outline.words, hnil]⟩
    · exact ⟨_, by
        rw [Outline.words, hrs, List.concat_eq_append, List.flatMap_append, List.flatMap_singleton,
          Rule.words, ← List.append_assoc, ← List.append_assoc]⟩
  obtain ⟨ws, hws⟩ := hlast
  obtain ⟨us, fs, rfl, -, hfs⟩ := List.map_eq_append_iff.mp (h.trans hws)
  obtain ⟨f, rfl, hf, -⟩ := Token.exists_of_map_word_eq_singleton hfs
  simp [closing, hf]

/-! ## Round trip -/

namespace Outline

/-- The printed text of an outline that was read has an outline with the same definitions and rules,
apart from where they stand. -/
theorem ofText_text {text : String} {o : Outline} (h : ofText text = .ok o) :
    ∃ o', ofText o.text = .ok o' ∧
      o'.definitions.map Definition.value = o.definitions.map Definition.value ∧
      o'.rules.map Rule.value = o.rules.map Rule.value := by
  obtain ⟨ts, hts, ho⟩ := bind_eq_ok_iff.mp h
  have hformed : o.Formed :=
    (ofTokens_eq_ok_iff_spells.mp ho).formed (form_of_mem_tokens hts)
  obtain ⟨us, hus, hwords⟩ := (leads_text hformed).exists_tokens .unrecognized .first
  obtain ⟨o', ho', hvalues⟩ := exists_contents_of_words hwords
  have hspells : Spells (us ++ closing o.text us) o' := by
    rw [closing_of_words hwords]
    exact .mk ho' rfl
  have htokens : tokens o.text = .ok (us ++ closing o.text us) :=
    bind_eq_ok_iff.mpr ⟨us, hus, rfl⟩
  exact ⟨o', bind_eq_ok_iff.mpr ⟨_, htokens, ofTokens_eq_ok_iff_spells.mpr hspells⟩, hvalues⟩

/-- A definition with blanks around its regex, and a production with two alternatives and a
comment. -/
theorem ofText_text_sums : ∃ o o',
    ofText "$D  [0-9]+ \n%%\n<s> ::= <s> - D | -- sums\n" = .ok o ∧
      o.text = "$D [0-9]+\n%%\n<s> -> <s> - D\n<s> -> EPSILON\n" ∧
      ofText o.text = .ok o' ∧
      o'.definitions.map Definition.value = o.definitions.map Definition.value ∧
      o'.rules.map Rule.value = o.rules.map Rule.value := by
  have hrun : (ofText "$D  [0-9]+ \n%%\n<s> ::= <s> - D | -- sums\n" >>= fun o => .ok o.text) =
      .ok "$D [0-9]+\n%%\n<s> -> <s> - D\n<s> -> EPSILON\n" := by
    decide +kernel
  obtain ⟨o, ho, htext⟩ := bind_eq_ok_iff.mp hrun
  obtain ⟨o', ho', hvalues⟩ := ofText_text ho
  exact ⟨o, o', ho, Except.ok.inj htext, ho', hvalues⟩

end Outline

end Document

end LanguageSpec
