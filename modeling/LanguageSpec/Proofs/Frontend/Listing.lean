import LanguageSpec.Proofs.Document.Printing
import LanguageSpec.Proofs.Grammar.Listing
import LanguageSpec.Frontend

/-!
# What is printed of a document

A dollar sign in a document begins a definition or is refused, so it never is a terminal. Hence the
names of the symbols of a document tell all of them apart from the end marker, and what is printed
of its table and its sets is what can be asked for by names.
-/

namespace LanguageSpec

open Document (Form)
open Grammar (EndMarkerFree)

theorem Document.Form.ne_endMarkerName {name : String} (h : Form .terminal name.toList) :
    name ≠ endMarkerName := by
  rintro rfl
  have hchars : endMarkerName.toList = ['$'] := by decide
  rw [hchars] at h
  cases h with
  | identifier hname => exact absurd hname (by decide)
  | sign hsign => exact absurd hsign (by decide)

/-- No terminal of a document has the name of the end marker. -/
theorem Document.Outline.endMarkerFree_of_ofText {text : String} {o : Outline}
    (h : ofText text = .ok o) : EndMarkerFree o.rules := by
  obtain ⟨ts, hts, ho⟩ := bind_eq_ok_iff.mp h
  have hformed : o.Formed := (ofTokens_eq_ok_iff_spells.mp ho).formed (form_of_mem_tokens hts)
  intro r hr t ht
  exact ((hformed.rules r hr).2 (.terminal t) ht).ne_endMarkerName

namespace Frontend

variable {text : String} {f : Frontend}

theorem ofText_eq_ok_iff : ofText text = .ok f ↔ ∃ o, Document.Outline.ofText text = .ok o ∧
    Registry.ofDefinitions o.definitions = .ok f.registry ∧
    Grammar.ofRules o.rules = .ok f.grammar ∧ f.lookahead = .ofGrammar f.grammar ∧
    ParseTable.ofLookahead f.grammar (.ofGrammar f.grammar) = .ok f.table := by
  simp only [ofText, ofOutline, bind_eq_ok_iff]
  refine exists_congr fun o => and_congr_right fun _ => ?_
  constructor
  · rintro ⟨registry, hregistry, grammar, hgrammar, table, htable, hf⟩
    cases hf
    exact ⟨hregistry, hgrammar, rfl, htable⟩
  · rintro ⟨hregistry, hgrammar, hlookahead, htable⟩
    refine ⟨_, hregistry, _, hgrammar, _, htable, ?_⟩
    rw [← hlookahead]
    rfl

/-- No terminal of an accepted document has the name of the end marker. What is printed of the table
is what it answers to all names of its rows and columns. Every number in a first or follow set
stands for a name, and what is printed of these sets holds nothing but names. -/
theorem ofText_prints_answers (h : ofText text = .ok f) :
    EndMarkerFree f.grammar.rules ∧ f.table.text = f.table.answers ∧
    (∀ t, ((∃ n, t ∈ (f.lookahead.first.get n).terminals ∨ t ∈ f.lookahead.follow.get n) ∨
        ∃ p ∈ f.grammar.productions, t ∈ (f.lookahead.ofProduction p).terminals) →
      ∃ name, f.grammar.terminalTable.name? t = some name) ∧
    f.lookahead.text f.grammar = f.lookahead.namedText f.grammar := by
  obtain ⟨o, ho, -, hgrammar, hlookahead, htable⟩ := ofText_eq_ok_iff.mp h
  have hend := Document.Outline.endMarkerFree_of_ofText ho
  have hnumbered := Grammar.wellNumbered_of_ofRules hgrammar
  have hindexes := Grammar.indexes_of_ofRules hgrammar hend
  have htableGrammar : f.table.grammar = f.grammar :=
    congrArg ParseTable.grammar (ParseTable.ofLookahead_eq_ok_iff.mp htable).1
  rw [hlookahead]
  refine ⟨?_, ?_, ?_, Lookahead.text_eq_namedText hindexes hnumbered⟩
  · rwa [Grammar.rules_eq hgrammar]
  · rw [← htableGrammar] at hindexes
    exact ParseTable.text_eq_answers hindexes
  · intro t ht
    have hlt : t < f.grammar.terminals.length := by
      rcases ht with ⟨n, ht | ht⟩ | ⟨p, hp, ht⟩
      · exact Lookahead.first_lt hnumbered ht
      · exact Lookahead.follow_lt hnumbered ht
      · exact Lookahead.ofProduction_lt hnumbered hp ht
    exact ⟨_, Lookahead.terminalTable_name? hindexes hlt⟩

/-- A terminal that is a question mark, behind a symbol that can vanish. -/
theorem ofText_prints_answers_optional : ∃ f,
    ofText "%%\n<s> -> <a> ?\n<a> -> x | EPSILON\n" = .ok f ∧
      f.table.text = "non-terminal: <s>\n" ++ "\trule: \"<s> -> <a> ?\", on: ?\n" ++
        "\trule: \"<s> -> <a> ?\", on: x\n" ++ "non-terminal: <a>\n" ++
        "\trule: \"<a> -> EPSILON\", on: ?\n" ++ "\trule: \"<a> -> x\", on: x\n" ∧
      EndMarkerFree f.grammar.rules ∧ f.table.text = f.table.answers ∧
      (∀ t, ((∃ n, t ∈ (f.lookahead.first.get n).terminals ∨ t ∈ f.lookahead.follow.get n) ∨
          ∃ p ∈ f.grammar.productions, t ∈ (f.lookahead.ofProduction p).terminals) →
        ∃ name, f.grammar.terminalTable.name? t = some name) ∧
      f.lookahead.text f.grammar = f.lookahead.namedText f.grammar := by
  have hrun : (ofText "%%\n<s> -> <a> ?\n<a> -> x | EPSILON\n" >>= fun f => .ok f.table.text) =
      .ok ("non-terminal: <s>\n" ++ "\trule: \"<s> -> <a> ?\", on: ?\n" ++
        "\trule: \"<s> -> <a> ?\", on: x\n" ++ "non-terminal: <a>\n" ++
        "\trule: \"<a> -> EPSILON\", on: ?\n" ++ "\trule: \"<a> -> x\", on: x\n") := by
    decide +kernel
  obtain ⟨f, hf, htext⟩ := bind_eq_ok_iff.mp hrun
  exact ⟨f, hf, Except.ok.inj htext, ofText_prints_answers hf⟩

end Frontend

end LanguageSpec
