import LanguageSpec.Grammar.Lookahead
import LanguageSpec.Proofs.Except
import LanguageSpec.Proofs.Grammar.Follow

/-!
# Exact lookahead

What the lookahead of a grammar says of beginnings, of vanishing and of what follows is what its
derivations show.
-/

namespace LanguageSpec.Lookahead

open Rewriting (derives_cons_iff derives_nil_iff)

variable {g : Grammar}

theorem mem_first_iff (h : g.WellNumbered) {l : List SymbolId} {t : Nat} :
    t ∈ ((ofGrammar g).first.ofSequence l).terminals ↔
      ∃ rest, g.Derives l (.terminal t :: rest) :=
  (Grammar.mem_firstSets_ofSequence_iff h).trans derives_cons_iff.symm

theorem epsilon_first_iff (h : g.WellNumbered) {l : List SymbolId} :
    ((ofGrammar g).first.ofSequence l).epsilon = true ↔ g.Derives l [] :=
  (Grammar.epsilon_firstSets_ofSequence_iff h).trans derives_nil_iff.symm

/-- First sets are exact, those of non-terminals and those of bodies. -/
theorem first_exact {rules : List Rule} (h : Grammar.ofRules rules = .ok g) :
    (∀ n, (∀ t, t ∈ ((ofGrammar g).first.get n).terminals ↔
          ∃ rest, g.Derives [.nonTerminal n] (.terminal t :: rest)) ∧
        (((ofGrammar g).first.get n).epsilon = true ↔ g.Derives [.nonTerminal n] [])) ∧
      ∀ p ∈ g.productions, (∀ t, t ∈ ((ofGrammar g).ofProduction p).terminals ↔
          ∃ rest, g.Derives p.body (.terminal t :: rest)) ∧
        (((ofGrammar g).ofProduction p).epsilon = true ↔ g.Derives p.body []) := by
  have hnumbered := Grammar.wellNumbered_of_ofRules h
  refine ⟨fun n => ?_, fun p _ => ?_⟩
  · have hsingle := FirstFamily.ofSequence_single (ofGrammar g).first n
    rw [← hsingle]
    exact ⟨fun t => mem_first_iff hnumbered, epsilon_first_iff hnumbered⟩
  · exact ⟨fun t => mem_first_iff hnumbered, epsilon_first_iff hnumbered⟩

theorem first_exact_parentheses : ∃ g, Grammar.ofRules Rule.parentheses = .ok g ∧
    (∀ n, (∀ t, t ∈ ((ofGrammar g).first.get n).terminals ↔
          ∃ rest, g.Derives [.nonTerminal n] (.terminal t :: rest)) ∧
        (((ofGrammar g).first.get n).epsilon = true ↔ g.Derives [.nonTerminal n] [])) ∧
      ∀ p ∈ g.productions, (∀ t, t ∈ ((ofGrammar g).ofProduction p).terminals ↔
          ∃ rest, g.Derives p.body (.terminal t :: rest)) ∧
        (((ofGrammar g).ofProduction p).epsilon = true ↔ g.Derives p.body []) := by
  have hok : (Grammar.ofRules Rule.parentheses).isOk = true := by decide
  obtain ⟨g, hg⟩ := exists_eq_ok_of_isOk hok
  exact ⟨g, hg, first_exact hg⟩

/-- Follow sets are exact: they hold the terminals that come right behind a non-terminal in a list
that some non-terminal derives to, and the end marker where it comes last in one that the start
symbol derives to. -/
theorem follow_exact {rules : List Rule} (h : Grammar.ofRules rules = .ok g) (n t : Nat) :
    t ∈ (ofGrammar g).follow.get n ↔
      (∃ m < g.nonTerminals.length, ∃ x y,
          g.Derives [.nonTerminal m] (x ++ .nonTerminal n :: .terminal t :: y)) ∨
        t = g.endIndex ∧
          ∃ s x, g.start? = some s ∧ g.Derives [.nonTerminal s] (x ++ [.nonTerminal n]) := by
  have hnumbered := Grammar.wellNumbered_of_ofRules h
  exact (Grammar.mem_followSets_iff hnumbered).trans (Grammar.canFollow_iff hnumbered)

theorem follow_exact_parentheses : ∃ g, Grammar.ofRules Rule.parentheses = .ok g ∧
    ∀ n t, t ∈ (ofGrammar g).follow.get n ↔
      (∃ m < g.nonTerminals.length, ∃ x y,
          g.Derives [.nonTerminal m] (x ++ .nonTerminal n :: .terminal t :: y)) ∨
        t = g.endIndex ∧
          ∃ s x, g.start? = some s ∧ g.Derives [.nonTerminal s] (x ++ [.nonTerminal n]) := by
  have hok : (Grammar.ofRules Rule.parentheses).isOk = true := by decide
  obtain ⟨g, hg⟩ := exists_eq_ok_of_isOk hok
  exact ⟨g, hg, follow_exact hg⟩

end LanguageSpec.Lookahead
