import LanguageSpec.Proofs.Grammar.Table

/-!
# Numbers in lookahead and tables

The numbers of terminals in first and follow sets, and the numbers in the cells of a table, do not
go beyond the lists of a grammar.
-/

namespace LanguageSpec

theorem Grammar.rules_eq {rules : List Rule} {g : Grammar} (h : ofRules rules = .ok g) :
    g.rules = rules :=
  List.ext_getElem? (rule?_eq h)

namespace Lookahead

variable {g : Grammar} {p : Production} {n t : Nat}

/-- What a list can begin with comes from the list itself or from a body. -/
theorem lt_of_mem_ofSequence (h : g.WellNumbered) {l : List SymbolId}
    (hl : ∀ u, .terminal u ∈ l → u < g.bodyTerminals.length)
    (ht : t ∈ ((ofGrammar g).first.ofSequence l).terminals) : t < g.terminals.length := by
  obtain ⟨rest, hderives⟩ := (mem_first_iff h).mp ht
  have hlt := Grammar.terminal_lt_of_derives h hderives (hl t) List.mem_cons_self
  rw [Grammar.terminals, List.length_append]
  exact Nat.lt_add_right 1 hlt

theorem first_lt (h : g.WellNumbered) (ht : t ∈ ((ofGrammar g).first.get n).terminals) :
    t < g.terminals.length := by
  rw [← FirstFamily.ofSequence_single] at ht
  exact lt_of_mem_ofSequence h (by simp) ht

theorem ofProduction_lt (h : g.WellNumbered) (hp : p ∈ g.productions)
    (ht : t ∈ ((ofGrammar g).ofProduction p).terminals) : t < g.terminals.length :=
  lt_of_mem_ofSequence h (h.terminal_lt p hp) ht

theorem follow_lt (h : g.WellNumbered) (ht : t ∈ (ofGrammar g).follow.get n) :
    t < g.terminals.length :=
  Grammar.CanFollow.lt h ((Grammar.mem_followSets_iff h).mp ht)

end Lookahead

end LanguageSpec
