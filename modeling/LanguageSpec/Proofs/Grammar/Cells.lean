import LanguageSpec.Proofs.Grammar.Names

/-!
# What the cells of a table hold

A table is asked by names. The rule in its cell is the one that is predicted there, and what is
predicted is said by derivations over names, without the numbers of a grammar.
-/

namespace LanguageSpec

open LanguageSpec.Symbol (terminalKey nonTerminalKey)

/-! ## Predictions by names -/

namespace Rule

/-- The terminal stands right behind the non-terminal in a list that some non-terminal derives to,
or is the end marker and the non-terminal stands last in a list that the first head derives to. -/
def CanFollow (rules : List Rule) (nonTerminal terminal : String) : Prop :=
  (∃ other x y, Rewriting.Derives (Expands rules) [nonTerminalKey other]
      (x ++ nonTerminalKey nonTerminal :: terminalKey terminal :: y)) ∨
    terminal = endMarkerName ∧ ∃ first x, rules.head? = some first ∧
      Rewriting.Derives (Expands rules) [first.headKey] (x ++ [nonTerminalKey nonTerminal])

/-- The body of the rule derives to a list that starts with the terminal, or to nothing at all and
the terminal can follow the head. -/
def Predicts (rules : List Rule) (r : Rule) (terminal : String) : Prop :=
  (∃ rest, Rewriting.Derives (Expands rules) r.bodyKeys (terminalKey terminal :: rest)) ∨
    Rewriting.Derives (Expands rules) r.bodyKeys [] ∧ CanFollow rules r.head.text terminal

end Rule

/-! ## Numbers and names -/

namespace Grammar

variable {rules : List Rule} {g : Grammar} {r : Rule} {name terminal : String} {n t : Nat}

theorem endIndex_iff (h : ofRules rules = .ok g) (hend : EndMarkerFree rules)
    (ht : g.terminalTable.index? terminal = some t) :
    t = g.endIndex ↔ terminal = endMarkerName := by
  have hlast := terminalTable_index?_endMarkerName h hend
  constructor
  · rintro rfl
    exact NameTable.eq_of_index? ht hlast
  · rintro rfl
    exact Option.some.inj (ht.symm.trans hlast)

/-- What can follow is the same by numbers and by names. -/
theorem canFollow_iff_names (h : ofRules rules = .ok g) (hend : EndMarkerFree rules)
    (hn : g.nonTerminalTable.index? name = some n)
    (ht : g.terminalTable.index? terminal = some t) :
    g.CanFollow n t ↔ Rule.CanFollow rules name terminal := by
  constructor
  · rintro (⟨m, x, y, hl⟩ | ⟨htend, s, x, hs, hl⟩)
    · have hkeys := derives_keyOf h hend hl
      simp only [List.map_append, List.map_cons, keyOf_nonTerminal hn, keyOf_terminal ht] at hkeys
      exact Or.inl ⟨_, _, _, hkeys⟩
    · refine Or.inr ⟨(endIndex_iff h hend ht).mp htend, ?_⟩
      cases hfirst : rules.head? with
      | none =>
          obtain rfl := List.head?_eq_none_iff.mp hfirst
          obtain ⟨-, rfl⟩ := ofRules_eq_ok_iff.mp h
          cases hs
      | some first =>
          rw [start?_of_ofRules h hfirst] at hs
          obtain rfl := Option.some.inj hs
          have hkeys := derives_keyOf h hend hl
          simp only [List.map_append, List.map_cons, List.map_nil, keyOf_nonTerminal hn] at hkeys
          have hhead : g.keyOf (.nonTerminal (indexIn g.nonTerminals first.head.text)) =
              first.headKey := keyOf_head h (List.mem_of_mem_head? hfirst)
          exact ⟨first, _, rfl, hhead ▸ hkeys⟩
  · have hname := numberKey_nonTerminalKey h hn
    have hterminal := numberKey_terminalKey h hend ht
    rintro (⟨other, x, y, hl⟩ | ⟨htend, first, x, hfirst, hl⟩)
    · have hnumbers := derives_numberKey h hl
      simp only [List.map_append, List.map_cons, hname, hterminal] at hnumbers
      exact Or.inl ⟨_, _, _, hnumbers⟩
    · have hnumbers := derives_numberKey h hl
      simp only [List.map_append, List.map_cons, List.map_nil, hname] at hnumbers
      refine Or.inr ⟨(endIndex_iff h hend ht).mpr htend, _, _, ?_, hnumbers⟩
      exact start?_of_ofRules h hfirst

/-- A rule is predicted on the number of a terminal exactly if it is predicted on its name. -/
theorem predicts_iff_names (h : ofRules rules = .ok g) (hend : EndMarkerFree rules) (hr : r ∈ rules)
    (ht : g.terminalTable.index? terminal = some t) :
    g.Predicts (g.production r) t ↔ Rule.Predicts rules r terminal := by
  have hfollow := canFollow_iff_names h hend (nonTerminalTable_index? h hr) ht
  have hbody := map_keyOf_body h hend hr
  have hnumbers := map_numberKey_bodyKeys g r
  refine or_congr ?_ (and_congr ?_ hfollow)
  · constructor
    · rintro ⟨rest, hl⟩
      have hkeys := derives_keyOf h hend hl
      rw [hbody, List.map_cons, keyOf_terminal ht] at hkeys
      exact ⟨_, hkeys⟩
    · rintro ⟨rest, hl⟩
      have hids := derives_numberKey h hl
      rw [hnumbers, List.map_cons, numberKey_terminalKey h hend ht] at hids
      exact ⟨_, hids⟩
  · constructor
    · intro hl
      have hkeys := derives_keyOf h hend hl
      rwa [hbody] at hkeys
    · intro hl
      have hids := derives_numberKey h hl
      rwa [hnumbers] at hids

end Grammar

/-! ## Cells -/

namespace ParseTable

open Grammar (EndMarkerFree IsTerminalName)

variable {rules : List Rule} {g : Grammar} {table : ParseTable}

/-- A table has a rule for two names exactly if the first is the head of the rule, the second a
terminal of some body or the end marker, and the rule is predicted on it. -/
theorem lookup_exact (hend : EndMarkerFree rules) (hg : Grammar.ofRules rules = .ok g)
    (htable : ofLookahead g (Lookahead.ofGrammar g) = .ok table) (nonTerminal terminal : String)
    (r : Rule) :
    table.lookup nonTerminal terminal = some r ↔
      r ∈ rules ∧ r.head.text = nonTerminal ∧ IsTerminalName rules terminal ∧
        Rule.Predicts rules r terminal := by
  constructor
  · intro hlookup
    obtain ⟨p, t, hp, rfl, hrow, hcolumn, hpredicts⟩ := predicts_of_lookup hg htable hlookup
    obtain ⟨r, hr, rfl⟩ := Grammar.exists_rule_of_mem hg hp
    have hname := NameTable.eq_of_index? (Grammar.nonTerminalTable_index? hg hr) hrow
    refine ⟨hr, hname, Grammar.isTerminalName_of_index? hg hcolumn, ?_⟩
    exact (Grammar.predicts_iff_names hg hend hr hcolumn).mp hpredicts
  · rintro ⟨hr, rfl, hterminal, hpredicts⟩
    have hcolumn := Grammar.terminalTable_index?_of_isTerminalName hg hend hterminal
    obtain ⟨i, hi⟩ := List.mem_iff_getElem?.mp hr
    have hp := List.mem_of_getElem? (Grammar.getElem?_production hg hi)
    have hnumber := (Grammar.predicts_iff_names hg hend hr hcolumn).mpr hpredicts
    exact lookup_of_predicts hg htable hp rfl hcolumn hnumber

theorem lookup_exact_parentheses : ∃ g table, EndMarkerFree Rule.parentheses ∧
    Grammar.ofRules Rule.parentheses = .ok g ∧
    ofLookahead g (Lookahead.ofGrammar g) = .ok table ∧
    ∀ nonTerminal terminal r, table.lookup nonTerminal terminal = some r ↔
      r ∈ Rule.parentheses ∧ r.head.text = nonTerminal ∧
        IsTerminalName Rule.parentheses terminal ∧ Rule.Predicts Rule.parentheses r terminal := by
  have hok : (Grammar.ofRules Rule.parentheses >>= fun g =>
      ofLookahead g (Lookahead.ofGrammar g)).isOk = true := by decide +kernel
  obtain ⟨table, hrun⟩ := exists_eq_ok_of_isOk hok
  obtain ⟨g, hg, htable⟩ := bind_eq_ok_iff.mp hrun
  have hend : EndMarkerFree Rule.parentheses := by
    simp [EndMarkerFree, Rule.parentheses, endMarkerName]
  exact ⟨g, table, hend, hg, htable, lookup_exact hend hg htable⟩

end ParseTable

end LanguageSpec
