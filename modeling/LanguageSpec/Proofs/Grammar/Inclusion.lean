import LanguageSpec.Proofs.Document.Printing
import LanguageSpec.Proofs.Grammar.Names
import Mathlib.Data.List.Perm.Basic

/-!
# Grammars with more rules

Every list of rules numbers its symbols on its own, so two lists of rules are compared by names.
What some rules derive is derived by more rules too. So first sets, follow sets and predictions only
grow, and a table for more rules holds what a table for fewer of them holds. Except for the head of
the first rule, the order of the rules does not matter.
-/

namespace LanguageSpec

open LanguageSpec.Symbol (Key terminalKey nonTerminalKey)

/-! ## Numbers of one name -/

namespace NameTable

/-- One name has the number `i` in one table and `j` in the other. -/
def Same (t u : NameTable) (i j : Nat) : Prop :=
  ∃ name, t.index? name = some i ∧ u.index? name = some j

/-- Every number in `s` has a name, and in the other table the name has a number in `s'`. -/
def Carries (t u : NameTable) (s s' : SortedSet Nat) : Prop :=
  ∀ i ∈ s, ∃ j ∈ s', t.Same u i j

end NameTable

/-- By names, the first and follow sets of a grammar hold no more than those of another. -/
structure Lookahead.Within (g g' : Grammar) : Prop where
  named : ∀ n < g.nonTerminals.length, ∃ n', g.nonTerminalTable.Same g'.nonTerminalTable n n'
  first : ∀ n n', g.nonTerminalTable.Same g'.nonTerminalTable n n' →
    g.terminalTable.Carries g'.terminalTable
      ((ofGrammar g).first.get n).terminals ((ofGrammar g').first.get n').terminals
  epsilon : ∀ n n', g.nonTerminalTable.Same g'.nonTerminalTable n n' →
    ((ofGrammar g).first.get n).epsilon = true → ((ofGrammar g').first.get n').epsilon = true
  follow : ∀ n n', g.nonTerminalTable.Same g'.nonTerminalTable n n' →
    g.terminalTable.Carries g'.terminalTable
      ((ofGrammar g).follow.get n) ((ofGrammar g').follow.get n')

/-- Where a table holds a rule, another one holds an equal rule. -/
def ParseTable.Within (table table' : ParseTable) : Prop :=
  ∀ name lookahead r, table.lookup name lookahead = some r →
    ∃ r', table'.lookup name lookahead = some r' ∧ r'.value = r.value

/-! ## From fewer rules to more -/

namespace Rule

variable {r r' : Rule}

theorem headKey_of_value (h : r'.value = r.value) : r'.headKey = r.headKey :=
  congrArg nonTerminalKey (Prod.mk.inj h).1

theorem bodyKeys_of_value (h : r'.value = r.value) : r'.bodyKeys = r.bodyKeys := (Prod.mk.inj h).2

end Rule

namespace Grammar

/-- Every rule of one grammar has an equal one in another grammar with the same start symbol. -/
structure Extends (rules rules' : List Rule) (g g' : Grammar) : Prop where
  fewer : ofRules rules = .ok g
  more : ofRules rules' = .ok g'
  includes : ∀ r ∈ rules, ∃ r' ∈ rules', r'.value = r.value
  endMarkerFree_more : EndMarkerFree rules'
  start : rules.head?.map (·.head.text) = rules'.head?.map (·.head.text)

/-- The number in one grammar of what a number stands for in another. -/
def renumber (g g' : Grammar) (s : SymbolId) : SymbolId := g'.numberKey (g.keyOf s)

namespace Extends

variable {rules rules' : List Rule} {g g' : Grammar} {r r' : Rule} {n n' t t' : Nat}
  {name : String} {l m : List SymbolId}

theorem isTerminalName (h : Extends rules rules' g g') (hname : IsTerminalName rules name) :
    IsTerminalName rules' name := by
  refine hname.imp_left ?_
  rintro ⟨r, hr, hmem⟩
  obtain ⟨r', hr', hvalue⟩ := h.includes r hr
  exact ⟨r', hr', Rule.bodyKeys_of_value hvalue ▸ hmem⟩

theorem endMarkerFree_fewer (h : Extends rules rules' g g') : EndMarkerFree rules := by
  intro r hr u hu hname
  obtain ⟨r', hr', hvalue⟩ := h.includes r hr
  have hmem : terminalKey u.text ∈ r'.bodyKeys :=
    Rule.bodyKeys_of_value hvalue ▸ terminalKey_mem_bodyKeys.mpr ⟨u, hu, rfl⟩
  obtain ⟨u', hu', hname'⟩ := terminalKey_mem_bodyKeys.mp hmem
  exact h.endMarkerFree_more r' hr' u' hu' (hname'.trans hname)

/-! ### Symbols -/

theorem same_head (h : Extends rules rules' g g') (hr : r ∈ rules) (hr' : r' ∈ rules')
    (hvalue : r'.value = r.value) :
    g.nonTerminalTable.Same g'.nonTerminalTable (g.production r).head (g'.production r').head := by
  have hname : r'.head.text = r.head.text := (Prod.mk.inj hvalue).1
  refine ⟨r.head.text, nonTerminalTable_index? h.fewer hr, ?_⟩
  rw [← hname]
  exact nonTerminalTable_index? h.more hr'

theorem head_eq {s s' : Rule} (h : Extends rules rules' g g') (hr : r ∈ rules) (hs : s ∈ rules)
    (hr' : r' ∈ rules') (hs' : s' ∈ rules') (hrvalue : r'.value = r.value)
    (hsvalue : s'.value = s.value) (hsame : (g.production r).head = (g.production s).head) :
    (g'.production r').head = (g'.production s').head := by
  obtain ⟨name, hname, hname'⟩ := h.same_head hr hr' hrvalue
  obtain ⟨other, hother, hother'⟩ := h.same_head hs hs' hsvalue
  rw [hsame] at hname
  obtain rfl := NameTable.eq_of_index? hother hname
  exact Option.some.inj (hname'.symm.trans hother')

theorem exists_same_nonTerminal (h : Extends rules rules' g g') (hn : n < g.nonTerminals.length) :
    ∃ n', g.nonTerminalTable.Same g'.nonTerminalTable n n' := by
  obtain ⟨name, hname⟩ := exists_nonTerminalTable_index? h.fewer hn
  obtain ⟨r, hr, rfl⟩ := exists_head_of_index? h.fewer hname
  obtain ⟨r', hr', hvalue⟩ := h.includes r hr
  obtain rfl := Option.some.inj (hname.symm.trans (nonTerminalTable_index? h.fewer hr))
  exact ⟨_, h.same_head hr hr' hvalue⟩

theorem exists_same_terminal (h : Extends rules rules' g g')
    (ht : ∃ name, g.terminalTable.index? name = some t) :
    ∃ t', g.terminalTable.Same g'.terminalTable t t' := by
  obtain ⟨name, hname⟩ := ht
  have hname' := h.isTerminalName (isTerminalName_of_index? h.fewer hname)
  exact ⟨_, name, hname, terminalTable_index?_of_isTerminalName h.more h.endMarkerFree_more hname'⟩

theorem endIndex_of_same (h : Extends rules rules' g g')
    (ht : g.terminalTable.Same g'.terminalTable g.endIndex t') : t' = g'.endIndex := by
  obtain ⟨name, hname, hname'⟩ := ht
  have hlast := terminalTable_index?_endMarkerName h.fewer h.endMarkerFree_fewer
  obtain rfl := NameTable.eq_of_index? hname hlast
  rw [terminalTable_index?_endMarkerName h.more h.endMarkerFree_more] at hname'
  exact (Option.some.inj hname').symm

theorem same_start (h : Extends rules rules' g g') (hn : g.start? = some n) :
    ∃ n', g'.start? = some n' ∧ g.nonTerminalTable.Same g'.nonTerminalTable n n' := by
  have hstart := h.start
  cases hfirst : rules.head? with
  | none =>
      obtain rfl := List.head?_eq_none_iff.mp hfirst
      obtain ⟨-, rfl⟩ := ofRules_eq_ok_iff.mp h.fewer
      cases hn
  | some first =>
      rw [hfirst, Option.map_some, eq_comm, Option.map_eq_some_iff] at hstart
      obtain ⟨first', hfirst', hname⟩ := hstart
      have hindex := nonTerminalTable_index? h.fewer (List.mem_of_mem_head? hfirst)
      have hindex' := nonTerminalTable_index? h.more (List.mem_of_mem_head? hfirst')
      rw [start?_of_ofRules h.fewer hfirst] at hn
      obtain rfl := Option.some.inj hn
      exact ⟨_, start?_of_ofRules h.more hfirst', first.head.text, hindex, hname ▸ hindex'⟩

theorem renumber_nonTerminal (h : Extends rules rules' g g')
    (hn : g.nonTerminalTable.Same g'.nonTerminalTable n n') :
    g.renumber g' (.nonTerminal n) = .nonTerminal n' := by
  obtain ⟨name, hname, hname'⟩ := hn
  rw [renumber, keyOf_nonTerminal hname, numberKey_nonTerminalKey h.more hname']

theorem renumber_terminal (h : Extends rules rules' g g')
    (ht : g.terminalTable.Same g'.terminalTable t t') :
    g.renumber g' (.terminal t) = .terminal t' := by
  obtain ⟨name, hname, hname'⟩ := ht
  rw [renumber, keyOf_terminal hname, numberKey_terminalKey h.more h.endMarkerFree_more hname']

/-! ### Derivations -/

theorem expands (h : Extends rules rules' g g') {s : Key} {body : List Key}
    (hs : Rule.Expands rules s body) : Rule.Expands rules' s body := by
  obtain ⟨r, hr, rfl, rfl⟩ := hs
  obtain ⟨r', hr', hvalue⟩ := h.includes r hr
  exact ⟨r', hr', (Rule.headKey_of_value hvalue).symm, (Rule.bodyKeys_of_value hvalue).symm⟩

/-- By way of names, what one grammar derives the other derives too. -/
theorem derives (h : Extends rules rules' g g') (hl : g.Derives l m) :
    g'.Derives (l.map (g.renumber g')) (m.map (g.renumber g')) := by
  have hkeys := derives_keyOf h.fewer h.endMarkerFree_fewer hl
  have hmore : Rewriting.Derives (Rule.Expands rules') ((l.map g.keyOf).map id)
      ((m.map g.keyOf).map id) := by
    refine hkeys.map id fun s body hs => ?_
    rw [List.map_id]
    exact h.expands hs
  rw [List.map_id, List.map_id] at hmore
  have hnumbers := derives_numberKey h.more hmore
  rwa [List.map_map, List.map_map] at hnumbers

theorem derives_begins (h : Extends rules rules' g g')
    (ht : g.terminalTable.Same g'.terminalTable t t') {rest : List SymbolId}
    (hl : g.Derives l (.terminal t :: rest)) :
    ∃ rest', g'.Derives (l.map (g.renumber g')) (.terminal t' :: rest') := by
  have hderives := h.derives hl
  rw [List.map_cons, h.renumber_terminal ht] at hderives
  exact ⟨_, hderives⟩

theorem map_renumber_body (h : Extends rules rules' g g') (hr : r ∈ rules)
    (hvalue : r'.value = r.value) :
    (g.production r).body.map (g.renumber g') = (g'.production r').body := by
  have hkeys := map_keyOf_body h.fewer h.endMarkerFree_fewer hr
  rw [← map_numberKey_bodyKeys g' r', Rule.bodyKeys_of_value hvalue, ← hkeys, List.map_map]
  rfl

theorem canFollow (h : Extends rules rules' g g')
    (hn : g.nonTerminalTable.Same g'.nonTerminalTable n n')
    (ht : g.terminalTable.Same g'.terminalTable t t') (hcan : g.CanFollow n t) :
    g'.CanFollow n' t' := by
  have hn' := h.renumber_nonTerminal hn
  rcases hcan with ⟨m, x, y, hl⟩ | ⟨rfl, s, x, hs, hl⟩
  · have hderives := h.derives hl
    simp only [List.map_append, List.map_cons, hn', h.renumber_terminal ht] at hderives
    exact Or.inl ⟨_, _, _, hderives⟩
  · obtain ⟨s', hs', hsame⟩ := h.same_start hs
    have hderives := h.derives hl
    simp only [List.map_append, List.map_cons, List.map_nil, hn',
      h.renumber_nonTerminal hsame] at hderives
    exact Or.inr ⟨h.endIndex_of_same ht, s', _, hs', hderives⟩

theorem predicts (h : Extends rules rules' g g') (hr : r ∈ rules) (hr' : r' ∈ rules')
    (hvalue : r'.value = r.value) (ht : g.terminalTable.Same g'.terminalTable t t')
    (hpredicts : g.Predicts (g.production r) t) : g'.Predicts (g'.production r') t' := by
  have hbody := h.map_renumber_body hr hvalue
  rcases hpredicts with ⟨rest, hl⟩ | ⟨hl, hcan⟩
  · obtain ⟨rest', hderives⟩ := h.derives_begins ht hl
    exact Or.inl ⟨rest', hbody ▸ hderives⟩
  · have hderives := h.derives hl
    exact Or.inr ⟨hbody ▸ hderives, h.canFollow (h.same_head hr hr' hvalue) ht hcan⟩

end Extends

theorem exists_of_subset {rules rules' : List Rule}
    (h : rules.map Rule.value ⊆ rules'.map Rule.value) :
    ∀ r ∈ rules, ∃ r' ∈ rules', r'.value = r.value :=
  fun _ hr => List.mem_map.mp (h (List.mem_map_of_mem hr))

/-- Rules of one list have equal rules at different places of a list that holds as many of them. -/
theorem exists_places_of_subperm {rules rules' : List Rule}
    (hsub : (rules.map Rule.value).Subperm (rules'.map Rule.value)) :
    ∃ place : Nat → Nat,
      (∀ (i : Nat) r, rules[i]? = some r → ∃ r', rules'[place i]? = some r' ∧ r'.value = r.value) ∧
        ∀ i j, i < rules.length → j < rules.length → place i = place j → i = j := by
  have hlt : ∀ i < rules.length, i < (rules.map Rule.value).length := by simp
  refine ⟨fun i => if h : i < rules.length then hsub.idxInj ⟨i, hlt i h⟩ else 0, ?_, ?_⟩
  · intro i r hr
    obtain ⟨hi, rfl⟩ := List.getElem?_eq_some_iff.mp hr
    have hvalue := hsub.getElem_idxInj_eq_getElem (i := ⟨i, hlt i hi⟩)
    have hplace : (hsub.idxInj ⟨i, hlt i hi⟩).val < rules'.length :=
      Nat.lt_of_lt_of_eq (hsub.idxInj ⟨i, hlt i hi⟩).isLt (List.length_map _)
    rw [List.getElem_map, List.getElem_map] at hvalue
    dsimp only
    rw [dif_pos hi]
    exact ⟨_, List.getElem?_eq_getElem hplace, hvalue⟩
  · intro i j hi hj hij
    dsimp only at hij
    rw [dif_pos hi, dif_pos hj] at hij
    exact congrArg Fin.val (hsub.idxInj_injective (Fin.ext hij))

theorem IsLL1.of_subperm {rules rules' : List Rule} {g g' : Grammar}
    (h : Extends rules rules' g g')
    (hsub : (rules.map Rule.value).Subperm (rules'.map Rule.value)) (hLL1 : g'.IsLL1) :
    g.IsLL1 := by
  obtain ⟨place, hplace, hinjective⟩ := exists_places_of_subperm hsub
  intro i j p q hp hq hij hhead t hpt hqt
  have hmem := List.mem_of_getElem? hp
  rw [getElem?_productions h.fewer, Option.map_eq_some_iff] at hp hq
  obtain ⟨r, hr, rfl⟩ := hp
  obtain ⟨s, hs, rfl⟩ := hq
  obtain ⟨r', hr', hrvalue⟩ := hplace i r hr
  obtain ⟨s', hs', hsvalue⟩ := hplace j s hs
  obtain ⟨hi, -⟩ := List.getElem?_eq_some_iff.mp hr
  obtain ⟨hj, -⟩ := List.getElem?_eq_some_iff.mp hs
  obtain ⟨t', ht⟩ := h.exists_same_terminal (hpt.exists_index? h.fewer h.endMarkerFree_fewer hmem)
  have hr'mem := List.mem_of_getElem? hr'
  have hs'mem := List.mem_of_getElem? hs'
  have hrmem := List.mem_of_getElem? hr
  have hsmem := List.mem_of_getElem? hs
  -- the two rules are still two, have one head, and are predicted on one terminal
  have hheads := h.head_eq hrmem hsmem hr'mem hs'mem hrvalue hsvalue hhead
  exact hLL1 (place i) (place j) _ _ (getElem?_production h.more hr')
    (getElem?_production h.more hs') (fun he => hij (hinjective i j hi hj he)) hheads t'
    (h.predicts hrmem hr'mem hrvalue ht hpt) (h.predicts hsmem hs'mem hsvalue ht hqt)

end Grammar

namespace Lookahead

open Grammar (Extends)

theorem within_of_extends {rules rules' : List Rule} {g g' : Grammar}
    (h : Extends rules rules' g g') : Within g g' := by
  have hnumbered := Grammar.wellNumbered_of_ofRules h.fewer
  have hnumbered' := Grammar.wellNumbered_of_ofRules h.more
  refine ⟨fun n hn => h.exists_same_nonTerminal hn, ?_, ?_, ?_⟩
  · intro n n' hn t ht
    rw [← FirstFamily.ofSequence_single, mem_first_iff hnumbered] at ht
    obtain ⟨rest, hl⟩ := ht
    have hname := Grammar.exists_index?_of_derives h.fewer h.endMarkerFree_fewer hl
      List.mem_cons_self
    obtain ⟨t', hsame⟩ := h.exists_same_terminal hname
    refine ⟨t', ?_, hsame⟩
    have hbegins := h.derives_begins hsame hl
    rw [List.map_singleton, h.renumber_nonTerminal hn] at hbegins
    rw [← FirstFamily.ofSequence_single, mem_first_iff hnumbered']
    exact hbegins
  · intro n n' hn he
    rw [← FirstFamily.ofSequence_single, epsilon_first_iff hnumbered] at he
    have hderives := h.derives he
    rw [List.map_singleton, h.renumber_nonTerminal hn] at hderives
    rw [← FirstFamily.ofSequence_single, epsilon_first_iff hnumbered']
    exact hderives
  · intro n n' hn t ht
    have hcan := (Grammar.mem_followSets_iff hnumbered).mp ht
    obtain ⟨t', hsame⟩ :=
      h.exists_same_terminal (hcan.exists_index? h.fewer h.endMarkerFree_fewer)
    exact ⟨t', (Grammar.mem_followSets_iff hnumbered').mpr (h.canFollow hn hsame hcan), hsame⟩

end Lookahead

/-! ## Tables -/

/-- The rules of balanced parentheses behind another rule, and in another order. -/
def Rule.letters : List Rule :=
  ⟨⟨.nonTerminal, "s", .first⟩, [.terminal ⟨.terminal, "x", .first⟩]⟩ :: Rule.parentheses.reverse

namespace ParseTable

open Grammar (EndMarkerFree Extends exists_of_subset)

variable {rules rules' : List Rule} {g g' : Grammar} {table table' : ParseTable}

theorem within_of_extends (h : Extends rules rules' g g')
    (htable : ofLookahead g (Lookahead.ofGrammar g) = .ok table)
    (htable' : ofLookahead g' (Lookahead.ofGrammar g') = .ok table') : table.Within table' := by
  intro name lookahead r hlookup
  obtain ⟨p, t, hp, rfl, hrow, hcolumn, hpredicts⟩ := predicts_of_lookup h.fewer htable hlookup
  obtain ⟨r, hr, rfl⟩ := Grammar.exists_rule_of_mem h.fewer hp
  obtain ⟨r', hr', hvalue⟩ := h.includes r hr
  have hname' := h.isTerminalName (Grammar.isTerminalName_of_index? h.fewer hcolumn)
  have hcolumn' :=
    Grammar.terminalTable_index?_of_isTerminalName h.more h.endMarkerFree_more hname'
  have hpredicts' := h.predicts hr hr' hvalue ⟨_, hcolumn, hcolumn'⟩ hpredicts
  obtain ⟨i, hi⟩ := List.mem_iff_getElem?.mp hr'
  have hp' := List.mem_of_getElem? (Grammar.getElem?_production h.more hi)
  have hrow' : g'.numberKey (nonTerminalKey name) = .nonTerminal (g'.production r').head := by
    rw [← h.renumber_nonTerminal (h.same_head hr hr' hvalue), Grammar.renumber,
      Grammar.keyOf_nonTerminal hrow]
  exact ⟨r', lookup_of_predicts h.more htable' hp' hrow' hcolumn' hpredicts', hvalue⟩

theorem exists_of_extends (h : Extends rules rules' g g')
    (hsub : (rules.map Rule.value).Subperm (rules'.map Rule.value))
    (htable' : ofLookahead g' (Lookahead.ofGrammar g') = .ok table') :
    ∃ table, ofLookahead g (Lookahead.ofGrammar g) = .ok table := by
  have hnumbered := Grammar.wellNumbered_of_ofRules h.fewer
  have hnumbered' := Grammar.wellNumbered_of_ofRules h.more
  have hLL1' := isLL1_of_pairwise hnumbered' (ofLookahead_eq_ok_iff.mp htable').2
  have hLL1 := Grammar.IsLL1.of_subperm h hsub hLL1'
  exact ⟨_, ofLookahead_eq_ok_iff.mpr ⟨rfl, pairwise_predictions hnumbered hLL1⟩⟩

theorem Within.map_lookup (h : table.Within table') (h' : table'.Within table)
    (name lookahead : String) :
    (table.lookup name lookahead).map Rule.value =
      (table'.lookup name lookahead).map Rule.value := by
  refine Option.ext fun v => ?_
  simp only [Option.map_eq_some_iff]
  constructor
  · rintro ⟨r, hr, rfl⟩
    exact h name lookahead r hr
  · rintro ⟨r, hr, rfl⟩
    exact h' name lookahead r hr

/-- With more rules and the same start symbol, first sets, follow sets and tables only grow. What
is decided by the rules up to their order is the same for any order that keeps the start symbol. -/
theorem grows_with_rules (hg : Grammar.ofRules rules = .ok g)
    (hg' : Grammar.ofRules rules' = .ok g') (hend' : EndMarkerFree rules')
    (hstart : rules.head?.map (·.head.text) = rules'.head?.map (·.head.text))
    (hsub : (rules.map Rule.value).Subperm (rules'.map Rule.value)) :
    Lookahead.Within g g' ∧
      (∀ table', ofLookahead g' (Lookahead.ofGrammar g') = .ok table' →
        ∃ table, ofLookahead g (Lookahead.ofGrammar g) = .ok table ∧ table.Within table') ∧
      ((rules.map Rule.value).Perm (rules'.map Rule.value) →
        Lookahead.Within g' g ∧
        ((∃ table, ofLookahead g (Lookahead.ofGrammar g) = .ok table) ↔
          ∃ table', ofLookahead g' (Lookahead.ofGrammar g') = .ok table') ∧
        ∀ table table', ofLookahead g (Lookahead.ofGrammar g) = .ok table →
          ofLookahead g' (Lookahead.ofGrammar g') = .ok table' → ∀ name lookahead,
            (table.lookup name lookahead).map Rule.value =
              (table'.lookup name lookahead).map Rule.value) := by
  have h : Extends rules rules' g g' := ⟨hg, hg', exists_of_subset hsub.subset, hend', hstart⟩
  refine ⟨Lookahead.within_of_extends h, fun table' htable' => ?_, fun hperm => ?_⟩
  · obtain ⟨table, htable⟩ := exists_of_extends h hsub htable'
    exact ⟨table, htable, within_of_extends h htable htable'⟩
  · have h' : Extends rules' rules g' g :=
      ⟨hg', hg, exists_of_subset hperm.symm.subset, h.endMarkerFree_fewer, hstart.symm⟩
    refine ⟨Lookahead.within_of_extends h', ⟨?_, ?_⟩, ?_⟩
    · rintro ⟨table, htable⟩
      exact exists_of_extends h' hperm.symm.subperm htable
    · rintro ⟨table', htable'⟩
      exact exists_of_extends h hsub htable'
    · intro table table' htable htable'
      exact (within_of_extends h htable htable').map_lookup (within_of_extends h' htable' htable)

theorem grows_with_rules_parentheses : ∃ g g', Grammar.ofRules Rule.parentheses = .ok g ∧
    Grammar.ofRules Rule.letters = .ok g' ∧
    (∃ table', ofLookahead g' (Lookahead.ofGrammar g') = .ok table') ∧
    Lookahead.Within g g' ∧
      (∀ table', ofLookahead g' (Lookahead.ofGrammar g') = .ok table' →
        ∃ table, ofLookahead g (Lookahead.ofGrammar g) = .ok table ∧ table.Within table') ∧
      ((Rule.parentheses.map Rule.value).Perm (Rule.letters.map Rule.value) →
        Lookahead.Within g' g ∧
        ((∃ table, ofLookahead g (Lookahead.ofGrammar g) = .ok table) ↔
          ∃ table', ofLookahead g' (Lookahead.ofGrammar g') = .ok table') ∧
        ∀ table table', ofLookahead g (Lookahead.ofGrammar g) = .ok table →
          ofLookahead g' (Lookahead.ofGrammar g') = .ok table' → ∀ name lookahead,
            (table.lookup name lookahead).map Rule.value =
              (table'.lookup name lookahead).map Rule.value) := by
  have hok : (Grammar.ofRules Rule.parentheses).isOk = true := by decide
  have hok' : (Grammar.ofRules Rule.letters >>= fun g =>
      ofLookahead g (Lookahead.ofGrammar g)).isOk = true := by decide +kernel
  obtain ⟨g, hg⟩ := exists_eq_ok_of_isOk hok
  obtain ⟨table', hrun⟩ := exists_eq_ok_of_isOk hok'
  obtain ⟨g', hg', htable'⟩ := bind_eq_ok_iff.mp hrun
  have hend : EndMarkerFree Rule.letters := by
    simp [EndMarkerFree, Rule.letters, Rule.parentheses, endMarkerName]
  have hsub : (Rule.parentheses.map Rule.value).Subperm (Rule.letters.map Rule.value) :=
    List.subperm_of_subset (by decide) (by decide)
  exact ⟨g, g', hg, hg', ⟨table', htable'⟩, grows_with_rules hg hg' hend rfl hsub⟩

end ParseTable

end LanguageSpec
