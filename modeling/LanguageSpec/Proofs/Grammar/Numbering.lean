import LanguageSpec.Grammar.Basic
import Mathlib.Data.List.Basic

/-!
# Numbered symbols

In a grammar that was made from rules every symbol of a production has a number in the tables, and
numbers stand for names.
-/

namespace LanguageSpec

theorem firstBy_eq_self {α κ : Type} [DecidableEq κ] {key : α → κ} {l : List α}
    (h : (l.map key).Nodup) : firstBy key l = l := by
  induction l with
  | nil => rfl
  | cons a l ih =>
      obtain ⟨ha, hl⟩ := List.nodup_cons.mp h
      rw [firstBy, ih hl]
      congr 1
      apply List.filter_eq_self.mpr
      intro b hb
      have hne : key b ≠ key a := fun heq => ha (heq ▸ List.mem_map_of_mem hb)
      exact decide_eq_true hne

theorem NameTable.mem_names_ofList {names : List String} {name : String} :
    name ∈ (ofList names).names ↔ name ∈ names := by
  have hmem : name ∈ (firstBy id names).map id ↔ name ∈ names.map id := mem_map_firstBy
  rwa [List.map_id, List.map_id] at hmem

theorem NameTable.index?_ofList_eq_some_iff {names : List String} (hnodup : names.Nodup)
    {name : String} {i : Nat} : (ofList names).index? name = some i ↔ names[i]? = some name := by
  have hself : firstBy id names = names := by
    apply firstBy_eq_self
    rwa [List.map_id]
  rw [index?_eq_some_iff]
  change (firstBy id names)[i]? = some name ↔ _
  rw [hself]

theorem NameTable.index?_ofList {names : List String} (hnodup : names.Nodup) {name : String}
    (h : name ∈ names) : (ofList names).index? name = some (names.idxOf name) :=
  (index?_ofList_eq_some_iff hnodup).mpr (List.getElem?_idxOf h)

/-- A number stands for one name. -/
theorem NameTable.eq_of_index? {t : NameTable} {name other : String} {i : Nat}
    (h : t.index? name = some i) (h' : t.index? other = some i) : name = other := by
  rw [index?_eq_some_iff] at h h'
  exact Option.some.inj (h.symm.trans h')

/-- The rules of balanced parentheses. -/
def Rule.parentheses : List Rule :=
  [⟨⟨.nonTerminal, "s", .first⟩,
      [.terminal ⟨.terminal, "(", .first⟩, .nonTerminal ⟨.nonTerminal, "s", .first⟩,
        .terminal ⟨.terminal, ")", .first⟩, .nonTerminal ⟨.nonTerminal, "s", .first⟩]⟩,
    ⟨⟨.nonTerminal, "s", .first⟩, []⟩]

/-- The numbers in productions do not go beyond the tables. -/
structure Grammar.WellNumbered (g : Grammar) : Prop where
  head_lt : ∀ p ∈ g.productions, p.head < g.nonTerminals.length
  nonTerminal_lt : ∀ p ∈ g.productions, ∀ n, .nonTerminal n ∈ p.body → n < g.nonTerminals.length
  terminal_lt : ∀ p ∈ g.productions, ∀ t, .terminal t ∈ p.body → t < g.bodyTerminals.length

namespace Grammar

variable {rules : List Rule} {g : Grammar} {ts : List Document.Token} {name : String} {i : Nat}

theorem ofRules_eq_ok_iff : ofRules rules = .ok g ↔ undefined? rules = none ∧
    g = ⟨headsOf rules, terminalsOf rules,
      rules.map (numberRule (headsOf rules) (terminalsOf rules))⟩ := by
  unfold ofRules
  cases undefined? rules with
  | none => simp [eq_comm]
  | some t => simp

theorem mem_headsOf :
    name ∈ (headsOf rules).map Token.text ↔ ∃ r ∈ rules, r.head.text = name := by
  rw [headsOf, mem_map_firstBy]
  simp

theorem mem_terminalsOf : name ∈ (terminalsOf rules).map Token.text ↔
    ∃ r ∈ rules, ∃ t, .terminal t ∈ r.body ∧ t.text = name := by
  rw [terminalsOf, mem_map_firstBy]
  simp only [List.mem_map, List.mem_filterMap, List.mem_flatMap]
  constructor
  · rintro ⟨t, ⟨s, ⟨r, hr, hs⟩, ht⟩, rfl⟩
    cases s with
    | terminal u =>
        cases ht
        exact ⟨r, hr, t, hs, rfl⟩
    | nonTerminal u => cases ht
  · rintro ⟨r, hr, t, ht, rfl⟩
    exact ⟨t, ⟨.terminal t, ⟨r, hr, ht⟩, rfl⟩, rfl⟩

def IsHeadName (rules : List Rule) (name : String) : Prop := ∃ r ∈ rules, r.head.text = name

theorem contains_heads_iff :
    ((rules.map Rule.head).map Token.text).contains name = true ↔ IsHeadName rules name := by
  simp [IsHeadName]

theorem undefined?_eq_findSome? (rules : List Rule) : undefined? rules =
    rules.findSome? fun r => (r.body.filterMap nonTerminal?).find? fun t =>
      !((rules.map Rule.head).map Token.text).contains t.text := by
  rw [undefined?, List.filterMap_flatMap, List.find?_flatMap]

theorem find?_nonTerminal_eq_none_iff {p : Document.Token → Bool} {body : List Symbol} :
    (body.filterMap nonTerminal?).find? p = none ↔
      ∀ u, .nonTerminal u ∈ body → p u = false := by
  rw [List.find?_eq_none]
  constructor
  · intro h u hu
    simpa using h u (List.mem_filterMap.mpr ⟨_, hu, rfl⟩)
  · intro h u hu
    obtain ⟨s, hs, hu⟩ := List.mem_filterMap.mp hu
    cases s with
    | terminal v => cases hu
    | nonTerminal v =>
        cases hu
        rw [h u hs]
        exact Bool.false_ne_true

theorem undefined?_eq_none_iff : undefined? rules = none ↔
    ∀ r ∈ rules, ∀ t, .nonTerminal t ∈ r.body → IsHeadName rules t.text := by
  simp only [undefined?_eq_findSome?, List.findSome?_eq_none_iff, find?_nonTerminal_eq_none_iff,
    Bool.not_eq_false', contains_heads_iff]

theorem indexIn_lt (h : name ∈ ts.map Token.text) : indexIn ts name < ts.length := by
  rw [← List.length_map Token.text]
  exact List.idxOf_lt_length_of_mem h

theorem wellNumbered_of_ofRules (h : ofRules rules = .ok g) : g.WellNumbered := by
  obtain ⟨hdefined, rfl⟩ := ofRules_eq_ok_iff.mp h
  refine ⟨?_, ?_, ?_⟩
  · intro p hp
    obtain ⟨r, hr, rfl⟩ := List.mem_map.mp hp
    exact indexIn_lt (mem_headsOf.mpr ⟨r, hr, rfl⟩)
  · intro p hp n hn
    obtain ⟨r, hr, rfl⟩ := List.mem_map.mp hp
    obtain ⟨s, hs, hnumber⟩ := List.mem_map.mp hn
    cases s with
    | terminal t => cases hnumber
    | nonTerminal t =>
        cases hnumber
        exact indexIn_lt (mem_headsOf.mpr (undefined?_eq_none_iff.mp hdefined r hr t hs))
  · intro p hp n hn
    obtain ⟨r, hr, rfl⟩ := List.mem_map.mp hp
    obtain ⟨s, hs, hnumber⟩ := List.mem_map.mp hn
    cases s with
    | terminal t =>
        cases hnumber
        exact indexIn_lt (mem_terminalsOf.mpr ⟨r, hr, t, hs, rfl⟩)
    | nonTerminal t => cases hnumber

/-! ## Names -/

/-- No terminal of a body has the name of the end marker. -/
def EndMarkerFree (rules : List Rule) : Prop :=
  ∀ r ∈ rules, ∀ t, .terminal t ∈ r.body → t.text ≠ endMarkerName

theorem getElem?_productions (h : ofRules rules = .ok g) (i : Nat) :
    g.productions[i]? = rules[i]?.map (numberRule g.nonTerminals g.bodyTerminals) := by
  obtain ⟨-, rfl⟩ := ofRules_eq_ok_iff.mp h
  exact List.getElem?_map

theorem rule?_eq (h : ofRules rules = .ok g) (i : Nat) : g.rule? i = rules[i]? := by
  rw [rule?, Grammar.rules, List.getElem?_map, getElem?_productions h, Option.map_map]
  exact congrFun Option.map_id rules[i]?

theorem nonTerminalTable_index? (h : ofRules rules = .ok g) {r : Rule} (hr : r ∈ rules) :
    g.nonTerminalTable.index? r.head.text = some (indexIn g.nonTerminals r.head.text) := by
  obtain ⟨-, rfl⟩ := ofRules_eq_ok_iff.mp h
  apply NameTable.index?_ofList
  · exact nodup_map_firstBy Token.text (rules.map Rule.head)
  · exact mem_headsOf.mpr ⟨r, hr, rfl⟩

theorem start?_of_ofRules (h : ofRules rules = .ok g) {first : Rule}
    (hfirst : rules.head? = some first) :
    g.start? = some (indexIn g.nonTerminals first.head.text) := by
  obtain ⟨-, rfl⟩ := ofRules_eq_ok_iff.mp h
  obtain ⟨rest, rfl⟩ := List.head?_eq_some_iff.mp hfirst
  simp [start?, headsOf, firstBy, indexIn]

theorem mem_bodyTerminals (h : ofRules rules = .ok g) : name ∈ g.bodyTerminals.map Token.text ↔
    ∃ r ∈ rules, ∃ t, .terminal t ∈ r.body ∧ t.text = name := by
  obtain ⟨-, rfl⟩ := ofRules_eq_ok_iff.mp h
  exact mem_terminalsOf

theorem endMarkerName_notMem (h : ofRules rules = .ok g) (hend : EndMarkerFree rules) :
    endMarkerName ∉ g.bodyTerminals.map Token.text := by
  intro hmem
  obtain ⟨r, hr, t, ht, hname⟩ := (mem_bodyTerminals h).mp hmem
  exact hend r hr t ht hname

theorem nodup_terminals (h : ofRules rules = .ok g) (hend : EndMarkerFree rules) :
    (g.terminals.map Token.text).Nodup := by
  have hnot := endMarkerName_notMem h hend
  obtain ⟨-, rfl⟩ := ofRules_eq_ok_iff.mp h
  rw [terminals, List.map_append, List.nodup_append]
  refine ⟨nodup_map_firstBy Token.text _, by simp, ?_⟩
  intro name hname other hother
  obtain rfl : other = endMarkerName := by simpa [endMarker] using hother
  rintro rfl
  exact hnot hname

theorem terminalTable_index? (h : ofRules rules = .ok g) (hend : EndMarkerFree rules)
    (hname : name ∈ g.bodyTerminals.map Token.text) :
    g.terminalTable.index? name = some (indexIn g.bodyTerminals name) := by
  have hmem : name ∈ g.terminals.map Token.text := by
    rw [terminals, List.map_append]
    exact List.mem_append_left _ hname
  rw [terminalTable, NameTable.index?_ofList (nodup_terminals h hend) hmem, terminals,
    List.map_append, List.idxOf_append_of_mem hname, indexIn]

theorem terminalTable_index?_endMarkerName (h : ofRules rules = .ok g)
    (hend : EndMarkerFree rules) : g.terminalTable.index? endMarkerName = some g.endIndex := by
  have hmem : endMarkerName ∈ g.terminals.map Token.text := by simp [terminals, endMarker]
  rw [terminalTable, NameTable.index?_ofList (nodup_terminals h hend) hmem, terminals,
    List.map_append, List.idxOf_append_of_notMem (endMarkerName_notMem h hend), endIndex]
  simp [endMarker]

end Grammar

end LanguageSpec
