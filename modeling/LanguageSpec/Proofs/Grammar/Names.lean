import LanguageSpec.Proofs.Grammar.Expansion

/-!
# Numbers and names

The numbers of a grammar stand for the names in its tables. Symbols go both ways between numbers and
names, and what is derived by numbers is derived by names.
-/

namespace LanguageSpec

open LanguageSpec.Symbol (Key terminalKey nonTerminalKey)

/-! ## Names of numbers -/

namespace Grammar

variable {rules : List Rule} {g : Grammar} {r : Rule} {name : String} {n t : Nat}

/-- The name that a number stands for. -/
def keyOf (g : Grammar) : SymbolId → Key
  | .terminal t => terminalKey ((g.terminalTable.name? t).getD "")
  | .nonTerminal n => nonTerminalKey ((g.nonTerminalTable.name? n).getD "")

theorem keyOf_terminal (h : g.terminalTable.index? name = some t) :
    g.keyOf (.terminal t) = terminalKey name := by
  rw [keyOf, NameTable.index?_eq_some_iff.mp h, Option.getD_some]

theorem keyOf_nonTerminal (h : g.nonTerminalTable.index? name = some n) :
    g.keyOf (.nonTerminal n) = nonTerminalKey name := by
  rw [keyOf, NameTable.index?_eq_some_iff.mp h, Option.getD_some]

theorem keyOf_head (h : ofRules rules = .ok g) (hr : r ∈ rules) :
    g.keyOf (.nonTerminal (g.production r).head) = r.headKey :=
  keyOf_nonTerminal (nonTerminalTable_index? h hr)

theorem map_keyOf_body (h : ofRules rules = .ok g) (hend : EndMarkerFree rules) (hr : r ∈ rules) :
    (g.production r).body.map g.keyOf = r.bodyKeys := by
  rw [production, numberRule, Rule.bodyKeys, List.map_map]
  refine List.map_congr_left fun s hs => ?_
  cases s with
  | terminal u =>
      have hmem := (mem_bodyTerminals h).mpr ⟨r, hr, u, hs, rfl⟩
      exact keyOf_terminal (terminalTable_index? h hend hmem)
  | nonTerminal u =>
      have hdefined := undefined?_eq_none_iff.mp (ofRules_eq_ok_iff.mp h).1
      obtain ⟨r', hr', hname⟩ := hdefined r hr u hs
      have hindex := nonTerminalTable_index? h hr'
      rw [hname] at hindex
      exact keyOf_nonTerminal hindex

theorem derives_keyOf (h : ofRules rules = .ok g) (hend : EndMarkerFree rules)
    {l m : List SymbolId} (hl : g.Derives l m) :
    Rewriting.Derives (Rule.Expands rules) (l.map g.keyOf) (m.map g.keyOf) := by
  refine hl.map g.keyOf ?_
  rintro s body ⟨p, hp, rfl, rfl⟩
  obtain ⟨r, hr, rfl⟩ := exists_rule_of_mem h hp
  exact ⟨r, hr, keyOf_head h hr, map_keyOf_body h hend hr⟩

/-! ## Numbers of names -/

theorem exists_head_of_index? (h : ofRules rules = .ok g)
    (hn : g.nonTerminalTable.index? name = some n) : ∃ r ∈ rules, r.head.text = name := by
  have hmem := NameTable.index?_isSome_iff.mp (Option.isSome_of_eq_some hn)
  obtain ⟨-, rfl⟩ := ofRules_eq_ok_iff.mp h
  exact mem_headsOf.mp (NameTable.mem_names_ofList.mp hmem)

theorem numberKey_nonTerminalKey (h : ofRules rules = .ok g)
    (hn : g.nonTerminalTable.index? name = some n) :
    g.numberKey (nonTerminalKey name) = .nonTerminal n := by
  obtain ⟨r, hr, rfl⟩ := exists_head_of_index? h hn
  rw [nonTerminalTable_index? h hr] at hn
  exact congrArg SymbolId.nonTerminal (Option.some.inj hn)

theorem exists_nonTerminalTable_index? (h : ofRules rules = .ok g)
    (hn : n < g.nonTerminals.length) : ∃ name, g.nonTerminalTable.index? name = some n := by
  have hnodup : (g.nonTerminals.map Token.text).Nodup := by
    obtain ⟨-, rfl⟩ := ofRules_eq_ok_iff.mp h
    exact nodup_map_firstBy Token.text _
  rw [← List.length_map Token.text] at hn
  have hindex := NameTable.index?_ofList hnodup (List.getElem_mem hn)
  rw [hnodup.idxOf_getElem] at hindex
  exact ⟨_, hindex⟩

/-- A name of a terminal of some body, or of the end marker. -/
def IsTerminalName (rules : List Rule) (name : String) : Prop :=
  (∃ r ∈ rules, terminalKey name ∈ r.bodyKeys) ∨ name = endMarkerName

theorem terminalKey_mem_bodyKeys :
    terminalKey name ∈ r.bodyKeys ↔ ∃ u, .terminal u ∈ r.body ∧ u.text = name := by
  rw [Rule.bodyKeys, List.mem_map]
  constructor
  · rintro ⟨s, hs, hkey⟩
    cases s with
    | terminal u => exact ⟨u, hs, (Prod.mk.inj hkey).2⟩
    | nonTerminal u => cases hkey
  · rintro ⟨u, hu, rfl⟩
    exact ⟨.terminal u, hu, rfl⟩

theorem mem_bodyTerminals_iff_bodyKeys (h : ofRules rules = .ok g) :
    name ∈ g.bodyTerminals.map Token.text ↔ ∃ r ∈ rules, terminalKey name ∈ r.bodyKeys := by
  simp only [mem_bodyTerminals h, terminalKey_mem_bodyKeys]

theorem terminalTable_index?_of_isTerminalName (h : ofRules rules = .ok g)
    (hend : EndMarkerFree rules) (hname : IsTerminalName rules name) :
    g.terminalTable.index? name = some (indexIn g.bodyTerminals name) := by
  rcases hname with hname | rfl
  · exact terminalTable_index? h hend ((mem_bodyTerminals_iff_bodyKeys h).mpr hname)
  · have hlast : indexIn g.bodyTerminals endMarkerName = g.endIndex := by
      rw [indexIn, List.idxOf_eq_length_iff.mpr (endMarkerName_notMem h hend), List.length_map,
        endIndex]
    rw [terminalTable_index?_endMarkerName h hend, hlast]

theorem isTerminalName_of_index? (h : ofRules rules = .ok g)
    (ht : g.terminalTable.index? name = some t) : IsTerminalName rules name := by
  have hmem := NameTable.index?_isSome_iff.mp (Option.isSome_of_eq_some ht)
  have hname : name ∈ g.bodyTerminals.map Token.text ++ [endMarkerName] := by
    simpa [terminals, endMarker] using NameTable.mem_names_ofList.mp hmem
  rcases List.mem_append.mp hname with hname | hname
  · exact Or.inl ((mem_bodyTerminals_iff_bodyKeys h).mp hname)
  · exact Or.inr (List.mem_singleton.mp hname)

theorem numberKey_terminalKey (h : ofRules rules = .ok g) (hend : EndMarkerFree rules)
    (ht : g.terminalTable.index? name = some t) :
    g.numberKey (terminalKey name) = .terminal t := by
  have hindex := terminalTable_index?_of_isTerminalName h hend (isTerminalName_of_index? h ht)
  rw [ht] at hindex
  exact congrArg SymbolId.terminal (Option.some.inj hindex).symm

theorem exists_terminalTable_index? (h : ofRules rules = .ok g) (hend : EndMarkerFree rules)
    {p : Production} (hp : p ∈ g.productions) (ht : .terminal t ∈ p.body) :
    ∃ name, g.terminalTable.index? name = some t := by
  obtain ⟨r, hr, rfl⟩ := exists_rule_of_mem h hp
  obtain ⟨s, hs, hnumber⟩ := List.mem_map.mp ht
  cases s with
  | terminal u =>
      cases hnumber
      have hname := (mem_bodyTerminals h).mpr ⟨r, hr, u, hs, rfl⟩
      exact ⟨u.text, terminalTable_index? h hend hname⟩
  | nonTerminal u => cases hnumber

theorem exists_index?_of_derives (h : ofRules rules = .ok g) (hend : EndMarkerFree rules)
    {l : List SymbolId} (hl : g.Derives [.nonTerminal n] l) (ht : .terminal t ∈ l) :
    ∃ name, g.terminalTable.index? name = some t := by
  rcases hl.mem ht with hstart | ⟨_, _, ⟨p, hp, -, rfl⟩, hbody⟩
  · cases List.mem_singleton.mp hstart
  · exact exists_terminalTable_index? h hend hp hbody

theorem CanFollow.exists_index? (h : ofRules rules = .ok g) (hend : EndMarkerFree rules)
    (hn : g.CanFollow n t) : ∃ name, g.terminalTable.index? name = some t := by
  rcases hn with ⟨m, x, y, hl⟩ | ⟨rfl, -⟩
  · exact exists_index?_of_derives h hend hl (by simp)
  · exact ⟨_, terminalTable_index?_endMarkerName h hend⟩

theorem Predicts.exists_index? (h : ofRules rules = .ok g) (hend : EndMarkerFree rules)
    {p : Production} (hp : p ∈ g.productions) (ht : g.Predicts p t) :
    ∃ name, g.terminalTable.index? name = some t := by
  rcases ht with ⟨rest, hl⟩ | ⟨-, hcan⟩
  · have hhead : g.Derives [.nonTerminal p.head] (.terminal t :: rest) :=
      (Rewriting.Derives.rule (expands_of_mem hp)).trans hl
    exact exists_index?_of_derives h hend hhead (by simp)
  · exact hcan.exists_index? h hend

end Grammar

end LanguageSpec
