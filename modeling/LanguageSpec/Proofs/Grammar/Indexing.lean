import LanguageSpec.Proofs.Grammar.Growth
import Mathlib.Data.List.Forall2

/-!
# How symbols are numbered

Non-terminals are numbered by the first rule that they head, terminals by their first place in a
body. A grammar is refused exactly if a body has a non-terminal that heads no rule, and the first
one is reported. All this holds of the tables and lists that grow with the rules, and the grammar
that is made of all rules at once has the same.
-/

namespace LanguageSpec

/-- The elements of a list, each of them once, in the order of their first appearance. -/
structure ListsDistinct {α : Type} [DecidableEq α] (listed l : List α) : Prop where
  nodup : listed.Nodup
  mem_iff : ∀ a, a ∈ listed ↔ a ∈ l
  ordered : listed.Pairwise fun a b => l.idxOf a < l.idxOf b

theorem listsDistinct_firstBy {α κ : Type} [DecidableEq κ] (key : α → κ) (l : List α) :
    ListsDistinct ((firstBy key l).map key) (l.map key) := by
  refine ⟨nodup_map_firstBy key l, fun k => mem_map_firstBy, ?_⟩
  induction l with
  | nil => exact List.Pairwise.nil
  | cons a l ih =>
      have hnodup := nodup_map_firstBy key (a :: l)
      rw [firstBy, List.map_cons, List.nodup_cons] at hnodup
      have hother : ∀ k ∈ ((firstBy key l).filter fun b => key b ≠ key a).map key, key a ≠ k := by
        rintro k hk rfl
        exact hnodup.1 hk
      rw [firstBy, List.map_cons, List.map_cons]
      refine List.pairwise_cons.mpr ⟨fun k hk => ?_, ?_⟩
      · rw [List.idxOf_cons_self, List.idxOf_cons_ne _ (hother k hk)]
        exact Nat.succ_pos _
      · refine (ih.sublist (List.filter_sublist.map key)).imp_of_mem fun hk hk' hlt => ?_
        rw [List.idxOf_cons_ne _ (hother _ hk), List.idxOf_cons_ne _ (hother _ hk')]
        exact Nat.succ_lt_succ hlt

namespace Grammar

/-! ## What is undefined -/

/-- The first non-terminal, rule by rule and in each body from its front, whose name heads no
rule. -/
def FirstUndefined (rules : List Rule) (t : Document.Token) : Prop :=
  ∃ before r after front back, rules = before ++ r :: after ∧
    r.body = front ++ .nonTerminal t :: back ∧ ¬ IsHeadName rules t.text ∧
    (∀ q ∈ before, ∀ u, .nonTerminal u ∈ q.body → IsHeadName rules u.text) ∧
    ∀ u, .nonTerminal u ∈ front → IsHeadName rules u.text

variable {rules : List Rule} {g : Grammar} {t : Document.Token}

theorem find?_nonTerminal_eq_some_iff {p : Document.Token → Bool} {body : List Symbol} :
    (body.filterMap nonTerminal?).find? p = some t ↔
      ∃ front back, body = front ++ .nonTerminal t :: back ∧ p t = true ∧
        ∀ u, .nonTerminal u ∈ front → p u = false := by
  rw [List.find?_filterMap, Option.bind_eq_some_iff]
  constructor
  · rintro ⟨s, hs, hst⟩
    obtain ⟨hp, front, back, rfl, hfront⟩ := List.find?_eq_some_iff_append.mp hs
    cases s with
    | terminal u => cases hst
    | nonTerminal u =>
        cases hst
        exact ⟨front, back, rfl, hp, fun u hu => by simpa [nonTerminal?] using hfront _ hu⟩
  · rintro ⟨front, back, rfl, hp, hfront⟩
    refine ⟨.nonTerminal t, List.find?_eq_some_iff_append.mpr ⟨hp, front, back, rfl, ?_⟩, rfl⟩
    intro s hs
    cases s with
    | terminal u => rfl
    | nonTerminal u => simpa [nonTerminal?] using hfront u hs

theorem undefined?_eq_some_iff : undefined? rules = some t ↔ FirstUndefined rules t := by
  have hnot : ((rules.map Rule.head).map Token.text).contains t.text = false ↔
      ¬ IsHeadName rules t.text := by
    rw [← contains_heads_iff, Bool.not_eq_true]
  simp only [undefined?_eq_findSome?, List.findSome?_eq_some_iff, find?_nonTerminal_eq_none_iff,
    find?_nonTerminal_eq_some_iff, Bool.not_eq_false', Bool.not_eq_true', contains_heads_iff, hnot]
  constructor
  · rintro ⟨before, r, after, hrules, ⟨front, back, hbody, ht, hfront⟩, hbefore⟩
    exact ⟨before, r, after, front, back, hrules, hbody, ht, hbefore, hfront⟩
  · rintro ⟨before, r, after, front, back, hrules, hbody, ht, hbefore, hfront⟩
    exact ⟨before, r, after, hrules, ⟨front, back, hbody, ht, hfront⟩, hbefore⟩

theorem ofRules_eq_error_iff {e : Error} : ofRules rules = .error e ↔
    ∃ t, FirstUndefined rules t ∧ e = .undefinedReference t.text t.pos := by
  simp only [← undefined?_eq_some_iff]
  unfold ofRules
  cases undefined? rules with
  | none => simp
  | some t => simp [eq_comm]

theorem exists_ofRules_eq_error_iff : (∃ e, ofRules rules = .error e) ↔
    ∃ r ∈ rules, ∃ t, .nonTerminal t ∈ r.body ∧ ¬ IsHeadName rules t.text := by
  have hdefined : undefined? rules = none ↔ _ := undefined?_eq_none_iff
  unfold ofRules
  cases h : undefined? rules with
  | none =>
      have hall := hdefined.mp h
      simpa using hall
  | some t =>
      have hsome : ¬ ∀ r ∈ rules, ∀ t, .nonTerminal t ∈ r.body → IsHeadName rules t.text := by
        rw [← hdefined, h]
        exact Option.some_ne_none t
      simpa using hsome

/-! ## What is numbered -/

/-- The names of the terminals in the bodies, as they come. -/
def bodyTerminalNames (rules : List Rule) : List String :=
  ((rules.flatMap Rule.body).filter Symbol.isTerminal).map Symbol.name

end Grammar

namespace Growth.Lists

/-- A symbol and its number, which is the place of its name among the terminals or among the
non-terminals. -/
inductive Numbers (x : Lists) : Symbol → SymbolId → Prop
  | terminal {t : Document.Token} {i : Nat}
      (h : (x.terminals.tokens.map Token.text)[i]? = some t.text) :
      Numbers x (.terminal t) (.terminal i)
  | nonTerminal {t : Document.Token} {i : Nat}
      (h : (x.nonTerminals.tokens.map Token.text)[i]? = some t.text) :
      Numbers x (.nonTerminal t) (.nonTerminal i)

/-- The symbols in lists and tables, and their numbers, are those of some rules. -/
structure Indexes (x : Lists) (rules : List Rule) : Prop where
  rules_eq : x.rules = rules
  nonTerminals :
    ListsDistinct (x.nonTerminals.tokens.map Token.text) (rules.map fun r => r.head.text)
  terminals : ∃ names, ListsDistinct names (Grammar.bodyTerminalNames rules) ∧
    x.terminals.tokens.map Token.text = names ++ [endMarkerName]
  nonTerminalTable : ∀ name i, x.nonTerminals.table.index? name = some i ↔
    (x.nonTerminals.tokens.map Token.text)[i]? = some name
  terminalTable : ∀ name i, x.terminals.table.index? name = some i ↔
    (x.terminals.tokens.map Token.text)[i]? = some name
  heads : List.Forall₂
    (fun r i => (x.nonTerminals.tokens.map Token.text)[i]? = some r.head.text) rules x.heads
  bodies : List.Forall₂ (fun r body => List.Forall₂ x.Numbers r.body body) rules x.bodies

end Growth.Lists

namespace Grammar

variable {rules : List Rule} {g : Grammar} {t : Document.Token}

/-- The symbols of a grammar and their numbers are those of some rules. -/
def Indexes (g : Grammar) (rules : List Rule) : Prop := (Growth.Lists.ofGrammar g).Indexes rules

theorem Indexes.nonTerminalTable (h : g.Indexes rules) (name : String) (i : Nat) :
    g.nonTerminalTable.index? name = some i ↔ (g.nonTerminals.map Token.text)[i]? = some name :=
  Growth.Lists.Indexes.nonTerminalTable h name i

theorem Indexes.terminalTable (h : g.Indexes rules) (name : String) (i : Nat) :
    g.terminalTable.index? name = some i ↔ (g.terminals.map Token.text)[i]? = some name :=
  Growth.Lists.Indexes.terminalTable h name i

theorem map_filterMap_terminal? (body : List Symbol) :
    (body.filterMap terminal?).map Token.text =
      (body.filter Symbol.isTerminal).map Symbol.name := by
  induction body with
  | nil => rfl
  | cons s body ih =>
      cases s with
      | terminal t => exact congrArg (List.cons t.text) ih
      | nonTerminal t => exact ih

theorem getElem?_indexIn {ts : List Document.Token} {name : String}
    (h : name ∈ ts.map Token.text) : (ts.map Token.text)[indexIn ts name]? = some name :=
  List.getElem?_idxOf h

theorem numbers_numberSymbol (h : ofRules rules = .ok g) {r : Rule} (hr : r ∈ rules) {s : Symbol}
    (hs : s ∈ r.body) :
    (Growth.Lists.ofGrammar g).Numbers s (numberSymbol g.nonTerminals g.bodyTerminals s) := by
  cases s with
  | terminal t =>
      have hmem := (mem_bodyTerminals h).mpr ⟨r, hr, t, hs, rfl⟩
      refine .terminal ?_
      have hlt := indexIn_lt hmem
      rw [← List.length_map Token.text] at hlt
      change (g.terminals.map Token.text)[indexIn g.bodyTerminals t.text]? = some t.text
      rw [terminals, List.map_append, List.getElem?_append_left hlt]
      exact getElem?_indexIn hmem
  | nonTerminal t =>
      obtain ⟨hdefined, rfl⟩ := ofRules_eq_ok_iff.mp h
      have hmem := mem_headsOf.mpr (undefined?_eq_none_iff.mp hdefined r hr t hs)
      exact .nonTerminal (getElem?_indexIn hmem)

theorem indexes_of_ofRules (h : ofRules rules = .ok g) (hend : EndMarkerFree rules) :
    g.Indexes rules := by
  have hterminals := nodup_terminals h hend
  have hnumbers : ∀ r ∈ rules, ∀ s ∈ r.body,
      (Growth.Lists.ofGrammar g).Numbers s (numberSymbol g.nonTerminals g.bodyTerminals s) :=
    fun _ hr _ hs => numbers_numberSymbol h hr hs
  obtain ⟨-, rfl⟩ := ofRules_eq_ok_iff.mp h
  have hheads := listsDistinct_firstBy Token.text (rules.map Rule.head)
  rw [List.map_map] at hheads
  refine ⟨List.ext_getElem? (rule?_eq h), hheads,
    ⟨(terminalsOf rules).map Token.text, ?_, ?_⟩, ?_, ?_, ?_, ?_⟩
  · rw [bodyTerminalNames, ← map_filterMap_terminal?]
    exact listsDistinct_firstBy Token.text _
  · exact List.map_append
  · exact fun name i => NameTable.index?_ofList_eq_some_iff hheads.nodup
  · exact fun name i => NameTable.index?_ofList_eq_some_iff hterminals
  · refine List.forall₂_map_right_iff.mpr (List.forall₂_map_right_iff.mpr ?_)
    refine List.forall₂_same.mpr fun r hr => ?_
    exact getElem?_indexIn (mem_headsOf.mpr ⟨r, hr, rfl⟩)
  · refine List.forall₂_map_right_iff.mpr (List.forall₂_map_right_iff.mpr ?_)
    refine List.forall₂_same.mpr fun r hr => ?_
    exact List.forall₂_map_right_iff.mpr (List.forall₂_same.mpr (hnumbers r hr))

end Grammar

namespace Growth

open Grammar (IsHeadName FirstUndefined EndMarkerFree)

/-- Rules are refused exactly if a body has a non-terminal that heads no rule, and the first one is
reported at its place. Otherwise, and if no terminal has the name of the end marker, the lists that
grow with the rules have the symbols in the order of their first appearance, with the end marker
behind the terminals, and the tables and the numbers of heads and bodies are their places in these
lists. Whatever the terminals are, the lists, tables and numbers are those of the grammar. -/
theorem ofRules_indexes (rules : List Rule) :
    ((∃ e, ofRules rules = .error e) ↔
      ∃ r ∈ rules, ∃ t, .nonTerminal t ∈ r.body ∧ ¬ IsHeadName rules t.text) ∧
    (∀ e, ofRules rules = .error e ↔
      ∃ t, FirstUndefined rules t ∧ e = .undefinedReference t.text t.pos) ∧
    (∀ x, ofRules rules = .ok x → EndMarkerFree rules → x.Indexes rules) ∧
    ofRules rules = (Grammar.ofRules rules).map Lists.ofGrammar := by
  have hsame := ofRules_eq rules
  have herror : ∀ e, ofRules rules = .error e ↔ Grammar.ofRules rules = .error e := by
    intro e
    rw [hsame]
    cases Grammar.ofRules rules <;> simp [Except.map]
  refine ⟨?_, ?_, ?_, hsame⟩
  · rw [exists_congr herror]
    exact Grammar.exists_ofRules_eq_error_iff
  · intro e
    rw [herror]
    exact Grammar.ofRules_eq_error_iff
  · intro x hx hend
    rw [hsame] at hx
    cases hg : Grammar.ofRules rules with
    | error e => simp [hg, Except.map] at hx
    | ok g =>
        obtain rfl : Lists.ofGrammar g = x := by simpa [hg, Except.map] using hx
        exact Grammar.indexes_of_ofRules hg hend

/-- A name that is a terminal and a non-terminal, and symbols that come back. -/
theorem ofRules_indexes_sharedName :
    let rules : List Rule :=
      [⟨⟨.nonTerminal, "s", .first⟩,
          [.terminal ⟨.terminal, "x", .first⟩, .nonTerminal ⟨.nonTerminal, "t", .first⟩,
            .terminal ⟨.terminal, "s", .first⟩, .terminal ⟨.terminal, "x", .first⟩]⟩,
        ⟨⟨.nonTerminal, "t", .first⟩, []⟩,
        ⟨⟨.nonTerminal, "s", .first⟩, [.terminal ⟨.terminal, "t", .first⟩]⟩]
    ∃ x, ofRules rules = .ok x ∧ EndMarkerFree rules ∧ x.Indexes rules := by
  intro rules
  have hok : (ofRules rules).isOk = true := by decide +kernel
  obtain ⟨x, hx⟩ := exists_eq_ok_of_isOk hok
  have hend : EndMarkerFree rules := by simp [EndMarkerFree, rules, endMarkerName]
  exact ⟨x, hx, hend, (ofRules_indexes rules).2.2.1 x hx hend⟩

end Growth

end LanguageSpec
