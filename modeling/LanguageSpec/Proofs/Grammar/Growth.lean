import LanguageSpec.Proofs.Grammar.Numbering
import LanguageSpec.Proofs.Except

/-!
# Symbols numbered as they come

The symbols of some rules are numbered in two passes, in which tables of names and lists of tokens
grow side by side: first the non-terminals by the heads, then the terminals with the bodies. A head
is looked up before it is added, a terminal is added in any case and its number is what adding
tells. The lists are indexed by numbers of the tables, so one must not get ahead of the other. What
comes out are the tables, lists and numbers of the grammar of these rules.
-/

namespace LanguageSpec

open Grammar (terminal? nonTerminal? indexIn headsOf terminalsOf undefined?)

/-! ## Passes -/

namespace Growth

/-- A table of names beside the list that is indexed by its numbers. -/
structure Symbols where
  table : NameTable
  tokens : List Document.Token

namespace Symbols

def empty : Symbols := ⟨.empty, []⟩

/-- Looks a name up, and adds it if it is new. -/
def addNew (x : Symbols) (t : Document.Token) : Symbols :=
  match x.table.index? t.text with
  | none => ⟨x.table.add t.text, x.tokens ++ [t]⟩
  | some _ => x

/-- Lists a token if its name is new, and adds the name in any case, which tells its number. -/
def addNumbered (x : Symbols) (t : Document.Token) : Symbols × Nat :=
  let tokens :=
    match x.table.index? t.text with
    | none => x.tokens ++ [t]
    | some _ => x.tokens
  (⟨x.table.add t.text, tokens⟩, x.table.indexAfterAdd t.text)

/-- Lists the end marker in any case, also when the table has its name. -/
def close (x : Symbols) : Symbols := ⟨x.table.add endMarkerName, x.tokens ++ [endMarker]⟩

end Symbols

/-- Numbers a symbol behind those in front of it in its body. -/
def numberSymbol (heads : NameTable) (x : Symbols × List SymbolId) :
    Symbol → Except Error (Symbols × List SymbolId)
  | .terminal t =>
    let added := x.1.addNumbered t
    .ok (added.1, x.2 ++ [.terminal added.2])
  | .nonTerminal t =>
    match heads.index? t.text with
    | some i => .ok (x.1, x.2 ++ [.nonTerminal i])
    | none => .error (.undefinedReference t.text t.pos)

def numberBody (heads : NameTable) (x : Symbols × List (List SymbolId)) (r : Rule) :
    Except Error (Symbols × List (List SymbolId)) := do
  let y ← r.body.foldlM (numberSymbol heads) (x.1, [])
  return (y.1, x.2 ++ [y.2])

/-- What is known of some rules: their symbols, and the numbers in their heads and bodies. -/
structure Lists where
  rules : List Rule
  nonTerminals : Symbols
  terminals : Symbols
  heads : List Nat
  bodies : List (List SymbolId)

def ofRules (rules : List Rule) : Except Error Lists := do
  let nonTerminals := rules.foldl (fun x r => x.addNew r.head) .empty
  let x ← rules.foldlM (numberBody nonTerminals.table) (.empty, [])
  let heads := rules.map fun r => (nonTerminals.table.index? r.head.text).getD 0
  return ⟨rules, nonTerminals, x.1.close, heads, x.2⟩

/-- What a grammar tells of its rules. -/
def Lists.ofGrammar (g : Grammar) : Lists where
  rules := g.rules
  nonTerminals := ⟨g.nonTerminalTable, g.nonTerminals⟩
  terminals := ⟨g.terminalTable, g.terminals⟩
  heads := g.productions.map Production.head
  bodies := g.productions.map Production.body

end Growth

/-! ## Lists that grow at the end -/

section FirstBy

variable {α κ : Type} [DecidableEq κ] {key : α → κ}

theorem firstBy_concat (key : α → κ) (l : List α) (a : α) : firstBy key (l ++ [a]) =
    if key a ∈ l.map key then firstBy key l else firstBy key l ++ [a] := by
  induction l with
  | nil => rfl
  | cons b l ih =>
      rw [List.cons_append, firstBy, ih, firstBy, List.map_cons]
      by_cases hl : key a ∈ l.map key
      · rw [if_pos hl, if_pos (List.mem_cons_of_mem _ hl)]
      · rw [if_neg hl, List.filter_append]
        by_cases hb : key a = key b
        · simp [hb]
        · have hnew : key a ∉ key b :: l.map key := by
            rw [List.mem_cons, not_or]
            exact ⟨hb, hl⟩
          simp only [if_neg hnew, List.filter_cons, hb, List.filter_nil, ne_eq, not_false_eq_true,
            decide_true, if_true, List.cons_append]

theorem firstBy_prefix_append (key : α → κ) (l m : List α) :
    firstBy key l <+: firstBy key (l ++ m) := by
  induction m generalizing l with
  | nil => simp
  | cons a m ih =>
      have hrest := ih (l ++ [a])
      rw [List.append_assoc, List.singleton_append] at hrest
      refine List.IsPrefix.trans ?_ hrest
      rw [firstBy_concat]
      split
      · exact List.prefix_rfl
      · exact List.prefix_append _ _

theorem map_firstBy (key : α → κ) (l : List α) :
    (firstBy key l).map key = firstBy id (l.map key) := by
  induction l with
  | nil => rfl
  | cons a l ih =>
      rw [firstBy, List.map_cons, List.map_cons, firstBy, ← ih, List.filter_map]
      rfl

end FirstBy

namespace NameTable

theorem eq_of_names {t u : NameTable} (h : t.names = u.names) : t = u := by
  obtain ⟨names, hnames⟩ := t
  obtain ⟨names', hnames'⟩ := u
  cases h
  rfl

theorem ofList_concat (names : List String) (name : String) :
    ofList (names ++ [name]) = (ofList names).add name := by
  apply eq_of_names
  change firstBy id (names ++ [name]) = _
  rw [firstBy_concat, List.map_id, add]
  by_cases h : name ∈ names
  · rw [if_pos (by exact h), dif_pos (mem_names_ofList.mpr h)]
    rfl
  · rw [if_neg (by exact h), dif_neg fun hmem => h (mem_names_ofList.mp hmem)]
    rfl

end NameTable

/-! ## Numbers of names -/

namespace Growth.Symbols

variable {ts us all : List Document.Token} {t : Document.Token} {name : String}

/-- The symbols behind some tokens. -/
def of (ts : List Document.Token) : Symbols :=
  ⟨.ofList (ts.map Token.text), firstBy Token.text ts⟩

theorem names_of (ts : List Document.Token) :
    (of ts).table.names = (firstBy Token.text ts).map Token.text := (map_firstBy Token.text ts).symm

/-- The table that is made of a list without repeated names. -/
theorem ofList_firstBy (ts : List Document.Token) :
    NameTable.ofList ((firstBy Token.text ts).map Token.text) = (of ts).table := by
  apply NameTable.eq_of_names
  rw [names_of]
  apply firstBy_eq_self
  rw [List.map_id]
  exact nodup_map_firstBy Token.text ts

theorem table_concat (ts : List Document.Token) (t : Document.Token) :
    (of (ts ++ [t])).table = (of ts).table.add t.text := by
  rw [of, List.map_append]
  exact NameTable.ofList_concat _ _

theorem index?_of_mem (h : name ∈ ts.map Token.text) :
    (of ts).table.index? name = some (indexIn (firstBy Token.text ts) name) := by
  rw [← ofList_firstBy]
  exact NameTable.index?_ofList (nodup_map_firstBy Token.text ts) (mem_map_firstBy.mpr h)

theorem index?_of_notMem (h : name ∉ ts.map Token.text) : (of ts).table.index? name = none := by
  rw [← Option.not_isSome_iff_eq_none, NameTable.index?_isSome_iff, names_of, mem_map_firstBy]
  exact h

/-- A name keeps its number however many names come behind. -/
theorem indexIn_of_isPrefix (h : ts <+: all) (hname : name ∈ ts.map Token.text) :
    indexIn (firstBy Token.text ts) name = indexIn (firstBy Token.text all) name := by
  obtain ⟨us, rfl⟩ := h
  obtain ⟨more, hmore⟩ := firstBy_prefix_append Token.text ts us
  rw [indexIn, indexIn, ← hmore, List.map_append,
    List.idxOf_append_of_mem (mem_map_firstBy.mpr hname)]

/-- The table tells the next place in the list as the number of a new name. -/
theorem indexAfterAdd_of (ts : List Document.Token) (t : Document.Token) :
    (of ts).table.indexAfterAdd t.text = indexIn (firstBy Token.text (ts ++ [t])) t.text := by
  rw [firstBy_concat, NameTable.indexAfterAdd]
  by_cases h : t.text ∈ ts.map Token.text
  · rw [index?_of_mem h, if_pos h, Option.getD_some]
  · have hnew : t.text ∉ (firstBy Token.text ts).map Token.text :=
      fun hmem => h (mem_map_firstBy.mp hmem)
    rw [index?_of_notMem h, if_neg h, Option.getD_none, NameTable.size, names_of, indexIn,
      List.map_append, List.idxOf_append_of_notMem hnew, List.map_singleton, List.idxOf_cons_self,
      Nat.add_zero]

/-! ## Passes -/

theorem addNew_of (ts : List Document.Token) (t : Document.Token) :
    (of ts).addNew t = of (ts ++ [t]) := by
  have htokens : (of (ts ++ [t])).tokens = _ := firstBy_concat Token.text ts t
  have htable := table_concat ts t
  by_cases h : t.text ∈ ts.map Token.text
  · have hold : (of ts).table.add t.text = (of ts).table := by
      apply dif_pos
      rw [names_of]
      exact mem_map_firstBy.mpr h
    rw [if_pos h] at htokens
    rw [hold] at htable
    rw [addNew, index?_of_mem h]
    exact congrArg₂ Symbols.mk htable.symm htokens.symm
  · rw [if_neg h] at htokens
    rw [addNew, index?_of_notMem h]
    exact congrArg₂ Symbols.mk htable.symm htokens.symm

theorem addNumbered_of (h : ts ++ [t] <+: all) :
    (of ts).addNumbered t = (of (ts ++ [t]), indexIn (firstBy Token.text all) t.text) := by
  have hmem : t.text ∈ (ts ++ [t]).map Token.text := by simp
  have hnumber := (indexAfterAdd_of ts t).trans (indexIn_of_isPrefix h hmem)
  rw [addNumbered, hnumber, ← table_concat]
  refine congrArg₂ Prod.mk (congrArg (Symbols.mk _) ?_) rfl
  rw [firstBy_concat]
  by_cases hold : t.text ∈ ts.map Token.text
  · rw [index?_of_mem hold, if_pos hold]
    rfl
  · rw [index?_of_notMem hold, if_neg hold]
    rfl

theorem foldl_addNew_of (rules : List Rule) (ts : List Document.Token) :
    rules.foldl (fun x r => x.addNew r.head) (of ts) = of (ts ++ rules.map Rule.head) := by
  induction rules generalizing ts with
  | nil => rw [List.map_nil, List.append_nil, List.foldl_nil]
  | cons r rules ih =>
      rw [List.foldl_cons, addNew_of, ih, List.append_assoc, List.singleton_append, List.map_cons]

theorem close_of (ts : List Document.Token) : (of ts).close =
    ⟨.ofList ((firstBy Token.text ts ++ [endMarker]).map Token.text),
      firstBy Token.text ts ++ [endMarker]⟩ := by
  rw [List.map_append, List.map_singleton, NameTable.ofList_concat, ofList_firstBy]
  rfl

end Symbols

open Symbols (of)

/-- The first of some symbols that is a non-terminal and no head. -/
def undefinedIn (heads : List Document.Token) (body : List Symbol) : Option Document.Token :=
  (body.filterMap nonTerminal?).find? fun t => !(heads.map Token.text).contains t.text

section Bodies

variable {heads ts all : List Document.Token} {t : Document.Token}

theorem undefinedIn_of_mem (h : t.text ∈ heads.map Token.text) (body : List Symbol) :
    undefinedIn heads (.nonTerminal t :: body) = undefinedIn heads body := by
  refine List.find?_cons_of_neg ?_
  simpa using h

theorem undefinedIn_of_notMem (h : t.text ∉ heads.map Token.text) (body : List Symbol) :
    undefinedIn heads (.nonTerminal t :: body) = some t := by
  refine List.find?_cons_of_pos ?_
  simpa using h

theorem undefinedIn_append (heads : List Document.Token) (body more : List Symbol) :
    undefinedIn heads (body ++ more) = (undefinedIn heads body).or (undefinedIn heads more) := by
  rw [undefinedIn, List.filterMap_append, List.find?_append]
  rfl

/-- The symbols of a body are numbered one by one, up to the first non-terminal that is no head. -/
theorem foldlM_numberSymbol {body : List Symbol} {ids : List SymbolId}
    (hall : ts ++ body.filterMap terminal? <+: all) :
    body.foldlM (numberSymbol (of heads).table) (of ts, ids) =
      match undefinedIn heads body with
      | some t => .error (.undefinedReference t.text t.pos)
      | none => .ok (of (ts ++ body.filterMap terminal?), ids ++
          body.map (Grammar.numberSymbol (firstBy Token.text heads) (firstBy Token.text all))) := by
  induction body generalizing ts ids with
  | nil =>
      rw [List.filterMap_nil, List.append_nil, List.map_nil, List.append_nil]
      rfl
  | cons s body ih =>
      cases s with
      | terminal t =>
          have hterminals : (Symbol.terminal t :: body).filterMap terminal? =
              t :: body.filterMap terminal? := rfl
          have hundefined : undefinedIn heads (.terminal t :: body) = undefinedIn heads body := rfl
          rw [hterminals, ← List.singleton_append, ← List.append_assoc] at hall
          have hstep : numberSymbol (of heads).table (of ts, ids) (.terminal t) = .ok
              (of (ts ++ [t]), ids ++ [.terminal (indexIn (firstBy Token.text all) t.text)]) := by
            rw [numberSymbol, Symbols.addNumbered_of ((List.prefix_append _ _).trans hall)]
          rw [List.foldlM_cons, hstep, ok_bind, ih hall, hundefined, hterminals]
          simp only [List.append_assoc, List.singleton_append, List.map_cons]
          rfl
      | nonTerminal t =>
          have hterminals : (Symbol.nonTerminal t :: body).filterMap terminal? =
              body.filterMap terminal? := rfl
          rw [hterminals] at hall
          rw [List.foldlM_cons, hterminals, numberSymbol]
          by_cases hhead : t.text ∈ heads.map Token.text
          · rw [Symbols.index?_of_mem hhead, undefinedIn_of_mem hhead]
            simp only [ok_bind, ih hall, List.append_assoc, List.singleton_append, List.map_cons]
            rfl
          · rw [Symbols.index?_of_notMem hhead, undefinedIn_of_notMem hhead]
            rfl

/-- All bodies are numbered, up to the first non-terminal that is no head. -/
theorem foldlM_numberBody {rules : List Rule} {bodies : List (List SymbolId)}
    (hall : ts ++ (rules.flatMap Rule.body).filterMap terminal? <+: all) :
    rules.foldlM (numberBody (of heads).table) (of ts, bodies) =
      match undefinedIn heads (rules.flatMap Rule.body) with
      | some t => .error (.undefinedReference t.text t.pos)
      | none => .ok (of (ts ++ (rules.flatMap Rule.body).filterMap terminal?), bodies ++
          rules.map fun r => r.body.map
            (Grammar.numberSymbol (firstBy Token.text heads) (firstBy Token.text all))) := by
  induction rules generalizing ts bodies with
  | nil =>
      rw [List.flatMap_nil, List.filterMap_nil, List.append_nil, List.map_nil, List.append_nil]
      rfl
  | cons r rules ih =>
      rw [List.flatMap_cons, List.filterMap_append] at hall ⊢
      rw [← List.append_assoc] at hall
      have hbody := (List.prefix_append _ _).trans hall
      rw [List.foldlM_cons, numberBody, foldlM_numberSymbol hbody, undefinedIn_append]
      cases undefinedIn heads r.body with
      | some t => rfl
      | none =>
          dsimp only [ok_bind, pure, Except.pure, Option.none_or]
          rw [ih hall]
          simp only [List.append_assoc, List.singleton_append, List.map_cons, List.nil_append]

end Bodies

/-! ## Both ways of numbering -/

/-- The lists of the grammar of some rules, which are made of all their symbols at once. -/
theorem lists_numberRule (rules : List Rule) :
    Lists.ofGrammar ⟨headsOf rules, terminalsOf rules,
      rules.map (Grammar.numberRule (headsOf rules) (terminalsOf rules))⟩ =
    { rules
      nonTerminals := of (rules.map Rule.head)
      terminals := (of ((rules.flatMap Rule.body).filterMap terminal?)).close
      heads := rules.map fun r => indexIn (headsOf rules) r.head.text
      bodies := rules.map fun r =>
        r.body.map (Grammar.numberSymbol (headsOf rules) (terminalsOf rules)) } := by
  have hrules : (rules.map (Grammar.numberRule (headsOf rules) (terminalsOf rules))).map
      Production.rule = rules := by
    rw [List.map_map]
    exact List.map_id rules
  have htable : NameTable.ofList ((headsOf rules).map Token.text) =
      (of (rules.map Rule.head)).table := Symbols.ofList_firstBy _
  rw [Lists.ofGrammar, Grammar.rules, hrules, Grammar.nonTerminalTable, htable, Symbols.close_of,
    List.map_map, List.map_map]
  rfl

/-- Two passes give the tables, lists and numbers of the grammar, or its error. -/
theorem ofRules_eq (rules : List Rule) :
    ofRules rules = (Grammar.ofRules rules).map Lists.ofGrammar := by
  have hfirst : rules.foldl (fun x r => x.addNew r.head) Symbols.empty = of (rules.map Rule.head) :=
    Symbols.foldl_addNew_of rules []
  have hsecond := @foldlM_numberBody (rules.map Rule.head) []
    ((rules.flatMap Rule.body).filterMap terminal?) rules [] List.prefix_rfl
  have hempty : of [] = Symbols.empty := rfl
  have hundefined : undefinedIn (rules.map Rule.head) (rules.flatMap Rule.body) =
      undefined? rules := rfl
  rw [hempty, hundefined, List.nil_append, List.nil_append] at hsecond
  rw [ofRules, hfirst, hsecond, Grammar.ofRules]
  cases undefined? rules with
  | some t => rfl
  | none =>
      have hheads : (rules.map fun r =>
          ((of (rules.map Rule.head)).table.index? r.head.text).getD 0) =
            rules.map fun r => indexIn (headsOf rules) r.head.text := by
        refine List.map_congr_left fun r hr => ?_
        have hmem : r.head.text ∈ (rules.map Rule.head).map Token.text :=
          List.mem_map_of_mem (List.mem_map_of_mem hr)
        rw [Symbols.index?_of_mem hmem, Option.getD_some]
        rfl
      dsimp only [ok_bind]
      rw [hheads, Except.map, lists_numberRule]
      rfl

end Growth

end LanguageSpec
