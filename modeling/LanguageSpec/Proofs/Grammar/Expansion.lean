import LanguageSpec.Proofs.Grammar.Leftmost

/-!
# Expansion without reading

A stack of symbols whose non-terminal on top is replaced, again and again, by the body that a table
holds for it and one lookahead terminal. No run of replacements goes on for ever: a body that was
chosen because it vanishes is used up, and one that was chosen because it begins with the lookahead
terminal brings that terminal to the top.
-/

namespace LanguageSpec

open LanguageSpec.Symbol (Key terminalKey nonTerminalKey)
open Relation (ReflTransGen TransGen)
open Rewriting (Begins Vanishes)

/-! ## Names and productions -/

namespace Grammar

variable {rules : List Rule} {g : Grammar} {p : Production} {name : String}

theorem exists_rule_of_mem (h : ofRules rules = .ok g) (hp : p ∈ g.productions) :
    ∃ r ∈ rules, p = g.production r := by
  obtain ⟨-, rfl⟩ := ofRules_eq_ok_iff.mp h
  obtain ⟨r, hr, rfl⟩ := List.mem_map.mp hp
  exact ⟨r, hr, rfl⟩

theorem map_numberKey_of_mem (h : ofRules rules = .ok g) (hp : p ∈ g.productions) :
    p.rule.bodyKeys.map g.numberKey = p.body := by
  obtain ⟨r, -, rfl⟩ := exists_rule_of_mem h hp
  exact map_numberKey_bodyKeys g r

/-- The number of the head of a production belongs to one name only. -/
theorem nonTerminalTable_index?_of_numberKey (h : ofRules rules = .ok g) (hp : p ∈ g.productions)
    (hname : g.numberKey (nonTerminalKey name) = .nonTerminal p.head) :
    g.nonTerminalTable.index? name = some p.head := by
  obtain ⟨r, hr, rfl⟩ := exists_rule_of_mem h hp
  have hindex : indexIn g.nonTerminals name = indexIn g.nonTerminals r.head.text :=
    SymbolId.nonTerminal.inj hname
  have hlt : indexIn g.nonTerminals name < (g.nonTerminals.map Token.text).length := by
    have hhead := (wellNumbered_of_ofRules h).head_lt _ hp
    rw [List.length_map, hindex]
    exact hhead
  have hmem : name ∈ g.nonTerminals.map Token.text := List.idxOf_lt_length_iff.mp hlt
  obtain rfl : name = r.head.text := (List.idxOf_inj hmem).mp hindex
  exact nonTerminalTable_index? h hr

end Grammar

namespace ParseTable

/-! ## Replacements -/

/-- The non-terminal on top of a stack is replaced by the body of the rule in its cell. -/
inductive Replaces (table : ParseTable) (lookahead : String) : List Key → List Key → Prop
  | mk {name : String} {r : Rule} (rest : List Key) (h : table.lookup name lookahead = some r) :
      Replaces table lookahead (nonTerminalKey name :: rest) (r.bodyKeys ++ rest)

/-- A stack on which there is nothing to replace: it is empty, or has a terminal on top, or a
non-terminal without a production on the lookahead terminal. -/
inductive Settled (table : ParseTable) (lookahead : String) : List Key → Prop
  | nil : Settled table lookahead []
  | terminal (name : String) (rest : List Key) :
      Settled table lookahead (terminalKey name :: rest)
  | stuck {name : String} (rest : List Key) (h : table.lookup name lookahead = none) :
      Settled table lookahead (nonTerminalKey name :: rest)

/-- Replacements lead from a stack to one that is settled. -/
def Settles (table : ParseTable) (lookahead : String) (stack : List Key) : Prop :=
  ∃ stop, ReflTransGen (Replaces table lookahead) stack stop ∧ Settled table lookahead stop

variable {table : ParseTable} {lookahead : String} {l m n : List Key}

theorem Replaces.append (h : Replaces table lookahead l m) (back : List Key) :
    Replaces table lookahead (l ++ back) (m ++ back) := by
  cases h with
  | @mk name r rest h =>
      rw [List.append_assoc]
      exact .mk (rest ++ back) h

theorem Replaces.unique (h : Replaces table lookahead l m) (h' : Replaces table lookahead l n) :
    m = n := by
  cases h with
  | mk rest hr =>
      cases h' with
      | mk _ hr' =>
          rw [hr] at hr'
          rw [Option.some.inj hr']

theorem Settled.not_replaces (h : Settled table lookahead l) :
    ¬ Replaces table lookahead l m := by
  intro hm
  cases hm with
  | mk rest hr =>
      cases h with
      | stuck _ hnone => simp [hnone] at hr

theorem run_append (h : ReflTransGen (Replaces table lookahead) l m) (back : List Key) :
    ReflTransGen (Replaces table lookahead) (l ++ back) (m ++ back) :=
  ReflTransGen.lift (· ++ back) (fun _ _ hstep => hstep.append back) _ _ h

theorem Settles.of_run (h : ReflTransGen (Replaces table lookahead) l m)
    (hm : Settles table lookahead m) : Settles table lookahead l := by
  obtain ⟨stop, hrun, hstop⟩ := hm
  exact ⟨stop, h.trans hrun, hstop⟩

/-- What lies below is reached only if all above it is used up. -/
theorem Settles.append (hl : Settles table lookahead l) (hm : Settles table lookahead m) :
    Settles table lookahead (l ++ m) := by
  obtain ⟨stop, hrun, hstop⟩ := hl
  have hrun' := run_append hrun m
  cases hstop with
  | nil => exact Settles.of_run hrun' hm
  | terminal name rest => exact ⟨_, hrun', .terminal name (rest ++ m)⟩
  | stuck rest hnone => exact ⟨_, hrun', .stuck (rest ++ m) hnone⟩

/-- A stack that settles starts no endless run, since there is one replacement at most for each
stack. -/
theorem Settles.acc (h : Settles table lookahead l) :
    Acc (Function.swap (Replaces table lookahead)) l := by
  obtain ⟨stop, hrun, hstop⟩ := h
  induction hrun using ReflTransGen.head_induction_on with
  | refl => exact Acc.intro stop fun m hm => absurd hm hstop.not_replaces
  | @head a b hstep _ ih =>
      apply Acc.intro a
      intro m hm
      rw [Replaces.unique hm hstep]
      exact ih

theorem Settles.not_transGen {name : String}
    (h : Settles table lookahead [nonTerminalKey name]) (rest : List Key) :
    ¬ TransGen (Replaces table lookahead) [nonTerminalKey name] (nonTerminalKey name :: rest) := by
  intro hcycle
  -- a cycle can be run through with anything below it, and so without end
  have hno : ∀ stack, Acc (TransGen (Function.swap (Replaces table lookahead))) stack →
      ∀ below, stack ≠ nonTerminalKey name :: below := by
    intro stack hacc
    induction hacc with
    | intro stack _ ih =>
        rintro below rfl
        have hagain : TransGen (Replaces table lookahead) (nonTerminalKey name :: below)
            (nonTerminalKey name :: (rest ++ below)) :=
          TransGen.lift (· ++ below) (fun _ _ hstep => hstep.append below) _ _ hcycle
        exact ih _ (Relation.transGen_swap.mpr hagain) _ rfl
  exact hno _ h.acc.transGen [] rfl

/-! ## Runs in a table that was built -/

section Built

variable {rules : List Rule} {g : Grammar} {p : Production} {name : String} {t : Nat}

section Run

variable (hg : Grammar.ofRules rules = .ok g)
  (htable : ofLookahead g (Lookahead.ofGrammar g) = .ok table)

include hg htable

theorem lookup_of_predicts (hp : p ∈ g.productions)
    (hname : g.numberKey (nonTerminalKey name) = .nonTerminal p.head)
    (ht : g.terminalTable.index? lookahead = some t) (hpredicts : g.Predicts p t) :
    table.lookup name lookahead = some p.rule := by
  have hrow := Grammar.nonTerminalTable_index?_of_numberKey hg hp hname
  obtain ⟨i, hi⟩ := List.mem_iff_getElem?.mp hp
  have hcell := cell?_of_predicts (Grammar.wellNumbered_of_ofRules hg) htable hi hpredicts
  obtain ⟨rfl, -⟩ := ofLookahead_eq_ok_iff.mp htable
  simp only [lookup, hrow, ht]
  exact hcell

theorem predicts_of_lookup {r : Rule} (hr : table.lookup name lookahead = some r) :
    ∃ p t, p ∈ g.productions ∧ p.rule = r ∧ g.nonTerminalTable.index? name = some p.head ∧
      g.terminalTable.index? lookahead = some t ∧ g.Predicts p t := by
  obtain ⟨rfl, -⟩ := ofLookahead_eq_ok_iff.mp htable
  simp only [lookup, cell?, Option.bind_eq_bind, Option.bind_eq_some_iff] at hr
  obtain ⟨row, hrow, column, hcolumn, c, hc, hrule⟩ := hr
  have hplace : c.row = row ∧ c.column = column := by simpa using List.find?_some hc
  obtain ⟨rfl, rfl⟩ := hplace
  have hmem := List.mem_of_find?_eq_some hc
  obtain ⟨p, hp, hhead, hpredicts⟩ :=
    (Lookahead.mem_predictions_iff (Grammar.wellNumbered_of_ofRules hg)).mp hmem
  have hpr : p.rule = r := by
    rw [Grammar.rule?, Grammar.rules, List.getElem?_map, hp] at hrule
    exact Option.some.inj hrule
  exact ⟨p, c.column, List.mem_of_getElem? hp, hpr, hhead ▸ hrow, hcolumn, hpredicts⟩

/-- A list that vanishes is used up, if the lookahead terminal can follow whatever may stand last in
it. -/
theorem run_of_vanishes (ht : g.terminalTable.index? lookahead = some t)
    (hl : Vanishes g.Expands (l.map g.numberKey))
    (hfollow : ∀ x n y, l.map g.numberKey = x ++ .nonTerminal n :: y → Vanishes g.Expands y →
      g.CanFollow n t) : ReflTransGen (Replaces table lookahead) l [] := by
  generalize hids : l.map g.numberKey = ids at hl hfollow
  induction hl generalizing l with
  | nil =>
      obtain rfl := List.map_eq_nil_iff.mp hids
      exact .refl
  | @cons s body rest hrule hbody hrest ihbody ihrest =>
      obtain ⟨p, hp, rfl, rfl⟩ := hrule
      obtain ⟨⟨isTerminal, name⟩, l, rfl, hname, rfl⟩ := List.map_eq_cons_iff.mp hids
      cases isTerminal with
      | true => cases hname
      | false =>
          have hcan : g.CanFollow p.head t := hfollow [] p.head _ rfl hrest
          have hpredicts := Grammar.predicts_of_vanishes hbody hcan
          have hlookup := lookup_of_predicts hg htable hp hname ht hpredicts
          have hkeys := Grammar.map_numberKey_of_mem hg hp
          have hinner : ReflTransGen (Replaces table lookahead) p.rule.bodyKeys [] := by
            apply ihbody hkeys
            intro x n y hsplit hy
            exact hcan.of_vanishes hp hsplit hy
          have houter : ReflTransGen (Replaces table lookahead) l [] := by
            apply ihrest rfl
            intro x n y hsplit hy
            exact hfollow (.nonTerminal p.head :: x) n y (by rw [hsplit]; rfl) hy
          exact ReflTransGen.head (.mk l hlookup) ((run_append hinner l).trans houter)

/-- A list that can begin with the lookahead terminal is replaced until it has a terminal on top, if
the lookahead terminal can follow whatever it may stand behind. -/
theorem run_of_begins (ht : g.terminalTable.index? lookahead = some t)
    (hl : Begins g.Expands (.terminal t) (l.map g.numberKey))
    (hfollow : ∀ x n y, l.map g.numberKey = x ++ .nonTerminal n :: y →
      Begins g.Expands (.terminal t) y → g.CanFollow n t) :
    ∃ top rest, ReflTransGen (Replaces table lookahead) l (terminalKey top :: rest) := by
  generalize hids : l.map g.numberKey = ids at hl hfollow
  induction hl generalizing l with
  | here rest =>
      obtain ⟨⟨isTerminal, name⟩, l, rfl, hname, rfl⟩ := List.map_eq_cons_iff.mp hids
      cases isTerminal with
      | true => exact ⟨name, l, .refl⟩
      | false => cases hname
  | @rule s body rest hrule hbody ih =>
      obtain ⟨p, hp, rfl, rfl⟩ := hrule
      obtain ⟨⟨isTerminal, name⟩, l, rfl, hname, rfl⟩ := List.map_eq_cons_iff.mp hids
      cases isTerminal with
      | true => cases hname
      | false =>
          have hpredicts := Grammar.predicts_of_begins hbody
          have hlookup := lookup_of_predicts hg htable hp hname ht hpredicts
          have hkeys := Grammar.map_numberKey_of_mem hg hp
          obtain ⟨top, below, hinner⟩ : ∃ top below,
              ReflTransGen (Replaces table lookahead) p.rule.bodyKeys (terminalKey top :: below) := by
            apply ih hkeys
            intro x n y hsplit hy
            exact Grammar.canFollow_of_begins hp hsplit hy
          exact ⟨top, below ++ l, ReflTransGen.head (.mk l hlookup) (run_append hinner l)⟩
  | @skip s rest hs hrest ih =>
      obtain ⟨key, l, rfl, rfl, rfl⟩ := List.map_eq_cons_iff.mp hids
      have htop : ReflTransGen (Replaces table lookahead) [key] [] := by
        apply run_of_vanishes hg htable ht (l := [key]) hs
        intro x n y hsplit _
        rcases List.cons_eq_append_iff.mp hsplit with ⟨rfl, hsplit⟩ | ⟨z, rfl, hsplit⟩
        · obtain ⟨hn, -⟩ := List.cons.inj hsplit
          exact hfollow [] n _ (by rw [hn]; rfl) hrest
        · simp at hsplit
      obtain ⟨top, below, hrun⟩ : ∃ top below,
          ReflTransGen (Replaces table lookahead) l (terminalKey top :: below) := by
        apply ih rfl
        intro x n y hsplit hy
        exact hfollow (_ :: x) n y (by rw [hsplit]; rfl) hy
      exact ⟨top, below, (run_append htop l).trans hrun⟩

theorem settles_bodyKeys {r : Rule} (hr : table.lookup name lookahead = some r) :
    Settles table lookahead r.bodyKeys := by
  obtain ⟨p, t, hp, rfl, -, ht, hpredicts⟩ := predicts_of_lookup hg htable hr
  have hkeys := Grammar.map_numberKey_of_mem hg hp
  rcases hpredicts with hbegins | ⟨hvanishes, hcan⟩
  · have hbody : Begins g.Expands (.terminal t) (p.rule.bodyKeys.map g.numberKey) := by
      rw [hkeys]
      exact Rewriting.derives_cons_iff.mp hbegins
    obtain ⟨top, below, hrun⟩ := run_of_begins hg htable ht hbody fun x n y hsplit hy =>
      Grammar.canFollow_of_begins hp (hkeys.symm.trans hsplit) hy
    exact ⟨_, hrun, .terminal top below⟩
  · have hbody : Vanishes g.Expands (p.rule.bodyKeys.map g.numberKey) := by
      rw [hkeys]
      exact Rewriting.derives_nil_iff.mp hvanishes
    have hrun := run_of_vanishes hg htable ht hbody fun x n y hsplit hy =>
      hcan.of_vanishes hp (hkeys.symm.trans hsplit) hy
    exact ⟨[], hrun, .nil⟩

theorem settles_single (lookahead : String) (s : Key) : Settles table lookahead [s] := by
  obtain ⟨isTerminal, name⟩ := s
  cases isTerminal with
  | true => exact ⟨_, .refl, .terminal name []⟩
  | false =>
      cases hr : table.lookup name lookahead with
      | none => exact ⟨_, .refl, .stuck [] hr⟩
      | some r =>
          have hstep : Replaces table lookahead [nonTerminalKey name] (r.bodyKeys ++ []) := .mk [] hr
          rw [List.append_nil] at hstep
          exact Settles.of_run (.single hstep) (settles_bodyKeys hg htable hr)

theorem settles (lookahead : String) (stack : List Key) : Settles table lookahead stack := by
  induction stack with
  | nil => exact ⟨[], .refl, .nil⟩
  | cons s stack ih => exact (settles_single hg htable lookahead s).append ih

end Run

/-- With one lookahead terminal in hand, replacing the non-terminal on top of a stack by what the
table holds for it ends after finitely many replacements, and the expansion of a non-terminal never
brings it to the top again. -/
theorem replaces_settles (hg : Grammar.ofRules rules = .ok g)
    (htable : ofLookahead g (Lookahead.ofGrammar g) = .ok table) (lookahead : String) :
    (∀ stack, ∃ stop, ReflTransGen (Replaces table lookahead) stack stop ∧
        Settled table lookahead stop) ∧
      ∀ name rest, ¬ TransGen (Replaces table lookahead) [nonTerminalKey name]
        (nonTerminalKey name :: rest) := by
  refine ⟨settles hg htable lookahead, fun name rest => ?_⟩
  exact (settles_single hg htable lookahead (nonTerminalKey name)).not_transGen rest

theorem replaces_settles_parentheses : ∃ g table, Grammar.ofRules Rule.parentheses = .ok g ∧
    ofLookahead g (Lookahead.ofGrammar g) = .ok table ∧
    (∀ stack, ∃ stop, ReflTransGen (Replaces table ")") stack stop ∧ Settled table ")" stop) ∧
      ∀ name rest, ¬ TransGen (Replaces table ")") [nonTerminalKey name]
        (nonTerminalKey name :: rest) := by
  have hok : (Grammar.ofRules Rule.parentheses >>= fun g =>
      ofLookahead g (Lookahead.ofGrammar g)).isOk = true := by decide +kernel
  obtain ⟨table, hrun⟩ := exists_eq_ok_of_isOk hok
  obtain ⟨g, hg, htable⟩ := bind_eq_ok_iff.mp hrun
  exact ⟨g, table, hg, htable, replaces_settles hg htable ")"⟩

end Built

end ParseTable

end LanguageSpec
