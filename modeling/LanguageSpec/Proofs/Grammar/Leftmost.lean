import LanguageSpec.Proofs.Grammar.Table

/-!
# Leftmost derivations

Derivations over names: a symbol is its name together with whether it is a terminal. Every step of a
leftmost derivation of a word uses the rule that is predicted on what is left of the word there, so
a table finds all of them.
-/

namespace LanguageSpec

/-! ## Derivations over names -/

namespace Symbol

abbrev Key := Bool × String

def terminalKey (name : String) : Key := (true, name)

def nonTerminalKey (name : String) : Key := (false, name)

end Symbol

open LanguageSpec.Symbol (Key terminalKey nonTerminalKey)

namespace Rule

def headKey (r : Rule) : Key := nonTerminalKey r.head.text

def bodyKeys (r : Rule) : List Key := r.body.map Symbol.key

/-- The rules of a list as rules to rewrite keys by. -/
def Expands (rules : List Rule) (s : Key) (body : List Key) : Prop :=
  ∃ r ∈ rules, s = r.headKey ∧ body = r.bodyKeys

/-- The leftmost non-terminal is expanded by the rule of a number. -/
inductive LeftmostStep (rules : List Rule) : List Key → Nat → List Key → Prop
  | mk {i : Nat} {r : Rule} (u : List String) (rest : List Key) (hr : rules[i]? = some r) :
      LeftmostStep rules (u.map terminalKey ++ r.headKey :: rest) i
        (u.map terminalKey ++ r.bodyKeys ++ rest)

/-- A leftmost derivation by the rules of the numbers in a list. -/
inductive Leftmost (rules : List Rule) : List Key → List Nat → List Key → Prop
  | nil (l : List Key) : Leftmost rules l [] l
  | cons {l m n : List Key} {i : Nat} {is : List Nat} (hstep : LeftmostStep rules l i m)
      (hrest : Leftmost rules m is n) : Leftmost rules l (i :: is) n

variable {rules : List Rule} {l m n : List Key} {i : Nat} {is : List Nat}

theorem LeftmostStep.exists (h : LeftmostStep rules l i m) :
    ∃ (u : List String) (r : Rule) (rest : List Key), rules[i]? = some r ∧
    l = u.map terminalKey ++ r.headKey :: rest ∧ m = u.map terminalKey ++ r.bodyKeys ++ rest := by
  cases h with
  | mk u rest hr => exact ⟨u, _, rest, hr, rfl, rfl⟩

theorem LeftmostStep.step (h : LeftmostStep rules l i m) :
    Rewriting.Step (Expands rules) l m := by
  cases h with
  | mk u rest hr => exact .mk _ _ ⟨_, List.mem_of_getElem? hr, rfl, rfl⟩

theorem Leftmost.derives (h : Leftmost rules l is m) : Rewriting.Derives (Expands rules) l m := by
  induction h with
  | nil l => exact .refl l
  | cons hstep _ ih => exact Relation.ReflTransGen.head hstep.step ih

theorem not_expands_terminalKey {name : String} {body : List Key} :
    ¬ Expands rules (terminalKey name) body := by
  rintro ⟨r, -, h, -⟩
  cases h

theorem eq_of_derives_terminals {u : List String}
    (h : Rewriting.Derives (Expands rules) (u.map terminalKey) l) : l = u.map terminalKey := by
  induction h with
  | refl => rfl
  | tail _ hstep ih =>
      cases hstep with
      | @mk s body front back hrule =>
          have hmem : s ∈ u.map terminalKey := by simp [← ih]
          obtain ⟨name, -, rfl⟩ := List.mem_map.mp hmem
          exact absurd hrule not_expands_terminalKey

theorem terminalKey_injective : Function.Injective terminalKey := by
  intro a b h
  exact (Prod.mk.inj h).2

/-- What stands in front of the first non-terminal stays in front of a derived word. -/
theorem exists_rest_of_derives {u w : List String}
    (h : Rewriting.Derives (Expands rules) (u.map terminalKey ++ l) (w.map terminalKey)) :
    ∃ v, w = u ++ v ∧ Rewriting.Derives (Expands rules) l (v.map terminalKey) := by
  obtain ⟨x, y, heq, hx, hy⟩ := h.split
  rw [eq_of_derives_terminals hx] at heq
  obtain ⟨u', v, rfl, hu, hv⟩ := List.map_eq_append_iff.mp heq
  have hu' : u' = u := terminalKey_injective.list_map hu
  exact ⟨v, by rw [hu'], hv ▸ hy⟩

theorem Leftmost.of_append {js : List Nat} (h : Leftmost rules l (is ++ js) n) :
    ∃ m, Leftmost rules l is m ∧ Leftmost rules m js n := by
  induction is generalizing l with
  | nil => exact ⟨l, .nil l, h⟩
  | cons i is ih =>
      cases h with
      | cons hstep hrest =>
          obtain ⟨m, hm, hn⟩ := ih hrest
          exact ⟨m, .cons hstep hm, hn⟩

theorem not_leftmostStep_terminals {w : List String} :
    ¬ LeftmostStep rules (w.map terminalKey) i l := by
  intro h
  obtain ⟨u, r, rest, -, heq, -⟩ := h.exists
  have hmem : r.headKey ∈ w.map terminalKey := by simp [heq]
  obtain ⟨name, -, hname⟩ := List.mem_map.mp hmem
  cases hname

theorem leftmost_unique {u u' : List String} {s s' : String} {rest rest' : List Key}
    (h : u.map terminalKey ++ nonTerminalKey s :: rest =
      u'.map terminalKey ++ nonTerminalKey s' :: rest') : u = u' ∧ s = s' ∧ rest = rest' := by
  induction u generalizing u' with
  | nil =>
      cases u' with
      | nil =>
          obtain ⟨hs, hrest⟩ := List.cons.inj h
          exact ⟨rfl, (Prod.mk.inj hs).2, hrest⟩
      | cons a u' => simp [terminalKey, nonTerminalKey] at h
  | cons a u ih =>
      cases u' with
      | nil => simp [terminalKey, nonTerminalKey] at h
      | cons b u' =>
          obtain ⟨hab, h⟩ := List.cons.inj h
          obtain ⟨hu, hs, hrest⟩ := ih h
          exact ⟨by rw [terminalKey_injective hab, hu], hs, hrest⟩

end Rule

/-! ## From names to numbers -/

namespace Grammar

open Rule (Leftmost LeftmostStep)

variable {rules : List Rule} {g : Grammar}

def numberKey (g : Grammar) : Key → SymbolId
  | (true, name) => .terminal (indexIn g.bodyTerminals name)
  | (false, name) => .nonTerminal (indexIn g.nonTerminals name)

def production (g : Grammar) (r : Rule) : Production :=
  numberRule g.nonTerminals g.bodyTerminals r

theorem getElem?_production (h : ofRules rules = .ok g) {i : Nat} {r : Rule}
    (hr : rules[i]? = some r) : g.productions[i]? = some (g.production r) := by
  rw [getElem?_productions h, hr]
  rfl

theorem map_numberKey_bodyKeys (g : Grammar) (r : Rule) :
    r.bodyKeys.map g.numberKey = (g.production r).body := by
  rw [Rule.bodyKeys, List.map_map]
  refine List.map_congr_left ?_
  intro s _
  cases s <;> rfl

theorem derives_numberKey (h : ofRules rules = .ok g) {l m : List Key}
    (hl : Rewriting.Derives (Rule.Expands rules) l m) :
    g.Derives (l.map g.numberKey) (m.map g.numberKey) := by
  refine hl.map g.numberKey ?_
  rintro s body ⟨r, hr, rfl, rfl⟩
  obtain ⟨i, hi⟩ := List.mem_iff_getElem?.mp hr
  rw [map_numberKey_bodyKeys]
  exact expands_of_mem (List.mem_of_getElem? (getElem?_production h hi))

/-- The number of the first terminal of a word, or of the end marker. -/
def lookaheadNumber (g : Grammar) : List String → Nat
  | [] => g.endIndex
  | name :: _ => indexIn g.bodyTerminals name

/-- In a derivation of a word the rule at the leftmost non-terminal is predicted on what is left of
the word there. -/
theorem predicts_of_derives (h : ofRules rules = .ok g) {first r : Rule}
    (hfirst : rules.head? = some first) {u v : List String} {rest : List Key}
    (hbefore : Rewriting.Derives (Rule.Expands rules) [first.headKey]
      (u.map terminalKey ++ r.headKey :: rest))
    (hafter : Rewriting.Derives (Rule.Expands rules) (r.bodyKeys ++ rest) (v.map terminalKey)) :
    g.Predicts (g.production r) (g.lookaheadNumber v) := by
  obtain ⟨x, y, hv, hbody, hrest⟩ := hafter.split
  have hbodyN := derives_numberKey h hbody
  have hrestN := derives_numberKey h hrest
  have hbeforeN := derives_numberKey h hbefore
  rw [map_numberKey_bodyKeys] at hbodyN
  rw [List.map_append, List.map_cons] at hbeforeN
  have hfollow := hbeforeN.trans ((hrestN.cons _).append_left _)
  -- either the body gives the first of the remaining terminals, or it vanishes
  cases x with
  | nil =>
      refine Or.inr ⟨hbodyN, ?_⟩
      obtain rfl : v.map terminalKey = y := hv
      cases v with
      | nil =>
          exact Or.inr ⟨rfl, _, _, start?_of_ofRules h hfirst, hfollow⟩
      | cons name v => exact Or.inl ⟨_, _, _, hfollow⟩
  | cons s x =>
      cases v with
      | nil => cases hv
      | cons name v =>
          obtain ⟨rfl, -⟩ := List.cons.inj hv
          exact Or.inl ⟨_, hbodyN⟩

theorem predicts_of_leftmost (h : ofRules rules = .ok g) {first r : Rule}
    (hfirst : rules.head? = some first) {u w : List String} {rest : List Key} {is : List Nat}
    (hbefore : Rewriting.Derives (Rule.Expands rules) [first.headKey]
      (u.map terminalKey ++ r.headKey :: rest))
    (hafter : Leftmost rules (u.map terminalKey ++ r.bodyKeys ++ rest) is (w.map terminalKey)) :
    ∃ v, w = u ++ v ∧ g.Predicts (g.production r) (g.lookaheadNumber v) := by
  rw [List.append_assoc] at hafter
  obtain ⟨v, hw, hv⟩ := Rule.exists_rest_of_derives hafter.derives
  exact ⟨v, hw, predicts_of_derives h hfirst hbefore hv⟩

theorem IsLL1.leftmostStep_unique (hLL1 : g.IsLL1) (h : ofRules rules = .ok g) {first : Rule}
    (hfirst : rules.head? = some first) {w : List String} {l m m' : List Key} {i j : Nat}
    {is js : List Nat} (hl : Rewriting.Derives (Rule.Expands rules) [first.headKey] l)
    (hstep : LeftmostStep rules l i m) (hrest : Leftmost rules m is (w.map terminalKey))
    (hstep' : LeftmostStep rules l j m') (hrest' : Leftmost rules m' js (w.map terminalKey)) :
    i = j ∧ m = m' := by
  obtain ⟨u, r, rest, hr, rfl, rfl⟩ := hstep.exists
  obtain ⟨u', r', rest', hr', heq, rfl⟩ := hstep'.exists
  obtain ⟨rfl, hhead, rfl⟩ := Rule.leftmost_unique heq
  obtain ⟨v, rfl, hv⟩ := predicts_of_leftmost h hfirst hl hrest
  rw [heq] at hl
  obtain ⟨v', hsame, hv'⟩ := predicts_of_leftmost h hfirst hl hrest'
  -- both rules are predicted on what is left of the one word
  rw [← List.append_cancel_left hsame] at hv'
  have hij : i = j := by
    by_contra hne
    have hp := getElem?_production h hr
    have hp' := getElem?_production h hr'
    have hheads : (g.production r).head = (g.production r').head :=
      congrArg (indexIn g.nonTerminals) hhead
    exact hLL1 i j _ _ hp hp' hne hheads _ hv hv'
  subst hij
  obtain rfl := Option.some.inj (hr.symm.trans hr')
  exact ⟨rfl, rfl⟩

theorem IsLL1.leftmost_unique (hLL1 : g.IsLL1) (h : ofRules rules = .ok g) {first : Rule}
    (hfirst : rules.head? = some first) {w : List String} {l : List Key} {is js : List Nat}
    (hl : Rewriting.Derives (Rule.Expands rules) [first.headKey] l)
    (his : Leftmost rules l is (w.map terminalKey))
    (hjs : Leftmost rules l js (w.map terminalKey)) : is = js := by
  generalize hn : w.map terminalKey = n at his
  induction his generalizing js with
  | nil l =>
      subst hn
      cases hjs with
      | nil => rfl
      | cons hstep _ => exact absurd hstep Rule.not_leftmostStep_terminals
  | cons hstep hrest ih =>
      subst hn
      cases hjs with
      | nil => exact absurd hstep Rule.not_leftmostStep_terminals
      | cons hstep' hrest' =>
          obtain ⟨rfl, rfl⟩ := hLL1.leftmostStep_unique h hfirst hl hstep hrest hstep' hrest'
          rw [ih (hl.tail hstep.step) hrest' rfl]

end Grammar

/-! ## Tables -/

namespace ParseTable

open Rule (Leftmost)

variable {rules : List Rule} {first : Rule} {g : Grammar} {table : ParseTable}

/-- The name of the first terminal of a word, or of the end marker. -/
def lookaheadName (v : List String) : String := v.head?.getD endMarkerName

theorem terminalTable_index?_lookaheadName (h : Grammar.ofRules rules = .ok g)
    (hend : Grammar.EndMarkerFree rules) {u v : List String}
    (hv : Rewriting.Derives (Rule.Expands rules) [first.headKey] ((u ++ v).map terminalKey)) :
    g.terminalTable.index? (lookaheadName v) = some (g.lookaheadNumber v) := by
  cases v with
  | nil => exact Grammar.terminalTable_index?_endMarkerName h hend
  | cons name v =>
      apply Grammar.terminalTable_index? h hend
      rw [Grammar.mem_bodyTerminals h]
      have hmem : terminalKey name ∈ (u ++ name :: v).map terminalKey := by simp
      rcases hv.mem hmem with hstart | ⟨_, _, ⟨r, hr, rfl, rfl⟩, hname⟩
      · simp [terminalKey, Rule.headKey, nonTerminalKey] at hstart
      · obtain ⟨s, hs, hkey⟩ := List.mem_map.mp hname
        cases s with
        | terminal t => exact ⟨r, hr, t, hs, (Prod.mk.inj hkey).2⟩
        | nonTerminal t => cases hkey

/-- Every step of every leftmost derivation of a word applies the rule that the table holds for the
non-terminal that is expanded and the first terminal of what is left of the word, or the end marker
if nothing is left. So a word has one leftmost derivation at most. -/
theorem lookup_leftmost (hfirst : rules.head? = some first) (hend : Grammar.EndMarkerFree rules)
    (hg : Grammar.ofRules rules = .ok g)
    (htable : ofLookahead g (Lookahead.ofGrammar g) = .ok table) :
    (∀ (w : List String) is i js,
      Leftmost rules [first.headKey] (is ++ i :: js) (w.map terminalKey) →
      ∃ (u v : List String) (r : Rule) (rest : List Key), w = u ++ v ∧ rules[i]? = some r ∧
        Leftmost rules [first.headKey] is (u.map terminalKey ++ r.headKey :: rest) ∧
        Leftmost rules (u.map terminalKey ++ r.bodyKeys ++ rest) js (w.map terminalKey) ∧
        table.lookup r.head.text (lookaheadName v) = some r) ∧
      ∀ (w : List String) is js, Leftmost rules [first.headKey] is (w.map terminalKey) →
        Leftmost rules [first.headKey] js (w.map terminalKey) → is = js := by
  have hnumbered := Grammar.wellNumbered_of_ofRules hg
  refine ⟨?_, ?_⟩
  · intro w is i js hw
    have hderives := hw.derives
    obtain ⟨l, hbefore, hrest⟩ := hw.of_append
    cases hrest with
    | cons hstep hafter =>
        obtain ⟨u, r, rest, hr, rfl, rfl⟩ := hstep.exists
        obtain ⟨v, rfl, hv⟩ := Grammar.predicts_of_leftmost hg hfirst hbefore.derives hafter
        refine ⟨u, v, r, rest, rfl, hr, hbefore, hafter, ?_⟩
        have hrow := Grammar.nonTerminalTable_index? hg (List.mem_of_getElem? hr)
        have hcolumn := terminalTable_index?_lookaheadName hg hend hderives
        have hcell := cell?_of_predicts hnumbered htable (Grammar.getElem?_production hg hr) hv
        obtain ⟨rfl, -⟩ := ofLookahead_eq_ok_iff.mp htable
        simp only [lookup, hrow, hcolumn]
        exact hcell
  · intro w is js his hjs
    have hLL1 := isLL1_of_pairwise hnumbered (ofLookahead_eq_ok_iff.mp htable).2
    exact hLL1.leftmost_unique hg hfirst (.refl _) his hjs

theorem lookup_leftmost_parentheses : ∃ first g table, Rule.parentheses.head? = some first ∧
    Grammar.EndMarkerFree Rule.parentheses ∧ Grammar.ofRules Rule.parentheses = .ok g ∧
    ofLookahead g (Lookahead.ofGrammar g) = .ok table ∧
    (∀ (w : List String) is i js,
      Leftmost Rule.parentheses [first.headKey] (is ++ i :: js) (w.map terminalKey) →
      ∃ (u v : List String) (r : Rule) (rest : List Key), w = u ++ v ∧
        Rule.parentheses[i]? = some r ∧
        Leftmost Rule.parentheses [first.headKey] is (u.map terminalKey ++ r.headKey :: rest) ∧
        Leftmost Rule.parentheses (u.map terminalKey ++ r.bodyKeys ++ rest) js
          (w.map terminalKey) ∧
        table.lookup r.head.text (lookaheadName v) = some r) ∧
      ∀ (w : List String) is js,
        Leftmost Rule.parentheses [first.headKey] is (w.map terminalKey) →
        Leftmost Rule.parentheses [first.headKey] js (w.map terminalKey) → is = js := by
  have hok : (Grammar.ofRules Rule.parentheses >>= fun g =>
      ofLookahead g (Lookahead.ofGrammar g)).isOk = true := by decide +kernel
  obtain ⟨table, hrun⟩ := exists_eq_ok_of_isOk hok
  obtain ⟨g, hg, htable⟩ := bind_eq_ok_iff.mp hrun
  have hend : Grammar.EndMarkerFree Rule.parentheses := by
    simp [Grammar.EndMarkerFree, Rule.parentheses, endMarkerName]
  exact ⟨_, g, table, rfl, hend, hg, htable, lookup_leftmost rfl hend hg htable⟩

end ParseTable

end LanguageSpec
