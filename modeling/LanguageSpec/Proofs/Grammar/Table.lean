import LanguageSpec.Grammar.Table
import LanguageSpec.Proofs.Grammar.Lookahead
import Mathlib.Data.List.Pairwise

/-!
# Tables and predictions

A table is built exactly for the grammars in which no two rules of one head are predicted on one
terminal. Building also refuses a rule that is predicted on one terminal twice, for what its body
begins with and for what follows its head; but then two rules compete further down.
-/

namespace LanguageSpec

open Rewriting (Begins Vanishes)

namespace Grammar

/-- The terminals that a rule is predicted on: those its body can begin with and, if the body can
vanish, those that can follow its head. -/
def Predicts (g : Grammar) (p : Production) (t : Nat) : Prop :=
  (∃ rest, g.Derives p.body (.terminal t :: rest)) ∨ g.Derives p.body [] ∧ g.CanFollow p.head t

/-- No two rules of one head are predicted on one terminal. -/
def IsLL1 (g : Grammar) : Prop :=
  ∀ (i j : Nat) p q, g.productions[i]? = some p → g.productions[j]? = some q → i ≠ j →
    p.head = q.head → ∀ t, g.Predicts p t → ¬ g.Predicts q t

variable {g : Grammar} {p q : Production} {t : Nat}

theorem predicts_of_begins (h : Begins g.Expands (.terminal t) p.body) : g.Predicts p t :=
  Or.inl h.derives

theorem predicts_of_vanishes (h : Vanishes g.Expands p.body) (ht : g.CanFollow p.head t) :
    g.Predicts p t :=
  Or.inr ⟨h.derives, ht⟩

theorem Predicts.lt (h : g.WellNumbered) (hp : p ∈ g.productions) (ht : g.Predicts p t) :
    t < g.terminals.length := by
  rcases ht with ⟨rest, hl⟩ | ⟨-, hcan⟩
  · have hlt := terminal_lt_of_derives h hl (h.terminal_lt p hp t) List.mem_cons_self
    rw [terminals, List.length_append]
    exact Nat.lt_add_right 1 hlt
  · exact hcan.lt h

/-- Two rules of one head, given by their numbers, are predicted on one terminal. -/
def Compete (g : Grammar) (i j t : Nat) : Prop :=
  ∃ p q, g.productions[i]? = some p ∧ g.productions[j]? = some q ∧ p.head = q.head ∧
    g.Predicts p t ∧ g.Predicts q t

/-- Two different rules of one head are predicted on the terminal. -/
def Contested (g : Grammar) (t : Nat) : Prop := ∃ i j, i < j ∧ g.Compete i j t

theorem contested_of_ne {i j : Nat} (hne : i ≠ j) (h : g.Compete i j t) : g.Contested t := by
  rcases Nat.lt_or_gt_of_ne hne with hlt | hlt
  · exact ⟨i, j, hlt, h⟩
  · obtain ⟨p, q, hp, hq, hhead, hpt, hqt⟩ := h
    exact ⟨j, i, hlt, q, p, hq, hp, hhead.symm, hqt, hpt⟩

theorem IsLL1.not_contested (h : g.IsLL1) : ¬ g.Contested t := by
  rintro ⟨i, j, hlt, p, q, hp, hq, hhead, hpt, hqt⟩
  exact h i j p q hp hq (Nat.ne_of_lt hlt) hhead t hpt hqt

theorem eq_of_not_contested (h : ¬ g.Contested t) (hp : p ∈ g.productions)
    (hq : q ∈ g.productions) (hhead : p.head = q.head) (hpt : g.Predicts p t)
    (hqt : g.Predicts q t) : p = q := by
  obtain ⟨i, hi⟩ := List.mem_iff_getElem?.mp hp
  obtain ⟨j, hj⟩ := List.mem_iff_getElem?.mp hq
  by_cases hij : i = j
  · subst hij
    exact Option.some.inj (hi.symm.trans hj)
  · exact absurd (contested_of_ne hij ⟨p, q, hi, hj, hhead, hpt, hqt⟩) h

/-- If no two rules compete for a terminal, then a list that can vanish does not begin with it when
it can follow all the non-terminals that can be left last in the list. -/
theorem not_begins_of_not_contested (h : ¬ g.Contested t) {l : List SymbolId}
    (hl : Begins g.Expands (.terminal t) l) (hvanish : Vanishes g.Expands l)
    (hfollow : ∀ x n y, l = x ++ .nonTerminal n :: y → Vanishes g.Expands y → g.CanFollow n t) :
    False := by
  induction hl with
  | here rest => exact not_vanishes_terminal hvanish
  | rule rest hrule hbody ih =>
      obtain ⟨p, hp, rfl, rfl⟩ := hrule
      obtain ⟨_, ⟨q, hq, hhead, rfl⟩, hqbody⟩ := hvanish.head
      have hcan : g.CanFollow p.head t := hfollow [] p.head rest rfl hvanish.tail
      have hheads : p.head = q.head := SymbolId.nonTerminal.inj hhead
      have hqt : g.Predicts q t := predicts_of_vanishes hqbody (hheads ▸ hcan)
      -- the rule to begin with `t` is the one to vanish by, and its body is closer to `t`
      obtain rfl := eq_of_not_contested h hp hq hheads (predicts_of_begins hbody) hqt
      apply ih hqbody
      intro x n y hsplit hy
      exact hcan.of_vanishes hp hsplit hy
  | @skip s rest _ _ ih =>
      apply ih hvanish.tail
      intro x n y hsplit hy
      exact hfollow (s :: x) n y (by rw [hsplit]; rfl) hy

/-- A rule whose body can begin with what can follow its head, and can vanish, makes two rules
compete for that terminal, if only further down. -/
theorem contested_of_canFollow (hp : p ∈ g.productions)
    (hbegins : Begins g.Expands (.terminal t) p.body) (hvanish : Vanishes g.Expands p.body)
    (hcan : g.CanFollow p.head t) : g.Contested t := by
  by_contra h
  apply not_begins_of_not_contested h hbegins hvanish
  intro x n y hsplit hy
  exact hcan.of_vanishes hp hsplit hy

end Grammar

/-! ## Predictions -/

namespace Lookahead

variable {g : Grammar} {p : Production} {t : Nat}

theorem mem_targets_iff (h : g.WellNumbered) : t ∈ (ofGrammar g).targets p ↔ g.Predicts p t := by
  have hfirst := mem_first_iff (t := t) h (l := p.body)
  have hepsilon := epsilon_first_iff h (l := p.body)
  have hfollow := Grammar.mem_followSets_iff (n := p.head) (t := t) h
  rw [targets, List.mem_append, Grammar.Predicts, ← hfirst, ← hepsilon, ← hfollow]
  cases heps : ((ofGrammar g).ofProduction p).epsilon with
  | false =>
      have hnot : ((ofGrammar g).first.ofSequence p.body).epsilon = false := heps
      simp [hnot, ofProduction]
  | true =>
      have hyes : ((ofGrammar g).first.ofSequence p.body).epsilon = true := heps
      simp only [hyes, true_and]
      exact Iff.rfl

/-- Whether a rule is entered on a terminal both for what its body begins with and for what follows
its head. -/
def EntersTwice (s : Lookahead) (p : Production) (t : Nat) : Prop :=
  t ∈ (s.ofProduction p).terminals ∧ (s.ofProduction p).epsilon = true ∧ t ∈ s.follow.get p.head

theorem pairwise_targets (s : Lookahead) (p : Production) :
    (s.targets p).Pairwise fun t u => t = u → s.EntersTwice p t := by
  have hnodup (l : SortedSet Nat) : l.toList.Pairwise fun t u => t = u → s.EntersTwice p t :=
    l.nodup.imp fun hne heq => absurd heq hne
  rw [targets, List.pairwise_append]
  refine ⟨hnodup _, ?_, ?_⟩
  · split
    · exact hnodup _
    · exact List.Pairwise.nil
  · rintro t ht _ hu rfl
    split at hu
    · exact ⟨ht, ‹_›, hu⟩
    · exact absurd hu List.not_mem_nil

theorem entersTwice_iff (h : g.WellNumbered) : (ofGrammar g).EntersTwice p t ↔
    Begins g.Expands (.terminal t) p.body ∧ Vanishes g.Expands p.body ∧ g.CanFollow p.head t :=
  and_congr (Grammar.mem_firstSets_ofSequence_iff h)
    (and_congr (Grammar.epsilon_firstSets_ofSequence_iff h) (Grammar.mem_followSets_iff h))

theorem EntersTwice.contested (h : g.WellNumbered) (hp : p ∈ g.productions)
    (htwice : (ofGrammar g).EntersTwice p t) : g.Contested t := by
  obtain ⟨hbegins, hvanish, hcan⟩ := (entersTwice_iff h).mp htwice
  exact Grammar.contested_of_canFollow hp hbegins hvanish hcan

theorem mem_predictions_iff (h : g.WellNumbered) {c : Cell} : c ∈ (ofGrammar g).predictions g ↔
    ∃ p, g.productions[c.rule]? = some p ∧ c.row = p.head ∧ g.Predicts p c.column := by
  simp only [predictions, List.mem_flatMap, List.mem_map, mem_targets_iff h, Prod.exists,
    List.mem_zipIdx_iff_getElem?]
  constructor
  · rintro ⟨p, i, hp, t, ht, rfl⟩
    exact ⟨p, hp, rfl, ht⟩
  · rintro ⟨p, hp, hrow, ht⟩
    exact ⟨p, c.rule, hp, c.column, ht, by rw [← hrow]⟩

/-- Predictions are entered rule by rule, and one rule enters one terminal again only for what
follows its head. -/
theorem ordered_predictions (g : Grammar) (s : Lookahead) :
    (s.predictions g).Pairwise fun c d => c.rule < d.rule ∨
      c.rule = d.rule ∧ ∃ p, g.productions[c.rule]? = some p ∧
        (c.column = d.column → s.EntersTwice p c.column) := by
  rw [predictions, List.pairwise_flatMap]
  refine ⟨?_, ?_⟩
  · rintro ⟨p, i⟩ hp
    have hi := List.mem_zipIdx_iff_getElem?.mp hp
    refine List.pairwise_map.mpr ((s.pairwise_targets p).imp ?_)
    intro t u htwice
    exact Or.inr ⟨rfl, p, hi, htwice⟩
  · rw [List.pairwise_iff_getElem]
    intro i j hi hj hij c hc d hd
    rw [List.getElem_zipIdx] at hc hd
    obtain ⟨t, -, rfl⟩ := List.mem_map.mp hc
    obtain ⟨u, -, rfl⟩ := List.mem_map.mp hd
    exact Or.inl (by simpa using hij)

end Lookahead

/-! ## Building -/

def Cell.Apart (c d : Cell) : Prop := c.row = d.row → c.column ≠ d.column

instance : Std.Symm Cell.Apart where
  symm _ _ h hrow hcolumn := h hrow.symm hcolumn.symm

theorem Cell.not_meets_iff {c d : Cell} : ¬ d.meets c = true ↔ c.Apart d := by
  rw [meets, Bool.and_eq_true, beq_iff_eq, beq_iff_eq, not_and]
  exact ⟨fun h hrow hcolumn => h hrow.symm hcolumn.symm,
    fun h hrow hcolumn => h hrow.symm hcolumn.symm⟩

namespace ParseTable

variable {g : Grammar} {table : ParseTable}

theorem clash?_eq_none_iff (seen cells : List Cell) : clash? seen cells = none ↔
    (∀ c ∈ cells, ∀ d ∈ seen, d.Apart c) ∧ cells.Pairwise Cell.Apart := by
  induction cells generalizing seen with
  | nil => simp [clash?]
  | cons c cells ih =>
      rw [clash?, List.forall_mem_cons, List.pairwise_cons]
      cases hfind : seen.find? c.meets with
      | some d =>
          have hmeets := List.find?_some hfind
          have hd := List.mem_of_find?_eq_some hfind
          simp only [reduceCtorEq, false_iff]
          rintro ⟨⟨hapart, -⟩, -⟩
          exact Cell.not_meets_iff.mpr (hapart d hd) hmeets
      | none =>
          have hseen : ∀ d ∈ seen, d.Apart c := fun d hd =>
            Cell.not_meets_iff.mp (List.find?_eq_none.mp hfind d hd)
          simp only [ih, List.forall_mem_cons]
          constructor
          · rintro ⟨hcells, hpairwise⟩
            exact ⟨⟨hseen, fun d hd => (hcells d hd).2⟩, fun d hd => (hcells d hd).1, hpairwise⟩
          · rintro ⟨⟨-, hcells⟩, hc, hpairwise⟩
            exact ⟨fun d hd => ⟨hc d hd, hcells d hd⟩, hpairwise⟩

theorem ofLookahead_eq_ok_iff {s : Lookahead} : ofLookahead g s = .ok table ↔
    table = ⟨g, s.predictions g⟩ ∧ (s.predictions g).Pairwise Cell.Apart := by
  have hclash := clash?_eq_none_iff [] (s.predictions g)
  simp only [List.not_mem_nil, false_implies, implies_true, true_and] at hclash
  rw [← hclash]
  simp only [ofLookahead]
  cases clash? [] (s.predictions g) with
  | none => simp [eq_comm]
  | some d => simp

theorem pairwise_predictions (h : g.WellNumbered) (hLL1 : g.IsLL1) :
    ((Lookahead.ofGrammar g).predictions g).Pairwise Cell.Apart := by
  refine (Lookahead.ordered_predictions g (Lookahead.ofGrammar g)).imp_of_mem ?_
  intro c d hc hd hordered hrow hcolumn
  obtain ⟨p, hp, hcrow, hpt⟩ := (Lookahead.mem_predictions_iff h).mp hc
  obtain ⟨q, hq, hdrow, hqt⟩ := (Lookahead.mem_predictions_iff h).mp hd
  rcases hordered with hlt | ⟨-, p', hp', htwice⟩
  · rw [← hcolumn] at hqt
    have hheads : p.head = q.head := by rw [← hcrow, ← hdrow, hrow]
    exact hLL1 c.rule d.rule p q hp hq (Nat.ne_of_lt hlt) hheads c.column hpt hqt
  · have hmem := List.mem_of_getElem? hp'
    exact hLL1.not_contested ((htwice hcolumn).contested h hmem)

theorem isLL1_of_pairwise (h : g.WellNumbered)
    (hpairwise : ((Lookahead.ofGrammar g).predictions g).Pairwise Cell.Apart) : g.IsLL1 := by
  intro i j p q hi hj hij hhead t hpt hqt
  have hc : (⟨p.head, t, i⟩ : Cell) ∈ (Lookahead.ofGrammar g).predictions g :=
    (Lookahead.mem_predictions_iff h).mpr ⟨p, hi, rfl, hpt⟩
  have hd : (⟨q.head, t, j⟩ : Cell) ∈ (Lookahead.ofGrammar g).predictions g :=
    (Lookahead.mem_predictions_iff h).mpr ⟨q, hj, rfl, hqt⟩
  have hne : (⟨p.head, t, i⟩ : Cell) ≠ ⟨q.head, t, j⟩ := by
    intro heq
    exact hij (congrArg Cell.rule heq)
  exact hpairwise.forall hc hd hne hhead rfl

theorem cell?_of_predicts (h : g.WellNumbered)
    (htable : ofLookahead g (Lookahead.ofGrammar g) = .ok table) {i : Nat} {p : Production}
    {t : Nat} (hp : g.productions[i]? = some p) (ht : g.Predicts p t) :
    table.cell? p.head t = some p.rule := by
  obtain ⟨rfl, hpairwise⟩ := ofLookahead_eq_ok_iff.mp htable
  have hc : (⟨p.head, t, i⟩ : Cell) ∈ (Lookahead.ofGrammar g).predictions g :=
    (Lookahead.mem_predictions_iff h).mpr ⟨p, hp, rfl, ht⟩
  have hfind : ((Lookahead.ofGrammar g).predictions g).find?
      (fun c => c.row == p.head && c.column == t) = some ⟨p.head, t, i⟩ := by
    cases hd : ((Lookahead.ofGrammar g).predictions g).find?
        (fun c => c.row == p.head && c.column == t) with
    | none =>
        have hno := List.find?_eq_none.mp hd _ hc
        simp at hno
    | some d =>
        have hplace := List.find?_some hd
        simp only [Bool.and_eq_true, beq_iff_eq] at hplace
        by_contra hne
        have hapart := hpairwise.forall (List.mem_of_find?_eq_some hd) hc (by simpa using hne)
        exact hapart hplace.1 hplace.2
  have hrule : g.rule? i = some p.rule := by
    rw [Grammar.rule?, Grammar.rules, List.getElem?_map, hp]
    rfl
  rw [cell?, hfind]
  exact hrule

/-- A table is built exactly for the grammars in which two different rules of one head are never
predicted on the same terminal. -/
theorem exists_ofLookahead_iff {rules : List Rule} (h : Grammar.ofRules rules = .ok g) :
    (∃ table, ofLookahead g (Lookahead.ofGrammar g) = .ok table) ↔ g.IsLL1 := by
  have hnumbered := Grammar.wellNumbered_of_ofRules h
  constructor
  · rintro ⟨table, htable⟩
    exact isLL1_of_pairwise hnumbered (ofLookahead_eq_ok_iff.mp htable).2
  · intro hLL1
    exact ⟨_, ofLookahead_eq_ok_iff.mpr ⟨rfl, pairwise_predictions hnumbered hLL1⟩⟩

theorem exists_ofLookahead_iff_parentheses : ∃ g, Grammar.ofRules Rule.parentheses = .ok g ∧
    ((∃ table, ofLookahead g (Lookahead.ofGrammar g) = .ok table) ↔ g.IsLL1) := by
  have hok : (Grammar.ofRules Rule.parentheses).isOk = true := by decide
  obtain ⟨g, hg⟩ := exists_eq_ok_of_isOk hok
  exact ⟨g, hg, exists_ofLookahead_iff hg⟩

end ParseTable

end LanguageSpec
