import LanguageSpec.Proofs.Grammar.Leftmost

/-!
# Reported conflicts

A table is refused with the first entry that falls into a filled cell. The error is to name two
rules that compete for the cell. But the entry in the cell is not asked which rule it is from, and
where a rule is predicted on a terminal both for what its body begins with and for what follows its
head, the error names this rule as the competitor of itself. Two different rules compete on that
terminal as well, and are not named.
-/

namespace LanguageSpec

/-- The body of the second rule can become `x` and can become empty, and `x` follows its head. The
rules that compete are the last two. -/
def Rule.doublePrediction : List Rule :=
  [⟨⟨.nonTerminal, "<s>", .first⟩,
      [.nonTerminal ⟨.nonTerminal, "<a>", .first⟩, .terminal ⟨.terminal, "x", .first⟩]⟩,
    ⟨⟨.nonTerminal, "<a>", .first⟩, [.nonTerminal ⟨.nonTerminal, "<b>", .first⟩]⟩,
    ⟨⟨.nonTerminal, "<b>", .first⟩, [.terminal ⟨.terminal, "x", .first⟩]⟩,
    ⟨⟨.nonTerminal, "<b>", .first⟩, []⟩]

namespace Grammar

variable {rules : List Rule} {g : Grammar} {r s : Rule}

/-- The error names two rules and their head, and a terminal that both are predicted on. -/
def Reports (g : Grammar) (rules : List Rule) (e : Error) (i j t : Nat) : Prop :=
  ∃ r s terminal, rules[i]? = some r ∧ rules[j]? = some s ∧ r.head.text = s.head.text ∧
    g.terminals[t]?.map Token.text = some terminal ∧
    e = .conflict r.head.text terminal r.text s.text ∧
    g.Predicts (g.production r) t ∧ g.Predicts (g.production s) t

theorem head_text_eq (h : ofRules rules = .ok g) (hr : r ∈ rules) (hs : s ∈ rules)
    (hhead : (g.production r).head = (g.production s).head) : r.head.text = s.head.text := by
  have hname : g.nonTerminalTable.index? r.head.text = some (g.production r).head :=
    nonTerminalTable_index? h hr
  rw [hhead] at hname
  exact NameTable.eq_of_index? hname (nonTerminalTable_index? h hs)

end Grammar

namespace ParseTable

variable {rules : List Rule} {g : Grammar} {e : Error}

/-! ## The first clash -/

theorem exists_of_clash? {seen cells : List Cell} {c d : Cell}
    (h : clash? seen cells = some (d, c)) :
    c.meets d = true ∧ ∃ front back, cells = front ++ c :: back ∧ (d ∈ seen ∨ d ∈ front) := by
  induction cells generalizing seen with
  | nil => cases h
  | cons b cells ih =>
      rw [clash?] at h
      cases hfind : seen.find? b.meets with
      | some a =>
          rw [hfind] at h
          cases h
          exact ⟨List.find?_some hfind, [], cells, rfl, Or.inl (List.mem_of_find?_eq_some hfind)⟩
      | none =>
          rw [hfind] at h
          obtain ⟨hmeets, front, back, rfl, hd⟩ := ih h
          refine ⟨hmeets, b :: front, back, rfl, ?_⟩
          rcases hd with hd | hd
          · rcases List.mem_cons.mp hd with rfl | hd
            · exact Or.inr List.mem_cons_self
            · exact Or.inl hd
          · exact Or.inr (List.mem_cons_of_mem b hd)

/-- The entries of a clash fall into one cell, and are related by what orders all entries. -/
theorem rel_of_clash? {R : Cell → Cell → Prop} {cells : List Cell} {c d : Cell}
    (hcells : cells.Pairwise R) (h : clash? [] cells = some (d, c)) :
    d ∈ cells ∧ c ∈ cells ∧ c.row = d.row ∧ c.column = d.column ∧ R d c := by
  obtain ⟨hmeets, front, back, rfl, hd⟩ := exists_of_clash? h
  have hd : d ∈ front := hd.resolve_left List.not_mem_nil
  rw [Cell.meets, Bool.and_eq_true, beq_iff_eq, beq_iff_eq] at hmeets
  refine ⟨List.mem_append_left _ hd, ?_, hmeets.1, hmeets.2, ?_⟩
  · exact List.mem_append_right front List.mem_cons_self
  · exact (List.pairwise_append.mp hcells).2.2 d hd c List.mem_cons_self

theorem ofLookahead_eq_error_iff {s : Lookahead} : ofLookahead g s = .error e ↔
    ∃ d c, clash? [] (s.predictions g) = some (d, c) ∧ e = conflict g d c := by
  simp only [ofLookahead]
  cases clash? [] (s.predictions g) with
  | none => simp
  | some p => simp [Prod.ext_iff, eq_comm]

/-! ## What is reported -/

/-- A refused table has an error that names two rules with one head, in their order, and a terminal
that both are predicted on. They are different, as they should be, unless the terminal begins the
body of the first and, as the body can vanish, follows its head too. Even then two different rules
of one head are predicted on the terminal, so that the error keeps them back. -/
theorem ofLookahead_reports (hg : Grammar.ofRules rules = .ok g)
    (he : ofLookahead g (Lookahead.ofGrammar g) = .error e) :
    ∃ i j t, i ≤ j ∧ g.Reports rules e i j t ∧
      (i = j → ∃ p, g.productions[i]? = some p ∧ (Lookahead.ofGrammar g).EntersTwice p t) ∧
      g.Contested t := by
  have hnumbered := Grammar.wellNumbered_of_ofRules hg
  obtain ⟨d, c, hclash, rfl⟩ := ofLookahead_eq_error_iff.mp he
  have hall := Lookahead.ordered_predictions g (Lookahead.ofGrammar g)
  obtain ⟨hd, hc, hrow, hcolumn, hordered⟩ := rel_of_clash? hall hclash
  obtain ⟨p, hp, hdrow, hpt⟩ := (Lookahead.mem_predictions_iff hnumbered).mp hd
  obtain ⟨q, hq, hcrow, hqt⟩ := (Lookahead.mem_predictions_iff hnumbered).mp hc
  have hheads : p.head = q.head := by rw [← hdrow, ← hcrow, hrow]
  rw [hcolumn] at hqt
  refine ⟨d.rule, c.rule, d.column, ?_, ?_, ?_, ?_⟩
  · rcases hordered with hlt | ⟨heq, -⟩
    · exact Nat.le_of_lt hlt
    · exact Nat.le_of_eq heq
  · have hlt := hpt.lt hnumbered (List.mem_of_getElem? hp)
    rw [Grammar.getElem?_productions hg, Option.map_eq_some_iff] at hp hq
    obtain ⟨r, hr, rfl⟩ := hp
    obtain ⟨s, hs, rfl⟩ := hq
    have hhead := Grammar.head_text_eq hg (List.mem_of_getElem? hr) (List.mem_of_getElem? hs) hheads
    have hterminal := List.getElem?_eq_getElem hlt
    refine ⟨r, s, _, hr, hs, hhead, congrArg (Option.map Token.text) hterminal, ?_, hpt, hqt⟩
    simp [conflict, ruleName, Grammar.rule?_eq hg, hr, hs, hcolumn, hterminal, hhead]
  · intro heq
    rcases hordered with hlt | ⟨-, p', hp', htwice⟩
    · exact absurd heq (Nat.ne_of_lt hlt)
    · exact ⟨p', hp', htwice hcolumn.symm⟩
  · rcases hordered with hlt | ⟨-, p', hp', htwice⟩
    · exact ⟨d.rule, c.rule, hlt, p, q, hp, hq, hheads, hpt, hqt⟩
    · exact (htwice hcolumn.symm).contested hnumbered (List.mem_of_getElem? hp')

/-- The second rule is reported against itself, before the last two are entered. -/
theorem ofLookahead_doublePrediction : ∃ g, Grammar.ofRules Rule.doublePrediction = .ok g ∧
    ofLookahead g (Lookahead.ofGrammar g) =
      .error (.conflict "<a>" "x" "<a> -> <b>" "<a> -> <b>") := by
  have hok : (Grammar.ofRules Rule.doublePrediction).isOk = true := by decide
  have herror : (Grammar.ofRules Rule.doublePrediction >>= fun g =>
      (ofLookahead g (Lookahead.ofGrammar g)).map fun _ => ()) =
        .error (.conflict "<a>" "x" "<a> -> <b>" "<a> -> <b>") := by decide +kernel
  obtain ⟨g, hg⟩ := exists_eq_ok_of_isOk hok
  refine ⟨g, hg, ?_⟩
  rw [hg] at herror
  cases hrun : ofLookahead g (Lookahead.ofGrammar g) with
  | error e => simpa [hrun, bind, Except.bind, Except.map] using herror
  | ok table => simp [hrun, bind, Except.bind, Except.map] at herror

theorem ofLookahead_reports_doublePrediction : ∃ g e,
    Grammar.ofRules Rule.doublePrediction = .ok g ∧
    ofLookahead g (Lookahead.ofGrammar g) = .error e ∧
    ∃ i j t, i ≤ j ∧ g.Reports Rule.doublePrediction e i j t ∧
      (i = j → ∃ p, g.productions[i]? = some p ∧ (Lookahead.ofGrammar g).EntersTwice p t) ∧
      g.Contested t := by
  obtain ⟨g, hg, he⟩ := ofLookahead_doublePrediction
  exact ⟨g, _, hg, he, ofLookahead_reports hg he⟩

/-- It fails that the two rules of an error are always different. -/
theorem not_forall_reports_different : ¬ ∀ rules g e, Grammar.ofRules rules = .ok g →
    ofLookahead g (Lookahead.ofGrammar g) = .error e →
      ∃ i j t, i < j ∧ g.Reports rules e i j t := by
  intro h
  obtain ⟨g, hg, he⟩ := ofLookahead_doublePrediction
  obtain ⟨i, j, t, hlt, r, s, terminal, hr, hs, hhead, -, hconflict, -⟩ := h _ g _ hg he
  have hname : r.head.text = "<a>" := (Error.conflict.inj hconflict).1.symm
  -- only the rule with the number 1 has this head
  have honly : ∀ k r, Rule.doublePrediction[k]? = some r → r.head.text = "<a>" → k = 1 := by
    intro k r hk hr
    match k with
    | 0 => cases hk; simp at hr
    | 1 => rfl
    | 2 => cases hk; simp at hr
    | 3 => cases hk; simp at hr
    | k + 4 => simp [Rule.doublePrediction] at hk
  have hi := honly i r hr hname
  have hj := honly j s hs (hhead.symm.trans hname)
  exact absurd (hi.trans hj.symm) (Nat.ne_of_lt hlt)

end ParseTable

end LanguageSpec
