import LanguageSpec.Proofs.Document.Outline

/-!
# Where reading a document stops

Tokens that are no outline are reported at the first place that no outline passes: what stands in
front of it can be completed to one, and together with the token at that place it cannot. What the
error expects there is what comes there in some outline.
-/

namespace LanguageSpec.Document

/-! ## What an error says -/

/-- Whether an outline can begin with some tokens. -/
def Completable (ts : List Token) : Prop := ∃ us o, Outline.ofTokens (ts ++ us) = .ok o

/-- The first `k` tokens can be completed, and no more of them. -/
structure Reaches (ts : List Token) (k : Nat) : Prop where
  le_length : k ≤ ts.length
  completable : Completable (ts.take k)
  longest : ∀ n ≤ ts.length, Completable (ts.take n) → n ≤ k

/-- What stands behind the first `k` tokens, in the words of an error. -/
def foundAt (ts : List Token) (k : Nat) : String :=
  match ts[k]? with
  | some t => describe t
  | none => "end of input"

/-- The place of what stands behind the first `k` tokens. The end of the tokens is placed at the last
of them, and without any at the start of the text. -/
def placeAt (ts : List Token) (k : Nat) : Position :=
  match ts[k]?.or ts.getLast? with
  | some t => t.pos
  | none => ⟨1, 1⟩

/-- A kind in the words of an error. A non-terminal may be the head of a production or a symbol. -/
def Kind.label (isHead : Bool) : Kind → String
  | .definition => "definition"
  | .regex => "regex"
  | .nonTerminal => if isHead then "non-terminal" else "symbol"
  | .terminal => "symbol"
  | .arrow => "`->`"
  | .bar => "`|`"
  | .epsilon => "EPSILON"
  | .lineFeed => "end of line"
  | .blockEnd => "`%%`"
  | .endOfText => "end of input"

/-- What stands in front of an arrow is the head of a production. -/
def beginsWithArrow (ts : List Token) : Bool := ts.head?.map Token.kind = some .arrow

/-- What comes behind some tokens in an outline: a token, or the end of the input where no outline
goes on. -/
inductive Follows (ts : List Token) : String → Prop
  | token {t : Token} {us : List Token} {o : Outline}
      (h : Outline.ofTokens (ts ++ t :: us) = .ok o) :
      Follows ts (t.kind.label (beginsWithArrow us))
  | nothing (h : ∀ t us o, Outline.ofTokens (ts ++ t :: us) ≠ .ok o) : Follows ts "end of input"

/-! ## Every stage can be completed -/

variable {p p' : Progress} {ts us : List Token} {t : Token} {o : Outline} {stage : Stage} {r : Rule}
  {label : String} {e : Error}

/-- A token of a kind, whatever its text. -/
def Token.ofKind (kind : Kind) : Token := ⟨kind, "", .nowhere⟩

theorem reads_productions (o : Outline) :
    Reads ⟨o, .productions⟩ [.ofKind .endOfText] ⟨o, .ended⟩ :=
  .single (.stop rfl)

theorem exists_reads_rule (o : Outline) (h : stage.rule? = some r) :
    ∃ us o', Reads ⟨o, stage⟩ us ⟨o', .ended⟩ := by
  obtain ⟨ds, rs⟩ := o
  refine ⟨[.ofKind .lineFeed, .ofKind .endOfText], ⟨ds, rs ++ [r]⟩, ?_⟩
  exact .cons (.production h rfl) (reads_productions _)

theorem exists_reads_alternative (o : Outline) (head : Token) :
    ∃ us o', Reads ⟨o, .alternative head⟩ us ⟨o', .ended⟩ :=
  exists_reads_rule o rfl

theorem exists_reads_definitions (o : Outline) :
    ∃ us o', Reads ⟨o, .definitions⟩ us ⟨o', .ended⟩ :=
  ⟨_, o, .cons (.blockEnd (t := .ofKind .blockEnd) .definitions rfl) (reads_productions o)⟩

theorem exists_reads_defined (o : Outline) (n x : Token) :
    ∃ us o', Reads ⟨o, .defined n x⟩ us ⟨o', .ended⟩ := by
  obtain ⟨ds, rs⟩ := o
  obtain ⟨us, o', hus⟩ := exists_reads_definitions ⟨ds ++ [⟨n, x⟩], rs⟩
  exact ⟨_, o', .cons (.definition (t := .ofKind .lineFeed) rfl) hus⟩

/-- Wherever the reading stands, some tokens complete what has been read. -/
theorem exists_reads_ended (p : Progress) : ∃ us o, Reads p us ⟨o, .ended⟩ := by
  obtain ⟨o, stage⟩ := p
  cases stage with
  | definitions => exact exists_reads_definitions o
  | named n =>
      obtain ⟨us, o', hus⟩ := exists_reads_defined o n (.ofKind .regex)
      exact ⟨_, o', .cons (.regex rfl) hus⟩
  | defined n x => exact exists_reads_defined o n x
  | productions => exact ⟨_, o, reads_productions o⟩
  | headed head =>
      obtain ⟨us, o', hus⟩ := exists_reads_alternative o head
      exact ⟨_, o', .cons (.arrow (t := .ofKind .arrow) rfl) hus⟩
  | alternative head => exact exists_reads_alternative o head
  | symbols head body => exact exists_reads_rule o rfl
  | emptied head => exact exists_reads_rule o rfl
  | ended => exact ⟨[], o, .nil _⟩

/-! ## What comes next at a stage -/

def Stage.isHeaded : Stage → Bool
  | .headed _ => true
  | _ => false

theorem Stage.BetweenLines.isHeaded_eq (h : stage.BetweenLines) : stage.isHeaded = false := by
  cases h <;> rfl

theorem Stage.isHeaded_of_rule? (h : stage.rule? = some r) : stage.isHeaded = false := by
  cases stage <;> first | rfl | cases h

theorem Progress.Move.kind_eq_arrow_iff (h : Move p t p') :
    t.kind = .arrow ↔ p.stage.isHeaded = true := by
  cases h with
  | name ht | regex ht | definition ht | head ht | epsilon ht | stop ht | arrow ht =>
      simp [ht, Stage.isHeaded]
  | lineFeed hstage ht | blockEnd hstage ht => simp [ht, hstage.isHeaded_eq]
  | @symbol _ stage _ _ s hstage hs =>
      cases s <;> simp_all [Symbol.Proper, Symbol.token,
        Stage.isHeaded_of_rule? (Stage.rule?_of_open? hstage)]
  | bar hstage ht | production hstage ht => simp [ht, Stage.isHeaded_of_rule? hstage]

/-- In what completes a reading an arrow comes first exactly behind a head. -/
theorem Reads.beginsWithArrow_eq (h : Reads p us ⟨o, .ended⟩) :
    beginsWithArrow us = p.stage.isHeaded := by
  cases us with
  | nil =>
      obtain rfl := foldlM_nil_eq_ok_iff.mp h
      rfl
  | cons t us =>
      obtain ⟨p', hstep, -⟩ := foldlM_cons_eq_ok_iff.mp h
      have hiff := (Progress.step_eq_ok_iff_move.mp hstep).kind_eq_arrow_iff
      rw [Bool.eq_iff_iff, ← hiff]
      simp [beginsWithArrow]

theorem Progress.Move.label_mem_expected (h : Move p t p') :
    t.kind.label p'.stage.isHeaded ∈ p.stage.expected := by
  cases h with
  | name ht | regex ht | definition ht | head ht | epsilon ht | stop ht | arrow ht =>
      simp [ht, Kind.label, Stage.expected, Stage.isHeaded]
  | lineFeed hstage ht | blockEnd hstage ht =>
      cases hstage <;> simp [ht, Kind.label, Stage.expected]
  | @symbol _ stage _ _ s hstage hs =>
      cases stage <;> cases hstage <;> cases s <;>
        simp_all [Symbol.Proper, Symbol.token, Kind.label, Stage.expected, Stage.isHeaded]
  | @bar _ _ stage _ _ hstage ht | @production _ _ stage _ _ hstage ht =>
      cases stage <;> cases hstage <;> simp [ht, Kind.label, Stage.expected]

theorem exists_move_of_rule? (o : Outline) (h : stage.rule? = some r)
    (hlabel : label = "`|`" ∨ label = "end of line") :
    ∃ t p', Progress.Move ⟨o, stage⟩ t p' ∧ t.kind.label p'.stage.isHeaded = label := by
  obtain ⟨ds, rs⟩ := o
  rcases hlabel with rfl | rfl
  · exact ⟨.ofKind .bar, _, .bar h rfl, rfl⟩
  · exact ⟨.ofKind .lineFeed, _, .production h rfl, rfl⟩

theorem exists_move_symbol (o : Outline) (h : stage.open? = some r) :
    ∃ t p', Progress.Move ⟨o, stage⟩ t p' ∧ t.kind.label p'.stage.isHeaded = "symbol" :=
  ⟨.ofKind .terminal, _, .symbol (s := .terminal (.ofKind .terminal)) h rfl, rfl⟩

/-- What is expected at a stage is met by a token, unless the reading has ended. -/
theorem exists_move_of_mem_expected (h : label ∈ p.stage.expected) (hp : p.stage ≠ .ended) :
    ∃ t p', Progress.Move p t p' ∧ t.kind.label p'.stage.isHeaded = label := by
  obtain ⟨o, stage⟩ := p
  simp only [Stage.expected] at h
  cases stage with
  | definitions =>
      simp only [List.mem_cons, List.not_mem_nil, or_false] at h
      rcases h with rfl | rfl | rfl
      · exact ⟨.ofKind .definition, _, .name rfl, rfl⟩
      · exact ⟨.ofKind .lineFeed, _, .lineFeed .definitions rfl, rfl⟩
      · exact ⟨.ofKind .blockEnd, _, .blockEnd .definitions rfl, rfl⟩
  | named n =>
      obtain rfl := List.mem_singleton.mp h
      exact ⟨.ofKind .regex, _, .regex rfl, rfl⟩
  | defined n x =>
      obtain rfl := List.mem_singleton.mp h
      obtain ⟨ds, rs⟩ := o
      exact ⟨.ofKind .lineFeed, _, .definition rfl, rfl⟩
  | productions =>
      simp only [List.mem_cons, List.not_mem_nil, or_false] at h
      rcases h with rfl | rfl | rfl | rfl
      · exact ⟨.ofKind .nonTerminal, _, .head rfl, rfl⟩
      · exact ⟨.ofKind .lineFeed, _, .lineFeed .productions rfl, rfl⟩
      · exact ⟨.ofKind .blockEnd, _, .blockEnd .productions rfl, rfl⟩
      · exact ⟨.ofKind .endOfText, _, .stop rfl, rfl⟩
  | headed head =>
      obtain rfl := List.mem_singleton.mp h
      exact ⟨.ofKind .arrow, _, .arrow rfl, rfl⟩
  | alternative head =>
      simp only [List.mem_cons, List.not_mem_nil, or_false] at h
      rcases h with rfl | rfl | h
      · exact ⟨.ofKind .epsilon, _, .epsilon rfl, rfl⟩
      · exact exists_move_symbol o rfl
      · exact exists_move_of_rule? o rfl h
  | symbols head body =>
      simp only [List.mem_cons, List.not_mem_nil, or_false] at h
      rcases h with rfl | h
      · exact exists_move_symbol o rfl
      · exact exists_move_of_rule? o rfl h
  | emptied head =>
      simp only [List.mem_cons, List.not_mem_nil, or_false] at h
      exact exists_move_of_rule? o rfl h
  | ended => exact absurd rfl hp

theorem Progress.not_move_of_ended (hp : p.stage = .ended) : ¬ Move p t p' := by
  intro hm
  have hstep := step?_of_move hm
  simp [step?, hp] at hstep

theorem Stage.nodup_expected (stage : Stage) : stage.expected.Nodup := by
  cases stage <;> simp [Stage.expected]

/-! ## What comes next in an outline -/

namespace Reads

theorem ofTokens_append_iff (h : Reads .initial ts p) :
    Outline.ofTokens (ts ++ us) = .ok o ↔ Reads p us ⟨o, .ended⟩ := by
  rw [Outline.ofTokens_eq_ok_iff_reads]
  constructor
  · intro hread
    obtain ⟨q, hq, hus⟩ := foldlM_append_eq_ok_iff.mp hread
    obtain rfl : p = q := Except.ok.inj (h.symm.trans hq)
    exact hus
  · exact h.append

theorem completable (h : Reads .initial ts p) : Completable ts := by
  obtain ⟨us, o, hus⟩ := exists_reads_ended p
  exact ⟨us, o, h.ofTokens_append_iff.mpr hus⟩

theorem exists_move_iff (h : Reads .initial ts p) :
    Outline.ofTokens (ts ++ t :: us) = .ok o ↔
      ∃ p', Progress.Move p t p' ∧ Reads p' us ⟨o, .ended⟩ := by
  rw [h.ofTokens_append_iff, Reads, foldlM_cons_eq_ok_iff]
  exact exists_congr fun p' => and_congr_left fun _ => Progress.step_eq_ok_iff_move

/-- What is expected at the stage that some tokens lead to is what comes behind them in an
outline. -/
theorem mem_expected_iff (h : Reads .initial ts p) :
    label ∈ p.stage.expected ↔ Follows ts label := by
  constructor
  · intro hlabel
    by_cases hp : p.stage = .ended
    · rw [hp, Stage.expected, List.mem_singleton] at hlabel
      rw [hlabel]
      apply Follows.nothing
      intro t us o hread
      obtain ⟨p', hm, -⟩ := h.exists_move_iff.mp hread
      exact Progress.not_move_of_ended hp hm
    · obtain ⟨t, p', hm, rfl⟩ := exists_move_of_mem_expected hlabel hp
      obtain ⟨us, o, hus⟩ := exists_reads_ended p'
      rw [← hus.beginsWithArrow_eq]
      exact .token (h.exists_move_iff.mpr ⟨p', hm, hus⟩)
  · intro hfollows
    cases hfollows with
    | token hread =>
        obtain ⟨p', hm, hus⟩ := h.exists_move_iff.mp hread
        rw [hus.beginsWithArrow_eq]
        exact hm.label_mem_expected
    | nothing hnone =>
        -- a reading that can go no further has ended, for it could be completed
        obtain ⟨us, o, hus⟩ := exists_reads_ended p
        cases us with
        | nil =>
            obtain rfl := foldlM_nil_eq_ok_iff.mp hus
            exact List.mem_singleton.mpr rfl
        | cons t us => exact absurd (h.ofTokens_append_iff.mpr hus) (hnone t us o)

end Reads

/-! ## Where tokens stop being an outline -/

theorem not_completable_of_error {front : List Token} (h : Reads .initial front p)
    (ht : p.step t = .error e) {n : Nat} (hn : front.length < n) (back : List Token) :
    ¬ Completable ((front ++ t :: back).take n) := by
  rintro ⟨us, o, hread⟩
  obtain ⟨m, rfl⟩ := Nat.exists_eq_add_of_lt hn
  have htake : (front ++ t :: back).take (front.length + m + 1) = front ++ t :: back.take m := by
    rw [Nat.add_assoc, List.take_length_add_append, List.take_succ_cons]
  rw [htake, List.append_assoc, List.cons_append] at hread
  obtain ⟨p', hm, -⟩ := h.exists_move_iff.mp hread
  rw [Progress.step_eq_ok_iff_move.mpr hm] at ht
  cases ht

namespace Outline

/-- An error is reported behind all tokens that can be completed, with what its stage expects. -/
theorem exists_stage_of_error (h : ofTokens ts = .error e) :
    ∃ k p, Reads .initial (ts.take k) p ∧ Reaches ts k ∧
      e = .malformed (.unexpectedAmong (foundAt ts k) p.stage.expected) (placeAt ts k) := by
  unfold ofTokens at h
  cases hfold : ts.foldlM Progress.step Progress.initial with
  | error e' =>
      rw [hfold] at h
      cases h
      obtain ⟨front, t, back, p, rfl, hfront, ht⟩ := exists_of_foldlM_eq_error hfold
      have htake : (front ++ t :: back).take front.length = front := List.take_left
      have hreads : Reads .initial front p := hfront
      refine ⟨front.length, p, ?_, ⟨?_, ?_, ?_⟩, ?_⟩
      · rwa [htake]
      · simp
      · rw [htake]
        exact hreads.completable
      · intro n _ hn
        by_contra hlt
        exact not_completable_of_error hreads ht (Nat.lt_of_not_le hlt) back hn
      · unfold Progress.step at ht
        split at ht
        · cases ht
        · cases ht
          simp [unexpected, foundAt, placeAt]
  | ok p =>
      have hreads : Reads .initial ts p := hfold
      have hend : ts[ts.length]? = none := List.getElem?_eq_none (Nat.le_refl _)
      refine ⟨ts.length, p, ?_, ⟨Nat.le_refl _, ?_, fun n hn _ => hn⟩, ?_⟩
      · rwa [List.take_length]
      · rw [List.take_length]
        exact hreads.completable
      · rw [hfold] at h
        change (if p.stage = .ended then _ else _) = _ at h
        split at h
        · cases h
        · cases h
          rw [unfinished, lastPosition, foundAt, placeAt, hend, Option.none_or]
          rfl

/-- An error of reading tokens is at the first of them that no outline passes, or behind the last if
an outline may go on there. It describes what it finds there, and it expects, each once, the kinds
that come there in some outline, or the end if none goes on. -/
theorem ofTokens_first_impossible (h : ofTokens ts = .error e) :
    ∃ k expected, Reaches ts k ∧
      e = .malformed (.unexpectedAmong (foundAt ts k) expected) (placeAt ts k) ∧
      expected.Nodup ∧ ∀ label, label ∈ expected ↔ Follows (ts.take k) label := by
  obtain ⟨k, p, hreads, hreaches, he⟩ := exists_stage_of_error h
  exact ⟨k, p.stage.expected, hreaches, he, p.stage.nodup_expected, fun _ => hreads.mem_expected_iff⟩

/-- A symbol behind the word for an empty alternative. -/
theorem ofTokens_first_impossible_epsilon :
    let ts : List Token := [⟨.blockEnd, "%%", .first⟩, ⟨.nonTerminal, "<a>", ⟨2, 1⟩⟩,
      ⟨.arrow, "->", ⟨2, 5⟩⟩, ⟨.epsilon, "EPSILON", ⟨2, 8⟩⟩, ⟨.terminal, "x", ⟨2, 16⟩⟩,
      ⟨.lineFeed, "\n", ⟨2, 17⟩⟩]
    let e : Error := .malformed (.unexpectedAmong "`x`" ["`|`", "end of line"]) ⟨2, 16⟩
    ofTokens ts = .error e ∧ ∃ k expected, Reaches ts k ∧
      e = .malformed (.unexpectedAmong (foundAt ts k) expected) (placeAt ts k) ∧
      expected.Nodup ∧ ∀ label, label ∈ expected ↔ Follows (ts.take k) label := by
  intro ts e
  have herror : ofTokens ts = .error e := by rfl
  exact ⟨herror, ofTokens_first_impossible herror⟩

end Outline

end LanguageSpec.Document
