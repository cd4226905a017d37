import LanguageSpec.Proofs.Document.Grammar
import LanguageSpec.Proofs.Except

/-!
# Reading follows the grammar of documents

The steps that reading a document can take, what has been read at each stage, and that a list of
tokens is read as an outline exactly if it spells it.
-/

namespace LanguageSpec.Document

/-! ## Steps -/

/-- The head of the rule that is being read and its body so far, where the rule may end. -/
def Stage.rule? : Stage → Option Rule
  | .alternative head => some ⟨head, []⟩
  | .symbols head body => some ⟨head, body⟩
  | .emptied head => some ⟨head, []⟩
  | _ => none

/-- The head and the body so far, where another symbol may come. -/
def Stage.open? : Stage → Option Rule
  | .alternative head => some ⟨head, []⟩
  | .symbols head body => some ⟨head, body⟩
  | _ => none

/-- Between definitions, or between productions. -/
inductive Stage.BetweenLines : Stage → Prop
  | definitions : BetweenLines .definitions
  | productions : BetweenLines .productions

namespace Progress

inductive Move : Progress → Token → Progress → Prop
  | name {o : Outline} {t : Token} (ht : t.kind = .definition) :
      Move ⟨o, .definitions⟩ t ⟨o, .named t⟩
  | regex {o : Outline} {n t : Token} (ht : t.kind = .regex) :
      Move ⟨o, .named n⟩ t ⟨o, .defined n t⟩
  | definition {ds : List Definition} {rs : List Rule} {n x t : Token} (ht : t.kind = .lineFeed) :
      Move ⟨⟨ds, rs⟩, .defined n x⟩ t ⟨⟨ds ++ [⟨n, x⟩], rs⟩, .definitions⟩
  | lineFeed {o : Outline} {stage : Stage} {t : Token} (hstage : stage.BetweenLines)
      (ht : t.kind = .lineFeed) : Move ⟨o, stage⟩ t ⟨o, stage⟩
  | blockEnd {o : Outline} {stage : Stage} {t : Token} (hstage : stage.BetweenLines)
      (ht : t.kind = .blockEnd) : Move ⟨o, stage⟩ t ⟨o, .productions⟩
  | head {o : Outline} {t : Token} (ht : t.kind = .nonTerminal) :
      Move ⟨o, .productions⟩ t ⟨o, .headed t⟩
  | arrow {o : Outline} {head t : Token} (ht : t.kind = .arrow) :
      Move ⟨o, .headed head⟩ t ⟨o, .alternative head⟩
  | epsilon {o : Outline} {head t : Token} (ht : t.kind = .epsilon) :
      Move ⟨o, .alternative head⟩ t ⟨o, .emptied head⟩
  | symbol {o : Outline} {stage : Stage} {head : Token} {body : List Symbol} {s : Symbol}
      (hstage : stage.open? = some ⟨head, body⟩) (hs : s.Proper) :
      Move ⟨o, stage⟩ s.token ⟨o, .symbols head (body ++ [s])⟩
  | bar {ds : List Definition} {rs : List Rule} {stage : Stage} {r : Rule} {t : Token}
      (hstage : stage.rule? = some r) (ht : t.kind = .bar) :
      Move ⟨⟨ds, rs⟩, stage⟩ t ⟨⟨ds, rs ++ [r]⟩, .alternative r.head⟩
  | production {ds : List Definition} {rs : List Rule} {stage : Stage} {r : Rule} {t : Token}
      (hstage : stage.rule? = some r) (ht : t.kind = .lineFeed) :
      Move ⟨⟨ds, rs⟩, stage⟩ t ⟨⟨ds, rs ++ [r]⟩, .productions⟩
  | stop {o : Outline} {t : Token} (ht : t.kind = .endOfText) :
      Move ⟨o, .productions⟩ t ⟨o, .ended⟩

variable {p p' : Progress} {t : Token}

theorem step_eq_ok_iff_step? : p.step t = .ok p' ↔ p.step? t = some p' := by
  unfold step
  cases p.step? t <;> simp

theorem move_of_step? (h : p.step? t = some p') : Move p t p' := by
  have hnone : ∀ head, (Stage.alternative head).open? = some ⟨head, []⟩ := fun _ => rfl
  obtain ⟨⟨ds, rs⟩, stage⟩ := p
  unfold step? at h
  split at h <;> rename_i hstage ht <;> cases h <;> cases hstage
  · exact .name ht
  · exact .lineFeed .definitions ht
  · exact .blockEnd .definitions ht
  · exact .regex ht
  · exact .definition ht
  · exact .head ht
  · exact .lineFeed .productions ht
  · exact .blockEnd .productions ht
  · exact .stop ht
  · exact .arrow ht
  · exact .epsilon ht
  · exact .symbol (s := .terminal t) (hnone _) ht
  · exact .symbol (s := .nonTerminal t) (hnone _) ht
  · exact .bar rfl ht
  · exact .production rfl ht
  · exact .symbol (s := .terminal t) rfl ht
  · exact .symbol (s := .nonTerminal t) rfl ht
  · exact .bar rfl ht
  · exact .production rfl ht
  · exact .bar rfl ht
  · exact .production rfl ht

theorem step?_of_move (h : Move p t p') : p.step? t = some p' := by
  cases h with
  | name ht => simp [step?, ht, goTo]
  | regex ht => simp [step?, ht, goTo]
  | definition ht => simp [step?, ht, addDefinition]
  | lineFeed hstage ht => cases hstage <;> simp [step?, ht]
  | blockEnd hstage ht => cases hstage <;> simp [step?, ht, goTo]
  | head ht => simp [step?, ht, goTo]
  | arrow ht => simp [step?, ht, goTo]
  | epsilon ht => simp [step?, ht, goTo]
  | @symbol o stage head body s hstage hs =>
      cases stage <;> cases hstage <;> cases s <;>
        simp_all [step?, goTo, Symbol.Proper, Symbol.token]
  | bar hstage ht => cases ‹Stage› <;> cases hstage <;> simp [step?, ht, addRule]
  | production hstage ht => cases ‹Stage› <;> cases hstage <;> simp [step?, ht, addRule]
  | stop ht => simp [step?, ht, goTo]

/-- Every successful step is one of the moves. -/
theorem step_eq_ok_iff_move : p.step t = .ok p' ↔ Move p t p' :=
  step_eq_ok_iff_step?.trans ⟨move_of_step?, step?_of_move⟩

end Progress

/-! ## What has been read -/

variable {ts us vs : List Token} {head : Token} {body : List Symbol}

/-- Alternatives of a production with a bar behind each. -/
inductive ReadAlternatives : List Token → List (List Symbol) → Prop
  | nil : ReadAlternatives [] []
  | bar {ts : List Token} {bodies : List (List Symbol)} {b : Token}
      (hts : SpellsAlternatives ts bodies) (hb : b.kind = .bar) : ReadAlternatives (ts ++ [b]) bodies

/-- All that stands in front of the current alternative of a production. -/
inductive ReadFront : List Token → Outline → Token → Prop
  | mk {ts us : List Token} {ds : List Definition} {rs : List Rule} {bodies : List (List Symbol)}
      {head arrow : Token} (hts : SpellsContents ts ⟨ds, rs⟩) (hhead : head.kind = .nonTerminal)
      (harrow : arrow.kind = .arrow) (hus : ReadAlternatives us bodies) :
      ReadFront (ts ++ head :: arrow :: us) ⟨ds, rs ++ bodies.map (Rule.mk head)⟩ head

inductive Read : List Token → Progress → Prop
  | definitions {ts : List Token} {ds : List Definition} (hts : SpellsDefinitions ts ds) :
      Read ts ⟨⟨ds, []⟩, .definitions⟩
  | named {ts : List Token} {ds : List Definition} {n : Token} (hts : SpellsDefinitions ts ds)
      (hn : n.kind = .definition) : Read (ts ++ [n]) ⟨⟨ds, []⟩, .named n⟩
  | defined {ts : List Token} {ds : List Definition} {n x : Token} (hts : SpellsDefinitions ts ds)
      (hn : n.kind = .definition) (hx : x.kind = .regex) :
      Read (ts ++ [n, x]) ⟨⟨ds, []⟩, .defined n x⟩
  | productions {ts : List Token} {o : Outline} (hts : SpellsContents ts o) :
      Read ts ⟨o, .productions⟩
  | headed {ts : List Token} {o : Outline} {head : Token} (hts : SpellsContents ts o)
      (hhead : head.kind = .nonTerminal) : Read (ts ++ [head]) ⟨o, .headed head⟩
  | alternative {ts : List Token} {o : Outline} {head : Token} (hts : ReadFront ts o head) :
      Read ts ⟨o, .alternative head⟩
  | symbols {ts : List Token} {o : Outline} {head : Token} {body : List Symbol}
      (hts : ReadFront ts o head) (hbody : ∀ s ∈ body, s.Proper) :
      Read (ts ++ body.map Symbol.token) ⟨o, .symbols head body⟩
  | emptied {ts : List Token} {o : Outline} {head t : Token} (hts : ReadFront ts o head)
      (ht : t.kind = .epsilon) : Read (ts ++ [t]) ⟨o, .emptied head⟩
  | ended {ts : List Token} {o : Outline} (hts : Spells ts o) : Read ts ⟨o, .ended⟩

theorem SpellsContents.lineFeed {o : Outline} {f : Token} (h : SpellsContents ts o)
    (hf : f.kind = .lineFeed) : SpellsContents (ts ++ [f]) o := by
  cases h with
  | mk hts hb hus hvs =>
      have hcontents := SpellsContents.mk hts hb hus (hvs.lineFeed hf)
      rwa [← List.append_assoc] at hcontents

theorem SpellsContents.blockEnd {o : Outline} {b : Token} (h : SpellsContents ts o)
    (hb : b.kind = .blockEnd) : SpellsContents (ts ++ [b]) o := by
  cases h with
  | mk hts hb' hus hvs =>
      have hcontents := SpellsContents.mk hts hb' (hus.append hvs hb) .nil
      simpa using hcontents

theorem SpellsContents.production {ds : List Definition} {rs rs' : List Rule}
    (h : SpellsContents ts ⟨ds, rs⟩) (hus : SpellsProduction us rs') :
    SpellsContents (ts ++ us) ⟨ds, rs ++ rs'⟩ := by
  cases h with
  | mk hts hb hbs hvs =>
      have hcontents := SpellsContents.mk hts hb hbs (hvs.production hus)
      rwa [← List.append_assoc, ← List.append_assoc] at hcontents

theorem ReadAlternatives.append {bodies : List (List Symbol)} (h : ReadAlternatives us bodies)
    (hvs : SpellsAlternative vs body) : SpellsAlternatives (us ++ vs) (bodies ++ [body]) := by
  cases h with
  | nil => exact .one hvs
  | bar hts hb =>
      rw [List.append_assoc]
      exact .more hts hb hvs

namespace ReadFront

variable {ds : List Definition} {rs : List Rule} {t : Token}

theorem bar (h : ReadFront ts ⟨ds, rs⟩ head) (hus : SpellsAlternative us body)
    (ht : t.kind = .bar) : ReadFront (ts ++ us ++ [t]) ⟨ds, rs ++ [⟨head, body⟩]⟩ head := by
  cases h with
  | mk hts hhead harrow hvs =>
      have hfront := ReadFront.mk hts hhead harrow (.bar (hvs.append hus) ht)
      simpa using hfront

theorem production (h : ReadFront ts ⟨ds, rs⟩ head) (hus : SpellsAlternative us body)
    (ht : t.kind = .lineFeed) : SpellsContents (ts ++ us ++ [t]) ⟨ds, rs ++ [⟨head, body⟩]⟩ := by
  cases h with
  | mk hts hhead harrow hvs =>
      have hcontents := hts.production (.mk hhead harrow (hvs.append hus) ht)
      simpa using hcontents

end ReadFront

namespace Read

variable {o : Outline} {stage : Stage} {r : Rule}

/-- Where a symbol may come, the symbols of a body have been read last. -/
theorem of_open? (h : Read ts ⟨o, stage⟩) (hstage : stage.open? = some r) :
    ∃ us, ts = us ++ r.body.map Symbol.token ∧ ReadFront us o r.head ∧
      ∀ s ∈ r.body, s.Proper := by
  cases h with
  | alternative hts =>
      cases hstage
      exact ⟨ts, by simp, hts, by simp⟩
  | symbols hts hbody =>
      cases hstage
      exact ⟨_, rfl, hts, hbody⟩
  | _ => cases hstage

/-- Where a rule may end, its alternative has been read last. -/
theorem of_rule? (h : Read ts ⟨o, stage⟩) (hstage : stage.rule? = some r) :
    ∃ us vs, ts = us ++ vs ∧ ReadFront us o r.head ∧ SpellsAlternative vs r.body := by
  cases h with
  | alternative hts =>
      cases hstage
      have hnone : SpellsAlternative (([] : List Symbol).map Symbol.token) [] := .symbols (by simp)
      exact ⟨ts, [], by simp, hts, hnone⟩
  | symbols hts hbody =>
      cases hstage
      exact ⟨_, _, rfl, hts, .symbols hbody⟩
  | emptied hts ht =>
      cases hstage
      exact ⟨_, _, rfl, hts, .epsilon ht⟩
  | _ => cases hstage

theorem step {p p' : Progress} {t : Token} (h : Read ts p) (hm : Progress.Move p t p') :
    Read (ts ++ [t]) p' := by
  cases hm with
  | name ht =>
      cases h with
      | definitions hts => exact .named hts ht
  | regex ht =>
      cases h with
      | named hts hn =>
          rw [List.append_assoc]
          exact .defined hts hn ht
  | definition ht =>
      cases h with
      | defined hts hn hx =>
          rw [List.append_assoc]
          exact .definitions (.definition hts hn hx ht)
  | lineFeed hstage ht =>
      cases hstage with
      | definitions =>
          cases h with
          | definitions hts => exact .definitions (.lineFeed hts ht)
      | productions =>
          cases h with
          | productions hts => exact .productions (hts.lineFeed ht)
  | blockEnd hstage ht =>
      cases hstage with
      | definitions =>
          cases h with
          | definitions hts =>
              have hcontents := SpellsContents.mk hts ht .nil .nil
              rw [List.append_nil, List.append_nil] at hcontents
              exact .productions hcontents
      | productions =>
          cases h with
          | productions hts => exact .productions (hts.blockEnd ht)
  | head ht =>
      cases h with
      | productions hts => exact .headed hts ht
  | arrow ht =>
      cases h with
      | @headed ts o head hts hhead =>
          have hfront := ReadFront.mk hts hhead ht .nil
          rw [List.map_nil, List.append_nil] at hfront
          rw [List.append_assoc]
          exact .alternative hfront
  | epsilon ht =>
      cases h with
      | alternative hts => exact .emptied hts ht
  | symbol hstage hs =>
      obtain ⟨us, rfl, hfront, hbody⟩ := h.of_open? hstage
      have hread := Read.symbols hfront
        (List.forall_mem_append.mpr ⟨hbody, List.forall_mem_singleton.mpr hs⟩)
      simpa using hread
  | bar hstage ht =>
      obtain ⟨us, vs, rfl, hfront, hvs⟩ := h.of_rule? hstage
      exact .alternative (hfront.bar hvs ht)
  | production hstage ht =>
      obtain ⟨us, vs, rfl, hfront, hvs⟩ := h.of_rule? hstage
      exact .productions (hfront.production hvs ht)
  | stop ht =>
      cases h with
      | productions hts => exact .ended (.mk hts ht)

end Read

theorem read_of_foldlM {p : Progress} (h : ts.foldlM Progress.step Progress.initial = .ok p) :
    Read ts p := by
  refine foldlM_induction (P := Read) (.definitions .nil) ?_ h
  intro us p t p' hp hstep
  exact hp.step (Progress.step_eq_ok_iff_move.mp hstep)

/-! ## What spells an outline is read -/

/-- Reading some tokens leads from one place to another. -/
def Reads (p : Progress) (ts : List Token) (p' : Progress) : Prop :=
  ts.foldlM Progress.step p = .ok p'

namespace Reads

variable {p q r : Progress} {t : Token}

theorem nil (p : Progress) : Reads p [] p := rfl

theorem single (h : Progress.Move p t q) : Reads p [t] q :=
  foldlM_cons_eq_ok_iff.mpr ⟨q, Progress.step_eq_ok_iff_move.mpr h, rfl⟩

theorem append (h : Reads p ts q) (h' : Reads q us r) : Reads p (ts ++ us) r :=
  foldlM_append_eq_ok_iff.mpr ⟨q, h, h'⟩

theorem cons (h : Progress.Move p t q) (h' : Reads q ts r) : Reads p (t :: ts) r :=
  (single h).append h'

end Reads

variable {ds : List Definition} {rs rs' : List Rule} {o : Outline}

theorem SpellsDefinitions.reads (h : SpellsDefinitions ts ds) :
    Reads Progress.initial ts ⟨⟨ds, []⟩, .definitions⟩ := by
  induction h with
  | nil => exact .nil _
  | definition _ hn hx hf ih =>
      exact ih.append (.cons (.name hn) (.cons (.regex hx) (.single (.definition hf))))
  | lineFeed _ hf ih => exact ih.append (.single (.lineFeed .definitions hf))

theorem reads_symbols (hbody : ∀ s ∈ body, s.Proper) :
    ∃ stage, Reads ⟨o, .alternative head⟩ (body.map Symbol.token) ⟨o, stage⟩ ∧
      stage.open? = some ⟨head, body⟩ := by
  induction body using List.reverseRecOn with
  | nil => exact ⟨_, .nil _, rfl⟩
  | append_singleton body s ih =>
      obtain ⟨hbody, hs⟩ := List.forall_mem_append.mp hbody
      obtain ⟨stage, hstage, hopen⟩ := ih hbody
      have hproper : s.Proper := List.forall_mem_singleton.mp hs
      refine ⟨.symbols head (body ++ [s]), ?_, rfl⟩
      rw [List.map_append]
      exact hstage.append (.single (.symbol hopen hproper))

theorem Stage.rule?_of_open? {stage : Stage} {r : Rule} (h : stage.open? = some r) :
    stage.rule? = some r := by
  cases stage with
  | alternative head => exact h
  | symbols head body => exact h
  | _ => cases h

theorem SpellsAlternative.reads (h : SpellsAlternative ts body) (o : Outline) (head : Token) :
    ∃ stage, Reads ⟨o, .alternative head⟩ ts ⟨o, stage⟩ ∧ stage.rule? = some ⟨head, body⟩ := by
  cases h with
  | epsilon ht => exact ⟨.emptied head, .single (.epsilon ht), rfl⟩
  | symbols hbody =>
      obtain ⟨stage, hstage, hopen⟩ := reads_symbols hbody
      exact ⟨stage, hstage, Stage.rule?_of_open? hopen⟩

/-- All alternatives but the last are rules when the last has been read. -/
theorem SpellsAlternatives.reads {bodies : List (List Symbol)} (h : SpellsAlternatives ts bodies)
    (ds : List Definition) (rs : List Rule) (head : Token) :
    ∃ front last stage, bodies = front ++ [last] ∧
      Reads ⟨⟨ds, rs⟩, .alternative head⟩ ts ⟨⟨ds, rs ++ front.map (Rule.mk head)⟩, stage⟩ ∧
      stage.rule? = some ⟨head, last⟩ := by
  induction h with
  | one h =>
      obtain ⟨stage, hstage, hrule⟩ := h.reads ⟨ds, rs⟩ head
      exact ⟨[], _, stage, rfl, by simpa using hstage, hrule⟩
  | more _ hb hus ih =>
      obtain ⟨front, last, stage, rfl, hfront, hrule⟩ := ih
      obtain ⟨stage', hstage', hrule'⟩ :=
        hus.reads ⟨ds, rs ++ (front ++ [last]).map (Rule.mk head)⟩ head
      refine ⟨front ++ [last], _, stage', rfl, ?_, hrule'⟩
      apply hfront.append
      refine .cons (.bar hrule hb) ?_
      simpa using hstage'

theorem SpellsProduction.reads (h : SpellsProduction us rs') (ds : List Definition)
    (rs : List Rule) :
    Reads ⟨⟨ds, rs⟩, .productions⟩ us ⟨⟨ds, rs ++ rs'⟩, .productions⟩ := by
  cases h with
  | mk hhead harrow hts hf =>
      obtain ⟨front, last, stage, rfl, hstage, hrule⟩ := hts.reads ds rs _
      have hrest := hstage.append (.single (.production hrule hf))
      refine .cons (.head hhead) (.cons (.arrow harrow) ?_)
      simpa using hrest

theorem SpellsLines.reads (h : SpellsLines us rs') (ds : List Definition) (rs : List Rule) :
    Reads ⟨⟨ds, rs⟩, .productions⟩ us ⟨⟨ds, rs ++ rs'⟩, .productions⟩ := by
  induction h with
  | nil => simpa using Reads.nil _
  | production _ hus ih =>
      rw [← List.append_assoc rs]
      exact ih.append (hus.reads ds _)
  | lineFeed _ hf ih => exact ih.append (.single (.lineFeed .productions hf))

theorem SpellsBlocks.reads (h : SpellsBlocks us rs') (ds : List Definition) (rs : List Rule) :
    Reads ⟨⟨ds, rs⟩, .productions⟩ us ⟨⟨ds, rs ++ rs'⟩, .productions⟩ := by
  induction h with
  | nil => simpa using Reads.nil _
  | append _ hus hb ih =>
      rw [← List.append_assoc rs]
      exact ih.append ((hus.reads ds _).append (.single (.blockEnd .productions hb)))

theorem SpellsContents.reads (h : SpellsContents ts o) :
    Reads Progress.initial ts ⟨o, .productions⟩ := by
  cases h with
  | mk hts hb hus hvs =>
      have hstart := hts.reads.append (.single (.blockEnd .definitions hb))
      exact (hstart.append (hus.reads _ [])).append (hvs.reads _ _)

/-! ## Outlines -/

namespace Outline

theorem ofTokens_eq_ok_iff_reads :
    ofTokens ts = .ok o ↔ Reads Progress.initial ts ⟨o, .ended⟩ := by
  unfold ofTokens
  rw [bind_eq_ok_iff]
  constructor
  · rintro ⟨⟨o', stage⟩, hp, h⟩
    split at h
    · rename_i hstage
      cases h
      cases hstage
      exact hp
    · cases h
  · intro h
    exact ⟨_, h, rfl⟩

theorem ofTokens_eq_ok_iff_spells : ofTokens ts = .ok o ↔ Spells ts o := by
  rw [ofTokens_eq_ok_iff_reads]
  constructor
  · intro h
    have hread := read_of_foldlM h
    cases hread with
    | ended hts => exact hts
  · intro h
    cases h with
    | mk hts he => exact hts.reads.append (.single (.stop he))

/-- Tokens are read as an outline exactly if their kinds are a document of the grammar, and the
outline is the one that they spell: the definitions in order, and a rule for each alternative of
each production, with the head of the production and the symbols of the alternative. -/
theorem ofTokens_spells (ts : List Token) :
    ((∃ o, ofTokens ts = .ok o) ↔ ts.map Token.kind ∈ Kind.document) ∧
      ∀ o, ofTokens ts = .ok o ↔ Spells ts o := by
  refine ⟨?_, fun o => ofTokens_eq_ok_iff_spells⟩
  rw [← exists_spells_iff]
  exact exists_congr fun o => ofTokens_eq_ok_iff_spells

end Outline

end LanguageSpec.Document
