import LanguageSpec.Document.Outline
import Mathlib.Computability.Language

/-!
# The grammar of documents

Which sequences of kinds of tokens are a document, and the outline that a list of tokens spells as
one:

    document    = (definition | line feed)* block end block* lines end of text
    definition  = name regex line feed
    block       = lines block end
    lines       = (production | line feed)*
    production  = non-terminal arrow alternative (bar alternative)* line feed
    alternative = epsilon | (terminal | non-terminal)*
-/

open Computability

namespace LanguageSpec

/-- A symbol that was read from a token of its kind. -/
def Symbol.Proper : Symbol → Prop
  | .terminal t => t.kind = .terminal
  | .nonTerminal t => t.kind = .nonTerminal

/-- A definition whose tokens have their kinds and a property. -/
structure Definition.IsFrom (P : Document.Token → Prop) (d : Definition) : Prop where
  name_kind : d.name.kind = .definition
  name : P d.name
  regex_kind : d.regex.kind = .regex
  regex : P d.regex

/-- A rule whose tokens have their kinds and a property. -/
structure Rule.IsFrom (P : Document.Token → Prop) (r : Rule) : Prop where
  head_kind : r.head.kind = .nonTerminal
  head : P r.head
  body : ∀ s ∈ r.body, s.Proper ∧ P s.token

namespace Document

/-! ## Sequences of kinds -/

namespace Kind

def definitionLine : Language Kind := {[.definition, .regex, .lineFeed]}

def alternative : Language Kind := {[.epsilon]} + ({[.terminal]} + {[.nonTerminal]})∗

def production : Language Kind :=
  {[.nonTerminal, .arrow]} * alternative * ({[.bar]} * alternative)∗ * {[.lineFeed]}

def lines : Language Kind := (production + {[.lineFeed]})∗

def block : Language Kind := lines * {[.blockEnd]}

def document : Language Kind :=
  (definitionLine + {[.lineFeed]})∗ * {[.blockEnd]} * block∗ * lines * {[.endOfText]}

end Kind

/-! ## What tokens spell -/

inductive SpellsDefinitions : List Token → List Definition → Prop
  | nil : SpellsDefinitions [] []
  | definition {ts : List Token} {ds : List Definition} {n x f : Token}
      (hts : SpellsDefinitions ts ds) (hn : n.kind = .definition) (hx : x.kind = .regex)
      (hf : f.kind = .lineFeed) : SpellsDefinitions (ts ++ [n, x, f]) (ds ++ [⟨n, x⟩])
  | lineFeed {ts : List Token} {ds : List Definition} {f : Token}
      (hts : SpellsDefinitions ts ds) (hf : f.kind = .lineFeed) :
      SpellsDefinitions (ts ++ [f]) ds

inductive SpellsAlternative : List Token → List Symbol → Prop
  | epsilon {t : Token} (ht : t.kind = .epsilon) : SpellsAlternative [t] []
  | symbols {body : List Symbol} (hbody : ∀ s ∈ body, s.Proper) :
      SpellsAlternative (body.map Symbol.token) body

inductive SpellsAlternatives : List Token → List (List Symbol) → Prop
  | one {ts : List Token} {body : List Symbol} (h : SpellsAlternative ts body) :
      SpellsAlternatives ts [body]
  | more {ts us : List Token} {bodies : List (List Symbol)} {body : List Symbol} {b : Token}
      (hts : SpellsAlternatives ts bodies) (hb : b.kind = .bar) (hus : SpellsAlternative us body) :
      SpellsAlternatives (ts ++ b :: us) (bodies ++ [body])

/-- A production spells a rule for each of its alternatives. -/
inductive SpellsProduction : List Token → List Rule → Prop
  | mk {head arrow f : Token} {ts : List Token} {bodies : List (List Symbol)}
      (hhead : head.kind = .nonTerminal) (harrow : arrow.kind = .arrow)
      (hts : SpellsAlternatives ts bodies) (hf : f.kind = .lineFeed) :
      SpellsProduction (head :: arrow :: ts ++ [f]) (bodies.map (Rule.mk head))

inductive SpellsLines : List Token → List Rule → Prop
  | nil : SpellsLines [] []
  | production {ts us : List Token} {rs rs' : List Rule} (hts : SpellsLines ts rs)
      (hus : SpellsProduction us rs') : SpellsLines (ts ++ us) (rs ++ rs')
  | lineFeed {ts : List Token} {rs : List Rule} {f : Token} (hts : SpellsLines ts rs)
      (hf : f.kind = .lineFeed) : SpellsLines (ts ++ [f]) rs

inductive SpellsBlocks : List Token → List Rule → Prop
  | nil : SpellsBlocks [] []
  | append {ts us : List Token} {rs rs' : List Rule} {b : Token} (hts : SpellsBlocks ts rs)
      (hus : SpellsLines us rs') (hb : b.kind = .blockEnd) :
      SpellsBlocks (ts ++ (us ++ [b])) (rs ++ rs')

/-- All of a document but the end of its text. -/
inductive SpellsContents : List Token → Outline → Prop
  | mk {ts us vs : List Token} {ds : List Definition} {rs rs' : List Rule} {b : Token}
      (hts : SpellsDefinitions ts ds) (hb : b.kind = .blockEnd) (hus : SpellsBlocks us rs)
      (hvs : SpellsLines vs rs') : SpellsContents (ts ++ [b] ++ us ++ vs) ⟨ds, rs ++ rs'⟩

inductive Spells : List Token → Outline → Prop
  | mk {ts : List Token} {o : Outline} {e : Token} (hts : SpellsContents ts o)
      (he : e.kind = .endOfText) : Spells (ts ++ [e]) o

/-! ## What spells something is a document -/

variable {ts us : List Token} {l m : Language Kind}

theorem kinds_mem_single {t : Token} {k : Kind} (ht : t.kind = k) :
    [t].map Token.kind ∈ ({[k]} : Language Kind) :=
  congrArg (fun k => [k]) ht

theorem kinds_mem_mul (hts : ts.map Token.kind ∈ l) (hus : us.map Token.kind ∈ m) :
    (ts ++ us).map Token.kind ∈ l * m := by
  rw [List.map_append]
  exact Language.append_mem_mul hts hus

theorem kinds_mem_kstar (hts : ts.map Token.kind ∈ l∗) (hus : us.map Token.kind ∈ l) :
    (ts ++ us).map Token.kind ∈ l∗ := by
  have hle : l∗ * l ≤ l∗ := kstar_mul_le_kstar
  exact hle (kinds_mem_mul hts hus)

theorem SpellsDefinitions.mem_kinds {ds : List Definition} (h : SpellsDefinitions ts ds) :
    ts.map Token.kind ∈ (Kind.definitionLine + {[.lineFeed]})∗ := by
  induction h with
  | nil => exact Language.nil_mem_kstar _
  | @definition _ _ n x f _ hn hx hf ih =>
      have hline : [n, x, f].map Token.kind = [.definition, .regex, .lineFeed] := by
        simp [hn, hx, hf]
      exact kinds_mem_kstar ih (Or.inl hline)
  | lineFeed _ hf ih => exact kinds_mem_kstar ih (Or.inr (kinds_mem_single hf))

theorem kinds_mem_symbols {body : List Symbol} (hbody : ∀ s ∈ body, s.Proper) :
    (body.map Symbol.token).map Token.kind ∈ ({[.terminal]} + {[.nonTerminal]} : Language Kind)∗ := by
  induction body using List.reverseRecOn with
  | nil => exact Language.nil_mem_kstar _
  | append_singleton body s ih =>
      obtain ⟨hbody, hs⟩ := List.forall_mem_append.mp hbody
      have hproper : s.Proper := List.forall_mem_singleton.mp hs
      have hkind : [s.token].map Token.kind ∈ ({[.terminal]} + {[.nonTerminal]} : Language Kind) := by
        cases s with
        | terminal t => exact Or.inl (kinds_mem_single hproper)
        | nonTerminal t => exact Or.inr (kinds_mem_single hproper)
      rw [List.map_append]
      exact kinds_mem_kstar (ih hbody) hkind

theorem SpellsAlternative.mem_kinds {body : List Symbol} (h : SpellsAlternative ts body) :
    ts.map Token.kind ∈ Kind.alternative := by
  cases h with
  | epsilon ht => exact Or.inl (kinds_mem_single ht)
  | symbols hbody => exact Or.inr (kinds_mem_symbols hbody)

theorem SpellsAlternatives.mem_kinds {bodies : List (List Symbol)}
    (h : SpellsAlternatives ts bodies) :
    ts.map Token.kind ∈ Kind.alternative * ({[.bar]} * Kind.alternative)∗ := by
  induction h with
  | @one ts _ h =>
      have hmem : (ts ++ []).map Token.kind ∈ Kind.alternative * ({[.bar]} * Kind.alternative)∗ :=
        kinds_mem_mul h.mem_kinds (Language.nil_mem_kstar _)
      rwa [List.append_nil] at hmem
  | @more ts us _ _ b _ hb hus ih =>
      have hbar : ([b] ++ us).map Token.kind ∈ {[.bar]} * Kind.alternative :=
        kinds_mem_mul (kinds_mem_single hb) hus.mem_kinds
      have hle : ({[.bar]} * Kind.alternative)∗ * ({[.bar]} * Kind.alternative) ≤
          ({[.bar]} * Kind.alternative)∗ := kstar_mul_le_kstar
      have hmem := kinds_mem_mul ih hbar
      rw [mul_assoc] at hmem
      exact mul_le_mul_right hle _ hmem

theorem SpellsProduction.mem_kinds {rs : List Rule} (h : SpellsProduction ts rs) :
    ts.map Token.kind ∈ Kind.production := by
  cases h with
  | @mk head arrow f ts _ hhead harrow hts hf =>
      have hfront : [head, arrow].map Token.kind = [.nonTerminal, .arrow] := by
        simp [hhead, harrow]
      have hmem : ([head, arrow] ++ ts ++ [f]).map Token.kind ∈
          {[.nonTerminal, .arrow]} * (Kind.alternative * ({[.bar]} * Kind.alternative)∗) *
            {[.lineFeed]} :=
        kinds_mem_mul (kinds_mem_mul hfront hts.mem_kinds) (kinds_mem_single hf)
      rwa [← mul_assoc] at hmem

theorem SpellsLines.mem_kinds {rs : List Rule} (h : SpellsLines ts rs) :
    ts.map Token.kind ∈ Kind.lines := by
  induction h with
  | nil => exact Language.nil_mem_kstar _
  | production _ hus ih => exact kinds_mem_kstar ih (Or.inl hus.mem_kinds)
  | lineFeed _ hf ih => exact kinds_mem_kstar ih (Or.inr (kinds_mem_single hf))

theorem SpellsBlocks.mem_kinds {rs : List Rule} (h : SpellsBlocks ts rs) :
    ts.map Token.kind ∈ Kind.block∗ := by
  induction h with
  | nil => exact Language.nil_mem_kstar _
  | append _ hus hb ih =>
      exact kinds_mem_kstar ih (kinds_mem_mul hus.mem_kinds (kinds_mem_single hb))

theorem Spells.mem_kinds {o : Outline} (h : Spells ts o) : ts.map Token.kind ∈ Kind.document := by
  cases h with
  | mk hts he =>
      cases hts with
      | mk hts hb hus hvs =>
          have hstart := kinds_mem_mul hts.mem_kinds (kinds_mem_single hb)
          have hblocks := kinds_mem_mul (kinds_mem_mul hstart hus.mem_kinds) hvs.mem_kinds
          exact kinds_mem_mul hblocks (kinds_mem_single he)

/-! ## Where the parts of an outline come from -/

section IsFrom

variable {P : Token → Prop}

theorem SpellsDefinitions.isFrom {ds : List Definition} (h : SpellsDefinitions ts ds)
    (hts : ∀ t ∈ ts, P t) : ∀ d ∈ ds, d.IsFrom P := by
  induction h with
  | nil => simp
  | @definition ts ds n x f _ hn hx hf ih =>
      obtain ⟨hts, hline⟩ := List.forall_mem_append.mp hts
      have hdefinition : Definition.IsFrom P ⟨n, x⟩ :=
        ⟨hn, hline n (by simp), hx, hline x (by simp)⟩
      exact List.forall_mem_append.mpr ⟨ih hts, List.forall_mem_singleton.mpr hdefinition⟩
  | lineFeed _ _ ih => exact ih (List.forall_mem_append.mp hts).1

theorem SpellsAlternative.isFrom {body : List Symbol} (h : SpellsAlternative ts body)
    (hts : ∀ t ∈ ts, P t) : ∀ s ∈ body, s.Proper ∧ P s.token := by
  cases h with
  | epsilon ht => simp
  | symbols hbody => exact fun s hs => ⟨hbody s hs, hts s.token (List.mem_map_of_mem hs)⟩

theorem SpellsAlternatives.isFrom {bodies : List (List Symbol)} (h : SpellsAlternatives ts bodies)
    (hts : ∀ t ∈ ts, P t) : ∀ body ∈ bodies, ∀ s ∈ body, s.Proper ∧ P s.token := by
  induction h with
  | one h => exact List.forall_mem_singleton.mpr (h.isFrom hts)
  | more _ _ hus ih =>
      obtain ⟨hts, hlast⟩ := List.forall_mem_append.mp hts
      have hbody := hus.isFrom (List.forall_mem_cons.mp hlast).2
      exact List.forall_mem_append.mpr ⟨ih hts, List.forall_mem_singleton.mpr hbody⟩

theorem SpellsProduction.isFrom {rs : List Rule} (h : SpellsProduction ts rs)
    (hts : ∀ t ∈ ts, P t) : ∀ r ∈ rs, r.IsFrom P := by
  cases h with
  | @mk head arrow f ts bodies hhead harrow halternatives hf =>
      obtain ⟨hline, -⟩ := List.forall_mem_append.mp hts
      obtain ⟨hfirst, hline⟩ := List.forall_mem_cons.mp hline
      have hbodies := halternatives.isFrom (List.forall_mem_cons.mp hline).2
      intro r hr
      obtain ⟨body, hbody, rfl⟩ := List.mem_map.mp hr
      exact ⟨hhead, hfirst, hbodies body hbody⟩

theorem SpellsLines.isFrom {rs : List Rule} (h : SpellsLines ts rs) (hts : ∀ t ∈ ts, P t) :
    ∀ r ∈ rs, r.IsFrom P := by
  induction h with
  | nil => simp
  | production _ hus ih =>
      obtain ⟨hts, hproduction⟩ := List.forall_mem_append.mp hts
      exact List.forall_mem_append.mpr ⟨ih hts, hus.isFrom hproduction⟩
  | lineFeed _ _ ih => exact ih (List.forall_mem_append.mp hts).1

theorem SpellsBlocks.isFrom {rs : List Rule} (h : SpellsBlocks ts rs) (hts : ∀ t ∈ ts, P t) :
    ∀ r ∈ rs, r.IsFrom P := by
  induction h with
  | nil => simp
  | append _ hus _ ih =>
      obtain ⟨hts, hblock⟩ := List.forall_mem_append.mp hts
      have hlines := hus.isFrom (List.forall_mem_append.mp hblock).1
      exact List.forall_mem_append.mpr ⟨ih hts, hlines⟩

/-- All parts of what some tokens spell are among these tokens. -/
theorem Spells.isFrom {o : Outline} (h : Spells ts o) (hts : ∀ t ∈ ts, P t) :
    (∀ d ∈ o.definitions, d.IsFrom P) ∧ ∀ r ∈ o.rules, r.IsFrom P := by
  cases h with
  | mk hcontents he =>
      cases hcontents with
      | mk hds hb hrs hrs' =>
          simp only [List.forall_mem_append] at hts
          obtain ⟨⟨⟨⟨hts, -⟩, hus⟩, hvs⟩, -⟩ := hts
          exact ⟨hds.isFrom hts, List.forall_mem_append.mpr ⟨hrs.isFrom hus, hrs'.isFrom hvs⟩⟩

end IsFrom

/-! ## A document spells something -/

theorem exists_of_mem_mul (h : ts.map Token.kind ∈ l * m) :
    ∃ us vs, ts = us ++ vs ∧ us.map Token.kind ∈ l ∧ vs.map Token.kind ∈ m := by
  obtain ⟨v, hv, w, hw, heq⟩ := Language.mem_mul.mp h
  obtain ⟨us, vs, rfl, rfl, rfl⟩ := List.map_eq_append_iff.mp heq.symm
  exact ⟨us, vs, rfl, hv, hw⟩

theorem exists_of_mem_single {k : Kind} (h : ts.map Token.kind ∈ ({[k]} : Language Kind)) :
    ∃ t, ts = [t] ∧ t.kind = k := by
  obtain ⟨t, us, rfl, ht, hus⟩ := List.map_eq_cons_iff.mp (show ts.map Token.kind = [k] from h)
  obtain rfl := List.map_eq_nil_iff.mp hus
  exact ⟨t, rfl, ht⟩

/-- Induction on the parts of an iteration, the last one taken off first. -/
theorem kstar_induction {P : List Token → Prop} (hnil : P [])
    (happend : ∀ ts us, P ts → us.map Token.kind ∈ l → P (ts ++ us))
    (h : ts.map Token.kind ∈ l∗) : P ts := by
  obtain ⟨ws, heq, hws⟩ := Language.mem_kstar.mp h
  induction ws using List.reverseRecOn generalizing ts with
  | nil =>
      obtain rfl : ts = [] := by simpa using heq
      exact hnil
  | append_singleton ws w ih =>
      rw [List.flatten_append, List.flatten_singleton] at heq
      obtain ⟨us, vs, rfl, hus, rfl⟩ := List.map_eq_append_iff.mp heq
      have hws' : ∀ w ∈ ws, w ∈ l := fun w hw => hws w (by simp [hw])
      have hlast : vs.map Token.kind ∈ l := hws _ (by simp)
      refine happend us vs (ih ?_ hus hws') hlast
      rw [hus]
      exact Language.join_mem_kstar hws'

theorem exists_spellsDefinitions
    (h : ts.map Token.kind ∈ (Kind.definitionLine + {[.lineFeed]})∗) :
    ∃ ds, SpellsDefinitions ts ds := by
  refine kstar_induction (P := fun ts => ∃ ds, SpellsDefinitions ts ds) ⟨[], .nil⟩ ?_ h
  rintro ts us ⟨ds, hds⟩ (hline | hfeed)
  · obtain ⟨n, vs, rfl, hn, hvs⟩ := List.map_eq_cons_iff.mp
      (show us.map Token.kind = [Kind.definition, .regex, .lineFeed] from hline)
    obtain ⟨x, ws, rfl, hx, hws⟩ := List.map_eq_cons_iff.mp hvs
    obtain ⟨f, rfl, hf⟩ := exists_of_mem_single hws
    exact ⟨_, .definition hds hn hx hf⟩
  · obtain ⟨f, rfl, hf⟩ := exists_of_mem_single hfeed
    exact ⟨ds, .lineFeed hds hf⟩

theorem exists_spellsAlternative (h : ts.map Token.kind ∈ Kind.alternative) :
    ∃ body, SpellsAlternative ts body := by
  rcases h with hepsilon | hsymbols
  · obtain ⟨t, rfl, ht⟩ := exists_of_mem_single hepsilon
    exact ⟨[], .epsilon ht⟩
  · have hbody : ∃ body : List Symbol, ts = body.map Symbol.token ∧ ∀ s ∈ body, s.Proper := by
      refine kstar_induction
        (P := fun ts => ∃ body : List Symbol, ts = body.map Symbol.token ∧ ∀ s ∈ body, s.Proper)
        ⟨[], rfl, by simp⟩ ?_ hsymbols
      rintro ts us ⟨body, rfl, hbody⟩ (hus | hus)
      · obtain ⟨t, rfl, ht⟩ := exists_of_mem_single hus
        refine ⟨body ++ [.terminal t], by simp [Symbol.token], ?_⟩
        exact List.forall_mem_append.mpr ⟨hbody, List.forall_mem_singleton.mpr ht⟩
      · obtain ⟨t, rfl, ht⟩ := exists_of_mem_single hus
        refine ⟨body ++ [.nonTerminal t], by simp [Symbol.token], ?_⟩
        exact List.forall_mem_append.mpr ⟨hbody, List.forall_mem_singleton.mpr ht⟩
    obtain ⟨body, rfl, hproper⟩ := hbody
    exact ⟨body, .symbols hproper⟩

theorem exists_spellsAlternatives
    (h : ts.map Token.kind ∈ Kind.alternative * ({[.bar]} * Kind.alternative)∗) :
    ∃ bodies, SpellsAlternatives ts bodies := by
  obtain ⟨us, vs, rfl, hus, hvs⟩ := exists_of_mem_mul h
  obtain ⟨body, hbody⟩ := exists_spellsAlternative hus
  refine kstar_induction (P := fun vs => ∃ bodies, SpellsAlternatives (us ++ vs) bodies)
    ⟨[body], by simpa using .one hbody⟩ ?_ hvs
  rintro vs ws ⟨bodies, hbodies⟩ hws
  obtain ⟨bs, xs, rfl, hbs, hxs⟩ := exists_of_mem_mul hws
  obtain ⟨b, rfl, hb⟩ := exists_of_mem_single hbs
  obtain ⟨body', hbody'⟩ := exists_spellsAlternative hxs
  exact ⟨_, by simpa using SpellsAlternatives.more hbodies hb hbody'⟩

theorem exists_spellsProduction (h : ts.map Token.kind ∈ Kind.production) :
    ∃ rs, SpellsProduction ts rs := by
  rw [Kind.production, mul_assoc {[Kind.nonTerminal, Kind.arrow]}] at h
  obtain ⟨us, fs, rfl, hus, hfs⟩ := exists_of_mem_mul h
  obtain ⟨hs, vs, rfl, hhs, hvs⟩ := exists_of_mem_mul hus
  obtain ⟨f, rfl, hf⟩ := exists_of_mem_single hfs
  obtain ⟨head, ws, rfl, hhead, hws⟩ := List.map_eq_cons_iff.mp
    (show hs.map Token.kind = [Kind.nonTerminal, .arrow] from hhs)
  obtain ⟨arrow, rfl, harrow⟩ := exists_of_mem_single hws
  obtain ⟨bodies, hbodies⟩ := exists_spellsAlternatives hvs
  exact ⟨_, by simpa using SpellsProduction.mk hhead harrow hbodies hf⟩

theorem exists_spellsLines (h : ts.map Token.kind ∈ Kind.lines) : ∃ rs, SpellsLines ts rs := by
  refine kstar_induction (P := fun ts => ∃ rs, SpellsLines ts rs) ⟨[], .nil⟩ ?_ h
  rintro ts us ⟨rs, hrs⟩ (hproduction | hfeed)
  · obtain ⟨rs', hrs'⟩ := exists_spellsProduction hproduction
    exact ⟨_, .production hrs hrs'⟩
  · obtain ⟨f, rfl, hf⟩ := exists_of_mem_single hfeed
    exact ⟨rs, .lineFeed hrs hf⟩

theorem exists_spellsBlocks (h : ts.map Token.kind ∈ Kind.block∗) : ∃ rs, SpellsBlocks ts rs := by
  refine kstar_induction (P := fun ts => ∃ rs, SpellsBlocks ts rs) ⟨[], .nil⟩ ?_ h
  rintro ts us ⟨rs, hrs⟩ hblock
  obtain ⟨vs, bs, rfl, hvs, hbs⟩ := exists_of_mem_mul hblock
  obtain ⟨b, rfl, hb⟩ := exists_of_mem_single hbs
  obtain ⟨rs', hrs'⟩ := exists_spellsLines hvs
  exact ⟨_, .append hrs hrs' hb⟩

/-- The kinds of tokens decide whether they spell anything. -/
theorem exists_spells_iff : (∃ o, Spells ts o) ↔ ts.map Token.kind ∈ Kind.document := by
  constructor
  · rintro ⟨o, ho⟩
    exact ho.mem_kinds
  · intro h
    obtain ⟨contents, es, rfl, hcontents, hes⟩ := exists_of_mem_mul h
    obtain ⟨blocks, vs, rfl, hblocks, hvs⟩ := exists_of_mem_mul hcontents
    obtain ⟨start, us, rfl, hstart, hus⟩ := exists_of_mem_mul hblocks
    obtain ⟨ts, bs, rfl, hts, hbs⟩ := exists_of_mem_mul hstart
    obtain ⟨e, rfl, he⟩ := exists_of_mem_single hes
    obtain ⟨b, rfl, hb⟩ := exists_of_mem_single hbs
    obtain ⟨ds, hds⟩ := exists_spellsDefinitions hts
    obtain ⟨rs, hrs⟩ := exists_spellsBlocks hus
    obtain ⟨rs', hrs'⟩ := exists_spellsLines hvs
    exact ⟨_, .mk (.mk hds hb hrs hrs') he⟩

end Document

end LanguageSpec
