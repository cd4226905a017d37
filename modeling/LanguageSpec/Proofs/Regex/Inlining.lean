import LanguageSpec.Proofs.Regex.Acceptance
import Mathlib.Logic.Function.Basic

/-!
# References and what they stand for

A reference in a regex means what its definition means between parentheses. So references can be
replaced by groups, from the first definition on, until none are left but those that a class is
excluded from.
-/

open Computability

namespace LanguageSpec

namespace Regex

/-! ## Replacing references -/

/-- The group that stands for a reference. -/
def groupFor (t : Token) (body : List Token) : List Token :=
  ⟨.openGroup, "(", t.pos⟩ :: body ++ [⟨.closeGroup, ")", t.pos⟩]

/-- Tokens with a group in place of every reference. A reference right behind the word `IN` stays,
since only a class may stand there. -/
def inline (bodies : String → List Token) (behindIn : Bool) : List Token → List Token
  | [] => []
  | t :: ts =>
    (if t.kind = .reference ∧ behindIn = false then groupFor t (bodies (referenceName t))
      else [t]) ++ inline bodies (t.kind = .inWord) ts

/-- What each name stands for when no references are left, given the definitions in their order. -/
def expansion (ds : List Definition) : String → List Token :=
  ds.foldl (fun bodies d => Function.update bodies d.name.text
    (inline bodies false ((tokens d.regex.pos d.regex.text).toOption.getD []))) fun _ => []

variable {registry registry' : Registry} {bodies bodies' : String → List Token} {b b' b'' : Bool}
  {t : Token} {ts ts' us us' : List Token}

theorem inline_congr (h : ∀ t ∈ ts, t.kind = .reference →
    bodies (referenceName t) = bodies' (referenceName t)) :
    inline bodies b ts = inline bodies' b ts := by
  induction ts generalizing b with
  | nil => rfl
  | cons t ts ih =>
      obtain ⟨ht, hts⟩ := List.forall_mem_cons.mp h
      rw [inline, inline, ih hts]
      split
      · rename_i hreference
        rw [ht hreference.1]
      · rfl

/-- Some tokens are replaced by others, whatever follows. The flags say whether `IN` stands in front
of the tokens and whether it is the last of them. -/
def Inlines (bodies : String → List Token) (b : Bool) (ts ts' : List Token) (b' : Bool) : Prop :=
  ∀ rest, inline bodies b (ts ++ rest) = ts' ++ inline bodies b' rest

namespace Inlines

theorem nil : Inlines bodies b [] [] b := fun _ => rfl

theorem append (h : Inlines bodies b ts ts' b') (h' : Inlines bodies b' us us' b'') :
    Inlines bodies b (ts ++ us) (ts' ++ us') b'' := by
  intro rest
  rw [List.append_assoc, h, h', List.append_assoc]

theorem reference (ht : t.kind = .reference) :
    Inlines bodies false [t] (groupFor t (bodies (referenceName t))) false := by
  intro rest
  simp [inline, ht]

theorem operand (ht : t.kind = .reference) : Inlines bodies true [t] [t] false := by
  intro rest
  simp [inline, ht]

theorem inWord (ht : t.kind = .inWord) : Inlines bodies b [t] [t] true := by
  intro rest
  simp [inline, ht]

theorem plain (ht : t.kind ≠ .reference ∧ t.kind ≠ .inWord) : Inlines bodies b [t] [t] false := by
  intro rest
  simp [inline, ht]

theorem plain_cons (ht : t.kind ≠ .reference ∧ t.kind ≠ .inWord)
    (hts : ∀ u ∈ ts, u.kind ≠ .reference ∧ u.kind ≠ .inWord) :
    Inlines bodies b (t :: ts) (t :: ts) false := by
  induction ts generalizing t b with
  | nil => exact plain ht
  | cons u ts ih =>
      obtain ⟨hu, hts⟩ := List.forall_mem_cons.mp hts
      exact (plain ht).append (ih hu hts)

end Inlines

/-! ## Classes stay as they are -/

theorem DenotesMembers.plain {s : Set Char} (h : DenotesMembers ts s) :
    ∀ t ∈ ts, t.kind ≠ .reference ∧ t.kind ≠ .inWord := by
  induction h with
  | nil => simp
  | append _ hus ih =>
      refine List.forall_mem_append.mpr ⟨ih, ?_⟩
      cases hus with
      | single ht hc => simp [ht]
      | range ht hlo hd hu hhi hle => simp [ht, hd, hu]

theorem DenotesBracket.inlines {s : Set Char} (h : DenotesBracket ts s) :
    Inlines bodies b ts ts false := by
  cases h with
  | mk ho hts hne hc =>
      refine .plain_cons (by simp [ho]) (List.forall_mem_append.mpr ⟨hts.plain, ?_⟩)
      simp [hc]

theorem DenotesOperand.inlines {s : Set Char} (h : DenotesOperand registry ts s) :
    Inlines bodies true ts ts false := by
  cases h with
  | bracket h => exact h.inlines
  | reference ht hx hs => exact .operand ht

theorem DenotesClass.inlines {s : Set Char} (h : DenotesClass registry ts s) :
    Inlines bodies false ts ts false := by
  cases h with
  | dot ht => exact .plain (by simp [ht])
  | bracket h => exact h.inlines
  | @exclusion o n c i ts us excluded operand ho hn hts hne hc hi hus =>
      have hexcluded : Inlines bodies false (o :: (n :: ts ++ [c])) (o :: (n :: ts ++ [c]))
          false := by
        refine .plain_cons (by simp [ho]) (List.forall_mem_append.mpr ⟨?_, by simp [hc]⟩)
        exact List.forall_mem_cons.mpr ⟨by simp [hn], hts.plain⟩
      have hclass := (hexcluded.append (.inWord hi)).append hus.inlines
      simpa using hclass

/-! ## Groups denote what references denote -/

theorem Denotes.inlines (hbodies : ∀ name x, registry.get? name = some x →
      Denotes registry .regex (bodies name) x.fragment.language) {part : Part}
    {l : Language Char} (h : Denotes registry part ts l) :
    ∃ us, Inlines bodies false ts us false ∧ Denotes registry part us l := by
  induction h with
  | branch h ih =>
      obtain ⟨us, hus, hl⟩ := ih
      exact ⟨us, hus, .branch hl⟩
  | union hts hb hus iht ihu =>
      obtain ⟨ts', hts', hl⟩ := iht
      obtain ⟨us', hus', hm⟩ := ihu
      exact ⟨_, hts'.append ((Inlines.plain (by simp [hb])).append hus'), .union hl hb hm⟩
  | nil => exact ⟨[], .nil, .nil⟩
  | append hts hus iht ihu =>
      obtain ⟨ts', hts', hl⟩ := iht
      obtain ⟨us', hus', hm⟩ := ihu
      exact ⟨_, hts'.append hus', .append hl hm⟩
  | once h ih =>
      obtain ⟨us, hus, hl⟩ := ih
      exact ⟨us, hus, .once hl⟩
  | star h ht ih =>
      obtain ⟨us, hus, hl⟩ := ih
      exact ⟨_, hus.append (.plain (by simp [ht])), .star hl ht⟩
  | plus h ht ih =>
      obtain ⟨us, hus, hl⟩ := ih
      exact ⟨_, hus.append (.plain (by simp [ht])), .plus hl ht⟩
  | @group ts l o c ho h hc ih =>
      obtain ⟨us, hus, hl⟩ := ih
      have hopen : Inlines bodies false [o] [o] false := .plain (by simp [ho])
      exact ⟨_, (hopen.append hus).append (.plain (by simp [hc])), .group ho hl hc⟩
  | literal ht hc => exact ⟨_, .plain (by simp [ht]), .literal ht hc⟩
  | charClass h => exact ⟨_, h.inlines, .charClass h⟩
  | reference ht hx => exact ⟨_, .reference ht, .group rfl (hbodies _ _ hx) rfl⟩

theorem Denotes.inline (hbodies : ∀ name x, registry.get? name = some x →
      Denotes registry .regex (bodies name) x.fragment.language) {part : Part}
    {l : Language Char} (h : Denotes registry part ts l) :
    Denotes registry part (inline bodies false ts) l := by
  obtain ⟨us, hus, hl⟩ := h.inlines hbodies
  have hinline := hus []
  rw [List.append_nil, Regex.inline, List.append_nil] at hinline
  rwa [hinline]

/-! ## More names -/

theorem DenotesOperand.within {s : Set Char} (h : DenotesOperand registry ts s)
    (hwithin : registry.Within registry') : DenotesOperand registry' ts s := by
  cases h with
  | bracket h => exact .bracket h
  | reference ht hx hs => exact .reference ht (hwithin _ _ hx) hs

theorem DenotesClass.within {s : Set Char} (h : DenotesClass registry ts s)
    (hwithin : registry.Within registry') : DenotesClass registry' ts s := by
  cases h with
  | dot ht => exact .dot ht
  | bracket h => exact .bracket h
  | exclusion ho hn hts hne hc hi hus => exact .exclusion ho hn hts hne hc hi (hus.within hwithin)

theorem Denotes.within {part : Part} {l : Language Char} (h : Denotes registry part ts l)
    (hwithin : registry.Within registry') : Denotes registry' part ts l := by
  induction h with
  | branch h ih => exact .branch ih
  | union hts hb hus iht ihu => exact .union iht hb ihu
  | nil => exact .nil
  | append hts hus iht ihu => exact .append iht ihu
  | once h ih => exact .once ih
  | star h ht ih => exact .star ih ht
  | plus h ht ih => exact .plus ih ht
  | group ho h hc ih => exact .group ho ih hc
  | literal ht hc => exact .literal ht hc
  | charClass h => exact .charClass (h.within hwithin)
  | reference ht hx => exact .reference ht (hwithin _ _ hx)

/-! ## Names that are referred to -/

theorem Reader.Move.mem_names {r r' : Reader} (h : Reader.Move registry r t r')
    (ht : t.kind = .reference) : referenceName t ∈ registry.names := by
  cases h with
  | atom ha =>
      cases ha with
      | literal ht' | dot ht' => simp [ht'] at ht
      | reference _ hx => exact Registry.mem_names_of_get? hx
  | member hf hm => cases hm <;> simp_all
  | operandReference _ hx hs => exact Registry.mem_names_of_get? hx
  | openBracket ht' | openGroup ht' | closeGroup ht' | bar ht' | star _ ht' | plus _ ht' | caret ht'
  | closeBracket _ ht' | inWord ht' | operandBracket ht' => simp [ht'] at ht

theorem mem_names_of_ofTokens {origin : Position} {r : Regex}
    (h : ofTokens registry origin ts = .ok r) :
    ∀ t ∈ ts, t.kind = .reference → referenceName t ∈ registry.names := by
  obtain ⟨s, hs, -⟩ := bind_eq_ok_iff.mp h
  refine foldlM_induction
    (P := fun us _ => ∀ t ∈ us, t.kind = .reference → referenceName t ∈ registry.names)
    (by simp) ?_ hs
  intro us r t r' hus hstep
  refine List.forall_mem_append.mpr ⟨hus, List.forall_mem_singleton.mpr ?_⟩
  exact (Reader.step_eq_ok_iff.mp hstep).mem_names

end Regex

/-! ## Definitions -/

open Regex (inline expansion)

theorem Recognizer.denotes_tokens {registry : Registry} {origin : Position}
    {ts : List Regex.Token} {x : Recognizer} (hregistry : registry.Sound)
    (h : ofTokens registry origin ts = .ok x) :
    Regex.Denotes registry .regex ts x.fragment.language := by
  obtain ⟨r, hr, hfinished⟩ := finished_of_ofTokens hregistry h
  rw [hfinished.language_eq]
  exact Regex.denotes_of_ofTokens hr

namespace Registry

/-- What the names of a registry stand for without references: tokens of the same languages, which
are the tokens of the definitions with groups in place of references. -/
structure Expanded (ds : List Definition) (r : Registry) : Prop where
  sound : r.Sound
  denotes : ∀ name x, r.get? name = some x →
    Regex.Denotes r .regex (expansion ds name) x.fragment.language
  inlined : ∀ d ∈ ds, d.name.text ∈ r.names ∧ ∃ us,
    Regex.tokens d.regex.pos d.regex.text = .ok us ∧
      (∀ t ∈ us, t.kind = .reference → Regex.referenceName t ∈ r.names) ∧
      expansion ds d.name.text = inline (expansion ds) false us

theorem expansion_concat {ds : List Definition} {d : Definition} {ts : List Regex.Token}
    (h : Regex.tokens d.regex.pos d.regex.text = .ok ts) : expansion (ds ++ [d]) =
      Function.update (expansion ds) d.name.text (inline (expansion ds) false ts) := by
  rw [expansion, List.foldl_append, List.foldl_cons, List.foldl_nil, h]
  rfl

theorem Expanded.addDefinition {ds : List Definition} {d : Definition} {r r' : Registry}
    (h : Expanded ds r) (hd : r.addDefinition d = .ok r') : Expanded (ds ++ [d]) r' := by
  have hwithin := within_of_addDefinition hd
  obtain ⟨x, hx, hdefine⟩ := addDefinition_eq_ok_iff.mp hd
  obtain ⟨ts, hts, hx⟩ := bind_eq_ok_iff.mp hx
  obtain ⟨regex, hregex, -⟩ := Recognizer.finished_of_ofTokens h.sound hx
  have hreferences := Regex.mem_names_of_ofTokens hregex
  have hnames := names_of_define? hdefine
  have hkept : ∀ name ∈ r.names, name ∈ r'.names := by simp +contextual [hnames]
  have hnew : d.name.text ∉ r.names := by
    intro hbound
    rw [define?_eq_none_iff.mpr hbound] at hdefine
    cases hdefine
  -- the names that were bound before stand for what they stood for
  have hsame : ∀ name ∈ r.names, expansion (ds ++ [d]) name = expansion ds name := by
    intro name hname
    have hne : name ≠ d.name.text := by
      rintro rfl
      exact hnew hname
    rw [expansion_concat hts, Function.update_of_ne hne]
  have hinline : ∀ us : List Regex.Token,
      (∀ t ∈ us, t.kind = .reference → Regex.referenceName t ∈ r.names) →
      inline (expansion (ds ++ [d])) false us = inline (expansion ds) false us :=
    fun us hus => Regex.inline_congr fun t ht hkind => hsame _ (hus t ht hkind)
  have hlast : expansion (ds ++ [d]) d.name.text = inline (expansion ds) false ts := by
    rw [expansion_concat hts, Function.update_self]
  refine ⟨h.sound.addDefinition hd, ?_, ?_⟩
  · intro name y hy
    rw [get?_of_define? hdefine] at hy
    split at hy
    · rename_i hname
      obtain rfl := Option.some.inj hy
      rw [← hname, hlast]
      exact ((Recognizer.denotes_tokens h.sound hx).inline h.denotes).within hwithin
    · rw [hsame name (mem_names_of_get? hy)]
      exact (h.denotes name y hy).within hwithin
  · refine List.forall_mem_append.mpr ⟨?_, List.forall_mem_singleton.mpr ?_⟩
    · intro d' hd'
      obtain ⟨hname, us, hus, hnames', hexpansion⟩ := h.inlined d' hd'
      refine ⟨hkept _ hname, us, hus, fun t ht hkind => hkept _ (hnames' t ht hkind), ?_⟩
      rw [hsame _ hname, hinline us hnames', hexpansion]
    · refine ⟨by simp [hnames], ts, hts, fun t ht hkind => hkept _ (hreferences t ht hkind), ?_⟩
      rw [hlast, hinline ts hreferences]

theorem expanded_of_ofDefinitions {ds : List Definition} {r : Registry}
    (h : ofDefinitions ds = .ok r) : Expanded ds r := by
  refine foldlM_induction (P := Expanded) ⟨?_, ?_, by simp⟩ ?_ h
  · intro name x hx
    simp at hx
  · intro name x hx
    simp at hx
  · intro ds r d r' hr hd
    exact hr.addDefinition hd

end Registry

namespace Recognizer

/-- Where every reference of a regex, but for the operand of an exclusion, is replaced by a group
around what it stands for, itself without references, the regex compiles as before and its automaton
accepts the same words. -/
theorem ofTokens_inline {ds : List Definition} {registry : Registry} {origin : Position}
    {ts : List Regex.Token} {x : Recognizer} (hregistry : Registry.ofDefinitions ds = .ok registry)
    (hx : ofTokens registry origin ts = .ok x) :
    (∀ d ∈ ds, ∃ us, Regex.tokens d.regex.pos d.regex.text = .ok us ∧
        expansion ds d.name.text = inline (expansion ds) false us) ∧
      ∀ origin', ∃ y, ofTokens registry origin' (inline (expansion ds) false ts) = .ok y ∧
        y.fragment.language = x.fragment.language := by
  have hexpanded := Registry.expanded_of_ofDefinitions hregistry
  refine ⟨fun d hd => ?_, fun origin' => ?_⟩
  · obtain ⟨-, us, hus, -, hexpansion⟩ := hexpanded.inlined d hd
    exact ⟨us, hus, hexpansion⟩
  · have hdenotes := (denotes_tokens hexpanded.sound hx).inline hexpanded.denotes
    obtain ⟨r, hr, hlanguage⟩ := Regex.ofTokens_of_denotes hdenotes origin'
    obtain ⟨y, hy⟩ := r.recognizer_eq_ok (Regex.stopOf origin' (inline (expansion ds) false ts))
    have hcompiled : ofTokens registry origin' (inline (expansion ds) false ts) = .ok y :=
      bind_eq_ok_iff.mpr ⟨r, hr, hy⟩
    obtain ⟨r', hr', hfinished⟩ := finished_of_ofTokens hexpanded.sound hcompiled
    obtain rfl : r = r' := Except.ok.inj (hr.symm.trans hr')
    exact ⟨y, hcompiled, hfinished.language_eq.trans hlanguage⟩

/-- A repeated reference to a definition with a reference and a union, and an exclusion. -/
theorem ofTokens_inline_digits :
    let ds : List Definition :=
      [⟨⟨.definition, "D", .first⟩, ⟨.regex, "[0-9]", .first⟩⟩,
        ⟨⟨.definition, "N", .first⟩, ⟨.regex, "$D+|x", .first⟩⟩]
    let ts : List Regex.Token :=
      [⟨.reference, "$N", .first⟩, ⟨.star, "*", .first⟩, ⟨.openBracket, "[", .first⟩,
        ⟨.caret, "^", .first⟩, ⟨.literal, "0", .first⟩, ⟨.closeBracket, "]", .first⟩,
        ⟨.inWord, "IN", .first⟩, ⟨.reference, "$D", .first⟩]
    ∃ registry x, Registry.ofDefinitions ds = .ok registry ∧ ofTokens registry .first ts = .ok x ∧
      (∀ d ∈ ds, ∃ us, Regex.tokens d.regex.pos d.regex.text = .ok us ∧
        expansion ds d.name.text = inline (expansion ds) false us) ∧
      ∀ origin', ∃ y, ofTokens registry origin' (inline (expansion ds) false ts) = .ok y ∧
        y.fragment.language = x.fragment.language := by
  intro ds ts
  have hok : (Registry.ofDefinitions ds >>= fun registry =>
      ofTokens registry .first ts).isOk = true := by cbv
  obtain ⟨x, hrun⟩ := exists_eq_ok_of_isOk hok
  obtain ⟨registry, hregistry, hx⟩ := bind_eq_ok_iff.mp hrun
  exact ⟨registry, x, hregistry, hx, ofTokens_inline hregistry hx⟩

example : (inline (expansion [⟨⟨.definition, "D", .first⟩, ⟨.regex, "[0-9]", .first⟩⟩,
      ⟨⟨.definition, "N", .first⟩, ⟨.regex, "$D+|x", .first⟩⟩]) false
      [⟨.reference, "$N", .first⟩, ⟨.star, "*", .first⟩]).map Token.text =
    ["(", "(", "[", "0", "-", "9", "]", ")", "+", "|", "x", ")", "*"] := by
  cbv

end Recognizer

end LanguageSpec
