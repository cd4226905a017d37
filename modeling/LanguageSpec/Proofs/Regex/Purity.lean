import LanguageSpec.Proofs.Regex.Classes

/-!
# Which regexes are classes

A recognizer is kept with a character set exactly if its tokens are one class and nothing else. That
a regex is one class can be told from what the reader has completed: as long as this is nothing, all
tokens so far are of what the reader is about.
-/

namespace LanguageSpec

namespace Regex

/-- Tokens that are one class, or one name of a class, and nothing else. -/
inductive SpellsClass (registry : Registry) : List Token → Set Char → Prop
  | charClass {ts : List Token} {s : Set Char} (h : DenotesClass registry ts s) :
      SpellsClass registry ts s
  | reference {t : Token} {x : Recognizer} {s : CharSet} (ht : t.kind = .reference)
      (hx : registry.get? (referenceName t) = some x) (hs : x.charClass = some s) :
      SpellsClass registry [t] {c | c ∈ s}

variable {registry : Registry}

/-! ## From the tokens to the set -/

theorem ofTokens_of_spellsClass {ts : List Token} {u : Set Char}
    (h : SpellsClass registry ts u) (origin : Position) :
    ∃ a s, ofTokens registry origin ts = .ok (.atom .empty a none) ∧ a.charClass? = some s ∧
      u = {c | c ∈ s} := by
  have hofTokens : ∀ a, Reader.Run registry .initial ts ⟨[], .empty, .items (.atom a)⟩ →
      ofTokens registry origin ts = .ok (.atom .empty a none) := by
    intro a hrun
    exact bind_eq_ok_iff.mpr ⟨_, hrun, Reader.finish_eq_ok_iff.mpr ⟨.empty, .atom a, rfl, rfl⟩⟩
  cases h with
  | charClass h =>
      obtain ⟨s, hrun, hs⟩ := h.run [] .empty .none
      exact ⟨.oneOf s, s, hofTokens _ hrun, rfl, hs.symm⟩
  | @reference t x s ht hx hs =>
      have hrun : Reader.Run registry .initial [t] ⟨[], .empty, .items (.atom (.named x))⟩ :=
        .single (.atom (.reference ht hx))
      exact ⟨.named x, s, hofTokens _ hrun, hs, rfl⟩

/-- Tokens are one class at most. -/
theorem SpellsClass.unique {ts : List Token} {u v : Set Char} (hu : SpellsClass registry ts u)
    (hv : SpellsClass registry ts v) : u = v := by
  obtain ⟨a, s, ha, hs, rfl⟩ := ofTokens_of_spellsClass hu .first
  obtain ⟨b, t, hb, ht, rfl⟩ := ofTokens_of_spellsClass hv .first
  obtain ⟨-, rfl, -⟩ := Regex.atom.inj (Except.ok.inj (ha.symm.trans hb))
  rw [Option.some.inj (hs.symm.trans ht)]

/-! ## From the set to the tokens -/

theorem charClass?_eq_some_iff {r : Regex} {s : CharSet} :
    r.charClass? = some s ↔ ∃ a, r = .atom .empty a none ∧ a.charClass? = some s := by
  constructor
  · intro h
    unfold charClass? at h
    split at h
    · exact ⟨_, rfl, h⟩
    · cases h
  · rintro ⟨a, rfl, h⟩
    exact h

theorem Pending.settle_eq_empty_iff {last : Pending} {here : Regex} {times : Option Repetition} :
    last.settle here times = .empty ↔ last = .none ∧ here = .empty := by
  cases last <;> simp [settle]

/-- All tokens are of what the reader is about. Nothing is said of those of a group. -/
inductive ReadsAlone (registry : Registry) : List Token → Focus → Prop
  | nothing : ReadsAlone registry [] (.items .none)
  | token {t : Token} {a : Atom} (h : TokenAtom registry t a) :
      ReadsAlone registry [t] (.items (.atom a))
  | group {ts : List Token} {inner : Regex} : ReadsAlone registry ts (.items (.group inner))
  | ofClass {ts : List Token} {focus : Focus} (h : ReadsClass registry ts focus) :
      ReadsAlone registry ts focus

namespace ReadsAlone

variable {ts : List Token} {focus : Focus}

theorem eq_nil (h : ReadsAlone registry ts (.items .none)) : ts = [] := by
  cases h with
  | nothing => rfl
  | ofClass h =>
      cases h with
      | part _ hfocus => exact absurd rfl (hfocus _)

theorem readFocus (h : ReadsAlone registry ts focus) (hfocus : ∀ last, focus ≠ .items last) :
    ReadFocus registry ts focus := by
  cases h with
  | ofClass h => exact h.readFocus
  | _ => exact absurd rfl (hfocus _)

theorem spellsClass {a : Atom} {s : CharSet} (h : ReadsAlone registry ts (.items (.atom a)))
    (hs : a.charClass? = some s) : SpellsClass registry ts {c | c ∈ s} := by
  cases h with
  | token h =>
      cases h with
      | literal ht hc => cases hs
      | dot ht =>
          cases hs
          exact .charClass (.dot ht)
      | reference ht hx => exact .reference ht hx hs
  | ofClass h =>
      cases h with
      | whole h =>
          cases hs
          exact .charClass h
      | part _ hfocus => exact absurd rfl (hfocus _)

end ReadsAlone

namespace Reader

/-- Until something has been completed, all tokens are of what the reader is about. Where nothing is
pending, what has been completed is not a class. -/
structure Fresh (registry : Registry) (ts : List Token) (r : Reader) : Prop where
  alone : r.outer = [] → r.here = .empty → ReadsAlone registry ts r.focus
  completed : r.focus = .items .none → r.here.charClass? = none

variable {ts : List Token} {outer : List Regex} {here : Regex} {r r' : Reader} {t : Token}

theorem fresh_initial : Fresh registry [] initial :=
  ⟨fun _ _ => .nothing, fun _ => rfl⟩

theorem Fresh.eq_nil {last : Pending} (h : Fresh registry ts ⟨outer, here, .items last⟩)
    (houter : outer = []) (hhere : last.settle here none = .empty) : ts = [] := by
  obtain ⟨rfl, hhere⟩ := Pending.settle_eq_empty_iff.mp hhere
  exact (h.alone houter hhere).eq_nil

theorem fresh_repetition {last : Pending} {times : Repetition} (hlast : last ≠ .none) :
    Fresh registry ts ⟨outer, last.settle here (some times), .items .none⟩ := by
  refine ⟨?_, ?_⟩
  · intro _ hempty
    exact absurd (Pending.settle_eq_empty_iff.mp hempty).1 hlast
  · intro _
    cases last with
    | none => exact absurd rfl hlast
    | atom a => cases here <;> rfl
    | group inner => rfl

theorem Fresh.within {focus : Focus} (h : Fresh registry ts ⟨outer, here, focus⟩)
    (hfocus : ∀ last, focus ≠ .items last) (hm : Move registry ⟨outer, here, focus⟩ t r) :
    Fresh registry (ts ++ [t]) r := by
  obtain ⟨focus', rfl, hne⟩ := hm.only_focus hfocus
  refine ⟨?_, fun hnone => absurd hnone hne⟩
  intro houter hhere
  exact .ofClass (((h.alone houter hhere).readFocus hfocus).move hfocus hm)

theorem Fresh.step (h : Fresh registry ts r) (hm : Move registry r t r') :
    Fresh registry (ts ++ [t]) r' := by
  cases hm with
  | atom ha =>
      refine ⟨?_, nofun⟩
      intro houter hhere
      rw [h.eq_nil houter hhere]
      exact .token ha
  | openBracket ht =>
      refine ⟨?_, nofun⟩
      intro houter hhere
      rw [h.eq_nil houter hhere]
      exact .ofClass (.part (.opened ht) nofun)
  | openGroup ht => exact ⟨nofun, fun _ => rfl⟩
  | closeGroup ht => exact ⟨fun _ _ => .group, nofun⟩
  | bar ht => exact ⟨nofun, fun _ => rfl⟩
  | star hlast ht => exact fresh_repetition hlast
  | plus hlast ht => exact fresh_repetition hlast
  | caret ht => exact h.within nofun (.caret ht)
  | member hf hm => exact h.within hf.ne_items (.member hf hm)
  | closeBracket hf ht hm hne => exact h.within hf.ne_items (.closeBracket hf ht hm hne)
  | inWord ht => exact h.within nofun (.inWord ht)
  | operandBracket ht => exact h.within nofun (.operandBracket ht)
  | operandReference ht hx hs => exact h.within nofun (.operandReference ht hx hs)

theorem fresh_of_foldlM (h : ts.foldlM (step registry) initial = .ok r) : Fresh registry ts r := by
  refine foldlM_induction (P := Fresh registry) fresh_initial ?_ h
  intro us s t s' hs hstep
  exact hs.step (step_eq_ok_iff.mp hstep)

end Reader

theorem spellsClass_of_ofTokens {origin : Position} {ts : List Token} {r : Regex} {s : CharSet}
    (h : ofTokens registry origin ts = .ok r) (hs : r.charClass? = some s) :
    SpellsClass registry ts {c | c ∈ s} := by
  obtain ⟨reader, hreader, hfinish⟩ := bind_eq_ok_iff.mp h
  obtain ⟨here, last, rfl, rfl⟩ := Reader.finish_eq_ok_iff.mp hfinish
  have hfresh := Reader.fresh_of_foldlM hreader
  cases last with
  | none =>
      have hnone := hfresh.completed rfl
      rw [Pending.settle, hnone] at hs
      cases hs
  | atom a =>
      obtain ⟨b, hb, hs⟩ := charClass?_eq_some_iff.mp hs
      obtain ⟨rfl, rfl, -⟩ := Regex.atom.inj hb
      exact (hfresh.alone rfl rfl).spellsClass hs
  | group inner => cases hs

/-! ## The alphabet -/

theorem inAlphabet_of_member? {text : String} {c : Char} (h : member? text = some c) :
    CharSet.inAlphabet c = true := by
  unfold member? at h
  split at h
  · split at h
    · rename_i hc
      obtain rfl := Option.some.inj h
      exact hc.1
    · cases h
  · split at h
    · rename_i hc
      obtain rfl := Option.some.inj h
      have hall : CharSet.bracketEscaped.all CharSet.inAlphabet = true := by decide +kernel
      exact List.all_eq_true.mp hall _ (List.contains_iff_mem.mp hc)
    · cases h
  · cases h

theorem inAlphabet_of_between {lo c hi : Char} (hlo : CharSet.inAlphabet lo = true)
    (hhi : CharSet.inAlphabet hi = true) (hc : lo ≤ c ∧ c ≤ hi) : CharSet.inAlphabet c = true := by
  have hlower : lo.toNat ≤ c.toNat := UInt32.le_iff_toNat_le.mp hc.1
  have hupper : c.toNat ≤ hi.toNat := UInt32.le_iff_toNat_le.mp hc.2
  simp only [CharSet.inAlphabet, Bool.and_eq_true, decide_eq_true_eq] at hlo hhi ⊢
  omega

theorem inAlphabet_of_mem_dot {c : Char} (h : c ∈ CharSet.dot) : CharSet.inAlphabet c = true := by
  rw [CharSet.dot, SortedSet.mem_ofList, List.mem_filter, CharSet.mem_interval] at h
  exact inAlphabet_of_between (by decide) (by decide) h.1

theorem DenotesMember.inAlphabet {ts : List Token} {s : Set Char} (h : DenotesMember ts s) :
    ∀ c ∈ s, CharSet.inAlphabet c = true := by
  cases h with
  | single ht hc =>
      rintro c rfl
      exact inAlphabet_of_member? hc
  | range ht hlo hd hu hhi hle =>
      intro c hc
      exact inAlphabet_of_between (inAlphabet_of_member? hlo) (inAlphabet_of_member? hhi) hc

theorem DenotesMembers.inAlphabet {ts : List Token} {s : Set Char} (h : DenotesMembers ts s) :
    ∀ c ∈ s, CharSet.inAlphabet c = true := by
  induction h with
  | nil => exact nofun
  | append hts hus ih =>
      rintro c (hc | hc)
      · exact ih c hc
      · exact hus.inAlphabet c hc

theorem DenotesBracket.inAlphabet {ts : List Token} {s : Set Char} (h : DenotesBracket ts s) :
    ∀ c ∈ s, CharSet.inAlphabet c = true := by
  cases h with
  | mk ho hts hne hc => exact hts.inAlphabet

end Regex

/-- The characters of a recognizer's set are printable. -/
def Recognizer.Printable (x : Recognizer) : Prop :=
  ∀ s, x.charClass = some s → ∀ c ∈ s, CharSet.inAlphabet c = true

def Registry.Printable (r : Registry) : Prop :=
  ∀ name x, r.get? name = some x → x.Printable

namespace Regex

variable {registry : Registry} {ts : List Token} {s : Set Char}

theorem DenotesOperand.inAlphabet (h : DenotesOperand registry ts s)
    (hregistry : registry.Printable) : ∀ c ∈ s, CharSet.inAlphabet c = true := by
  cases h with
  | bracket h => exact h.inAlphabet
  | reference ht hx hs => exact hregistry _ _ hx _ hs

theorem DenotesClass.inAlphabet (h : DenotesClass registry ts s)
    (hregistry : registry.Printable) : ∀ c ∈ s, CharSet.inAlphabet c = true := by
  cases h with
  | dot ht => exact fun c => inAlphabet_of_mem_dot
  | bracket h => exact h.inAlphabet
  | exclusion ho hn hts hne hc hi hus => exact fun c hc => hus.inAlphabet hregistry c hc.1

theorem SpellsClass.inAlphabet (h : SpellsClass registry ts s)
    (hregistry : registry.Printable) : ∀ c ∈ s, CharSet.inAlphabet c = true := by
  cases h with
  | charClass h => exact h.inAlphabet hregistry
  | reference ht hx hs => exact hregistry _ _ hx _ hs

end Regex

/-! ## Recognizers -/

namespace Recognizer

variable {registry : Registry} {origin : Position} {ts : List Regex.Token} {x : Recognizer}

/-- The character set of a recognizer is that of its tokens, which they have if they are one
class. -/
theorem spellsClass_iff (h : ofTokens registry origin ts = .ok x) (u : Set Char) :
    Regex.SpellsClass registry ts u ↔ ∃ s, x.charClass = some s ∧ u = {c | c ∈ s} := by
  obtain ⟨r, f, hr, -, rfl⟩ := ofTokens_eq_ok_iff.mp h
  constructor
  · intro hu
    obtain ⟨a, s, hr', hs, rfl⟩ := Regex.ofTokens_of_spellsClass hu origin
    rw [hr] at hr'
    obtain rfl := Except.ok.inj hr'
    exact ⟨s, hs, rfl⟩
  · rintro ⟨s, hs, rfl⟩
    exact Regex.spellsClass_of_ofTokens hr hs

theorem printable_of_ofTokens (hregistry : registry.Printable)
    (h : ofTokens registry origin ts = .ok x) : x.Printable := by
  intro s hs
  exact ((spellsClass_iff h _).mpr ⟨s, hs, rfl⟩).inAlphabet hregistry

end Recognizer

theorem Registry.printable_of_ofDefinitions {ds : List Definition} {r : Registry}
    (h : ofDefinitions ds = .ok r) : r.Printable := by
  refine forall_of_ofDefinitions (P := Recognizer.Printable) h ?_
  intro d _ front before ts x _ _ hbefore _ hx
  exact Recognizer.printable_of_ofTokens hbefore hx

namespace Recognizer

/-- A compiled regex has a character set exactly if its tokens are one class and nothing else. It is
the set of that class, its characters are printable, and they are the words of the automaton. -/
theorem charClass_exact {ds : List Definition} {registry : Registry} {origin : Position}
    {ts : List Regex.Token} {x : Recognizer} (hregistry : Registry.ofDefinitions ds = .ok registry)
    (hx : ofTokens registry origin ts = .ok x) :
    (∀ u : Set Char, Regex.SpellsClass registry ts u ↔
      ∃ s, x.charClass = some s ∧ u = {c | c ∈ s}) ∧
    ∀ s, x.charClass = some s → (∀ c ∈ s, CharSet.inAlphabet c = true) ∧
      x.fragment.language = Fragment.letters {c | c ∈ s} := by
  have hsound := Registry.sound_of_ofDefinitions hregistry
  have hclassified := Registry.classified_of_ofDefinitions hregistry
  have hprintable := Registry.printable_of_ofDefinitions hregistry
  refine ⟨spellsClass_iff hx, ?_⟩
  intro s hs
  refine ⟨printable_of_ofTokens hprintable hx s hs, ?_⟩
  exact classified_of_ofTokens hsound hclassified hx s hs

/-- An exclusion from a name. -/
theorem charClass_exact_digits : ∃ registry x,
    Registry.ofDefinitions [⟨⟨.definition, "D", .first⟩, ⟨.regex, "[0-9]", .first⟩⟩] =
        .ok registry ∧
      ofTokens registry .first
          [⟨.openBracket, "[", .first⟩, ⟨.caret, "^", .first⟩, ⟨.literal, "0", .first⟩,
            ⟨.closeBracket, "]", .first⟩, ⟨.inWord, "IN", .first⟩, ⟨.reference, "$D", .first⟩] =
        .ok x ∧
      (∀ u : Set Char, Regex.SpellsClass registry
          [⟨.openBracket, "[", .first⟩, ⟨.caret, "^", .first⟩, ⟨.literal, "0", .first⟩,
            ⟨.closeBracket, "]", .first⟩, ⟨.inWord, "IN", .first⟩, ⟨.reference, "$D", .first⟩] u ↔
        ∃ s, x.charClass = some s ∧ u = {c | c ∈ s}) ∧
      ∀ s, x.charClass = some s → (∀ c ∈ s, CharSet.inAlphabet c = true) ∧
        x.fragment.language = Fragment.letters {c | c ∈ s} := by
  have hok : (Registry.ofDefinitions [⟨⟨.definition, "D", .first⟩, ⟨.regex, "[0-9]", .first⟩⟩] >>=
      fun registry => ofTokens registry .first
        [⟨.openBracket, "[", .first⟩, ⟨.caret, "^", .first⟩, ⟨.literal, "0", .first⟩,
          ⟨.closeBracket, "]", .first⟩, ⟨.inWord, "IN", .first⟩,
          ⟨.reference, "$D", .first⟩]).isOk = true := by
    cbv
  obtain ⟨x, hrun⟩ := exists_eq_ok_of_isOk hok
  obtain ⟨registry, hregistry, hx⟩ := bind_eq_ok_iff.mp hrun
  exact ⟨registry, x, hregistry, hx, charClass_exact hregistry hx⟩

end Recognizer

end LanguageSpec
