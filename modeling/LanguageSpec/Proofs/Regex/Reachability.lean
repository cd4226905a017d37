import LanguageSpec.Proofs.Fragment.Reachability
import LanguageSpec.Proofs.Regex.Inlining
import LanguageSpec.Proofs.Regex.Purity

/-!
# The states of compiled automata

A bracket has a member, so of all atoms only an exclusion can be without words. Where every exclusion
leaves a character, each state of a compiled automaton is on a path from the start state to the
accept state.
-/

namespace LanguageSpec

namespace Regex

open Fragment (Live live_ofSet)

variable {registry registry' : Registry} {ts : List Token} {s : Set Char} {a : Atom}

/-! ## Exclusions -/

/-- Whether tokens begin as an exclusion does and no other class. -/
def BeginsExclusion (ts : List Token) : Prop := [.openBracket, .caret] <+: ts.map Token.kind

instance (ts : List Token) : Decidable (BeginsExclusion ts) :=
  inferInstanceAs (Decidable ([.openBracket, .caret] <+: ts.map Token.kind))

/-- An exclusion that denotes the set is among the tokens. -/
def Excludes (registry : Registry) (ts : List Token) (s : Set Char) : Prop :=
  ∃ us, us <:+: ts ∧ BeginsExclusion us ∧ DenotesClass registry us s

theorem Excludes.within (h : Excludes registry ts s) (hwithin : registry.Within registry') :
    Excludes registry' ts s := by
  obtain ⟨us, hus, hbegins, hdenotes⟩ := h
  exact ⟨us, hus, hbegins, hdenotes.within hwithin⟩

/-- The sets of all exclusions among the tokens. -/
def exclusions (registry : Registry) (ts : List Token) : List CharSet :=
  (ts.tails.flatMap List.inits).filterMap fun us =>
    if BeginsExclusion us then (ofTokens registry .first us).toOption.bind charClass? else none

/-- A name is no exclusion. -/
theorem SpellsClass.denotesClass (h : SpellsClass registry ts s) (hbegins : BeginsExclusion ts) :
    DenotesClass registry ts s := by
  cases h with
  | charClass h => exact h
  | reference => exact absurd hbegins.length_le (by simp)

theorem excludes_iff_mem_exclusions : Excludes registry ts s ↔
    ∃ u ∈ exclusions registry ts, s = {c | c ∈ u} := by
  have hparts : ∀ us, us <:+: ts ↔ us ∈ ts.tails.flatMap List.inits := by
    intro us
    rw [List.infix_iff_prefix_suffix]
    simp [and_comm]
  constructor
  · rintro ⟨us, hus, hbegins, hdenotes⟩
    obtain ⟨a, u, hread, hclass, rfl⟩ := ofTokens_of_spellsClass (.charClass hdenotes) .first
    refine ⟨u, List.mem_filterMap.mpr ⟨us, (hparts us).mp hus, ?_⟩, rfl⟩
    rw [if_pos hbegins, hread]
    exact hclass
  · rintro ⟨u, hu, rfl⟩
    obtain ⟨us, hus, hclass⟩ := List.mem_filterMap.mp hu
    split at hclass
    · rename_i hbegins
      obtain ⟨r, hread, hclass⟩ := Option.bind_eq_some_iff.mp hclass
      refine ⟨us, (hparts us).mpr hus, hbegins, ?_⟩
      exact (spellsClass_of_ofTokens (toOption_eq_some_iff.mp hread) hclass).denotesClass hbegins
    · cases hclass

theorem dot_nonempty : {c | c ∈ CharSet.dot}.Nonempty := ⟨'a', by decide +kernel⟩

/-- Of all classes only an exclusion can be empty. -/
theorem DenotesClass.nonempty (h : DenotesClass registry ts s)
    (hexclusion : BeginsExclusion ts → s.Nonempty) : s.Nonempty := by
  cases h with
  | dot ht => exact dot_nonempty
  | bracket h =>
      cases h with
      | mk ho hts hne hc => exact hts.nonempty hne
  | exclusion ho hn => exact hexclusion (by simp [BeginsExclusion, ho, hn])

/-! ## Automata -/

theorem TokenAtom.live_fragment {t : Token} (h : TokenAtom registry t a)
    (hlive : ∀ name x, registry.get? name = some x → Live x.fragment) : Live a.fragment := by
  cases h with
  | @literal c ht hc => exact live_ofSet ⟨c, SortedSet.mem_ofList.mpr List.mem_cons_self⟩
  | dot ht => exact live_ofSet dot_nonempty
  | reference ht hx => exact hlive _ _ hx

theorem Occurs.live_fragment (h : Occurs registry ts a)
    (hexclusions : ∀ s, Excludes registry ts s → s.Nonempty)
    (hlive : ∀ name x, registry.get? name = some x → Live x.fragment) : Live a.fragment := by
  obtain ⟨us, hus, hread⟩ := h
  cases hread with
  | token h => exact h.live_fragment hlive
  | charClass h =>
      apply live_ofSet
      exact h.nonempty fun hbegins => hexclusions _ ⟨us, hus, hbegins, h⟩

end Regex

namespace Recognizer

variable {registry : Registry} {origin : Position} {ts : List Regex.Token} {x : Recognizer}

theorem live_of_ofTokens (hexclusions : ∀ s, Regex.Excludes registry ts s → s.Nonempty)
    (hlive : ∀ name y, registry.get? name = some y → y.fragment.Live)
    (h : ofTokens registry origin ts = .ok x) : x.fragment.Live := by
  obtain ⟨r, f, hr, hf, rfl⟩ := ofTokens_eq_ok_iff.mp h
  have hatoms : r.Forall fun a => a.fragment.Live :=
    (Regex.forall_of_ofTokens hr).mono fun a ha => ha.live_fragment hexclusions hlive
  exact (hatoms.fragment? Fragment.invariant_live hf).finalize

end Recognizer

/-- An exclusion in the regex of a definition denotes the set. -/
def Definition.Excludes (registry : Registry) (d : Definition) (s : Set Char) : Prop :=
  ∃ ts, Regex.tokens d.regex.pos d.regex.text = .ok ts ∧ Regex.Excludes registry ts s

/-- The sets of all exclusions in the regex of a definition. -/
def Definition.exclusions (registry : Registry) (d : Definition) : List CharSet :=
  (Regex.tokens d.regex.pos d.regex.text).toOption.toList.flatMap (Regex.exclusions registry)

theorem Definition.excludes_iff_mem_exclusions {registry : Registry} {d : Definition}
    {s : Set Char} : d.Excludes registry s ↔ ∃ u ∈ d.exclusions registry, s = {c | c ∈ u} := by
  simp only [Excludes, Regex.excludes_iff_mem_exclusions, exclusions, List.mem_flatMap,
    Option.mem_toList, toOption_eq_some_iff]
  constructor
  · rintro ⟨ts, hts, u, hu, hs⟩
    exact ⟨u, ⟨ts, hts, hu⟩, hs⟩
  · rintro ⟨u, ⟨ts, hts, hu⟩, hs⟩
    exact ⟨ts, hts, u, hu, hs⟩

namespace Registry

open Fragment (Reach)

variable {ds : List Definition} {r : Registry}

/-- If no exclusion in a definition denotes the empty set, then in every automaton of the registry
each state is reached from the start state and reaches the accept state. -/
theorem reach_of_ofDefinitions (h : ofDefinitions ds = .ok r)
    (hexclusions : ∀ d ∈ ds, ∀ s, d.Excludes r s → s.Nonempty) :
    ∀ e ∈ r.entries, ∀ s < e.2.fragment.size,
      Reach e.2.fragment.states e.2.fragment.start s ∧
        ∃ a, e.2.fragment.accept = some a ∧ Reach e.2.fragment.states s a := by
  have hlive : ∀ name x, r.get? name = some x → x.fragment.Live := by
    refine forall_of_ofDefinitions (P := fun x => x.fragment.Live) h ?_
    intro d hd front before ts x _ hwithin hbefore hts hx
    apply Recognizer.live_of_ofTokens _ hbefore hx
    intro s hs
    exact hexclusions d hd s ⟨ts, hts, hs.within hwithin⟩
  intro e he s hs
  have hget := get?_of_mem he
  have hfragment := hlive e.1 e.2 hget
  obtain ⟨b, hfinished⟩ := sound_of_ofDefinitions h e.1 e.2 hget
  refine ⟨hfragment.reached s hs, e.2.fragment.exit, hfinished.accept, ?_⟩
  exact hfragment.leads_of_accept hfinished.accept hs

/-- An exclusion that leaves digits, repeated, in a group with an empty branch. -/
theorem reach_of_ofDefinitions_digits :
    let ds : List Definition :=
      [⟨⟨.definition, "D", .first⟩, ⟨.regex, "[0-9]", .first⟩⟩,
        ⟨⟨.definition, "N", .first⟩, ⟨.regex, "(x[^0]IN$D+|)*", .first⟩⟩]
    ∃ r, ofDefinitions ds = .ok r ∧ r.names = ["D", "N"] ∧
      (∃ d ∈ ds, ∃ s, d.Excludes r s) ∧ (∀ d ∈ ds, ∀ s, d.Excludes r s → s.Nonempty) ∧
      ∀ e ∈ r.entries, ∀ s < e.2.fragment.size,
        Reach e.2.fragment.states e.2.fragment.start s ∧
          ∃ a, e.2.fragment.accept = some a ∧ Reach e.2.fragment.states s a := by
  intro ds
  have hok : ((ofDefinitions ds).toOption.any fun r =>
      (ds.any fun d => (d.exclusions r).any fun _ => true) &&
        ds.all fun d => (d.exclusions r).all fun u => u.isEmpty = false) = true := by
    cbv
  obtain ⟨r, hr, hcomputed⟩ := (Option.any_eq_true _ _).mp hok
  obtain ⟨hany, hall⟩ := (Bool.and_eq_true _ _).mp hcomputed
  have hregistry := toOption_eq_some_iff.mp hr
  have hexcludes : ∃ d ∈ ds, ∃ s, d.Excludes r s := by
    obtain ⟨d, hd, hsome⟩ := List.any_eq_true.mp hany
    obtain ⟨u, hu, -⟩ := List.any_eq_true.mp hsome
    exact ⟨d, hd, _, Definition.excludes_iff_mem_exclusions.mpr ⟨u, hu, rfl⟩⟩
  have hexclusions : ∀ d ∈ ds, ∀ s, d.Excludes r s → s.Nonempty := by
    intro d hd s hs
    obtain ⟨u, hu, rfl⟩ := Definition.excludes_iff_mem_exclusions.mp hs
    have hne := of_decide_eq_true (List.all_eq_true.mp (List.all_eq_true.mp hall d hd) u hu)
    exact SortedSet.isEmpty_eq_false_iff.mp hne
  exact ⟨r, hregistry, names_of_ofDefinitions hregistry, hexcludes, hexclusions,
    reach_of_ofDefinitions hregistry hexclusions⟩

end Registry

end LanguageSpec
