import LanguageSpec.Proofs.Regex.Meaning

/-!
# Named character classes

The character set that is kept beside an automaton is the set of the words of one character that it
accepts, and it accepts no others. So an exclusion from a name is an exclusion from its language.
-/

namespace LanguageSpec

/-- Whether the character set of a recognizer, if it has one, is what its automaton accepts. -/
def Recognizer.Classified (x : Recognizer) : Prop :=
  ∀ s, x.charClass = some s → x.fragment.language = Fragment.letters {c | c ∈ s}

def Registry.Classified (r : Registry) : Prop :=
  ∀ name x, r.get? name = some x → x.Classified

namespace Regex

theorem Atom.language_of_charClass? {a : Atom} {s : CharSet} (h : a.charClass? = some s)
    (ha : ∀ x, a = .named x → x.Classified) : a.language = Fragment.letters {c | c ∈ s} := by
  cases a with
  | char c => cases h
  | oneOf s =>
      cases h
      rfl
  | named x => exact ha x rfl s h

/-- A regex with a character set is one class, whose characters are its words. -/
theorem language_of_charClass? {r : Regex} {s : CharSet} (h : r.charClass? = some s)
    (hr : r.Refers Recognizer.Classified) : r.language = Fragment.letters {c | c ∈ s} := by
  unfold charClass? at h
  split at h
  · rename_i a
    have hbranches : Branches.new.append a.language = .single a.language := by
      simp [Branches.append, Branches.new, Branches.current, Branches.single]
    rw [language, branches, branches, repeated, hbranches, Branches.whole_single]
    exact a.language_of_charClass? h hr.2
  · cases h

end Regex

theorem Recognizer.classified_of_ofTokens {registry : Registry} {origin : Position}
    {ts : List Regex.Token} {x : Recognizer} (hsound : registry.Sound)
    (hclassified : registry.Classified) (h : ofTokens registry origin ts = .ok x) :
    x.Classified := by
  intro s hs
  obtain ⟨r, hr, hfinished⟩ := finished_of_ofTokens hsound h
  obtain ⟨r', f, hr', -, rfl⟩ := ofTokens_eq_ok_iff.mp h
  obtain rfl : r = r' := Except.ok.inj (hr.symm.trans hr')
  rw [hfinished.language_eq]
  exact Regex.language_of_charClass? hs (Regex.refers_of_ofTokens hr hclassified)

theorem Registry.classified_of_ofDefinitions {ds : List Definition} {r : Registry}
    (h : ofDefinitions ds = .ok r) : r.Classified := by
  refine forall_of_ofDefinitions (P := Recognizer.Classified) h ?_
  intro d _ front before ts x hfront _ hbefore _ hx
  exact Recognizer.classified_of_ofTokens (sound_of_ofDefinitions hfront) hbefore hx

end LanguageSpec
