import LanguageSpec.Proofs.Regex.Atoms
import LanguageSpec.Proofs.Regex.Replay
import LanguageSpec.Proofs.Registry

/-!
# Compiled regexes mean what they spell

A registry that was made from definitions has automata that can be used as atoms. So the automaton
of a compiled regex accepts the language that its tokens denote.
-/

namespace LanguageSpec

/-! ## Recognizers -/

namespace Recognizer

variable {registry : Registry} {origin : Position} {ts : List Regex.Token} {x : Recognizer}

theorem ofTokens_eq_ok_iff : ofTokens registry origin ts = .ok x ↔
    ∃ r f, Regex.ofTokens registry origin ts = .ok r ∧ r.fragment? = some f ∧
      x = ⟨f.finalize, r.charClass?⟩ := by
  unfold ofTokens
  rw [bind_eq_ok_iff]
  refine exists_congr fun r => ?_
  cases hf : r.fragment? with
  | none => simp [Regex.recognizer, hf]
  | some f => simp [Regex.recognizer, hf, eq_comm]

/-- A recognizer is made from a fragment that could still be appended to. -/
theorem unfinished_of_ofTokens (hregistry : registry.Sound)
    (h : ofTokens registry origin ts = .ok x) :
    ∃ r f, Regex.ofTokens registry origin ts = .ok r ∧ r.fragment? = some f ∧
      f.Unfinished r.branches ∧ x = ⟨f.finalize, r.charClass?⟩ := by
  obtain ⟨r, f, hr, hf, hx⟩ := ofTokens_eq_ok_iff.mp h
  obtain ⟨f', hf', hunfinished⟩ :=
    r.fragment?_unfinished (Regex.refers_of_ofTokens hr hregistry)
  obtain rfl := Option.some.inj (hf.symm.trans hf')
  exact ⟨r, f, hr, hf, hunfinished, hx⟩

theorem finished_of_ofTokens (hregistry : registry.Sound)
    (h : ofTokens registry origin ts = .ok x) :
    ∃ r, Regex.ofTokens registry origin ts = .ok r ∧ x.fragment.Finished r.branches := by
  obtain ⟨r, f, hr, -, hunfinished, rfl⟩ := unfinished_of_ofTokens hregistry h
  exact ⟨r, hr, hunfinished.finished⟩

end Recognizer

namespace Registry

theorem Sound.addDefinition {r r' : Registry} {d : Definition} (h : r.Sound)
    (hd : r.addDefinition d = .ok r') : r'.Sound := by
  refine forall_of_addDefinition hd h ?_
  intro ts x _ hx
  obtain ⟨regex, -, hfinished⟩ := Recognizer.finished_of_ofTokens h hx
  exact ⟨_, hfinished⟩

/-- All entries of a registry that was made from definitions can be used as atoms. -/
theorem sound_of_ofDefinitions {ds : List Definition} {r : Registry}
    (h : ofDefinitions ds = .ok r) : r.Sound := by
  refine foldlM_induction (P := fun _ r => Sound r) ?_ ?_ h
  · intro name x hx
    simp at hx
  · intro _ r d r' hr hd
    exact hr.addDefinition hd

end Registry

namespace Recognizer

/-- The automaton of a compiled regex has an accept state, and the words that lead to it from the
start state are the only language that the tokens of the regex denote. -/
theorem ofTokens_denotes {ds : List Definition} {registry : Registry} {origin : Position}
    {ts : List Regex.Token} {x : Recognizer} (hregistry : Registry.ofDefinitions ds = .ok registry)
    (hx : ofTokens registry origin ts = .ok x) :
    x.fragment.isFinalized = true ∧
      ∀ l, Regex.Denotes registry .regex ts l ↔ l = x.fragment.language := by
  obtain ⟨r, hr, hfinished⟩ :=
    finished_of_ofTokens (Registry.sound_of_ofDefinitions hregistry) hx
  refine ⟨by rw [Fragment.isFinalized, hfinished.accept, Option.isSome_some], fun l => ?_⟩
  rw [hfinished.language_eq]
  exact Regex.denotes_iff hr l

/-- Digits once or more, or nothing: a reference, a repetition and an empty branch. -/
theorem ofTokens_denotes_digits : ∃ registry x,
    Registry.ofDefinitions [⟨⟨.definition, "D", .first⟩, ⟨.regex, "[0-9]", .first⟩⟩] =
        .ok registry ∧
      ofTokens registry .first
          [⟨.reference, "$D", .first⟩, ⟨.plus, "+", .first⟩, ⟨.bar, "|", .first⟩] = .ok x ∧
      x.fragment.isFinalized = true ∧
      ∀ l, Regex.Denotes registry .regex
          [⟨.reference, "$D", .first⟩, ⟨.plus, "+", .first⟩, ⟨.bar, "|", .first⟩] l ↔
        l = x.fragment.language := by
  have hok : (Registry.ofDefinitions [⟨⟨.definition, "D", .first⟩, ⟨.regex, "[0-9]", .first⟩⟩] >>=
      fun registry => ofTokens registry .first
        [⟨.reference, "$D", .first⟩, ⟨.plus, "+", .first⟩, ⟨.bar, "|", .first⟩]).isOk = true := by
    cbv
  obtain ⟨x, hrun⟩ := exists_eq_ok_of_isOk hok
  obtain ⟨registry, hregistry, hx⟩ := bind_eq_ok_iff.mp hrun
  exact ⟨registry, x, hregistry, hx, ofTokens_denotes hregistry hx⟩

end Recognizer

end LanguageSpec
