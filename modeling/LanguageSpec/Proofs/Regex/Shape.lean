import LanguageSpec.Proofs.Fragment.Shape
import LanguageSpec.Proofs.Regex.Purity

/-!
# The shape of compiled automata

Atoms are read as printable characters, sets of these, or automata that have their shape already. So
a compiled regex has it, and with it all entries of a registry.
-/

namespace LanguageSpec

namespace Regex

open Fragment (Tidy tidy_ofSet)

variable {registry : Registry} {ts : List Token} {a : Atom}

theorem inAlphabet_of_literal? {text : String} {c : Char} (h : literal? text = some c) :
    CharSet.inAlphabet c = true := by
  unfold literal? bare? escaped? at h
  split at h
  · split at h
    · rename_i hc
      obtain rfl := Option.some.inj h
      rcases hc with rfl | ⟨hc, -⟩
      · decide
      · exact hc
    · cases h
  · split at h
    · rename_i hc
      obtain rfl := Option.some.inj h
      have hall : escapable.all CharSet.inAlphabet = true := by decide +kernel
      exact List.all_eq_true.mp hall _ (List.contains_iff_mem.mp hc)
    · cases h
  · cases h

/-- What an atom is read from makes its automaton tidy if the registry's automata are. -/
theorem ReadsAtom.tidy_fragment (h : ReadsAtom registry ts a) (hprintable : registry.Printable)
    (htidy : ∀ name x, registry.get? name = some x → Tidy x.fragment.states) :
    Tidy a.fragment.states := by
  cases h with
  | token h =>
      cases h with
      | literal ht hc =>
          apply tidy_ofSet
          intro d hd
          obtain rfl := List.mem_singleton.mp (SortedSet.mem_ofList.mp hd)
          exact inAlphabet_of_literal? hc
      | dot ht => exact tidy_ofSet fun c => inAlphabet_of_mem_dot
      | reference ht hx => exact htidy _ _ hx
  | charClass h => exact tidy_ofSet (h.inAlphabet hprintable)

end Regex

namespace Recognizer

variable {registry : Registry} {origin : Position} {ts : List Regex.Token} {x : Recognizer}

theorem shaped_of_ofTokens (hsound : registry.Sound) (hprintable : registry.Printable)
    (hshaped : ∀ name x, registry.get? name = some x → x.fragment.Shaped)
    (h : ofTokens registry origin ts = .ok x) : x.fragment.Shaped := by
  obtain ⟨r, f, hr, hf, hunfinished, rfl⟩ := unfinished_of_ofTokens hsound h
  have hatoms : r.Forall fun a => Fragment.Tidy a.fragment.states := by
    refine (Regex.forall_of_ofTokens hr).mono ?_
    rintro a ⟨us, -, hread⟩
    exact hread.tidy_fragment hprintable fun name y hy =>
      ⟨(hshaped name y hy).nodup, (hshaped name y hy).printable⟩
  exact hunfinished.shaped_finalize (hatoms.fragment? Fragment.invariant_tidy hf)

end Recognizer

namespace Registry

variable {ds : List Definition} {r : Registry}

/-- All automata of a registry that was made from definitions have the start state 0 and, as another
one, their last state as accept state. Their edges lead to states that there are, none of them into
the start state or away from the accept state. No state has an edge twice, and letters are
printable. -/
theorem shaped_of_ofDefinitions (h : ofDefinitions ds = .ok r) :
    ∀ e ∈ r.entries, e.2.fragment.Shaped := by
  have hget : ∀ name x, r.get? name = some x → x.fragment.Shaped := by
    refine forall_of_ofDefinitions (P := fun x => x.fragment.Shaped) h ?_
    intro d _ front before ts x hfront _ hbefore _ hx
    apply Recognizer.shaped_of_ofTokens _ _ hbefore hx
    · exact sound_of_ofDefinitions hfront
    · exact printable_of_ofDefinitions hfront
  intro e he
  exact hget e.1 e.2 (get?_of_mem he)

/-- A repeated group with a repeated reference and an empty branch. -/
theorem shaped_of_ofDefinitions_digits : ∃ r,
    ofDefinitions [⟨⟨.definition, "D", .first⟩, ⟨.regex, "[0-9]", .first⟩⟩,
        ⟨⟨.definition, "N", .first⟩, ⟨.regex, "(x$D+|)*", .first⟩⟩] = .ok r ∧
      r.names = ["D", "N"] ∧ ∀ e ∈ r.entries, e.2.fragment.Shaped := by
  have hok : (ofDefinitions [⟨⟨.definition, "D", .first⟩, ⟨.regex, "[0-9]", .first⟩⟩,
      ⟨⟨.definition, "N", .first⟩, ⟨.regex, "(x$D+|)*", .first⟩⟩]).isOk = true := by
    cbv
  obtain ⟨r, hr⟩ := exists_eq_ok_of_isOk hok
  exact ⟨r, hr, names_of_ofDefinitions hr, shaped_of_ofDefinitions hr⟩

end Registry

end LanguageSpec
