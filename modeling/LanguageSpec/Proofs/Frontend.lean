import LanguageSpec.Proofs.Document.Places
import LanguageSpec.Proofs.Regex.Places
import LanguageSpec.Proofs.Registry

/-!
# Errors point into the text

Whatever is wrong with a document, but for a conflict, is reported at a place of its text, and an
error about a name is reported where the name stands.
-/

namespace LanguageSpec

open Document (lineFeed_notMem_of_isName)

/-- A non-terminal stands in a text as it is named. -/
theorem Document.Token.Stands.located {text : String} {t : Document.Token}
    (h : Token.Stands text t) (hkind : t.kind = .nonTerminal) :
    (Error.undefinedReference t.text t.pos).Located text.toList := by
  have hmarks := h.marks_text (by simp [hkind]) (by simp [hkind])
  have hform := h.form
  rw [hkind] at hform
  refine ⟨hmarks.inLines, .inr ?_⟩
  generalize t.text.toList = word at hmarks hform
  cases hform with
  | @nonTerminal name hname =>
      have hline := lineFeed_notMem_of_isName (by decide) hname
      exact ⟨⟨name, rfl⟩, hmarks.spells (by simpa using hline)⟩

namespace Registry

theorem failsWith_addDefinition {text : String} {d : Definition} (r : Registry)
    (h : d.IsFrom (Document.Token.Stands text)) :
    FailsWith (Error.Located text.toList) (r.addDefinition d) := by
  obtain ⟨-, hname, hkind, hregex⟩ := h
  have hmarks := hregex.marks_text (by simp [hkind]) (by simp [hkind])
  refine (Recognizer.failsWith_ofText hmarks).bind fun x => ?_
  split
  · exact failsWith_ok _
  · exact failsWith_error_iff.mpr hname.place.inLines

theorem failsWith_ofDefinitions {text : String} {ds : List Definition}
    (h : ∀ d ∈ ds, d.IsFrom (Document.Token.Stands text)) :
    FailsWith (Error.Located text.toList) (ofDefinitions ds) :=
  FailsWith.foldlM_of_invariant (Q := fun _ => True)
    (fun r _ d hd => ⟨r.failsWith_addDefinition (h d hd), fun _ _ => trivial⟩) trivial

end Registry

theorem Grammar.failsWith_ofRules {text : String} {rules : List Rule}
    (h : ∀ r ∈ rules, r.IsFrom (Document.Token.Stands text)) :
    FailsWith (Error.Located text.toList) (ofRules rules) := by
  unfold ofRules
  split
  · rename_i t ht
    obtain ⟨s, hs, hnonTerminal⟩ := List.mem_filterMap.mp (List.mem_of_find?_eq_some ht)
    obtain ⟨r, hr, hs⟩ := List.mem_flatMap.mp hs
    obtain ⟨hproper, hstands⟩ := (h r hr).body s hs
    cases s with
    | terminal u => cases hnonTerminal
    | nonTerminal u =>
        obtain rfl := Option.some.inj hnonTerminal
        exact failsWith_error_iff.mpr (hstands.located hproper)
  · exact failsWith_ok _

namespace Frontend

theorem failsWith_ofText (text : String) :
    FailsWith (Error.Located text.toList) (ofText text) := by
  have houtline : FailsWith (Error.Located text.toList) (Document.Outline.ofText text) :=
    Document.Outline.failsWith_ofText text fun _ _ hmarks => hmarks.inLines
  refine houtline.bind_of_ok fun o ho => ?_
  obtain ⟨hdefinitions, hrules⟩ := Document.Outline.isFrom_of_ofText ho
  refine (Registry.failsWith_ofDefinitions hdefinitions).bind fun registry => ?_
  refine (Grammar.failsWith_ofRules hrules).bind fun g => ?_
  refine FailsWith.bind ?_ fun table => failsWith_ok _
  unfold ParseTable.ofLookahead
  dsimp only
  split
  · exact failsWith_error_iff.mpr trivial
  · exact failsWith_ok _

/-- An error that is no conflict has a position, which is a place of the text by lines and
characters. An error about a reference has the name there, with a dollar sign in front if it refers
to a definition, and as it is if it is a non-terminal in brackets. -/
theorem ofText_error_position {text : String} {e : Error} (h : ofText text = .error e) :
    ((∃ nonTerminal terminal existing incoming,
        e = .conflict nonTerminal terminal existing incoming) ∨
      ∃ p, e.position? = some p ∧ p.InLines text.toList) ∧
    (∀ name p, e = .undefinedReference name p → p.Spells text.toList ('$' :: name.toList) ∨
      (∃ inner, name.toList = '<' :: inner ++ ['>']) ∧ p.Spells text.toList name.toList) ∧
    ∀ name p, e = .notACharacterClass name p → p.Spells text.toList ('$' :: name.toList) := by
  have hlocated := failsWith_ofText text e h
  refine ⟨?_, ?_, ?_⟩
  · cases e with
    | malformed what pos => exact Or.inr ⟨pos, rfl, hlocated⟩
    | undefinedReference name pos => exact Or.inr ⟨pos, rfl, hlocated.1⟩
    | notACharacterClass name pos => exact Or.inr ⟨pos, rfl, hlocated.1⟩
    | conflict nonTerminal terminal existing incoming => exact Or.inl ⟨_, _, _, _, rfl⟩
    | misstructured what pos => exact Or.inr ⟨pos, rfl, hlocated⟩
  · rintro name pos rfl
    exact hlocated.2
  · rintro name pos rfl
    exact hlocated.2

/-- A reference behind blanks that are no ASCII characters, on the line behind a comment with a
letter that is none. -/
theorem ofText_error_position_blanks :
    let text := "-- é\n$A \u00a0$B\n%%\n"
    let e : Error := .undefinedReference "B" ⟨2, 5⟩
    ofText text = .error e ∧
      ((∃ nonTerminal terminal existing incoming,
          e = .conflict nonTerminal terminal existing incoming) ∨
        ∃ p, e.position? = some p ∧ p.InLines text.toList) ∧
      (∀ name p, e = .undefinedReference name p → p.Spells text.toList ('$' :: name.toList) ∨
        (∃ inner, name.toList = '<' :: inner ++ ['>']) ∧ p.Spells text.toList name.toList) ∧
      ∀ name p, e = .notACharacterClass name p →
        p.Spells text.toList ('$' :: name.toList) := by
  intro text e
  have herror : ofText text = .error e := by cbv
  exact ⟨herror, ofText_error_position herror⟩

end Frontend

end LanguageSpec
