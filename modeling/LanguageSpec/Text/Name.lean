/-!
# Names

The letters of a name: ASCII letters, digits and the underscore, a digit not being the first.
-/

namespace LanguageSpec.Text

def isNameStart (c : Char) : Bool := c.isAlpha || c == '_'

def isNameRest (c : Char) : Bool := c.isAlphanum || c == '_'

theorem isNameRest_of_isNameStart {c : Char} (h : isNameStart c = true) : isNameRest c = true := by
  simp only [isNameStart, isNameRest, Char.isAlphanum, Bool.or_eq_true] at h ⊢
  exact h.imp_left Or.inl

/-- Whether a text is a name, given the letters that it may go on with. -/
def isName (isRest : Char → Bool) : List Char → Bool
  | [] => false
  | c :: cs => isNameStart c && cs.all isRest

theorem isName_eq_true_iff {isRest : Char → Bool} {cs : List Char} :
    isName isRest cs = true ↔
      ∃ d ds, cs = d :: ds ∧ isNameStart d = true ∧ ∀ c ∈ ds, isRest c = true := by
  constructor
  · intro h
    cases cs with
    | nil => cases h
    | cons d ds =>
        obtain ⟨hd, hds⟩ := Bool.and_eq_true_iff.mp h
        exact ⟨d, ds, rfl, hd, List.all_eq_true.mp hds⟩
  · rintro ⟨d, ds, rfl, hd, hds⟩
    exact Bool.and_eq_true_iff.mpr ⟨hd, List.all_eq_true.mpr hds⟩

/-- All letters of a name go on with one. -/
theorem isNameRest_of_isName {cs : List Char} (h : isName isNameRest cs = true) :
    ∀ c ∈ cs, isNameRest c = true := by
  obtain ⟨d, ds, rfl, hd, hds⟩ := isName_eq_true_iff.mp h
  exact List.forall_mem_cons.mpr ⟨isNameRest_of_isNameStart hd, hds⟩

end LanguageSpec.Text
