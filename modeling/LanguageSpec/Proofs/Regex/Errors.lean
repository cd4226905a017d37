import LanguageSpec.Proofs.Regex.Moves

/-!
# Errors of single tokens

What the reader can refuse a token for. All these errors point at the token, but for the one of an
empty range, which points at its low end.
-/

namespace LanguageSpec.Regex

/-- All errors that a token can be refused for have a property. -/
structure Blamed (P : Error → Prop) (t : Token) : Prop where
  malformed : ∀ what, P (.malformed what t.pos)
  nestedExclusion : P (.misstructured .nestedExclusion t.pos)
  undefinedReference : t.kind = .reference → P (.undefinedReference (referenceName t) t.pos)
  notACharacterClass : t.kind = .reference → P (.notACharacterClass (referenceName t) t.pos)

/-- The errors at the low end of a range have a property. -/
def Members.Blamed (P : Error → Prop) : Members → Prop
  | .ready _ => True
  | .low _ _ pos => ∀ what, P (.malformed what pos)
  | .range _ _ pos => ∀ what, P (.malformed what pos)

def Focus.Blamed (P : Error → Prop) : Focus → Prop
  | .members _ m => m.Blamed P
  | _ => True

variable {registry : Registry} {P : Error → Prop} {t : Token}

theorem failsWith_unexpected (ht : Blamed P t) : P (unexpected t) := by
  unfold unexpected
  split <;> exact ht.malformed _

theorem failsWith_resolve (ht : Blamed P t) (hkind : t.kind = .reference) :
    FailsWith P (resolve registry t) := by
  unfold resolve
  split
  · exact failsWith_ok _
  · exact failsWith_error_iff.mpr (ht.undefinedReference hkind)

theorem failsWith_resolveClass (ht : Blamed P t) (hkind : t.kind = .reference) :
    FailsWith P (resolveClass registry t) := by
  refine (failsWith_resolve ht hkind).bind fun x => ?_
  split
  · exact failsWith_ok _
  · exact failsWith_error_iff.mpr (ht.notACharacterClass hkind)

namespace Members

theorem failsWith_step {m : Members} (hm : m.Blamed P) (ht : Regex.Blamed P t) :
    FailsWith P (m.step t) := by
  have hunexpected := failsWith_error_iff (α := Members).mpr (failsWith_unexpected ht)
  unfold step
  split
  · split
    · exact hunexpected
    · split
      · exact failsWith_ok _
      · exact failsWith_error_iff.mpr (hm _)
  · exact hunexpected
  · split
    · exact failsWith_ok _
    · exact hunexpected
  · exact failsWith_ok _
  · exact failsWith_error_iff.mpr (ht.malformed _)
  · exact failsWith_error_iff.mpr (ht.malformed _)
  · exact hunexpected

theorem failsWith_close (m : Members) (ht : Regex.Blamed P t) : FailsWith P (m.close t) := by
  unfold close
  split
  · exact failsWith_error_iff.mpr (failsWith_unexpected ht)
  · split
    · exact failsWith_error_iff.mpr (ht.malformed _)
    · exact failsWith_ok _

theorem Blamed.move {m m' : Members} (h : m.Blamed P) (ht : Regex.Blamed P t)
    (hm : m.Move t m') : m'.Blamed P := by
  cases hm with
  | low hm ht' hc => exact ht.malformed
  | dash ht' => exact h
  | high ht' hc hle => trivial

end Members

theorem Focus.AtMembers.blamed {focus : Focus} {purpose : Purpose} {m : Members}
    (hf : focus.AtMembers purpose m) (h : focus.Blamed P) : m.Blamed P := by
  cases hf with
  | opened => trivial
  | members purpose m => exact h
  | operandOpened e => trivial

namespace Reader

theorem failsWith_stepItems (r : Reader) (before : Regex) (ht : Blamed P t) :
    FailsWith P (r.stepItems registry before t) := by
  have hunexpected := failsWith_error_iff (α := Reader).mpr (failsWith_unexpected ht)
  unfold stepItems
  split
  · split
    · exact failsWith_ok _
    · exact hunexpected
  · exact failsWith_ok _
  · exact (failsWith_resolve ht ‹_›).bind fun x => failsWith_ok _
  · exact failsWith_ok _
  · exact failsWith_ok _
  · split
    · exact hunexpected
    · exact failsWith_ok _
  · exact failsWith_ok _
  · exact hunexpected

theorem failsWith_stepRepetition (r : Reader) (last : Pending) (times : Repetition)
    (ht : Blamed P t) : FailsWith P (r.stepRepetition last times t) := by
  unfold stepRepetition
  split
  · exact failsWith_error_iff.mpr (failsWith_unexpected ht)
  · exact failsWith_ok _

theorem failsWith_stepMembers (r : Reader) (purpose : Purpose) {m : Members} (hm : m.Blamed P)
    (ht : Blamed P t) : FailsWith P (r.stepMembers purpose m t) := by
  unfold stepMembers
  split
  · refine (m.failsWith_close ht).bind fun s => ?_
    split <;> exact failsWith_ok _
  · exact (Members.failsWith_step hm ht).bind fun m' => failsWith_ok _

/-- A step fails with an error of its token, or at the low end of a range. -/
theorem failsWith_step {r : Reader} (hr : r.focus.Blamed P) (ht : Blamed P t) :
    FailsWith P (r.step registry t) := by
  have hunexpected := failsWith_error_iff (α := Reader).mpr (failsWith_unexpected ht)
  -- by the rows of `step`: each moves on, refuses the token itself, or leaves it to a part
  unfold step
  split
  · exact r.failsWith_stepRepetition _ _ ht
  · exact r.failsWith_stepRepetition _ _ ht
  · exact r.failsWith_stepItems _ ht
  · exact failsWith_ok _
  · exact r.failsWith_stepMembers _ trivial ht
  · rename_i hfocus
    rw [hfocus] at hr
    exact r.failsWith_stepMembers _ hr ht
  · exact failsWith_ok _
  · exact hunexpected
  · exact failsWith_ok _
  · exact (failsWith_resolveClass ht ‹_›).bind fun s => failsWith_ok _
  · exact hunexpected
  · exact failsWith_error_iff.mpr ht.nestedExclusion
  · exact r.failsWith_stepMembers _ trivial ht

theorem blamed_of_move {r r' : Reader} (hr : r.focus.Blamed P) (ht : Blamed P t)
    (hm : Move registry r t r') : r'.focus.Blamed P := by
  cases hm with
  | member hf hm => exact (hf.blamed hr).move ht hm
  | caret ht' => trivial
  | @closeBracket _ _ _ purpose _ _ hf ht' hm hne => cases purpose <;> trivial
  | _ => trivial

/-- Reading fails with an error of one of the tokens. -/
theorem failsWith_foldlM {ts : List Token} (hts : ∀ t ∈ ts, Blamed P t) :
    FailsWith P (ts.foldlM (step registry) initial) := by
  refine FailsWith.foldlM_of_invariant (Q := fun r => r.focus.Blamed P) (fun r hr t ht => ?_)
    trivial
  exact ⟨failsWith_step hr (hts t ht),
    fun r' hr' => blamed_of_move hr (hts t ht) (step_eq_ok_iff.mp hr')⟩

end Reader

end LanguageSpec.Regex
