import LanguageSpec.Proofs.Regex.Language

/-!
# The steps of the reader

All steps that reading a regex can take. What a step keeps is proved from these cases and not from
the definition of a step.
-/

namespace LanguageSpec.Regex

/-! ## Members -/

namespace Members

def IsRange : Members → Prop
  | .range .. => True
  | _ => False

theorem IsRange.exists {m : Members} (h : m.IsRange) : ∃ s lo pos, m = .range s lo pos := by
  cases m with
  | ready s => exact h.elim
  | low s lo pos => exact h.elim
  | range s lo pos => exact ⟨s, lo, pos, rfl⟩

inductive Move : Members → Token → Members → Prop
  | low {m : Members} {t : Token} {c : Char} (hm : ¬ m.IsRange) (ht : t.kind = .literal)
      (hc : member? t.text = some c) : Move m t (.low m.set c t.pos)
  | dash {s : CharSet} {lo : Char} {pos : Position} {t : Token} (ht : t.kind = .dash) :
      Move (.low s lo pos) t (.range s lo pos)
  | high {s : CharSet} {lo hi : Char} {pos : Position} {t : Token} (ht : t.kind = .literal)
      (hc : member? t.text = some hi) (hle : lo ≤ hi) :
      Move (.range s lo pos) t (.ready (s.insertAll (CharSet.interval lo hi)))

theorem step_eq_ok_iff {m m' : Members} {t : Token} : m.step t = .ok m' ↔ Move m t m' := by
  constructor
  · intro h
    unfold step at h
    split at h
    · rename_i ht
      split at h
      · cases h
      · rename_i hc
        split at h
        · rename_i hins
          cases h
          unfold CharSet.insertRange? at hins
          split at hins
          · cases hins
            exact .high ht hc ‹_›
          · cases hins
        · cases h
    · cases h
    · rename_i hnot ht
      split at h
      · rename_i hc
        cases h
        refine .low (fun hr => ?_) ht hc
        obtain ⟨s, lo, pos, rfl⟩ := hr.exists
        exact hnot s lo pos rfl
      · cases h
    · cases h
      exact .dash ‹_›
    all_goals cases h
  · intro h
    cases h with
    | low hm ht hc =>
        cases m with
        | ready s => simp [step, ht, hc]
        | low s lo pos => simp [step, ht, hc]
        | range s lo pos => exact absurd trivial hm
    | dash ht => simp [step, ht]
    | high ht hc hle => simp [step, ht, hc, CharSet.insertRange?, hle]

theorem close_eq_ok_iff {m : Members} {t : Token} {s : CharSet} :
    m.close t = .ok s ↔ ¬ m.IsRange ∧ s = m.set ∧ s.isEmpty = false := by
  cases m with
  | range s lo pos => simp [close, IsRange]
  | ready u =>
      simp only [close, IsRange, not_false_eq_true, true_and]
      split <;> grind
  | low u lo pos =>
      simp only [close, IsRange, not_false_eq_true, true_and]
      split <;> grind

end Members

/-! ## Items and brackets -/

inductive TokenAtom (registry : Registry) (t : Token) : Atom → Prop
  | literal {c : Char} (ht : t.kind = .literal) (hc : literal? t.text = some c) :
      TokenAtom registry t (.char c)
  | dot (ht : t.kind = .dot) : TokenAtom registry t (.oneOf .dot)
  | reference {x : Recognizer} (ht : t.kind = .reference)
      (hx : registry.get? (referenceName t) = some x) : TokenAtom registry t (.named x)

/-- The members that have been read, if the reader may read one, and what they are for. -/
inductive Focus.AtMembers : Focus → Purpose → Members → Prop
  | opened : AtMembers .opened .listed (.ready ∅)
  | members (purpose : Purpose) (m : Members) : AtMembers (.members purpose m) purpose m
  | operandOpened (e : CharSet) : AtMembers (.operandOpened e) (.operand e) (.ready ∅)

theorem Focus.AtMembers.ne_items {focus : Focus} {purpose : Purpose} {m : Members}
    (h : focus.AtMembers purpose m) (last : Pending) : focus ≠ .items last := by
  rintro rfl
  cases h

/-- Where the reader goes when it has read all members. -/
def Purpose.complete (s : CharSet) : Purpose → Focus
  | .listed => .items (.atom (.oneOf s))
  | .excluded => .excluded s
  | .operand e => .items (.atom (.oneOf (s.difference e)))

namespace Reader

inductive Move (registry : Registry) : Reader → Token → Reader → Prop
  | atom {outer : List Regex} {here : Regex} {last : Pending} {t : Token} {a : Atom}
      (ha : TokenAtom registry t a) :
      Move registry ⟨outer, here, .items last⟩ t
        ⟨outer, last.settle here none, .items (.atom a)⟩
  | openBracket {outer : List Regex} {here : Regex} {last : Pending} {t : Token}
      (ht : t.kind = .openBracket) :
      Move registry ⟨outer, here, .items last⟩ t ⟨outer, last.settle here none, .opened⟩
  | openGroup {outer : List Regex} {here : Regex} {last : Pending} {t : Token}
      (ht : t.kind = .openGroup) :
      Move registry ⟨outer, here, .items last⟩ t
        ⟨last.settle here none :: outer, .empty, .items .none⟩
  | closeGroup {outer : List Regex} {before here : Regex} {last : Pending} {t : Token}
      (ht : t.kind = .closeGroup) :
      Move registry ⟨before :: outer, here, .items last⟩ t
        ⟨outer, before, .items (.group (last.settle here none))⟩
  | bar {outer : List Regex} {here : Regex} {last : Pending} {t : Token} (ht : t.kind = .bar) :
      Move registry ⟨outer, here, .items last⟩ t
        ⟨outer, (last.settle here none).bar, .items .none⟩
  | star {outer : List Regex} {here : Regex} {last : Pending} {t : Token} (hlast : last ≠ .none)
      (ht : t.kind = .star) :
      Move registry ⟨outer, here, .items last⟩ t
        ⟨outer, last.settle here (some .star), .items .none⟩
  | plus {outer : List Regex} {here : Regex} {last : Pending} {t : Token} (hlast : last ≠ .none)
      (ht : t.kind = .plus) :
      Move registry ⟨outer, here, .items last⟩ t
        ⟨outer, last.settle here (some .plus), .items .none⟩
  | caret {outer : List Regex} {here : Regex} {t : Token} (ht : t.kind = .caret) :
      Move registry ⟨outer, here, .opened⟩ t ⟨outer, here, .members .excluded (.ready ∅)⟩
  | member {outer : List Regex} {here : Regex} {focus : Focus} {purpose : Purpose}
      {m m' : Members} {t : Token} (hf : focus.AtMembers purpose m) (hm : m.Move t m') :
      Move registry ⟨outer, here, focus⟩ t ⟨outer, here, .members purpose m'⟩
  | closeBracket {outer : List Regex} {here : Regex} {focus : Focus} {purpose : Purpose}
      {m : Members} {t : Token} (hf : focus.AtMembers purpose m) (ht : t.kind = .closeBracket)
      (hm : ¬ m.IsRange) (hne : m.set.isEmpty = false) :
      Move registry ⟨outer, here, focus⟩ t ⟨outer, here, purpose.complete m.set⟩
  | inWord {outer : List Regex} {here : Regex} {s : CharSet} {t : Token} (ht : t.kind = .inWord) :
      Move registry ⟨outer, here, .excluded s⟩ t ⟨outer, here, .operand s⟩
  | operandBracket {outer : List Regex} {here : Regex} {s : CharSet} {t : Token}
      (ht : t.kind = .openBracket) :
      Move registry ⟨outer, here, .operand s⟩ t ⟨outer, here, .operandOpened s⟩
  | operandReference {outer : List Regex} {here : Regex} {e s : CharSet} {t : Token}
      {x : Recognizer} (ht : t.kind = .reference)
      (hx : registry.get? (referenceName t) = some x) (hs : x.charClass = some s) :
      Move registry ⟨outer, here, .operand e⟩ t
        ⟨outer, here, .items (.atom (.oneOf (s.difference e)))⟩

variable {registry : Registry} {t : Token}

/-- Within a class the reader changes what it is about and nothing else. -/
theorem Move.only_focus {outer : List Regex} {here : Regex} {focus : Focus} {r : Reader}
    (h : Move registry ⟨outer, here, focus⟩ t r) (hfocus : ∀ last, focus ≠ .items last) :
    ∃ focus', r = ⟨outer, here, focus'⟩ ∧ focus' ≠ .items .none := by
  cases h with
  | caret => exact ⟨_, rfl, nofun⟩
  | member => exact ⟨_, rfl, nofun⟩
  | @closeBracket _ _ _ purpose =>
      refine ⟨_, rfl, ?_⟩
      cases purpose <;> exact nofun
  | inWord => exact ⟨_, rfl, nofun⟩
  | operandBracket => exact ⟨_, rfl, nofun⟩
  | operandReference => exact ⟨_, rfl, nofun⟩
  | _ => exact absurd rfl (hfocus _)

theorem resolve_eq_ok_iff {x : Recognizer} :
    resolve registry t = .ok x ↔ registry.get? (referenceName t) = some x := by
  unfold resolve
  cases registry.get? (referenceName t) <;> simp

theorem resolveClass_eq_ok_iff {s : CharSet} : resolveClass registry t = .ok s ↔
    ∃ x, registry.get? (referenceName t) = some x ∧ x.charClass = some s := by
  unfold resolveClass
  rw [bind_eq_ok_iff]
  simp only [resolve_eq_ok_iff]
  refine exists_congr fun x => and_congr_right fun _ => ?_
  cases x.charClass <;> simp

theorem stepMembers_eq_ok_iff {outer : List Regex} {here : Regex} {focus : Focus}
    {purpose : Purpose} {m : Members} {r : Reader} :
    stepMembers ⟨outer, here, focus⟩ purpose m t = .ok r ↔
      (∃ m', m.Move t m' ∧ r = ⟨outer, here, .members purpose m'⟩) ∨
        t.kind = .closeBracket ∧ ¬ m.IsRange ∧ m.set.isEmpty = false ∧
          r = ⟨outer, here, purpose.complete m.set⟩ := by
  by_cases ht : t.kind = .closeBracket
  · have hno : ∀ m', ¬ m.Move t m' := by
      intro m' hm
      cases hm <;> simp_all
    simp only [stepMembers, ht, bind_eq_ok_iff, Members.close_eq_ok_iff, hno, false_and,
      exists_false, false_or, true_and]
    constructor
    · rintro ⟨s, ⟨hm, rfl, hne⟩, h⟩
      refine ⟨hm, hne, ?_⟩
      cases purpose <;> cases h <;> rfl
    · rintro ⟨hm, hne, rfl⟩
      refine ⟨m.set, ⟨hm, rfl, hne⟩, ?_⟩
      cases purpose <;> rfl
  · have hstep : stepMembers ⟨outer, here, focus⟩ purpose m t = (m.step t >>= fun m' =>
        .ok ⟨outer, here, .members purpose m'⟩) := by
      unfold stepMembers
      split
      · exact absurd ‹_› ht
      · rfl
    rw [hstep, bind_eq_ok_iff]
    simp only [Members.step_eq_ok_iff, ht, false_and, or_false]
    refine exists_congr fun m' => and_congr_right fun _ => ?_
    constructor
    · rintro ⟨⟩
      rfl
    · rintro rfl
      rfl

theorem move_of_stepItems {outer : List Regex} {here : Regex} {last : Pending} {r : Reader}
    (h : stepItems registry ⟨outer, here, .items last⟩ (last.settle here none) t = .ok r) :
    Move registry ⟨outer, here, .items last⟩ t r := by
  unfold stepItems at h
  split at h
  · rename_i ht
    split at h
    · cases h
      exact .atom (.literal ht ‹_›)
    · cases h
  · cases h
    exact .atom (.dot ‹_›)
  · obtain ⟨x, hx, h⟩ := bind_eq_ok_iff.mp h
    cases h
    exact .atom (.reference ‹_› (resolve_eq_ok_iff.mp hx))
  · cases h
    exact .openBracket ‹_›
  · cases h
    exact .openGroup ‹_›
  · rename_i ht
    cases outer with
    | nil => cases h
    | cons before outer =>
        cases h
        exact .closeGroup ht
  · cases h
    exact .bar ‹_›
  · cases h

theorem move_of_stepMembers {outer : List Regex} {here : Regex} {focus : Focus} {purpose : Purpose}
    {m : Members} {r : Reader} (hf : focus.AtMembers purpose m)
    (h : stepMembers ⟨outer, here, focus⟩ purpose m t = .ok r) :
    Move registry ⟨outer, here, focus⟩ t r := by
  rcases stepMembers_eq_ok_iff.mp h with ⟨m', hm, rfl⟩ | ⟨ht, hm, hne, rfl⟩
  · exact .member hf hm
  · exact .closeBracket hf ht hm hne

theorem move_of_step_items {outer : List Regex} {here : Regex} {last : Pending} {r : Reader}
    (h : step registry ⟨outer, here, .items last⟩ t = .ok r) :
    Move registry ⟨outer, here, .items last⟩ t r := by
  by_cases hstar : t.kind = .star
  · simp only [step, hstar] at h
    cases last <;> cases h
    · exact .star (by simp) hstar
    · exact .star (by simp) hstar
  · by_cases hplus : t.kind = .plus
    · simp only [step, hplus] at h
      cases last <;> cases h
      · exact .plus (by simp) hplus
      · exact .plus (by simp) hplus
    · have hitems : stepItems registry ⟨outer, here, .items last⟩ (last.settle here none) t =
          .ok r := by
        rw [← h, step]
        split <;> simp_all
      exact move_of_stepItems hitems

theorem move_of_step_operand {outer : List Regex} {here : Regex} {e : CharSet} {r : Reader}
    (h : step registry ⟨outer, here, .operand e⟩ t = .ok r) :
    Move registry ⟨outer, here, .operand e⟩ t r := by
  by_cases hopen : t.kind = .openBracket
  · simp only [step, hopen] at h
    cases h
    exact .operandBracket hopen
  · by_cases href : t.kind = .reference
    · simp only [step, href] at h
      obtain ⟨s, hs, h⟩ := bind_eq_ok_iff.mp h
      obtain ⟨x, hx, hs⟩ := resolveClass_eq_ok_iff.mp hs
      cases h
      exact .operandReference href hx hs
    · unfold step at h
      split at h <;> simp_all

/-- Every successful step is one of the moves. -/
theorem move_of_step {r r' : Reader} (h : r.step registry t = .ok r') : Move registry r t r' := by
  obtain ⟨outer, here, focus⟩ := r
  cases focus with
  | items last => exact move_of_step_items h
  | opened =>
      by_cases hcaret : t.kind = .caret
      · simp only [step, hcaret] at h
        cases h
        exact .caret hcaret
      · have hmembers : stepMembers ⟨outer, here, .opened⟩ .listed (.ready ∅) t = .ok r' := by
          rw [← h, step]
          split <;> simp_all
        exact move_of_stepMembers .opened hmembers
  | members purpose m => exact move_of_stepMembers (.members purpose m) h
  | excluded s =>
      by_cases hin : t.kind = .inWord
      · simp only [step, hin] at h
        cases h
        exact .inWord hin
      · unfold step at h
        split at h <;> simp_all
  | operand e => exact move_of_step_operand h
  | operandOpened e =>
      by_cases hcaret : t.kind = .caret
      · simp only [step, hcaret] at h
        cases h
      · have hmembers : stepMembers ⟨outer, here, .operandOpened e⟩ (.operand e) (.ready ∅) t =
            .ok r' := by
          rw [← h, step]
          split <;> simp_all
        exact move_of_stepMembers (.operandOpened e) hmembers

theorem step_of_atMembers {outer : List Regex} {here : Regex} {focus : Focus} {purpose : Purpose}
    {m : Members} (hf : focus.AtMembers purpose m) (ht : t.kind ≠ .caret) :
    step registry ⟨outer, here, focus⟩ t = stepMembers ⟨outer, here, focus⟩ purpose m t := by
  cases hf with
  | opened =>
      rw [step]
      split <;> simp_all
  | members purpose m => rfl
  | operandOpened e =>
      rw [step]
      split <;> simp_all

theorem step_of_move {r r' : Reader} (h : Move registry r t r') : r.step registry t = .ok r' := by
  cases h with
  | atom ha =>
      cases ha with
      | literal ht hc => simp [step, stepItems, ht, hc]
      | dot ht => simp [step, stepItems, ht]
      | reference ht hx =>
          simp only [step, stepItems, ht]
          exact bind_eq_ok_iff.mpr ⟨_, resolve_eq_ok_iff.mpr hx, rfl⟩
  | openBracket ht => simp [step, stepItems, ht]
  | openGroup ht => simp [step, stepItems, ht]
  | closeGroup ht => simp [step, stepItems, ht]
  | bar ht => simp [step, stepItems, ht]
  | star hlast ht =>
      rename_i last
      cases last <;> simp_all [step, stepRepetition]
  | plus hlast ht =>
      rename_i last
      cases last <;> simp_all [step, stepRepetition]
  | caret ht => simp [step, ht]
  | member hf hm =>
      have hcaret : t.kind ≠ .caret := by cases hm <;> simp_all
      rw [step_of_atMembers hf hcaret]
      exact stepMembers_eq_ok_iff.mpr (.inl ⟨_, hm, rfl⟩)
  | closeBracket hf ht hm hne =>
      rw [step_of_atMembers hf (by simp [ht])]
      exact stepMembers_eq_ok_iff.mpr (.inr ⟨ht, hm, hne, rfl⟩)
  | inWord ht => simp [step, ht]
  | operandBracket ht => simp [step, ht]
  | operandReference ht hx hs =>
      simp only [step, ht]
      exact bind_eq_ok_iff.mpr ⟨_, resolveClass_eq_ok_iff.mpr ⟨_, hx, hs⟩, rfl⟩

theorem step_eq_ok_iff {r r' : Reader} : r.step registry t = .ok r' ↔ Move registry r t r' :=
  ⟨move_of_step, step_of_move⟩

end Reader

end LanguageSpec.Regex
