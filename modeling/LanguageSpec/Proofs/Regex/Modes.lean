import LanguageSpec.Regex.Token
import Mathlib.Data.List.Chain

/-!
# Modes of the regex scanner

The mode of the scanner is what matters of the tokens in front of it: whether a bracket is open, and
whether the last bracket expression is an exclusion. So every token is one that may stand behind the
tokens in front of it.
-/

namespace LanguageSpec.Regex

def Kind.isBracket : Kind → Bool
  | .openBracket => true
  | .closeBracket => true
  | _ => false

/-- Behind these tokens a bracket is open. -/
def Inside (before : List Kind) : Prop :=
  (before.filter Kind.isBracket).getLast? = some .openBracket

/-- These tokens end with a bracket expression whose first token is a caret, and with any number of
words `IN` behind it. -/
def BehindExclusion (before : List Kind) : Prop :=
  ∃ front members words,
    before = front ++ .openBracket :: .caret :: members ++ .closeBracket :: words ∧
      (∀ k ∈ members, k.isBracket = false) ∧ ∀ k ∈ words, k = .inWord

/-- Whether a token of a kind may stand behind others. -/
def Allowed (before : List Kind) : Kind → Prop
  | .literal => True
  | .closeBracket | .dash | .caret => Inside before
  | .inWord => BehindExclusion before
  | .openBracket | .bar | .star | .plus | .dot | .openGroup | .closeGroup | .reference =>
    ¬ Inside before

/-! ## Open brackets -/

variable {before members : List Kind} {kind : Kind}

theorem filter_isBracket_eq_nil (h : ∀ k ∈ members, k.isBracket = false) :
    members.filter Kind.isBracket = [] := by
  refine List.filter_eq_nil_iff.mpr fun k hk => ?_
  rw [h k hk]
  exact Bool.false_ne_true

theorem not_inside_nil : ¬ Inside [] := by simp [Inside]

theorem inside_append_of_not_isBracket (h : ∀ k ∈ members, k.isBracket = false) :
    Inside (before ++ members) ↔ Inside before := by
  rw [Inside, List.filter_append, filter_isBracket_eq_nil h, List.append_nil, Inside]

theorem inside_append_openBracket (h : ∀ k ∈ members, k.isBracket = false) :
    Inside (before ++ .openBracket :: members) := by
  rw [Inside, List.filter_append, List.filter_cons_of_pos rfl, filter_isBracket_eq_nil h,
    List.getLast?_concat]

theorem not_inside_append_closeBracket (h : ∀ k ∈ members, k.isBracket = false) :
    ¬ Inside (before ++ .closeBracket :: members) := by
  rw [Inside, List.filter_append, List.filter_cons_of_pos rfl, filter_isBracket_eq_nil h,
    List.getLast?_concat]
  decide

theorem BehindExclusion.not_inside (h : BehindExclusion before) : ¬ Inside before := by
  obtain ⟨front, members, words, rfl, -, hwords⟩ := h
  refine not_inside_append_closeBracket fun k hk => ?_
  rw [hwords k hk]
  rfl

/-! ## Modes -/

/-- Which token leads from one mode to which other. -/
inductive Mode.Turn : Mode → Kind → Mode → Prop
  | outside {kind : Kind} (h : kind ∈ [.literal, .reference, .bar, .star, .plus, .dot, .openGroup,
      .closeGroup]) : Turn .outside kind .outside
  | openBracket : Turn .outside .openBracket (.inside true false)
  | caret {fresh exclusion : Bool} :
      Turn (.inside fresh exclusion) .caret (.inside false (exclusion || fresh))
  | member {fresh exclusion : Bool} {kind : Kind} (h : kind = .literal ∨ kind = .dash) :
      Turn (.inside fresh exclusion) kind (.inside false exclusion)
  | closeBracket {fresh exclusion : Bool} : Turn (.inside fresh exclusion) .closeBracket
      (if exclusion then .behindExclusion else .outside)
  | inWord : Turn .behindExclusion .inWord .behindExclusion
  | operandBracket : Turn .behindExclusion .openBracket (.inside true false)
  | operandReference : Turn .behindExclusion .reference .outside

/-- The tokens behind which the scanner is in a mode. -/
def Mode.After (before : List Kind) : Mode → Prop
  | .outside => ¬ Inside before
  | .inside fresh exclusion =>
    ∃ front members, before = front ++ .openBracket :: members ∧
      (∀ k ∈ members, k.isBracket = false) ∧ (fresh = true → members = []) ∧
        (exclusion = true → members.head? = some .caret)
  | .behindExclusion => BehindExclusion before

namespace Mode

variable {mode next : Mode}

theorem after_openBracket (before : List Kind) :
    (Mode.inside true false).After (before ++ [.openBracket]) :=
  ⟨before, [], rfl, nofun, fun _ => rfl, nofun⟩

theorem After.inside {fresh exclusion : Bool}
    (h : (Mode.inside fresh exclusion).After before) : Inside before := by
  obtain ⟨front, members, rfl, hmembers, -⟩ := h
  exact inside_append_openBracket hmembers

/-- A bracket expression goes on with a token that is no bracket. -/
theorem After.member {fresh exclusion exclusion' : Bool}
    (h : (Mode.inside fresh exclusion).After before) (hkind : kind.isBracket = false)
    (hfirst : exclusion' = true → exclusion = true ∨ fresh = true ∧ kind = .caret) :
    (Mode.inside false exclusion').After (before ++ [kind]) := by
  obtain ⟨front, members, rfl, hmembers, hfresh, hcaret⟩ := h
  refine ⟨front, members ++ [kind], ?_, ?_, nofun, fun hexclusion => ?_⟩
  · rw [List.append_assoc, List.cons_append]
  · exact List.forall_mem_append.mpr ⟨hmembers, List.forall_mem_singleton.mpr hkind⟩
  · rcases hfirst hexclusion with h | ⟨h, rfl⟩
    · rw [List.head?_append, hcaret h]
      rfl
    · rw [hfresh h]
      rfl

theorem After.closeBracket {fresh exclusion : Bool}
    (h : (Mode.inside fresh exclusion).After before) :
    (if exclusion then Mode.behindExclusion else .outside).After (before ++ [.closeBracket]) := by
  cases exclusion with
  | false => exact not_inside_append_closeBracket nofun
  | true =>
      obtain ⟨front, members, rfl, hmembers, -, hcaret⟩ := h
      -- an exclusion has its caret for a first token
      obtain ⟨members, rfl⟩ := List.head?_eq_some_iff.mp (hcaret rfl)
      exact ⟨front, members, [], rfl, (List.forall_mem_cons.mp hmembers).2, nofun⟩

theorem After.inWord (h : Mode.behindExclusion.After before) :
    Mode.behindExclusion.After (before ++ [.inWord]) := by
  obtain ⟨front, members, words, rfl, hmembers, hwords⟩ := h
  refine ⟨front, members, words ++ [.inWord], ?_, hmembers, ?_⟩
  · rw [List.append_assoc, List.cons_append]
  · exact List.forall_mem_append.mpr ⟨hwords, List.forall_mem_singleton.mpr rfl⟩

/-- A token that turns the mode may stand where it does. -/
theorem After.turn (h : mode.After before) (hturn : mode.Turn kind next) :
    Allowed before kind ∧ next.After (before ++ [kind]) := by
  cases hturn with
  | outside hkind =>
      have hplain : kind.isBracket = false ∧ (¬ Inside before → Allowed before kind) := by
        simp only [List.mem_cons, List.not_mem_nil, or_false] at hkind
        rcases hkind with rfl | rfl | rfl | rfl | rfl | rfl | rfl | rfl
        · exact ⟨rfl, fun _ => trivial⟩
        all_goals exact ⟨rfl, id⟩
      refine ⟨hplain.2 h, fun hinside => h ?_⟩
      exact (inside_append_of_not_isBracket (List.forall_mem_singleton.mpr hplain.1)).mp hinside
  | openBracket => exact ⟨h, after_openBracket before⟩
  | caret =>
      refine ⟨h.inside, h.member rfl fun hfirst => ?_⟩
      exact (Bool.or_eq_true_iff.mp hfirst).imp_right fun hfresh => ⟨hfresh, rfl⟩
  | member hkind =>
      rcases hkind with rfl | rfl
      · exact ⟨trivial, h.member rfl Or.inl⟩
      · exact ⟨h.inside, h.member rfl Or.inl⟩
  | closeBracket => exact ⟨h.inside, h.closeBracket⟩
  | inWord => exact ⟨h, h.inWord⟩
  | operandBracket => exact ⟨h.not_inside, after_openBracket before⟩
  | operandReference =>
      refine ⟨h.not_inside, fun hinside => h.not_inside ?_⟩
      exact (inside_append_of_not_isBracket (List.forall_mem_singleton.mpr rfl)).mp hinside

end Mode

/-! ## Lists of tokens -/

/-- Brackets that open and close in turn. -/
structure Alternate (bs : List Kind) : Prop where
  chain : bs.IsChain (· ≠ ·)
  opened : ∀ b ∈ bs.head?, b = .openBracket

/-- Where the tokens of each kind are in a list of tokens. -/
structure WellModed (ks : List Kind) : Prop where
  brackets : Alternate (ks.filter Kind.isBracket)
  inside : ∀ before kind back, ks = before ++ kind :: back → kind = .dash ∨ kind = .caret →
    Inside before
  outside : ∀ before kind back, ks = before ++ kind :: back →
    kind ∈ [.bar, .star, .plus, .dot, .openGroup, .closeGroup, .reference] → ¬ Inside before
  inWord : ∀ before back, ks = before ++ .inWord :: back → BehindExclusion before

theorem Alternate.append_singleton {bs : List Kind} {b : Kind} (h : Alternate bs)
    (hlast : ∀ k ∈ bs.getLast?, k ≠ b) (hfirst : bs = [] → b = .openBracket) :
    Alternate (bs ++ [b]) := by
  refine ⟨h.chain.append (.singleton b) fun k hk k' hk' => ?_, fun k hk => ?_⟩
  · obtain rfl := Option.mem_some_iff.mp hk'
    exact hlast k hk
  · cases bs with
    | nil =>
        obtain rfl := Option.mem_some_iff.mp hk
        exact hfirst rfl
    | cons a bs => exact h.opened k hk

theorem alternate_of_allowed {ks : List Kind}
    (h : ∀ before kind back, ks = before ++ kind :: back → Allowed before kind) :
    Alternate (ks.filter Kind.isBracket) := by
  induction ks using List.reverseRecOn with
  | nil => exact ⟨.nil, nofun⟩
  | append_singleton ks kind ih =>
      have hlast := h ks kind [] rfl
      have hks := ih fun before kind' back hks =>
        h before kind' (back ++ [kind]) (by rw [hks, List.append_assoc, List.cons_append])
      rw [List.filter_append]
      cases kind with
      | openBracket =>
          refine hks.append_singleton (fun k hk hopen => ?_) fun _ => rfl
          subst hopen
          exact hlast hk
      | closeBracket =>
          have hopen : (ks.filter Kind.isBracket).getLast? = some .openBracket := hlast
          refine hks.append_singleton (fun k hk hclose => ?_) fun hnil => ?_
          · rw [hopen, Option.mem_some_iff, hclose] at hk
            cases hk
          · rw [hnil] at hopen
            cases hopen
      | _ => exact (List.append_nil _).symm ▸ hks

theorem wellModed_of_allowed {ks : List Kind}
    (h : ∀ before kind back, ks = before ++ kind :: back → Allowed before kind) :
    WellModed ks := by
  refine ⟨alternate_of_allowed h, ?_, ?_, fun before back hks => h before .inWord back hks⟩
  · rintro before kind back hks (rfl | rfl)
    all_goals exact h before _ back hks
  · intro before kind back hks hkind
    have hallowed := h before kind back hks
    simp only [List.mem_cons, List.not_mem_nil, or_false] at hkind
    rcases hkind with rfl | rfl | rfl | rfl | rfl | rfl | rfl
    all_goals exact hallowed

end LanguageSpec.Regex
