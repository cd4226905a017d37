import LanguageSpec.Proofs.Except
import LanguageSpec.Proofs.Grammar.Follow

/-!
# What passes make of a seed

Passes over the rules come to an end from every seed, not only from the families that first and
follow sets start from. What they end with is the least family that contains the seed and obeys all
rules.
-/

namespace LanguageSpec

instance {α : Type} [Ranked α] : HasSubset (SortedSet α) := ⟨fun s t => ∀ a ∈ s, a ∈ t⟩

namespace FirstSet

instance : HasSubset FirstSet :=
  ⟨fun s t => s.terminals ⊆ t.terminals ∧ (s.epsilon = true → t.epsilon = true)⟩

variable {s t u : FirstSet}

theorem subset_refl (s : FirstSet) : s ⊆ s := ⟨fun _ h => h, id⟩

theorem subset_trans (h : s ⊆ t) (h' : t ⊆ u) : s ⊆ u :=
  ⟨fun a ha => h'.1 a (h.1 a ha), fun he => h'.2 (h.2 he)⟩

theorem covers_iff_subset : s.covers t = true ↔ t ⊆ s := covers_eq_true_iff

theorem subset_union_left : s ⊆ s.union t :=
  ⟨fun _ ha => SortedSet.mem_union.mpr (Or.inr ha), fun he => Bool.or_eq_true_iff.mpr (Or.inl he)⟩

theorem union_subset (hs : s ⊆ u) (ht : t ⊆ u) : s.union t ⊆ u := by
  refine ⟨?_, ?_⟩
  · intro a ha
    rcases SortedSet.mem_union.mp ha with ha | ha
    · exact ht.1 a ha
    · exact hs.1 a ha
  · intro he
    rcases Bool.or_eq_true_iff.mp he with he | he
    · exact hs.2 he
    · exact ht.2 he

end FirstSet

/-! ## Families of first sets -/

namespace FirstFamily

variable {g : Grammar} {f x y : FirstFamily} {p : Production}

/-- The sets of one family are contained in those of another. -/
def Within (x y : FirstFamily) : Prop := ∀ n, x.get n ⊆ y.get n

/-- What a family says of a body, it says of its head. -/
def Obeys (g : Grammar) (f : FirstFamily) : Prop :=
  ∀ p ∈ g.productions, f.ofSequence p.body ⊆ f.get p.head

theorem obeys_iff_closed : Obeys g f ↔ Closed g f :=
  forall_congr' fun _ => forall_congr' fun _ => FirstSet.covers_iff_subset.symm

theorem Within.ofSequence (h : Within x y) (l : List SymbolId) :
    x.ofSequence l ⊆ y.ofSequence l := by
  induction l with
  | nil => exact FirstSet.subset_refl _
  | cons s rest ih =>
      cases s with
      | terminal t => exact FirstSet.subset_refl _
      | nonTerminal n =>
          cases hx : (x.get n).epsilon with
          | false =>
              rw [ofSequence_nonTerminal_of_not_epsilon hx]
              refine ⟨?_, fun he => absurd (hx.symm.trans he) Bool.false_ne_true⟩
              intro t ht
              have hmem := (h n).1 t ht
              cases hy : (y.get n).epsilon with
              | false => rwa [ofSequence_nonTerminal_of_not_epsilon hy]
              | true =>
                  rw [ofSequence_nonTerminal_of_epsilon hy]
                  exact SortedSet.mem_union.mpr (Or.inr hmem)
          | true =>
              rw [ofSequence_nonTerminal_of_epsilon hx,
                ofSequence_nonTerminal_of_epsilon ((h n).2 hx)]
              refine ⟨?_, ih.2⟩
              intro t ht
              rcases SortedSet.mem_union.mp ht with ht | ht
              · exact SortedSet.mem_union.mpr (Or.inl (ih.1 t ht))
              · exact SortedSet.mem_union.mpr (Or.inr ((h n).1 t ht))

theorem within_grow (f : FirstFamily) (p : Production) : Within f (f.grow p) := by
  intro n
  rw [get_grow]
  split
  · exact FirstSet.subset_union_left
  · exact FirstSet.subset_refl _

/-- A family that obeys a rule contains what the rule makes of the families in it. -/
theorem Within.grow (h : Within x y) (hp : p ∈ g.productions) (hy : Obeys g y) :
    Within (x.grow p) y := by
  intro n
  rw [get_grow]
  split
  · rename_i hn
    have hbody := FirstSet.subset_trans (h.ofSequence p.body) (hy p hp)
    rw [hn.1] at hbody
    exact FirstSet.union_subset (h n) hbody
  · exact h n

end FirstFamily

/-! ## Families of follow sets -/

namespace FollowFamily

variable {g : Grammar} {first : FirstFamily} {f x y : FollowFamily} {o : Occurrence}

/-- The sets of one family are contained in those of another. -/
def Within (x y : FollowFamily) : Prop := ∀ n, x.get n ⊆ y.get n

/-- What begins the rest of a body can follow the non-terminal in front of it, and if the rest can
vanish then so can what follows the head. -/
def Obeys (g : Grammar) (first : FirstFamily) (f : FollowFamily) : Prop :=
  ∀ p ∈ g.productions, ∀ front n rest, p.body = front ++ .nonTerminal n :: rest →
    (first.ofSequence rest).terminals ⊆ f.get n ∧
      ((first.ofSequence rest).epsilon = true → f.get p.head ⊆ f.get n)

theorem obeys_iff_closed : Obeys g first f ↔ Closed g first f := by
  constructor
  · intro h o ho
    obtain ⟨p, hp, hhead, front, hbody⟩ := Grammar.mem_occurrences_iff.mp ho
    obtain ⟨hbegins, hvanishes⟩ := h p hp front o.nonTerminal o.behind hbody
    refine SortedSet.isSubset_eq_true_iff.mpr ?_
    intro t ht
    rcases mem_contribution_iff.mp ht with ht | ⟨he, ht⟩
    · exact hbegins t ht
    · exact hvanishes he t (hhead ▸ ht)
  · intro h p hp front n rest hbody
    refine ⟨?_, ?_⟩
    · intro t ht
      exact h.mem hp hbody (Or.inl ht)
    · intro he t ht
      exact h.mem hp hbody (Or.inr ⟨he, ht⟩)

theorem Within.contribution (h : Within x y) (o : Occurrence) :
    o.contribution first x ⊆ o.contribution first y := by
  intro t ht
  rcases mem_contribution_iff.mp ht with ht | ⟨he, ht⟩
  · exact mem_contribution_iff.mpr (Or.inl ht)
  · exact mem_contribution_iff.mpr (Or.inr ⟨he, h o.head t ht⟩)

/-- A family that obeys the rules contains what an occurrence makes of the families in it. -/
theorem Within.grow (h : Within x y) (ho : o ∈ g.occurrences) (hy : Obeys g first y) :
    Within (grow first x o) y := by
  intro n t ht
  rcases mem_get_grow ht with hold | ⟨rfl, hnew⟩
  · exact h n t hold
  · have hclosed := obeys_iff_closed.mp hy o ho
    exact SortedSet.isSubset_eq_true_iff.mp hclosed t (h.contribution o t hnew)

end FollowFamily

/-! ## What passes end with -/

/-- Passes from a seed on come to an end with the least of the families that contain the seed and
obey the rules, and one more pass leaves it as it is. -/
structure Saturates {φ : Type} (pass : φ → φ × Bool) (within : φ → φ → Prop) (obeys : φ → Prop)
    (seed result : φ) : Prop where
  ends : EndsWith pass seed result
  stays : pass result = (result, false)
  contains : within seed result
  obeyed : obeys result
  least : ∀ x, within seed x → obeys x → within result x

namespace Grammar

variable {rules : List Rule} {g : Grammar} {first f : FirstFamily}

section First

variable (hheads : ∀ p ∈ g.productions, p.head < f.length)
include hheads

theorem snd_firstPass_eq_false_iff : (g.firstPass f).2 = false ↔ (g.firstPass f).1 = f :=
  (converges_first hheads).snd_pass_eq_false_iff g.firstPass_eq (supplied_self g f)

theorem saturates_firstClosure : Saturates g.firstPass FirstFamily.Within (FirstFamily.Obeys g) f
    (g.firstClosure f) where
  ends := endsWith_firstClosure hheads
  stays := ((endsWith_firstClosure hheads).all_closed (fun _ _ h => FirstFamily.grow_eq_self h)
    g.firstPass_eq).2
  contains := by
    refine settle_induction (Q := FirstFamily.Within f) g.firstPass_eq ?_ ?_ _
    · intro x p _ hx n
      exact FirstSet.subset_trans (hx n) (FirstFamily.within_grow x p n)
    · exact fun n => FirstSet.subset_refl (f.get n)
  obeyed := FirstFamily.obeys_iff_closed.mpr (closed_firstClosure hheads)
  least y hseed hy :=
    settle_induction (Q := fun x => FirstFamily.Within x y) g.firstPass_eq
      (fun _ _ hp hx => hx.grow hp hy) hseed _

end First

section Follow

variable {f : FollowFamily} (hlt : ∀ o ∈ g.occurrences, o.nonTerminal < f.length)
include hlt

theorem snd_followPass_eq_false_iff :
    (g.followPass first f).2 = false ↔ (g.followPass first f).1 = f :=
  (converges_follow hlt).snd_pass_eq_false_iff (g.followPass_eq first)
    (followSupplied_self g first f)

theorem saturates_followClosure : Saturates (g.followPass first) FollowFamily.Within
    (FollowFamily.Obeys g first) f (g.followClosure first f) where
  ends := endsWith_followClosure hlt
  stays := ((endsWith_followClosure hlt).all_closed (fun _ _ h => FollowFamily.grow_eq_self h)
    (g.followPass_eq first)).2
  contains _ _ ht := mem_followClosure_of_mem ht
  obeyed := FollowFamily.obeys_iff_closed.mpr (closed_followClosure hlt)
  least y hseed hy :=
    settle_induction (Q := fun x => FollowFamily.Within x y) (g.followPass_eq first)
      (fun _ _ ho hx => hx.grow ho hy) hseed _

end Follow

/-- From every seed with a set for each non-terminal, passes come to an end with the least family
that contains it and obeys the rules, and a pass tells of no change exactly if it makes none. First
and follow sets are what the seeds become that they are computed from. -/
theorem passes_saturate (h : ofRules rules = .ok g) :
    (∀ f : FirstFamily, f.length = g.nonTerminals.length →
      (g.firstPass f).1.length = f.length ∧
      ((g.firstPass f).2 = false ↔ (g.firstPass f).1 = f) ∧
      Saturates g.firstPass FirstFamily.Within (FirstFamily.Obeys g) f (g.firstClosure f)) ∧
    (∀ (first : FirstFamily) (f : FollowFamily), f.length = g.nonTerminals.length →
      (g.followPass first f).1.length = f.length ∧
      ((g.followPass first f).2 = false ↔ (g.followPass first f).1 = f) ∧
      Saturates (g.followPass first) FollowFamily.Within (FollowFamily.Obeys g first) f
        (g.followClosure first f)) ∧
    Saturates g.firstPass FirstFamily.Within (FirstFamily.Obeys g) g.emptyFirst g.firstSets ∧
    ∀ first, Saturates (g.followPass first) FollowFamily.Within (FollowFamily.Obeys g first)
      g.startFollow (g.followSets first) := by
  have hnumbered := wellNumbered_of_ofRules h
  have hheads : ∀ f : FirstFamily, f.length = g.nonTerminals.length →
      ∀ p ∈ g.productions, p.head < f.length := by
    intro f hf p hp
    rw [hf]
    exact hnumbered.head_lt p hp
  have hlt : ∀ f : FollowFamily, f.length = g.nonTerminals.length →
      ∀ o ∈ g.occurrences, o.nonTerminal < f.length := by
    intro f hf o ho
    rw [hf]
    exact hnumbered.occurrence_lt ho
  refine ⟨?_, ?_, ?_, ?_⟩
  · intro f hf
    refine ⟨?_, snd_firstPass_eq_false_iff (hheads f hf), saturates_firstClosure (hheads f hf)⟩
    refine pass_induction (Q := fun x => x.length = f.length) g.firstPass_eq ?_ rfl
    intro x p _ hx
    exact (FirstFamily.length_grow x p).trans hx
  · intro first f hf
    refine ⟨?_, snd_followPass_eq_false_iff (hlt f hf), saturates_followClosure (hlt f hf)⟩
    refine pass_induction (Q := fun x => x.length = f.length) (g.followPass_eq first) ?_ rfl
    intro x o _ hx
    exact (FollowFamily.length_grow first x o).trans hx
  · exact saturates_firstClosure (hheads g.emptyFirst (List.length_map _))
  · intro first
    exact saturates_followClosure (hlt g.startFollow g.length_startFollow)

/-- The seeds hold a terminal that is in no rule. -/
theorem passes_saturate_parentheses : ∃ g, ofRules Rule.parentheses = .ok g ∧
    Saturates g.firstPass FirstFamily.Within (FirstFamily.Obeys g)
      [⟨SortedSet.ofList [7], false⟩] (g.firstClosure [⟨SortedSet.ofList [7], false⟩]) ∧
    Saturates (g.followPass g.firstSets) FollowFamily.Within (FollowFamily.Obeys g g.firstSets)
      [SortedSet.ofList [7]] (g.followClosure g.firstSets [SortedSet.ofList [7]]) := by
  have hok : (ofRules Rule.parentheses).isOk = true := by decide
  obtain ⟨g, hg⟩ := exists_eq_ok_of_isOk hok
  have hlength : 1 = g.nonTerminals.length := by
    obtain ⟨-, rfl⟩ := ofRules_eq_ok_iff.mp hg
    decide
  obtain ⟨hfirst, hfollow, -⟩ := passes_saturate hg
  refine ⟨g, hg, ?_, ?_⟩
  · exact (hfirst [⟨SortedSet.ofList [7], false⟩] hlength).2.2
  · exact (hfollow g.firstSets [SortedSet.ofList [7]] hlength).2.2

end Grammar

end LanguageSpec
