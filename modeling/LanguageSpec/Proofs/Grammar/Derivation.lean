import Mathlib.Logic.Relation

/-!
# Derivations

Rules that expand a symbol to a list of symbols rewrite lists of symbols. What a list can begin with
and whether it can vanish are determined by its parts.
-/

namespace LanguageSpec.Rewriting

variable {σ τ : Type} {R : σ → List σ → Prop}

/-- One symbol is expanded by a rule, all others stay as they are. -/
inductive Step (R : σ → List σ → Prop) : List σ → List σ → Prop
  | mk {s : σ} {body : List σ} (front back : List σ) (h : R s body) :
      Step R (front ++ s :: back) (front ++ body ++ back)

def Derives (R : σ → List σ → Prop) : List σ → List σ → Prop := Relation.ReflTransGen (Step R)

namespace Derives

variable {l l' m m' n : List σ}

theorem refl (l : List σ) : Derives R l l := Relation.ReflTransGen.refl

theorem trans (h : Derives R l m) (h' : Derives R m n) : Derives R l n :=
  Relation.ReflTransGen.trans h h'

theorem rule {s : σ} {body : List σ} (h : R s body) : Derives R [s] body := by
  have hstep := Step.mk [] [] h
  rw [List.nil_append, List.nil_append, List.append_nil] at hstep
  exact Relation.ReflTransGen.single hstep

theorem append_left (front : List σ) (h : Derives R l m) : Derives R (front ++ l) (front ++ m) := by
  refine Relation.ReflTransGen.lift (front ++ ·) ?_ _ _ h
  rintro _ _ ⟨x, y, hrule⟩
  have hstep := Step.mk (front ++ x) y hrule
  simpa only [Function.onFun, List.append_assoc] using hstep

theorem cons (s : σ) (h : Derives R l m) : Derives R (s :: l) (s :: m) := h.append_left [s]

theorem append_right (h : Derives R l m) (back : List σ) : Derives R (l ++ back) (m ++ back) := by
  refine Relation.ReflTransGen.lift (· ++ back) ?_ _ _ h
  rintro _ _ ⟨x, y, hrule⟩
  have hstep := Step.mk x (y ++ back) hrule
  simpa only [Function.onFun, List.append_assoc, List.cons_append] using hstep

theorem append (h : Derives R l l') (h' : Derives R m m') : Derives R (l ++ m) (l' ++ m') :=
  (h.append_right m).trans (h'.append_left l')

theorem split (h : Derives R (l ++ m) n) :
    ∃ l' m', n = l' ++ m' ∧ Derives R l l' ∧ Derives R m m' := by
  induction h with
  | refl => exact ⟨l, m, rfl, refl l, refl m⟩
  | tail _ hstep ih =>
      obtain ⟨l', m', heq, hl, hm⟩ := ih
      cases hstep with
      | @mk s body front back hrule =>
          rcases List.append_eq_append_iff.mp heq with ⟨x, rfl, hx⟩ | ⟨x, rfl, hx⟩
          · rcases List.cons_eq_append_iff.mp hx with ⟨rfl, rfl⟩ | ⟨y, rfl, rfl⟩
            · refine ⟨front, body ++ back, by simp, by simpa using hl, hm.trans ?_⟩
              simpa using (rule hrule).append_right back
            · refine ⟨front ++ body ++ y, m', by simp, hl.trans ?_, hm⟩
              exact Relation.ReflTransGen.single (.mk front y hrule)
          · refine ⟨l', x ++ body ++ back, by simp, hl, hm.trans ?_⟩
            rw [hx]
            exact Relation.ReflTransGen.single (.mk x back hrule)

/-- All symbols of a derived list come from the list it is derived from or from rules. -/
theorem mem (h : Derives R l m) {s : σ} (hs : s ∈ m) :
    s ∈ l ∨ ∃ head body, R head body ∧ s ∈ body := by
  induction h with
  | refl => exact Or.inl hs
  | tail _ hstep ih =>
      cases hstep with
      | @mk head body front back hrule =>
          simp only [List.mem_append] at hs
          rcases hs with (hs | hs) | hs
          · exact ih (by simp [hs])
          · exact Or.inr ⟨head, body, hrule, hs⟩
          · exact ih (by simp [hs])

theorem map {R' : τ → List τ → Prop} (f : σ → τ) (hf : ∀ s body, R s body → R' (f s) (body.map f))
    (h : Derives R l m) : Derives R' (l.map f) (m.map f) := by
  refine Relation.ReflTransGen.lift (List.map f) ?_ _ _ h
  rintro _ _ ⟨x, y, hrule⟩
  have hstep := Step.mk (x.map f) (y.map f) (hf _ _ hrule)
  simpa only [Function.onFun, List.map_append, List.map_cons] using hstep

end Derives

/-! ## Places in lists -/

theorem place_of_append {l m x y : List σ} {s : σ} (h : l ++ m = x ++ s :: y) :
    (∃ z, l = x ++ s :: z ∧ y = z ++ m) ∨ ∃ z, m = z ++ s :: y ∧ x = l ++ z := by
  rcases List.append_eq_append_iff.mp h with ⟨z, rfl, hm⟩ | ⟨z, rfl, hy⟩
  · exact Or.inr ⟨z, hm, rfl⟩
  · rcases List.cons_eq_append_iff.mp hy with ⟨rfl, rfl⟩ | ⟨z, rfl, rfl⟩
    · exact Or.inr ⟨[], rfl, by simp⟩
    · exact Or.inl ⟨z, rfl, rfl⟩

theorem place_of_expanded {front body back x y : List σ} {s : σ}
    (h : front ++ body ++ back = x ++ s :: y) :
    (∃ z, front = x ++ s :: z ∧ y = z ++ body ++ back) ∨
      (∃ u v, body = u ++ s :: v ∧ x = front ++ u ∧ y = v ++ back) ∨
      ∃ z, back = z ++ s :: y ∧ x = front ++ body ++ z := by
  rcases place_of_append h with ⟨z, hz, rfl⟩ | hback
  · rcases place_of_append hz with ⟨z, rfl, rfl⟩ | ⟨u, rfl, rfl⟩
    · exact Or.inl ⟨z, rfl, rfl⟩
    · exact Or.inr (Or.inl ⟨u, z, rfl, rfl, rfl⟩)
  · exact Or.inr (Or.inr hback)

/-! ## Lists that vanish -/

inductive Vanishes (R : σ → List σ → Prop) : List σ → Prop
  | nil : Vanishes R []
  | cons {s : σ} {body rest : List σ} (h : R s body) (hbody : Vanishes R body)
      (hrest : Vanishes R rest) : Vanishes R (s :: rest)

namespace Vanishes

variable {l m : List σ} {s : σ}

theorem append (hl : Vanishes R l) (hm : Vanishes R m) : Vanishes R (l ++ m) := by
  induction hl with
  | nil => exact hm
  | cons h hbody _ _ ih => exact .cons h hbody ih

theorem left (h : Vanishes R (l ++ m)) : Vanishes R l := by
  induction l with
  | nil => exact .nil
  | cons s l ih =>
      cases h with
      | cons h hbody hrest => exact .cons h hbody (ih hrest)

theorem right (h : Vanishes R (l ++ m)) : Vanishes R m := by
  induction l with
  | nil => exact h
  | cons s l ih =>
      cases h with
      | cons h hbody hrest => exact ih hrest

theorem head (h : Vanishes R (s :: l)) : ∃ body, R s body ∧ Vanishes R body := by
  cases h with
  | cons h hbody hrest => exact ⟨_, h, hbody⟩

theorem tail (h : Vanishes R (s :: l)) : Vanishes R l := by
  cases h with
  | cons h hbody hrest => exact hrest

theorem single {body : List σ} (h : R s body) (hbody : Vanishes R body) : Vanishes R [s] :=
  .cons h hbody .nil

theorem of_step (hstep : Step R l m) (hm : Vanishes R m) : Vanishes R l := by
  cases hstep with
  | mk front back hrule =>
      have hfront : Vanishes R front := hm.left.left
      exact hfront.append (.cons hrule hm.left.right hm.right)

theorem derives (h : Vanishes R l) : Derives R l [] := by
  induction h with
  | nil => exact .refl []
  | cons hrule _ _ ihbody ihrest => exact ((Derives.rule hrule).trans ihbody).append ihrest

end Vanishes

theorem derives_nil_iff {l : List σ} : Derives R l [] ↔ Vanishes R l := by
  constructor
  · intro h
    induction h using Relation.ReflTransGen.head_induction_on with
    | refl => exact .nil
    | head hstep _ ih => exact ih.of_step hstep
  · exact Vanishes.derives

/-! ## Beginnings -/

/-- What stands in front of the symbol that a list begins with can vanish. -/
inductive Begins (R : σ → List σ → Prop) (t : σ) : List σ → Prop
  | here (rest : List σ) : Begins R t (t :: rest)
  | rule {s : σ} {body : List σ} (rest : List σ) (h : R s body) (hbody : Begins R t body) :
      Begins R t (s :: rest)
  | skip {s : σ} {rest : List σ} (hs : Vanishes R [s]) (hrest : Begins R t rest) :
      Begins R t (s :: rest)

namespace Begins

variable {t : σ} {l m : List σ}

theorem append_right (h : Begins R t l) (m : List σ) : Begins R t (l ++ m) := by
  induction h with
  | here rest => exact .here (rest ++ m)
  | rule rest h hbody _ => exact .rule (rest ++ m) h hbody
  | skip hs _ ih => exact .skip hs ih

theorem of_vanishes (hl : Vanishes R l) (hm : Begins R t m) : Begins R t (l ++ m) := by
  induction hl with
  | nil => exact hm
  | cons h hbody _ _ ih => exact .skip (.single h hbody) ih

theorem of_append (h : Begins R t (l ++ m)) : Begins R t l ∨ Vanishes R l ∧ Begins R t m := by
  induction l with
  | nil => exact Or.inr ⟨.nil, h⟩
  | cons s l ih =>
      cases h with
      | here => exact Or.inl (.here l)
      | rule _ h hbody => exact Or.inl (.rule l h hbody)
      | skip hs hrest =>
          rcases ih hrest with hl | ⟨hl, hm⟩
          · exact Or.inl (.skip hs hl)
          · exact Or.inr ⟨hs.append hl, hm⟩

theorem of_step (hstep : Step R l m) (hm : Begins R t m) : Begins R t l := by
  cases hstep with
  | mk front back hrule =>
      rcases hm.of_append with hm | ⟨hvanish, hback⟩
      · rcases hm.of_append with hfront | ⟨hfront, hbody⟩
        · exact hfront.append_right _
        · exact of_vanishes hfront (.rule back hrule hbody)
      · exact of_vanishes hvanish.left (.skip (.single hrule hvanish.right) hback)

theorem derives (h : Begins R t l) : ∃ rest, Derives R l (t :: rest) := by
  induction h with
  | here rest => exact ⟨rest, .refl _⟩
  | rule rest h _ ih =>
      obtain ⟨m, hm⟩ := ih
      exact ⟨m ++ rest, ((Derives.rule h).trans hm).append_right rest⟩
  | skip hs _ ih =>
      obtain ⟨m, hm⟩ := ih
      exact ⟨m, hs.derives.append hm⟩

end Begins

theorem derives_cons_iff {t : σ} {l : List σ} :
    (∃ rest, Derives R l (t :: rest)) ↔ Begins R t l := by
  constructor
  · rintro ⟨rest, h⟩
    -- from the end of the derivation, since one step backwards keeps what a list begins with
    induction h using Relation.ReflTransGen.head_induction_on with
    | refl => exact .here rest
    | head hstep _ ih => exact ih.of_step hstep
  · exact Begins.derives

end LanguageSpec.Rewriting
