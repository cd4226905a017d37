import LanguageSpec.Proofs.Fragment.Operations

/-!
# Programs of operations

Fragments are made by operations that start from the new one. The operations of a program act on
lists of languages, those of the atoms in each branch, and the automaton that they build accepts
the union of the branches.
-/

open Computability

namespace LanguageSpec.Fragment

/-! ## Atoms by branch -/

/-- The languages of the atoms in the closed branches and in the current one. -/
structure Atoms where
  closed : List (List (Language Char))
  current : List (Language Char)

namespace Atoms

def new : Atoms := ⟨[], []⟩

/-- The union of all branches, a branch being the concatenation of its atoms. -/
def language (a : Atoms) : Language Char := ((a.closed ++ [a.current]).map List.prod).sum

def append (a : Atoms) (l : Language Char) : Atoms := { a with current := a.current ++ [l] }

def alternate (a : Atoms) : Atoms := ⟨a.closed ++ [a.current], []⟩

/-- Replaces the last atom of the current branch, if it has one. -/
def mapLast (a : Atoms) (op : Language Char → Language Char) : Atoms :=
  { a with current := a.current.modifyLast op }

def single (l : Language Char) : Atoms := ⟨[], [l]⟩

/-! Operations need only know the languages of the closed branches and of the last atom. -/

def branches (a : Atoms) : Branches :=
  ⟨(a.closed.map List.prod).sum, a.current.dropLast.prod, a.current.getLast?⟩

theorem current_branches (a : Atoms) : a.branches.current = a.current.prod := by
  obtain ⟨closed, current⟩ := a
  rcases List.eq_nil_or_concat current with rfl | ⟨front, last, rfl⟩
  · exact mul_one 1
  · simp [branches, Branches.current]

theorem whole_branches (a : Atoms) : a.branches.whole = a.language := by
  rw [Branches.whole, current_branches, language, List.map_append, List.sum_append,
    List.map_singleton, List.sum_singleton]
  rfl

theorem branches_append (a : Atoms) (l : Language Char) :
    (a.append l).branches = a.branches.append l := by
  rw [Branches.append, current_branches]
  simp [append, branches]

theorem branches_alternate (a : Atoms) : a.alternate.branches = a.branches.alternate := by
  rw [Branches.alternate, whole_branches]
  rfl

theorem branches_mapLast (a : Atoms) (op : Language Char → Language Char) :
    (a.mapLast op).branches = { a.branches with last := a.branches.last.map op } := by
  obtain ⟨closed, current⟩ := a
  rcases List.eq_nil_or_concat current with rfl | ⟨front, last, rfl⟩
  · rfl
  · simp [mapLast, branches, List.modifyLast_concat]

theorem branches_single (l : Language Char) : (single l).branches = Branches.single l := by
  simp [single, branches, Branches.single]

end Atoms

/-! ## Programs -/

/-- Operations one after the other, from the new fragment on. What is appended as an atom is made by
a program of its own. -/
inductive Program where
  | new
  | appendChar (before : Program) (c : Char)
  | appendSet (before : Program) (s : CharSet)
  | append (before : Program) (other : Program)
  | alternate (before : Program)
  | starLast (before : Program)
  | plusLast (before : Program)
  | starWhole (before : Program)
  | plusWhole (before : Program)
  | finalize (before : Program)

namespace Program

/-- The fragment that a program makes, unless it appends to a finalized one. -/
def run : Program → Option Fragment
  | .new => some .new
  | .appendChar before c => do (← before.run).appendSet? (SortedSet.ofList [c])
  | .appendSet before s => do (← before.run).appendSet? s
  | .append before other => do (← before.run).append? (← other.run)
  | .alternate before => do (← before.run).alternate?
  | .starLast before => do return (← before.run).starLast
  | .plusLast before => do return (← before.run).plusLast
  | .starWhole before => do return (← before.run).starWhole
  | .plusWhole before => do return (← before.run).plusWhole
  | .finalize before => do return (← before.run).finalize

/-- Whether the last operations finalize the fragment. -/
def finalizes : Program → Bool
  | .new | .appendChar .. | .appendSet .. | .append .. | .alternate _ => false
  | .starLast before | .plusLast before => before.finalizes
  | .starWhole _ | .plusWhole _ | .finalize _ => true

/-- Nothing is appended to a finalized fragment. -/
def Proper : Program → Prop
  | .new => True
  | .appendChar before _ | .appendSet before _ | .alternate before =>
    before.Proper ∧ before.finalizes = false
  | .append before other => before.Proper ∧ before.finalizes = false ∧ other.Proper
  | .starLast before | .plusLast before | .starWhole before | .plusWhole before
  | .finalize before => before.Proper

/-- What the operations of a program do to the languages of the atoms. -/
def atoms : Program → Atoms
  | .new => .new
  | .appendChar before c => before.atoms.append {[c]}
  | .appendSet before s => before.atoms.append (letters {c | c ∈ s})
  | .append before other => before.atoms.append other.atoms.language
  | .alternate before => before.atoms.alternate
  | .starLast before => before.atoms.mapLast fun l => l∗
  | .plusLast before => before.atoms.mapLast fun l => l * l∗
  | .starWhole before => .single before.atoms.language∗
  | .plusWhole before => .single (before.atoms.language * before.atoms.language∗)
  | .finalize before => before.atoms

end Program

/-! ## Programs build what they say -/

/-- A fragment stands for branches, whether it is finalized or not. -/
inductive Stands (f : Fragment) (b : Branches) : Bool → Prop
  | unfinished (h : Unfinished f b) : Stands f b false
  | finished (h : Finished f b) : Stands f b true

namespace Stands

variable {f : Fragment} {b : Branches} {finalized : Bool}

theorem unfinished_of_eq (h : Stands f b finalized) (hopen : finalized = false) :
    Unfinished f b := by
  cases h with
  | unfinished h => exact h
  | finished h => cases hopen

theorem isFinalized_eq (h : Stands f b finalized) : f.isFinalized = finalized := by
  cases h with
  | unfinished h => exact h.not_isFinalized
  | finished h => exact isFinalized_of_accept h.accept

theorem finalize (h : Stands f b finalized) : Finished f.finalize b := by
  cases h with
  | unfinished h => exact h.finished
  | finished h => rwa [h.finalize_eq]

theorem starLast (h : Stands f b finalized) : Stands f.starLast b.starLast finalized := by
  cases h with
  | unfinished h => exact .unfinished h.starLast
  | finished h => exact .finished h.starLast

theorem plusLast (h : Stands f b finalized) : Stands f.plusLast b.plusLast finalized := by
  cases h with
  | unfinished h => exact .unfinished h.plusLast
  | finished h => exact .finished h.plusLast

theorem starWhole (h : Stands f b finalized) :
    Finished f.starWhole (Branches.single b.whole∗) := by
  rw [← starWhole_finalize]
  exact h.finalize.starWhole

theorem plusWhole (h : Stands f b finalized) :
    Finished f.plusWhole (Branches.single (b.whole * b.whole∗)) := by
  rw [← plusWhole_finalize]
  exact h.finalize.plusWhole

end Stands

theorem Unfinished.append_stands {f g : Fragment} {b c : Branches} {finalized : Bool}
    (h : Unfinished f b) (hg : Stands g c finalized) :
    ∃ k, f.append? g = some k ∧ Unfinished k (b.append c.whole) := by
  rw [← append?_finalize]
  exact h.append hg.finalize

namespace Program

theorem run_stands (p : Program) (h : p.Proper) :
    ∃ f, p.run = some f ∧ Stands f p.atoms.branches p.finalizes := by
  -- finalized fragments are part of the invariant, since they may be appended and repeated too
  induction p with
  | new => exact ⟨.new, rfl, .unfinished unfinished_new⟩
  | appendChar before c ih =>
      obtain ⟨f, hf, hbefore⟩ := ih h.1
      obtain ⟨k, hk, happended⟩ :=
        (hbefore.unfinished_of_eq h.2).appendSet (SortedSet.ofList [c])
      refine ⟨k, by simp [run, hf, hk], .unfinished ?_⟩
      rwa [atoms, Atoms.branches_append, ← letters_ofList_singleton]
  | appendSet before s ih =>
      obtain ⟨f, hf, hbefore⟩ := ih h.1
      obtain ⟨k, hk, happended⟩ := (hbefore.unfinished_of_eq h.2).appendSet s
      refine ⟨k, by simp [run, hf, hk], .unfinished ?_⟩
      rwa [atoms, Atoms.branches_append]
  | append before other ihb iho =>
      obtain ⟨f, hf, hbefore⟩ := ihb h.1
      obtain ⟨g, hg, hother⟩ := iho h.2.2
      obtain ⟨k, hk, happended⟩ := (hbefore.unfinished_of_eq h.2.1).append_stands hother
      refine ⟨k, by simp [run, hf, hg, hk], .unfinished ?_⟩
      rwa [atoms, Atoms.branches_append, ← Atoms.whole_branches]
  | alternate before ih =>
      obtain ⟨f, hf, hbefore⟩ := ih h.1
      obtain ⟨k, hk, hclosed⟩ := (hbefore.unfinished_of_eq h.2).alternate
      refine ⟨k, by simp [run, hf, hk], .unfinished ?_⟩
      rwa [atoms, Atoms.branches_alternate]
  | starLast before ih =>
      obtain ⟨f, hf, hbefore⟩ := ih h
      refine ⟨f.starLast, by simp [run, hf], ?_⟩
      rw [atoms, Atoms.branches_mapLast]
      exact hbefore.starLast
  | plusLast before ih =>
      obtain ⟨f, hf, hbefore⟩ := ih h
      refine ⟨f.plusLast, by simp [run, hf], ?_⟩
      rw [atoms, Atoms.branches_mapLast]
      exact hbefore.plusLast
  | starWhole before ih =>
      obtain ⟨f, hf, hbefore⟩ := ih h
      refine ⟨f.starWhole, by simp [run, hf], .finished ?_⟩
      rw [atoms, Atoms.branches_single, ← Atoms.whole_branches]
      exact hbefore.starWhole
  | plusWhole before ih =>
      obtain ⟨f, hf, hbefore⟩ := ih h
      refine ⟨f.plusWhole, by simp [run, hf], .finished ?_⟩
      rw [atoms, Atoms.branches_single, ← Atoms.whole_branches]
      exact hbefore.plusWhole
  | finalize before ih =>
      obtain ⟨f, hf, hbefore⟩ := ih h
      exact ⟨f.finalize, by simp [run, hf], .finished hbefore.finalize⟩

theorem isFinalized_run {p : Program} {f : Fragment} (h : p.Proper) (hf : p.run = some f) :
    f.isFinalized = p.finalizes := by
  obtain ⟨k, hk, hstands⟩ := p.run_stands h
  obtain rfl : k = f := Option.some.inj (hk.symm.trans hf)
  exact hstands.isFinalized_eq

/-- An operation that fails on finalized fragments and has succeeded was applied to another. -/
theorem finalizes_eq_false {p : Program} {f k : Fragment} {result : Option Fragment}
    (h : p.Proper) (hf : p.run = some f) (hfails : result = none ↔ f.isFinalized = true)
    (hresult : result = some k) : p.finalizes = false := by
  have hsome : result ≠ none := by simp [hresult]
  rwa [ne_eq, hfails, isFinalized_run h hf, Bool.not_eq_true] at hsome

theorem proper_of_run {p : Program} {f : Fragment} (h : p.run = some f) : p.Proper := by
  induction p generalizing f with
  | new => trivial
  | appendChar before c ih =>
      obtain ⟨k, hk, happend⟩ := Option.bind_eq_some_iff.mp h
      exact ⟨ih hk, finalizes_eq_false (ih hk) hk appendSet?_eq_none_iff happend⟩
  | appendSet before s ih =>
      obtain ⟨k, hk, happend⟩ := Option.bind_eq_some_iff.mp h
      exact ⟨ih hk, finalizes_eq_false (ih hk) hk appendSet?_eq_none_iff happend⟩
  | append before other ihb iho =>
      obtain ⟨k, hk, h⟩ := Option.bind_eq_some_iff.mp h
      obtain ⟨g, hg, happend⟩ := Option.bind_eq_some_iff.mp h
      exact ⟨ihb hk, finalizes_eq_false (ihb hk) hk append?_eq_none_iff happend, iho hg⟩
  | alternate before ih =>
      obtain ⟨k, hk, hclose⟩ := Option.bind_eq_some_iff.mp h
      exact ⟨ih hk, finalizes_eq_false (ih hk) hk alternate?_eq_none_iff hclose⟩
  | starLast before ih | plusLast before ih | starWhole before ih | plusWhole before ih
  | finalize before ih =>
      obtain ⟨k, hk, -⟩ := Option.bind_eq_some_iff.mp h
      exact ih hk

/-- A program fails exactly if it appends to a finalized fragment. -/
theorem exists_run_iff (p : Program) : (∃ f, p.run = some f) ↔ p.Proper := by
  constructor
  · rintro ⟨f, hf⟩
    exact proper_of_run hf
  · intro h
    obtain ⟨f, hf, -⟩ := p.run_stands h
    exact ⟨f, hf⟩

/-- A program that appends to no finalized fragment makes a fragment, and this accepts, when it is
finalized, the union of the branches of its atoms. -/
theorem language_finalize_run (p : Program) (h : p.Proper) :
    ∃ f, p.run = some f ∧ f.finalize.language = p.atoms.language := by
  obtain ⟨f, hf, hstands⟩ := p.run_stands h
  exact ⟨f, hf, hstands.finalize.language_eq.trans p.atoms.whole_branches⟩

/-- A looped fragment with a copy of itself in a second branch, repeated as a whole and, as the one
atom it is then, once more. -/
theorem language_finalize_run_spliced :
    let looped := Program.starLast (.appendChar .new 'a')
    let p := Program.plusLast (.starWhole (.append (.alternate looped) looped))
    p.Proper ∧ ∃ f, p.run = some f ∧ f.finalize.language = p.atoms.language := by
  intro looped p
  have hproper : p.Proper := by simp [p, looped, Proper, finalizes]
  exact ⟨hproper, language_finalize_run p hproper⟩

end Program

end LanguageSpec.Fragment
