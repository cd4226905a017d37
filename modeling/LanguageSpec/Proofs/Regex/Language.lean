import LanguageSpec.Frontend
import LanguageSpec.Proofs.Except
import LanguageSpec.Proofs.Fragment.Operations

/-!
# The language of a regex

A regex denotes the union of its branches, a branch the words of its items in their order. The
automaton that is built for a regex accepts this language.
-/

open Computability

namespace LanguageSpec

namespace Regex

def repeated (l : Language Char) : Option Repetition → Language Char
  | none => l
  | some .star => l∗
  | some .plus => l * l∗

def Atom.language : Atom → Language Char
  | .char c => {[c]}
  | .oneOf s => Fragment.letters {c | c ∈ s}
  | .named r => r.fragment.language

def branches : Regex → Branches
  | .empty => .new
  | .atom before a times => before.branches.append (repeated a.language times)
  | .group before inner times => before.branches.append (repeated inner.branches.whole times)
  | .bar before => before.branches.alternate

def language (r : Regex) : Language Char := r.branches.whole

/-- Whether all recognizers that a regex refers to have a property. -/
def Refers (P : Recognizer → Prop) : Regex → Prop
  | .empty => True
  | .atom before a _ => before.Refers P ∧ ∀ x, a = .named x → P x
  | .group before inner _ => before.Refers P ∧ inner.Refers P
  | .bar before => before.Refers P

end Regex

def Recognizer.Sound (x : Recognizer) : Prop := ∃ b, x.fragment.Finished b

def Registry.Sound (r : Registry) : Prop := ∀ name x, r.get? name = some x → x.Sound

namespace Regex

open Fragment (Unfinished Finished)

theorem appendTo?_unfinished {f : Fragment} {b : Branches} (hf : Unfinished f b) (a : Atom)
    (ha : ∀ x, a = .named x → x.Sound) :
    ∃ k, a.appendTo? f = some k ∧ Unfinished k (b.append a.language) := by
  cases a with
  | char c =>
      rw [Atom.language, ← Fragment.letters_ofList_singleton]
      exact hf.appendSet _
  | oneOf s => exact hf.appendSet s
  | named x =>
      obtain ⟨c, hc⟩ := ha x rfl
      rw [Atom.language, hc.language_eq]
      exact hf.append hc

theorem repeatLast_unfinished {f : Fragment} {b : Branches} {l : Language Char}
    (hf : Unfinished f (b.append l)) (times : Option Repetition) :
    Unfinished (repeatLast f times) (b.append (repeated l times)) := by
  rcases times with _ | _ | _
  · exact hf
  · exact hf.starLast
  · exact hf.plusLast

theorem repeatWhole_append {f g : Fragment} {b c : Branches} (hf : Unfinished f b)
    (hg : Unfinished g c) (times : Option Repetition) :
    ∃ k, f.append? (repeatWhole g times) = some k ∧
      Unfinished k (b.append (repeated c.whole times)) := by
  rcases times with _ | _ | _
  · rw [repeatWhole, ← Fragment.append?_finalize]
    exact hf.append hg.finished
  · have happended := hf.append hg.finished.starWhole
    rwa [Fragment.starWhole_finalize, Branches.whole_single] at happended
  · have happended := hf.append hg.finished.plusWhole
    rwa [Fragment.plusWhole_finalize, Branches.whole_single] at happended

/-- The automaton of a regex exists and has its branches. -/
theorem fragment?_unfinished (r : Regex) (h : r.Refers Recognizer.Sound) :
    ∃ f, r.fragment? = some f ∧ Unfinished f r.branches := by
  induction r with
  | empty => exact ⟨.new, rfl, Fragment.unfinished_new⟩
  | atom before a times ih =>
      obtain ⟨f, hf, hbefore⟩ := ih h.1
      obtain ⟨k, hk, happended⟩ := appendTo?_unfinished hbefore a h.2
      refine ⟨repeatLast k times, ?_, repeatLast_unfinished happended times⟩
      simp [fragment?, hf, hk]
  | group before inner times ihb ihi =>
      obtain ⟨f, hf, hbefore⟩ := ihb h.1
      obtain ⟨g, hg, hinner⟩ := ihi h.2
      obtain ⟨k, hk, happended⟩ := repeatWhole_append hbefore hinner times
      refine ⟨k, ?_, happended⟩
      simp [fragment?, hf, hg, hk]
  | bar before ih =>
      obtain ⟨f, hf, hbefore⟩ := ih h
      obtain ⟨k, hk, hclosed⟩ := hbefore.alternate
      refine ⟨k, ?_, hclosed⟩
      simp [fragment?, hf, hk]

end Regex

end LanguageSpec
