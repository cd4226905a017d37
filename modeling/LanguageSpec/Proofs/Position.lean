import LanguageSpec.Error
import Mathlib.Data.List.TakeDrop

/-!
# Places in a text

A position that is counted from the front of a text, line by line and character by character, is one
that can be looked up in the lines of the text.
-/

namespace LanguageSpec.Position

/-- The place behind some characters. -/
def past (p : Position) (cs : List Char) : Position := cs.foldl next p

/-- A word stands at a place of a text. -/
def Marks (p : Position) (text word : List Char) : Prop :=
  ∃ front back, text = front ++ word ++ back ∧ p = first.past front

/-- A place of a text by lines and columns, the ends of the lines included. -/
structure InLines (p : Position) (text : List Char) : Prop where
  line_pos : 1 ≤ p.line
  line_le : p.line ≤ 1 + text.count '\n'
  column : ∃ line, (text.splitOn '\n')[p.line - 1]? = some line ∧
    1 ≤ p.column ∧ p.column ≤ 1 + line.length

/-- The line that a place is on goes on with a word there. -/
def Spells (p : Position) (text word : List Char) : Prop :=
  ∃ line, (text.splitOn '\n')[p.line - 1]? = some line ∧ word <+: line.drop (p.column - 1)

variable {p : Position} {text word : List Char} {c : Char} {cs ds front back : List Char}

@[simp] theorem past_nil : p.past [] = p := rfl

@[simp] theorem past_cons : p.past (c :: cs) = (p.next c).past cs := rfl

theorem past_append : p.past (cs ++ ds) = (p.past cs).past ds := List.foldl_append

namespace Marks

theorem nil (h : p.Marks text word) : p.Marks text [] := by
  obtain ⟨front, back, rfl, rfl⟩ := h
  exact ⟨front, word ++ back, by simp, rfl⟩

/-- A word within a word stands behind what comes before it. -/
theorem inner (h : p.Marks text (front ++ word ++ back)) : (p.past front).Marks text word := by
  obtain ⟨before, after, rfl, rfl⟩ := h
  exact ⟨before ++ front, back ++ after, by simp, past_append.symm⟩

theorem stop (h : p.Marks text word) : (p.past word).Marks text [] := by
  have hwhole : p.Marks text (word ++ [] ++ []) := by simpa using h
  exact hwhole.inner

end Marks

/-! ## Lines -/

theorem takeWhile_append_of_notMem (h : '\n' ∉ word) (back : List Char) :
    (word ++ back).takeWhile (· ≠ '\n') = word ++ back.takeWhile (· ≠ '\n') := by
  refine List.takeWhile_append_of_pos fun c hc => ?_
  have hne : c ≠ '\n' := fun he => h (he ▸ hc)
  simpa using hne

theorem getElem?_zero_splitOn (cs : List Char) :
    (cs.splitOn '\n')[0]? = some (cs.takeWhile (· ≠ '\n')) := by
  induction cs with
  | nil => rfl
  | cons c cs ih =>
      rw [List.splitOn_cons_eq_if_modifyHead]
      by_cases hc : c = '\n'
      · subst hc
        rfl
      · cases hlines : cs.splitOn '\n' with
        | nil => simp [hlines] at ih
        | cons l ls => simp_all

theorem length_splitOn (cs : List Char) : (cs.splitOn '\n').length = 1 + cs.count '\n' := by
  induction cs with
  | nil => rfl
  | cons c cs ih =>
      rw [List.splitOn_cons_eq_if_modifyHead, List.count_cons]
      split
      · rw [List.length_cons, ih, Nat.add_assoc]
      · rw [List.length_modifyHead, ih, Nat.add_zero]

/-- Behind some characters, the line they end in goes on with what follows. -/
theorem exists_line_past (front : List Char) {behind : List Char} (hbehind : '\n' ∉ behind)
    (hp : p.column = 1 + behind.length) (back : List Char) :
    ∃ behind', (p.past front).column = 1 + behind'.length ∧ p.line ≤ (p.past front).line ∧
      ((behind ++ front ++ back).splitOn '\n')[(p.past front).line - p.line]? =
        some (behind' ++ back.takeWhile (· ≠ '\n')) := by
  induction front generalizing p behind with
  | nil =>
      refine ⟨behind, hp, Nat.le_refl _, ?_⟩
      rw [past_nil, Nat.sub_self, List.append_nil, getElem?_zero_splitOn,
        takeWhile_append_of_notMem hbehind]
  | cons c front ih =>
      by_cases hc : c = '\n'
      · subst hc
        have hnone : '\n' ∉ ([] : List Char) := List.not_mem_nil
        obtain ⟨behind', hcolumn, hline, hlines⟩ := ih (p := p.next '\n') hnone rfl
        have hnext : (p.next '\n').line = p.line + 1 := rfl
        rw [hnext] at hline hlines
        refine ⟨behind', hcolumn, Nat.le_of_succ_le hline, ?_⟩
        have hsplit : (behind ++ '\n' :: front ++ back).splitOn '\n' =
            behind :: (front ++ back).splitOn '\n' := by
          rw [List.append_assoc]
          exact List.splitOn_append_cons_self_of_not_mem hbehind _
        have hindex : ((p.past ('\n' :: front)).line - p.line) =
            ((p.next '\n').past front).line - (p.line + 1) + 1 := by
          rw [past_cons]
          omega
        rw [hsplit, hindex, List.getElem?_cons_succ]
        exact hlines
      · have hnext : p.next c = p.right 1 := if_neg hc
        have hbehind' : '\n' ∉ behind ++ [c] := by
          simpa [hbehind] using Ne.symm hc
        have hcolumn : (p.next c).column = 1 + (behind ++ [c]).length := by
          rw [hnext, List.length_append, right, hp, Nat.add_assoc]
          rfl
        have hline : (p.next c).line = p.line := by rw [hnext, right]
        have hrest := ih hbehind' hcolumn
        have happend : behind ++ [c] ++ front = behind ++ c :: front := by simp
        rwa [hline, happend] at hrest

theorem Marks.inLines (h : p.Marks text word) : p.InLines text := by
  obtain ⟨front, back, rfl, rfl⟩ := h
  obtain ⟨behind, hcolumn, hline, hlines⟩ :=
    exists_line_past (p := first) front List.not_mem_nil rfl (word ++ back)
  rw [List.nil_append, ← List.append_assoc] at hlines
  have hlt := (List.getElem?_eq_some_iff.mp hlines).1
  rw [length_splitOn] at hlt
  have hone : first.line = 1 := rfl
  refine ⟨hline, by omega, _, hlines, by omega, ?_⟩
  rw [hcolumn, List.length_append]
  omega

theorem Marks.spells (h : p.Marks text word) (hword : '\n' ∉ word) : p.Spells text word := by
  obtain ⟨front, back, rfl, rfl⟩ := h
  obtain ⟨behind, hcolumn, -, hlines⟩ :=
    exists_line_past (p := first) front List.not_mem_nil rfl (word ++ back)
  rw [List.nil_append, ← List.append_assoc] at hlines
  refine ⟨_, hlines, ?_⟩
  rw [hcolumn, Nat.add_sub_cancel_left, List.drop_left, takeWhile_append_of_notMem hword]
  exact List.prefix_append _ _

end LanguageSpec.Position

namespace LanguageSpec

/-- Whether an error points into a text, to the name that it is about if there is one. The name of a
definition stands there with a dollar sign, a non-terminal in brackets. -/
def Error.Located (text : List Char) : Error → Prop
  | .malformed _ pos => pos.InLines text
  | .misstructured _ pos => pos.InLines text
  | .undefinedReference name pos => pos.InLines text ∧
      (pos.Spells text ('$' :: name.toList) ∨
        (∃ inner, name.toList = '<' :: inner ++ ['>']) ∧ pos.Spells text name.toList)
  | .notACharacterClass name pos => pos.InLines text ∧ pos.Spells text ('$' :: name.toList)
  | .conflict .. => True

end LanguageSpec
