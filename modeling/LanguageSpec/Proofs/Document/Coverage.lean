import LanguageSpec.Proofs.Coverage
import LanguageSpec.Proofs.Document.Words

/-!
# Coverage of a document

The pieces of a document cover its text. A definition stands in the text with a dollar sign in front
of its name, every other piece as it is. Between the pieces are blanks and comments; around a regex
these may be any white space of the character standard, elsewhere only the blanks of a line.
-/

namespace LanguageSpec.Document

/-- The characters that a word was read from. -/
def spelling (w : Option Kind × String) : List Char :=
  if w.1 = some .definition then '$' :: w.2.toList else w.2.toList

theorem spelling_of_ne {w : Option Kind × String} (h : w.1 ≠ some .definition) :
    spelling w = w.2.toList := if_neg h

@[simp] theorem spelling_definition (name : List Char) :
    spelling (some .definition, String.ofList name) = '$' :: name := by
  simp [spelling]

theorem spelling_ofList (kind : Option Kind) (h : kind ≠ some .definition) (cs : List Char) :
    spelling (kind, String.ofList cs) = cs := by
  rw [spelling_of_ne h, String.toList_ofList]

/-- The line and the column behind some characters of a text. -/
def placeBehind (front : List Char) : Position :=
  ⟨1 + front.count '\n', 1 + (front.reverse.takeWhile (· ≠ '\n')).length⟩

/-- What lies behind some tokens, and in front of the rest of a text, without being a piece. -/
inductive Skipped (before : List Kind) : List Char → List Char → Prop
  | space {c : Char} {rest : List Char} (hc : isSpace c = true) : Skipped before [c] rest
  | blanks {cs rest : List Char} (hcs : AreBlanks cs)
      (hbefore : before.getLast? = some .definition ∨ before.getLast? = some .regex) :
      Skipped before cs rest
  | comment {line rest : List Char} (hline : '\n' ∉ line) (hrest : EndsLine rest) :
      Skipped before ('-' :: '-' :: line) rest

/-- A token looks like its kind, and a regex stands behind a definition and nowhere else. -/
structure Fits (before : List Kind) (kind : Kind) (text : String) : Prop where
  form : Form kind text.toList
  regex_iff : kind = .regex ↔ before.getLast? = some .definition

/-- Pieces of a document stand by lines and columns of characters. -/
abbrev layout : Layout Kind := ⟨spelling, placeBehind, Skipped, Fits⟩

theorem counts_layout : scanner.Counts layout := by
  intro front c
  change (placeBehind front).next c = placeBehind (front ++ [c])
  by_cases hc : c = '\n'
  · subst hc
    simp [Position.next, placeBehind, Nat.add_assoc]
  · simp [Position.next, Position.right, placeBehind, hc, Nat.add_comm]

/-! ## Lexemes -/

/-- No definition waits for its regex. -/
def Settled (before : List Kind) : Prop := before.getLast? ≠ some .definition

variable {before : List Kind} {c : Char} {cs : List Char} {x : DocumentLexeme}

theorem Cut.settled (h : Cut c cs x) (hbefore : Settled before) :
    Settled (before ++ x.marks.filterMap Mark.kind) := by
  cases h with
  | space | comment | unrecognized =>
      change Settled (before ++ [])
      rwa [List.append_nil]
  | token hform hkind => simp [Settled, Lexeme.token, hkind.1]
  | definition hname hline => simp [Settled]

theorem fits_of_form {kind : Kind} {ds : List Char} (hform : Form kind ds)
    (hregex : kind = .regex ↔ before.getLast? = some .definition) :
    ∀ k, some kind = some k → Fits before k (String.ofList ds) := by
  intro k hk
  obtain rfl := Option.some.inj hk
  exact ⟨by rwa [String.toList_ofList], hregex⟩

theorem passes_definition {name blanks regex trail rest : List Char}
    (hname : Form .definition name) (hregex : Form .regex regex) (hblanks : AreBlanks blanks)
    (htrail : AreBlanks trail) (hbefore : Settled before) :
    scanner.Passes layout before '$' (name ++ (blanks ++ (regex ++ trail)) ++ rest)
      { more := (name ++ (blanks ++ (regex ++ trail))).length
        marks :=
          [⟨some .definition, 0, name⟩, ⟨some .regex, 1 + name.length + blanks.length, regex⟩]
        next := () } := by
  intro front ps hps
  have htext : '$' :: (name ++ (blanks ++ (regex ++ trail)) ++ rest) =
      '$' :: name ++ (blanks ++ (regex ++ (trail ++ rest))) := by simp
  have hlead : front ++ ('$' :: name ++ (blanks ++ (regex ++ (trail ++ rest)))).take
      (1 + name.length + blanks.length) = front ++ '$' :: name ++ blanks := by
    rw [Nat.add_assoc, Nat.add_comm 1, List.cons_append, List.take_succ_cons,
      List.take_length_add_append, List.take_left, List.append_assoc, List.cons_append]
  dsimp only at hps ⊢
  rw [List.take_left, List.drop_left] at hps
  rw [htext]
  -- the name, the blanks behind it, the regex, and the blanks that were trimmed off
  refine Scanner.covers_place counts_layout (some .definition) (spelling_definition name)
    (List.append_nil front) ?hname (.skip (.blanks hblanks (.inl List.getLast?_concat)) ?_)
  case hname => exact fits_of_form hname ⟨nofun, fun h => absurd h hbefore⟩
  refine Scanner.covers_place counts_layout (some .regex)
    (spelling_ofList (some .regex) (by decide) regex) hlead ?hregex
    (.skip (.blanks htrail (.inr List.getLast?_concat)) ?_)
  case hregex => exact fits_of_form hregex ⟨fun _ => List.getLast?_concat, fun _ => rfl⟩
  simpa using hps

theorem Cut.passes (h : Cut c cs x) (hbefore : Settled before) :
    scanner.Passes layout before c cs x := by
  cases h with
  | space hc => exact Scanner.passes_gap [] () (.space hc)
  | comment hline hrest => exact Scanner.passes_gap _ () (.comment hline hrest)
  | token hform hkind =>
      have hspelling := spelling_ofList _ fun h => hkind.1 (Option.some.inj h)
      refine Scanner.passes_whole counts_layout _ () (hspelling _) (fits_of_form hform ?_)
      exact ⟨fun h => absurd h hkind.2, fun h => absurd h hbefore⟩
  | unrecognized =>
      have hspelling := spelling_ofList none (by decide)
      exact Scanner.passes_whole counts_layout _ () (hspelling _) nofun
  | definition hname hregex hblanks htrail =>
      exact passes_definition (.definition hname) hregex hblanks htrail hbefore

/-- A definition is at least a dollar sign and a letter, so its two pieces take two characters. -/
theorem Cut.length_marks_le (h : Cut c cs x) :
    x.marks.length + (cs.drop x.more).length ≤ cs.length + 1 := by
  cases h with
  | space => simp [Lexeme.skip]
  | comment =>
      dsimp only
      rw [List.drop_left, List.length_append, List.length_nil]
      omega
  | token | unrecognized =>
      simp only [Lexeme.token, Lexeme.unrecognized, List.drop_left, List.length_append,
        List.length_singleton]
      omega
  | definition hname =>
      obtain ⟨d, ds, rfl, -⟩ := Text.isName_eq_true_iff.mp hname
      dsimp only
      rw [List.drop_left]
      simp only [List.length_append, List.length_cons, List.length_nil]
      omega

/-! ## Documents -/

variable {text : String} {ts : List Token}

theorem covers_pieces (text : String) : layout.Covers [] [] text.toList (pieces text) := by
  have hnone : Settled [] := by simp [Settled]
  refine Scanner.covers_scan (I := fun _ => Settled) counts_layout ?_ hnone [] text.toList
  intro mode before c cs hbefore
  exact ⟨(Cut.read c cs).passes hbefore, (Cut.read c cs).settled hbefore⟩

/-- A document is read to no more pieces than it has characters. -/
theorem length_pieces_le (text : String) : (pieces text).length ≤ text.toList.length :=
  Scanner.length_scan_le (fun _ c cs => (Cut.read c cs).length_marks_le) () .first text.toList

theorem form_of_mem_pieces (h : (pieces text).mapM (Piece.toToken .unrecognized) = .ok ts) :
    ∀ t ∈ ts, Form t.kind t.text.toList := by
  intro t ht
  obtain ⟨front, back, rfl⟩ := List.append_of_mem ht
  exact ((covers_pieces text).fits (Piece.mapM_toToken_eq_ok_iff.mp h)).form

theorem eq_of_mem_closing {t : Token} (ht : t ∈ closing text ts) :
    t = ⟨.lineFeed, "\n", endPosition text⟩ ∨ t = ⟨.endOfText, "", endPosition text⟩ := by
  rcases List.mem_append.mp ht with ht | ht
  · split at ht
    · split at ht
      · cases ht
      · exact Or.inl (List.mem_singleton.mp ht)
    · cases ht
  · exact Or.inr (List.mem_singleton.mp ht)

theorem form_of_mem_closing : ∀ t ∈ closing text ts, Form t.kind t.text.toList := by
  intro t ht
  rcases eq_of_mem_closing ht with rfl | rfl
  · have hchars : "\n".toList = ['\n'] := by decide
    rw [hchars]
    exact .lineFeed
  · exact .endOfText

/-- Every token of a text has a form of its kind. -/
theorem form_of_mem_tokens (h : tokens text = .ok ts) : ∀ t ∈ ts, Form t.kind t.text.toList := by
  obtain ⟨us, hus, h⟩ := bind_eq_ok_iff.mp h
  obtain rfl := Except.ok.inj h
  exact List.forall_mem_append.mpr ⟨form_of_mem_pieces hus, form_of_mem_closing⟩

end LanguageSpec.Document
