import LanguageSpec.Proofs.Document.Munch
import Mathlib.Data.List.DropRight

/-!
# Words of a document

What the tokens of a document look like, by their kinds, what can be in front of a document, and
that a token of such a look is found again where a blank or the end of the line stands behind it.
-/

namespace LanguageSpec.Document

/-- What a token of a kind can look like. -/
inductive Form : Kind → List Char → Prop
  | definition {name : List Char} (h : Text.isName Text.isNameRest name = true) :
      Form .definition name
  | regex {cs : List Char} (hline : '\n' ∉ cs) (hfront : cs.dropWhile Text.isBlank = cs)
      (hback : Text.trimRight cs = cs) : Form .regex cs
  | nonTerminal {name : List Char} (h : Text.isName isBracketedRest name = true) :
      Form .nonTerminal ('<' :: name ++ ['>'])
  | identifier {name : List Char} (h : Text.isName Text.isNameRest name = true)
      (hne : name ≠ epsilonWord) : Form .terminal name
  | sign {c : Char} (h : isSign c = true) : Form .terminal [c]
  | arrow : Form .arrow ['-', '>']
  | longArrow : Form .arrow [':', ':', '=']
  | bar : Form .bar ['|']
  | epsilon : Form .epsilon epsilonWord
  | lineFeed : Form .lineFeed ['\n']
  | blockEnd : Form .blockEnd ['%', '%']
  | endOfText : Form .endOfText []

/-! ## Blanks at the ends -/

theorem trimRight_trimRight (cs : List Char) :
    Text.trimRight (Text.trimRight cs) = Text.trimRight cs :=
  List.rdropWhile_idempotent Text.isBlank cs

theorem mem_of_mem_trimRight {c : Char} {cs : List Char} (h : c ∈ Text.trimRight cs) : c ∈ cs :=
  (List.rdropWhile_prefix Text.isBlank cs).subset h

/-- Blanks that are not in front of a text are not in front of what is left of it. -/
theorem dropWhile_trimRight {cs : List Char} (h : cs.dropWhile Text.isBlank = cs) :
    (Text.trimRight cs).dropWhile Text.isBlank = Text.trimRight cs := by
  obtain ⟨rest, hrest⟩ := List.rdropWhile_prefix Text.isBlank cs
  cases htrim : Text.trimRight cs with
  | nil => rfl
  | cons d ds =>
      have hcs : cs = d :: (ds ++ rest) := by
        rw [← hrest]
        exact congrArg (· ++ rest) htrim
      have hd : ¬ Text.isBlank d = true := by
        rw [hcs] at h
        exact List.dropWhile_eq_self_iff.mp h (Nat.zero_lt_succ _)
      exact List.dropWhile_cons_of_neg hd

/-! ## Lexemes -/

/-- The rest of a text behind a line. -/
def EndsLine (rest : List Char) : Prop := rest = [] ∨ rest.head? = some '\n'

/-- Blanks on one line. -/
def AreBlanks (cs : List Char) : Prop := ∀ c ∈ cs, Text.isBlank c = true ∧ c ≠ '\n'

/-- What can be in front of a document. -/
inductive Cut : Char → List Char → DocumentLexeme → Prop
  | space {c : Char} {rest : List Char} (hc : isSpace c = true) : Cut c rest (.skip ())
  | comment {line rest : List Char} (hline : '\n' ∉ line) (hrest : EndsLine rest) :
      Cut '-' ('-' :: line ++ rest) ⟨('-' :: line).length, [], ()⟩
  | token {kind : Kind} {c : Char} {ds rest : List Char} (hform : Form kind (c :: ds))
      (hkind : kind ≠ .definition ∧ kind ≠ .regex) : Cut c (ds ++ rest) (.token kind c ds ())
  | unrecognized {c : Char} {ds rest : List Char} : Cut c (ds ++ rest) (.unrecognized c ds ())
  | definition {name blanks regex trail rest : List Char}
      (hname : Text.isName Text.isNameRest name = true) (hregex : Form .regex regex)
      (hblanks : AreBlanks blanks) (htrail : AreBlanks trail) :
      Cut '$' (name ++ (blanks ++ (regex ++ trail)) ++ rest)
        { more := (name ++ (blanks ++ (regex ++ trail))).length
          marks :=
            [⟨some .definition, 0, name⟩, ⟨some .regex, 1 + name.length + blanks.length, regex⟩]
          next := () }

theorem form_regex {line : List Char} (h : '\n' ∉ line) :
    Form .regex (Text.trimRight (line.dropWhile Text.isBlank)) := by
  refine .regex ?_ (dropWhile_trimRight (List.dropWhile_idempotent _ _)) (trimRight_trimRight _)
  intro hline
  exact h ((List.dropWhile_sublist _).subset (mem_of_mem_trimRight hline))

/-- What a definition marks, given its name and what belongs to it behind the name. -/
theorem definitionMarks_append {name rest : List Char}
    (hname : Text.isName Text.isNameRest name = true)
    (hrest : ∀ d ∈ rest.head?, Text.isNameRest d = false) :
    definitionMarks (name ++ rest) =
      [⟨some .definition, 0, name⟩,
        ⟨some .regex, 1 + name.length + (rest.takeWhile Text.isBlank).length,
          Text.trimRight (rest.dropWhile Text.isBlank)⟩] := by
  have hall := Text.isNameRest_of_isName hname
  have hstop : rest.takeWhile Text.isNameRest = [] ∧ rest.dropWhile Text.isNameRest = rest := by
    cases rest with
    | nil => exact ⟨rfl, rfl⟩
    | cons d ds =>
        have hd : ¬ Text.isNameRest d = true := by simp [hrest d rfl]
        exact ⟨List.takeWhile_cons_of_neg hd, List.dropWhile_cons_of_neg hd⟩
  rw [definitionMarks, List.takeWhile_append_of_pos hall, List.dropWhile_append_of_pos hall,
    hstop.1, hstop.2, List.append_nil]

namespace Cut

variable {kind : Kind} {c : Char} {cs ds more name : List Char} {x : Found}

/-- The rest of a definition's line is its regex with blanks at both ends. -/
theorem line {line : List Char} (hname : Text.isName Text.isNameRest name = true)
    (hline : '\n' ∉ line) (rest : List Char) :
    Cut '$' (name ++ (line ++ rest))
      { more := name.length + line.length
        marks :=
          [⟨some .definition, 0, name⟩,
            ⟨some .regex, 1 + name.length + (line.takeWhile Text.isBlank).length,
              Text.trimRight (line.dropWhile Text.isBlank)⟩]
        next := () } := by
  have htrim : Text.trimRight (line.dropWhile Text.isBlank) ++
      (line.dropWhile Text.isBlank).rtakeWhile Text.isBlank = line.dropWhile Text.isBlank :=
    List.rdropWhile_append_rtakeWhile
  have hsplit : line.takeWhile Text.isBlank ++ (Text.trimRight (line.dropWhile Text.isBlank) ++
      (line.dropWhile Text.isBlank).rtakeWhile Text.isBlank) = line := by
    rw [htrim, List.takeWhile_append_dropWhile]
  have hblanks : AreBlanks (line.takeWhile Text.isBlank) := fun c hc =>
    ⟨List.mem_takeWhile_imp hc, fun he => hline (he ▸ (List.takeWhile_sublist _).subset hc)⟩
  have htrail : AreBlanks ((line.dropWhile Text.isBlank).rtakeWhile Text.isBlank) := by
    refine fun c hc => ⟨List.mem_rtakeWhile_imp hc, fun he => hline ?_⟩
    exact he ▸ (List.dropWhile_sublist _).subset ((List.rtakeWhile_suffix _ _).subset hc)
  have hcut := @definition name _ _ _ rest hname (form_regex hline) hblanks htrail
  rwa [hsplit, List.append_assoc, List.length_append] at hcut

/-- A comment that is not longer ends its line. -/
theorem endsLine_of_longest {line rest : List Char} (hline : '\n' ∉ line)
    (h : Longest ('-' :: '-' :: (line ++ rest)) .comment ('-' :: '-' :: line)) :
    EndsLine rest := by
  cases rest with
  | nil => exact .inl rfl
  | cons d ds =>
      refine .inr (congrArg some (Classical.not_not.mp fun hd => ?_))
      have hmore : '\n' ∉ line ++ [d] := by simp [hline, Ne.symm hd]
      have hfront : '-' :: '-' :: (line ++ [d]) <+: '-' :: '-' :: (line ++ d :: ds) :=
        ⟨ds, by simp⟩
      have hle := h.longest .comment _ hfront (.comment hmore)
      simp only [List.length_cons, List.length_append, List.length_nil] at hle
      omega

/-- The longest match in front of a text, as it is read. -/
theorem of_longest {p : Pattern} (h : Longest (c :: cs) p (c :: more)) :
    Cut c cs (Found.lexeme ⟨some p, more⟩ c) := by
  obtain ⟨rest, hrest⟩ := h.front
  obtain rfl : more ++ rest = cs := (List.cons.inj hrest).2
  have hmatched := h.matched
  cases hmatched with
  | lineFeed => exact token .lineFeed (by decide)
  | comment hline => exact comment hline (endsLine_of_longest hline h)
  | name hname =>
      have hcut := line hname List.not_mem_nil rest
      have hmarks := @definitionMarks_append more [] hname fun d hd => by cases hd
      rw [List.append_nil] at hmarks
      rw [← hmarks] at hcut
      exact hcut
  | @definition name line d hname hd hline =>
      have hnot : Text.isNameRest d = false := by rcases hd with rfl | rfl <;> decide
      have hmore : '\n' ∉ d :: line := by
        rw [List.mem_cons, not_or]
        refine ⟨?_, hline⟩
        rcases hd with rfl | rfl <;> decide
      have hcut := Cut.line hname hmore rest
      have hmarks := @definitionMarks_append name (d :: line) hname (by simpa using hnot)
      rw [← hmarks, ← List.append_assoc, ← List.length_append] at hcut
      exact hcut
  | blockEnd => exact token .blockEnd (by decide)
  | arrow => exact token .arrow (by decide)
  | longArrow => exact token .longArrow (by decide)
  | bar => exact token .bar (by decide)
  | epsilon => exact token .epsilon (by decide)
  | nonTerminal hname => exact token (.nonTerminal hname) (by decide)
  | identifier hname =>
      refine token (.identifier hname fun hword => ?_) (by decide)
      rcases h.preferred .epsilon (hword ▸ .epsilon) with he | he <;> cases he
  | sign hc => exact token (.sign hc) (by decide)

theorem of_munch (h : Munch c cs x) : Cut c cs (x.lexeme c) := by
  cases h with
  | longest h => exact of_longest h
  | unclosed h =>
      cases h with
      | mk => exact unrecognized
  | foreign => exact @unrecognized c [] cs

theorem read (c : Char) (cs : List Char) : Cut c cs (read c cs) :=
  iteInduction (fun hc => space hc) fun _ => of_munch (munch_longest c cs)

end Cut

/-! ## Tokens are found again -/

/-- What may stand behind a token in a line that is written with single blanks. -/
def Separates (c : Char) : Prop := c = ' ' ∨ c = '\n'

theorem Separates.not_isNameStart {c : Char} (h : Separates c) : Text.isNameStart c = false := by
  rcases h with rfl | rfl <;> decide

theorem Separates.not_isNameRest {c : Char} (h : Separates c) : Text.isNameRest c = false := by
  rcases h with rfl | rfl <;> decide

theorem Separates.not_isSign {c : Char} (h : Separates c) : isSign c = false := by
  rcases h with rfl | rfl <;> decide

theorem read_blank (cs : List Char) : read ' ' cs = .skip () := rfl

theorem read_lineFeed (cs : List Char) : read '\n' cs = .token .lineFeed '\n' [] () := rfl

theorem munch_dollar (cs : List Char) : munch '$' cs =
    if nameIn Text.isNameRest cs = [] then ⟨none, []⟩
    else ⟨some .definition, nameIn Text.isNameRest cs ++
      definitionRest (cs.drop (nameIn Text.isNameRest cs).length)⟩ := rfl

theorem read_angle (cs : List Char) : read '<' cs =
    (munchAngle (nameIn isBracketedRest cs)
      (cs.drop (nameIn isBracketedRest cs).length)).lexeme '<' := rfl

theorem plain_of_isSign {c : Char} (h : isSign c = true) :
    isSpace c = false ∧ c ≠ '\n' ∧ c ≠ '$' ∧ c ≠ '|' ∧ Text.isNameStart c = false := by
  have hall : ("-~`!@#%^&*+=\\<>?/;()[]\x7b\x7d,.'\":").toList.all (fun c =>
      !isSpace c && c != '\n' && c != '$' && c != '|' && !Text.isNameStart c) = true := by
    decide
  have hplain := List.all_eq_true.mp hall c (List.contains_iff_mem.mp h)
  simpa [and_assoc] using hplain

theorem read_sign {c d : Char} (hc : isSign c = true) (hd : Separates d) (rest : List Char) :
    read c (d :: rest) = .token .terminal c [] () := by
  obtain ⟨hspace, hfeed, hdollar, hbar, hname⟩ := plain_of_isSign hc
  have hne : ∀ e, isSign e = true → d ≠ e := by
    rintro e he rfl
    rw [hd.not_isSign] at he
    cases he
  by_cases hangle : c = '<'
  · subst hangle
    have hnone : nameIn isBracketedRest (d :: rest) = [] := by
      rw [nameIn, hd.not_isNameStart]
      rfl
    rw [read_angle, hnone]
    rfl
  · have hdash : d ≠ '-' := hne '-' (by decide)
    have hclose : d ≠ '>' := hne '>' (by decide)
    have hcolon : d ≠ ':' := hne ':' (by decide)
    have hpercent : d ≠ '%' := hne '%' (by decide)
    have hmunch : munch c (d :: rest) = ⟨some .sign, []⟩ := by
      rw [munch, if_neg hfeed, if_neg hdollar, if_neg hangle, if_neg hbar,
        if_neg fun h => hdash (Option.some.inj h.2), if_neg fun h => hclose (Option.some.inj h.2),
        if_neg fun h => hcolon (List.cons.inj h.2).1,
        if_neg fun h => hpercent (Option.some.inj h.2), if_neg (ne_true_of_eq_false hname),
        if_pos hc]
    rw [read, if_neg (ne_true_of_eq_false hspace), hmunch]
    rfl

theorem read_name {c d : Char} {cs : List Char}
    (h : Text.isName Text.isNameRest (c :: cs) = true) (hd : Separates d) (rest : List Char) :
    read c (cs ++ d :: rest) =
      .token (if c :: cs = epsilonWord then .epsilon else .terminal) c cs () := by
  obtain ⟨e, es, hcons, hc, hcs⟩ := Text.isName_eq_true_iff.mp h
  obtain ⟨rfl, rfl⟩ := List.cons.inj hcons
  have hother : ∀ e, Text.isNameStart e = false → c ≠ e := by
    rintro e he rfl
    rw [he] at hc
    cases hc
  have hspace : isSpace c = false := by
    simp [isSpace, hother ' ' (by decide), hother '\t' (by decide), hother '\r' (by decide),
      hother '\x0c' (by decide)]
  have hrun : (cs ++ d :: rest).takeWhile Text.isNameRest = cs :=
    Scanner.takeWhile_append_cons hcs hd.not_isNameRest
  have hdash := hother '-' (by decide)
  have hmunch : munch c (cs ++ d :: rest) =
      ⟨some (if c :: cs = epsilonWord then .epsilon else .identifier), cs⟩ := by
    rw [munch, if_neg (hother '\n' (by decide)), if_neg (hother '$' (by decide)),
      if_neg (hother '<' (by decide)), if_neg (hother '|' (by decide)), if_neg fun h => hdash h.1,
      if_neg fun h => hdash h.1, if_neg fun h => hother ':' (by decide) h.1,
      if_neg fun h => hother '%' (by decide) h.1, if_pos hc, hrun]
  rw [read, if_neg (ne_true_of_eq_false hspace), hmunch]
  split <;> rfl

theorem read_nonTerminal {name : List Char} (h : Text.isName isBracketedRest name = true)
    (rest : List Char) :
    read '<' (name ++ ['>'] ++ rest) = .token .nonTerminal '<' (name ++ ['>']) () := by
  have hname : nameIn isBracketedRest (name ++ '>' :: rest) = name :=
    nameIn_append_cons h (by decide)
  have hne : name ≠ [] := by
    rintro rfl
    cases h
  rw [List.append_assoc, List.singleton_append, read_angle, hname, List.drop_left, munchAngle,
    if_neg hne]
  rfl

/-- The rest of a line behind a name is its regex again, if no blanks were at its ends. -/
theorem read_definition {name regex : List Char}
    (hname : Text.isName Text.isNameRest name = true) (h : Form .regex regex)
    (rest : List Char) :
    ∃ lead, read '$' (name ++ ' ' :: (regex ++ '\n' :: rest)) =
      { more := name.length + (regex.length + 1)
        marks := [⟨some .definition, 0, name⟩, ⟨some .regex, lead, regex⟩]
        next := () } := by
  cases h with
  | regex hline hfront hback =>
      have hin : nameIn Text.isNameRest (name ++ ' ' :: (regex ++ '\n' :: rest)) = name :=
        nameIn_append_cons hname (by decide)
      have hne : name ≠ [] := by
        rintro rfl
        cases hname
      have hrest : definitionRest (' ' :: (regex ++ '\n' :: rest)) = ' ' :: regex := by
        rw [definitionRest, if_pos (.inl rfl), restOfLine, ← List.cons_append]
        refine Scanner.takeWhile_append_cons ?_ (by decide)
        rintro d hd
        rcases List.mem_cons.mp hd with rfl | hd
        · decide
        · have hne : d ≠ '\n' := fun he => hline (he ▸ hd)
          simpa using hne
      have hblank : (' ' :: regex).dropWhile Text.isBlank = regex := by
        rw [List.dropWhile_cons_of_pos (by decide), hfront]
      have hmunch : munch '$' (name ++ ' ' :: (regex ++ '\n' :: rest)) =
          ⟨some .definition, name ++ ' ' :: regex⟩ := by
        rw [munch_dollar, hin, if_neg hne, List.drop_left, hrest]
      have hmarks := @definitionMarks_append name (' ' :: regex) hname
        fun d hd => Option.some.inj hd ▸ (by decide)
      rw [hblank, hback] at hmarks
      refine ⟨1 + name.length + ((' ' :: regex).takeWhile Text.isBlank).length, ?_⟩
      rw [read, if_neg (by decide), hmunch, Found.lexeme, Found.marks, hmarks, List.length_append,
        List.length_cons]

/-! ## Words of single lines -/

/-- Whether the tokens of a kind stand side by side in a line. -/
def Kind.isInline : Kind → Bool
  | .definition => false
  | .regex => false
  | .lineFeed => false
  | .endOfText => false
  | _ => true

section Words

variable {d : Char} {rest : List Char}

theorem words_blank (rest : List Char) : scanner.words () (' ' :: rest) = scanner.words () rest :=
  Scanner.words_cons_of_skip (read_blank rest)

theorem words_lineFeed (rest : List Char) :
    scanner.words () ('\n' :: rest) = (some .lineFeed, "\n") :: scanner.words () rest :=
  Scanner.words_cons_of_token (read_lineFeed rest)

theorem words_inline {kind : Kind} {cs : List Char} (h : Form kind cs)
    (hkind : kind.isInline = true) (hd : Separates d) :
    scanner.words () (cs ++ d :: rest) =
      (some kind, String.ofList cs) :: scanner.words () (d :: rest) := by
  cases h with
  | definition | regex | lineFeed | endOfText => cases hkind
  | nonTerminal h => exact Scanner.words_append_of_token (read_nonTerminal h (d :: rest))
  | @identifier name h hne =>
      obtain ⟨c, cs, rfl, -⟩ := Text.isName_eq_true_iff.mp h
      have hread := read_name h hd rest
      rw [if_neg hne] at hread
      exact Scanner.words_append_of_token hread
  | sign h => exact Scanner.words_cons_of_token (read_sign h hd rest)
  | epsilon =>
      have hname : Text.isName Text.isNameRest epsilonWord = true := by decide
      have hread := read_name hname hd rest
      exact Scanner.words_append_of_token hread
  | arrow | longArrow | bar | blockEnd => exact Scanner.words_append_of_token rfl

/-- Tokens with a blank in front of each are found one by one. -/
theorem words_spaced {ws : List (Kind × String)}
    (hws : ∀ w ∈ ws, Form w.1 w.2.toList ∧ w.1.isInline = true) (hd : Separates d) :
    scanner.words () (ws.flatMap (fun w => ' ' :: w.2.toList) ++ d :: rest) =
      ws.map (fun w => (some w.1, w.2)) ++ scanner.words () (d :: rest) := by
  induction ws with
  | nil => rfl
  | cons w ws ih =>
      obtain ⟨hw, hws⟩ := List.forall_mem_cons.mp hws
      have hnext : ∃ e es, Separates e ∧
          ws.flatMap (fun w => ' ' :: w.2.toList) ++ d :: rest = e :: es := by
        cases ws with
        | nil => exact ⟨d, rest, hd, rfl⟩
        | cons v ws => exact ⟨' ', _, .inl rfl, rfl⟩
      obtain ⟨e, es, he, hes⟩ := hnext
      rw [List.flatMap_cons, List.append_assoc, List.cons_append, words_blank, hes,
        words_inline hw.1 hw.2 he, ← hes, ih hws, String.ofList_toList]
      rfl

theorem words_definition {name regex : String} (hname : Form .definition name.toList)
    (hregex : Form .regex regex.toList) :
    scanner.words () ('$' :: (name.toList ++ ' ' :: (regex.toList ++ '\n' :: rest))) =
      (some .definition, name) :: (some .regex, regex) :: scanner.words () ('\n' :: rest) := by
  cases hname with
  | definition hname =>
      obtain ⟨lead, hread⟩ := read_definition hname hregex rest
      have hdrop : (name.toList ++ ' ' :: (regex.toList ++ '\n' :: rest)).drop
          (name.toList.length + (regex.toList.length + 1)) = '\n' :: rest := by
        rw [← List.drop_drop, List.drop_left, List.drop_succ_cons, List.drop_left]
      rw [Scanner.words_cons, show scanner.read () = read from rfl, hread, hdrop]
      simp only [List.map_cons, List.map_nil, Mark.word, String.ofList_toList]
      rfl

end Words

end LanguageSpec.Document
