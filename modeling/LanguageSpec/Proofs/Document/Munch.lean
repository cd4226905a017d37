import LanguageSpec.Document.Token
import LanguageSpec.Proofs.Scanner
import Mathlib.Data.List.DropRight

/-!
# The longest match in front of a document

What the patterns of a document match, and that the piece in front of a text is the longest one that
a pattern matches. Where no pattern matches one character is taken, and an angle bracket with a name
behind it that no bracket closes is taken together with the name.
-/

namespace LanguageSpec.Document

/-- What a pattern matches. -/
inductive Matches : Pattern → List Char → Prop
  | lineFeed : Matches .lineFeed ['\n']
  | comment {line : List Char} (hline : '\n' ∉ line) : Matches .comment ('-' :: '-' :: line)
  | name {name : List Char} (hname : Text.isName Text.isNameRest name = true) :
      Matches .definition ('$' :: name)
  | definition {name line : List Char} {c : Char}
      (hname : Text.isName Text.isNameRest name = true) (hc : c = ' ' ∨ c = '\t')
      (hline : '\n' ∉ line) : Matches .definition ('$' :: (name ++ c :: line))
  | blockEnd : Matches .blockEnd ['%', '%']
  | arrow : Matches .arrow ['-', '>']
  | longArrow : Matches .arrow [':', ':', '=']
  | bar : Matches .bar ['|']
  | epsilon : Matches .epsilon epsilonWord
  | nonTerminal {name : List Char} (hname : Text.isName isBracketedRest name = true) :
      Matches .nonTerminal ('<' :: (name ++ ['>']))
  | identifier {name : List Char} (hname : Text.isName Text.isNameRest name = true) :
      Matches .identifier name
  | sign {c : Char} (hc : isSign c = true) : Matches .sign [c]

/-- The longest piece in front of a text that a pattern matches. Of two patterns for one piece the
word for an empty alternative is preferred. -/
structure Longest (text : List Char) (p : Pattern) (w : List Char) : Prop where
  front : w <+: text
  matched : Matches p w
  longest : ∀ q v, v <+: text → Matches q v → v.length ≤ w.length
  preferred : ∀ q, Matches q w → q = p ∨ p = .epsilon

/-- An angle bracket with a name behind it that no bracket closes. -/
inductive Unclosed : List Char → List Char → Prop
  | mk {name rest : List Char} (hname : Text.isName isBracketedRest name = true)
      (hrest : ∀ d ∈ rest.head?, isBracketedRest d = false ∧ d ≠ '>') :
      Unclosed ('<' :: (name ++ rest)) ('<' :: name)

/-- What is taken off the front of a text. -/
inductive Munch (c : Char) (cs : List Char) : Found → Prop
  | longest {p : Pattern} {more : List Char} (h : Longest (c :: cs) p (c :: more))
      (hclosed : ∀ v, ¬ Unclosed (c :: cs) v) : Munch c cs ⟨some p, more⟩
  | unclosed {more : List Char} (h : Unclosed (c :: cs) (c :: more)) : Munch c cs ⟨none, more⟩
  | foreign (h : ∀ q v, v <+: c :: cs → ¬ Matches q v) : Munch c cs ⟨none, []⟩

/-! ## Names -/

theorem isName_nameIn {isRest : Char → Bool} {cs : List Char} (h : nameIn isRest cs ≠ []) :
    Text.isName isRest (nameIn isRest cs) = true := by
  cases cs with
  | nil => exact absurd rfl h
  | cons d ds =>
      rw [nameIn] at h ⊢
      split at h
      · rename_i hd
        rw [if_pos hd]
        refine Text.isName_eq_true_iff.mpr ⟨d, _, rfl, hd, fun c hc => ?_⟩
        exact List.mem_takeWhile_imp hc
      · exact absurd rfl h

theorem nameIn_isPrefix (isRest : Char → Bool) (cs : List Char) : nameIn isRest cs <+: cs := by
  cases cs with
  | nil => exact List.nil_prefix
  | cons d ds =>
      rw [nameIn]
      split
      · exact List.cons_prefix_cons.mpr ⟨rfl, List.takeWhile_prefix isRest⟩
      · exact List.nil_prefix

theorem append_drop_nameIn (isRest : Char → Bool) (cs : List Char) :
    nameIn isRest cs ++ cs.drop (nameIn isRest cs).length = cs :=
  List.prefix_iff_eq_append.mp (nameIn_isPrefix isRest cs)

theorem nameIn_append_cons {isRest : Char → Bool} {name rest : List Char} {c : Char}
    (h : Text.isName isRest name = true) (hc : isRest c = false) :
    nameIn isRest (name ++ c :: rest) = name := by
  obtain ⟨d, ds, rfl, hd, hds⟩ := Text.isName_eq_true_iff.mp h
  rw [List.cons_append, nameIn, if_pos hd, Scanner.takeWhile_append_cons hds hc]

/-- A name in front of a text is in front of the longest one. -/
theorem prefix_nameIn {isRest : Char → Bool} {name cs : List Char}
    (h : Text.isName isRest name = true) (hcs : name <+: cs) : name <+: nameIn isRest cs := by
  obtain ⟨d, ds, rfl, hd, hds⟩ := Text.isName_eq_true_iff.mp h
  obtain ⟨rest, rfl⟩ := hcs
  rw [List.cons_append, nameIn, if_pos hd, List.takeWhile_append_of_pos hds]
  exact List.cons_prefix_cons.mpr ⟨rfl, List.prefix_append _ _⟩

/-- The longest name ends where a character stands that does not go on with it. -/
theorem not_isRest_of_nameIn {isRest : Char → Bool} {cs : List Char} (h : nameIn isRest cs ≠ [])
    {d : Char} (hd : d ∈ (cs.drop (nameIn isRest cs).length).head?) : isRest d = false := by
  cases cs with
  | nil => exact absurd rfl h
  | cons e es =>
      rw [nameIn] at h hd
      split at h
      · rename_i he
        have hdrop : (es.takeWhile isRest ++ es.dropWhile isRest).drop
            (es.takeWhile isRest).length = es.dropWhile isRest := List.drop_left
        rw [List.takeWhile_append_dropWhile] at hdrop
        rw [if_pos he, List.length_cons, List.drop_succ_cons, hdrop] at hd
        have hhead := List.head?_dropWhile_not isRest es
        rw [hd] at hhead
        exact hhead
      · exact absurd rfl h

/-! ## Lines -/

theorem lineFeed_notMem_restOfLine (cs : List Char) : '\n' ∉ restOfLine cs := by
  intro h
  have hne := List.mem_takeWhile_imp h
  simp at hne

/-- Characters of one line in front of a text are in front of its line. -/
theorem prefix_restOfLine {line cs : List Char} (hline : '\n' ∉ line) (h : line <+: cs) :
    line <+: restOfLine cs := by
  obtain ⟨rest, rfl⟩ := h
  have hall : ∀ d ∈ line, decide (d ≠ '\n') = true := by
    intro d hd
    exact decide_eq_true fun he => hline (he ▸ hd)
  rw [restOfLine, List.takeWhile_append_of_pos hall]
  exact List.prefix_append _ _

/-! ## Longest matches -/

theorem Matches.ne_nil {p : Pattern} {w : List Char} (h : Matches p w) : w ≠ [] := by
  cases h with
  | identifier hname =>
      rintro rfl
      cases hname
  | _ => exact List.cons_ne_nil _ _

theorem lineFeed_notMem_of_isName {isRest : Char → Bool} {name : List Char}
    (hrest : isRest '\n' = false) (h : Text.isName isRest name = true) : '\n' ∉ name := by
  obtain ⟨d, ds, rfl, hd, hds⟩ := Text.isName_eq_true_iff.mp h
  intro hline
  rcases List.mem_cons.mp hline with rfl | hline
  · exact absurd hd (by decide)
  · rw [hds _ hline] at hrest
    cases hrest

/-- A line feed is a piece of its own. -/
theorem Matches.lineFeed_notMem {p : Pattern} {w : List Char} (h : Matches p w)
    (hp : p ≠ .lineFeed) : '\n' ∉ w := by
  cases h with
  | lineFeed => exact absurd rfl hp
  | comment hline => simp [hline]
  | name hname => simp [lineFeed_notMem_of_isName (by decide) hname]
  | definition hname hc hline =>
      rcases hc with rfl | rfl <;> simp [lineFeed_notMem_of_isName (by decide) hname, hline]
  | nonTerminal hname => simp [lineFeed_notMem_of_isName (by decide) hname]
  | identifier hname => exact lineFeed_notMem_of_isName (by decide) hname
  | sign hc =>
      intro hmem
      rw [← List.mem_singleton.mp hmem] at hc
      exact absurd hc (by decide)
  | blockEnd | arrow | longArrow | bar | epsilon => decide

section Longest

variable {p : Pattern} {c : Char} {cs more : List Char}

/-- A match is the longest if all others begin like it. -/
theorem Longest.of_cons (hmore : more <+: cs) (hmatched : Matches p (c :: more))
    (h : ∀ q v, v <+: cs → Matches q (c :: v) → v <+: more ∧ (v = more → q = p ∨ p = .epsilon)) :
    Longest (c :: cs) p (c :: more) := by
  refine ⟨List.cons_prefix_cons.mpr ⟨rfl, hmore⟩, hmatched, ?_, ?_⟩
  · intro q v hv hq
    obtain ⟨d, v, rfl⟩ := List.exists_cons_of_ne_nil hq.ne_nil
    obtain ⟨rfl, htail⟩ := List.cons_prefix_cons.mp hv
    exact Nat.succ_le_succ (h q v htail hq).1.length_le
  · exact fun q hq => (h q more hmore hq).2 rfl

theorem longest_lineFeed (cs : List Char) : Longest ('\n' :: cs) .lineFeed ['\n'] := by
  refine .of_cons List.nil_prefix .lineFeed fun q v _ hq => ?_
  cases hq with
  | lineFeed => exact ⟨List.prefix_rfl, fun _ => .inl rfl⟩
  | identifier hname => cases hname
  | sign hc => exact absurd hc (by decide)

theorem longest_bar (cs : List Char) : Longest ('|' :: cs) .bar ['|'] := by
  refine .of_cons List.nil_prefix .bar fun q v _ hq => ?_
  cases hq with
  | bar => exact ⟨List.prefix_rfl, fun _ => .inl rfl⟩
  | identifier hname => cases hname
  | sign hc => exact absurd hc (by decide)

theorem definitionRest_isPrefix (cs : List Char) : definitionRest cs <+: cs := by
  cases cs with
  | nil => exact List.prefix_rfl
  | cons d ds =>
      rw [definitionRest]
      split
      · exact List.takeWhile_prefix _
      · exact List.nil_prefix

theorem matches_definition {name : List Char}
    (hname : Text.isName Text.isNameRest name = true) (cs : List Char) :
    Matches .definition ('$' :: (name ++ definitionRest cs)) := by
  have hnone : Matches .definition ('$' :: (name ++ [])) := by
    rw [List.append_nil]
    exact .name hname
  cases cs with
  | nil => exact hnone
  | cons d ds =>
      rw [definitionRest]
      split
      · rename_i hd
        have hne : d ≠ '\n' := by
          rintro rfl
          exact absurd hd (by decide)
        have hline : restOfLine (d :: ds) = d :: restOfLine ds :=
          List.takeWhile_cons_of_pos (decide_eq_true hne)
        rw [hline]
        exact .definition hname hd (lineFeed_notMem_restOfLine ds)
      · exact hnone

theorem longest_definition (h : nameIn Text.isNameRest cs ≠ []) :
    Longest ('$' :: cs) .definition ('$' :: (nameIn Text.isNameRest cs ++
      definitionRest (cs.drop (nameIn Text.isNameRest cs).length))) := by
  refine .of_cons ?_ (matches_definition (isName_nameIn h) _) fun q v hv hq => ?_
  · have hrest := definitionRest_isPrefix (cs.drop (nameIn Text.isNameRest cs).length)
    have hwhole := (List.prefix_append_right_inj (nameIn Text.isNameRest cs)).mpr hrest
    rwa [append_drop_nameIn] at hwhole
  cases hq with
  | name hname =>
      exact ⟨(prefix_nameIn hname hv).trans (List.prefix_append _ _), fun _ => .inl rfl⟩
  | @definition name line d hname hd hline =>
      refine ⟨?_, fun _ => .inl rfl⟩
      obtain ⟨rest, rfl⟩ := hv
      have hnot : Text.isNameRest d = false := by rcases hd with rfl | rfl <;> decide
      have hne : d ≠ '\n' := by
        rintro rfl
        exact absurd hd (by decide)
      have hmore : '\n' ∉ d :: line := by
        rw [List.mem_cons, not_or]
        exact ⟨Ne.symm hne, hline⟩
      rw [List.append_assoc, List.cons_append, nameIn_append_cons hname hnot, List.drop_left,
        definitionRest, if_pos hd]
      refine (List.prefix_append_right_inj name).mpr (prefix_restOfLine hmore ?_)
      exact List.prefix_append (d :: line) rest
  | identifier hname => cases hname
  | sign hc => exact absurd hc (by decide)

/-- An angle bracket and all that can come behind it. -/
theorem prefix_angle {v : List Char} {q : Pattern} (hv : v <+: cs) (hq : Matches q ('<' :: v)) :
    (q = .sign ∧ v = []) ∨ (q = .nonTerminal ∧ nameIn isBracketedRest cs ≠ [] ∧
      v = nameIn isBracketedRest cs ++ ['>'] ∧
      (cs.drop (nameIn isBracketedRest cs).length).head? = some '>') := by
  cases hq with
  | @nonTerminal name hname =>
      obtain ⟨rest, rfl⟩ := hv
      have hin : nameIn isBracketedRest (name ++ '>' :: rest) = name :=
        nameIn_append_cons hname (by decide)
      rw [List.append_assoc, List.singleton_append, hin, List.drop_left]
      refine .inr ⟨rfl, ?_, rfl, rfl⟩
      rintro rfl
      cases hname
  | identifier hname => cases hname
  | sign => exact .inl ⟨rfl, rfl⟩

theorem longest_angle (h : nameIn isBracketedRest cs = []) : Longest ('<' :: cs) .sign ['<'] := by
  refine .of_cons List.nil_prefix (.sign (by decide)) fun q v hv hq => ?_
  rcases prefix_angle hv hq with ⟨rfl, rfl⟩ | ⟨-, hne, -⟩
  · exact ⟨List.prefix_rfl, fun _ => .inl rfl⟩
  · exact absurd h hne

theorem longest_nonTerminal (h : nameIn isBracketedRest cs ≠ [])
    (hclose : (cs.drop (nameIn isBracketedRest cs).length).head? = some '>') :
    Longest ('<' :: cs) .nonTerminal ('<' :: (nameIn isBracketedRest cs ++ ['>'])) := by
  refine .of_cons ?_ (.nonTerminal (isName_nameIn h)) fun q v hv hq => ?_
  · obtain ⟨rest, hrest⟩ := List.head?_eq_some_iff.mp hclose
    have hcs := append_drop_nameIn isBracketedRest cs
    rw [hrest] at hcs
    exact ⟨rest, by rw [List.append_assoc]; exact hcs⟩
  · rcases prefix_angle hv hq with ⟨rfl, rfl⟩ | ⟨rfl, -, rfl, -⟩
    · exact ⟨List.nil_prefix, fun hnil => absurd hnil.symm (by simp)⟩
    · exact ⟨List.prefix_rfl, fun _ => .inl rfl⟩

theorem longest_comment (cs : List Char) :
    Longest ('-' :: '-' :: cs) .comment ('-' :: '-' :: restOfLine cs) := by
  have hfront : '-' :: restOfLine cs <+: '-' :: cs :=
    List.cons_prefix_cons.mpr ⟨rfl, List.takeWhile_prefix _⟩
  refine .of_cons hfront (.comment (lineFeed_notMem_restOfLine cs)) fun q v hv hq => ?_
  cases hq with
  | comment hline =>
      obtain ⟨-, hv⟩ := List.cons_prefix_cons.mp hv
      exact ⟨List.cons_prefix_cons.mpr ⟨rfl, prefix_restOfLine hline hv⟩, fun _ => .inl rfl⟩
  | arrow => exact absurd (List.cons_prefix_cons.mp hv).1 (by decide)
  | identifier hname => cases hname
  | sign => exact ⟨List.nil_prefix, nofun⟩

theorem longest_arrow (cs : List Char) : Longest ('-' :: '>' :: cs) .arrow ['-', '>'] := by
  have hfront : ['>'] <+: '>' :: cs := List.prefix_append ['>'] cs
  refine .of_cons hfront .arrow fun q v hv hq => ?_
  cases hq with
  | comment => exact absurd (List.cons_prefix_cons.mp hv).1 (by decide)
  | arrow => exact ⟨List.prefix_rfl, fun _ => .inl rfl⟩
  | identifier hname => cases hname
  | sign => exact ⟨List.nil_prefix, nofun⟩

theorem longest_longArrow (cs : List Char) :
    Longest (':' :: ':' :: '=' :: cs) .arrow [':', ':', '='] := by
  have hfront : [':', '='] <+: ':' :: '=' :: cs := List.prefix_append [':', '='] cs
  refine .of_cons hfront .longArrow fun q v _ hq => ?_
  cases hq with
  | longArrow => exact ⟨List.prefix_rfl, fun _ => .inl rfl⟩
  | identifier hname => cases hname
  | sign => exact ⟨List.nil_prefix, nofun⟩

theorem longest_blockEnd (cs : List Char) : Longest ('%' :: '%' :: cs) .blockEnd ['%', '%'] := by
  have hfront : ['%'] <+: '%' :: cs := List.prefix_append ['%'] cs
  refine .of_cons hfront .blockEnd fun q v _ hq => ?_
  cases hq with
  | blockEnd => exact ⟨List.prefix_rfl, fun _ => .inl rfl⟩
  | identifier hname => cases hname
  | sign => exact ⟨List.nil_prefix, nofun⟩

theorem not_isSign_of_isNameStart (hc : Text.isNameStart c = true) : isSign c = false := by
  rw [Bool.eq_false_iff]
  intro hsign
  have hall : ("-~`!@#%^&*+=\\<>?/;()[]\x7b\x7d,.'\":").toList.all
      (fun d => !Text.isNameStart d) = true := by decide
  have hplain := List.all_eq_true.mp hall c (List.contains_iff_mem.mp hsign)
  simp [hc] at hplain

/-- A letter and all that can come behind it. -/
theorem prefix_name {v : List Char} {q : Pattern} (hc : Text.isNameStart c = true) (hv : v <+: cs)
    (hq : Matches q (c :: v)) : (q = .epsilon ∧ c :: v = epsilonWord ∨ q = .identifier) ∧
      v <+: cs.takeWhile Text.isNameRest := by
  have hrun (hrest : ∀ d ∈ v, Text.isNameRest d = true) : v <+: cs.takeWhile Text.isNameRest := by
    obtain ⟨rest, rfl⟩ := hv
    rw [List.takeWhile_append_of_pos hrest]
    exact List.prefix_append v _
  cases hq with
  | epsilon => exact ⟨.inl ⟨rfl, rfl⟩, hrun (List.all_eq_true.mp (by decide))⟩
  | identifier hname =>
      obtain ⟨-, hrest⟩ := Bool.and_eq_true_iff.mp hname
      exact ⟨.inr rfl, hrun (List.all_eq_true.mp hrest)⟩
  | sign hsign => simp [not_isSign_of_isNameStart hc] at hsign
  | _ => exact absurd hc (by decide)

theorem longest_name (hc : Text.isNameStart c = true) (cs : List Char) :
    Longest (c :: cs)
      (if c :: cs.takeWhile Text.isNameRest = epsilonWord then .epsilon else .identifier)
      (c :: cs.takeWhile Text.isNameRest) := by
  have hname : Text.isName Text.isNameRest (c :: cs.takeWhile Text.isNameRest) = true :=
    Text.isName_eq_true_iff.mpr ⟨c, _, rfl, hc, fun d hd => List.mem_takeWhile_imp hd⟩
  split
  · rename_i hepsilon
    refine .of_cons (List.takeWhile_prefix _) (hepsilon ▸ .epsilon) fun q v hv hq => ?_
    exact ⟨(prefix_name hc hv hq).2, fun _ => .inr rfl⟩
  · rename_i hepsilon
    refine .of_cons (List.takeWhile_prefix _) (.identifier hname) fun q v hv hq => ?_
    obtain ⟨⟨rfl, hword⟩ | rfl, hrun⟩ := prefix_name hc hv hq
    · exact ⟨hrun, fun hv => absurd (hv ▸ hword) hepsilon⟩
    · exact ⟨hrun, fun _ => .inl rfl⟩

/-- Where no longer match begins with a character, it is a sign or nothing. -/
theorem prefix_single {v : List Char} {q : Pattern} (hv : v <+: cs) (hq : Matches q (c :: v))
    (hfeed : c ≠ '\n') (hdollar : c ≠ '$') (hangle : c ≠ '<') (hbar : c ≠ '|')
    (hcomment : ¬ (c = '-' ∧ cs.head? = some '-')) (harrow : ¬ (c = '-' ∧ cs.head? = some '>'))
    (hlong : ¬ (c = ':' ∧ cs.take 2 = [':', '=']))
    (hblock : ¬ (c = '%' ∧ cs.head? = some '%')) (hname : ¬ Text.isNameStart c = true) :
    q = .sign ∧ v = [] ∧ isSign c = true := by
  obtain ⟨rest, rfl⟩ := hv
  cases hq with
  | lineFeed => exact absurd rfl hfeed
  | name | definition => exact absurd rfl hdollar
  | nonTerminal => exact absurd rfl hangle
  | bar => exact absurd rfl hbar
  | comment => exact absurd ⟨rfl, rfl⟩ hcomment
  | arrow => exact absurd ⟨rfl, rfl⟩ harrow
  | longArrow => exact absurd ⟨rfl, rfl⟩ hlong
  | blockEnd => exact absurd ⟨rfl, rfl⟩ hblock
  | epsilon => exact absurd (by decide) hname
  | identifier h => exact absurd (Bool.and_eq_true_iff.mp h).1 hname
  | sign hc => exact ⟨rfl, rfl, hc⟩

end Longest

/-! ## Texts -/

section Munch

variable {p : Pattern} {c : Char} {cs more : List Char}

theorem Munch.longest_of_some (h : Munch c cs ⟨some p, more⟩) :
    Longest (c :: cs) p (c :: more) := by
  cases h with
  | longest h => exact h

theorem Munch.isPrefix {x : Found} (h : Munch c cs x) : x.more <+: cs := by
  cases h with
  | longest h => exact (List.cons_prefix_cons.mp h.front).2
  | unclosed h =>
      cases h with
      | mk => exact List.prefix_append _ _
  | foreign => exact List.nil_prefix

theorem Munch.lineFeed_notMem {x : Found} (h : Munch c cs x) (hx : x.pattern ≠ some .lineFeed) :
    '\n' ∉ c :: x.more := by
  cases h with
  | longest h => exact h.matched.lineFeed_notMem fun hp => hx (congrArg some hp)
  | unclosed h =>
      cases h with
      | mk hname => simp [lineFeed_notMem_of_isName (by decide) hname]
  | foreign h =>
      intro hc
      rw [← List.mem_singleton.mp hc] at h
      exact h .lineFeed ['\n'] (List.prefix_append ['\n'] cs) .lineFeed

theorem Munch.of_ne_angle (hc : c ≠ '<') (h : Longest (c :: cs) p (c :: more)) :
    Munch c cs ⟨some p, more⟩ := by
  refine .longest h ?_
  intro v hv
  cases hv
  exact hc rfl

theorem not_unclosed (h : nameIn isBracketedRest cs = [] ∨
    (cs.drop (nameIn isBracketedRest cs).length).head? = some '>') (v : List Char) :
    ¬ Unclosed ('<' :: cs) v := by
  intro hv
  cases hv with
  | @mk name rest hname hrest =>
      have hin : nameIn isBracketedRest (name ++ rest) = name := by
        cases rest with
        | nil =>
            obtain ⟨d, ds, rfl, hd, hds⟩ := Text.isName_eq_true_iff.mp hname
            rw [List.append_nil, nameIn, if_pos hd, List.takeWhile_eq_self_iff.mpr hds]
        | cons d ds => exact nameIn_append_cons hname (hrest d rfl).1
      rw [hin, List.drop_left] at h
      rcases h with rfl | hclose
      · cases hname
      · exact (hrest '>' hclose).2 rfl

theorem munch_angle (cs : List Char) : Munch '<' cs (munchAngle (nameIn isBracketedRest cs)
    (cs.drop (nameIn isBracketedRest cs).length)) := by
  refine iteInduction (fun hnone => ?_) fun hname => ?_
  · exact .longest (longest_angle hnone) (not_unclosed (.inl hnone))
  refine iteInduction (fun hclose => ?_) fun hopen => ?_
  · exact .longest (longest_nonTerminal hname hclose) (not_unclosed (.inr hclose))
  · refine .unclosed ?_
    have hmk := @Unclosed.mk (nameIn isBracketedRest cs)
      (cs.drop (nameIn isBracketedRest cs).length) (isName_nameIn hname)
      fun d hd => ⟨not_isRest_of_nameIn hname hd, fun he => hopen (he ▸ hd)⟩
    rwa [append_drop_nameIn] at hmk

/-- A dollar sign without a name behind it begins nothing. -/
theorem not_matches_dollar (h : nameIn Text.isNameRest cs = []) (q : Pattern) (v : List Char)
    (hv : v <+: '$' :: cs) : ¬ Matches q v := by
  intro hq
  have hnone {name : List Char} (hname : Text.isName Text.isNameRest name = true)
      (hfront : name <+: cs) : False := by
    have hin := prefix_nameIn hname hfront
    rw [h, List.prefix_nil] at hin
    subst hin
    cases hname
  obtain ⟨d, v, rfl⟩ := List.exists_cons_of_ne_nil hq.ne_nil
  obtain ⟨rfl, htail⟩ := List.cons_prefix_cons.mp hv
  cases hq with
  | name hname => exact hnone hname htail
  | definition hname => exact hnone hname ((List.prefix_append _ _).trans htail)
  | identifier hname => cases hname
  | sign hc => exact absurd hc (by decide)

/-- What is taken off the front of a text is the longest match. -/
theorem munch_longest (c : Char) (cs : List Char) : Munch c cs (munch c cs) := by
  refine iteInduction (fun hc => ?feed) fun hfeed => ?_
  case feed =>
    subst hc
    exact .of_ne_angle (by decide) (longest_lineFeed cs)
  refine iteInduction (fun hc => ?dollar) fun hdollar => ?_
  case dollar =>
    subst hc
    refine iteInduction (fun hnone => .foreign (not_matches_dollar hnone)) fun hname => ?_
    exact .of_ne_angle (by decide) (longest_definition hname)
  refine iteInduction (fun hc => ?angle) fun hangle => ?_
  case angle =>
    subst hc
    exact munch_angle cs
  refine iteInduction (fun hc => ?bar) fun hbar => ?_
  case bar =>
    subst hc
    exact .of_ne_angle hangle (longest_bar cs)
  refine iteInduction (fun hc => ?comment) fun hcomment => ?_
  case comment =>
    obtain ⟨rfl, hhead⟩ := hc
    obtain ⟨ds, rfl⟩ := List.head?_eq_some_iff.mp hhead
    exact .of_ne_angle hangle (longest_comment ds)
  refine iteInduction (fun hc => ?arrow) fun harrow => ?_
  case arrow =>
    obtain ⟨rfl, hhead⟩ := hc
    obtain ⟨ds, rfl⟩ := List.head?_eq_some_iff.mp hhead
    exact .of_ne_angle hangle (longest_arrow ds)
  refine iteInduction (fun hc => ?longArrow) fun hlong => ?_
  case longArrow =>
    obtain ⟨rfl, htake⟩ := hc
    obtain ⟨ds, rfl⟩ := List.prefix_iff_eq_take.mpr htake.symm
    exact .of_ne_angle hangle (longest_longArrow ds)
  refine iteInduction (fun hc => ?blockEnd) fun hblock => ?_
  case blockEnd =>
    obtain ⟨rfl, hhead⟩ := hc
    obtain ⟨ds, rfl⟩ := List.head?_eq_some_iff.mp hhead
    exact .of_ne_angle hangle (longest_blockEnd ds)
  refine iteInduction (fun hc => .of_ne_angle hangle (longest_name hc cs)) fun hname => ?_
  have hsingle (q : Pattern) (v : List Char) (hv : v <+: cs) (hq : Matches q (c :: v)) :=
    prefix_single hv hq hfeed hdollar hangle hbar hcomment harrow hlong hblock hname
  refine iteInduction (fun hc => ?sign) fun hnone => .foreign ?_
  case sign =>
    refine .of_ne_angle hangle (.of_cons List.nil_prefix (.sign hc) fun q v hv hq => ?_)
    obtain ⟨rfl, rfl, -⟩ := hsingle q v hv hq
    exact ⟨List.prefix_rfl, fun _ => .inl rfl⟩
  intro q v hv hq
  obtain ⟨d, v, rfl⟩ := List.exists_cons_of_ne_nil hq.ne_nil
  obtain ⟨rfl, htail⟩ := List.cons_prefix_cons.mp hv
  exact hnone (hsingle q v htail hq).2.2

/-- A bracket that nothing closes takes the name with it, though it is a sign on its own. -/
example : munch '<' ['a', ' ', '>'] = ⟨none, ['a']⟩ := by decide

end Munch

end LanguageSpec.Document
