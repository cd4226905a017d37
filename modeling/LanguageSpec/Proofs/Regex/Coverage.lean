import LanguageSpec.Proofs.Coverage
import LanguageSpec.Proofs.Regex.Modes
import Mathlib

/-!
# Coverage of a regex

What the tokens of a regex look like, by their kinds, and that the pieces of a regex cover its text.
Nothing is skipped but blanks, and these only where no bracket is open. This holds however the
places in the text are counted.
-/

namespace LanguageSpec.Regex

/-- What a token of a kind can look like. -/
inductive Form : Kind → List Char → Prop
  | bare {c : Char} (h : CharSet.inAlphabet c = true) : Form .literal [c]
  | escaped {c : Char} (h : CharSet.inAlphabet c = true) : Form .literal ['\\', c]
  | reference {name : List Char} (h : Text.isName Text.isNameRest name = true) :
      Form .reference ('$' :: name)
  | sign {kind : Kind} {c : Char} (h : Mode.sign? c = some kind) : Form kind [c]
  | insideSign {kind : Kind} {c : Char} (h : Mode.insideSign? c = some kind) : Form kind [c]
  | inWord : Form .inWord ['I', 'N']

/-! ## Lexemes -/

/-- What can be in front of a regex. -/
inductive Cut : Mode → Char → List Char → Lexeme Mode Kind → Prop
  | space {mode : Mode} {c : Char} {rest : List Char} (hc : isSpace c = true)
      (hmode : ∀ fresh exclusion, mode ≠ .inside fresh exclusion) : Cut mode c rest (.skip mode)
  | token {mode next : Mode} {kind : Kind} {c : Char} {ds rest : List Char}
      (hform : Form kind (c :: ds)) (hturn : mode.Turn kind next) :
      Cut mode c (ds ++ rest) (.token kind c ds next)
  | unrecognized {mode : Mode} {c : Char} {rest : List Char} :
      Cut mode c rest (.unrecognized c [] mode)

theorem turn_of_sign? {c : Char} {kind : Kind} (h : Mode.sign? c = some kind)
    (hkind : kind ≠ .openBracket) : Mode.Turn .outside kind .outside := by
  refine .outside ?_
  unfold Mode.sign? at h
  split_ifs at h <;> cases h <;> first | exact absurd rfl hkind | decide

theorem turn_of_insideSign? {c : Char} {kind : Kind} {fresh exclusion : Bool}
    (h : Mode.insideSign? c = some kind) (hclose : kind ≠ .closeBracket) (hcaret : kind ≠ .caret) :
    Mode.Turn (.inside fresh exclusion) kind (.inside false exclusion) := by
  refine .member (.inr ?_)
  unfold Mode.insideSign? at h
  split_ifs at h <;> cases h
  · exact absurd rfl hcaret
  · rfl
  · exact absurd rfl hclose

namespace Cut

variable {mode next : Mode} {kind : Kind} {c : Char} {cs ds : List Char}

theorem single (hform : Form kind [c]) (hturn : mode.Turn kind next) :
    Cut mode c cs (.token kind c [] next) :=
  @token mode next kind c [] cs hform hturn

theorem readEscape (hturn : mode.Turn .literal next) :
    Cut mode '\\' cs (Mode.readEscape '\\' next cs) := by
  cases cs with
  | nil => exact single (.bare (by decide)) hturn
  | cons d ds =>
      rw [Mode.readEscape]
      by_cases hd : CharSet.inAlphabet d = true
      · rw [if_pos hd]
        exact @token mode next .literal '\\' [d] ds (.escaped hd) hturn
      · rw [if_neg hd]
        exact single (.bare (by decide)) hturn

theorem reference (hne : Mode.nameOf cs ≠ []) (hturn : mode.Turn .reference next) :
    Cut mode '$' cs (.token .reference '$' (Mode.nameOf cs) next) := by
  cases cs with
  | nil => exact absurd rfl hne
  | cons d ds =>
      rw [Mode.nameOf] at hne ⊢
      split at hne
      · rename_i hd
        rw [if_pos hd]
        have hname : Text.isName Text.isNameRest (d :: ds.takeWhile Text.isNameRest) = true :=
          Text.isName_eq_true_iff.mpr ⟨d, _, rfl, hd, fun e he => List.mem_takeWhile_imp he⟩
        have hcut : Cut mode '$'
            (d :: ds.takeWhile Text.isNameRest ++ ds.dropWhile Text.isNameRest) _ :=
          token (.reference hname) hturn
        rwa [List.cons_append, List.takeWhile_append_dropWhile] at hcut
      · exact absurd rfl hne

theorem literal (hturn : mode.Turn .literal next) : Cut mode c cs
    (if CharSet.inAlphabet c then .token .literal c [] next else .unrecognized c [] mode) :=
  iteInduction (fun hc => single (.bare hc) hturn) fun _ => unrecognized

theorem readOutside (c : Char) (cs : List Char) : Cut .outside c cs (Mode.readOutside c cs) := by
  have hliteral : Mode.Turn .outside .literal .outside := .outside (by decide)
  refine iteInduction (fun hc => space hc nofun) fun _ => ?_
  refine iteInduction (fun hc => hc ▸ readEscape hliteral) fun _ => ?_
  refine iteInduction (fun hc => ?_) fun _ => ?_
  · exact hc.1 ▸ reference hc.2 (.outside (by decide))
  · split
    · rename_i hc
      exact single (.sign hc) .openBracket
    · rename_i hkind hc
      exact single (.sign hc) (turn_of_sign? hc hkind)
    · exact literal hliteral

theorem readInside (fresh exclusion : Bool) (c : Char) (cs : List Char) :
    Cut (.inside fresh exclusion) c cs (Mode.readInside fresh exclusion c cs) := by
  refine iteInduction (fun hc => hc ▸ readEscape (.member (.inl rfl))) fun _ => ?_
  split
  · rename_i hc
    exact single (.insideSign hc) .closeBracket
  · rename_i hc
    exact single (.insideSign hc) .caret
  · rename_i hclose hcaret hc
    exact single (.insideSign hc) (turn_of_insideSign? hc hclose hcaret)
  · exact literal (.member (.inl rfl))

theorem readBehindExclusion (c : Char) (cs : List Char) :
    Cut .behindExclusion c cs (Mode.readBehindExclusion c cs) := by
  refine iteInduction (fun hc => space hc nofun) fun _ => ?_
  refine iteInduction (fun hc => single (.sign (hc ▸ rfl)) .operandBracket) fun _ => ?_
  refine iteInduction (fun hc => hc.1 ▸ reference hc.2 .operandReference) fun _ => ?_
  refine iteInduction (fun hc => ?_) fun _ => unrecognized
  obtain ⟨rfl, hhead⟩ := hc
  obtain ⟨ds, rfl⟩ := List.head?_eq_some_iff.mp hhead
  exact @token _ _ .inWord 'I' ['N'] ds .inWord .inWord

theorem read (mode : Mode) (c : Char) (cs : List Char) : Cut mode c cs (mode.read c cs) := by
  cases mode with
  | outside => exact readOutside c cs
  | inside fresh exclusion => exact readInside fresh exclusion c cs
  | behindExclusion => exact readBehindExclusion c cs

end Cut

/-! ## Coverage -/

/-- What lies behind some tokens without being a piece. -/
def Skipped (before : List Kind) (gap : List Char) : Prop :=
  ∃ c, gap = [c] ∧ isSpace c = true ∧ ¬ Inside before

/-- A token looks like its kind, and its kind may stand behind the tokens in front. -/
structure Fits (before : List Kind) (kind : Kind) (text : String) : Prop where
  form : Form kind text.toList
  allowed : Allowed before kind

/-- Pieces of a regex stand in it as they are, by whatever counts their places. -/
abbrev layout (place : List Char → Position) : Layout Kind :=
  ⟨fun w => w.2.toList, place, fun before gap _ => Skipped before gap, Fits⟩

section Coverage

variable {s : Scanner Mode Kind} {place : List Char → Position}

theorem Cut.passes {mode : Mode} {before : List Kind} {c : Char} {cs : List Char}
    {x : Lexeme Mode Kind} (hs : s.Counts (layout place)) (h : Cut mode c cs x)
    (hbefore : mode.After before) :
    s.Passes (layout place) before c cs x ∧
      x.next.After (before ++ x.marks.filterMap Mark.kind) := by
  cases h with
  | space hc hmode =>
      have hinside : ¬ Inside before := by
        cases mode with
        | outside => exact hbefore
        | inside fresh exclusion => exact absurd rfl (hmode fresh exclusion)
        | behindExclusion => exact hbefore.not_inside
      refine ⟨Scanner.passes_gap [] mode ⟨c, rfl, hc, hinside⟩, ?_⟩
      exact (List.append_nil before).symm ▸ hbefore
  | token hform hturn =>
      obtain ⟨hallowed, hnext⟩ := hbefore.turn hturn
      refine ⟨Scanner.passes_whole hs _ _ String.toList_ofList fun kind' hkind => ?_, hnext⟩
      obtain rfl := Option.some.inj hkind
      exact ⟨by rwa [String.toList_ofList], hallowed⟩
  | unrecognized =>
      refine ⟨Scanner.passes_whole hs [] mode String.toList_ofList nofun, ?_⟩
      exact (List.append_nil before).symm ▸ hbefore

theorem covers_scan (hs : s.Counts (layout place)) (hread : s.read = Mode.read)
    (text : List Char) :
    (layout place).Covers [] [] text (s.scan .outside (place []) text) := by
  have hstart : Mode.outside.After [] := not_inside_nil
  refine Scanner.covers_scan (I := fun mode before => mode.After before) hs ?_ hstart [] text
  intro mode before c cs hbefore
  rw [hread]
  exact (Cut.read mode c cs).passes hs hbefore

/-- The place behind some characters of a regex, whose columns count bytes. -/
def byteBehind (origin : Position) (front : List Char) : Position :=
  origin.right (String.ofList front).utf8ByteSize

theorem counts_byteBehind (origin : Position) : scanner.Counts (layout (byteBehind origin)) := by
  intro front c
  change (byteBehind origin front).nextByte c = byteBehind origin (front ++ [c])
  have hsingle : (String.ofList [c]).utf8ByteSize = c.utf8Size := String.utf8ByteSize_singleton
  rw [byteBehind, byteBehind, String.ofList_append, String.utf8ByteSize_append, hsingle,
    Position.nextByte, Position.right, Position.right, Position.right, Nat.add_assoc]

/-- The tokens of a regex cover it, and each of them is where its kind may be. -/
theorem tokens_cover_text {origin : Position} {text : String} {ts : List Token}
    (h : tokens origin text = .ok ts) :
    (layout (byteBehind origin)).Covers [] [] text.toList (ts.map .token) ∧
      WellModed (ts.map Token.kind) := by
  have hcovers := covers_scan (counts_byteBehind origin) rfl text.toList
  have hpieces : scanner.scan .outside origin text.toList = ts.map .token :=
    Piece.mapM_toToken_eq_ok_iff.mp h
  have hcovers : (layout (byteBehind origin)).Covers [] [] text.toList (ts.map .token) := by
    rw [← hpieces]
    exact hcovers
  refine ⟨hcovers, wellModed_of_allowed fun before kind back hks => ?_⟩
  obtain ⟨front, us, rfl, rfl, hus⟩ := List.map_eq_append_iff.mp hks
  obtain ⟨t, vs, rfl, rfl, rfl⟩ := List.map_eq_cons_iff.mp hus
  exact (hcovers.fits rfl).allowed

/-- The second operand of an exclusion is a bracket expression of its own, and behind it the word
`IN` is two literals. -/
theorem tokens_cover_text_exclusion :
    let ts : List Token :=
      [⟨.openBracket, "[", ⟨4, 10⟩⟩, ⟨.caret, "^", ⟨4, 11⟩⟩, ⟨.literal, " ", ⟨4, 12⟩⟩,
        ⟨.closeBracket, "]", ⟨4, 13⟩⟩, ⟨.inWord, "IN", ⟨4, 15⟩⟩, ⟨.openBracket, "[", ⟨4, 18⟩⟩,
        ⟨.literal, "a", ⟨4, 19⟩⟩, ⟨.dash, "-", ⟨4, 20⟩⟩, ⟨.literal, "c", ⟨4, 21⟩⟩,
        ⟨.closeBracket, "]", ⟨4, 22⟩⟩, ⟨.literal, "I", ⟨4, 24⟩⟩, ⟨.literal, "N", ⟨4, 25⟩⟩]
    tokens ⟨4, 10⟩ "[^ ] IN [a-c] IN" = .ok ts ∧
      (layout (byteBehind ⟨4, 10⟩)).Covers [] [] "[^ ] IN [a-c] IN".toList (ts.map .token) ∧
        WellModed (ts.map Token.kind) := by
  intro ts
  have htokens : tokens ⟨4, 10⟩ "[^ ] IN [a-c] IN" = .ok ts := by cbv
  exact ⟨htokens, tokens_cover_text htokens⟩

end Coverage

end LanguageSpec.Regex
