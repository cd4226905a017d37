import LanguageSpec.Proofs.Position
import LanguageSpec.Proofs.Regex.Acceptance
import LanguageSpec.Proofs.Regex.Coverage
import LanguageSpec.Proofs.Regex.Errors
import LanguageSpec.Proofs.Scanner

/-!
# Places in a regex

The columns of a regex count bytes, those of the text around it characters. Up to the first
character that cannot be read all characters have one byte, so both counts agree on every place that
is reported.
-/

namespace LanguageSpec.Regex

/-! ## Characters of one byte -/

/-- A character of one byte that does not end a line. -/
def IsNarrow (c : Char) : Prop := c.utf8Size = 1 ∧ c ≠ '\n'

instance : DecidablePred IsNarrow := fun c =>
  inferInstanceAs (Decidable (c.utf8Size = 1 ∧ c ≠ '\n'))

variable {p : Position} {c : Char} {cs : List Char}

theorem isNarrow_of_inAlphabet (h : CharSet.inAlphabet c = true) : IsNarrow c := by
  simp only [CharSet.inAlphabet, Bool.and_eq_true, decide_eq_true_eq] at h
  refine ⟨Char.utf8Size_eq_one_iff.mpr ?_, ?_⟩
  · rw [UInt32.le_iff_toNat_le]
    exact Nat.le_trans h.2 (by decide)
  · rintro rfl
    exact absurd h.1 (by decide)

theorem isNarrow_of_isNameRest (h : Text.isNameRest c = true) : IsNarrow c := by
  simp only [Text.isNameRest, Char.isAlphanum, Char.isAlpha, Char.isUpper, Char.isLower,
    Char.isDigit, Bool.or_eq_true, Bool.and_eq_true, decide_eq_true_eq, beq_iff_eq, ge_iff_le,
    UInt32.le_iff_toNat_le] at h
  refine isNarrow_of_inAlphabet ?_
  simp only [CharSet.inAlphabet, Bool.and_eq_true, decide_eq_true_eq]
  rcases h with ((h | h) | h) | rfl
  · exact ⟨Nat.le_trans (by decide) h.1, Nat.le_trans h.2 (by decide)⟩
  · exact ⟨Nat.le_trans (by decide) h.1, Nat.le_trans h.2 (by decide)⟩
  · exact ⟨Nat.le_trans (by decide) h.1, Nat.le_trans h.2 (by decide)⟩
  · decide

theorem IsNarrow.nextByte_eq (h : IsNarrow c) (p : Position) : p.nextByte c = p.next c := by
  rw [Position.nextByte, Position.next, if_neg h.2, h.1]

theorem foldl_nextByte_eq (h : ∀ c ∈ cs, IsNarrow c) (p : Position) :
    cs.foldl Position.nextByte p = p.past cs := by
  induction cs generalizing p with
  | nil => rfl
  | cons c cs ih =>
      obtain ⟨hc, hcs⟩ := List.forall_mem_cons.mp h
      rw [List.foldl_cons, hc.nextByte_eq, ih hcs, Position.past_cons]

theorem right_utf8ByteSize (h : ∀ c ∈ cs, IsNarrow c) (p : Position) :
    p.right (String.ofList cs).utf8ByteSize = p.past cs := by
  induction cs generalizing p with
  | nil => rfl
  | cons c cs ih =>
      obtain ⟨hc, hcs⟩ := List.forall_mem_cons.mp h
      rw [Position.past_cons, ← hc.nextByte_eq, ← ih hcs, String.ofList_cons,
        String.utf8ByteSize_append, String.utf8ByteSize_singleton, Position.nextByte,
        Position.right, Position.right, Position.right, Nat.add_assoc]

theorem isNarrow_of_isSpace (h : isSpace c = true) : IsNarrow c := by
  rcases Bool.or_eq_true_iff.mp h with hc | hc
  all_goals
    rw [eq_of_beq hc]
    decide

theorem isNarrow_of_sign? {kind : Kind} (h : Mode.sign? c = some kind) :
    IsNarrow c ∧ kind ≠ .reference := by
  unfold Mode.sign? at h
  split_ifs at h <;> cases h <;> subst c <;> decide

theorem isNarrow_of_insideSign? {kind : Kind} (h : Mode.insideSign? c = some kind) :
    IsNarrow c ∧ kind ≠ .reference := by
  unfold Mode.insideSign? at h
  split_ifs at h <;> cases h <;> subst c <;> decide

/-- Nothing but what is unrecognized has characters of several bytes. -/
theorem Form.isNarrow {kind : Kind} (h : Form kind cs) : ∀ c ∈ cs, IsNarrow c := by
  cases h with
  | bare hc => exact List.forall_mem_singleton.mpr (isNarrow_of_inAlphabet hc)
  | escaped hc =>
      refine List.forall_mem_cons.mpr ⟨by decide, ?_⟩
      exact List.forall_mem_singleton.mpr (isNarrow_of_inAlphabet hc)
  | reference hname =>
      obtain ⟨d, ds, rfl, hd, hds⟩ := Text.isName_eq_true_iff.mp hname
      refine List.forall_mem_cons.mpr ⟨by decide, List.forall_mem_cons.mpr ⟨?_, fun e he => ?_⟩⟩
      · exact isNarrow_of_isNameRest (Text.isNameRest_of_isNameStart hd)
      · exact isNarrow_of_isNameRest (hds e he)
  | sign hc => exact List.forall_mem_singleton.mpr (isNarrow_of_sign? hc).1
  | insideSign hc => exact List.forall_mem_singleton.mpr (isNarrow_of_insideSign? hc).1
  | inWord => exact List.forall_mem_cons.mpr ⟨by decide, List.forall_mem_singleton.mpr (by decide)⟩

theorem Form.head?_reference (h : Form .reference cs) : cs.head? = some '$' := by
  cases h with
  | reference hname => rfl
  | sign hc => exact absurd rfl (isNarrow_of_sign? hc).2
  | insideSign hc => exact absurd rfl (isNarrow_of_insideSign? hc).2

/-! ## Tokens -/

/-- The scanner of regexes with columns that count characters. -/
def characterScanner : Scanner Mode Kind := ⟨Mode.read, Position.next⟩

/-- Bytes and characters are counted to the same tokens and to the same error. -/
theorem mapM_scan_eq (mode : Mode) (pos : Position) (text : List Char) :
    (scanner.scan mode pos text).mapM (Piece.toToken .unrecognizedInRegex) =
      (characterScanner.scan mode pos text).mapM (Piece.toToken .unrecognizedInRegex) := by
  fun_induction Scanner.scan scanner mode pos text with
  | case1 mode pos => rw [Scanner.scan_nil]
  | case2 mode pos c cs x ih =>
      have hread : characterScanner.read mode c cs = x := rfl
      have hcut : Cut mode c cs x := Cut.read mode c cs
      rw [Scanner.scan_cons, hread]
      clear_value x
      cases hcut with
      | space hc hmode =>
          have hbehind : scanner.behindAll pos [c] = characterScanner.behindAll pos [c] :=
            (isNarrow_of_isSpace hc).nextByte_eq pos
          change (scanner.scan mode (scanner.behindAll pos [c]) cs).mapM _ =
            (characterScanner.scan mode (characterScanner.behindAll pos [c]) cs).mapM _
          rw [← hbehind]
          exact ih
      | @token _ kind _ ds rest hform hturn =>
          have hbehind : scanner.behindAll pos (c :: ds) =
              characterScanner.behindAll pos (c :: ds) :=
            foldl_nextByte_eq hform.isNarrow pos
          rw [List.mapM_append, List.mapM_append]
          dsimp only [Lexeme.token] at ih ⊢
          rw [ih, List.take_left, hbehind]
          rfl
      | unrecognized => rfl

theorem tokens_eq (origin : Position) (text : String) : tokens origin text =
    (characterScanner.scan .outside origin text.toList).mapM
      (Piece.toToken .unrecognizedInRegex) :=
  mapM_scan_eq .outside origin text.toList

section Marks

variable {text : List Char} {origin : Position} {word : String} {ts : List Token}

theorem covers_characterScanner (origin : Position) (text : List Char) :
    (layout origin.past).Covers [] [] text (characterScanner.scan .outside origin text) := by
  have hcounts : characterScanner.Counts (layout origin.past) := by
    intro front c
    change (origin.past front).past [c] = origin.past (front ++ [c])
    exact Position.past_append.symm
  exact covers_scan hcounts rfl text

/-- Every piece of a regex stands in the text around the regex where it says. -/
theorem marks_of_mem_scan (h : origin.Marks text word.toList) {piece : Piece Kind}
    (hpiece : piece ∈ characterScanner.scan .outside origin word.toList) :
    piece.pos.Marks text piece.word.2.toList := by
  obtain ⟨front, back, hword, hpos⟩ :=
    (covers_characterScanner origin word.toList).exists_of_mem hpiece
  rw [List.nil_append] at hword
  rw [hword] at h
  rw [hpos]
  exact h.inner

/-- What the tokens of a regex look like in the text around it. -/
structure Token.Stands (text : List Char) (t : Token) : Prop where
  marks : t.pos.Marks text t.text.toList
  narrow : ∀ c ∈ t.text.toList, IsNarrow c
  dollar : t.kind = .reference → t.text.toList.head? = some '$'

theorem stands_of_mem_tokens (h : origin.Marks text word.toList)
    (hts : tokens origin word = .ok ts) : ∀ t ∈ ts, Token.Stands text t := by
  rw [tokens_eq, Piece.mapM_toToken_eq_ok_iff] at hts
  intro t ht
  have hpiece : Piece.token t ∈ characterScanner.scan .outside origin word.toList := by
    rw [hts]
    exact List.mem_map_of_mem ht
  obtain ⟨front, back, rfl⟩ := List.append_of_mem ht
  have hform := ((covers_characterScanner origin word.toList).fits hts).form
  refine ⟨marks_of_mem_scan h hpiece, hform.isNarrow, fun hkind => ?_⟩
  rw [hkind] at hform
  exact hform.head?_reference

theorem marks_stopOf (h : origin.Marks text []) (hts : ∀ t ∈ ts, Token.Stands text t) :
    (stopOf origin ts).Marks text [] := by
  unfold stopOf
  split
  · rename_i t ht
    obtain ⟨hmarks, hnarrow, -⟩ := hts t (List.mem_of_getLast? ht)
    have hstop := right_utf8ByteSize hnarrow t.pos
    rw [String.ofList_toList] at hstop
    rw [Token.stop, hstop]
    exact hmarks.stop
  · exact h

end Marks

end LanguageSpec.Regex

/-! ## Errors -/

namespace LanguageSpec

namespace Regex

variable {text : List Char} {t : Token}

theorem cons_referenceName (h : t.text.toList.head? = some '$') :
    '$' :: (referenceName t).toList = t.text.toList := by
  obtain ⟨cs, hcs⟩ := List.head?_eq_some_iff.mp h
  rw [referenceName, hcs]
  exact congrArg (List.cons '$') String.toList_ofList

theorem Token.Stands.blamed (h : Token.Stands text t) : Blamed (Error.Located text) t := by
  obtain ⟨hmarks, hnarrow, hdollar⟩ := h
  have hplace := hmarks.inLines
  have hspells : t.kind = .reference →
      t.pos.Spells text ('$' :: (referenceName t).toList) := by
    intro hkind
    rw [cons_referenceName (hdollar hkind)]
    exact hmarks.spells fun hline => (hnarrow _ hline).2 rfl
  exact ⟨fun _ => hplace, hplace, fun hkind => ⟨hplace, .inl (hspells hkind)⟩,
    fun hkind => ⟨hplace, hspells hkind⟩⟩

end Regex

/-- All errors of a regex that stands in a text point into the text. -/
theorem Recognizer.failsWith_ofText {registry : Registry} {text : List Char} {origin : Position}
    {word : String} (h : origin.Marks text word.toList) :
    FailsWith (Error.Located text) (ofText registry origin word) := by
  have htokens : FailsWith (Error.Located text) (Regex.tokens origin word) := by
    rw [Regex.tokens_eq]
    refine FailsWith.mapM fun piece hpiece => ?_
    have hplace := (Regex.marks_of_mem_scan h hpiece).inLines
    cases piece with
    | token t => exact failsWith_ok t
    | unrecognized unread pos => exact failsWith_error_iff.mpr hplace
  refine htokens.bind_of_ok fun ts hts => ?_
  have hstands := Regex.stands_of_mem_tokens h hts
  have hstop := (Regex.marks_stopOf h.nil hstands).inLines
  refine FailsWith.bind ?_ fun r => ?_
  · refine (Regex.Reader.failsWith_foldlM fun t ht => (hstands t ht).blamed).bind fun r => ?_
    unfold Regex.Reader.finish
    split
    · exact failsWith_error_iff.mpr hstop
    · exact failsWith_ok _
  · obtain ⟨x, hx⟩ := r.recognizer_eq_ok (Regex.stopOf origin ts)
    rw [hx]
    exact failsWith_ok x

end LanguageSpec
