import LanguageSpec.Proofs.Document.Coverage
import LanguageSpec.Proofs.Document.Outline
import LanguageSpec.Proofs.Position

/-!
# Places in a document

Every token of a document stands in its text where it says: a definition with a dollar sign in front
of its name, the regex of a definition without the blanks around it, and all others as they are.
-/

namespace LanguageSpec.Document

/-! ## Tokens -/

variable {text : String} {ts : List Token} {t : Token}

theorem marks_of_mem_pieces {piece : Piece Kind} (h : piece ∈ pieces text) :
    piece.pos.Marks text.toList (spelling piece.word) := by
  obtain ⟨front, back, htext, hpos⟩ := (covers_pieces text).exists_of_mem h
  exact ⟨front, back, htext, hpos.trans (counts_layout.behindAll [] front).symm⟩

theorem marks_endPosition (text : String) : (endPosition text).Marks text.toList [] :=
  ⟨text.toList, [], by simp, rfl⟩

/-- Where a token stands. The line feed that closes a text may not be in it. -/
structure Token.Stands (text : String) (t : Token) : Prop where
  place : t.pos.Marks text.toList []
  marks : t.kind ≠ .lineFeed → t.pos.Marks text.toList (spelling (some t.kind, t.text))
  form : Form t.kind t.text.toList

theorem Token.Stands.marks_text (h : Token.Stands text t) (hdefinition : t.kind ≠ .definition)
    (hfeed : t.kind ≠ .lineFeed) : t.pos.Marks text.toList t.text.toList := by
  have hmarks := h.marks hfeed
  rwa [spelling_of_ne fun hkind => hdefinition (Option.some.inj hkind)] at hmarks

theorem stands_of_mem_closing : ∀ t ∈ closing text ts, Token.Stands text t := by
  have hend := marks_endPosition text
  intro t ht
  have hform := form_of_mem_closing t ht
  rcases eq_of_mem_closing ht with rfl | rfl
  · exact ⟨hend, fun hkind => absurd rfl hkind, hform⟩
  · exact ⟨hend, fun _ => hend, hform⟩

theorem stands_of_mem_tokens (h : tokens text = .ok ts) : ∀ t ∈ ts, Token.Stands text t := by
  have hforms := form_of_mem_tokens h
  obtain ⟨us, hus, h⟩ := bind_eq_ok_iff.mp h
  obtain rfl := Except.ok.inj h
  refine List.forall_mem_append.mpr ⟨fun t ht => ?_, stands_of_mem_closing⟩
  have hpiece : Piece.token t ∈ pieces text := by
    rw [Piece.mapM_toToken_eq_ok_iff.mp hus]
    exact List.mem_map_of_mem ht
  have hmarks := marks_of_mem_pieces hpiece
  exact ⟨hmarks.nil, fun _ => hmarks, hforms t (List.mem_append_left _ ht)⟩

/-! ## Errors -/

/-- Reading a document fails at a place of its text. -/
theorem Outline.failsWith_ofText {P : Error → Prop} (text : String)
    (hP : ∀ what pos, pos.Marks text.toList [] → P (.malformed what pos)) :
    FailsWith P (Outline.ofText text) := by
  refine FailsWith.bind_of_ok (FailsWith.bind ?_ fun us => failsWith_ok _) fun ts hts => ?_
  · refine FailsWith.mapM fun piece hpiece => ?_
    have hmarks := (marks_of_mem_pieces hpiece).nil
    cases piece with
    | token t => exact failsWith_ok t
    | unrecognized unread pos => exact failsWith_error_iff.mpr (hP _ _ hmarks)
  have hstands := stands_of_mem_tokens hts
  have hfirst : Position.first.Marks text.toList [] := ⟨[], text.toList, by simp, rfl⟩
  have hlast : (lastPosition ts).Marks text.toList [] := by
    unfold lastPosition
    split
    · exact (hstands _ (List.mem_of_getLast? ‹_›)).place
    · exact hfirst
  refine FailsWith.bind ?_ fun p => ?_
  · refine FailsWith.foldlM_of_invariant (Q := fun _ => True)
      (fun p _ t ht => ⟨?_, fun _ _ => trivial⟩) trivial
    unfold Progress.step
    split
    · exact failsWith_ok _
    · exact failsWith_error_iff.mpr (hP _ _ (hstands t ht).place)
  · split
    · exact failsWith_ok _
    · exact failsWith_error_iff.mpr (hP _ _ hlast)

theorem Outline.isFrom_of_ofText {o : Outline} (h : Outline.ofText text = .ok o) :
    (∀ d ∈ o.definitions, d.IsFrom (Token.Stands text)) ∧
      ∀ r ∈ o.rules, r.IsFrom (Token.Stands text) := by
  obtain ⟨ts, hts, ho⟩ := bind_eq_ok_iff.mp h
  exact (ofTokens_eq_ok_iff_spells.mp ho).isFrom (stands_of_mem_tokens hts)

end LanguageSpec.Document
