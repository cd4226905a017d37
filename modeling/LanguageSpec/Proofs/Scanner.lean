import LanguageSpec.Scanner
import LanguageSpec.Proofs.Except

/-!
# Words of a text

What a scanner finds in a text, apart from where it finds it. Every lexeme contributes its words
whatever stands in front of it, so a text that is put together from pieces is scanned piece by
piece.
-/

namespace LanguageSpec

variable {σ κ : Type}

/-- The kind and the text of a token. -/
def Token.word (t : Token κ) : κ × String := (t.kind, t.text)

/-- The kind and the text of a piece; unrecognized text has no kind. -/
def Piece.word : Piece κ → Option κ × String
  | .token t => (some t.kind, t.text)
  | .unrecognized text _ => (none, text)

def Mark.word (m : Mark κ) : Option κ × String := (m.kind, String.ofList m.text)

def Piece.pos : Piece κ → Position
  | .token t => t.pos
  | .unrecognized _ pos => pos

namespace Scanner

variable {s : Scanner σ κ}

theorem pos_place (pos : Position) (text : List Char) (m : Mark κ) :
    (s.place pos text m).pos = s.behindAll pos (text.take m.lead) := by
  obtain ⟨kind, lead, text'⟩ := m
  cases kind <;> rfl

@[simp] theorem word_place (pos : Position) (text : List Char) (m : Mark κ) :
    (s.place pos text m).word = m.word := by
  obtain ⟨kind, lead, text'⟩ := m
  cases kind <;> rfl

/-- The words of a text that starts in a mode. -/
def words (s : Scanner σ κ) (mode : σ) (text : List Char) : List (Option κ × String) :=
  (s.scan mode .first text).map Piece.word

theorem map_word_scan (mode : σ) (pos : Position) (text : List Char) :
    (s.scan mode pos text).map Piece.word = s.words mode text := by
  suffices hgen : ∀ pos', (s.scan mode pos text).map Piece.word =
      (s.scan mode pos' text).map Piece.word from hgen .first
  fun_induction scan s mode pos text with
  | case1 mode pos =>
      intro pos'
      rw [scan_nil]
  | case2 mode pos c cs x ih =>
      intro pos'
      have hrest := ih (s.behindAll pos' (c :: cs.take x.more))
      have hplace : ∀ p, (x.marks.map (s.place p (c :: cs))).map Piece.word =
          x.marks.map Mark.word := by
        intro p
        rw [List.map_map]
        exact List.map_congr_left fun m _ => word_place p (c :: cs) m
      rw [scan_cons, List.map_append, List.map_append, hplace, hplace, hrest]

@[simp] theorem words_nil (mode : σ) : s.words mode [] = [] := by
  rw [words, scan_nil, List.map_nil]

theorem words_cons (mode : σ) (c : Char) (cs : List Char) :
    s.words mode (c :: cs) = (s.read mode c cs).marks.map Mark.word ++
      s.words (s.read mode c cs).next (cs.drop (s.read mode c cs).more) := by
  rw [words, scan_cons, List.map_append, map_word_scan, List.map_map]
  congr 1
  exact List.map_congr_left fun m _ => word_place .first (c :: cs) m

/-! ## Lexemes of one token -/

/-- A run of characters ends where the first other one stands. -/
theorem takeWhile_append_cons {p : Char → Bool} {cs rest : List Char} {c : Char}
    (hcs : ∀ d ∈ cs, p d = true) (hc : p c = false) : (cs ++ c :: rest).takeWhile p = cs := by
  have hstop : ¬ p c = true := by simp [hc]
  rw [List.takeWhile_append_of_pos hcs, List.takeWhile_cons_of_neg hstop, List.append_nil]

/-- A token whose lexeme is taken off the front of a text. -/
theorem words_append_of_token {mode next : σ} {kind : κ} {c : Char} {cs rest : List Char}
    (h : s.read mode c (cs ++ rest) = .token kind c cs next) :
    s.words mode (c :: cs ++ rest) =
      (some kind, String.ofList (c :: cs)) :: s.words next rest := by
  rw [List.cons_append, words_cons, h]
  simp only [Lexeme.token, List.map_cons, List.map_nil, List.drop_left]
  rfl

theorem words_cons_of_token {mode next : σ} {kind : κ} {c : Char} {rest : List Char}
    (h : s.read mode c rest = .token kind c [] next) :
    s.words mode (c :: rest) = (some kind, String.ofList [c]) :: s.words next rest := by
  have hread : s.read mode c ([] ++ rest) = .token kind c [] next := h
  exact words_append_of_token hread

theorem words_cons_of_skip {mode next : σ} {c : Char} {rest : List Char}
    (h : s.read mode c rest = .skip next) : s.words mode (c :: rest) = s.words next rest := by
  rw [words_cons, h]
  rfl

end Scanner

/-! ## Tokens of words -/

namespace Piece

variable {what : String → Malformation} {ps : List (Piece κ)} {ts : List (Token κ)}

theorem mapM_toToken_eq_ok_iff : ps.mapM (toToken what) = .ok ts ↔ ps = ts.map .token := by
  induction ps generalizing ts with
  | nil =>
      rw [List.mapM_nil]
      cases ts <;> simp [pure, Except.pure]
  | cons p ps ih =>
      simp only [List.mapM_cons, bind_eq_ok_iff, ih, pure, Except.pure, Except.ok.injEq]
      constructor
      · rintro ⟨t, ht, us, rfl, rfl⟩
        cases p with
        | token u =>
            cases ht
            rfl
        | unrecognized text pos => cases ht
      · intro h
        obtain ⟨t, us, rfl, rfl, rfl⟩ := List.map_eq_cons_iff.mp h.symm
        exact ⟨t, rfl, us, rfl, rfl⟩

/-- Pieces that all have a kind are tokens. -/
theorem exists_mapM_toToken {ws : List (κ × String)}
    (h : ps.map word = ws.map fun w => (some w.1, w.2)) :
    ∃ ts, ps.mapM (toToken what) = .ok ts ∧ ts.map Token.word = ws := by
  have htokens : ∃ ts : List (Token κ), ps = ts.map .token ∧ ts.map Token.word = ws := by
    induction ps generalizing ws with
    | nil =>
        obtain rfl : ws = [] := by simpa using h.symm
        exact ⟨[], rfl, rfl⟩
    | cons p ps ih =>
        obtain ⟨w, ws, rfl, hw, hws⟩ := List.map_eq_cons_iff.mp h.symm
        obtain ⟨ts, rfl, rfl⟩ := ih hws.symm
        cases p with
        | token t =>
            obtain ⟨hkind, htext⟩ := Prod.mk.inj hw
            have hword : t.word = w := Prod.ext (Option.some.inj hkind.symm) htext.symm
            exact ⟨t :: ts, rfl, by rw [List.map_cons, hword]⟩
        | unrecognized text pos => cases hw
  obtain ⟨ts, hps, hws⟩ := htokens
  exact ⟨ts, mapM_toToken_eq_ok_iff.mpr hps, hws⟩

end Piece

theorem Scanner.words_of_mapM {s : Scanner σ κ} {mode : σ} {pos : Position} {text : List Char}
    {what : String → Malformation} {ts : List (Token κ)}
    (h : (s.scan mode pos text).mapM (Piece.toToken what) = .ok ts) :
    s.words mode text = ts.map fun t => (some t.kind, t.text) := by
  rw [← map_word_scan mode pos, Piece.mapM_toToken_eq_ok_iff.mp h, List.map_map]
  rfl

namespace Token

variable {ts : List (Token κ)} {w : κ × String} {ws : List (κ × String)}

theorem exists_of_map_word_eq_cons (h : ts.map word = w :: ws) :
    ∃ t us, ts = t :: us ∧ t.kind = w.1 ∧ t.text = w.2 ∧ us.map word = ws := by
  obtain ⟨t, us, rfl, ht, hus⟩ := List.map_eq_cons_iff.mp h
  exact ⟨t, us, rfl, congrArg Prod.fst ht, congrArg Prod.snd ht, hus⟩

theorem exists_of_map_word_eq_singleton (h : ts.map word = [w]) :
    ∃ t, ts = [t] ∧ t.kind = w.1 ∧ t.text = w.2 := by
  obtain ⟨t, us, rfl, hkind, htext, hus⟩ := exists_of_map_word_eq_cons h
  obtain rfl := List.map_eq_nil_iff.mp hus
  exact ⟨t, rfl, hkind, htext⟩

end Token

/-! ## Texts that are scanned piece by piece -/

/-- From one mode a text is scanned to words and leaves the scanner in another mode, whatever
follows. -/
def Scanner.Leads (s : Scanner σ κ) (mode : σ) (text : List Char) (ws : List (κ × String))
    (next : σ) : Prop :=
  ∀ rest, s.words mode (text ++ rest) =
    (ws.map fun w => (some w.1, w.2)) ++ s.words next rest

namespace Scanner.Leads

variable {s : Scanner σ κ} {m m' m'' : σ} {text text' : List Char} {ws ws' : List (κ × String)}

theorem nil (m : σ) : s.Leads m [] [] m := fun _ => rfl

theorem append (h : s.Leads m text ws m') (h' : s.Leads m' text' ws' m'') :
    s.Leads m (text ++ text') (ws ++ ws') m'' := by
  intro rest
  rw [List.append_assoc, h, h', List.map_append, List.append_assoc]

theorem flatMap {α : Type} {l : List α} {f : α → List Char} {g : α → List (κ × String)}
    (h : ∀ a ∈ l, s.Leads m (f a) (g a) m) : s.Leads m (l.flatMap f) (l.flatMap g) m := by
  induction l with
  | nil => exact nil m
  | cons a l ih =>
      obtain ⟨ha, hl⟩ := List.forall_mem_cons.mp h
      exact ha.append (ih hl)

/-- A text that is scanned to words has the tokens of these words. -/
theorem exists_tokens (h : s.Leads m text ws m') (what : String → Malformation) (pos : Position) :
    ∃ ts, (s.scan m pos text).mapM (Piece.toToken what) = .ok ts ∧ ts.map Token.word = ws := by
  refine Piece.exists_mapM_toToken ?_
  have hwords := h []
  rw [List.append_nil, words_nil, List.append_nil] at hwords
  rw [map_word_scan, hwords]

end Scanner.Leads

end LanguageSpec
