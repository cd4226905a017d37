import LanguageSpec.Proofs.Scanner

/-!
# How pieces cover a text

The pieces that a scanner finds lie one behind the other in the text, each of them where it says,
and what lies between them is skipped. What may be skipped, and which token may come next, depends
on the tokens in front.
-/

namespace LanguageSpec

variable {σ κ : Type}

/-- What pieces look like in a text: the characters that a word is read from, the place behind some
characters, what is skipped behind some tokens and in front of the rest of the text, and which
tokens fit behind others. -/
structure Layout (κ : Type) where
  spelling : Option κ × String → List Char
  place : List Char → Position
  Skips : List κ → List Char → List Char → Prop
  Fits : List κ → κ → String → Prop

namespace Layout

/-- Behind `front`, in which the tokens `before` are, a text consists of some pieces, each of them
where it says, and of what is skipped. -/
inductive Covers (L : Layout κ) : List Char → List κ → List Char → List (Piece κ) → Prop
  | done {front : List Char} {before : List κ} : Covers L front before [] []
  | skip {front gap rest : List Char} {before : List κ} {ps : List (Piece κ)}
      (hgap : L.Skips before gap rest) (h : Covers L (front ++ gap) before rest ps) :
      Covers L front before (gap ++ rest) ps
  | piece {front rest : List Char} {before : List κ} {p : Piece κ} {ps : List (Piece κ)}
      (hpos : p.pos = L.place front)
      (hfits : ∀ kind, p.word.1 = some kind → L.Fits before kind p.word.2)
      (h : Covers L (front ++ L.spelling p.word) (before ++ p.word.1.toList) rest ps) :
      Covers L front before (L.spelling p.word ++ rest) (p :: ps)

variable {L : Layout κ} {front text : List Char} {before : List κ} {ps : List (Piece κ)}

/-- Each piece of a text stands in it where it says. -/
theorem Covers.exists_of_mem (h : L.Covers front before text ps) {p : Piece κ} (hp : p ∈ ps) :
    ∃ front' back, front ++ text = front' ++ L.spelling p.word ++ back ∧
      p.pos = L.place front' := by
  induction h with
  | done => cases hp
  | skip hgap h ih =>
      obtain ⟨front', back, htext, hpos⟩ := ih hp
      exact ⟨front', back, by rw [← htext, List.append_assoc], hpos⟩
  | @piece front rest before q ps hpos hfits h ih =>
      rcases List.mem_cons.mp hp with rfl | hp
      · exact ⟨front, rest, (List.append_assoc _ _ _).symm, hpos⟩
      · obtain ⟨front', back, htext, hpos⟩ := ih hp
        exact ⟨front', back, by rw [← htext, List.append_assoc], hpos⟩

/-- Each token fits behind the tokens in front of it. -/
theorem Covers.fits (h : L.Covers front before text ps) {ts us : List (Token κ)} {t : Token κ}
    (hps : ps = (ts ++ t :: us).map .token) :
    L.Fits (before ++ ts.map Token.kind) t.kind t.text := by
  induction h generalizing ts with
  | done => simp at hps
  | skip hgap h ih => exact ih hps
  | @piece front rest before q ps hpos hfits h ih =>
      cases ts with
      | nil =>
          obtain ⟨rfl, -⟩ := List.cons.inj hps
          rw [List.map_nil, List.append_nil]
          exact hfits _ rfl
      | cons u ts =>
          rw [List.cons_append, List.map_cons] at hps
          obtain ⟨hq, htail⟩ := List.cons.inj hps
          subst hq
          have hrest := ih htail
          rwa [List.append_assoc] at hrest

end Layout

namespace Scanner

variable {s : Scanner σ κ} {L : Layout κ}

/-- The places behind characters are those of a layout. -/
def Counts (s : Scanner σ κ) (L : Layout κ) : Prop :=
  ∀ front c, s.behind (L.place front) c = L.place (front ++ [c])

theorem Counts.behindAll (h : s.Counts L) (front cs : List Char) :
    s.behindAll (L.place front) cs = L.place (front ++ cs) := by
  induction cs generalizing front with
  | nil => rw [List.append_nil]; rfl
  | cons c cs ih =>
      have hrest := ih (front ++ [c])
      rw [← h, List.append_assoc] at hrest
      exact hrest

/-- A mark behind some characters of its lexeme is a piece where it says. -/
theorem covers_place (hs : s.Counts L) (kind : Option κ)
    {start text front word spelled rest : List Char} {lead : Nat} {before : List κ}
    {ps : List (Piece κ)}
    (hspelled : L.spelling (kind, String.ofList word) = spelled)
    (hfront : start ++ text.take lead = front)
    (hfits : ∀ k, kind = some k → L.Fits before k (String.ofList word))
    (h : L.Covers (front ++ spelled) (before ++ kind.toList) rest ps) :
    L.Covers front before (spelled ++ rest)
      (s.place (L.place start) text ⟨kind, lead, word⟩ :: ps) := by
  subst hspelled
  have hword : (s.place (L.place start) text ⟨kind, lead, word⟩).word =
      (kind, String.ofList word) := word_place _ _ _
  have hpos : (s.place (L.place start) text ⟨kind, lead, word⟩).pos = L.place front := by
    rw [pos_place, hs.behindAll, hfront]
  rw [← hword] at h ⊢
  refine .piece hpos ?_ ?_
  · rwa [hword]
  · rwa [hword] at h ⊢

/-! ## Lexemes -/

/-- A lexeme in front of a text covers what it takes, whatever covers the rest. -/
def Passes (s : Scanner σ κ) (L : Layout κ) (before : List κ) (c : Char) (cs : List Char)
    (x : Lexeme σ κ) : Prop :=
  ∀ front ps,
    L.Covers (front ++ c :: cs.take x.more) (before ++ x.marks.filterMap Mark.kind)
        (cs.drop x.more) ps →
      L.Covers front before (c :: cs) (x.marks.map (s.place (L.place front) (c :: cs)) ++ ps)

variable {before : List κ} {c : Char} {rest : List Char}

theorem passes_gap (ds : List Char) (next : σ) (h : L.Skips before (c :: ds) rest) :
    s.Passes L before c (ds ++ rest) ⟨ds.length, [], next⟩ := by
  intro front ps hps
  dsimp only at hps
  rw [List.take_left, List.drop_left, List.filterMap_nil, List.append_nil] at hps
  exact .skip h hps

/-- A lexeme that is one piece. -/
theorem passes_whole (hs : s.Counts L) {kind : Option κ} (ds : List Char) (next : σ)
    (hspelled : L.spelling (kind, String.ofList (c :: ds)) = c :: ds)
    (hfits : ∀ k, kind = some k → L.Fits before k (String.ofList (c :: ds))) :
    s.Passes L before c (ds ++ rest) ⟨ds.length, [⟨kind, 0, c :: ds⟩], next⟩ := by
  intro front ps hps
  have hkinds : [(⟨kind, 0, c :: ds⟩ : Mark κ)].filterMap Mark.kind = kind.toList := by
    cases kind <;> rfl
  dsimp only at hps
  rw [List.take_left, List.drop_left, hkinds] at hps
  exact covers_place hs kind hspelled (List.append_nil front) hfits hps

/-! ## Whole texts -/

/-- What holds of the tokens in front of a mode, and lets a lexeme pass wherever it holds, lets all
lexemes of a text pass. -/
theorem covers_scan (hs : s.Counts L) {I : σ → List κ → Prop}
    (hread : ∀ mode before c cs, I mode before → s.Passes L before c cs (s.read mode c cs) ∧
      I (s.read mode c cs).next (before ++ (s.read mode c cs).marks.filterMap Mark.kind))
    {mode : σ} {before : List κ} (h : I mode before) (front text : List Char) :
    L.Covers front before text (s.scan mode (L.place front) text) := by
  suffices hgen : ∀ pos front before, I mode before → pos = L.place front →
      L.Covers front before text (s.scan mode pos text) from hgen _ front before h rfl
  clear h
  intro pos
  fun_induction scan s mode pos text with
  | case1 mode pos => exact fun _ _ _ _ => .done
  | case2 mode pos c cs x ih =>
      intro front before h hpos
      subst hpos
      obtain ⟨hpasses, hnext⟩ := hread mode before c cs h
      exact hpasses front _ (ih _ _ hnext (hs.behindAll _ _))

/-- A scanner that marks no more pieces than it takes characters finds no more of them. -/
theorem length_scan_le
    (h : ∀ mode c cs, (s.read mode c cs).marks.length +
      (cs.drop (s.read mode c cs).more).length ≤ cs.length + 1) (mode : σ) (pos : Position)
    (text : List Char) : (s.scan mode pos text).length ≤ text.length := by
  fun_induction scan s mode pos text with
  | case1 mode pos => exact Nat.le_refl _
  | case2 mode pos c cs x ih =>
      have hread := h mode c cs
      rw [List.length_append, List.length_map, List.length_cons]
      exact Nat.le_trans (Nat.add_le_add_left ih _) hread

end Scanner

end LanguageSpec
