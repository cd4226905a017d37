import LanguageSpec.Proofs.Fragment.Shape
import LanguageSpec.Proofs.Regex.Brackets

/-!
# Listings tell fragments apart

A listing is a sequence of lines, and a line can be read from both its ends: states are numbers and
have no blanks, so whatever characters a label has, it is what stands between the first two blanks
and the last one. What two fragments with the same listing can differ in is what a listing does not
show: the order of edges and the places where the next operations apply.
-/

namespace LanguageSpec.Fragment

/-! ## Separators -/

section Separators

variable {α : Type} {c : α} {l l' m m' : List α}

/-- The first separator divides a list in one way. -/
theorem eq_of_append_cons (hl : c ∉ l) (hl' : c ∉ l') (h : l ++ c :: m = l' ++ c :: m') :
    l = l' ∧ m = m' := by
  rcases List.append_eq_append_iff.mp h with ⟨as, rfl, has⟩ | ⟨as, rfl, has⟩
  · cases as with
    | nil => simpa using has
    | cons a as =>
        obtain ⟨rfl, -⟩ := List.cons.inj has
        simp at hl'
  · cases as with
    | nil => simpa using has.symm
    | cons a as =>
        obtain ⟨rfl, -⟩ := List.cons.inj has
        simp at hl

/-- The last separator divides a list in one way. -/
theorem eq_of_append_cons_right (hm : c ∉ m) (hm' : c ∉ m') (h : l ++ c :: m = l' ++ c :: m') :
    l = l' ∧ m = m' := by
  have hreverse := congrArg List.reverse h
  simp only [List.reverse_append, List.reverse_cons, List.append_assoc, List.singleton_append]
    at hreverse
  obtain ⟨hm, hl⟩ := eq_of_append_cons (by simpa using hm) (by simpa using hm') hreverse
  exact ⟨List.reverse_injective hl, List.reverse_injective hm⟩

/-- Lists that each end at a separator can be told apart when they are joined. -/
theorem eq_of_flatMap_concat {ls ms : List (List α)} (hls : ∀ l ∈ ls, c ∉ l)
    (hms : ∀ m ∈ ms, c ∉ m) (h : ls.flatMap (· ++ [c]) = ms.flatMap (· ++ [c])) : ls = ms := by
  induction ls generalizing ms with
  | nil =>
      cases ms with
      | nil => rfl
      | cons m ms => simp at h
  | cons l ls ih =>
      cases ms with
      | nil => simp at h
      | cons m ms =>
          obtain ⟨hl, hrestl⟩ := List.forall_mem_cons.mp hls
          obtain ⟨hm, hrestm⟩ := List.forall_mem_cons.mp hms
          simp only [List.flatMap_cons, List.append_assoc, List.singleton_append] at h
          obtain ⟨rfl, hrest⟩ := eq_of_append_cons hl hm h
          rw [ih hrestl hrestm hrest]

end Separators

/-! ## Numbers -/

theorem notMem_repr {c : Char} (hc : c.isDigit = false) (n : Nat) : c ∉ n.repr.toList := by
  intro h
  rw [Nat.toList_repr] at h
  have hdigit := Nat.isDigit_of_mem_toDigits (by decide) (by decide) h
  rw [hc] at hdigit
  cases hdigit

theorem eq_of_toList_repr {m n : Nat} (h : m.repr.toList = n.repr.toList) : m = n :=
  Nat.repr_injective (String.toList_inj.mp h)

/-! ## Lines -/

/-- What a line says: there is a silent edge from one state to another, or there are edges with
certain letters. -/
structure Entry where
  source : Nat
  letters : Option CharSet
  target : Nat

namespace Entry

/-- A line with letters has some, and they are printable. -/
def WellFormed (x : Entry) : Prop :=
  ∀ s, x.letters = some s → (∃ c, c ∈ s) ∧ ∀ c ∈ s, CharSet.inAlphabet c = true

def label (x : Entry) : String :=
  match x.letters with
  | none => "eps"
  | some s => s.text

def text (x : Entry) : String := s!"  {x.source} -{x.label}-> {x.target}"

variable {x y : Entry}

theorem toList_text (x : Entry) : x.text.toList =
    ' ' :: ' ' :: (x.source.repr.toList ++
      ' ' :: ('-' :: x.label.toList ++ ['-', '>'] ++ ' ' :: x.target.repr.toList)) := by
  simp [text, String.toList_append, toString]

theorem newline_notMem_label (hx : x.WellFormed) : '\n' ∉ x.label.toList := by
  unfold label
  cases hletters : x.letters with
  | none => decide
  | some s =>
      intro hnewline
      have halphabet := CharSet.inAlphabet_of_mem_text (hx s hletters).2 hnewline
      exact absurd halphabet (by decide)

theorem newline_notMem_text (hx : x.WellFormed) : '\n' ∉ x.text.toList := by
  have hnumber := notMem_repr (c := '\n') (by decide)
  simp [toList_text, newline_notMem_label hx, hnumber, -Nat.toList_repr]

/-- The bracket form of a set does not begin as the label of silent edges. -/
theorem text_ne_eps (s : CharSet) : s.text ≠ "eps" := by
  intro h
  have hchars := congrArg String.toList h
  rw [CharSet.text, String.toList_ofList] at hchars
  exact absurd (List.cons.inj hchars).1 (by decide)

theorem letters_eq_of_label_eq (hx : x.WellFormed) (hy : y.WellFormed) (h : x.label = y.label) :
    x.letters = y.letters := by
  unfold label at h
  cases hxs : x.letters with
  | none =>
      cases hys : y.letters with
      | none => rfl
      | some u =>
          rw [hxs, hys] at h
          exact absurd h.symm (text_ne_eps u)
  | some s =>
      cases hys : y.letters with
      | none =>
          rw [hxs, hys] at h
          exact absurd h (text_ne_eps s)
      | some u =>
          rw [hxs, hys] at h
          obtain ⟨hs, hsalphabet⟩ := hx s hxs
          obtain ⟨hu, hualphabet⟩ := hy u hys
          rw [CharSet.eq_of_text_eq hs hsalphabet hu hualphabet h]

/-- A line can be read in one way. -/
theorem eq_of_text_eq (hx : x.WellFormed) (hy : y.WellFormed) (h : x.text = y.text) : x = y := by
  have hchars := congrArg String.toList h
  simp only [toList_text, List.cons.injEq, true_and] at hchars
  have hblank := notMem_repr (c := ' ') (by decide)
  obtain ⟨hsource, hrest⟩ := eq_of_append_cons (hblank _) (hblank _) hchars
  -- a label may have blanks, so its end is found from the end of the line
  obtain ⟨hlabel, htarget⟩ := eq_of_append_cons_right (hblank _) (hblank _) hrest
  have hlabel : x.label = y.label :=
    String.toList_inj.mp (List.cons.inj (List.append_cancel_right hlabel)).2
  obtain ⟨i, s, j⟩ := x
  obtain ⟨i', s', j'⟩ := y
  obtain rfl : i = i' := eq_of_toList_repr hsource
  obtain rfl : s = s' := letters_eq_of_label_eq hx hy hlabel
  obtain rfl : j = j' := eq_of_toList_repr htarget
  rfl

end Entry

/-! ## Listings -/

def entriesTo (i : Nat) (row : List Edge) (target : Nat) : List Entry :=
  (if ⟨none, target⟩ ∈ row then [⟨i, none, target⟩] else []) ++
    if (lettersTo row target).isEmpty then [] else [⟨i, some (lettersTo row target), target⟩]

def stateEntries (row : List Edge) (i : Nat) : List Entry :=
  (SortedSet.ofList (row.map Edge.target)).toList.flatMap (entriesTo i row)

def entries (f : Fragment) : List Entry := f.states.zipIdx.flatMap fun p => stateEntries p.1 p.2

def acceptText (a : Option Nat) : String := a.elim "-" Nat.repr

def headline (f : Fragment) : String :=
  s!"start: {f.start}, accept: {acceptText f.accept}, states: {f.size}"

section Text

variable {f g : Fragment} {row : List Edge} {i t : Nat}

/-- The characters of lines, each with its end. -/
def lineChars (line : String) : List Char := line.toList ++ ['\n']

theorem toList_linesTo (i : Nat) (row : List Edge) (t : Nat) :
    (linesTo i row t).toList = (entriesTo i row t).flatMap fun x => lineChars x.text := by
  rw [linesTo, entriesTo, String.toList_append, List.flatMap_append]
  congr 1
  · split
    · simp [lineChars, Entry.text, Entry.label, toString]
    · rfl
  · dsimp only
    split
    · rfl
    · simp [lineChars, Entry.text, Entry.label, toString]

theorem toList_stateLines (row : List Edge) (i : Nat) :
    (stateLines row i).toList = (stateEntries row i).flatMap fun x => lineChars x.text := by
  rw [stateLines, stateEntries, String.toList_join, List.flatMap_map, List.flatMap_assoc]
  simp only [toList_linesTo]

theorem toList_text (f : Fragment) : f.text.toList =
    lineChars f.headline ++ f.entries.flatMap fun x => lineChars x.text := by
  have hrows : (String.join (f.states.zipIdx.map fun p => stateLines p.1 p.2)).toList =
      f.entries.flatMap fun x => lineChars x.text := by
    rw [entries, String.toList_join, List.flatMap_map, List.flatMap_assoc]
    simp only [toList_stateLines]
  have hhead : f.text = f.headline ++ "\n" ++
      String.join (f.states.zipIdx.map fun p => stateLines p.1 p.2) := by
    cases hf : f.accept <;> simp [text, headline, acceptText, toString, hf, String.append_assoc]
  rw [hhead, String.toList_append, hrows, String.toList_append, lineChars]
  rfl

end Text

/-! ## What a listing shows -/

section Shows

variable {f g : Fragment} {row : List Edge} {i p t : Nat} {e : Edge} {c : Char} {x : Entry}

theorem mem_lettersTo : c ∈ lettersTo row t ↔ ⟨some c, t⟩ ∈ row := by
  rw [lettersTo, SortedSet.mem_ofList, List.mem_filterMap]
  constructor
  · rintro ⟨⟨letter, target⟩, he, heq⟩
    split at heq
    · rename_i htarget
      rwa [← heq, ← htarget]
    · cases heq
  · intro he
    exact ⟨_, he, if_pos rfl⟩

/-- A line is about silent edges of a state to another, or about all other edges between the two, if
there are any. -/
def Entry.IsOf (x : Entry) (row : List Edge) : Prop :=
  x.letters = none ∧ ⟨none, x.target⟩ ∈ row ∨
    x.letters = some (lettersTo row x.target) ∧ ∃ c, ⟨some c, x.target⟩ ∈ row

theorem mem_entriesTo : x ∈ entriesTo i row t ↔ x.source = i ∧ x.target = t ∧ x.IsOf row := by
  have hletters : ¬(lettersTo row t).isEmpty = true ↔ ∃ c, ⟨some c, t⟩ ∈ row := by
    simp only [Bool.not_eq_true, SortedSet.isEmpty_eq_false_iff, mem_lettersTo]
  obtain ⟨p, s, q⟩ := x
  simp only [entriesTo, Entry.IsOf, List.mem_append, List.mem_ite_nil_right, List.mem_ite_nil_left,
    List.mem_singleton, Entry.mk.injEq, hletters]
  constructor
  · rintro (⟨he, rfl, rfl, rfl⟩ | ⟨he, rfl, rfl, rfl⟩)
    · exact ⟨rfl, rfl, .inl ⟨rfl, he⟩⟩
    · exact ⟨rfl, rfl, .inr ⟨rfl, he⟩⟩
  · rintro ⟨rfl, rfl, ⟨rfl, he⟩ | ⟨rfl, he⟩⟩
    · exact .inl ⟨he, rfl, rfl, rfl⟩
    · exact .inr ⟨he, rfl, rfl, rfl⟩

theorem mem_stateEntries : x ∈ stateEntries row i ↔ x.source = i ∧ x.IsOf row := by
  have htarget : x.IsOf row → x.target ∈ row.map Edge.target := by
    rintro (⟨-, he⟩ | ⟨-, c, he⟩)
    all_goals exact List.mem_map.mpr ⟨_, he, rfl⟩
  simp only [stateEntries, List.mem_flatMap, SortedSet.mem_toList, SortedSet.mem_ofList,
    mem_entriesTo]
  constructor
  · rintro ⟨t, -, hi, -, hx⟩
    exact ⟨hi, hx⟩
  · rintro ⟨hi, hx⟩
    exact ⟨x.target, htarget hx, hi, rfl, hx⟩

theorem mem_entries : x ∈ f.entries ↔ x.IsOf (edgesAt f.states x.source) := by
  simp only [entries, List.mem_flatMap, Prod.exists, List.mem_zipIdx_iff_getElem?, mem_stateEntries]
  constructor
  · rintro ⟨row, i, hrow, rfl, hx⟩
    rwa [edgesAt, List.getD_eq_getElem?_getD, hrow]
  · intro hx
    have hlt : x.source < f.states.length := by
      rcases hx with ⟨-, he⟩ | ⟨-, c, he⟩
      all_goals exact lt_of_mem_edgesAt he
    have hrow := List.getElem?_eq_getElem hlt
    rw [edgesAt, List.getD_eq_getElem?_getD, hrow] at hx
    exact ⟨f.states[x.source], x.source, hrow, rfl, hx⟩

theorem silent_mem_entries {p q : Nat} :
    ⟨p, none, q⟩ ∈ f.entries ↔ ⟨none, q⟩ ∈ edgesAt f.states p := by
  simp [mem_entries, Entry.IsOf]

theorem exists_mem_entries {p q : Nat} :
    (∃ s, ⟨p, some s, q⟩ ∈ f.entries ∧ c ∈ s) ↔ ⟨some c, q⟩ ∈ edgesAt f.states p := by
  simp only [mem_entries, Entry.IsOf]
  constructor
  · rintro ⟨s, ⟨hnone, -⟩ | ⟨hsome, -⟩, hc⟩
    · cases hnone
    · rw [Option.some.inj hsome] at hc
      exact mem_lettersTo.mp hc
  · intro he
    exact ⟨_, .inr ⟨rfl, c, he⟩, mem_lettersTo.mpr he⟩

theorem wellFormed_of_mem_entries (hf : Printable f.states) (hx : x ∈ f.entries) :
    x.WellFormed := by
  intro s hs
  rcases mem_entries.mp hx with ⟨hnone, -⟩ | ⟨hsome, c, he⟩
  · rw [hs] at hnone
    cases hnone
  · obtain rfl : s = _ := Option.some.inj (hs.symm.trans hsome)
    refine ⟨⟨c, mem_lettersTo.mpr he⟩, fun d hd => ?_⟩
    exact hf _ _ (mem_lettersTo.mp hd) d rfl

end Shows

/-! ## Injectivity -/

section Injectivity

variable {f g : Fragment}

theorem newline_notMem_headline (f : Fragment) : '\n' ∉ f.headline.toList := by
  have hnumber := notMem_repr (c := '\n') (by decide)
  cases hf : f.accept <;>
    simp [headline, acceptText, hf, hnumber, toString, -Nat.toList_repr]

/-- Listings that are the same have the same lines. -/
theorem lines_eq_of_text_eq (hf : Printable f.states) (hg : Printable g.states)
    (h : f.text = g.text) :
    f.headline = g.headline ∧ f.entries.map Entry.text = g.entries.map Entry.text := by
  have hlines : ∀ k : Fragment, k.text.toList =
      ((k.headline :: k.entries.map Entry.text).map String.toList).flatMap (· ++ ['\n']) := by
    intro k
    rw [toList_text, List.flatMap_map, List.flatMap_cons, List.flatMap_map]
    rfl
  have hend : ∀ k : Fragment, Printable k.states →
      ∀ l ∈ (k.headline :: k.entries.map Entry.text).map String.toList, '\n' ∉ l := by
    intro k hk l hl
    obtain ⟨line, hline, rfl⟩ := List.mem_map.mp hl
    rcases List.mem_cons.mp hline with rfl | hline
    · exact k.newline_notMem_headline
    · obtain ⟨x, hx, rfl⟩ := List.mem_map.mp hline
      exact Entry.newline_notMem_text (wellFormed_of_mem_entries hk hx)
  have hchars := congrArg String.toList h
  rw [hlines f, hlines g] at hchars
  have hequal := eq_of_flatMap_concat (hend f hf) (hend g hg) hchars
  have hinjective : Function.Injective String.toList := fun _ _ => String.toList_inj.mp
  exact List.cons.inj (hinjective.list_map hequal)

theorem acceptText_injective {a b : Option Nat} (h : acceptText a = acceptText b) : a = b := by
  have hdash : ∀ n : Nat, n.repr ≠ "-" := by
    intro n hn
    have hmem : '-' ∉ n.repr.toList := notMem_repr (by decide) n
    rw [hn] at hmem
    exact hmem (by decide)
  cases a with
  | none =>
      cases b with
      | none => rfl
      | some n => exact absurd h.symm (hdash n)
  | some m =>
      cases b with
      | none => exact absurd h (hdash m)
      | some n => rw [Nat.repr_injective h]

/-- The head line can be read in one way. -/
theorem eq_of_headline_eq (h : f.headline = g.headline) : f.accept = g.accept ∧ f.size = g.size := by
  have hchars : ∀ k : Fragment, k.headline.toList = "start: 0, accept: ".toList ++
      ((acceptText k.accept).toList ++ ',' :: (" states: ".toList ++ k.size.repr.toList)) := by
    intro k
    simp [headline, toString, start]
  have hcomma : ∀ k : Fragment, ',' ∉ (acceptText k.accept).toList := by
    intro k
    cases k.accept with
    | none => decide
    | some a => exact notMem_repr (by decide) a
  have hequal := congrArg String.toList h
  rw [hchars f, hchars g] at hequal
  obtain ⟨haccept, hsize⟩ :=
    eq_of_append_cons (hcomma f) (hcomma g) (List.append_cancel_left hequal)
  refine ⟨acceptText_injective (String.toList_inj.mp haccept), ?_⟩
  exact eq_of_toList_repr (List.append_cancel_left hsize)

theorem mem_entries_of_text_eq (hf : Printable f.states) (hg : Printable g.states)
    (h : f.text = g.text) {x : Entry} (hx : x ∈ f.entries) : x ∈ g.entries := by
  have hmem := List.mem_map_of_mem (f := Entry.text) hx
  rw [(lines_eq_of_text_eq hf hg h).2] at hmem
  obtain ⟨y, hy, heq⟩ := List.mem_map.mp hmem
  have hwell := wellFormed_of_mem_entries hf hx
  rwa [← Entry.eq_of_text_eq (wellFormed_of_mem_entries hg hy) hwell heq]

/-- A listing determines the start state, the accept state, the number of states and the edges. -/
theorem same_of_text_eq (hf : Printable f.states) (hg : Printable g.states) (h : f.text = g.text) :
    f.start = g.start ∧ f.accept = g.accept ∧ f.size = g.size ∧
      ∀ p q letter, ⟨letter, q⟩ ∈ edgesAt f.states p ↔ ⟨letter, q⟩ ∈ edgesAt g.states p := by
  obtain ⟨haccept, hsize⟩ := eq_of_headline_eq (lines_eq_of_text_eq hf hg h).1
  have hentries : ∀ x, x ∈ f.entries ↔ x ∈ g.entries := fun x =>
    ⟨mem_entries_of_text_eq hf hg h, mem_entries_of_text_eq hg hf h.symm⟩
  refine ⟨rfl, haccept, hsize, fun p q letter => ?_⟩
  cases letter with
  | none => rw [← silent_mem_entries, ← silent_mem_entries, hentries]
  | some c => simp only [← exists_mem_entries, hentries]

/-- Silent edges that were added in another order, beside letters that are also between labels. -/
theorem same_of_text_eq_order :
    let s : CharSet := SortedSet.ofList ['-', '>', ' ', '0']
    let f := ((ofSet s).withLink 0 1).withLink 0 0
    let g := ((ofSet s).withLink 0 0).withLink 0 1
    f ≠ g ∧ Printable f.states ∧ Printable g.states ∧ f.text = g.text ∧
      f.start = g.start ∧ f.accept = g.accept ∧ f.size = g.size ∧
      ∀ p q letter, ⟨letter, q⟩ ∈ edgesAt f.states p ↔ ⟨letter, q⟩ ∈ edgesAt g.states p := by
  intro s f g
  have hall : s.toList.all CharSet.inAlphabet = true := by decide +kernel
  have htidy : Tidy (ofSet s).states := tidy_ofSet (List.all_eq_true.mp hall)
  have hf : Printable f.states := ((htidy.link 0 1).link 0 0).printable
  have hg : Printable g.states := ((htidy.link 0 0).link 0 1).printable
  have htext : f.text = g.text := by decide +kernel
  exact ⟨by decide +kernel, hf, hg, htext, same_of_text_eq hf hg htext⟩

end Injectivity

end LanguageSpec.Fragment
