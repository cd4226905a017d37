import LanguageSpec.Proofs.Document.Coverage

/-!
# A lexer with lines

A lexer that is asked for one token after the other. It knows its place in bytes, and counts lines
only when it comes to a line feed: a column is the number of characters between the byte at which
the line starts and the byte it asks for. A definition is one piece of the text and two tokens, so
its regex waits for the next question. The lexer gives the pieces of the document, with their
places, and never cuts a text inside a character.
-/

namespace LanguageSpec

/-! ## Bytes -/

namespace Text

/-- The number of bytes that characters are encoded in. -/
def byteLength : List Char → Nat
  | [] => 0
  | c :: cs => c.utf8Size + byteLength cs

@[simp] theorem byteLength_nil : byteLength [] = 0 := rfl

@[simp] theorem byteLength_cons (c : Char) (cs : List Char) :
    byteLength (c :: cs) = c.utf8Size + byteLength cs := rfl

@[simp] theorem byteLength_append (cs ds : List Char) :
    byteLength (cs ++ ds) = byteLength cs + byteLength ds := by
  induction cs with
  | nil => rw [List.nil_append, byteLength_nil, Nat.zero_add]
  | cons c cs ih => rw [List.cons_append, byteLength_cons, byteLength_cons, ih, Nat.add_assoc]

/-- A text split behind some bytes, unless it has fewer bytes or a character would be cut. -/
def splitBytes? (n : Nat) : List Char → Option (List Char × List Char)
  | [] => if n = 0 then some ([], []) else none
  | c :: cs =>
    if n = 0 then some ([], c :: cs)
    else if n < c.utf8Size then none
    else (splitBytes? (n - c.utf8Size) cs).map fun x => (c :: x.1, x.2)

/-- The part of a text between two bytes. -/
def slice? (cs : List Char) (start stop : Nat) : Option (List Char) :=
  if stop < start then none
  else (splitBytes? start cs).bind fun x => (splitBytes? (stop - start) x.2).map Prod.fst

theorem splitBytes?_append (front rest : List Char) :
    splitBytes? (byteLength front) (front ++ rest) = some (front, rest) := by
  induction front with
  | nil => cases rest <;> rfl
  | cons c front ih =>
      have hpos := c.utf8Size_pos
      have hsub : c.utf8Size + byteLength front - c.utf8Size = byteLength front := by omega
      rw [List.cons_append, byteLength_cons, splitBytes?, if_neg (by omega), if_neg (by omega),
        hsub, ih, Option.map_some]

theorem slice?_append (front word rest : List Char) :
    slice? (front ++ (word ++ rest)) (byteLength front) (byteLength (front ++ word)) =
      some word := by
  have hsub : byteLength front + byteLength word - byteLength front = byteLength word := by omega
  rw [slice?, byteLength_append, if_neg (by omega), splitBytes?_append, Option.bind_some, hsub,
    splitBytes?_append, Option.map_some]

end Text

namespace Document

open Text (byteLength splitBytes? slice?)

/-! ## Questions and answers -/

/-- A piece that was taken off a text, with the byte at which it starts. -/
structure Slice where
  pattern : Option Pattern
  text : List Char
  start : Nat

/-- A lexer in its text: what is left and the bytes in front of it, the number of the line and the
byte at which it starts, and a token that waits. -/
structure Lexer where
  source : List Char
  rest : List Char
  offset : Nat
  line : Nat
  lineStart : Nat
  pending : Option Token

namespace Lexer

def ofText (text : String) : Lexer := ⟨text.toList, text.toList, 0, 1, 0, none⟩

/-- The place of a byte of the line, unless a character is cut there. -/
def position? (l : Lexer) (offset : Nat) : Option Position :=
  (slice? l.source l.lineStart offset).map fun cs => ⟨l.line, cs.length + 1⟩

def token? (l : Lexer) (kind : Kind) (cs : List Char) (offset : Nat) : Option Token :=
  (l.position? offset).map fun pos => ⟨kind, String.ofList cs, pos⟩

/-- Takes the piece behind the space that is next. -/
def pull? (l : Lexer) : Option (Slice × Lexer) :=
  match l.rest.dropWhile isSpace with
  | [] => none
  | c :: cs =>
    let x := munch c cs
    let start := l.offset + byteLength (l.rest.takeWhile isSpace)
    some (⟨x.pattern, c :: x.more, start⟩,
      { l with rest := cs.drop x.more.length, offset := start + byteLength (c :: x.more) })

/-- The name of a definition; its regex waits. -/
def splitDefinition? (l : Lexer) (s : Slice) : Option (Token × Lexer) := do
  let behind ← splitBytes? 1 s.text
  let nameEnd := 1 + byteLength (behind.2.takeWhile Text.isNameRest)
  let name ← slice? s.text 1 nameEnd
  let rest ← splitBytes? nameEnd s.text
  let trimmed := rest.2.dropWhile Text.isBlank
  let lead := byteLength rest.2 - byteLength trimmed
  let regex ← l.token? .regex (Text.trimRight trimmed) (s.start + nameEnd + lead)
  let definition ← l.token? .definition name s.start
  return (definition, { l with pending := some regex })

/-- A token that is a whole piece. -/
def whole? (l : Lexer) (kind : Kind) (s : Slice) : Option (Option (Except Error Token) × Lexer) :=
  (l.token? kind s.text s.start).map fun t => (some (.ok t), l)

/-- What a piece is told as: a token, an error, or nothing if it is a comment. -/
def tell? (l : Lexer) (s : Slice) : Option (Option (Except Error Token) × Lexer) :=
  match s.pattern with
  | none => (l.position? s.start).map fun pos =>
      (some (.error (.malformed (.unrecognized (String.ofList s.text)) pos)), l)
  | some .comment => some (none, l)
  | some .lineFeed => (l.token? .lineFeed s.text s.start).map fun t =>
      (some (.ok t), { l with line := l.line + 1, lineStart := l.offset })
  | some .definition => (l.splitDefinition? s).map fun x => (some (.ok x.1), x.2)
  | some .blockEnd => l.whole? .blockEnd s
  | some .arrow => l.whole? .arrow s
  | some .bar => l.whole? .bar s
  | some .epsilon => l.whole? .epsilon s
  | some .nonTerminal => l.whole? .nonTerminal s
  | some .identifier => l.whole? .terminal s
  | some .sign => l.whole? .terminal s

theorem length_rest_of_pull? {l l' : Lexer} {s : Slice} (h : l.pull? = some (s, l')) :
    l'.rest.length < l.rest.length := by
  have hle := (List.dropWhile_sublist (l := l.rest) isSpace).length_le
  rw [pull?] at h
  split at h
  · cases h
  · rename_i c cs hcs
    cases h
    rw [hcs, List.length_cons] at hle
    rw [List.length_drop]
    omega

/-- Goes on to what is no comment. -/
def advance (l : Lexer) : Option (Option (Except Error Token) × Lexer) :=
  match _ : l.pull? with
  | none => some (none, l)
  | some (s, l') =>
    match l'.tell? s with
    | some (none, _) => l'.advance
    | told => told
termination_by l.rest.length
decreasing_by exact length_rest_of_pull? ‹_›

/-- The next token or error, if there is one, unless a character is cut. -/
def next? (l : Lexer) : Option (Option (Except Error Token) × Lexer) :=
  match l.pending with
  | some t => some (some (.ok t), { l with pending := none })
  | none => l.advance

/-- A lexer that is asked until it has nothing more yields these tokens and errors. -/
inductive Yields : Lexer → List (Except Error Token) → Lexer → Prop
  | done {l l' : Lexer} (h : l.next? = some (none, l')) : Yields l [] l'
  | step {l l' l'' : Lexer} {x : Except Error Token} {xs : List (Except Error Token)}
      (h : l.next? = some (some x, l')) (hrest : Yields l' xs l'') : Yields l (x :: xs) l''

variable {l l' l'' m : Lexer} {s : Slice} {x : Except Error Token}
  {xs ys : List (Except Error Token)}

theorem advance_of_none (h : l.pull? = none) : l.advance = some (none, l) := by
  rw [advance]
  split
  · rfl
  · rename_i hsome
    cases h.symm.trans hsome

theorem advance_of_some (h : l.pull? = some (s, l')) : l.advance =
    match l'.tell? s with
    | some (none, _) => l'.advance
    | told => told := by
  rw [advance]
  split
  · rename_i hnone
    cases h.symm.trans hnone
  · rename_i hsome
    cases h.symm.trans hsome
    rfl

theorem Yields.unique (h : l.Yields xs m) (h' : l.Yields ys l') : xs = ys ∧ m = l' := by
  induction h generalizing ys l' with
  | done h =>
      cases h' with
      | done h' =>
          cases h.symm.trans h'
          exact ⟨rfl, rfl⟩
      | step h' => cases h.symm.trans h'
  | step h hrest ih =>
      cases h' with
      | done h' => cases h.symm.trans h'
      | step h' hrest' =>
          cases h.symm.trans h'
          obtain ⟨rfl, rfl⟩ := ih hrest'
          exact ⟨rfl, rfl⟩

/-- A lexer yields something and goes on like another. -/
def Leads (l : Lexer) (xs : List (Except Error Token)) (l' : Lexer) : Prop :=
  ∀ ys m, l'.Yields ys m → l.Yields (xs ++ ys) m

theorem Leads.trans (h : l.Leads xs l') (h' : l'.Leads ys l'') : l.Leads (xs ++ ys) l'' := by
  intro zs m hm
  rw [List.append_assoc]
  exact h _ _ (h' _ _ hm)

theorem leads_of_next? (h : l.next? = some (some x, l')) : l.Leads [x] l' :=
  fun _ _ hm => .step h hm

theorem leads_of_eq (h : l.next? = l'.next?) : l.Leads [] l' := by
  intro ys m hm
  cases hm with
  | done hm => exact .done (h.trans hm)
  | step hm hrest => exact .step (h.trans hm) hrest

/-! ## Lines -/

/-- The line that some characters in front of a text end in is the line of a lexer. -/
structure OnLine (l : Lexer) (front : List Char) : Prop where
  within : front <+: l.source
  line : l.line = 1 + front.count '\n'
  lineStart : l.lineStart = byteLength (front.rdropWhile (· ≠ '\n'))

variable {front gap more : List Char}

/-- A place in bytes of the line is the place in lines and columns of characters. -/
theorem OnLine.position? (h : l.OnLine front) :
    l.position? (byteLength front) = some (placeBehind front) := by
  obtain ⟨rest, hrest⟩ := h.within
  have hline : front.rdropWhile (· ≠ '\n') ++ front.rtakeWhile (· ≠ '\n') = front :=
    List.rdropWhile_append_rtakeWhile
  have hslice := Text.slice?_append (front.rdropWhile (· ≠ '\n')) (front.rtakeWhile (· ≠ '\n')) rest
  rw [← List.append_assoc, hline, hrest, ← h.lineStart] at hslice
  rw [Lexer.position?, hslice, Option.map_some, h.line, placeBehind, Nat.add_comm 1 (List.length _),
    List.rtakeWhile, List.length_reverse]

theorem OnLine.token? (h : l.OnLine front) (kind : Kind) (cs : List Char) :
    l.token? kind cs (byteLength front) = some ⟨kind, String.ofList cs, placeBehind front⟩ := by
  rw [Lexer.token?, h.position?, Option.map_some]

/-- Characters without a line feed stay on the line. -/
theorem OnLine.append (h : l.OnLine front) (hmore : '\n' ∉ more)
    (hwithin : front ++ more <+: l.source) : l.OnLine (front ++ more) := by
  have hall : ∀ c ∈ more.reverse, decide (c ≠ '\n') = true := by
    intro c hc
    refine decide_eq_true fun he => hmore ?_
    rwa [he, List.mem_reverse] at hc
  refine ⟨hwithin, ?_, ?_⟩
  · rw [List.count_append, List.count_eq_zero.mpr hmore, h.line, Nat.add_zero]
  · rw [List.rdropWhile, List.reverse_append, List.dropWhile_append_of_pos hall, h.lineStart,
      List.rdropWhile]

/-- Behind a line feed a new line starts. -/
theorem OnLine.lineFeed (h : l.OnLine front) (hwithin : front ++ ['\n'] <+: l.source) :
    OnLine { l with line := l.line + 1, lineStart := byteLength (front ++ ['\n']) }
      (front ++ ['\n']) := by
  refine ⟨hwithin, ?_, ?_⟩
  · simp only [List.count_append, List.count_singleton_self, h.line, Nat.add_assoc]
  · have hstop : ¬ decide ('\n' ≠ '\n') = true := by decide
    exact congrArg byteLength (List.rdropWhile_concat_neg _ front '\n' hstop).symm

/-! ## Pieces -/

/-- A lexer behind some characters of its text, on the line that some of them end in. -/
structure Stands (l : Lexer) (front here : List Char) : Prop where
  onLine : l.OnLine here
  source : l.source = front ++ l.rest
  offset : l.offset = byteLength front
  pending : l.pending = none

variable {here : List Char} {c : Char} {cs : List Char}

theorem pull?_eq_none (h : ∀ d ∈ l.rest, isSpace d = true) : l.pull? = none := by
  have hnil : l.rest.dropWhile isSpace = [] := List.dropWhile_eq_nil_iff.mpr h
  rw [pull?, hnil]

/-- The piece behind some space is the longest match, and its line is that of the space. -/
theorem Stands.pull? (h : l.Stands front front) (hrest : l.rest = gap ++ c :: cs)
    (hgap : ∀ d ∈ gap, isSpace d = true) (hc : isSpace c = false) :
    ∃ l', l.pull? = some (⟨(munch c cs).pattern, c :: (munch c cs).more,
        byteLength (front ++ gap)⟩, l') ∧
      l'.Stands (front ++ gap ++ c :: (munch c cs).more) (front ++ gap) ∧
      l'.rest = cs.drop (munch c cs).more.length ∧ l'.source = l.source := by
  have hstop : ¬ isSpace c = true := by simp [hc]
  have htake : l.rest.takeWhile isSpace = gap := by
    rw [hrest, Scanner.takeWhile_append_cons hgap hc]
  have hdrop : l.rest.dropWhile isSpace = c :: cs := by
    rw [hrest, List.dropWhile_append_of_pos hgap, List.dropWhile_cons_of_neg hstop]
  have hmore : (munch c cs).more ++ cs.drop (munch c cs).more.length = cs :=
    List.prefix_iff_eq_append.mp (munch_longest c cs).isPrefix
  have hsource : l.source = front ++ gap ++ c :: (munch c cs).more ++
      cs.drop (munch c cs).more.length := by
    rw [h.source, hrest, List.append_assoc, List.append_assoc, List.cons_append, hmore]
  have hline : '\n' ∉ gap := fun hmem => absurd (hgap _ hmem) (by decide)
  have hwithin : front ++ gap <+: l.source := by
    rw [hsource, List.append_assoc (front ++ gap)]
    exact List.prefix_append _ _
  have hhere := h.onLine.append hline hwithin
  refine ⟨{ l with
    rest := cs.drop (munch c cs).more.length
    offset := byteLength (front ++ gap) + byteLength (c :: (munch c cs).more) }, ?_, ?_, rfl, rfl⟩
  · rw [Lexer.pull?, hdrop, htake, h.offset, ← Text.byteLength_append]
  · exact ⟨⟨hhere.within, hhere.line, hhere.lineStart⟩, hsource,
      (Text.byteLength_append _ _).symm, h.pending⟩

/-! ## What pieces are told as -/

theorem tell?_unrecognized (h : l.OnLine here) (text : List Char) :
    l.tell? ⟨none, text, byteLength here⟩ = some (some (.error (.malformed
      (.unrecognized (String.ofList text)) (placeBehind here))), l) := by
  rw [tell?, h.position?, Option.map_some]

theorem tell?_lineFeed (h : l.OnLine here) (text : List Char) :
    l.tell? ⟨some .lineFeed, text, byteLength here⟩ =
      some (some (.ok ⟨.lineFeed, String.ofList text, placeBehind here⟩),
        { l with line := l.line + 1, lineStart := l.offset }) := by
  rw [tell?, h.token?, Option.map_some]

theorem tell?_whole (h : l.OnLine here) (text : List Char) {p : Pattern} {kind : Kind}
    (hkind : p.kind? = some kind) (hp : p ≠ .lineFeed ∧ p ≠ .definition) :
    l.tell? ⟨some p, text, byteLength here⟩ =
      some (some (.ok ⟨kind, String.ofList text, placeBehind here⟩), l) := by
  have hwhole : l.tell? ⟨some p, text, byteLength here⟩ =
      l.whole? kind ⟨some p, text, byteLength here⟩ := by
    cases p with
    | lineFeed => exact absurd rfl hp.1
    | definition => exact absurd rfl hp.2
    | comment => cases hkind
    | _ =>
        cases hkind
        rfl
  rw [hwhole, whole?, h.token?, Option.map_some]

/-- A definition is told as its name, and its regex waits where it starts behind the blanks. -/
theorem tell?_definition (h : l.OnLine here) (hline : '\n' ∉ '$' :: more)
    (hwithin : here ++ '$' :: more <+: l.source) {name rest blanks trimmed : List Char}
    (hname : more.takeWhile Text.isNameRest = name)
    (hrest : more.dropWhile Text.isNameRest = rest)
    (hblanks : rest.takeWhile Text.isBlank = blanks)
    (htrimmed : rest.dropWhile Text.isBlank = trimmed) :
    l.tell? ⟨some .definition, '$' :: more, byteLength here⟩ =
      some (some (.ok ⟨.definition, String.ofList name, placeBehind here⟩),
        { l with
          pending := some ⟨.regex, String.ofList (Text.trimRight trimmed),
            placeBehind (here ++ '$' :: (name ++ blanks))⟩ }) := by
  have hmore : name ++ rest = more := by
    rw [← hname, ← hrest, List.takeWhile_append_dropWhile]
  have hbehind : blanks ++ trimmed = rest := by
    rw [← hblanks, ← htrimmed, List.takeWhile_append_dropWhile]
  have hdollar : splitBytes? 1 ('$' :: more) = some (['$'], more) :=
    Text.splitBytes?_append ['$'] more
  have hslice : slice? ('$' :: more) 1 (1 + byteLength name) = some name := by
    rw [← hmore]
    exact Text.slice?_append ['$'] name rest
  have hsplit : splitBytes? (1 + byteLength name) ('$' :: more) = some ('$' :: name, rest) := by
    rw [← hmore]
    exact Text.splitBytes?_append ('$' :: name) rest
  have hstart : byteLength here + (1 + byteLength name) + (byteLength rest - byteLength trimmed) =
      byteLength (here ++ '$' :: (name ++ blanks)) := by
    have hone : Char.utf8Size '$' = 1 := by decide
    simp only [← hbehind, Text.byteLength_append, Text.byteLength_cons]
    omega
  have hregex : l.OnLine (here ++ '$' :: (name ++ blanks)) := by
    have hfront : '$' :: (name ++ blanks) <+: '$' :: more :=
      ⟨trimmed, by rw [List.cons_append, List.append_assoc, hbehind, hmore]⟩
    refine h.append (fun hmem => hline (hfront.subset hmem)) (List.IsPrefix.trans ?_ hwithin)
    exact (List.prefix_append_right_inj here).mpr hfront
  rw [tell?]
  simp only [splitDefinition?, hdollar, hname, hslice, hsplit, htrimmed, hstart, hregex.token?,
    h.token?, Option.bind_eq_bind, Option.bind_some]
  rfl

/-! ## Steps -/

theorem next?_of_pending (h : l.pending = none) : l.next? = l.advance := by
  rw [next?, h]

theorem leads_of_tell? (hpending : l.pending = none) (hpull : l.pull? = some (s, l'))
    (htell : l'.tell? s = some (some x, l'')) : l.Leads [x] l'' := by
  apply leads_of_next?
  rw [next?_of_pending hpending, advance_of_some hpull, htell]

theorem leads_of_comment (hpending : l.pending = none) (hpull : l.pull? = some (s, l'))
    (htell : l'.tell? s = some (none, l'')) (hpending' : l'.pending = none) :
    l.Leads [] l' := by
  apply leads_of_eq
  rw [next?_of_pending hpending, advance_of_some hpull, htell, next?_of_pending hpending']

theorem leads_pending {t : Token} (h : l.pending = some t) :
    l.Leads [.ok t] { l with pending := none } := by
  apply leads_of_next?
  rw [next?, h]

/-- A piece as it is told. -/
def told (here : List Char) (c : Char) (cs : List Char) (x : Found) : List (Except Error Token) :=
  (x.marks c).map fun m =>
    (scanner.place (placeBehind here) (c :: cs) m).toToken .unrecognized

theorem toToken_place (here text : List Char) (m : Mark Kind) :
    (scanner.place (placeBehind here) text m).toToken .unrecognized =
      match m.kind with
      | some kind => .ok ⟨kind, String.ofList m.text, placeBehind (here ++ text.take m.lead)⟩
      | none => .error (.malformed (.unrecognized (String.ofList m.text))
          (placeBehind (here ++ text.take m.lead))) := by
  obtain ⟨kind, lead, word⟩ := m
  rw [Scanner.place, counts_layout.behindAll]
  cases kind <;> rfl

theorem told_unrecognized (here : List Char) (c : Char) (cs more : List Char) :
    told here c cs ⟨none, more⟩ = [.error (.malformed (.unrecognized (String.ofList (c :: more)))
      (placeBehind here))] := by
  have hmarks : Found.marks ⟨none, more⟩ c = [⟨none, 0, c :: more⟩] := rfl
  rw [told, hmarks, List.map_singleton, toToken_place, List.take_zero, List.append_nil]

theorem told_whole (here : List Char) (c : Char) (cs more : List Char) {p : Pattern} {kind : Kind}
    (hkind : p.kind? = some kind) (hp : p ≠ .definition) :
    told here c cs ⟨some p, more⟩ =
      [.ok ⟨kind, String.ofList (c :: more), placeBehind here⟩] := by
  have hmarks : Found.marks ⟨some p, more⟩ c = [⟨some kind, 0, c :: more⟩] := by
    cases p with
    | definition => exact absurd rfl hp
    | comment => cases hkind
    | _ =>
        cases hkind
        rfl
  rw [told, hmarks, List.map_singleton, toToken_place, List.take_zero, List.append_nil]

theorem told_definition (here : List Char) {name rest blanks trimmed : List Char}
    (hmore : more <+: cs) (hname : more.takeWhile Text.isNameRest = name)
    (hrest : more.dropWhile Text.isNameRest = rest)
    (hblanks : rest.takeWhile Text.isBlank = blanks)
    (htrimmed : rest.dropWhile Text.isBlank = trimmed) :
    told here '$' cs ⟨some .definition, more⟩ =
      [.ok ⟨.definition, String.ofList name, placeBehind here⟩,
        .ok ⟨.regex, String.ofList (Text.trimRight trimmed),
          placeBehind (here ++ '$' :: (name ++ blanks))⟩] := by
  obtain ⟨back, rfl⟩ := hmore
  have hparts : more = name ++ (blanks ++ trimmed) := by
    rw [← hname, ← hblanks, ← htrimmed, ← hrest, List.takeWhile_append_dropWhile,
      List.takeWhile_append_dropWhile]
  have htake : ('$' :: (more ++ back)).take (1 + name.length + blanks.length) =
      '$' :: (name ++ blanks) := by
    have hcons : '$' :: (more ++ back) = '$' :: (name ++ blanks) ++ (trimmed ++ back) := by
      simp [hparts]
    have hlength : 1 + name.length + blanks.length = ('$' :: (name ++ blanks)).length := by
      rw [List.length_cons, List.length_append]
      omega
    rw [hcons, hlength, List.take_left]
  have hmarks : Found.marks ⟨some .definition, more⟩ '$' = [⟨some .definition, 0, name⟩,
      ⟨some .regex, 1 + name.length + blanks.length, Text.trimRight trimmed⟩] := by
    subst hname hrest hblanks htrimmed
    rfl
  rw [told, hmarks, List.map_cons, List.map_singleton, toToken_place, toToken_place, List.take_zero,
    List.append_nil, htake]

/-- A lexer behind a piece, on the line that the piece ends in, once all of it is told. -/
def Tells (l l' : Lexer) (here : List Char) (c : Char) (cs : List Char) (x : Found) : Prop :=
  ∃ m, m.Stands (here ++ c :: x.more) (here ++ c :: x.more) ∧ m.rest = l'.rest ∧
    m.source = l'.source ∧ l.Leads (told here c cs x) m

theorem Stands.within (h : l.Stands front here) : front <+: l.source :=
  ⟨l.rest, h.source.symm⟩

/-- A piece without a line feed stays on the line. -/
theorem Stands.settle (h : l.Stands (here ++ c :: more) here) (hline : '\n' ∉ c :: more) :
    l.Stands (here ++ c :: more) (here ++ c :: more) :=
  ⟨h.onLine.append hline h.within, h.source, h.offset, h.pending⟩

theorem tells_lineFeed (hpending : l.pending = none)
    (hpull : l.pull? = some (⟨some .lineFeed, ['\n'], byteLength here⟩, l'))
    (h : l'.Stands (here ++ ['\n']) here) : l.Tells l' here '\n' cs ⟨some .lineFeed, []⟩ := by
  refine ⟨{ l' with line := l'.line + 1, lineStart := l'.offset }, ?_, rfl, rfl, ?_⟩
  · have hline := h.onLine.lineFeed h.within
    rw [← h.offset] at hline
    exact ⟨hline, h.source, h.offset, h.pending⟩
  · rw [told_whole here '\n' cs [] rfl (by decide)]
    exact leads_of_tell? hpending hpull (tell?_lineFeed h.onLine _)

theorem tells_definition (hpending : l.pending = none)
    (hpull : l.pull? = some (⟨some .definition, '$' :: more, byteLength here⟩, l'))
    (h : l'.Stands (here ++ '$' :: more) here) (hline : '\n' ∉ '$' :: more) (hcs : more <+: cs) :
    l.Tells l' here '$' cs ⟨some .definition, more⟩ := by
  refine ⟨l', h.settle hline, rfl, rfl, ?_⟩
  have hname := leads_of_tell? hpending hpull
    (tell?_definition h.onLine hline h.within rfl rfl rfl rfl)
  have hregex := hname.trans (leads_pending rfl)
  rw [told_definition here hcs rfl rfl rfl rfl]
  -- once the regex is told nothing waits, as behind the piece
  rwa [← h.pending] at hregex

/-- What is told of a piece are its tokens or its error, where they lie in the piece. -/
theorem tells_of_munch {p : Option Pattern} (hpending : l.pending = none)
    (hmunch : Munch c cs ⟨p, more⟩)
    (hpull : l.pull? = some (⟨p, c :: more, byteLength here⟩, l'))
    (h : l'.Stands (here ++ c :: more) here) : l.Tells l' here c cs ⟨p, more⟩ := by
  -- a line feed moves the line and a definition leaves its regex, all else leaves both alone
  by_cases hfeed : p = some .lineFeed
  · subst hfeed
    have hmatched := hmunch.longest_of_some.matched
    cases hmatched
    exact tells_lineFeed hpending hpull h
  have hline := hmunch.lineFeed_notMem hfeed
  by_cases hdefinition : p = some .definition
  · subst hdefinition
    have hdollar : c = '$' := by
      have hmatched := hmunch.longest_of_some.matched
      cases hmatched <;> rfl
    subst hdollar
    exact tells_definition hpending hpull h hline hmunch.isPrefix
  refine ⟨l', h.settle hline, rfl, rfl, ?_⟩
  cases p with
  | none =>
      rw [told_unrecognized]
      exact leads_of_tell? hpending hpull (tell?_unrecognized h.onLine _)
  | some p =>
      have hp : p ≠ .lineFeed ∧ p ≠ .definition :=
        ⟨fun he => hfeed (congrArg some he), fun he => hdefinition (congrArg some he)⟩
      by_cases hcomment : p = .comment
      · subst hcomment
        exact leads_of_comment hpending hpull rfl h.pending
      have hkind : ∃ kind, p.kind? = some kind := by
        cases p <;> first | exact absurd rfl hcomment | exact ⟨_, rfl⟩
      obtain ⟨kind, hkind⟩ := hkind
      rw [told_whole here c cs more hkind hp.2]
      exact leads_of_tell? hpending hpull (tell?_whole h.onLine _ hkind hp)

/-! ## Whole texts -/

theorem scan_gap (hgap : ∀ d ∈ gap, isSpace d = true) (front rest : List Char) :
    scanner.scan () (placeBehind front) (gap ++ rest) =
      scanner.scan () (placeBehind (front ++ gap)) rest := by
  induction gap generalizing front with
  | nil => rw [List.append_nil, List.nil_append]
  | cons d gap ih =>
      obtain ⟨hd, hgap⟩ := List.forall_mem_cons.mp hgap
      have hread : scanner.read () d (gap ++ rest) = .skip () := if_pos hd
      have hrest := ih hgap (front ++ [d])
      rw [List.append_assoc, List.singleton_append] at hrest
      have hplace : scanner.behind (placeBehind front) d = placeBehind (front ++ [d]) :=
        counts_layout front d
      rw [List.cons_append, Scanner.scan_cons, hread, ← hrest, ← hplace]
      rfl

theorem scan_found (hc : isSpace c = false) (here cs : List Char) :
    (scanner.scan () (placeBehind here) (c :: cs)).map (Piece.toToken .unrecognized) =
      told here c cs (munch c cs) ++
        (scanner.scan () (placeBehind (here ++ c :: (munch c cs).more))
          (cs.drop (munch c cs).more.length)).map (Piece.toToken .unrecognized) := by
  have hread : scanner.read () c cs = (munch c cs).lexeme c := if_neg (by simp [hc])
  have htake : cs.take (munch c cs).more.length = (munch c cs).more :=
    (List.prefix_iff_eq_take.mp (munch_longest c cs).isPrefix).symm
  rw [Scanner.scan_cons, hread, List.map_append, List.map_map, told, Found.lexeme, htake,
    counts_layout.behindAll]
  rfl

/-- A lexer yields the pieces of what is left, and ends on the last line of its text. -/
theorem Stands.yields (h : l.Stands front front) :
    ∃ m, l.Yields ((scanner.scan () (placeBehind front) l.rest).map
      (Piece.toToken .unrecognized)) m ∧ m.OnLine l.source := by
  induction hn : l.rest.length using Nat.strong_induction_on generalizing l front with
  | h n ih =>
      subst hn
      have hsplit : l.rest.takeWhile isSpace ++ l.rest.dropWhile isSpace = l.rest :=
        List.takeWhile_append_dropWhile
      have hgap : ∀ d ∈ l.rest.takeWhile isSpace, isSpace d = true :=
        fun d hd => List.mem_takeWhile_imp hd
      cases hdrop : l.rest.dropWhile isSpace with
      | nil =>
          have hall := List.dropWhile_eq_nil_iff.mp hdrop
          have hline : '\n' ∉ l.rest := fun hmem => absurd (hall _ hmem) (by decide)
          have hnext : l.next? = some (none, l) := by
            rw [next?_of_pending h.pending, advance_of_none (pull?_eq_none hall)]
          have hscan := scan_gap hall front []
          rw [List.append_nil, Scanner.scan_nil] at hscan
          have hend := h.onLine.append hline (h.source ▸ List.prefix_rfl)
          rw [← h.source] at hend
          rw [hscan]
          exact ⟨l, .done hnext, hend⟩
      | cons c cs =>
          have hc : isSpace c = false := by
            have hhead := List.head?_dropWhile_not isSpace l.rest
            rw [hdrop] at hhead
            exact hhead
          have hrest : l.rest = l.rest.takeWhile isSpace ++ c :: cs := by rw [← hdrop, hsplit]
          obtain ⟨l', hpull, hl', hbehind, hsource⟩ := h.pull? hrest hgap hc
          obtain ⟨m, hm, hmrest, hmsource, hleads⟩ :=
            tells_of_munch h.pending (munch_longest c cs) hpull hl'
          have hlt : m.rest.length < l.rest.length := by
            rw [hmrest]
            exact length_rest_of_pull? hpull
          obtain ⟨m', hyields, hend⟩ := ih _ hlt hm rfl
          rw [hmsource, hsource] at hend
          rw [hmrest, hbehind] at hyields
          refine ⟨m', ?_, hend⟩
          rw [hrest, scan_gap hgap, scan_found hc]
          exact hleads _ _ hyields

end Lexer

/-- A text is taken off piece by piece, each as the longest match says, and gives these words. -/
inductive Munched : List Char → List (Option Kind × String) → Prop
  | done : Munched [] []
  | space {c : Char} {cs : List Char} {ws : List (Option Kind × String)} (hc : isSpace c = true)
      (h : Munched cs ws) : Munched (c :: cs) ws
  | piece {c : Char} {cs : List Char} {x : Found} {ws : List (Option Kind × String)}
      (hc : isSpace c = false) (hx : Munch c cs x) (h : Munched (cs.drop x.more.length) ws) :
      Munched (c :: cs) ((x.marks c).map Mark.word ++ ws)

theorem munched_words (text : List Char) : Munched text (scanner.words () text) := by
  induction hn : text.length using Nat.strong_induction_on generalizing text with
  | h n ih =>
      subst hn
      cases text with
      | nil =>
          rw [Scanner.words_nil]
          exact .done
      | cons c cs =>
          cases hc : isSpace c with
          | true =>
              have hread : scanner.read () c cs = .skip () := if_pos hc
              rw [Scanner.words_cons_of_skip hread]
              exact .space hc (ih _ (Nat.lt_succ_self _) cs rfl)
          | false =>
              have hread : scanner.read () c cs = (munch c cs).lexeme c := if_neg (by simp [hc])
              have hlt : (cs.drop (munch c cs).more.length).length < (c :: cs).length := by
                rw [List.length_drop, List.length_cons]
                omega
              rw [Scanner.words_cons, hread]
              exact .piece hc (munch_longest c cs) (ih _ hlt _ rfl)

/-- A lexer that is asked again and again comes to an end. It yields the pieces of the document and
nothing else, no text is cut inside a character, and in the end it stands on the last line. -/
theorem yields_pieces (text : String) : ∃ l, (∀ xs m, (Lexer.ofText text).Yields xs m ↔
      xs = (pieces text).map (Piece.toToken .unrecognized) ∧ m = l) ∧
    l.position? (byteLength text.toList) = some (endPosition text) := by
  have hstart : (Lexer.ofText text).Stands [] [] :=
    ⟨⟨List.nil_prefix, rfl, rfl⟩, rfl, rfl, rfl⟩
  have hend : endPosition text = placeBehind text.toList := counts_layout.behindAll [] text.toList
  obtain ⟨l, hyields, hline⟩ := hstart.yields
  refine ⟨l, fun xs m => ⟨fun h => h.unique hyields, ?_⟩, ?_⟩
  · rintro ⟨rfl, rfl⟩
    exact hyields
  · rw [hend]
    exact hline.position?

/-- The tokens of a document are what the lexer yields, up to the first error, and what closes
them. -/
theorem tokens_of_yields {text : String} {xs : List (Except Error Token)} {m : Lexer}
    (h : (Lexer.ofText text).Yields xs m) :
    tokens text = (xs.mapM id).map fun ts => ts ++ closing text ts := by
  obtain ⟨l, hyields, -⟩ := yields_pieces text
  obtain ⟨rfl, -⟩ := (hyields xs m).mp h
  rw [List.mapM_map]
  rfl

/-- The pieces of a document are those that a lexer yields when it is asked again and again. A token
is the longest match where it starts. A piece is unrecognized only if no pattern matches there, or
if it is an angle bracket with a name that no bracket closes. The pieces cover the text by lines and
columns of characters. -/
theorem pieces_cover_text (text : String) :
    (∃ l, (∀ xs m, (Lexer.ofText text).Yields xs m ↔
        xs = (pieces text).map (Piece.toToken .unrecognized) ∧ m = l) ∧
      l.position? (byteLength text.toList) = some (endPosition text)) ∧
    Munched text.toList ((pieces text).map Piece.word) ∧
    layout.Covers [] [] text.toList (pieces text) ∧
    (pieces text).length ≤ text.toList.length := by
  refine ⟨yields_pieces text, ?_, covers_pieces text, length_pieces_le text⟩
  rw [pieces, Scanner.map_word_scan]
  exact munched_words text.toList

end Document

end LanguageSpec
