import LanguageSpec.Proofs.Document.Printing
import LanguageSpec.Proofs.Regex.Meaning

/-!
# Definitions in any order

What is compiled from a regex depends neither on where the regex stands nor on what else is bound
besides the names in it. So a definition compiles to the same automaton and the same character set
in every order in which the definitions compile at all.
-/

namespace LanguageSpec

/-! ## Reading apart from places -/

/-- A token without its place. -/
def Token.unplaced {κ : Type} (t : Token κ) : Token κ := ⟨t.kind, t.text, .nowhere⟩

theorem Token.map_unplaced_eq {κ : Type} {ts us : List (Token κ)}
    (h : ts.map Token.word = us.map Token.word) :
    ts.map Token.unplaced = us.map Token.unplaced := by
  have hword : ∀ ts : List (Token κ),
      ts.map Token.unplaced = (ts.map Token.word).map fun w => ⟨w.1, w.2, .nowhere⟩ := by
    intro ts
    rw [List.map_map]
    rfl
  rw [hword, hword, h]

namespace Regex

variable {registry registry' : Registry} {t : Token}

namespace Members

def unplaced : Members → Members
  | .ready s => .ready s
  | .low s lo _ => .low s lo .nowhere
  | .range s lo _ => .range s lo .nowhere

@[simp] theorem set_unplaced (m : Members) : m.unplaced.set = m.set := by
  cases m <;> rfl

@[simp] theorem isRange_unplaced {m : Members} : m.unplaced.IsRange ↔ m.IsRange := by
  cases m <;> rfl

theorem Move.unplaced {m m' : Members} (h : m.Move t m') :
    m.unplaced.Move t.unplaced m'.unplaced := by
  cases h with
  | @low m t c hm ht hc =>
      have hlow : m.unplaced.Move t.unplaced (.low m.unplaced.set c .nowhere) :=
        .low (mt isRange_unplaced.mp hm) ht hc
      rwa [set_unplaced] at hlow
  | dash ht => exact .dash ht
  | high ht hc hle => exact .high ht hc hle

end Members

def Focus.unplaced : Focus → Focus
  | .members purpose m => .members purpose m.unplaced
  | focus => focus

theorem Focus.AtMembers.unplaced {focus : Focus} {purpose : Purpose} {m : Members}
    (h : focus.AtMembers purpose m) : focus.unplaced.AtMembers purpose m.unplaced := by
  cases h with
  | opened => exact .opened
  | members purpose m => exact .members purpose m.unplaced
  | operandOpened e => exact .operandOpened e

@[simp] theorem Purpose.unplaced_complete (purpose : Purpose) (s : CharSet) :
    (purpose.complete s).unplaced = purpose.complete s := by
  cases purpose <;> rfl

theorem TokenAtom.within {a : Atom} (h : TokenAtom registry t a)
    (hwithin : registry.Within registry') : TokenAtom registry' t.unplaced a := by
  cases h with
  | literal ht hc => exact .literal ht hc
  | dot ht => exact .dot ht
  | reference ht hx => exact .reference ht (hwithin _ _ hx)

namespace Reader

def unplaced (r : Reader) : Reader := ⟨r.outer, r.here, r.focus.unplaced⟩

/-- A move depends on no place, and it stays one when more names are bound. -/
theorem Move.within {r r' : Reader} (h : Move registry r t r')
    (hwithin : registry.Within registry') :
    Move registry' r.unplaced t.unplaced r'.unplaced := by
  cases h with
  | atom ha => exact .atom (ha.within hwithin)
  | openBracket ht => exact .openBracket ht
  | openGroup ht => exact .openGroup ht
  | closeGroup ht => exact .closeGroup ht
  | bar ht => exact .bar ht
  | star hlast ht => exact .star hlast ht
  | plus hlast ht => exact .plus hlast ht
  | caret ht => exact .caret ht
  | member hf hm => exact .member hf.unplaced hm.unplaced
  | @closeBracket outer here focus purpose m _ hf ht hm hne =>
      have hclose : Move registry' ⟨outer, here, focus.unplaced⟩ t.unplaced
          ⟨outer, here, purpose.complete m.unplaced.set⟩ :=
        .closeBracket hf.unplaced ht (mt Members.isRange_unplaced.mp hm) (by simpa using hne)
      rw [Members.set_unplaced] at hclose
      rwa [unplaced, unplaced, Purpose.unplaced_complete]
  | inWord ht => exact .inWord ht
  | operandBracket ht => exact .operandBracket ht
  | operandReference ht hx hs => exact .operandReference ht (hwithin _ _ hx) hs

theorem foldlM_within {ts : List Token} {r : Reader}
    (h : ts.foldlM (step registry) initial = .ok r) (hwithin : registry.Within registry') :
    (ts.map Token.unplaced).foldlM (step registry') initial = .ok r.unplaced := by
  refine foldlM_induction (P := fun us s =>
    (us.map Token.unplaced).foldlM (step registry') initial = .ok s.unplaced) rfl ?_ h
  intro us s t s' hs hstep
  have hmove := (step_eq_ok_iff.mp hstep).within hwithin
  rw [List.map_append]
  exact foldlM_append_eq_ok_iff.mpr
    ⟨_, hs, foldlM_cons_eq_ok_iff.mpr ⟨_, step_of_move hmove, rfl⟩⟩

end Reader

theorem ofTokens_within {origin : Position} {ts : List Token} {r : Regex}
    (h : ofTokens registry origin ts = .ok r) (hwithin : registry.Within registry')
    (origin' : Position) : ofTokens registry' origin' (ts.map Token.unplaced) = .ok r := by
  obtain ⟨s, hs, hfinish⟩ := bind_eq_ok_iff.mp h
  obtain ⟨here, last, rfl, rfl⟩ := Reader.finish_eq_ok_iff.mp hfinish
  have hrun := Reader.foldlM_within hs hwithin
  exact bind_eq_ok_iff.mpr ⟨_, hrun, Reader.finish_eq_ok_iff.mpr ⟨here, last, rfl, rfl⟩⟩

/-- A text has the same tokens wherever it stands, apart from their places. -/
theorem map_word_tokens {origin origin' : Position} {text : String} {ts us : List Token}
    (hts : tokens origin text = .ok ts) (hus : tokens origin' text = .ok us) :
    ts.map Token.word = us.map Token.word := by
  have hwords := (Scanner.words_of_mapM hts).symm.trans (Scanner.words_of_mapM hus)
  have hsame := congrArg (List.map fun w => (w.1.getD .literal, w.2)) hwords
  rw [List.map_map, List.map_map] at hsame
  exact hsame

end Regex

/-! ## Definitions -/

/-- Against registries that agree with a third one, a text compiles to one recognizer. -/
theorem Recognizer.eq_of_ofText {r s registry : Registry} {origin origin' : Position}
    {text : String} {x y : Recognizer} (hr : r.Within registry) (hs : s.Within registry)
    (hx : ofText r origin text = .ok x) (hy : ofText s origin' text = .ok y) : x = y := by
  obtain ⟨ts, hts, hx⟩ := bind_eq_ok_iff.mp hx
  obtain ⟨us, hus, hy⟩ := bind_eq_ok_iff.mp hy
  obtain ⟨regex, f, hregex, hf, rfl⟩ := ofTokens_eq_ok_iff.mp hx
  obtain ⟨regex', f', hregex', hf', rfl⟩ := ofTokens_eq_ok_iff.mp hy
  have hread := Regex.ofTokens_within hregex hr .nowhere
  rw [Token.map_unplaced_eq (Regex.map_word_tokens hts hus),
    Regex.ofTokens_within hregex' hs .nowhere] at hread
  obtain rfl := Except.ok.inj hread
  rw [hf] at hf'
  rw [Option.some.inj hf']

namespace Registry

variable {ds ds' : List Definition} {r r' : Registry}

/-- What some definitions bind is bound to the same by definitions that these are among. -/
theorem within_of_ofDefinitions (h : ofDefinitions ds = .ok r) (h' : ofDefinitions ds' = .ok r')
    (hsub : ds.map Definition.value ⊆ ds'.map Definition.value) : r.Within r' := by
  -- in the order of `ds`, so that what a definition refers to has been compared before
  refine foldlM_induction
    (P := fun l s => l.map Definition.value ⊆ ds'.map Definition.value → s.Within r')
    (fun _ _ _ hx => by cases hx) ?_ h hsub
  intro l s d s' hs hstep hsub
  rw [List.map_append, List.append_subset] at hsub
  have hbefore := hs hsub.1
  obtain ⟨d', hd', hvalue⟩ := List.mem_map.mp (hsub.2 List.mem_cons_self)
  obtain ⟨hname, htext⟩ := Prod.mk.inj hvalue
  obtain ⟨x, hx, hdefine⟩ := addDefinition_eq_ok_iff.mp hstep
  obtain ⟨before', x', hbefore', hx', hget⟩ := exists_of_mem h' hd'
  rw [htext] at hx'
  obtain rfl := Recognizer.eq_of_ofText hbefore hbefore' hx hx'
  intro name y hy
  rw [get?_of_define? hdefine] at hy
  split at hy
  · rename_i hsame
    obtain rfl := Option.some.inj hy
    rwa [hname, hsame] at hget
  · exact hbefore name y hy

/-- Where a list of definitions and one of the same definitions in another order are both compiled,
all names have the same automata and character sets, and each list of names has its own order. -/
theorem ofDefinitions_of_perm (h : ofDefinitions ds = .ok r) (h' : ofDefinitions ds' = .ok r')
    (hperm : (ds.map Definition.value).Perm (ds'.map Definition.value)) :
    (∀ name, r.get? name = r'.get? name) ∧
      r.names = ds.map (·.name.text) ∧ r'.names = ds'.map (·.name.text) := by
  have hwithin := within_of_ofDefinitions h h' hperm.subset
  have hwithin' := within_of_ofDefinitions h' h hperm.symm.subset
  exact ⟨hwithin.get?_eq hwithin', names_of_ofDefinitions h, names_of_ofDefinitions h'⟩

/-- Two classes in two orders, and a definition that refers to both. -/
theorem ofDefinitions_of_perm_hexadecimal :
    let digit (l : Nat) : Definition := ⟨⟨.definition, "D", ⟨l, 1⟩⟩, ⟨.regex, "[0-9]", ⟨l, 4⟩⟩⟩
    let letter (l : Nat) : Definition := ⟨⟨.definition, "L", ⟨l, 1⟩⟩, ⟨.regex, "[a-f]", ⟨l, 4⟩⟩⟩
    let number : Definition := ⟨⟨.definition, "N", ⟨3, 1⟩⟩, ⟨.regex, "($D|$L)+", ⟨3, 4⟩⟩⟩
    ∃ r r', ofDefinitions [digit 1, letter 2, number] = .ok r ∧
      ofDefinitions [letter 1, digit 2, number] = .ok r' ∧
      (∀ name, r.get? name = r'.get? name) ∧ r.names = ["D", "L", "N"] ∧
        r'.names = ["L", "D", "N"] := by
  intro digit letter number
  have hok : (ofDefinitions [digit 1, letter 2, number]).isOk = true := by cbv
  have hok' : (ofDefinitions [letter 1, digit 2, number]).isOk = true := by cbv
  obtain ⟨r, hr⟩ := exists_eq_ok_of_isOk hok
  obtain ⟨r', hr'⟩ := exists_eq_ok_of_isOk hok'
  exact ⟨r, r', hr, hr', ofDefinitions_of_perm hr hr' (.swap _ _ _)⟩

end Registry

end LanguageSpec
