import LanguageSpec.Proofs.Fragment.Invariant
import LanguageSpec.Proofs.Regex.Reading

/-!
# The atoms of a regex

Every atom of a regex that has been read stands for tokens that were read: one, or those of a class.
What the automata of its atoms have in common, if all operations keep it, the automaton of the regex
has too.
-/

namespace LanguageSpec.Regex

/-- Whether all atoms of a regex have a property. -/
def Forall (P : Atom → Prop) : Regex → Prop
  | .empty => True
  | .atom before a _ => before.Forall P ∧ P a
  | .group before inner _ => before.Forall P ∧ inner.Forall P
  | .bar before => before.Forall P

theorem Forall.mono {P Q : Atom → Prop} (hPQ : ∀ a, P a → Q a) {r : Regex} (h : r.Forall P) :
    r.Forall Q := by
  induction r with
  | empty => trivial
  | atom before a times ih => exact ⟨ih h.1, hPQ a h.2⟩
  | group before inner times ihb ihi => exact ⟨ihb h.1, ihi h.2⟩
  | bar before ih => exact ih h

theorem Forall.refers {P : Recognizer → Prop} {r : Regex}
    (h : r.Forall fun a => ∀ x, a = .named x → P x) : r.Refers P := by
  induction r with
  | empty => trivial
  | atom before a times ih => exact ⟨ih h.1, h.2⟩
  | group before inner times ihb ihi => exact ⟨ihb h.1, ihi h.2⟩
  | bar before ih => exact ih h

/-! ## Automata -/

def Atom.fragment : Atom → Fragment
  | .char c => .ofSet (SortedSet.ofList [c])
  | .oneOf s => .ofSet s
  | .named x => x.fragment

theorem Atom.appendTo?_eq (f : Fragment) (a : Atom) : a.appendTo? f = f.append? a.fragment := by
  cases a with
  | char c => exact f.appendSet?_eq_append? _
  | oneOf s => exact f.appendSet?_eq_append? s
  | named x => rfl

section Invariant

variable {P : Fragment → Prop} {f : Fragment}

theorem repeatLast_of_invariant (hP : Fragment.Invariant P) (hf : P f)
    (times : Option Repetition) : P (repeatLast f times) := by
  rcases times with _ | _ | _
  · exact hf
  · exact hP.starLast hf
  · exact hP.plusLast hf

theorem repeatWhole_of_invariant (hP : Fragment.Invariant P) (hf : P f)
    (times : Option Repetition) : P (repeatWhole f times) := by
  rcases times with _ | _ | _
  · exact hf
  · exact hP.starWhole hf
  · exact hP.plusWhole hf

/-- An invariant that the automata of all atoms have, the automaton of the regex has. -/
theorem Forall.fragment? (hP : Fragment.Invariant P) {r : Regex}
    (h : r.Forall fun a => P a.fragment) (hf : r.fragment? = some f) : P f := by
  induction r generalizing f with
  | empty =>
      cases hf
      exact hP.new
  | atom before a times ih =>
      obtain ⟨g, hg, hf⟩ := Option.bind_eq_some_iff.mp hf
      obtain ⟨k, hk, hf⟩ := Option.bind_eq_some_iff.mp hf
      rw [Atom.appendTo?_eq] at hk
      cases hf
      exact repeatLast_of_invariant hP (hP.append (ih h.1 hg) h.2 hk) times
  | group before inner times ihb ihi =>
      obtain ⟨g, hg, hf⟩ := Option.bind_eq_some_iff.mp hf
      obtain ⟨k, hk, hf⟩ := Option.bind_eq_some_iff.mp hf
      exact hP.append (ihb h.1 hg) (repeatWhole_of_invariant hP (ihi h.2 hk) times) hf
  | bar before ih =>
      obtain ⟨g, hg, hf⟩ := Option.bind_eq_some_iff.mp hf
      exact hP.alternate (ih h hg) hf

end Invariant

/-! ## Tokens -/

variable {registry : Registry} {ts us : List Token} {a : Atom}

/-- The tokens that an atom is read from. -/
inductive ReadsAtom (registry : Registry) : List Token → Atom → Prop
  | token {t : Token} {a : Atom} (h : TokenAtom registry t a) : ReadsAtom registry [t] a
  | charClass {ts : List Token} {s : CharSet} (h : DenotesClass registry ts {c | c ∈ s}) :
      ReadsAtom registry ts (.oneOf s)

/-- Whether an atom is read from some of these tokens, one behind the other. -/
def Occurs (registry : Registry) (ts : List Token) (a : Atom) : Prop :=
  ∃ us, us <:+: ts ∧ ReadsAtom registry us a

theorem ReadsAtom.occurs_append (h : ReadsAtom registry us a) (ts : List Token) :
    Occurs registry (ts ++ us) a :=
  ⟨us, (List.suffix_append ts us).isInfix, h⟩

theorem Occurs.append (h : Occurs registry ts a) (us : List Token) :
    Occurs registry (ts ++ us) a := by
  obtain ⟨vs, hvs, ha⟩ := h
  exact ⟨vs, hvs.trans (List.prefix_append ts us).isInfix, ha⟩

theorem ReadsClass.readsAtom (h : ReadsClass registry ts (.items (.atom a))) :
    ReadsAtom registry ts a := by
  cases h with
  | whole h => exact .charClass h
  | part _ hfocus => exact absurd rfl (hfocus _)

/-! ## Reading -/

def Pending.Forall (P : Atom → Prop) : Pending → Prop
  | .none => True
  | .atom a => P a
  | .group inner => inner.Forall P

theorem Pending.Forall.settle {P : Atom → Prop} {last : Pending} (h : last.Forall P) {here : Regex}
    (hhere : here.Forall P) (times : Option Repetition) : (last.settle here times).Forall P := by
  cases last with
  | none => exact hhere
  | atom a => exact ⟨hhere, h⟩
  | group inner => exact ⟨hhere, h⟩

namespace Reader

structure Forall (P : Atom → Prop) (r : Reader) : Prop where
  outer : ∀ before ∈ r.outer, Regex.Forall P before
  here : r.here.Forall P
  last : ∀ last, r.focus = .items last → last.Forall P

variable {P Q : Atom → Prop} {r r' : Reader} {t : Token}

theorem Forall.mono (hPQ : ∀ a, P a → Q a) (h : r.Forall P) : r.Forall Q := by
  refine ⟨fun before hbefore => (h.outer before hbefore).mono hPQ, h.here.mono hPQ, ?_⟩
  intro last hlast
  have hP := h.last last hlast
  cases last with
  | none => trivial
  | atom a => exact hPQ a hP
  | group inner => exact Regex.Forall.mono hPQ hP

/-- A step adds no atom but the one that it leaves pending. -/
theorem Forall.step (h : r.Forall P) (hm : Move registry r t r')
    (hnew : ∀ a, r'.focus = .items (.atom a) → P a) : r'.Forall P := by
  obtain ⟨houter, hhere, hlast⟩ := h
  cases hm with
  | atom ha =>
      refine ⟨houter, (hlast _ rfl).settle hhere none, ?_⟩
      rintro _ ⟨⟩
      exact hnew _ rfl
  | openBracket ht => exact ⟨houter, (hlast _ rfl).settle hhere none, nofun⟩
  | openGroup ht =>
      refine ⟨?_, trivial, ?_⟩
      · exact List.forall_mem_cons.mpr ⟨(hlast _ rfl).settle hhere none, houter⟩
      · rintro _ ⟨⟩
        trivial
  | closeGroup ht =>
      obtain ⟨hbefore, houter⟩ := List.forall_mem_cons.mp houter
      refine ⟨houter, hbefore, ?_⟩
      rintro _ ⟨⟩
      exact (hlast _ rfl).settle hhere none
  | bar ht =>
      refine ⟨houter, (hlast _ rfl).settle hhere none, ?_⟩
      rintro _ ⟨⟩
      trivial
  | star _ ht =>
      refine ⟨houter, (hlast _ rfl).settle hhere (some .star), ?_⟩
      rintro _ ⟨⟩
      trivial
  | plus _ ht =>
      refine ⟨houter, (hlast _ rfl).settle hhere (some .plus), ?_⟩
      rintro _ ⟨⟩
      trivial
  | caret ht => exact ⟨houter, hhere, nofun⟩
  | member hf hm => exact ⟨houter, hhere, nofun⟩
  | @closeBracket _ _ _ purpose m _ hf ht hm hne =>
      refine ⟨houter, hhere, ?_⟩
      intro last hlast
      cases purpose with
      | listed =>
          cases hlast
          exact hnew _ rfl
      | excluded => cases hlast
      | operand e =>
          cases hlast
          exact hnew _ rfl
  | inWord ht => exact ⟨houter, hhere, nofun⟩
  | operandBracket ht => exact ⟨houter, hhere, nofun⟩
  | operandReference ht hx hs =>
      refine ⟨houter, hhere, ?_⟩
      rintro _ ⟨⟩
      exact hnew _ rfl

/-- An atom that a step leaves pending has been read last. -/
theorem Read.occurs (h : Read registry ts r) (hm : Move registry r t r')
    (ha : r'.focus = .items (.atom a)) : Occurs registry (ts ++ [t]) a := by
  obtain ⟨outer, here, focus⟩ := r
  by_cases hitems : ∃ last, focus = .items last
  · obtain ⟨last, rfl⟩ := hitems
    cases hm with
    | atom hatom =>
        cases ha
        exact (ReadsAtom.token hatom).occurs_append ts
    | closeBracket hf => exact absurd rfl (hf.ne_items last)
    | _ => cases ha
  · obtain ⟨us, vs, ws, rfl, -, -, hws⟩ := h
    have hclass := hws.move (fun last hlast => hitems ⟨last, hlast⟩) hm
    rw [ha] at hclass
    rw [List.append_assoc]
    exact hclass.readsAtom.occurs_append (us ++ vs)

theorem forall_of_foldlM (h : ts.foldlM (Reader.step registry) initial = .ok r) :
    Read registry ts r ∧ r.Forall (Occurs registry ts) := by
  refine foldlM_induction (P := fun ts r => Read registry ts r ∧ r.Forall (Occurs registry ts))
    ⟨read_initial, ?_⟩ ?_ h
  · refine ⟨by simp [initial], trivial, ?_⟩
    rintro _ ⟨⟩
    trivial
  · rintro us s t s' ⟨hread, hforall⟩ hstep
    have hm := step_eq_ok_iff.mp hstep
    refine ⟨hread.step hm, (hforall.mono fun a ha => ha.append [t]).step hm ?_⟩
    exact fun a ha => hread.occurs hm ha

end Reader

/-- Every atom of a regex that has been read occurs among its tokens. -/
theorem forall_of_ofTokens {origin : Position} {r : Regex}
    (h : ofTokens registry origin ts = .ok r) : r.Forall (Occurs registry ts) := by
  obtain ⟨s, hs, hfinish⟩ := bind_eq_ok_iff.mp h
  obtain ⟨here, last, rfl, rfl⟩ := Reader.finish_eq_ok_iff.mp hfinish
  obtain ⟨-, hforall⟩ := Reader.forall_of_foldlM hs
  exact (hforall.last last rfl).settle hforall.here none

/-- A regex that has been read refers to nothing but entries of the registry. -/
theorem refers_of_ofTokens {P : Recognizer → Prop} {origin : Position} {r : Regex}
    (h : ofTokens registry origin ts = .ok r)
    (hP : ∀ name x, registry.get? name = some x → P x) : r.Refers P := by
  refine Forall.refers ((forall_of_ofTokens h).mono ?_)
  rintro _ ⟨us, -, hread⟩ x rfl
  cases hread with
  | token h =>
      cases h with
      | reference ht hx => exact hP _ x hx

end LanguageSpec.Regex
