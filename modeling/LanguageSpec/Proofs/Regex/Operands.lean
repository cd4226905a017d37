import LanguageSpec.Proofs.Regex.Descent

/-!
# The operands of a descent

The descent is at a state of the reader of regexes: its operands are the fragments of the regexes
that the reader holds. So none of them is finalized, and there are as many as groups are open.
-/

namespace LanguageSpec.Regex

variable {registry : Registry} {outer : List Regex} {here : Regex} {ts : List Token} {t : Token}
  {stop : Position}

/-! ## Reading on -/

namespace Reader

/-- Reads on from a state, up to the recognizer. -/
def complete (registry : Registry) (r : Reader) (ts : List Token) (stop : Position) :
    Except Error Recognizer := do
  let r ← ts.foldlM (step registry) r
  let x ← r.finish (stopOf stop ts)
  x.recognizer (stopOf stop ts)

theorem complete_initial (registry : Registry) (ts : List Token) (origin : Position) :
    initial.complete registry ts origin = Recognizer.ofTokens registry origin ts := by
  rw [Recognizer.ofTokens, Regex.ofTokens, bind_assoc]
  rfl

theorem complete_nil (r : Reader) : r.complete registry [] stop =
    (r.finish stop >>= fun x => x.recognizer stop) := rfl

theorem stopOf_cons : stopOf stop (t :: ts) = stopOf t.stop ts := by
  rw [stopOf, stopOf, List.getLast?_cons]
  cases ts.getLast? <;> rfl

theorem complete_cons (r : Reader) : r.complete registry (t :: ts) stop =
    (r.step registry t >>= fun r => r.complete registry ts t.stop) := by
  rw [complete, List.foldlM_cons, bind_assoc, stopOf_cons]
  rfl

/-- A pending item that is not repeated is settled by what stands behind it. -/
theorem step_settled {last : Pending} (ht : t.kind.repetition? = none) :
    step registry ⟨outer, here, .items last⟩ t =
      step registry ⟨outer, last.settle here none, .items .none⟩ t := by
  rw [step, step]
  cases hkind : t.kind <;> first | rfl | simp [hkind, Kind.repetition?] at ht

theorem complete_settled {last : Pending} (hts : ∀ t ∈ ts.head?, t.kind.repetition? = none) :
    complete registry ⟨outer, here, .items last⟩ ts stop =
      complete registry ⟨outer, last.settle here none, .items .none⟩ ts stop := by
  cases ts with
  | nil => rfl
  | cons t ts => rw [complete_cons, complete_cons, step_settled (hts t rfl)]

theorem step_repetition {last : Pending} (hlast : last ≠ .none) {times : Repetition}
    (ht : t.kind.repetition? = some times) : step registry ⟨outer, here, .items last⟩ t =
      .ok ⟨outer, last.settle here (some times), .items .none⟩ := by
  apply step_of_move
  cases hkind : t.kind with
  | star =>
      rw [hkind] at ht
      cases ht
      exact .star hlast hkind
  | plus =>
      rw [hkind] at ht
      cases ht
      exact .plus hlast hkind
  | _ => simp [hkind, Kind.repetition?] at ht

theorem stepMembers_around (inside : Focus) (purpose : Purpose) (m : Members) :
    stepMembers ⟨outer, here, inside⟩ purpose m t =
      (stepMembers ⟨[], .empty, inside⟩ purpose m t >>= fun r => .ok ⟨outer, here, r.focus⟩) := by
  rw [stepMembers, stepMembers]
  cases t.kind with
  | closeBracket =>
      cases m.close t with
      | error e => rfl
      | ok s => cases purpose <;> rfl
  | _ => cases m.step t <;> rfl

theorem step_around_atMembers {inside : Focus} {purpose : Purpose} {m : Members}
    (h : inside.AtMembers purpose m) (ht : t.kind ≠ .caret) :
    step registry ⟨outer, here, inside⟩ t =
      (step registry ⟨[], .empty, inside⟩ t >>= fun r => .ok ⟨outer, here, r.focus⟩) := by
  rw [step_of_atMembers h ht, step_of_atMembers h ht]
  exact stepMembers_around inside purpose m

/-- A step within brackets does not depend on what is around them. -/
theorem step_around (registry : Registry) (outer : List Regex) (here : Regex) {inside : Focus}
    (hinside : ∀ last, inside ≠ .items last) (t : Token) :
    step registry ⟨outer, here, inside⟩ t =
      (step registry ⟨[], .empty, inside⟩ t >>= fun r => .ok ⟨outer, here, r.focus⟩) := by
  cases inside with
  | items last => exact absurd rfl (hinside last)
  | opened =>
      by_cases ht : t.kind = .caret
      · simp [step, ht, ok_bind]
      · exact step_around_atMembers .opened ht
  | members purpose m => exact stepMembers_around _ purpose m
  | excluded s =>
      rw [step, step]
      cases t.kind <;> rfl
  | operand e =>
      rw [step, step]
      cases t.kind with
      | reference => cases resolveClass registry t <;> rfl
      | _ => rfl
  | operandOpened e =>
      by_cases ht : t.kind = .caret
      · simp [step, ht, error_bind]
      · exact step_around_atMembers (.operandOpened e) ht

/-- A step within brackets stays there or completes a class. -/
theorem Move.inside {inside : Focus} {r : Reader} (h : Move registry ⟨outer, here, inside⟩ t r)
    (hinside : ∀ last, inside ≠ .items last) :
    (∃ s, r.focus = .items (.atom (.oneOf s))) ∨ ∀ last, r.focus ≠ .items last := by
  cases h with
  | caret => exact .inr nofun
  | member => exact .inr nofun
  | @closeBracket _ _ _ purpose m =>
      cases purpose with
      | listed => exact .inl ⟨m.set, rfl⟩
      | excluded => exact .inr nofun
      | operand e => exact .inl ⟨m.set.difference e, rfl⟩
  | inWord => exact .inr nofun
  | operandBracket => exact .inr nofun
  | operandReference => exact .inl ⟨_, rfl⟩
  | _ => exact absurd rfl (hinside _)

theorem unfinished?_inside {inside : Focus} (hinside : ∀ last, inside ≠ .items last) :
    unfinished? ⟨outer, here, inside⟩ = some inside.construct := by
  cases inside with
  | items last => exact absurd rfl (hinside last)
  | members purpose m => cases m <;> rfl
  | _ => rfl

end Reader

/-! ## What is known of the whole regex -/

namespace Context

/-- Of the regexes that are being read, from the inside out: there is nothing yet, there is just one
class, or the regex cannot be a class anymore. -/
inductive Tells : Context → Regex → List Regex → Prop
  | nothing {s : Option CharSet} : Tells ⟨true, 0, s⟩ .empty []
  | charClass {a : Atom} {s : CharSet} (h : a.charClass? = some s) :
      Tells ⟨true, 1, some s⟩ (.atom .empty a none) []
  | more {c : Context} {here : Regex} {outer : List Regex} (hc : c.pure = false ∨ 2 ≤ c.atoms)
      (h : outer ≠ [] ∨ here ≠ .empty ∧ here.charClass? = none) : Tells c here outer

variable {c : Context}

theorem Tells.note (h : c.Tells here outer) (a : Atom) :
    (c.note a.charClass?).Tells (.atom here a none) outer := by
  cases h with
  | nothing =>
      cases ha : a.charClass? with
      | none => exact .more (.inl rfl) (.inr ⟨nofun, ha⟩)
      | some s => exact .charClass ha
  | charClass _ =>
      refine .more ?_ (.inr ⟨nofun, rfl⟩)
      cases a.charClass? with
      | none => exact .inl rfl
      | some s => exact .inr (Nat.le_refl 2)
  | more hc h =>
      refine .more ?_ (h.imp_right fun h => ⟨nofun, ?_⟩)
      · cases a.charClass? with
        | none => exact .inl rfl
        | some s => exact hc.imp_right Nat.le_succ_of_le
      · cases here with
        | empty => exact absurd rfl h.1
        | _ => rfl

theorem Tells.closeGroup {before : Regex} (h : c.Tells here (before :: outer)) (inner : Regex) :
    c.Tells (.group before inner none) outer := by
  cases h with
  | more hc _ => exact .more hc (.inr ⟨nofun, rfl⟩)

theorem Tells.repeated {last : Pending} (hlast : last ≠ .none)
    (here : Regex) (outer : List Regex) (times : Repetition) :
    c.spoil.Tells (last.settle here (some times)) outer := by
  refine .more (.inl rfl) (.inr ?_)
  cases last with
  | none => exact absurd rfl hlast
  | atom a => exact ⟨nofun, by cases here <;> rfl⟩
  | group inner => exact ⟨nofun, rfl⟩

theorem Tells.result (h : c.Tells here []) : c.result = here.charClass? := by
  cases h with
  | nothing => rfl
  | charClass h => exact h.symm
  | more hc h =>
      rw [(h.resolve_left (fun hne => hne rfl)).2, Context.result]
      rcases hc with hc | hc
      · simp [hc]
      · have hne : c.atoms ≠ 1 := by omega
        simp [hne]

end Context

/-! ## States -/

def Stage.rank : Stage → Nat
  | .repetition _ => 3
  | .branch => 2
  | .union => 1
  | .atom => 0
  | .bracket _ => 0
  | .done => 0

theorem Stage.rank_lt (stage : Stage) : stage.rank < 4 := by cases stage <;> simp [rank]

namespace Descent

/-- The operands are the fragments of regexes. -/
abbrev Stands : List Fragment → List Regex → Prop :=
  List.Forall₂ fun f r => r.fragment? = some f

/-- What the descent knows where the regexes of all open groups are known. -/
structure Carries (s : Descent) (outer : List Regex) (here : Regex) : Prop where
  depth : s.depth = outer.length
  operands : Stands s.operands (here :: outer)
  context : s.context.Tells here outer

/-- The reader that the descent is at, by its stage. -/
inductive Follows (s : Descent) : Reader → Prop
  | branch {outer : List Regex} {here : Regex} (hstage : s.stage = .branch)
      (h : s.Carries outer here) : Follows s ⟨outer, here, .items .none⟩
  | atom {outer : List Regex} {here : Regex} (hstage : s.stage = .atom)
      (hstarts : startsAtom s.tokens = true) (h : s.Carries outer here) :
      Follows s ⟨outer, here, .items .none⟩
  | bracket {outer : List Regex} {here : Regex} {inside : Focus}
      (hstage : s.stage = .bracket inside) (hinside : ∀ last, inside ≠ .items last)
      (h : s.Carries outer here) : Follows s ⟨outer, here, inside⟩
  | single {outer : List Regex} {here : Regex} {a : Atom}
      (hstage : s.stage = .repetition .single) (h : s.Carries outer (.atom here a none)) :
      Follows s ⟨outer, here, .items (.atom a)⟩
  | group {outer : List Regex} {here inner : Regex} (hstage : s.stage = .repetition .group)
      (hdepth : s.depth = outer.length) (hoperands : Stands s.operands (inner :: here :: outer))
      (hcontext : s.context.Tells (.group here inner none) outer) :
      Follows s ⟨outer, here, .items (.group inner)⟩
  | union {outer : List Regex} {here : Regex} (hstage : s.stage = .union)
      (hstarts : startsAtom s.tokens = false) (h : s.Carries outer here) :
      Follows s ⟨outer, here, .items .none⟩
  | done {here : Regex} (hstage : s.stage = .done) (htokens : s.tokens = [])
      (h : s.Carries [] here) : Follows s ⟨[], here, .items .none⟩

/-- No operand is finalized, and there is one for the whole regex, one for each open group, and one
for a group that was closed and is not yet put into what is around it. -/
structure Balanced (s : Descent) : Prop where
  unfinalized : ∀ f ∈ s.operands, f.isFinalized = false
  height : s.operands.length = s.depth + 1 + s.stage.waiting

variable {s s' : Descent} {r r' : Reader}

theorem accept_of_fragment? {r : Regex} {f : Fragment} (h : r.fragment? = some f) :
    f.accept = none := by
  obtain ⟨g, hg, hopen⟩ := r.fragment?_open
  obtain rfl := Option.some.inj (h.symm.trans hg)
  exact hopen

theorem Stands.unfinalized {fs : List Fragment} {rs : List Regex} (h : Stands fs rs) :
    ∀ f ∈ fs, f.isFinalized = false := by
  induction h with
  | nil => exact fun f hf => absurd hf List.not_mem_nil
  | cons hf _ ih =>
      refine List.forall_mem_cons.mpr ⟨?_, ih⟩
      rw [Fragment.isFinalized, accept_of_fragment? hf]
      rfl

theorem Carries.balanced (h : s.Carries outer here) (hwaiting : s.stage.waiting = 0) :
    s.Balanced := by
  refine ⟨Stands.unfinalized h.operands, ?_⟩
  rw [h.operands.length_eq, List.length_cons, h.depth, hwaiting]

theorem Follows.balanced (h : s.Follows r) : s.Balanced := by
  cases h with
  | group hstage hdepth hoperands hcontext =>
      refine ⟨Stands.unfinalized hoperands, ?_⟩
      rw [hoperands.length_eq, List.length_cons, List.length_cons, hdepth, hstage]
      rfl
  | branch hstage h => exact h.balanced (by rw [hstage]; rfl)
  | atom hstage _ h => exact h.balanced (by rw [hstage]; rfl)
  | bracket hstage _ h => exact h.balanced (by rw [hstage]; rfl)
  | single hstage h => exact h.balanced (by rw [hstage]; rfl)
  | union hstage _ h => exact h.balanced (by rw [hstage]; rfl)
  | done hstage _ h => exact h.balanced (by rw [hstage]; rfl)

theorem follows_initial (origin : Position) (ts : List Token) :
    (initial origin ts).Follows .initial :=
  .branch rfl ⟨rfl, .cons rfl .nil, .nothing⟩

/-- The operand on top, which is not finalized, is changed as its regex is. -/
theorem onTop_eq_ok (h : Stands s.operands (here :: outer))
    {change : Fragment → Option Fragment} {r : Regex}
    (hchange : ∀ f, here.fragment? = some f → f.accept = none →
      ∃ g, change f = some g ∧ r.fragment? = some g) :
    ∃ fs, s.onTop change = .ok { s with operands := fs } ∧ Stands fs (r :: outer) := by
  obtain ⟨f, rest, hf, hrest, hoperands⟩ := List.forall₂_cons_right_iff.mp h
  obtain ⟨g, hg, hr⟩ := hchange f hf (accept_of_fragment? hf)
  refine ⟨g :: rest, ?_, .cons hr hrest⟩
  rw [onTop, hoperands]
  simp only [hg]

theorem Carries.append (h : s.Carries outer here) (a : Atom) : ∃ s', s.append a = .ok s' ∧
    s'.Follows ⟨outer, here, .items (.atom a)⟩ ∧ s'.tokens = s.tokens ∧ s'.stop = s.stop := by
  have hchange : ∀ f, here.fragment? = some f → f.accept = none →
      ∃ g, a.appendTo? f = some g ∧ (Regex.atom here a none).fragment? = some g := by
    intro f hf hopen
    obtain ⟨g, hg, -⟩ := a.appendTo?_open hopen
    refine ⟨g, hg, ?_⟩
    simp only [fragment?, hf, hg, Option.bind_eq_bind, Option.bind_some]
    rfl
  obtain ⟨fs, hfs, hstands⟩ := onTop_eq_ok h.operands hchange
  have hs : s.append a = .ok
      { s with
        stage := .repetition .single
        operands := fs
        context := s.context.note a.charClass? } := by
    rw [Descent.append, hfs]
    rfl
  exact ⟨_, hs, .single rfl ⟨h.depth, hstands, h.context.note a⟩, rfl, rfl⟩

theorem fragment?_atom (here : Regex) (a : Atom) (times : Option Repetition) :
    (Regex.atom here a times).fragment? =
      (Regex.atom here a none).fragment?.map fun f => repeatLast f times := by
  rw [fragment?, fragment?]
  cases here.fragment? with
  | none => rfl
  | some f =>
      simp only [Option.bind_eq_bind, Option.bind_some]
      cases a.appendTo? f <;> rfl

theorem repeatItem_single {a : Atom} (h : Stands s.operands (.atom here a none :: outer))
    (times : Option Repetition) : ∃ fs, s.repeatItem times .single = .ok { s with operands := fs } ∧
      Stands fs (.atom here a times :: outer) := by
  refine onTop_eq_ok h fun f hf _ => ⟨_, rfl, ?_⟩
  rw [fragment?_atom, hf]
  rfl

theorem repeatItem_group {inner : Regex} (h : Stands s.operands (inner :: here :: outer))
    (times : Option Repetition) : ∃ fs, s.repeatItem times .group = .ok { s with operands := fs } ∧
      Stands fs (.group here inner times :: outer) := by
  obtain ⟨f, rest, hf, hrest, hoperands⟩ := List.forall₂_cons_right_iff.mp h
  have hchange : ∀ g, here.fragment? = some g → g.accept = none →
      ∃ k, g.append? (repeatWhole f times) = some k ∧
        (Regex.group here inner times).fragment? = some k := by
    intro g hg hopen
    obtain ⟨k, hk, -⟩ := Fragment.append?_open hopen (repeatWhole f times)
    refine ⟨k, hk, ?_⟩
    simp only [fragment?, hf, hg, Option.bind_eq_bind, Option.bind_some, hk]
  have hpop : s.pop = .ok (f, { s with operands := rest }) := by rw [pop, hoperands]
  obtain ⟨fs, hfs, hstands⟩ := onTop_eq_ok (s := { s with operands := rest }) hrest hchange
  refine ⟨fs, ?_, hstands⟩
  rw [repeatItem, hpop, ok_bind]
  exact hfs

end Descent

end LanguageSpec.Regex
