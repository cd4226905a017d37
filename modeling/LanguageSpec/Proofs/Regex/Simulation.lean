import LanguageSpec.Proofs.Regex.Errors
import LanguageSpec.Proofs.Regex.Operands

/-!
# The descent and the reader

A step of the descent fails as the reader of regexes does, or leads to where the reader gets to the
same result. So the descent comes to an end with what the reader gives, and none of its own errors
comes up.
-/

namespace LanguageSpec.Regex

variable {registry : Registry} {outer : List Regex} {here : Regex} {ts : List Token} {t : Token}

namespace Descent

variable {s s' : Descent} {r r' : Reader}

/-! ## Steps -/

/-- What a step makes less of: the tokens in front and, where none is consumed, the procedures to go
through. -/
def weight (s : Descent) : Nat := 4 * s.tokens.length + s.stage.rank

/-- A step either fails as the reader does, or leads to where the reader gets to the same result. -/
inductive Simulates (registry : Registry) (s : Descent) (r : Reader) : Prop
  | failed {e : Error} (h : s.step registry = .error e)
      (hr : r.complete registry s.tokens s.stop = .error e) : Simulates registry s r
  | moved {s' : Descent} {r' : Reader} (h : s.step registry = .ok s') (hfollows : s'.Follows r')
      (hr : r'.complete registry s'.tokens s'.stop = r.complete registry s.tokens s.stop)
      (hlt : s'.weight < s.weight) : Simulates registry s r

theorem simulates_branch (hstage : s.stage = .branch) (h : s.Carries outer here) :
    Simulates registry s ⟨outer, here, .items .none⟩ := by
  have hstep : s.step registry = .ok s.stepBranch := by rw [step, hstage]
  cases hstarts : startsAtom s.tokens with
  | true =>
      have hs : s.stepBranch = { s with stage := .atom } := by rw [stepBranch, hstarts, if_pos rfl]
      rw [hs] at hstep
      refine .moved hstep (.atom rfl hstarts ⟨h.depth, h.operands, h.context⟩) rfl ?_
      simp [weight, hstage, Stage.rank]
  | false =>
      have hs : s.stepBranch = { s with stage := .union } := by
        rw [stepBranch, hstarts, if_neg Bool.false_ne_true]
      rw [hs] at hstep
      refine .moved hstep (.union rfl hstarts ⟨h.depth, h.operands, h.context⟩) rfl ?_
      simp [weight, hstage, Stage.rank]

/-- The descent goes on behind a token as the reader does. -/
theorem simulates_of_token {ts : List Token} (htokens : s.tokens = t :: ts)
    (hstep : s.step registry = .ok s') (hr : r.step registry t = .ok r') (hfollows : s'.Follows r')
    (hts : s'.tokens = ts) (hstop : s'.stop = t.stop) : Simulates registry s r := by
  refine .moved hstep hfollows ?_ ?_
  · rw [hts, hstop, htokens, Reader.complete_cons, hr, ok_bind]
  · have hrank := s'.stage.rank_lt
    rw [weight, weight, hts, htokens, List.length_cons]
    omega

theorem simulates_of_move {ts : List Token} (htokens : s.tokens = t :: ts)
    (hstep : s.step registry = .ok s') (hr : Reader.Move registry r t r') (hfollows : s'.Follows r')
    (hts : s'.tokens = ts) (hstop : s'.stop = t.stop) : Simulates registry s r :=
  simulates_of_token htokens hstep (Reader.step_of_move hr) hfollows hts hstop

theorem simulates_of_error {ts : List Token} {e : Error} (htokens : s.tokens = t :: ts)
    (hstep : s.step registry = .error e) (hr : r.step registry t = .error e) :
    Simulates registry s r := by
  refine .failed hstep ?_
  rw [htokens, Reader.complete_cons, hr, error_bind]

theorem Carries.past (h : s.Carries outer here) (t : Token) (ts : List Token) :
    (s.past t ts).Carries outer here := ⟨h.depth, h.operands, h.context⟩

/-- An atom is appended as the reader goes on with it. -/
theorem simulates_of_atom {ts : List Token} {a : Atom} {focus : Focus}
    (h : s.Carries outer here) (htokens : s.tokens = t :: ts)
    (hstep : s.step registry = (s.past t ts).append a)
    (hr : Reader.step registry ⟨outer, here, focus⟩ t = .ok ⟨outer, here, .items (.atom a)⟩) :
    Simulates registry s ⟨outer, here, focus⟩ := by
  obtain ⟨s', hs', hfollows, hts, hstop⟩ := (h.past t ts).append a
  exact simulates_of_token htokens (hstep.trans hs') hr hfollows hts hstop

theorem simulates_atom (hstage : s.stage = .atom) (hstarts : startsAtom s.tokens = true)
    (h : s.Carries outer here) : Simulates registry s ⟨outer, here, .items .none⟩ := by
  have hstep : s.step registry = s.stepAtom registry := by rw [step, hstage]
  cases htokens : s.tokens with
  | nil => simp [htokens, startsAtom] at hstarts
  | cons t ts =>
      simp only [stepAtom, htokens] at hstep
      simp only [startsAtom, htokens] at hstarts
      cases hkind : t.kind with
      | openGroup =>
          simp only [hkind] at hstep
          refine simulates_of_move htokens hstep (.openGroup hkind) ?_ rfl rfl
          refine .branch rfl ⟨?_, .cons rfl h.operands, ?_⟩
          · exact congrArg Nat.succ h.depth
          · exact .more (.inl rfl) (.inl nofun)
      | literal =>
          simp only [hkind] at hstep hstarts
          obtain ⟨c, hc⟩ := Option.isSome_iff_exists.mp hstarts
          simp only [hc] at hstep
          exact simulates_of_atom h htokens hstep
            (Reader.step_of_move (.atom (.literal hkind hc)))
      | dot =>
          simp only [hkind] at hstep
          exact simulates_of_atom h htokens hstep (Reader.step_of_move (.atom (.dot hkind)))
      | openBracket =>
          simp only [hkind] at hstep
          refine simulates_of_move htokens hstep (.openBracket hkind) ?_ rfl rfl
          exact .bracket rfl nofun ⟨h.depth, h.operands, h.context⟩
      | reference =>
          have hnext : Reader.step registry ⟨outer, here, .items .none⟩ t =
              (resolve registry t >>= fun x => .ok ⟨outer, here, .items (.atom (.named x))⟩) := by
            simp only [Reader.step, Reader.stepItems, hkind]
            rfl
          simp only [hkind] at hstep
          cases hx : resolve registry t with
          | error e =>
              rw [hx, error_bind] at hstep hnext
              exact simulates_of_error htokens hstep hnext
          | ok x =>
              rw [hx, ok_bind] at hstep hnext
              exact simulates_of_atom h htokens hstep hnext
      | _ => simp [hkind] at hstarts

theorem simulates_bracket {inside : Focus} (hstage : s.stage = .bracket inside)
    (hinside : ∀ last, inside ≠ .items last) (h : s.Carries outer here) :
    Simulates registry s ⟨outer, here, inside⟩ := by
  have hstep : s.step registry = s.stepBracket registry inside := by rw [step, hstage]
  cases htokens : s.tokens with
  | nil =>
      refine .failed (e := .misstructured (.unterminated inside.construct) s.stop) ?_ ?_
      · rw [hstep, stepBracket, htokens]
        rfl
      · rw [htokens, Reader.complete_nil, Reader.finish, Reader.unfinished?_inside hinside]
        rfl
  | cons t ts =>
      simp only [stepBracket, htokens] at hstep
      have hnext := Reader.step_around registry outer here hinside t
      cases hr : Reader.step registry ⟨[], .empty, inside⟩ t with
      | error e =>
          rw [hr, error_bind] at hstep hnext
          exact simulates_of_error htokens hstep hnext
      | ok r =>
          rw [hr, ok_bind] at hstep hnext
          rcases (Reader.move_of_step hr).inside hinside with ⟨u, hfocus⟩ | hfocus
          · simp only [hfocus] at hstep hnext
            exact simulates_of_atom h htokens hstep hnext
          · have hs : s.step registry = .ok { s.past t ts with stage := .bracket r.focus } := by
              rw [hstep]
              split
              · exact absurd ‹_› (hfocus _)
              · rfl
            refine simulates_of_token htokens hs hnext ?_ rfl rfl
            exact .bracket rfl hfocus ⟨h.depth, h.operands, h.context⟩

/-- An item waits for what stands behind it, and the operands stand for it however often it is
taken. -/
structure Waits (s : Descent) (outer : List Regex) (here : Regex) (item : Item) (last : Pending) :
    Prop where
  stage : s.stage = .repetition item
  pending : last ≠ .none
  depth : s.depth = outer.length
  context : s.context.Tells (last.settle here none) outer
  repeats : ∀ s' : Descent, s'.operands = s.operands → ∀ times, ∃ fs,
    s'.repeatItem times item = .ok { s' with operands := fs } ∧
      Stands fs (last.settle here times :: outer)

theorem simulates_once {item : Item} {last : Pending} (h : s.Waits outer here item last)
    (hnone : ∀ t ∈ s.tokens.head?, t.kind.repetition? = none)
    (htake : s.takeRepetition = (none, s)) : Simulates registry s ⟨outer, here, .items last⟩ := by
  obtain ⟨fs, hfs, hstands⟩ := h.repeats s rfl none
  have hs : s.step registry = .ok { s with stage := .branch, operands := fs } := by
    rw [step, h.stage]
    simp only [stepRepetition, htake, hfs, ok_bind]
    rfl
  refine .moved hs (.branch rfl ⟨h.depth, hstands, h.context⟩) ?_ ?_
  · exact (Reader.complete_settled hnone).symm
  · simp [weight, h.stage, Stage.rank]

theorem simulates_repeated {item : Item} {last : Pending} {times : Repetition}
    (h : s.Waits outer here item last) (htokens : s.tokens = t :: ts)
    (ht : t.kind.repetition? = some times) : Simulates registry s ⟨outer, here, .items last⟩ := by
  obtain ⟨fs, hfs, hstands⟩ :=
    h.repeats { s.past t ts with context := s.context.spoil } rfl (some times)
  have hs : s.step registry = .ok
      { s.past t ts with stage := .branch, operands := fs, context := s.context.spoil } := by
    rw [step, h.stage]
    simp only [stepRepetition, takeRepetition, htokens, ht, hfs, ok_bind]
    rfl
  refine simulates_of_token htokens hs (Reader.step_repetition h.pending ht) ?_ rfl rfl
  exact .branch rfl ⟨h.depth, hstands, .repeated h.pending here outer times⟩

/-- A repetition in front belongs to the last item, which is settled in any case. -/
theorem simulates_repetition {item : Item} {last : Pending} (h : s.Waits outer here item last) :
    Simulates registry s ⟨outer, here, .items last⟩ := by
  cases htokens : s.tokens with
  | nil => exact simulates_once h (by simp [htokens]) (by rw [takeRepetition, htokens])
  | cons t ts =>
      cases ht : t.kind.repetition? with
      | none =>
          have htake : s.takeRepetition = (none, s) := by simp only [takeRepetition, htokens, ht]
          exact simulates_once h (by simp [htokens, ht]) htake
      | some times => exact simulates_repeated h htokens ht

/-- A token that neither begins an atom nor ends a branch is unexpected behind a branch. -/
theorem step_unexpected (hstarts : startsAtom (t :: ts) = false) (hbar : t.kind ≠ .bar)
    (hclose : t.kind = .closeGroup → outer = []) :
    Reader.step registry ⟨outer, here, .items .none⟩ t = .error (unexpected t) := by
  simp only [startsAtom] at hstarts
  cases hkind : t.kind with
  | literal =>
      have hnone : literal? t.text = none := by simpa [hkind] using hstarts
      simp only [Reader.step, Reader.stepItems, hkind, hnone]
  | bar => exact absurd hkind hbar
  | closeGroup =>
      rw [hclose hkind]
      simp only [Reader.step, Reader.stepItems, hkind]
  | openGroup => simp [hkind] at hstarts
  | dot => simp [hkind] at hstarts
  | openBracket => simp [hkind] at hstarts
  | reference => simp [hkind] at hstarts
  | star => simp only [Reader.step, Reader.stepRepetition, hkind]
  | plus => simp only [Reader.step, Reader.stepRepetition, hkind]
  | _ => simp only [Reader.step, Reader.stepItems, hkind]

theorem simulates_bar (hstage : s.stage = .union) (h : s.Carries outer here)
    (htokens : s.tokens = t :: ts) (ht : t.kind = .bar) :
    Simulates registry s ⟨outer, here, .items .none⟩ := by
  have hchange : ∀ f, here.fragment? = some f → f.accept = none →
      ∃ g, f.alternate? = some g ∧ here.bar.fragment? = some g := by
    intro f hf hopen
    obtain ⟨g, hg, -⟩ := Fragment.alternate?_open hopen
    exact ⟨g, hg, by simp [fragment?, hf, hg]⟩
  obtain ⟨fs, hfs, hstands⟩ :=
    onTop_eq_ok (s := { s.past t ts with context := s.context.spoil }) h.operands hchange
  have hs : s.step registry = .ok
      { s.past t ts with stage := .branch, operands := fs, context := s.context.spoil } := by
    rw [step, hstage]
    simp only [stepUnion, htokens, ht, hfs, ok_bind]
    rfl
  have hne : here.bar ≠ .empty := Regex.noConfusion
  refine simulates_of_move htokens hs (.bar ht) ?_ rfl rfl
  exact .branch rfl ⟨h.depth, hstands, .more (.inl rfl) (.inr ⟨hne, rfl⟩)⟩

theorem simulates_closeGroup {before : Regex} (hstage : s.stage = .union)
    (h : s.Carries (before :: outer) here) (htokens : s.tokens = t :: ts)
    (ht : t.kind = .closeGroup) : Simulates registry s ⟨before :: outer, here, .items .none⟩ := by
  have hs : s.step registry = .ok
      { s.past t ts with stage := .repetition .group, depth := outer.length } := by
    rw [step, hstage]
    simp only [stepUnion, htokens, ht, h.depth, List.length_cons]
  refine simulates_of_move htokens hs (.closeGroup ht) ?_ rfl rfl
  exact .group rfl rfl h.operands (h.context.closeGroup here)

theorem simulates_end (hstage : s.stage = .union) (h : s.Carries outer here)
    (htokens : s.tokens = []) : Simulates registry s ⟨outer, here, .items .none⟩ := by
  have hstep : s.step registry = s.stepUnion := by rw [step, hstage]
  cases outer with
  | nil =>
      have hs : s.step registry = .ok { s with stage := .done } := by
        simp only [hstep, stepUnion, htokens, h.depth, List.length_nil]
      refine .moved hs (.done rfl htokens ⟨h.depth, h.operands, h.context⟩) rfl ?_
      simp [weight, hstage, Stage.rank]
  | cons before outer =>
      refine .failed (e := .misstructured (.unterminated .group) s.stop) ?_ ?_
      · simp only [hstep, stepUnion, htokens, h.depth, List.length_cons]
        rfl
      · rw [htokens, Reader.complete_nil]
        rfl

theorem simulates_union (hstage : s.stage = .union) (hstarts : startsAtom s.tokens = false)
    (h : s.Carries outer here) : Simulates registry s ⟨outer, here, .items .none⟩ := by
  have hstep : s.step registry = s.stepUnion := by rw [step, hstage]
  cases htokens : s.tokens with
  | nil => exact simulates_end hstage h htokens
  | cons t ts =>
      rw [htokens] at hstarts
      by_cases hbar : t.kind = .bar
      · exact simulates_bar hstage h htokens hbar
      · by_cases hclose : t.kind = .closeGroup → outer = []
        · refine simulates_of_error htokens ?_ (step_unexpected hstarts hbar hclose)
          simp only [hstep, stepUnion, htokens]
          split
          · exact absurd ‹_› hbar
          · rename_i hkind hpositive
            rw [h.depth, hclose hkind] at hpositive
            cases hpositive
          · rfl
        · obtain ⟨hkind, hne⟩ := Classical.not_imp.mp hclose
          obtain ⟨before, outer, rfl⟩ := List.exists_cons_of_ne_nil hne
          exact simulates_closeGroup hstage h htokens hkind

/-- As long as the descent is not done, its steps are those of the reader. -/
theorem Follows.simulates (registry : Registry) (h : s.Follows r) :
    s.stage = .done ∨ Simulates registry s r := by
  cases h with
  | branch hstage h => exact .inr (simulates_branch hstage h)
  | atom hstage hstarts h => exact .inr (simulates_atom hstage hstarts h)
  | bracket hstage hinside h => exact .inr (simulates_bracket hstage hinside h)
  | single hstage h =>
      refine .inr (simulates_repetition ⟨hstage, nofun, h.depth, h.context, fun s' hs' times => ?_⟩)
      exact repeatItem_single (hs' ▸ h.operands) times
  | group hstage hdepth hoperands hcontext =>
      refine .inr (simulates_repetition ⟨hstage, nofun, hdepth, hcontext, fun s' hs' times => ?_⟩)
      exact repeatItem_group (hs' ▸ hoperands) times
  | union hstage hstarts h => exact .inr (simulates_union hstage hstarts h)
  | done hstage _ _ => exact .inl hstage

theorem Follows.of_done (h : s.Follows r) (hstage : s.stage = .done) :
    ∃ here, r = ⟨[], here, .items .none⟩ ∧ s.tokens = [] ∧ s.Carries [] here := by
  cases h with
  | done _ htokens h => exact ⟨_, rfl, htokens, h⟩
  | branch h => cases h.symm.trans hstage
  | atom h => cases h.symm.trans hstage
  | bracket h => cases h.symm.trans hstage
  | single h => cases h.symm.trans hstage
  | group h => cases h.symm.trans hstage
  | union h => cases h.symm.trans hstage

/-- At the end there is one operand, from which the recognizer is made. -/
theorem Follows.finish (registry : Registry) (h : s.Follows r) (hstage : s.stage = .done) :
    ∃ f, s.operands = [f] ∧ s.finish = .ok ⟨f.finalize, s.context.result⟩ ∧
      s.finish = r.complete registry s.tokens s.stop := by
  obtain ⟨here, rfl, htokens, h⟩ := h.of_done hstage
  obtain ⟨f, rest, hf, hrest, hoperands⟩ := List.forall₂_cons_right_iff.mp h.operands
  obtain rfl := List.forall₂_nil_right_iff.mp hrest
  have hfinish : s.finish = .ok ⟨f.finalize, s.context.result⟩ := by
    simp only [Descent.finish, pop, hoperands, ok_bind]
    rfl
  refine ⟨f, hoperands, hfinish, ?_⟩
  have hread : Reader.finish ⟨[], here, .items .none⟩ s.stop = .ok here := rfl
  rw [hfinish, htokens, Reader.complete_nil, hread, ok_bind, recognizer, hf, h.context.result]

/-- What the descent ends with is what the reader gets to. -/
theorem Follows.ends (h : s.Follows r) :
    Ends registry s (r.complete registry s.tokens s.stop) := by
  induction hn : s.weight using Nat.strong_induction_on generalizing s r with
  | _ n ih =>
      subst hn
      by_cases hstage : s.stage = .done
      · obtain ⟨f, -, -, hfinish⟩ := h.finish registry hstage
        rw [← hfinish]
        exact .done hstage
      · cases (h.simulates registry).resolve_left hstage with
        | failed hstep hr =>
            rw [hr]
            exact .failed hstep
        | moved hstep hfollows hr hlt =>
            rw [← hr]
            exact .step hstage hstep (ih _ hlt hfollows rfl)

theorem step_of_done (hstage : s.stage = .done) : s.step registry = .ok s := by rw [step, hstage]

theorem Ends.unique {x y : Except Error Recognizer} (hx : Ends registry s x)
    (hy : Ends registry s y) : x = y := by
  induction hx with
  | failed h =>
      cases hy with
      | failed h' => exact congrArg Except.error (Except.error.inj (h.symm.trans h'))
      | done hstage => cases h.symm.trans (step_of_done hstage)
      | step _ h' _ => cases h.symm.trans h'
  | done hstage =>
      cases hy with
      | failed h => cases h.symm.trans (step_of_done hstage)
      | done _ => rfl
      | step hne _ _ => exact absurd hstage hne
  | step hne h _ ih =>
      cases hy with
      | failed h' => cases h.symm.trans h'
      | done hstage => exact absurd hstage hne
      | step _ h' hy =>
          obtain rfl := Except.ok.inj (h.symm.trans h')
          exact ih hy

/-- Every state that is reached has a reader that gets to the same result. -/
theorem Follows.reaches (h : s.Follows r) (hs : Reaches registry s s') : ∃ r', s'.Follows r' ∧
    r'.complete registry s'.tokens s'.stop = r.complete registry s.tokens s.stop := by
  induction hs with
  | refl => exact ⟨r, h, rfl⟩
  | tail _ hstep ih =>
      obtain ⟨r₁, hfollows, hr⟩ := ih
      rcases hfollows.simulates registry with hstage | hsimulates
      · obtain rfl := Except.ok.inj (hstep.symm.trans (step_of_done hstage))
        exact ⟨r₁, hfollows, hr⟩
      · cases hsimulates with
        | failed h' _ => cases hstep.symm.trans h'
        | moved h' hfollows' hr' _ =>
            obtain rfl := Except.ok.inj (hstep.symm.trans h')
            exact ⟨_, hfollows', hr'.trans hr⟩

theorem Ends.exists_done {x : Recognizer} (h : Ends registry s (.ok x)) :
    ∃ s', Reaches registry s s' ∧ s'.stage = .done ∧ s'.finish = .ok x := by
  generalize hy : (Except.ok x : Except Error Recognizer) = y at h
  induction h with
  | failed _ => cases hy
  | done hstage => exact ⟨_, .refl, hstage, rfl⟩
  | step _ h _ ih =>
      obtain ⟨s', hs', hdone⟩ := ih hy
      exact ⟨s', .head h hs', hdone⟩

end Descent

/-! ## Errors of the descent itself -/

/-- What the descent says of a stack without the fragment that is needed, of one with more than it
should have, of tokens that it expected, and of a fragment that is finalized. -/
def internalMessages : List String :=
  ["empty operand stack", "unbalanced operand stack", "unterminated regex",
    "fragment already finalized"]

/-- The error is of the descent itself and not of the regex. -/
def Internal (e : Error) : Prop :=
  ∃ what pos, e = .misstructured what pos ∧ what.message ∈ internalMessages

theorem not_internal_blamed (t : Token) : Blamed (fun e => ¬ Internal e) t := by
  refine ⟨fun _ => nofun, ?_, fun _ => nofun, fun _ => nofun⟩
  rintro ⟨_, _, ⟨⟩, hmessage⟩
  revert hmessage
  decide

theorem not_internal_unterminated (c : Construct) (pos : Position) :
    ¬ Internal (.misstructured (.unterminated c) pos) := by
  rintro ⟨_, _, ⟨⟩, hmessage⟩
  revert hmessage
  cases c <;> decide

namespace Reader

theorem failsWith_complete (r : Reader) (ts : List Token) (stop : Position) :
    FailsWith (fun e => ¬ Internal e) (r.complete registry ts stop) := by
  refine (FailsWith.foldlM (fun r t => failsWith_step ?_ (not_internal_blamed t)) ts r).bind ?_
  · cases r.focus with
    | members purpose m => cases m <;> simp [Focus.Blamed, Members.Blamed, Internal]
    | _ => trivial
  · intro r
    refine FailsWith.bind ?_ fun x => ?_
    · rw [finish]
      split
      · exact failsWith_error_iff.mpr (not_internal_unterminated _ _)
      · exact failsWith_ok _
    · obtain ⟨y, hy⟩ := x.recognizer_eq_ok (stopOf stop ts)
      rw [hy]
      exact failsWith_ok y

end Reader

theorem Descent.Follows.failsWith_step {s : Descent} {r : Reader} (h : s.Follows r) :
    FailsWith (fun e => ¬ Internal e) (s.step registry) := by
  rcases h.simulates registry with hstage | hsimulates
  · rw [Descent.step_of_done hstage]
    exact failsWith_ok s
  · cases hsimulates with
    | failed hstep hr =>
        rw [hstep, failsWith_error_iff]
        exact r.failsWith_complete s.tokens s.stop _ hr
    | moved hstep =>
        rw [hstep]
        exact failsWith_ok _

end LanguageSpec.Regex

namespace LanguageSpec.Recognizer

open Regex (Descent Internal)

/-- Compiling tokens by descent comes to an end with what reading them gives, and with nothing else.
In every state that is reached no operand is finalized and there are as many as groups are open, and
the next step does not fail with an error of the descent itself. Neither does the whole; where it
succeeds one operand is left, from which the recognizer is made. -/
theorem ofTokens_descends (registry : Registry) (origin : Position) (ts : List Regex.Token) :
    (∀ x, Descent.Ends registry (.initial origin ts) x ↔ x = ofTokens registry origin ts) ∧
    (∀ s, Descent.Reaches registry (.initial origin ts) s →
      s.Balanced ∧ FailsWith (fun e => ¬ Internal e) (s.step registry)) ∧
    FailsWith (fun e => ¬ Internal e) (ofTokens registry origin ts) ∧
    ∀ x, ofTokens registry origin ts = .ok x →
      ∃ s f, Descent.Reaches registry (.initial origin ts) s ∧ s.stage = .done ∧
        s.operands = [f] ∧ x = ⟨f.finalize, s.context.result⟩ := by
  have hinitial := Descent.follows_initial origin ts
  have hends : Descent.Ends registry (.initial origin ts) (ofTokens registry origin ts) := by
    rw [← Regex.Reader.complete_initial]
    exact hinitial.ends
  refine ⟨fun x => ⟨fun hx => hx.unique hends, ?_⟩, fun s hs => ?_, ?_, fun x hx => ?_⟩
  · rintro rfl
    exact hends
  · obtain ⟨r, hfollows, -⟩ := hinitial.reaches hs
    exact ⟨hfollows.balanced, hfollows.failsWith_step⟩
  · rw [← Regex.Reader.complete_initial]
    exact Regex.Reader.failsWith_complete _ ts origin
  · rw [hx] at hends
    obtain ⟨s, hs, hstage, hfinish⟩ := hends.exists_done
    obtain ⟨r, hfollows, -⟩ := hinitial.reaches hs
    obtain ⟨f, hf, hok, -⟩ := hfollows.finish registry hstage
    exact ⟨s, f, hs, hstage, hf, Except.ok.inj (hfinish.symm.trans hok)⟩

/-- A group around a name whose fragment is not finalized, repeated as a whole. -/
theorem ofTokens_descends_group :
    let registry : Registry := ⟨[("A", ⟨.new, none⟩)], by simp⟩
    let ts : List Regex.Token := [⟨.openGroup, "(", .first⟩, ⟨.reference, "$A", ⟨1, 2⟩⟩,
      ⟨.closeGroup, ")", ⟨1, 4⟩⟩, ⟨.star, "*", ⟨1, 5⟩⟩]
    ∃ x s f, ofTokens registry .first ts = .ok x ∧
      Descent.Reaches registry (.initial .first ts) s ∧ s.stage = .done ∧ s.operands = [f] ∧
        x = ⟨f.finalize, s.context.result⟩ := by
  intro registry ts
  have hok : (ofTokens registry .first ts).isOk = true := by decide +kernel
  obtain ⟨x, hx⟩ := exists_eq_ok_of_isOk hok
  obtain ⟨s, f, hdescent⟩ := (ofTokens_descends registry .first ts).2.2.2 x hx
  exact ⟨x, s, f, hx, hdescent⟩

end LanguageSpec.Recognizer
