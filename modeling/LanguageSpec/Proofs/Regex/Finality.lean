import LanguageSpec.Proofs.Regex.Acceptance
import LanguageSpec.Proofs.Regex.Errors

/-!
# Errors that ask for more

Reading a regex fails in two ways. What a token is refused for is final, whatever follows. What is
left open at the end of the tokens can always be completed, and this is the only error that further
tokens remove.
-/

namespace LanguageSpec

namespace Error

/-- The structure around a place is wrong because something was not terminated. -/
def Incomplete (e : Error) : Prop :=
  ∃ what pos, e = .misstructured what pos ∧ "unterminated".toList <+: what.message.toList

theorem incomplete_unterminated (c : Construct) (pos : Position) :
    (misstructured (.unterminated c) pos).Incomplete :=
  ⟨_, pos, rfl, by cases c <;> decide⟩

@[simp] theorem not_incomplete_malformed (what : Malformation) (pos : Position) :
    ¬ (malformed what pos).Incomplete := nofun

@[simp] theorem not_incomplete_undefinedReference (name : String) (pos : Position) :
    ¬ (undefinedReference name pos).Incomplete := nofun

@[simp] theorem not_incomplete_notACharacterClass (name : String) (pos : Position) :
    ¬ (notACharacterClass name pos).Incomplete := nofun

@[simp] theorem not_incomplete_nestedExclusion (pos : Position) :
    ¬ (misstructured .nestedExclusion pos).Incomplete := by
  rintro ⟨_, _, ⟨⟩, hmessage⟩
  revert hmessage
  decide

end Error

namespace Regex

variable {registry : Registry} {t : Token}

/-! ## What a token is refused for -/

abbrev Conclusive {α : Type} (x : Except Error α) : Prop := FailsWith (fun e => ¬ e.Incomplete) x

theorem conclusive_blamed (t : Token) : Blamed (fun e => ¬ e.Incomplete) t :=
  ⟨fun _ => by simp, by simp, fun _ => by simp, fun _ => by simp⟩

namespace Reader

/-- An error at a token does not ask for more of them. -/
theorem conclusive_step (registry : Registry) (r : Reader) (t : Token) :
    Conclusive (r.step registry t) := by
  refine failsWith_step ?_ (conclusive_blamed t)
  cases r.focus with
  | members purpose m => cases m <;> simp [Focus.Blamed, Members.Blamed]
  | _ => trivial

/-! ## What is left open can be completed -/

/-- Some tokens lead from a focus back to between items, at any depth. -/
def Closable (registry : Registry) (focus : Focus) : Prop :=
  ∀ outer here, ∃ us last, Run registry ⟨outer, here, focus⟩ us ⟨outer, here, .items last⟩

theorem Closable.of_move {focus focus' : Focus} (h : Closable registry focus')
    (hm : ∀ outer here, Move registry ⟨outer, here, focus⟩ t ⟨outer, here, focus'⟩) :
    Closable registry focus := by
  intro outer here
  obtain ⟨us, last, hrun⟩ := h outer here
  exact ⟨t :: us, last, .cons (hm outer here) hrun⟩

def letter : Token := ⟨.literal, "a", .first⟩

def closing : Token := ⟨.closeBracket, "]", .first⟩

theorem closable_items (last : Pending) : Closable registry (.items last) :=
  fun _ _ => ⟨[], last, .nil _⟩

theorem closable_members {focus : Focus} {purpose : Purpose} {m : Members}
    (hcomplete : ∀ s, Closable registry (purpose.complete s)) (hf : focus.AtMembers purpose m)
    (hm : ¬ m.IsRange) : Closable registry focus := by
  have hne : (m.set.insert 'a').isEmpty = false :=
    SortedSet.isEmpty_eq_false_iff.mpr ⟨'a', by simp⟩
  have hclose : Closable registry (.members purpose (.low m.set 'a' letter.pos)) :=
    (hcomplete (m.set.insert 'a')).of_move (t := closing) fun _ _ =>
      .closeBracket (.members _ _) rfl id hne
  exact hclose.of_move fun _ _ => .member hf (.low (t := letter) hm rfl rfl)

theorem closable_operandOpened (e : CharSet) : Closable registry (.operandOpened e) :=
  closable_members (fun _ => closable_items _) (.operandOpened e) id

theorem closable_operand (e : CharSet) : Closable registry (.operand e) :=
  (closable_operandOpened e).of_move (t := ⟨.openBracket, "[", .first⟩) fun _ _ =>
    .operandBracket rfl

theorem closable_excluded (s : CharSet) : Closable registry (.excluded s) :=
  (closable_operand s).of_move (t := ⟨.inWord, "IN", .first⟩) fun _ _ => .inWord rfl

theorem closable_complete (purpose : Purpose) (s : CharSet) :
    Closable registry (purpose.complete s) := by
  cases purpose with
  | listed => exact closable_items _
  | excluded => exact closable_excluded s
  | operand e => exact closable_items _

/-- A range that was begun is completed by its low end once more. -/
theorem closable_range {ts : List Token} {purpose : Purpose} {s : CharSet} {lo : Char}
    {pos : Position} (h : ReadMembers ts (.range s lo pos)) :
    Closable registry (.members purpose (.range s lo pos)) := by
  cases h with
  | @range us _ t d _ _ hus ht hlo hd =>
      have hready : Closable registry
          (.members purpose (.ready (s.insertAll (CharSet.interval lo lo)))) :=
        closable_members (closable_complete purpose) (.members _ _) id
      exact hready.of_move fun _ _ =>
        .member (.members _ _) (.high ht hlo (Char.le_refl lo))

theorem closable_of_readFocus {ts : List Token} {focus : Focus}
    (h : ReadFocus registry ts focus) : Closable registry focus := by
  cases h with
  | items h => exact closable_items _
  | opened ho => exact closable_members (closable_complete .listed) .opened id
  | @members us vs purpose m hus hvs =>
      cases m with
      | ready s => exact closable_members (closable_complete purpose) (.members _ _) id
      | low s lo pos => exact closable_members (closable_complete purpose) (.members _ _) id
      | range s lo pos => exact closable_range hvs
  | excluded => exact closable_excluded _
  | operand => exact closable_operand _
  | operandOpened => exact closable_operandOpened _

theorem exists_run_to_end (outer : List Regex) (here : Regex) (last : Pending) :
    ∃ us here' last',
      Run registry ⟨outer, here, .items last⟩ us ⟨[], here', .items last'⟩ := by
  induction outer generalizing here last with
  | nil => exact ⟨[], here, last, .nil _⟩
  | cons before outer ih =>
      obtain ⟨us, here', last', hrun⟩ := ih before (.group (last.settle here none))
      exact ⟨_, here', last', .cons (.closeGroup (t := ⟨.closeGroup, ")", .first⟩) rfl) hrun⟩

/-- What has been read without an error can be completed to a regex. -/
theorem exists_completion {ts : List Token} {r : Reader} (h : Read registry ts r) :
    ∃ us here last, Run registry r us ⟨[], here, .items last⟩ := by
  obtain ⟨outer, here, focus⟩ := r
  obtain ⟨_, _, _, -, -, -, hfocus⟩ := h
  obtain ⟨us, last, hus⟩ := closable_of_readFocus hfocus outer here
  obtain ⟨vs, here', last', hvs⟩ := exists_run_to_end outer here last
  exact ⟨us ++ vs, here', last', hus.append hvs⟩

end Reader

end Regex

namespace Recognizer

open Regex (Reader)

variable {registry : Registry} {origin : Position} {ts : List Regex.Token} {e : Error} {r : Reader}

theorem ofTokens_append_of_error (h : ts.foldlM (Reader.step registry) Reader.initial = .error e)
    (us : List Regex.Token) : ofTokens registry origin (ts ++ us) = .error e := by
  rw [ofTokens, Regex.ofTokens, foldlM_append_of_error h]
  rfl

theorem exists_ofTokens_append (h : ts.foldlM (Reader.step registry) Reader.initial = .ok r) :
    ∃ us x, ofTokens registry origin (ts ++ us) = .ok x := by
  obtain ⟨us, here, last, hrun⟩ := Reader.exists_completion (Reader.read_of_foldlM h)
  obtain ⟨x, hx⟩ := (last.settle here none).recognizer_eq_ok (Regex.stopOf origin (ts ++ us))
  refine ⟨us, x, bind_eq_ok_iff.mpr ⟨last.settle here none, ?_, hx⟩⟩
  have hwhole := foldlM_append_eq_ok_iff.mpr ⟨r, h, hrun⟩
  exact bind_eq_ok_iff.mpr ⟨_, hwhole, Reader.finish_eq_ok_iff.mpr ⟨here, last, rfl, rfl⟩⟩

theorem incomplete_of_foldlM (h : ts.foldlM (Reader.step registry) Reader.initial = .ok r)
    (he : ofTokens registry origin ts = .error e) : e.Incomplete := by
  rw [ofTokens, Regex.ofTokens, h] at he
  change (r.finish (Regex.stopOf origin ts) >>= fun x => x.recognizer _) = .error e at he
  cases hr : r.unfinished? with
  | none =>
      obtain ⟨x, hx⟩ := r.regex.recognizer_eq_ok (Regex.stopOf origin ts)
      rw [Reader.finish, hr] at he
      cases he.symm.trans hx
  | some c =>
      rw [Reader.finish, hr] at he
      cases he
      exact Error.incomplete_unterminated c _

/-- An error of compiling tokens either says that something was not terminated, and more tokens
remove it, or is any other, and is the error whatever follows. -/
theorem ofTokens_incomplete_or_final (h : ofTokens registry origin ts = .error e) :
    Xor (e.Incomplete ∧ ∃ us x, ofTokens registry origin (ts ++ us) = .ok x)
      (¬ e.Incomplete ∧ ∀ us, ofTokens registry origin (ts ++ us) = .error e) := by
  cases hread : ts.foldlM (Reader.step registry) Reader.initial with
  | error e' =>
      have hfinal : ∀ us, ofTokens registry origin (ts ++ us) = .error e' :=
        ofTokens_append_of_error hread
      have hsame : e' = e := by
        have herror := hfinal []
        rw [List.append_nil, h] at herror
        exact (Except.error.inj herror).symm
      have hconclusive : ¬ e.Incomplete :=
        hsame ▸ FailsWith.foldlM (Reader.conclusive_step registry) ts _ e' hread
      exact Or.inr ⟨⟨hconclusive, hsame ▸ hfinal⟩, fun hopen => hconclusive hopen.1⟩
  | ok r =>
      have hopen := incomplete_of_foldlM hread h
      exact Or.inl ⟨⟨hopen, exists_ofTokens_append hread⟩, fun hfinal => hfinal.1 hopen⟩

/-- A range without its high end is completed by one that is not below the low end. -/
theorem ofTokens_incomplete_or_final_range :
    let ts : List Regex.Token :=
      [⟨.openBracket, "[", .first⟩, ⟨.literal, "z", ⟨1, 2⟩⟩, ⟨.dash, "-", ⟨1, 3⟩⟩]
    let e : Error := .misstructured (.unterminated .characterRange) ⟨1, 4⟩
    ofTokens .empty .first ts = .error e ∧
      Xor (e.Incomplete ∧ ∃ us x, ofTokens .empty .first (ts ++ us) = .ok x)
        (¬ e.Incomplete ∧ ∀ us, ofTokens .empty .first (ts ++ us) = .error e) := by
  intro ts e
  have herror : ofTokens .empty .first ts = .error e := by rfl
  exact ⟨herror, ofTokens_incomplete_or_final herror⟩

end Recognizer

end LanguageSpec
