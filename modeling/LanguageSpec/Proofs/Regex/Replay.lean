import LanguageSpec.Proofs.Regex.Reading

/-!
# What the grammar derives is read

Tokens that denote a language as a part of a regex can be read wherever that part may stand, and
what the reader keeps of them has that language. With the other direction this makes the denoted
language unique.
-/

open Computability

namespace LanguageSpec.Regex

variable {registry : Registry}

namespace Reader

def Run (registry : Registry) (r : Reader) (ts : List Token) (r' : Reader) : Prop :=
  ts.foldlM (step registry) r = .ok r'

namespace Run

variable {r r' r'' : Reader} {ts us : List Token} {t : Token}

theorem nil (r : Reader) : Run registry r [] r := rfl

theorem append (h : Run registry r ts r') (h' : Run registry r' us r'') :
    Run registry r (ts ++ us) r'' :=
  foldlM_append_eq_ok_iff.mpr ⟨r', h, h'⟩

theorem single (h : Move registry r t r') : Run registry r [t] r' :=
  foldlM_cons_eq_ok_iff.mpr ⟨r', step_of_move h, rfl⟩

theorem cons (h : Move registry r t r') (h' : Run registry r' ts r'') :
    Run registry r (t :: ts) r'' :=
  foldlM_cons_eq_ok_iff.mpr ⟨r', step_of_move h, h'⟩

theorem concat (h : Run registry r ts r') (h' : Move registry r' t r'') :
    Run registry r (ts ++ [t]) r'' :=
  h.append (single h')

end Run

end Reader

open Reader (Run)

/-! ## Brackets -/

theorem DenotesMember.nonempty {ts : List Token} {s : Set Char} (h : DenotesMember ts s) :
    s.Nonempty := by
  cases h with
  | single ht hc => exact ⟨_, rfl⟩
  | @range t d u lo hi ht hlo hd hu hhi hle => exact ⟨lo, Char.le_refl lo, hle⟩

theorem DenotesMembers.nonempty {ts : List Token} {s : Set Char} (h : DenotesMembers ts s)
    (hne : ts ≠ []) : s.Nonempty := by
  cases h with
  | nil => exact absurd rfl hne
  | append hts hus => exact hus.nonempty.inr

theorem DenotesMember.run {ts : List Token} {s : Set Char} (h : DenotesMember ts s)
    {outer : List Regex} {here : Regex} {focus : Focus} {purpose : Purpose} {m : Members}
    (hf : focus.AtMembers purpose m) (hm : ¬ m.IsRange) :
    ∃ m', Run registry ⟨outer, here, focus⟩ ts ⟨outer, here, .members purpose m'⟩ ∧
      ¬ m'.IsRange ∧ {c | c ∈ m'.set} = {c | c ∈ m.set} ∪ s := by
  cases h with
  | @single t c ht hc =>
      refine ⟨.low m.set c t.pos, .single (.member hf (.low hm ht hc)), id, ?_⟩
      ext x
      simp [Members.set]
  | @range t d u lo hi ht hlo hd hu hhi hle =>
      refine ⟨.ready (m.set.insertAll (CharSet.interval lo hi)), ?_, id, ?_⟩
      · refine .cons (.member hf (.low hm ht hlo)) ?_
        refine .cons (.member (.members _ _) (.dash hd)) ?_
        exact .single (.member (.members _ _) (.high hu hhi hle))
      · ext x
        simp [Members.set, CharSet.mem_interval, or_comm]

theorem DenotesMembers.run {ts : List Token} {s : Set Char} (h : DenotesMembers ts s)
    {outer : List Regex} {here : Regex} {focus : Focus} {purpose : Purpose}
    (hf : focus.AtMembers purpose (.ready ∅)) :
    ∃ focus' m', Run registry ⟨outer, here, focus⟩ ts ⟨outer, here, focus'⟩ ∧
      focus'.AtMembers purpose m' ∧ ¬ m'.IsRange ∧ {c | c ∈ m'.set} = s := by
  induction h with
  | nil =>
      refine ⟨focus, .ready ∅, .nil _, hf, id, ?_⟩
      ext c
      simp [Members.set]
  | append hts hus ih =>
      obtain ⟨focus₁, m₁, hrun₁, hf₁, hm₁, hset₁⟩ := ih
      obtain ⟨m₂, hrun₂, hm₂, hset₂⟩ := hus.run hf₁ hm₁
      exact ⟨_, m₂, hrun₁.append hrun₂, .members _ _, hm₂, by rw [hset₂, hset₁]⟩

theorem DenotesMembers.run_close {ts : List Token} {s : Set Char} (h : DenotesMembers ts s)
    (hne : ts ≠ []) {c : Token} (hc : c.kind = .closeBracket) {outer : List Regex} {here : Regex}
    {focus : Focus} {purpose : Purpose} (hf : focus.AtMembers purpose (.ready ∅)) :
    ∃ u, Run registry ⟨outer, here, focus⟩ (ts ++ [c]) ⟨outer, here, purpose.complete u⟩ ∧
      {x | x ∈ u} = s := by
  obtain ⟨focus', m, hrun, hf', hm, hset⟩ := h.run hf
  refine ⟨m.set, hrun.concat (.closeBracket hf' hc hm ?_), hset⟩
  rw [← hset] at h
  exact SortedSet.isEmpty_eq_false_iff.mpr (h.nonempty hne)

theorem DenotesOperand.run {ts : List Token} {s : Set Char} (h : DenotesOperand registry ts s)
    (outer : List Regex) (here : Regex) (e : CharSet) :
    ∃ u : CharSet, Run registry ⟨outer, here, .operand e⟩ ts
        ⟨outer, here, .items (.atom (.oneOf (u.difference e)))⟩ ∧ {x | x ∈ u} = s := by
  cases h with
  | bracket h =>
      cases h with
      | mk ho hts hne hc =>
          obtain ⟨u, hrun, hu⟩ := hts.run_close hne hc (.operandOpened e)
          exact ⟨u, .cons (.operandBracket ho) hrun, hu⟩
  | reference ht hx hs => exact ⟨_, .single (.operandReference ht hx hs), rfl⟩

theorem DenotesClass.run {ts : List Token} {s : Set Char} (h : DenotesClass registry ts s)
    (outer : List Regex) (here : Regex) (last : Pending) :
    ∃ u, Run registry ⟨outer, here, .items last⟩ ts
        ⟨outer, last.settle here none, .items (.atom (.oneOf u))⟩ ∧ {x | x ∈ u} = s := by
  cases h with
  | dot ht => exact ⟨.dot, .single (.atom (.dot ht)), rfl⟩
  | bracket h =>
      cases h with
      | mk ho hts hne hc =>
          obtain ⟨u, hrun, hu⟩ := hts.run_close hne hc .opened
          exact ⟨u, .cons (.openBracket ho) hrun, hu⟩
  | @exclusion o n c i ts us excluded operand ho hn hts hne hc hi hus =>
      obtain ⟨e, hexcluded, rfl⟩ := hts.run_close hne hc (.members .excluded (.ready ∅))
      obtain ⟨u, hoperand, rfl⟩ := hus.run outer (last.settle here none) e
      refine ⟨u.difference e, ?_, (setOf_mem_difference u e).symm⟩
      have hrun := (hexcluded.concat (.inWord hi)).append hoperand
      simpa using Run.cons (.openBracket ho) (.cons (.caret hn) hrun)

/-! ## Regexes -/

/-- What it takes to read some tokens as a part of a regex. -/
def Readable (registry : Registry) : Part → List Token → Language Char → Prop
  | .atom, ts, l => ∀ outer here last, ∃ p,
      Run registry ⟨outer, here, .items last⟩ ts ⟨outer, last.settle here none, .items p⟩ ∧
        p ≠ .none ∧ p.language = l
  | .item, ts, l | .branch, ts, l => ∀ outer here last, ∃ here' p,
      Run registry ⟨outer, here, .items last⟩ ts ⟨outer, here', .items p⟩ ∧
        (p.settle here' none).branches.closed = (last.settle here none).branches.closed ∧
        (p.settle here' none).branches.current = (last.settle here none).branches.current * l
  | .regex, ts, l => ∀ outer, ∃ here p,
      Run registry ⟨outer, .empty, .items .none⟩ ts ⟨outer, here, .items p⟩ ∧
        (p.settle here none).language = l

theorem readable_of_denotes {part : Part} {ts : List Token} {l : Language Char}
    (h : Denotes registry part ts l) : Readable registry part ts l := by
  -- on the derivation; that the place is arbitrary lets parts be read one behind the other
  induction h with
  | branch h ih =>
      intro outer
      obtain ⟨here, p, hrun, hclosed, hcurrent⟩ := ih outer .empty .none
      refine ⟨here, p, hrun, ?_⟩
      rw [language, Branches.whole, hclosed, hcurrent]
      simp [Pending.settle, branches, Branches.new, Branches.current]
  | union hts hb hus iht ihu =>
      intro outer
      obtain ⟨here, p, hrun, rfl⟩ := iht outer
      obtain ⟨here', p', hrun', hclosed, hcurrent⟩ := ihu outer (p.settle here none).bar .none
      refine ⟨here', p', hrun.append (.cons (.bar hb) hrun'), ?_⟩
      rw [language, Branches.whole, hclosed, hcurrent, Pending.settle, branches,
        Branches.closed_alternate, Branches.current_alternate, one_mul]
      rfl
  | nil =>
      intro outer here last
      exact ⟨here, last, .nil _, rfl, (mul_one _).symm⟩
  | append hts hus iht ihu =>
      intro outer here last
      obtain ⟨here₁, p₁, hrun₁, hclosed₁, hcurrent₁⟩ := iht outer here last
      obtain ⟨here₂, p₂, hrun₂, hclosed₂, hcurrent₂⟩ := ihu outer here₁ p₁
      refine ⟨here₂, p₂, hrun₁.append hrun₂, hclosed₂.trans hclosed₁, ?_⟩
      rw [hcurrent₂, hcurrent₁, mul_assoc]
  | once h ih =>
      intro outer here last
      obtain ⟨p, hrun, hp, rfl⟩ := ih outer here last
      refine ⟨_, p, hrun, ?_⟩
      rw [branches_settle hp]
      exact ⟨rfl, rfl⟩
  | star h ht ih =>
      intro outer here last
      obtain ⟨p, hrun, hp, rfl⟩ := ih outer here last
      refine ⟨_, .none, hrun.concat (.star hp ht), ?_⟩
      rw [Pending.settle, branches_settle hp]
      exact ⟨rfl, rfl⟩
  | plus h ht ih =>
      intro outer here last
      obtain ⟨p, hrun, hp, rfl⟩ := ih outer here last
      refine ⟨_, .none, hrun.concat (.plus hp ht), ?_⟩
      rw [Pending.settle, branches_settle hp]
      exact ⟨rfl, rfl⟩
  | group ho h hc ih =>
      intro outer here last
      obtain ⟨inner, p, hrun, rfl⟩ := ih (last.settle here none :: outer)
      exact ⟨_, .cons (.openGroup ho) (hrun.concat (.closeGroup hc)), by simp, rfl⟩
  | literal ht hc =>
      intro outer here last
      exact ⟨_, .single (.atom (.literal ht hc)), by simp, rfl⟩
  | charClass h =>
      intro outer here last
      obtain ⟨u, hrun, rfl⟩ := h.run outer here last
      exact ⟨_, hrun, by simp, rfl⟩
  | reference ht hx =>
      intro outer here last
      exact ⟨_, .single (.atom (.reference ht hx)), by simp, rfl⟩

theorem ofTokens_of_denotes {ts : List Token} {l : Language Char}
    (h : Denotes registry .regex ts l) (origin : Position) :
    ∃ r, ofTokens registry origin ts = .ok r ∧ r.language = l := by
  obtain ⟨here, p, hrun, hl⟩ := readable_of_denotes h []
  refine ⟨p.settle here none, ?_, hl⟩
  exact bind_eq_ok_iff.mpr ⟨_, hrun, Reader.finish_eq_ok_iff.mpr ⟨here, p, rfl, rfl⟩⟩

/-- Tokens denote the language of what is read from them and no other. -/
theorem denotes_iff {origin : Position} {ts : List Token} {r : Regex}
    (h : ofTokens registry origin ts = .ok r) (l : Language Char) :
    Denotes registry .regex ts l ↔ l = r.language := by
  constructor
  · intro hl
    obtain ⟨r', hr', rfl⟩ := ofTokens_of_denotes hl origin
    rw [h] at hr'
    cases hr'
    rfl
  · rintro rfl
    exact denotes_of_ofTokens h

end LanguageSpec.Regex
