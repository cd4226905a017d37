import LanguageSpec.Proofs.Regex.Grammar
import LanguageSpec.Proofs.Regex.Moves

/-!
# Reading follows the grammar

What the reader has read denotes, part for part, the language of what it keeps.
-/

open Computability

namespace LanguageSpec.Regex

variable {registry : Registry}

/-- The tokens of one depth denote closed branches, with a bar behind each, and the current one. -/
def Spells (registry : Registry) (ts : List Token) (b : Branches) : Prop :=
  (b.closed = 0 ∧ Denotes registry .branch ts b.current) ∨
    ∃ us t vs, ts = us ++ t :: vs ∧ t.kind = .bar ∧ Denotes registry .regex us b.closed ∧
      Denotes registry .branch vs b.current

namespace Spells

variable {ts us : List Token} {b : Branches} {l : Language Char}

theorem nil : Spells registry [] Branches.new := by
  refine Or.inl ⟨rfl, ?_⟩
  rw [show Branches.new.current = 1 from mul_one 1]
  exact .nil

theorem regex (h : Spells registry ts b) : Denotes registry .regex ts b.whole := by
  rcases h with ⟨hclosed, hts⟩ | ⟨us, t, vs, rfl, ht, hus, hvs⟩
  · rw [Branches.whole, hclosed, zero_add]
    exact .branch hts
  · exact .union hus ht hvs

theorem append (h : Spells registry ts b) (hus : Denotes registry .item us l) :
    Spells registry (ts ++ us) (b.append l) := by
  rcases h with ⟨hclosed, hts⟩ | ⟨vs, t, ws, rfl, ht, hvs, hws⟩
  · exact Or.inl ⟨hclosed, .append hts hus⟩
  · exact Or.inr ⟨vs, t, ws ++ us, by simp, ht, hvs, .append hws hus⟩

theorem alternate (h : Spells registry ts b) {t : Token} (ht : t.kind = .bar) :
    Spells registry (ts ++ [t]) b.alternate := by
  refine Or.inr ⟨ts, t, [], rfl, ht, h.regex, ?_⟩
  rw [Branches.current_alternate]
  exact .nil

end Spells

def Pending.language : Pending → Language Char
  | .none => 1
  | .atom a => a.language
  | .group inner => inner.language

theorem branches_settle {last : Pending} (hlast : last ≠ .none) (here : Regex)
    (times : Option Repetition) :
    (last.settle here times).branches = here.branches.append (repeated last.language times) := by
  cases last with
  | none => exact absurd rfl hlast
  | atom a => rfl
  | group inner => rfl

/-- An item that may still be repeated has been read as an atom. -/
inductive ReadPending (registry : Registry) : List Token → Pending → Prop
  | none : ReadPending registry [] .none
  | some {ts : List Token} {last : Pending} (hlast : last ≠ .none)
      (h : Denotes registry .atom ts last.language) : ReadPending registry ts last

theorem ReadPending.settle {ts us : List Token} {here : Regex} {last : Pending}
    (h : ReadPending registry us last) (hts : Spells registry ts here.branches) :
    Spells registry (ts ++ us) (last.settle here Option.none).branches := by
  cases h with
  | none => simpa [Pending.settle] using hts
  | some hlast h =>
      rw [branches_settle hlast]
      exact hts.append (.once h)

inductive ReadMembers : List Token → Members → Prop
  | ready {ts : List Token} {s : CharSet} (hts : DenotesMembers ts {c | c ∈ s}) :
      ReadMembers ts (.ready s)
  | low {ts : List Token} {s : CharSet} {t : Token} {lo : Char} {pos : Position}
      (hts : DenotesMembers ts {c | c ∈ s}) (ht : t.kind = .literal)
      (hlo : member? t.text = some lo) : ReadMembers (ts ++ [t]) (.low s lo pos)
  | range {ts : List Token} {s : CharSet} {t d : Token} {lo : Char} {pos : Position}
      (hts : DenotesMembers ts {c | c ∈ s}) (ht : t.kind = .literal)
      (hlo : member? t.text = some lo) (hd : d.kind = .dash) :
      ReadMembers (ts ++ [t, d]) (.range s lo pos)

theorem ReadMembers.denotes {ts : List Token} {m : Members} (h : ReadMembers ts m)
    (hm : ¬ m.IsRange) : DenotesMembers ts {c | c ∈ m.set} := by
  cases h with
  | ready hts => exact hts
  | @low ts s t lo pos hts ht hlo =>
      have hset : {c | c ∈ s.insert lo} = {c | c ∈ s} ∪ {lo} := by
        ext c
        simp
      rw [Members.set, hset]
      exact .append hts (.single ht hlo)
  | range => exact absurd trivial hm

theorem ReadMembers.move {ts : List Token} {m m' : Members} {t : Token} (h : ReadMembers ts m)
    (hm : m.Move t m') : ReadMembers (ts ++ [t]) m' := by
  cases hm with
  | low hm ht hc => exact .low (h.denotes hm) ht hc
  | dash ht =>
      cases h with
      | low hts hlit hlo =>
          rw [List.append_assoc]
          exact .range hts hlit hlo ht
  | @high s lo hi pos t ht hc hle =>
      cases h with
      | range hts hlit hlo hd =>
          have hset : {c | c ∈ s.insertAll (CharSet.interval lo hi)} =
              {c | c ∈ s} ∪ {c | lo ≤ c ∧ c ≤ hi} := by
            ext c
            simp [CharSet.mem_interval, or_comm]
          refine .ready ?_
          rw [hset, List.append_assoc]
          exact .append hts (.range hlit hlo hd ht hc hle)

inductive ReadPurpose : List Token → Purpose → Prop
  | listed {o : Token} (ho : o.kind = .openBracket) : ReadPurpose [o] .listed
  | excluded {o n : Token} (ho : o.kind = .openBracket) (hn : n.kind = .caret) :
      ReadPurpose [o, n] .excluded
  | operand {o n c i p : Token} {ts : List Token} {e : CharSet} (ho : o.kind = .openBracket)
      (hn : n.kind = .caret) (hts : DenotesMembers ts {x | x ∈ e}) (hne : ts ≠ [])
      (hc : c.kind = .closeBracket) (hi : i.kind = .inWord) (hp : p.kind = .openBracket) :
      ReadPurpose (o :: n :: ts ++ [c, i, p]) (.operand e)

inductive ReadFocus (registry : Registry) : List Token → Focus → Prop
  | items {ts : List Token} {last : Pending} (h : ReadPending registry ts last) :
      ReadFocus registry ts (.items last)
  | opened {o : Token} (ho : o.kind = .openBracket) : ReadFocus registry [o] .opened
  | members {ts us : List Token} {purpose : Purpose} {m : Members} (hts : ReadPurpose ts purpose)
      (hus : ReadMembers us m) : ReadFocus registry (ts ++ us) (.members purpose m)
  | excluded {o n c : Token} {ts : List Token} {e : CharSet} (ho : o.kind = .openBracket)
      (hn : n.kind = .caret) (hts : DenotesMembers ts {x | x ∈ e}) (hne : ts ≠ [])
      (hc : c.kind = .closeBracket) : ReadFocus registry (o :: n :: ts ++ [c]) (.excluded e)
  | operand {o n c i : Token} {ts : List Token} {e : CharSet} (ho : o.kind = .openBracket)
      (hn : n.kind = .caret) (hts : DenotesMembers ts {x | x ∈ e}) (hne : ts ≠ [])
      (hc : c.kind = .closeBracket) (hi : i.kind = .inWord) :
      ReadFocus registry (o :: n :: ts ++ [c, i]) (.operand e)
  | operandOpened {o n c i p : Token} {ts : List Token} {e : CharSet} (ho : o.kind = .openBracket)
      (hn : n.kind = .caret) (hts : DenotesMembers ts {x | x ∈ e}) (hne : ts ≠ [])
      (hc : c.kind = .closeBracket) (hi : i.kind = .inWord) (hp : p.kind = .openBracket) :
      ReadFocus registry (o :: n :: ts ++ [c, i, p]) (.operandOpened e)

theorem denotesMembers_nil : DenotesMembers [] {c | c ∈ (∅ : CharSet)} := by
  have hset : {c | c ∈ (∅ : CharSet)} = (∅ : Set Char) := by
    ext c
    simp
  rw [hset]
  exact .nil

theorem ReadFocus.atMembers {ts : List Token} {focus : Focus} {purpose : Purpose} {m : Members}
    (h : ReadFocus registry ts focus) (hf : focus.AtMembers purpose m) :
    ∃ us vs, ts = us ++ vs ∧ ReadPurpose us purpose ∧ ReadMembers vs m := by
  cases hf with
  | opened =>
      cases h with
      | opened ho => exact ⟨_, [], (List.append_nil _).symm, .listed ho, .ready denotesMembers_nil⟩
  | members =>
      cases h with
      | members hts hus => exact ⟨_, _, rfl, hts, hus⟩
  | operandOpened =>
      cases h with
      | operandOpened ho hn hts hne hc hi hp =>
          exact ⟨_, [], (List.append_nil _).symm, .operand ho hn hts hne hc hi hp,
            .ready denotesMembers_nil⟩

theorem denotesMembers_eq_empty {s : Set Char} (h : DenotesMembers [] s) : s = ∅ := by
  generalize hts : ([] : List Token) = ts at h
  cases h with
  | nil => rfl
  | append hts' hus =>
      cases hus <;> simp at hts

theorem ne_nil_of_set_nonempty {ts : List Token} {s : CharSet} (h : DenotesMembers ts {c | c ∈ s})
    (hne : s.isEmpty = false) : ts ≠ [] := by
  rintro rfl
  obtain ⟨c, hc⟩ := SortedSet.isEmpty_eq_false_iff.mp hne
  have hempty := denotesMembers_eq_empty h
  exact Set.notMem_empty c (hempty ▸ hc)

/-- The tokens are those of a whole class, or of the part of one that the reader is in. -/
inductive ReadsClass (registry : Registry) : List Token → Focus → Prop
  | whole {ts : List Token} {s : CharSet} (h : DenotesClass registry ts {c | c ∈ s}) :
      ReadsClass registry ts (.items (.atom (.oneOf s)))
  | part {ts : List Token} {focus : Focus} (h : ReadFocus registry ts focus)
      (hfocus : ∀ last, focus ≠ .items last) : ReadsClass registry ts focus

theorem ReadsClass.readFocus {ts : List Token} {focus : Focus} (h : ReadsClass registry ts focus) :
    ReadFocus registry ts focus := by
  cases h with
  | whole h => exact .items (.some (by simp) (.charClass h))
  | part h => exact h

theorem readsClass_oneOf {ts : List Token} {s : CharSet} {u : Set Char}
    (h : DenotesClass registry ts u) (hu : u = {c | c ∈ s}) :
    ReadsClass registry ts (.items (.atom (.oneOf s))) := by
  subst hu
  exact .whole h

theorem setOf_mem_difference (s e : CharSet) :
    ({c | c ∈ s} : Set Char) \ {c | c ∈ e} = {c | c ∈ s.difference e} := by
  ext c
  simp

theorem ReadPurpose.complete {ts us : List Token} {purpose : Purpose} {m : Members} {t : Token}
    (hts : ReadPurpose ts purpose) (hus : ReadMembers us m) (hm : ¬ m.IsRange)
    (hne : m.set.isEmpty = false) (ht : t.kind = .closeBracket) :
    ReadsClass registry (ts ++ us ++ [t]) (purpose.complete m.set) := by
  have hden := hus.denotes hm
  have hus' := ne_nil_of_set_nonempty hden hne
  cases hts with
  | listed ho => exact readsClass_oneOf (.bracket (.mk ho hden hus' ht)) rfl
  | excluded ho hn => exact .part (.excluded ho hn hden hus' ht) nofun
  | @operand o n c i p vs e ho hn hvs hvs' hc hi hp =>
      have hclass : DenotesClass registry _ _ := .exclusion ho hn hvs hvs' hc hi
        (.bracket (.mk hp hden hus' ht))
      refine readsClass_oneOf ?_ (setOf_mem_difference m.set e)
      simpa using hclass

theorem ReadFocus.move {ts : List Token} {outer : List Regex} {here : Regex} {focus : Focus}
    {t : Token} {r : Reader} (h : ReadFocus registry ts focus)
    (hfocus : ∀ last, focus ≠ .items last) (hm : Reader.Move registry ⟨outer, here, focus⟩ t r) :
    ReadsClass registry (ts ++ [t]) r.focus := by
  cases hm with
  | caret ht =>
      cases h with
      | @opened o ho =>
          have hmembers : ReadFocus registry ([o, t] ++ []) (.members .excluded (.ready ∅)) :=
            .members (.excluded ho ht) (.ready denotesMembers_nil)
          exact .part hmembers nofun
  | member hf hm =>
      obtain ⟨us, vs, rfl, hus, hvs⟩ := h.atMembers hf
      refine .part ?_ nofun
      rw [List.append_assoc]
      exact .members hus (hvs.move hm)
  | closeBracket hf ht hm hne =>
      obtain ⟨us, vs, rfl, hus, hvs⟩ := h.atMembers hf
      exact hus.complete hvs hm hne ht
  | inWord ht =>
      cases h with
      | excluded ho hn hus hne hc =>
          refine .part ?_ nofun
          rw [List.append_assoc]
          exact .operand ho hn hus hne hc ht
  | operandBracket ht =>
      cases h with
      | operand ho hn hus hne hc hi =>
          refine .part ?_ nofun
          rw [List.append_assoc]
          exact .operandOpened ho hn hus hne hc hi ht
  | @operandReference _ _ e s _ x ht hx hs =>
      cases h with
      | operand ho hn hus hne hc hi =>
          refine readsClass_oneOf ?_ (setOf_mem_difference s e)
          exact .exclusion ho hn hus hne hc hi (.reference ht hx hs)
  | _ => exact absurd rfl (hfocus _)

/-- What has been read around the innermost group. -/
inductive ReadOuter (registry : Registry) : List Token → List Regex → Prop
  | nil : ReadOuter registry [] []
  | cons {ts us : List Token} {outer : List Regex} {before : Regex} {t : Token}
      (hts : ReadOuter registry ts outer) (hus : Spells registry us before.branches)
      (ht : t.kind = .openGroup) : ReadOuter registry (ts ++ us ++ [t]) (before :: outer)

namespace Reader

def Read (registry : Registry) (ts : List Token) (r : Reader) : Prop :=
  ∃ us vs ws, ts = us ++ vs ++ ws ∧ ReadOuter registry us r.outer ∧
    Spells registry vs r.here.branches ∧ ReadFocus registry ws r.focus

theorem denotes_of_tokenAtom {t : Token} {a : Atom} (h : TokenAtom registry t a) :
    Denotes registry .atom [t] a.language := by
  cases h with
  | literal ht hc => exact .literal ht hc
  | dot ht => exact .charClass (.dot ht)
  | reference ht hx => exact .reference ht hx

/-- Between items nothing but an item may be pending. -/
theorem Read.settled {ts : List Token} {outer : List Regex} {here : Regex} {last : Pending}
    (h : Read registry ts ⟨outer, here, .items last⟩) :
    ∃ us vs, ts = us ++ vs ∧ ReadOuter registry us outer ∧
      Spells registry vs (last.settle here none).branches := by
  obtain ⟨us, vs, ws, rfl, hus, hvs, hws⟩ := h
  cases hws with
  | items hlast => exact ⟨us, vs ++ ws, List.append_assoc .., hus, hlast.settle hvs⟩

theorem Read.repetition {ts : List Token} {outer : List Regex} {here : Regex} {last : Pending}
    {t : Token} {times : Repetition} (h : Read registry ts ⟨outer, here, .items last⟩)
    (hlast : last ≠ .none)
    (hitem : ∀ us l, Denotes registry .atom us l →
      Denotes registry .item (us ++ [t]) (repeated l (some times))) :
    Read registry (ts ++ [t]) ⟨outer, last.settle here (some times), .items .none⟩ := by
  obtain ⟨us, vs, ws, rfl, hus, hvs, hws⟩ := h
  cases hws with
  | items hread =>
      cases hread with
      | none => exact absurd rfl hlast
      | some _ hatom =>
          refine ⟨us, vs ++ (ws ++ [t]), [], by simp, hus, ?_, .items .none⟩
          rw [branches_settle hlast]
          exact hvs.append (hitem ws _ hatom)

theorem Read.within {ts : List Token} {outer : List Regex} {here : Regex} {focus : Focus}
    {t : Token} {r : Reader} (h : Read registry ts ⟨outer, here, focus⟩)
    (hfocus : ∀ last, focus ≠ .items last) (hm : Move registry ⟨outer, here, focus⟩ t r) :
    Read registry (ts ++ [t]) r := by
  obtain ⟨us, vs, ws, rfl, hus, hvs, hws⟩ := h
  obtain ⟨focus', rfl, -⟩ := hm.only_focus hfocus
  exact ⟨us, vs, ws ++ [t], by simp, hus, hvs, (hws.move hfocus hm).readFocus⟩

theorem Read.step {ts : List Token} {r r' : Reader} {t : Token} (h : Read registry ts r)
    (hm : Move registry r t r') : Read registry (ts ++ [t]) r' := by
  -- tokens move from the focus to the branches and from there to the outer regexes, in order
  cases hm with
  | atom ha =>
      obtain ⟨us, vs, rfl, hus, hvs⟩ := h.settled
      exact ⟨us, vs, [t], rfl, hus, hvs, .items (.some (by simp) (denotes_of_tokenAtom ha))⟩
  | openBracket ht =>
      obtain ⟨us, vs, rfl, hus, hvs⟩ := h.settled
      exact ⟨us, vs, [t], rfl, hus, hvs, .opened ht⟩
  | openGroup ht =>
      obtain ⟨us, vs, rfl, hus, hvs⟩ := h.settled
      exact ⟨us ++ vs ++ [t], [], [], by simp, .cons hus hvs ht, .nil, .items .none⟩
  | closeGroup ht =>
      obtain ⟨us, vs, rfl, hus, hvs⟩ := h.settled
      cases hus with
      | @cons us₀ us₁ _ _ o hus₀ hus₁ ho =>
          refine ⟨us₀, us₁, o :: vs ++ [t], by simp, hus₀, hus₁, ?_⟩
          exact .items (.some (by simp) (.group ho hvs.regex ht))
  | bar ht =>
      obtain ⟨us, vs, rfl, hus, hvs⟩ := h.settled
      exact ⟨us, vs ++ [t], [], by simp, hus, hvs.alternate ht, .items .none⟩
  | star hlast ht => exact h.repetition hlast fun us l hus => .star hus ht
  | plus hlast ht => exact h.repetition hlast fun us l hus => .plus hus ht
  | caret ht => exact h.within nofun (.caret ht)
  | member hf hm => exact h.within hf.ne_items (.member hf hm)
  | closeBracket hf ht hm hne => exact h.within hf.ne_items (.closeBracket hf ht hm hne)
  | inWord ht => exact h.within nofun (.inWord ht)
  | operandBracket ht => exact h.within nofun (.operandBracket ht)
  | operandReference ht hx hs => exact h.within nofun (.operandReference ht hx hs)

theorem read_initial : Read registry [] initial :=
  ⟨[], [], [], rfl, .nil, .nil, .items .none⟩

theorem read_of_foldlM {ts : List Token} {r : Reader}
    (h : ts.foldlM (step registry) initial = .ok r) : Read registry ts r := by
  refine foldlM_induction (P := Read registry) read_initial ?_ h
  intro us s t s' hs hstep
  exact hs.step (step_eq_ok_iff.mp hstep)

theorem finish_eq_ok_iff {r : Reader} {stop : Position} {x : Regex} :
    r.finish stop = .ok x ↔
      ∃ here last, r = ⟨[], here, .items last⟩ ∧ x = last.settle here none := by
  obtain ⟨outer, here, focus⟩ := r
  cases focus with
  | items last =>
      cases outer with
      | nil => simp [finish, unfinished?, regex, eq_comm]
      | cons before outer => simp [finish, unfinished?]
  | members purpose m => cases m <;> simp [finish, unfinished?]
  | _ => simp [finish, unfinished?]

end Reader

/-- What the reader makes of some tokens denotes what they spell. -/
theorem denotes_of_ofTokens {origin : Position} {ts : List Token} {r : Regex}
    (h : ofTokens registry origin ts = .ok r) : Denotes registry .regex ts r.language := by
  obtain ⟨s, hs, hfinish⟩ := bind_eq_ok_iff.mp h
  obtain ⟨here, last, rfl, rfl⟩ := Reader.finish_eq_ok_iff.mp hfinish
  obtain ⟨us, vs, rfl, hus, hvs⟩ := (Reader.read_of_foldlM hs).settled
  cases hus with
  | nil => exact hvs.regex

end LanguageSpec.Regex
