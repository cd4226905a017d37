import LanguageSpec.Proofs.Regex.Purity
import LanguageSpec.Proofs.Regex.Rendering

/-!
# Bracket forms are read back

The runs of a character set are members between brackets. So the bracket form of a set is a regex,
and compiling it yields the set again.
-/

namespace LanguageSpec

namespace CharSet

variable {l : List Char} {c : Char}

theorem le_iff_toNat_le {a b : Char} : a ≤ b ↔ a.toNat ≤ b.toNat := UInt32.le_iff_toNat_le

theorem le_of_mem_runs : ∀ r ∈ runs l, r.1 ≤ r.2 := by
  induction l with
  | nil => exact nofun
  | cons c cs ih =>
      rw [runs]
      cases hruns : runs cs with
      | nil => simp
      | cons r rest =>
          obtain ⟨lo, hi⟩ := r
          rw [hruns] at ih
          obtain ⟨hle, hrest⟩ := List.forall_mem_cons.mp ih
          by_cases hnext : lo.toNat = c.toNat + 1
          · simp only [if_pos hnext]
            refine List.forall_mem_cons.mpr ⟨?_, hrest⟩
            rw [le_iff_toNat_le] at hle ⊢
            dsimp only at hle ⊢
            omega
          · simp only [if_neg hnext]
            exact List.forall_mem_cons.mpr ⟨Nat.le_refl _, ih⟩

/-- A list of characters has those that its runs go over. -/
theorem exists_mem_runs_iff : (∃ r ∈ runs l, r.1 ≤ c ∧ c ≤ r.2) ↔ c ∈ l := by
  induction l with
  | nil => simp [runs]
  | cons d cs ih =>
      have hself : d ≤ c ∧ c ≤ d ↔ c = d := by
        rw [and_comm]
        exact Std.le_antisymm_iff
      rw [List.mem_cons, ← ih, runs]
      cases hruns : runs cs with
      | nil => simp [hself]
      | cons r rest =>
          obtain ⟨lo, hi⟩ := r
          by_cases hnext : lo.toNat = d.toNat + 1
          · have hmem : (lo, hi) ∈ runs cs := by simp [hruns]
            have hle : lo ≤ hi := le_of_mem_runs _ hmem
            have hjoined : d ≤ c ∧ c ≤ hi ↔ c = d ∨ lo ≤ c ∧ c ≤ hi := by
              rw [← hself]
              simp only [le_iff_toNat_le] at hle ⊢
              omega
            simp only [if_pos hnext, List.exists_mem_cons_iff, hjoined, or_assoc]
          · simp only [if_neg hnext, List.exists_mem_cons_iff, hself]

theorem ends_mem_of_mem_runs {r : Char × Char} (hr : r ∈ runs l) : r.1 ∈ l ∧ r.2 ∈ l := by
  have hle := le_of_mem_runs r hr
  constructor
  · exact exists_mem_runs_iff.mp ⟨r, hr, Std.le_refl _, hle⟩
  · exact exists_mem_runs_iff.mp ⟨r, hr, hle, Std.le_refl _⟩

/-! ## The bracket form is printable -/

theorem inAlphabet_of_mem_bracketChar {d : Char} (hd : inAlphabet d = true)
    (hc : c ∈ bracketChar d) : inAlphabet c = true := by
  unfold bracketChar at hc
  split at hc
  · rcases List.mem_pair.mp hc with rfl | rfl
    · decide
    · exact hd
  · rwa [List.mem_singleton.mp hc]

theorem inAlphabet_of_mem_runChars {r : Char × Char} (hlo : inAlphabet r.1 = true)
    (hhi : inAlphabet r.2 = true) (hc : c ∈ runChars r) : inAlphabet c = true := by
  unfold runChars at hc
  split at hc
  · exact inAlphabet_of_mem_bracketChar hlo hc
  · rcases List.mem_append.mp hc with hc | hc
    · exact inAlphabet_of_mem_bracketChar hlo hc
    · rcases List.mem_cons.mp hc with rfl | hc
      · decide
      · exact inAlphabet_of_mem_bracketChar hhi hc

theorem inAlphabet_of_mem_text {s : CharSet} (hs : ∀ c ∈ s, inAlphabet c = true)
    (hc : c ∈ s.text.toList) : inAlphabet c = true := by
  rw [text, String.toList_ofList, List.mem_append, List.mem_cons, List.mem_singleton,
    List.mem_flatMap] at hc
  rcases hc with (rfl | ⟨r, hr, hc⟩) | rfl
  · decide
  · obtain ⟨hlo, hhi⟩ := ends_mem_of_mem_runs hr
    exact inAlphabet_of_mem_runChars (hs _ hlo) (hs _ hhi) hc
  · decide

end CharSet

namespace Regex

/-! ## Runs as members -/

/-- The member that stands for a run. -/
def Member.ofRun (lo hi : Printable) (h : lo.val ≤ hi.val) : Member :=
  if lo.val = hi.val then .char lo else .range lo hi h

namespace Member

variable {lo hi : Printable} {h : lo.val ≤ hi.val}

theorem chars_ofRun :
    (ofRun lo hi h).written.flatMap Written.chars = CharSet.runChars (lo.val, hi.val) := by
  rw [ofRun, CharSet.runChars]
  by_cases heq : lo.val = hi.val
  · rw [if_pos heq, if_pos heq]
    exact List.flatMap_singleton _ _
  · rw [if_neg heq, if_neg heq]
    simp [written, Written.member, Written.chars_tight]

theorem mem_set_ofRun {c : Char} : c ∈ (ofRun lo hi h).set ↔ lo.val ≤ c ∧ c ≤ hi.val := by
  rw [ofRun]
  by_cases heq : lo.val = hi.val
  · rw [if_pos heq, ← heq]
    rw [and_comm]
    exact Std.le_antisymm_iff.symm
  · rw [if_neg heq]
    rfl

end Member

/-- Runs that ascend and end in characters of the alphabet are members between brackets. -/
theorem exists_members {rs : List (Char × Char)} (h : ∀ r ∈ rs, r.1 ≤ r.2 ∧
      CharSet.inAlphabet r.1 = true ∧ CharSet.inAlphabet r.2 = true) :
    ∃ ms : List Member,
      (ms.flatMap Member.written).flatMap Written.chars = rs.flatMap CharSet.runChars ∧
        ∀ c, (∃ m ∈ ms, c ∈ m.set) ↔ ∃ r ∈ rs, r.1 ≤ c ∧ c ≤ r.2 := by
  induction rs with
  | nil => exact ⟨[], rfl, by simp⟩
  | cons r rs ih =>
      obtain ⟨⟨hle, hlo, hhi⟩, hrs⟩ := List.forall_mem_cons.mp h
      obtain ⟨ms, hchars, hset⟩ := ih hrs
      refine ⟨.ofRun ⟨r.1, hlo⟩ ⟨r.2, hhi⟩ hle :: ms, ?_, fun c => ?_⟩
      · rw [List.flatMap_cons, List.flatMap_append, List.flatMap_cons, Member.chars_ofRun, hchars]
      · rw [List.exists_mem_cons_iff, List.exists_mem_cons_iff, Member.mem_set_ofRun, hset]

/-- The bracket form of a set is a bracket of its characters. -/
theorem exists_bracket {s : CharSet} (hne : ∃ c, c ∈ s)
    (hs : ∀ c ∈ s, CharSet.inAlphabet c = true) : ∃ b : Bracket,
      s.text = String.ofList ('[' :: b.written.flatMap Written.chars ++ [']']) ∧
        b.set = {c | c ∈ s} := by
  have hruns : ∀ r ∈ CharSet.runs s.toList, r.1 ≤ r.2 ∧
      CharSet.inAlphabet r.1 = true ∧ CharSet.inAlphabet r.2 = true := by
    intro r hr
    obtain ⟨hlo, hhi⟩ := CharSet.ends_mem_of_mem_runs hr
    exact ⟨CharSet.le_of_mem_runs r hr, hs _ hlo, hs _ hhi⟩
  obtain ⟨ms, hchars, hset⟩ := exists_members hruns
  have hmem : ∀ c, (∃ m ∈ ms, c ∈ m.set) ↔ c ∈ s := fun c =>
    (hset c).trans CharSet.exists_mem_runs_iff
  have hms : ms ≠ [] := by
    rintro rfl
    obtain ⟨c, hc⟩ := hne
    simpa using (hmem c).mpr hc
  refine ⟨⟨ms, hms⟩, ?_, Set.ext hmem⟩
  rw [CharSet.text, Bracket.written, hchars]

/-! ## Compiling the bracket form -/

/-- A bracket with nothing behind it. -/
def Bracket.closed (b : Bracket) : List Written :=
  .tight .openBracket ['['] :: b.written ++ [.tight .closeBracket [']']]

theorem Bracket.leads_closed (b : Bracket) : Leads .outside b.closed .outside := by
  obtain ⟨fresh, hmembers⟩ := leads_members b.members true false
  have hopen : Leads .outside [.tight .openBracket ['[']] (.inside true false) :=
    .tight fun _ => rfl
  have hclose : Leads (.inside fresh false) [.tight .closeBracket [']']] .outside :=
    .tight fun _ => rfl
  exact hopen.cons (hmembers.append hclose)

theorem Bracket.exists_tokens (b : Bracket) (origin : Position) : ∃ ts,
    tokens origin (String.ofList ('[' :: b.written.flatMap Written.chars ++ [']'])) = .ok ts ∧
      DenotesBracket ts b.set := by
  have hchars : b.closed.flatMap Written.chars =
      '[' :: b.written.flatMap Written.chars ++ [']'] := by
    simp [closed, Written.chars_tight]
  have hwords : b.closed.map Written.word = b.enclosed.map Written.word := by
    simp [closed, enclosed, Written.word, Written.tight, Written.apart]
  obtain ⟨ts, hts, hwritten⟩ :=
    Scanner.Leads.exists_tokens b.leads_closed .unrecognizedInRegex origin
  rw [hchars] at hts
  rw [hwords] at hwritten
  refine ⟨ts, ?_, Bracket.denotes hwritten⟩
  rw [tokens, pieces, String.toList_ofList]
  exact hts

end Regex

/-- Sets of printable characters with the same bracket form are the same. -/
theorem CharSet.eq_of_text_eq {s u : CharSet} (hs : ∃ c, c ∈ s)
    (hsalphabet : ∀ c ∈ s, inAlphabet c = true) (hu : ∃ c, c ∈ u)
    (hualphabet : ∀ c ∈ u, inAlphabet c = true) (h : s.text = u.text) : s = u := by
  obtain ⟨b, hb, hbset⟩ := Regex.exists_bracket hs hsalphabet
  obtain ⟨b', hb', hbset'⟩ := Regex.exists_bracket hu hualphabet
  obtain ⟨ts, hts, hdenotes⟩ := b.exists_tokens .first
  obtain ⟨ts', hts', hdenotes'⟩ := b'.exists_tokens .first
  rw [← hb, h, hb', hts'] at hts
  obtain rfl := Except.ok.inj hts
  have hclass : Regex.SpellsClass .empty ts' b.set := .charClass (.bracket hdenotes)
  have hequal : b.set = b'.set := hclass.unique (.charClass (.bracket hdenotes'))
  rw [hbset, hbset'] at hequal
  exact SortedSet.ext fun c => Set.ext_iff.mp hequal c

namespace Recognizer

/-- The bracket form of a set of printable characters compiles to that set, whatever is registered
and wherever the form starts. -/
theorem ofText_charSet (registry : Registry) (origin : Position) {s : CharSet}
    (hne : ∃ c, c ∈ s) (hs : ∀ c ∈ s, CharSet.inAlphabet c = true) :
    ∃ x, ofText registry origin s.text = .ok x ∧ x.charClass = some s := by
  obtain ⟨b, htext, hset⟩ := Regex.exists_bracket hne hs
  obtain ⟨ts, hts, hdenotes⟩ := b.exists_tokens origin
  have hclass : Regex.SpellsClass registry ts b.set := .charClass (.bracket hdenotes)
  obtain ⟨a, -, hregex, -⟩ := Regex.ofTokens_of_spellsClass hclass origin
  obtain ⟨x, hx⟩ := (Regex.atom .empty a none).recognizer_eq_ok (Regex.stopOf origin ts)
  have hcompiled : ofTokens registry origin ts = .ok x := bind_eq_ok_iff.mpr ⟨_, hregex, hx⟩
  obtain ⟨u, hu, hequal⟩ := (spellsClass_iff hcompiled _).mp hclass
  rw [hset] at hequal
  obtain rfl : s = u := SortedSet.ext fun c => Set.ext_iff.mp hequal c
  refine ⟨x, ?_, hu⟩
  rw [htext]
  exact bind_eq_ok_iff.mpr ⟨ts, hts, hcompiled⟩

/-- Runs of one, two and four characters, among them all that are escaped. -/
theorem ofText_charSet_escaped :
    let s : CharSet := SortedSet.ofList ['-', '[', '\\', ']', '^', ' ', '!', '0']
    (∃ c, c ∈ s) ∧ (∀ c ∈ s, CharSet.inAlphabet c = true) ∧
      ∃ x, ofText .empty .first s.text = .ok x ∧ x.charClass = some s := by
  intro s
  have hne : ∃ c, c ∈ s := ⟨'0', SortedSet.mem_ofList.mpr (by decide)⟩
  have hall : s.toList.all CharSet.inAlphabet = true := by decide +kernel
  have hs : ∀ c ∈ s, CharSet.inAlphabet c = true := List.all_eq_true.mp hall
  exact ⟨hne, hs, ofText_charSet .empty .first hne hs⟩

end Recognizer

end LanguageSpec
