import LanguageSpec.Grammar.First
import LanguageSpec.Proofs.Grammar.Derivation
import LanguageSpec.Proofs.Grammar.Numbering
import LanguageSpec.Proofs.Grammar.Passes

/-!
# First sets are exact

First sets hold nothing but what derivations show, at every moment of their computation. When they
are closed under all rules they hold everything that derivations show.
-/

namespace LanguageSpec

open Rewriting (Begins Vanishes)

namespace Grammar

/-- The productions of a grammar as rules to rewrite symbols by. -/
def Expands (g : Grammar) (s : SymbolId) (body : List SymbolId) : Prop :=
  ∃ p ∈ g.productions, s = .nonTerminal p.head ∧ body = p.body

def Derives (g : Grammar) (l m : List SymbolId) : Prop := Rewriting.Derives g.Expands l m

variable {g : Grammar} {p : Production} {t n : Nat}

theorem expands_of_mem (hp : p ∈ g.productions) : g.Expands (.nonTerminal p.head) p.body :=
  ⟨p, hp, rfl, rfl⟩

theorem not_expands_terminal {body : List SymbolId} : ¬ g.Expands (.terminal t) body := by
  rintro ⟨p, -, h, -⟩
  cases h

theorem not_vanishes_terminal {rest : List SymbolId} :
    ¬ Vanishes g.Expands (.terminal t :: rest) := by
  intro h
  obtain ⟨body, hbody, -⟩ := h.head
  exact not_expands_terminal hbody

end Grammar

namespace FirstSet

def weight (s : FirstSet) : Nat := s.terminals.size + s.epsilon.toNat

theorem union_eq_self {s t : FirstSet} (h : s.covers t = true) : s.union t = s := by
  obtain ⟨hterminals, hepsilon⟩ := covers_eq_true_iff.mp h
  have heps : (s.epsilon || t.epsilon) = s.epsilon := by
    cases ht : t.epsilon with
    | false => exact Bool.or_false _
    | true => rw [hepsilon ht, Bool.true_or]
  rw [union, heps, SortedSet.union_eq_self hterminals]

theorem weight_lt_union {s t : FirstSet} (h : s.covers t = false) :
    s.weight < (s.union t).weight := by
  have hopen : ¬ ((∀ a ∈ t.terminals, a ∈ s.terminals) ∧
      (t.epsilon = true → s.epsilon = true)) := by
    rw [← covers_eq_true_iff, h]
    exact Bool.false_ne_true
  by_cases hterminals : ∀ a ∈ t.terminals, a ∈ s.terminals
  · have hepsilon : t.epsilon = true ∧ s.epsilon = false := by
      cases ht : t.epsilon <;> cases hs : s.epsilon <;> simp_all
    have hsize := SortedSet.size_le_union (s := s.terminals) (t := t.terminals)
    rw [weight, weight, union, hepsilon.1, hepsilon.2]
    simp only [Bool.or_true, Bool.toNat_true, Bool.toNat_false]
    omega
  · have hnew : ∃ a ∈ t.terminals, ¬ a ∈ s.terminals := by simpa using hterminals
    obtain ⟨a, ha, hnew⟩ := hnew
    have hsize := SortedSet.size_lt_union ha hnew
    have hepsilon : s.epsilon.toNat ≤ (s.epsilon || t.epsilon).toNat := by
      cases s.epsilon <;> cases t.epsilon <;> decide
    change s.terminals.size + s.epsilon.toNat <
      (s.terminals.union t.terminals).size + (s.epsilon || t.epsilon).toNat
    omega

end FirstSet

namespace FirstFamily

variable {f : FirstFamily} {t n : Nat}

def grow (f : FirstFamily) (p : Production) : FirstFamily :=
  f.modify p.head (·.union (f.ofSequence p.body))

def isClosed (f : FirstFamily) (p : Production) : Bool :=
  (f.get p.head).covers (f.ofSequence p.body)

theorem get_grow (f : FirstFamily) (p : Production) (n : Nat) :
    (f.grow p).get n =
      if p.head = n ∧ n < f.length then (f.get n).union (f.ofSequence p.body) else f.get n := by
  rw [get, grow, getD_modify]
  rfl

@[simp] theorem length_grow (f : FirstFamily) (p : Production) : (f.grow p).length = f.length :=
  List.length_modify ..

theorem mem_get_grow {p : Production} (h : t ∈ ((f.grow p).get n).terminals) :
    t ∈ (f.get n).terminals ∨ p.head = n ∧ t ∈ (f.ofSequence p.body).terminals := by
  rw [get_grow] at h
  split at h
  · rename_i hn
    rcases SortedSet.mem_union.mp h with h | h
    · exact Or.inr ⟨hn.1, h⟩
    · exact Or.inl h
  · exact Or.inl h

theorem epsilon_get_grow {p : Production} (h : ((f.grow p).get n).epsilon = true) :
    (f.get n).epsilon = true ∨ p.head = n ∧ (f.ofSequence p.body).epsilon = true := by
  rw [get_grow] at h
  split at h
  · rename_i hn
    rcases (Bool.or_eq_true_iff ..).mp h with h | h
    · exact Or.inl h
    · exact Or.inr ⟨hn.1, h⟩
  · exact Or.inl h

theorem grow_eq_self {p : Production} (h : f.isClosed p = true) : f.grow p = f :=
  modify_eq_self .empty (FirstSet.union_eq_self h)

theorem ofSequence_nonTerminal_of_epsilon (h : (f.get n).epsilon = true) (rest : List SymbolId) :
    f.ofSequence (.nonTerminal n :: rest) =
      ⟨(f.get n).terminals.union (f.ofSequence rest).terminals, (f.ofSequence rest).epsilon⟩ := by
  simp [ofSequence, h]

theorem ofSequence_nonTerminal_of_not_epsilon (h : (f.get n).epsilon = false)
    (rest : List SymbolId) : f.ofSequence (.nonTerminal n :: rest) = f.get n := by
  simp [ofSequence, h]

theorem ofSequence_single (f : FirstFamily) (n : Nat) :
    f.ofSequence [.nonTerminal n] = f.get n := by
  cases h : (f.get n).epsilon with
  | false => exact ofSequence_nonTerminal_of_not_epsilon h []
  | true =>
      rw [ofSequence_nonTerminal_of_epsilon h, ofSequence, ← h]
      rfl

theorem mem_ofSequence {l : List SymbolId} (h : t ∈ (f.ofSequence l).terminals) :
    .terminal t ∈ l ∨ ∃ n, t ∈ (f.get n).terminals := by
  induction l with
  | nil => exact absurd h (SortedSet.not_mem_empty t)
  | cons s rest ih =>
      cases s with
      | terminal u =>
          have hu : t = u := by simpa [ofSequence] using h
          exact Or.inl (by simp [hu])
      | nonTerminal n =>
          cases hn : (f.get n).epsilon with
          | false =>
              rw [ofSequence_nonTerminal_of_not_epsilon hn] at h
              exact Or.inr ⟨n, h⟩
          | true =>
              rw [ofSequence_nonTerminal_of_epsilon hn] at h
              rcases SortedSet.mem_union.mp h with h | h
              · exact (ih h).imp_left (List.mem_cons_of_mem _)
              · exact Or.inr ⟨n, h⟩

/-! ## Soundness -/

/-- A family holds nothing but what derivations show. -/
structure Sound (g : Grammar) (f : FirstFamily) : Prop where
  begins : ∀ n t, t ∈ (f.get n).terminals → Begins g.Expands (.terminal t) [.nonTerminal n]
  vanishes : ∀ n, (f.get n).epsilon = true → Vanishes g.Expands [.nonTerminal n]

namespace Sound

variable {g : Grammar}

theorem ofSequence_vanishes (h : Sound g f) {l : List SymbolId}
    (hl : (f.ofSequence l).epsilon = true) : Vanishes g.Expands l := by
  induction l with
  | nil => exact .nil
  | cons s rest ih =>
      cases s with
      | terminal u => simp [ofSequence] at hl
      | nonTerminal n =>
          cases hn : (f.get n).epsilon with
          | false => simp [ofSequence_nonTerminal_of_not_epsilon hn, hn] at hl
          | true =>
              rw [ofSequence_nonTerminal_of_epsilon hn] at hl
              exact (h.vanishes n hn).append (ih hl)

theorem ofSequence_begins (h : Sound g f) {l : List SymbolId}
    (hl : t ∈ (f.ofSequence l).terminals) : Begins g.Expands (.terminal t) l := by
  induction l with
  | nil => exact absurd hl (SortedSet.not_mem_empty t)
  | cons s rest ih =>
      cases s with
      | terminal u =>
          have hu : t = u := by simpa [ofSequence] using hl
          rw [hu]
          exact .here rest
      | nonTerminal n =>
          cases hn : (f.get n).epsilon with
          | false =>
              rw [ofSequence_nonTerminal_of_not_epsilon hn] at hl
              exact (h.begins n t hl).append_right rest
          | true =>
              rw [ofSequence_nonTerminal_of_epsilon hn] at hl
              rcases SortedSet.mem_union.mp hl with hl | hl
              · exact .skip (h.vanishes n hn) (ih hl)
              · exact (h.begins n t hl).append_right rest

theorem grow (h : Sound g f) {p : Production} (hp : p ∈ g.productions) : Sound g (f.grow p) := by
  refine ⟨?_, ?_⟩
  · intro n t ht
    rcases mem_get_grow ht with hold | ⟨rfl, hnew⟩
    · exact h.begins n t hold
    · exact .rule [] (Grammar.expands_of_mem hp) (h.ofSequence_begins hnew)
  · intro n hn
    rcases epsilon_get_grow hn with hold | ⟨rfl, hnew⟩
    · exact h.vanishes n hold
    · exact .single (Grammar.expands_of_mem hp) (h.ofSequence_vanishes hnew)

end Sound

/-! ## Completeness -/

def Closed (g : Grammar) (f : FirstFamily) : Prop := ∀ p ∈ g.productions, f.isClosed p = true

namespace Closed

variable {g : Grammar}

theorem mem (h : Closed g f) {p : Production} (hp : p ∈ g.productions)
    (ht : t ∈ (f.ofSequence p.body).terminals) : t ∈ (f.get p.head).terminals :=
  (FirstSet.covers_eq_true_iff.mp (h p hp)).1 t ht

theorem epsilon (h : Closed g f) {p : Production} (hp : p ∈ g.productions)
    (he : (f.ofSequence p.body).epsilon = true) : (f.get p.head).epsilon = true :=
  (FirstSet.covers_eq_true_iff.mp (h p hp)).2 he

theorem ofSequence_epsilon (h : Closed g f) {l : List SymbolId} (hl : Vanishes g.Expands l) :
    (f.ofSequence l).epsilon = true := by
  induction hl with
  | nil => rfl
  | cons hrule _ _ ihbody ihrest =>
      obtain ⟨p, hp, rfl, rfl⟩ := hrule
      rw [ofSequence_nonTerminal_of_epsilon (h.epsilon hp ihbody)]
      exact ihrest

theorem mem_ofSequence (h : Closed g f) {l : List SymbolId}
    (hl : Begins g.Expands (.terminal t) l) : t ∈ (f.ofSequence l).terminals := by
  induction hl with
  | here rest => simp [ofSequence]
  | rule rest hrule _ ih =>
      obtain ⟨p, hp, rfl, rfl⟩ := hrule
      have hmem := h.mem hp ih
      cases hn : (f.get p.head).epsilon with
      | false => rwa [ofSequence_nonTerminal_of_not_epsilon hn]
      | true =>
          rw [ofSequence_nonTerminal_of_epsilon hn]
          exact SortedSet.mem_union.mpr (Or.inr hmem)
  | @skip s rest hs _ ih =>
      cases s with
      | terminal u => exact absurd hs Grammar.not_vanishes_terminal
      | nonTerminal n =>
          obtain ⟨_, ⟨p, hp, hn, rfl⟩, hbody⟩ := hs.head
          cases hn
          rw [ofSequence_nonTerminal_of_epsilon (h.epsilon hp (h.ofSequence_epsilon hbody))]
          exact SortedSet.mem_union.mpr (Or.inl ih)

end Closed

end FirstFamily

namespace Grammar

open FirstFamily (Sound Closed)

variable {g : Grammar} {f : FirstFamily} {p : Production} {t n : Nat}

/-! ## Convergence -/

theorem firstPass_eq (g : Grammar) (f : FirstFamily) : g.firstPass f =
    g.productions.foldl (visit FirstFamily.grow FirstFamily.isClosed) (f, false) := rfl

def terminalNumber? : SymbolId → Option Nat
  | .terminal t => some t
  | .nonTerminal _ => none

def bodyNumbers (g : Grammar) : List Nat := g.productions.flatMap (·.body.filterMap terminalNumber?)

theorem mem_bodyNumbers (hp : p ∈ g.productions) (ht : .terminal t ∈ p.body) :
    t ∈ g.bodyNumbers := by
  refine List.mem_flatMap.mpr ⟨p, hp, ?_⟩
  exact List.mem_filterMap.mpr ⟨.terminal t, ht, rfl⟩

theorem length_bodyNumbers (g : Grammar) : g.bodyNumbers.length = g.totalTerminals := by
  symm
  apply weigh_eq_length_flatMap
  intro p _
  rw [terminalCount]
  induction p.body with
  | nil => rfl
  | cons s rest ih => cases s <;> simp [terminalNumber?, List.filterMap_cons, ih]

/-- The terminals that can come into a family. -/
def firstSupply (g : Grammar) (f : FirstFamily) : List Nat :=
  g.bodyNumbers ++ f.flatMap (·.terminals.toList)

theorem length_firstSupply (g : Grammar) (f : FirstFamily) :
    (g.firstSupply f).length = g.totalTerminals + weigh (fun s => s.terminals.size) f := by
  rw [firstSupply, List.length_append, length_bodyNumbers]
  congr 1
  symm
  exact weigh_eq_length_flatMap _ fun _ _ => rfl

theorem mem_firstSupply (h : t ∈ (f.get n).terminals) : t ∈ g.firstSupply f :=
  List.mem_append_right _ (mem_flatMap_of_getD (n := n) (d := FirstSet.empty) rfl h)

structure Supplied (g : Grammar) (f x : FirstFamily) : Prop where
  length : x.length = f.length
  mem : ∀ n t, t ∈ (x.get n).terminals → t ∈ g.firstSupply f

theorem supplied_self (g : Grammar) (f : FirstFamily) : Supplied g f f :=
  ⟨rfl, fun _ _ ht => mem_firstSupply ht⟩

theorem Supplied.grow {x : FirstFamily} (h : Supplied g f x) (hp : p ∈ g.productions) :
    Supplied g f (x.grow p) := by
  refine ⟨(FirstFamily.length_grow x p).trans h.length, ?_⟩
  intro n t ht
  rcases FirstFamily.mem_get_grow ht with ht | ⟨-, ht⟩
  · exact h.mem n t ht
  · rcases FirstFamily.mem_ofSequence ht with ht | ⟨m, ht⟩
    · exact List.mem_append_left _ (mem_bodyNumbers hp ht)
    · exact h.mem m t ht

theorem Supplied.weigh_le {x : FirstFamily} (h : Supplied g f x) :
    weigh FirstSet.weight x ≤
      f.length * (g.totalTerminals + weigh (fun s => s.terminals.size) f + 1) := by
  rw [← h.length]
  refine LanguageSpec.weigh_le (forall_mem_of_getD FirstSet.empty ?_)
  intro n
  have hsize := SortedSet.size_le (h.mem n)
  have hepsilon := Bool.toNat_le (x.get n).epsilon
  rw [length_firstSupply] at hsize
  change (x.get n).terminals.size + (x.get n).epsilon.toNat ≤ _
  omega

theorem converges_first (hheads : ∀ p ∈ g.productions, p.head < f.length) :
    Converges FirstFamily.grow FirstFamily.isClosed g.productions (Supplied g f)
      (weigh FirstSet.weight)
      (f.length * (g.totalTerminals + weigh (fun s => s.terminals.size) f + 1)) where
  keep x p hp hx := hx.grow hp
  fixed x p h := FirstFamily.grow_eq_self h
  heavier x p hp hx hopen := by
    have hlt : p.head < x.length := hx.length ▸ hheads p hp
    exact weigh_lt_modify .empty hlt (FirstSet.weight_lt_union hopen)
  limited x hx := hx.weigh_le

theorem endsWith_firstClosure (hheads : ∀ p ∈ g.productions, p.head < f.length) :
    EndsWith g.firstPass f (g.firstClosure f) := by
  refine (converges_first hheads).endsWith_settle g.firstPass_eq (supplied_self g f) ?_
  rw [firstBound]
  omega

theorem closed_firstClosure (hheads : ∀ p ∈ g.productions, p.head < f.length) :
    Closed g (g.firstClosure f) :=
  ((endsWith_firstClosure hheads).all_closed (fun _ _ h => FirstFamily.grow_eq_self h)
    g.firstPass_eq).1

theorem sound_firstClosure (hf : Sound g f) : Sound g (g.firstClosure f) :=
  settle_induction g.firstPass_eq (fun _ _ hp h => h.grow hp) hf _

/-! ## First sets -/

theorem sound_emptyFirst (g : Grammar) : Sound g g.emptyFirst := by
  have hget : ∀ n, g.emptyFirst.get n = .empty := getD_map_const g.nonTerminals FirstSet.empty
  refine ⟨?_, ?_⟩
  · intro n t ht
    rw [hget] at ht
    exact absurd ht (SortedSet.not_mem_empty t)
  · intro n hn
    rw [hget] at hn
    cases hn

theorem sound_firstSets (g : Grammar) : Sound g g.firstSets := sound_firstClosure g.sound_emptyFirst

theorem closed_firstSets (h : g.WellNumbered) : Closed g g.firstSets := by
  apply closed_firstClosure
  intro p hp
  rw [emptyFirst, List.length_map]
  exact h.head_lt p hp

theorem mem_firstSets_ofSequence_iff (h : g.WellNumbered) {l : List SymbolId} :
    t ∈ (g.firstSets.ofSequence l).terminals ↔ Begins g.Expands (.terminal t) l :=
  ⟨g.sound_firstSets.ofSequence_begins, (closed_firstSets h).mem_ofSequence⟩

theorem epsilon_firstSets_ofSequence_iff (h : g.WellNumbered) {l : List SymbolId} :
    (g.firstSets.ofSequence l).epsilon = true ↔ Vanishes g.Expands l :=
  ⟨g.sound_firstSets.ofSequence_vanishes, (closed_firstSets h).ofSequence_epsilon⟩

end Grammar

end LanguageSpec
