import LanguageSpec.Proofs.Except
import LanguageSpec.Proofs.Grammar.Range

/-!
# First and follow sets with checked numbers

The computation of first and follow sets once more, with lists that are indexed: a number that goes
beyond a list brings everything to a halt. On well-numbered productions no computation is halted,
and the results are the same.
-/

namespace LanguageSpec

namespace Checked

/-- What ends a computation early: a number beyond a list, or an error that is reported. -/
inductive Halt where
  | outOfRange
  | refused (e : Error)
deriving DecidableEq

def fetch {α : Type} (l : List α) (i : Nat) : Except Halt α :=
  match l[i]? with
  | some a => .ok a
  | none => .error .outOfRange

/-- Passes that can be halted, as long as they tell of a change. -/
def settle {φ : Type} (pass : φ → Except Halt (φ × Bool)) : Nat → φ → Except Halt φ
  | 0, x => .ok x
  | bound + 1, x => do
    let r ← pass x
    if r.2 then settle pass bound r.1 else return r.1

/-! ## First sets -/

def ofSequence (f : FirstFamily) : List SymbolId → Except Halt FirstSet
  | [] => .ok ⟨∅, true⟩
  | .terminal t :: _ => .ok ⟨SortedSet.ofList [t], false⟩
  | .nonTerminal n :: rest => do
    let s ← fetch f n
    if s.epsilon then
      let r ← ofSequence f rest
      return ⟨s.terminals.union r.terminals, r.epsilon⟩
    else return s

def visitFirst (r : FirstFamily × Bool) (p : Production) : Except Halt (FirstFamily × Bool) := do
  let s ← ofSequence r.1 p.body
  let old ← fetch r.1 p.head
  return (r.1.set p.head (old.union s), r.2 || !old.covers s)

def firstPass (g : Grammar) (f : FirstFamily) : Except Halt (FirstFamily × Bool) :=
  g.productions.foldlM visitFirst (f, false)

def firstSets (g : Grammar) : Except Halt FirstFamily :=
  settle (firstPass g) (g.firstBound g.emptyFirst) g.emptyFirst

/-! ## Follow sets -/

def contribution (first : FirstFamily) (f : FollowFamily) (o : Occurrence) :
    Except Halt (SortedSet Nat) := do
  let s ← ofSequence first o.behind
  if s.epsilon then
    let behind ← fetch f o.head
    return s.terminals.union behind
  else return s.terminals

def visitFollow (first : FirstFamily) (r : FollowFamily × Bool) (o : Occurrence) :
    Except Halt (FollowFamily × Bool) := do
  let s ← contribution first r.1 o
  let old ← fetch r.1 o.nonTerminal
  return (r.1.set o.nonTerminal (old.union s), r.2 || !s.isSubset old)

def followPass (g : Grammar) (first : FirstFamily) (f : FollowFamily) :
    Except Halt (FollowFamily × Bool) :=
  g.occurrences.foldlM (visitFollow first) (f, false)

def startFollow (g : Grammar) : Except Halt FollowFamily :=
  match g.start? with
  | some n => do
    let s ← fetch g.emptyFollow n
    return g.emptyFollow.set n (s.insert g.endIndex)
  | none => .ok g.emptyFollow

def followSets (g : Grammar) (first : FirstFamily) : Except Halt FollowFamily := do
  let f ← startFollow g
  settle (followPass g first) (g.followBound first f) f

/-- First and follow sets, and the first sets of all bodies by the numbers of the rules. -/
def compute (g : Grammar) : Except Halt (Lookahead × List FirstSet) := do
  let first ← firstSets g
  let follow ← followSets g first
  let bodies ← g.productions.mapM fun p => ofSequence first p.body
  return (⟨first, follow⟩, bodies)

/-! ## Nothing is halted -/

section Runs

variable {α σ : Type}

theorem exists_getElem? {l : List α} {i : Nat} (h : i < l.length) : ∃ a, l[i]? = some a :=
  ⟨_, List.getElem?_eq_getElem h⟩

theorem fetch_eq_ok_iff {l : List α} {i : Nat} {a : α} : fetch l i = .ok a ↔ l[i]? = some a := by
  rw [fetch]
  cases l[i]? <;> simp

theorem fetch_eq_getD {l : List α} {i : Nat} (h : i < l.length) (d : α) :
    fetch l i = .ok (l.getD i d) := by
  rw [fetch_eq_ok_iff, List.getElem?_eq_getElem h, List.getD_eq_getElem _ _ h]

theorem set_eq_modify {l : List α} {i : Nat} (h : i < l.length) (d : α) (f : α → α) :
    l.set i (f (l.getD i d)) = l.modify i f := by
  rw [List.modify_eq_set_getElem?, List.getElem?_eq_getElem h, List.getD_eq_getElem _ _ h]
  rfl

theorem settle_eq_ok {pass : σ → Except Halt (σ × Bool)} {next : σ → σ × Bool} {P : σ → Prop}
    (h : ∀ x, P x → pass x = .ok (next x) ∧ P (next x).1) (bound : Nat) {x : σ} (hx : P x) :
    settle pass bound x = .ok (LanguageSpec.settle next bound x) ∧
      P (LanguageSpec.settle next bound x) := by
  induction bound generalizing x with
  | zero => exact ⟨rfl, hx⟩
  | succ bound ih =>
      obtain ⟨hpass, hnext⟩ := h x hx
      simp only [settle, LanguageSpec.settle, hpass, ok_bind]
      cases (next x).2 with
      | false => exact ⟨rfl, hnext⟩
      | true => exact ih hnext

end Runs

section Sets

variable {g : Grammar}

/-- A family with a set for every non-terminal. -/
def Complete {ν : Type} (g : Grammar) (f : List ν) : Prop := f.length = g.nonTerminals.length

theorem fetch_of_complete {ν : Type} {f : List ν} (hf : Complete g f) {n : Nat}
    (hn : n < g.nonTerminals.length) (d : ν) : fetch f n = .ok (f.getD n d) :=
  fetch_eq_getD (by rwa [hf]) d

theorem ofSequence_eq_ok {f : FirstFamily} (hf : Complete g f) {l : List SymbolId}
    (hl : ∀ n, .nonTerminal n ∈ l → n < g.nonTerminals.length) :
    ofSequence f l = .ok (f.ofSequence l) := by
  induction l with
  | nil => rfl
  | cons s l ih =>
      cases s with
      | terminal t => rfl
      | nonTerminal n =>
          have hlt := hl n List.mem_cons_self
          have hfetch : fetch f n = .ok (f.get n) := fetch_of_complete hf hlt .empty
          have hrest := ih fun m hm => hl m (List.mem_cons_of_mem _ hm)
          rw [ofSequence, hfetch, ok_bind]
          cases heps : (f.get n).epsilon with
          | false =>
              rw [FirstFamily.ofSequence_nonTerminal_of_not_epsilon heps]
              rfl
          | true =>
              rw [FirstFamily.ofSequence_nonTerminal_of_epsilon heps, hrest]
              rfl

theorem visitFirst_eq_ok (h : g.WellNumbered) {r : FirstFamily × Bool} {p : Production}
    (hp : p ∈ g.productions) (hr : Complete g r.1) :
    visitFirst r p = .ok (FirstFamily.visit r p) ∧ Complete g (FirstFamily.visit r p).1 := by
  have hbody := ofSequence_eq_ok hr (h.nonTerminal_lt p hp)
  have hhead := fetch_of_complete hr (h.head_lt p hp) FirstSet.empty
  have hset := set_eq_modify (hr ▸ h.head_lt p hp) FirstSet.empty
    fun s => s.union (r.1.ofSequence p.body)
  constructor
  · rw [visitFirst, hbody, ok_bind, hhead, ok_bind, hset]
    rfl
  · exact (List.length_modify _ _ _).trans hr

theorem firstPass_eq_ok (h : g.WellNumbered) {f : FirstFamily} (hf : Complete g f) :
    firstPass g f = .ok (g.firstPass f) ∧ Complete g (g.firstPass f).1 :=
  foldlM_eq_ok (P := fun r : FirstFamily × Bool => Complete g r.1)
    (fun _ _ hp hr => visitFirst_eq_ok h hp hr) hf

theorem firstSets_eq_ok (h : g.WellNumbered) :
    firstSets g = .ok g.firstSets ∧ Complete g g.firstSets :=
  settle_eq_ok (fun _ hf => firstPass_eq_ok h hf) _ (List.length_map _)

theorem contribution_eq_ok (h : g.WellNumbered) {first : FirstFamily} (hfirst : Complete g first)
    {f : FollowFamily} (hf : Complete g f) {o : Occurrence} (ho : o ∈ g.occurrences) :
    contribution first f o = .ok (o.contribution first f) := by
  obtain ⟨p, hp, hhead, x, hbody⟩ := Grammar.mem_occurrences_iff.mp ho
  have hbehind : ofSequence first o.behind = .ok (first.ofSequence o.behind) := by
    apply ofSequence_eq_ok hfirst
    intro n hn
    apply h.nonTerminal_lt p hp
    rw [hbody]
    exact List.mem_append_right x (List.mem_cons_of_mem _ hn)
  have hget : fetch f o.head = .ok (f.get o.head) :=
    fetch_of_complete hf (hhead ▸ h.head_lt p hp) ∅
  simp only [contribution, Occurrence.contribution, hbehind, hget, ok_bind]
  split <;> rfl

theorem visitFollow_eq_ok (h : g.WellNumbered) {first : FirstFamily} (hfirst : Complete g first)
    {r : FollowFamily × Bool} {o : Occurrence} (ho : o ∈ g.occurrences) (hr : Complete g r.1) :
    visitFollow first r o = .ok (o.visit first r) ∧ Complete g (o.visit first r).1 := by
  have hlt := h.occurrence_lt ho
  have hnonTerminal := fetch_of_complete hr hlt (∅ : SortedSet Nat)
  have hset := set_eq_modify (hr ▸ hlt) ∅ fun s => s.union (o.contribution first r.1)
  constructor
  · rw [visitFollow, contribution_eq_ok h hfirst hr ho, ok_bind, hnonTerminal, ok_bind, hset]
    rfl
  · exact (List.length_modify _ _ _).trans hr

theorem startFollow_eq_ok (h : g.WellNumbered) : startFollow g = .ok g.startFollow := by
  rw [startFollow, Grammar.startFollow]
  cases hstart : g.start? with
  | none => rfl
  | some n =>
      have hcomplete : Complete g g.emptyFollow := List.length_map _
      have hlt := Grammar.start_lt h hstart
      have hset := set_eq_modify (hcomplete ▸ hlt) ∅ fun s => s.insert g.endIndex
      have hfetch := fetch_of_complete hcomplete hlt (∅ : SortedSet Nat)
      simp only [hfetch, ok_bind, hset]
      rfl

theorem followPass_eq_ok (h : g.WellNumbered) {first : FirstFamily} (hfirst : Complete g first)
    {f : FollowFamily} (hf : Complete g f) :
    followPass g first f = .ok (g.followPass first f) ∧ Complete g (g.followPass first f).1 :=
  foldlM_eq_ok (P := fun r : FollowFamily × Bool => Complete g r.1)
    (fun _ _ ho hr => visitFollow_eq_ok h hfirst ho hr) hf

theorem followSets_eq_ok (h : g.WellNumbered) {first : FirstFamily} (hfirst : Complete g first) :
    followSets g first = .ok (g.followSets first) ∧ Complete g (g.followSets first) := by
  rw [followSets, startFollow_eq_ok h, ok_bind]
  exact settle_eq_ok (fun _ hf => followPass_eq_ok h hfirst hf) _ g.length_startFollow

/-- On well-numbered productions the sets are computed without a halt. -/
theorem compute_eq_ok (h : g.WellNumbered) : compute g =
    .ok (.ofGrammar g, g.productions.map (Lookahead.ofGrammar g).ofProduction) := by
  obtain ⟨hfirst, hcomplete⟩ := firstSets_eq_ok h
  have hbodies : g.productions.mapM (fun p => ofSequence g.firstSets p.body) =
      .ok (g.productions.map (Lookahead.ofGrammar g).ofProduction) :=
    mapM_eq_ok fun p hp => ofSequence_eq_ok hcomplete (h.nonTerminal_lt p hp)
  rw [compute, hfirst, ok_bind, (followSets_eq_ok h hcomplete).1, ok_bind, hbodies]
  rfl

theorem complete_follow (h : g.WellNumbered) : Complete g (Lookahead.ofGrammar g).follow :=
  (followSets_eq_ok h (firstSets_eq_ok h).2).2

end Sets

end Checked

end LanguageSpec
