import LanguageSpec.Grammar.Follow
import LanguageSpec.Proofs.Grammar.First

/-!
# Follow sets are exact

A terminal can follow a non-terminal if it stands right behind it in some list that a non-terminal
derives to, and the end marker can follow what stands last in a list that the start symbol derives
to. The rules say this of one level of a derivation only; that this is enough is proved by taking
derivations apart from their end.
-/

namespace LanguageSpec

open Rewriting (Begins Vanishes Step)

/-! ## What can follow -/

namespace Grammar

/-- The terminal `t` stands right behind the non-terminal `n` in a list that some non-terminal
derives to, or is the end marker and `n` stands last in one that the start symbol derives to. -/
def CanFollow (g : Grammar) (n t : Nat) : Prop :=
  (∃ m x y, g.Derives [.nonTerminal m] (x ++ .nonTerminal n :: .terminal t :: y)) ∨
    t = g.endIndex ∧ ∃ s x, g.start? = some s ∧ g.Derives [.nonTerminal s] (x ++ [.nonTerminal n])

variable {g : Grammar} {p : Production} {x y : List SymbolId} {n t : Nat}

theorem derives_body (hp : p ∈ g.productions) (hbody : p.body = x ++ .nonTerminal n :: y)
    {z : List SymbolId} (hy : g.Derives y z) :
    g.Derives [.nonTerminal p.head] (x ++ .nonTerminal n :: z) := by
  have hrule : g.Derives [.nonTerminal p.head] p.body := .rule (expands_of_mem hp)
  rw [hbody] at hrule
  have hrest : g.Derives (x ++ .nonTerminal n :: y) (x ++ .nonTerminal n :: z) :=
    .append_left x (.cons (.nonTerminal n) hy)
  exact hrule.trans hrest

theorem canFollow_of_begins (hp : p ∈ g.productions) (hbody : p.body = x ++ .nonTerminal n :: y)
    (hy : Begins g.Expands (.terminal t) y) : g.CanFollow n t := by
  obtain ⟨z, hz⟩ := hy.derives
  exact Or.inl ⟨p.head, x, z, derives_body hp hbody hz⟩

/-- What can follow a head can follow what the rest of its body leaves last. -/
theorem CanFollow.of_vanishes (h : g.CanFollow p.head t) (hp : p ∈ g.productions)
    (hbody : p.body = x ++ .nonTerminal n :: y) (hy : Vanishes g.Expands y) : g.CanFollow n t := by
  have hlast := derives_body hp hbody hy.derives
  rcases h with ⟨m, u, v, h⟩ | ⟨ht, s, u, hs, h⟩
  · refine Or.inl ⟨m, u ++ x, v, h.trans ?_⟩
    have hmiddle := (hlast.append_right (.terminal t :: v)).append_left u
    simpa using hmiddle
  · refine Or.inr ⟨ht, s, u ++ x, hs, h.trans ?_⟩
    have hend := hlast.append_left u
    simpa using hend

/-- All terminals that are derived to come from bodies. -/
theorem terminal_lt_of_derives (h : g.WellNumbered) {l m : List SymbolId} (hl : g.Derives l m)
    (hstart : .terminal t ∈ l → t < g.bodyTerminals.length) (ht : .terminal t ∈ m) :
    t < g.bodyTerminals.length := by
  rcases hl.mem ht with hmem | ⟨_, _, ⟨q, hq, -, rfl⟩, hbody⟩
  · exact hstart hmem
  · exact h.terminal_lt q hq t hbody

theorem CanFollow.lt (h : g.WellNumbered) (hcan : g.CanFollow n t) : t < g.terminals.length := by
  rw [terminals, List.length_append]
  rcases hcan with ⟨m, u, v, hl⟩ | ⟨rfl, -⟩
  · have hlt := terminal_lt_of_derives (t := t) h hl (by simp) (by simp)
    exact Nat.lt_add_right 1 hlt
  · exact Nat.lt_add_one g.bodyTerminals.length

end Grammar

/-! ## Occurrences -/

theorem Occurrence.mem_inBody_iff {head : Nat} {l : List SymbolId} {o : Occurrence} :
    o ∈ inBody head l ↔ o.head = head ∧ ∃ x, l = x ++ .nonTerminal o.nonTerminal :: o.behind := by
  induction l with
  | nil => simp [inBody]
  | cons s rest ih =>
      cases s with
      | terminal t =>
          rw [inBody, ih]
          refine and_congr_right fun _ => ?_
          constructor
          · rintro ⟨x, rfl⟩
            exact ⟨.terminal t :: x, rfl⟩
          · rintro ⟨x, hx⟩
            rcases List.cons_eq_append_iff.mp hx with ⟨-, hx⟩ | ⟨y, -, hy⟩
            · simp at hx
            · exact ⟨y, hy⟩
      | nonTerminal n =>
          rw [inBody, List.mem_cons, ih]
          constructor
          · rintro (rfl | ⟨ho, x, rfl⟩)
            · exact ⟨rfl, [], rfl⟩
            · exact ⟨ho, .nonTerminal n :: x, rfl⟩
          · rintro ⟨rfl, x, hx⟩
            rcases List.cons_eq_append_iff.mp hx with ⟨-, hx⟩ | ⟨y, -, hy⟩
            · simp only [List.cons.injEq, SymbolId.nonTerminal.injEq] at hx
              obtain ⟨hn, hrest⟩ := hx
              left
              rw [← hn, ← hrest]
            · exact Or.inr ⟨rfl, y, hy⟩

theorem Grammar.mem_occurrences_iff {g : Grammar} {o : Occurrence} : o ∈ g.occurrences ↔
    ∃ p ∈ g.productions, o.head = p.head ∧
      ∃ x, p.body = x ++ .nonTerminal o.nonTerminal :: o.behind := by
  simp only [occurrences, List.mem_flatMap, Occurrence.mem_inBody_iff]

/-! ## Families -/

namespace FollowFamily

variable {g : Grammar} {first : FirstFamily} {f : FollowFamily} {o : Occurrence} {n t : Nat}

def grow (first : FirstFamily) (f : FollowFamily) (o : Occurrence) : FollowFamily :=
  f.modify o.nonTerminal (·.union (o.contribution first f))

def isClosed (first : FirstFamily) (f : FollowFamily) (o : Occurrence) : Bool :=
  (o.contribution first f).isSubset (f.get o.nonTerminal)

theorem get_grow (first : FirstFamily) (f : FollowFamily) (o : Occurrence) (n : Nat) :
    (grow first f o).get n =
      if o.nonTerminal = n ∧ n < f.length then (f.get n).union (o.contribution first f)
      else f.get n := by
  rw [get, grow, getD_modify]
  rfl

@[simp] theorem length_grow (first : FirstFamily) (f : FollowFamily) (o : Occurrence) :
    (grow first f o).length = f.length :=
  List.length_modify ..

theorem mem_get_grow (h : t ∈ (grow first f o).get n) :
    t ∈ f.get n ∨ o.nonTerminal = n ∧ t ∈ o.contribution first f := by
  rw [get_grow] at h
  split at h
  · rename_i hn
    rcases SortedSet.mem_union.mp h with h | h
    · exact Or.inr ⟨hn.1, h⟩
    · exact Or.inl h
  · exact Or.inl h

theorem mem_get_grow_of_mem (h : t ∈ f.get n) : t ∈ (grow first f o).get n := by
  rw [get_grow]
  split
  · exact SortedSet.mem_union.mpr (Or.inr h)
  · exact h

theorem grow_eq_self (h : isClosed first f o = true) : grow first f o = f :=
  modify_eq_self ∅ (SortedSet.union_eq_self (SortedSet.isSubset_eq_true_iff.mp h))

theorem mem_contribution_iff : t ∈ o.contribution first f ↔
    t ∈ (first.ofSequence o.behind).terminals ∨
      (first.ofSequence o.behind).epsilon = true ∧ t ∈ f.get o.head := by
  unfold Occurrence.contribution
  cases h : (first.ofSequence o.behind).epsilon with
  | false => simp [h]
  | true => simp [h, or_comm]

def Sound (g : Grammar) (f : FollowFamily) : Prop := ∀ n t, t ∈ f.get n → g.CanFollow n t

theorem Sound.grow (h : Sound g f) (hfirst : FirstFamily.Sound g first) (ho : o ∈ g.occurrences) :
    Sound g (grow first f o) := by
  obtain ⟨p, hp, hhead, x, hbody⟩ := Grammar.mem_occurrences_iff.mp ho
  intro n t ht
  rcases mem_get_grow ht with hold | ⟨rfl, hnew⟩
  · exact h n t hold
  · rcases mem_contribution_iff.mp hnew with hbegins | ⟨hvanishes, hfollow⟩
    · exact Grammar.canFollow_of_begins hp hbody (hfirst.ofSequence_begins hbegins)
    · have hcan := h o.head t hfollow
      rw [hhead] at hcan
      exact hcan.of_vanishes hp hbody (hfirst.ofSequence_vanishes hvanishes)

def Closed (g : Grammar) (first : FirstFamily) (f : FollowFamily) : Prop :=
  ∀ o ∈ g.occurrences, isClosed first f o = true

namespace Closed

variable {p : Production} {x y : List SymbolId}

theorem mem (h : Closed g first f) (hp : p ∈ g.productions)
    (hbody : p.body = x ++ .nonTerminal n :: y)
    (ht : t ∈ (first.ofSequence y).terminals ∨
      (first.ofSequence y).epsilon = true ∧ t ∈ f.get p.head) : t ∈ f.get n := by
  have ho : (⟨p.head, n, y⟩ : Occurrence) ∈ g.occurrences :=
    Grammar.mem_occurrences_iff.mpr ⟨p, hp, rfl, x, hbody⟩
  exact SortedSet.isSubset_eq_true_iff.mp (h _ ho) t (mem_contribution_iff.mpr ht)

/-- A closed family holds what the lists show that a non-terminal derives to. -/
theorem mem_of_derives (h : Closed g first f) (hfirst : FirstFamily.Closed g first) {m : Nat}
    {l : List SymbolId} (hl : g.Derives [.nonTerminal m] l) :
    ∀ x n y, l = x ++ .nonTerminal n :: y →
      (∀ t, Begins g.Expands (.terminal t) y → t ∈ f.get n) ∧
        (Vanishes g.Expands y → ∀ t ∈ f.get m, t ∈ f.get n) := by
  induction hl with
  | refl =>
      intro x n y hl
      rcases List.cons_eq_append_iff.mp hl with ⟨rfl, hl⟩ | ⟨x, rfl, hl⟩
      · obtain ⟨hn, rfl⟩ := List.cons.inj hl
        cases hn
        exact ⟨fun t ht => (nomatch ht), fun _ t ht => ht⟩
      · simp at hl
  | tail _ hstep ih =>
      intro x n y hl
      cases hstep with
      | @mk _ _ front back hrule =>
          obtain ⟨p, hp, rfl, rfl⟩ := hrule
          -- the place lies in front of the last expansion, in the body it has made, or behind it
          rcases Rewriting.place_of_expanded hl with
            ⟨z, hfront, rfl⟩ | ⟨u, v, hbody, rfl, rfl⟩ | ⟨z, hback, rfl⟩
          · obtain ⟨ihbegins, ihvanishes⟩ :=
              ih x n (z ++ .nonTerminal p.head :: back) (by simp [hfront])
            have hstep := Step.mk (R := g.Expands) z back (Grammar.expands_of_mem hp)
            exact ⟨fun t ht => ihbegins t (ht.of_step hstep),
              fun hvanish => ihvanishes (hvanish.of_step hstep)⟩
          · obtain ⟨ihbegins, ihvanishes⟩ := ih front p.head back rfl
            refine ⟨?_, ?_⟩
            · intro t ht
              rcases ht.of_append with hv | ⟨hv, hback⟩
              · exact h.mem hp hbody (Or.inl (hfirst.mem_ofSequence hv))
              · have hhead := ihbegins t hback
                exact h.mem hp hbody (Or.inr ⟨hfirst.ofSequence_epsilon hv, hhead⟩)
            · intro hvanish t ht
              have hhead := ihvanishes hvanish.right t ht
              have hv := hfirst.ofSequence_epsilon hvanish.left
              exact h.mem hp hbody (Or.inr ⟨hv, hhead⟩)
          · exact ih (front ++ .nonTerminal p.head :: z) n y (by simp [hback])

end Closed

end FollowFamily

namespace Grammar

open FollowFamily (Sound Closed grow isClosed)

variable {g : Grammar} {first : FirstFamily} {f : FollowFamily} {o : Occurrence} {n t : Nat}

/-! ## Convergence -/

theorem followPass_eq (g : Grammar) (first : FirstFamily) (f : FollowFamily) :
    g.followPass first f =
      g.occurrences.foldl (visit (grow first) (isClosed first)) (f, false) := rfl

def followSupply (g : Grammar) (first : FirstFamily) (f : FollowFamily) : List Nat :=
  g.firstSupply first ++ f.flatMap SortedSet.toList

theorem length_followSupply (g : Grammar) (first : FirstFamily) (f : FollowFamily) :
    (g.followSupply first f).length =
      g.totalTerminals + weigh (fun s => s.terminals.size) first + weigh SortedSet.size f := by
  rw [followSupply, List.length_append, length_firstSupply]
  congr 1
  symm
  exact weigh_eq_length_flatMap _ fun _ _ => rfl

theorem mem_followSupply (h : t ∈ f.get n) : t ∈ g.followSupply first f :=
  List.mem_append_right _ (mem_flatMap_of_getD (n := n) (d := (∅ : SortedSet Nat)) rfl h)

structure FollowSupplied (g : Grammar) (first : FirstFamily) (f x : FollowFamily) : Prop where
  length : x.length = f.length
  mem : ∀ n t, t ∈ x.get n → t ∈ g.followSupply first f

theorem followSupplied_self (g : Grammar) (first : FirstFamily) (f : FollowFamily) :
    FollowSupplied g first f f :=
  ⟨rfl, fun _ _ ht => mem_followSupply ht⟩

theorem FollowSupplied.grow {x : FollowFamily} (h : FollowSupplied g first f x)
    (ho : o ∈ g.occurrences) : FollowSupplied g first f (grow first x o) := by
  obtain ⟨p, hp, -, u, hbody⟩ := mem_occurrences_iff.mp ho
  refine ⟨(FollowFamily.length_grow first x o).trans h.length, ?_⟩
  intro n t ht
  rcases FollowFamily.mem_get_grow ht with ht | ⟨-, ht⟩
  · exact h.mem n t ht
  · rcases FollowFamily.mem_contribution_iff.mp ht with ht | ⟨-, ht⟩
    · rcases FirstFamily.mem_ofSequence ht with ht | ⟨m, ht⟩
      · have hmem : .terminal t ∈ p.body := by simp [hbody, ht]
        exact List.mem_append_left _ (List.mem_append_left _ (mem_bodyNumbers hp hmem))
      · exact List.mem_append_left _ (mem_firstSupply ht)
    · exact h.mem o.head t ht

theorem FollowSupplied.weigh_le {x : FollowFamily} (h : FollowSupplied g first f x) :
    weigh SortedSet.size x ≤ f.length * (g.totalTerminals +
      weigh (fun s => s.terminals.size) first + weigh SortedSet.size f) := by
  rw [← h.length, ← length_followSupply]
  exact LanguageSpec.weigh_le (forall_mem_of_getD ∅ fun n => SortedSet.size_le (h.mem n))

theorem converges_follow (hlt : ∀ o ∈ g.occurrences, o.nonTerminal < f.length) :
    Converges (grow first) (isClosed first) g.occurrences (FollowSupplied g first f)
      (weigh SortedSet.size) (f.length * (g.totalTerminals +
        weigh (fun s => s.terminals.size) first + weigh SortedSet.size f)) where
  keep x o ho hx := hx.grow ho
  fixed x o h := FollowFamily.grow_eq_self h
  heavier x o ho hx hopen := by
    have hnew : ∃ t ∈ o.contribution first x, ¬ t ∈ x.get o.nonTerminal := by
      by_contra hall
      have hsubset : isClosed first x o = true := by
        rw [isClosed, SortedSet.isSubset_eq_true_iff]
        simpa using hall
      simp [hsubset] at hopen
    obtain ⟨t, ht, hnew⟩ := hnew
    exact weigh_lt_modify ∅ (hx.length ▸ hlt o ho) (SortedSet.size_lt_union ht hnew)
  limited x hx := hx.weigh_le

theorem endsWith_followClosure (hlt : ∀ o ∈ g.occurrences, o.nonTerminal < f.length) :
    EndsWith (g.followPass first) f (g.followClosure first f) := by
  have hseed := followSupplied_self g first f
  refine (converges_follow hlt).endsWith_settle (g.followPass_eq first) hseed ?_
  rw [followBound]
  omega

theorem closed_followClosure (hlt : ∀ o ∈ g.occurrences, o.nonTerminal < f.length) :
    Closed g first (g.followClosure first f) :=
  ((endsWith_followClosure hlt).all_closed (fun _ _ h => FollowFamily.grow_eq_self h)
    (g.followPass_eq first)).1

theorem sound_followClosure (hfirst : FirstFamily.Sound g first) (hf : Sound g f) :
    Sound g (g.followClosure first f) :=
  settle_induction (g.followPass_eq first) (fun _ _ ho h => h.grow hfirst ho) hf _

theorem mem_followClosure_of_mem (h : t ∈ f.get n) : t ∈ (g.followClosure first f).get n :=
  settle_induction (Q := fun x => t ∈ x.get n) (g.followPass_eq first)
    (fun _ _ _ h => FollowFamily.mem_get_grow_of_mem h) h _

/-! ## Follow sets -/

theorem get_emptyFollow (g : Grammar) (n : Nat) : g.emptyFollow.get n = ∅ :=
  getD_map_const g.nonTerminals (∅ : SortedSet Nat) n

theorem sound_startFollow (g : Grammar) : Sound g g.startFollow := by
  intro n t ht
  unfold startFollow at ht
  cases hstart : g.start? with
  | none =>
      rw [hstart, get_emptyFollow] at ht
      exact absurd ht (SortedSet.not_mem_empty t)
  | some s =>
      rw [hstart, FollowFamily.get, getD_modify, ← FollowFamily.get, get_emptyFollow] at ht
      split at ht
      · rename_i hs
        have htend : t = g.endIndex := by simpa using ht
        exact Or.inr ⟨htend, s, [], hstart, hs.1 ▸ .refl _⟩
      · exact absurd ht (SortedSet.not_mem_empty t)

theorem start_lt (h : g.WellNumbered) {s : Nat} (hs : g.start? = some s) :
    s < g.nonTerminals.length := by
  unfold start? at hs
  cases hp : g.productions with
  | nil => simp [hp] at hs
  | cons p ps =>
      have hzero : s = 0 := by simpa [hp, eq_comm] using hs
      have hlt := h.head_lt p (by simp [hp])
      omega

theorem endIndex_mem_startFollow (h : g.WellNumbered) {s : Nat} (hs : g.start? = some s) :
    g.endIndex ∈ g.startFollow.get s := by
  have hlt : s < g.emptyFollow.length := by
    rw [emptyFollow, List.length_map]
    exact start_lt h hs
  unfold startFollow
  rw [hs, FollowFamily.get, getD_modify, if_pos ⟨rfl, hlt⟩]
  exact SortedSet.mem_insert.mpr (Or.inl rfl)

theorem sound_followSets (g : Grammar) : Sound g (g.followSets g.firstSets) :=
  sound_followClosure g.sound_firstSets g.sound_startFollow

theorem WellNumbered.occurrence_lt (h : g.WellNumbered) (ho : o ∈ g.occurrences) :
    o.nonTerminal < g.nonTerminals.length := by
  obtain ⟨p, hp, -, x, hbody⟩ := mem_occurrences_iff.mp ho
  exact h.nonTerminal_lt p hp o.nonTerminal (by simp [hbody])

theorem length_startFollow (g : Grammar) : g.startFollow.length = g.nonTerminals.length := by
  unfold startFollow
  cases g.start? <;> simp [emptyFollow]

theorem closed_followSets (h : g.WellNumbered) :
    Closed g g.firstSets (g.followSets g.firstSets) := by
  apply closed_followClosure
  intro o ho
  rw [length_startFollow]
  exact h.occurrence_lt ho

/-- A non-terminal that derives to anything but itself heads a rule, so its number is in the table. -/
theorem lt_of_derives (h : g.WellNumbered) {l : List SymbolId} (hl : g.Derives [.nonTerminal n] l)
    (hne : l ≠ [.nonTerminal n]) : n < g.nonTerminals.length := by
  rcases Relation.ReflTransGen.cases_head hl with rfl | ⟨m, hstep, -⟩
  · exact absurd rfl hne
  · generalize hs : [SymbolId.nonTerminal n] = s at hstep
    cases hstep with
    | mk front back hrule =>
        obtain ⟨p, hp, rfl, rfl⟩ := hrule
        have hmem : SymbolId.nonTerminal p.head ∈ [SymbolId.nonTerminal n] := by simp [hs]
        have hhead : p.head = n := by simpa using hmem
        exact hhead ▸ h.head_lt p hp

theorem canFollow_iff (h : g.WellNumbered) : g.CanFollow n t ↔
    (∃ m < g.nonTerminals.length, ∃ x y,
        g.Derives [.nonTerminal m] (x ++ .nonTerminal n :: .terminal t :: y)) ∨
      t = g.endIndex ∧
        ∃ s x, g.start? = some s ∧ g.Derives [.nonTerminal s] (x ++ [.nonTerminal n]) := by
  refine or_congr_left (exists_congr fun m => ?_)
  constructor
  · rintro ⟨x, y, hl⟩
    have hne : x ++ .nonTerminal n :: .terminal t :: y ≠ [.nonTerminal m] := by
      intro heq
      have hlen := congrArg List.length heq
      simp only [List.length_append, List.length_cons, List.length_nil] at hlen
      omega
    exact ⟨lt_of_derives h hl hne, x, y, hl⟩
  · rintro ⟨-, x, y, hl⟩
    exact ⟨x, y, hl⟩

/-- The follow sets hold exactly what can follow. -/
theorem mem_followSets_iff (h : g.WellNumbered) :
    t ∈ (g.followSets g.firstSets).get n ↔ g.CanFollow n t := by
  have hclosed := closed_followSets h
  have hfirst := closed_firstSets h
  constructor
  · exact g.sound_followSets n t
  · rintro (⟨m, x, y, hl⟩ | ⟨rfl, s, x, hs, hl⟩)
    · exact (hclosed.mem_of_derives hfirst hl x n _ rfl).1 t (.here y)
    · have hend : g.endIndex ∈ (g.followSets g.firstSets).get s :=
        mem_followClosure_of_mem (endIndex_mem_startFollow h hs)
      exact (hclosed.mem_of_derives hfirst hl x n [] rfl).2 .nil _ hend

end Grammar

end LanguageSpec
