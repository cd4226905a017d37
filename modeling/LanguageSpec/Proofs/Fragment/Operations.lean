import LanguageSpec.Proofs.Fragment.Language

/-!
# The operations on fragments

What each operation does to the languages of a fragment: appending adds an atom to the current
branch, a bar closes it, and repetition replaces the last atom by its star or plus.
-/

open Computability

namespace LanguageSpec.Fragment

/-! ## Appending -/

section Splice

variable {rows rows' : List (List Edge)} {t : Nat}

/-- The rows of a fragment with those of an atom behind them and a silent edge to its first. -/
def splice (rows rows' : List (List Edge)) (t : Nat) : List (List Edge) :=
  link (beside rows rows') t rows.length

@[simp] theorem length_splice : (splice rows rows' t).length = rows.length + rows'.length := by
  rw [splice, length_link, length_beside]

theorem InRange.splice (h : InRange rows) (h' : InRange rows') (ht : t < rows.length)
    (hpos : 0 < rows'.length) : InRange (splice rows rows' t) := by
  apply (h.beside h').link
  · rw [length_beside]
    exact Nat.lt_add_right _ ht
  · rw [length_beside]
    exact Nat.lt_add_of_pos_right hpos

theorem between_splice (ht : t < rows.length) (p q : Nat) :
    between (splice rows rows' t) p q = between (beside rows rows') p q +
      between (beside rows rows') p t * between (beside rows rows') rows.length q := by
  apply between_link_of_no_return
  · rw [length_beside]
    exact Nat.lt_add_right _ ht
  · exact between_beside_add_of_lt 0 ht

theorem between_splice_old (h : InRange rows) (ht : t < rows.length) {p q : Nat}
    (hp : p < rows.length) (hq : q < rows.length) :
    between (splice rows rows' t) p q = between rows p q := by
  have hback : between (beside rows rows') rows.length q = 0 := between_beside_add_of_lt 0 hq
  rw [between_splice ht, between_beside_of_lt h hp hq, hback, mul_zero, add_zero]

/-- The atom is reached through the state that it was appended to. -/
theorem between_splice_to_atom (h : InRange rows) (ht : t < rows.length) {p : Nat}
    (hp : p < rows.length) (q : Nat) :
    between (splice rows rows' t) p (rows.length + q) = between rows p t * between rows' 0 q := by
  have hatom : between (beside rows rows') rows.length (rows.length + q) = between rows' 0 q :=
    between_beside_add_add 0 q
  rw [between_splice ht, between_beside_of_lt_of_le h hp (Nat.le_add_right _ _),
    between_beside_of_lt h hp ht, hatom, zero_add]

theorem between_splice_atom (ht : t < rows.length) (p q : Nat) :
    between (splice rows rows' t) (rows.length + p) (rows.length + q) = between rows' p q := by
  rw [between_splice ht, between_beside_add_add, between_beside_add_of_lt p ht, zero_mul, add_zero]

theorem between_splice_from_atom (ht : t < rows.length) (p : Nat) {q : Nat} (hq : q < rows.length) :
    between (splice rows rows' t) (rows.length + p) q = 0 := by
  rw [between_splice ht, between_beside_add_of_lt p hq, between_beside_add_of_lt p ht, zero_mul,
    add_zero]

theorem target_ne_zero_of_mem_splice (hpos : 0 < rows.length) (ht : t < rows.length)
    (hstart : ∀ s, ∀ e ∈ edgesAt rows s, e.target ≠ 0) :
    ∀ s, ∀ e ∈ edgesAt (splice rows rows' t) s, e.target ≠ 0 := by
  intro s e he
  have hlt : t < (beside rows rows').length := by
    rw [length_beside]
    exact Nat.lt_add_right _ ht
  rcases (mem_edgesAt_link hlt s e).mp he with hold | ⟨-, rfl⟩
  · rcases mem_edgesAt_beside.mp hold with hold | ⟨i, e', -, -, rfl⟩
    · exact hstart s e hold
    · exact Nat.ne_of_gt (Nat.add_pos_left hpos e'.target)
  · exact Nat.ne_of_gt hpos

/-- The ends of the atom keep what leads between them, and lie behind what had been read at `t`. -/
theorem lastAtom_splice (h : InRange rows) (hpos : 0 < rows.length) (ht : t < rows.length)
    {x : Nat} (hx : x < rows'.length) (hends : Repeatable rows' 0 x) {b : Branches}
    (hcurrent : between rows 0 t = b.current) :
    LastAtom (splice rows rows' t) (b.append (between rows' 0 x)) (rows.length + 0)
      (rows.length + x) where
  entry_lt := by
    rw [length_splice]
    omega
  exit_lt := by
    rw [length_splice]
    exact Nat.add_lt_add_left hx rows.length
  language := by
    rw [between_splice_atom ht]
    rfl
  repeatable := by
    constructor
    · rw [between_splice_atom ht, between_splice_atom ht]
      exact hends.entry
    · rw [between_splice_atom ht, between_splice_atom ht]
      exact hends.back
    · rw [between_splice_atom ht, between_splice_atom ht]
      exact hends.exit
  entered := by
    have hfront : ∀ q, between (splice rows rows' t) 0 (rows.length + q) =
        b.current * between (splice rows rows' t) (rows.length + 0) (rows.length + q) := by
      intro q
      rw [between_splice_to_atom h ht hpos, between_splice_atom ht, hcurrent]
    rintro q (rfl | rfl)
    · exact hfront 0
    · exact hfront x

end Splice

theorem append?_eq {f : Fragment} (h : f.accept = none) (g : Fragment) : f.append? g = some
    { states := splice f.states g.finalize.states f.tail
      tail := f.size + g.exit
      closed := f.closed
      last := some (f.size, f.size + g.exit)
      accept := none } := by
  simp [append?, isFinalized, h, splice, beside, size]

theorem append?_open {f : Fragment} (h : f.accept = none) (g : Fragment) :
    ∃ k, f.append? g = some k ∧ k.accept = none := ⟨_, append?_eq h g, rfl⟩

theorem alternate?_open {f : Fragment} (h : f.accept = none) :
    ∃ k, f.alternate? = some k ∧ k.accept = none :=
  ⟨{ f with tail := 0, closed := f.closed ++ [f.tail], last := none },
    by simp [alternate?, isFinalized, h], h⟩

theorem append?_finalize (f g : Fragment) : f.append? g.finalize = f.append? g := by
  rw [append?, append?, finalize_finalize, exit_finalize]

theorem Finished.finalize_eq {f : Fragment} {b : Branches} (h : Finished f b) : f.finalize = f :=
  finalize_of_isFinalized (isFinalized_of_accept h.accept)

/-- Appending a finished fragment adds its language as an atom. -/
theorem Unfinished.append {f g : Fragment} {b c : Branches} (h : Unfinished f b)
    (hg : Finished g c) :
    ∃ k, f.append? g = some k ∧ Unfinished k (b.append c.whole) := by
  have hgpos : 0 < g.states.length := Nat.lt_of_le_of_lt (Nat.zero_le _) hg.exit_lt
  refine ⟨_, append?_eq h.accept g, ?_⟩
  rw [hg.finalize_eq, ← hg.whole]
  refine ⟨rfl, ?_, h.inRange.splice hg.inRange h.tail_lt hgpos,
    target_ne_zero_of_mem_splice h.size_pos h.tail_lt h.start, ?_, ?_, ?_, ?_, ?_, ?_, ?_, ?_, ?_⟩
  · simp only [size, length_splice]
    exact Nat.lt_add_right _ h.size_pos
  · simp only [size, length_splice]
    exact Nat.add_lt_add_left hg.exit_lt _
  · intro t ht
    simp only [size, length_splice]
    exact Nat.lt_add_right _ (h.closed_lt t ht)
  · rw [Branches.closed_append, ← h.closed]
    refine congrArg List.sum (List.map_congr_left fun t ht => ?_)
    exact between_splice_old h.inRange h.tail_lt h.size_pos (h.closed_lt t ht)
  · rw [Branches.current_append, ← h.current]
    exact between_splice_to_atom h.inRange h.tail_lt h.size_pos g.exit
  · intro hnone
    simp at hnone
  · rintro _ _ ⟨rfl, rfl⟩
    exact lastAtom_splice h.inRange h.size_pos h.tail_lt hg.exit_lt hg.ends h.current
  · rintro _ _ ⟨rfl, rfl⟩
    rfl
  · have := h.size_pos
    rintro _ _ ⟨rfl, rfl⟩ p (rfl | rfl) <;> omega
  · rintro _ _ ⟨rfl, rfl⟩ p (rfl | rfl) t ht
    · exact between_splice_from_atom h.tail_lt 0 (h.closed_lt t ht)
    · exact between_splice_from_atom h.tail_lt g.exit (h.closed_lt t ht)

/-! ### Characters -/

theorem finished_single {f : Fragment} (haccept : f.accept = some f.exit) (hlt : f.exit < f.size)
    (hrange : InRange f.states) (hends : Repeatable f.states 0 f.exit)
    (hlast : f.last = some (0, f.exit)) :
    Finished f (Branches.single (between f.states 0 f.exit)) where
  accept := haccept
  exit_lt := hlt
  inRange := hrange
  whole := (Branches.whole_single _).symm
  ends := hends
  noLast hnone := by simp [hlast] at hnone
  last := by
    rw [hlast]
    rintro _ _ ⟨rfl, rfl⟩
    exact ⟨Nat.zero_lt_of_lt hlt, hlt, rfl, hends, fun q _ => (one_mul _).symm⟩
  last_exit := by
    rw [hlast]
    rintro _ _ ⟨rfl, rfl⟩ p _
    rfl
  last_apart := by
    rw [hlast]
    rintro _ _ ⟨rfl, rfl⟩
    exact Or.inl ⟨rfl, rfl⟩

/-- The words of one character of a set. -/
def letters (s : Set Char) : Language Char := {w | ∃ c ∈ s, w = [c]}

def ofSet (s : CharSet) : Fragment :=
  ⟨[s.toList.map fun c => ⟨some c, 1⟩, []], 1, [], some (0, 1), some 1⟩

theorem appendSet?_eq_append? (f : Fragment) (s : CharSet) :
    f.appendSet? s = f.append? (ofSet s) := by
  have hfin : (ofSet s).finalize = ofSet s := finalize_of_isFinalized rfl
  rw [appendSet?, append?, hfin]
  simp [ofSet, exit, Edge.shift, Function.comp_def]

theorem edgesAt_ofSet_zero (s : CharSet) :
    edgesAt (ofSet s).states 0 = s.toList.map fun c => ⟨some c, 1⟩ := rfl

theorem edgesAt_ofSet_succ (s : CharSet) (p : Nat) : edgesAt (ofSet s).states (p + 1) = [] := by
  rcases p with _ | p <;> rfl

theorem mem_edgesAt_ofSet {s : CharSet} {p : Nat} {e : Edge} (he : e ∈ edgesAt (ofSet s).states p) :
    p = 0 ∧ ∃ c ∈ s, e = ⟨some c, 1⟩ := by
  rcases p with _ | p
  · rw [edgesAt_ofSet_zero] at he
    obtain ⟨c, hc, rfl⟩ := List.mem_map.mp he
    exact ⟨rfl, c, hc, rfl⟩
  · simp [edgesAt_ofSet_succ] at he

theorem between_ofSet (s : CharSet) :
    between (ofSet s).states 0 1 = letters {c | c ∈ s} := by
  ext w
  constructor
  · intro hw
    cases hw with
    | step he h =>
        obtain ⟨-, c, hc, rfl⟩ := mem_edgesAt_ofSet he
        cases h with
        | refl => exact ⟨c, hc, rfl⟩
        | step he' _ => exact absurd (mem_edgesAt_ofSet he').1 Nat.one_ne_zero
  · rintro ⟨c, hc, rfl⟩
    exact Path.of_edge (e := ⟨some c, 1⟩) (by
      rw [edgesAt_ofSet_zero]
      exact List.mem_map_of_mem hc)

theorem finished_ofSet (s : CharSet) :
    Finished (ofSet s) (Branches.single (letters {c | c ∈ s})) := by
  have hout : ∀ q, between (ofSet s).states 1 q = if 1 = q then 1 else 0 :=
    between_of_edgesAt_eq_nil (edgesAt_ofSet_succ s 0)
  have hin : ∀ p, between (ofSet s).states p 0 = if p = 0 then 1 else 0 := by
    apply between_of_not_entered
    intro p e he
    obtain ⟨-, c, -, rfl⟩ := mem_edgesAt_ofSet he
    exact Nat.one_ne_zero
  have hends : Repeatable (ofSet s).states 0 1 := by
    constructor
    · rw [hin, if_pos rfl]
      exact one_le_kstar
    · rw [hin, if_neg Nat.one_ne_zero]
      exact bot_le
    · rw [hout, if_pos rfl]
      exact one_le_kstar
  have hrange : InRange (ofSet s).states := by
    intro p e he
    obtain ⟨-, c, -, rfl⟩ := mem_edgesAt_ofSet he
    exact Nat.one_lt_two
  rw [← between_ofSet]
  exact finished_single rfl Nat.one_lt_two hrange hends rfl

theorem letters_ofList_singleton (c : Char) : letters {x | x ∈ SortedSet.ofList [c]} = {[c]} := by
  ext w
  change (∃ x ∈ {x | x ∈ SortedSet.ofList [c]}, w = [x]) ↔ w = [c]
  simp

theorem Unfinished.appendSet {f : Fragment} {b : Branches} (h : Unfinished f b) (s : CharSet) :
    ∃ k, f.appendSet? s = some k ∧ Unfinished k (b.append (letters {c | c ∈ s})) := by
  rw [appendSet?_eq_append?, ← Branches.whole_single (letters {c | c ∈ s})]
  exact h.append (finished_ofSet s)

/-! ### Branches -/

theorem Unfinished.alternate {f : Fragment} {b : Branches} (h : Unfinished f b) :
    ∃ k, f.alternate? = some k ∧ Unfinished k b.alternate := by
  refine ⟨{ f with tail := 0, closed := f.closed ++ [f.tail], last := none }, ?_, ?_⟩
  · simp [alternate?, h.not_isFinalized]
  · refine ⟨h.accept, h.size_pos, h.inRange, h.start, h.size_pos, h.tails_lt, ?_, ?_,
      fun _ => rfl, ?_, ?_, ?_, ?_⟩
    · rw [List.map_append, List.sum_append, List.map_singleton, List.sum_singleton, h.closed,
        h.current]
      rfl
    · rw [Branches.current_alternate, between_of_not_entered h.start, if_pos rfl]
    all_goals
      intro e x hex
      simp at hex

/-! ## Repeating -/

section Repeat

variable {f : Fragment} {b c : Branches} {e x s t : Nat}

def withLink (f : Fragment) (s t : Nat) : Fragment := { f with states := link f.states s t }

@[simp] theorem size_withLink (f : Fragment) (s t : Nat) : (f.withLink s t).size = f.size :=
  length_link f.states s t

theorem LastAtom.lt {rows : List (List Edge)} (h : LastAtom rows b e x) {p : Nat}
    (hp : p = e ∨ p = x) : p < rows.length := by
  rcases hp with rfl | rfl
  · exact h.entry_lt
  · exact h.exit_lt

/-- A new edge between the ends of the last atom changes what leads to its exit and nothing else. -/
theorem Unfinished.withLink (h : Unfinished f b) (hex : f.last = some (e, x))
    (hs : s = e ∨ s = x) (ht : t = e ∨ t = x) (hclosed : c.closed = b.closed)
    (hlast : LastAtom (link f.states s t) c e x) : Unfinished (f.withLink s t) c := by
  have hslt := (h.last e x hex).lt hs
  have hkeep : ∀ p, ∀ k ∈ f.closed, between (link f.states s t) p k = between f.states p k :=
    fun p k hk => between_link_of_eq_zero_right hslt (h.last_apart e x hex t ht k hk)
  refine ⟨h.accept, ?_, h.inRange.link hslt ((h.last e x hex).lt ht), ?_, ?_, ?_, ?_, ?_, ?_, ?_,
    h.last_eq_tail, h.last_ne_zero, ?_⟩
  · rw [size_withLink]
    exact h.size_pos
  · intro p k hk
    rcases (mem_edgesAt_link hslt p k).mp hk with hold | ⟨-, rfl⟩
    · exact h.start p k hold
    · exact h.last_ne_zero e x hex t ht
  · rw [size_withLink]
    exact h.tail_lt
  · rw [size_withLink]
    exact h.closed_lt
  · rw [hclosed, ← h.closed]
    exact congrArg List.sum (List.map_congr_left fun k hk => hkeep 0 k hk)
  · have hentered := hlast.entered x (.inr rfl)
    rw [h.last_eq_tail e x hex] at hentered
    rw [Branches.current, hlast.language, Option.getD_some, h.last_eq_tail e x hex]
    exact hentered
  · intro hnone
    exact absurd (hex.symm.trans hnone) (Option.some_ne_none _)
  · intro e' x' hex'
    obtain ⟨rfl, rfl⟩ := Prod.mk.inj (Option.some.inj (hex.symm.trans hex'))
    exact hlast
  · intro e' x' hex' p hp k hk
    exact (hkeep p k hk).trans (h.last_apart e' x' hex' p hp k hk)

theorem Finished.exit_withLink (h : Finished f b) (s t : Nat) : (f.withLink s t).exit = f.exit := by
  change f.accept.getD _ = f.exit
  rw [h.accept, Option.getD_some]

/-- The ends of a finished fragment stay those of an atom that can be repeated. -/
theorem Finished.ends_withLink (h : Finished f b) (hex : f.last = some (e, x))
    (hs : s = e ∨ s = x) (ht : t = e ∨ t = x) : Repeatable (link f.states s t) 0 f.exit := by
  have hslt := (h.last e x hex).lt hs
  rcases h.last_apart e x hex with ⟨rfl, rfl⟩ | hapart
  · exact h.ends.link hs ht hslt
  · have hgrow : (between f.states 0 f.exit)∗ ≤ (between (link f.states s t) 0 f.exit)∗ :=
      kstar_mono (between_le_link hslt 0 f.exit)
    constructor
    · rw [between_link_of_eq_zero_right hslt (hapart t ht).1]
      exact h.ends.entry.trans hgrow
    · rw [between_link_of_eq_zero_right hslt (hapart t ht).1]
      exact h.ends.back.trans hgrow
    · rw [between_link_of_eq_zero_left hslt (hapart s hs).2]
      exact h.ends.exit.trans hgrow

theorem Finished.withLink (h : Finished f b) (hex : f.last = some (e, x))
    (hs : s = e ∨ s = x) (ht : t = e ∨ t = x) (hclosed : c.closed = b.closed)
    (hfront : c.front = b.front) (hlast : LastAtom (link f.states s t) c e x) :
    Finished (f.withLink s t) c := by
  have hatom := h.last e x hex
  have hslt := hatom.lt hs
  refine ⟨?_, ?_, h.inRange.link hslt (hatom.lt ht), ?_, ?_, ?_, ?_, ?_, ?_⟩
  · rw [h.exit_withLink]
    exact h.accept
  · rw [h.exit_withLink, size_withLink]
    exact h.exit_lt
  · have hwhole : between f.states 0 f.exit = b.closed + b.front * between f.states e x := by
      rw [h.whole, Branches.whole, Branches.current, hatom.language, Option.getD_some]
    rw [h.exit_withLink, Branches.whole, Branches.current, hlast.language, Option.getD_some,
      hclosed, hfront]
    exact between_link_of_entered hslt (hatom.entered s hs) hwhole (h.last_exit e x hex t ht)
  · rw [h.exit_withLink]
    exact h.ends_withLink hex hs ht
  · intro hnone
    exact absurd (hex.symm.trans hnone) (Option.some_ne_none _)
  · intro e' x' hex'
    obtain ⟨rfl, rfl⟩ := Prod.mk.inj (Option.some.inj (hex.symm.trans hex'))
    exact hlast
  · intro e' x' hex' p hp
    obtain ⟨rfl, rfl⟩ := Prod.mk.inj (Option.some.inj (hex.symm.trans hex'))
    rw [h.exit_withLink]
    change between (link f.states s t) p f.exit = between (link f.states s t) p x
    rw [between_link hslt, between_link hslt, rounds, rounds, h.last_exit e x hex p hp,
      h.last_exit e x hex t ht]
  · intro e' x' hex'
    obtain ⟨rfl, rfl⟩ := Prod.mk.inj (Option.some.inj (hex.symm.trans hex'))
    rw [h.exit_withLink]
    refine (h.last_apart e x hex).imp id fun hapart p hp => ⟨?_, ?_⟩
    · exact (between_link_of_eq_zero_right hslt (hapart t ht).1).trans (hapart p hp).1
    · exact (between_link_of_eq_zero_left hslt (hapart s hs).2).trans (hapart p hp).2

theorem LastAtom.past {rows : List (List Edge)} (h : LastAtom rows b e x) :
    LastAtom (link rows e x) { b with last := some (between (link rows e x) e x) } e x where
  entry_lt := by rw [length_link]; exact h.entry_lt
  exit_lt := by rw [length_link]; exact h.exit_lt
  language := rfl
  repeatable := h.repeatable.link (.inl rfl) (.inr rfl) h.entry_lt
  entered := h.entered.link (.inl rfl) h.entry_lt

theorem starLast_of_none (h : f.last = none) : f.starLast = f := by
  rw [starLast, h]

theorem starLast_of_some (h : f.last = some (e, x)) :
    f.starLast = (f.withLink e x).withLink x e := by
  cases f
  cases h
  rfl

theorem plusLast_of_none (h : f.last = none) : f.plusLast = f := by
  rw [plusLast, h]

theorem plusLast_of_some (h : f.last = some (e, x)) : f.plusLast = f.withLink x e := by
  cases f
  cases h
  rfl

theorem Branches.starLast_of_none {b : Branches} (h : b.last = none) : b.starLast = b := by
  cases b
  simp_all [Branches.starLast]

theorem Branches.plusLast_of_none {b : Branches} (h : b.last = none) : b.plusLast = b := by
  cases b
  simp_all [Branches.plusLast]

theorem Unfinished.starLast (h : Unfinished f b) : Unfinished f.starLast b.starLast := by
  cases hl : f.last with
  | none => rwa [starLast_of_none hl, Branches.starLast_of_none (h.noLast hl)]
  | some ends =>
      obtain ⟨e, x⟩ := ends
      have hatom := h.last e x hl
      have hpast : Unfinished (f.withLink e x)
          { b with last := some (between (link f.states e x) e x) } :=
        h.withLink hl (.inl rfl) (.inr rfl) rfl hatom.past
      rw [starLast_of_some hl]
      exact hpast.withLink hl (.inr rfl) (.inl rfl) rfl hatom.star

theorem Unfinished.plusLast (h : Unfinished f b) : Unfinished f.plusLast b.plusLast := by
  cases hl : f.last with
  | none => rwa [plusLast_of_none hl, Branches.plusLast_of_none (h.noLast hl)]
  | some ends =>
      obtain ⟨e, x⟩ := ends
      rw [plusLast_of_some hl]
      exact h.withLink hl (.inr rfl) (.inl rfl) rfl (h.last e x hl).plus

theorem Finished.starLast (h : Finished f b) : Finished f.starLast b.starLast := by
  cases hl : f.last with
  | none => rwa [starLast_of_none hl, Branches.starLast_of_none (h.noLast hl)]
  | some ends =>
      obtain ⟨e, x⟩ := ends
      have hatom := h.last e x hl
      have hpast : Finished (f.withLink e x)
          { b with last := some (between (link f.states e x) e x) } :=
        h.withLink hl (.inl rfl) (.inr rfl) rfl rfl hatom.past
      rw [starLast_of_some hl]
      exact hpast.withLink hl (.inr rfl) (.inl rfl) rfl rfl hatom.star

theorem Finished.plusLast (h : Finished f b) : Finished f.plusLast b.plusLast := by
  cases hl : f.last with
  | none => rwa [plusLast_of_none hl, Branches.plusLast_of_none (h.noLast hl)]
  | some ends =>
      obtain ⟨e, x⟩ := ends
      rw [plusLast_of_some hl]
      exact h.withLink hl (.inr rfl) (.inl rfl) rfl rfl (h.last e x hl).plus

/-! ### Whole fragments -/

/-- A finished fragment taken as its own last atom. -/
theorem Finished.asAtom (h : Finished f b) :
    Finished { f with last := some (0, f.exit) } (Branches.single b.whole) := by
  rw [← h.whole]
  exact finished_single (f := { f with last := some (0, f.exit) }) h.accept h.exit_lt h.inRange
    h.ends rfl

theorem starWhole_finalize (f : Fragment) : f.finalize.starWhole = f.starWhole := by
  rw [Fragment.starWhole, Fragment.starWhole, finalize_finalize, exit_finalize]

theorem plusWhole_finalize (f : Fragment) : f.finalize.plusWhole = f.plusWhole := by
  rw [Fragment.plusWhole, Fragment.plusWhole, finalize_finalize, exit_finalize]

theorem Finished.starWhole (h : Finished f b) :
    Finished f.starWhole (Branches.single b.whole∗) := by
  have hwhole : f.starWhole = Fragment.starLast { f with last := some (0, f.exit) } := by
    rw [Fragment.starWhole, h.finalize_eq]
    rfl
  rw [hwhole]
  exact h.asAtom.starLast

theorem Finished.plusWhole (h : Finished f b) :
    Finished f.plusWhole (Branches.single (b.whole * b.whole∗)) := by
  have hwhole : f.plusWhole = Fragment.plusLast { f with last := some (0, f.exit) } := by
    rw [Fragment.plusWhole, h.finalize_eq]
    rfl
  rw [hwhole]
  exact h.asAtom.plusLast

end Repeat

end LanguageSpec.Fragment
