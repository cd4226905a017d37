import LanguageSpec.Grammar.Fixpoint
import LanguageSpec.SortedSet
import Mathlib.Data.List.Basic
import Mathlib.Data.List.GetD

/-!
# Passes that come to an end

A pass visits the elements of a list one after another. A visit may enlarge what the pass works on,
and the pass tells whether one did. If every visit that finds something open adds weight and the
weight is limited, then enough passes end with everything closed.
-/

namespace LanguageSpec

/-! ## Visits -/

section Visits

variable {φ α : Type}

def visit (grow : φ → α → φ) (closed : φ → α → Bool) (r : φ × Bool) (a : α) : φ × Bool :=
  (grow r.1 a, r.2 || !closed r.1 a)

/-- Passes from `x` on, made until one of them tells of no change, come to an end with `y`. -/
inductive EndsWith (pass : φ → φ × Bool) : φ → φ → Prop
  | stop {x : φ} (h : (pass x).2 = false) : EndsWith pass x (pass x).1
  | again {x y : φ} (h : (pass x).2 = true) (hy : EndsWith pass (pass x).1 y) : EndsWith pass x y

/-- Visits of the elements of `l` keep `P`. One that finds something closed changes nothing, one
that finds something open adds to a limited weight. -/
structure Converges (grow : φ → α → φ) (closed : φ → α → Bool) (l : List α) (P : φ → Prop)
    (weight : φ → Nat) (limit : Nat) : Prop where
  keep : ∀ x a, a ∈ l → P x → P (grow x a)
  fixed : ∀ x a, closed x a = true → grow x a = x
  heavier : ∀ x a, a ∈ l → P x → closed x a = false → weight x < weight (grow x a)
  limited : ∀ x, P x → weight x ≤ limit

variable {grow : φ → α → φ} {closed : φ → α → Bool}

theorem fst_foldl_visit (l : List α) (r : φ × Bool) :
    (l.foldl (visit grow closed) r).1 = l.foldl grow r.1 := by
  induction l generalizing r with
  | nil => rfl
  | cons a l ih => exact ih (visit grow closed r a)

theorem foldl_grow_eq_self (hfixed : ∀ x a, closed x a = true → grow x a = x) {l : List α} {x : φ}
    (h : ∀ a ∈ l, closed x a = true) : l.foldl grow x = x := by
  induction l with
  | nil => rfl
  | cons a l ih =>
      obtain ⟨ha, hl⟩ := List.forall_mem_cons.mp h
      rw [List.foldl_cons, hfixed x a ha]
      exact ih hl

/-- A pass tells of no change exactly if it finds everything closed. -/
theorem snd_foldl_visit_eq_false_iff (hfixed : ∀ x a, closed x a = true → grow x a = x)
    (l : List α) (x : φ) (b : Bool) :
    (l.foldl (visit grow closed) (x, b)).2 = false ↔ b = false ∧ ∀ a ∈ l, closed x a = true := by
  induction l generalizing x b with
  | nil => simp
  | cons a l ih =>
      rw [List.foldl_cons, List.forall_mem_cons, visit, ih, Bool.or_eq_false_iff,
        Bool.not_eq_false']
      constructor
      · rintro ⟨⟨hb, ha⟩, hl⟩
        rw [hfixed x a ha] at hl
        exact ⟨hb, ha, hl⟩
      · rintro ⟨hb, ha, hl⟩
        rw [hfixed x a ha]
        exact ⟨⟨hb, ha⟩, hl⟩

section Pass

variable {pass : φ → φ × Bool} {l : List α} {x y : φ}

/-- What every visit keeps holds after a pass. -/
theorem pass_induction (hpass : ∀ x, pass x = l.foldl (visit grow closed) (x, false))
    {Q : φ → Prop} (hgrow : ∀ x a, a ∈ l → Q x → Q (grow x a)) (hx : Q x) : Q (pass x).1 := by
  rw [hpass, fst_foldl_visit]
  clear hpass
  induction l generalizing x with
  | nil => exact hx
  | cons a l ih =>
      exact ih (fun y b hb hy => hgrow y b (List.mem_cons_of_mem a hb) hy)
        (hgrow x a List.mem_cons_self hx)

/-- What every visit keeps holds of the result of all passes. -/
theorem settle_induction (hpass : ∀ x, pass x = l.foldl (visit grow closed) (x, false))
    {Q : φ → Prop} (hgrow : ∀ x a, a ∈ l → Q x → Q (grow x a)) (hx : Q x) (bound : Nat) :
    Q (settle pass bound x) := by
  induction bound generalizing x with
  | zero => exact hx
  | succ n ih =>
      have hone := pass_induction hpass hgrow hx
      rw [settle]
      split
      · exact ih hone
      · exact hone

/-- A pass that tells of no change has made none. -/
theorem pass_eq_of_snd (hfixed : ∀ x a, closed x a = true → grow x a = x)
    (hpass : ∀ x, pass x = l.foldl (visit grow closed) (x, false)) (h : (pass x).2 = false) :
    (∀ a ∈ l, closed x a = true) ∧ pass x = (x, false) := by
  have hfst : (pass x).1 = l.foldl grow x := by rw [hpass, fst_foldl_visit]
  have hclosed : ∀ a ∈ l, closed x a = true := by
    rw [hpass] at h
    exact ((snd_foldl_visit_eq_false_iff hfixed l x false).mp h).2
  exact ⟨hclosed, Prod.ext (hfst.trans (foldl_grow_eq_self hfixed hclosed)) h⟩

/-- Where passes end everything is closed, and one more pass changes nothing. -/
theorem EndsWith.all_closed (hfixed : ∀ x a, closed x a = true → grow x a = x)
    (hpass : ∀ x, pass x = l.foldl (visit grow closed) (x, false)) (h : EndsWith pass x y) :
    (∀ a ∈ l, closed y a = true) ∧ pass y = (y, false) := by
  induction h with
  | again _ _ ih => exact ih
  | stop hflag =>
      have hlast := pass_eq_of_snd hfixed hpass hflag
      rwa [hlast.2]

end Pass

namespace Converges

variable {l : List α} {P : φ → Prop} {weight : φ → Nat} {limit : Nat}

theorem weight_le_grow (h : Converges grow closed l P weight limit) {x : φ} {a : α} (ha : a ∈ l)
    (hx : P x) : weight x ≤ weight (grow x a) := by
  cases hclosed : closed x a with
  | true => exact Nat.le_of_eq (congrArg weight (h.fixed x a hclosed).symm)
  | false => exact Nat.le_of_lt (h.heavier x a ha hx hclosed)

theorem weight_le_foldl (h : Converges grow closed l P weight limit) {m : List α}
    (hm : ∀ a ∈ m, a ∈ l) {x : φ} (hx : P x) : weight x ≤ weight (m.foldl grow x) := by
  induction m generalizing x with
  | nil => exact Nat.le_refl _
  | cons a m ih =>
      obtain ⟨ha, hm⟩ := List.forall_mem_cons.mp hm
      exact Nat.le_trans (h.weight_le_grow ha hx) (ih hm (h.keep x a ha hx))

theorem weight_lt_foldl (h : Converges grow closed l P weight limit) {m : List α}
    (hm : ∀ a ∈ m, a ∈ l) {x : φ} (hx : P x) {a : α} (ha : a ∈ m) (hopen : closed x a = false) :
    weight x < weight (m.foldl grow x) := by
  induction m with
  | nil => exact absurd ha List.not_mem_nil
  | cons b m ih =>
      obtain ⟨hb, hm⟩ := List.forall_mem_cons.mp hm
      rw [List.foldl_cons]
      -- visits in front of the first open one change nothing
      cases hclosed : closed x b with
      | false =>
          have hle := h.weight_le_foldl hm (h.keep x b hb hx)
          exact Nat.lt_of_lt_of_le (h.heavier x b hb hx hclosed) hle
      | true =>
          rw [h.fixed x b hclosed]
          rcases List.mem_cons.mp ha with rfl | ha
          · simp [hclosed] at hopen
          · exact ih hm ha

variable {pass : φ → φ × Bool} {x : φ}

/-- A pass that tells of a change has added weight. -/
theorem weight_lt_pass (h : Converges grow closed l P weight limit)
    (hpass : ∀ x, pass x = l.foldl (visit grow closed) (x, false)) (hx : P x)
    (hflag : (pass x).2 = true) : weight x < weight (pass x).1 := by
  have hopen : ∃ a ∈ l, closed x a = false := by
    by_contra hall
    have hclosed : ∀ a ∈ l, closed x a = true := by simpa using hall
    have hsnd := (snd_foldl_visit_eq_false_iff h.fixed l x false).mpr ⟨rfl, hclosed⟩
    rw [← hpass, hflag] at hsnd
    cases hsnd
  obtain ⟨a, ha, hopen⟩ := hopen
  rw [hpass, fst_foldl_visit]
  exact h.weight_lt_foldl (fun a ha => ha) hx ha hopen

/-- A pass tells of no change exactly if it makes none. -/
theorem snd_pass_eq_false_iff (h : Converges grow closed l P weight limit)
    (hpass : ∀ x, pass x = l.foldl (visit grow closed) (x, false)) (hx : P x) :
    (pass x).2 = false ↔ (pass x).1 = x := by
  constructor
  · intro hflag
    exact congrArg Prod.fst (pass_eq_of_snd h.fixed hpass hflag).2
  · intro hsame
    cases hflag : (pass x).2 with
    | false => rfl
    | true =>
        have hlt := h.weight_lt_pass hpass hx hflag
        rw [hsame] at hlt
        exact absurd hlt (Nat.lt_irrefl _)

/-- Passes come to an end by themselves if there may be more of them than the weight can grow. -/
theorem endsWith_settle (h : Converges grow closed l P weight limit)
    (hpass : ∀ x, pass x = l.foldl (visit grow closed) (x, false)) (hx : P x) {bound : Nat}
    (hbound : limit < bound + weight x) : EndsWith pass x (settle pass bound x) := by
  induction bound generalizing x with
  | zero =>
      have hlimit := h.limited x hx
      omega
  | succ n ih =>
      rw [settle]
      cases hflag : (pass x).2 with
      | false =>
          rw [if_neg Bool.false_ne_true]
          exact .stop hflag
      | true =>
          -- the pass has added weight, so one pass less is enough from here
          have hlt := h.weight_lt_pass hpass hx hflag
          rw [if_pos rfl]
          exact .again hflag (ih (pass_induction hpass h.keep hx) (by omega))

end Converges

end Visits

/-! ## Families of sets -/

section Families

variable {ν : Type} {w : ν → Nat} {f : List ν} {g : ν → ν} {i n c : Nat}

theorem getD_modify (d : ν) :
    (f.modify i g).getD n d = if i = n ∧ n < f.length then g (f.getD n d) else f.getD n d := by
  rw [List.getD_eq_getElem?_getD, List.getD_eq_getElem?_getD, List.getElem?_modify]
  by_cases hn : n < f.length
  · rw [List.getElem?_eq_getElem hn]
    by_cases hi : i = n <;> simp [hi, hn]
  · rw [List.getElem?_eq_none (by omega)]
    simp [hn]

theorem modify_eq_self (d : ν) (h : g (f.getD i d) = f.getD i d) : f.modify i g = f := by
  apply List.ext_getElem?
  intro j
  rw [List.getElem?_modify]
  by_cases hi : i = j
  · subst hi
    rw [List.getD_eq_getElem?_getD] at h
    cases hget : f[i]? with
    | none => rfl
    | some a => simpa [hget] using h
  · simp [hi]

theorem getD_map_const {κ : Type} (l : List κ) (d : ν) (n : Nat) :
    (l.map fun _ => d).getD n d = d := by
  rw [List.getD_eq_getElem?_getD, List.getElem?_map]
  cases l[n]? <;> rfl

theorem forall_mem_of_getD {Q : ν → Prop} (d : ν) (h : ∀ n, Q (f.getD n d)) : ∀ a ∈ f, Q a := by
  intro a ha
  obtain ⟨n, hn, rfl⟩ := List.getElem_of_mem ha
  have hget := h n
  rwa [List.getD_eq_getElem _ _ hn] at hget

theorem mem_flatMap_of_getD {κ : Type} {members : ν → List κ} {d : ν} (hd : members d = []) {k : κ}
    (h : k ∈ members (f.getD n d)) : k ∈ f.flatMap members := by
  by_cases hn : n < f.length
  · rw [List.getD_eq_getElem _ _ hn] at h
    exact List.mem_flatMap.mpr ⟨f[n], List.getElem_mem hn, h⟩
  · rw [List.getD_eq_default _ _ (Nat.le_of_not_lt hn), hd] at h
    exact absurd h List.not_mem_nil

theorem weigh_lt_modify (d : ν) (hi : i < f.length) (h : w (f.getD i d) < w (g (f.getD i d))) :
    weigh w f < weigh w (f.modify i g) := by
  induction f generalizing i with
  | nil => simp at hi
  | cons a f ih =>
      cases i with
      | zero => simpa [weigh] using h
      | succ i =>
          have hlt := ih (by simpa using hi) (by simpa using h)
          simpa [weigh] using hlt

theorem weigh_le (h : ∀ a ∈ f, w a ≤ c) : weigh w f ≤ f.length * c := by
  induction f with
  | nil => simp [weigh]
  | cons a f ih =>
      obtain ⟨ha, hf⟩ := List.forall_mem_cons.mp h
      have hle := ih hf
      rw [List.length_cons, Nat.succ_mul]
      change w a + weigh w f ≤ _
      omega

theorem weigh_eq_length_flatMap {κ : Type} (members : ν → List κ)
    (h : ∀ a ∈ f, w a = (members a).length) : weigh w f = (f.flatMap members).length := by
  induction f with
  | nil => rfl
  | cons a f ih =>
      obtain ⟨ha, hf⟩ := List.forall_mem_cons.mp h
      rw [List.flatMap_cons, List.length_append, ← ih hf, ← ha]
      rfl

end Families

/-! ## Sizes of sets -/

namespace SortedSet

variable {α : Type} [Ranked α] {s t : SortedSet α} {l : List α} {a : α}

theorem size_le (h : ∀ a ∈ s, a ∈ l) : s.size ≤ l.length := s.nodup.length_le_of_subset h

theorem size_le_union : s.size ≤ (s.union t).size := by
  apply size_le
  intro a ha
  exact mem_union.mpr (Or.inr ha)

theorem size_lt_union (ha : a ∈ t) (hs : ¬ a ∈ s) : s.size < (s.union t).size := by
  have hnodup : (a :: s.toList).Nodup := List.nodup_cons.mpr ⟨hs, s.nodup⟩
  refine hnodup.length_le_of_subset ?_
  intro b hb
  rcases List.mem_cons.mp hb with rfl | hb
  · exact mem_union.mpr (Or.inl ha)
  · exact mem_union.mpr (Or.inr hb)

theorem union_eq_self (h : ∀ a ∈ t, a ∈ s) : s.union t = s := by
  apply ext
  intro a
  rw [mem_union]
  exact ⟨fun ha => ha.elim (h a) id, Or.inr⟩

end SortedSet

end LanguageSpec
