import LanguageSpec.Fragment
import Mathlib

/-!
# Paths between states

The words that lead from one state to another, as languages. A new silent edge changes them by one
formula of a Kleene algebra, and rows that are put beside others do not see them. Everything about
the operations on fragments follows from these two facts.
-/

open Computability

namespace LanguageSpec.Fragment

def edgesAt (rows : List (List Edge)) (p : Nat) : List Edge := rows.getD p []

theorem lt_of_mem_edgesAt {rows : List (List Edge)} {p : Nat} {e : Edge} (he : e ∈ edgesAt rows p) :
    p < rows.length := by
  by_contra hp
  simp [edgesAt, Nat.le_of_not_lt hp] at he

/-- A path spells the letters of its edges; a silent edge adds nothing. -/
inductive Path (rows : List (List Edge)) : Nat → List Char → Nat → Prop
  | refl (q : Nat) : Path rows q [] q
  | step {p q : Nat} {w : List Char} {e : Edge} (he : e ∈ edgesAt rows p)
      (h : Path rows e.target w q) : Path rows p (e.letter.toList ++ w) q

namespace Path

variable {rows rows' : List (List Edge)} {p q r : Nat} {v w : List Char}

theorem append (h₁ : Path rows p v q) (h₂ : Path rows q w r) : Path rows p (v ++ w) r := by
  induction h₁ with
  | refl q => simpa using h₂
  | step he _ ih =>
      rw [List.append_assoc]
      exact .step he (ih h₂)

theorem of_edge {e : Edge} (he : e ∈ edgesAt rows p) : Path rows p e.letter.toList e.target := by
  simpa using Path.step he (.refl e.target)

theorem mono (hsub : ∀ s, ∀ e ∈ edgesAt rows s, e ∈ edgesAt rows' s) (h : Path rows p w q) :
    Path rows' p w q := by
  induction h with
  | refl q => exact .refl q
  | step he _ ih => exact .step (hsub _ _ he) ih

end Path

/-- The words that lead from `p` to `q`. -/
def between (rows : List (List Edge)) (p q : Nat) : Language Char := {w | Path rows p w q}

section Between

variable {rows : List (List Edge)} {p q r : Nat}

theorem mem_between {w : List Char} : w ∈ between rows p q ↔ Path rows p w q := Iff.rfl

theorem one_le_of_nil_mem {l : Language Char} (h : [] ∈ l) : 1 ≤ l := by
  rintro w rfl
  exact h

theorem one_le_between (rows : List (List Edge)) (q : Nat) : 1 ≤ between rows q q :=
  one_le_of_nil_mem (Path.refl q)

theorem between_mul_le (p q r : Nat) :
    between rows p q * between rows q r ≤ between rows p r := by
  intro w hw
  obtain ⟨u, hu, v, hv, rfl⟩ := Language.mem_mul.mp hw
  exact Path.append hu hv

/-- A family of languages that has the empty word at `q`, and is kept when an edge is put in front,
bounds the words that lead to `q`. -/
theorem between_le {X : Nat → Language Char} (hrefl : [] ∈ X q)
    (hstep : ∀ p, ∀ e ∈ edgesAt rows p, ∀ w ∈ X e.target, e.letter.toList ++ w ∈ X p) (p : Nat) :
    between rows p q ≤ X p := by
  intro w hw
  induction hw with
  | refl q => exact hrefl
  | step he _ ih => exact hstep _ _ he _ (ih hrefl)

theorem between_of_edgesAt_eq_nil (h : edgesAt rows p = []) (q : Nat) :
    between rows p q = if p = q then 1 else 0 := by
  apply le_antisymm
  · intro w hw
    cases hw with
    | refl =>
        rw [if_pos rfl]
        exact Language.nil_mem_one
    | step he _ => simp [h] at he
  · split
    · rename_i heq
      exact heq ▸ one_le_between rows p
    · exact bot_le

theorem between_of_not_entered (h : ∀ s, ∀ e ∈ edgesAt rows s, e.target ≠ q) (p : Nat) :
    between rows p q = if p = q then 1 else 0 := by
  apply le_antisymm
  · refine between_le (X := fun p => if p = q then 1 else 0) ?_ ?_ p
    · simp
    · intro s e he w hw
      rw [if_neg (h s e he)] at hw
      exact absurd hw (Language.notMem_zero w)
  · split
    · rename_i heq
      exact heq ▸ one_le_between rows p
    · exact bot_le

end Between

/-! ## A new silent edge -/

section Link

variable {rows : List (List Edge)} {s t : Nat}

@[simp] theorem length_link (rows : List (List Edge)) (s t : Nat) :
    (link rows s t).length = rows.length := by
  simp [link, connect]

theorem edgesAt_link_self (hs : s < rows.length) :
    edgesAt (link rows s t) s =
      if ⟨none, t⟩ ∈ edgesAt rows s then edgesAt rows s else edgesAt rows s ++ [⟨none, t⟩] := by
  simp [edgesAt, link, connect, List.getElem?_eq_getElem hs]

theorem edgesAt_link_of_ne {p : Nat} (hp : p ≠ s) :
    edgesAt (link rows s t) p = edgesAt rows p := by
  simp [edgesAt, link, connect, Ne.symm hp]

theorem mem_edgesAt_link (hs : s < rows.length) (p : Nat) (e : Edge) :
    e ∈ edgesAt (link rows s t) p ↔ e ∈ edgesAt rows p ∨ p = s ∧ e = ⟨none, t⟩ := by
  by_cases hp : p = s
  · subst hp
    rw [edgesAt_link_self hs]
    split
    · rename_i hmem
      constructor
      · exact Or.inl
      · rintro (he | ⟨-, rfl⟩)
        · exact he
        · exact hmem
    · simp
  · simp [edgesAt_link_of_ne hp, hp]

theorem between_le_link (hs : s < rows.length) (p q : Nat) :
    between rows p q ≤ between (link rows s t) p q := fun _ hw =>
  Path.mono (fun r e he => (mem_edgesAt_link hs r e).mpr (Or.inl he)) hw

theorem one_le_between_link (hs : s < rows.length) : 1 ≤ between (link rows s t) s t :=
  one_le_of_nil_mem
    (Path.of_edge (e := ⟨none, t⟩) ((mem_edgesAt_link hs s _).mpr (Or.inr ⟨rfl, rfl⟩)))

/-- The words from `p` to `q` by way of any number of new edges from `s` to `t`. -/
def rounds (rows : List (List Edge)) (s t p q : Nat) : Language Char :=
  between rows p s * (between rows t s)∗ * between rows t q

theorem between_link_le (hs : s < rows.length) (p q : Nat) :
    between (link rows s t) p q ≤ between rows p q + rounds rows s t p q := by
  refine between_le (X := fun p => between rows p q + rounds rows s t p q) ?_ ?_ p
  · exact Or.inl (Path.refl q)
  · intro r e he w hw
    rcases (mem_edgesAt_link hs r e).mp he with hold | ⟨hr, hnew⟩
    · -- an old edge goes in front of both summands
      have hletter : ∀ q, ∀ w ∈ between rows e.target q, e.letter.toList ++ w ∈ between rows r q :=
        fun q w hw => Path.step hold hw
      rcases hw with hw | hw
      · exact Or.inl (hletter q w hw)
      · obtain ⟨u, hu, v, hv, rfl⟩ := Language.mem_mul.mp hw
        obtain ⟨x, hx, y, hy, rfl⟩ := Language.mem_mul.mp hu
        refine Or.inr ?_
        rw [← List.append_assoc, ← List.append_assoc]
        exact Language.append_mem_mul (Language.append_mem_mul (hletter s x hx) hy) hv
    · -- the new edge adds a round
      subst hr hnew
      have hround : between rows t q + rounds rows r t t q =
          (between rows t r)∗ * between rows t q := by
        rw [rounds, ← one_add_mul, one_add_mul_kstar]
      have hle : (between rows t r)∗ * between rows t q ≤ rounds rows r t r q := by
        rw [rounds, mul_assoc]
        exact le_mul_of_one_le_left' (one_le_between rows r)
      exact Or.inr (hle (hround.le hw))

theorem rounds_le_between_link (hs : s < rows.length) (p q : Nat) :
    rounds rows s t p q ≤ between (link rows s t) p q := by
  have hround : (between rows t s)∗ ≤ between (link rows s t) t t := by
    apply kstar_le_of_mul_le_left (one_le_between _ t)
    calc between (link rows s t) t t * between rows t s
        ≤ between (link rows s t) t t * between (link rows s t) t s := by
          gcongr
          exact between_le_link hs t s
      _ ≤ between (link rows s t) t s := between_mul_le t t s
      _ ≤ between (link rows s t) t s * between (link rows s t) s t :=
          le_mul_of_one_le_right' (one_le_between_link hs)
      _ ≤ between (link rows s t) t t := between_mul_le t s t
  calc rounds rows s t p q
      ≤ between (link rows s t) p s * between (link rows s t) t t *
          between (link rows s t) t q := by
        unfold rounds
        gcongr
        · exact between_le_link hs p s
        · exact between_le_link hs t q
    _ ≤ between (link rows s t) p s * between (link rows s t) s t * between (link rows s t) t t *
          between (link rows s t) t q := by
        gcongr
        exact le_mul_of_one_le_right' (one_le_between_link hs)
    _ ≤ between (link rows s t) p t * between (link rows s t) t t *
          between (link rows s t) t q := by
        gcongr
        exact between_mul_le p s t
    _ ≤ between (link rows s t) p t * between (link rows s t) t q := by
        gcongr
        exact between_mul_le p t t
    _ ≤ between (link rows s t) p q := between_mul_le p t q

/-- A path over a silent edge from `s` to `t` reaches `s`, goes from `t` back to `s` any number of
times, and goes on from `t`. -/
theorem between_link (hs : s < rows.length) (p q : Nat) :
    between (link rows s t) p q = between rows p q + rounds rows s t p q :=
  le_antisymm (between_link_le hs p q)
    (add_le (between_le_link hs p q) (rounds_le_between_link hs p q))

theorem between_link_of_eq_zero_left (hs : s < rows.length) {p q : Nat}
    (h : between rows p s = 0) : between (link rows s t) p q = between rows p q := by
  rw [between_link hs, rounds, h, zero_mul, zero_mul, add_zero]

theorem between_link_of_eq_zero_right (hs : s < rows.length) {p q : Nat}
    (h : between rows t q = 0) : between (link rows s t) p q = between rows p q := by
  rw [between_link hs, rounds, h, mul_zero, add_zero]

/-- A silent edge to a state from which its source cannot be reached is taken once at most. -/
theorem between_link_of_no_return (hs : s < rows.length) (h : between rows t s = 0) (p q : Nat) :
    between (link rows s t) p q = between rows p q + between rows p s * between rows t q := by
  rw [between_link hs, rounds, h, kstar_zero, mul_one]

end Link

/-! ## Edges within bounds -/

def InRange (rows : List (List Edge)) : Prop :=
  ∀ s, ∀ e ∈ edgesAt rows s, e.target < rows.length

theorem InRange.link {rows : List (List Edge)} (h : InRange rows) {s t : Nat}
    (hs : s < rows.length) (ht : t < rows.length) : InRange (link rows s t) := by
  intro p e he
  rw [length_link]
  rcases (mem_edgesAt_link hs p e).mp he with hold | ⟨-, rfl⟩
  · exact h p e hold
  · exact ht

/-! ## Rows beside others -/

section Beside

variable {rows rows' : List (List Edge)} {p q : Nat}

/-- Rows with others behind them, whose edges move along. -/
def beside (rows rows' : List (List Edge)) : List (List Edge) :=
  rows ++ rows'.map (·.map (Edge.shift rows.length))

@[simp] theorem length_beside (rows rows' : List (List Edge)) :
    (beside rows rows').length = rows.length + rows'.length := by
  simp [beside]

theorem edgesAt_beside_of_lt (hp : p < rows.length) :
    edgesAt (beside rows rows') p = edgesAt rows p := by
  simp [edgesAt, beside, List.getElem?_append_left hp]

theorem edgesAt_beside_add (p : Nat) :
    edgesAt (beside rows rows') (rows.length + p) =
      (edgesAt rows' p).map (Edge.shift rows.length) := by
  simp only [edgesAt, beside, List.getD_eq_getElem?_getD, List.getElem?_append_right
    (Nat.le_add_right _ _), Nat.add_sub_cancel_left, List.getElem?_map]
  cases rows'[p]? <;> rfl

theorem mem_edgesAt_beside {e : Edge} : e ∈ edgesAt (beside rows rows') p ↔
    e ∈ edgesAt rows p ∨
      ∃ i, ∃ e' ∈ edgesAt rows' i, p = rows.length + i ∧ e = e'.shift rows.length := by
  rcases Nat.lt_or_ge p rows.length with hp | hp
  · rw [edgesAt_beside_of_lt hp]
    constructor
    · exact Or.inl
    · rintro (he | ⟨i, e', -, rfl, -⟩)
      · exact he
      · omega
  · obtain ⟨i, rfl⟩ := Nat.exists_eq_add_of_le hp
    rw [edgesAt_beside_add, List.mem_map]
    constructor
    · rintro ⟨e', he', rfl⟩
      exact Or.inr ⟨i, e', he', rfl, rfl⟩
    · rintro (he | ⟨j, e', he', hj, rfl⟩)
      · have hlt := lt_of_mem_edgesAt he
        omega
      · obtain rfl : i = j := by omega
        exact ⟨e', he', rfl⟩

theorem InRange.beside (h : InRange rows) (h' : InRange rows') : InRange (beside rows rows') := by
  intro p e he
  rw [length_beside]
  rcases mem_edgesAt_beside.mp he with hold | ⟨i, e', he', -, rfl⟩
  · exact Nat.lt_add_right _ (h p e hold)
  · exact Nat.add_lt_add_left (h' i e' he') rows.length

theorem path_beside_of_lt (h : InRange rows) {w : List Char} (hp : p < rows.length) :
    Path (beside rows rows') p w q ↔ q < rows.length ∧ Path rows p w q := by
  constructor
  · intro hw
    induction hw with
    | refl q => exact ⟨hp, .refl q⟩
    | step he _ ih =>
        rw [edgesAt_beside_of_lt hp] at he
        obtain ⟨hq, hw⟩ := ih (h _ _ he)
        exact ⟨hq, .step he hw⟩
  · rintro ⟨-, hw⟩
    induction hw with
    | refl q => exact .refl q
    | step he _ ih =>
        refine .step ?_ (ih (h _ _ he))
        rwa [edgesAt_beside_of_lt hp]

theorem path_beside_add {w : List Char} :
    Path (beside rows rows') (rows.length + p) w q ↔
      ∃ i, q = rows.length + i ∧ Path rows' p w i := by
  constructor
  · intro hw
    generalize hs : rows.length + p = s at hw
    induction hw generalizing p with
    | refl q => exact ⟨p, hs.symm, .refl p⟩
    | step he _ ih =>
        subst hs
        rw [edgesAt_beside_add] at he
        obtain ⟨e', he', rfl⟩ := List.mem_map.mp he
        obtain ⟨i, rfl, hw⟩ := ih (p := e'.target) rfl
        exact ⟨i, rfl, .step (e := e') he' hw⟩
  · rintro ⟨i, rfl, hw⟩
    induction hw with
    | refl q => exact .refl _
    | step he _ ih =>
        refine .step (e := Edge.shift rows.length _) ?_ ih
        rw [edgesAt_beside_add]
        exact List.mem_map_of_mem he

theorem between_beside_of_lt (h : InRange rows) (hp : p < rows.length) (hq : q < rows.length) :
    between (beside rows rows') p q = between rows p q := by
  ext w
  simp [mem_between, path_beside_of_lt h hp, hq]

theorem between_beside_of_lt_of_le (h : InRange rows) (hp : p < rows.length)
    (hq : rows.length ≤ q) : between (beside rows rows') p q = 0 := by
  ext w
  simp [mem_between, path_beside_of_lt h hp, Nat.not_lt.mpr hq]

theorem between_beside_add_of_lt (p : Nat) (hq : q < rows.length) :
    between (beside rows rows') (rows.length + p) q = 0 := by
  ext w
  simp only [mem_between, path_beside_add, Language.notMem_zero, iff_false]
  rintro ⟨i, rfl, -⟩
  omega

theorem between_beside_add_add (p q : Nat) :
    between (beside rows rows') (rows.length + p) (rows.length + q) = between rows' p q := by
  ext w
  simp [mem_between, path_beside_add]

end Beside

end LanguageSpec.Fragment
