/-!
# Sorted sets

Finite sets as strictly ascending lists. The order is that of a rank, an injective map to the
natural numbers, so two sets with the same members are equal.
-/

namespace LanguageSpec

/-- A type whose elements are told apart by a natural number. -/
class Ranked (α : Type) where
  rank : α → Nat
  rank_inj : ∀ {a b : α}, rank a = rank b → a = b

instance : Ranked Nat where
  rank n := n
  rank_inj h := h

instance : Ranked Char where
  rank := Char.toNat
  rank_inj h := Char.ext (UInt32.toNat_inj.mp h)

open Ranked (rank rank_inj)

/-- A finite set, kept as its members in strictly ascending order. -/
structure SortedSet (α : Type) [Ranked α] where
  toList : List α
  ascending : toList.Pairwise fun a b => rank a < rank b

namespace SortedSet

variable {α : Type} [Ranked α]

instance [DecidableEq α] : DecidableEq (SortedSet α) := fun s t =>
  if h : s.toList = t.toList then
    isTrue (by cases s; cases t; simpa using h)
  else
    isFalse fun e => h (congrArg toList e)

/-- The place of an element in an ascending list. An element that is there is not added twice. -/
def insertList (a : α) : List α → List α
  | [] => [a]
  | b :: bs =>
    if rank a < rank b then a :: b :: bs
    else if rank b < rank a then b :: insertList a bs
    else b :: bs

theorem mem_insertList {a x : α} {l : List α} : x ∈ insertList a l ↔ x = a ∨ x ∈ l := by
  induction l with
  | nil => simp [insertList]
  | cons b bs ih =>
    unfold insertList
    split
    · simp
    · split
      · simp only [List.mem_cons, ih]
        exact or_left_comm
      · have e : a = b := rank_inj (by omega)
        simp [e]

theorem insertList_ascending {a : α} {l : List α} (h : l.Pairwise fun a b => rank a < rank b) :
    (insertList a l).Pairwise fun a b => rank a < rank b := by
  induction l with
  | nil => simp [insertList]
  | cons b bs ih =>
    obtain ⟨hb, hbs⟩ := List.pairwise_cons.mp h
    unfold insertList
    split
    · rename_i hab
      refine List.pairwise_cons.mpr ⟨fun x hx => ?_, h⟩
      rcases List.mem_cons.mp hx with rfl | hx
      · exact hab
      · exact Nat.lt_trans hab (hb x hx)
    · split
      · rename_i hba
        refine List.pairwise_cons.mpr ⟨fun x hx => ?_, ih hbs⟩
        rcases mem_insertList.mp hx with rfl | hx
        · exact hba
        · exact hb x hx
      · exact h

def empty : SortedSet α := ⟨[], List.Pairwise.nil⟩

instance : EmptyCollection (SortedSet α) := ⟨empty⟩

instance : Membership α (SortedSet α) := ⟨fun s a => a ∈ s.toList⟩

instance [DecidableEq α] (a : α) (s : SortedSet α) : Decidable (a ∈ s) :=
  inferInstanceAs (Decidable (a ∈ s.toList))

def insert (s : SortedSet α) (a : α) : SortedSet α :=
  ⟨insertList a s.toList, insertList_ascending s.ascending⟩

/-- Adds the elements of a list, the last one first. -/
def insertAll (s : SortedSet α) (l : List α) : SortedSet α :=
  l.foldr (fun a s => s.insert a) s

def ofList (l : List α) : SortedSet α := empty.insertAll l

def union (s t : SortedSet α) : SortedSet α := s.insertAll t.toList

def filter (s : SortedSet α) (p : α → Bool) : SortedSet α :=
  ⟨s.toList.filter p, s.ascending.filter p⟩

def difference [DecidableEq α] (s t : SortedSet α) : SortedSet α :=
  s.filter fun a => decide (a ∉ t)

def size (s : SortedSet α) : Nat := s.toList.length

def isEmpty (s : SortedSet α) : Bool := s.toList.isEmpty

/-- Whether every member of `s` is one of `t`. -/
def isSubset [DecidableEq α] (s t : SortedSet α) : Bool :=
  s.toList.all fun a => decide (a ∈ t)

/-! ## Members -/

@[simp] theorem mem_toList {a : α} {s : SortedSet α} : a ∈ s.toList ↔ a ∈ s := Iff.rfl

@[simp] theorem not_mem_empty (a : α) : ¬ a ∈ (∅ : SortedSet α) := List.not_mem_nil

@[simp] theorem mem_insert {a x : α} {s : SortedSet α} : x ∈ s.insert a ↔ x = a ∨ x ∈ s :=
  mem_insertList

@[simp] theorem mem_insertAll {x : α} {s : SortedSet α} {l : List α} :
    x ∈ s.insertAll l ↔ x ∈ l ∨ x ∈ s := by
  induction l with
  | nil => simp [insertAll]
  | cons a l ih =>
    simp only [insertAll, List.foldr_cons] at ih ⊢
    simp [ih, or_assoc]

@[simp] theorem mem_ofList {x : α} {l : List α} : x ∈ ofList l ↔ x ∈ l := by
  rw [ofList, mem_insertAll]
  exact or_iff_left List.not_mem_nil

@[simp] theorem mem_union {x : α} {s t : SortedSet α} : x ∈ s.union t ↔ x ∈ t ∨ x ∈ s := by
  simp [union]

@[simp] theorem mem_filter {x : α} {s : SortedSet α} {p : α → Bool} :
    x ∈ s.filter p ↔ x ∈ s ∧ p x = true := by
  simp [filter, ← mem_toList]

@[simp] theorem mem_difference [DecidableEq α] {x : α} {s t : SortedSet α} :
    x ∈ s.difference t ↔ x ∈ s ∧ ¬ x ∈ t := by
  simp [difference]

theorem isSubset_eq_true_iff [DecidableEq α] {s t : SortedSet α} :
    s.isSubset t = true ↔ ∀ a ∈ s, a ∈ t := by
  simp [isSubset]

theorem isEmpty_eq_false_iff {s : SortedSet α} : s.isEmpty = false ↔ ∃ a, a ∈ s := by
  rw [isEmpty, List.isEmpty_eq_false_iff_exists_mem]
  rfl

theorem nodup (s : SortedSet α) : s.toList.Nodup :=
  s.ascending.imp fun h e => absurd h (by simp [e])

/-- A set is determined by its members. -/
theorem ext {s t : SortedSet α} (h : ∀ a, a ∈ s ↔ a ∈ t) : s = t := by
  obtain ⟨l, hl⟩ := s
  obtain ⟨m, hm⟩ := t
  have key : l = m := by
    change ∀ a, a ∈ l ↔ a ∈ m at h
    induction l generalizing m with
    | nil =>
      cases m with
      | nil => rfl
      | cons b bs => exact absurd ((h b).mpr List.mem_cons_self) List.not_mem_nil
    | cons a as ih =>
      cases m with
      | nil => exact absurd ((h a).mp List.mem_cons_self) List.not_mem_nil
      | cons b bs =>
        obtain ⟨ha, has⟩ := List.pairwise_cons.mp hl
        obtain ⟨hb, hbs⟩ := List.pairwise_cons.mp hm
        have first : a = b := by
          rcases List.mem_cons.mp ((h a).mp List.mem_cons_self) with e | hab
          · exact e
          rcases List.mem_cons.mp ((h b).mpr List.mem_cons_self) with e | hba
          · exact e.symm
          have h₁ := hb a hab
          have h₂ := ha b hba
          omega
        subst first
        have rest : ∀ x, x ∈ as ↔ x ∈ bs := by
          intro x
          have hx := h x
          rw [List.mem_cons, List.mem_cons] at hx
          constructor
          · intro hm
            rcases hx.mp (Or.inr hm) with e | hm'
            · exact absurd (ha x hm) (by rw [e]; exact Nat.lt_irrefl _)
            · exact hm'
          · intro hm
            rcases hx.mpr (Or.inr hm) with e | hm'
            · exact absurd (hb x hm) (by rw [e]; exact Nat.lt_irrefl _)
            · exact hm'
        rw [ih has bs hbs rest]
  subst key
  rfl

end SortedSet

end LanguageSpec
