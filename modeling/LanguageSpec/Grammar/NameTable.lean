/-!
# Name tables

A name table numbers names in the order of their first appearance.
-/

namespace LanguageSpec

/-- The elements of a list without those whose key an earlier one has. -/
def firstBy {α κ : Type} [DecidableEq κ] (key : α → κ) : List α → List α
  | [] => []
  | a :: l => a :: (firstBy key l).filter fun b => key b ≠ key a

theorem mem_map_firstBy {α κ : Type} [DecidableEq κ] {key : α → κ} {l : List α} {k : κ} :
    k ∈ (firstBy key l).map key ↔ k ∈ l.map key := by
  induction l with
  | nil => simp [firstBy]
  | cons a l ih =>
    by_cases h : k = key a
    · simp [firstBy, h]
    · simp only [List.mem_map] at ih
      simp only [firstBy, List.map_cons, List.mem_cons, h, false_or, List.mem_map,
        List.mem_filter, decide_eq_true_eq, ← ih]
      constructor
      · rintro ⟨b, ⟨hb, _⟩, rfl⟩
        exact ⟨b, hb, rfl⟩
      · rintro ⟨b, hb, rfl⟩
        exact ⟨b, ⟨hb, h⟩, rfl⟩

theorem nodup_map_firstBy {α κ : Type} [DecidableEq κ] (key : α → κ) (l : List α) :
    ((firstBy key l).map key).Nodup := by
  induction l with
  | nil => simp [firstBy]
  | cons a l ih =>
    rw [firstBy, List.map_cons, List.nodup_cons]
    refine ⟨fun h => ?_, ih.sublist ((List.filter_sublist).map key)⟩
    obtain ⟨b, hb, e⟩ := List.mem_map.mp h
    simp [e] at hb

structure NameTable where
  names : List String
  distinct : names.Nodup

namespace NameTable

def empty : NameTable := ⟨[], List.nodup_nil⟩

def size (t : NameTable) : Nat := t.names.length

def index? (t : NameTable) (name : String) : Option Nat := t.names.findIdx? (· = name)

def name? (t : NameTable) (i : Nat) : Option String := t.names[i]?

/-- Adds a name unless the table has it. -/
def add (t : NameTable) (name : String) : NameTable :=
  if h : name ∈ t.names then t
  else
    ⟨t.names ++ [name], by
      rw [List.nodup_append]
      refine ⟨t.distinct, by simp, fun a ha b hb e => ?_⟩
      rw [List.mem_singleton] at hb
      exact h (hb ▸ e ▸ ha)⟩

/-- The number a name has once it is added. -/
def indexAfterAdd (t : NameTable) (name : String) : Nat :=
  (t.index? name).getD t.size

def ofList (names : List String) : NameTable :=
  ⟨firstBy id names, by simpa using nodup_map_firstBy id names⟩

/-- Numbers and names determine each other. -/
theorem index?_eq_some_iff {t : NameTable} {name : String} {i : Nat} :
    t.index? name = some i ↔ t.name? i = some name := by
  simp only [index?, name?, List.findIdx?_eq_some_iff_getElem, List.getElem?_eq_some_iff,
    decide_eq_true_eq]
  constructor
  · rintro ⟨hi, h, -⟩
    exact ⟨hi, h⟩
  · rintro ⟨hi, h⟩
    refine ⟨hi, h, fun j hj e => ?_⟩
    have hd := List.pairwise_iff_getElem.mp t.distinct j i (by omega) hi hj
    exact hd (e.trans h.symm)

theorem index?_isSome_iff {t : NameTable} {name : String} :
    (t.index? name).isSome ↔ name ∈ t.names := by
  simp [index?, List.findIdx?_isSome]

end NameTable

end LanguageSpec
