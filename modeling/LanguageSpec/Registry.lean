import LanguageSpec.Fragment

/-!
# Named recognizers

A recognizer is the automaton of a definition, together with its character set when the definition
is nothing but a character class. A registry binds names to recognizers, each name once, in the
order of their definition.
-/

namespace LanguageSpec

structure Recognizer where
  fragment : Fragment
  charClass : Option CharSet
deriving DecidableEq

structure Registry where
  entries : List (String × Recognizer)
  distinct : (entries.map Prod.fst).Nodup

namespace Registry

def empty : Registry := ⟨[], List.nodup_nil⟩

def names (r : Registry) : List String := r.entries.map Prod.fst

def size (r : Registry) : Nat := r.entries.length

def get? (r : Registry) (name : String) : Option Recognizer :=
  (r.entries.find? fun e => e.1 = name).map Prod.snd

/-- Binds a name that is not bound yet. -/
def define? (r : Registry) (name : String) (x : Recognizer) : Option Registry :=
  if h : name ∈ r.names then none
  else
    some
      { entries := r.entries ++ [(name, x)]
        distinct := by
          rw [List.map_append, List.nodup_append]
          refine ⟨r.distinct, by simp, fun a ha b hb e => ?_⟩
          simp only [List.map_cons, List.map_nil, List.mem_singleton] at hb
          exact h (hb ▸ e ▸ ha) }

@[simp] theorem get?_empty (name : String) : empty.get? name = none := rfl

/-- A name can be bound exactly if it is not bound. -/
theorem define?_eq_none_iff {r : Registry} {name : String} {x : Recognizer} :
    r.define? name x = none ↔ name ∈ r.names := by
  unfold define?
  split <;> simp_all

/-- Binding a name changes what it stands for and nothing else. -/
theorem get?_of_define? {r r' : Registry} {name : String} {x : Recognizer}
    (h : r.define? name x = some r') (other : String) :
    r'.get? other = if name = other then some x else r.get? other := by
  unfold define? at h
  split at h
  · simp at h
  · rename_i hn
    obtain rfl := Option.some.inj h
    simp only [get?, List.find?_append]
    by_cases e : name = other
    · have none : r.entries.find? (fun e => e.1 = other) = none := by
        rw [List.find?_eq_none]
        intro p hp hpo
        simp only [decide_eq_true_eq] at hpo
        exact hn (List.mem_map.mpr ⟨p, hp, hpo.trans e.symm⟩)
      simp [none, e]
    · simp [e]

end Registry

end LanguageSpec
