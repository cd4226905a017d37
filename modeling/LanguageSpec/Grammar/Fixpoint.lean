/-!
# Repeated passes

A pass takes a value to the next and tells whether it changed anything. Passes are repeated until
one changes nothing.
-/

namespace LanguageSpec

variable {φ : Type}

def weigh {α : Type} (weight : α → Nat) (l : List α) : Nat := l.foldr (fun a n => weight a + n) 0

/-- The results of repeated passes, up to and with the first that changes nothing. At most `bound`
of them are made. -/
def passes (pass : φ → φ × Bool) : Nat → φ → List (φ × Bool)
  | 0, _ => []
  | bound + 1, x =>
    let r := pass x
    r :: if r.2 then passes pass bound r.1 else []

/-- The value after the last pass. -/
def settle (pass : φ → φ × Bool) : Nat → φ → φ
  | 0, x => x
  | bound + 1, x =>
    let r := pass x
    if r.2 then settle pass bound r.1 else r.1

/-- The value after the last pass is the last of the results. -/
theorem settle_eq_getLast (pass : φ → φ × Bool) (bound : Nat) (x : φ) :
    settle pass bound x = ((passes pass bound x).getLast?.map Prod.fst).getD x := by
  induction bound generalizing x with
  | zero => rfl
  | succ n ih =>
    simp only [settle, passes]
    split
    · rw [ih, List.getLast?_cons]
      cases (passes pass n (pass x).1).getLast? <;> rfl
    · rfl

end LanguageSpec
