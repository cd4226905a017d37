import LanguageSpec.Proofs.Fragment.Operations

/-!
# Invariants of fragments

What a new fragment has and what appending, branching, finalizing and a new silent edge keep is kept
by all operations. Repetitions add nothing but silent edges.
-/

namespace LanguageSpec.Fragment

/-! ## Edges -/

section Edges

variable {rows : List (List Edge)} {s t p : Nat} {e : Edge}

theorem link_of_le (h : rows.length ≤ s) : link rows s t = rows :=
  List.modify_eq_self h

theorem mem_edgesAt_link_of_mem (he : e ∈ edgesAt rows p) : e ∈ edgesAt (link rows s t) p := by
  rcases Nat.lt_or_ge s rows.length with hs | hs
  · exact (mem_edgesAt_link hs p e).mpr (.inl he)
  · rwa [link_of_le hs]

/-- Silent edges from several states to one are added to the edges that there are. -/
theorem mem_edgesAt_foldl_link {ts : List Nat} (hts : ∀ s ∈ ts, s < rows.length) :
    e ∈ edgesAt (ts.foldl (fun rows s => link rows s t) rows) p ↔
      e ∈ edgesAt rows p ∨ p ∈ ts ∧ e = ⟨none, t⟩ := by
  induction ts generalizing rows with
  | nil => simp
  | cons s ts ih =>
      obtain ⟨hs, hts⟩ := List.forall_mem_cons.mp hts
      rw [List.foldl_cons, ih, mem_edgesAt_link hs, List.mem_cons, or_assoc, ← or_and_right]
      intro s hs
      rw [length_link]
      exact hts s hs

end Edges

/-! ## The fragments that operations make -/

variable {f g k : Fragment}

theorem accept_of_not_isFinalized (h : ¬f.isFinalized = true) : f.accept = none :=
  Option.not_isSome_iff_eq_none.mp h

theorem accept_of_append? (h : f.append? g = some k) : f.accept = none := by
  apply accept_of_not_isFinalized
  rw [← append?_eq_none_iff (g := g), h]
  exact Option.some_ne_none k

theorem eq_of_append? (h : f.append? g = some k) : k =
    { states := splice f.states g.finalize.states f.tail
      tail := f.size + g.exit
      closed := f.closed
      last := some (f.size, f.size + g.exit)
      accept := none } := by
  rw [append?_eq (accept_of_append? h)] at h
  exact (Option.some.inj h).symm

/-- Finalizing adds silent edges from all tails to a new state. -/
theorem mem_edgesAt_finalize (h : f.accept = none) (ht : ∀ t ∈ f.closed ++ [f.tail], t < f.size)
    {p : Nat} {e : Edge} : e ∈ edgesAt f.finalize.states p ↔
      e ∈ edgesAt (beside f.states [[]]) p ∨ p ∈ f.closed ++ [f.tail] ∧ e = ⟨none, f.size⟩ := by
  rw [finalize_of_accept h]
  apply mem_edgesAt_foldl_link
  intro t htail
  rw [length_beside]
  exact Nat.lt_add_right 1 (ht t htail)

theorem accept_of_alternate? (h : f.alternate? = some k) : f.accept = none := by
  apply accept_of_not_isFinalized
  rw [← alternate?_eq_none_iff, h]
  exact Option.some_ne_none k

theorem eq_of_alternate? (h : f.alternate? = some k) :
    k = { f with tail := 0, closed := f.closed ++ [f.tail], last := none } := by
  unfold alternate? at h
  split at h
  · cases h
  · exact (Option.some.inj h).symm

/-! ## Invariants -/

/-- A property of fragments that has nothing to do with their last atom and that all operations
keep. -/
structure Invariant (P : Fragment → Prop) : Prop where
  new : P .new
  mark : ∀ {f : Fragment} (last : Option (Nat × Nat)), P f → P { f with last }
  withLink : ∀ {f : Fragment} (s t : Nat), P f → P (f.withLink s t)
  finalize : ∀ {f : Fragment}, P f → P f.finalize
  appendFinalized : ∀ {f g k : Fragment}, P f → P g.finalize → f.append? g = some k → P k
  alternate : ∀ {f k : Fragment}, P f → f.alternate? = some k → P k

namespace Invariant

variable {P : Fragment → Prop}

theorem append (h : Invariant P) (hf : P f) (hg : P g) (hk : f.append? g = some k) : P k :=
  h.appendFinalized hf (h.finalize hg) hk

theorem starLast (h : Invariant P) (hf : P f) : P f.starLast := by
  cases hl : f.last with
  | none => rwa [starLast_of_none hl]
  | some ends =>
      rw [starLast_of_some hl]
      exact h.withLink _ _ (h.withLink _ _ hf)

theorem plusLast (h : Invariant P) (hf : P f) : P f.plusLast := by
  cases hl : f.last with
  | none => rwa [plusLast_of_none hl]
  | some ends =>
      rw [plusLast_of_some hl]
      exact h.withLink _ _ hf

theorem starWhole (h : Invariant P) (hf : P f) : P f.starWhole := by
  have hmarked := h.mark (some (0, f.exit)) (h.finalize hf)
  exact h.withLink f.exit 0 (h.withLink 0 f.exit hmarked)

theorem plusWhole (h : Invariant P) (hf : P f) : P f.plusWhole := by
  have hmarked := h.mark (some (0, f.exit)) (h.finalize hf)
  exact h.withLink f.exit 0 hmarked

end Invariant

end LanguageSpec.Fragment
