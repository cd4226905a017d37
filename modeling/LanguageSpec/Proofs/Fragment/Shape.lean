import LanguageSpec.Proofs.Fragment.Invariant

/-!
# The shape of fragments

No state has an edge twice, and letters are printable, whatever is done to a fragment. The start
state is not entered until a fragment is repeated as a whole, and the accept state that finalizing
adds is not left until then.
-/

namespace LanguageSpec.Fragment

/-- The letters of all edges are printable. -/
def Printable (rows : List (List Edge)) : Prop :=
  ∀ s, ∀ e ∈ edgesAt rows s, ∀ c, e.letter = some c → CharSet.inAlphabet c = true

/-- Rows without repeated edges, whose letters are printable. -/
structure Tidy (rows : List (List Edge)) : Prop where
  nodup : ∀ s, (edgesAt rows s).Nodup
  printable : Printable rows

/-- The start state is the first and the accept state the last, and these are different. No edge
leads out of the states, into the start state or away from the accept state, no state has an edge
twice, and letters are printable. -/
structure Shaped (f : Fragment) : Prop where
  start : f.start = 0
  accept : f.accept = some (f.size - 1)
  accept_ne_start : f.size - 1 ≠ f.start
  target_lt : ∀ s, ∀ e ∈ edgesAt f.states s, e.target < f.size
  target_ne_start : ∀ s, ∀ e ∈ edgesAt f.states s, e.target ≠ f.start
  edgesAt_accept : edgesAt f.states (f.size - 1) = []
  nodup : ∀ s, (edgesAt f.states s).Nodup
  printable : Printable f.states

/-! ## Rows -/

theorem shift_injective (n : Nat) : Function.Injective (Edge.shift n) := by
  rintro ⟨c, s⟩ ⟨d, t⟩ heq
  simp only [Edge.shift, Edge.mk.injEq] at heq
  obtain ⟨rfl, htarget⟩ := heq
  obtain rfl : s = t := by omega
  rfl

namespace Tidy

variable {rows rows' : List (List Edge)}

theorem link (h : Tidy rows) (s t : Nat) : Tidy (link rows s t) := by
  rcases Nat.lt_or_ge s rows.length with hs | hs
  · refine ⟨fun p => ?_, fun p e he c hc => ?_⟩
    · by_cases hp : p = s
      · subst hp
        rw [edgesAt_link_self hs]
        split
        · exact h.nodup p
        · rename_i hnew
          rw [← List.concat_eq_append]
          exact (h.nodup p).concat hnew
      · rw [edgesAt_link_of_ne hp]
        exact h.nodup p
    · rcases (mem_edgesAt_link hs p e).mp he with hold | ⟨-, rfl⟩
      · exact h.printable p e hold c hc
      · cases hc
  · rwa [link_of_le hs]

theorem foldl_link (h : Tidy rows) (ts : List Nat) (t : Nat) :
    Tidy (ts.foldl (fun rows s => Fragment.link rows s t) rows) := by
  induction ts generalizing rows with
  | nil => exact h
  | cons s ts ih => exact ih (h.link s t)

theorem beside (h : Tidy rows) (h' : Tidy rows') : Tidy (beside rows rows') := by
  constructor
  · intro p
    rcases Nat.lt_or_ge p rows.length with hp | hp
    · rw [edgesAt_beside_of_lt hp]
      exact h.nodup p
    · obtain ⟨i, rfl⟩ := Nat.exists_eq_add_of_le hp
      rw [edgesAt_beside_add]
      exact (h'.nodup i).map (shift_injective _)
  · intro p e he c hc
    rcases mem_edgesAt_beside.mp he with hold | ⟨i, e', he', -, rfl⟩
    · exact h.printable p e hold c hc
    · exact h'.printable i e' he' c hc

theorem of_edgesAt_eq_nil (h : ∀ s, edgesAt rows s = []) : Tidy rows := by
  constructor
  · intro s
    rw [h]
    exact List.nodup_nil
  · intro s e he
    rw [h] at he
    cases he

end Tidy

theorem edgesAt_single_nil (s : Nat) : edgesAt [[]] s = [] := by
  rcases s with _ | s <;> rfl

theorem tidy_finalize {f : Fragment} (h : Tidy f.states) : Tidy f.finalize.states := by
  cases hf : f.accept with
  | none =>
      rw [finalize_of_accept hf]
      exact (h.beside (.of_edgesAt_eq_nil edgesAt_single_nil)).foldl_link _ _
  | some a =>
      rwa [finalize_of_isFinalized (isFinalized_of_accept hf)]

/-- No operation repeats an edge or adds a letter that is not printable. -/
theorem invariant_tidy : Invariant fun f => Tidy f.states where
  new := .of_edgesAt_eq_nil edgesAt_single_nil
  mark _ h := h
  withLink s t h := h.link s t
  finalize h := tidy_finalize h
  appendFinalized hf hg hk := by
    rw [eq_of_append? hk]
    exact (hf.beside hg).link _ _
  alternate hf hk := by
    rw [eq_of_alternate? hk]
    exact hf

theorem tidy_ofSet {s : CharSet} (hs : ∀ c ∈ s, CharSet.inAlphabet c = true) :
    Tidy (ofSet s).states := by
  constructor
  · intro p
    rcases p with _ | p
    · rw [edgesAt_ofSet_zero]
      refine s.nodup.map fun c d hcd => ?_
      exact Option.some.inj (congrArg Edge.letter hcd)
    · rw [edgesAt_ofSet_succ]
      exact List.nodup_nil
  · intro p e he c hc
    obtain ⟨-, d, hd, rfl⟩ := mem_edgesAt_ofSet he
    obtain rfl := Option.some.inj hc
    exact hs d hd

/-! ## Finalized fragments -/

namespace Unfinished

variable {f : Fragment} {b : Branches} {p : Nat} {e : Edge}

theorem edgesAt_finalize_size (h : Unfinished f b) : edgesAt f.finalize.states f.size = [] := by
  apply List.eq_nil_iff_forall_not_mem.mpr
  intro e he
  rcases (mem_edgesAt_finalize h.accept h.tails_lt).mp he with hold | ⟨htail, -⟩
  · rw [edgesAt_size] at hold
    cases hold
  · exact Nat.lt_irrefl _ (h.tails_lt _ htail)

theorem target_ne_zero_finalize (h : Unfinished f b) (he : e ∈ edgesAt f.finalize.states p) :
    e.target ≠ 0 := by
  rcases (mem_edgesAt_finalize h.accept h.tails_lt).mp he with hold | ⟨-, rfl⟩
  · rcases mem_edgesAt_beside.mp hold with hold | ⟨i, e', he', -⟩
    · exact h.start p e hold
    · rw [edgesAt_single_nil] at he'
      cases he'
  · exact Nat.ne_of_gt h.size_pos

/-- Finalizing a fragment that is open at its end isolates its start and its accept state. -/
theorem shaped_finalize (h : Unfinished f b) (ht : Tidy f.states) : Shaped f.finalize := by
  have hlast : f.finalize.size - 1 = f.size := by
    rw [h.size_finalize]
    exact Nat.add_sub_cancel _ _
  have htidy := tidy_finalize ht
  refine ⟨rfl, ?_, ?_, h.inRange_finalize, fun _ _ => h.target_ne_zero_finalize, ?_, htidy.nodup,
    htidy.printable⟩
  · rw [hlast, accept_finalize, h.exit_eq]
  · rw [hlast]
    exact Nat.ne_of_gt h.size_pos
  · rw [hlast]
    exact h.edgesAt_finalize_size

end Unfinished

end LanguageSpec.Fragment
